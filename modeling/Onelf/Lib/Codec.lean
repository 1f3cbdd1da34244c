import Onelf.Lib.Utf8

/-! Exact codecs: readers that accept what a rendering writes and nothing else, and writers
bounded by a size. The states carry their bounds, so no reader or writer can leave them. -/

namespace Onelf.Lib.Codec

section Readers

variable {ε α β γ : Type} {size limit : Nat}

/-- What is left to read, and the records counted so far. -/
@[ext] structure Source (size limit : Nat) where
  rest : Bytes
  used : Nat
  small : rest.length ≤ size
  within : used ≤ limit

abbrev ReadM (ε : Type) (size limit : Nat) := StateT (Source size limit) (Except ε)

/-- `reader` returns exactly the admitted values whose rendering lies ahead, and counts their
cost. -/
def Reads (reader : ReadM ε size limit α) (render : α → Bytes) (cost : α → Nat)
    (admits : α → Prop) : Prop :=
  ∀ source value next, reader source = .ok (value, next) ↔
    admits value ∧ source.rest = render value ++ next.rest ∧ next.used = source.used + cost value

theorem bind_eq_ok {reader : ReadM ε size limit α} {after : α → ReadM ε size limit β}
    {source next : Source size limit} {value : β} :
    (reader >>= after) source = .ok (value, next) ↔
      ∃ first middle, reader source = .ok (first, middle) ∧
        after first middle = .ok (value, next) := by
  change (Except.bind (reader source) fun result => after result.1 result.2) = _ ↔ _
  cases reader source with
  | error reason => simp [Except.bind]
  | ok result => simp [Except.bind, Prod.ext_iff]

theorem map_fst_eq_ok {result : Except ε (α × β)} {value : α} :
    result.map Prod.fst = .ok value ↔ ∃ next, result = .ok (value, next) := by
  cases result with
  | error reason => simp [Except.map]
  | ok pair => simp [Except.map, Prod.ext_iff]

theorem pure_eq_ok {value result : α} {source next : Source size limit} :
    (pure value : ReadM ε size limit α) source = .ok (result, next) ↔
      result = value ∧ next = source := by
  change Except.ok (value, source) = _ ↔ _
  simp [eq_comm]

/-- Goes on only while `condition` holds. -/
def ensure (condition : Prop) [Decidable condition] (reason : ε) : ReadM ε size limit Unit :=
  fun source => if condition then .ok ((), source) else .error reason

theorem ensure_eq_ok {condition : Prop} [Decidable condition] {reason : ε}
    {source next : Source size limit} {nothing : Unit} :
    ensure condition reason source = .ok (nothing, next) ↔ condition ∧ next = source := by
  rw [ensure]
  split
  · next holds => simp [holds, eq_comm]
  · next fails => simp [fails]

/-- Goes on with what a check of the bytes alone returns. -/
def check (verdict : Except ε α) : ReadM ε size limit α :=
  fun source => verdict.map fun value => (value, source)

theorem check_eq_ok {verdict : Except ε α} {source next : Source size limit} {value : α} :
    check verdict source = .ok (value, next) ↔ verdict = .ok value ∧ next = source := by
  rw [check]
  cases verdict with
  | error reason => simp [Except.map]
  | ok found => simp [Except.map, eq_comm]

def take (short : ε) (count : Nat) : ReadM ε size limit Bytes := fun source =>
  if count ≤ source.rest.length then
    .ok (source.rest.take count,
      { source with
        rest := source.rest.drop count
        small := le_trans (by simp) source.small })
  else .error short

def spend (overflow : ε) (count : Nat) : ReadM ε size limit Unit := fun source =>
  if fits : source.used + count ≤ limit then
    .ok ((), { source with used := source.used + count, within := fits })
  else .error overflow

def remaining : ReadM ε size limit Nat := fun source => .ok (source.rest.length, source)

theorem remaining_eq_ok {source next : Source size limit} {left : Nat} :
    (remaining : ReadM ε size limit Nat) source = .ok (left, next) ↔
      left = source.rest.length ∧ next = source := by
  simp [remaining, eq_comm]

def finish (trailing : ε) : ReadM ε size limit Unit := fun source =>
  if source.rest = [] then .ok ((), source) else .error trailing

theorem finish_eq_ok {trailing : ε} {source next : Source size limit} {nothing : Unit} :
    finish trailing source = .ok (nothing, next) ↔ source.rest = [] ∧ next = source := by
  rw [finish]
  split
  · next empty => simp [empty, eq_comm]
  · next more => simp [more]

/-- Narrows the source to the next `count` bytes and returns what lies after them. -/
def narrow (short : ε) (count : Nat) : ReadM ε size limit {bytes : Bytes // bytes.length ≤ size} :=
  fun source =>
    if count ≤ source.rest.length then
      .ok (⟨source.rest.drop count, le_trans (by simp) source.small⟩,
        { source with
          rest := source.rest.take count
          small := le_trans (by simp) source.small })
    else .error short

def restore (outer : {bytes : Bytes // bytes.length ≤ size}) : ReadM ε size limit Unit :=
  fun source => .ok ((), { source with rest := outer.val, small := outer.property })

def repeatRead (reader : ReadM ε size limit α) : Nat → ReadM ε size limit (List α)
  | 0 => pure []
  | count + 1 => do
      let value ← reader
      let values ← repeatRead reader count
      pure (value :: values)

theorem take_reads (short : ε) (count : Nat) :
    Reads (take short count : ReadM ε size limit Bytes) id (fun _ => 0)
      (fun bytes => bytes.length = count) := by
  intro source bytes next
  rw [take]
  split
  · next enough =>
      rw [Except.ok.injEq, Prod.mk.injEq]
      constructor
      · rintro ⟨rfl, rfl⟩
        simp [enough]
      · rintro ⟨length, ahead, counted⟩
        have front : source.rest.take count = bytes := by
          rw [ahead, ← length]
          exact List.take_left
        have back : source.rest.drop count = next.rest := by
          rw [ahead, ← length]
          exact List.drop_left
        exact ⟨front, Source.ext back counted.symm⟩
  · next short =>
      simp only [reduceCtorEq, false_iff]
      rintro ⟨length, ahead, -⟩
      apply short
      rw [ahead, List.length_append]
      simp only [id]
      omega

theorem spend_eq_ok {overflow : ε} {count : Nat} {source next : Source size limit} {nothing : Unit} :
    spend overflow count source = .ok (nothing, next) ↔
      next.rest = source.rest ∧ next.used = source.used + count := by
  rw [spend]
  split
  · constructor
    · intro spent
      cases spent
      exact ⟨rfl, rfl⟩
    · rintro ⟨same, counted⟩
      rw [Except.ok.injEq, Prod.mk.injEq]
      exact ⟨rfl, Source.ext same.symm counted.symm⟩
  · next overflow =>
      simp only [reduceCtorEq, false_iff]
      rintro ⟨-, counted⟩
      have bound := next.within
      omega

theorem Reads.congr {reader : ReadM ε size limit α} {render render' : α → Bytes}
    {cost cost' : α → Nat} {admits admits' : α → Prop} (reads : Reads reader render cost admits)
    (renders : ∀ value, render' value = render value) (costs : ∀ value, cost' value = cost value)
    (same : ∀ value, admits' value ↔ admits value) : Reads reader render' cost' admits' := by
  intro source value next
  rw [renders, costs, same]
  exact reads source value next

/-- A field on which the reading of the rest depends. -/
theorem Reads.guide {reader : ReadM ε size limit α} {after : α → ReadM ε size limit γ}
    {render : α → Bytes} {render' : α → γ → Bytes} {cost : α → Nat} {cost' : γ → Nat}
    {admits : α → Prop} {known : γ → Prop} {later : α → γ → Prop} (get : γ → α)
    (first : Reads reader render cost admits)
    (second : ∀ value, admits value →
      Reads (after value) (render' value) cost' fun whole =>
        (known whole ∧ get whole = value) ∧ later value whole) :
    Reads (reader >>= after) (fun whole => render (get whole) ++ render' (get whole) whole)
      (fun whole => cost (get whole) + cost' whole)
      fun whole => known whole ∧ admits (get whole) ∧ later (get whole) whole := by
  intro source whole next
  rw [bind_eq_ok]
  constructor
  · intro accepted
    rcases accepted with ⟨value, middle, read, rest⟩
    rcases (first _ _ _).mp read with ⟨admitted, ahead, counted⟩
    rcases (second value admitted _ _ _).mp rest with ⟨⟨⟨prior, same⟩, more⟩, behind, total⟩
    subst same
    refine ⟨⟨prior, admitted, more⟩, ?_, ?_⟩
    · rw [ahead, behind, List.append_assoc]
    · rw [total, counted, Nat.add_assoc]
  · intro shape
    rcases shape with ⟨⟨prior, admitted, more⟩, ahead, counted⟩
    have suffix := source.small
    rw [ahead, List.append_assoc, List.length_append] at suffix
    change next.used = source.used + (cost (get whole) + cost' whole) at counted
    have bound := next.within
    let middle : Source size limit :=
      ⟨render' (get whole) whole ++ next.rest, source.used + cost (get whole), by omega, by omega⟩
    refine ⟨get whole, middle, (first _ _ _).mpr ⟨admitted, ?_, rfl⟩,
      (second _ admitted _ _ _).mpr ⟨⟨⟨prior, rfl⟩, more⟩, rfl, ?_⟩⟩
    · rw [ahead, List.append_assoc]
    · rw [counted, Nat.add_assoc]

/-- One field of a value read field by field: `known` is what the fields before it fix. -/
theorem Reads.field {reader : ReadM ε size limit α} {after : α → ReadM ε size limit γ}
    {render : α → Bytes} {render' : γ → Bytes} {cost : α → Nat} {cost' : γ → Nat}
    {admits : α → Prop} {known later : γ → Prop} (get : γ → α) (first : Reads reader render cost admits)
    (second : ∀ value, admits value →
      Reads (after value) render' cost' fun whole => (known whole ∧ get whole = value) ∧ later whole) :
    Reads (reader >>= after) (fun whole => render (get whole) ++ render' whole)
      (fun whole => cost (get whole) + cost' whole)
      fun whole => known whole ∧ admits (get whole) ∧ later whole :=
  first.guide get second

/-- The first field of a value: nothing is known of it yet. -/
theorem Reads.start {reader : ReadM ε size limit α} {after : α → ReadM ε size limit γ}
    {render : α → Bytes} {render' : γ → Bytes} {cost : α → Nat} {cost' : γ → Nat}
    {admits : α → Prop} {later : γ → Prop} (get : γ → α) (first : Reads reader render cost admits)
    (second : ∀ value, admits value →
      Reads (after value) render' cost' fun whole => (True ∧ get whole = value) ∧ later whole) :
    Reads (reader >>= after) (fun whole => render (get whole) ++ render' whole)
      (fun whole => cost (get whole) + cost' whole)
      fun whole => True ∧ admits (get whole) ∧ later whole :=
  first.field get second

/-- The first field, where the reading of the rest depends on it. -/
theorem Reads.startGuide {reader : ReadM ε size limit α} {after : α → ReadM ε size limit γ}
    {render : α → Bytes} {render' : α → γ → Bytes} {cost : α → Nat} {cost' : γ → Nat}
    {admits : α → Prop} {later : α → γ → Prop} (get : γ → α)
    (first : Reads reader render cost admits)
    (second : ∀ value, admits value →
      Reads (after value) (render' value) cost' fun whole =>
        (True ∧ get whole = value) ∧ later value whole) :
    Reads (reader >>= after) (fun whole => render (get whole) ++ render' (get whole) whole)
      (fun whole => cost (get whole) + cost' whole)
      fun whole => True ∧ admits (get whole) ∧ later (get whole) whole :=
  first.guide get second

/-- The last step: every field is fixed. -/
theorem Reads.done {known : γ → Prop} {value : γ} (fixed : ∀ whole, known whole ↔ whole = value) :
    Reads (pure value : ReadM ε size limit γ) (fun _ => []) (fun _ => 0)
      fun whole => known whole ∧ True := by
  intro source whole next
  simp only [pure_eq_ok, fixed, and_true]
  constructor
  · rintro ⟨rfl, rfl⟩
    exact ⟨rfl, rfl, rfl⟩
  · rintro ⟨rfl, ahead, counted⟩
    exact ⟨rfl, Source.ext ahead.symm counted⟩

/-- A check after a reader, which turns the value read into another. -/
theorem Reads.checked {reader : ReadM ε size limit α} {verdict : α → Except ε β}
    {render : α → Bytes} {cost : α → Nat} {admits : α → Prop} (back : β → α)
    (admits' : β → Prop) (first : Reads reader render cost admits)
    (accepts : ∀ value result, admits value →
      (verdict value = .ok result ↔ value = back result ∧ admits' result)) :
    Reads (reader >>= fun value => check (verdict value)) (fun result => render (back result))
      (fun result => cost (back result)) fun result => admits (back result) ∧ admits' result := by
  intro source result next
  simp only [bind_eq_ok, check_eq_ok]
  constructor
  · rintro ⟨value, middle, read, accepted, rfl⟩
    obtain ⟨admitted, ahead⟩ := (first _ _ _).mp read
    obtain ⟨rfl, more⟩ := (accepts value result admitted).mp accepted
    exact ⟨⟨admitted, more⟩, ahead⟩
  · rintro ⟨⟨admitted, more⟩, ahead⟩
    exact ⟨back result, next, (first _ _ _).mpr ⟨admitted, ahead⟩,
      (accepts _ _ admitted).mpr ⟨rfl, more⟩, rfl⟩

theorem Reads.repeated {reader : ReadM ε size limit α} {render : α → Bytes} {cost : α → Nat}
    {admits : α → Prop} (item : Reads reader render cost admits) (count : Nat) :
    Reads (repeatRead reader count) (fun values => values.flatMap render)
      (fun values => (values.map cost).sum)
      fun values => values.length = count ∧ ∀ value ∈ values, admits value := by
  induction count with
  | zero =>
      intro source values next
      rw [repeatRead, pure_eq_ok]
      constructor
      · rintro ⟨rfl, rfl⟩
        simp
      · rintro ⟨⟨none, -⟩, ahead, counted⟩
        rw [List.length_eq_zero_iff.mp none] at ahead counted ⊢
        exact ⟨rfl, Source.ext ahead.symm counted⟩
  | succ count ih =>
      intro source values next
      simp only [repeatRead, bind_eq_ok, pure_eq_ok]
      constructor
      · rintro ⟨value, middle, read, others, later, rest, rfl, rfl⟩
        obtain ⟨admitted, ahead, counted⟩ := (item _ _ _).mp read
        obtain ⟨⟨number, all⟩, behind, total⟩ := (ih _ _ _).mp rest
        refine ⟨⟨by simp [number], List.forall_mem_cons.mpr ⟨admitted, all⟩⟩, ?_, ?_⟩
        · rw [ahead, behind, List.flatMap_cons, List.append_assoc]
        · rw [total, counted, List.map_cons, List.sum_cons, Nat.add_assoc]
      · rintro ⟨⟨number, all⟩, ahead, counted⟩
        cases values with
        | nil => cases number
        | cons value values =>
            obtain ⟨admitted, others⟩ := List.forall_mem_cons.mp all
            rw [List.flatMap_cons, List.append_assoc] at ahead
            rw [List.map_cons, List.sum_cons, ← Nat.add_assoc] at counted
            have suffix := source.small
            rw [ahead, List.length_append] at suffix
            have bound := next.within
            let middle : Source size limit :=
              ⟨values.flatMap render ++ next.rest, source.used + cost value, by omega, by omega⟩
            exact ⟨value, middle, (item _ _ _).mpr ⟨admitted, ahead, rfl⟩, values, next,
              (ih _ _ _).mpr ⟨⟨by simpa using number, others⟩, rfl, counted⟩, rfl, rfl⟩

/-! ### Numbers, counted lists and framed records -/

def u32 (short : ε) : ReadM ε size limit Nat := do
  let value ← take short 4
  check (.ok (ofLeBytes value))

theorem u32_reads (short : ε) :
    Reads (u32 short : ReadM ε size limit Nat) (leBytes 4) (fun _ => 0) (· < 256 ^ 4) := by
  refine (Reads.checked (leBytes 4) (· < 256 ^ 4) (take_reads short 4) ?_).congr
    (fun _ => rfl) (fun _ => rfl) (fun _ => by simp)
  intro bytes value length
  rw [Except.ok.injEq]
  constructor
  · rintro rfl
    refine ⟨?_, length ▸ ofLeBytes_lt bytes⟩
    rw [← length, leBytes_ofLeBytes]
  · rintro ⟨rfl, fits⟩
    exact ofLeBytes_leBytes 4 value fits

/-- A little-endian number of `width` bytes. -/
def number (short : ε) (width : Nat) : ReadM ε size limit Nat := do
  let bytes ← take short width
  check (.ok (ofLeBytes bytes))

theorem number_reads (short : ε) (width : Nat) :
    Reads (number short width : ReadM ε size limit Nat) (leBytes width) (fun _ => 0)
      (· < 256 ^ width) := by
  apply (Reads.checked (leBytes width) (· < 256 ^ width) (take_reads short width) _).congr
  · exact fun _ => rfl
  · exact fun _ => rfl
  · simp
  · intro bytes value length
    rw [Except.ok.injEq]
    constructor
    · intro same
      rw [← same]
      refine ⟨?_, length ▸ ofLeBytes_lt bytes⟩
      rw [← length, leBytes_ofLeBytes]
    · intro shape
      rw [shape.1]
      exact ofLeBytes_leBytes width value shape.2

/-- A count of records that each take at least `minimum` bytes. -/
def count (short overflow exceeds : ε) (minimum : Nat) : ReadM ε size limit Nat := do
  let number ← u32 short
  spend overflow number
  let left ← remaining
  ensure (number ≤ left / minimum) exceeds
  pure number

theorem count_eq_ok {short overflow exceeds : ε} {minimum number : Nat}
    {source next : Source size limit} :
    count short overflow exceeds minimum source = .ok (number, next) ↔
      number < 256 ^ 4 ∧ source.rest = leBytes 4 number ++ next.rest ∧
        next.used = source.used + number ∧ number ≤ next.rest.length / minimum := by
  simp only [count, bind_eq_ok, u32_reads short _ _ _, spend_eq_ok, remaining_eq_ok, ensure_eq_ok,
    pure_eq_ok]
  constructor
  · rintro ⟨_, first, ⟨fits, ahead, counted⟩, _, second, ⟨same, spent⟩, _, _, ⟨rfl, rfl⟩, _, _,
      ⟨enough, rfl⟩, rfl, rfl⟩
    refine ⟨fits, ?_, ?_, enough⟩
    · rw [ahead, same]
    · rw [spent, counted, Nat.add_zero]
  · rintro ⟨fits, ahead, counted, enough⟩
    have bound := next.within
    let first : Source size limit := ⟨next.rest, source.used, next.small, by omega⟩
    exact ⟨number, first, ⟨fits, ahead, rfl⟩, (), next, ⟨rfl, counted⟩, _, next, ⟨rfl, rfl⟩, (), next,
      ⟨enough, rfl⟩, rfl, rfl⟩

def counted (short overflow exceeds : ε) (minimum : Nat) (item : ReadM ε size limit α) :
    ReadM ε size limit (List α) := do
  let number ← count short overflow exceeds minimum
  repeatRead item number

def countedBytes (render : α → Bytes) (values : List α) : Bytes :=
  leBytes 4 values.length ++ values.flatMap render

theorem minimum_mul_le {render : α → Bytes} {minimum : Nat} {values : List α}
    (least : ∀ value ∈ values, minimum ≤ (render value).length) :
    values.length * minimum ≤ (values.flatMap render).length := by
  induction values with
  | nil => simp
  | cons value values ih =>
      obtain ⟨first, others⟩ := List.forall_mem_cons.mp least
      have rest := ih others
      rw [List.length_cons, List.flatMap_cons, List.length_append, Nat.succ_mul]
      omega

/-- The bound a count is held to never refuses a list of records above the minimum. -/
theorem Reads.counted {short overflow exceeds : ε} {item : ReadM ε size limit α}
    {render : α → Bytes} {cost : α → Nat} {admits : α → Prop} {minimum : Nat}
    (reads : Reads item render cost admits) (limitFits : limit < 256 ^ 4) (positive : 0 < minimum)
    (least : ∀ value, admits value → minimum ≤ (render value).length) :
    Reads (counted short overflow exceeds minimum item) (countedBytes render)
      (fun values => values.length + (values.map cost).sum)
      fun values => ∀ value ∈ values, admits value := by
  intro source values next
  rw [Codec.counted, bind_eq_ok]
  constructor
  · rintro ⟨number, middle, counts, items⟩
    obtain ⟨-, ahead, spent, -⟩ := count_eq_ok.mp counts
    obtain ⟨⟨rfl, all⟩, behind, total⟩ := (reads.repeated number _ _ _).mp items
    refine ⟨all, ?_, ?_⟩
    · rw [ahead, behind, countedBytes, List.append_assoc]
    · rw [total, spent, Nat.add_assoc]
  · rintro ⟨all, ahead, total⟩
    rw [countedBytes, List.append_assoc] at ahead
    have suffix := source.small
    rw [ahead, List.length_append] at suffix
    have bound := next.within
    have room := minimum_mul_le fun value member => least value (all value member)
    change next.used = source.used + (values.length + (values.map cost).sum) at total
    let middle : Source size limit :=
      ⟨values.flatMap render ++ next.rest, source.used + values.length, by omega, by omega⟩
    refine ⟨values.length, middle, count_eq_ok.mpr ⟨by omega, ahead, rfl, ?_⟩,
      (reads.repeated _ _ _ _).mpr ⟨⟨rfl, all⟩, rfl, ?_⟩⟩
    · rw [Nat.le_div_iff_mul_le positive]
      change _ ≤ (values.flatMap render ++ next.rest).length
      rw [List.length_append]
      omega
    · rw [total, Nat.add_assoc]

/-- A length-prefixed record: its tag, then what `body` reads, and nothing more. -/
def framed (short empty misplaced trailing : ε) (tag : UInt8) (body : ReadM ε size limit α) :
    ReadM ε size limit α := do
  let length ← u32 short
  ensure (length ≠ 0) empty
  let outer ← narrow short length
  let first ← take short 1
  ensure (first = [tag]) misplaced
  let value ← body
  finish trailing
  restore outer
  pure value

def frame (tag : UInt8) (body : Bytes) : Bytes := leBytes 4 (body.length + 1) ++ tag :: body

@[simp] theorem length_frame (tag : UInt8) (body : Bytes) :
    (frame tag body).length = body.length + 5 := by
  simp [frame]
  omega

theorem narrow_eq_ok {short : ε} {length : Nat} {source next : Source size limit}
    {outer : {bytes : Bytes // bytes.length ≤ size}} :
    narrow short length source = .ok (outer, next) ↔
      next.rest.length = length ∧ source.rest = next.rest ++ outer.val ∧
        next.used = source.used := by
  rw [narrow]
  split
  · next enough =>
      rw [Except.ok.injEq, Prod.mk.injEq]
      constructor
      · rintro ⟨rfl, rfl⟩
        simp [enough]
      · rintro ⟨rfl, ahead, same⟩
        refine ⟨Subtype.ext ?_, Source.ext ?_ same.symm⟩
        · change source.rest.drop _ = _
          rw [ahead, List.drop_left]
        · change source.rest.take _ = _
          rw [ahead, List.take_left]
  · next short =>
      simp only [reduceCtorEq, false_iff]
      rintro ⟨rfl, ahead, -⟩
      apply short
      rw [ahead, List.length_append]
      omega

theorem restore_eq_ok {outer : {bytes : Bytes // bytes.length ≤ size}}
    {source next : Source size limit} {nothing : Unit} :
    (restore outer : ReadM ε size limit Unit) source = .ok (nothing, next) ↔
      next.rest = outer.val ∧ next.used = source.used := by
  rw [restore, Except.ok.injEq, Prod.mk.injEq, Source.ext_iff]
  constructor
  · rintro ⟨-, rest, used⟩
    exact ⟨rest.symm, used.symm⟩
  · rintro ⟨rest, used⟩
    exact ⟨rfl, rest.symm, used.symm⟩

theorem Reads.framed {short empty misplaced trailing : ε} {tag : UInt8}
    {body : ReadM ε size limit α} {render : α → Bytes} {cost : α → Nat} {admits : α → Prop}
    (reads : Reads body render cost admits) (sizeFits : size < 256 ^ 4) :
    Reads (framed short empty misplaced trailing tag body) (fun value => frame tag (render value))
      cost admits := by
  intro source value next
  simp only [Codec.framed, bind_eq_ok, u32_reads short _ _ _, take_reads short 1 _ _ _,
    ensure_eq_ok, narrow_eq_ok, finish_eq_ok, restore_eq_ok, pure_eq_ok, reads _ _ _, id]
  constructor
  · rintro ⟨length, first, ⟨_, ahead, counted⟩, _, _, ⟨_, rfl⟩, outer, inner, ⟨sized, split, same⟩,
      _, third, ⟨_, tagged, unspent⟩, _, _, ⟨rfl, rfl⟩, _, fourth, ⟨admitted, body, spent⟩, _, _,
      ⟨none, rfl⟩, _, last, ⟨back, kept⟩, rfl, rfl⟩
    have inside : inner.rest = tag :: render value := by
      rw [tagged, body, none, List.append_nil, List.singleton_append]
    refine ⟨admitted, ?_, by omega⟩
    rw [ahead, split, back, ← sized, inside, frame, List.append_assoc, List.length_cons]
  · rintro ⟨admitted, ahead, total⟩
    rw [frame, List.append_assoc, List.cons_append] at ahead
    have suffix := source.small
    rw [ahead, List.length_append, List.length_cons, List.length_append] at suffix
    have bound := next.within
    let first : Source size limit :=
      ⟨tag :: render value ++ next.rest, source.used, by simp; omega, source.within⟩
    let inner : Source size limit :=
      ⟨tag :: render value, source.used, by simp; omega, source.within⟩
    let third : Source size limit := ⟨render value, source.used, by omega, source.within⟩
    let last : Source size limit := ⟨[], next.used, by simp, bound⟩
    exact ⟨(render value).length + 1, first, ⟨by omega, ahead, rfl⟩, (), first, ⟨by omega, rfl⟩,
      ⟨next.rest, next.small⟩, inner, ⟨rfl, rfl, rfl⟩, [tag], third, ⟨rfl, rfl, rfl⟩, (), third,
      ⟨rfl, rfl⟩, value, last, ⟨admitted, by simp [third, last], total⟩, (), last, ⟨rfl, rfl⟩, (),
      next, ⟨rfl, rfl⟩, rfl, rfl⟩

/-! ### Strings and headers -/

/-- A length-prefixed string of one to `maximum` bytes. -/
def string (short wrong invalid : ε) (maximum : Nat) : ReadM ε size limit Text := do
  let count ← u32 short
  ensure (count ≠ 0 ∧ count ≤ maximum) wrong
  let bytes ← take short count
  check (match fromUtf8 bytes with
    | some text => .ok text
    | none => .error invalid)

def stringBytes (value : Bytes) : Bytes := leBytes 4 value.length ++ value

@[simp] theorem length_stringBytes (value : Bytes) :
    (stringBytes value).length = 4 + value.length := by
  simp [stringBytes]

theorem string_reads {short wrong invalid : ε} {maximum : Nat} (fits : maximum < 256 ^ 4) :
    Reads (string short wrong invalid maximum : ReadM ε size limit Text)
      (fun text => stringBytes text.bytes) (fun _ => 0)
      fun text => 0 < text.bytes.length ∧ text.bytes.length ≤ maximum := by
  intro source text next
  simp only [string, bind_eq_ok, u32_reads _ _ _ _, ensure_eq_ok, take_reads _ _ _ _ _,
    check_eq_ok, id]
  constructor
  · rintro ⟨count, first, ⟨_, ahead, same⟩, _, _, ⟨⟨positive, small⟩, rfl⟩, bytes, second,
      ⟨rfl, behind, kept⟩, accepted, rfl⟩
    have found : text.bytes = bytes := by
      apply fromUtf8_eq_some.mp
      split at accepted
      · next decoded => rw [decoded, Except.ok.inj accepted]
      · cases accepted
    rw [found]
    refine ⟨⟨by omega, small⟩, ?_, by omega⟩
    rw [ahead, behind, stringBytes, List.append_assoc]
  · rintro ⟨⟨positive, small⟩, ahead, counted⟩
    rw [stringBytes, List.append_assoc] at ahead
    have suffix := source.small
    rw [ahead, List.length_append] at suffix
    let first : Source size limit := ⟨text.bytes ++ next.rest, source.used, by omega, source.within⟩
    refine ⟨text.bytes.length, first, ⟨by omega, ahead, rfl⟩, (), first,
      ⟨⟨by omega, small⟩, rfl⟩, text.bytes, next, ⟨rfl, rfl, counted⟩, ?_, rfl⟩
    rw [fromUtf8_eq_some.mpr rfl]

/-- A header that declares the length of what follows it and the number of records there; its
sixteen bytes are read in the order they stand. -/
def header (short badMagic badVersion badFlags tooMany mismatch : ε) (magic : Bytes)
    (version most : Nat) : ReadM ε size limit Nat := do
  let found ← take short 4
  ensure (found = magic) badMagic
  let current ← take short 2
  ensure (ofLeBytes current = version) badVersion
  let flags ← take short 2
  ensure (flags = [0, 0]) badFlags
  let payload ← u32 short
  let records ← u32 short
  ensure (records ≤ most) tooMany
  let left ← remaining
  ensure (payload = left) mismatch
  pure records

/-- A body behind its header. -/
def headed (magic : Bytes) (version records : Nat) (body : Bytes) : Bytes :=
  magic ++ leBytes 2 version ++ [0, 0] ++ leBytes 4 body.length ++ leBytes 4 records ++ body

theorem length_headed {magic : Bytes} (four : magic.length = 4) (version records : Nat)
    (body : Bytes) : (headed magic version records body).length = 16 + body.length := by
  simp only [headed, List.length_append, four, length_leBytes, List.length_cons, List.length_nil]

theorem header_eq_ok {short badMagic badVersion badFlags tooMany mismatch : ε} {magic : Bytes}
    (four : magic.length = 4) {version most records : Nat} (current : version < 256 ^ 2)
    (few : most < 256 ^ 4) (sized : size < 256 ^ 4) {source next : Source size limit} :
    header short badMagic badVersion badFlags tooMany mismatch magic version most source =
        .ok (records, next) ↔
      records ≤ most ∧ next.used = source.used ∧
        source.rest = headed magic version records next.rest := by
  simp only [header, bind_eq_ok, take_reads _ _ _ _ _, ensure_eq_ok, u32_reads _ _ _ _,
    remaining_eq_ok, pure_eq_ok, id]
  constructor
  · rintro ⟨_, first, ⟨_, ahead, same⟩, _, _, ⟨rfl, rfl⟩, stated, second, ⟨two, ahead', same'⟩, _, _,
      ⟨known, rfl⟩, _, third, ⟨_, ahead'', same''⟩, _, _, ⟨rfl, rfl⟩, _, fourth,
      ⟨_, sized, kept⟩, _, fifth, ⟨_, counted, kept'⟩, _, _, ⟨bounded, rfl⟩, _, _, ⟨rfl, rfl⟩, _, _,
      ⟨rfl, rfl⟩, rfl, rfl⟩
    have spelled : stated = leBytes 2 version := by
      rw [← leBytes_ofLeBytes stated, two, known]
    refine ⟨bounded, by omega, ?_⟩
    rw [ahead, ahead', ahead'', sized, counted, spelled]
    simp [headed]
  · rintro ⟨bounded, same, ahead⟩
    simp only [headed, List.append_assoc] at ahead
    have total := source.small
    rw [ahead] at total
    simp only [List.length_append, length_leBytes] at total
    let records' : Source size limit :=
      ⟨leBytes 4 records ++ next.rest, source.used, by simp; omega, source.within⟩
    let payload' : Source size limit :=
      ⟨leBytes 4 next.rest.length ++ records'.rest, source.used, by simp [records']; omega,
        source.within⟩
    let flags' : Source size limit :=
      ⟨[0, 0] ++ payload'.rest, source.used, by simp [payload', records']; omega, source.within⟩
    let version' : Source size limit :=
      ⟨leBytes 2 version ++ flags'.rest, source.used,
        by simp [flags', payload', records']; omega, source.within⟩
    have small := next.small
    exact ⟨magic, version', ⟨four, ahead, rfl⟩, (), version', ⟨rfl, rfl⟩, leBytes 2 version, flags',
      ⟨length_leBytes 2 version, rfl, rfl⟩, (), flags', ⟨ofLeBytes_leBytes 2 version current, rfl⟩,
      [0, 0], payload', ⟨rfl, rfl, rfl⟩, (), payload', ⟨rfl, rfl⟩, next.rest.length, records',
      ⟨by omega, rfl, rfl⟩, records, next, ⟨by omega, rfl, same⟩, (), next, ⟨bounded, rfl⟩, _, next,
      ⟨rfl, rfl⟩, (), next, ⟨rfl, rfl⟩, rfl, rfl⟩

end Readers

section Writers

variable {ε α : Type} {size : Nat}

/-- What has been written, never more than `size` bytes. -/
@[ext] structure Output (size : Nat) where
  bytes : Bytes
  bounded : bytes.length ≤ size

abbrev WriteM (ε : Type) (size : Nat) := StateT (Output size) (Except ε)

/-- `writer` appends exactly `chunk`, and succeeds whenever it fits. -/
def Writes (writer : WriteM ε size Unit) (chunk : Bytes) : Prop :=
  ∀ output next, writer output = .ok ((), next) ↔ next.bytes = output.bytes ++ chunk

theorem write_bind_eq_ok {β : Type} {writer : WriteM ε size α} {after : α → WriteM ε size β}
    {output next : Output size} {value : β} :
    (writer >>= after) output = .ok (value, next) ↔
      ∃ first middle, writer output = .ok (first, middle) ∧
        after first middle = .ok (value, next) := by
  change (Except.bind (writer output) fun result => after result.1 result.2) = _ ↔ _
  cases writer output with
  | error reason => simp [Except.bind]
  | ok result => simp [Except.bind, Prod.ext_iff]

theorem write_pure_eq_ok {value result : α} {output next : Output size} :
    (pure value : WriteM ε size α) output = .ok (result, next) ↔
      result = value ∧ next = output := by
  change Except.ok (value, output) = _ ↔ _
  simp [eq_comm]

def append (overflow : ε) (chunk : Bytes) : WriteM ε size Unit := fun output =>
  if fits : (output.bytes ++ chunk).length ≤ size then .ok ((), ⟨output.bytes ++ chunk, fits⟩)
  else .error overflow

theorem append_writes (overflow : ε) (chunk : Bytes) :
    Writes (append overflow chunk : WriteM ε size Unit) chunk := by
  intro output next
  rw [append]
  split
  · rw [Except.ok.injEq, Prod.mk.injEq, Output.ext_iff, eq_comm (b := next.bytes)]
    simp
  · next overflow =>
      simp only [reduceCtorEq, false_iff]
      intro same
      exact overflow (same ▸ next.bounded)

theorem Writes.andThen {first second : WriteM ε size Unit} {chunk chunk' : Bytes}
    (writes : Writes first chunk) (writes' : Writes second chunk') :
    Writes (first >>= fun _ => second) (chunk ++ chunk') := by
  intro output next
  rw [write_bind_eq_ok]
  constructor
  · rintro ⟨_, middle, before, after⟩
    rw [(writes' _ _).mp after, (writes _ _).mp before, List.append_assoc]
  · intro same
    have bound := next.bounded
    rw [same, ← List.append_assoc, List.length_append] at bound
    let middle : Output size := ⟨output.bytes ++ chunk, by omega⟩
    exact ⟨(), middle, (writes _ _).mpr rfl, (writes' _ _).mpr (by rw [same, List.append_assoc])⟩

theorem Writes.nothing : Writes (pure () : WriteM ε size Unit) [] := by
  intro output next
  change Except.ok ((), output) = _ ↔ _
  simp [Output.ext_iff, eq_comm]

theorem Writes.forEach {writer : α → WriteM ε size Unit} {render : α → Bytes} {values : List α}
    (item : ∀ value ∈ values, Writes (writer value) (render value)) :
    Writes (values.forM writer) (values.flatMap render) := by
  induction values with
  | nil => exact Writes.nothing
  | cons value values ih =>
      obtain ⟨first, others⟩ := List.forall_mem_cons.mp item
      exact first.andThen (ih others)

/-- Replaces the bytes from `start` on by `chunk`; the length stays. -/
def overwrite (bytes : Bytes) (start : Nat) (chunk : Bytes) : Bytes :=
  bytes.take start ++ (chunk ++ bytes.drop (start + chunk.length)).take (bytes.length - start)

theorem overwrite_append (before : Bytes) {old chunk : Bytes} (after : Bytes)
    (same : old.length = chunk.length) :
    overwrite (before ++ old ++ after) before.length chunk = before ++ chunk ++ after := by
  have back : (before ++ old ++ after).drop (before.length + chunk.length) = after := by
    rw [← same, ← List.length_append, List.drop_left]
  have rest : (before ++ old ++ after).length - before.length = (chunk ++ after).length := by
    simp only [List.length_append]
    omega
  rw [overwrite, back, rest, List.take_length, List.append_assoc, List.take_left, List.append_assoc]

theorem length_overwrite_le (bytes : Bytes) (start : Nat) (chunk : Bytes) :
    (overwrite bytes start chunk).length ≤ bytes.length := by
  simp only [overwrite, List.length_append, List.length_take]
  omega

def writeU32 (tooMany overflow : ε) (value : Nat) : WriteM ε size Unit :=
  if value < 256 ^ 4 then append overflow (leBytes 4 value) else throw tooMany

theorem writeU32_writes {tooMany overflow : ε} {value : Nat} (fits : value < 256 ^ 4) :
    Writes (writeU32 tooMany overflow value : WriteM ε size Unit) (leBytes 4 value) := by
  rw [writeU32, if_pos fits]
  exact append_writes overflow _

def position : WriteM ε size Nat := fun output => .ok (output.bytes.length, output)

def startRecord (tooMany overflow : ε) (tag : UInt8) : WriteM ε size Nat := do
  let start ← position
  writeU32 tooMany overflow 0
  append overflow [tag]
  pure start

/-- Patches the length of the record begun at `start`. -/
def endRecord (tooLong : ε) (start : Nat) : WriteM ε size Unit := fun output =>
  let length := output.bytes.length - start - 4
  if length < 256 ^ 4 then
    .ok ((), ⟨overwrite output.bytes start (leBytes 4 length),
      le_trans (length_overwrite_le _ _ _) output.bounded⟩)
  else .error tooLong

def record (tooMany tooLong overflow : ε) (tag : UInt8) (body : WriteM ε size Unit) :
    WriteM ε size Unit := do
  let start ← startRecord tooMany overflow tag
  body
  endRecord tooLong start

theorem startRecord_eq_ok {tooMany overflow : ε} {tag : UInt8} {output next : Output size}
    {start : Nat} :
    startRecord tooMany overflow tag output = .ok (start, next) ↔
      start = output.bytes.length ∧ next.bytes = output.bytes ++ (leBytes 4 0 ++ [tag]) := by
  have length : Writes (writeU32 tooMany overflow 0 : WriteM ε size Unit) (leBytes 4 0) :=
    writeU32_writes (by decide)
  have both := length.andThen (append_writes overflow [tag])
  rw [← both, write_bind_eq_ok]
  simp only [startRecord, position, write_bind_eq_ok, write_pure_eq_ok, Except.ok.injEq,
    Prod.mk.injEq]
  constructor
  · rintro ⟨_, _, ⟨rfl, rfl⟩, _, counted, first, _, last, second, rfl, rfl⟩
    exact ⟨rfl, _, counted, first, second⟩
  · rintro ⟨rfl, _, counted, first, second⟩
    exact ⟨_, _, ⟨rfl, rfl⟩, _, counted, first, _, next, second, rfl, rfl⟩

theorem endRecord_eq_ok {tooLong : ε} {start : Nat} {output next : Output size} {nothing : Unit} :
    endRecord tooLong start output = .ok (nothing, next) ↔
      output.bytes.length - start - 4 < 256 ^ 4 ∧
        next.bytes = overwrite output.bytes start (leBytes 4 (output.bytes.length - start - 4)) := by
  rw [endRecord]
  split
  · next fits =>
      rw [and_iff_right fits, Except.ok.injEq, Prod.mk.injEq, Output.ext_iff]
      exact ⟨fun same => same.2.symm, fun same => ⟨rfl, same.symm⟩⟩
  · next long =>
      exact ⟨nofun, fun both => absurd both.1 long⟩

/-- A record written around its body is the body in its frame. -/
theorem Writes.record {tooMany tooLong overflow : ε} {tag : UInt8} {body : WriteM ε size Unit}
    {chunk : Bytes} (writes : Writes body chunk) (sizeFits : size < 256 ^ 4) :
    Writes (record tooMany tooLong overflow tag body) (frame tag chunk) := by
  intro output next
  have patched (output : Output size) :
      overwrite (output.bytes ++ leBytes 4 0 ++ tag :: chunk) output.bytes.length
        (leBytes 4 (chunk.length + 1)) = output.bytes ++ frame tag chunk := by
    rw [overwrite_append _ _ (by simp), frame, List.append_assoc]
  have shape (output : Output size) : output.bytes ++ (leBytes 4 0 ++ [tag]) ++ chunk =
      output.bytes ++ leBytes 4 0 ++ tag :: chunk := by simp
  have length (output : Output size) :
      (output.bytes ++ leBytes 4 0 ++ tag :: chunk).length - output.bytes.length - 4 =
        chunk.length + 1 := by
    simp only [List.length_append, length_leBytes, List.length_cons]
    omega
  simp only [Codec.record, write_bind_eq_ok, startRecord_eq_ok, writes _ _, endRecord_eq_ok]
  constructor
  · rintro ⟨_, opened, ⟨rfl, head⟩, _, filled, body, -, closed⟩
    rw [head, shape] at body
    rw [closed, body, length, patched]
  · intro same
    have bound := next.bounded
    rw [same, List.length_append, length_frame] at bound
    let opened : Output size := ⟨output.bytes ++ (leBytes 4 0 ++ [tag]), by simp; omega⟩
    let filled : Output size :=
      ⟨output.bytes ++ leBytes 4 0 ++ tag :: chunk, by simp; omega⟩
    refine ⟨_, opened, ⟨rfl, rfl⟩, (), filled, (shape output).symm, ?_⟩
    rw [length, patched]
    exact ⟨by omega, same⟩

/-- The header as it stands before the length of the body is patched in. -/
def openHeader (magic : Bytes) (version records : Nat) : Bytes :=
  magic ++ (leBytes 2 version ++ ([0, 0] ++ (leBytes 4 0 ++ leBytes 4 records)))

theorem length_openHeader {magic : Bytes} (four : magic.length = 4) (version records : Nat)
    (body : Bytes) : (openHeader magic version records ++ body).length = 16 + body.length := by
  simp only [openHeader, List.length_append, four, length_leBytes, List.length_cons,
    List.length_nil]

theorem overwrite_openHeader {magic : Bytes} (four : magic.length = 4) (version records : Nat)
    (body : Bytes) :
    overwrite (openHeader magic version records ++ body) 8 (leBytes 4 body.length) =
      headed magic version records body := by
  have eight : (magic ++ leBytes 2 version ++ [0, 0]).length = 8 := by simp [four]
  have shape : openHeader magic version records ++ body =
      magic ++ leBytes 2 version ++ [0, 0] ++ leBytes 4 0 ++ (leBytes 4 records ++ body) := by
    simp only [openHeader, List.append_assoc]
  rw [shape, ← eight, overwrite_append _ _ (by simp), headed, List.append_assoc _ _ body]

end Writers

end Onelf.Lib.Codec
