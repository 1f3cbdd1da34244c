import Onelf.Payloads.Exec

/-! A host program regains the environment its caller had, through the record of the launch. -/

namespace Onelf.Payloads

open Onelf.Lib Onelf.Runtime

/-! ### Reading what the runtime wrote -/

theorem shift_or_digit (number : Nat) {digit : Nat} (small : digit < 16) :
    UInt64.ofNat number <<< 4 ||| UInt64.ofNat digit = UInt64.ofNat (number * 16 + digit) := by
  apply UInt64.toNat_inj.mp
  have shifted : (number % 2 ^ 64 * 2 ^ 4) % 2 ^ 64 = 2 ^ 4 * (number % 2 ^ 60) := by omega
  have low : digit % 2 ^ 64 = digit := by omega
  have four : (4 : UInt64).toNat % 64 = 4 := rfl
  rw [UInt64.toNat_or, UInt64.toNat_shiftLeft, UInt64.toNat_ofNat', UInt64.toNat_ofNat',
    UInt64.toNat_ofNat', four, Nat.shiftLeft_eq, shifted, low,
    ← Nat.two_pow_add_eq_or_of_lt small]
  omega

theorem hexValue_lt {digit : UInt8} {value : Nat} (read : hexValue digit = some value) :
    value < 16 := by
  rw [hexValue] at read
  split at read
  · next decimal =>
      simp only [isDigit, Bool.and_eq_true, decide_eq_true_eq, UInt8.le_iff_toNat_le] at decimal
      have high : digit.toNat ≤ 57 := decimal.2
      have same := Option.some.inj read
      omega
  · split at read
    · next letter =>
        simp only [Bool.and_eq_true, decide_eq_true_eq, UInt8.le_iff_toNat_le] at letter
        have high : digit.toNat ≤ 102 := letter.2
        have same := Option.some.inj read
        omega
    · cases read

theorem readHash_eq (number : Nat) (digits rest : Bytes) :
    readHash digits.length (UInt64.ofNat number) (digits ++ rest) =
      (hexNumber number digits).map fun hash => (UInt64.ofNat hash, rest) := by
  induction digits generalizing number with
  | nil => rfl
  | cons digit digits ih =>
      rw [List.length_cons, List.cons_append, readHash, hexNumber, List.foldlM_cons]
      cases read : hexValue digit with
      | none => rfl
      | some value =>
          have step := shift_or_digit number (hexValue_lt read)
          simp only [Option.bind_eq_bind, Option.bind_some, Option.map_some, step, ih]
          rfl

theorem parseApplied_encodeApplied (applied : Applied) (rest : Bytes) :
    parseApplied (encodeApplied applied ++ rest) = some (applied, rest) := by
  cases applied with
  | removed => rfl
  | any => rfl
  | value hash =>
      have read := readHash_eq 0 (hexDigits 16 hash.toNat) rest
      rw [length_hexDigits, hexNumber_hash] at read
      rcases hexDigits_cons 15 hash.toNat with ⟨digit, tail, digits, lower⟩
      rw [digits, List.cons_append] at read
      rw [encodeApplied, digits, List.cons_append, parseApplied]
      · change readHash 16 0 (digit :: (tail ++ rest)) = _ at read
        rw [read]
        simp
      · intro tail dash
        rw [(List.cons.inj dash).1] at lower
        exact absurd lower (by decide)
      · intro tail star
        rw [(List.cons.inj star).1] at lower
        exact absurd lower (by decide)

theorem readLength_digits {digits : Bytes} (start : Nat) {mark : UInt8} (rest : Bytes)
    (every : ∀ digit ∈ digits, isDigit digit) (ends : isDigit mark = false)
    (fits : digits.foldl pushDigit start < usizeLimit) :
    readLength start (digits ++ mark :: rest) = some (digits.foldl pushDigit start, mark :: rest) := by
  induction digits generalizing start with
  | nil => simp [readLength, ends]
  | cons digit digits ih =>
      have below : start * 10 + (digit.toNat - 48) < usizeLimit :=
        Nat.lt_of_le_of_lt (le_foldl_pushDigit digits (pushDigit start digit)) fits
      have numeral := every digit List.mem_cons_self
      rw [List.cons_append, readLength, if_pos numeral, if_pos below]
      exact ih _ (fun other member => every other (List.mem_cons_of_mem _ member)) fits

theorem readLength_decimal {len : Nat} (fits : len < usizeLimit) (rest : Bytes) :
    readLength 0 (decimal len ++ 58 :: rest) = some (len, 58 :: rest) := by
  have value : (decimal len).foldl pushDigit 0 = len := decimalValue_decimal len
  have colon : isDigit 58 = false := by decide
  have read := readLength_digits 0 rest (decimal_isDigit len) colon (by rw [value]; exact fits)
  rw [value] at read
  exact read

theorem parseOriginal_encodeOriginal {original : Option Bytes}
    (fits : ∀ value ∈ original, value.length < usizeLimit) (rest : Bytes) :
    parseOriginal (encodeOriginal original ++ rest) = some (original, rest) := by
  cases original with
  | none => rfl
  | some value =>
      have whole : encodeOriginal (some value) ++ rest = decimal value.length ++ 58 :: (value ++ rest) := by
        simp only [encodeOriginal, List.append_assoc]
        rfl
      have length := readLength_decimal (fits value rfl) (value ++ rest)
      have colon : stripPrefix (utf8 ":") (58 :: (value ++ rest)) = some (value ++ rest) :=
        stripPrefix_append (utf8 ":") (value ++ rest)
      rcases decimal_cons value.length with ⟨digit, tail, digits, isDigit⟩
      rw [digits, List.cons_append] at length
      rw [whole, digits, List.cons_append, parseOriginal, length]
      · have shorter : (58 :: (value ++ rest)).length ≠ (digit :: (tail ++ 58 :: (value ++ rest))).length := by
          simp only [List.length_cons, List.length_append]
          omega
        simp only [Option.bind_eq_bind, Option.bind_some, if_neg shorter, colon]
        simp
      · intro tail dash
        rw [(List.cons.inj dash).1] at isDigit
        exact absurd isDigit (by decide)

theorem parseEntry_encodeEntry {entry : RecordEntry} (plain : entry.Plain) (rest : Bytes) :
    parseEntry (encodeEntry entry ++ rest) = some (entry, rest) := by
  have whole : encodeEntry entry ++ rest = entry.name ++ 61 :: (encodeApplied entry.applied ++
      (encodeOriginal entry.original ++ (utf8 ";" ++ rest))) := by
    simp only [encodeEntry, List.append_assoc]
    rfl
  rw [whole, parseEntry, splitOnce_append plain.undivided]
  simp only [Option.bind_eq_bind, Option.bind_some, if_neg plain.named, parseApplied_encodeApplied,
    parseOriginal_encodeOriginal plain.fits, stripPrefix_append]

theorem entries_encoded {list : List RecordEntry} (plain : ∀ entry ∈ list, entry.Plain)
    {record : CString} (encoded : record.bytes = list.flatMap encodeEntry) :
    entries record = list := by
  rw [entries, encoded]
  exact readWhile_flatMap rfl (fun entry member => parseEntry_encodeEntry (plain entry member))
    (length_le_length_encoded list)

/-! ### An environment as a list of assignments -/

/-- A list binding each variable of `env` once and nothing else. -/
def Lists (vars : List Bytes) (env : Bytes → Option Bytes) : Prop :=
  ∃ bindings : List (Bytes × Bytes),
    vars = bindings.map (fun binding => assignment binding.1 binding.2) ∧
    (bindings.map Prod.fst).Nodup ∧
    (∀ binding ∈ bindings, 61 ∉ binding.1) ∧
    ∀ name value, (name, value) ∈ bindings ↔ env name = some value

theorem lists_entries (map : SortedMap Bytes Bytes) (undivided : ∀ entry ∈ map.entries, 61 ∉ entry.1) :
    Lists (map.entries.map fun entry => assignment entry.1 entry.2) map.get? :=
  ⟨map.entries, rfl, nodup_of_sorted map.keys_sorted, undivided, map.mem_entries_iff⟩

theorem splitOnce_assignment {name : Bytes} (undivided : 61 ∉ name) (value : Bytes) :
    splitOnce 61 (assignment name value) = some (name, value) := by
  have whole : assignment name value = name ++ 61 :: value := by
    simp only [assignment, List.append_assoc]
    rfl
  rw [whole, splitOnce_append undivided]

theorem assignment_terminated {name value : Bytes} (first : 0 ∉ name) (second : 0 ∉ value) :
    0 ∉ assignment name value := by
  have equals : 0 ∉ utf8 "=" := by decide
  simp only [assignment, List.mem_append, not_or]
  exact ⟨⟨first, equals⟩, second⟩

/-! ### The strings the pointers lead to -/

/-- The pointers written so far lead to `vars`, and still will once more strings follow. -/
def Rebuilt.Reads (out : Rebuilt) (envp : List CString) (vars : List Bytes) : Prop :=
  ∀ more, out.pointers.map (pointee (out.strings ++ more) envp) = vars

theorem Rebuilt.Reads.keep {out : Rebuilt} {envp : List CString} {vars : List Bytes} {index : Nat}
    {var : CString} (reads : out.Reads envp vars) (held : envp[index]? = some var) :
    (keep out index).Reads envp (vars ++ [var.bytes]) := by
  intro more
  rw [Payloads.keep, List.map_append, reads more]
  simp [pointee, held]

theorem Rebuilt.Reads.put {out : Rebuilt} {envp : List CString} {vars : List Bytes}
    {name value : Bytes} (reads : out.Reads envp vars) (first : 0 ∉ name) (second : 0 ∉ value) :
    (put out name value).Reads envp (vars ++ [assignment name value]) := by
  intro more
  have before := reads (assignment name value ++ [0] ++ more)
  have whole : ∀ byte ∈ assignment name value, decide (byte ≠ 0) = true := by
    intro byte member
    rw [decide_eq_true_iff]
    intro zero
    rw [zero] at member
    exact assignment_terminated first second member
  rw [← List.append_assoc, ← List.append_assoc] at before
  rw [Payloads.put, List.map_append, before, List.append_right_inj]
  simp only [List.map_cons, List.map_nil, pointee, List.append_assoc, List.drop_left,
    List.cons.injEq, and_true]
  rw [List.takeWhile_append_of_pos whole]
  simp

theorem first_pass_reads (record : CString) (envp : List CString)
    (restorable : ∀ entry ∈ entries record, entry.Plain) (lead rest : List CString)
    (whole : envp = lead ++ rest) (out : Rebuilt) (vars : List Bytes) (reads : out.Reads envp vars) :
    ((rest.zipIdx lead.length).foldl (restoreVariable record) out).Reads envp
      (vars ++ rest.filterMap fun var => (fate record var.bytes).passed var.bytes) := by
  induction rest generalizing lead out vars with
  | nil => simpa using reads
  | cons var rest ih =>
      have here : envp[lead.length]? = some var := by simp [whole]
      have next : envp = (lead ++ [var]) ++ rest := by simp [whole]
      have step := ih (lead ++ [var]) next
      rw [List.length_append, List.length_singleton] at step
      rw [List.zipIdx_cons, List.foldl_cons, restoreVariable]
      cases decided : fate record var.bytes with
      | handedOn =>
          have kept := step _ _ (reads.keep here)
          simpa [decided, Fate.passed] using kept
      | leftOut =>
          have skipped := step _ _ reads
          simpa [decided, Fate.passed] using skipped
      | putBack name value =>
          rcases fate_eq_putBack decided with ⟨_, entry, recorded, held⟩
          have plain := restorable entry recorded
          rcases Option.map_eq_some_iff.mp held with ⟨original, some, same⟩
          rcases Prod.mk.inj same with ⟨sameName, sameValue⟩
          rw [sameValue] at some
          have written := step _ _
            (reads.put (sameName ▸ plain.name_terminated) (plain.terminated value some))
          simpa [decided, Fate.passed] using written

theorem second_pass_reads (envp : List CString) (list : List RecordEntry)
    (restorable : ∀ entry ∈ list, entry.Plain) (out : Rebuilt) (vars : List Bytes)
    (reads : out.Reads envp vars) :
    (list.foldl (restoreEntry envp) out).Reads envp
      (vars ++ (list.filterMap (returned envp)).map fun binding => assignment binding.1 binding.2) := by
  induction list generalizing out vars with
  | nil => simpa using reads
  | cons entry list ih =>
      have later := ih fun other member => restorable other (List.mem_cons_of_mem _ member)
      rw [List.foldl_cons, restoreEntry]
      cases decided : returned envp entry with
      | none =>
          have skipped := later out vars reads
          simpa [decided] using skipped
      | some binding =>
          have plain := restorable entry List.mem_cons_self
          rcases Option.bind_eq_some_iff.mp decided with ⟨value, original, given⟩
          have same : binding = (entry.name, value) := by
            split at given
            · cases given
            · exact (Option.some.inj given).symm
          rw [same] at decided ⊢
          have written := later _ _
            (reads.put plain.name_terminated (plain.terminated value original))
          simpa [decided] using written

/-- The environment the host program finds, string by string. -/
theorem variables_rebuild (record : CString) (envp : List CString)
    (restorable : ∀ entry ∈ entries record, entry.Plain) :
    (rebuild record envp).variables envp =
      (envp.filterMap fun var => (fate record var.bytes).passed var.bytes) ++
        (additions record envp).map fun binding => assignment binding.1 binding.2 := by
  have start : (⟨[], []⟩ : Rebuilt).Reads envp [] := fun _ => rfl
  have first := first_pass_reads record envp restorable [] envp rfl _ [] start
  have second := second_pass_reads envp (entries record) restorable _ _ first
  have all := second []
  rw [List.append_nil] at all
  exact all

/-! ### The two passes restore an environment variable by variable -/

/-- The environment `app` with every recorded variable that still holds what was applied put back. -/
def broughtBack (record : CString) (app : Bytes → Option Bytes) (name : Bytes) : Option Bytes :=
  if name = hostEnvVar then none
  else match find record name with
    | none => app name
    | some entry => if entry.restores (app name) then entry.original else app name

/-- What one binding of the caller's array becomes. -/
def rebound (record : CString) (binding : Bytes × Bytes) : Option (Bytes × Bytes) :=
  (broughtBack record (fun _ => some binding.2) binding.1).map fun value => (binding.1, value)

theorem passed_assignment (record : CString) {name : Bytes} (undivided : 61 ∉ name) (value : Bytes) :
    (fate record (assignment name value)).passed (assignment name value) =
      (rebound record (name, value)).map fun binding => assignment binding.1 binding.2 := by
  rw [fate, splitOnce_assignment undivided, rebound, broughtBack]
  by_cases hidden : name = hostEnvVar
  · simp [hidden, Fate.passed]
  · cases found : find record name with
    | none => simp [hidden, found, Fate.passed]
    | some entry =>
        by_cases holds : entry.restores (some value)
        · cases original : entry.original <;> simp [hidden, found, holds, original, Fate.passed]
        · simp [hidden, found, holds, Fate.passed]

theorem broughtBack_congr (record : CString) {app app' : Bytes → Option Bytes} {name : Bytes}
    (same : app name = app' name) : broughtBack record app name = broughtBack record app' name := by
  rw [broughtBack, broughtBack, same]

theorem map_fst_filterMap_sublist {α κ ν : Type} {key : α → κ} {f : α → Option (κ × ν)}
    (keeps : ∀ {value binding}, f value = some binding → binding.1 = key value) (values : List α) :
    ((values.filterMap f).map Prod.fst).Sublist (values.map key) := by
  induction values with
  | nil => exact List.Sublist.refl []
  | cons value values ih =>
      cases found : f value with
      | none => simpa [found] using ih.cons _
      | some binding => simpa [found, keeps found] using ih

theorem rebound_name {record : CString} {binding binding' : Bytes × Bytes}
    (found : rebound record binding = some binding') : binding'.1 = binding.1 := by
  rcases Option.map_eq_some_iff.mp found with ⟨value, _, same⟩
  rw [← same]

theorem returned_eq_some {envp : List CString} {entry : RecordEntry} {binding : Bytes × Bytes} :
    returned envp entry = some binding ↔
      entry.original = some binding.2 ∧ binding.1 = entry.name ∧
        isPresent envp entry.name = false ∧ entry.restores none = true := by
  rw [returned, Option.bind_eq_some_iff]
  constructor
  · intro given
    rcases given with ⟨value, original, kept⟩
    split at kept
    · cases kept
    · next inside =>
        have lacks : isPresent envp entry.name = false ∧ entry.restores none = true := by
          simpa using inside
        rw [← Option.some.inj kept]
        exact ⟨original, rfl, lacks⟩
  · intro given
    rcases given with ⟨original, named, absent, holds⟩
    refine ⟨binding.2, original, ?_⟩
    rw [absent, holds, ← named]
    rfl

section Restoration

variable {record : CString} {envp : List CString} {app : Bytes → Option Bytes}
  {bindings : List (Bytes × Bytes)}
  (listed : envp.map CString.bytes = bindings.map fun binding => assignment binding.1 binding.2)
  (undivided : ∀ binding ∈ bindings, 61 ∉ binding.1)

include listed undivided

theorem isPresent_iff (name : Bytes) :
    isPresent envp name = true ↔ name ∈ bindings.map Prod.fst := by
  have strings : isPresent envp name =
      (envp.map CString.bytes).any fun var =>
        (splitOnce 61 var).any fun bound => bound.1 = name := by
    rw [isPresent, List.any_map]
    rfl
  rw [strings, listed, List.any_map, List.any_eq_true, List.mem_map]
  constructor
  · intro found
    rcases found with ⟨binding, member, bound⟩
    rw [Function.comp_apply, splitOnce_assignment (undivided binding member)] at bound
    exact ⟨binding, member, by simpa using bound⟩
  · intro found
    rcases found with ⟨binding, member, bound⟩
    refine ⟨binding, member, ?_⟩
    rw [Function.comp_apply, splitOnce_assignment (undivided binding member)]
    simpa using bound

theorem passed_bindings :
    (envp.filterMap fun var => (fate record var.bytes).passed var.bytes) =
      (bindings.filterMap (rebound record)).map fun binding => assignment binding.1 binding.2 := by
  have strings : (envp.filterMap fun var => (fate record var.bytes).passed var.bytes) =
      (envp.map CString.bytes).filterMap fun var => (fate record var).passed var := by
    rw [List.filterMap_map]
    rfl
  rw [strings, listed, List.filterMap_map, List.map_filterMap]
  apply List.filterMap_congr
  intro binding member
  exact passed_assignment record (undivided binding member) binding.2

end Restoration

/-- Both passes together: each variable of the caller is brought back on its own. -/
theorem rebuild_lists {record : CString} {envp : List CString} {app : Bytes → Option Bytes}
    (plain : ∀ entry ∈ entries record, entry.Plain)
    (distinct : ((entries record).map RecordEntry.name).Nodup)
    (hidden : ∀ entry ∈ entries record, entry.name ≠ hostEnvVar)
    (lists : Lists (envp.map CString.bytes) app) :
    Lists ((rebuild record envp).variables envp) (broughtBack record app) := by
  rcases lists with ⟨bindings, listed, names, undivided, binds⟩
  have found : ∀ entry ∈ entries record, find record entry.name = some entry := by
    intro entry recorded
    cases held : find record entry.name with
    | none => exact absurd (by simp) (List.find?_eq_none.mp held entry recorded)
    | some other =>
        have same : other.name = entry.name := by simpa using List.find?_some held
        exact congrArg some
          (List.inj_on_of_nodup_map distinct (List.mem_of_find?_eq_some held) recorded same)
  have present := isPresent_iff listed undivided
  have bound (name : Bytes) : name ∈ bindings.map Prod.fst ↔ ∃ value, app name = some value := by
    rw [List.mem_map]
    constructor
    · intro named
      rcases named with ⟨binding, member, same⟩
      exact ⟨binding.2, (binds name binding.2).mp (by rw [← same]; exact member)⟩
    · intro held
      rcases held with ⟨value, held⟩
      exact ⟨(name, value), (binds name value).mpr held, rfl⟩
  have kept : ((bindings.filterMap (rebound record)).map Prod.fst).Sublist
      (bindings.map Prod.fst) :=
    map_fst_filterMap_sublist rebound_name bindings
  have given : ((additions record envp).map Prod.fst).Sublist
      ((entries record).map RecordEntry.name) :=
    map_fst_filterMap_sublist (fun added => (returned_eq_some.mp added).2.1) (entries record)
  refine ⟨bindings.filterMap (rebound record) ++ additions record envp, ?_, ?_, ?_, ?_⟩
  · rw [variables_rebuild record envp plain, passed_bindings listed undivided, List.map_append]
  · rw [List.map_append]
    refine (kept.nodup names).append (given.nodup distinct) ?_
    intro name first second
    have inside := (present name).mpr (kept.subset first)
    rcases List.mem_map.mp second with ⟨binding, member, same⟩
    rcases List.mem_filterMap.mp member with ⟨entry, _, added⟩
    have absent := returned_eq_some.mp added
    rw [← same, absent.2.1, absent.2.2.1] at inside
    cases inside
  · intro binding member
    rcases List.mem_append.mp member with first | second
    · rcases List.mem_map.mp (kept.subset (List.mem_map_of_mem first)) with ⟨origin, inList, same⟩
      rw [← same]
      exact undivided origin inList
    · rcases List.mem_map.mp (given.subset (List.mem_map_of_mem second)) with ⟨entry, recorded, same⟩
      rw [← same]
      exact (plain entry recorded).undivided
  · intro name value
    rw [List.mem_append, List.mem_filterMap, additions, List.mem_filterMap]
    constructor
    · intro either
      rcases either with first | second
      · rcases first with ⟨binding, member, rebind⟩
        rcases Option.map_eq_some_iff.mp rebind with ⟨value', held, same⟩
        rcases Prod.mk.inj same with ⟨sameName, sameValue⟩
        have bound := (binds binding.1 binding.2).mp member
        rw [← sameName, ← sameValue, ← held]
        exact broughtBack_congr record bound
      · rcases second with ⟨entry, recorded, added⟩
        rcases returned_eq_some.mp added with ⟨original, named, absent, holds⟩
        simp only at named original
        have unset : app name = none := by
          apply Option.eq_none_iff_forall_ne_some.mpr
          intro other held
          have inside := (present name).mpr ((bound name).mpr ⟨other, held⟩)
          rw [named, absent] at inside
          cases inside
        have visible : name ≠ hostEnvVar := by
          rw [named]
          exact hidden entry recorded
        have lookup : find record name = some entry := by
          rw [named]
          exact found entry recorded
        simp [broughtBack, visible, lookup, unset, holds, original]
    · intro back
      have visible : name ≠ hostEnvVar := by
        intro same
        rw [broughtBack, if_pos same] at back
        cases back
      cases held : app name with
      | some current =>
          left
          refine ⟨(name, current), (binds name current).mpr held, ?_⟩
          have same : broughtBack record (fun _ => some current) name = some value := by
            rw [← back]
            exact broughtBack_congr record held.symm
          rw [rebound, same]
          rfl
      | none =>
          right
          rw [broughtBack, if_neg visible] at back
          cases lookup : find record name with
          | none =>
              rw [lookup] at back
              rw [held] at back
              cases back
          | some entry =>
              simp only [lookup, held] at back
              have named : entry.name = name := by simpa using List.find?_some lookup
              split at back
              · next holds =>
                  refine ⟨entry, List.mem_of_find?_eq_some lookup, returned_eq_some.mpr ?_⟩
                  refine ⟨back, named.symm, ?_, holds⟩
                  rw [named]
                  apply Bool.eq_false_iff.mpr
                  intro inside
                  rcases (bound name).mp ((present name).mp inside) with ⟨other, set⟩
                  rw [held] at set
                  cases set
              · cases back

/-! ### The record of a launch -/

/-- The record a launch leaves, as the string the constructor finds. -/
def hostRecord (start now : Environment) : CString :=
  ⟨buildRecord start.vars now.vars, buildRecord_terminated start now⟩

theorem entries_hostRecord (start now : Environment) :
    entries (hostRecord start now) = recordEntries start.vars now.vars :=
  entries_encoded (recordEntries_plain start now) rfl

theorem find_hostRecord (start now : Environment) {name : Bytes} (visible : name ≠ hostEnvVar) :
    find (hostRecord start now) name = entryFor start.vars now.vars name := by
  rw [find, entries_hostRecord, find?_recordEntries, if_neg visible]

/-- What the runtime left as it applied it goes back to what the caller had. -/
theorem broughtBack_of_kept {start now : Environment} {app : Bytes → Option Bytes} {name : Bytes}
    (visible : name ≠ hostEnvVar) (kept : name ∈ setAtExec ∨ app name = now.vars.get? name) :
    broughtBack (hostRecord start now) app name = start.vars.get? name := by
  rw [broughtBack, if_neg visible, find_hostRecord start now visible, entryFor]
  by_cases atExec : name ∈ setAtExec
  · simp [atExec, RecordEntry.restores]
  · have same := kept.resolve_left atExec
    by_cases unchanged : start.vars.get? name = now.vars.get? name
    · simp [atExec, unchanged, same]
    · cases applied : now.vars.get? name with
      | none =>
          have differs : start.vars.get? name ≠ none := by rwa [applied] at unchanged
          simp [atExec, differs, same, applied, RecordEntry.restores]
      | some value =>
          have differs : start.vars.get? name ≠ some value := by rwa [applied] at unchanged
          simp [atExec, differs, same, applied, RecordEntry.restores]

/-- What the application has changed since is left as it is. -/
theorem broughtBack_of_changed {start now : Environment} {app : Bytes → Option Bytes} {name : Bytes}
    (visible : name ≠ hostEnvVar) (own : name ∉ setAtExec)
    (changed : app name ≠ now.vars.get? name)
    (apart : ∀ applied current, now.vars.get? name = some applied → app name = some current →
      fnv1a applied = fnv1a current → applied = current) :
    broughtBack (hostRecord start now) app name = app name := by
  rw [broughtBack, if_neg visible, find_hostRecord start now visible, entryFor, if_neg own]
  by_cases unchanged : start.vars.get? name = now.vars.get? name
  · simp [unchanged]
  · cases applied : now.vars.get? name with
    | none =>
        have differs : start.vars.get? name ≠ none := by rwa [applied] at unchanged
        cases held : app name with
        | none => rw [held, applied] at changed; contradiction
        | some current => simp [differs, RecordEntry.restores]
    | some value =>
        have differs : start.vars.get? name ≠ some value := by rwa [applied] at unchanged
        cases held : app name with
        | none => simp [differs, RecordEntry.restores]
        | some current =>
            have distinct : fnv1a current ≠ fnv1a value := by
              intro same
              rw [held, applied, apart value current applied held same.symm] at changed
              contradiction
            simp [differs, distinct, RecordEntry.restores]

/-- A host program gets the caller's environment back, less what the application has changed
since, and both decoders read the record alike. -/
theorem host_program_regains_environment (start now : Environment) (envp : List CString)
    (app : Bytes → Option Bytes) (changed : Set Bytes)
    (lists : Lists (envp.map CString.bytes) app)
    (others : ∀ name ∈ changed, name ≠ hostEnvVar ∧ name ∉ setAtExec ∧
      app name ≠ now.vars.get? name)
    (kept : ∀ name, name ∉ changed → name ≠ hostEnvVar → name ∉ setAtExec →
      app name = now.vars.get? name)
    (apart : ∀ name applied current, now.vars.get? name = some applied →
      app name = some current → fnv1a applied = fnv1a current → applied = current) :
    (∀ granted out, restored granted (hostRecord start now) envp = some out →
      ∃ env, Lists (out.variables envp) env ∧ env hostEnvVar = none ∧
        (∀ name ∈ changed, env name = app name) ∧
        ∀ name, name ∉ changed → name ≠ hostEnvVar → env name = start.vars.get? name) ∧
    parseRecord (hostRecord start now).bytes = entries (hostRecord start now) := by
  have read := entries_hostRecord start now
  constructor
  · intro granted out written
    rw [restored] at written
    split at written
    · rw [← Option.some.inj written]
      refine ⟨broughtBack (hostRecord start now) app, ?_, ?_, ?_, ?_⟩
      · apply rebuild_lists _ _ _ lists
        · rw [read]
          exact recordEntries_plain start now
        · rw [read]
          exact recordEntries_nodup start.vars now.vars
        · rw [read]
          intro entry recorded
          exact ((mem_recordEntries start.vars now.vars entry).mp recorded).1
      · rw [broughtBack, if_pos rfl]
      · intro name member
        have own := others name member
        exact broughtBack_of_changed own.1 own.2.1 own.2.2 (apart name)
      · intro name outside visible
        apply broughtBack_of_kept visible
        by_cases atExec : name ∈ setAtExec
        · exact Or.inl atExec
        · exact Or.inr (kept name outside visible atExec)
    · cases written
  · rw [read]
    exact parseRecord_buildRecord start now

/-- A caller with a home of its own. -/
def callerEnvironment : Environment where
  vars := ⟨[(utf8 "HOME", utf8 "/home/u"), (utf8 "OLD", utf8 "a=1;b")], by decide +kernel⟩
  named := by decide +kernel
  valued := by decide +kernel

def launchEnvironment : Environment where
  vars := ⟨[(utf8 "HOME", utf8 "/pkg"), (utf8 "ONELF_DIR", utf8 "/p")], by decide +kernel⟩
  named := by decide +kernel
  valued := by decide +kernel

/-- What the application leaves: one variable changed, one added. -/
def leftEnvironment : SortedMap Bytes Bytes :=
  ⟨[(utf8 "HOME", utf8 "/pkg"), (utf8 "LD_LIBRARY_PATH", utf8 "/pkg/lib"), (utf8 "NEW", utf8 "1"),
    (utf8 "ONELF_DIR", utf8 "/q"),
    (hostEnvVar, buildRecord callerEnvironment.vars launchEnvironment.vars)], by decide +kernel⟩

def leftArray : List CString :=
  [⟨utf8 "HOME=/pkg", by decide +kernel⟩, ⟨utf8 "LD_LIBRARY_PATH=/pkg/lib", by decide +kernel⟩,
    ⟨utf8 "NEW=1", by decide +kernel⟩, ⟨utf8 "ONELF_DIR=/q", by decide +kernel⟩,
    ⟨assignment hostEnvVar (buildRecord callerEnvironment.vars launchEnvironment.vars),
      assignment_terminated (by decide) (buildRecord_terminated _ _)⟩]

theorem host_program_regains_environment_of_caller :
    ∃ env, Lists ((rebuild (hostRecord callerEnvironment launchEnvironment) leftArray).variables
        leftArray) env ∧
      env (utf8 "HOME") = some (utf8 "/home/u") ∧ env (utf8 "OLD") = some (utf8 "a=1;b") ∧
      env (utf8 "ONELF_DIR") = some (utf8 "/q") ∧ env (utf8 "LD_LIBRARY_PATH") = none := by
  have lists : Lists (leftArray.map CString.bytes) leftEnvironment.get? :=
    lists_entries leftEnvironment (by decide +kernel)
  have others : ∀ name ∈ ({utf8 "NEW", utf8 "ONELF_DIR"} : Set Bytes), name ≠ hostEnvVar ∧
      name ∉ setAtExec ∧ leftEnvironment.get? name ≠ launchEnvironment.vars.get? name := by
    intro name member
    rcases member with same | same
    · rw [same]
      decide +kernel
    · rw [same]
      decide +kernel
  have absent (map : SortedMap Bytes Bytes) {name : Bytes} (outside : name ∉ map.keys) :
      map.get? name = none :=
    Option.not_isSome_iff_eq_none.mp fun held => outside ((map.mem_keys_iff name).mpr held)
  have kept : ∀ name, name ∉ ({utf8 "NEW", utf8 "ONELF_DIR"} : Set Bytes) → name ≠ hostEnvVar →
      name ∉ setAtExec → leftEnvironment.get? name = launchEnvironment.vars.get? name := by
    intro name outside visible own
    by_cases home : name = utf8 "HOME"
    · rw [home]
      decide +kernel
    · simp only [Set.mem_insert_iff, Set.mem_singleton_iff, not_or] at outside
      simp only [setAtExec, List.mem_cons, List.not_mem_nil, or_false, not_or] at own
      rw [absent, absent]
      · simp [launchEnvironment, SortedMap.keys, home, outside.2]
      · simp [leftEnvironment, SortedMap.keys, home, outside.1, outside.2, own.2, visible]
  have apart : ∀ entry ∈ launchEnvironment.vars.entries, ∀ entry' ∈ leftEnvironment.entries,
      entry.1 = entry'.1 → fnv1a entry.2 = fnv1a entry'.2 → entry.2 = entry'.2 := by
    decide +kernel
  have regained := host_program_regains_environment callerEnvironment launchEnvironment leftArray
    leftEnvironment.get? {utf8 "NEW", utf8 "ONELF_DIR"} lists others kept
    fun name applied current first second same =>
      apart (name, applied) ((SortedMap.mem_entries_iff _ _ _).mpr first) (name, current)
        ((SortedMap.mem_entries_iff _ _ _).mpr second) rfl same
  rcases regained.1 (fun _ => true) _ rfl with ⟨env, listed, _, changed, before⟩
  have outside {name : Bytes} (first : name ≠ utf8 "NEW") (second : name ≠ utf8 "ONELF_DIR") :
      name ∉ ({utf8 "NEW", utf8 "ONELF_DIR"} : Set Bytes) := by
    simp [first, second]
  refine ⟨env, listed, ?_, ?_, ?_, ?_⟩
  · rw [before _ (outside (by decide) (by decide)) (by decide)]
    decide +kernel
  · rw [before _ (outside (by decide) (by decide)) (by decide)]
    decide +kernel
  · rw [changed _ (by simp)]
    decide +kernel
  · rw [before _ (outside (by decide) (by decide)) (by decide)]
    decide +kernel

end Onelf.Payloads
