import Mathlib.Data.List.Dedup
import Mathlib.Data.List.Perm.Subperm
import Onelf.Runtime.HostEnv

/-! The environment an exec hook hands a host program (`onelf-payloads/src/exec.rs`). -/

namespace Onelf.Payloads

open Onelf.Lib Onelf.Runtime

/-- A C string: the bytes before its terminator. -/
structure CString where
  bytes : Bytes
  terminated : 0 ∉ bytes

/-! ### The record -/

/-- Sixteen digits shifted into a hash; the terminator is no digit. -/
def readHash : Nat → UInt64 → Bytes → Option (UInt64 × Bytes)
  | 0, hash, text => some (hash, text)
  | _ + 1, _, [] => none
  | count + 1, hash, byte :: text => do
      let digit ← hexValue byte
      readHash count (hash <<< 4 ||| UInt64.ofNat digit) text

def parseApplied : Bytes → Option (Applied × Bytes)
  | 45 :: rest => some (.removed, rest)
  | 42 :: rest => some (.any, rest)
  | text => (readHash 16 0 text).map fun (hash, rest) => (.value hash, rest)

/-- Decimal digits read into a `usize`, refused when they leave it. -/
def readLength : Nat → Bytes → Option (Nat × Bytes)
  | len, [] => some (len, [])
  | len, byte :: text =>
      if isDigit byte then
        if len * 10 + (byte.toNat - 48) < usizeLimit then
          readLength (len * 10 + (byte.toNat - 48)) text
        else none
      else some (len, byte :: text)

def parseOriginal : Bytes → Option (Option Bytes × Bytes)
  | 45 :: rest => some (none, rest)
  | text => do
      let (len, rest) ← readLength 0 text
      -- at least one digit
      if rest.length = text.length then none
      else
        let value ← stripPrefix (utf8 ":") rest
        -- the terminator inside the value ends the record
        if value.length < len then none
        else some (some (value.take len), value.drop len)

/-- The entry a record goes on with, and what follows it. -/
def parseEntry (text : Bytes) : Option (RecordEntry × Bytes) := do
  let (name, rest) ← splitOnce 61 text
  if name = [] then none
  else
    let (applied, rest) ← parseApplied rest
    let (original, rest) ← parseOriginal rest
    let rest ← stripPrefix (utf8 ";") rest
    some (⟨name, applied, original⟩, rest)

def entries (record : CString) : List RecordEntry :=
  readWhile parseEntry record.bytes.length record.bytes

/-- The first entry for `name`. -/
def find (record : CString) (name : Bytes) : Option RecordEntry :=
  (entries record).find? fun entry => entry.name = name

/-! ### Building the environment -/

/-- A pointer in the array handed on: one of the caller's, or into the strings written. -/
inductive Pointer where
  | caller (index : Nat)
  | written (offset : Nat)
  deriving DecidableEq

/-- What has been written into the scratch memory: its two regions. -/
structure Rebuilt where
  pointers : List Pointer
  strings : Bytes
  deriving DecidableEq

def assignment (name value : Bytes) : Bytes := name ++ utf8 "=" ++ value

/-- Write `name=value` and its terminator at the end of the strings and point at it. -/
def put (out : Rebuilt) (name value : Bytes) : Rebuilt where
  pointers := out.pointers ++ [.written out.strings.length]
  strings := out.strings ++ assignment name value ++ [0]

def keep (out : Rebuilt) (index : Nat) : Rebuilt where
  pointers := out.pointers ++ [.caller index]
  strings := out.strings

/-- What becomes of one variable of the caller's array. -/
inductive Fate where
  | handedOn
  | leftOut
  | putBack (name value : Bytes)
  deriving DecidableEq

def fate (record : CString) (var : Bytes) : Fate :=
  match splitOnce 61 var with
  | none => .handedOn
  | some (name, current) =>
      if name = hostEnvVar then .leftOut
      else match find record name with
        | none => .handedOn
        | some entry =>
            if entry.restores (some current) then
              entry.original.elim .leftOut fun value => .putBack name value
            else .handedOn

/-- The first pass, at one variable of the caller's array. -/
def restoreVariable (record : CString) (out : Rebuilt) (var : CString × Nat) : Rebuilt :=
  match fate record var.1.bytes with
  | .handedOn => keep out var.2
  | .leftOut => out
  | .putBack name value => put out name value

/-- `present`. -/
def isPresent (envp : List CString) (name : Bytes) : Bool :=
  envp.any fun var => (splitOnce 61 var.bytes).any fun bound => bound.1 = name

/-- What an entry gives back to an array that lacks its variable. -/
def returned (envp : List CString) (entry : RecordEntry) : Option (Bytes × Bytes) :=
  entry.original.bind fun value =>
    if isPresent envp entry.name || !entry.restores none then none else some (entry.name, value)

/-- The second pass, at one entry of the record. -/
def restoreEntry (envp : List CString) (out : Rebuilt) (entry : RecordEntry) : Rebuilt :=
  (returned envp entry).elim out fun binding => put out binding.1 binding.2

/-- The two passes, over the array and over the record. -/
def rebuild (record : CString) (envp : List CString) : Rebuilt :=
  (entries record).foldl (restoreEntry envp)
    (envp.zipIdx.foldl (restoreVariable record) ⟨[], []⟩)

def wordBytes : Nat := 8

/-- The words of the pointer array, its null included. -/
def scratchWords (record : CString) (envp : List CString) : Nat :=
  envp.length + (entries record).length + 1

def stringBytes (record : CString) : Nat := record.bytes.length + 1

/-- `envp` with every recorded variable that still holds what the runtime applied put back to its
original, and the record itself left out; `none` when the scratch memory is refused. -/
def restored (granted : Nat → Bool) (record : CString) (envp : List CString) : Option Rebuilt :=
  if granted (scratchWords record envp * wordBytes + stringBytes record) then
    some (rebuild record envp)
  else none

/-- The string a pointer leads to. -/
def pointee (strings : Bytes) (envp : List CString) : Pointer → Bytes
  | .caller index => (envp[index]?).elim [] CString.bytes
  | .written offset => (strings.drop offset).takeWhile fun byte => byte ≠ 0

/-- The environment the host program is started with. -/
def Rebuilt.variables (out : Rebuilt) (envp : List CString) : List Bytes :=
  out.pointers.map (pointee out.strings envp)

/-! ### What the two passes write -/

/-- What the first pass writes for one variable. -/
def Fate.written : Fate → Option (Bytes × Bytes)
  | .putBack name value => some (name, value)
  | _ => none

/-- What one variable becomes in the new environment. -/
def Fate.passed (var : Bytes) : Fate → Option Bytes
  | .handedOn => some var
  | .leftOut => none
  | .putBack name value => some (assignment name value)

/-- The variables put back in place, one for each variable of the array that is. -/
def copies (record : CString) (envp : List CString) : List (Bytes × Bytes) :=
  envp.filterMap fun var => (fate record var.bytes).written

/-- The variables put back that the array lacks. -/
def additions (record : CString) (envp : List CString) : List (Bytes × Bytes) :=
  (entries record).filterMap (returned envp)

/-- The bytes one string takes. -/
def size (binding : Bytes × Bytes) : Nat := binding.1.length + binding.2.length + 2

@[simp] theorem length_put_strings (out : Rebuilt) (name value : Bytes) :
    (put out name value).strings.length = out.strings.length + size (name, value) := by
  have equals : (utf8 "=").length = 1 := rfl
  simp only [put, assignment, size, List.length_append, List.length_singleton]
  omega

theorem first_pass_strings (record : CString) (envp : List CString) (first : Nat) (out : Rebuilt) :
    ((envp.zipIdx first).foldl (restoreVariable record) out).strings.length =
      out.strings.length + ((copies record envp).map size).sum := by
  induction envp generalizing first out with
  | nil => rfl
  | cons var envp ih =>
      rw [List.zipIdx_cons, List.foldl_cons, ih]
      simp only [restoreVariable, copies]
      cases decided : fate record var.bytes with
      | handedOn => simp [keep, decided, Fate.written]
      | leftOut => simp [decided, Fate.written]
      | putBack name value =>
          rw [List.filterMap_cons_some (b := (name, value)) (by rw [decided]; rfl)]
          rw [List.map_cons, List.sum_cons, length_put_strings]
          omega

theorem second_pass_strings (envp : List CString) (record : List RecordEntry) (out : Rebuilt) :
    (record.foldl (restoreEntry envp) out).strings.length =
      out.strings.length + ((record.filterMap (returned envp)).map size).sum := by
  induction record generalizing out with
  | nil => rfl
  | cons entry record ih =>
      rw [List.foldl_cons, ih, restoreEntry]
      cases decided : returned envp entry with
      | none => simp [decided]
      | some binding =>
          rw [List.filterMap_cons_some decided, List.map_cons, List.sum_cons, Option.elim_some,
            length_put_strings, Nat.add_assoc]

theorem length_rebuild_strings (record : CString) (envp : List CString) :
    (rebuild record envp).strings.length =
      ((copies record envp).map size).sum + ((additions record envp).map size).sum := by
  rw [rebuild, second_pass_strings, first_pass_strings]
  simp [additions]

theorem first_pass_pointers (record : CString) (envp : List CString) (first : Nat) (out : Rebuilt) :
    ((envp.zipIdx first).foldl (restoreVariable record) out).pointers.length ≤
      out.pointers.length + envp.length := by
  induction envp generalizing first out with
  | nil => exact Nat.le_refl _
  | cons var envp ih =>
      have step : (restoreVariable record out (var, first)).pointers.length ≤
          out.pointers.length + 1 := by
        rw [restoreVariable]
        split
        · simp [keep]
        · exact Nat.le_succ _
        · simp [put]
      have later := ih (first + 1) (restoreVariable record out (var, first))
      rw [List.zipIdx_cons, List.foldl_cons, List.length_cons]
      omega

theorem second_pass_pointers (envp : List CString) (record : List RecordEntry) (out : Rebuilt) :
    (record.foldl (restoreEntry envp) out).pointers.length ≤
      out.pointers.length + record.length := by
  induction record generalizing out with
  | nil => exact Nat.le_refl _
  | cons entry record ih =>
      have step : (restoreEntry envp out entry).pointers.length ≤ out.pointers.length + 1 := by
        rw [restoreEntry]
        cases returned envp entry with
        | none => exact Nat.le_succ _
        | some binding => simp [put]
      have later := ih (restoreEntry envp out entry)
      rw [List.foldl_cons, List.length_cons]
      omega

/-- The pointers, their null included, stay inside their region whatever the array holds. -/
theorem length_rebuild_pointers (record : CString) (envp : List CString) :
    (rebuild record envp).pointers.length + 1 ≤ scratchWords record envp := by
  have first := first_pass_pointers record envp 0 ⟨[], []⟩
  have second := second_pass_pointers envp (entries record)
    (envp.zipIdx.foldl (restoreVariable record) ⟨[], []⟩)
  simp only [List.length_nil, Nat.zero_add] at first
  rw [rebuild, scratchWords]
  omega

/-! ### What the record pays for -/

theorem readHash_shrinks {count : Nat} {hash hash' : UInt64} {text rest : Bytes}
    (read : readHash count hash text = some (hash', rest)) : rest.length + count = text.length := by
  induction count generalizing hash text with
  | zero =>
      rw [readHash] at read
      rw [(Prod.mk.inj (Option.some.inj read)).2, Nat.add_zero]
  | succ count ih =>
      cases text with
      | nil => cases read
      | cons byte text =>
          rw [readHash] at read
          rcases Option.bind_eq_some_iff.mp read with ⟨digit, _, later⟩
          have tail := ih later
          rw [List.length_cons]
          omega

theorem parseApplied_shrinks {text rest : Bytes} {applied : Applied}
    (read : parseApplied text = some (applied, rest)) : rest.length < text.length := by
  rw [parseApplied.eq_def] at read
  split at read
  · rw [(Prod.mk.inj (Option.some.inj read)).2]
    exact Nat.lt_succ_self _
  · rw [(Prod.mk.inj (Option.some.inj read)).2]
    exact Nat.lt_succ_self _
  · rcases Option.map_eq_some_iff.mp read with ⟨hash, hashed, same⟩
    have digits := readHash_shrinks hashed
    rw [← (Prod.mk.inj same).2]
    omega

theorem readLength_shrinks {start len : Nat} {text rest : Bytes}
    (read : readLength start text = some (len, rest)) : rest.length ≤ text.length := by
  induction text generalizing start with
  | nil =>
      rw [readLength] at read
      rw [(Prod.mk.inj (Option.some.inj read)).2]
  | cons byte text ih =>
      rw [readLength] at read
      split at read
      · split at read
        · exact Nat.le_succ_of_le (ih read)
        · cases read
      · rw [(Prod.mk.inj (Option.some.inj read)).2]

theorem parseOriginal_pays {text rest : Bytes} {original : Option Bytes}
    (read : parseOriginal text = some (original, rest)) :
    original.elim 0 List.length + rest.length < text.length := by
  rw [parseOriginal.eq_def] at read
  split at read
  · rcases Prod.mk.inj (Option.some.inj read) with ⟨missing, same⟩
    rw [← missing, same]
    simp
  · rcases Option.bind_eq_some_iff.mp read with ⟨⟨len, after⟩, digits, valued⟩
    have shorter := readLength_shrinks digits
    simp only at valued
    split at valued
    · cases valued
    · rcases Option.bind_eq_some_iff.mp valued with ⟨value, colon, taken⟩
      have mark : (utf8 ":").length = 1 := rfl
      have lengths := congrArg List.length (stripPrefix_eq_some.mp colon)
      rw [List.length_append, mark] at lengths
      split at taken
      · cases taken
      · rcases Prod.mk.inj (Option.some.inj taken) with ⟨held, same⟩
        rw [← held, ← same, Option.elim_some, List.length_take, List.length_drop]
        omega

/-- What an entry can make the passes write. -/
def restorable (entry : RecordEntry) : Option (Bytes × Bytes) :=
  entry.original.map fun value => (entry.name, value)

/-- A restored `NAME=value` and its terminator is shorter than its encoded entry. -/
theorem parseEntry_pays {text rest : Bytes} {entry : RecordEntry}
    (read : parseEntry text = some (entry, rest)) :
    (restorable entry).elim 0 size + rest.length ≤ text.length := by
  rcases Option.bind_eq_some_iff.mp read with ⟨⟨name, afterName⟩, split, named⟩
  simp only at named
  split at named
  · cases named
  · rcases Option.bind_eq_some_iff.mp named with ⟨⟨applied, afterApplied⟩, marked, rest'⟩
    rcases Option.bind_eq_some_iff.mp rest' with ⟨⟨original, afterOriginal⟩, valued, last⟩
    rcases Option.bind_eq_some_iff.mp last with ⟨after, ended, done⟩
    rcases Prod.mk.inj (Option.some.inj done) with ⟨same, sameRest⟩
    have equals := congrArg List.length (splitOnce_eq_some.mp split).2
    have marker := parseApplied_shrinks marked
    have value := parseOriginal_pays valued
    have semicolon : afterOriginal.length = (utf8 ";" ++ after).length :=
      congrArg List.length (stripPrefix_eq_some.mp ended)
    have mark : (utf8 ";").length = 1 := rfl
    rw [List.length_append, List.length_cons] at equals
    rw [List.length_append, mark] at semicolon
    simp only at marker value
    rw [← same, ← sameRest, restorable]
    cases original with
    | none =>
        simp only [Option.elim_none] at value
        simp only [Option.map_none, Option.elim_none]
        omega
    | some value' =>
        simp only [Option.elim_some] at value
        simp only [Option.map_some, Option.elim_some, size]
        omega

theorem sum_restorable_le (record : CString) :
    (((entries record).filterMap restorable).map size).sum ≤ record.bytes.length := by
  have paid := sum_readWhile_le (fun entry => (restorable entry).elim 0 size)
    parseEntry_pays record.bytes.length record.bytes
  have same (list : List RecordEntry) : ((list.filterMap restorable).map size).sum =
      (list.map fun entry => (restorable entry).elim 0 size).sum := by
    induction list with
    | nil => rfl
    | cons entry list ih => cases held : restorable entry <;> simp [held, ih]
  rw [same]
  exact paid

/-! ### Copies of one variable -/

/-- The values of a list that come again later in it. -/
def repeats {α : Type} [DecidableEq α] : List α → List α
  | [] => []
  | value :: values => if value ∈ values then value :: repeats values else repeats values

theorem sum_dedup_add_sum_repeats {α : Type} [DecidableEq α] (weight : α → Nat) (values : List α) :
    (values.dedup.map weight).sum + ((repeats values).map weight).sum =
      (values.map weight).sum := by
  induction values with
  | nil => rfl
  | cons value values ih =>
      rw [repeats]
      by_cases again : value ∈ values
      · rw [List.dedup_cons_of_mem again, if_pos again, List.map_cons, List.map_cons,
          List.sum_cons, List.sum_cons]
        omega
      · rw [List.dedup_cons_of_notMem again, if_neg again, List.map_cons, List.map_cons,
          List.sum_cons, List.sum_cons]
        omega

theorem repeats_of_nodup {α : Type} [DecidableEq α] {values : List α} (distinct : values.Nodup) :
    repeats values = [] := by
  induction values with
  | nil => rfl
  | cons value values ih =>
      rw [repeats, if_neg (List.nodup_cons.mp distinct).1, ih (List.nodup_cons.mp distinct).2]

theorem fate_eq_putBack {record : CString} {var name value : Bytes}
    (decided : fate record var = .putBack name value) :
    (∃ current, splitOnce 61 var = some (name, current)) ∧
      ∃ entry ∈ entries record, restorable entry = some (name, value) := by
  rw [fate] at decided
  split at decided
  · cases decided
  · next bound current split =>
      split at decided
      · cases decided
      · split at decided
        · cases decided
        · next entry found =>
            split at decided
            · have named : entry.name = bound := by simpa using List.find?_some found
              cases original : entry.original with
              | none => rw [original] at decided; cases decided
              | some held =>
                  rw [original, Option.elim_some] at decided
                  rcases Fate.putBack.inj decided with ⟨sameName, sameValue⟩
                  rw [← sameName, ← sameValue]
                  refine ⟨⟨current, split⟩, entry, List.mem_of_find?_eq_some found, ?_⟩
                  rw [restorable, original, Option.map_some, named]
            · cases decided

theorem mem_copies {record : CString} {envp : List CString} {binding : Bytes × Bytes}
    (copied : binding ∈ copies record envp) :
    isPresent envp binding.1 ∧ binding ∈ (entries record).filterMap restorable := by
  rcases List.mem_filterMap.mp copied with ⟨var, member, written⟩
  cases decided : fate record var.bytes with
  | handedOn => rw [decided] at written; cases written
  | leftOut => rw [decided] at written; cases written
  | putBack name value =>
      rw [decided] at written
      rw [← Option.some.inj written]
      rcases fate_eq_putBack decided with ⟨⟨current, split⟩, entry, recorded, held⟩
      constructor
      · rw [isPresent, List.any_eq_true]
        exact ⟨var, member, by simp [split]⟩
      · exact List.mem_filterMap.mpr ⟨entry, recorded, held⟩

theorem additions_sublist (record : CString) (envp : List CString) :
    (additions record envp).Sublist
      (((entries record).filterMap restorable).filter fun binding => !isPresent envp binding.1) := by
  rw [additions]
  induction entries record with
  | nil => exact List.Sublist.refl []
  | cons entry record ih =>
      cases original : entry.original with
      | none => simpa [returned, restorable, original] using ih
      | some value =>
          by_cases present : isPresent envp entry.name
          · simpa [returned, restorable, original, present] using ih
          · by_cases holds : entry.restores none
            · simpa [returned, restorable, original, present, holds] using ih
            · simpa [returned, restorable, original, present, holds] using ih.cons _

/-- Each restored variable once, in place or added, fits in the room the record's length leaves. -/
theorem sum_dedup_copies_le (record : CString) (envp : List CString) :
    ((copies record envp).dedup.map size).sum + ((additions record envp).map size).sum ≤
      record.bytes.length := by
  let present (binding : Bytes × Bytes) : Bool := isPresent envp binding.1
  let all := (entries record).filterMap restorable
  have inPlace : (copies record envp).dedup.Subperm (all.filter present) := by
    apply List.Nodup.subperm (List.nodup_dedup _)
    intro binding member
    have copied := mem_copies (List.mem_dedup.mp member)
    exact List.mem_filter.mpr ⟨copied.2, copied.1⟩
  have first : ((copies record envp).dedup.map size).sum ≤ ((all.filter present).map size).sum := by
    rcases inPlace with ⟨arranged, perm, sub⟩
    rw [← (perm.map size).sum_eq]
    exact (sub.map size).sum_le_sum fun _ _ => Nat.zero_le _
  have second : ((additions record envp).map size).sum ≤
      ((all.filter fun binding => !present binding).map size).sum :=
    ((additions_sublist record envp).map size).sum_le_sum fun _ _ => Nat.zero_le _
  have split : ((all.filter present).map size).sum +
      ((all.filter fun binding => !present binding).map size).sum = (all.map size).sum := by
    rw [← List.sum_append, ← List.map_append]
    exact ((List.filter_append_perm present all).map size).sum_eq
  have whole : (all.map size).sum ≤ record.bytes.length := sum_restorable_le record
  omega

/-! ### The bounds of the scratch memory -/

/-- Pointers and strings both stay inside the memory asked for. -/
def Fits (record : CString) (envp : List CString) (out : Rebuilt) : Prop :=
  out.pointers.length + 1 ≤ scratchWords record envp ∧ out.strings.length ≤ stringBytes record

/-- What the strings' region has left once every variable to restore is written once. -/
def spareBytes (record : CString) (envp : List CString) : Nat :=
  stringBytes record -
    (((copies record envp).dedup.map size).sum + ((additions record envp).map size).sum)

theorem fits_rebuild_iff (record : CString) (envp : List CString) :
    Fits record envp (rebuild record envp) ↔
      ((repeats (copies record envp)).map size).sum ≤ spareBytes record envp := by
  have pointers := length_rebuild_pointers record envp
  have strings := length_rebuild_strings record envp
  have once := sum_dedup_copies_le record envp
  have parts := sum_dedup_add_sum_repeats size (copies record envp)
  rw [Fits, and_iff_right pointers, strings, spareBytes, stringBytes]
  omega

/-- The hooks stay inside their scratch memory exactly when the further copies of variables they
put back fit in what the record leaves over. -/
theorem restored_fits_iff (record : CString) (envp : List CString) :
    (∀ granted out, restored granted record envp = some out → Fits record envp out) ↔
      ((repeats (copies record envp)).map size).sum ≤ spareBytes record envp := by
  rw [← fits_rebuild_iff]
  constructor
  · intro every
    exact every (fun _ => true) (rebuild record envp) rfl
  · intro fits granted out written
    rw [restored] at written
    split at written
    · rw [← Option.some.inj written]
      exact fits
    · cases written

/-- An array that binds no variable to restore twice never overruns the memory. -/
theorem restored_fits_of_nodup {record : CString} {envp : List CString}
    (distinct : (copies record envp).Nodup) : Fits record envp (rebuild record envp) := by
  rw [fits_rebuild_iff, repeats_of_nodup distinct]
  exact Nat.zero_le _

def repeatedRecord : CString := ⟨utf8 "A=*5:xxxxx;", by decide +kernel⟩
def repeatedArray : List CString :=
  [⟨utf8 "A=1", by decide +kernel⟩, ⟨utf8 "A=1", by decide +kernel⟩]

/-- Two copies of one recorded variable: sixteen bytes of strings in a region of twelve. -/
theorem restored_overruns :
    ¬ ∀ granted out, restored granted repeatedRecord repeatedArray = some out →
        Fits repeatedRecord repeatedArray out := by
  intro every
  have fits := (every (fun _ => true) (rebuild repeatedRecord repeatedArray) rfl).2
  have overrun : ¬ (rebuild repeatedRecord repeatedArray).strings.length ≤
      stringBytes repeatedRecord := by decide +kernel
  exact overrun fits

end Onelf.Payloads
