import Onelf.Lib.SortedMap
import Onelf.Lib.Text

/-! The record of what a launch changed in the environment (`onelf-rt/src/hostenv.rs`). -/

namespace Onelf.Runtime

open Onelf.Lib

def hostEnvVar : Bytes := utf8 "ONELF_HOST_ENV"

/-- Set on the exec command itself after the record is made. -/
def setAtExec : List Bytes := [utf8 "ONELF_INTERP", utf8 "LD_LIBRARY_PATH"]

/-- What the runtime did to a recorded variable. -/
inductive Applied where
  | removed
  | value (hash : UInt64)
  | any
  deriving DecidableEq

structure RecordEntry where
  name : Bytes
  applied : Applied
  original : Option Bytes
  deriving DecidableEq

/-- 64-bit FNV-1a, which the constructor computes the same way. -/
def fnv1a (bytes : Bytes) : UInt64 :=
  bytes.foldl (fun hash byte => (hash ^^^ byte.toUInt64) * 0x00000100000001b3) 0xcbf29ce484222325

/-- Whether a variable now holding `current` still holds what the runtime applied. -/
def RecordEntry.restores (entry : RecordEntry) (current : Option Bytes) : Bool :=
  match entry.applied, current with
  | .any, _ => true
  | .removed, none => true
  | .value hash, some value => fnv1a value = hash
  | _, _ => false

/-- The environment of a process: names and values as the system hands them over. -/
structure Environment where
  vars : SortedMap Bytes Bytes
  named : ∀ entry ∈ vars.entries, entry.1 ≠ [] ∧ 61 ∉ entry.1 ∧ 0 ∉ entry.1
  valued : ∀ entry ∈ vars.entries, 0 ∉ entry.2 ∧ entry.2.length < usizeLimit

/-! ### Writing the record -/

def encodeApplied : Applied → Bytes
  | .removed => utf8 "-"
  | .any => utf8 "*"
  | .value hash => hexDigits 16 hash.toNat

def encodeOriginal : Option Bytes → Bytes
  | none => utf8 "-"
  | some value => decimal value.length ++ utf8 ":" ++ value

def encodeEntry (entry : RecordEntry) : Bytes :=
  entry.name ++ utf8 "=" ++ encodeApplied entry.applied ++ encodeOriginal entry.original ++ utf8 ";"

/-- The names a record may speak of, in order and once each. -/
def recordNames (start now : SortedMap Bytes Bytes) : List Bytes :=
  sortDedup ((start.keys ++ now.keys ++ setAtExec).filter fun name => name ≠ hostEnvVar)

/-- The entry for one name, where the launch changed it. -/
def entryFor (start now : SortedMap Bytes Bytes) (name : Bytes) : Option RecordEntry :=
  if name ∈ setAtExec then some ⟨name, .any, start.get? name⟩
  else if start.get? name = now.get? name then none
  else some ⟨name, (now.get? name).elim .removed fun value => .value (fnv1a value), start.get? name⟩

def recordEntries (start now : SortedMap Bytes Bytes) : List RecordEntry :=
  (recordNames start now).filterMap (entryFor start now)

/-- One entry for every variable that differs between `start` and `now`, and one for each of
`setAtExec`. -/
def buildRecord (start now : SortedMap Bytes Bytes) : Bytes :=
  (recordEntries start now).flatMap encodeEntry

/-! ### Reading it back in the runtime -/

def parseHash (text : Bytes) : Option (UInt64 × Bytes) :=
  if text.length < 16 || !(text.take 16).all isLowerHex then none
  else (hexNumber 0 (text.take 16)).map fun hash => (UInt64.ofNat hash, text.drop 16)

def parseApplied : Bytes → Option (Applied × Bytes)
  | [] => none
  | 45 :: rest => some (.removed, rest)
  | 42 :: rest => some (.any, rest)
  | text => (parseHash text).map fun (hash, rest) => (.value hash, rest)

def parseOriginal : Bytes → Option (Option Bytes × Bytes)
  | 45 :: rest => some (none, rest)
  | text => do
      let (digits, rest) ← splitOnce 58 text
      let len ← parseUsize digits
      if rest.length < len then none
      else some (some (rest.take len), rest.drop len)

def parseEntry (text : Bytes) : Option (RecordEntry × Bytes) := do
  let (name, rest) ← splitOnce 61 text
  let (applied, rest) ← parseApplied rest
  let (original, rest) ← parseOriginal rest
  let rest ← stripPrefix (utf8 ";") rest
  some (⟨name, applied, original⟩, rest)

/-- The entries of a record, up to the first malformed one. -/
def parseRecord (record : Bytes) : List RecordEntry := readWhile parseEntry record.length record

/-! ### What is recorded -/

/-- An entry a record can carry. -/
structure RecordEntry.Plain (entry : RecordEntry) : Prop where
  named : entry.name ≠ []
  undivided : 61 ∉ entry.name
  name_terminated : 0 ∉ entry.name
  terminated : ∀ value ∈ entry.original, 0 ∉ value
  fits : ∀ value ∈ entry.original, value.length < usizeLimit

theorem entryFor_name {start now : SortedMap Bytes Bytes} {name : Bytes} {entry : RecordEntry}
    (found : entryFor start now name = some entry) : entry.name = name := by
  rw [entryFor] at found
  split at found
  · rw [← Option.some.inj found]
  · split at found
    · cases found
    · rw [← Option.some.inj found]

theorem entryFor_original {start now : SortedMap Bytes Bytes} {name : Bytes} {entry : RecordEntry}
    (found : entryFor start now name = some entry) : entry.original = start.get? name := by
  rw [entryFor] at found
  split at found
  · rw [← Option.some.inj found]
  · split at found
    · cases found
    · rw [← Option.some.inj found]

theorem mem_recordNames (start now : SortedMap Bytes Bytes) (name : Bytes) :
    name ∈ recordNames start now ↔
      (name ∈ start.keys ∨ name ∈ now.keys ∨ name ∈ setAtExec) ∧ name ≠ hostEnvVar := by
  simp only [recordNames, mem_sortDedup, List.mem_filter, List.mem_append, decide_eq_true_eq,
    or_assoc]

theorem mem_recordNames_of_entryFor {start now : SortedMap Bytes Bytes} {name : Bytes}
    {entry : RecordEntry} (visible : name ≠ hostEnvVar)
    (found : entryFor start now name = some entry) : name ∈ recordNames start now := by
  rw [mem_recordNames]
  refine ⟨?_, visible⟩
  by_cases atExec : name ∈ setAtExec
  · exact Or.inr (Or.inr atExec)
  · rw [entryFor, if_neg atExec] at found
    by_cases before : (start.get? name).isSome
    · exact Or.inl ((SortedMap.mem_keys_iff start name).mpr before)
    · by_cases after : (now.get? name).isSome
      · exact Or.inr (Or.inl ((SortedMap.mem_keys_iff now name).mpr after))
      · have same : start.get? name = now.get? name := by
          rw [Option.not_isSome_iff_eq_none.mp before, Option.not_isSome_iff_eq_none.mp after]
        rw [if_pos same] at found
        cases found

theorem mem_recordEntries (start now : SortedMap Bytes Bytes) (entry : RecordEntry) :
    entry ∈ recordEntries start now ↔
      entry.name ≠ hostEnvVar ∧ entryFor start now entry.name = some entry := by
  rw [recordEntries, List.mem_filterMap]
  constructor
  · intro recorded
    rcases recorded with ⟨name, member, found⟩
    have same := entryFor_name found
    rw [same]
    exact ⟨((mem_recordNames start now name).mp member).2, found⟩
  · intro recorded
    exact ⟨entry.name, mem_recordNames_of_entryFor recorded.1 recorded.2, recorded.2⟩

theorem recordEntries_nodup (start now : SortedMap Bytes Bytes) :
    ((recordEntries start now).map RecordEntry.name).Nodup := by
  have names : (recordEntries start now).map RecordEntry.name =
      (recordNames start now).filter fun name => (entryFor start now name).isSome := by
    rw [recordEntries, List.map_filterMap]
    induction recordNames start now with
    | nil => rfl
    | cons name names ih =>
        cases found : entryFor start now name with
        | none => simp [found, ih]
        | some entry => simp [found, ih, entryFor_name found]
  rw [names]
  exact (nodup_of_sorted (sortDedup_sorted _)).filter _

/-- Looking a name up in the entries. -/
theorem find?_recordEntries (start now : SortedMap Bytes Bytes) (name : Bytes) :
    ((recordEntries start now).find? fun entry => entry.name = name) =
      if name = hostEnvVar then none else entryFor start now name := by
  cases held : (recordEntries start now).find? fun entry => entry.name = name with
  | some entry =>
      have same : entry.name = name := by simpa using List.find?_some held
      have recorded := (mem_recordEntries start now entry).mp (List.mem_of_find?_eq_some held)
      rw [same] at recorded
      rw [if_neg recorded.1, recorded.2]
  | none =>
      split
      · rfl
      · next visible =>
          cases found : entryFor start now name with
          | none => rfl
          | some entry =>
              have same := entryFor_name found
              have recorded : entry ∈ recordEntries start now := by
                rw [mem_recordEntries, same]
                exact ⟨visible, found⟩
              exact absurd same (by simpa using List.find?_eq_none.mp held entry recorded)

theorem Environment.named_of_get? (env : Environment) {name value : Bytes}
    (held : env.vars.get? name = some value) :
    (name ≠ [] ∧ 61 ∉ name ∧ 0 ∉ name) ∧ 0 ∉ value ∧ value.length < usizeLimit :=
  have member := (SortedMap.mem_entries_iff env.vars name value).mpr held
  ⟨env.named _ member, env.valued _ member⟩

theorem recordEntries_plain (start now : Environment) :
    ∀ entry ∈ recordEntries start.vars now.vars, entry.Plain := by
  intro entry member
  have recorded := (mem_recordEntries start.vars now.vars entry).mp member
  have original := entryFor_original recorded.2
  have name : entry.name ≠ [] ∧ 61 ∉ entry.name ∧ 0 ∉ entry.name := by
    have known := (mem_recordNames _ _ _).mp (mem_recordNames_of_entryFor recorded.1 recorded.2)
    rcases known.1 with before | after | atExec
    · rw [SortedMap.mem_keys_iff, Option.isSome_iff_exists] at before
      exact (start.named_of_get? before.choose_spec).1
    · rw [SortedMap.mem_keys_iff, Option.isSome_iff_exists] at after
      exact (now.named_of_get? after.choose_spec).1
    · have all : ∀ name ∈ setAtExec, name ≠ [] ∧ 61 ∉ name ∧ 0 ∉ name := by decide
      exact all entry.name atExec
  refine ⟨name.1, name.2.1, name.2.2, ?_, ?_⟩
  · intro value held
    rw [original] at held
    exact (start.named_of_get? held).2.1
  · intro value held
    rw [original] at held
    exact (start.named_of_get? held).2.2

/-! ### What is written is read back -/

theorem hexNumber_hash (hash : UInt64) : hexNumber 0 (hexDigits 16 hash.toNat) = some hash.toNat := by
  rw [hexNumber_hexDigits, Nat.zero_mul, Nat.zero_add, Nat.mod_eq_of_lt]
  exact hash.toNat_lt

theorem parseHash_hexDigits (hash : UInt64) (rest : Bytes) :
    parseHash (hexDigits 16 hash.toNat ++ rest) = some (hash, rest) := by
  have taken : (hexDigits 16 hash.toNat ++ rest).take 16 = hexDigits 16 hash.toNat :=
    List.take_left' (length_hexDigits 16 hash.toNat)
  have dropped : (hexDigits 16 hash.toNat ++ rest).drop 16 = rest :=
    List.drop_left' (length_hexDigits 16 hash.toNat)
  have hex : (hexDigits 16 hash.toNat).all isLowerHex = true :=
    List.all_eq_true.mpr (hexDigits_isLowerHex 16 hash.toNat)
  rw [parseHash, taken, dropped, hex, hexNumber_hash]
  simp

theorem parseApplied_encodeApplied (applied : Applied) (rest : Bytes) :
    parseApplied (encodeApplied applied ++ rest) = some (applied, rest) := by
  cases applied with
  | removed => rfl
  | any => rfl
  | value hash =>
      have read := parseHash_hexDigits hash rest
      rcases hexDigits_cons 15 hash.toNat with ⟨digit, tail, digits, lower⟩
      rw [digits, List.cons_append] at read
      rw [encodeApplied, digits, List.cons_append, parseApplied, read]
      · rfl
      · intro empty
        cases empty
      · intro tail dash
        rw [(List.cons.inj dash).1] at lower
        exact absurd lower (by decide)
      · intro tail star
        rw [(List.cons.inj star).1] at lower
        exact absurd lower (by decide)

theorem parseOriginal_encodeOriginal {original : Option Bytes}
    (fits : ∀ value ∈ original, value.length < usizeLimit) (rest : Bytes) :
    parseOriginal (encodeOriginal original ++ rest) = some (original, rest) := by
  cases original with
  | none => rfl
  | some value =>
      have colon : 58 ∉ decimal value.length := fun member =>
        absurd (decimal_isDigit _ _ member) (by decide)
      have split := splitOnce_append colon (value ++ rest)
      have whole : encodeOriginal (some value) ++ rest = decimal value.length ++ 58 :: (value ++ rest) := by
        simp only [encodeOriginal, List.append_assoc]
        rfl
      have length := parseUsize_decimal (fits value rfl)
      rcases decimal_cons value.length with ⟨digit, tail, digits, isDigit⟩
      rw [digits, List.cons_append] at split
      rw [digits] at length
      rw [whole, digits, List.cons_append, parseOriginal, split]
      · simp [length]
      · intro tail dash
        rw [(List.cons.inj dash).1] at isDigit
        exact absurd isDigit (by decide)

theorem parseEntry_encodeEntry {entry : RecordEntry} (plain : entry.Plain) (rest : Bytes) :
    parseEntry (encodeEntry entry ++ rest) = some (entry, rest) := by
  have whole : encodeEntry entry ++ rest = entry.name ++ 61 :: (encodeApplied entry.applied ++
      (encodeOriginal entry.original ++ (utf8 ";" ++ rest))) := by
    simp only [encodeEntry, List.append_assoc]
    rfl
  rw [whole, parseEntry, splitOnce_append plain.undivided]
  simp only [Option.bind_eq_bind, Option.bind_some, parseApplied_encodeApplied,
    parseOriginal_encodeOriginal plain.fits, stripPrefix_append]

theorem length_encodeEntry_pos (entry : RecordEntry) : 0 < (encodeEntry entry).length := by
  rw [encodeEntry, List.length_append]
  have mark : (utf8 ";").length = 1 := rfl
  omega

theorem length_le_length_encoded (entries : List RecordEntry) :
    entries.length ≤ (entries.flatMap encodeEntry).length := by
  induction entries with
  | nil => exact Nat.le_refl 0
  | cons entry entries ih =>
      have first := length_encodeEntry_pos entry
      rw [List.flatMap_cons, List.length_append, List.length_cons]
      omega

theorem parseRecord_encoded {entries : List RecordEntry} (plain : ∀ entry ∈ entries, entry.Plain) :
    parseRecord (entries.flatMap encodeEntry) = entries :=
  readWhile_flatMap rfl (fun entry member => parseEntry_encodeEntry (plain entry member))
    (length_le_length_encoded entries)

theorem parseRecord_buildRecord (start now : Environment) :
    parseRecord (buildRecord start.vars now.vars) = recordEntries start.vars now.vars :=
  parseRecord_encoded (recordEntries_plain start now)

/-! ### A record is a C string -/

theorem encodeEntry_terminated {entry : RecordEntry} (plain : entry.Plain) :
    0 ∉ encodeEntry entry := by
  have applied : 0 ∉ encodeApplied entry.applied := by
    cases entry.applied with
    | removed => decide
    | any => decide
    | value hash => exact fun member => absurd (hexDigits_isLowerHex _ _ _ member) (by decide)
  have original : 0 ∉ encodeOriginal entry.original := by
    cases held : entry.original with
    | none => decide
    | some value =>
        have digits : 0 ∉ decimal value.length := fun member =>
          absurd (decimal_isDigit _ _ member) (by decide)
        have colon : 0 ∉ utf8 ":" := by decide
        simp only [encodeOriginal, List.mem_append, not_or]
        exact ⟨⟨digits, colon⟩, plain.terminated value held⟩
  have equals : 0 ∉ utf8 "=" := by decide
  have semicolon : 0 ∉ utf8 ";" := by decide
  simp only [encodeEntry, List.mem_append, not_or]
  exact ⟨⟨⟨⟨plain.name_terminated, equals⟩, applied⟩, original⟩, semicolon⟩

theorem buildRecord_terminated (start now : Environment) :
    0 ∉ buildRecord start.vars now.vars := by
  intro member
  rcases List.mem_flatMap.mp member with ⟨entry, recorded, inside⟩
  exact encodeEntry_terminated (recordEntries_plain start now entry recorded) inside

end Onelf.Runtime
