import Mathlib.Data.List.Infix
import Onelf.Lib.Checked
import Onelf.Lib.Rows
import Onelf.Lib.Utf8

/-! The glibc loader cache (`onelf-format/src/drivers.rs`): what an image of either layout lists. -/

namespace Onelf.Format.LoaderCache

open Onelf.Lib

def cacheMagicOld : Bytes := utf8 "ld.so-1.7.0"
def cacheMagicNew : Bytes := utf8 "glibc-ld.so.cache1.1"

/-- The ABI bits of a flags word. -/
def flagAbiMask : UInt32 := 0xff00

/-- What the reader was built for. -/
inductive TargetArch where
  | x86_64
  | x86
  | aarch64
  | powerpc64
  | other
  deriving DecidableEq

def TargetArch.nativeAbi : TargetArch → Option UInt32
  | x86_64 => some 0x0300
  | x86 => some 0x0000
  | aarch64 => some 0x0a00
  | powerpc64 => some 0x0500
  | other => none

def forThisAbi (target : TargetArch) (flags : UInt32) : Bool :=
  match target.nativeAbi with
  | some abi => flags &&& flagAbiMask == abi
  | none => true

/-- An entry as it was read. -/
structure Listed where
  flags : UInt32
  hwcap : UInt64
  path : Bytes
  deriving DecidableEq

/-! ### The words and the strings of an image -/

def readU32 (data : Bytes) (pos : Nat) : Option UInt32 :=
  if pos + 4 < usizeLimit ∧ pos + 4 ≤ data.length then
    some (UInt32.ofNat (ofLeBytes (slice data pos 4)))
  else none

/-- The path that ends at the first zero byte of `rest`. -/
def readPath (rest : Bytes) : Option Bytes :=
  match splitOnce 0 rest with
  | none => none
  | some (path, _) => if validUtf8 path && path.head? = some 47 then some path else none

def readStr (data : Bytes) (pos : Nat) : Option Bytes := (Checked.getFrom data pos).bind readPath

/-! ### The two layouts -/

/-- The `count` entries from the `i`th of a new cache whose header starts at `base`. -/
def newEntriesFrom (data : Bytes) (base : Nat) : Nat → Nat → Checked (List Listed)
  | 0, _ => .ok []
  | count + 1, i => do
      let place ← Checked.mul i 24
      -- Both of these sums are checked in the source: the loop ends where one is too large.
      if usizeLimit ≤ base + 48 + place then .ok []
      else
        let entry := base + 48 + place
        let valueAt ← Checked.add entry 8
        let lowAt ← Checked.add entry 16
        let highAt ← Checked.add entry 20
        match readU32 data entry, readU32 data valueAt, readU32 data lowAt, readU32 data highAt with
        | some flags, some value, some low, some high => do
            let start ← Checked.add base value.toNat
            let rest ← newEntriesFrom data base count (i + 1)
            match readStr data start with
            | some path => .ok (⟨flags, high.toUInt64 <<< 32 ||| low.toUInt64, path⟩ :: rest)
            | none => .ok rest
        | _, _, _, _ => .ok []

def newEntries (data : Bytes) (base : Nat) : Checked (List Listed) := do
  let countAt ← Checked.add base 20
  match readU32 data countAt with
  | none => .ok []
  | some nlibs => newEntriesFrom data base nlibs.toNat 0

/-- The `count` entries from the `i`th of an old cache; none of them has a hwcap word. -/
def oldEntriesFrom (data : Bytes) (strings : Nat) : Nat → Nat → Checked (List Listed)
  | 0, _ => .ok []
  | count + 1, i => do
      let place ← Checked.mul i 12
      let entry ← Checked.add 16 place
      let valueAt ← Checked.add entry 8
      match readU32 data entry, readU32 data valueAt with
      | some flags, some value => do
          let start ← Checked.add strings value.toNat
          let rest ← oldEntriesFrom data strings count (i + 1)
          match readStr data start with
          | some path => .ok (⟨flags, 0, path⟩ :: rest)
          | none => .ok rest
      | _, _ => .ok []

def oldEntries (data : Bytes) (nlibs strings : Nat) : Checked (List Listed) :=
  oldEntriesFrom data strings nlibs 0

def nextMultipleOf8 (n : Nat) : Checked Nat := Checked.add n ((8 - n % 8) % 8)

def cacheEntries (data : Bytes) : Checked (List Listed) :=
  if cacheMagicNew.isPrefixOf data then newEntries data 0
  else if cacheMagicOld.isPrefixOf data then
    match readU32 data 12 with
    | none => .ok []
    | some nlibs =>
        -- Both of these results are checked in the source.
        if usizeLimit ≤ nlibs.toNat * 12 + 16 then .ok []
        else do
          let aligned ← nextMultipleOf8 (nlibs.toNat * 12 + 16)
          if aligned < data.length ∧ cacheMagicNew.isPrefixOf (data.drop aligned) then
            newEntries data aligned
          else oldEntries data nlibs.toNat (nlibs.toNat * 12 + 16)
  else .ok []

/-! ### The paths -/

/-- What follows the last slash, or all of a path without one. -/
def fileName (path : Bytes) : Bytes := (path.reverse.takeWhile (· ≠ 47)).reverse

def hwcapsDir : Bytes := utf8 "/glibc-hwcaps/"

def isHwcaps (entry : Listed) : Bool := entry.hwcap ≠ 0 || decide (hwcapsDir <:+: entry.path)

def cachePaths (target : TargetArch) (data : Bytes) : Checked (List Bytes) := do
  let entries ← cacheEntries data
  let entries := entries.filter fun entry => forThisAbi target entry.flags
  let base := (entries.filter fun entry => !isHwcaps entry).map fun entry => fileName entry.path
  .ok ((entries.filter fun entry =>
    !isHwcaps entry || !base.contains (fileName entry.path)).map Listed.path)

/-! ### Rows read one after another -/

/-- What `count` rows from the `i`th give: `none` ends the scan, `some none` is passed. -/
def scan {α : Type} (row : Nat → Option (Option α)) : Nat → Nat → List α
  | 0, _ => []
  | count + 1, i =>
      match row i with
      | none => []
      | some none => scan row count (i + 1)
      | some (some value) => value :: scan row count (i + 1)

section
variable {α β : Type} {row : Nat → Option (Option α)}

theorem mem_scan {value : α} (count i : Nat) (member : value ∈ scan row count i) :
    ∃ j, row j = some (some value) := by
  induction count generalizing i with
  | zero => cases member
  | succ count ih =>
      rw [scan] at member
      cases here : row i with
      | none =>
          rw [here] at member
          cases member
      | some found =>
          cases found with
          | none =>
              rw [here] at member
              exact ih (i + 1) member
          | some first =>
              rw [here] at member
              rcases List.mem_cons.mp member with rfl | later
              · exact ⟨i, here⟩
              · exact ih (i + 1) later

theorem scan_eq_filterMap (f : β → Option α) (values : List β) (i : Nat)
    (rows : ∀ j value, values[j]? = some value → row (i + j) = some (f value)) :
    scan row values.length i = values.filterMap f := by
  induction values generalizing i with
  | nil => rfl
  | cons value values ih =>
      have here := rows 0 value rfl
      have later : scan row values.length (i + 1) = values.filterMap f := by
        apply ih (i + 1)
        intro j other found
        have next := rows (j + 1) other found
        rwa [Nat.add_comm j 1, ← Nat.add_assoc] at next
      rw [Nat.add_zero] at here
      rw [List.length_cons, scan, here]
      cases result : f value with
      | none => rw [List.filterMap_cons_none result, later]
      | some first => rw [List.filterMap_cons_some result, later]

end

/-! ### No offset leaves a `usize` -/

theorem add_eq_ok {left right : Nat} (fits : left + right < usizeLimit) :
    Checked.add left right = .ok (left + right) := if_pos fits

theorem mul_eq_ok {left right : Nat} (fits : left * right < usizeLimit) :
    Checked.mul left right = .ok (left * right) := if_pos fits

/-- The words of the `i`th entry of a new cache. -/
def newRow (data : Bytes) (base i : Nat) : Option (Option Listed) :=
  match readU32 data (base + 48 + i * 24), readU32 data (base + 48 + i * 24 + 8),
    readU32 data (base + 48 + i * 24 + 16), readU32 data (base + 48 + i * 24 + 20) with
  | some flags, some value, some low, some high =>
      some ((readStr data (base + value.toNat)).map
        fun path => ⟨flags, high.toUInt64 <<< 32 ||| low.toUInt64, path⟩)
  | _, _, _, _ => none

/-- The words of the `i`th entry of an old cache. -/
def oldRow (data : Bytes) (strings i : Nat) : Option (Option Listed) :=
  match readU32 data (16 + i * 12), readU32 data (16 + i * 12 + 8) with
  | some flags, some value =>
      some ((readStr data (strings + value.toNat)).map fun path => ⟨flags, 0, path⟩)
  | _, _ => none

/-- No header lies further in than this: an old header counts its entries in 32 bits. -/
def furthestHeader : Nat := 2 ^ 32 * 12 + 24

theorem newEntriesFrom_eq (data : Bytes) {base : Nat} (near : base ≤ furthestHeader) (count i : Nat)
    (few : i + count ≤ 2 ^ 32) :
    newEntriesFrom data base count i = .ok (scan (newRow data base) count i) := by
  induction count generalizing i with
  | zero => rfl
  | succ count ih =>
      have place : i * 24 < 2 ^ 37 := by omega
      have inside : base + 48 + i * 24 + 20 < 2 ^ 40 := by
        rw [furthestHeader] at near
        omega
      have limit : usizeLimit = 2 ^ 64 := rfl
      have rest := ih (i + 1) (by omega)
      rw [newEntriesFrom, mul_eq_ok (by omega), Checked.bind_ok, if_neg (by omega)]
      simp only [add_eq_ok (show base + 48 + i * 24 + 8 < usizeLimit by omega),
        add_eq_ok (show base + 48 + i * 24 + 16 < usizeLimit by omega),
        add_eq_ok (show base + 48 + i * 24 + 20 < usizeLimit by omega), Checked.bind_ok]
      rw [scan, newRow]
      split
      case h_1 flags value low high flagsRead valueRead lowRead highRead =>
        have small := value.toNat_lt
        have start : base + value.toNat < usizeLimit := by omega
        rw [add_eq_ok start, Checked.bind_ok, rest, Checked.bind_ok]
        cases readStr data (base + value.toNat) with
        | none => rfl
        | some path => rfl
      case h_2 => rfl

theorem oldEntriesFrom_eq (data : Bytes) {strings : Nat} (near : strings ≤ furthestHeader)
    (count i : Nat) (few : i + count ≤ 2 ^ 32) :
    oldEntriesFrom data strings count i = .ok (scan (oldRow data strings) count i) := by
  induction count generalizing i with
  | zero => rfl
  | succ count ih =>
      have place : i * 12 < 2 ^ 36 := by omega
      have limit : usizeLimit = 2 ^ 64 := rfl
      have rest := ih (i + 1) (by omega)
      rw [oldEntriesFrom, mul_eq_ok (by omega), Checked.bind_ok, add_eq_ok (by omega),
        Checked.bind_ok, add_eq_ok (by omega), Checked.bind_ok, scan, oldRow]
      split
      case h_1 flags value flagsRead valueRead =>
        have small := value.toNat_lt
        have start : strings + value.toNat < usizeLimit := by
          rw [furthestHeader] at near
          omega
        rw [add_eq_ok start, Checked.bind_ok, rest, Checked.bind_ok]
        cases readStr data (strings + value.toNat) with
        | none => rfl
        | some path => rfl
      case h_2 => rfl

/-! ### What a reader may find in an image -/

/-- The bytes `part` stand in `data` from `pos`. -/
def StandsAt (data : Bytes) (pos : Nat) (part : Bytes) : Prop := part <+: data.drop pos

/-- An absolute path that is text and ends at a zero byte of `data`. -/
def PathIn (data path : Bytes) : Prop :=
  path.head? = some 47 ∧ validUtf8 path = true ∧ 0 ∉ path ∧ ∃ pos, StandsAt data pos (path ++ [0])

theorem length_of_standsAt {data part : Bytes} {pos : Nat} (there : StandsAt data pos part)
    (some_bytes : part ≠ []) : pos + part.length ≤ data.length := by
  have size := there.length_le
  have more := List.length_pos_of_ne_nil some_bytes
  rw [List.length_drop] at size
  omega

theorem readU32_eq_some {data : Bytes} {pos : Nat} {word : UInt32} (near : pos + 4 < usizeLimit)
    (there : StandsAt data pos (leBytes 4 word.toNat)) : readU32 data pos = some word := by
  have width : (leBytes 4 word.toNat).length = 4 := length_leBytes 4 _
  have size : pos + 4 ≤ data.length := by
    rw [← width]
    apply length_of_standsAt there
    intro empty
    rw [empty] at width
    cases width
  have read : slice data pos 4 = leBytes 4 word.toNat := by
    rw [slice, ← width]
    exact (List.prefix_iff_eq_take.mp there).symm
  have small : word.toNat < 256 ^ 4 := word.toNat_lt
  rw [readU32, if_pos ⟨near, size⟩, read, ofLeBytes_leBytes 4 _ small, UInt32.ofNat_toNat]

theorem readStr_eq {data path : Bytes} {pos : Nat} (absolute : path.head? = some 47)
    (unbroken : 0 ∉ path) (there : StandsAt data pos (path ++ [0])) :
    readStr data pos = if validUtf8 path then some path else none := by
  have size : pos ≤ data.length := by
    have inside := length_of_standsAt there (by simp)
    omega
  rcases there with ⟨rest, split⟩
  have cut : splitOnce 0 (data.drop pos) = some (path, rest) := by
    rw [← split, List.append_assoc]
    exact splitOnce_append unbroken rest
  rw [readStr, Checked.getFrom, if_pos size, Option.bind_some, readPath, cut]
  simp only [absolute, decide_true, Bool.and_true]

theorem pathIn_of_readStr {data path : Bytes} {pos : Nat} (read : readStr data pos = some path) :
    PathIn data path := by
  rw [readStr, Checked.getFrom] at read
  split at read
  · rw [Option.bind_some, readPath] at read
    cases cut : splitOnce 0 (data.drop pos) with
    | none =>
        rw [cut] at read
        cases read
    | some parts =>
        rcases parts with ⟨first, rest⟩
        rw [cut] at read
        rcases Option.ite_none_right_eq_some.mp read with ⟨accepted, same⟩
        rw [Option.some.inj same, Bool.and_eq_true, decide_eq_true_iff] at accepted
        rcases splitOnce_eq_some.mp cut with ⟨unbroken, split⟩
        rw [Option.some.inj same] at unbroken split
        refine ⟨accepted.2, accepted.1, unbroken, pos, rest, ?_⟩
        rw [split, List.append_assoc]
        rfl
  · cases read

theorem pathIn_of_newRow {data : Bytes} {base i : Nat} {entry : Listed}
    (read : newRow data base i = some (some entry)) : PathIn data entry.path := by
  rw [newRow] at read
  split at read
  · rcases Option.map_eq_some_iff.mp (Option.some.inj read) with ⟨path, found, rfl⟩
    exact pathIn_of_readStr found
  · cases read

theorem pathIn_of_oldRow {data : Bytes} {strings i : Nat} {entry : Listed}
    (read : oldRow data strings i = some (some entry)) : PathIn data entry.path := by
  rw [oldRow] at read
  split at read
  · rcases Option.map_eq_some_iff.mp (Option.some.inj read) with ⟨path, found, rfl⟩
    exact pathIn_of_readStr found
  · cases read

/-- Where a new header may follow `count` entries of an old one. -/
def newStart (count : Nat) : Nat :=
  count * 12 + 16 + (8 - (count * 12 + 16) % 8) % 8

theorem newStart_le {count : Nat} (few : count ≤ 2 ^ 32) : newStart count ≤ furthestHeader := by
  rw [newStart, furthestHeader]
  omega

theorem newEntries_eq (data : Bytes) {base : Nat} (near : base ≤ furthestHeader) :
    newEntries data base = .ok (match readU32 data (base + 20) with
      | none => []
      | some nlibs => scan (newRow data base) nlibs.toNat 0) := by
  have limit : usizeLimit = 2 ^ 64 := rfl
  have header : base + 20 < usizeLimit := by
    rw [furthestHeader] at near
    omega
  rw [newEntries, add_eq_ok header, Checked.bind_ok]
  cases readU32 data (base + 20) with
  | none => rfl
  | some nlibs =>
      have few := nlibs.toNat_lt
      exact newEntriesFrom_eq data near _ 0 (by omega)

theorem newEntries_paths (data : Bytes) {base : Nat} (near : base ≤ furthestHeader) :
    ∃ entries, newEntries data base = .ok entries ∧ ∀ entry ∈ entries, PathIn data entry.path := by
  refine ⟨_, newEntries_eq data near, ?_⟩
  intro entry member
  cases count : readU32 data (base + 20) with
  | none =>
      rw [count] at member
      cases member
  | some nlibs =>
      rw [count] at member
      rcases mem_scan _ _ member with ⟨i, row⟩
      exact pathIn_of_newRow row

theorem cacheEntries_old {data : Bytes} {nlibs : UInt32}
    (old : cacheMagicOld.isPrefixOf data = true)
    (fresh : cacheMagicNew.isPrefixOf data = false) (count : readU32 data 12 = some nlibs) :
    cacheEntries data =
      if newStart nlibs.toNat < data.length ∧
          cacheMagicNew.isPrefixOf (data.drop (newStart nlibs.toNat)) = true then
        newEntries data (newStart nlibs.toNat)
      else .ok (scan (oldRow data (nlibs.toNat * 12 + 16)) nlibs.toNat 0) := by
  have few := nlibs.toNat_lt
  have limit : usizeLimit = 2 ^ 64 := rfl
  have aligned : nextMultipleOf8 (nlibs.toNat * 12 + 16) = .ok (newStart nlibs.toNat) :=
    add_eq_ok (by omega)
  have rows : oldEntries data nlibs.toNat (nlibs.toNat * 12 + 16) =
      .ok (scan (oldRow data (nlibs.toNat * 12 + 16)) nlibs.toNat 0) := by
    apply oldEntriesFrom_eq data _ _ 0 (by omega)
    rw [furthestHeader]
    omega
  simp only [cacheEntries, fresh, old, count, Bool.false_eq_true, if_false, if_true]
  rw [if_neg (by omega), aligned, Checked.bind_ok, rows]

/-- Any image at all is read to its end, and every entry names a path that stands in it. -/
theorem cacheEntries_paths (data : Bytes) :
    ∃ entries, cacheEntries data = .ok entries ∧ ∀ entry ∈ entries, PathIn data entry.path := by
  cases fresh : cacheMagicNew.isPrefixOf data with
  | true =>
      rw [cacheEntries, fresh, if_pos rfl]
      exact newEntries_paths data (Nat.zero_le _)
  | false =>
      cases old : cacheMagicOld.isPrefixOf data with
      | false => exact ⟨[], by simp [cacheEntries, fresh, old], by simp⟩
      | true =>
          cases count : readU32 data 12 with
          | none => exact ⟨[], by simp [cacheEntries, fresh, old, count], by simp⟩
          | some nlibs =>
              have few := nlibs.toNat_lt
              rw [cacheEntries_old old fresh count]
              split
              · exact newEntries_paths data (newStart_le (by omega))
              · refine ⟨_, rfl, fun entry member => ?_⟩
                rcases mem_scan _ _ member with ⟨i, row⟩
                exact pathIn_of_oldRow row

/-! ### Which of the entries it names -/

/-- Another entry of this ABI is a base copy under the same file name. -/
def Superseded (target : TargetArch) (entries : List Listed) (entry : Listed) : Prop :=
  isHwcaps entry = true ∧
    ∃ base ∈ entries, forThisAbi target base.flags = true ∧ isHwcaps base = false ∧
      fileName base.path = fileName entry.path

instance (target : TargetArch) (entries : List Listed) :
    DecidablePred (Superseded target entries) := fun entry =>
  inferInstanceAs (Decidable (isHwcaps entry = true ∧ ∃ base ∈ entries, _))

/-- The paths of the entries of this ABI, in order, without the hwcaps copies of a base copy. -/
def preferred (target : TargetArch) (entries : List Listed) : List Bytes :=
  (entries.filter fun entry =>
    forThisAbi target entry.flags && decide (¬ Superseded target entries entry)).map Listed.path

theorem cachePaths_eq {target : TargetArch} {data : Bytes} {entries : List Listed}
    (read : cacheEntries data = .ok entries) :
    cachePaths target data = .ok (preferred target entries) := by
  rw [cachePaths, read, Checked.bind_ok]
  dsimp only
  rw [List.filter_filter, preferred]
  congr 2
  apply List.filter_congr
  intro entry member
  rw [Bool.and_comm]
  congr 1
  rw [Bool.eq_iff_iff, Bool.or_eq_true, Bool.not_eq_true', Bool.not_eq_true', decide_eq_true_iff,
    Superseded, not_and_or, Bool.not_eq_true, ← Bool.not_eq_true, ← Bool.not_eq_true,
    List.contains_iff_mem]
  simp only [List.mem_map, List.mem_filter, Bool.not_eq_true', and_assoc]

/-! ### What is laid out -/

/-- An entry that a cache can hold: its path is absolute and ends at its first zero byte. -/
structure CacheEntry extends Listed where
  absolute : path.head? = some 47
  unbroken : 0 ∉ path

/-- A new cache of `entries` whose header starts at `base`. -/
structure NewLayout (data : Bytes) (base : Nat) (entries : List CacheEntry) : Prop where
  magic : StandsAt data base cacheMagicNew
  few : entries.length < 2 ^ 32
  count : StandsAt data (base + 20) (leBytes 4 entries.length)
  row : ∀ i entry, entries[i]? = some entry → ∃ value : UInt32,
    StandsAt data (base + 48 + i * 24) (leBytes 4 entry.flags.toNat) ∧
    StandsAt data (base + 48 + i * 24 + 8) (leBytes 4 value.toNat) ∧
    StandsAt data (base + 48 + i * 24 + 16) (leBytes 8 entry.hwcap.toNat) ∧
    StandsAt data (base + value.toNat) (entry.path ++ [0])

/-- An old cache of `entries`; it has no room for their hwcap words. -/
structure OldLayout (data : Bytes) (entries : List CacheEntry) : Prop where
  magic : StandsAt data 0 cacheMagicOld
  few : entries.length < 2 ^ 32
  count : StandsAt data 12 (leBytes 4 entries.length)
  row : ∀ i entry, entries[i]? = some entry → ∃ value : UInt32,
    StandsAt data (16 + i * 12) (leBytes 4 entry.flags.toNat) ∧
    StandsAt data (16 + i * 12 + 8) (leBytes 4 value.toNat) ∧
    StandsAt data (entries.length * 12 + 16 + value.toNat) (entry.path ++ [0])

/-- The entry, where its path is text. -/
def CacheEntry.readable (entry : CacheEntry) : Option Listed :=
  if validUtf8 entry.path then some entry.toListed else none

/-- The entry as an old cache has it. -/
def CacheEntry.withoutHwcap (entry : CacheEntry) : CacheEntry where
  toListed := { entry.toListed with hwcap := 0 }
  absolute := entry.absolute
  unbroken := entry.unbroken

theorem leBytes_split (first second n : Nat) :
    leBytes (first + second) n = leBytes first n ++ leBytes second (n / 256 ^ first) := by
  induction first generalizing n with
  | zero => simp [leBytes]
  | succ first ih =>
      rw [Nat.succ_add, leBytes, leBytes, ih, Nat.div_div_eq_div_mul, ← Nat.pow_succ',
        List.cons_append]

theorem leBytes_mod (width n : Nat) : leBytes width (n % 256 ^ width) = leBytes width n := by
  have digits := leBytes_ofLeBytes (leBytes width n)
  rwa [length_leBytes, ofLeBytes_leBytes_mod] at digits

theorem standsAt_append {data left right : Bytes} {pos : Nat}
    (there : StandsAt data pos (left ++ right)) :
    StandsAt data pos left ∧ StandsAt data (pos + left.length) right := by
  rcases there with ⟨rest, split⟩
  constructor
  · exact ⟨right ++ rest, by rw [← split, List.append_assoc]⟩
  · refine ⟨rest, ?_⟩
    rw [← List.drop_drop, ← split, List.append_assoc, List.drop_left]

theorem toNat_high (word : UInt64) : (word >>> 32).toUInt32.toNat = word.toNat / 2 ^ 32 := by
  have small := word.toNat_lt
  have half : word.toNat / 2 ^ 32 < 2 ^ 32 := by omega
  have shifted : (word >>> 32).toNat = word.toNat / 2 ^ 32 := by
    rw [UInt64.toNat_shiftRight, Nat.shiftRight_eq_div_pow]
    rfl
  rw [UInt64.toNat_toUInt32, shifted, Nat.mod_eq_of_lt half]

theorem join_halves (word : UInt64) :
    (word >>> 32).toUInt32.toUInt64 <<< 32 ||| word.toUInt32.toUInt64 = word := by
  have small := word.toNat_lt
  have low : word.toNat % 2 ^ 32 < 2 ^ 32 := Nat.mod_lt _ (by decide)
  have fits : (word.toNat / 2 ^ 32) <<< 32 < 2 ^ 64 := by
    rw [Nat.shiftLeft_eq]
    omega
  have shifted : ((word >>> 32).toUInt32.toUInt64 <<< 32).toNat = (word.toNat / 2 ^ 32) <<< 32 := by
    rw [UInt64.toNat_shiftLeft, UInt32.toNat_toUInt64, toNat_high]
    exact Nat.mod_eq_of_lt fits
  apply UInt64.toNat_inj.mp
  rw [UInt64.toNat_or, shifted, UInt32.toNat_toUInt64, UInt64.toNat_toUInt32,
    ← Nat.shiftLeft_add_eq_or_of_lt low, Nat.shiftLeft_eq]
  omega

/-- The two halves of a hwcap word, as they are read. -/
theorem hwcap_halves {data : Bytes} {pos : Nat} {word : UInt64} (near : pos + 8 < usizeLimit)
    (there : StandsAt data pos (leBytes 8 word.toNat)) :
    readU32 data pos = some word.toUInt32 ∧
      readU32 data (pos + 4) = some (word >>> 32).toUInt32 := by
  rw [leBytes_split 4 4] at there
  rcases standsAt_append there with ⟨low, high⟩
  rw [length_leBytes] at high
  have small := word.toNat_lt
  constructor
  · apply readU32_eq_some (by omega)
    rw [UInt64.toNat_toUInt32, show (2 : Nat) ^ 32 = 256 ^ 4 from rfl, leBytes_mod]
    exact low
  · apply readU32_eq_some (by omega)
    rw [toNat_high]
    exact high

theorem newRow_eq {data : Bytes} {base : Nat} {entries : List CacheEntry} {i : Nat}
    {entry : CacheEntry} (layout : NewLayout data base entries) (near : base ≤ furthestHeader)
    (listed : entries[i]? = some entry) : newRow data base i = some entry.readable := by
  have inside := (List.getElem?_eq_some_iff.mp listed).1
  have few := layout.few
  have limit : usizeLimit = 2 ^ 64 := rfl
  have close : base + 48 + i * 24 + 24 < usizeLimit := by
    rw [furthestHeader] at near
    omega
  rcases layout.row i entry listed with ⟨value, flags, offset, hwcap, path⟩
  rcases hwcap_halves (by omega) hwcap with ⟨low, high⟩
  rw [newRow, readU32_eq_some (by omega) flags, readU32_eq_some (by omega) offset, low, high]
  dsimp only
  rw [join_halves, readStr_eq entry.absolute entry.unbroken path, CacheEntry.readable]
  split
  · rfl
  · rfl

theorem oldRow_eq {data : Bytes} {entries : List CacheEntry} {i : Nat} {entry : CacheEntry}
    (layout : OldLayout data entries) (listed : entries[i]? = some entry) :
    oldRow data (entries.length * 12 + 16) i = some entry.withoutHwcap.readable := by
  have inside := (List.getElem?_eq_some_iff.mp listed).1
  have few := layout.few
  have limit : usizeLimit = 2 ^ 64 := rfl
  rcases layout.row i entry listed with ⟨value, flags, offset, path⟩
  rw [oldRow, readU32_eq_some (by omega) flags, readU32_eq_some (by omega) offset]
  dsimp only
  rw [readStr_eq entry.absolute entry.unbroken path, CacheEntry.readable]
  change _ = some (if validUtf8 entry.path then _ else none)
  split
  · rfl
  · rfl

theorem readU32_count {data : Bytes} {pos count : Nat} (few : count < 2 ^ 32)
    (near : pos + 4 < usizeLimit) (there : StandsAt data pos (leBytes 4 count)) :
    readU32 data pos = some (UInt32.ofNat count) ∧ (UInt32.ofNat count).toNat = count := by
  have same : (UInt32.ofNat count).toNat = count := UInt32.toNat_ofNat_of_lt' few
  refine ⟨readU32_eq_some near ?_, same⟩
  rw [same]
  exact there

theorem newEntries_layout {data : Bytes} {base : Nat} {entries : List CacheEntry}
    (layout : NewLayout data base entries) (near : base ≤ furthestHeader) :
    newEntries data base = .ok (entries.filterMap CacheEntry.readable) := by
  have limit : usizeLimit = 2 ^ 64 := rfl
  have close : base + 20 + 4 < usizeLimit := by
    rw [furthestHeader] at near
    omega
  rcases readU32_count layout.few close layout.count with ⟨count, same⟩
  rw [newEntries_eq data near, count]
  dsimp only
  rw [same, scan_eq_filterMap CacheEntry.readable entries 0]
  intro i entry listed
  rw [Nat.zero_add]
  exact newRow_eq layout near listed

theorem isPrefixOf_of_standsAt {data part : Bytes} {pos : Nat} :
    part.isPrefixOf (data.drop pos) = true ↔ StandsAt data pos part := List.isPrefixOf_iff_prefix

theorem startsWith_of_standsAt {data part : Bytes} (there : StandsAt data 0 part) :
    part.isPrefixOf data = true := List.isPrefixOf_iff_prefix.mpr there

theorem cacheEntries_new {data : Bytes} {entries : List CacheEntry}
    (layout : NewLayout data 0 entries) :
    cacheEntries data = .ok (entries.filterMap CacheEntry.readable) := by
  rw [cacheEntries, if_pos (startsWith_of_standsAt layout.magic)]
  exact newEntries_layout layout (Nat.zero_le _)

/-- The two magics differ in their first byte. -/
theorem not_new_of_old {data : Bytes} (old : StandsAt data 0 cacheMagicOld) :
    cacheMagicNew.isPrefixOf data = false := by
  rcases old with ⟨rest, split⟩
  rw [List.drop_zero] at split
  rw [← split]
  rfl

theorem cacheEntries_nested {data : Bytes} {older entries : List CacheEntry}
    (outer : OldLayout data older) (inner : NewLayout data (newStart older.length) entries) :
    cacheEntries data = .ok (entries.filterMap CacheEntry.readable) := by
  have few := outer.few
  have magic := inner.magic
  have longer := length_of_standsAt magic (by decide)
  rcases readU32_count few (by decide) outer.count with ⟨count, same⟩
  rw [cacheEntries_old (startsWith_of_standsAt outer.magic) (not_new_of_old outer.magic) count,
    same, if_pos ⟨lt_of_lt_of_le (Nat.lt_add_of_pos_right (by decide)) longer,
      isPrefixOf_of_standsAt.mpr magic⟩]
  exact newEntries_layout inner (newStart_le (by omega))

theorem cacheEntries_alone {data : Bytes} {entries : List CacheEntry}
    (layout : OldLayout data entries)
    (alone : ¬ StandsAt data (newStart entries.length) cacheMagicNew) :
    cacheEntries data =
      .ok ((entries.map CacheEntry.withoutHwcap).filterMap CacheEntry.readable) := by
  rcases readU32_count layout.few (by decide) layout.count with ⟨count, same⟩
  rw [cacheEntries_old (startsWith_of_standsAt layout.magic) (not_new_of_old layout.magic) count,
    same, if_neg fun found => alone (isPrefixOf_of_standsAt.mp found.2), List.filterMap_map,
    scan_eq_filterMap (CacheEntry.readable ∘ CacheEntry.withoutHwcap) entries 0]
  intro i entry listed
  rw [Nat.zero_add]
  exact oldRow_eq layout listed

theorem mem_preferred {target : TargetArch} {entries : List Listed} {path : Bytes}
    (member : path ∈ preferred target entries) : ∃ entry ∈ entries, entry.path = path := by
  rcases List.mem_map.mp member with ⟨entry, kept, same⟩
  exact ⟨entry, (List.mem_filter.mp kept).1, same⟩

/-- Every layout is read back as it was laid out, an old cache where no new header follows it; any
other image gives paths that stand in it. -/
theorem cachePaths_reads (target : TargetArch) (data : Bytes) :
    (∃ paths, cachePaths target data = .ok paths ∧ ∀ path ∈ paths, PathIn data path) ∧
    (∀ entries, NewLayout data 0 entries →
      cachePaths target data = .ok (preferred target (entries.filterMap CacheEntry.readable))) ∧
    (∀ older entries, OldLayout data older → NewLayout data (newStart older.length) entries →
      cachePaths target data = .ok (preferred target (entries.filterMap CacheEntry.readable))) ∧
    ∀ entries, OldLayout data entries → ¬ StandsAt data (newStart entries.length) cacheMagicNew →
      cachePaths target data = .ok (preferred target
        ((entries.map CacheEntry.withoutHwcap).filterMap CacheEntry.readable)) := by
  refine ⟨?_, ?_, ?_, ?_⟩
  · rcases cacheEntries_paths data with ⟨entries, read, inside⟩
    refine ⟨_, cachePaths_eq read, fun path member => ?_⟩
    rcases mem_preferred member with ⟨entry, listed, rfl⟩
    exact inside entry listed
  · intro entries layout
    exact cachePaths_eq (cacheEntries_new layout)
  · intro older entries outer inner
    exact cachePaths_eq (cacheEntries_nested outer inner)
  · intro entries layout alone
    exact cachePaths_eq (cacheEntries_alone layout alone)

/-- A new cache of a hwcaps copy and its base copy. -/
def pairImage : Bytes :=
  cacheMagicNew ++ leBytes 4 2 ++ leBytes 24 0 ++
    (leBytes 4 0x0303 ++ leBytes 4 0 ++ leBytes 4 96 ++ leBytes 4 0 ++ leBytes 8 (2 ^ 62)) ++
    (leBytes 4 0x0303 ++ leBytes 4 0 ++ leBytes 4 101 ++ leBytes 4 0 ++ leBytes 8 0) ++
    utf8 "/x/z" ++ [0] ++ utf8 "/z" ++ [0]

def hwcapsCopy : CacheEntry where
  toListed := ⟨0x0303, 0x4000000000000000, utf8 "/x/z"⟩
  absolute := by decide
  unbroken := by decide

def baseCopy : CacheEntry where
  toListed := ⟨0x0303, 0, utf8 "/z"⟩
  absolute := by decide
  unbroken := by decide

theorem pairImage_layout : NewLayout pairImage 0 [hwcapsCopy, baseCopy] where
  magic := isPrefixOf_of_standsAt.mp (by decide +kernel)
  few := by decide
  count := isPrefixOf_of_standsAt.mp (by decide +kernel)
  row := by
    intro i entry listed
    rcases i with _ | _ | i
    · rcases Option.some.inj listed with rfl
      exact ⟨96, isPrefixOf_of_standsAt.mp (by decide +kernel),
        isPrefixOf_of_standsAt.mp (by decide +kernel),
        isPrefixOf_of_standsAt.mp (by decide +kernel),
        isPrefixOf_of_standsAt.mp (by decide +kernel)⟩
    · rcases Option.some.inj listed with rfl
      exact ⟨101, isPrefixOf_of_standsAt.mp (by decide +kernel),
        isPrefixOf_of_standsAt.mp (by decide +kernel),
        isPrefixOf_of_standsAt.mp (by decide +kernel),
        isPrefixOf_of_standsAt.mp (by decide +kernel)⟩
    · cases listed

theorem cachePaths_pair : cachePaths .x86_64 pairImage = .ok [utf8 "/z"] := by
  have read := (cachePaths_reads .x86_64 pairImage).2.1 _ pairImage_layout
  rw [read]
  decide +kernel

/-- An old cache of one path whose text holds the new magic, eight-byte aligned. -/
def magicImage : Bytes :=
  cacheMagicOld ++ [0] ++ leBytes 4 1 ++ (leBytes 4 0x0303 ++ leBytes 4 0 ++ leBytes 4 0) ++
    utf8 "/usrglibc-ld.so.cache1.1" ++ [0]

def magicEntry : CacheEntry where
  toListed := ⟨0x0303, 0, utf8 "/usrglibc-ld.so.cache1.1"⟩
  absolute := by decide
  unbroken := by decide

/-- A new cache of one path that is not text. -/
def untextedImage : Bytes :=
  cacheMagicNew ++ leBytes 4 1 ++ leBytes 24 0 ++
    (leBytes 4 0x0303 ++ leBytes 4 0 ++ leBytes 4 72 ++ leBytes 4 0 ++ leBytes 8 0) ++ [47, 255, 0]

def untextedEntry : CacheEntry where
  toListed := ⟨0x0303, 0, [47, 255]⟩
  absolute := by decide
  unbroken := by decide

/-- Neither path is given, though both are of this ABI and no copy supersedes them. -/
theorem cachePaths_misses :
    (OldLayout magicImage [magicEntry] ∧ cachePaths .x86_64 magicImage = .ok [] ∧
      preferred .x86_64 [magicEntry.toListed] = [utf8 "/usrglibc-ld.so.cache1.1"]) ∧
    (NewLayout untextedImage 0 [untextedEntry] ∧ cachePaths .x86_64 untextedImage = .ok [] ∧
      preferred .x86_64 [untextedEntry.toListed] = [[47, 255]]) := by
  refine ⟨⟨⟨?_, by decide, ?_, ?_⟩, by decide, by decide⟩,
    ⟨⟨?_, by decide, ?_, ?_⟩, by decide, by decide⟩⟩
  · exact isPrefixOf_of_standsAt.mp (by decide)
  · exact isPrefixOf_of_standsAt.mp (by decide)
  · intro i entry listed
    match i with
    | 0 =>
        rcases Option.some.inj listed with rfl
        exact ⟨0, isPrefixOf_of_standsAt.mp (by decide), isPrefixOf_of_standsAt.mp (by decide),
          isPrefixOf_of_standsAt.mp (by decide)⟩
  · exact isPrefixOf_of_standsAt.mp (by decide)
  · exact isPrefixOf_of_standsAt.mp (by decide)
  · intro i entry listed
    match i with
    | 0 =>
        rcases Option.some.inj listed with rfl
        exact ⟨72, isPrefixOf_of_standsAt.mp (by decide), isPrefixOf_of_standsAt.mp (by decide),
          isPrefixOf_of_standsAt.mp (by decide), isPrefixOf_of_standsAt.mp (by decide)⟩

end Onelf.Format.LoaderCache
