import Onelf.Format.Rules
import Onelf.Lib.Codec

/-! The provider index a set build carries: the set's name and the names its objects export
(`provider_index.rs`). -/

namespace Onelf.Format

open Onelf.Lib

inductive ProviderIndexError where
  | text (reason : String)
  | rule (error : RuleError)
  deriving DecidableEq

/-- The loader-namespace names one set build exports, and the name it was published under. -/
@[ext] structure ProviderIndex where
  set : Text
  exports : List Text
  deriving DecidableEq

namespace ProviderIndex

def version : Nat := 1
def headerBytes : Nat := 16
def maxIndexBytes : Nat := 1024 * 1024

/-! ### Validation -/

def validateSetName (name : Bytes) : Except ProviderIndexError Unit :=
  match RuleId.setName name with
  | .ok _ => .ok ()
  | .error reason => .error (.rule reason)

def validateExportName (name : Bytes) : Except ProviderIndexError Unit :=
  refuseIf (name.isEmpty ∨ name.length > maxIdBytes ∨ name.contains 0 ∨ name.contains slash)
    (.text "exported name: requires 1..=128 UTF-8 bytes without NUL or /")

def validate (index : ProviderIndex) : Except ProviderIndexError Unit := do
  validateSetName index.set.bytes
  refuseIf (index.exports.length + 1 > maxRecords)
    (.text "exports: identity plus names exceeds MAX_RECORDS (4096)")
  index.exports.forM fun name => validateExportName name.bytes
  refuseIf (outOfOrder index.exports = true) (.text "exports: names must be sorted and unique")

def new (set : Text) (exports : List Text) : Except ProviderIndexError ProviderIndex := do
  validateSetName set.bytes
  let value : ProviderIndex := ⟨set, sortByKey id exports⟩
  value.validate
  .ok value

/-! ### Encoding -/

abbrev Write := Codec.WriteM ProviderIndexError maxIndexBytes

def tooLarge : ProviderIndexError := .text "file: exceeds MAX_INDEX_BYTES (1 MiB)"

def lengthExceeds : ProviderIndexError := .text "length: exceeds u32"

def writeCount (count : Nat) : Write Unit := Codec.writeU32 lengthExceeds tooLarge count

def writeString (value : Bytes) : Write Unit := do
  writeCount value.length
  Codec.append tooLarge value

/-- `start_record`, one name, and `end_record`. -/
def writeRecord (tag : UInt8) (value : Bytes) : Write Unit :=
  Codec.record lengthExceeds (.text "record length: exceeds u32") tooLarge tag (writeString value)

/-- `Writer::new`. -/
def writeHeader (records : Nat) : Write Unit := do
  Codec.append tooLarge (utf8 "OPRV")
  Codec.append tooLarge (leBytes 2 version)
  Codec.append tooLarge [0, 0]
  writeCount 0
  writeCount records

/-- `Writer::finish`: patches the payload length into the header. -/
def finishFile (bytes : Bytes) : Except ProviderIndexError Bytes :=
  if bytes.length - headerBytes < 256 ^ 4 then
    .ok (Codec.overwrite bytes 8 (leBytes 4 (bytes.length - headerBytes)))
  else .error (.text "payload length: exceeds u32")

def writeFile (index : ProviderIndex) : Write Unit := do
  writeHeader (index.exports.length + 1)
  writeRecord 1 index.set.bytes
  index.exports.forM fun name => writeRecord 2 name.bytes

def encode (index : ProviderIndex) : Except ProviderIndexError Bytes := do
  index.validate
  let written ← index.writeFile ⟨[], Nat.zero_le _⟩
  finishFile written.2.bytes

/-! ### Decoding -/

abbrev Read := Codec.ReadM ProviderIndexError maxIndexBytes 0

def truncated : ProviderIndexError :=
  .text "index: truncated field or length exceeds remaining bytes"

def trailing : ProviderIndexError := .text "index: trailing bytes in file or record"

def readString : Read Text := do
  let count ← Codec.u32 truncated
  Codec.ensure (count ≠ 0 ∧ count ≤ maxIdBytes) (.text "name length: requires 1..=128 bytes")
  let bytes ← Codec.take truncated count
  Codec.check (match fromUtf8 bytes with
    | some text => .ok text
    | none => .error (.text "string: invalid UTF-8"))

/-- What the records so far have: the set's name, once it was there, and the exports. -/
structure Found where
  set : Option Text
  exports : List Text

def readField (found : Found) (tag : UInt8) : Read Found :=
  if tag = 1 then do
    Codec.ensure (found.set = none) (.text "identity: duplicate record")
    let name ← readString
    pure { found with set := some name }
  else if tag = 2 then do
    Codec.ensure (found.set ≠ none) (.text "exports: the identity record must come first")
    let name ← readString
    pure { found with exports := found.exports ++ [name] }
  else Codec.check (.error (.text "record: unknown or misplaced variant tag"))

/-- `record`, the fields of its tag, and its `finish`. -/
def readRecord (found : Found) : Read Found := do
  let count ← Codec.u32 truncated
  Codec.ensure (count ≠ 0) (.text "record length: must include a known tag")
  let outer ← Codec.narrow truncated count
  let tag ← Codec.take truncated 1
  let next ← readField found (tag.headD 0)
  Codec.finish trailing
  Codec.restore outer
  pure next

def readRecords : Nat → Found → Read Found
  | 0, found => pure found
  | records + 1, found => do
      let next ← readRecord found
      readRecords records next

/-- Reads the header up to the payload and returns the record count it declares. -/
def readHeader : Read Nat := do
  let magic ← Codec.take truncated 4
  Codec.ensure (magic = utf8 "OPRV") (.text "header: invalid index magic")
  let found ← Codec.take truncated 2
  Codec.ensure (ofLeBytes found = version) (.text "header: unsupported index version")
  let flags ← Codec.take truncated 2
  Codec.ensure (flags = [0, 0]) (.text "header: unknown reserved flags")
  let payload ← Codec.u32 truncated
  let records ← Codec.u32 truncated
  Codec.ensure (records ≤ maxRecords) (.text "header: exceeds MAX_RECORDS (4096)")
  let left ← Codec.remaining
  Codec.ensure (payload = left)
    (.text "header payload length: inconsistent with complete file")
  pure records

def readFile : Read Found := do
  let records ← readHeader
  let found ← readRecords records ⟨none, []⟩
  Codec.finish trailing
  pure found

def requireSet : Option Text → Except ProviderIndexError Text
  | some set => .ok set
  | none => .error (.text "identity: record missing")

def decode (bytes : Bytes) : Except ProviderIndexError ProviderIndex :=
  if fits : bytes.length ≤ maxIndexBytes then do
    let read ← readFile ⟨bytes, 0, fits, Nat.le_refl _⟩
    let set ← requireSet read.1.set
    let value : ProviderIndex := ⟨set, read.1.exports⟩
    value.validate
    .ok value
  else .error tooLarge

/-! ### What is accepted -/

def ExportName (name : Text) : Prop :=
  name.bytes ≠ [] ∧ name.bytes.length ≤ maxIdBytes ∧ 0 ∉ name.bytes ∧ slash ∉ name.bytes

structure Valid (index : ProviderIndex) : Prop where
  set : ∃ id, RuleId.setName index.set.bytes = .ok id
  few : index.exports.length + 1 ≤ maxRecords
  names : ∀ name ∈ index.exports, ExportName name
  ascending : index.exports.Pairwise (· < ·)

theorem validateSetName_eq_ok {name : Bytes} :
    validateSetName name = .ok () ↔ ∃ id, RuleId.setName name = .ok id := by
  rw [validateSetName]
  cases RuleId.setName name with
  | ok id => simp
  | error reason => simp

theorem validateExportName_eq_ok {name : Text} :
    validateExportName name.bytes = .ok () ↔ ExportName name := by
  rw [validateExportName, refuseIf_eq_ok, ExportName]
  simp only [List.isEmpty_iff, List.contains_eq_mem, decide_eq_true_eq, not_or, Nat.not_lt]

theorem validate_eq_ok {index : ProviderIndex} : index.validate = .ok () ↔ index.Valid := by
  have names : (index.exports.forM fun name => validateExportName name.bytes) = .ok () ↔
      ∀ name ∈ index.exports, ExportName name := by
    rw [Except.forM_eq_ok]
    exact forall₂_congr fun name _ => validateExportName_eq_ok
  simp only [validate, Except.followed_eq_ok, validateSetName_eq_ok, names, refuseIf_eq_ok,
    Nat.not_lt, Bool.not_eq_true, outOfOrder_eq_false]
  constructor
  · intro accepted
    exact ⟨accepted.1, accepted.2.1, accepted.2.2.1, accepted.2.2.2⟩
  · intro valid
    exact ⟨valid.set, valid.few, valid.names, valid.ascending⟩

/-- The index of a set that exports two names. -/
def gtkIndex : ProviderIndex :=
  ⟨⟨utf8 "gtk", by decide +kernel⟩,
    [⟨utf8 "libgio-2.0.so.0", by decide +kernel⟩, ⟨utf8 "libgtk-3.so.0", by decide +kernel⟩]⟩

example : gtkIndex.encode.bind decode = .ok gtkIndex := by decide +kernel

end ProviderIndex

end Onelf.Format
