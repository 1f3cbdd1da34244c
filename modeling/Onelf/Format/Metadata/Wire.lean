import Onelf.Format.Rules
import Onelf.Lib.Codec

/-! The wire both metadata files share: header, strings, records and pins
(`runtime_metadata.rs`). -/

namespace Onelf.Format.Metadata

open Onelf.Lib
open Onelf.Lib.Codec (Reads Writes Source Output)

/-- A diagnostic for malformed or unsupported metadata. -/
inductive MetadataError where
  | text (reason : String)
  | rule (error : RuleError)
  deriving DecidableEq

def maxMetadataBytes : Nat := 1024 * 1024
def headerBytes : Nat := 16
def metadataVersion : Nat := 1

/-- A declared set identity and its full pinned artifact hash. -/
@[ext] structure SetPin where
  name : RuleId
  hash : Digest
  deriving DecidableEq

namespace SetPin

/-- The derived ordering: by name, then by hash. -/
def orderKey (pin : SetPin) : RuleId ×ₗ Digest := toLex (pin.name, pin.hash)

theorem orderKey_injective : Function.Injective orderKey := by
  intro left right same
  have pair := toLex.injective same
  cases left
  cases right
  simp_all

instance : LinearOrder SetPin := LinearOrder.lift' orderKey orderKey_injective

end SetPin

/-! ### Reading -/

abbrev Read := Codec.ReadM MetadataError maxMetadataBytes maxRecords

def truncated : MetadataError :=
  .text "metadata: truncated field or length exceeds remaining bytes"

def tooManyRecords : MetadataError := .text "records: exceeds MAX_RECORDS (4096)"

def trailing : MetadataError := .text "metadata: trailing bytes in file or record"

namespace Read

def take (count : Nat) : Read Bytes := Codec.take truncated count

def byte : Read UInt8 := do
  let value ← take 1
  Codec.check (.ok (value.headD 0))

def u32 : Read Nat := Codec.u32 truncated

/-- `Budget::add`. -/
def spend (count : Nat) : Read Unit := Codec.spend tooManyRecords count

/-- A `count` and the loop that reads as many records. -/
def counted {α : Type} (minimumBytes : Nat) (item : Read α) : Read (List α) :=
  Codec.counted truncated tooManyRecords (.text "record count: exceeds remaining encoded records")
    minimumBytes item

def string (maximum : Nat) : Read Text := do
  let count ← u32
  Codec.ensure (count ≠ 0 ∧ count ≤ maximum) (.text (if maximum = maxIdBytes
    then "name length: requires 1..=128 bytes" else "path length: requires 1..=4096 bytes"))
  let bytes ← take count
  Codec.check (match fromUtf8 bytes with
    | some text => .ok text
    | none => .error (.text "string: invalid UTF-8"))

/-- `record`, the fields `body` reads, and the record's `finish`. -/
def record {α : Type} (tag : UInt8) (body : Read α) : Read α :=
  Codec.framed truncated (.text "record length: must include a known tag")
    (.text "record: unknown or misplaced variant tag") trailing tag body

end Read

def liftRule {α : Type} : Except RuleError α → Except MetadataError α
  | .ok value => .ok value
  | .error error => .error (.rule error)

def readId : Read RuleId := do
  let name ← Read.string maxIdBytes
  Codec.check (liftRule (RuleId.new name.bytes))

def readHash : Read Digest := do
  let bytes ← Read.take 32
  Codec.check (if size : bytes.length = 32 then .ok ⟨bytes, size⟩ else .error truncated)

def readPin (tag : UInt8) : Read SetPin :=
  Read.record tag do
    let name ← readId
    let hash ← readHash
    pure ⟨name, hash⟩

/-- Reads the header up to the payload and returns the record count it declares. -/
def readHeader (magic : Bytes) : Read Nat := do
  let found ← Read.take 4
  Codec.ensure (found = magic) (.text "header: invalid metadata magic")
  let version ← Read.take 2
  Codec.ensure (ofLeBytes version = metadataVersion) (.text "header: unsupported metadata version")
  let flags ← Read.take 2
  Codec.ensure (flags = [0, 0]) (.text "header: unknown reserved flags")
  let payload ← Read.u32
  let records ← Read.u32
  Codec.ensure (records ≤ maxRecords) (.text "header: exceeds MAX_RECORDS (4096)")
  let left ← Codec.remaining
  Codec.ensure (payload = left)
    (.text "header payload length: inconsistent with complete file")
  pure records

/-- `Budget::finish`. -/
def finishBudget (expected : Nat) : Read Unit := fun source =>
  if source.used = expected then .ok ((), source)
  else .error (.text "header record count: inconsistent with aggregate records")

/-- A complete file: header, tables, nothing after them, and the declared record count. -/
def decodeFile {α : Type} (magic : Bytes) (tables : Read α) (bytes : Bytes) :
    Except MetadataError α :=
  if fits : bytes.length ≤ maxMetadataBytes then
    let file : Read α := do
      let expected ← readHeader magic
      let value ← tables
      Codec.finish trailing
      finishBudget expected
      pure value
    (file ⟨bytes, 0, fits, Nat.zero_le _⟩).map Prod.fst
  else .error (.text "file: exceeds MAX_METADATA_BYTES (1 MiB)")

/-! ### Writing -/

/-- `Budget::add` on the encoder's side. -/
def addBudget (used count : Nat) : Except MetadataError Nat :=
  if used + count ≤ maxRecords then .ok (used + count) else .error tooManyRecords

abbrev Write := Codec.WriteM MetadataError maxMetadataBytes

def tooLarge : MetadataError := .text "file: exceeds MAX_METADATA_BYTES (1 MiB)"

def lengthExceeds : MetadataError := .text "length: exceeds u32"

namespace Write

def bytes (chunk : Bytes) : Write Unit := Codec.append tooLarge chunk

def byte (value : UInt8) : Write Unit := bytes [value]

def count (value : Nat) : Write Unit := Codec.writeU32 lengthExceeds tooLarge value

def string (value : Bytes) : Write Unit := do
  count value.length
  bytes value

/-- `start_record`, the fields `body` writes, and `end_record`. -/
def record (tag : UInt8) (body : Write Unit) : Write Unit :=
  Codec.record lengthExceeds (.text "record length: exceeds u32") tooLarge tag body

end Write

def writePin (tag : UInt8) (pin : SetPin) : Write Unit :=
  Write.record tag do
    Write.string pin.name.bytes
    Write.bytes pin.hash.bytes

/-- `Writer::new`. -/
def writeHeader (magic : Bytes) (records : Nat) : Write Unit := do
  Write.bytes magic
  Write.bytes (leBytes 2 metadataVersion)
  Write.bytes [0, 0]
  Write.count 0
  Write.count records

/-- `Writer::finish`: patches the payload length into the header. -/
def Write.finish (output : Output maxMetadataBytes) : Except MetadataError Bytes :=
  let payload := output.bytes.length - headerBytes
  if payload < 256 ^ 4 then .ok (Codec.overwrite output.bytes 8 (leBytes 4 payload))
  else .error (.text "payload length: exceeds u32")

/-- `Writer::new`, the tables `body` writes, and `Writer::finish`. -/
def encodeFile (magic : Bytes) (records : Nat) (body : Write Unit) : Except MetadataError Bytes :=
  let file : Write Unit := do
    writeHeader magic records
    body
  match file ⟨[], Nat.zero_le _⟩ with
  | .ok (_, output) => Write.finish output
  | .error error => .error error

/-! ### What the wire carries -/

def stringBytes (value : Bytes) : Bytes := leBytes 4 value.length ++ value

def pinBytes (tag : UInt8) (pin : SetPin) : Bytes :=
  Codec.frame tag (stringBytes pin.name.bytes ++ pin.hash.bytes)

def fileBytes (magic : Bytes) (records : Nat) (body : Bytes) : Bytes :=
  magic ++ [1, 0] ++ [0, 0] ++ leBytes 4 body.length ++ leBytes 4 records ++ body

theorem length_stringBytes (value : Bytes) : (stringBytes value).length = 4 + value.length := by
  simp [stringBytes]

theorem addBudget_adds (count : Nat) :
    Adds maxRecords (fun used => addBudget used count) count := by
  intro used _ total
  change addBudget used count = _ ↔ _
  rw [addBudget]
  split
  · next fits =>
      rw [Except.ok.injEq]
      omega
  · next overflow =>
      simp only [reduceCtorEq, false_iff]
      omega

theorem byte_reads : Reads Read.byte (fun byte => [byte]) (fun _ => 0) fun _ => True := by
  refine (Codec.Reads.checked (fun byte => [byte]) (fun _ => True)
    (Codec.take_reads truncated 1) ?_).congr (fun _ => rfl) (fun _ => rfl) fun _ => by simp
  intro bytes byte length
  obtain ⟨only, rfl⟩ := List.length_eq_one_iff.mp length
  simp [eq_comm]

theorem string_reads {maximum : Nat} (fits : maximum < 256 ^ 4) :
    Reads (Read.string maximum) (fun text => stringBytes text.bytes) (fun _ => 0)
      fun text => 0 < text.bytes.length ∧ text.bytes.length ≤ maximum :=
  Codec.string_reads fits

theorem liftRule_eq_ok {α : Type} {verdict : Except RuleError α} {value : α} :
    liftRule verdict = .ok value ↔ verdict = .ok value := by
  cases verdict with
  | ok found => simp [liftRule]
  | error reason => simp [liftRule]

theorem readId_reads :
    Reads readId (fun id => stringBytes id.bytes) (fun _ => 0) fun _ => True := by
  refine (Codec.Reads.checked (fun id => ⟨id.bytes, id.valid⟩) (fun _ => True)
    (string_reads (by decide)) ?_).congr (fun _ => rfl) (fun _ => rfl)
    fun id => by simp [id.length_pos, id.length_le]
  intro text id _
  rw [liftRule_eq_ok, RuleId.new_eq_ok, Text.ext_iff, and_true, eq_comm]

theorem readHash_reads : Reads readHash Digest.bytes (fun _ => 0) fun _ => True := by
  refine (Codec.Reads.checked Digest.bytes (fun _ => True) (Codec.take_reads truncated 32) ?_).congr
    (fun _ => rfl) (fun _ => rfl) fun hash => by simp [hash.size]
  intro bytes hash length
  rw [dif_pos length, Except.ok.injEq, Digest.ext_iff, and_true]

theorem record_reads {α : Type} {tag : UInt8} {body : Read α} {render : α → Bytes}
    {cost : α → Nat} {admits : α → Prop} (reads : Reads body render cost admits) :
    Reads (Read.record tag body) (fun value => Codec.frame tag (render value)) cost admits :=
  reads.framed (by decide)

theorem counted_reads {α : Type} (minimum : Nat) {item : Read α} {render : α → Bytes}
    {cost : α → Nat} (reads : Reads item render cost fun _ => True) (positive : 0 < minimum)
    (least : ∀ value, minimum ≤ (render value).length) :
    Reads (Read.counted minimum item) (Codec.countedBytes render)
      (fun values => values.length + (values.map cost).sum) fun _ => True :=
  (reads.counted (by decide) positive fun value _ => least value).congr (fun _ => rfl)
    (fun _ => rfl) fun _ => by simp

theorem readPin_reads (tag : UInt8) :
    Reads (readPin tag) (pinBytes tag) (fun _ => 0) fun _ => True := by
  rw [readPin]
  refine (record_reads (Codec.Reads.start SetPin.name readId_reads fun name _ =>
    Codec.Reads.field SetPin.hash readHash_reads fun hash _ => Codec.Reads.done ?_)).congr
    (fun pin => ?_) (fun _ => rfl) (fun pin => ?_)
  · simp [SetPin.ext_iff]
  · simp [pinBytes]
  · simp

theorem readHeader_eq_ok {magic : Bytes} (four : magic.length = 4) {records : Nat}
    {source next : Source maxMetadataBytes maxRecords} :
    readHeader magic source = .ok (records, next) ↔
      records ≤ maxRecords ∧ next.used = source.used ∧
        source.rest = fileBytes magic records next.rest :=
  Codec.header_eq_ok four (by decide) (by decide) (by decide)

theorem finishBudget_eq_ok {expected : Nat} {source next : Source maxMetadataBytes maxRecords}
    {nothing : Unit} :
    finishBudget expected source = .ok (nothing, next) ↔ source.used = expected ∧ next = source := by
  rw [finishBudget]
  split
  · next same => simp [same, eq_comm]
  · next other => simp [other]

theorem length_fileBytes {magic : Bytes} (four : magic.length = 4) (records : Nat) (body : Bytes) :
    (fileBytes magic records body).length = headerBytes + body.length := by
  simp only [fileBytes, headerBytes, List.length_append, four, length_leBytes, List.length_cons,
    List.length_nil]

theorem decodeFile_eq_ok {α : Type} {magic bytes : Bytes} (four : magic.length = 4)
    {tables : Read α} {render : α → Bytes} {cost : α → Nat} {admits : α → Prop}
    (reads : Reads tables render cost admits) {value : α} :
    decodeFile magic tables bytes = .ok value ↔
      admits value ∧ cost value ≤ maxRecords ∧ bytes.length ≤ maxMetadataBytes ∧
        bytes = fileBytes magic (cost value) (render value) := by
  rw [decodeFile]
  split
  · next fits =>
      simp only [Codec.map_fst_eq_ok, Codec.bind_eq_ok, readHeader_eq_ok four, reads _ _ _, Codec.finish_eq_ok,
        finishBudget_eq_ok, Codec.pure_eq_ok]
      constructor
      · rintro ⟨_, records, first, ⟨bounded, unspent, ahead⟩, _, second,
          ⟨admitted, behind, counted⟩, _, _, ⟨none, rfl⟩, _, _, ⟨agreed, rfl⟩, rfl, rfl⟩
        have cost : cost value = records := by
          rw [← agreed, counted, unspent, Nat.zero_add]
        rw [none, List.append_nil] at behind
        rw [cost, ← behind]
        exact ⟨admitted, bounded, fits, ahead⟩
      · rintro ⟨admitted, bounded, -, same⟩
        let first : Source maxMetadataBytes maxRecords :=
          ⟨render value, 0, by rw [same, length_fileBytes four] at fits; omega, Nat.zero_le _⟩
        let last : Source maxMetadataBytes maxRecords :=
          ⟨[], cost value, Nat.zero_le _, bounded⟩
        exact ⟨last, cost value, first, ⟨bounded, rfl, same⟩, value, last,
          ⟨admitted, (List.append_nil _).symm, (Nat.zero_add _).symm⟩, (), last, ⟨rfl, rfl⟩, (), last,
          ⟨rfl, rfl⟩, rfl, rfl⟩
  · next long => simp [long]

/-! ### Writing what the wire carries -/

theorem string_writes {value : Bytes} (fits : value.length < 256 ^ 4) :
    Writes (Write.string value) (stringBytes value) :=
  (Codec.writeU32_writes fits).andThen (Codec.append_writes _ value)

theorem byte_writes (value : UInt8) : Writes (Write.byte value) [value] :=
  Codec.append_writes _ _

theorem record_writes (tag : UInt8) {body : Write Unit} {chunk : Bytes}
    (writes : Writes body chunk) : Writes (Write.record tag body) (Codec.frame tag chunk) :=
  writes.record (by decide)

theorem id_writes (id : RuleId) : Writes (Write.string id.bytes) (stringBytes id.bytes) :=
  string_writes (lt_of_le_of_lt id.length_le (by decide))

theorem writePin_writes (tag : UInt8) (pin : SetPin) :
    Writes (writePin tag pin) (pinBytes tag pin) :=
  record_writes tag ((id_writes pin.name).andThen (Codec.append_writes _ _))

/-- A count and the loop after it write a counted list. -/
theorem counted_writes {α : Type} {writer : α → Write Unit} {render : α → Bytes} (values : List α)
    (fits : values.length ≤ maxRecords) (item : ∀ value ∈ values, Writes (writer value) (render value)) :
    Writes (do Write.count values.length; values.forM writer) (Codec.countedBytes render values) :=
  (Codec.writeU32_writes (lt_of_le_of_lt fits (by decide))).andThen (Codec.Writes.forEach item)

/-- The header as it stands before its payload length is patched. -/
def headerBytesWritten (magic : Bytes) (records : Nat) : Bytes :=
  magic ++ (leBytes 2 metadataVersion ++ ([0, 0] ++ (leBytes 4 0 ++ leBytes 4 records)))

theorem writeHeader_writes (magic : Bytes) {records : Nat} (bounded : records ≤ maxRecords) :
    Writes (writeHeader magic records) (headerBytesWritten magic records) :=
  (Codec.append_writes _ _).andThen ((Codec.append_writes _ _).andThen
    ((Codec.append_writes _ _).andThen ((Codec.writeU32_writes (by decide)).andThen
      (Codec.writeU32_writes (lt_of_le_of_lt bounded (by decide))))))

theorem length_overwrite_header {magic : Bytes} (four : magic.length = 4) (records : Nat)
    (chunk : Bytes) : (fileBytes magic records chunk).length =
      ([] ++ (headerBytesWritten magic records ++ chunk)).length := by
  rw [length_fileBytes four, List.nil_append]
  exact (Codec.length_openHeader four metadataVersion records chunk).symm

theorem finish_written {magic : Bytes} (four : magic.length = 4) (records : Nat) (chunk : Bytes)
    {output : Output maxMetadataBytes}
    (written : output.bytes = [] ++ (headerBytesWritten magic records ++ chunk)) :
    Write.finish output = .ok (fileBytes magic records chunk) := by
  have length := output.bounded
  rw [written, ← length_overwrite_header four, length_fileBytes four] at length
  have payload : output.bytes.length - headerBytes = chunk.length := by
    rw [written, ← length_overwrite_header four, length_fileBytes four, Nat.add_sub_cancel_left]
  have fits : chunk.length < 256 ^ 4 := by
    have small : maxMetadataBytes < 256 ^ 4 := by decide
    omega
  rw [Write.finish, payload, if_pos fits, written, List.nil_append]
  exact congrArg Except.ok (Codec.overwrite_openHeader four metadataVersion records chunk)

theorem encodeFile_eq_ok {magic bytes chunk : Bytes} (four : magic.length = 4) {records : Nat}
    (bounded : records ≤ maxRecords) {body : Write Unit} (writes : Writes body chunk) :
    encodeFile magic records body = .ok bytes ↔
      bytes.length ≤ maxMetadataBytes ∧ bytes = fileBytes magic records chunk := by
  have file := (writeHeader_writes magic bounded).andThen writes
  rw [encodeFile]
  split
  · next output written =>
      have content := (file _ _).mp written
      have finished := finish_written four records chunk content
      rw [finished, Except.ok.injEq]
      constructor
      · rintro rfl
        refine ⟨?_, rfl⟩
        have bound := output.bounded
        rw [content, ← length_overwrite_header four records chunk] at bound
        exact bound
      · rintro ⟨-, rfl⟩
        rfl
  · next error failed =>
      refine ⟨nofun, ?_⟩
      rintro ⟨fits, rfl⟩
      rw [length_overwrite_header four] at fits
      rw [(file ⟨[], Nat.zero_le _⟩ ⟨_, fits⟩).mpr (List.nil_append _).symm] at failed
      cases failed

end Onelf.Format.Metadata
