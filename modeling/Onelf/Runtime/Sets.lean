import Onelf.Format.Metadata.Backing
import Onelf.Lib.Replace
import Onelf.Lib.Str

/-! The sets a launch acquires: the set table, the selection record and the gate before every
dispatch (`sets.rs`, `pkgmeta.rs`). -/

namespace Onelf.Runtime.Sets

open Onelf.Lib Onelf.Format Onelf.Format.Metadata

/-- What names one stored build. -/
structure Pin where
  label : Str
  url : Str
  blake3 : Str
  deriving DecidableEq

/-- A hash is one BLAKE3 digest in hex; a hex digit is one byte. -/
def isDigest (blake3 : Str) : Bool := blake3.length = 64 && blake3.all Str.isHexDigit

/-- The label is a directory's name and the hash the file's. -/
def checkedPin (label url blake3 : Str) : Option Pin :=
  if label = [] ∨ '/' ∈ label ∨ label.head? = some '.' then none
  else if !isDigest blake3 then none
  else some ⟨label, url, blake3⟩

/-! ### The set table -/

/-- What `parse` holds at a line of the table. -/
structure Reading where
  name : Option Str
  url : Option Str
  blake3 : Option Str
  out : List Pin

namespace Reading

/-- The pins read so far, with the one the held values make. -/
def flushed (reading : Reading) : List Pin :=
  match reading.name, reading.url, reading.blake3 with
  | some label, some url, some blake3 => reading.out ++ (checkedPin label url blake3).toList
  | _, _, _ => reading.out

end Reading

def quote : Str := ['"']
def escapedQuote : Str := ['\\', '"']
def backslash : Str := ['\\']
def escapedBackslash : Str := ['\\', '\\']

/-- What stands between the quotes of a value. -/
def unquote (value : Str) : Option Str := do
  let opened ← Str.stripPrefix '"' value
  let inner ← Str.stripSuffix '"' opened
  some (replaceAll escapedBackslash backslash (replaceAll escapedQuote quote inner))

def readValue (reading : Reading) (line : Str) : Reading :=
  match Str.splitOnce '=' line with
  | none => reading
  | some (key, value) =>
      match unquote (Str.trim value) with
      | none => reading
      | some value =>
          if Str.trim key = ['u', 'r', 'l'] then { reading with url := some value }
          else if Str.trim key = ['b', 'l', 'a', 'k', 'e', '3'] then
            { reading with blake3 := some (Str.lowercase value) }
          else reading

def readLine (reading : Reading) (line : Str) : Reading :=
  match Str.trim line with
  | '[' :: rest => ⟨(Str.stripSuffix ']' rest).map Str.trim, none, none, reading.flushed⟩
  | line => readValue reading line

/-- The sets the record names, in file order; a malformed table is skipped. -/
def parse (text : Str) : List Pin := ((Str.lines text).foldl readLine ⟨none, none, none, []⟩).flushed

theorem checkedPin_eq_some {label url blake3 : Str} {pin : Pin} :
    checkedPin label url blake3 = some pin ↔ label ≠ [] ∧ '/' ∉ label ∧ label.head? ≠ some '.' ∧
      isDigest blake3 = true ∧ pin = ⟨label, url, blake3⟩ := by
  rw [checkedPin]
  split
  · next refused =>
      constructor
      · intro none
        cases none
      · intro accepted
        rcases refused with empty | slash | dot
        · exact absurd empty accepted.1
        · exact absurd slash accepted.2.1
        · exact absurd dot accepted.2.2.1
  · next named =>
      rw [not_or, not_or] at named
      cases digest : isDigest blake3 with
      | false => simp
      | true => simp [named, eq_comm]

/-- A label that one line of the table can give and a directory can have. -/
structure Readable (label : Str) : Prop where
  oneLine : '\n' ∉ label
  trimmed : Str.Trimmed label
  nonempty : label ≠ []
  noSlash : '/' ∉ label
  visible : label.head? ≠ some '.'

/-- What holds of the values while the table is read. -/
structure Reading.Sound (reading : Reading) : Prop where
  name : ∀ label ∈ reading.name, '\n' ∉ label ∧ Str.Trimmed label
  out : ∀ pin ∈ reading.out, Readable pin.label ∧ isDigest pin.blake3 = true

theorem Reading.Sound.flushed {reading : Reading} (sound : reading.Sound) :
    ∀ pin ∈ reading.flushed, Readable pin.label ∧ isDigest pin.blake3 = true := by
  intro pin member
  rw [Reading.flushed] at member
  split at member
  · next label url blake3 named _ _ =>
      rcases List.mem_append.mp member with before | last
      · exact sound.out pin before
      · rw [Option.mem_toList] at last
        rcases checkedPin_eq_some.mp last with ⟨nonempty, noSlash, visible, digest, same⟩
        have line := sound.name label named
        rw [same]
        exact ⟨⟨line.1, line.2, nonempty, noSlash, visible⟩, digest⟩
  · exact sound.out pin member

theorem readLine_sound {reading : Reading} {line : Str} (sound : reading.Sound)
    (whole : '\n' ∉ line) : (readLine reading line).Sound := by
  rw [readLine]
  split
  · next rest trimmed =>
      constructor
      · intro label found
        rcases Option.mem_map.mp found with ⟨inner, stripped, same⟩
        rw [← same]
        refine ⟨fun inside => whole ?_, Str.trimmed_trim inner⟩
        apply Str.mem_of_mem_trim
        rw [trimmed]
        exact List.mem_cons_of_mem _ (Str.mem_of_stripSuffix stripped (Str.mem_of_mem_trim inside))
      · exact sound.flushed
  · rw [readValue]
    split
    · exact sound
    · split
      · exact sound
      · split
        · exact ⟨sound.name, sound.out⟩
        · split
          · exact ⟨sound.name, sound.out⟩
          · exact sound

/-- Whatever the table, a pin that is read can name a stored build, on one line. -/
theorem mem_parse {text : Str} {pin : Pin} (member : pin ∈ parse text) :
    Readable pin.label ∧ isDigest pin.blake3 = true := by
  have kept (lines : List Str) (whole : ∀ line ∈ lines, '\n' ∉ line) (reading : Reading)
      (sound : reading.Sound) : (lines.foldl readLine reading).Sound := by
    induction lines generalizing reading with
    | nil => exact sound
    | cons line lines ih =>
        exact ih (fun other later => whole other (List.mem_cons_of_mem _ later)) _
          (readLine_sound sound (whole line List.mem_cons_self))
  have started : Reading.Sound ⟨none, none, none, []⟩ := by
    constructor
    · intro label none
      cases none
    · intro pin none
      cases none
  exact (kept (Str.lines text) (fun line => Str.lines_whole) _ started).flushed pin member

/-! ### Selection -/

/-- Why a launch is refused. -/
inductive GateError where
  | overLimit (declared : Nat)
  | rejected (why : MetadataError)
  | notCanonical (label : Str)
  | notDigest (label : Str)
  | mismatch (why : MetadataError)
  | noSelection (entrypoint : Text)
  | undeclared (name : RuleId)
  deriving DecidableEq

/-- The value two hex digits give. -/
def hexPair (high low : Char) : Option UInt8 := do
  let hi ← Str.hexValue high
  let lo ← Str.hexValue low
  some (UInt8.ofNat (hi * 16 + lo))

def hexBytes : Str → Option Bytes
  | high :: low :: rest => do
      let byte ← hexPair high low
      let bytes ← hexBytes rest
      some (byte :: bytes)
  | _ => some []

/-- The 32 bytes of a hex BLAKE3 digest. -/
def hexDigest (text : Str) : Option Digest :=
  if text.length = 64 then
    (hexBytes text).bind fun bytes =>
      if sized : bytes.length = 32 then some ⟨bytes, sized⟩ else none
  else none

/-- The selection record's form of a set table declaration. -/
def declaredPin (pin : Pin) : Except GateError SetPin :=
  match RuleId.new (Str.encodeUtf8 pin.label), hexDigest pin.blake3 with
  | .error _, _ => .error (.notCanonical pin.label)
  | .ok _, none => .error (.notDigest pin.label)
  | .ok name, some hash => .ok ⟨name, hash⟩

def parseTable (table : Option Bytes) : List Pin :=
  (table.map fun bytes => parse (Str.fromUtf8Lossy bytes)).getD []

/-- The pin the set table declares under a name. -/
def pinNamed (pins : List Pin) (name : RuleId) : Except GateError Pin :=
  match pins.find? fun pin => Str.encodeUtf8 pin.label = name.bytes with
  | some pin => .ok pin
  | none => .error (.undeclared name)

/-- The pins the invoked entrypoint acquires; without a record, every set the table declares. -/
def selection (table : Option Bytes) (selections : Option EntrypointSets) (names : List Text)
    (entrypoint : Text) : Except GateError (List Pin) :=
  let pins := parseTable table
  match selections with
  | none => .ok pins
  | some selections => do
      let backed ← pins.mapM declaredPin
      (selections.validateAgainst names backed).mapError .mismatch
      match selections.entrypoints.find? fun entry => entry.name = entrypoint with
      | none => .error (.noSelection entrypoint)
      | some selected => selected.sets.mapM (pinNamed pins)

/-- The pins a runtime rule may be bound to where no selection record carries them. -/
def declaredPins (table : Option Bytes) : Except GateError (List SetPin) := do
  let pins ← (parseTable table).mapM declaredPin
  .ok (pins.insertionSort (· ≤ ·))

/-! ### The launch gate -/

/-- What the gate reads of a package: its entrypoints' names and its records. -/
structure Records where
  names : List Text
  sets : Option Bytes
  entrypointSets : Option Bytes
  runtimeRules : Option Bytes
  deriving DecidableEq

structure LaunchMetadata where
  rules : Option RuntimeRuleMetadata
  pins : List Pin
  deriving DecidableEq

/-- A record that declares more than the limit is refused without a read. -/
def readBoundedRecord (record : Option Bytes) : Except GateError (Option Bytes) :=
  match record with
  | none => .ok none
  | some bytes =>
      if bytes.length > maxMetadataBytes then .error (.overLimit bytes.length) else .ok (some bytes)

def readRecord {α : Type} (decode : Bytes → Except MetadataError α) (record : Option Bytes) :
    Except GateError (Option α) := do
  match ← readBoundedRecord record with
  | none => .ok none
  | some bytes => ((decode bytes).mapError .rejected).map some

def checkBindings (rules : Option RuntimeRuleMetadata) (sets : Option EntrypointSets)
    (table : Option Bytes) : Except GateError Unit :=
  match rules, sets with
  | none, _ => .ok ()
  | some rules, some sets => (rules.validateBindings sets).mapError .rejected
  | some rules, none =>
      if rules.rules.any fun rule => rule.binding.isSome then do
        let declared ← declaredPins table
        (rules.validateBindings ⟨declared, []⟩).mapError .rejected
      else .ok ()

def validate (pkg : Records) (entrypoint : Text) : Except GateError LaunchMetadata := do
  let rules ← readRecord RuntimeRuleMetadata.decode pkg.runtimeRules
  let sets ← readRecord EntrypointSets.decode pkg.entrypointSets
  let table ← readBoundedRecord pkg.sets
  checkBindings rules sets table
  let pins ← selection table sets pkg.names entrypoint
  .ok ⟨rules, pins⟩

end Onelf.Runtime.Sets
