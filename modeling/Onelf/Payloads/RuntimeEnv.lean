import Onelf.Lib.Text

/-! The launch's evaluated environment input, read back bounded (`onelf-payloads/src/rtenv.rs`). -/

namespace Onelf.Payloads

open Onelf.Lib

def maxRecordBytes : Nat := 1024 * 1024
def maxEntries : Nat := 4096
def maxNameBytes : Nat := 128
def maxValueBytes : Nat := 32 * 1024

def runtimeEnvHeader : Bytes := utf8 "ONELF-RUNTIME-ENV 1 "

/-- Why a record was rejected. -/
inductive Reject where
  | header
  | entryCount
  | truncated
  | length
  | valueCap
  | name
  | value
  | policy
  | applied
  | trailing
  deriving DecidableEq

/-- What a mapping does to a value the launch found already set. -/
inductive Policy where
  | preserve
  | replace
  deriving DecidableEq

structure ViewEntry where
  name : Bytes
  value : Bytes
  policy : Policy
  leftSet : Bool
  deriving DecidableEq

/-! ### The cursor -/

/-- A read from what is left of the record; what it consumed stays consumed when it fails. -/
abbrev Cursor := ExceptT Reject (StateM Bytes)

namespace Cursor

def fail {α : Type} (reason : Reject) : Cursor α := fun rest => (.error reason, rest)

/-- `take`. -/
def expect (want : UInt8) : Cursor Unit
  | [] => (.error .truncated, [])
  | byte :: rest => (if byte = want then .ok () else .error .truncated, rest)

/-- The digits of a number, and how many there were. -/
def digitsFrom (cap : Nat) (above : Reject) (n digits : Nat) : Cursor (Nat × Nat)
  | [] => (.ok (n, digits), [])
  | byte :: rest =>
      if isDigit byte then
        if pushDigit n byte > cap then (.error above, byte :: rest)
        else digitsFrom cap above (pushDigit n byte) (digits + 1) rest
      else (.ok (n, digits), byte :: rest)

/-- A decimal number of at most `cap`: `missing` when no digit follows, `above` when the digits do
not fit the cap. -/
def number (cap : Nat) (missing above : Reject) : Cursor Nat := do
  let read ← digitsFrom cap above 0 0
  if read.2 = 0 then fail missing else pure read.1

/-- The bytes up to the next `=`, which stays unconsumed. -/
def nameFrom (start : Bytes) : Cursor Bytes
  | [] => (.error .truncated, [])
  | byte :: rest =>
      if byte = 61 then (.ok start, byte :: rest)
      else if byte = 0 then (.error .name, byte :: rest)
      else nameFrom (start ++ [byte]) rest

def name : Cursor Bytes := do
  let bytes ← nameFrom []
  if bytes.isEmpty || bytes.length > maxNameBytes then fail .name else pure bytes

/-- The raw bytes of a declared length. -/
def raw (len : Nat) : Cursor Bytes := fun rest =>
  if len > rest.length then (.error .length, rest)
  else if (rest.take len).contains 0 then (.error .value, rest)
  else (.ok (rest.take len), rest.drop len)

/-- A declared-length value: number, `:`, that many raw bytes. -/
def value : Cursor Bytes := do
  let len ← number maxValueBytes .truncated .valueCap
  expect 58
  raw len

def policy : Cursor Policy
  | [] => (.error .policy, [])
  | byte :: rest =>
      (if byte = 46 then .ok .preserve else if byte = 33 then .ok .replace else .error .policy, rest)

/-- The applied marker. -/
def applied : Cursor Bool
  | [] => (.error .applied, [])
  | byte :: rest =>
      (if byte = 43 then .ok true else if byte = 45 then .ok false else .error .applied, rest)

/-- The line end behind a record, which may be missing. -/
def lineEnd : Cursor Unit
  | 10 :: rest => (.ok (), rest)
  | rest => (.ok (), rest)

/-- Over the `=` a name stopped at. -/
def skip : Cursor Unit := fun rest => (.ok (), rest.drop 1)

/-- One entry: name, policy, value, applied marker, terminator. -/
def entry : Cursor ViewEntry := do
  let name ← name
  skip
  let policy ← policy
  let value ← value
  let leftSet ← applied
  expect 59
  lineEnd
  pure ⟨name, value, policy, leftSet⟩

/-- The rest of a scalar record behind its tag. -/
def scalarBody : Cursor (Option Bytes) := do
  skip
  let bytes ← value
  expect 59
  lineEnd
  pure (some bytes)

/-- The `R` or `H` scalar record, or `none` when the next byte does not name that one. -/
def scalar (tag : UInt8) : Cursor (Option Bytes) := fun rest =>
  if rest.head? = some tag then scalarBody rest else (.ok none, rest)

/-- The entries of a record, each of which has to be read. -/
def repeatEntry : Nat → Cursor Unit
  | 0 => pure ()
  | count + 1 => do
      let _ ← entry
      repeatEntry count

end Cursor

/-- A record that validated completely; `entriesText` is the record from its first entry on. -/
structure Decoded where
  entriesText : Bytes
  entryCount : Nat
  roots : Option Bytes
  hostRecord : Option Bytes

/-- What follows the header. -/
def parseBody : Cursor Decoded := do
  let entryCount ← Cursor.number maxEntries .entryCount .entryCount
  Cursor.expect 10
  let entriesText ← get
  Cursor.repeatEntry entryCount
  let roots ← Cursor.scalar 82
  let hostRecord ← Cursor.scalar 72
  if (← get) ≠ [] then Cursor.fail .trailing
  else pure ⟨entriesText, entryCount, roots, hostRecord⟩

/-- Validate a whole record. Anything malformed rejects it. -/
def Decoded.parse (buf : Bytes) : Except Reject Decoded :=
  match stripPrefix runtimeEnvHeader buf with
  | some rest => (parseBody rest).1
  | none => .error .header

/-- What `count` reads of an entry give, leaving out those that fail. -/
def entriesFrom : Nat → Bytes → List ViewEntry
  | 0, _ => []
  | count + 1, rest =>
      match Cursor.entry rest with
      | (.ok entry, rest) => entry :: entriesFrom count rest
      | (.error _, rest) => entriesFrom count rest

/-- The entries, in record order. -/
def Decoded.entries (decoded : Decoded) : List ViewEntry :=
  entriesFrom decoded.entryCount decoded.entriesText

/-! ### Applying a record -/

/-- What `getenv` finds. -/
abbrev Env := Bytes → Option Bytes

def setenv (env : Env) (name value : Bytes) : Env := fun other =>
  if other = name then some value else env other

def applyEntry (env : Env) (entry : ViewEntry) : Env :=
  if (env entry.name).isSome then env
  else if entry.policy = .preserve && !entry.leftSet then env
  else setenv env entry.name entry.value

/-- Put a scalar record back into its variable when that went missing. -/
def restore (env : Env) (name : Bytes) : Option Bytes → Env
  | none => env
  | some value =>
      if (env name).isSome || value.length > maxValueBytes then env else setenv env name value

/-- Validate a record, then apply it to what is missing. -/
def apply (buf : Bytes) (env : Env) : Except Reject Env := do
  let decoded ← Decoded.parse buf
  let restored := decoded.entries.foldl applyEntry env
  pure (restore (restore restored (utf8 "ONELF_ROOTS") decoded.roots) (utf8 "ONELF_HOST_ENV")
    decoded.hostRecord)

end Onelf.Payloads
