import Onelf.Lib.Checks
import Onelf.Lib.Codec
import Onelf.Runtime.HostEnv

/-! The per-view environment input a launch writes (`encode_view_env` of `onelf-rt/src/env.rs`). -/

namespace Onelf.Runtime

open Onelf.Lib Onelf.Lib.Codec

def maxViewEnvBytes : Nat := 1024 * 1024
def maxViewEnvEntries : Nat := 4096
def maxViewEnvName : Nat := 128
def maxViewEnvValue : Nat := 32 * 1024

def viewEnvHeader : Bytes := utf8 "ONELF-RUNTIME-ENV 1 "
def rootsVar : Bytes := utf8 "ONELF_ROOTS"

/-- What happens to a value the caller already set. -/
inductive Inheritance where
  | preserve
  | replace
  deriving DecidableEq

/-- One evaluated mapping: a single value for every alias. -/
structure PathAssignment where
  vars : List Bytes
  value : Bytes
  inheritance : Inheritance

structure ViewEnvEntry where
  name : Bytes
  value : Bytes
  policy : Inheritance
  leftSet : Bool
  deriving DecidableEq

inductive ViewEnvError where
  | tooLarge
  deriving DecidableEq

/-- Whether the constructor reads an entry of `name` and `value` back. -/
def fitsViewEnv (name value : Bytes) : Bool :=
  !name.isEmpty && name.length ≤ maxViewEnvName && !name.contains 0 && !name.contains 61 &&
    value.length ≤ maxViewEnvValue && !value.contains 0

/-- Every alias with its mapping, in order. -/
def aliases (assignments : List PathAssignment) : List (Bytes × PathAssignment) :=
  assignments.flatMap fun assignment => assignment.vars.map fun name => (name, assignment)

/-- The entry of an alias, where the constructor reads it back. -/
def mappedEntry (now : SortedMap Bytes Bytes) (mapping : Bytes × PathAssignment) :
    Option ViewEnvEntry :=
  if fitsViewEnv mapping.1 mapping.2.value then
    some ⟨mapping.1, mapping.2.value, mapping.2.inheritance, (now.get? mapping.1).isSome⟩
  else none

/-- The entry of another variable, where the launch changed it. -/
def changedEntry (base : SortedMap Bytes Bytes) (mapped : List Bytes) (setting : Bytes × Bytes) :
    Option ViewEnvEntry :=
  if base.get? setting.1 = some setting.2 || setting.1 = hostEnvVar ||
      setting.1 = rootsVar || mapped.contains setting.1 then none
  else if fitsViewEnv setting.1 setting.2 then
    some ⟨setting.1, setting.2, .replace, true⟩
  else none

def viewEnvEntries (base now : SortedMap Bytes Bytes) (assignments : List PathAssignment) :
    List ViewEnvEntry :=
  (unseen Prod.fst [] (aliases assignments)).filterMap (mappedEntry now) ++
    now.entries.filterMap (changedEntry base ((aliases assignments).map Prod.fst))

/-- `put`: append while the whole input stays within the constructor's bound. -/
def put (bytes : Bytes) : WriteM ViewEnvError maxViewEnvBytes Unit := append .tooLarge bytes

def policyMark : Inheritance → Bytes
  | .preserve => utf8 "."
  | .replace => utf8 "!"

def putEntry (entry : ViewEnvEntry) : WriteM ViewEnvError maxViewEnvBytes Unit := do
  put entry.name
  put (utf8 "=")
  put (policyMark entry.policy)
  put (decimal entry.value.length)
  put (utf8 ":")
  put entry.value
  put (if entry.leftSet then utf8 "+" else utf8 "-")
  put (utf8 ";\n")

/-- Whether the constructor reads a scalar back. -/
def fitsScalar (bytes : Bytes) : Bool := bytes.length ≤ maxViewEnvValue && !bytes.contains 0

def putScalar (tag : UInt8) : Option Bytes → WriteM ViewEnvError maxViewEnvBytes Unit
  | none => pure ()
  | some bytes =>
      if fitsScalar bytes then do
        put [tag]
        put (decimal bytes.length)
        put (utf8 ":")
        put bytes
        put (utf8 ";\n")
      else pure ()

def putRecord (entries : List ViewEnvEntry) (roots hostRecord : Option Bytes) :
    WriteM ViewEnvError maxViewEnvBytes Unit := do
  put viewEnvHeader
  put (decimal entries.length)
  put (utf8 "\n")
  entries.forM putEntry
  putScalar 82 roots
  putScalar 72 hostRecord

def encodeViewEnv (base now : SortedMap Bytes Bytes) (assignments : List PathAssignment) :
    Except ViewEnvError Bytes :=
  if (viewEnvEntries base now assignments).length > maxViewEnvEntries then .error .tooLarge
  else
    (putRecord (viewEnvEntries base now assignments) (now.get? rootsVar) (now.get? hostEnvVar)
      ⟨[], Nat.zero_le _⟩).map fun written => written.2.bytes

/-! ### The bytes written -/

def entryBytes (entry : ViewEnvEntry) : Bytes :=
  entry.name ++ (utf8 "=" ++ (policyMark entry.policy ++ (decimal entry.value.length ++
    (utf8 ":" ++ (entry.value ++ ((if entry.leftSet then utf8 "+" else utf8 "-") ++
      utf8 ";\n"))))))

def scalarBytes (tag : UInt8) : Option Bytes → Bytes
  | none => []
  | some bytes => [tag] ++ (decimal bytes.length ++ (utf8 ":" ++ (bytes ++ utf8 ";\n")))

def recordBytes (entries : List ViewEnvEntry) (roots hostRecord : Option Bytes) : Bytes :=
  viewEnvHeader ++ (decimal entries.length ++ (utf8 "\n" ++ (entries.flatMap entryBytes ++
    (scalarBytes 82 (roots.filter fitsScalar) ++ scalarBytes 72 (hostRecord.filter fitsScalar)))))

theorem put_writes (bytes : Bytes) : Writes (put bytes) bytes := append_writes _ bytes

theorem putEntry_writes (entry : ViewEnvEntry) : Writes (putEntry entry) (entryBytes entry) :=
  (put_writes _).andThen <| (put_writes _).andThen <| (put_writes _).andThen <|
    (put_writes _).andThen <| (put_writes _).andThen <| (put_writes _).andThen <|
      (put_writes _).andThen <| put_writes _

theorem putScalar_writes (tag : UInt8) (scalar : Option Bytes) :
    Writes (putScalar tag scalar) (scalarBytes tag (scalar.filter fitsScalar)) := by
  cases scalar with
  | none => exact Writes.nothing
  | some bytes =>
      rw [putScalar, Option.filter_some]
      split
      · exact (put_writes _).andThen <| (put_writes _).andThen <| (put_writes _).andThen <|
          (put_writes _).andThen <| put_writes _
      · exact Writes.nothing

theorem putRecord_writes (entries : List ViewEnvEntry) (roots hostRecord : Option Bytes) :
    Writes (putRecord entries roots hostRecord) (recordBytes entries roots hostRecord) :=
  (put_writes _).andThen <| (put_writes _).andThen <| (put_writes _).andThen <|
    (Writes.forEach fun entry _ => putEntry_writes entry).andThen <|
      (putScalar_writes _ _).andThen <| putScalar_writes _ _

/-- What is written is the whole record, within both bounds. -/
theorem encodeViewEnv_eq_ok {base now : SortedMap Bytes Bytes}
    {assignments : List PathAssignment} {bytes : Bytes}
    (encoded : encodeViewEnv base now assignments = .ok bytes) :
    bytes = recordBytes (viewEnvEntries base now assignments) (now.get? rootsVar)
        (now.get? hostEnvVar) ∧
      (viewEnvEntries base now assignments).length ≤ maxViewEnvEntries ∧
      bytes.length ≤ maxViewEnvBytes := by
  rw [encodeViewEnv] at encoded
  split at encoded
  · cases encoded
  · next few =>
      cases written : putRecord (viewEnvEntries base now assignments) (now.get? rootsVar)
          (now.get? hostEnvVar) ⟨[], Nat.zero_le _⟩ with
      | error reason =>
          rw [written] at encoded
          cases encoded
      | ok result =>
          rcases result with ⟨nothing, output⟩
          rw [written] at encoded
          have same : output.bytes = bytes := Except.ok.inj encoded
          have whole := (putRecord_writes _ _ _ _ _).mp written
          rw [List.nil_append] at whole
          rw [← same]
          exact ⟨whole, Nat.not_lt.mp few, output.bounded⟩

theorem viewEnvEntries_fit {base now : SortedMap Bytes Bytes} {assignments : List PathAssignment}
    {entry : ViewEnvEntry} (listed : entry ∈ viewEnvEntries base now assignments) :
    fitsViewEnv entry.name entry.value = true := by
  rcases List.mem_append.mp listed with mapped | changed
  · rcases List.mem_filterMap.mp mapped with ⟨mapping, _, made⟩
    rw [mappedEntry] at made
    split at made
    · next fits =>
        rw [← Option.some.inj made]
        exact fits
    · cases made
  · rcases List.mem_filterMap.mp changed with ⟨changed, _, made⟩
    rw [changedEntry] at made
    split at made
    · cases made
    · split at made
      · next fits =>
          rw [← Option.some.inj made]
          exact fits
      · cases made

end Onelf.Runtime
