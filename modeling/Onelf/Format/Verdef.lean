import Mathlib.Data.Finset.Insert
import Onelf.Lib.Bytes
import Onelf.Lib.Checks
import Onelf.Lib.PartitionPoint
import Onelf.Lib.SortedMap
import Onelf.Lib.Utf8

/-! GNU version definitions and requirements (`onelf-format/src/verdef.rs`). -/

namespace Onelf.Format.Versions

open Onelf.Lib

def maxName : Nat := 4096
def maxRecords : Nat := 4096

inductive ChainError where
  | outside
  | cycles
  | format
  | auxCount
  | auxChain
  | overlap
  | tooMany
  | notNeeded
  | emptyName
  | nameOutside
  | nameUnterminated
  | nameNotUtf8
  deriving DecidableEq

def u16At (bytes : Bytes) (start : Nat) : Nat := ofLeBytes (slice bytes start 2)
def u32At (bytes : Bytes) (start : Nat) : Nat := ofLeBytes (slice bytes start 4)

/-! ### Records -/

/-- A range that overflows a `usize` lies outside the section as well. -/
def record (bytes : Bytes) (pos len : Nat) : Except ChainError Bytes :=
  if pos + len ≤ bytes.length then .ok (slice bytes pos len) else .error .outside

def advance (pos delta minimum : Nat) : Except ChainError Nat :=
  if delta < minimum then .error .cycles else .ok (pos + delta)

def checkAuxPlacement (headers : List Nat) (headerLen : Nat) (auxes : List Nat) (auxLen : Nat) :
    Except ChainError Unit :=
  auxes.forM fun aux =>
    refuseIf ((headers[partitionPoint (fun header => header + headerLen ≤ aux) headers]?).any
      (· < aux + auxLen) = true) .overlap

/-- `rest.iter().take(MAX_NAME + 1).position(|&b| b == 0)`. -/
def terminatorAt (rest : Bytes) : Option Nat := (rest.take (maxName + 1)).findIdx? (· == 0)

def stringAt (strings : Bytes) (start : Nat) : Except ChainError Bytes :=
  if strings.length < start then .error .nameOutside
  else
    match terminatorAt (strings.drop start) with
    | none => .error .nameUnterminated
    | some stop =>
        if validUtf8 ((strings.drop start).take stop) then .ok ((strings.drop start).take stop)
        else .error .nameNotUtf8

/-! ### A chain -/

/-- What the two sections do differently: the lengths of their records, where the links lie in them,
what they check of a header and of an auxiliary entry and what they collect. -/
structure ChainForm (η α σ : Type) where
  headerLen : Nat
  auxLen : Nat
  countField : Nat
  auxField : Nat
  nextField : Nat
  auxNextField : Nat
  headerFields : Bytes → η
  auxFields : Bytes → α
  enter : η → σ → Except ChainError σ
  collect : η → Nat → α → σ → Except ChainError σ

section
variable {η α σ : Type} (form : ChainForm η α σ) (bytes : Bytes)

/-- The auxiliary entries of one header from the `i`th, `left` of them. -/
def auxLoop (header : η) : Nat → Nat → Nat → List Nat → σ → Except ChainError (List Nat × σ)
  | 0, _, _, auxes, out => .ok (auxes, out)
  | left + 1, i, auxAt, auxes, out => do
      let aux ← record bytes auxAt form.auxLen
      let out ← form.collect header i (form.auxFields aux) out
      if left = 0 then
        refuseIf (u32At aux form.auxNextField ≠ 0) .auxChain
        .ok (auxes ++ [auxAt], out)
      else
        let next ← advance auxAt (u32At aux form.auxNextField) form.auxLen
        auxLoop header left (i + 1) next (auxes ++ [auxAt]) out

/-- The headers from `pos`; `count` of them and `totalAux` auxiliary entries came before. -/
def headerLoop : Nat → Nat → Nat → Nat → List Nat → List Nat → σ → Except ChainError (σ × Nat)
  | 0, _, _, _, _, _, _ => .error .tooMany
  | fuel + 1, count, pos, totalAux, headers, auxes, out => do
      let entry ← record bytes pos form.headerLen
      let out ← form.enter (form.headerFields entry) out
      refuseIf (u16At entry form.countField = 0 ∨
        totalAux + u16At entry form.countField > maxRecords) .auxCount
      let auxAt ← advance pos (u32At entry form.auxField) form.headerLen
      let read ← auxLoop form bytes (form.headerFields entry) (u16At entry form.countField) 0 auxAt
        auxes out
      if u32At entry form.nextField = 0 then
        checkAuxPlacement (headers ++ [pos]) form.headerLen read.1 form.auxLen
        .ok (read.2, count + 1)
      else
        let next ← advance pos (u32At entry form.nextField) form.headerLen
        headerLoop fuel (count + 1) next (totalAux + u16At entry form.countField)
          (headers ++ [pos]) read.1 read.2

def parseChain (start : σ) : Except ChainError (σ × Nat) :=
  if bytes = [] then .ok (start, 0) else headerLoop form bytes maxRecords 0 0 0 [] [] start

end

/-! ### Version definitions -/

abbrev VersionSet := Finset Bytes

def verFlgBase : Nat := 1
def verdefEntry : Nat := 20
def verdauxEntry : Nat := 8

/-- The format and the flags of a definition. -/
structure DefinitionFields where
  version : Nat
  flags : Nat
  deriving DecidableEq

def verdefForm (strings : Bytes) : ChainForm DefinitionFields Nat VersionSet where
  headerLen := verdefEntry
  auxLen := verdauxEntry
  countField := 6
  auxField := 12
  nextField := 16
  auxNextField := 4
  headerFields := fun entry => ⟨u16At entry 0, u16At entry 2⟩
  auxFields := fun aux => u32At aux 0
  enter := fun header out => do
    refuseIf (header.version ≠ 1) .format
    .ok out
  collect := fun header i nameAt out => do
    let name ← stringAt strings nameAt
    .ok (if i = 0 ∧ header.flags &&& verFlgBase = 0 then insert name out else out)

/-- `parse_verdef`. -/
def parseVerdef (defs strings : Bytes) : Except ChainError VersionSet :=
  (parseChain (verdefForm strings) defs ∅).map Prod.fst

/-! ### Version requirements -/

structure RequiredVersion where
  name : Bytes
  flags : Nat
  deriving DecidableEq

/-- The format of a requirement and where the name of its dependency is. -/
structure RequirementFields where
  version : Nat
  file : Nat
  deriving DecidableEq

structure RequiredFields where
  flags : Nat
  name : Nat
  deriving DecidableEq

abbrev Requirements := SortedMap Bytes (List RequiredVersion)

/-- The requirements collected, and the dependency that the entries being read are for. -/
abbrev Collecting := Requirements × Bytes

def verneedForm (strings : Bytes) (needed : List Bytes) :
    ChainForm RequirementFields RequiredFields Collecting where
  headerLen := 16
  auxLen := 16
  countField := 2
  auxField := 8
  nextField := 12
  auxNextField := 12
  headerFields := fun entry => ⟨u16At entry 0, u32At entry 4⟩
  auxFields := fun aux => ⟨u16At aux 4, u32At aux 8⟩
  enter := fun header out => do
    refuseIf (header.version ≠ 1) .format
    let name ← stringAt strings header.file
    refuseIf (¬ needed.contains name) .notNeeded
    .ok (out.1.orInsert name [], name)
  collect := fun _ _ aux out => do
    let name ← stringAt strings aux.name
    refuseIf (name = []) .emptyName
    .ok (out.1.insert out.2 ((out.1.get? out.2).getD [] ++ [⟨name, aux.flags⟩]), out.2)

/-- `parse_verneed`. -/
def parseVerneed (bytes strings : Bytes) (needed : List Bytes) :
    Except ChainError (Requirements × Nat) :=
  (parseChain (verneedForm strings needed) bytes (SortedMap.empty, [])).map fun (out, count) =>
    (out.1, count)

end Onelf.Format.Versions
