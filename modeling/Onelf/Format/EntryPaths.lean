import Onelf.Format.Manifest

/-! The paths of a manifest whose parents come first. -/

namespace Onelf.Format

open Onelf.Lib

namespace Manifest

/-- A parent stands before its children. -/
def Ordered (manifest : Manifest) : Prop :=
  ∀ (index : Nat) (entry : Entry), manifest.entries[index]? = some entry →
    entry.parent = u32Max ∨ entry.parent < index

/-- The names from the root down to an entry. -/
def parts (manifest : Manifest) (index : Nat) : List Bytes :=
  manifest.entryParts (manifest.entries.length + 1) index

theorem entryPath_eq (manifest : Manifest) (index : Nat) :
    manifest.entryPath index = Lib.joinPath (manifest.parts index) := rfl

variable {manifest : Manifest}

/-- The walk up ends before its bound. -/
theorem entryParts_enough (ordered : manifest.Ordered) {fuel more index : Nat}
    (enough : index < fuel) (also : index < more) :
    manifest.entryParts fuel index = manifest.entryParts more index := by
  induction fuel generalizing more index with
  | zero => exact absurd enough (Nat.not_lt_zero index)
  | succ fuel ih =>
      cases more with
      | zero => exact absurd also (Nat.not_lt_zero index)
      | succ more =>
          rw [entryParts, entryParts]
          cases found : manifest.entries[index]? with
          | none => rfl
          | some entry =>
              dsimp only
              split
              · rfl
              · split
                · rfl
                · next below =>
                    have earlier := (ordered index entry found).resolve_left below
                    rw [ih (by omega : entry.parent < fuel) (by omega : entry.parent < more)]

theorem parts_of_unnamed {index : Nat} {entry : Entry}
    (found : manifest.entries[index]? = some entry) (unnamed : manifest.getString entry.name = []) :
    manifest.parts index = [] := by
  rw [parts, entryParts, found]
  dsimp only
  rw [if_pos unnamed]

/-- An entry's names are its parent's and its own. -/
theorem parts_child (ordered : manifest.Ordered) {index : Nat} {entry : Entry}
    (found : manifest.entries[index]? = some entry) (named : manifest.getString entry.name ≠ [])
    (below : entry.parent ≠ u32Max) :
    manifest.parts index = manifest.parts entry.parent ++ [manifest.getString entry.name] := by
  have earlier := (ordered index entry found).resolve_left below
  have inside : index < manifest.entries.length := (List.getElem?_eq_some_iff.mp found).1
  rw [parts, entryParts, found]
  dsimp only
  rw [if_neg named, if_neg below, parts,
    entryParts_enough ordered (by omega : entry.parent < manifest.entries.length)
      (by omega : entry.parent < manifest.entries.length + 1)]

/-- Every name of a path is an entry's own. -/
theorem mem_entryParts {fuel index : Nat} {name : Bytes}
    (member : name ∈ manifest.entryParts fuel index) :
    name ≠ [] ∧ ∃ (place : Nat) (entry : Entry), manifest.entries[place]? = some entry ∧
      manifest.getString entry.name = name := by
  induction fuel generalizing index with
  | zero => exact absurd member List.not_mem_nil
  | succ fuel ih =>
      rw [entryParts] at member
      cases found : manifest.entries[index]? with
      | none =>
          rw [found] at member
          exact absurd member List.not_mem_nil
      | some entry =>
          rw [found] at member
          dsimp only at member
          split at member
          · exact absurd member List.not_mem_nil
          · next named =>
              have own (same : name = manifest.getString entry.name) :
                  name ≠ [] ∧ ∃ (place : Nat) (entry : Entry), manifest.entries[place]? = some entry ∧
                    manifest.getString entry.name = name :=
                ⟨same ▸ named, index, entry, found, same.symm⟩
              split at member
              · exact own (List.mem_singleton.mp member)
              · rcases List.mem_append.mp member with above | last
                · exact ih above
                · exact own (List.mem_singleton.mp last)

end Manifest

end Onelf.Format
