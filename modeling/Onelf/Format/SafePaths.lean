import Onelf.Format.EntryPaths
import Onelf.Lib.PathText

/-! Paths and link targets a package may be extracted to. -/

namespace Onelf.Format

open Onelf.Lib

inductive PathFault where
  | parentRange
  | unsafeComponent (name : Bytes)
  | parentOrder
  deriving DecidableEq

namespace Manifest

/-- The names down to an entry, each checked on the way up. -/
def validatedParts (manifest : Manifest) : Nat → Nat → Except PathFault (List Bytes)
  | 0, _ => .ok []
  | fuel + 1, index =>
      match manifest.entries[index]? with
      | none => .error .parentRange
      | some entry =>
          if manifest.getString entry.name = [] then .ok []
          else if isSafeComponent (manifest.getString entry.name) = false then
            .error (.unsafeComponent (manifest.getString entry.name))
          else if entry.parent = u32Max then .ok [manifest.getString entry.name]
          else if entry.parent ≥ index then .error .parentOrder
          else
            match manifest.validatedParts fuel entry.parent with
            | .error fault => .error fault
            | .ok above => .ok (above ++ [manifest.getString entry.name])

def validatedEntryPath (manifest : Manifest) (index : Nat) : Except PathFault (List Bytes) :=
  manifest.validatedParts (manifest.entries.length + 1) index

variable {manifest : Manifest}

theorem validatedParts_enough {fuel more index : Nat} (enough : index < fuel)
    (also : index < more) :
    manifest.validatedParts fuel index = manifest.validatedParts more index := by
  induction fuel generalizing more index with
  | zero => exact absurd enough (Nat.not_lt_zero index)
  | succ fuel ih =>
      cases more with
      | zero => exact absurd also (Nat.not_lt_zero index)
      | succ more =>
          rw [validatedParts, validatedParts]
          cases manifest.entries[index]? with
          | none => rfl
          | some entry =>
              dsimp only
              split
              · rfl
              · split
                · rfl
                · split
                  · rfl
                  · split
                    · rfl
                    · next below =>
                        rw [ih (by omega : entry.parent < fuel) (by omega : entry.parent < more)]

/-- What lies above an entry's path is the path of a directory entry. -/
theorem dir_above (valid : manifest.Valid) {fuel index : Nat} {rel above rest : List Bytes}
    {name : Bytes} (within : index < fuel) (walked : manifest.validatedParts fuel index = .ok rel)
    (split_eq : rel = above ++ name :: rest) (below : above ≠ []) :
    ∃ place parent, manifest.entries[place]? = some parent ∧ parent.kind = .dir ∧
      manifest.validatedEntryPath place = .ok above := by
  induction fuel generalizing index rel rest name with
  | zero => exact absurd within (Nat.not_lt_zero index)
  | succ fuel ih =>
      rw [validatedParts] at walked
      cases found : manifest.entries[index]? with
      | none =>
          rw [found] at walked
          cases walked
      | some entry =>
          rw [found] at walked
          dsimp only at walked
          split at walked
          · cases walked
            simp at split_eq
          · split at walked
            · cases walked
            · split at walked
              · cases walked
                rcases List.singleton_eq_append_iff.mp split_eq with ⟨none, _⟩ | ⟨_, many⟩
                · exact absurd none below
                · cases many
              · next inside =>
                  split at walked
                  · cases walked
                  · next earlier =>
                      split at walked
                      · cases walked
                      · next up climbed =>
                          cases walked
                          cases rest using List.reverseRecOn with
                          | nil =>
                              have same := List.append_inj_left' split_eq rfl
                              obtain ⟨_, parent, held, dir⟩ :=
                                ((valid.entries index entry found).1).resolve_left inside
                              refine ⟨entry.parent, parent, held, dir, ?_⟩
                              have bound := (List.getElem?_eq_some_iff.mp held).1
                              rw [validatedEntryPath, ← same, ← climbed]
                              exact validatedParts_enough (by omega) (by omega)
                          | append_singleton rest last =>
                              rw [← List.cons_append, ← List.append_assoc] at split_eq
                              have same := List.append_inj_left' split_eq rfl
                              exact ih (by omega) climbed same

/-- What lies above the path of an entry is the path of a directory entry. -/
theorem dir_above_entry (valid : manifest.Valid) {index : Nat} {rel above rest : List Bytes}
    {name : Bytes} (validated : manifest.validatedEntryPath index = .ok rel)
    (split_eq : rel = above ++ name :: rest) (below : above ≠ []) :
    ∃ place parent, manifest.entries[place]? = some parent ∧ parent.kind = .dir ∧
      manifest.validatedEntryPath place = .ok above := by
  by_cases inside : index < manifest.entries.length + 1
  · exact dir_above valid inside validated split_eq below
  · have beyond : manifest.entries[index]? = none := List.getElem?_eq_none_iff.mpr (by omega)
    rw [validatedEntryPath, validatedParts, beyond] at validated
    cases validated

end Manifest

/-! ### Link targets -/

/-- The stack a lexical walk leaves; it fails above where it began and at a root. -/
def lexicalWalk : List Bytes → List Component → Option (List Bytes)
  | stack, [] => some stack
  | stack, .normal name :: rest => lexicalWalk (stack ++ [name]) rest
  | stack, .parent :: rest => if stack = [] then none else lexicalWalk stack.dropLast rest
  | stack, .current :: rest => lexicalWalk stack rest
  | _, .root :: _ => none

/-- A lexical check that a link at `linkRel` with this target still leads inside the root. -/
def symlinkTargetWithinRoot (linkRel : List Bytes) (target : Bytes) : Bool :=
  if target = [] then false
  else if target.head? = some 47 then false
  else
    match lexicalWalk [] (linkRel.dropLast.map .normal) with
    | none => false
    | some stack => (lexicalWalk stack (components target)).isSome

theorem symlinkTargetWithinRoot_relative {linkRel : List Bytes} {target : Bytes}
    (within : symlinkTargetWithinRoot linkRel target = true) :
    (Target.ofText target).absolute = false := by
  rw [symlinkTargetWithinRoot] at within
  split at within
  · cases within
  · split at within
    · cases within
    · next relative =>
        rw [Target.ofText]
        exact decide_eq_false relative

end Onelf.Format
