import Onelf.Lib.Text

/-! Paths as the components their text has. -/

namespace Onelf.Lib

inductive Component where
  | root
  | current
  | parent
  | normal (name : Bytes)
  deriving DecidableEq

/-- The name of a normal component. -/
def Component.name? : Component → Option Bytes
  | .normal name => some name
  | _ => none

/-- What one part between slashes stands for; an empty one and a dot stand for nothing. -/
def componentOf (part : Bytes) : Option Component :=
  if part = [] ∨ part = [46] then none
  else if part = [46, 46] then some .parent
  else some (.normal part)

/-- `Path::components`: a dot counts only where the path begins with it. -/
def components (path : Bytes) : List Component :=
  (if path.head? = some 47 then [.root]
    else if (path.splitOn 47).head? = some [46] then [.current] else []) ++
      (path.splitOn 47).filterMap componentOf

/-- `Path::file_name`. -/
def fileName (path : Bytes) : Option Bytes :=
  match (components path).getLast? with
  | some (.normal name) => some name
  | _ => none

def joinPath (names : List Bytes) : Bytes := [47].intercalate names

/-- A single safe path component. -/
def isSafeComponent (name : Bytes) : Bool :=
  !name.isEmpty && name ≠ [46] && name ≠ [46, 46] && !name.contains 47 && !name.contains 0

theorem isSafeComponent_iff {name : Bytes} : isSafeComponent name = true ↔
    name ≠ [] ∧ name ≠ [46] ∧ name ≠ [46, 46] ∧ 47 ∉ name ∧ 0 ∉ name := by
  simp only [isSafeComponent, Bool.and_eq_true, Bool.not_eq_true', List.isEmpty_eq_false_iff,
    decide_eq_true_eq, List.contains_eq_mem, decide_eq_false_iff_not, and_assoc]

theorem componentOf_safe {name : Bytes} (safe : isSafeComponent name = true) :
    componentOf name = some (.normal name) := by
  have parts := isSafeComponent_iff.mp safe
  rw [componentOf, if_neg (not_or.mpr ⟨parts.1, parts.2.1⟩), if_neg parts.2.2.1]

theorem filterMap_componentOf {names : List Bytes}
    (safe : ∀ name ∈ names, isSafeComponent name = true) :
    names.filterMap componentOf = names.map .normal := by
  induction names with
  | nil => rfl
  | cons name names ih =>
      rcases List.forall_mem_cons.mp safe with ⟨here, others⟩
      rw [List.filterMap_cons_some (componentOf_safe here), List.map_cons, ih others]

/-- Safe names joined into a path are its components. -/
theorem components_joinPath {names : List Bytes}
    (safe : ∀ name ∈ names, isSafeComponent name = true) :
    components (joinPath names) = names.map .normal := by
  cases names with
  | nil => rfl
  | cons first names =>
      have whole : (joinPath (first :: names)).splitOn 47 = first :: names :=
        List.splitOn_intercalate 47 (fun name member => (isSafeComponent_iff.mp
          (safe name member)).2.2.2.1) (List.cons_ne_nil first names)
      have parts := isSafeComponent_iff.mp (safe first List.mem_cons_self)
      have relative : (joinPath (first :: names)).head? ≠ some 47 := by
        have begins : (joinPath (first :: names)).head? = first.head? := by
          cases names with
          | nil => rw [joinPath, List.intercalate_singleton]
          | cons second names =>
              rw [joinPath, List.intercalate_cons_cons, List.append_assoc,
                List.head?_append_of_ne_nil _ parts.1]
        rw [begins]
        exact fun slash => parts.2.2.2.1 (List.mem_of_head? slash)
      have named : ((first :: names : List Bytes).head? = some [46]) = False := by
        simp [parts.2.1]
      rw [components, whole, if_neg relative, if_neg (by rw [named]; exact not_false),
        filterMap_componentOf safe, List.nil_append]

/-- Paths of proper names are told apart by their text. -/
theorem joinPath_injective {path other : List Bytes}
    (safe : ∀ name ∈ path, isSafeComponent name = true)
    (also : ∀ name ∈ other, isSafeComponent name = true) (same : joinPath path = joinPath other) :
    path = other := by
  have names := congrArg components same
  rw [components_joinPath safe, components_joinPath also] at names
  exact List.map_injective_iff.mpr (fun _ _ => Component.normal.inj) names

theorem not_mem_joinPath {byte : UInt8} (other : byte ≠ 47) {names : List Bytes}
    (without : ∀ name ∈ names, byte ∉ name) : byte ∉ joinPath names := by
  induction names with
  | nil => exact List.not_mem_nil
  | cons name names ih =>
      obtain ⟨here, rest⟩ := List.forall_mem_cons.mp without
      cases names with
      | nil =>
          rw [joinPath, List.intercalate_singleton]
          exact here
      | cons next names =>
          rw [joinPath, List.intercalate_cons_cons, List.mem_append, List.mem_append, not_or, not_or,
            List.mem_singleton]
          exact ⟨⟨here, other⟩, ih rest⟩

end Onelf.Lib
