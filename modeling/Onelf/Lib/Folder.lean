import Mathlib.Logic.Function.Basic
import Mathlib.Data.List.Basic

/-! The names of one directory and the files they lead to. -/

namespace Onelf.Lib

variable {κ α : Type} [DecidableEq κ]

/-- Files in the order they were made in, and names that lead to them. -/
structure Folder (κ α : Type) where
  files : List (List α)
  names : κ → Option Nat
  known : ∀ name, ∀ inode ∈ names name, inode < files.length

namespace Folder
variable (folder : Folder κ α)

/-- What the name leads to. -/
def read (name : κ) : Option (List α) := (folder.names name).bind fun inode => folder.files[inode]?

def bind (name : κ) (entry : Option Nat) (there : ∀ inode ∈ entry, inode < folder.files.length) :
    Folder κ α where
  files := folder.files
  names := Function.update folder.names name entry
  known other inode found := by
    by_cases same : other = name
    · subst same
      rw [Function.update_self] at found
      exact there inode found
    · rw [Function.update_of_ne same] at found
      exact folder.known other inode found

def unlink (name : κ) : Folder κ α := folder.bind name none nofun

/-- The name leads to a new file without a byte. -/
def create (name : κ) : Folder κ α where
  files := folder.files ++ [[]]
  names := Function.update folder.names name (some folder.files.length)
  known other inode found := by
    rw [List.length_append, List.length_singleton]
    by_cases same : other = name
    · subst same
      rw [Function.update_self, Option.mem_some_iff] at found
      omega
    · rw [Function.update_of_ne same] at found
      exact Nat.lt_succ_of_lt (folder.known other inode found)

def append (inode : Nat) (bytes : List α) : Folder κ α where
  files := folder.files.modify inode fun held => held ++ bytes
  names := folder.names
  known name other found := by
    rw [List.length_modify]
    exact folder.known name other found

/-- A rename to a name of the same file does nothing, as two links to one file are kept. -/
def rename (source target : κ) : Option (Folder κ α) :=
  match found : folder.names source with
  | none => none
  | some inode =>
      if folder.names target = some inode then some folder
      else some ((folder.bind target (some inode) fun other same =>
        folder.known source other (found.trans same)).unlink source)

variable {folder}

@[simp] theorem names_bind_self {name : κ} {entry : Option Nat}
    {there : ∀ inode ∈ entry, inode < folder.files.length} :
    (folder.bind name entry there).names name = entry := by simp [bind]

theorem names_bind_of_ne {name other : κ} (apart : other ≠ name) {entry : Option Nat}
    {there : ∀ inode ∈ entry, inode < folder.files.length} :
    (folder.bind name entry there).names other = folder.names other := by simp [bind, apart]

@[simp] theorem names_unlink_self {name : κ} : (folder.unlink name).names name = none :=
  names_bind_self

theorem names_unlink_of_ne {name other : κ} (apart : other ≠ name) :
    (folder.unlink name).names other = folder.names other := names_bind_of_ne apart

@[simp] theorem names_create_self {name : κ} :
    (folder.create name).names name = some folder.files.length := by simp [create]

theorem names_create_of_ne {name other : κ} (apart : other ≠ name) :
    (folder.create name).names other = folder.names other := by simp [create, apart]

theorem files_create {name : κ} {inode : Nat} (old : inode < folder.files.length) :
    (folder.create name).files[inode]? = folder.files[inode]? := List.getElem?_append_left old

theorem files_create_new {name : κ} :
    (folder.create name).files[folder.files.length]? = some [] := by
  rw [create, List.getElem?_append_right (Nat.le_refl _), Nat.sub_self]
  rfl

omit [DecidableEq κ] in
theorem files_append_self {inode : Nat} {held bytes : List α}
    (found : folder.files[inode]? = some held) :
    (folder.append inode bytes).files[inode]? = some (held ++ bytes) := by
  simp [append, found]

omit [DecidableEq κ] in
theorem files_append_of_ne {inode other : Nat} (apart : inode ≠ other) (bytes : List α) :
    (folder.append inode bytes).files[other]? = folder.files[other]? := by
  simp [append, apart]

/-- What a rename that succeeds does to the names. -/
structure Renamed (folder : Folder κ α) (source target : κ) (after : Folder κ α) : Prop where
  files : after.files = folder.files
  moved : after.names target = folder.names source
  freed : folder.names source ≠ folder.names target → after.names source = none
  others : ∀ other, other ≠ source → other ≠ target → after.names other = folder.names other

theorem rename_eq_some {source target : κ} (apart : target ≠ source) {after : Folder κ α}
    (renamed : folder.rename source target = some after) : Renamed folder source target after := by
  rw [rename] at renamed
  split at renamed
  · cases renamed
  · next inode found =>
      split at renamed
      · next same =>
          cases renamed
          refine ⟨rfl, same.trans found.symm, fun other => ?_, fun _ _ _ => rfl⟩
          exact absurd (found.trans same.symm) other
      · cases renamed
        refine ⟨rfl, ?_, fun _ => names_unlink_self, fun other first second => ?_⟩
        · rw [names_unlink_of_ne apart, names_bind_self, found]
        · rw [names_unlink_of_ne first, names_bind_of_ne second]

end Folder

end Onelf.Lib
