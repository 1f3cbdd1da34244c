import Onelf.Lib.Effects
import Onelf.Lib.PathText

/-! File operations below one directory, as the kernel carries them out: where each one lands, and
how many links it went through. -/

namespace Onelf.Lib

/-- The links a kernel follows on one path. -/
def kernelLinks : Nat := 40

structure Stored where
  bytes : Bytes
  mode : Nat
  deriving DecidableEq

inductive Act where
  | mkdir
  | unlink
  | create
  | write
  | chmod
  | symlink
  | hardLink
  deriving DecidableEq

/-- What was changed: a place of the disk, reached through so many links, or a path of the content
store. -/
inductive Effect where
  | disk (act : Act) (place : List Bytes) (followed : Nat)
  | store (path : List Bytes)
  deriving DecidableEq

/-- The disk, a content store beside it, and what has been changed so far. -/
structure FileSystem where
  disk : Disk Stored
  store : Bytes → Bytes → Option Stored
  effects : List Effect

inductive Failure where
  | notFound
  | present
  | isDirectory
  | notDirectory
  | looped
  | invalidData
  | unreadable
  deriving DecidableEq

abbrev FileProc (α : Type) : Type := Proc Failure FileSystem α

namespace FileSystem

def perform (system : FileSystem) (act : Act) (place : List Bytes) (links : Nat)
    (node : Option (Node Bytes Stored)) : FileSystem where
  disk := Function.update system.disk place node
  store := system.store
  effects := system.effects ++ [.disk act place (kernelLinks - links)]

end FileSystem

variable (base : List Bytes)

/-- Where an entry of that path would stand, in a directory that is there. -/
def entryPlace (disk : Disk Stored) (rel : List Bytes) : Except Failure (Nat × List Bytes) :=
  match rel.getLast? with
  | none => .error .present
  | some last =>
      match disk.world.resolve true kernelLinks base (rel.dropLast.map .name) with
      | .found links place =>
          if disk.world.isDir place then .ok (links, place ++ [last]) else .error .notDirectory
      | .stuck _ => .error .notFound
      | .looped => .error .looped

/-- An entry made where none is: `mkdir`, `symlink`, `link`, `open` with `O_EXCL`. -/
def enter (act : Act) (rel : List Bytes) (node : Node Bytes Stored) : FileProc Unit := do
  let system ← get
  match entryPlace base system.disk rel with
  | .error reason => throw reason
  | .ok (links, place) =>
      match system.disk place with
      | some _ => throw .present
      | none => set (system.perform act place links (some node))

/-- `Path::is_dir`. -/
def isDirectory (disk : Disk Stored) (rel : List Bytes) : Bool :=
  match disk.world.resolve true kernelLinks base (rel.map .name) with
  | .found _ place => disk.world.isDir place
  | _ => false

/-- `mkdir`, a directory that is there being as good. -/
def makeDir (rel : List Bytes) : FileProc Unit := do
  let system ← get
  if isDirectory base system.disk rel then pure ()
  else enter base .mkdir rel .dir

/-- The directories of `rest` made one below the other. -/
def makeDirs (above : List Bytes) : List Bytes → FileProc Unit
  | [] => pure ()
  | name :: rest => do
      makeDir base (above ++ [name])
      makeDirs (above ++ [name]) rest

/-- `create_dir_all`. -/
def createDirAll (rel : List Bytes) : FileProc Unit := makeDirs base [] rel

/-- `symlink_metadata(..).is_ok()`. -/
def present (rel : List Bytes) : FileProc Bool := do
  let system ← get
  match system.disk.world.resolve false kernelLinks base (rel.map .name) with
  | .found _ _ => pure true
  | _ => pure false

/-- `remove_file`. -/
def removeFile (rel : List Bytes) : FileProc Unit := do
  let system ← get
  match system.disk.world.resolve false kernelLinks base (rel.map .name) with
  | .found links place =>
      if system.disk.world.isDir place then throw .isDirectory
      else set (system.perform .unlink place links none)
  | .stuck _ => throw .notFound
  | .looped => throw .looped

def written (bytes : Bytes) : Node Bytes Stored → Node Bytes Stored
  | .file stored => .file ⟨bytes, stored.mode⟩
  | node => node

/-- `fs::write`: a file that is there is written over, and a name that leads nowhere is created,
the last name of a link's target too. -/
def writeFile (rel : List Bytes) (bytes : Bytes) : FileProc Unit := do
  let system ← get
  match system.disk.world.resolve true kernelLinks base (rel.map .name) with
  | .found links place =>
      if system.disk.world.isDir place then throw .isDirectory
      else set (system.perform .write place links ((system.disk place).map (written bytes)))
  | .stuck ⟨links, place, [.name part]⟩ =>
      if system.disk.world.isDir place then
        set (system.perform .create (place ++ [part]) links (some (.file ⟨bytes, 0o666⟩)))
      else throw .notDirectory
  | .stuck _ => throw .notFound
  | .looped => throw .looped

def chmodded (mode : Nat) : Node Bytes Stored → Node Bytes Stored
  | .file stored => .file ⟨stored.bytes, mode⟩
  | node => node

/-- `set_permissions`, of what a path leads to. -/
def setPermissions (rel : List Bytes) (mode : Nat) : FileProc Unit := do
  let system ← get
  match system.disk.world.resolve true kernelLinks base (rel.map .name) with
  | .found links place =>
      set (system.perform .chmod place links ((system.disk place).map (chmodded mode)))
  | .stuck _ => throw .notFound
  | .looped => throw .looped

/-- `metadata`, which fails where a path leads nowhere. -/
def metadata (rel : List Bytes) : FileProc Unit := do
  let system ← get
  match system.disk.world.resolve true kernelLinks base (rel.map .name) with
  | .found _ _ => pure ()
  | .stuck _ => throw .notFound
  | .looped => throw .looped

/-- An entry put in the place of whatever file or link is there. -/
def replaceEntry (act : Act) (rel : List Bytes) (node : Node Bytes Stored) : FileProc Unit := do
  if ← present base rel then removeFile base rel
  enter base act rel node

/-! ### Where no link is on the way -/

variable {base}

theorem resolve_clear {disk : Disk Stored} {follow : Bool} {rel : List Bytes} (links : Nat)
    (clear : disk.world.Clear follow base rel) :
    disk.world.resolve follow links base (rel.map .name) = .found links (base ++ rel) ∧
        (rel ≠ [] → disk (base ++ rel) ≠ none) ∨
      ∃ before part after, rel = before ++ part :: after ∧ disk (base ++ before ++ [part]) = none ∧
        disk.world.resolve follow links base (rel.map .name) =
          .stuck ⟨links, base ++ before, (part :: after).map .name⟩ := by
  rcases World.leg_names clear with ⟨found, there⟩ | ⟨before, part, after, same, absent, stuck⟩
  · left
    refine ⟨World.resolve_of_found links found, fun named absent => ?_⟩
    exact there named (Disk.world_eq_none.mpr absent)
  · right
    exact ⟨before, part, after, same, Disk.world_eq_none.mp absent,
      World.resolve_of_stuck links stuck⟩

theorem isDir_iff {disk : Disk Stored} {place : List Bytes} :
    disk.world.isDir place = true ↔ disk place = some .dir := by
  rw [← Disk.world_eq_dir, World.isDir]
  split <;> simp_all

theorem entryPlace_clear {disk : Disk Stored} {rel : List Bytes}
    (clear : disk.world.Clear true base rel.dropLast) :
    (∃ reason, entryPlace base disk rel = .error reason) ∨
      rel ≠ [] ∧ disk (base ++ rel.dropLast) = some .dir ∧
        entryPlace base disk rel = .ok (kernelLinks, base ++ rel) := by
  cases rel using List.reverseRecOn with
  | nil => exact Or.inl ⟨_, rfl⟩
  | append_singleton above last =>
      rw [List.dropLast_concat] at clear ⊢
      rw [entryPlace, List.getLast?_concat, List.dropLast_concat]
      dsimp only
      rcases resolve_clear kernelLinks clear with ⟨found, _⟩ | ⟨_, _, _, _, _, stuck⟩
      · rw [found]
        dsimp only
        by_cases dir : disk.world.isDir (base ++ above) = true
        · rw [if_pos dir, List.append_assoc]
          exact Or.inr ⟨by simp, isDir_iff.mp dir, rfl⟩
        · rw [if_neg dir]
          exact Or.inl ⟨_, rfl⟩
      · rw [stuck]
        exact Or.inl ⟨_, rfl⟩

theorem exec_get {α : Type} (next : FileSystem → FileProc α) (system : FileSystem) :
    Proc.exec (get >>= next) system = Proc.exec (next system) system := rfl

theorem exec_enter {act : Act} {rel : List Bytes} {node : Node Bytes Stored} {system : FileSystem}
    (clear : system.disk.world.Clear true base rel.dropLast) :
    (∃ reason, Proc.exec (enter base act rel node) system = (.error reason, system)) ∨
      rel ≠ [] ∧ system.disk (base ++ rel.dropLast) = some .dir ∧
        system.disk (base ++ rel) = none ∧
        Proc.exec (enter base act rel node) system =
          (.ok (), system.perform act (base ++ rel) kernelLinks (some node)) := by
  rw [enter, exec_get]
  rcases entryPlace_clear clear with ⟨reason, refused⟩ | ⟨named, dir, placed⟩
  · rw [refused]
    exact Or.inl ⟨reason, rfl⟩
  · rw [placed]
    dsimp only
    cases held : system.disk (base ++ rel) with
    | some other => exact Or.inl ⟨_, rfl⟩
    | none => exact Or.inr ⟨named, dir, rfl, rfl⟩

theorem exec_makeDir {rel : List Bytes} {system : FileSystem}
    (clear : system.disk.world.Clear true base rel) :
    (∃ reason, Proc.exec (makeDir base rel) system = (.error reason, system)) ∨
      (system.disk (base ++ rel) = some .dir ∧
        Proc.exec (makeDir base rel) system = (.ok (), system)) ∨
      rel ≠ [] ∧ system.disk (base ++ rel) = none ∧
        Proc.exec (makeDir base rel) system =
          (.ok (), system.perform .mkdir (base ++ rel) kernelLinks (some .dir)) := by
  rw [makeDir, exec_get]
  by_cases there : isDirectory base system.disk rel = true
  · right
    left
    rw [if_pos there]
    refine ⟨?_, rfl⟩
    rw [isDirectory] at there
    rcases resolve_clear kernelLinks clear with ⟨found, _⟩ | ⟨_, _, _, _, _, stuck⟩
    · rw [found] at there
      exact isDir_iff.mp there
    · rw [stuck] at there
      cases there
  · rw [if_neg there]
    rcases exec_enter clear.dropLast with refused | ⟨named, _, absent, made⟩
    · exact Or.inl refused
    · exact Or.inr (Or.inr ⟨named, absent, made⟩)

theorem exec_present {rel : List Bytes} {system : FileSystem}
    (clear : system.disk.world.Clear false base rel) :
    (Proc.exec (present base rel) system = (.ok true, system)) ∨
      rel ≠ [] ∧ Proc.exec (present base rel) system = (.ok false, system) := by
  rw [present, exec_get]
  rcases resolve_clear kernelLinks clear with ⟨found, _⟩ | ⟨_, _, _, same, _, stuck⟩
  · rw [found]
    exact Or.inl rfl
  · rw [stuck, same]
    exact Or.inr ⟨by simp, rfl⟩

theorem exec_removeFile {rel : List Bytes} {system : FileSystem}
    (clear : system.disk.world.Clear false base rel) :
    (∃ reason, Proc.exec (removeFile base rel) system = (.error reason, system)) ∨
      system.disk (base ++ rel) ≠ some .dir ∧
        Proc.exec (removeFile base rel) system =
          (.ok (), system.perform .unlink (base ++ rel) kernelLinks none) := by
  rw [removeFile, exec_get]
  rcases resolve_clear kernelLinks clear with ⟨found, _⟩ | ⟨_, _, _, _, _, stuck⟩
  · rw [found]
    dsimp only
    by_cases dir : system.disk.world.isDir (base ++ rel) = true
    · rw [if_pos dir]
      exact Or.inl ⟨_, rfl⟩
    · rw [if_neg dir]
      exact Or.inr ⟨mt isDir_iff.mpr dir, rfl⟩
  · rw [stuck]
    exact Or.inl ⟨_, rfl⟩

theorem exec_writeFile {rel : List Bytes} {bytes : Bytes} {system : FileSystem}
    (rooted : system.disk base = some .dir) (clear : system.disk.world.Clear true base rel) :
    (∃ reason, Proc.exec (writeFile base rel bytes) system = (.error reason, system)) ∨
      (∃ node, system.disk (base ++ rel) = some node ∧ node ≠ .dir ∧
        Proc.exec (writeFile base rel bytes) system =
          (.ok (), system.perform .write (base ++ rel) kernelLinks (some (written bytes node)))) ∨
      rel ≠ [] ∧ system.disk (base ++ rel) = none ∧
        Proc.exec (writeFile base rel bytes) system =
          (.ok (), system.perform .create (base ++ rel) kernelLinks
            (some (.file ⟨bytes, 0o666⟩))) := by
  rw [writeFile, exec_get]
  rcases resolve_clear kernelLinks clear with ⟨found, there⟩ |
    ⟨before, part, after, same, absent, stuck⟩
  · rw [found]
    dsimp only
    by_cases dir : system.disk.world.isDir (base ++ rel) = true
    · rw [if_pos dir]
      exact Or.inl ⟨_, rfl⟩
    · rw [if_neg dir]
      cases held : system.disk (base ++ rel) with
      | none =>
          have empty : rel = [] := by
            by_contra named
            exact there named held
          rw [empty, List.append_nil, rooted] at held
          cases held
      | some node =>
          right
          left
          refine ⟨node, rfl, ?_, rfl⟩
          intro same
          exact dir (isDir_iff.mpr (by rw [held, same]))
  · rw [stuck]
    cases after with
    | nil =>
        simp only [List.map_cons, List.map_nil]
        by_cases dir : system.disk.world.isDir (base ++ before) = true
        · rw [if_pos dir, same, ← List.append_assoc]
          exact Or.inr (Or.inr ⟨by simp, absent, rfl⟩)
        · rw [if_neg dir]
          exact Or.inl ⟨_, rfl⟩
    | cons next after => exact Or.inl ⟨_, rfl⟩

theorem exec_setPermissions {rel : List Bytes} {mode : Nat} {system : FileSystem}
    (clear : system.disk.world.Clear true base rel) :
    (∃ reason, Proc.exec (setPermissions base rel mode) system = (.error reason, system)) ∨
      Proc.exec (setPermissions base rel mode) system =
        (.ok (), system.perform .chmod (base ++ rel) kernelLinks
          ((system.disk (base ++ rel)).map (chmodded mode))) := by
  rw [setPermissions, exec_get]
  rcases resolve_clear kernelLinks clear with ⟨found, _⟩ | ⟨_, _, _, _, _, stuck⟩
  · rw [found]
    exact Or.inr rfl
  · rw [stuck]
    exact Or.inl ⟨_, rfl⟩

theorem exec_metadata (rel : List Bytes) (system : FileSystem) :
    (∃ reason, Proc.exec (metadata base rel) system = (.error reason, system)) ∨
      Proc.exec (metadata base rel) system = (.ok (), system) := by
  rw [metadata, exec_get]
  split
  · exact Or.inr rfl
  · exact Or.inl ⟨_, rfl⟩
  · exact Or.inl ⟨_, rfl⟩

end Onelf.Lib
