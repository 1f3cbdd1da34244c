import Onelf.Format.ExtractedTree

/-! Extraction of a package below a directory (`cache.rs`). -/

namespace Onelf.Runtime.Extract

open Onelf.Lib
open Onelf.Format (symlinkTargetWithinRoot)

/-- A package as it is extracted: its manifest, where its image keeps a file if it is one, and what
reading an entry gives. -/
structure Source where
  manifest : Format.Manifest
  extent : Option (Nat → Nat)
  read : Format.Entry → Option Bytes

def entryPath (manifest : Format.Manifest) (index : Nat) : FileProc (List Bytes) :=
  match manifest.validatedEntryPath index with
  | .ok rel => pure rel
  | .error _ => throw .invalidData

/-- `read_verified_entry`. -/
def readEntry (source : Source) (entry : Format.Entry) : FileProc Bytes :=
  match source.read entry with
  | some data => pure data
  | none => throw .unreadable

variable (base : List Bytes) (source : Source) (keep : List Bytes → Bool)

def extractDir (entry : Format.Entry × Nat) : FileProc Unit := do
  let rel ← entryPath source.manifest entry.2
  if rel.isEmpty || !keep rel then pure () else createDirAll base rel

def extractFile (entry : Format.Entry × Nat) : FileProc Unit := do
  let rel ← entryPath source.manifest entry.2
  if keep rel then do
    createDirAll base rel.dropLast
    let data ← readEntry source entry.1
    replaceEntry base .create rel (.file ⟨data, entry.1.mode &&& 0o777⟩)
  else pure ()

def extractLink (entry : Format.Entry × Nat) : FileProc Unit := do
  let rel ← entryPath source.manifest entry.2
  if keep rel then
    if symlinkTargetWithinRoot rel (source.manifest.getString entry.1.symlinkTarget) then do
      createDirAll base rel.dropLast
      replaceEntry base .symlink rel (.link (source.manifest.getString entry.1.symlinkTarget))
    else throw .invalidData
  else pure ()

/-- `extract_matching`: directories, then files, then links. -/
def extractMatching : FileProc Unit := do
  (source.manifest.numbered .dir).forM (extractDir base source keep)
  (source.manifest.fileOrder source.extent).forM (extractFile base source keep)
  (source.manifest.numbered .symlink).forM (extractLink base source keep)

variable {base source keep} {start : Disk Stored} {shared : Bool} {tree : Disk Unit}

/-- Both what has happened and what it has left below `base`. -/
abbrev Leaves (base : List Bytes) (start : Disk Stored) (shared : Bool) (tree : Disk Unit)
    (system : FileSystem) : Prop :=
  Confined base start shared system ∧ Shows base tree system

theorem entryPath_ensures {manifest : Format.Manifest} {index : Nat} {before : FileSystem → Prop}
    {broken : FileSystem → Prop} (weaker : ∀ system, before system → broken system) :
    Proc.Ensures before (entryPath manifest index)
      (fun rel system => before system ∧ manifest.validatedEntryPath index = .ok rel) broken := by
  rw [entryPath]
  cases manifest.validatedEntryPath index with
  | ok rel => exact Proc.Ensures.ret fun system holds => ⟨holds, rfl⟩
  | error fault => exact Proc.Ensures.fail weaker

theorem readEntry_ensures {entry : Format.Entry} {before : FileSystem → Prop}
    {broken : FileSystem → Prop} (weaker : ∀ system, before system → broken system) :
    Proc.Ensures before (readEntry source entry) (fun _ => before) broken := by
  rw [readEntry]
  cases source.read entry with
  | some data => exact Proc.Ensures.ret fun system holds => holds
  | none => exact Proc.Ensures.fail weaker

/-- A known fact may be used to run what follows. -/
theorem ensures_of_fact {α : Type} {fact : Prop} {before : FileSystem → Prop} {proc : FileProc α}
    {after : α → FileSystem → Prop} {broken : FileSystem → Prop}
    (ensures : fact → Proc.Ensures before proc after broken) :
    Proc.Ensures (fun system => before system ∧ fact) proc after broken :=
  fun system holds => ensures holds.2 system holds.1

theorem extractDir_ensures {entry : Format.Entry × Nat} (rooted : tree [] = some .dir)
    (bare : ∀ place, World.linkAt tree place = none) :
    Proc.Ensures (Leaves base start shared tree) (extractDir base source keep entry)
      (fun _ => Leaves base start shared (source.manifest.withDir keep tree entry))
      (Confined base start shared) := by
  rw [extractDir]
  refine Proc.Ensures.bind (entryPath_ensures fun system holds => holds.1) fun rel =>
    ensures_of_fact fun validated => ?_
  rw [Format.Manifest.withDir, Format.Manifest.pathOf_eq validated]
  split
  · exact Proc.Ensures.ret fun system holds => holds
  · exact createDirAll_ensures rooted (Format.Manifest.clear_of_bare bare true rel)

theorem createParent_ensures {rel : List Bytes} (rooted : tree [] = some .dir)
    (clear : World.Clear tree false [] rel) :
    Proc.Ensures (Leaves base start shared tree) (createDirAll base rel.dropLast)
      (fun _ => Leaves base start shared (tree.addDirs rel.dropLast)) (Confined base start shared) :=
  createDirAll_ensures rooted clear.dropLast

theorem replaced_ensures {act : Act} {rel : List Bytes} {node : Node Bytes Stored}
    (clear : World.Clear tree false [] rel) :
    Proc.Ensures (Leaves base start shared (tree.addDirs rel.dropLast)) (replaceEntry base act rel node)
      (fun _ system => Leaves base start shared (Format.Manifest.withEntry tree rel node.bare) system ∧
        rel ≠ [] ∧ tree.addDirs rel.dropLast rel ≠ some .dir)
      (Confined base start shared) :=
  (replaceEntry_ensures (clear_addDirs clear)).weaken (fun _ holds => holds)
    (fun _ _ holds => ⟨⟨holds.1, holds.2.1⟩, holds.2.2⟩) (fun _ holds => holds)

theorem extractFile_ensures {entry : Format.Entry × Nat}
    (plain : Format.Manifest.Plain source.manifest keep tree) :
    Proc.Ensures (Leaves base start shared tree) (extractFile base source keep entry)
      (fun _ system => Leaves base start shared (source.manifest.withFile keep tree entry) system ∧
        Format.Manifest.Plain source.manifest keep (source.manifest.withFile keep tree entry))
      (Confined base start shared) := by
  rw [extractFile]
  refine Proc.Ensures.bind (entryPath_ensures fun system holds => holds.1) fun rel =>
    ensures_of_fact fun validated => ?_
  rw [Format.Manifest.withFile, Format.Manifest.pathOf_eq validated]
  split
  · have clear := plain.grown.clear validated
    refine Proc.Ensures.bind (createParent_ensures plain.whole.root clear) fun _ =>
      Proc.Ensures.bind (readEntry_ensures fun system holds => holds.1) fun data =>
        (replaced_ensures clear).weaken (fun _ holds => holds) ?_ (fun _ holds => holds)
    rintro _ system ⟨leaves, named, vacant⟩
    exact ⟨leaves, plain.withEntry named vacant⟩
  · exact Proc.Ensures.ret fun system holds => ⟨holds, plain⟩

theorem extractLink_ensures {entry : Format.Entry × Nat} (valid : source.manifest.Valid)
    (grown : Format.Manifest.Grown source.manifest keep tree) :
    Proc.Ensures (Leaves base start shared tree) (extractLink base source keep entry)
      (fun _ system => Leaves base start shared (source.manifest.withLink keep tree entry) system ∧
        Format.Manifest.Grown source.manifest keep (source.manifest.withLink keep tree entry))
      (Confined base start shared) := by
  rw [extractLink]
  refine Proc.Ensures.bind (entryPath_ensures fun system holds => holds.1) fun rel =>
    ensures_of_fact fun validated => ?_
  rw [Format.Manifest.withLink, Format.Manifest.pathOf_eq validated]
  split
  · next kept =>
      split
      · next checked =>
        have clear := grown.clear validated
        refine Proc.Ensures.bind (createParent_ensures grown.whole.root clear) fun _ =>
          (replaced_ensures clear).weaken (fun _ holds => holds) ?_ (fun _ holds => holds)
        rintro _ system ⟨leaves, named, vacant⟩
        exact ⟨leaves, grown.withEntry valid _ named kept checked vacant⟩
      · exact Proc.Ensures.fail fun system holds => holds.1
  · exact Proc.Ensures.ret fun system holds => ⟨holds, grown⟩

/-! ### The passes -/

/-- The pass over the directories, of an extractor that makes each of them. -/
theorem dirPass_ensures {body : Format.Entry × Nat → FileProc Unit}
    (each : ∀ tree entry, tree [] = some .dir → (∀ place, World.linkAt tree place = none) →
      Proc.Ensures (Leaves base start shared tree) (body entry)
        (fun _ => Leaves base start shared (source.manifest.withDir keep tree entry))
        (Confined base start shared)) :
    Proc.Ensures (Leaves base start shared Format.Manifest.emptyTree)
      ((source.manifest.numbered .dir).forM body)
      (fun _ => Leaves base start shared (source.manifest.dirTree keep)) (Confined base start shared) := by
  refine Proc.Ensures.loop (fun past => Leaves base start shared
    (past.foldl (source.manifest.withDir keep) Format.Manifest.emptyTree)) ?_
  intro past entry rest _
  have made := (Format.Manifest.dirs_plain source.manifest keep past).1
  rw [List.foldl_append, List.foldl_cons, List.foldl_nil]
  exact each _ entry made.1.root made.2

/-- The pass over the files, of an extractor that puts each where it belongs. -/
theorem filePass_ensures {body : Format.Entry × Nat → FileProc Unit}
    (each : ∀ tree entry, Format.Manifest.Plain source.manifest keep tree →
      Proc.Ensures (Leaves base start shared tree) (body entry)
        (fun _ system => Leaves base start shared (source.manifest.withFile keep tree entry) system ∧
          Format.Manifest.Plain source.manifest keep (source.manifest.withFile keep tree entry))
        (Confined base start shared)) :
    Proc.Ensures (Leaves base start shared (source.manifest.dirTree keep))
      ((source.manifest.fileOrder source.extent).forM body)
      (fun _ system => Leaves base start shared (source.manifest.fileTree keep source.extent) system ∧
        Format.Manifest.Plain source.manifest keep (source.manifest.fileTree keep source.extent))
      (Confined base start shared) := by
  refine Proc.Ensures.weaken (Proc.Ensures.loop (fun past system =>
      Leaves base start shared (past.foldl (source.manifest.withFile keep) (source.manifest.dirTree keep))
          system ∧
        Format.Manifest.Plain source.manifest keep
          (past.foldl (source.manifest.withFile keep) (source.manifest.dirTree keep))) ?_)
    (fun _ holds => ⟨holds, Format.Manifest.dirTree_plain⟩) (fun _ _ holds => holds)
    (fun _ holds => holds)
  intro past entry rest _
  rw [List.foldl_append, List.foldl_cons, List.foldl_nil]
  exact ensures_of_fact (each _ entry)

/-- The pass over the links, of an extractor that puts each where it belongs. -/
theorem linkPass_ensures {body : Format.Entry × Nat → FileProc Unit}
    (each : ∀ tree entry, Format.Manifest.Grown source.manifest keep tree →
      Proc.Ensures (Leaves base start shared tree) (body entry)
        (fun _ system => Leaves base start shared (source.manifest.withLink keep tree entry) system ∧
          Format.Manifest.Grown source.manifest keep (source.manifest.withLink keep tree entry))
        (Confined base start shared)) :
    Proc.Ensures (fun system => Leaves base start shared (source.manifest.fileTree keep source.extent)
        system ∧
        Format.Manifest.Plain source.manifest keep (source.manifest.fileTree keep source.extent))
      ((source.manifest.numbered .symlink).forM body)
      (fun _ system => Leaves base start shared (source.manifest.extractedTree keep source.extent) system ∧
        Format.Manifest.Grown source.manifest keep
          (source.manifest.extractedTree keep source.extent))
      (Confined base start shared) := by
  refine Proc.Ensures.weaken (Proc.Ensures.loop (fun past system =>
      Leaves base start shared (past.foldl (source.manifest.withLink keep)
          (source.manifest.fileTree keep source.extent)) system ∧
        Format.Manifest.Grown source.manifest keep (past.foldl (source.manifest.withLink keep)
          (source.manifest.fileTree keep source.extent))) ?_)
    (fun _ holds => ⟨holds.1, holds.2.grown⟩) (fun _ _ holds => holds) (fun _ holds => holds)
  intro past entry rest _
  rw [List.foldl_append, List.foldl_cons, List.foldl_nil]
  exact ensures_of_fact (each _ entry)

/-- Extraction stays below its directory whatever comes of it, and leaves the tree the kept entries
describe where it succeeds. -/
theorem extractMatching_ensures (valid : source.manifest.Valid) :
    Proc.Ensures (Leaves base start shared Format.Manifest.emptyTree) (extractMatching base source keep)
      (fun _ system => Leaves base start shared (source.manifest.extractedTree keep source.extent) system ∧
        Format.Manifest.Grown source.manifest keep
          (source.manifest.extractedTree keep source.extent))
      (Confined base start shared) :=
  (dirPass_ensures fun _ _ rooted bare => extractDir_ensures rooted bare).bind fun _ =>
    (filePass_ensures fun _ _ plain => extractFile_ensures plain).bind fun _ =>
      linkPass_ensures fun _ _ grown => extractLink_ensures valid grown

end Onelf.Runtime.Extract
