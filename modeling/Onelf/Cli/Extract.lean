import Onelf.Format.RoundTrip
import Onelf.Runtime.ExtractToCas

/-! Extraction of a whole package by the packer (`extract_all` of `extract.rs`). -/

namespace Onelf.Cli.Extract

open Onelf.Lib
open Onelf.Format (symlinkTargetWithinRoot)
open Onelf.Runtime.Extract

/-- Mode bits past the permissions only where they are asked for. -/
def modeBits (mode : Nat) (preserveMode : Bool) : Nat :=
  if preserveMode then mode else mode &&& 0o777

/-- How modes are treated, and the mode a directory is found to have. -/
structure Modes where
  preserve : Bool
  found : List Bytes → Nat

variable (base : List Bytes) (source : Source) (modes : Modes)

def extractDir (entry : Format.Entry × Nat) : FileProc Unit := do
  let rel ← entryPath source.manifest entry.2
  if rel.isEmpty then pure ()
  else do
    createDirAll base rel
    metadata base rel
    if modes.found rel &&& 0o700 ≠ 0o700 then setPermissions base rel (modes.found rel ||| 0o700)
    else pure ()

def extractFile (entry : Format.Entry × Nat) : FileProc Unit := do
  let rel ← entryPath source.manifest entry.2
  createDirAll base rel.dropLast
  let data ← readEntry source entry.1
  writeFile base rel data
  setPermissions base rel (modeBits entry.1.mode modes.preserve)

def extractLink (entry : Format.Entry × Nat) : FileProc Unit := do
  let rel ← entryPath source.manifest entry.2
  if rel.isEmpty then pure ()
  else if symlinkTargetWithinRoot rel (source.manifest.getString entry.1.symlinkTarget) then
    replaceEntry base .symlink rel (.link (source.manifest.getString entry.1.symlinkTarget))
  else throw .invalidData

/-- The recorded mode of a directory entry, the root's left out. -/
def dirMode (entry : Format.Entry × Nat) : Option (List Bytes × Nat) :=
  match source.manifest.validatedEntryPath entry.2 with
  | .ok rel => if rel.isEmpty then none else some (rel, modeBits entry.1.mode modes.preserve)
  | .error _ => none

/-- The modes applied in the final pass, deepest directory first. -/
def dirModes : List (List Bytes × Nat) :=
  ((source.manifest.numbered .dir).filterMap (dirMode source modes)).mergeSort
    fun first second => second.1.length ≤ first.1.length

/-- `extract_all`: directories, files, links, and the directories' modes. -/
def extractAll : FileProc Unit := do
  (source.manifest.numbered .dir).forM (extractDir base source modes)
  (source.manifest.fileOrder source.extent).forM (extractFile base source modes)
  (source.manifest.numbered .symlink).forM (extractLink base source)
  (dirModes source modes).forM fun dir => setPermissions base dir.1 dir.2

/-- The entries that are extracted: all but the root. -/
def named (rel : List Bytes) : Bool := !rel.isEmpty

variable {base source modes} {start : Disk Stored} {shared : Bool} {tree : Disk Unit}

theorem extractDir_ensures {entry : Format.Entry × Nat} (rooted : tree [] = some .dir)
    (bare : ∀ place, World.linkAt tree place = none) :
    Proc.Ensures (Leaves base start shared tree) (extractDir base source modes entry)
      (fun _ => Leaves base start shared (source.manifest.withDir named tree entry))
      (Confined base start shared) := by
  rw [extractDir]
  refine Proc.Ensures.bind (entryPath_ensures fun system holds => holds.1) fun rel =>
    ensures_of_fact fun validated => ?_
  rw [Format.Manifest.withDir, Format.Manifest.pathOf_eq validated, named, Bool.not_not,
    Bool.or_self]
  split
  · exact Proc.Ensures.ret fun system holds => holds
  · have clear := Format.Manifest.clear_of_bare bare true rel
    refine Proc.Ensures.bind (createDirAll_ensures rooted clear) fun _ =>
      Proc.Ensures.bind metadata_ensures fun _ => ?_
    split
    · exact setPermissions_ensures (clear_addDirs clear)
    · exact Proc.Ensures.ret fun system holds => holds

theorem written_ensures {rel : List Bytes} {bytes : Bytes} (rooted : tree [] = some .dir)
    (clear : World.Clear tree true [] rel) :
    Proc.Ensures (Leaves base start shared (tree.addDirs rel.dropLast)) (writeFile base rel bytes)
      (fun _ system => Leaves base start shared (Format.Manifest.withEntry tree rel (.file ())) system ∧
        rel ≠ [] ∧ tree.addDirs rel.dropLast rel ≠ some .dir)
      (Confined base start shared) :=
  (writeFile_ensures (Format.Manifest.addDirs_dir rooted _) (clear_addDirs clear)).weaken
    (fun _ holds => holds) (fun _ _ holds => ⟨⟨holds.1, holds.2.1⟩, holds.2.2⟩) (fun _ holds => holds)

theorem extractFile_ensures {entry : Format.Entry × Nat}
    (plain : Format.Manifest.Plain source.manifest named tree) :
    Proc.Ensures (Leaves base start shared tree) (extractFile base source modes entry)
      (fun _ system => Leaves base start shared (source.manifest.withFile named tree entry) system ∧
        Format.Manifest.Plain source.manifest named (source.manifest.withFile named tree entry))
      (Confined base start shared) := by
  rw [extractFile]
  refine Proc.Ensures.bind (entryPath_ensures fun system holds => holds.1) fun rel =>
    ensures_of_fact fun validated => ?_
  rw [Format.Manifest.withFile, Format.Manifest.pathOf_eq validated]
  have clear := Format.Manifest.clear_of_bare plain.bare true rel
  have parent := Format.Manifest.clear_of_bare plain.bare false rel
  refine Proc.Ensures.bind (createParent_ensures plain.whole.root parent) fun _ =>
    Proc.Ensures.bind (readEntry_ensures fun system holds => holds.1) fun data =>
      Proc.Ensures.bind (written_ensures plain.whole.root clear) fun _ =>
        ensures_of_fact fun placed => ?_
  have kept : named rel = true := by
    rw [named, Bool.not_eq_true', List.isEmpty_eq_false_iff]
    exact placed.1
  rw [if_pos kept]
  have grown := plain.withEntry placed.1 placed.2
  exact (setPermissions_ensures (Format.Manifest.clear_of_bare grown.bare true rel)).weaken
    (fun _ holds => holds) (fun _ _ holds => ⟨holds, grown⟩) (fun _ holds => holds)

/-- The directories above an entry are there before its link is made. -/
theorem addDirs_parent (valid : source.manifest.Valid)
    (grown : Format.Manifest.Grown source.manifest named tree) {index : Nat} {rel : List Bytes}
    (validated : source.manifest.validatedEntryPath index = .ok rel) :
    tree.addDirs rel.dropLast = tree := by
  funext place
  rw [Disk.addDirs]
  split
  · next above =>
      cases empty : place with
      | nil => exact grown.whole.root.symm
      | cons first others =>
          rw [← empty]
          have some : place ≠ [] := by
            rw [empty]
            exact List.cons_ne_nil first others
          cases rel using List.reverseRecOn with
          | nil => exact absurd (List.prefix_nil.mp above) some
          | append_singleton parent last =>
              rw [List.dropLast_concat] at above
              obtain ⟨more, more_eq⟩ := above
              have split_eq : ∃ name rest, parent ++ [last] = place ++ name :: rest := by
                rw [← more_eq]
                cases more with
                | nil => exact ⟨last, [], by rw [List.append_nil]⟩
                | cons name rest => exact ⟨name, rest ++ [last], by simp⟩
              obtain ⟨name, rest, split_eq⟩ := split_eq
              obtain ⟨entry, parent, held, dir, path⟩ :=
                Format.Manifest.dir_above_entry valid validated split_eq some
              have kept : named place = true := by
                rw [named, Bool.not_eq_true', List.isEmpty_eq_false_iff]
                exact some
              exact (grown.dirs parent entry place (Format.Manifest.mem_numbered.mpr ⟨held, dir⟩)
                path kept).symm
  · rfl

theorem extractLink_ensures {entry : Format.Entry × Nat} (valid : source.manifest.Valid)
    (grown : Format.Manifest.Grown source.manifest named tree) :
    Proc.Ensures (Leaves base start shared tree) (extractLink base source entry)
      (fun _ system => Leaves base start shared (source.manifest.withLink named tree entry) system ∧
        Format.Manifest.Grown source.manifest named (source.manifest.withLink named tree entry))
      (Confined base start shared) := by
  rw [extractLink]
  refine Proc.Ensures.bind (entryPath_ensures fun system holds => holds.1) fun rel =>
    ensures_of_fact fun validated => ?_
  rw [Format.Manifest.withLink, Format.Manifest.pathOf_eq validated, named]
  split
  · next empty =>
      rw [empty]
      exact Proc.Ensures.ret fun system holds => ⟨holds, grown⟩
  · next some =>
      rw [Bool.not_eq_true] at some
      rw [some, Bool.not_false, if_pos rfl]
      split
      · next checked =>
          have replaced := @replaced_ensures base start shared tree .symlink rel
            (.link (source.manifest.getString entry.1.symlinkTarget)) (grown.clear validated)
          rw [addDirs_parent valid grown validated] at replaced
          refine replaced.weaken (fun _ holds => holds) ?_ (fun _ holds => holds)
          rintro _ system ⟨leaves, below, vacant⟩
          refine ⟨leaves, grown.withEntry valid _ below ?_ checked ?_⟩
          · rw [named, some, Bool.not_false]
          · rw [addDirs_parent valid grown validated]
            exact vacant
      · exact Proc.Ensures.fail fun system holds => holds.1

/-- The final pass changes the modes of directories that are there. -/
theorem dirModes_ensures (grown : Format.Manifest.Grown source.manifest named tree) :
    Proc.Ensures (Leaves base start shared tree)
      ((dirModes source modes).forM fun dir => setPermissions base dir.1 dir.2)
      (fun _ => Leaves base start shared tree) (Confined base start shared) := by
  refine Proc.Ensures.loop (fun _ => Leaves base start shared tree) ?_
  intro past dir rest whole
  apply setPermissions_ensures
  have listed : dir ∈ dirModes source modes := by
    rw [whole]
    exact List.mem_append_right past List.mem_cons_self
  obtain ⟨⟨entry, index⟩, member, recorded⟩ :=
    List.mem_filterMap.mp (List.mem_mergeSort.mp listed)
  rw [dirMode] at recorded
  split at recorded
  · next rel validated =>
      split at recorded
      · cases recorded
      · next some =>
          cases recorded
          have kept : named rel = true := by
            rw [Bool.not_eq_true] at some
            rw [named, some, Bool.not_false]
          have dir := grown.dirs entry index rel member validated kept
          intro before part after same _
          cases after with
          | nil =>
              rw [List.nil_append, ← same, World.linkAt, dir]
              rfl
          | cons next after =>
              exact grown.clear validated before part (next :: after) same
                (Or.inr (List.cons_ne_nil next after))
  · cases recorded

theorem extractAll_ensures (valid : source.manifest.Valid) :
    Proc.Ensures (Leaves base start shared Format.Manifest.emptyTree) (extractAll base source modes)
      (fun _ system => Leaves base start shared (source.manifest.extractedTree named source.extent) system ∧
        Format.Manifest.Grown source.manifest named
          (source.manifest.extractedTree named source.extent))
      (Confined base start shared) := by
  rw [extractAll]
  refine Proc.Ensures.bind (dirPass_ensures fun _ _ rooted bare => extractDir_ensures rooted bare)
    fun _ => Proc.Ensures.bind (filePass_ensures fun _ _ plain => extractFile_ensures plain)
      fun _ => Proc.Ensures.bind
        (linkPass_ensures fun _ _ grown => extractLink_ensures valid grown) fun _ =>
          ensures_of_fact fun grown => ?_
  exact (dirModes_ensures grown).weaken (fun _ holds => holds) (fun _ _ holds => ⟨holds, grown⟩)
    (fun _ holds => holds)

/-! ### Any extractor, any package -/

/-- A package whose manifest was read. -/
structure Accepted where
  source : Source
  data : Bytes
  accepted : Format.Manifest.deserialize data = .ok source.manifest

/-- An empty directory, and nothing done yet. -/
structure EmptyTarget where
  base : List Bytes
  system : FileSystem
  rooted : system.disk base = some .dir
  empty : ∀ names, names ≠ [] → system.disk (base ++ names) = none
  quiet : system.effects = []

theorem Accepted.valid (package : Accepted) : package.source.manifest.Valid := by
  have read := package.accepted
  rw [Format.Manifest.deserialize_eq_parsed] at read
  cases parsed : Format.Manifest.parsed package.data with
  | error reason =>
      rw [parsed] at read
      cases read
  | ok both =>
      rw [parsed] at read
      have valid := (Format.Manifest.parsed_eq_ok parsed).2.1
      rwa [Except.ok.inj read] at valid

theorem EmptyTarget.leaves (target : EmptyTarget) (shared : Bool) :
    Leaves target.base target.system.disk shared Format.Manifest.emptyTree target.system := by
  refine ⟨⟨fun place _ => rfl, fun act place followed member => ?_, fun path member => ?_⟩, ?_⟩
  · rw [target.quiet] at member
    cases member
  · rw [target.quiet] at member
    cases member
  · intro names
    rw [Format.Manifest.emptyTree]
    split
    · next top =>
        rw [top, List.append_nil, target.rooted]
        rfl
    · next below =>
        rw [target.empty names below]
        rfl

/-- What a procedure ensures when it fails and is ensured by its success holds of what it leaves. -/
theorem confined_of_ensures {target : EmptyTarget} {shared : Bool} {proc : FileProc Unit}
    {tree : Disk Unit} {fact : Prop}
    (ensures : Proc.Ensures
      (Leaves target.base target.system.disk shared Format.Manifest.emptyTree) proc
      (fun _ system => Leaves target.base target.system.disk shared tree system ∧ fact)
      (Confined target.base target.system.disk shared)) :
    Confined target.base target.system.disk shared (Proc.exec proc target.system).2 := by
  have ran := ensures target.system (target.leaves shared)
  cases result : Proc.exec proc target.system with
  | mk outcome system =>
      rw [result] at ran
      cases outcome with
      | ok nothing => exact ran.1.1
      | error reason => exact ran

/-- Whatever the package and however its extraction ends, each extractor has created, written,
linked and changed modes below its empty directory only, or in the content store, and went through
no link to do so. -/
theorem extraction_confined (package : Accepted) (target : EmptyTarget)
    (keep : List Bytes → Bool) (writer : Writer) (modes : Modes) :
    Confined target.base target.system.disk false
        (Proc.exec (extractMatching target.base package.source keep) target.system).2 ∧
      Confined target.base target.system.disk true
        (Proc.exec (extractToCas target.base package.source writer) target.system).2 ∧
      Confined target.base target.system.disk false
        (Proc.exec (extractAll target.base package.source modes) target.system).2 :=
  ⟨confined_of_ensures (extractMatching_ensures package.valid),
    confined_of_ensures (extractToCas_ensures package.valid),
    confined_of_ensures (extractAll_ensures package.valid)⟩

end Onelf.Cli.Extract
