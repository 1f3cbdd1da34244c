import Mathlib.Data.List.Sort
import Onelf.Format.SafePaths
import Onelf.Lib.Confined

/-! The tree a package is extracted to: its directories, then its files, then its links. -/

namespace Onelf.Format

open Onelf.Lib
open Onelf.Runtime (EntryKind)

namespace Manifest

/-- The entries of one kind, numbered. -/
def numbered (manifest : Manifest) (kind : EntryKind) : List (Entry × Nat) :=
  manifest.entries.zipIdx.filter fun entry => entry.1.kind = kind

/-- `file_order`: by where the image keeps each file's first extent, if there is an image. -/
def fileOrder (manifest : Manifest) (extent : Option (Nat → Nat)) : List (Entry × Nat) :=
  match extent with
  | none => manifest.numbered .file
  | some place =>
      (manifest.numbered .file).mergeSort fun first second => place first.2 ≤ place second.2

/-- The path of an entry, where it has a safe one. -/
def pathOf (manifest : Manifest) (index : Nat) : List Bytes :=
  match manifest.validatedEntryPath index with
  | .ok rel => rel
  | .error _ => []

variable (manifest : Manifest) (keep : List Bytes → Bool)

def withDir (tree : Disk Unit) (entry : Entry × Nat) : Disk Unit :=
  if (manifest.pathOf entry.2).isEmpty || !keep (manifest.pathOf entry.2) then tree
  else tree.addDirs (manifest.pathOf entry.2)

/-- The tree with an entry at `rel` and the directories above it. -/
def withEntry (tree : Disk Unit) (rel : List Bytes) (node : Node Bytes Unit) : Disk Unit :=
  Function.update (tree.addDirs rel.dropLast) rel (some node)

def withFile (tree : Disk Unit) (entry : Entry × Nat) : Disk Unit :=
  if keep (manifest.pathOf entry.2) then withEntry tree (manifest.pathOf entry.2) (.file ())
  else tree

def withLink (tree : Disk Unit) (entry : Entry × Nat) : Disk Unit :=
  if keep (manifest.pathOf entry.2) then
    withEntry tree (manifest.pathOf entry.2) (.link (manifest.getString entry.1.symlinkTarget))
  else tree

def emptyTree : Disk Unit := fun place => if place = [] then some .dir else none

def dirTree : Disk Unit := (manifest.numbered .dir).foldl (manifest.withDir keep) emptyTree

def fileTree (extent : Option (Nat → Nat)) : Disk Unit :=
  (manifest.fileOrder extent).foldl (manifest.withFile keep) (manifest.dirTree keep)

/-- The tree the kept entries describe. -/
def extractedTree (extent : Option (Nat → Nat)) : Disk Unit :=
  (manifest.numbered .symlink).foldl (manifest.withLink keep) (manifest.fileTree keep extent)

variable {manifest keep}

theorem mem_numbered {kind : EntryKind} {entry : Entry} {index : Nat} :
    (entry, index) ∈ manifest.numbered kind ↔
      manifest.entries[index]? = some entry ∧ entry.kind = kind := by
  rw [numbered, List.mem_filter, List.mk_mem_zipIdx_iff_getElem?, decide_eq_true_eq]

theorem pathOf_eq {index : Nat} {rel : List Bytes}
    (validated : manifest.validatedEntryPath index = .ok rel) : manifest.pathOf index = rel := by
  rw [pathOf, validated]

/-! ### What the trees keep -/

/-- A tree without links that has the kept directories. -/
structure Plain (manifest : Manifest) (keep : List Bytes → Bool) (tree : Disk Unit) : Prop where
  whole : World.Tree tree
  dirs : ∀ entry index rel, (entry, index) ∈ manifest.numbered .dir →
    manifest.validatedEntryPath index = .ok rel → keep rel = true → tree rel = some .dir
  bare : ∀ place, World.linkAt tree place = none

/-- A tree that has the kept directories, links that were checked and none above an entry. -/
structure Grown (manifest : Manifest) (keep : List Bytes → Bool) (tree : Disk Unit) : Prop where
  whole : World.Tree tree
  dirs : ∀ entry index rel, (entry, index) ∈ manifest.numbered .dir →
    manifest.validatedEntryPath index = .ok rel → keep rel = true → tree rel = some .dir
  bare : ∀ index above name rest, manifest.validatedEntryPath index = .ok (above ++ name :: rest) →
    World.linkAt tree above = none
  within : ∀ place text, World.linkAt tree place = some text →
    symlinkTargetWithinRoot place text = true

theorem Plain.grown {tree : Disk Unit} (plain : Plain manifest keep tree) :
    Grown manifest keep tree where
  whole := plain.whole
  dirs := plain.dirs
  bare _ above _ _ _ := plain.bare above
  within place text link := by
    rw [plain.bare place] at link
    cases link

theorem clear_of_bare {tree : Disk Unit} (bare : ∀ place, World.linkAt tree place = none)
    (follow : Bool) (rel : List Bytes) : World.Clear tree follow [] rel :=
  fun _ _ _ _ _ => bare _

theorem Grown.clear {tree : Disk Unit} (grown : Grown manifest keep tree) {index : Nat}
    {rel : List Bytes} (validated : manifest.validatedEntryPath index = .ok rel) :
    World.Clear tree false [] rel := by
  intro before part after same more
  rw [List.nil_append]
  cases after with
  | nil => exact absurd rfl (more.resolve_left Bool.false_ne_true)
  | cons next after =>
      rw [same, List.append_cons] at validated
      exact grown.bare index _ next after validated

theorem addDirs_of_ne {tree : Disk Unit} {rel place : List Bytes} (apart : ¬ place <+: rel) :
    tree.addDirs rel place = tree place := by
  rw [Disk.addDirs, if_neg apart]

theorem not_prefix_dropLast {rel : List Bytes} (named : rel ≠ []) : ¬ rel <+: rel.dropLast := by
  intro shorter
  have length := shorter.length_le
  have some := List.length_pos_iff.mpr named
  rw [List.length_dropLast] at length
  omega

theorem addDirs_dir {tree : Disk Unit} {place : List Bytes} (dir : tree place = some .dir)
    (rel : List Bytes) : tree.addDirs rel place = some .dir := by
  rw [Disk.addDirs]
  split
  · rfl
  · exact dir

theorem withEntry_dir {tree : Disk Unit} {place rel : List Bytes} {node : Node Bytes Unit}
    (dir : tree place = some .dir) (named : rel ≠ [])
    (vacant : tree.addDirs rel.dropLast rel ≠ some .dir) :
    withEntry tree rel node place = some .dir := by
  have other : place ≠ rel := by
    intro same
    apply vacant
    rw [addDirs_of_ne (not_prefix_dropLast named), ← same]
    exact dir
  rw [withEntry, Function.update_of_ne other]
  exact addDirs_dir dir _

theorem addDirs_tree {tree : Disk Unit} (whole : World.Tree tree) (rel : List Bytes) :
    World.Tree (tree.addDirs rel) where
  root := addDirs_dir whole.root rel
  parents place part there := by
    rw [Disk.addDirs] at there
    split at there
    · next above => rw [Disk.addDirs, if_pos ((List.prefix_append place [part]).trans above)]
    · exact addDirs_dir (whole.parents place part there) rel

theorem withEntry_tree {tree : Disk Unit} {rel : List Bytes} {node : Node Bytes Unit}
    (whole : World.Tree tree) (named : rel ≠ [])
    (vacant : tree.addDirs rel.dropLast rel ≠ some .dir) : World.Tree (withEntry tree rel node) where
  root := withEntry_dir whole.root named vacant
  parents place part there := by
    have dir : tree.addDirs rel.dropLast place = some .dir := by
      rw [withEntry] at there
      by_cases same : place ++ [part] = rel
      · rw [← same, List.dropLast_concat, Disk.addDirs, if_pos (List.prefix_refl place)]
      · rw [Function.update_of_ne same] at there
        exact (addDirs_tree whole rel.dropLast).parents place part there
    have other : place ≠ rel := fun same => vacant (same ▸ dir)
    rw [withEntry, Function.update_of_ne other]
    exact dir

theorem Plain.withEntry {tree : Disk Unit} (plain : Plain manifest keep tree) {rel : List Bytes}
    (named : rel ≠ []) (vacant : tree.addDirs rel.dropLast rel ≠ some .dir) :
    Plain manifest keep (withEntry tree rel (.file ())) where
  whole := withEntry_tree plain.whole named vacant
  dirs entry index path member validated kept :=
    withEntry_dir (plain.dirs entry index path member validated kept) named vacant
  bare place := by
    rw [Manifest.withEntry]
    by_cases same : place = rel
    · rw [World.linkAt, same, Function.update_self]
      rfl
    · have elsewhere := linkAt_addDirs rel.dropLast (plain.bare place)
      rw [World.linkAt] at elsewhere ⊢
      rw [Function.update_of_ne same]
      exact elsewhere

/-- A kept link does not come to stand above an entry: what stands there is a kept directory. -/
theorem Grown.withEntry (valid : manifest.Valid) {tree : Disk Unit}
    (grown : Grown manifest keep tree) {rel : List Bytes} (text : Bytes) (named : rel ≠ [])
    (kept : keep rel = true) (checked : symlinkTargetWithinRoot rel text = true)
    (vacant : tree.addDirs rel.dropLast rel ≠ some .dir) :
    Grown manifest keep (withEntry tree rel (.link text)) where
  whole := withEntry_tree grown.whole named vacant
  dirs entry index path member validated kept :=
    withEntry_dir (grown.dirs entry index path member validated kept) named vacant
  bare index above name rest validated := by
    rw [Manifest.withEntry]
    by_cases same : above = rel
    · exfalso
      rw [same] at validated
      obtain ⟨place, parent, held, dir, path⟩ := dir_above_entry valid validated rfl named
      apply vacant
      rw [addDirs_of_ne (not_prefix_dropLast named)]
      exact grown.dirs parent place rel (mem_numbered.mpr ⟨held, dir⟩) path kept
    · have elsewhere := linkAt_addDirs rel.dropLast
        (grown.bare index above name rest validated)
      rw [World.linkAt] at elsewhere ⊢
      rw [Function.update_of_ne same]
      exact elsewhere

  within place target link := by
    rw [Manifest.withEntry, World.linkAt] at link
    by_cases same : place = rel
    · rw [same, Function.update_self] at link
      rw [same, ← Option.some.inj link]
      exact checked
    · rw [Function.update_of_ne same] at link
      apply grown.within place target
      cases old : World.linkAt tree place with
      | none =>
          have elsewhere := linkAt_addDirs rel.dropLast old
          rw [World.linkAt, link] at elsewhere
          cases elsewhere
      | some other =>
          rw [Disk.addDirs] at link
          split at link
          · cases link
          · rw [← old, World.linkAt]
            exact link

theorem withDir_dir {tree : Disk Unit} {place : List Bytes} (dir : tree place = some .dir)
    (entry : Entry × Nat) : manifest.withDir keep tree entry place = some .dir := by
  rw [withDir]
  split
  · exact dir
  · exact addDirs_dir dir _

theorem withDir_tree {tree : Disk Unit} (whole : World.Tree tree) (entry : Entry × Nat) :
    World.Tree (manifest.withDir keep tree entry) := by
  rw [withDir]
  split
  · exact whole
  · exact addDirs_tree whole _

theorem withDir_bare {tree : Disk Unit} (bare : ∀ place, World.linkAt tree place = none)
    (entry : Entry × Nat) (place : List Bytes) :
    World.linkAt (manifest.withDir keep tree entry) place = none := by
  rw [withDir]
  split
  · exact bare place
  · exact linkAt_addDirs _ (bare place)

/-- The directories alone, as far as they have been made. -/
theorem dirs_plain (manifest : Manifest) (keep : List Bytes → Bool) (entries : List (Entry × Nat)) :
    (World.Tree (entries.foldl (manifest.withDir keep) emptyTree) ∧
      ∀ place, World.linkAt (entries.foldl (manifest.withDir keep) emptyTree) place = none) ∧
    ∀ entry ∈ entries, keep (manifest.pathOf entry.2) = true →
      entries.foldl (manifest.withDir keep) emptyTree (manifest.pathOf entry.2) = some .dir := by
  induction entries using List.reverseRecOn with
  | nil =>
      refine ⟨⟨⟨rfl, fun place part there => ?_⟩, fun place => ?_⟩,
        fun entry member => absurd member List.not_mem_nil⟩
      · rw [List.foldl_nil, emptyTree, if_neg (by simp)] at there
        exact absurd rfl there
      · rw [List.foldl_nil, World.linkAt, emptyTree]
        split <;> rfl
  | append_singleton entries entry ih =>
      rw [List.foldl_append, List.foldl_cons, List.foldl_nil]
      refine ⟨⟨withDir_tree ih.1.1 entry, withDir_bare ih.1.2 entry⟩, fun other member kept => ?_⟩
      rcases List.mem_append.mp member with before | last
      · exact withDir_dir (ih.2 other before kept) entry
      · rw [List.mem_singleton.mp last] at kept ⊢
        rw [withDir]
        split
        · next skipped =>
            rw [kept, Bool.not_true, Bool.or_false, List.isEmpty_iff] at skipped
            rw [skipped]
            exact ih.1.1.root
        · rw [Disk.addDirs, if_pos (List.prefix_refl _)]

theorem dirTree_plain : Plain manifest keep (manifest.dirTree keep) where
  whole := (dirs_plain manifest keep _).1.1
  dirs entry index rel member validated kept := by
    rw [← pathOf_eq validated] at kept ⊢
    exact (dirs_plain manifest keep _).2 (entry, index) member kept
  bare := (dirs_plain manifest keep _).1.2

end Manifest

end Onelf.Format
