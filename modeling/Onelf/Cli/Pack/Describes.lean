import Onelf.Cli.Pack.Packed

/-! When a packed manifest describes the tree that was packed. -/

namespace Onelf.Cli.Pack

open Onelf.Lib hiding Holds
open Onelf.Format hiding joinPath
open Onelf.Runtime (EntryKind)

/-- What a manifest says of an entry, and a tree of what it has: a link's target, a file's hash. -/
@[ext] structure Description where
  path : Bytes
  kind : EntryKind
  target : Bytes
  contentHash : Digest
  deriving DecidableEq

def describe (manifest : Manifest) (index : Nat) (entry : Entry) : Description :=
  ⟨manifest.entryPath index, entry.kind, manifest.getString entry.symlinkTarget, entry.contentHash⟩

/-- Every entry but the root. -/
def entryDescriptions (manifest : Manifest) : List Description :=
  (manifest.entries.zipIdx.drop 1).map fun entry => describe manifest entry.2 entry.1

def Collected.descriptions (host : Host) (collected : Collected) : List Description :=
  collected.dirs.map (fun dir => ⟨joinPath dir.relPath, .dir, [], zeroDigest⟩) ++
    collected.files.map (fun file =>
      ⟨joinPath file.relPath, .file, [], host.blake3 file.content⟩) ++
    collected.symlinks.map fun symlink =>
      ⟨joinPath symlink.relPath, .symlink, symlink.target, zeroDigest⟩

/-- No path stands twice in the manifest, and what it describes is what there is. -/
structure DescribesTree (host : Host) (manifest : Manifest) (collected : Collected) : Prop where
  distinct : ((entryDescriptions manifest).map Description.path).Nodup
  same : ∀ description, description ∈ entryDescriptions manifest ↔
    description ∈ collected.descriptions host

/-- Nothing collected lies below a directory skipped for its name, nor in an injected file's way. -/
structure Undisturbed (opts : PackOptions) (host : Host) (tree : Tree) : Prop
    extends Unshadowed opts host tree where
  clear : ∀ path ∈ (collect opts host tree).paths, clearOfScratch path = true

def Item.description (item : Item) : Description :=
  ⟨joinPath item.relPath, item.kind, item.target.getD [], item.contentHash⟩

section
variable {opts : PackOptions} {host : Host} {tree : Tree} {manifest : Manifest}
  {files : List CompressedFile}

theorem getElem?_entryDescriptions (manifest : Manifest) (index : Nat) :
    (entryDescriptions manifest)[index]? =
      manifest.entries[index + 1]?.map (describe manifest (index + 1)) := by
  rw [entryDescriptions, List.getElem?_map, List.getElem?_drop, List.getElem?_zipIdx, Option.map_map,
    Nat.zero_add, Nat.add_comm]
  rfl

/-- A manifest that describes the tree has nothing below a skipped directory. -/
theorem Packs.clear_of_describes (packs : Packs opts host tree manifest files)
    (describes : DescribesTree host manifest (shipped opts host tree)) :
    ∀ path ∈ (shipped opts host tree).paths, clearOfScratch path = true := by
  intro path member
  have described : ∃ description : Description,
      description ∈ (shipped opts host tree).descriptions host ∧
        description.path = joinPath path := by
    rcases Collected.mem_paths.mp member with ⟨file, within, same⟩ | ⟨dir, within, same⟩ |
      ⟨symlink, within, same⟩
    · exact ⟨_, List.mem_append_left _ (List.mem_append_right _ (List.mem_map_of_mem within)),
        congrArg joinPath same⟩
    · exact ⟨_, List.mem_append_left _ (List.mem_append_left _ (List.mem_map_of_mem within)),
        congrArg joinPath same⟩
    · exact ⟨_, List.mem_append_right _ (List.mem_map_of_mem within), congrArg joinPath same⟩
  rcases described with ⟨description, within, placed⟩
  rcases List.mem_iff_getElem?.mp ((describes.same description).mpr within) with ⟨index, found⟩
  rw [getElem?_entryDescriptions] at found
  rcases Option.map_eq_some_iff.mp found with ⟨entry, _, same⟩
  rw [← same] at placed
  refine packs.clear_of_parts (joinPath_injective ?_ (shipped_proper member).2 placed)
  exact packs.listed.parts_safe packs.proper (index + 1)

/-- A link's target has no NUL. -/
theorem item_target {item : Item} (member : item ∈ itemsOf (shipped opts host tree) files)
    {target : Bytes} (aim : item.target = some target) : 0 ∉ target := by
  rcases List.mem_append.mp member with either | link
  · rcases List.mem_append.mp either with dir | file
    · rcases List.mem_map.mp dir with ⟨dir, _, same⟩
      rw [← same] at aim
      cases aim
    · rcases List.mem_map.mp file with ⟨file, _, same⟩
      rw [← same] at aim
      cases aim
  · rcases List.mem_map.mp link with ⟨symlink, within, same⟩
    rcases shipped_additions opts host tree with ⟨injected, made, additions⟩
    rw [additions.symlinks] at within
    rcases mem_collect_symlinks within with ⟨entry, there, _, node, _⟩
    rw [← same] at aim
    cases aim
    exact tree.targets entry there _ (by rw [node]; rfl)

/-- Clear of skipped names, each entry describes its item. -/
theorem Packs.entryDescriptions_eq (packs : Packs opts host tree manifest files)
    (clear : ∀ path ∈ (shipped opts host tree).paths, clearOfScratch path = true) :
    entryDescriptions manifest =
      (itemsOf (shipped opts host tree) files).map Item.description := by
  apply List.ext_getElem?
  intro index
  rw [getElem?_entryDescriptions, List.getElem?_map]
  cases found : (itemsOf (shipped opts host tree) files)[index]? with
  | none =>
      have outside := List.getElem?_eq_none_iff.mp found
      rw [List.getElem?_eq_none (by rw [packs.listed.length]; omega)]
      rfl
  | some item =>
      have member := List.mem_of_getElem? found
      have here := (mem_itemsOf packs.paths).mp ⟨item, member, rfl⟩
      rcases packs.listed.entered index item found with ⟨entry, there, entered⟩
      have target : manifest.getString entry.symlinkTarget = item.target.getD [] := by
        have aimed := entered.target
        cases aim : item.target with
        | none =>
            rw [aim] at aimed
            rw [show entry.symlinkTarget = 0 from aimed, packs.listed.root_name]
            rfl
        | some target =>
            rw [aim] at aimed
            exact (HoldsText.getString aimed).trans (cutNul_of_not_mem (item_target member aim))
      rw [there, Option.map_some, Option.map_some, describe, Item.description,
        Manifest.entryPath_eq, packs.parts_item found (clear _ here), entered.kind, target,
        entered.contentHash]

/-- Then a path stands twice only where it is shipped twice. -/
theorem Packs.distinct_iff (packs : Packs opts host tree manifest files)
    (clear : ∀ path ∈ (shipped opts host tree).paths, clearOfScratch path = true) :
    ((entryDescriptions manifest).map Description.path).Nodup ↔
      (shipped opts host tree).paths.Nodup := by
  have paths : (entryDescriptions manifest).map Description.path =
      ((itemsOf (shipped opts host tree) files).map Item.relPath).map joinPath := by
    rw [packs.entryDescriptions_eq clear, List.map_map, List.map_map]
    rfl
  rw [paths, ← (itemsOf_paths packs.paths).nodup_iff]
  constructor
  · exact List.Nodup.of_map joinPath
  · intro distinct
    refine List.Nodup.map_on (fun path member other also same => ?_) distinct
    have safe {path : RelPath} (member : path ∈
        (itemsOf (shipped opts host tree) files).map Item.relPath) :=
      (shipped_proper ((itemsOf_paths packs.paths).mem_iff.mp member)).2
    exact joinPath_injective (safe member) (safe also) same

/-- The items are the shipped tree's own, each file under the hash of its content. -/
theorem Packs.descriptions_perm (packs : Packs opts host tree manifest files)
    (faithful : ImageFaithful host) (distinct : (shipped opts host tree).paths.Nodup) :
    ((itemsOf (shipped opts host tree) files).map Item.description).Perm
      ((shipped opts host tree).descriptions host) := by
  have built : files.map (fun file => (fileItem file).description) =
      (shipped opts host tree).files.map fun file =>
        ⟨joinPath file.relPath, .file, [], host.blake3 file.content⟩ := by
    refine (List.forall₂_eq_eq_eq ▸ (List.forall₂_map_left_iff.mpr
      (List.forall₂_map_right_iff.mpr ((packs.hashed faithful distinct).flip.imp ?_))) :)
    intro compressed file stands
    rw [Item.description, fileItem, stands.relPath, stands.contentHash]
    rfl
  rw [itemsOf, Collected.descriptions, List.map_append, List.map_append, List.map_map,
    List.map_map, List.map_map]
  refine List.Perm.append_right _ (List.Perm.append ?_ (List.Perm.of_eq built))
  exact (sortByKey_perm _ _).map _

/-- The manifest describes the tree that was packed exactly where the walk skipped no directory above
what it collected and no injected file stands where something was collected. -/
theorem pack_describes_iff (opts : PackOptions) (host : Host) (tree : Tree)
    (faithful : ImageFaithful host) (addressable : Addressable opts host tree) {packed : Packed}
    (ran : pack opts host tree = some packed) :
    DescribesTree host packed.manifest (shipped opts host tree) ↔ Undisturbed opts host tree := by
  rcases pack_packs ran addressable with ⟨payloaded, _, packs⟩
  have collected {path : RelPath} (member : path ∈ (collect opts host tree).paths) :
      path ∈ (shipped opts host tree).paths := by
    rcases shipped_additions opts host tree with ⟨injected, made, additions⟩
    exact additions.mem_paths.mpr (Or.inl member)
  constructor
  · intro describes
    have clear := packs.clear_of_describes describes
    have distinct := (packs.distinct_iff clear).mp describes.distinct
    exact ⟨(shipped_nodup_iff packs.packable).mp distinct, fun path member =>
      clear path (collected member)⟩
  · intro undisturbed
    have clear := shipped_clear undisturbed.clear
    have distinct := (shipped_nodup_iff packs.packable).mpr undisturbed.toUnshadowed
    refine ⟨(packs.distinct_iff clear).mpr distinct, fun description => ?_⟩
    rw [packs.entryDescriptions_eq clear]
    exact (packs.descriptions_perm faithful distinct).mem_iff

end

/-! ### A directory with a scratch name -/

/-- A file below a directory that has a scratch file's name. -/
def scratchTree : Tree where
  entries := [plainEntry ["app"] (.file [1]), plainEntry ["x.onelf-1.tmp"] .dir,
    plainEntry ["x.onelf-1.tmp", "lib"] (.file [2])]
  output := none
  distinct := by decide +kernel
  named := by decide +kernel
  parents := by decide +kernel
  targets := by decide +kernel

def scratchHost : Host :=
  plainHost 0x9e210f1672ce86da759a8214b6c711daf357fc052712de9ea6071a8e3e877900
    0xaec6574419dbf0b8ed51cbaca5879a054465ec1c4b1e888fa1d34c041ce162b8 0xd33c7d82

theorem scratchTree_addressable : Addressable plainOptions scratchHost scratchTree :=
  ⟨by decide +kernel, by decide +kernel⟩

/-- The file is packed all the same, at the root. -/
theorem pack_moves_file : ¬∀ (opts : PackOptions) (host : Host) (tree : Tree) (packed : Packed),
    ImageFaithful host → Addressable opts host tree → pack opts host tree = some packed →
      DescribesTree host packed.manifest (shipped opts host tree) := by
  intro describes
  have packs : (pack plainOptions scratchHost scratchTree).isSome = true := by decide +kernel
  rcases Option.isSome_iff_exists.mp packs with ⟨packed, ran⟩
  have described := describes plainOptions scratchHost scratchTree packed
    (plainHost_faithful _ _ _) scratchTree_addressable ran
  rcases pack_packs ran scratchTree_addressable with ⟨payloaded, _, listed⟩
  have clear := listed.clear_of_describes described [utf8 "x.onelf-1.tmp", utf8 "lib"]
    (by decide +kernel)
  have below : clearOfScratch [utf8 "x.onelf-1.tmp", utf8 "lib"] = false := by decide +kernel
  rw [below] at clear
  cases clear

def plainTree : Tree where
  entries := [plainEntry ["app"] (.file [1])]
  output := none
  distinct := by decide +kernel
  named := by decide +kernel
  parents := by decide +kernel
  targets := by decide +kernel

def appHost : Host :=
  plainHost 0x46e40667fd1472b14d4fd2a1ea599126e7d05c08727135b0a1ff5773d1db69b0
    0x6af524c4dcf6ab981271659e27804db8043750ea39feb6d1948b135dbcd024d3 0xd7a0fe35

theorem plainTree_packed : (pack plainOptions appHost plainTree).isSome = true := by decide +kernel

theorem plainTree_addressable : Addressable plainOptions appHost plainTree :=
  ⟨by decide +kernel, by decide +kernel⟩

theorem pack_describes_plain :
    DescribesTree appHost ((pack plainOptions appHost plainTree).get plainTree_packed).manifest
        (shipped plainOptions appHost plainTree) ↔
      Undisturbed plainOptions appHost plainTree :=
  pack_describes_iff plainOptions appHost plainTree (plainHost_faithful _ _ _)
    plainTree_addressable (Option.some_get plainTree_packed).symm

end Onelf.Cli.Pack
