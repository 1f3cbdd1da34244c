import Mathlib.Data.List.DropRight
import Onelf.Cli.Pack.Paths
import Onelf.Cli.Pack.Shipped

/-! What a successful pack has written: an entry for each shipped path, below the directories that
are shipped too. -/

namespace Onelf.Cli.Pack

open Onelf.Lib hiding Holds
open Onelf.Format

section
variable {opts : PackOptions} {host : Host} {tree : Tree}

/-- What stands behind a package that was written. -/
structure PackedFrom (opts : PackOptions) (host : Host) (tree : Tree) (packed : Packed)
    (payloaded : Payloaded) : Prop where
  packable : Packable opts host tree
  accepted : entrypointsAccepted opts (shipped opts host tree) = true
  payload : writePayload opts host (shipped opts host tree).files = some payloaded
  manifest : manifestOf opts host (resolveLibDirs opts host tree) (shipped opts host tree)
    payloaded.files = some packed.manifest
  bytes : ∃ packageId footerHash,
    packed.manifestBytes = bodyBytes (packed.manifest.sealed packageId footerHash)

theorem pack_from {packed : Packed} (ran : pack opts host tree = some packed) :
    ∃ payloaded, PackedFrom opts host tree packed payloaded := by
  simp only [pack, Option.bind_eq_bind, Option.bind_eq_some_iff, Option.guard_eq_some'] at ran
  rcases ran with ⟨_, _, _, free, _, accepted, payloaded, payload, manifest, made, compressed, _, _,
    output, built⟩
  rw [Option.isNone_iff_eq_none] at free
  rw [Bool.not_eq_true'] at output
  cases built
  exact ⟨payloaded, ⟨free, output⟩, accepted, payload, made,
    _, _, Manifest.overwrite_serialize manifest _ _⟩

/-- The items a package's entries were made of. -/
theorem itemsOf_paths {collected : Collected} {files : List CompressedFile}
    (paths : files.map CompressedFile.relPath = collected.files.map CollectedFile.relPath) :
    ((itemsOf collected files).map Item.relPath).Perm collected.paths := by
  have dirs : ((sortedDirs collected.dirs).map fun dir => dir.relPath).Perm
      (collected.dirs.map CollectedDir.relPath) := (sortByKey_perm _ _).map _
  have split : (itemsOf collected files).map Item.relPath =
      (sortedDirs collected.dirs).map (fun dir => dir.relPath) ++
        collected.files.map CollectedFile.relPath ++
          collected.symlinks.map CollectedSymlink.relPath := by
    rw [← paths, itemsOf, List.map_append, List.map_append, List.map_map, List.map_map,
      List.map_map]
    rfl
  rw [split, Collected.paths]
  refine List.Perm.append_right _ ?_
  exact (List.Perm.append_right _ dirs).trans List.perm_append_comm

theorem mem_itemsOf {collected : Collected} {files : List CompressedFile}
    (paths : files.map CompressedFile.relPath = collected.files.map CollectedFile.relPath)
    {path : RelPath} :
    (∃ item ∈ itemsOf collected files, item.relPath = path) ↔ path ∈ collected.paths := by
  rw [← (itemsOf_paths paths).mem_iff, List.mem_map]

theorem stands_paths {hash : CollectedFile → Digest} {files : List CollectedFile}
    {built : List CompressedFile}
    (stands : List.Forall₂ (fun file compressed => Stands (hash file) file compressed) files built) :
    built.map CompressedFile.relPath = files.map CollectedFile.relPath := by
  induction stands with
  | nil => rfl
  | cons first _ ih => rw [List.map_cons, List.map_cons, ih, first.relPath]

/-- Directories come first, then the files in order, then the links. -/
theorem itemsOf_place {collected : Collected} {files : List CompressedFile} {index : Nat}
    {item : Item} (found : (itemsOf collected files)[index]? = some item) :
    (index < collected.dirs.length ∧ ∃ dir ∈ collected.dirs, item = dirItem dir) ∨
      (∃ place file, index = collected.dirs.length + place ∧ files[place]? = some file ∧
        item = fileItem file) ∨
      (collected.dirs.length + files.length ≤ index ∧
        ∃ symlink ∈ collected.symlinks, item = symlinkItem symlink) := by
  have count : ((sortedDirs collected.dirs).map dirItem).length = collected.dirs.length := by
    rw [List.length_map]
    exact (sortByKey_perm _ _).length_eq
  rw [itemsOf, List.append_assoc] at found
  rcases Nat.lt_or_ge index collected.dirs.length with first | later
  · rw [List.getElem?_append_left (count ▸ first)] at found
    rcases List.mem_map.mp (List.mem_of_getElem? found) with ⟨dir, member, same⟩
    exact Or.inl ⟨first, dir, (sortByKey_perm _ _).mem_iff.mp member, same.symm⟩
  · rw [List.getElem?_append_right (count ▸ later), count] at found
    rcases Nat.lt_or_ge (index - collected.dirs.length) files.length with second | last
    · rw [List.getElem?_append_left (by rw [List.length_map]; exact second), List.getElem?_map,
        List.getElem?_eq_getElem second] at found
      exact Or.inr (Or.inl ⟨index - collected.dirs.length, _, by omega,
        List.getElem?_eq_getElem second, (Option.some.inj found).symm⟩)
    · rw [List.getElem?_append_right (by rw [List.length_map]; exact last)] at found
      rcases List.mem_map.mp (List.mem_of_getElem? found) with ⟨symlink, member, same⟩
      exact Or.inr (Or.inr ⟨by omega, symlink, member, same.symm⟩)

theorem itemsOf_fileItem {collected : Collected} {files : List CompressedFile} {place : Nat}
    {file : CompressedFile} (found : files[place]? = some file) :
    (itemsOf collected files)[collected.dirs.length + place]? = some (fileItem file) := by
  have inside := (List.getElem?_eq_some_iff.mp found).1
  have count : ((sortedDirs collected.dirs).map dirItem).length = collected.dirs.length := by
    rw [List.length_map]
    exact (sortByKey_perm _ _).length_eq
  rw [itemsOf, List.append_assoc, List.getElem?_append_right (by omega), count,
    Nat.add_sub_cancel_left, List.getElem?_append_left (by rw [List.length_map]; exact inside),
    List.getElem?_map, found]
  rfl

/-- Directories come first, and the shallower before the deeper. -/
theorem dir_before {collected : Collected} {files : List CompressedFile} {index : Nat}
    {item : Item} (found : (itemsOf collected files)[index]? = some item) {dir : CollectedDir}
    (member : dir ∈ collected.dirs) (shallower : dir.relPath.length < item.relPath.length) :
    dirItem dir ∈ (itemsOf collected files).take index := by
  have listed : dir ∈ sortedDirs collected.dirs := (sortByKey_perm _ _).mem_iff.mpr member
  rcases List.getElem?_of_mem listed with ⟨place, there⟩
  have inside : place < (sortedDirs collected.dirs).length := (List.getElem?_eq_some_iff.mp there).1
  have at_place : (itemsOf collected files)[place]? = some (dirItem dir) := by
    rw [itemsOf, List.append_assoc,
      List.getElem?_append_left (by rw [List.length_map]; exact inside), List.getElem?_map, there]
    rfl
  have before : place < index := by
    by_contra late
    have early : index < (sortedDirs collected.dirs).length := by omega
    rw [itemsOf, List.append_assoc,
      List.getElem?_append_left (by rw [List.length_map]; exact early), List.getElem?_map,
      List.getElem?_eq_getElem early, Option.map_some] at found
    have ascending := sortByKey_ascending (fun dir : CollectedDir => dir.relPath.length)
      collected.dirs
    have same := (List.getElem?_eq_some_iff.mp there).2
    have less : (sortedDirs collected.dirs)[index].relPath.length ≤ dir.relPath.length := by
      rcases Nat.lt_or_ge index place with strictly | equal
      · have pair := List.pairwise_iff_getElem.mp ascending index place early inside strictly
        exact same ▸ pair
      · have here : index = place := by omega
        subst here
        rw [same]
    rw [← Option.some.inj found] at shallower
    exact absurd shallower (Nat.not_lt.mpr less)
  exact List.mem_of_getElem? (by rw [List.getElem?_take_of_lt before]; exact at_place)

theorem itemsOf_parentsFirst (packable : Packable opts host tree) {files : List CompressedFile}
    (paths : files.map CompressedFile.relPath =
      (shipped opts host tree).files.map CollectedFile.relPath) :
    ParentsFirst (itemsOf (shipped opts host tree) files) := by
  intro index item found other member same
  have here := (mem_itemsOf paths).mp ⟨item, List.mem_of_getElem? found, rfl⟩
  have there := (mem_itemsOf paths).mp ⟨other, member, rfl⟩
  have proper := shipped_proper here
  have deep := (shipped_proper there).1
  have last := shipped_last there
  rw [same] at deep last
  have shorter : item.relPath.dropLast.length < item.relPath.length := by
    have long := List.length_pos_of_ne_nil proper.1
    rw [List.length_dropLast]
    omega
  have strict : item.relPath.dropLast ≠ item.relPath := fun whole => by
    rw [whole] at shorter
    exact Nat.lt_irrefl _ shorter
  rcases shipped_above packable here (List.dropLast_prefix _) deep strict last with
    ⟨dir, within, path⟩
  exact ⟨dirItem dir, dir_before found within (path ▸ shorter), path⟩

/-- Every string and every entry of the package has a 32-bit place of its own. -/
structure Addressable (opts : PackOptions) (host : Host) (tree : Tree) : Prop where
  strings : (StringTableBuilder.new.addAll (packedTexts opts (shipped opts host tree)
    (resolveLibDirs opts host tree))).data.length < 2 ^ 32
  entries : (shipped opts host tree).paths.length + 1 < 2 ^ 32

/-- The manifest of a package, and the items it lists. -/
structure Packs (opts : PackOptions) (host : Host) (tree : Tree) (manifest : Manifest)
    (files : List CompressedFile) : Prop where
  packable : Packable opts host tree
  accepted : entrypointsAccepted opts (shipped opts host tree) = true
  paths : files.map CompressedFile.relPath =
    (shipped opts host tree).files.map CollectedFile.relPath
  few : (itemsOf (shipped opts host tree) files).length + 1 < 2 ^ 32
  strings : manifest.stringTable.length < 2 ^ 32
  assembled : Assembled (itemsOf (shipped opts host tree) files) (tableRows opts)
    (resolveLibDirs opts host tree) manifest
  proper : ∀ item ∈ itemsOf (shipped opts host tree) files, ProperPath item.relPath
  fits : ∀ file ∈ files, ∀ block ∈ file.blocks, BlockFits manifestVersion block
  hashed : ImageFaithful host → (shipped opts host tree).paths.Nodup →
    List.Forall₂ (fun file built => Stands (host.blake3 file.content) file built)
      (shipped opts host tree).files files

theorem PackedFrom.packs {packed : Packed} {payloaded : Payloaded}
    (origin : PackedFrom opts host tree packed payloaded)
    (addressable : Addressable opts host tree) :
    Packs opts host tree packed.manifest payloaded.files := by
  rcases writePayload_stands origin.payload with ⟨hash, stands, hashed⟩
  have paths := stands_paths stands
  have few : (itemsOf (shipped opts host tree) payloaded.files).length + 1 < 2 ^ 32 := by
    have length := (itemsOf_paths paths).length_eq
    rw [List.length_map] at length
    rw [length]
    exact addressable.entries
  have small : packed.manifest.stringTable.length < 2 ^ 32 := by
    rw [manifestOf_stringTable paths origin.manifest]
    exact addressable.strings
  refine ⟨origin.packable, origin.accepted, paths, few, small,
    manifestOf_assembled origin.manifest small few, ?_, ?_, ?_⟩
  · intro item member
    exact shipped_proper ((mem_itemsOf paths).mp ⟨item, member, rfl⟩)
  · intro file member
    rcases List.mem_iff_getElem.mp member with ⟨index, inside, same⟩
    have pair := (List.forall₂_iff_get.mp stands).2 index
      (by rw [(List.forall₂_iff_get.mp stands).1]; exact inside) inside
    exact same ▸ pair.fits
  · intro faithful distinct
    have files : ((shipped opts host tree).files.map CollectedFile.relPath).Nodup := by
      rw [Collected.paths, List.nodup_append, List.nodup_append] at distinct
      exact distinct.1.1
    have hashes := hashed faithful files
    refine List.forall₂_iff_get.mpr ⟨(List.forall₂_iff_get.mp stands).1, fun index inside also => ?_⟩
    rw [← hashes _ (List.get_mem _ ⟨index, inside⟩)]
    exact (List.forall₂_iff_get.mp stands).2 index inside also

theorem pack_packs {packed : Packed} (ran : pack opts host tree = some packed)
    (addressable : Addressable opts host tree) :
    ∃ payloaded, writePayload opts host (shipped opts host tree).files = some payloaded ∧
      Packs opts host tree packed.manifest payloaded.files := by
  rcases pack_from ran with ⟨payloaded, origin⟩
  exact ⟨payloaded, origin.payload, origin.packs addressable⟩

/-! ### Where entries stand -/

variable {manifest : Manifest} {files : List CompressedFile}

theorem Packs.listed (packs : Packs opts host tree manifest files) :
    Listed manifest.stringTable manifest.entries (itemsOf (shipped opts host tree) files) :=
  packs.assembled.listed

/-- Where an entry of the path stands: below the last directory above it that was skipped for its
name. -/
def landing (path : RelPath) : RelPath :=
  path.dropLast.rtakeWhile (fun name => !isScratchName (lossy name)) ++ [path.getLastD []]

theorem landing_eq_self_iff {path : RelPath} (proper : ProperPath path) :
    landing path = path ↔ clearOfScratch path = true := by
  have whole : landing path = path ↔
      path.dropLast.rtakeWhile (fun name => !isScratchName (lossy name)) = path.dropLast := by
    rw [landing]
    nth_rewrite 3 [proper.split]
    exact List.append_left_inj _
  rw [whole, List.rtakeWhile_eq_self_iff, clearOfScratch, List.all_eq_true]

/-- A path's parent is an item, unless it was skipped for its name. -/
theorem Packs.parent_item (packs : Packs opts host tree manifest files) {item : Item}
    (member : item ∈ itemsOf (shipped opts host tree) files) (deep : item.relPath.dropLast ≠ [])
    (clear : isScratchName (lossy (item.relPath.dropLast.getLastD [])) = false) :
    ∃ other ∈ itemsOf (shipped opts host tree) files, other.relPath = item.relPath.dropLast := by
  have here := (mem_itemsOf packs.paths).mp ⟨item, member, rfl⟩
  have strict : item.relPath.dropLast ≠ item.relPath := by
    intro same
    have shorter := congrArg List.length same
    have long := List.length_pos_of_ne_nil (packs.proper item member).1
    rw [List.length_dropLast] at shorter
    omega
  rcases shipped_above packs.packable here (List.dropLast_prefix _) deep strict clear with
    ⟨dir, within, same⟩
  exact (mem_itemsOf packs.paths).mpr
    (Collected.mem_paths.mpr (Or.inr (Or.inl ⟨dir, within, same⟩)))

theorem Packs.parts_landing (packs : Packs opts host tree manifest files) {index : Nat}
    {item : Item} (found : (itemsOf (shipped opts host tree) files)[index]? = some item) :
    manifest.parts (index + 1) = landing item.relPath := by
  induction index using Nat.strong_induction_on generalizing item with
  | _ index ih =>
      have member := List.mem_of_getElem? found
      rw [packs.listed.parts_item packs.proper packs.few found, landing]
      refine congrArg (· ++ _) ?_
      cases place : lastIndex ((itemsOf (shipped opts host tree) files).take index)
          item.relPath.dropLast with
      | none =>
          -- The parent has no entry, and the root stands in for it.
          rcases lastIndex_eq_none.mp place with ⟨deep, absent⟩
          rw [Option.getD_none, packs.listed.parts_root]
          refine (List.rtakeWhile_eq_nil_iff.mpr fun some => ?_).symm
          intro clear
          have last : item.relPath.dropLast.getLastD [] = item.relPath.dropLast.getLast some := by
            rw [List.getLastD_eq_getLast?, List.getLast?_eq_some_getLast some, Option.getD_some]
          rw [← last, Bool.not_eq_true'] at clear
          rcases packs.parent_item member deep clear with ⟨other, within, same⟩
          rcases itemsOf_parentsFirst packs.packable packs.paths index item found other within
            same with ⟨earlier, before, same⟩
          exact absent earlier before same
      | some parent =>
          rcases lastIndex_eq_some place with top | ⟨place, other, next, there, same, _⟩
          · rw [top.1, top.2]
            exact packs.listed.parts_root
          · have inside := (List.getElem?_eq_some_iff.mp there).1
            have earlier : place < index := by
              rw [List.length_take] at inside
              omega
            rw [List.getElem?_take_of_lt earlier] at there
            have proper := packs.proper other (List.mem_of_getElem? there)
            have last := shipped_last ((mem_itemsOf packs.paths).mp
              ⟨other, List.mem_of_getElem? there, rfl⟩)
            rw [Option.getD_some, next, ih place earlier there, landing, ← same]
            nth_rewrite 3 [proper.split]
            rw [List.rtakeWhile_concat_pos _ _ _ (by rw [last]; rfl)]

/-- An item clear of skipped names stands at its own path. -/
theorem Packs.parts_item (packs : Packs opts host tree manifest files) {index : Nat} {item : Item}
    (found : (itemsOf (shipped opts host tree) files)[index]? = some item)
    (clear : clearOfScratch item.relPath = true) : manifest.parts (index + 1) = item.relPath := by
  rw [packs.parts_landing found]
  exact (landing_eq_self_iff (packs.proper item (List.mem_of_getElem? found))).mpr clear

/-- Where an entry stands at a path, nothing above the path was skipped. -/
theorem Packs.clear_of_parts (packs : Packs opts host tree manifest files) {index : Nat}
    {path : RelPath} (stands : manifest.parts index = path) : clearOfScratch path = true := by
  refine clearOfScratch_iff.mpr fun name member => ?_
  have inside : name ∈ manifest.parts index := by
    rw [stands]
    exact List.mem_of_mem_dropLast member
  rcases packs.listed.mem_parts packs.proper inside with ⟨item, within, same⟩
  exact same ▸ shipped_last ((mem_itemsOf packs.paths).mp ⟨item, within, rfl⟩)

/-! ### Where entrypoints lead -/

theorem relPathOf_eq_some {path : Bytes} {rel : RelPath} (split : relPathOf path = some rel) :
    packageRelative path = rel.map .normal := by
  rw [relPathOf] at split
  generalize packageRelative path = whole at split
  induction whole generalizing rel with
  | nil =>
      cases split
      rfl
  | cons component rest ih =>
      simp only [List.mapM_cons, Option.bind_eq_bind, Option.bind_eq_some_iff] at split
      rcases split with ⟨name, here, names, later, built⟩
      cases component with
      | normal _ =>
          cases here
          cases built
          rw [ih later, List.map_cons]
      | _ => cases here

/-- Every row of the entrypoint table leads into the tree. -/
theorem tableRows_walked {collected : Collected} (accepted : entrypointsAccepted opts collected = true)
    {row : Declared} (member : row ∈ tableRows opts) : isWalked collected row.path = true := by
  rw [entrypointsAccepted, Bool.and_eq_true, Bool.and_eq_true] at accepted
  have declared := List.all_eq_true.mp accepted.2
  rcases List.mem_cons.mp member with first | other
  · rw [first, defaultRow]
    cases found : defaultDecl opts with
    | none => exact accepted.1.2
    | some row =>
        rcases Option.bind_eq_some_iff.mp found with ⟨name, _, named⟩
        exact declared row (List.mem_of_find?_eq_some named)
  · exact declared row (List.mem_of_mem_filter other)

theorem isWalked_iff {collected : Collected} {path : Text} : isWalked collected path = true ↔
    ∃ rel, relPathOf path.bytes = some rel ∧ rel ∈ collected.paths := by
  rw [isWalked, Option.any_eq_true]
  simp only [List.contains_eq_mem, decide_eq_true_eq]

/-- An entrypoint leads to an entry, which stands where its row's path lands. -/
theorem Packs.leads (packs : Packs opts host tree manifest files) {row : Declared}
    (member : row ∈ tableRows opts) {entrypoint : EntryPoint}
    (pointed : Pointed manifest.stringTable (itemsOf (shipped opts host tree) files) row entrypoint) :
    entrypoint.targetEntry < manifest.entries.length ∧
      ∃ rel, relPathOf row.path.bytes = some rel ∧ ProperPath rel ∧
        components (manifest.entryPath entrypoint.targetEntry) = (landing rel).map .normal := by
  rcases pointed.target with ⟨rel, split, placed⟩
  rcases isWalked_iff.mp (tableRows_walked packs.accepted member) with ⟨other, same, walked⟩
  rw [split, Option.some.injEq] at same
  rw [← same] at walked
  have proper := shipped_proper walked
  rcases lastIndex_eq_some placed with top | ⟨place, item, index, found, path, _⟩
  · exact absurd top.2 proper.1
  · have inside := (List.getElem?_eq_some_iff.mp found).1
    refine ⟨by rw [packs.listed.length]; omega, rel, split, proper, ?_⟩
    rw [index, Manifest.entryPath_eq,
      components_joinPath (packs.listed.parts_safe packs.proper (place + 1)),
      packs.parts_landing found, path]

/-- It stands at the row's own path where nothing above that path was skipped. -/
theorem Packs.target (packs : Packs opts host tree manifest files) {row : Declared}
    (member : row ∈ tableRows opts) {entrypoint : EntryPoint}
    (pointed : Pointed manifest.stringTable (itemsOf (shipped opts host tree) files) row entrypoint) :
    components (manifest.entryPath entrypoint.targetEntry) = packageRelative row.path.bytes ↔
      ∃ rel, relPathOf row.path.bytes = some rel ∧ clearOfScratch rel = true := by
  rcases packs.leads member pointed with ⟨_, rel, split, proper, leads⟩
  have names : Function.Injective Component.normal := fun _ _ => Component.normal.inj
  rw [leads, relPathOf_eq_some split, (List.map_injective_iff.mpr names).eq_iff,
    landing_eq_self_iff proper, split]
  simp only [Option.some.injEq, exists_eq_left']

end

/-! ### A small package -/

/-- One uncompressed program, launched as it is. -/
def plainOptions : PackOptions where
  command := lossyText (utf8 "app")
  name := none
  entrypoints := []
  defaultEntrypoint := none
  libDirs := []
  blockSize := minBlockSize
  payload := .blocks
  useDict := false
  noCompress := true
  memfd := none
  workingDir := .inherit
  hostLibs := .never
  cache := false
  preferCache := false
  updateUrl := none
  embedUpdater := true
  updateKey := none
  updateRevision := none
  updateUnsigned := false
  exclude := []
  packageInfo := none
  mtime := some 0
  env := []
  paths := []
  preload := []
  needsSetuid := false
  profile := []
  providerIndex := none
  runtimeRules := none
  entrypointSets := none

def plainHashes : List (Bytes × Nat) :=
  [([1], 0x2b6588a168150ab1982980347192ba25e21d67f17aa25f92e072c1bb1f72fc48),
    ([2], 0xd0255e1b36f0178255ead6be29881e57da8a6addc7627c0fae4be842dfbe13ab),
    ([127, 69, 76, 70], 0x385c67a6e3244d2d88338eaa3b43dfe44374caffea677c41297e6ff79acfa000),
    (joined (envLines plainOptions),
      0x6bebda41bf8e90c3d669945d2a8dc2645dd92122493c52dc83476bc1bca6406e)]

/-- The crates on the package's own files, and on the one manifest and footer it has. -/
def plainHost (manifest footer checksum : Nat) : Host where
  blake3 bytes :=
    let digest :=
      if bytes.length = Runtime.footerSize then footer
      else ((plainHashes.find? fun entry => entry.1 = bytes).map Prod.snd).getD manifest
    ⟨leBytes 32 digest, length_leBytes 32 digest⟩
  xxh32 _ := leBytes 4 checksum
  compress _ _ := none
  trainDictionary _ _ := none
  -- A frame of one raw block.
  compressManifest bytes := some ([0x28, 0xB5, 0x2F, 0xFD, 0x60] ++ leBytes 2 (bytes.length - 256) ++
    leBytes 3 (8 * bytes.length + 1) ++ bytes)
  stippleImage _ := none
  compiledSchemas := none
  ptInterp _ := none
  needsBundledLib _ := false
  hasNoDeps _ := true
  needsHostLibs _ := false
  libGl _ := none
  publicKeyOf _ := []
  sourceDateEpoch := none
  runtimeAccepted := true
  runtime := [127, 69, 76, 70]

def plainEntry (path : List String) (node : Node) : Walked := ⟨path.map utf8, node, 0o755, 0⟩

theorem plainHost_faithful (manifest footer checksum : Nat) :
    ImageFaithful (plainHost manifest footer checksum) :=
  fun _ _ built => by cases built

end Onelf.Cli.Pack
