import Onelf.Cli.Pack.Describes

/-! When the loader accepts a packed manifest. -/

namespace Onelf.Cli.Pack

open Onelf.Lib hiding Holds
open Onelf.Format hiding joinPath
open Onelf.Runtime (EntryKind)

/-- The loader reads back the library directories and an entry at every row's path. -/
def Loads (opts : PackOptions) (host : Host) (tree : Tree) (packed : Packed) : Prop :=
  ∃ manifest, Manifest.deserialize packed.manifestBytes = .ok manifest ∧
    manifest.libDirs = (resolveLibDirs opts host tree).map Text.bytes ∧
    manifest.entrypoints.map (fun entrypoint =>
      components (manifest.entryPath entrypoint.targetEntry)) =
      (tableRows opts).map fun row => packageRelative row.path.bytes

/-- No file stands where another file's directory does. -/
structure ParentsAreDirs (opts : PackOptions) (host : Host) (tree : Tree) : Prop where
  onelf : ∀ file ∈ (collect opts host tree).files, file.relPath ≠ [onelfDir]
  schemas : schemasCompiled host (collect opts host tree) = true →
    ∀ symlink ∈ (collect opts host tree).symlinks, symlink.relPath.dropLast ≠ compiledSchema

/-- What the loader holds a package to, of the options and the directory. -/
structure Loadable (opts : PackOptions) (host : Host) (tree : Tree) : Prop
    extends ParentsAreDirs opts host tree where
  libDirs : ∀ dir ∈ resolveLibDirs opts host tree, safeLibDir dir.bytes = true
  libDirCount : (resolveLibDirs opts host tree).length < 2 ^ 16
  rowCount : (tableRows opts).length < 2 ^ 16
  rows : ∀ row ∈ tableRows opts, ∃ rel, relPathOf row.path.bytes = some rel ∧
    clearOfScratch rel = true

/-- Every file has fewer blocks than an entry can count. -/
def BlocksCounted (opts : PackOptions) (host : Host) (tree : Tree) : Prop :=
  ∀ payloaded, writePayload opts host (shipped opts host tree).files = some payloaded →
    ∀ file ∈ payloaded.files, file.blocks.length < 2 ^ 32

section
variable {opts : PackOptions} {host : Host} {tree : Tree} {manifest : Manifest}
  {files : List CompressedFile}

/-! ### Every field has its width -/

theorem Packs.entry_fits (packs : Packs opts host tree manifest files)
    (counted : ∀ file ∈ files, file.blocks.length < 2 ^ 32) {entry : Entry}
    (member : entry ∈ manifest.entries) : EntryFits manifestVersion entry := by
  rcases List.mem_iff_getElem?.mp member with ⟨index, found⟩
  cases index with
  | zero =>
      rw [packs.listed.root] at found
      cases found
      exact ⟨by decide, by decide, by decide, by decide, by decide, by decide, by decide,
        fun block none => absurd none List.not_mem_nil⟩
  | succ index =>
      have inside := (List.getElem?_eq_some_iff.mp found).1
      rw [packs.listed.length] at inside
      have place : index < (itemsOf (shipped opts host tree) files).length := by omega
      rcases packs.listed.entered index _ (List.getElem?_eq_getElem place) with
        ⟨other, there, entered⟩
      rw [found] at there
      cases there
      have few := packs.few
      have small := packs.strings
      have parent := parent_le (itemsOf (shipped opts host tree) files) index
        (itemsOf (shipped opts host tree) files)[index].relPath.dropLast
      rw [← entered.parent] at parent
      have target := entered.target.le
      rcases entered.name with ⟨_, _, named⟩
      have name := named.lt
      have blocks : entry.blocks.length < 256 ^ 4 ∧
          ∀ block ∈ entry.blocks, BlockFits manifestVersion block := by
        have none : 0 < 256 ^ 4 := by decide
        rw [entered.blocks]
        rcases itemsOf_place (List.getElem?_eq_getElem place) with ⟨_, dir, _, same⟩ |
          ⟨_, file, _, held, same⟩ | ⟨_, symlink, _, same⟩
        · rw [same]
          exact ⟨none, fun block held => absurd held List.not_mem_nil⟩
        · rw [same]
          have listed := List.mem_of_getElem? held
          exact ⟨counted file listed, packs.fits file listed⟩
        · rw [same]
          exact ⟨none, fun block held => absurd held List.not_mem_nil⟩
      refine ⟨?_, ?_, ?_, ?_, ?_, blocks.1, ?_, blocks.2⟩
      · omega
      · omega
      · rw [entered.mode]
        exact UInt32.toNat_lt _
      · rw [entered.mtimeSecs]
        exact UInt64.toNat_lt _
      · rw [entered.mtimeNsec]
        decide
      · omega

theorem Packs.entryPoint_fits (packs : Packs opts host tree manifest files)
    {entrypoint : EntryPoint} (member : entrypoint ∈ manifest.entrypoints) :
    EntryPointFits entrypoint ∧ entrypoint.targetEntry < manifest.entries.length ∧
      entrypoint.name ≤ manifest.stringTable.length ∧
        entrypoint.args ≤ manifest.stringTable.length := by
  rcases paired_of_mem packs.assembled.pointed member with ⟨row, within, pointed⟩
  have target := (packs.leads within pointed).1
  have name := pointed.name.lt
  have args := pointed.args.lt
  have few := packs.few
  have small := packs.strings
  have length := packs.listed.length
  exact ⟨⟨by omega, by omega, by omega⟩, target, by omega, by omega⟩

theorem Packs.fits_sealed (packs : Packs opts host tree manifest files)
    (counted : ∀ file ∈ files, file.blocks.length < 2 ^ 32)
    (rows : (tableRows opts).length < 2 ^ 16)
    (dirs : (resolveLibDirs opts host tree).length < 2 ^ 16) (packageId footerHash : Digest) :
    (manifest.sealed packageId footerHash).Fits := by
  have assembled := packs.assembled
  have few := packs.few
  have small := packs.strings
  have length := packs.listed.length
  have entrypoints : manifest.entrypoints.length < 2 ^ 16 := by
    rw [← assembled.pointed.length_eq]
    exact rows
  have libDirs : manifest.libDirOffsets.length < 2 ^ 16 := by
    rw [← assembled.libDirs.length_eq]
    exact dirs
  have entries : manifest.entries.length < 2 ^ 32 := by omega
  have versioned : manifestVersion < 256 ^ 2 := by decide
  exact {
    header := by
      refine ⟨versioned, ?_, ?_, ?_, ?_, ?_, assembled.nameOffset, nofun⟩
      · rw [Manifest.sealed, assembled.entryCount]
        exact Nat.mod_lt _ (by decide)
      · rw [Manifest.sealed, assembled.stringTableSize]
        exact Nat.mod_lt _ (by decide)
      · rw [Manifest.sealed, assembled.entrypointCount]
        exact Nat.mod_lt _ (by decide)
      · rw [Manifest.sealed, assembled.defaultEntrypoint]
        decide
      · rw [Manifest.sealed, assembled.libDirCount]
        exact Nat.mod_lt _ (by decide)
    supported := ⟨Nat.succ_ne_zero _, le_refl manifestVersion⟩
    entrypointCount := assembled.entrypointCount ▸ (Nat.mod_eq_of_lt entrypoints).symm
    entrypoints := fun entrypoint member => (packs.entryPoint_fits member).1
    entryCount := assembled.entryCount ▸ (Nat.mod_eq_of_lt entries).symm
    entries := fun entry member => packs.entry_fits counted member
    libDirCount := assembled.libDirCount ▸ (Nat.mod_eq_of_lt libDirs).symm
    libDirs := by
      intro offset member
      rcases paired_of_mem assembled.libDirs member with ⟨dir, _, held⟩
      have inside := held.lt
      omega
    stringTable := assembled.stringTableSize ▸ (Nat.mod_eq_of_lt small).symm }

/-! ### What the checks pass -/

theorem getString_sealed (packageId footerHash : Digest) (offset : Nat) :
    (manifest.sealed packageId footerHash).getString offset = manifest.getString offset := rfl

theorem entryParts_sealed (packageId footerHash : Digest) (fuel index : Nat) :
    (manifest.sealed packageId footerHash).entryParts fuel index =
      manifest.entryParts fuel index := by
  induction fuel generalizing index with
  | zero => rfl
  | succ fuel ih =>
      simp only [Manifest.entryParts, ih]
      rfl

theorem entryPath_sealed (packageId footerHash : Digest) (index : Nat) :
    (manifest.sealed packageId footerHash).entryPath index = manifest.entryPath index :=
  congrArg joinPath (entryParts_sealed packageId footerHash _ index)

/-- The parent of every item is a directory. -/
def Parented (items : List Item) : Prop :=
  ∀ (index : Nat) (item : Item), items[index]? = some item → ∀ place other,
    lastIndex (items.take index) item.relPath.dropLast = some (place + 1) →
      items[place]? = some other → other.kind = .dir

theorem Packs.parent_valid_iff (packs : Packs opts host tree manifest files)
    {index : Nat} {item : Item}
    (found : (itemsOf (shipped opts host tree) files)[index]? = some item) {entry : Entry}
    (there : manifest.entries[index + 1]? = some entry) :
    ParentValid manifest (index + 1) entry ↔ ∀ place other,
      lastIndex ((itemsOf (shipped opts host tree) files).take index) item.relPath.dropLast =
          some (place + 1) →
        (itemsOf (shipped opts host tree) files)[place]? = some other → other.kind = .dir := by
  have listed := packs.listed
  rcases listed.entered index item found with ⟨same, here, entered⟩
  rw [there, Option.some.injEq] at here
  rw [← here] at entered
  have few := packs.few
  have inside := (List.getElem?_eq_some_iff.mp found).1
  have below := parent_le (itemsOf (shipped opts host tree) files) index item.relPath.dropLast
  have apart : entry.parent ≠ u32Max := by
    rw [entered.parent, u32Max]
    omega
  rw [ParentValid, or_iff_right apart, entered.parent, and_iff_right (by omega)]
  cases last : lastIndex ((itemsOf (shipped opts host tree) files).take index)
      item.relPath.dropLast with
  | none => exact iff_of_true ⟨_, listed.root, rfl⟩ fun _ _ placed _ => by cases placed
  | some parent =>
      rw [last, Option.getD_some] at below
      cases parent with
      | zero => exact iff_of_true ⟨_, listed.root, rfl⟩ fun _ _ placed _ => by cases placed
      | succ parent =>
          have within : parent < (itemsOf (shipped opts host tree) files).length := by omega
          have item := List.getElem?_eq_getElem within
          rcases listed.entered parent _ item with ⟨above, stands, holds⟩
          rw [Option.getD_some, stands]
          constructor
          · intro held place other placed at_place
            rcases held with ⟨entry, same, kind⟩
            rw [Option.some.injEq, Nat.add_right_cancel_iff] at placed
            rw [← placed, item, Option.some.injEq] at at_place
            rw [← at_place, ← holds.kind, Option.some.inj same]
            exact kind
          · intro all
            exact ⟨above, rfl, holds.kind.trans (all parent _ rfl item)⟩

theorem Packs.valid_iff (packs : Packs opts host tree manifest files)
    (packageId footerHash : Digest) : (manifest.sealed packageId footerHash).Valid ↔
      Parented (itemsOf (shipped opts host tree) files) ∧
        ∀ dir ∈ resolveLibDirs opts host tree, safeLibDir (cutNul dir.bytes) = true := by
  have assembled := packs.assembled
  have reads {dir : Text} {offset : Nat}
      (held : StringTableBuilder.Holds manifest.stringTable offset dir.bytes) :
      (manifest.sealed packageId footerHash).getString offset = cutNul dir.bytes :=
    Manifest.getString_of_holds held
  constructor
  · intro valid
    constructor
    · intro index item found
      rcases packs.listed.entered index item found with ⟨entry, there, _⟩
      exact (packs.parent_valid_iff found there).mp (valid.entries (index + 1) entry there).1
    · intro dir member
      rcases paired_of_mem assembled.libDirs.flip member with ⟨offset, within, held⟩
      rw [← reads held]
      exact (valid.libDirs offset within).2
  · intro held
    rcases held with ⟨parented, dirs⟩
    exact {
      entries := by
        intro index entry found
        cases index with
        | zero =>
            have root := packs.listed.root
            rw [show manifest.entries[0]? = some entry from found] at root
            rw [Option.some.inj root]
            exact ⟨Or.inl rfl, Nat.zero_le _, Nat.zero_le _⟩
        | succ index =>
            have inside := (List.getElem?_eq_some_iff.mp found).1
            have place : index < (itemsOf (shipped opts host tree) files).length := by
              have length := packs.listed.length
              have same : (manifest.sealed packageId footerHash).entries = manifest.entries := rfl
              rw [same] at inside
              omega
            have item := List.getElem?_eq_getElem place
            rcases packs.listed.entered index _ item with ⟨other, there, entered⟩
            have same : other = entry := Option.some.inj (there.symm.trans found)
            rw [same] at entered
            rcases entered.name with ⟨_, _, named⟩
            exact ⟨(packs.parent_valid_iff item found).mpr (parented index _ item), named.lt.le,
              entered.target.le⟩
      entrypoints := fun entrypoint member => (packs.entryPoint_fits member).2
      defaultEntrypoint := by
        intro some
        have zero : (manifest.sealed packageId footerHash).header.defaultEntrypoint = 0 :=
          assembled.defaultEntrypoint
        rw [zero]
        exact List.length_pos_of_ne_nil some
      libDirs := by
        intro offset member
        rcases paired_of_mem assembled.libDirs member with ⟨dir, within, held⟩
        rw [reads held]
        exact ⟨held.lt.le, dirs dir within⟩
      nameOffset := assembled.named }

/-! ### Which parents are directories -/

theorem itemsOf_file {collected : Collected} {files : List CompressedFile}
    (paths : files.map CompressedFile.relPath = collected.files.map CollectedFile.relPath)
    {place : Nat} {path : RelPath}
    (found : (collected.files.map CollectedFile.relPath)[place]? = some path) :
    ∃ item, (itemsOf collected files)[collected.dirs.length + place]? = some item ∧
      item.kind = .file ∧ item.relPath = path := by
  rw [← paths, List.getElem?_map, Option.map_eq_some_iff] at found
  rcases found with ⟨file, there, same⟩
  exact ⟨fileItem file, itemsOf_fileItem there, rfl, same⟩

theorem itemsOf_symlink {collected : Collected} {files : List CompressedFile}
    {symlink : CollectedSymlink} (member : symlink ∈ collected.symlinks) :
    ∃ index, collected.dirs.length + files.length ≤ index ∧
      (itemsOf collected files)[index]? = some (symlinkItem symlink) := by
  rcases List.getElem?_of_mem member with ⟨place, there⟩
  have count : ((sortedDirs collected.dirs).map dirItem ++ files.map fileItem).length =
      collected.dirs.length + files.length := by
    rw [List.length_append, List.length_map, List.length_map]
    exact congrArg (· + files.length) (sortByKey_perm _ _).length_eq
  refine ⟨collected.dirs.length + files.length + place, Nat.le_add_right _ _, ?_⟩
  rw [itemsOf, List.getElem?_append_right (by omega), count, Nat.add_sub_cancel_left,
    List.getElem?_map, there]
  rfl

/-- A file before an item, where its directory would be, is taken for the directory. -/
theorem Parented.no_file {collected : Collected} (parented : Parented (itemsOf collected files))
    {index place : Nat} {item file : Item}
    (found : (itemsOf collected files)[index]? = some item)
    (there : (itemsOf collected files)[place]? = some file) (before : place < index)
    (kind : file.kind = .file) (deep : file.relPath ≠ [])
    (above : file.relPath = item.relPath.dropLast) : False := by
  have listed : file ∈ (itemsOf collected files).take index :=
    List.mem_of_getElem? (by rw [List.getElem?_take_of_lt before]; exact there)
  cases last : lastIndex ((itemsOf collected files).take index) item.relPath.dropLast with
  | none => exact (lastIndex_eq_none.mp last).2 file listed above
  | some parent =>
      rcases lastIndex_eq_some last with top | ⟨latest, other, next, held, path, final⟩
      · exact deep (above.trans top.2)
      · have inside := (List.getElem?_eq_some_iff.mp held).1
        have earlier : latest < index := by
          rw [List.length_take] at inside
          omega
        rw [List.getElem?_take_of_lt earlier] at held
        have dir := parented index item found latest other (next ▸ last) held
        have after : place ≤ latest := by
          by_contra later
          refine final place file (Nat.lt_of_not_le later) ?_ above
          rw [List.getElem?_take_of_lt before]
          exact there
        rcases itemsOf_place held with ⟨first, _⟩ | ⟨_, _, _, _, same⟩ | ⟨_, _, _, same⟩
        · rcases itemsOf_place there with ⟨_, _, _, same⟩ | ⟨offset, _, at_place, _⟩ |
            ⟨_, _, _, same⟩
          · rw [same] at kind
            cases kind
          · omega
          · rw [same] at kind
            cases kind
        · rw [same] at dir
          cases dir
        · rw [same] at dir
          cases dir

theorem Packs.parentsAreDirs (packs : Packs opts host tree manifest files)
    (parented : Parented (itemsOf (shipped opts host tree) files)) :
    ParentsAreDirs opts host tree := by
  rcases shipped_additions opts host tree with ⟨injected, made, additions⟩
  rcases additions.files with ⟨more, grown, names⟩
  have paths : (shipped opts host tree).files.map CollectedFile.relPath =
      (collect opts host tree).files.map CollectedFile.relPath ++ injected := by
    rw [grown, List.map_append, names]
  have count : files.length = (collect opts host tree).files.length + injected.length := by
    have lengths := congrArg List.length (packs.paths.trans paths)
    rwa [List.length_append, List.length_map, List.length_map] at lengths
  have placed {place : Nat} {path : RelPath} (found : injected[place]? = some path) :
      ∃ item, (itemsOf (shipped opts host tree) files)[(shipped opts host tree).dirs.length +
        ((collect opts host tree).files.length + place)]? = some item ∧ item.kind = .file ∧
          item.relPath = path := by
    refine itemsOf_file packs.paths ?_
    rw [paths, List.getElem?_append_right (by rw [List.length_map]; omega), List.length_map,
      Nat.add_sub_cancel_left]
    exact found
  constructor
  · intro file member same
    have listed : file.relPath ∈ (collect opts host tree).files.map CollectedFile.relPath :=
      List.mem_map_of_mem member
    rcases List.getElem?_of_mem listed with ⟨place, there⟩
    have inside := (List.getElem?_eq_some_iff.mp there).1
    have walked : ((shipped opts host tree).files.map CollectedFile.relPath)[place]? =
        some file.relPath := by
      rw [paths, List.getElem?_append_left inside]
      exact there
    rw [List.length_map] at inside
    rcases List.getElem?_of_mem additions.env with ⟨offset, env⟩
    rcases placed env with ⟨below, found, _, path⟩
    rcases itemsOf_file packs.paths walked with ⟨item, at_place, kind, own⟩
    refine parented.no_file found at_place (by omega) kind ?_ ?_
    · rw [own, same]
      exact List.cons_ne_nil _ _
    · rw [own, same, path]
      rfl
  · intro compiled symlink member same
    rcases List.getElem?_of_mem (additions.schemas.mpr compiled) with ⟨offset, schema⟩
    have inside := (List.getElem?_eq_some_iff.mp schema).1
    rcases placed schema with ⟨item, found, kind, path⟩
    have linked : symlink ∈ (shipped opts host tree).symlinks := additions.symlinks ▸ member
    have late : ∃ index, (shipped opts host tree).dirs.length + files.length ≤ index ∧
      (itemsOf (shipped opts host tree) files)[index]? = some (symlinkItem symlink) :=
      itemsOf_symlink linked
    rcases late with ⟨index, late, there⟩
    refine parented.no_file there found (by omega) kind ?_ ?_
    · rw [path]
      exact List.cons_ne_nil _ _
    · rw [path]
      exact same.symm

theorem Packs.parented (packs : Packs opts host tree manifest files)
    (dirs : ParentsAreDirs opts host tree) :
    Parented (itemsOf (shipped opts host tree) files) := by
  intro index item found place other last there
  rcases lastIndex_eq_some last with top | ⟨latest, same, next, held, above, _⟩
  · exact absurd top.1 (Nat.succ_ne_zero place)
  · have before : place < index := by
      have inside := (List.getElem?_eq_some_iff.mp held).1
      rw [List.length_take] at inside
      omega
    have here : place = latest := Nat.succ.inj next
    rw [← here, List.getElem?_take_of_lt before, there, Option.some.injEq] at held
    rw [← held] at above
    have deep : item.relPath.dropLast ≠ [] := by
      have proper := packs.proper other (List.mem_of_getElem? there)
      rw [above] at proper
      exact proper.1
    rcases shipped_additions opts host tree with ⟨injected, made, additions⟩
    rcases additions.files with ⟨more, grown, names⟩
    have paths : (shipped opts host tree).files.map CollectedFile.relPath =
        (collect opts host tree).files.map CollectedFile.relPath ++ injected := by
      rw [grown, List.map_append, names]
    -- A path in the packed files was collected, or injected after those that were.
    have origin {offset : Nat} {file : CompressedFile} (held : files[offset]? = some file) :
        (offset < (collect opts host tree).files.length ∧
          ∃ walked ∈ (collect opts host tree).files, walked.relPath = file.relPath) ∨
        ((collect opts host tree).files.length ≤ offset ∧ file.relPath ∈ injected) := by
      have listed : (files.map CompressedFile.relPath)[offset]? = some file.relPath := by
        rw [List.getElem?_map, held]
        rfl
      rw [packs.paths, paths] at listed
      rcases Nat.lt_or_ge offset (collect opts host tree).files.length with first | second
      · rw [List.getElem?_append_left (by rw [List.length_map]; exact first)] at listed
        exact Or.inl ⟨first, List.mem_map.mp (List.mem_of_getElem? listed)⟩
      · rw [List.getElem?_append_right (by rw [List.length_map]; exact second)] at listed
        exact Or.inr ⟨second, List.mem_of_getElem? listed⟩
    have walked_apart (member : item.relPath ∈ (collect opts host tree).paths) :=
      collected_parent member deep
    rcases itemsOf_place there with ⟨_, dir, _, same⟩ | ⟨offset, file, at_place, file_at, same⟩ |
      ⟨late, symlink, within, same⟩
    · rw [same]
      rfl
    · exfalso
      have own : file.relPath = item.relPath.dropLast := by
        rw [same] at above
        exact above
      rcases itemsOf_place found with ⟨early, _⟩ | ⟨further, child, at_index, child_at, kind⟩ |
        ⟨_, symlink, within, kind⟩
      · omega
      · have path : item.relPath = child.relPath := by
          rw [kind]
          rfl
        rcases origin child_at with ⟨first, walked, member, equal⟩ | ⟨second, added⟩
        · rcases origin file_at with ⟨_, parent, held, same⟩ | ⟨late, _⟩
          · have member : item.relPath ∈ (collect opts host tree).paths :=
              Collected.mem_paths.mpr (Or.inl ⟨walked, member, equal.trans path.symm⟩)
            exact (walked_apart member).1 parent held (same.trans own)
          · omega
        · have plain := injectable_iff.mp (additions.injectable _ added)
          rw [← path] at plain added
          rcases plain.2.1 with schema | onelf
          · have compiled := additions.schemas.mp (schema ▸ added)
            rw [schemasCompiled, Bool.and_eq_true, needsSchemas, Bool.and_eq_true,
              Bool.and_eq_true] at compiled
            rcases List.any_eq_true.mp compiled.1.1.1 with ⟨dir, within, place⟩
            have above : file.relPath = schemasDir := by
              rw [own, schema]
              rfl
            rcases origin file_at with ⟨_, parent, held, same⟩ | ⟨_, added⟩
            · exact (collect_dirs_apart ⟨dir, within, of_decide_eq_true place⟩).1 parent held
                (same.trans above)
            · have refused : injectable schemasDir = false := by decide +kernel
              rw [← above, additions.injectable _ added] at refused
              cases refused
          · rcases origin file_at with ⟨_, parent, held, same⟩ | ⟨_, added⟩
            · exact dirs.onelf parent held (same.trans (own.trans onelf))
            · have refused : injectable [onelfDir] = false := by decide +kernel
              rw [← onelf, ← own, additions.injectable _ added] at refused
              cases refused
      · rw [additions.symlinks] at within
        have path : item.relPath = symlink.relPath := by
          rw [kind]
          rfl
        have member : item.relPath ∈ (collect opts host tree).paths :=
          Collected.mem_paths.mpr (Or.inr (Or.inr ⟨symlink, within, path.symm⟩))
        rcases origin file_at with ⟨_, parent, held, same⟩ | ⟨_, added⟩
        · exact (walked_apart member).1 parent held (same.trans own)
        · have plain := additions.injectable _ added
          rw [own] at plain added
          rcases (injectable_iff.mp plain).2.1 with schema | onelf
          · exact dirs.schemas (additions.schemas.mp (schema ▸ added)) symlink within
              (path ▸ schema)
          · exact below_injected packs.packable member plain onelf
    · exfalso
      rcases itemsOf_place found with ⟨early, _⟩ | ⟨further, child, at_index, child_at, _⟩ |
        ⟨_, link, linked, kind⟩
      · omega
      · have inside := (List.getElem?_eq_some_iff.mp child_at).1
        omega
      · rw [additions.symlinks] at within linked
        have path : item.relPath = link.relPath := by
          rw [kind]
          rfl
        have member : item.relPath ∈ (collect opts host tree).paths :=
          Collected.mem_paths.mpr (Or.inr (Or.inr ⟨link, linked, path.symm⟩))
        refine (walked_apart member).2 symlink within ?_
        rw [same] at above
        exact above

/-! ### What is read back -/

theorem safeLibDir_plain {dir : Bytes} (safe : safeLibDir dir = true) : cutNul dir = dir := by
  simp only [safeLibDir, Bool.and_eq_true, Bool.not_eq_true', List.contains_eq_mem,
    decide_eq_false_iff_not] at safe
  exact cutNul_of_not_mem safe.2

theorem safeLibDirs_iff (dirs : List Text) :
    ((∀ dir ∈ dirs, safeLibDir (cutNul dir.bytes) = true) ∧
      ∀ dir ∈ dirs, cutNul dir.bytes = dir.bytes) ↔ ∀ dir ∈ dirs, safeLibDir dir.bytes = true := by
  constructor
  · intro both dir member
    have safe := both.1 dir member
    rwa [both.2 dir member] at safe
  · intro safe
    refine ⟨fun dir member => ?_, fun dir member => safeLibDir_plain (safe dir member)⟩
    rw [safeLibDir_plain (safe dir member)]
    exact safe dir member

theorem Packs.libDirs_iff (packs : Packs opts host tree manifest files)
    (packageId footerHash : Digest) :
    (manifest.sealed packageId footerHash).libDirs =
        (resolveLibDirs opts host tree).map Text.bytes ↔
      ∀ dir ∈ resolveLibDirs opts host tree, cutNul dir.bytes = dir.bytes := by
  refine paired_map_eq_iff packs.assembled.libDirs fun dir _ offset held => ?_
  rw [getString_sealed, Manifest.getString_of_holds held]

theorem Packs.targets_iff (packs : Packs opts host tree manifest files)
    (packageId footerHash : Digest) :
    (manifest.sealed packageId footerHash).entrypoints.map (fun entrypoint =>
        components ((manifest.sealed packageId footerHash).entryPath entrypoint.targetEntry)) =
        (tableRows opts).map (fun row => packageRelative row.path.bytes) ↔
      ∀ row ∈ tableRows opts, ∃ rel, relPathOf row.path.bytes = some rel ∧
        clearOfScratch rel = true := by
  refine paired_map_eq_iff packs.assembled.pointed fun row member entrypoint pointed => ?_
  rw [entryPath_sealed]
  exact packs.target member pointed

/-- The loader accepts a package, and finds in it what was packed, exactly where no file stands in a
directory's place, every library directory is a safe one and the tables can be counted. -/
theorem pack_loads_iff (opts : PackOptions) (host : Host) (tree : Tree)
    (addressable : Addressable opts host tree) (counted : BlocksCounted opts host tree)
    {packed : Packed} (ran : pack opts host tree = some packed) :
    Loads opts host tree packed ↔ Loadable opts host tree := by
  rcases pack_from ran with ⟨_, origin⟩
  rcases origin.bytes with ⟨packageId, footerHash, bytes⟩
  rcases pack_packs ran addressable with ⟨payloaded, payload, packs⟩
  by_cases countable : (tableRows opts).length < 2 ^ 16 ∧
      (resolveLibDirs opts host tree).length < 2 ^ 16
  · have fits := packs.fits_sealed (counted payloaded payload) countable.1 countable.2 packageId
      footerHash
    have read := Manifest.deserialize_bodyBytes fits []
    rw [List.append_nil, ← bytes] at read
    have valid := packs.valid_iff packageId footerHash
    have dirs := packs.libDirs_iff packageId footerHash
    have targets := packs.targets_iff packageId footerHash
    rw [Loads, read]
    constructor
    · intro loads
      rcases loads with ⟨manifest, accepted, libDirs, rows⟩
      cases checked : validate (packed.manifest.sealed packageId footerHash) with
      | error reason =>
          rw [checked] at accepted
          cases accepted
      | ok nothing =>
          rw [checked] at accepted
          cases accepted
          have parts := valid.mp (validate_eq_ok.mp checked)
          exact {
            toParentsAreDirs := packs.parentsAreDirs parts.1
            libDirs := (safeLibDirs_iff _).mp ⟨parts.2, dirs.mp libDirs⟩
            libDirCount := countable.2
            rowCount := countable.1
            rows := targets.mp rows }
    · intro loadable
      have safe := (safeLibDirs_iff _).mpr loadable.libDirs
      have checked := validate_eq_ok.mpr
        (valid.mpr ⟨packs.parented loadable.toParentsAreDirs, safe.1⟩)
      rw [checked]
      exact ⟨_, rfl, dirs.mpr safe.2, targets.mpr loadable.rows⟩
  · constructor
    · intro loads
      rcases loads with ⟨manifest, accepted, libDirs, rows⟩
      have counts := Manifest.deserialize_counts accepted
      have dirCount := congrArg List.length libDirs
      have rowCount := congrArg List.length rows
      rw [Manifest.libDirs, List.length_map, List.length_map] at dirCount
      rw [List.length_map, List.length_map] at rowCount
      exact absurd ⟨rowCount ▸ counts.1, dirCount ▸ counts.2⟩ countable
    · intro loadable
      exact absurd ⟨loadable.rowCount, loadable.libDirCount⟩ countable

end

/-! ### A library directory above the package -/

def parentOptions : PackOptions := { plainOptions with libDirs := [lossyText (utf8 "..")] }

def parentHost : Host :=
  plainHost 0xc40831e24d8812af2b9536ca1827e97e24860c218675e1c6862585965454ef1a
    0xaa836471413907d5459065776ab12da41451efb132a311b84dab172158b0b229 0x40cf7d1e

theorem parentOptions_addressable : Addressable parentOptions parentHost plainTree :=
  ⟨by decide +kernel, by decide +kernel⟩

theorem blocksCounted_of_all {opts : PackOptions} {host : Host} {tree : Tree}
    (all : (writePayload opts host (shipped opts host tree).files).all (fun payloaded =>
      payloaded.files.all fun file => decide (file.blocks.length < 2 ^ 32)) = true) :
    BlocksCounted opts host tree := by
  intro payloaded built file member
  rw [built, Option.all_some] at all
  exact of_decide_eq_true (List.all_eq_true.mp all file member)

theorem parentOptions_counted : BlocksCounted parentOptions parentHost plainTree :=
  blocksCounted_of_all (by decide +kernel)

/-- It is packed, and the loader refuses the package. -/
theorem pack_writes_refused : ¬∀ (opts : PackOptions) (host : Host) (tree : Tree) (packed : Packed),
    Addressable opts host tree → BlocksCounted opts host tree →
      pack opts host tree = some packed → Loads opts host tree packed := by
  intro loads
  have packs : (pack parentOptions parentHost plainTree).isSome = true := by decide +kernel
  rcases Option.isSome_iff_exists.mp packs with ⟨packed, ran⟩
  rcases loads parentOptions parentHost plainTree packed parentOptions_addressable
    parentOptions_counted ran with ⟨manifest, accepted, _⟩
  have refused : (pack parentOptions parentHost plainTree).all (fun packed =>
      !(Manifest.deserialize packed.manifestBytes).isOk) = true := by decide +kernel
  rw [ran, Option.all_some, accepted] at refused
  cases refused

theorem plainTree_counted : BlocksCounted plainOptions appHost plainTree :=
  blocksCounted_of_all (by decide +kernel)

theorem pack_loads_plain : Loads plainOptions appHost plainTree
      ((pack plainOptions appHost plainTree).get plainTree_packed) ↔
    Loadable plainOptions appHost plainTree :=
  pack_loads_iff plainOptions appHost plainTree plainTree_addressable plainTree_counted
    (Option.some_get plainTree_packed).symm

end Onelf.Cli.Pack
