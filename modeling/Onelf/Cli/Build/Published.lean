import Mathlib.Data.List.ReduceOption
import Onelf.Cli.Build.Exports
import Onelf.Cli.Pack.Opened

/-! When the names a published set records are the names its objects are found to export. -/

namespace Onelf.Cli.Build

open Onelf.Lib hiding Holds
open Onelf.Format
open Onelf.Cli.Pack (Host PackOptions Packed FileCounted SameManifestCrates kept isOnelfPackage
  landing shipped collect)

/-! ### What was found, checked -/

theorem SetExport.soname_le {first second : SetExport} (less : first < second) :
    first.soname ≤ second.soname := by
  have keys : first.orderKey < second.orderKey := less
  rw [SetExport.orderKey, SetExport.orderKey, Prod.Lex.toLex_lt_toLex] at keys
  rcases keys with before | same
  · exact le_of_lt before
  · exact le_of_eq same.1

/-- Of sorted exports, no name is shared exactly where the names are sorted too. -/
theorem sharedName_eq_none {found : List SetExport} (sorted : found.Pairwise (· < ·)) :
    sharedName found = none ↔ (found.map SetExport.soname).Pairwise (· < ·) := by
  rw [← List.isChain_iff_pairwise]
  induction found with
  | nil => simp [sharedName]
  | cons first rest ih =>
      cases rest with
      | nil => simp [sharedName]
      | cons second rest =>
          have less := List.rel_of_pairwise_cons sorted List.mem_cons_self
          have later := ih (List.Pairwise.of_cons sorted)
          rw [List.map_cons] at later
          rw [sharedName, List.map_cons, List.map_cons, List.isChain_cons_cons, ← later]
          split
          · next same => simp [same]
          · next other =>
              have strict := lt_of_le_of_ne (SetExport.soname_le less) other
              exact (and_iff_right strict).symm

/-- The names are sorted where each has one object. -/
theorem names_sorted_iff {found : List SetExport} (sorted : found.Pairwise (· < ·)) :
    (found.map SetExport.soname).Pairwise (· < ·) ↔
      ∀ first ∈ found, ∀ second ∈ found, first.soname = second.soname → first = second := by
  constructor
  · intro names first here second there same
    exact List.inj_on_of_nodup_map (nodup_of_sorted names) here there same
  · intro single
    rw [List.pairwise_map]
    refine sorted.imp_of_mem fun here there less => ?_
    refine lt_of_le_of_ne (SetExport.soname_le less) fun same => ?_
    exact absurd (single _ here _ there same) (ne_of_lt less)

/-- What was found is passed on exactly where each name has one object and the names are those of the
index. -/
theorem checkFound_eq_ok {index : ProviderIndex} {scanned found : List SetExport}
    (sorted : index.exports.Pairwise (· < ·)) :
    checkFound index (sortDedup scanned) = .ok found ↔
      found = sortDedup scanned ∧
        (∀ first ∈ scanned, ∀ second ∈ scanned, first.soname = second.soname → first = second) ∧
        ∀ name, name ∈ index.exports ↔ ∃ item ∈ scanned, item.soname = name := by
  have ordered := sortDedup_sorted scanned
  have single : sharedName (sortDedup scanned) = none ↔
      ∀ first ∈ scanned, ∀ second ∈ scanned, first.soname = second.soname → first = second := by
    rw [sharedName_eq_none ordered, names_sorted_iff ordered]
    simp only [mem_sortDedup]
  have names : (sharedName (sortDedup scanned) = none) →
      ((sortDedup scanned).map SetExport.soname = index.exports ↔
        ∀ name, name ∈ index.exports ↔ ∃ item ∈ scanned, item.soname = name) := by
    intro none
    have ascending := (sharedName_eq_none ordered).mp none
    have member (name : Text) : name ∈ (sortDedup scanned).map SetExport.soname ↔
        ∃ item ∈ scanned, item.soname = name := by
      simp only [List.mem_map, mem_sortDedup]
    constructor
    · intro same name
      rw [← same, member]
    · intro same
      exact eq_of_sorted_of_mem_iff ascending sorted fun name => (member name).trans (same name).symm
  rw [checkFound]
  cases shared : sharedName (sortDedup scanned) with
  | some name =>
      constructor
      · intro failed
        cases failed
      · intro passed
        rw [single.mpr passed.2.1] at shared
        cases shared
  | none =>
      rw [Except.followed_eq_ok, refuseIf_eq_ok, not_ne_iff, names shared, Except.ok.injEq]
      constructor
      · intro passed
        exact ⟨passed.2.symm, single.mp shared, passed.1⟩
      · intro passed
        exact ⟨passed.2.2, passed.1.symm⟩

theorem checkFound_names {index : ProviderIndex} {scanned found : List SetExport}
    (ran : checkFound index scanned = .ok found) : found.map SetExport.soname = index.exports := by
  rw [checkFound] at ran
  split at ran
  · cases ran
  · rw [Except.followed_eq_ok, refuseIf_eq_ok, not_ne_iff] at ran
    cases ran.2
    exact ran.1

/-! ### What the artifact's files export -/

/-- What a package of the tree has of its own files. -/
def keptFile (output : Option Pack.RelPath) (path : Pack.RelPath) (content : Bytes) : Bool :=
  output ≠ some path && path ≠ Pack.generatedFile &&
    !Pack.isScratchName (lossy (path.getLastD [])) && !isOnelfPackage content

/-- The files that are packed under a path with `.so` in it. -/
def soObjects (tree : Pack.Tree) : List Bytes :=
  tree.entries.filterMap fun entry =>
    match entry.node with
    | .file content =>
        if keptFile tree.output entry.path content ∧
          soMark <:+: Lib.joinPath (landing entry.path) then some content else none
    | _ => none

/-- No two files of a package have one hash. -/
def HashesApart (host : Host) (files : List Pack.CollectedFile) : Prop :=
  ∀ first ∈ files, ∀ second ∈ files, host.blake3 first.content = host.blake3 second.content →
    first.content = second.content

section
variable {soname : Bytes → Option Text} {tree : Pack.Tree}

theorem mem_soObjects {content : Bytes} : content ∈ soObjects tree ↔
    ∃ entry ∈ tree.entries, entry.node = .file content ∧
      keptFile tree.output entry.path content = true ∧
        soMark <:+: Lib.joinPath (landing entry.path) := by
  rw [soObjects, List.mem_filterMap]
  refine exists_congr fun entry => and_congr_right fun _ => ?_
  cases entry.node with
  | file other =>
      simp only [Option.ite_none_right_eq_some, Option.some.injEq, Pack.Node.file.injEq]
      constructor
      · intro held
        rw [← held.2]
        exact ⟨rfl, held.1⟩
      · intro held
        rw [held.1]
        exact ⟨held.2, rfl⟩
  | dir => simp
  | symlink target => simp
  | special => simp

theorem mem_verifiedExports {name : Text} : name ∈ verifiedExports soname tree ↔
    ∃ entry ∈ tree.entries, ∃ content, entry.node = .file content ∧
      exportedName soname content = some name := by
  rw [verifiedExports, mem_sortDedup, List.mem_filterMap]
  refine exists_congr fun entry => and_congr_right fun _ => ?_
  cases entry.node with
  | file other => simp
  | dir => simp
  | symlink target => simp
  | special => simp

end

section
variable {soname : Bytes → Option Text} {host : Host} {tree : Pack.Tree} {name : Text}
  {index : Bytes}

/-- The files of a set's package with `.so` in their path are those of the tree. -/
theorem mem_shipped_objects {content : Bytes} :
    (∃ file ∈ (shipped (setOptions name index) host tree).files,
        soMark <:+: Lib.joinPath (landing file.relPath) ∧ file.content = content) ↔
      content ∈ soObjects tree := by
  have plain (path : Pack.RelPath) : kept (setOptions name index) tree.output path = true ∧
      isOnelfPackage content = false ↔ keptFile tree.output path content = true := by
    have included : Pack.excluded (setOptions name index) path = false :=
      List.any_eq_false.mpr fun _ _ => nofun
    simp only [kept, included, keptFile, Bool.and_eq_true, Bool.not_eq_true', Bool.not_false,
      and_true]
  have walked : content ∈ soObjects tree ↔
      ∃ file ∈ (collect (setOptions name index) host tree).files,
        soMark <:+: Lib.joinPath (landing file.relPath) ∧ file.content = content := by
    rw [mem_soObjects]
    constructor
    · intro held
      rcases held with ⟨entry, member, node, passed, marked⟩
      have passed := (plain entry.path).mpr passed
      rcases Pack.collected_file_iff.mpr ⟨entry, member, rfl, node, passed⟩ with
        ⟨file, within, place, same⟩
      exact ⟨file, within, place ▸ marked, same⟩
    · intro held
      rcases held with ⟨file, member, marked, same⟩
      rcases Pack.collected_file_iff.mp ⟨file, member, rfl, same⟩ with
        ⟨entry, within, place, node, passed⟩
      exact ⟨entry, within, node, (plain entry.path).mp (place ▸ passed), place ▸ marked⟩
  rcases Pack.injectAll_injects (collect (setOptions name index) host tree) with
    ⟨interp, prefetched, injects, _⟩
  rcases injects.files with ⟨more, grown, paths⟩
  have files : (shipped (setOptions name index) host tree).files =
      (collect (setOptions name index) host tree).files ++ more := grown
  -- None of the injected paths has the mark.
  have unmarked : ∀ file ∈ more, ¬soMark <:+: Lib.joinPath (landing file.relPath) := by
    intro file member
    have listed : file.relPath ∈ (Pack.injectRecords (setOptions name index) host
        (collect (setOptions name index) host tree) interp prefetched).map Prod.fst := by
      have written : file.relPath ∈ more.map Pack.CollectedFile.relPath :=
        List.mem_map_of_mem member
      rw [paths] at written
      exact List.mem_map_of_mem (Pack.mem_present.mp written)
    have none : ((Pack.injectRecords (setOptions name index) host
        (collect (setOptions name index) host tree) interp prefetched).map Prod.fst).all
          (fun path => !decide (soMark <:+: Lib.joinPath (landing path))) = true := by
      rw [Pack.injectRecords_paths]
      decide +kernel
    have this := List.all_eq_true.mp none _ listed
    rw [Bool.not_eq_true', decide_eq_false_iff_not] at this
    exact this
  rw [walked, files]
  constructor
  · intro held
    rcases held with ⟨file, member, marked, same⟩
    rcases List.mem_append.mp member with own | injected
    · exact ⟨file, own, marked, same⟩
    · exact absurd marked (unmarked file injected)
  · intro held
    rcases held with ⟨file, member, marked, same⟩
    exact ⟨file, List.mem_append_left _ member, marked, same⟩

/-! ### The scan -/

theorem dictionary_setOptions (files : List Pack.CollectedFile) :
    Pack.dictionary (setOptions name index) host files = none := rfl

theorem scanEntries_eq_ok {readers : Readers} {pkg : Runtime.PackageData} {manifest : Manifest}
    {exporting : Bytes → Option SetExport} {contents : List Bytes}
    (passes : ∀ entry ∈ manifest.entries.zipIdx,
      scanEntry soname readers pkg manifest entry = .ok none ∨
        ∃ content ∈ contents,
          scanEntry soname readers pkg manifest entry = .ok (exporting content))
    (reaches : ∀ content ∈ contents, ∃ entry ∈ manifest.entries.zipIdx,
      scanEntry soname readers pkg manifest entry = .ok (exporting content)) :
    ∃ scanned, scanEntries soname readers pkg manifest = .ok scanned ∧
      ∀ item, item ∈ scanned ↔ ∃ content ∈ contents, exporting content = some item := by
  have each : ∀ entry ∈ manifest.entries.zipIdx,
      ∃ result, scanEntry soname readers pkg manifest entry = .ok result := by
    intro entry member
    rcases passes entry member with none | ⟨content, _, some⟩
    · exact ⟨_, none⟩
    · exact ⟨_, some⟩
  rcases Except.mapM_total each with ⟨results, ran⟩
  have pairs := Except.mapM_eq_ok.mp ran
  refine ⟨results.reduceOption, Except.andThen_eq_ok.mpr ⟨results, ran, rfl⟩, fun item => ?_⟩
  rw [List.reduceOption_mem_iff]
  constructor
  · intro member
    rcases paired_of_mem pairs member with ⟨entry, within, scanned⟩
    rcases passes entry within with none | ⟨content, inside, some⟩
    · rw [none] at scanned
      cases scanned
    · rw [some] at scanned
      exact ⟨content, inside, Except.ok.inj scanned⟩
  · intro held
    rcases held with ⟨content, inside, same⟩
    rcases reaches content inside with ⟨entry, within, scanned⟩
    rcases paired_with_mem pairs within with ⟨result, member, also⟩
    rw [scanned, same] at also
    exact Except.ok.inj also ▸ member

/-- The export of one file of a package. -/
def exportOf (soname : Bytes → Option Text) (host : Host) (content : Bytes) : Option SetExport :=
  (exportedName soname content).map fun name => ⟨name, host.blake3 content⟩

/-- What the scan makes of the entry of one file. -/
theorem scanEntry_file {opts : PackOptions} {manifest scanned : Manifest}
    {files : List Pack.CompressedFile} {pkg : Runtime.PackageData} {readers : Readers}
    (packs : Pack.Packs opts host tree manifest files)
    (paths : ∀ place, scanned.entryPath place = manifest.entryPath place)
    (same : readers.crates.blake3 = host.blake3) {place : Nat} {built : Pack.CompressedFile}
    {entry : Entry} {path : Pack.RelPath} {content : Bytes} (made : files[place]? = some built)
    (there : manifest.entries[(shipped opts host tree).dirs.length + place + 1]? = some entry)
    (relPath : built.relPath = path) (hash : built.contentHash = host.blake3 content)
    (bytes : decompressEntry readers.crates readers.bulkWith pkg built.blocks = .ok content) :
    scanEntry soname readers pkg scanned (entry, (shipped opts host tree).dirs.length + place + 1) =
      .ok (if soMark <:+: Lib.joinPath (landing path) then exportOf soname host content
        else none) := by
  have found : (Pack.itemsOf (shipped opts host tree) files)[
      (shipped opts host tree).dirs.length + place]? = some (Pack.fileItem built) :=
    Pack.itemsOf_fileItem made
  have placed := packs.parts_landing found
  rcases packs.listed.entered _ _ found with ⟨other, at_place, entered⟩
  rw [there] at at_place
  cases at_place
  have entryPath : scanned.entryPath ((shipped opts host tree).dirs.length + place + 1) =
      Lib.joinPath (landing path) := by
    rw [paths, Manifest.entryPath_eq, placed]
    exact congrArg (fun path => Lib.joinPath (landing path)) relPath
  have kind : entry.kind = .file := entered.kind
  have contentHash : entry.contentHash = host.blake3 content := entered.contentHash.trans hash
  have blocks : entry.blocks = built.blocks := entered.blocks
  have read : decompressVerified readers pkg entry = .ok content := by
    rw [decompressVerified, blocks, bytes]
    refine Except.andThen_eq_ok.mpr ⟨content, rfl, Except.andThen_eq_ok.mpr ⟨(), ?_, rfl⟩⟩
    rw [refuseIf_eq_ok, not_ne_iff, contentHash, same]
  rw [scanEntry, if_neg (not_ne_iff.mpr kind), entryPath, read]
  split
  · rfl
  · next marked =>
      rw [if_pos (not_not.mp marked), exportOf, contentHash]
      rfl

/-- What the scan makes of any other entry. -/
theorem scanEntry_other {manifest : Manifest} {pkg : Runtime.PackageData} {readers : Readers}
    {entry : Entry × Nat} (other : entry.1.kind ≠ .file) :
    scanEntry soname readers pkg manifest entry = .ok none := by
  rw [scanEntry, if_pos other]

section
variable {readers : Readers} {packed : Packed} {payloaded : Pack.Payloaded} {compressed : Bytes}
  {footer : Footer} {packageId footerHash : Digest} {read : Manifest}

/-- What the scan makes of the entry of one file of a set's tree. -/
theorem scanEntry_walked
    (file : Pack.PackedFile (setOptions name index) host tree packed payloaded compressed footer)
    (same : SameManifestCrates host readers)
    (counted : FileCounted (setOptions name index) host tree packed)
    (apart : HashesApart host (shipped (setOptions name index) host tree).files)
    (sealed : read = packed.manifest.sealed packageId footerHash) {place : Nat}
    {walked : Pack.CollectedFile} {entry : Entry}
    (listed : (shipped (setOptions name index) host tree).files[place]? = some walked)
    (there : read.entries[(shipped (setOptions name index) host tree).dirs.length + place + 1]? =
      some entry) :
    scanEntry soname readers (packageData packed.output footer read (.zstd none)) read
        (entry, (shipped (setOptions name index) host tree).dirs.length + place + 1) =
      .ok (if soMark <:+: Lib.joinPath (landing walked.relPath)
        then exportOf soname host walked.content else none) := by
  have packs := file.origin.packs counted.toAddressable
  have decoded := file.decompresses same rfl (dictionary_setOptions _) counted.file read
  have entryPaths (place : Nat) : read.entryPath place = packed.manifest.entryPath place := by
    rw [sealed, Pack.entryPath_sealed]
  have entries : read.entries = packed.manifest.entries := by
    rw [sealed]
    rfl
  rcases paired_getElem? decoded listed with ⟨built, made, relPath, hash, source, member, hashes,
    bytes⟩
  rw [apart source member walked (List.mem_of_getElem? listed) hashes] at bytes
  rw [entries] at there
  exact scanEntry_file packs entryPaths same.blake3 made there relPath hash bytes

/-- What the scan of a set's artifact finds. -/
theorem scan_packed
    (file : Pack.PackedFile (setOptions name index) host tree packed payloaded compressed footer)
    (same : SameManifestCrates host readers)
    (counted : FileCounted (setOptions name index) host tree packed)
    (apart : HashesApart host (shipped (setOptions name index) host tree).files)
    (sealed : read = packed.manifest.sealed packageId footerHash) :
    ∃ scanned, scanEntries soname readers (packageData packed.output footer read (.zstd none)) read =
        .ok scanned ∧
      ∀ item, item ∈ scanned ↔
        ∃ content ∈ soObjects tree, exportOf soname host content = some item := by
  have packs := file.origin.packs counted.toAddressable
  have decoded := file.decompresses same rfl (dictionary_setOptions _) counted.file read
  have walked {place : Nat} {walked : Pack.CollectedFile} {entry : Entry} :=
    @scanEntry_walked soname _ _ _ _ _ _ _ _ _ _ _ _ file same counted apart sealed place walked entry
  have entries : read.entries = packed.manifest.entries := by
    rw [sealed]
    rfl
  refine scanEntries_eq_ok ?_ ?_
  · intro entry member
    rcases entry with ⟨entry, place⟩
    rw [List.mk_mem_zipIdx_iff_getElem?, entries] at member
    cases place with
    | zero =>
        rw [packs.listed.root] at member
        cases member
        exact Or.inl (scanEntry_other nofun)
    | succ place =>
        by_cases kind : entry.kind = .file
        · have inside := (List.getElem?_eq_some_iff.mp member).1
          rw [packs.listed.length] at inside
          have found := List.getElem?_eq_getElem (Nat.lt_of_succ_lt_succ inside)
          rcases packs.listed.entered _ _ found with ⟨other, there, entered⟩
          rw [member] at there
          cases there
          rcases Pack.itemsOf_place found with ⟨_, dir, _, same⟩ | ⟨offset, built, at_place, made, _⟩ |
            ⟨_, symlink, _, same⟩
          · have wrong := entered.kind.symm.trans kind
            rw [same] at wrong
            cases wrong
          · rcases paired_getElem? (List.Forall₂.flip decoded) made with ⟨shippedFile, listed, _⟩
            rw [at_place, ← entries] at member
            rw [at_place, walked listed member]
            split
            · next marked =>
                exact Or.inr ⟨_, mem_shipped_objects.mp
                  ⟨shippedFile, List.mem_of_getElem? listed, marked, rfl⟩, rfl⟩
            · exact Or.inl rfl
          · have wrong := entered.kind.symm.trans kind
            rw [same] at wrong
            cases wrong
        · exact Or.inl (scanEntry_other kind)
  · intro content member
    have held : ∃ file ∈ (shipped (setOptions name index) host tree).files,
        soMark <:+: Lib.joinPath (landing file.relPath) ∧ file.content = content :=
      mem_shipped_objects.mpr member
    rcases held with ⟨shippedFile, within, marked, same⟩
    rcases List.getElem?_of_mem within with ⟨place, listed⟩
    rcases paired_getElem? decoded listed with ⟨built, made, _⟩
    have found : (Pack.itemsOf (shipped (setOptions name index) host tree) payloaded.files)[
        (shipped (setOptions name index) host tree).dirs.length + place]? =
          some (Pack.fileItem built) := Pack.itemsOf_fileItem made
    rcases packs.listed.entered _ _ found with ⟨entry, there, _⟩
    rw [← entries] at there
    refine ⟨(entry, _), List.mk_mem_zipIdx_iff_getElem?.mpr there, ?_⟩
    rw [walked listed there, if_pos marked, same]

end

/-! ### What is published can be read -/

/-- The readers of an artifact find the names of its index, each exported by one object. -/
def ExportsReadable (soname : Bytes → Option Text) (readers : Readers) (file : Bytes) : Prop :=
  ∃ index found, readIndex readers file = .ok index ∧
    verifiedExportHashes soname readers file = .ok found ∧
      found.map SetExport.soname = index.exports

/-- Every exported name is exported by a packed file with `.so` in its path, and by one alone of
those. -/
structure Consistent (soname : Bytes → Option Text) (tree : Pack.Tree) : Prop where
  covered : ∀ name ∈ verifiedExports soname tree,
    ∃ content ∈ soObjects tree, exportedName soname content = some name
  single : ∀ first ∈ soObjects tree, ∀ second ∈ soObjects tree, ∀ name,
    exportedName soname first = some name → exportedName soname second = some name → first = second

/-- The exports found are consistent with those recorded where the tree's are. -/
theorem consistent_iff {scanned : List SetExport}
    (apart : ∀ first ∈ soObjects tree, ∀ second ∈ soObjects tree,
      host.blake3 first = host.blake3 second → first = second)
    (members : ∀ item, item ∈ scanned ↔
      ∃ content ∈ soObjects tree, exportOf soname host content = some item) :
    ((∀ first ∈ scanned, ∀ second ∈ scanned, first.soname = second.soname → first = second) ∧
        ∀ name, name ∈ verifiedExports soname tree ↔ ∃ item ∈ scanned, item.soname = name) ↔
      Consistent soname tree := by
  have exported {content : Bytes} {name : Text} (within : content ∈ soObjects tree)
      (exports : exportedName soname content = some name) :
      (⟨name, host.blake3 content⟩ : SetExport) ∈ scanned :=
    (members _).mpr ⟨content, within, by rw [exportOf, exports]; rfl⟩
  have origin {item : SetExport} (member : item ∈ scanned) :
      ∃ content ∈ soObjects tree, exportedName soname content = some item.soname ∧
        item.blake3 = host.blake3 content := by
    rcases (members item).mp member with ⟨content, within, made⟩
    rcases Option.map_eq_some_iff.mp made with ⟨name, exports, same⟩
    rw [← same]
    exact ⟨content, within, exports, rfl⟩
  constructor
  · intro both
    refine ⟨fun name member => ?_, fun first here second there name exports also => ?_⟩
    · rcases (both.2 name).mp member with ⟨item, found, same⟩
      rcases origin found with ⟨content, within, exports, _⟩
      exact ⟨content, within, same ▸ exports⟩
    · have equal := both.1 _ (exported here exports) _ (exported there also) rfl
      exact apart first here second there (congrArg SetExport.blake3 equal)
  · intro consistent
    refine ⟨fun first here second there same => ?_, fun name => ⟨fun member => ?_, fun held => ?_⟩⟩
    · rcases origin here with ⟨content, within, exports, hash⟩
      rcases origin there with ⟨other, also, others, hashes⟩
      rw [← same] at others
      rw [consistent.single content within other also _ exports others] at hash
      exact SetExport.ext same (hash.trans hashes.symm)
    · rcases consistent.covered name member with ⟨content, within, exports⟩
      exact ⟨_, exported within exports, rfl⟩
    · rcases held with ⟨item, member, same⟩
      rcases origin member with ⟨content, within, exports, _⟩
      rcases mem_soObjects.mp within with ⟨entry, inside, node, _⟩
      exact mem_verifiedExports.mpr ⟨entry, inside, content, node, same ▸ exports⟩

/-- What stands behind a published artifact. -/
structure Published (soname : Bytes → Option Text) (host : Host) (readers : Readers)
    (tree : Pack.Tree) (name : Text) (index : Bytes) (packed : Packed) : Prop where
  ran : Pack.pack (setOptions name index) host tree = some packed
  read : ∃ found, readIndex readers packed.output = .ok found ∧
    found.exports = verifiedExports soname tree

theorem packSet_published {readers : Readers} {packed : Packed}
    (encoded : encodeProviderIndex soname tree name = .ok index)
    (ran : packSet soname host readers tree name = some packed) :
    Published soname host readers tree name index packed := by
  simp only [packSet, Option.bind_eq_bind, Option.bind_eq_some_iff, Option.some.injEq, encoded]
    at ran
  rcases ran with ⟨_, _, bytes, same, _, packs, hash, verified, built⟩
  cases same
  cases built
  refine ⟨packs, ?_⟩
  rcases Except.andThen_eq_ok.mp (ok_of_toOption verified) with ⟨found, read, rest⟩
  rw [Except.followed_eq_ok, checkIndex, Except.followed_eq_ok, refuseIf_eq_ok, refuseIf_eq_ok,
    not_ne_iff, not_ne_iff] at rest
  exact ⟨found, read, rest.1.2⟩

/-- The readers of a published set find what its index names exactly where every exported name is
exported by one packed file with `.so` in its path. -/
theorem packSet_readable_iff (soname : Bytes → Option Text) (host : Host) (readers : Readers)
    (same : SameManifestCrates host readers) (tree : Pack.Tree) (name : Text) {index : Bytes}
    (encoded : encodeProviderIndex soname tree name = .ok index)
    (apart : HashesApart host (shipped (setOptions name index) host tree).files) {packed : Packed}
    (counted : FileCounted (setOptions name index) host tree packed)
    (ran : packSet soname host readers tree name = some packed) :
    ExportsReadable soname readers packed.output ↔ Consistent soname tree := by
  have published := packSet_published encoded ran
  rcases published.read with ⟨found, read, exports⟩
  rcases Pack.pack_file published.ran with ⟨payloaded, compressed, footer, file⟩
  have opens : ∃ opened, readFooterAndManifest readers packed.output = .ok opened := by
    rcases Except.andThen_eq_ok.mp read with ⟨_, packedFile, _⟩
    rcases Except.andThen_eq_ok.mp (mapError_eq_ok.mp packedFile) with ⟨opened, here, _⟩
    exact ⟨opened, here⟩
  rcases opens with ⟨opened, opens⟩
  rcases file.opens same rfl (dictionary_setOptions _) counted opens with
    ⟨footers, packageId, footerHash, sealed⟩
  rcases @scan_packed soname _ _ _ _ _ _ _ _ _ _ _ _ file same counted apart sealed with
    ⟨scanned, scans, members⟩
  have codec : openCodec readers packed.output opened.1 = .ok (.zstd none) := by
    rw [footers]
    exact file.openCodec rfl (dictionary_setOptions _)
  rw [← footers] at scans
  have ascending : found.exports.Pairwise (· < ·) := by
    rw [exports]
    exact sortDedup_sorted _
  have hashes : verifiedExportHashes soname readers packed.output =
      checkFound found (sortDedup scanned) := by
    simp only [verifiedExportHashes, read, opens, codec, scans, Except.mapError, bind, Except.bind]
  have readable : ExportsReadable soname readers packed.output ↔
      (∀ first ∈ scanned, ∀ second ∈ scanned, first.soname = second.soname → first = second) ∧
        ∀ name, name ∈ found.exports ↔ ∃ item ∈ scanned, item.soname = name := by
    rw [ExportsReadable, hashes]
    simp only [read, Except.ok.injEq, checkFound_eq_ok ascending]
    constructor
    · intro held
      rcases held with ⟨_, _, _, ⟨_, single, names⟩, _⟩
      exact ⟨single, names⟩
    · intro both
      have passed := (checkFound_eq_ok ascending).mpr ⟨rfl, both⟩
      exact ⟨found, sortDedup scanned, rfl, ⟨rfl, both⟩, checkFound_names passed⟩
  have files : ∀ first ∈ soObjects tree, ∀ second ∈ soObjects tree,
      host.blake3 first = host.blake3 second → first = second := by
    intro first here second there equal
    rcases mem_shipped_objects.mpr here with ⟨one, within, _, content⟩
    rcases mem_shipped_objects.mpr there with ⟨other, also, _, contents⟩
    rw [← content, ← contents] at equal ⊢
    exact apart one within other also equal
  rw [readable, exports]
  exact consistent_iff files members

end

/-! ### A plugin of another name -/

/-- A program header of a segment that is mapped where it lies in the file. -/
def programHeader (kind offset size : Nat) : Bytes :=
  leBytes 4 kind ++ leBytes 4 4 ++ leBytes 8 offset ++ leBytes 8 offset ++ leBytes 8 offset ++
    leBytes 8 size ++ leBytes 8 size ++ leBytes 8 8

/-- A shared object of a dynamic section and its strings, whose `DT_SONAME` is `libplug.so`. -/
def pluginObject : Bytes :=
  [127, 69, 76, 70, 2, 1, 1] ++ List.replicate 9 0 ++ leBytes 2 3 ++ leBytes 2 62 ++ leBytes 4 1 ++
    leBytes 8 0 ++ leBytes 8 64 ++ leBytes 8 0 ++ leBytes 4 0 ++ leBytes 2 64 ++ leBytes 2 56 ++
    leBytes 2 2 ++ leBytes 2 64 ++ leBytes 2 0 ++ leBytes 2 0 ++ programHeader 1 0 252 ++
    programHeader 2 176 64 ++ leBytes 8 14 ++ leBytes 8 1 ++ leBytes 8 5 ++ leBytes 8 240 ++
    leBytes 8 10 ++ leBytes 8 12 ++ leBytes 8 0 ++ leBytes 8 0 ++ [0] ++ utf8 "libplug.so" ++ [0]

def pluginSoname (content : Bytes) : Option Text :=
  if content = pluginObject then some (lossyText (utf8 "libplug.so")) else none

def entrypointScript : Bytes :=
  utf8 "#!/bin/sh\necho 'onelf dependency build; not meant to be run'\n"

/-- A set of one plugin, whose file has no `.so` in its name. -/
def pluginTree : Pack.Tree where
  entries := [Pack.plainEntry ["bin"] .dir, Pack.plainEntry ["bin", "onelf-set"]
      (.file entrypointScript), Pack.plainEntry [".onelf"] .dir,
    Pack.plainEntry [".onelf", "sonames"] (.file [10]), Pack.plainEntry ["lib"] .dir,
    Pack.plainEntry ["lib", "plugin.node"] (.file pluginObject)]
  output := none
  distinct := by decide +kernel
  named := by decide +kernel
  parents := by decide +kernel
  targets := by decide +kernel

def pluginName : Text := lossyText (utf8 "plugins")

def pluginIndex : Bytes :=
  ((encodeProviderIndex pluginSoname pluginTree pluginName).toOption).getD []

/-- A zstd frame of one raw block. -/
def rawFrame (bytes : Bytes) : Bytes :=
  [0x28, 0xB5, 0x2F, 0xFD] ++
    (if bytes.length < 256 then [0x20] ++ leBytes 1 bytes.length
      else [0x60] ++ leBytes 2 (bytes.length - 256)) ++
    leBytes 3 (8 * bytes.length + 1) ++ bytes

def rawDecompress (frame : Bytes) (cap : Nat) : Option Bytes :=
  let bytes := frame.drop (if frame[4]? = some 0x20 then 9 else 10)
  if bytes.length ≤ cap then some bytes else none

def pluginHashes : List (Bytes × Nat) :=
  [(pluginObject, 0x7bb3681de055fd7064d98499a007d82b91cd9cf7b7442150a870a019f927841),
    (entrypointScript, 0xb777bbc46aa63692c3ec00f75f27fb030c86ffb69dfad867d9e6a05efc8ebda),
    (pluginIndex, 0x53247197f5363697459436b5f6f30accb0221ea285d5122fa9154e91d8387715),
    (Pack.joined (Pack.envLines (setOptions pluginName pluginIndex)),
      0x6bebda41bf8e90c3d669945d2a8dc2645dd92122493c52dc83476bc1bca6406e),
    ([10], 0x7ac6207c194c0a09f5423804bdcd808519f0e587751a3b566d56c81eea925129),
    ([127, 69, 76, 70], 0x385c67a6e3244d2d88338eaa3b43dfe44374caffea677c41297e6ff79acfa000)]

/-- The crates on the set's own files, and on the one manifest and footer it has. -/
def pluginHost : Host :=
  { Pack.plainHost 0 0 0xcec53a with
    blake3 := fun bytes =>
      let digest :=
        if bytes.length = Runtime.footerSize then
          0xe8316c3eb0accfd9952bd6724537908755b1849cfa25f9900c44a527490e8612
        else ((pluginHashes.find? fun entry => entry.1 = bytes).map Prod.snd).getD
          0xb2a275f21f8f6864843bc26a0901aebfe266ba0e3c0b64ca992f85a338077363
      ⟨leBytes 32 digest, length_leBytes 32 digest⟩
    compress := fun _ block => some (rawFrame block)
    compressManifest := fun bytes => some (rawFrame bytes) }

def pluginReaders : Readers where
  crates := ⟨pluginHost.blake3, fun _ => 0, rawDecompress, fun _ _ _ => none⟩
  bulkWith _ frame cap := orError .invalidData (rawDecompress frame cap)
  xxh32 := pluginHost.xxh32
  openImage _ _ _ := none

theorem rawDecompress_rawFrame (bytes : Bytes) :
    rawDecompress (rawFrame bytes) bytes.length = some bytes := by
  rw [rawDecompress, rawFrame]
  split
  · simp [leBytes]
  · simp [leBytes]

theorem pluginReaders_same : SameManifestCrates pluginHost pluginReaders where
  blake3 := rfl
  frames dict run frame encoded := by
    cases encoded
    have decoded : orError ReadError.invalidData (rawDecompress (rawFrame run) run.length) =
        .ok run := orError_eq_ok.mpr (rawDecompress_rawFrame run)
    cases dict with
    | none => exact decoded
    | some dict => exact decoded
  manifest bytes frame encoded := by
    cases encoded
    exact rawDecompress_rawFrame bytes
  checksum _ := length_leBytes 4 _

theorem pluginTree_encodes :
    encodeProviderIndex pluginSoname pluginTree pluginName = .ok pluginIndex := by
  decide +kernel

/-- The one run of the packing that everything else about the set is read off. -/
theorem pluginTree_run :
    (packSet pluginSoname pluginHost pluginReaders pluginTree pluginName).any (fun packed =>
      decide (packed.output.length < 2 ^ 64) && (decide (packed.manifestBytes.length < 2 ^ 64) &&
        !(verifiedExportHashes pluginSoname pluginReaders packed.output).isOk)) = true := by
  decide +kernel

theorem pluginTree_published :
    (packSet pluginSoname pluginHost pluginReaders pluginTree pluginName).isSome = true := by
  obtain ⟨packed, ran, _⟩ := (Option.any_eq_true _ _).mp pluginTree_run
  rw [ran]
  rfl

theorem pluginTree_held {packed : Packed}
    (ran : packSet pluginSoname pluginHost pluginReaders pluginTree pluginName = some packed) :
    packed.output.length < 2 ^ 64 ∧ packed.manifestBytes.length < 2 ^ 64 ∧
      (verifiedExportHashes pluginSoname pluginReaders packed.output).isOk = false := by
  have held := pluginTree_run
  rw [ran, Option.any_some, Bool.and_eq_true, Bool.and_eq_true, Bool.not_eq_true'] at held
  exact ⟨of_decide_eq_true held.1, of_decide_eq_true held.2.1, held.2.2⟩

theorem pluginTree_apart : HashesApart pluginHost
    (shipped (setOptions pluginName pluginIndex) pluginHost pluginTree).files := by
  have all : ((shipped (setOptions pluginName pluginIndex) pluginHost pluginTree).files.all
      fun first => (shipped (setOptions pluginName pluginIndex) pluginHost pluginTree).files.all
        fun second => !decide (pluginHost.blake3 first.content = pluginHost.blake3 second.content) ||
          decide (first.content = second.content)) = true := by
    decide +kernel
  intro first here second there same
  have pair := List.all_eq_true.mp (List.all_eq_true.mp all first here) second there
  rw [decide_eq_true same] at pair
  exact of_decide_eq_true pair

theorem pluginTree_counted {packed : Packed}
    (ran : packSet pluginSoname pluginHost pluginReaders pluginTree pluginName = some packed) :
    FileCounted (setOptions pluginName pluginIndex) pluginHost pluginTree packed where
  strings := by decide +kernel
  entries := by decide +kernel
  blocks := Pack.blocksCounted_of_all (by decide +kernel)
  rows := by decide +kernel
  libDirs := by decide +kernel
  file := (pluginTree_held ran).1
  manifest := (pluginTree_held ran).2.1

/-- It is published, and its readers refuse it. -/
theorem packSet_publishes_unreadable : ¬∀ (soname : Bytes → Option Text) (host : Host)
    (readers : Readers) (tree : Pack.Tree) (name : Text) (index : Bytes) (packed : Packed),
    SameManifestCrates host readers → encodeProviderIndex soname tree name = .ok index →
      HashesApart host (shipped (setOptions name index) host tree).files →
        FileCounted (setOptions name index) host tree packed →
          packSet soname host readers tree name = some packed →
            ExportsReadable soname readers packed.output := by
  intro readable
  rcases Option.isSome_iff_exists.mp pluginTree_published with ⟨packed, ran⟩
  rcases readable pluginSoname pluginHost pluginReaders pluginTree pluginName pluginIndex packed
    pluginReaders_same pluginTree_encodes pluginTree_apart (pluginTree_counted ran) ran with
    ⟨_, found, _, hashes, _⟩
  have refused := (pluginTree_held ran).2.2
  rw [hashes] at refused
  cases refused

theorem packSet_readable_plugin :
    ExportsReadable pluginSoname pluginReaders
        ((packSet pluginSoname pluginHost pluginReaders pluginTree pluginName).get
          pluginTree_published).output ↔
      Consistent pluginSoname pluginTree :=
  have ran := (Option.some_get pluginTree_published).symm
  packSet_readable_iff pluginSoname pluginHost pluginReaders pluginReaders_same pluginTree pluginName
    pluginTree_encodes pluginTree_apart (pluginTree_counted ran) ran

end Onelf.Cli.Build
