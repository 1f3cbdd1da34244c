import Onelf.Cli.Pack.Opened
import Onelf.Runtime.Fuse.Agreement

/-! A package that was packed, loaded and mounted (`loader.rs`): what is read of each file. -/

namespace Onelf.Runtime.Fuse

open Onelf.Lib

variable {crates : Crates} {pkg : PackageData}

/-- Where every block verifies, a read is answered. -/
theorem readBlocks_answers {state : FuseState} (sound : state.Sound crates pkg) (now : Nat)
    (turns : Nat → List Nat) {inode : Nat} {entry : Entry}
    (found : pkg.manifest.entries[inodeToEntry inode]? = some entry)
    (verified : ∀ block ∈ entry.blocks, ∃ run, readPayloadEntry crates pkg block = some run ∧
      run.length = block.originalSize) {offset size : Nat}
    (fits : claimedSize entry.blocks + size < u64Limit) :
    ∃ slices, (readBlocks crates pkg now turns state inode entry offset size).2 =
      replyData slices := by
  have total : totalSize entry.blocks = claimedSize entry.blocks := totalSize_eq (by omega)
  rw [readBlocks, total]
  split
  · exact ⟨[], rfl⟩
  · next inside =>
      have stop : readStop entry.blocks offset size =
          min (offset + size) (claimedSize entry.blocks) := by
        rw [readStop, total, wrappingAdd_of_lt (by omega)]
      have needs {span : Span} (needed : span ∈ neededBlocks entry.blocks offset
          (min (offset + size) (claimedSize entry.blocks))) :
          ∃ run, readPayloadEntry crates pkg span.block = some run ∧
            run.length = span.block.originalSize :=
        verified _ (List.mem_of_getElem? (mem_spansFrom (List.mem_filter.mp needed).1).2)
      rw [stop, readNeeded_eq sound now turns found (by omega) (by omega) (by omega) (by omega),
        if_pos]
      · exact ⟨_, rfl⟩
      · refine List.all_eq_true.mpr fun span needed => ?_
        rcases needs needed with ⟨run, read, -⟩
        rw [read]
        rfl
      · intro span needed
        have within := (span_inside (by omega) (List.mem_filter.mp needed).1).2
        rcases needs needed with ⟨run, read, length⟩
        rw [freshBlock, read, Option.getD_some, length]
        omega

/-- Whatever was served before, a read of a file whose blocks all verify is answered with the window
of their content. -/
theorem handleRead_window {index : Nat} {entry : Entry}
    (found : pkg.manifest.entries[index]? = some entry) (file : entry.kind = .file)
    (serves : admitted crates pkg entry = true) (filled : entry.blocks ≠ []) {runs : List Bytes}
    (verified : List.Forall₂ (fun block run => readPayloadEntry crates pkg block = some run ∧
      run.length = block.originalSize) entry.blocks runs)
    (sized : runs.flatten.length + 2 ^ 32 ≤ u64Limit) (budget : Nat)
    (named : List (Nat × Nat)) (window threads : Nat) (events : List Event) (now : Nat)
    (turns : Nat → List Nat) (readIn : FuseReadIn) (opened : readIn.fh = entryToInode index) :
    ∃ slices, (handleRead crates pkg now turns
        (serve crates pkg (FuseState.new pkg.manifest budget named window threads) events)
        (some readIn)).2 = replyData slices ∧
      slices.flatten = slice runs.flatten readIn.offset.toNat readIn.size.toNat := by
  have fresh : (FuseState.new pkg.manifest budget named window threads).Sound crates pkg :=
    sound_new pkg.manifest rfl budget named window threads
  have sound := fresh.serve events
  have listed : pkg.manifest.entries[inodeToEntry readIn.fh]? = some entry := by
    rw [opened, inodeToEntry, entryToInode, Nat.add_sub_cancel]
    exact found
  have checked := verifyEntry_eq sound listed
  rw [handleRead_eq now turns _ opened found, readEntry,
    if_neg (by simpa using filled)]
  have truthful : Truthful crates pkg entry := by
    intro block inside data read
    rcases forall₂_mem verified inside with ⟨run, -, verifies, length⟩
    rw [read, Option.some.injEq] at verifies
    rw [verifies, length]
  have content : Contents crates pkg entry.blocks runs :=
    verified.imp fun block run held => by rw [held.1]
  have length := content.length_flatten truthful
  have small := readIn.size.toNat_lt
  split
  · next reached passed =>
      rw [passed] at checked
      have fits : claimedSize entry.blocks + readIn.size.toNat < u64Limit := by omega
      have agrees : (readBlocks crates pkg now turns reached readIn.fh entry readIn.offset.toNat
          readIn.size.toNat).2.Agrees crates pkg entry readIn.offset.toNat readIn.size.toNat :=
        readBlocks_agrees checked.1 now turns listed file truthful fits
      have answers : ∃ slices, (readBlocks crates pkg now turns reached readIn.fh entry
          readIn.offset.toNat readIn.size.toNat).2 = replyData slices :=
        readBlocks_answers checked.1 now turns listed (fun block inside =>
          (forall₂_mem verified inside).imp fun run held => held.2) fits
      rcases answers with ⟨slices, reply⟩
      rw [reply] at agrees
      exact ⟨slices, reply, (agrees runs content).2⟩
  · next reached refused =>
      have other := checked.2.symm.trans (congrArg Prod.snd refused)
      rw [serves] at other
      cases other

end Onelf.Runtime.Fuse

namespace Onelf.Cli.Pack

open Onelf.Lib hiding Holds
open Onelf.Format
open Onelf.Runtime (Block PackageData readPayloadBlocks readPayloadEntry readVerifiedEntry)
open Onelf.Runtime.Fuse

/-- `load_file`: the package that a launch runs from. -/
def loadFile (readers : Readers) (file : Bytes) : Except ArtifactError PackageData := do
  let opened ← readFooterAndManifest readers file
  let codec ← openCodec readers file opened.1
  .ok (packageData file opened.1 opened.2 codec)

/-- The runtime links the crates that packed. -/
structure RuntimeCrates (host : Host) (readers : Readers) : Prop where
  blake3 : readers.crates.blake3 = host.blake3
  plain : ∀ run frame, host.compress none run = some frame →
    readers.crates.decompress frame run.length = some run
  coded : ∀ dict run frame, host.compress (some dict) run = some frame →
    readers.crates.decompressWith frame dict (run.length + 1) = some run
  manifest : ∀ bytes frame, host.compressManifest bytes = some frame →
    readers.crates.decompress frame bytes.length = some bytes
  checksum : ∀ bytes, (host.xxh32 bytes).length = 4
  trained : ∀ samples size dict, host.trainDictionary samples size = some dict →
    dict ≠ [] ∧ dict.length ≤ size

section
variable {opts : PackOptions} {host : Host} {tree : Tree} {readers : Readers} {packed : Packed}
  {payloaded : Payloaded} {compressed : Bytes} {footer : Footer}

theorem RuntimeCrates.counted (same : RuntimeCrates host readers) :
    DictCounted (packDictionary opts host tree) := by
  intro dict trained
  rw [packDictionary, dictionary] at trained
  split at trained
  · rw [buildDictionary] at trained
    split at trained
    · cases trained
    · rcases same.trained _ _ _ trained with ⟨filled, short⟩
      exact ⟨filled, by omega⟩
  · cases trained

/-- A package that is loaded is the one that was packed. -/
theorem PackedFile.loads (file : PackedFile opts host tree packed payloaded compressed footer)
    (same : RuntimeCrates host readers) (blocks : opts.payload = .blocks)
    (counted : FileCounted opts host tree packed) {pkg : PackageData}
    (loaded : loadFile readers packed.output = .ok pkg) :
    StandsIn opts (packDictionary opts host tree) payloaded.payload pkg ∧
      ∃ packageId footerHash,
        pkg.manifest = runtimeManifest (packed.manifest.sealed packageId footerHash) := by
  rcases Except.andThen_eq_ok.mp loaded with ⟨opened, opens, loaded⟩
  rcases Except.andThen_eq_ok.mp loaded with ⟨codec, decodes, built⟩
  cases built
  rcases file.opens_with blocks same.counted same.checksum same.manifest counted opens with
    ⟨written, packageId, footerHash, sealed⟩
  rw [written, file.codec blocks same.counted counted.file] at decodes
  cases decodes
  rw [written, sealed]
  exact ⟨file.standsIn blocks same.counted counted.file _, packageId, footerHash, rfl⟩

end

/-! ### What is read through the mount -/

section
variable {opts : PackOptions} {host : Host} {readers : Readers} {dict : Option Bytes}
  {payload : Bytes} {pkg : PackageData}

/-- A block is read as the run that was encoded. -/
theorem readPayloadEntry_of_holds (same : RuntimeCrates host readers)
    (stands : StandsIn opts dict payload pkg) {block : Block} {run : Bytes}
    (holds : HoldsRun opts host dict payload block run) :
    readPayloadEntry readers.crates pkg block = some run := by
  rcases stands.reads holds.inside with ⟨extent, located, read⟩
  rcases encodeBlock_eq_some.mp holds.encoded with ⟨made, size, hash⟩
  refine Runtime.readPayloadEntry_eq_some.mpr ⟨?_, fun _ => ?_⟩
  · rw [encodedAs] at made
    rw [Runtime.readBlock, stands.codec]
    dsimp only
    rw [located, Option.bind_eq_bind, Option.bind_some, read, Option.bind_eq_bind,
      Option.bind_some, stands.stored]
    split
    · next raw => rw [if_pos raw] at made; exact made.symm
    · next packed =>
        rw [if_neg packed] at made
        have bound : ¬run.length > Runtime.maxBlockOriginal :=
          Nat.not_lt.mpr (Nat.le_trans holds.small (by decide))
        have length : block.originalSize = run.length := size
        rw [Runtime.blockOriginalSize, length, if_neg bound, Option.bind_eq_bind,
          Option.bind_some]
        cases dict with
        | none =>
            rw [Runtime.decodeBlock, same.plain run _ made]
            exact if_neg (not_not.mpr rfl)
        | some dict =>
            rw [Runtime.decodeBlock, same.coded dict run _ made]
            exact if_neg (not_not.mpr rfl)
  · rw [same.blake3]
    exact hash.symm

/-- Content that the blocks hold is read whole. -/
theorem readPayloadBlocks_of_holds (same : RuntimeCrates host readers)
    (stands : StandsIn opts dict payload pkg) {blocks : List Block} {content : Bytes}
    (holds : HoldsContent opts host dict payload blocks content) :
    readPayloadBlocks readers.crates pkg blocks = some content := by
  rcases holds with ⟨runs, whole, held⟩
  induction held generalizing content with
  | nil =>
      rw [← whole]
      rfl
  | cons first _ ih =>
      have read := (Runtime.readPayloadEntry_eq_some.mp
        (readPayloadEntry_of_holds same stands first)).1
      rw [← whole, readPayloadBlocks, read, ih rfl]
      rfl

end

section
variable {opts : PackOptions} {host : Host} {tree : Tree} {readers : Readers} {packed : Packed}

end

/-! ### The small package, mounted -/

/-- The crates on the small package: its blocks are stored, its manifest is one raw block. -/
def appReaders : Readers where
  crates := ⟨appHost.blake3, fun _ => 0, fun frame _ => some (frame.drop 10), fun _ _ _ => none⟩
  bulkWith _ _ _ := .error .invalidData
  xxh32 := appHost.xxh32
  openImage _ _ _ := none

theorem appReaders_same : RuntimeCrates appHost appReaders where
  blake3 := rfl
  plain _ _ framed := by cases framed
  coded _ _ _ framed := by cases framed
  manifest bytes frame framed := by
    cases framed
    rfl
  checksum _ := length_leBytes 4 _
  trained _ _ _ trained := by cases trained

theorem plainTree_loads : (pack plainOptions appHost plainTree).all (fun packed =>
    decide (packed.output.length < 2 ^ 64) && (decide (packed.manifestBytes.length < 2 ^ 64) &&
      (loadFile appReaders packed.output).isOk)) = true := by decide +kernel

end Onelf.Cli.Pack
