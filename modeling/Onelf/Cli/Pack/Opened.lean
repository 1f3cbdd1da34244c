import Onelf.Cli.Pack.Decodes
import Onelf.Cli.Pack.Loads

/-! A package file read back: its footer, its manifest and where its payload stands. -/

namespace Onelf.Cli.Pack

open Onelf.Lib hiding Holds
open Onelf.Format

/-- What a footer's flags are set from. -/
def flagsFrom (hasDict memfd stored external : Bool) (policy : HostLibsPolicy)
    (cache prefer : Bool) : List Flag :=
  (if hasDict then [.hasDict] else []) ++ (if memfd then [.memfdHint] else []) ++
    (if stored then [.stored] else []) ++ (if external then [.externalUpdater] else []) ++
    policyFlags policy ++ (if cache then [.cacheRequested] else []) ++
    (if prefer then [.cachePreferred] else [])

/-- The flags of a payload of blocks say how to read it. -/
structure FlagsTell (flags : Nat) (hasDict stored : Bool) : Prop where
  small : flags < 256 ^ 2
  hasDict : Flag.hasDict.isIn flags = hasDict
  stored : Flag.stored.isIn flags = stored
  stipple : Flag.stipplePayload.isIn flags = false

theorem flagsFrom_tell (hasDict memfd stored external : Bool) (policy : HostLibsPolicy)
    (cache prefer : Bool) :
    FlagsTell (flagBits (flagsFrom hasDict memfd stored external policy cache prefer)) hasDict
      stored := by
  have all : ∀ hasDict memfd stored external cache prefer : Bool,
      let flags := flagBits (flagsFrom hasDict memfd stored external policy cache prefer)
      flags < 256 ^ 2 ∧ Flag.hasDict.isIn flags = hasDict ∧ Flag.stored.isIn flags = stored ∧
        Flag.stipplePayload.isIn flags = false := by
    cases policy with
    | never => decide
    | auto => decide
    | always => decide
  have facts := all hasDict memfd stored external cache prefer
  exact ⟨facts.1, facts.2.1, facts.2.2.1, facts.2.2.2⟩

section
variable {opts : PackOptions} {host : Host} {tree : Tree}

theorem footerFlags_blocks (blocks : opts.payload = .blocks) (dict : Option Bytes)
    (files : List CollectedFile) :
    footerFlags opts host dict files = flagsFrom dict.isSome (opts.memfd = some true)
      opts.noCompress (opts.updateUrl.isSome && !opts.embedUpdater)
      (hostLibsPolicy opts host files) (opts.cache || opts.preferCache) opts.preferCache := by
  rw [footerFlags, flagsFrom, blocks]
  simp only [decide_eq_true_eq]

theorem length_patchRuntime (runtime : Bytes) : (patchRuntime runtime).length = runtime.length := by
  rw [patchRuntime]
  split
  · have mark : (utf8 "ONELF" ++ [0]).length = 6 := by decide +kernel
    rw [List.length_append, List.length_append, mark, List.length_take, List.length_drop]
    omega
  · rfl

/-- A package file part by part. -/
structure PackedFile (opts : PackOptions) (host : Host) (tree : Tree) (packed : Packed)
    (payloaded : Payloaded) (compressed : Bytes) (footer : Footer) : Prop where
  origin : PackedFrom opts host tree packed payloaded
  compresses : host.compressManifest packed.manifestBytes = some compressed
  finished : ∃ checksum, footer = finishFooter
    (draftFooter opts host (dictionary opts host (shipped opts host tree).files)
      (shipped opts host tree).files payloaded.payloadSize checksum)
    (dictionary opts host (shipped opts host tree).files) packed.manifestBytes compressed ∧
      ∃ bytes, checksum = host.xxh32 bytes
  output : packed.output = patchRuntime host.runtime ++ compressed ++ payloaded.payload ++
    (dictionary opts host (shipped opts host tree).files).getD [] ++ footerBytes footer

theorem pack_file {packed : Packed} (ran : pack opts host tree = some packed) :
    ∃ payloaded compressed footer, PackedFile opts host tree packed payloaded compressed footer := by
  simp only [pack, Option.bind_eq_bind, Option.bind_eq_some_iff, Option.guard_eq_some'] at ran
  rcases ran with ⟨_, _, _, free, _, accepted, payloaded, payload, manifest, made, compressed,
    compresses, _, output, built⟩
  rw [Option.isNone_iff_eq_none] at free
  rw [Bool.not_eq_true'] at output
  cases built
  refine ⟨payloaded, compressed, _, ⟨⟨free, output⟩, accepted, payload, made, _, _,
    Manifest.overwrite_serialize manifest _ _⟩, compresses, ⟨_, rfl, _, rfl⟩, rfl⟩

/-! ### Reading it -/

/-- The file and its parts are small enough to be counted. -/
structure FileCounted (opts : PackOptions) (host : Host) (tree : Tree) (packed : Packed) : Prop
    extends Addressable opts host tree where
  blocks : BlocksCounted opts host tree
  rows : (tableRows opts).length < 2 ^ 16
  libDirs : (resolveLibDirs opts host tree).length < 2 ^ 16
  file : packed.output.length < 2 ^ 64
  manifest : packed.manifestBytes.length < 2 ^ 64

/-- The manifest and the checksum are decoded as they were encoded. -/
structure SameManifestCrates (host : Host) (readers : Readers) : Prop
    extends SameCrates host readers where
  manifest : ∀ bytes frame, host.compressManifest bytes = some frame →
    readers.crates.decompress frame bytes.length = some bytes
  checksum : ∀ bytes, (host.xxh32 bytes).length = 4

section
variable {packed : Packed} {payloaded : Payloaded} {compressed : Bytes} {footer : Footer}
  {readers : Readers}

/-- The dictionary a package is compressed against. -/
def packDictionary (opts : PackOptions) (host : Host) (tree : Tree) : Option Bytes :=
  dictionary opts host (shipped opts host tree).files

/-- A dictionary is not empty, and the footer can count it. -/
def DictCounted (dict : Option Bytes) : Prop :=
  ∀ bytes, dict = some bytes → bytes ≠ [] ∧ bytes.length < 2 ^ 32

theorem dictCounted_none {dict : Option Bytes} (plain : dict = none) : DictCounted dict := by
  rw [plain]
  nofun

/-- The regions lie one behind the other. -/
structure Regions (host : Host) (packed : Packed) (payloaded : Payloaded) (compressed : Bytes)
    (footer : Footer) (dict : Option Bytes) (stored : Bool) : Prop where
  manifestOffset : footer.manifestOffset = host.runtime.length
  manifestCompressed : footer.manifestCompressed = compressed.length
  manifestOriginal : footer.manifestOriginal = packed.manifestBytes.length
  payloadOffset : footer.payloadOffset = host.runtime.length + compressed.length
  payloadSize : footer.payloadSize = payloaded.payloadSize
  dictOffset : footer.dictOffset = if dict.isSome then
    host.runtime.length + compressed.length + payloaded.payloadSize else 0
  dictSize : footer.dictSize = (dict.getD []).length
  formatVersion : footer.formatVersion = footerFormatVersion
  flags : FlagsTell footer.flags dict.isSome stored

/-- The bytes of a region. -/
theorem reads_region {lead region tail bytes : Bytes} (file : bytes = lead ++ region ++ tail) :
    Runtime.readExactAt bytes lead.length region.length = some region := by
  rw [Runtime.readExactAt, file, List.append_assoc, slice, List.drop_left, List.take_left,
    if_pos (by rw [List.length_append]; omega)]

section
variable (file : PackedFile opts host tree packed payloaded compressed footer)
include file

theorem PackedFile.lengths
    (checksum : footer.manifestChecksum.length = 4) :
    packed.output.length = host.runtime.length + compressed.length + payloaded.payload.length +
      ((dictionary opts host (shipped opts host tree).files).getD []).length +
        Runtime.footerSize := by
  rw [file.output]
  simp only [List.length_append, length_patchRuntime, length_footerBytes checksum]

theorem PackedFile.checksum (checksums : ∀ bytes, (host.xxh32 bytes).length = 4) : footer.manifestChecksum.length = 4 := by
  rcases file.finished with ⟨checksum, built, bytes, made⟩
  rw [built, made]
  exact checksums bytes

variable (blocks : opts.payload = .blocks)
include blocks

theorem PackedFile.payload_holds (small : packed.output.length < 2 ^ 64) :
    payloaded.payloadSize = payloaded.payload.length ∧
      List.Forall₂ (fun shippedFile (built : CompressedFile) =>
        ∃ other ∈ (shipped opts host tree).files,
          host.blake3 other.content = host.blake3 shippedFile.content ∧
            HoldsContent opts host (packDictionary opts host tree) payloaded.payload built.blocks
              other.content)
        (shipped opts host tree).files payloaded.files := by
  have payload := file.origin.payload
  have lengths := congrArg List.length file.output
  simp only [List.length_append] at lengths
  rw [writePayload, blocks] at payload
  exact blocksPayload_holds payload (by omega)

variable (few : DictCounted (packDictionary opts host tree))
include few

theorem PackedFile.regions :
    Regions host packed payloaded compressed footer (packDictionary opts host tree)
      opts.noCompress := by
  rcases file.finished with ⟨checksum, built, _⟩
  rw [built]
  refine ⟨rfl, rfl, rfl, rfl, rfl, rfl, ?_, rfl, ?_⟩
  · change asU32 ((packDictionary opts host tree).elim 0 List.length) = _
    cases trained : packDictionary opts host tree with
    | none => rfl
    | some dict => exact Nat.mod_eq_of_lt (few dict trained).2
  · rw [finishFooter, draftFooter, footerFlags_blocks blocks]
    exact flagsFrom_tell _ _ _ _ _ _ _

theorem PackedFile.fits (checksums : ∀ bytes, (host.xxh32 bytes).length = 4)
    (counted : FileCounted opts host tree packed) : footer.Fits := by
  have checksum := file.checksum checksums
  have regions := file.regions blocks few
  have lengths := file.lengths checksum
  have size := (file.payload_holds blocks counted.file).1
  have whole := counted.file
  have manifest := counted.manifest
  have wide : (2 : Nat) ^ 64 = 256 ^ 8 := by decide
  refine ⟨Or.inr regions.formatVersion, regions.flags.small, ?_, ?_, ?_, ?_, ?_, ?_, ?_, checksum⟩
  · rw [regions.manifestOffset]
    omega
  · rw [regions.manifestCompressed]
    omega
  · rw [regions.manifestOriginal]
    omega
  · rw [regions.payloadOffset]
    omega
  · rw [regions.payloadSize, size]
    omega
  · rw [regions.dictOffset, size]
    split <;> omega
  · rw [regions.dictSize]
    cases trained : packDictionary opts host tree with
    | none => decide
    | some dict => exact (few dict trained).2

/-- The manifest is read out of its region. -/
theorem PackedFile.reads_manifest
    (decodes : ∀ bytes frame, host.compressManifest bytes = some frame →
      readers.crates.decompress frame bytes.length = some bytes)
    (counted : FileCounted opts host tree packed) {manifest : Manifest}
    (ran : readManifest readers packed.output footer = .ok manifest) :
    ∃ packageId footerHash, manifest = packed.manifest.sealed packageId footerHash := by
  have regions := file.regions blocks few
  rcases file.origin.bytes with ⟨packageId, footerHash, bytes⟩
  have packs := file.origin.packs counted.toAddressable
  have fits := packs.fits_sealed (counted.blocks payloaded file.origin.payload) counted.rows
    counted.libDirs packageId footerHash
  have reread := Manifest.deserialize_bodyBytes fits []
  rw [List.append_nil, ← bytes] at reread
  have output := file.output
  rw [List.append_assoc, List.append_assoc] at output
  have region := reads_region output
  rw [length_patchRuntime, ← regions.manifestOffset, ← regions.manifestCompressed] at region
  simp only [readManifest, region, regions.manifestOriginal, decodes _ _ file.compresses] at ran
  rcases Except.andThen_eq_ok.mp ran with ⟨_, _, ran⟩
  rcases Except.andThen_eq_ok.mp ran with ⟨_, _, ran⟩
  rw [reread, mapError_eq_ok] at ran
  cases checked : validate (packed.manifest.sealed packageId footerHash) with
  | error reason =>
      rw [checked] at ran
      cases ran
  | ok nothing =>
      rw [checked] at ran
      cases ran
      exact ⟨packageId, footerHash, rfl⟩

/-- What opening the file gives, if anything. -/
theorem PackedFile.opens_with (checksums : ∀ bytes, (host.xxh32 bytes).length = 4)
    (decodes : ∀ bytes frame, host.compressManifest bytes = some frame →
      readers.crates.decompress frame bytes.length = some bytes)
    (counted : FileCounted opts host tree packed) {opened : Footer × Manifest}
    (ran : readFooterAndManifest readers packed.output = .ok opened) :
    opened.1 = footer ∧ ∃ packageId footerHash,
      opened.2 = packed.manifest.sealed packageId footerHash := by
  rcases Except.andThen_eq_ok.mp ran with ⟨_, _, ran⟩
  rcases Except.andThen_eq_ok.mp ran with ⟨parsed, parses, ran⟩
  rcases Except.andThen_eq_ok.mp ran with ⟨_, valid, ran⟩
  rcases Except.andThen_eq_ok.mp ran with ⟨manifest, reads, built⟩
  cases built
  have last : packed.output.drop (packed.output.length - Runtime.footerSize) =
      footerBytes footer := by
    rw [file.output, List.length_append, length_footerBytes (file.checksum checksums),
      Nat.add_sub_cancel]
    exact List.drop_left
  rw [last, Footer.fromBytes_footerBytes (file.fits blocks few checksums counted)] at parses
  cases parses
  exact ⟨rfl, file.reads_manifest blocks few decodes counted reads⟩

/-- The codec is the one the blocks were encoded for. -/
theorem PackedFile.codec (small : packed.output.length < 2 ^ 64) :
    Cli.openCodec readers packed.output footer = .ok (.zstd (packDictionary opts host tree)) := by
  have regions := file.regions blocks few
  have size := (file.payload_holds blocks small).1
  rw [Cli.openCodec, Footer.runtime, regions.flags.stipple, regions.flags.hasDict,
    regions.dictSize, regions.dictOffset, if_neg Bool.false_ne_true]
  have output : packed.output = patchRuntime host.runtime ++ compressed ++ payloaded.payload ++
    (packDictionary opts host tree).getD [] ++ footerBytes footer := file.output
  cases trained : packDictionary opts host tree with
  | none => rfl
  | some dict =>
      have filled : dict.length ≠ 0 := fun empty =>
        (few dict trained).1 (List.length_eq_zero_iff.mp empty)
      rw [trained] at output
      have reads := reads_region output
      rw [List.length_append, List.length_append, length_patchRuntime, ← size] at reads
      dsimp only [Option.isSome_some, Option.getD_some] at reads ⊢
      rw [if_neg (not_or.mpr ⟨not_not.mpr rfl, filled⟩), if_pos rfl, reads]

theorem PackedFile.standsIn (small : packed.output.length < 2 ^ 64) (manifest : Manifest) :
    StandsIn opts (packDictionary opts host tree) payloaded.payload
      (packageData packed.output footer manifest (.zstd (packDictionary opts host tree))) := by
  have regions := file.regions blocks few
  have size := (file.payload_holds blocks small).1
  refine ⟨⟨patchRuntime host.runtime ++ compressed,
    (dictionary opts host (shipped opts host tree).files).getD [] ++ footerBytes footer, ?_, ?_⟩, ?_,
    small, rfl, regions.flags.stored⟩
  · exact file.output.trans (List.append_assoc _ _ _)
  · rw [List.length_append, length_patchRuntime]
    exact regions.payloadOffset.symm
  · exact regions.payloadSize.trans size

end

theorem PackedFile.opens (file : PackedFile opts host tree packed payloaded compressed footer)
    (same : SameManifestCrates host readers) (blocks : opts.payload = .blocks)
    (plain : dictionary opts host (shipped opts host tree).files = none)
    (counted : FileCounted opts host tree packed) {opened : Footer × Manifest}
    (ran : readFooterAndManifest readers packed.output = .ok opened) :
    opened.1 = footer ∧ ∃ packageId footerHash,
      opened.2 = packed.manifest.sealed packageId footerHash :=
  file.opens_with blocks (dictCounted_none plain) same.checksum same.manifest counted ran

theorem PackedFile.openCodec (file : PackedFile opts host tree packed payloaded compressed footer)
    (blocks : opts.payload = .blocks)
    (plain : dictionary opts host (shipped opts host tree).files = none) :
    openCodec readers packed.output footer = .ok (.zstd none) := by
  have flags := (file.regions blocks (dictCounted_none plain)).flags
  rw [Cli.openCodec, Footer.runtime, flags.stipple, flags.hasDict,
    show packDictionary opts host tree = none from plain]
  rfl

/-- Each file has an entry's worth of blocks, and these decode to its content where no other file has
its hash. -/
theorem PackedFile.decompresses
    (file : PackedFile opts host tree packed payloaded compressed footer)
    (same : SameManifestCrates host readers) (blocks : opts.payload = .blocks)
    (plain : dictionary opts host (shipped opts host tree).files = none)
    (small : packed.output.length < 2 ^ 64) (manifest : Manifest) :
    List.Forall₂ (fun shippedFile (built : CompressedFile) =>
        built.relPath = shippedFile.relPath ∧
          built.contentHash = host.blake3 shippedFile.content ∧
            ∃ other ∈ (shipped opts host tree).files,
              host.blake3 other.content = host.blake3 shippedFile.content ∧
                decompressEntry readers.crates readers.bulkWith
                  (packageData packed.output footer manifest (.zstd none)) built.blocks =
                    .ok other.content)
      (shipped opts host tree).files payloaded.files := by
  have held := (file.payload_holds blocks small).2
  have stood := file.standsIn blocks (dictCounted_none plain) small manifest
  rw [show packDictionary opts host tree = none from plain] at held stood
  have payload := file.origin.payload
  rw [writePayload, blocks, plain] at payload
  have stands := blocksPayload_stands payload
  refine List.forall₂_iff_get.mpr ⟨held.length_eq, fun index inside also => ?_⟩
  have made := (List.forall₂_iff_get.mp stands).2 index inside also
  rcases (List.forall₂_iff_get.mp held).2 index inside also with ⟨other, member, hash, content⟩
  exact ⟨made.relPath, made.contentHash, other, member, hash,
    decompressEntry_of_holds same.toSameCrates stood content⟩

end

end

end Onelf.Cli.Pack
