import Onelf.Lib.Checks
import Onelf.Lib.Codec
import Onelf.Lib.Path
import Onelf.Runtime.Package

/-! The manifest of a package (`manifest.rs`, `entry.rs`): its tables, their bytes and the checks a
reader makes. -/

namespace Onelf.Format

open Onelf.Lib
open Onelf.Lib.Codec (Reads)
open Onelf.Runtime (Block EntryKind)

def manifestVersion : Nat := 3

def u32Max : Nat := 2 ^ 32 - 1

inductive WorkingDir where
  | inherit
  | packageRoot
  | entrypointParent
  deriving DecidableEq

/-- The flag of an entrypoint that may run from memory. -/
def memfdEligible : UInt8 := 1

@[ext] structure EntryPoint where
  name : Nat
  targetEntry : Nat
  args : Nat
  workingDir : WorkingDir
  flags : UInt8
  deriving DecidableEq

@[ext] structure Entry where
  kind : EntryKind
  parent : Nat
  name : Nat
  mode : Nat
  mtimeSecs : Nat
  mtimeNsec : Nat
  contentHash : Digest
  blocks : List Block
  symlinkTarget : Nat
  deriving DecidableEq

@[ext] structure ManifestHeader where
  version : Nat
  entryCount : Nat
  stringTableSize : Nat
  entrypointCount : Nat
  defaultEntrypoint : Nat
  libDirCount : Nat
  nameOffset : Nat
  packageId : Digest
  prefixHash : Digest
  footerHash : Digest
  deriving DecidableEq

@[ext] structure Manifest where
  header : ManifestHeader
  entrypoints : List EntryPoint
  entries : List Entry
  libDirOffsets : List Nat
  stringTable : Bytes
  deriving DecidableEq

inductive ManifestError where
  | eof
  | unsupportedVersion (version : Nat)
  | entryKind (value : Nat)
  | workingDir (value : Nat)
  | stringTableSize
  | entryParentRange
  | entryParentOrder
  | entryParentKind
  | entryName
  | entrySymlinkTarget
  | targetEntry
  | entrypointString
  | defaultEntrypoint
  | libDirRange
  | libDirUnsafe
  | nameOffset
  deriving DecidableEq

/-! ### Strings and paths -/

namespace Manifest

/-- The string at `offset`, up to the next NUL; empty where it is out of range or not UTF-8. -/
def getString (manifest : Manifest) (offset : Nat) : Bytes :=
  let text := (manifest.stringTable.drop offset).takeWhile (· ≠ 0)
  if validUtf8 text then text else []

def libDirs (manifest : Manifest) : List Bytes := manifest.libDirOffsets.map manifest.getString

/-- The names from the root down to an entry, a bounded walk up its parents. -/
def entryParts (manifest : Manifest) : Nat → Nat → List Bytes
  | 0, _ => []
  | fuel + 1, index =>
      match manifest.entries[index]? with
      | none => []
      | some entry =>
          if manifest.getString entry.name = [] then []
          else if entry.parent = u32Max then [manifest.getString entry.name]
          else manifest.entryParts fuel entry.parent ++ [manifest.getString entry.name]

def entryPath (manifest : Manifest) (index : Nat) : Bytes :=
  Lib.joinPath (manifest.entryParts (manifest.entries.length + 1) index)

end Manifest

/-! ### Bytes -/

def entryKindTag : EntryKind → Nat
  | .dir => 0
  | .file => 1
  | .symlink => 2

def entryKindOf : Nat → Except ManifestError EntryKind
  | 0 => .ok .dir
  | 1 => .ok .file
  | 2 => .ok .symlink
  | value => .error (.entryKind value)

def workingDirTag : WorkingDir → Nat
  | .inherit => 0
  | .packageRoot => 1
  | .entrypointParent => 2

def workingDirOf : Nat → Except ManifestError WorkingDir
  | 0 => .ok .inherit
  | 1 => .ok .packageRoot
  | 2 => .ok .entrypointParent
  | value => .error (.workingDir value)

theorem entryKindOf_eq_ok {value : Nat} {kind : EntryKind} :
    entryKindOf value = .ok kind ↔ value = entryKindTag kind := by
  rw [entryKindOf.eq_def]
  split <;> cases kind <;> simp_all [entryKindTag]

theorem workingDirOf_eq_ok {value : Nat} {dir : WorkingDir} :
    workingDirOf value = .ok dir ↔ value = workingDirTag dir := by
  rw [workingDirOf.eq_def]
  split <;> cases dir <;> simp_all [workingDirTag]

/-- A block as a manifest of `version` has it; version 1 has no hash. -/
def blockBytes (version : Nat) (block : Block) : Bytes :=
  leBytes 8 block.payloadOffset ++ (leBytes 8 block.compressedSize ++
    (leBytes 8 block.originalSize ++ if version ≥ 2 then block.contentHash.bytes else []))

def entryPointBytes (entrypoint : EntryPoint) : Bytes :=
  leBytes 4 entrypoint.name ++ (leBytes 4 entrypoint.targetEntry ++ (leBytes 4 entrypoint.args ++
    (leBytes 1 (workingDirTag entrypoint.workingDir) ++ leBytes 1 entrypoint.flags.toNat)))

/-- The block count is the list's own length. -/
def entryBytes (version : Nat) (entry : Entry) : Bytes :=
  leBytes 1 (entryKindTag entry.kind) ++ (leBytes 4 entry.parent ++ (leBytes 4 entry.name ++
    (leBytes 4 entry.mode ++ (leBytes 8 entry.mtimeSecs ++ (leBytes 4 entry.mtimeNsec ++
      (entry.contentHash.bytes ++ (leBytes 4 entry.blocks.length ++
        (leBytes 4 entry.symlinkTarget ++ entry.blocks.flatMap (blockBytes version)))))))))

def hashesBytes (version : Nat) (hashes : Digest × Digest) : Bytes :=
  if version ≥ 3 then hashes.1.bytes ++ hashes.2.bytes else []

def headerBytes (header : ManifestHeader) : Bytes :=
  leBytes 2 header.version ++ (leBytes 4 header.entryCount ++ (leBytes 4 header.stringTableSize ++
    (leBytes 2 header.entrypointCount ++ (leBytes 2 header.defaultEntrypoint ++
      (leBytes 2 header.libDirCount ++ (leBytes 2 header.nameOffset ++ (header.packageId.bytes ++
        hashesBytes header.version (header.prefixHash, header.footerHash))))))))

def bodyBytes (manifest : Manifest) : Bytes :=
  headerBytes manifest.header ++ (manifest.entrypoints.flatMap entryPointBytes ++
    (manifest.entries.flatMap (entryBytes manifest.header.version) ++
      (manifest.libDirOffsets.flatMap (leBytes 4) ++ manifest.stringTable)))

/-- Serialized at the current version, whatever the header says. -/
def Manifest.serialize (manifest : Manifest) : Bytes :=
  bodyBytes { manifest with header := { manifest.header with version := manifestVersion } }

/-! ### Reading -/

abbrev Read (size : Nat) := Codec.ReadM ManifestError size 0

section
variable {size : Nat}

def number (width : Nat) : Read size Nat := do
  let bytes ← Codec.take .eof width
  Codec.check (.ok (ofLeBytes bytes))

def digest : Read size Digest := do
  let bytes ← Codec.take .eof 32
  Codec.check (if sized : bytes.length = 32 then .ok ⟨bytes, sized⟩ else .error .eof)

/-- A field of a version that does not have it reads as zeros. -/
def zeroDigest : Digest := ⟨List.replicate 32 0, rfl⟩

def readBlockHash (version : Nat) : Read size Digest :=
  if version ≥ 2 then digest else pure zeroDigest

def readBlock (version : Nat) : Read size Block := do
  let payloadOffset ← number 8
  let compressedSize ← number 8
  let originalSize ← number 8
  let contentHash ← readBlockHash version
  pure ⟨payloadOffset, compressedSize, originalSize, contentHash⟩

def readEntryPoint : Read size EntryPoint := do
  let name ← number 4
  let targetEntry ← number 4
  let args ← number 4
  let tag ← number 1
  let flags ← number 1
  let workingDir ← Codec.check (workingDirOf tag)
  pure ⟨name, targetEntry, args, workingDir, UInt8.ofNat flags⟩

def readEntry (version : Nat) : Read size Entry := do
  let tag ← number 1
  let parent ← number 4
  let name ← number 4
  let mode ← number 4
  let mtimeSecs ← number 8
  let mtimeNsec ← number 4
  let contentHash ← digest
  let numBlocks ← number 4
  let symlinkTarget ← number 4
  let kind ← Codec.check (entryKindOf tag)
  let blocks ← Codec.repeatRead (readBlock version) numBlocks
  pure ⟨kind, parent, name, mode, mtimeSecs, mtimeNsec, contentHash, blocks, symlinkTarget⟩

def readHashes (version : Nat) : Read size (Digest × Digest) :=
  if version ≥ 3 then do
    let prefixHash ← digest
    let footerHash ← digest
    pure (prefixHash, footerHash)
  else pure (zeroDigest, zeroDigest)

def readHeader : Read size ManifestHeader := do
  let version ← number 2
  let entryCount ← number 4
  let stringTableSize ← number 4
  let entrypointCount ← number 2
  let defaultEntrypoint ← number 2
  let libDirCount ← number 2
  let nameOffset ← number 2
  let packageId ← digest
  let hashes ← readHashes version
  pure ⟨version, entryCount, stringTableSize, entrypointCount, defaultEntrypoint, libDirCount,
    nameOffset, packageId, hashes.1, hashes.2⟩

def readManifest : Read size Manifest := do
  let header ← readHeader
  Codec.ensure (header.version ≠ 0 ∧ header.version ≤ manifestVersion)
    (.unsupportedVersion header.version)
  let entrypoints ← Codec.repeatRead readEntryPoint header.entrypointCount
  let entries ← Codec.repeatRead (readEntry header.version) header.entryCount
  let libDirOffsets ← Codec.repeatRead (number 4) header.libDirCount
  let left ← Codec.remaining
  Codec.ensure (header.stringTableSize ≤ left) .stringTableSize
  let stringTable ← Codec.take .eof header.stringTableSize
  pure ⟨header, entrypoints, entries, libDirOffsets, stringTable⟩

end

/-! ### Validation -/

section
variable (manifest : Manifest)

def validateParent (index : Nat) (entry : Entry) : Except ManifestError Unit :=
  if entry.parent = u32Max then .ok ()
  else
    match manifest.entries[entry.parent]? with
    | none => .error .entryParentRange
    | some parent => do
        refuseIf (entry.parent ≥ index) .entryParentOrder
        refuseIf (parent.kind ≠ .dir) .entryParentKind

def validateEntry (index : Nat) (entry : Entry) : Except ManifestError Unit := do
  validateParent manifest index entry
  refuseIf (entry.name > manifest.stringTable.length) .entryName
  refuseIf (entry.symlinkTarget > manifest.stringTable.length) .entrySymlinkTarget

def validateEntries : Nat → List Entry → Except ManifestError Unit
  | _, [] => .ok ()
  | index, entry :: entries => do
      validateEntry manifest index entry
      validateEntries (index + 1) entries

def validateEntryPoint (entrypoint : EntryPoint) : Except ManifestError Unit := do
  refuseIf (entrypoint.targetEntry ≥ manifest.entries.length) .targetEntry
  refuseIf (entrypoint.name > manifest.stringTable.length ∨
    entrypoint.args > manifest.stringTable.length) .entrypointString

/-- A library directory is joined onto the package root, so it has to stay below it. -/
def safeLibDir (dir : Bytes) : Bool :=
  !dir.isEmpty && ((components dir).all fun component => component matches .normal _) &&
    !dir.contains 0

def validateLibDir (offset : Nat) : Except ManifestError Unit := do
  refuseIf (offset > manifest.stringTable.length) .libDirRange
  refuseIf (safeLibDir (manifest.getString offset) = false) .libDirUnsafe

def validate : Except ManifestError Unit := do
  validateEntries manifest 0 manifest.entries
  manifest.entrypoints.forM (validateEntryPoint manifest)
  refuseIf (manifest.entrypoints ≠ [] ∧
    manifest.header.defaultEntrypoint ≥ manifest.entrypoints.length) .defaultEntrypoint
  manifest.libDirOffsets.forM (validateLibDir manifest)
  refuseIf (manifest.header.nameOffset > manifest.stringTable.length) .nameOffset

end

def Manifest.deserialize (data : Bytes) : Except ManifestError Manifest := do
  let manifest ← ((readManifest : Read data.length Manifest)
    ⟨data, 0, le_refl _, le_refl _⟩).map Prod.fst
  validate manifest
  .ok manifest

/-! ### What is read is what was written -/

section
variable {size : Nat}

theorem number_reads (width : Nat) :
    Reads (number width : Read size Nat) (leBytes width) (fun _ => 0) (· < 256 ^ width) :=
  Codec.number_reads ManifestError.eof width

theorem digest_reads :
    Reads (digest : Read size Digest) Digest.bytes (fun _ => 0) fun _ => True := by
  apply (Codec.Reads.checked Digest.bytes (fun _ => True)
    (Codec.take_reads ManifestError.eof 32) _).congr
  · exact fun _ => rfl
  · exact fun _ => rfl
  · intro value
    simp [value.size]
  · intro bytes value length
    rw [dif_pos length, Except.ok.injEq, Digest.ext_iff, and_true]

theorem check_reads {α : Type} {verdict : Except ManifestError α} {admits : α → Prop}
    (accepts : ∀ value, verdict = .ok value ↔ admits value) :
    Reads (Codec.check verdict : Read size α) (fun _ => []) (fun _ => 0) admits := by
  intro source value next
  rw [Codec.check_eq_ok, accepts]
  constructor
  · intro read
    rw [read.2]
    exact ⟨read.1, rfl, rfl⟩
  · intro shape
    exact ⟨shape.1, Codec.Source.ext shape.2.1.symm shape.2.2⟩

/-- A reader of a value some versions do not have. -/
theorem versioned_reads {α : Type} {held : Prop} [Decidable held] {reader : Read size α} {absent : α}
    {render : α → Bytes} {admits : α → Prop} (reads : Reads reader render (fun _ => 0) admits) :
    Reads (if held then reader else pure absent) (fun value => if held then render value else [])
      (fun _ => 0) fun value => if held then admits value else value = absent := by
  intro source value next
  by_cases has : held
  · simp only [if_pos has]
    exact reads source value next
  · simp only [if_neg has, Codec.pure_eq_ok, List.nil_append, Nat.add_zero]
    constructor
    · intro read
      rw [read.2]
      exact ⟨read.1, rfl, rfl⟩
    · intro shape
      exact ⟨shape.1, Codec.Source.ext shape.2.1.symm shape.2.2⟩

def BlockFits (version : Nat) (block : Block) : Prop :=
  block.payloadOffset < 256 ^ 8 ∧ block.compressedSize < 256 ^ 8 ∧ block.originalSize < 256 ^ 8 ∧
    (version < 2 → block.contentHash = zeroDigest)

theorem block_ext_iff {left right : Block} : left = right ↔
    left.payloadOffset = right.payloadOffset ∧ left.compressedSize = right.compressedSize ∧
      left.originalSize = right.originalSize ∧ left.contentHash = right.contentHash := by
  cases left
  cases right
  simp

theorem block_reads (version : Nat) :
    Reads (readBlock version : Read size Block) (blockBytes version) (fun _ => 0)
      (BlockFits version) := by
  have hash : Reads (readBlockHash version : Read size Digest) _ (fun _ => 0) _ :=
    versioned_reads digest_reads
  apply (Codec.Reads.start Block.payloadOffset (number_reads 8) fun payloadOffset _ =>
    Codec.Reads.field Block.compressedSize (number_reads 8) fun compressedSize _ =>
    Codec.Reads.field Block.originalSize (number_reads 8) fun originalSize _ =>
    Codec.Reads.field Block.contentHash hash fun contentHash _ => Codec.Reads.done _).congr
  · simp [blockBytes]
  · simp
  · intro block
    by_cases hashed : version ≥ 2
    · simp [BlockFits, hashed, Nat.not_lt.mpr hashed]
    · simp [BlockFits, hashed, Nat.lt_of_not_ge hashed]
  · intro payloadOffset _ compressedSize _ originalSize _ contentHash _ block
    simp only [block_ext_iff, true_and]
    tauto

def EntryPointFits (entrypoint : EntryPoint) : Prop :=
  entrypoint.name < 256 ^ 4 ∧ entrypoint.targetEntry < 256 ^ 4 ∧ entrypoint.args < 256 ^ 4

theorem workingDir_reads (tag : Nat) :
    Reads (Codec.check (workingDirOf tag) : Read size WorkingDir) (fun _ => []) (fun _ => 0)
      fun dir => tag = workingDirTag dir :=
  check_reads fun _ => workingDirOf_eq_ok

theorem entryPoint_reads :
    Reads (readEntryPoint : Read size EntryPoint) entryPointBytes (fun _ => 0) EntryPointFits := by
  apply (Codec.Reads.start EntryPoint.name (number_reads 4) fun name _ =>
    Codec.Reads.field EntryPoint.targetEntry (number_reads 4) fun targetEntry _ =>
    Codec.Reads.field EntryPoint.args (number_reads 4) fun args _ =>
    Codec.Reads.guide (fun entrypoint : EntryPoint => workingDirTag entrypoint.workingDir)
      (number_reads 1) fun tag _ =>
    Codec.Reads.field (fun entrypoint : EntryPoint => entrypoint.flags.toNat) (number_reads 1)
      fun flags _ =>
    Codec.Reads.field EntryPoint.workingDir (workingDir_reads tag) fun workingDir _ =>
      Codec.Reads.done _).congr
  · simp [entryPointBytes]
  · simp
  · intro entrypoint
    have flags := entrypoint.flags.toNat_lt
    have tag : workingDirTag entrypoint.workingDir < 256 := by
      cases entrypoint.workingDir <;> decide
    simp only [EntryPointFits, true_and, and_true]
    omega
  · intro name _ targetEntry _ args _ tag _ flags small workingDir same entrypoint
    have byte : entrypoint.flags.toNat = flags ↔ entrypoint.flags = UInt8.ofNat flags := by
      rw [← UInt8.toNat_inj, UInt8.toNat_ofNat_of_lt' small]
    rw [EntryPoint.ext_iff, byte]
    constructor
    · tauto
    · intro fields
      rw [fields.2.2.2.1]
      tauto

def EntryFits (version : Nat) (entry : Entry) : Prop :=
  entry.parent < 256 ^ 4 ∧ entry.name < 256 ^ 4 ∧ entry.mode < 256 ^ 4 ∧
    entry.mtimeSecs < 256 ^ 8 ∧ entry.mtimeNsec < 256 ^ 4 ∧ entry.blocks.length < 256 ^ 4 ∧
      entry.symlinkTarget < 256 ^ 4 ∧ ∀ block ∈ entry.blocks, BlockFits version block

theorem entryKind_reads (tag : Nat) :
    Reads (Codec.check (entryKindOf tag) : Read size EntryKind) (fun _ => []) (fun _ => 0)
      fun kind => tag = entryKindTag kind :=
  check_reads fun _ => entryKindOf_eq_ok

theorem entry_reads (version : Nat) :
    Reads (readEntry version : Read size Entry) (entryBytes version) (fun _ => 0)
      (EntryFits version) := by
  have block : Reads (readBlock version : Read size Block) _ _ _ := block_reads version
  have blocks (count : Nat) := block.repeated count
  apply (Codec.Reads.startGuide (fun entry : Entry => entryKindTag entry.kind) (number_reads 1)
    fun tag _ =>
    Codec.Reads.field Entry.parent (number_reads 4) fun parent _ =>
    Codec.Reads.field Entry.name (number_reads 4) fun name _ =>
    Codec.Reads.field Entry.mode (number_reads 4) fun mode _ =>
    Codec.Reads.field Entry.mtimeSecs (number_reads 8) fun mtimeSecs _ =>
    Codec.Reads.field Entry.mtimeNsec (number_reads 4) fun mtimeNsec _ =>
    Codec.Reads.field Entry.contentHash digest_reads fun contentHash _ =>
    Codec.Reads.guide (fun entry : Entry => entry.blocks.length) (number_reads 4) fun numBlocks _ =>
    Codec.Reads.field Entry.symlinkTarget (number_reads 4) fun symlinkTarget _ =>
    Codec.Reads.field Entry.kind (entryKind_reads tag) fun kind _ =>
    Codec.Reads.field Entry.blocks (blocks numBlocks) fun blocks _ =>
      Codec.Reads.done _).congr
  · simp [entryBytes]
  · simp
  · intro entry
    have tag : entryKindTag entry.kind < 256 := by
      cases entry.kind <;> decide
    simp only [EntryFits, true_and, and_true]
    tauto
  · intro tag _ parent _ name _ mode _ mtimeSecs _ mtimeNsec _ contentHash _ numBlocks _
      symlinkTarget _ kind same blocks counted entry
    rw [Entry.ext_iff]
    constructor
    · tauto
    · intro fields
      have kinds : entryKindTag entry.kind = tag := by rw [fields.1, same]
      have lengths : entry.blocks.length = numBlocks := by
        rw [fields.2.2.2.2.2.2.2.1, counted.1]
      tauto

def HashesFit (version : Nat) (hashes : Digest × Digest) : Prop :=
  version < 3 → hashes = (zeroDigest, zeroDigest)

theorem hashes_reads (version : Nat) :
    Reads (readHashes version : Read size (Digest × Digest)) (hashesBytes version) (fun _ => 0)
      (HashesFit version) := by
  have both : Reads (do
      let prefixHash ← digest
      let footerHash ← digest
      pure (prefixHash, footerHash) : Read size (Digest × Digest))
      (fun hashes => hashes.1.bytes ++ hashes.2.bytes) (fun _ => 0) fun _ => True := by
    apply (Codec.Reads.start Prod.fst digest_reads fun prefixHash _ =>
      Codec.Reads.field Prod.snd digest_reads fun footerHash _ => Codec.Reads.done _).congr
    · simp
    · simp
    · simp
    · intro prefixHash _ footerHash _ hashes
      rw [Prod.ext_iff, true_and]
  have either : Reads (readHashes version : Read size (Digest × Digest)) _ _ _ :=
    versioned_reads both
  apply either.congr
  · exact fun _ => rfl
  · exact fun _ => rfl
  · intro hashes
    by_cases held : version ≥ 3
    · simp [HashesFit, held, Nat.not_lt.mpr held]
    · simp [HashesFit, held, Nat.lt_of_not_ge held]

def HeaderFits (header : ManifestHeader) : Prop :=
  header.version < 256 ^ 2 ∧ header.entryCount < 256 ^ 4 ∧ header.stringTableSize < 256 ^ 4 ∧
    header.entrypointCount < 256 ^ 2 ∧ header.defaultEntrypoint < 256 ^ 2 ∧
      header.libDirCount < 256 ^ 2 ∧ header.nameOffset < 256 ^ 2 ∧
        HashesFit header.version (header.prefixHash, header.footerHash)

theorem header_reads :
    Reads (readHeader : Read size ManifestHeader) headerBytes (fun _ => 0) HeaderFits := by
  apply (Codec.Reads.startGuide ManifestHeader.version (number_reads 2) fun version _ =>
    Codec.Reads.field ManifestHeader.entryCount (number_reads 4) fun entryCount _ =>
    Codec.Reads.field ManifestHeader.stringTableSize (number_reads 4) fun stringTableSize _ =>
    Codec.Reads.field ManifestHeader.entrypointCount (number_reads 2) fun entrypointCount _ =>
    Codec.Reads.field ManifestHeader.defaultEntrypoint (number_reads 2) fun defaultEntrypoint _ =>
    Codec.Reads.field ManifestHeader.libDirCount (number_reads 2) fun libDirCount _ =>
    Codec.Reads.field ManifestHeader.nameOffset (number_reads 2) fun nameOffset _ =>
    Codec.Reads.field ManifestHeader.packageId digest_reads fun packageId _ =>
    Codec.Reads.field (fun header : ManifestHeader => (header.prefixHash, header.footerHash))
      (hashes_reads version) fun hashes _ => Codec.Reads.done _).congr
  · simp [headerBytes]
  · simp
  · intro header
    simp only [HeaderFits, true_and, and_true]
  · intro version _ entryCount _ stringTableSize _ entrypointCount _ defaultEntrypoint _
      libDirCount _ nameOffset _ packageId _ hashes _ header
    rw [ManifestHeader.ext_iff, Prod.ext_iff]
    tauto
/-- Fields that fit their widths, and counts that are the tables' own. -/
structure Manifest.Fits (manifest : Manifest) : Prop where
  header : HeaderFits manifest.header
  supported : manifest.header.version ≠ 0 ∧ manifest.header.version ≤ manifestVersion
  entrypointCount : manifest.entrypoints.length = manifest.header.entrypointCount
  entrypoints : ∀ entrypoint ∈ manifest.entrypoints, EntryPointFits entrypoint
  entryCount : manifest.entries.length = manifest.header.entryCount
  entries : ∀ entry ∈ manifest.entries, EntryFits manifest.header.version entry
  libDirCount : manifest.libDirOffsets.length = manifest.header.libDirCount
  libDirs : ∀ offset ∈ manifest.libDirOffsets, offset < 256 ^ 4
  stringTable : manifest.stringTable.length = manifest.header.stringTableSize

theorem readManifest_of_bytes {manifest : Manifest} (fits : manifest.Fits)
    (source next : Codec.Source size 0) (ahead : source.rest = bodyBytes manifest ++ next.rest) :
    (readManifest : Read size Manifest) source = .ok (manifest, next) := by
  have used (source : Codec.Source size 0) : source.used = 0 := Nat.le_zero.mp source.within
  have short := source.small
  rw [ahead, bodyBytes] at short
  simp only [List.length_append] at short
  -- The reader stands before each of the tables in turn.
  let before (rest : Bytes) (small : rest.length ≤ size) : Codec.Source size 0 :=
    ⟨rest, 0, small, Nat.le_refl 0⟩
  let strings := before (manifest.stringTable ++ next.rest) (by
    rw [List.length_append]
    omega)
  let dirs := before (manifest.libDirOffsets.flatMap (leBytes 4) ++ strings.rest) (by
    simp only [strings, before, List.length_append]
    omega)
  let entries := before (manifest.entries.flatMap (entryBytes manifest.header.version) ++ dirs.rest)
    (by
      simp only [dirs, strings, before, List.length_append]
      omega)
  let points := before (manifest.entrypoints.flatMap entryPointBytes ++ entries.rest) (by
    simp only [entries, dirs, strings, before, List.length_append]
    omega)
  simp only [readManifest, Codec.bind_eq_ok, Codec.ensure_eq_ok, Codec.remaining_eq_ok,
    Codec.pure_eq_ok]
  refine ⟨manifest.header, points, (header_reads _ _ _).mpr ⟨fits.header, ?_, ?_⟩, (), points,
    ⟨fits.supported, rfl⟩, manifest.entrypoints, entries,
    (entryPoint_reads.repeated _ _ _ _).mpr ⟨⟨fits.entrypointCount, fits.entrypoints⟩, rfl, ?_⟩,
    manifest.entries, dirs,
    ((entry_reads _).repeated _ _ _ _).mpr ⟨⟨fits.entryCount, fits.entries⟩, rfl, ?_⟩,
    manifest.libDirOffsets, strings,
    ((number_reads 4).repeated _ _ _ _).mpr ⟨⟨fits.libDirCount, fits.libDirs⟩, rfl, ?_⟩,
    _, strings, ⟨rfl, rfl⟩, (), strings, ⟨?_, rfl⟩, manifest.stringTable, next,
    (Codec.take_reads _ _ _ _ _).mpr ⟨fits.stringTable, rfl, ?_⟩, rfl, rfl⟩
  · rw [ahead, bodyBytes]
    simp only [points, entries, dirs, strings, before, List.append_assoc]
  · rw [used source, used points]
    rfl
  · simp [used]
  · simp [used]
  · simp [used]
  · simp only [strings, before, List.length_append, ← fits.stringTable]
    omega
  · rw [used next, used strings]
    rfl

end

/-- What is written is read back, whatever follows it, where it passes the checks. -/
theorem Manifest.deserialize_bodyBytes {manifest : Manifest} (fits : manifest.Fits) (rest : Bytes) :
    Manifest.deserialize (bodyBytes manifest ++ rest) = (validate manifest).map fun _ => manifest := by
  rw [Manifest.deserialize]
  have small : rest.length ≤ (bodyBytes manifest ++ rest).length := by
    rw [List.length_append]
    omega
  rw [readManifest_of_bytes fits _ ⟨rest, 0, small, le_refl _⟩ rfl]
  change (validate manifest >>= fun _ => .ok manifest) = _
  cases validate manifest with
  | error reason => rfl
  | ok nothing => rfl

/-- The counts of a manifest that was read are those its header has room for. -/
theorem Manifest.deserialize_counts {data : Bytes} {manifest : Manifest}
    (ran : Manifest.deserialize data = .ok manifest) :
    manifest.entrypoints.length < 2 ^ 16 ∧ manifest.libDirOffsets.length < 2 ^ 16 := by
  rcases Except.andThen_eq_ok.mp ran with ⟨read, reads, checked⟩
  rcases Codec.map_fst_eq_ok.mp reads with ⟨last, reads⟩
  rw [Except.followed_eq_ok] at checked
  cases checked.2
  simp only [readManifest, Codec.bind_eq_ok, Codec.pure_eq_ok] at reads
  rcases reads with ⟨header, _, first, _, _, _, entrypoints, _, second, entries, _, _, dirs, _, third,
    _, _, _, _, _, _, _, _, _, built, _⟩
  have fits := ((header_reads _ _ _).mp first).1
  have rows := ((entryPoint_reads.repeated _ _ _ _).mp second).1.1
  have offsets := (((number_reads 4).repeated _ _ _ _).mp third).1.1
  rw [built]
  exact ⟨rows ▸ fits.2.2.2.1, offsets ▸ fits.2.2.2.2.2.1⟩

/-! ### Hashes written over -/

/-- A manifest as it is written in the end. -/
def Manifest.sealed (manifest : Manifest) (packageId footerHash : Digest) : Manifest :=
  { manifest with header := { manifest.header with
      version := manifestVersion
      packageId := packageId
      footerHash := footerHash } }

/-- Written over at their places, the two hashes are the header's own. -/
theorem Manifest.overwrite_serialize (manifest : Manifest) (packageId footerHash : Digest) :
    Codec.overwrite (Codec.overwrite manifest.serialize 18 packageId.bytes) 82 footerHash.bytes =
      bodyBytes (manifest.sealed packageId footerHash) := by
  let counts := leBytes 2 manifestVersion ++ leBytes 4 manifest.header.entryCount ++
    leBytes 4 manifest.header.stringTableSize ++ leBytes 2 manifest.header.entrypointCount ++
    leBytes 2 manifest.header.defaultEntrypoint ++ leBytes 2 manifest.header.libDirCount ++
    leBytes 2 manifest.header.nameOffset
  let tables := manifest.entrypoints.flatMap entryPointBytes ++
    (manifest.entries.flatMap (entryBytes manifestVersion) ++
      (manifest.libDirOffsets.flatMap (leBytes 4) ++ manifest.stringTable))
  have whole (id prefixed footer : Digest) :
      headerBytes { manifest.header with
        version := manifestVersion, packageId := id, prefixHash := prefixed, footerHash := footer } ++
          tables = counts ++ id.bytes ++ prefixed.bytes ++ footer.bytes ++ tables := by
    simp only [headerBytes, hashesBytes, manifestVersion, ge_iff_le, le_refl, if_true, counts,
      List.append_assoc]
  have start : counts.length = 18 := by
    simp only [counts, List.length_append, length_leBytes]
  have before : manifest.serialize = counts ++ manifest.header.packageId.bytes ++
      (manifest.header.prefixHash.bytes ++ manifest.header.footerHash.bytes ++ tables) := by
    rw [Manifest.serialize, bodyBytes]
    exact (whole _ _ _).trans (by simp only [List.append_assoc])
  have identified := Codec.overwrite_append counts
    (manifest.header.prefixHash.bytes ++ manifest.header.footerHash.bytes ++ tables)
    (manifest.header.packageId.size.trans packageId.size.symm)
  have place : (counts ++ packageId.bytes ++ manifest.header.prefixHash.bytes).length = 82 := by
    rw [List.length_append, List.length_append, start, packageId.size,
      manifest.header.prefixHash.size]
  have sealed := Codec.overwrite_append
    (counts ++ packageId.bytes ++ manifest.header.prefixHash.bytes) tables
    (manifest.header.footerHash.size.trans footerHash.size.symm)
  rw [start, ← before] at identified
  rw [place] at sealed
  rw [identified]
  simp only [List.append_assoc] at sealed ⊢
  rw [sealed, bodyBytes]
  exact ((whole _ _ _).trans (by simp only [List.append_assoc])).symm

/-! ### What passes the checks -/

def ParentValid (manifest : Manifest) (index : Nat) (entry : Entry) : Prop :=
  entry.parent = u32Max ∨ entry.parent < index ∧
    ∃ parent, manifest.entries[entry.parent]? = some parent ∧ parent.kind = .dir

theorem validateParent_eq_ok {manifest : Manifest} {index : Nat} {entry : Entry} :
    validateParent manifest index entry = .ok () ↔ ParentValid manifest index entry := by
  rw [validateParent, ParentValid]
  by_cases top : entry.parent = u32Max
  · rw [if_pos top]
    exact iff_of_true rfl (Or.inl top)
  · rw [if_neg top, or_iff_right top]
    cases manifest.entries[entry.parent]? with
    | none => simp
    | some parent =>
        simp only [Except.followed_eq_ok, refuseIf_eq_ok, Option.some.injEq, exists_eq_left',
          Nat.not_le, ge_iff_le, not_ne_iff]

def EntryValid (manifest : Manifest) (index : Nat) (entry : Entry) : Prop :=
  ParentValid manifest index entry ∧ entry.name ≤ manifest.stringTable.length ∧
    entry.symlinkTarget ≤ manifest.stringTable.length

theorem validateEntries_eq_ok {manifest : Manifest} {start : Nat} {entries : List Entry} :
    validateEntries manifest start entries = .ok () ↔
      ∀ index entry, entries[index]? = some entry → EntryValid manifest (start + index) entry := by
  induction entries generalizing start with
  | nil => simp [validateEntries]
  | cons first entries ih =>
      have here : validateEntry manifest start first = .ok () ↔ EntryValid manifest start first := by
        simp only [validateEntry, Except.followed_eq_ok, validateParent_eq_ok, refuseIf_eq_ok,
          EntryValid, Nat.not_lt, gt_iff_lt]
      rw [validateEntries, Except.followed_eq_ok]
      constructor
      · intro both index entry found
        rcases both with ⟨now, later⟩
        cases index with
        | zero =>
            rw [List.getElem?_cons_zero] at found
            rw [← Option.some.inj found]
            exact here.mp now
        | succ index =>
            rw [List.getElem?_cons_succ] at found
            rw [← Nat.add_assoc, Nat.add_right_comm]
            exact ih.mp later index entry found
      · intro all
        refine ⟨here.mpr (all 0 first rfl), ih.mpr fun index entry found => ?_⟩
        rw [Nat.add_right_comm, Nat.add_assoc]
        exact all (index + 1) entry found

/-- What `validate` holds a manifest to. -/
structure Manifest.Valid (manifest : Manifest) : Prop where
  entries : ∀ index entry, manifest.entries[index]? = some entry → EntryValid manifest index entry
  entrypoints : ∀ entrypoint ∈ manifest.entrypoints,
    entrypoint.targetEntry < manifest.entries.length ∧
      entrypoint.name ≤ manifest.stringTable.length ∧
        entrypoint.args ≤ manifest.stringTable.length
  defaultEntrypoint : manifest.entrypoints ≠ [] →
    manifest.header.defaultEntrypoint < manifest.entrypoints.length
  libDirs : ∀ offset ∈ manifest.libDirOffsets, offset ≤ manifest.stringTable.length ∧
    safeLibDir (manifest.getString offset) = true
  nameOffset : manifest.header.nameOffset ≤ manifest.stringTable.length

theorem validate_eq_ok {manifest : Manifest} : validate manifest = .ok () ↔ manifest.Valid := by
  have entrypoint (entrypoint : EntryPoint) : validateEntryPoint manifest entrypoint = .ok () ↔
      entrypoint.targetEntry < manifest.entries.length ∧
        entrypoint.name ≤ manifest.stringTable.length ∧
          entrypoint.args ≤ manifest.stringTable.length := by
    simp only [validateEntryPoint, Except.followed_eq_ok, refuseIf_eq_ok, not_or, Nat.not_lt,
      Nat.not_le, ge_iff_le, gt_iff_lt]
  have libDir (offset : Nat) : validateLibDir manifest offset = .ok () ↔
      offset ≤ manifest.stringTable.length ∧ safeLibDir (manifest.getString offset) = true := by
    simp only [validateLibDir, Except.followed_eq_ok, refuseIf_eq_ok, Nat.not_lt, gt_iff_lt,
      Bool.not_eq_false]
  simp only [validate, Except.followed_eq_ok, validateEntries_eq_ok, Except.forM_eq_ok, entrypoint,
    libDir, refuseIf_eq_ok, not_and, Nat.not_le, ge_iff_le, gt_iff_lt, Nat.zero_add, Nat.not_lt]
  constructor
  · intro all
    exact ⟨all.1, all.2.1, all.2.2.1, all.2.2.2.1, all.2.2.2.2⟩
  · intro valid
    exact ⟨valid.entries, valid.entrypoints, valid.defaultEntrypoint, valid.libDirs,
      valid.nameOffset⟩

end Onelf.Format
