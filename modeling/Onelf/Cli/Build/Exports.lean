import Onelf.Cli.Artifact
import Onelf.Cli.Pack.Assemble
import Onelf.Format.ProviderIndex

/-! The names a set build exports: recorded when it is packed and read back with the hashes of the
objects that export them (`bundle/sysroot.rs`, `sysroot_cmd.rs`). -/

namespace Onelf.Cli.Build

open Onelf.Lib Onelf.Format
open Onelf.Cli.Pack (Host PackOptions Packed)

/-- One exported name, and the hash of the object that exports it. -/
@[ext] structure SetExport where
  soname : Text
  blake3 : Digest
  deriving DecidableEq

namespace SetExport

/-- The order the exports are sorted in: by name, then by hash. -/
def orderKey (item : SetExport) : Text ×ₗ Digest := toLex (item.soname, item.blake3)

theorem orderKey_injective : Function.Injective orderKey := by
  intro left right same
  have pair := toLex.injective same
  rw [Prod.mk.injEq] at pair
  exact SetExport.ext pair.1 pair.2

instance : LinearOrder SetExport := LinearOrder.lift' orderKey orderKey_injective

end SetExport

inductive ExportError where
  | artifact (reason : ArtifactError)
  | index (reason : ProviderIndexError)
  | noIndex
  | otherSet (found : Text)
  | otherExports
  | differentBytes (soname : Text)
  | otherObjects (recorded scanned : List Text)
  deriving DecidableEq

def providerIndexFile : Bytes := utf8 ".onelf/providers"

section
-- The `DT_SONAME` of an object; `none` where it has none or is no ELF object.
variable (soname : Bytes → Option Text)

def exportedName (content : Bytes) : Option Text :=
  (soname content).filter fun name => !name.bytes.isEmpty && !name.bytes.contains slash

/-! ### What is recorded -/

/-- Every regular file of the tree counts, whatever it is called. -/
def verifiedExports (tree : Pack.Tree) : List Text :=
  sortDedup (tree.entries.filterMap fun entry =>
    match entry.node with
    | .file content => exportedName soname content
    | _ => none)

def encodeProviderIndex (tree : Pack.Tree) (name : Text) : Except ProviderIndexError Bytes := do
  let index ← ProviderIndex.new name (verifiedExports soname tree)
  index.encode

def checkIndex (index : ProviderIndex) (name : Text) (exports : List Text) :
    Except ExportError Unit := do
  refuseIf (index.set ≠ name) (.otherSet index.set)
  refuseIf (index.exports ≠ exports) .otherExports

end

section
variable (readers : Readers) (file : Bytes)

/-- The index an artifact carries. -/
def readIndex : Except ExportError ProviderIndex := do
  let packed ← (readPackedFile readers file providerIndexFile).mapError .artifact
  match packed with
  | none => .error .noIndex
  | some bytes => (ProviderIndex.decode bytes).mapError .index

/-- Gives the hash to pin. -/
def verifySetArtifact (name : Text) (exports : List Text) : Except ExportError Digest := do
  let index ← readIndex readers file
  checkIndex index name exports
  .ok (readers.crates.blake3 file)

end

/-! ### What is read back -/

def soMark : Bytes := utf8 ".so"

/-- A name that two neighbours of a sorted list share. -/
def sharedName : List SetExport → Option Text
  | first :: second :: rest =>
      if first.soname = second.soname then some first.soname else sharedName (second :: rest)
  | _ => none

section
variable (soname : Bytes → Option Text) (readers : Readers)

/-- Of a file whose path has `.so` in it, what the object exports. -/
def scanEntry (pkg : Runtime.PackageData) (manifest : Manifest) (entry : Entry × Nat) :
    Except ExportError (Option SetExport) :=
  if entry.1.kind ≠ .file then .ok none
  else if ¬soMark <:+: manifest.entryPath entry.2 then .ok none
  else do
    let data ← (decompressVerified readers pkg entry.1).mapError .artifact
    .ok ((exportedName soname data).map fun name => ⟨name, entry.1.contentHash⟩)

def scanEntries (pkg : Runtime.PackageData) (manifest : Manifest) :
    Except ExportError (List SetExport) := do
  let scanned ← manifest.entries.zipIdx.mapM (scanEntry soname readers pkg manifest)
  .ok scanned.reduceOption

/-- One object for each name, and the names those of the index. -/
def checkFound (index : ProviderIndex) (found : List SetExport) :
    Except ExportError (List SetExport) :=
  match sharedName found with
  | some name => .error (.differentBytes name)
  | none => do
      refuseIf (found.map SetExport.soname ≠ index.exports)
        (.otherObjects index.exports (found.map SetExport.soname))
      .ok found

def verifiedExportHashes (file : Bytes) : Except ExportError (List SetExport) := do
  let index ← readIndex readers file
  let opened ← (readFooterAndManifest readers file).mapError .artifact
  let codec ← (openCodec readers file opened.1).mapError .artifact
  let scanned ← scanEntries soname readers (packageData file opened.1 opened.2 codec) opened.2
  checkFound index (sortDedup scanned)

end

/-! ### Publishing -/

/-- The options `pack_tree` packs a set with. -/
def setOptions (name : Text) (index : Bytes) : PackOptions where
  command := lossyText (utf8 "bin/onelf-set")
  name := some (lossyText (utf8 "onelf-set-" ++ name.bytes))
  entrypoints := []
  defaultEntrypoint := none
  libDirs := [Pack.autoText]
  blockSize := 64 * 1024
  payload := .blocks
  useDict := false
  noCompress := false
  memfd := some false
  workingDir := .inherit
  hostLibs := .never
  cache := false
  preferCache := false
  updateUrl := none
  embedUpdater := false
  updateKey := none
  updateRevision := none
  updateUnsigned := false
  exclude := []
  packageInfo := none
  mtime := some 0
  env := []
  paths := []
  preload := []
  needsSetuid := false
  profile := []
  providerIndex := some index
  runtimeRules := none
  entrypointSets := none

/-- `pack_set` on a tree that has been audited and holds its entrypoint and its sonames: the artifact,
once it has been read back. -/
def packSet (soname : Bytes → Option Text) (host : Host) (readers : Readers) (tree : Pack.Tree)
    (name : Text) : Option Packed := do
  let _ ← (RuleId.setName name.bytes).toOption
  let index ← (encodeProviderIndex soname tree name).toOption
  let packed ← Pack.pack (setOptions name index) host tree
  let _ ← (verifySetArtifact readers packed.output name (verifiedExports soname tree)).toOption
  some packed

end Onelf.Cli.Build
