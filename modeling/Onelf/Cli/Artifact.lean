import Onelf.Format.Reader
import Onelf.Cli.Verify

/-! A package file as the commands read it: its footer and manifest, and a packed file's content
(`info.rs`, `extract.rs`, `metadata.rs`). -/

namespace Onelf.Cli

open Onelf.Lib Onelf.Runtime
open Onelf.Format (FooterError ManifestError validateFooter)

inductive ArtifactError where
  | tooSmall
  | footer (reason : FooterError)
  /-- A read past the end of the file. -/
  | truncated
  | decompression
  | checksumMismatch
  | manifest (reason : ManifestError)
  | image
  | payload (reason : ReadError)
  | contentHashMismatch
  deriving DecidableEq

/-- What the commands read a package with, of the crates they link. -/
structure Readers where
  crates : Crates
  bulkWith : Bytes → Bytes → Nat → Except ReadError Bytes
  xxh32 : Bytes → Bytes
  /-- The stipplefs image in a file, from an offset on and of a size. -/
  openImage : Bytes → Nat → Nat → Option (Nat → Nat → Nat → Option Bytes)

section
variable (readers : Readers) (file : Bytes)

def readManifest (footer : Format.Footer) : Except ArtifactError Format.Manifest :=
  match readExactAt file footer.manifestOffset footer.manifestCompressed with
  | none => .error .truncated
  | some compressed =>
      match readers.crates.decompress compressed footer.manifestOriginal with
      | none => .error .decompression
      | some bytes => do
          let checksum ← (Format.Manifest.checksum readers.xxh32 bytes).mapError .manifest
          refuseIf (checksum ≠ footer.manifestChecksum) .checksumMismatch
          (Format.Manifest.deserialize bytes).mapError .manifest

def readFooterAndManifest : Except ArtifactError (Format.Footer × Format.Manifest) := do
  refuseIf (file.length < footerSize) .tooSmall
  let footer ← (Format.Footer.fromBytes (file.drop (file.length - footerSize))).mapError .footer
  (validateFooter footer file.length).mapError .footer
  let manifest ← readManifest readers file footer
  .ok (footer, manifest)

/-- `Codec::open`. -/
def openCodec (footer : Format.Footer) : Except ArtifactError Runtime.Codec :=
  if footer.runtime.flags.stipple then
    match readers.openImage file footer.payloadOffset footer.payloadSize with
    | none => .error .image
    | some read => .ok (.stipple read)
  else if ¬footer.runtime.flags.hasDict ∨ footer.dictSize = 0 then .ok (.zstd none)
  else
    match readExactAt file footer.dictOffset footer.dictSize with
    | none => .error .truncated
    | some dict => .ok (.zstd (some dict))

end

section
variable (readers : Readers)

def decompressVerified (pkg : PackageData) (entry : Format.Entry) : Except ArtifactError Bytes := do
  let data ← (decompressEntry readers.crates readers.bulkWith pkg entry.blocks).mapError .payload
  refuseIf (readers.crates.blake3 data ≠ entry.contentHash) .contentHashMismatch
  .ok data

end

/-- The manifest's table as the payload readers take it. -/
def runtimeManifest (manifest : Format.Manifest) : Runtime.Manifest where
  version := manifest.header.version
  prefixHash := manifest.header.prefixHash
  entries := manifest.entries.map fun entry => ⟨entry.kind, entry.blocks, entry.contentHash⟩

/-- What the payload readers take of a file. -/
def packageData (file : Bytes) (footer : Format.Footer) (manifest : Format.Manifest)
    (codec : Runtime.Codec) : PackageData where
  footer := footer.runtime
  manifest := runtimeManifest manifest
  file := file
  codec := codec

/-- The first file of that path. -/
def findEntryByPath (manifest : Format.Manifest) (path : Bytes) : Option Format.Entry :=
  (manifest.entries.zipIdx.find? fun entry =>
    entry.1.kind = .file && manifest.entryPath entry.2 = path).map Prod.fst

section
variable (readers : Readers) (file : Bytes)

def readPackedFile (path : Bytes) : Except ArtifactError (Option Bytes) := do
  let opened ← readFooterAndManifest readers file
  match findEntryByPath opened.2 path with
  | none => .ok none
  | some entry => do
      let codec ← openCodec readers file opened.1
      let data ← decompressVerified readers (packageData file opened.1 opened.2 codec) entry
      .ok (some data)

end

end Onelf.Cli
