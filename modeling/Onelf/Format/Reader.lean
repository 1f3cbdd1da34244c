import Onelf.Format.Footer
import Onelf.Format.Manifest

/-! A footer as it is read back, the bounds it is held to and the checksum it has of a manifest
(`footer.rs`, `reader.rs`, `manifest.rs`). -/

namespace Onelf.Format

open Onelf.Lib

inductive FooterError where
  | short
  | magic
  | endMagic
  | formatVersion (version : Nat)
  | manifestRegion
  | payloadRegion
  | manifestExpansion
  | dictRegion
  deriving DecidableEq

def Footer.parts (bytes : Bytes) : Footer where
  formatVersion := ofLeBytes (slice bytes 8 2)
  flags := ofLeBytes (slice bytes 10 2)
  manifestOffset := ofLeBytes (slice bytes 12 8)
  manifestCompressed := ofLeBytes (slice bytes 20 8)
  manifestOriginal := ofLeBytes (slice bytes 28 8)
  payloadOffset := ofLeBytes (slice bytes 36 8)
  payloadSize := ofLeBytes (slice bytes 44 8)
  dictOffset := ofLeBytes (slice bytes 52 8)
  dictSize := ofLeBytes (slice bytes 60 4)
  manifestChecksum := slice bytes 64 4

/-- `from_bytes`, of a footer's 76 bytes. -/
def Footer.fromBytes (bytes : Bytes) : Except FooterError Footer := do
  refuseIf (slice bytes 0 8 ≠ footerMagic) .magic
  refuseIf (slice bytes 68 8 ≠ footerEndMagic) .endMagic
  let footer := Footer.parts bytes
  refuseIf (footer.formatVersion ≠ 1 ∧ footer.formatVersion ≠ footerFormatVersion)
    (.formatVersion footer.formatVersion)
  .ok footer

/-! ### Regions -/

def maxManifestExpansion : Nat := 1024
def maxManifestOriginal : Nat := 256 * 1024 * 1024

def saturatingMul (left right : Nat) : Nat := min (left * right) (Runtime.u64Limit - 1)

def validateFooter (footer : Footer) (fileSize : Nat) : Except FooterError Unit := do
  refuseIf (Runtime.inBounds footer.manifestOffset footer.manifestCompressed fileSize = false)
    .manifestRegion
  refuseIf (Runtime.inBounds footer.payloadOffset footer.payloadSize fileSize = false)
    .payloadRegion
  refuseIf (footer.manifestOriginal > maxManifestOriginal ∨
    footer.manifestOriginal > saturatingMul fileSize maxManifestExpansion) .manifestExpansion
  refuseIf (footer.dictSize > 0 ∧
    Runtime.inBounds footer.dictOffset footer.dictSize fileSize = false) .dictRegion

def Flag.isIn (flag : Flag) (flags : Nat) : Bool := flags / flag.bit % 2 = 1

/-- The footer as the payload readers take it. -/
def Footer.runtime (footer : Footer) : Runtime.Footer where
  flags := ⟨Flag.stored.isIn footer.flags, Flag.stipplePayload.isIn footer.flags,
    Flag.hasDict.isIn footer.flags⟩
  manifestOffset := footer.manifestOffset
  manifestCompressed := footer.manifestCompressed
  payloadOffset := footer.payloadOffset
  payloadSize := footer.payloadSize
  dictOffset := footer.dictOffset
  dictSize := footer.dictSize

/-! ### The manifest's checksum -/

def manifestHeaderSize : Nat := 114

/-- `manifest_checksum`: from version 3 on the footer's own hash counts as zeros. -/
def Manifest.checksum (xxh32 : Bytes → Bytes) (manifest : Bytes) : Except ManifestError Bytes :=
  if manifest.length < 2 then .error .eof
  else if ofLeBytes (manifest.take 2) < 3 then .ok (xxh32 manifest)
  else if manifest.length < manifestHeaderSize then .error .eof
  else .ok (xxh32 (Codec.overwrite manifest 82 zeroDigest.bytes))

/-! ### What is read is what was written -/

structure Footer.Fits (footer : Footer) : Prop where
  formatVersion : footer.formatVersion = 1 ∨ footer.formatVersion = footerFormatVersion
  flags : footer.flags < 256 ^ 2
  manifestOffset : footer.manifestOffset < 256 ^ 8
  manifestCompressed : footer.manifestCompressed < 256 ^ 8
  manifestOriginal : footer.manifestOriginal < 256 ^ 8
  payloadOffset : footer.payloadOffset < 256 ^ 8
  payloadSize : footer.payloadSize < 256 ^ 8
  dictOffset : footer.dictOffset < 256 ^ 8
  dictSize : footer.dictSize < 256 ^ 4
  manifestChecksum : footer.manifestChecksum.length = 4

/-- The fields as they are written, in order. -/
def footerChunks (footer : Footer) : List Bytes :=
  [footerMagic, leBytes 2 footer.formatVersion, leBytes 2 footer.flags,
    leBytes 8 footer.manifestOffset, leBytes 8 footer.manifestCompressed,
    leBytes 8 footer.manifestOriginal, leBytes 8 footer.payloadOffset,
    leBytes 8 footer.payloadSize, leBytes 8 footer.dictOffset, leBytes 4 footer.dictSize,
    footer.manifestChecksum, footerEndMagic]

theorem footerBytes_eq_flatten (footer : Footer) :
    footerBytes footer = (footerChunks footer).flatten := by
  simp only [footerBytes, footerChunks, List.flatten_cons, List.flatten_nil, List.append_nil,
    List.append_assoc]

theorem slice_flatten {chunks : List Bytes} {index : Nat} {chunk : Bytes}
    (found : chunks[index]? = some chunk) :
    slice chunks.flatten ((chunks.take index).map List.length).sum chunk.length = chunk := by
  induction chunks generalizing index with
  | nil => cases found
  | cons first chunks ih =>
      cases index with
      | zero =>
          cases found
          exact List.take_left
      | succ index =>
          rw [List.take_succ_cons, List.map_cons, List.sum_cons, List.flatten_cons, slice,
            List.drop_length_add_append]
          exact ih found

theorem length_footerBytes {footer : Footer} (checksum : footer.manifestChecksum.length = 4) :
    (footerBytes footer).length = Runtime.footerSize := by
  simp only [footerBytes, List.length_append, length_leBytes, checksum]
  rfl

/-- A field stands where those before it end. -/
theorem slice_footerBytes (footer : Footer) (index start : Nat) {chunk : Bytes}
    (found : (footerChunks footer)[index]? = some chunk)
    (place : (((footerChunks footer).take index).map List.length).sum = start) :
    slice (footerBytes footer) start chunk.length = chunk := by
  rw [footerBytes_eq_flatten, ← place]
  exact slice_flatten found

theorem ofLeBytes_footerBytes (footer : Footer) (index start : Nat) {width value : Nat}
    (found : (footerChunks footer)[index]? = some (leBytes width value))
    (place : (((footerChunks footer).take index).map List.length).sum = start)
    (fits : value < 256 ^ width) :
    ofLeBytes (slice (footerBytes footer) start width) = value := by
  have field := slice_footerBytes footer index start found place
  rw [length_leBytes] at field
  rw [field]
  exact ofLeBytes_leBytes width value fits

theorem Footer.parts_footerBytes {footer : Footer} (fits : footer.Fits) :
    Footer.parts (footerBytes footer) = footer := by
  have version : footer.formatVersion < 256 ^ 2 := by
    rcases fits.formatVersion with first | current
    · rw [first]
      decide
    · rw [current]
      decide
  have checksum := slice_footerBytes footer 10 64 rfl rfl
  rw [fits.manifestChecksum] at checksum
  rw [Footer.parts, ofLeBytes_footerBytes footer 1 8 rfl rfl version,
    ofLeBytes_footerBytes footer 2 10 rfl rfl fits.flags,
    ofLeBytes_footerBytes footer 3 12 rfl rfl fits.manifestOffset,
    ofLeBytes_footerBytes footer 4 20 rfl rfl fits.manifestCompressed,
    ofLeBytes_footerBytes footer 5 28 rfl rfl fits.manifestOriginal,
    ofLeBytes_footerBytes footer 6 36 rfl rfl fits.payloadOffset,
    ofLeBytes_footerBytes footer 7 44 rfl rfl fits.payloadSize,
    ofLeBytes_footerBytes footer 8 52 rfl rfl fits.dictOffset,
    ofLeBytes_footerBytes footer 9 60 rfl rfl fits.dictSize, checksum]

theorem Footer.fromBytes_footerBytes {footer : Footer} (fits : footer.Fits) :
    Footer.fromBytes (footerBytes footer) = .ok footer := by
  have magic : slice (footerBytes footer) 0 8 = footerMagic :=
    slice_footerBytes footer 0 0 rfl rfl
  have before : (((footerChunks footer).take 11).map List.length).sum = 68 := by
    rw [footerChunks]
    simp only [List.take_succ_cons, List.take_zero, List.map_cons, List.map_nil, length_leBytes,
      fits.manifestChecksum]
    rfl
  have endMagic : slice (footerBytes footer) 68 8 = footerEndMagic :=
    slice_footerBytes footer 11 68 rfl before
  rw [Footer.fromBytes, magic, endMagic, Footer.parts_footerBytes fits]
  simp only [ne_eq, not_true_eq_false, refuseIf, if_false]
  rcases fits.formatVersion with first | current
  · simp [first]
    rfl
  · simp [current]
    rfl

end Onelf.Format
