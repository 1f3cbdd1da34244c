import Onelf.Lib.Image

/-! A package file as the runtime reads it: footer, manifest and payload blocks (`footer.rs`,
`entry.rs`, `reader.rs`, `payload.rs`, `loader.rs`). -/

namespace Onelf.Runtime

open Onelf.Lib

def u64Limit : Nat := 2 ^ 64

def checkedAdd (left right : Nat) : Option Nat :=
  if left + right < u64Limit then some (left + right) else none

def saturatingAdd (left right : Nat) : Nat := min (left + right) (u64Limit - 1)

theorem checkedAdd_eq_some {left right sum : Nat} :
    checkedAdd left right = some sum ↔ left + right = sum ∧ sum < u64Limit := by
  rw [checkedAdd]
  constructor
  · intro added
    split at added
    · next fits =>
        rw [← Option.some.inj added]
        exact ⟨rfl, fits⟩
    · cases added
  · intro added
    rw [added.1, if_pos added.2]

/-- The functions the runtime takes from the crates it links: the hashes, and a block decoded with
room for so many bytes, or at most so many bytes of one coded against a dictionary. -/
structure Crates where
  blake3 : Bytes → Digest
  xxh3 : Bytes → Nat
  decompress : Bytes → Nat → Option Bytes
  decompressWith : Bytes → Bytes → Nat → Option Bytes

/-! ### The container -/

structure Flags where
  stored : Bool
  stipple : Bool
  hasDict : Bool
  deriving DecidableEq

structure Footer where
  flags : Flags
  manifestOffset : Nat
  manifestCompressed : Nat
  payloadOffset : Nat
  payloadSize : Nat
  dictOffset : Nat
  dictSize : Nat
  deriving DecidableEq

def footerSize : Nat := 76

structure Block where
  payloadOffset : Nat
  compressedSize : Nat
  originalSize : Nat
  contentHash : Digest
  deriving DecidableEq

inductive EntryKind where
  | dir
  | file
  | symlink
  deriving DecidableEq

structure Entry where
  kind : EntryKind
  blocks : List Block
  contentHash : Digest
  deriving DecidableEq

structure Manifest where
  version : Nat
  prefixHash : Digest
  entries : List Entry
  deriving DecidableEq

/-- How a package's blocks become file content: zstd frames, or a stipplefs image that gives up to
so many bytes of an inode from an offset on. -/
inductive Codec where
  | zstd (dict : Option Bytes)
  | stipple (read : Nat → Nat → Nat → Option Bytes)

def Codec.dict : Codec → Option Bytes
  | .zstd dict => dict
  | .stipple _ => none

/-- A loaded package and the file it was read from. -/
structure PackageData where
  footer : Footer
  manifest : Manifest
  file : Bytes
  codec : Codec

/-! ### Blocks -/

def inBounds (off len fileSize : Nat) : Bool := (checkedAdd off len).any fun stop => stop ≤ fileSize

/-- Absolute file offset and length of a block's stored bytes, inside the payload region. -/
def blockExtent (footer : Footer) (block : Block) : Option (Nat × Nat) := do
  let abs ← checkedAdd footer.payloadOffset block.payloadOffset
  let payloadEnd ← checkedAdd footer.payloadOffset footer.payloadSize
  if inBounds abs block.compressedSize payloadEnd then some (abs, block.compressedSize) else none

/-- Ceiling on one block's decompressed size. -/
def maxBlockOriginal : Nat := 256 * 1024 * 1024

def blockOriginalSize (block : Block) : Option Nat :=
  if block.originalSize > maxBlockOriginal then none else some block.originalSize

/-- Decompress one block that the manifest says is `original` bytes long; both paths are held to
that length. -/
def decodeBlock (crates : Crates) (buf : Bytes) (original : Nat) (dict : Option Bytes) :
    Option Bytes := do
  let data ← match dict with
    | some dict => crates.decompressWith buf dict (original + 1)
    | none => crates.decompress buf original
  if data.length ≠ original then none else some data

/-- `read_exact_at`: all the bytes asked for or an error. -/
def readExactAt (file : Bytes) (pos len : Nat) : Option Bytes :=
  if len ≤ (file.drop pos).length then some (slice file pos len) else none

theorem blockExtent_eq_some {footer : Footer} {block : Block} {abs len : Nat} :
    blockExtent footer block = some (abs, len) ↔
      abs = footer.payloadOffset + block.payloadOffset ∧ len = block.compressedSize ∧
        abs + len ≤ footer.payloadOffset + footer.payloadSize ∧
        footer.payloadOffset + footer.payloadSize < u64Limit := by
  constructor
  · intro found
    rcases Option.bind_eq_some_iff.mp found with ⟨start, started, rest⟩
    rcases Option.bind_eq_some_iff.mp rest with ⟨stop, stopped, bounded⟩
    have first := checkedAdd_eq_some.mp started
    have last := checkedAdd_eq_some.mp stopped
    split at bounded
    · next inside =>
        rcases Prod.mk.inj (Option.some.inj bounded) with ⟨sameStart, sameLen⟩
        rw [inBounds, Option.any_eq_true] at inside
        rcases inside with ⟨sum, added, below⟩
        have whole := checkedAdd_eq_some.mp added
        have below : sum ≤ stop := by simpa using below
        refine ⟨by omega, sameLen.symm, by omega, by omega⟩
    · cases bounded
  · intro extent
    rcases extent with ⟨sameStart, sameLen, inside, fits⟩
    have start : checkedAdd footer.payloadOffset block.payloadOffset = some abs :=
      checkedAdd_eq_some.mpr ⟨sameStart.symm, by omega⟩
    have stop : checkedAdd footer.payloadOffset footer.payloadSize =
        some (footer.payloadOffset + footer.payloadSize) :=
      checkedAdd_eq_some.mpr ⟨rfl, fits⟩
    have sum : checkedAdd abs len = some (abs + len) :=
      checkedAdd_eq_some.mpr ⟨rfl, by omega⟩
    rw [blockExtent, start, stop]
    simp only [Option.bind_eq_bind, Option.bind_some, inBounds, ← sameLen, sum]
    simp [inside]

theorem readExactAt_eq_some {file bytes : Bytes} {pos len : Nat}
    (read : readExactAt file pos len = some bytes) :
    bytes = slice file pos len ∧ bytes.length = len := by
  rw [readExactAt] at read
  split at read
  · next enough =>
      have same := Option.some.inj read
      refine ⟨same.symm, ?_⟩
      rw [← same, slice, List.length_take]
      exact Nat.min_eq_left enough
  · cases read

end Onelf.Runtime
