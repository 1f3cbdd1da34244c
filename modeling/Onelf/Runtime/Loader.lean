import Mathlib.Algebra.GroupWithZero.Nat
import Onelf.Runtime.Package

/-! Payload reads (`loader.rs`, `payload.rs`), and the sizes the mount reports (`make_attr` of
`fuse/fs.rs`). -/

namespace Onelf.Runtime

open Onelf.Lib

/-- The runtime is built without overflow checks, so its sums wrap. -/
def wrappingAdd (left right : Nat) : Nat := (left + right) % u64Limit

def wrappingSub (left right : Nat) : Nat :=
  if right ≤ left then left - right else left + u64Limit - right

theorem wrappingAdd_of_lt {left right : Nat} (fits : left + right < u64Limit) :
    wrappingAdd left right = left + right := Nat.mod_eq_of_lt fits

theorem wrappingSub_of_le {left right : Nat} (below : right ≤ left) :
    wrappingSub left right = left - right := if_pos below

theorem saturatingAdd_of_lt {left right : Nat} (fits : left + right < u64Limit) :
    saturatingAdd left right = left + right := by
  rw [saturatingAdd]
  omega

/-- `has_content_hash`: a version 1 manifest leaves every block's hash zero. -/
def Block.hasContentHash (block : Block) : Bool := block.contentHash.bytes.any (· ≠ 0)

/-- `payload::read_slice`: the slice of a file a block describes, read out of a stipplefs image. -/
def readSlice (read : Nat → Nat → Nat → Option Bytes) (block : Block) : Option Bytes :=
  if block.compressedSize < 2 ^ 32 then do
    let original ← blockOriginalSize block
    let buf ← read block.compressedSize block.payloadOffset original
    if buf.length ≠ original then none else some buf
  else none

/-- One block's content, unverified. -/
def readBlock (crates : Crates) (pkg : PackageData) (block : Block) : Option Bytes :=
  match pkg.codec with
  | .stipple read => readSlice read block
  | .zstd dict => do
      let (abs, len) ← blockExtent pkg.footer block
      let buf ← readExactAt pkg.file abs len
      -- Store mode returns what it read and never looks at the original size.
      if pkg.footer.flags.stored then some buf
      else do
        let original ← blockOriginalSize block
        decodeBlock crates buf original dict

/-- A block's content, held to its hash where it has one. -/
def readPayloadEntry (crates : Crates) (pkg : PackageData) (block : Block) : Option Bytes := do
  let data ← readBlock crates pkg block
  if block.hasContentHash && crates.blake3 data ≠ block.contentHash then none else some data

def readPayloadBlocks (crates : Crates) (pkg : PackageData) : List Block → Option Bytes
  | [] => some []
  | block :: blocks => do
      let data ← readBlock crates pkg block
      let rest ← readPayloadBlocks crates pkg blocks
      some (data ++ rest)

/-- An entry's whole content, held to the entry's hash. -/
def readVerifiedEntry (crates : Crates) (pkg : PackageData) (entry : Entry) : Option Bytes := do
  let data ← readPayloadBlocks crates pkg entry.blocks
  if crates.blake3 data ≠ entry.contentHash then none else some data

/-- The size `make_attr` reports for an entry; `target` is where a link points. -/
def attrSize (entry : Entry) (target : Bytes) : Nat :=
  match entry.kind with
  | .file => (entry.blocks.map Block.originalSize).sum % u64Limit
  | .symlink => target.length
  | .dir => 0

/-! ### Lengths -/

theorem decodeBlock_length {crates : Crates} {buf data : Bytes} {original : Nat}
    {dict : Option Bytes} (decoded : decodeBlock crates buf original dict = some data) :
    data.length = original := by
  have held {out : Option Bytes} (kept : (out.bind fun data =>
      if data.length ≠ original then none else some data) = some data) :
      data.length = original := by
    rcases Option.bind_eq_some_iff.mp kept with ⟨out, produced, checked⟩
    split at checked
    · cases checked
    · next same =>
        rw [← Option.some.inj checked]
        exact not_ne_iff.mp same
  cases dict with
  | none => exact held decoded
  | some dict => exact held decoded

theorem readSlice_length {read : Nat → Nat → Nat → Option Bytes} {block : Block} {data : Bytes}
    (sliced : readSlice read block = some data) : data.length = block.originalSize := by
  rw [readSlice] at sliced
  split at sliced
  · rcases Option.bind_eq_some_iff.mp sliced with ⟨original, sized, rest⟩
    rcases Option.bind_eq_some_iff.mp rest with ⟨buf, filled, checked⟩
    rw [blockOriginalSize] at sized
    split at sized
    · cases sized
    · split at checked
      · cases checked
      · next same =>
          rw [← Option.some.inj checked, Option.some.inj sized]
          exact not_ne_iff.mp same
  · cases sliced

/-- Every payload but a stored one is held to the length the manifest claims. -/
theorem readBlock_length {crates : Crates} {pkg : PackageData} {block : Block} {data : Bytes}
    (compressed : (∃ read, pkg.codec = .stipple read) ∨ pkg.footer.flags.stored = false)
    (found : readBlock crates pkg block = some data) : data.length = block.originalSize := by
  cases codec : pkg.codec with
  | stipple read =>
      rw [readBlock, codec] at found
      exact readSlice_length found
  | zstd dict =>
      have stored : pkg.footer.flags.stored = false := by
        rcases compressed with ⟨read, other⟩ | stored
        · rw [codec] at other
          cases other
        · exact stored
      rw [readBlock, codec] at found
      rcases Option.bind_eq_some_iff.mp found with ⟨extent, located, rest⟩
      rcases Option.bind_eq_some_iff.mp rest with ⟨buf, filled, rest⟩
      rw [stored, if_neg Bool.false_ne_true] at rest
      rcases Option.bind_eq_some_iff.mp rest with ⟨original, sized, decoded⟩
      rw [blockOriginalSize] at sized
      split at sized
      · cases sized
      · rw [decodeBlock_length decoded, Option.some.inj sized]

/-- A stored block is as long as its stored bytes. -/
theorem readBlock_stored_length {crates : Crates} {pkg : PackageData} {dict : Option Bytes}
    {block : Block} {data : Bytes} (codec : pkg.codec = .zstd dict)
    (stored : pkg.footer.flags.stored = true) (found : readBlock crates pkg block = some data) :
    data.length = block.compressedSize := by
  rw [readBlock, codec] at found
  rcases Option.bind_eq_some_iff.mp found with ⟨extent, located, rest⟩
  rcases Option.bind_eq_some_iff.mp rest with ⟨buf, filled, rest⟩
  rw [if_pos stored] at rest
  rw [← Option.some.inj rest, (readExactAt_eq_some filled).2]
  exact (blockExtent_eq_some.mp located).2.1

theorem readPayloadEntry_eq_some {crates : Crates} {pkg : PackageData} {block : Block}
    {data : Bytes} : readPayloadEntry crates pkg block = some data ↔
      readBlock crates pkg block = some data ∧
        (block.hasContentHash = true → crates.blake3 data = block.contentHash) := by
  rw [readPayloadEntry, Option.bind_eq_bind]
  cases readBlock crates pkg block with
  | none => simp
  | some bytes =>
      rw [Option.bind_some]
      constructor
      · intro kept
        split at kept
        · cases kept
        · next agrees =>
            rw [← Option.some.inj kept]
            refine ⟨rfl, fun hashed => ?_⟩
            simpa [hashed] using agrees
      · intro held
        have same := Option.some.inj held.1
        rw [if_neg, same]
        simpa [same] using held.2

end Onelf.Runtime
