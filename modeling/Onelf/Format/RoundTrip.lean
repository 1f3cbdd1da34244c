import Onelf.Format.Manifest

/-! What `serialize` writes is what `deserialize` reads, and the other way about (`manifest.rs`,
`entry.rs`). -/

namespace Onelf.Format

open Onelf.Lib
open Onelf.Runtime (Block)

/-! ### What was read is what lay there -/

section
variable {size : Nat}

/-- A manifest that was read fits its fields, and is all that was consumed. -/
theorem readManifest_eq_ok {source next : Codec.Source size 0} {manifest : Manifest}
    (ran : (readManifest : Read size Manifest) source = .ok (manifest, next)) :
    manifest.Fits ∧ source.rest = bodyBytes manifest ++ next.rest := by
  simp only [readManifest, Codec.bind_eq_ok, Codec.ensure_eq_ok, Codec.remaining_eq_ok,
    Codec.pure_eq_ok] at ran
  rcases ran with ⟨header, start, head, _, _, ⟨supported, rfl⟩, entrypoints, points, first, entries,
    rows, second, dirs, offsets, third, _, _, ⟨rfl, rfl⟩, _, _, ⟨_, rfl⟩, strings, last, fourth, built,
    rfl⟩
  have header := (header_reads _ _ _).mp head
  have first := (entryPoint_reads.repeated _ _ _ _).mp first
  have second := ((entry_reads _).repeated _ _ _ _).mp second
  have third := ((number_reads 4).repeated _ _ _ _).mp third
  have fourth := (Codec.take_reads _ _ _ _ _).mp fourth
  rw [built]
  constructor
  · exact ⟨header.1, supported, first.1.1, first.1.2, second.1.1, second.1.2, third.1.1, third.1.2,
      fourth.1⟩
  · rw [header.2.1, first.2.1, second.2.1, third.2.1, fourth.2.1]
    simp only [bodyBytes, id, List.append_assoc]

end

theorem whole_small {data : Bytes} : data.length ≤ data.length := le_refl _

theorem whole_unused : 0 ≤ 0 := le_refl _

/-- Where the bytes after a manifest begin. -/
def Manifest.parsed (data : Bytes) : Except ManifestError (Manifest × Bytes) := do
  let read ← (readManifest : Read data.length Manifest) ⟨data, 0, whole_small, whole_unused⟩
  validate read.1
  .ok (read.1, read.2.rest)

/-- `deserialize` drops what follows the manifest. -/
theorem Manifest.deserialize_eq_parsed (data : Bytes) :
    Manifest.deserialize data = (Manifest.parsed data).map Prod.fst := by
  rw [Manifest.deserialize, Manifest.parsed]
  cases (readManifest : Read data.length Manifest) ⟨data, 0, le_refl _, le_refl _⟩ with
  | error reason => rfl
  | ok read =>
      change (validate read.1 >>= fun _ => .ok read.1) =
        (validate read.1 >>= fun _ => .ok (read.1, read.2.rest)).map Prod.fst
      cases validate read.1 with
      | error reason => rfl
      | ok nothing => rfl

theorem Manifest.parsed_eq_ok {data rest : Bytes} {manifest : Manifest}
    (ran : Manifest.parsed data = .ok (manifest, rest)) :
    manifest.Fits ∧ manifest.Valid ∧ data = bodyBytes manifest ++ rest := by
  rcases Except.andThen_eq_ok.mp ran with ⟨⟨read, next⟩, reads, checked⟩
  rw [Except.followed_eq_ok, Except.ok.injEq, Prod.mk.injEq, validate_eq_ok] at checked
  rcases checked with ⟨valid, rfl, rfl⟩
  have found := readManifest_eq_ok reads
  exact ⟨found.1, valid, found.2⟩

/-! ### At the current version -/

/-- The manifest as `serialize` writes it. -/
def Manifest.current (manifest : Manifest) : Manifest :=
  { manifest with header := { manifest.header with version := manifestVersion } }

theorem Manifest.serialize_eq (manifest : Manifest) :
    manifest.serialize = bodyBytes manifest.current := rfl

theorem Manifest.current_of_version {manifest : Manifest}
    (version : manifest.header.version = manifestVersion) : manifest.current = manifest := by
  rw [Manifest.current, ← version]

theorem Manifest.valid_current {manifest : Manifest} (valid : manifest.Valid) :
    manifest.current.Valid where
  entries := valid.entries
  entrypoints := valid.entrypoints
  defaultEntrypoint := valid.defaultEntrypoint
  libDirs := valid.libDirs
  nameOffset := valid.nameOffset

/-- The ranges of an entry's own fields, whatever the number of its blocks. -/
structure EntryTyped (entry : Entry) : Prop where
  parent : entry.parent < 2 ^ 32
  name : entry.name < 2 ^ 32
  mode : entry.mode < 2 ^ 32
  mtimeSecs : entry.mtimeSecs < 2 ^ 64
  mtimeNsec : entry.mtimeNsec < 2 ^ 32
  symlinkTarget : entry.symlinkTarget < 2 ^ 32
  blocks : ∀ block ∈ entry.blocks, block.payloadOffset < 2 ^ 64 ∧ block.compressedSize < 2 ^ 64 ∧
    block.originalSize < 2 ^ 64

/-- Each number is one of its field's type. -/
structure Manifest.Typed (manifest : Manifest) : Prop where
  entryCount : manifest.header.entryCount < 2 ^ 32
  stringTableSize : manifest.header.stringTableSize < 2 ^ 32
  entrypointCount : manifest.header.entrypointCount < 2 ^ 16
  defaultEntrypoint : manifest.header.defaultEntrypoint < 2 ^ 16
  libDirCount : manifest.header.libDirCount < 2 ^ 16
  nameOffset : manifest.header.nameOffset < 2 ^ 16
  entrypoints : ∀ entrypoint ∈ manifest.entrypoints, entrypoint.name < 2 ^ 32 ∧
    entrypoint.targetEntry < 2 ^ 32 ∧ entrypoint.args < 2 ^ 32
  entries : ∀ entry ∈ manifest.entries, EntryTyped entry
  libDirs : ∀ offset ∈ manifest.libDirOffsets, offset < 2 ^ 32

/-- The header's counts are the lengths of the tables. -/
structure Manifest.Counted (manifest : Manifest) : Prop where
  entrypoints : manifest.entrypoints.length = manifest.header.entrypointCount
  entries : manifest.entries.length = manifest.header.entryCount
  libDirs : manifest.libDirOffsets.length = manifest.header.libDirCount
  stringTable : manifest.stringTable.length = manifest.header.stringTableSize

/-- Every entry's blocks can be counted in 32 bits. -/
def Manifest.BlocksCounted (manifest : Manifest) : Prop :=
  ∀ entry ∈ manifest.entries, entry.blocks.length < 2 ^ 32

theorem Manifest.fits_current {manifest : Manifest} (typed : manifest.Typed)
    (counted : manifest.Counted) (blocks : manifest.BlocksCounted) : manifest.current.Fits where
  header := ⟨(by decide : manifestVersion < 256 ^ 2), typed.entryCount, typed.stringTableSize,
    typed.entrypointCount, typed.defaultEntrypoint, typed.libDirCount, typed.nameOffset,
    fun old => absurd old (by decide : ¬manifestVersion < 3)⟩
  supported := (by decide : manifestVersion ≠ 0 ∧ manifestVersion ≤ manifestVersion)
  entrypointCount := counted.entrypoints
  entrypoints := typed.entrypoints
  entryCount := counted.entries
  entries entry member := by
    have fields := typed.entries entry member
    have hashed (block : Block) (among : block ∈ entry.blocks) : BlockFits manifestVersion block :=
      ⟨(fields.blocks block among).1, (fields.blocks block among).2.1,
        (fields.blocks block among).2.2, fun old => absurd old (by decide)⟩
    exact ⟨fields.parent, fields.name, fields.mode, fields.mtimeSecs, fields.mtimeNsec,
      blocks entry member, fields.symlinkTarget, hashed⟩
  libDirCount := counted.libDirs
  libDirs := typed.libDirs
  stringTable := counted.stringTable

/-- A manifest is read back from what was written exactly where its blocks can be counted. -/
theorem Manifest.deserialize_serialize_iff {manifest : Manifest} (typed : manifest.Typed)
    (counted : manifest.Counted) (valid : manifest.Valid) :
    Manifest.deserialize manifest.serialize = .ok manifest.current ↔ manifest.BlocksCounted := by
  constructor
  · intro read
    rw [Manifest.deserialize_eq_parsed, Codec.map_fst_eq_ok] at read
    rcases read with ⟨rest, parsed⟩
    have fits := (Manifest.parsed_eq_ok parsed).1
    intro entry member
    exact (fits.entries entry member).2.2.2.2.2.1
  · intro blocks
    have written := Manifest.deserialize_bodyBytes (fits_current typed counted blocks) []
    rw [List.append_nil, validate_eq_ok.mpr (valid_current valid)] at written
    exact written

/-- What was read at the current version is written as it lay there. -/
theorem Manifest.serialize_parsed {data rest : Bytes} {manifest : Manifest}
    (ran : Manifest.parsed data = .ok (manifest, rest))
    (version : manifest.header.version = manifestVersion) :
    data = manifest.serialize ++ rest := by
  rw [Manifest.serialize_eq, Manifest.current_of_version version]
  exact (Manifest.parsed_eq_ok ran).2.2

/-- A manifest's round trip holds exactly where its blocks can be counted, and the round trip of what
was read always. -/
theorem Manifest.round_trips_iff (manifest : Manifest) (data : Bytes) :
    (manifest.Typed → manifest.Counted → validate manifest = .ok () →
      (Manifest.deserialize manifest.serialize = .ok manifest.current ↔ manifest.BlocksCounted)) ∧
    ∀ read : Manifest, Manifest.deserialize data = .ok read →
      read.header.version = manifestVersion →
        ∃ rest, Manifest.parsed data = .ok (read, rest) ∧ data = read.serialize ++ rest := by
  constructor
  · intro typed counted valid
    exact Manifest.deserialize_serialize_iff typed counted (validate_eq_ok.mp valid)
  · intro read ran version
    rw [Manifest.deserialize_eq_parsed, Codec.map_fst_eq_ok] at ran
    rcases ran with ⟨rest, parsed⟩
    exact ⟨rest, parsed, Manifest.serialize_parsed parsed version⟩

/-! ### An entry whose blocks cannot be counted -/

def plainBlock : Block := ⟨0, 0, 0, zeroDigest⟩

/-- One file at the top, of `count` blocks. -/
def blocksManifest (count : Nat) : Manifest where
  header := ⟨manifestVersion, 1, 1, 0, 0, 0, 0, zeroDigest, zeroDigest, zeroDigest⟩
  entrypoints := []
  entries := [⟨.file, u32Max, 0, 0, 0, 0, zeroDigest, List.replicate count plainBlock, 0⟩]
  libDirOffsets := []
  stringTable := [0]

theorem blocksManifest_typed (count : Nat) : (blocksManifest count).Typed where
  entryCount := (by decide : 1 < 2 ^ 32)
  stringTableSize := (by decide : 1 < 2 ^ 32)
  entrypointCount := (by decide : 0 < 2 ^ 16)
  defaultEntrypoint := (by decide : 0 < 2 ^ 16)
  libDirCount := (by decide : 0 < 2 ^ 16)
  nameOffset := (by decide : 0 < 2 ^ 16)
  entrypoints := fun _ member => absurd member List.not_mem_nil
  entries entry member := by
    rw [List.mem_singleton.mp member]
    exact {
      parent := (by decide : u32Max < 2 ^ 32)
      name := (by decide : 0 < 2 ^ 32)
      mode := (by decide : 0 < 2 ^ 32)
      mtimeSecs := (by decide : 0 < 2 ^ 64)
      mtimeNsec := (by decide : 0 < 2 ^ 32)
      symlinkTarget := (by decide : 0 < 2 ^ 32)
      blocks := by
        intro block among
        rw [(List.mem_replicate.mp among).2]
        decide }
  libDirs := fun _ member => absurd member List.not_mem_nil

theorem blocksManifest_counted (count : Nat) : (blocksManifest count).Counted := ⟨rfl, rfl, rfl, rfl⟩

theorem blocksManifest_valid (count : Nat) : (blocksManifest count).Valid where
  entries index entry found := by
    cases index with
    | zero =>
        rw [← Option.some.inj found]
        exact ⟨Or.inl rfl, (by decide : 0 ≤ 1), (by decide : 0 ≤ 1)⟩
    | succ index => cases found
  entrypoints := fun _ member => absurd member List.not_mem_nil
  defaultEntrypoint := fun some => absurd rfl some
  libDirs := fun _ member => absurd member List.not_mem_nil
  nameOffset := (by decide : 0 ≤ 1)

theorem round_trips_one_block :
    Manifest.deserialize (blocksManifest 1).serialize = .ok (blocksManifest 1).current ∧
      Manifest.parsed (blocksManifest 1).serialize = .ok ((blocksManifest 1).current, []) := by
  have trips := Manifest.round_trips_iff (blocksManifest 1) (blocksManifest 1).serialize
  have read := (trips.1 (blocksManifest_typed 1) (blocksManifest_counted 1)
    (validate_eq_ok.mpr (blocksManifest_valid 1))).mpr (by
      intro entry member
      rw [List.mem_singleton.mp member]
      decide)
  rcases trips.2 _ read rfl with ⟨rest, parsed, whole⟩
  have nothing : rest = [] := by
    have same : (blocksManifest 1).current.serialize = (blocksManifest 1).serialize := rfl
    rw [same] at whole
    exact List.append_right_eq_self.mp whole.symm
  exact ⟨read, by rw [parsed, nothing]⟩

theorem deserialize_uncounted_blocks :
    ∃ manifest : Manifest, manifest.Typed ∧ manifest.Counted ∧ validate manifest = .ok () ∧
      Manifest.deserialize manifest.serialize ≠ .ok manifest.current := by
  have valid := blocksManifest_valid (2 ^ 32)
  refine ⟨blocksManifest (2 ^ 32), blocksManifest_typed _, blocksManifest_counted _,
    validate_eq_ok.mpr valid, ?_⟩
  intro read
  have counted := (Manifest.deserialize_serialize_iff (blocksManifest_typed _)
    (blocksManifest_counted _) valid).mp read _ (List.mem_singleton_self _)
  have length : (List.replicate (2 ^ 32) plainBlock).length < 2 ^ 32 := counted
  rw [List.length_replicate] at length
  exact Nat.lt_irrefl _ length

end Onelf.Format
