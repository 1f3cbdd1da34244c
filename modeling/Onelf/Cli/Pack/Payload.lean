import Onelf.Cli.Pack.Collect

/-! The payload of a package: each file's blocks and the bytes they stand in (`pack.rs`,
`compress.rs`). -/

namespace Onelf.Cli.Pack

open Onelf.Lib Onelf.Format
open Onelf.Runtime (Block)

structure CompressedFile where
  relPath : RelPath
  blocks : List Block
  contentHash : Digest
  mode : UInt32
  mtimeSecs : UInt64

structure CompressedBlock where
  data : Bytes
  originalSize : Nat
  contentHash : Digest

structure EncodedFile where
  contentHash : Digest
  blocks : List CompressedBlock

def minBlockSize : Nat := 4 * 1024
def maxBlockSize : Nat := 32 * 1024 * 1024
def maxStippleBlockSize : Nat := 64 * 1024 * 1024

def asU64 (n : Nat) : Nat := n % 2 ^ 64

/-- What a reader gives a buffer of `size` bytes at a time, the last one short. -/
def runsOf (size : Nat) : Nat → Bytes → List Bytes
  | 0, _ => []
  | fuel + 1, bytes =>
      if bytes.isEmpty then []
      else bytes.take size :: runsOf size fuel (bytes.drop size)

theorem runsOf_flatten {size : Nat} (positive : 0 < size) (fuel : Nat) (bytes : Bytes)
    (enough : bytes.length ≤ fuel) : (runsOf size fuel bytes).flatten = bytes := by
  induction fuel generalizing bytes with
  | zero => rw [List.eq_nil_of_length_eq_zero (Nat.le_zero.mp enough), runsOf, List.flatten_nil]
  | succ fuel ih =>
      cases bytes with
      | nil => rfl
      | cons byte bytes =>
          have shorter : ((byte :: bytes).drop size).length ≤ fuel := by
            rw [List.length_drop]
            rw [List.length_cons] at enough ⊢
            omega
          rw [runsOf, List.isEmpty_cons, if_neg Bool.false_ne_true, List.flatten_cons, ih _ shorter,
            List.take_append_drop]

section
variable (opts : PackOptions) (host : Host)

def encodeBlock (dict : Option Bytes) (block : Bytes) : Option CompressedBlock := do
  let data ← if opts.noCompress then some block else host.compress dict block
  some ⟨data, block.length, host.blake3 block⟩

def encodeInBlocks (dict : Option Bytes) (content : Bytes) : Option EncodedFile :=
  if opts.blockSize = 0 ∨ opts.blockSize > maxBlockSize then none
  else do
    let runs := runsOf opts.blockSize content.length content
    let blocks ← runs.mapM (encodeBlock opts host dict)
    some ⟨host.blake3 runs.flatten, blocks⟩

/-! ### A dictionary -/

def dictSampleBudget : Nat := 100 * 1024 * 1024
def dictSamplePerFile : Nat := 1024 * 1024

/-- A sample of each file in order until the budget is spent. -/
def dictSamples : Nat → List CollectedFile → List Bytes
  | _, [] => []
  | total, file :: files =>
      if total ≥ dictSampleBudget then []
      else if file.content.isEmpty then dictSamples total files
      else file.content.take dictSamplePerFile ::
        dictSamples (total + min file.content.length dictSamplePerFile) files

def contentSize (files : List CollectedFile) : Nat :=
  (files.map fun file => file.content.length).sum

def buildDictionary (files : List CollectedFile) : Option Bytes :=
  let samples := dictSamples 0 files
  if samples.length < 2 then none
  else host.trainDictionary samples (min 1048576 (contentSize files / 2))

def dictionary (files : List CollectedFile) : Option Bytes :=
  if !opts.noCompress && opts.useDict && files.length > 1 && contentSize files > 4096 then
    buildDictionary host files
  else none

/-! ### Blocks, each content written once -/

structure Written where
  payload : Bytes
  payloadOffset : Nat
  seen : SortedMap Digest (List Block)
  files : List CompressedFile

/-- Blocks laid out from an offset on, and the offset after them. -/
def layBlocks : Nat → List CompressedBlock → List Block × Nat
  | offset, [] => ([], offset)
  | offset, block :: blocks =>
      let rest := layBlocks (asU64 (offset + block.data.length)) blocks
      (⟨offset, asU64 block.data.length, asU64 block.originalSize, block.contentHash⟩ :: rest.1,
        rest.2)

def writeFile (dict : Option Bytes) (written : Written) (file : CollectedFile) : Option Written := do
  let encoded ← encodeInBlocks opts host dict file.content
  match written.seen.get? encoded.contentHash with
  | some shared => some { written with files := written.files ++
      [⟨file.relPath, shared, encoded.contentHash, file.mode, file.mtimeSecs⟩] }
  | none =>
      let laid := layBlocks written.payloadOffset encoded.blocks
      some ⟨written.payload ++ encoded.blocks.flatMap CompressedBlock.data, laid.2,
        written.seen.insert encoded.contentHash laid.1, written.files ++
          [⟨file.relPath, laid.1, encoded.contentHash, file.mode, file.mtimeSecs⟩]⟩

/-- The files as they stand in a payload, the payload and its size. -/
structure Payloaded where
  files : List CompressedFile
  payload : Bytes
  payloadSize : Nat

def blocksPayload (dict : Option Bytes) (files : List CollectedFile) : Option Payloaded := do
  let written ← files.foldlM (writeFile opts host dict) ⟨[], 0, SortedMap.empty, []⟩
  some ⟨written.files, written.payload, written.payloadOffset⟩

/-! ### A stipplefs image -/

/-- The slices of a file, by their place in it; what a block calls its compressed size is the inode
here. -/
def sliceBlocks (inode : UInt32) : Nat → List Bytes → List Block
  | _, [] => []
  | offset, slice :: slices =>
      ⟨offset, inode.toNat, asU64 slice.length, host.blake3 slice⟩ ::
        sliceBlocks inode (asU64 (offset + slice.length)) slices

def stipplePayload (files : List CollectedFile) : Option Payloaded := do
  let image ← host.stippleImage (files.map fun file => (file.relPath, file.content))
  let built := files.map fun file =>
    let read := image.2 file.relPath
    (⟨file.relPath, sliceBlocks host read.1 0 read.2, host.blake3 read.2.flatten, file.mode,
      file.mtimeSecs⟩ : CompressedFile)
  some ⟨built, image.1, image.1.length⟩

def writePayload (files : List CollectedFile) : Option Payloaded :=
  match opts.payload with
  | .blocks => blocksPayload opts host (dictionary opts host files) files
  | .stipple => stipplePayload host files

end

/-! ### Every file is there, under its own hash -/

/-- What a file becomes, whatever blocks it has been given. -/
structure Stands (hash : Digest) (file : CollectedFile) (built : CompressedFile) : Prop where
  relPath : built.relPath = file.relPath
  mode : built.mode = file.mode
  mtimeSecs : built.mtimeSecs = file.mtimeSecs
  contentHash : built.contentHash = hash
  fits : ∀ block ∈ built.blocks, BlockFits manifestVersion block

theorem asU64_lt (n : Nat) : asU64 n < 256 ^ 8 := Nat.mod_lt n (by decide)

theorem layBlocks_fit {offset : Nat} (small : offset < 256 ^ 8) (blocks : List CompressedBlock) :
    (∀ block ∈ (layBlocks offset blocks).1, BlockFits manifestVersion block) ∧
      (layBlocks offset blocks).2 < 256 ^ 8 := by
  induction blocks generalizing offset with
  | nil => exact ⟨fun block member => absurd member List.not_mem_nil, small⟩
  | cons first blocks ih =>
      have rest := ih (asU64_lt (offset + first.data.length))
      rw [layBlocks]
      refine ⟨?_, rest.2⟩
      rw [List.forall_mem_cons]
      exact ⟨⟨small, asU64_lt _, asU64_lt _, fun old => absurd old (by decide)⟩, rest.1⟩

theorem sliceBlocks_fit (host : Host) (inode : UInt32) {offset : Nat} (small : offset < 256 ^ 8)
    (slices : List Bytes) :
    ∀ block ∈ sliceBlocks host inode offset slices, BlockFits manifestVersion block := by
  induction slices generalizing offset with
  | nil => exact fun block member => absurd member List.not_mem_nil
  | cons slice slices ih =>
      have wide : inode.toNat < 256 ^ 8 := lt_trans inode.toNat_lt (by decide)
      rw [sliceBlocks, List.forall_mem_cons]
      exact ⟨⟨small, wide, asU64_lt _, fun old => absurd old (by decide)⟩, ih (asU64_lt _)⟩

section
variable {opts : PackOptions} {host : Host}

theorem encodeInBlocks_hash {dict : Option Bytes} {content : Bytes} {encoded : EncodedFile}
    (ran : encodeInBlocks opts host dict content = some encoded) :
    encoded.contentHash = host.blake3 content := by
  rw [encodeInBlocks] at ran
  split at ran
  · cases ran
  · next sized =>
      have positive : 0 < opts.blockSize := by omega
      simp only [Option.bind_eq_bind, Option.bind_eq_some_iff, Option.some.injEq] at ran
      rcases ran with ⟨blocks, _, built⟩
      rw [← built, runsOf_flatten positive _ _ (le_refl _)]

/-- What a payload being written keeps, of the files it has. -/
structure Written.Sound (host : Host) (past : List CollectedFile) (written : Written) : Prop where
  files : List.Forall₂ (fun file built => Stands (host.blake3 file.content) file built) past
    written.files
  shared : ∀ hash blocks, written.seen.get? hash = some blocks →
    ∀ block ∈ blocks, BlockFits manifestVersion block
  small : written.payloadOffset < 256 ^ 8

theorem Written.sound_nil (host : Host) : Written.Sound host [] ⟨[], 0, SortedMap.empty, []⟩ where
  files := List.Forall₂.nil
  shared hash blocks held := by
    rw [SortedMap.get?_empty] at held
    cases held
  small := by decide

/-- Whether or not its content was written before, a file is added under its own hash. -/
theorem writeFile_sound {dict : Option Bytes} (past : List CollectedFile) (written : Written)
    (file : CollectedFile) (next : Written) (sound : written.Sound host past)
    (ran : writeFile opts host dict written file = some next) :
    next.Sound host (past ++ [file]) := by
  rw [writeFile, Option.bind_eq_bind, Option.bind_eq_some_iff] at ran
  rcases ran with ⟨encoded, encodes, ran⟩
  have hashed := encodeInBlocks_hash encodes
  have added {built : CompressedFile} (stands : Stands (host.blake3 file.content) file built) :
      List.Forall₂ (fun file built => Stands (host.blake3 file.content) file built)
        (past ++ [file]) (written.files ++ [built]) :=
    List.rel_append sound.files (List.Forall₂.cons stands List.Forall₂.nil)
  cases found : written.seen.get? encoded.contentHash with
  | some blocks =>
      rw [found] at ran
      cases ran
      exact ⟨added ⟨rfl, rfl, rfl, hashed, sound.shared _ _ found⟩, sound.shared, sound.small⟩
  | none =>
      rw [found] at ran
      cases ran
      have laid := layBlocks_fit sound.small encoded.blocks
      refine ⟨added ⟨rfl, rfl, rfl, hashed, laid.1⟩, fun hash blocks held => ?_, laid.2⟩
      rw [SortedMap.get?_insert] at held
      split at held
      · cases held
        exact laid.1
      · exact sound.shared hash blocks held

theorem blocksPayload_stands {dict : Option Bytes} {files : List CollectedFile}
    {payloaded : Payloaded} (ran : blocksPayload opts host dict files = some payloaded) :
    List.Forall₂ (fun file built => Stands (host.blake3 file.content) file built) files
      payloaded.files := by
  rw [blocksPayload, Option.bind_eq_bind, Option.bind_eq_some_iff] at ran
  rcases ran with ⟨written, ran, built⟩
  cases built
  exact (Option.foldlM_keeps writeFile_sound (Written.sound_nil host) ran).files

/-- What an image gives back of each file is the file. -/
def ImageFaithful (host : Host) : Prop :=
  ∀ files image, host.stippleImage files = some image → (files.map Prod.fst).Nodup →
    ∀ file ∈ files, (image.2 file.1).2.flatten = file.2

theorem stipplePayload_stands (files : List CollectedFile) {payloaded : Payloaded}
    (ran : stipplePayload host files = some payloaded) :
    ∃ hash : RelPath → Digest, List.Forall₂ (fun file built => Stands (hash file.relPath) file built)
      files payloaded.files ∧ (ImageFaithful host → (files.map CollectedFile.relPath).Nodup →
        ∀ file ∈ files, hash file.relPath = host.blake3 file.content) := by
  rw [stipplePayload, Option.bind_eq_bind, Option.bind_eq_some_iff] at ran
  rcases ran with ⟨image, ran, built⟩
  cases built
  refine ⟨fun path => host.blake3 (image.2 path).2.flatten, ?_, ?_⟩
  · rw [List.forall₂_map_right_iff]
    exact List.forall₂_same.mpr fun file _ =>
      ⟨rfl, rfl, rfl, rfl, sliceBlocks_fit host _ (by decide) _⟩
  · intro faithful distinct file member
    have placed : (files.map fun file => (file.relPath, file.content)).map Prod.fst =
        files.map CollectedFile.relPath := by
      rw [List.map_map]
      rfl
    exact congrArg host.blake3 (faithful _ image ran (placed ▸ distinct)
      (file.relPath, file.content) (List.mem_map_of_mem member))

/-- Every file is in the payload; while no path is taken twice, under the hash of its content. -/
theorem writePayload_stands {files : List CollectedFile} {payloaded : Payloaded}
    (ran : writePayload opts host files = some payloaded) :
    ∃ hash : CollectedFile → Digest,
      List.Forall₂ (fun file built => Stands (hash file) file built) files payloaded.files ∧
        (ImageFaithful host → (files.map CollectedFile.relPath).Nodup →
          ∀ file ∈ files, hash file = host.blake3 file.content) := by
  rw [writePayload] at ran
  cases kind : opts.payload with
  | blocks =>
      rw [kind] at ran
      exact ⟨fun file => host.blake3 file.content, blocksPayload_stands ran,
        fun _ _ file _ => rfl⟩
  | stipple =>
      rw [kind] at ran
      rcases stipplePayload_stands files ran with ⟨hash, stands, hashed⟩
      exact ⟨fun file => hash file.relPath, stands, hashed⟩

end

end Onelf.Cli.Pack
