import Onelf.Lib.Checks
import Onelf.Runtime.Fuse.Sound

/-! `onelf verify` (`verify.rs`, `decompress_entry` of `extract.rs`), and what the runtime then makes
of the package. -/

namespace Onelf.Cli

open Onelf.Lib Onelf.Runtime Onelf.Runtime.Fuse

/-- Why content could not be had: it is wrong, or the read of the file itself failed. -/
inductive ReadError where
  | invalidData
  | failed
  deriving DecidableEq

inductive VerifyError where
  | predatesHashes
  | read (error : ReadError)
  | prefixMismatch
  | footerMismatch
  /-- The entries, by their index, that failed. -/
  | entries (failed : List Nat)
  deriving DecidableEq

/-- What covers the container besides its prefix hash: the version of the footer, the hash the
manifest has of it, and its `structure_hash` as it stands in the file. -/
structure Structure where
  formatVersion : Nat
  footerHash : Digest
  structureHash : Digest

def formatVersion : Nat := 2

def orError {α : Type} (error : ReadError) : Option α → Except ReadError α
  | some value => .ok value
  | none => .error error

section
variable (crates : Crates) (bulkWith : Bytes → Bytes → Nat → Except ReadError Bytes)
variable (pkg : PackageData)

def checkBlockHash (block : Block) (data : Bytes) : Except ReadError Unit :=
  refuseIf (block.hasContentHash = true ∧ crates.blake3 data ≠ block.contentHash) .invalidData

/-- One call of the bulk decoder with room for `cap` bytes, against a dictionary where there is
one. -/
def bulkDecompress (dict : Option Bytes) (buf : Bytes) (cap : Nat) : Except ReadError Bytes :=
  match dict with
  | some dict => bulkWith dict buf cap
  | none => orError .invalidData (crates.decompress buf cap)

/-- One turn of the loop of `decompress_entry`. -/
def decompressBlock (block : Block) : Except ReadError Bytes :=
  match pkg.codec with
  | .stipple read => do
      let slice ← orError .invalidData (readSlice read block)
      checkBlockHash crates block slice
      .ok slice
  | .zstd dict => do
      let extent ← orError .invalidData (blockExtent pkg.footer block)
      let compressed ← orError .failed (readExactAt pkg.file extent.1 extent.2)
      -- Store mode takes the bytes as they are, against neither size nor hash.
      if pkg.footer.flags.stored then .ok compressed
      else do
        let cap ← orError .invalidData (blockOriginalSize block)
        let decompressed ← bulkDecompress crates bulkWith dict compressed cap
        refuseIf (decompressed.length ≠ cap) .invalidData
        checkBlockHash crates block decompressed
        .ok decompressed

def decompressEntry : List Block → Except ReadError Bytes
  | [] => .ok []
  | block :: blocks => do
      let data ← decompressBlock crates bulkWith pkg block
      let rest ← decompressEntry blocks
      .ok (data ++ rest)

/-- Whether a file's content is the content the manifest has the hash of; a read that fails ends
the run. -/
def checkEntry (entry : Entry) : Except ReadError Bool :=
  match decompressEntry crates bulkWith pkg entry.blocks with
  | .ok data => .ok (crates.blake3 data = entry.contentHash)
  | .error .invalidData => .ok false
  | .error .failed => .error .failed

/-- The indices of the files that fail, from one index on. -/
def checkEntries : Nat → List Entry → Except ReadError (List Nat)
  | _, [] => .ok []
  | index, entry :: entries =>
      if entry.kind = .file then do
        let passed ← checkEntry crates bulkWith pkg entry
        let failed ← checkEntries (index + 1) entries
        .ok (if passed then failed else index :: failed)
      else checkEntries (index + 1) entries

def verify (container : Structure) : Except VerifyError Unit := do
  refuseIf (container.formatVersion < formatVersion) .predatesHashes
  let lead ← (orError .failed (readExactAt pkg.file 0 pkg.footer.manifestOffset)).mapError .read
  refuseIf (crates.blake3 lead ≠ pkg.manifest.prefixHash) .prefixMismatch
  refuseIf (container.structureHash ≠ container.footerHash) .footerMismatch
  let failed ← (checkEntries crates bulkWith pkg 0 pkg.manifest.entries).mapError .read
  refuseIf (failed ≠ []) (.entries failed)

end

variable {crates : Crates} {bulkWith : Bytes → Bytes → Nat → Except ReadError Bytes}
variable {pkg : PackageData}

/-! ### What `verify` checks -/

theorem orError_eq_ok {α : Type} {error : ReadError} {found : Option α} {value : α} :
    orError error found = .ok value ↔ found = some value := by
  cases found with
  | none => simp [orError]
  | some other => simp [orError]

theorem mapError_eq_ok {α ε ε' : Type} {result : Except ε α} {rename : ε → ε'} {value : α} :
    result.mapError rename = .ok value ↔ result = .ok value := by
  cases result with
  | error reason => simp [Except.mapError]
  | ok other => simp [Except.mapError]

theorem checkEntry_eq_ok {entry : Entry} (passed : checkEntry crates bulkWith pkg entry = .ok true) :
    ∃ data, decompressEntry crates bulkWith pkg entry.blocks = .ok data ∧
      crates.blake3 data = entry.contentHash := by
  rw [checkEntry] at passed
  cases read : decompressEntry crates bulkWith pkg entry.blocks with
  | error reason =>
      rw [read] at passed
      cases reason with
      | invalidData => cases passed
      | failed => cases passed
  | ok data =>
      rw [read] at passed
      exact ⟨data, rfl, of_decide_eq_true (Except.ok.inj passed)⟩

theorem checkEntries_eq_nil {index : Nat} {entries : List Entry}
    (clean : checkEntries crates bulkWith pkg index entries = .ok []) :
    ∀ entry ∈ entries, entry.kind = .file → checkEntry crates bulkWith pkg entry = .ok true := by
  induction entries generalizing index with
  | nil => exact fun entry member => absurd member (List.not_mem_nil)
  | cons first entries ih =>
      rw [checkEntries] at clean
      split at clean
      · next file =>
          rcases Except.andThen_eq_ok.mp clean with ⟨passed, checked, rest⟩
          rcases Except.andThen_eq_ok.mp rest with ⟨failed, swept, kept⟩
          have none := Except.ok.inj kept
          split at none
          · next good =>
              rw [none] at swept
              rw [good] at checked
              exact List.forall_mem_cons.mpr ⟨fun _ => checked, ih swept⟩
          · cases none
      · next other => exact List.forall_mem_cons.mpr ⟨fun file => absurd file other, ih clean⟩

/-- A verified package's files decode to the content they are hashed for. -/
theorem verify_eq_ok {container : Structure} (verified : verify crates bulkWith pkg container = .ok ())
    {entry : Entry} (member : entry ∈ pkg.manifest.entries) (file : entry.kind = .file) :
    ∃ data, decompressEntry crates bulkWith pkg entry.blocks = .ok data ∧
      crates.blake3 data = entry.contentHash := by
  rcases Except.andThen_eq_ok.mp verified with ⟨_, _, rest⟩
  rcases Except.andThen_eq_ok.mp rest with ⟨_, _, rest⟩
  rcases Except.andThen_eq_ok.mp rest with ⟨_, _, rest⟩
  rcases Except.andThen_eq_ok.mp rest with ⟨_, _, rest⟩
  rcases Except.andThen_eq_ok.mp rest with ⟨failed, swept, clean⟩
  rw [not_ne_iff.mp (refuseIf_eq_ok.mp clean), mapError_eq_ok] at swept
  exact checkEntry_eq_ok (checkEntries_eq_nil swept entry member file)

/-! ### One block, decoded twice -/

/-- What the file has of a block. -/
def storedBytes (pkg : PackageData) (block : Block) : Bytes :=
  slice pkg.file (pkg.footer.payloadOffset + block.payloadOffset) block.compressedSize

/-- A stored block has the size and the hash the manifest claims for it. -/
def StoredAsClaimed (crates : Crates) (pkg : PackageData) (block : Block) : Prop :=
  ∀ dict, pkg.codec = .zstd dict → pkg.footer.flags.stored = true →
    block.compressedSize = block.originalSize ∧
      (block.hasContentHash = true → crates.blake3 (storedBytes pkg block) = block.contentHash)

/-- A block coded against a dictionary is one the streaming decoder takes. -/
def DictionaryStreams (streams : Bytes → Bool) (pkg : PackageData) (block : Block) : Prop :=
  ∀ dict, pkg.codec = .zstd (some dict) → pkg.footer.flags.stored = false →
    streams (storedBytes pkg block) = true

/-- The runtime reads the block: as long as claimed, and with the hash it has. -/
def BlockServed (crates : Crates) (pkg : PackageData) (block : Block) : Prop :=
  ∃ data, readBlock crates pkg block = some data ∧ data.length = block.originalSize ∧
    readPayloadEntry crates pkg block = some data

theorem checkBlockHash_eq_ok {block : Block} {data : Bytes} :
    checkBlockHash crates block data = .ok () ↔
      (block.hasContentHash = true → crates.blake3 data = block.contentHash) := by
  rw [checkBlockHash, refuseIf_eq_ok, not_and, not_ne_iff]

theorem blockServed_of_checked {block : Block} {data : Bytes}
    (read : readBlock crates pkg block = some data) (sized : data.length = block.originalSize)
    (checked : checkBlockHash crates block data = .ok ()) : BlockServed crates pkg block :=
  ⟨data, read, sized, readPayloadEntry_eq_some.mpr ⟨read, checkBlockHash_eq_ok.mp checked⟩⟩

theorem readExactAt_blockExtent {block : Block} {extent : Nat × Nat} {bytes : Bytes}
    (located : blockExtent pkg.footer block = some extent)
    (read : readExactAt pkg.file extent.1 extent.2 = some bytes) :
    bytes = storedBytes pkg block ∧ bytes.length = block.compressedSize := by
  have extents := blockExtent_eq_some.mp located
  have held := readExactAt_eq_some read
  rw [extents.1, extents.2.1] at held
  exact held

theorem decompressBlock_stipple {read : Nat → Nat → Nat → Option Bytes} {block : Block}
    {data : Bytes} (codec : pkg.codec = .stipple read)
    (decoded : decompressBlock crates bulkWith pkg block = .ok data) :
    readBlock crates pkg block = some data ∧ BlockServed crates pkg block := by
  rw [decompressBlock, codec] at decoded
  rcases Except.andThen_eq_ok.mp decoded with ⟨slice, sliced, rest⟩
  rcases Except.andThen_eq_ok.mp rest with ⟨_, checked, kept⟩
  have whole : readBlock crates pkg block = some slice := by
    rw [readBlock, codec]
    exact orError_eq_ok.mp sliced
  rw [← Except.ok.inj kept]
  exact ⟨whole, blockServed_of_checked whole (readBlock_length (Or.inl ⟨read, codec⟩) whole) checked⟩

/-- A stored block is read either way, and served where it is stored as claimed. -/
theorem decompressBlock_stored {dict : Option Bytes} {block : Block} {data : Bytes}
    (codec : pkg.codec = .zstd dict) (stored : pkg.footer.flags.stored = true)
    (decoded : decompressBlock crates bulkWith pkg block = .ok data) :
    readBlock crates pkg block = some data ∧
      (BlockServed crates pkg block ↔ StoredAsClaimed crates pkg block) := by
  rw [decompressBlock, codec] at decoded
  rcases Except.andThen_eq_ok.mp decoded with ⟨extent, located, rest⟩
  rcases Except.andThen_eq_ok.mp rest with ⟨compressed, filled, rest⟩
  have located := orError_eq_ok.mp located
  have filled := orError_eq_ok.mp filled
  have bytes := readExactAt_blockExtent located filled
  rw [if_pos stored] at rest
  have whole : readBlock crates pkg block = some data := by
    rw [readBlock, codec]
    simp only [located, filled, Option.bind_eq_bind, Option.bind_some]
    rw [if_pos stored, Except.ok.inj rest]
  rw [Except.ok.inj rest] at bytes
  refine ⟨whole, ⟨fun served _ _ _ => ?_, fun claimed => ?_⟩⟩
  · rcases served with ⟨other, read, sized, payload⟩
    rw [whole] at read
    rw [← Option.some.inj read] at sized payload
    rw [← bytes.2, ← bytes.1]
    exact ⟨sized, (readPayloadEntry_eq_some.mp payload).2⟩
  · have held := claimed dict codec stored
    rw [← bytes.2, ← bytes.1] at held
    exact ⟨data, whole, held.1, readPayloadEntry_eq_some.mpr ⟨whole, held.2⟩⟩

/-- A compressed block passes the bulk decoder at its claimed size; the runtime has it from the
decoder it uses. -/
theorem decompressBlock_compressed {dict : Option Bytes} {block : Block} {data : Bytes}
    (codec : pkg.codec = .zstd dict) (compressed : pkg.footer.flags.stored = false)
    (decoded : decompressBlock crates bulkWith pkg block = .ok data) :
    bulkDecompress crates bulkWith dict (storedBytes pkg block) block.originalSize = .ok data ∧
      data.length = block.originalSize ∧ checkBlockHash crates block data = .ok () ∧
      readBlock crates pkg block =
        decodeBlock crates (storedBytes pkg block) block.originalSize dict := by
  rw [decompressBlock, codec] at decoded
  rcases Except.andThen_eq_ok.mp decoded with ⟨extent, located, rest⟩
  rcases Except.andThen_eq_ok.mp rest with ⟨buf, filled, rest⟩
  have located := orError_eq_ok.mp located
  have filled := orError_eq_ok.mp filled
  rw [compressed, if_neg Bool.false_ne_true] at rest
  rcases Except.andThen_eq_ok.mp rest with ⟨cap, sized, rest⟩
  rcases Except.andThen_eq_ok.mp rest with ⟨out, produced, rest⟩
  rcases Except.andThen_eq_ok.mp rest with ⟨_, filledUp, rest⟩
  rcases Except.andThen_eq_ok.mp rest with ⟨_, checked, kept⟩
  have sized := orError_eq_ok.mp sized
  have length := not_ne_iff.mp (refuseIf_eq_ok.mp filledUp)
  have claimed : cap = block.originalSize := by
    rw [blockOriginalSize] at sized
    split at sized
    · cases sized
    · exact (Option.some.inj sized).symm
  rw [claimed] at sized produced length
  rw [← Except.ok.inj kept, ← (readExactAt_blockExtent located filled).1]
  refine ⟨produced, length, checked, ?_⟩
  rw [readBlock, codec]
  simp only [located, filled, compressed, sized, Option.bind_eq_bind, Option.bind_some,
    Bool.false_eq_true, if_false]

theorem decodeBlock_of_decompress {buf data : Bytes} {original : Nat}
    (length : data.length = original) (produced : crates.decompress buf original = some data) :
    decodeBlock crates buf original none = some data := by
  simp only [decodeBlock, produced, Option.bind_eq_bind, Option.bind_some]
  rw [if_neg (not_ne_iff.mpr length)]

section
variable {streams : Bytes → Bool}
variable (streamed : ∀ dict buf cap data, bulkWith dict buf cap = .ok data →
  crates.decompressWith buf dict (cap + 1) = if streams buf then some data else none)
include streamed

theorem decodeBlock_of_bulk {dict buf data : Bytes} {original : Nat}
    (length : data.length = original) (produced : bulkWith dict buf original = .ok data) :
    decodeBlock crates buf original (some dict) = if streams buf then some data else none := by
  simp only [decodeBlock, streamed dict buf original data produced, Option.bind_eq_bind]
  split
  · rw [Option.bind_some, if_neg (not_ne_iff.mpr length)]
  · rfl

/-- What the command decodes the runtime serves, unless the block is stored otherwise than claimed
or the streaming decoder refuses it. -/
theorem decompressBlock_eq_ok {block : Block} {data : Bytes}
    (decoded : decompressBlock crates bulkWith pkg block = .ok data) :
    (BlockServed crates pkg block ↔
        StoredAsClaimed crates pkg block ∧ DictionaryStreams streams pkg block) ∧
      (BlockServed crates pkg block → readBlock crates pkg block = some data) := by
  cases codec : pkg.codec with
  | stipple read =>
      have both := decompressBlock_stipple codec decoded
      refine ⟨iff_of_true both.2 ⟨fun dict other => ?_, fun dict other => ?_⟩, fun _ => both.1⟩
      · rw [codec] at other
        cases other
      · rw [codec] at other
        cases other
  | zstd dict =>
      cases stored : pkg.footer.flags.stored with
      | true =>
          have both := decompressBlock_stored codec stored decoded
          have streams : DictionaryStreams streams pkg block := by
            intro _ _ raw
            rw [stored] at raw
            cases raw
          exact ⟨both.2.trans (and_iff_left streams).symm, fun _ => both.1⟩
      | false =>
          rcases decompressBlock_compressed codec stored decoded with
            ⟨produced, length, checked, reads⟩
          have claimed : StoredAsClaimed crates pkg block := by
            intro _ _ raw
            rw [stored] at raw
            cases raw
          cases dict with
          | none =>
              rw [decodeBlock_of_decompress length (orError_eq_ok.mp produced)] at reads
              have streams : DictionaryStreams streams pkg block := by
                intro dict other
                rw [codec] at other
                cases other
              exact ⟨iff_of_true (blockServed_of_checked reads length checked) ⟨claimed, streams⟩,
                fun _ => reads⟩
          | some dict =>
              rw [decodeBlock_of_bulk streamed length produced] at reads
              by_cases taken : streams (storedBytes pkg block) = true
              · rw [if_pos taken] at reads
                exact ⟨iff_of_true (blockServed_of_checked reads length checked)
                  ⟨claimed, fun _ _ _ => taken⟩, fun _ => reads⟩
              · rw [if_neg taken] at reads
                have refused : ¬BlockServed crates pkg block := by
                  intro served
                  rcases served with ⟨other, read, _⟩
                  rw [reads] at read
                  cases read
                exact ⟨iff_of_false refused fun held => taken (held.2 dict codec stored),
                  fun served => absurd served refused⟩

/-! ### An entry, decoded twice -/

theorem decompressEntry_eq_ok {blocks : List Block} {data : Bytes}
    (decoded : decompressEntry crates bulkWith pkg blocks = .ok data) :
    (∀ block ∈ blocks, BlockServed crates pkg block ↔
        StoredAsClaimed crates pkg block ∧ DictionaryStreams streams pkg block) ∧
      ((∀ block ∈ blocks, BlockServed crates pkg block) →
        readPayloadBlocks crates pkg blocks = some data) := by
  induction blocks generalizing data with
  | nil =>
      rw [← Except.ok.inj decoded]
      exact ⟨fun block member => absurd member List.not_mem_nil, fun _ => rfl⟩
  | cons block blocks ih =>
      rcases Except.andThen_eq_ok.mp decoded with ⟨first, here, rest⟩
      rcases Except.andThen_eq_ok.mp rest with ⟨others, there, joined⟩
      have one := decompressBlock_eq_ok streamed here
      have all := ih there
      refine ⟨List.forall_mem_cons.mpr ⟨one.1, all.1⟩, fun served => ?_⟩
      have served := List.forall_mem_cons.mp served
      simp only [readPayloadBlocks, one.2 served.1, all.2 served.2, Option.bind_eq_bind,
        Option.bind_some]
      rw [Except.ok.inj joined]

end

/-- The runtime serves the file: each block as long as claimed, the verdict on the whole, whatever
the mount was asked before, and the bytes `verify` hashed. -/
def Served (crates : Crates) (bulkWith : Bytes → Bytes → Nat → Except ReadError Bytes)
    (pkg : PackageData) (index : Nat) (entry : Entry) : Prop :=
  (∀ block ∈ entry.blocks, BlockServed crates pkg block) ∧
    (∀ budget named window threads events, (verifyEntry crates pkg
      (serve crates pkg (FuseState.new pkg.manifest budget named window threads) events)
      (entryToInode index) entry).2 = true) ∧
    ∃ data, decompressEntry crates bulkWith pkg entry.blocks = .ok data ∧
      readVerifiedEntry crates pkg entry = some data

/-- A verified package is served exactly where its blocks are stored as claimed and its dictionary
blocks are ones the streaming decoder takes. -/
theorem verify_serves_iff (crates : Crates) (bulkWith : Bytes → Bytes → Nat → Except ReadError Bytes)
    (streams : Bytes → Bool)
    (streamed : ∀ dict buf cap data, bulkWith dict buf cap = .ok data →
      crates.decompressWith buf dict (cap + 1) = if streams buf then some data else none)
    (pkg : PackageData) (container : Structure)
    (verified : verify crates bulkWith pkg container = .ok ()) :
    (∀ index entry, pkg.manifest.entries[index]? = some entry → entry.kind = .file →
        Served crates bulkWith pkg index entry) ↔
      ∀ entry ∈ pkg.manifest.entries, entry.kind = .file → ∀ block ∈ entry.blocks,
        StoredAsClaimed crates pkg block ∧ DictionaryStreams streams pkg block := by
  constructor
  · intro served entry member file block inside
    rcases verify_eq_ok verified member file with ⟨data, decoded, hashed⟩
    rcases List.getElem?_of_mem member with ⟨index, found⟩
    exact ((decompressEntry_eq_ok streamed decoded).1 block inside).mp
      ((served index entry found file).1 block inside)
  · intro condition index entry found file
    have member := List.mem_of_getElem? found
    rcases verify_eq_ok verified member file with ⟨data, decoded, hashed⟩
    have both := decompressEntry_eq_ok streamed decoded
    have blocks : ∀ block ∈ entry.blocks, BlockServed crates pkg block := fun block inside =>
      (both.1 block inside).mpr (condition entry member file block inside)
    have whole := both.2 blocks
    refine ⟨blocks, fun budget named window threads events => ?_, data, decoded, ?_⟩
    · have fresh : (FuseState.new pkg.manifest budget named window threads).Sound crates pkg :=
        sound_new pkg.manifest rfl budget named window threads
      have sound := fresh.serve events
      have own : inodeToEntry (entryToInode index) = index := Nat.add_sub_cancel index 1
      have listed : pkg.manifest.entries[inodeToEntry (entryToInode index)]? = some entry := by
        rw [own, found]
      rw [(verifyEntry_eq sound listed).2, admitted, contentMatches, whole]
      simp only [hashed, decide_true, Bool.or_true]
    · simp only [readVerifiedEntry, whole, Option.bind_eq_bind, Option.bind_some]
      rw [if_neg (not_ne_iff.mpr hashed)]

/-! ### A stored package -/

def storedHashes : List (Bytes × Nat) :=
  [([127, 69, 76, 70], 0x385c67a6e3244d2d88338eaa3b43dfe44374caffea677c41297e6ff79acfa000),
    ([1, 2, 3], 0x436549de42e7facb0ee6c6995b769bb21347d4e673d410703bfb6df21bec77b1),
    ([3, 2, 1], 0x8bc78fc411312946abb9c7b5c3bd3df22b8f3fd1c7a9343e29eaef37ae6755c6)]

/-- BLAKE3 on the content of the package below, which has nothing to decompress. -/
def storedCrates : Crates where
  blake3 bytes :=
    let digest := ((storedHashes.find? fun entry => entry.1 = bytes).map Prod.snd).getD 0
    ⟨leBytes 32 digest, length_leBytes 32 digest⟩
  xxh3 _ := 0
  decompress _ _ := none
  decompressWith _ _ _ := none

def storedBulkWith (_ _ : Bytes) (_ : Nat) : Except ReadError Bytes := .error .invalidData

/-- One file in one stored block, which the manifest says holds `hashed`. -/
def storedPackage (hashed : Bytes) : PackageData where
  footer := ⟨⟨true, false, false⟩, 4, 1, 5, 3, 0, 0⟩
  manifest := ⟨3, storedCrates.blake3 [127, 69, 76, 70],
    [⟨.file, [⟨0, 3, 3, storedCrates.blake3 hashed⟩], storedCrates.blake3 [1, 2, 3]⟩]⟩
  file := [127, 69, 76, 70, 7, 1, 2, 3] ++ List.replicate footerSize 8
  codec := .zstd none

def storedContainer : Structure :=
  ⟨2, storedCrates.blake3 [3, 2, 1], storedCrates.blake3 [3, 2, 1]⟩

/-- A block hash no content has passes the command and fails the mount. -/
theorem verified_package_unserved : ¬∀ (crates : Crates)
    (bulkWith : Bytes → Bytes → Nat → Except ReadError Bytes) (pkg : PackageData)
    (container : Structure), verify crates bulkWith pkg container = .ok () →
      ∀ index entry, pkg.manifest.entries[index]? = some entry → entry.kind = .file →
        Served crates bulkWith pkg index entry := by
  intro serves
  have served := serves storedCrates storedBulkWith (storedPackage [3, 2, 1]) storedContainer
    (by decide +kernel) 0 _ rfl rfl
  rcases served.1 _ List.mem_cons_self with ⟨data, _, _, payload⟩
  have refused : readPayloadEntry storedCrates (storedPackage [3, 2, 1])
      ⟨0, 3, 3, storedCrates.blake3 [3, 2, 1]⟩ = none := by decide +kernel
  rw [refused] at payload
  cases payload

theorem verify_serves_stored :
    (∀ index entry, (storedPackage [1, 2, 3]).manifest.entries[index]? = some entry →
        entry.kind = .file →
        Served storedCrates storedBulkWith (storedPackage [1, 2, 3]) index entry) ↔
      ∀ entry ∈ (storedPackage [1, 2, 3]).manifest.entries, entry.kind = .file →
        ∀ block ∈ entry.blocks, StoredAsClaimed storedCrates (storedPackage [1, 2, 3]) block ∧
          DictionaryStreams (fun _ => true) (storedPackage [1, 2, 3]) block :=
  verify_serves_iff storedCrates storedBulkWith (fun _ => true)
    (fun _ _ _ _ produced => by cases produced) (storedPackage [1, 2, 3]) storedContainer
    (by decide +kernel)

end Onelf.Cli
