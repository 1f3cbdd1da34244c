import Onelf.Cli.Artifact
import Onelf.Cli.Pack.Payload

/-! What a payload of blocks gives back: each file's blocks decode to its content. -/

namespace Onelf.Cli.Pack

open Onelf.Lib
open Onelf.Format (manifestVersion)
open Onelf.Runtime (Block PackageData)

section
variable (opts : PackOptions) (host : Host) (dict : Option Bytes)

/-- A block has its place in the payload, and there is what one run of content was encoded as. -/
structure HoldsRun (payload : Bytes) (block : Block) (run : Bytes) : Prop where
  inside : block.payloadOffset + block.compressedSize ≤ payload.length
  encoded : encodeBlock opts host dict run =
    some ⟨slice payload block.payloadOffset block.compressedSize, block.originalSize,
      block.contentHash⟩
  small : run.length ≤ maxBlockSize

/-- The blocks hold the content, run by run. -/
def HoldsContent (payload : Bytes) (blocks : List Block) (content : Bytes) : Prop :=
  ∃ runs : List Bytes, runs.flatten = content ∧
    List.Forall₂ (HoldsRun opts host dict payload) blocks runs

end

section
variable {opts : PackOptions} {host : Host} {dict : Option Bytes}

theorem slice_append_of_inside {bytes : Bytes} {start len : Nat} (more : Bytes)
    (inside : start + len ≤ bytes.length) : slice (bytes ++ more) start len = slice bytes start len := by
  rw [slice, slice, List.drop_append_of_le_length (by omega),
    List.take_append_of_le_length (by rw [List.length_drop]; omega)]

theorem HoldsContent.grows {payload : Bytes} {blocks : List Block} {content : Bytes}
    (holds : HoldsContent opts host dict payload blocks content) (more : Bytes) :
    HoldsContent opts host dict (payload ++ more) blocks content := by
  rcases holds with ⟨runs, whole, held⟩
  refine ⟨runs, whole, held.imp fun block run holds => ⟨?_, ?_, holds.small⟩⟩
  · rw [List.length_append]
    exact Nat.le_trans holds.inside (Nat.le_add_right _ _)
  · rw [slice_append_of_inside more holds.inside]
    exact holds.encoded

/-! ### Writing -/

theorem runsOf_length {size fuel : Nat} {bytes run : Bytes} (member : run ∈ runsOf size fuel bytes) :
    run.length ≤ size := by
  induction fuel generalizing bytes with
  | zero => cases member
  | succ fuel ih =>
      rw [runsOf] at member
      split at member
      · cases member
      · rcases List.mem_cons.mp member with first | later
        · rw [first, List.length_take]
          exact Nat.min_le_left _ _
        · exact ih later

/-- What the blocks of one file are, before they have a place. -/
theorem encodeInBlocks_runs {content : Bytes} {encoded : EncodedFile}
    (ran : encodeInBlocks opts host dict content = some encoded) :
    encoded.contentHash = host.blake3 content ∧ ∃ runs : List Bytes, runs.flatten = content ∧
      List.Forall₂ (fun block run => encodeBlock opts host dict run = some block ∧
        run.length ≤ maxBlockSize) encoded.blocks runs := by
  have hashed := encodeInBlocks_hash ran
  rw [encodeInBlocks] at ran
  split at ran
  · cases ran
  · next sized =>
      have positive : 0 < opts.blockSize := by omega
      simp only [Option.bind_eq_bind, Option.bind_eq_some_iff, Option.some.injEq] at ran
      rcases ran with ⟨blocks, made, built⟩
      refine ⟨hashed, runsOf opts.blockSize content.length content,
        runsOf_flatten positive _ _ (le_refl _), ?_⟩
      rw [← built]
      have pairs := Option.mapM_eq_some.mp made
      refine List.Forall₂.flip (List.forall₂_iff_get.mpr ⟨pairs.length_eq, fun index inside also => ?_⟩)
      have short := runsOf_length (List.get_mem _ ⟨index, inside⟩)
      exact ⟨(List.forall₂_iff_get.mp pairs).2 index inside also, by omega⟩

/-- The data a run is stored as. -/
def encodedAs (opts : PackOptions) (host : Host) (dict : Option Bytes) (run : Bytes) : Option Bytes :=
  if opts.noCompress then some run else host.compress dict run

theorem encodeBlock_eq_some {run : Bytes} {block : CompressedBlock} :
    encodeBlock opts host dict run = some block ↔
      encodedAs opts host dict run = some block.data ∧ block.originalSize = run.length ∧
        block.contentHash = host.blake3 run := by
  rcases block with ⟨data, originalSize, contentHash⟩
  rw [encodeBlock, encodedAs]
  split
  · simp [eq_comm]
  · cases host.compress dict run with
    | none => simp
    | some encoded => simp [eq_comm]

/-- Blocks laid out behind a payload stand where their data is put. -/
theorem layBlocks_places (lead : Bytes) (blocks : List CompressedBlock)
    (small : (lead ++ blocks.flatMap CompressedBlock.data).length < 2 ^ 64) :
    (layBlocks lead.length blocks).2 = (lead ++ blocks.flatMap CompressedBlock.data).length ∧
      List.Forall₂ (fun (block : Block) (made : CompressedBlock) =>
        block.payloadOffset + block.compressedSize ≤
            (lead ++ blocks.flatMap CompressedBlock.data).length ∧
          slice (lead ++ blocks.flatMap CompressedBlock.data) block.payloadOffset
            block.compressedSize = made.data ∧
          block.originalSize = asU64 made.originalSize ∧ block.contentHash = made.contentHash)
        (layBlocks lead.length blocks).1 blocks := by
  induction blocks generalizing lead with
  | nil => exact ⟨by rw [List.flatMap_nil, List.append_nil]; rfl, List.Forall₂.nil⟩
  | cons first blocks ih =>
      have whole : lead ++ (first :: blocks).flatMap CompressedBlock.data =
          lead ++ first.data ++ blocks.flatMap CompressedBlock.data := by
        rw [List.flatMap_cons, List.append_assoc]
      rw [whole] at small ⊢
      have bound := small
      rw [List.length_append, List.length_append] at bound
      have here : asU64 (lead.length + first.data.length) = (lead ++ first.data).length := by
        rw [List.length_append]
        exact Nat.mod_eq_of_lt (by omega)
      have size : asU64 first.data.length = first.data.length := Nat.mod_eq_of_lt (by omega)
      have rest := ih (lead ++ first.data) small
      rw [layBlocks, here]
      refine ⟨rest.1, List.Forall₂.cons ⟨?_, ?_, rfl, rfl⟩ rest.2⟩
      · rw [size, List.length_append, List.length_append]
        exact Nat.le_add_right _ _
      · rw [size, slice_append_of_inside _ (by rw [List.length_append])]
        exact (congrArg (List.take _) List.drop_left).trans List.take_length

/-- What a payload being written keeps: each file has blocks of its own content, or of another file's
under the same hash. -/
structure Written.Holds (opts : PackOptions) (host : Host) (dict : Option Bytes)
    (past : List CollectedFile) (written : Written) : Prop where
  offset : written.payloadOffset = written.payload.length
  seen : ∀ hash blocks, written.seen.get? hash = some blocks →
    ∃ file ∈ past, host.blake3 file.content = hash ∧
      HoldsContent opts host dict written.payload blocks file.content
  files : List.Forall₂ (fun file (built : CompressedFile) => ∃ other ∈ past,
    host.blake3 other.content = host.blake3 file.content ∧
      HoldsContent opts host dict written.payload built.blocks other.content) past written.files

theorem writeFile_holds (past : List CollectedFile) (written : Written) (file : CollectedFile)
    (next : Written)
    (holds : written.payload.length < 2 ^ 64 → written.Holds opts host dict past)
    (ran : writeFile opts host dict written file = some next) (small : next.payload.length < 2 ^ 64) :
    next.Holds opts host dict (past ++ [file]) := by
  rw [writeFile, Option.bind_eq_bind, Option.bind_eq_some_iff] at ran
  rcases ran with ⟨encoded, encodes, ran⟩
  rcases encodeInBlocks_runs encodes with ⟨hashed, runs, whole, blocks⟩
  have later {other : CollectedFile} (member : other ∈ past) : other ∈ past ++ [file] :=
    List.mem_append_left _ member
  have own : file ∈ past ++ [file] := List.mem_append_right _ (List.mem_singleton_self _)
  cases found : written.seen.get? encoded.contentHash with
  | some shared =>
      rw [found] at ran
      cases ran
      have held := holds small
      rcases held.seen _ _ found with ⟨other, member, same, content⟩
      refine ⟨held.offset, fun hash blocks seen => ?_, List.rel_append ?_ ?_⟩
      · rcases held.seen hash blocks seen with ⟨other, member, facts⟩
        exact ⟨other, later member, facts⟩
      · exact held.files.imp fun _ _ facts => by
          rcases facts with ⟨other, member, facts⟩
          exact ⟨other, later member, facts⟩
      · exact List.Forall₂.cons ⟨other, later member, same.trans hashed, content⟩ List.Forall₂.nil
  | none =>
      rw [found] at ran
      cases ran
      have shorter : written.payload.length < 2 ^ 64 := by
        rw [List.length_append] at small
        omega
      have held := holds shorter
      have places := layBlocks_places written.payload encoded.blocks small
      rw [← held.offset] at places
      have content : HoldsContent opts host dict
          (written.payload ++ encoded.blocks.flatMap CompressedBlock.data)
          (layBlocks written.payloadOffset encoded.blocks).1 file.content := by
        refine ⟨runs, whole, forall₂_trans (fun block made run placed encoded => ?_) places.2 blocks⟩
        rcases placed with ⟨inside, data, size, hash⟩
        have short := encoded.2
        refine ⟨inside, ?_, short⟩
        have made := encodeBlock_eq_some.mp encoded.1
        have whole : asU64 run.length = run.length :=
          Nat.mod_eq_of_lt (lt_of_le_of_lt short (by decide))
        refine encodeBlock_eq_some.mpr ⟨?_, ?_, ?_⟩
        · rw [data]
          exact made.1
        · rw [size, made.2.1, whole]
        · rw [hash, made.2.2]
      refine ⟨places.1, fun hash blocks seen => ?_, List.rel_append ?_ ?_⟩
      · rw [SortedMap.get?_insert] at seen
        split at seen
        · next same =>
            cases seen
            exact ⟨file, own, hashed.symm.trans same, content⟩
        · rcases held.seen hash blocks seen with ⟨other, member, same, old⟩
          exact ⟨other, later member, same, old.grows _⟩
      · exact held.files.imp fun _ _ facts => by
          rcases facts with ⟨other, member, same, old⟩
          exact ⟨other, later member, same, old.grows _⟩
      · exact List.Forall₂.cons ⟨file, own, rfl, content⟩ List.Forall₂.nil

theorem blocksPayload_holds {files : List CollectedFile} {payloaded : Payloaded}
    (ran : blocksPayload opts host dict files = some payloaded)
    (small : payloaded.payload.length < 2 ^ 64) :
    payloaded.payloadSize = payloaded.payload.length ∧
      List.Forall₂ (fun file (built : CompressedFile) => ∃ other ∈ files,
        host.blake3 other.content = host.blake3 file.content ∧
          HoldsContent opts host dict payloaded.payload built.blocks other.content) files
        payloaded.files := by
  rw [blocksPayload, Option.bind_eq_bind, Option.bind_eq_some_iff] at ran
  rcases ran with ⟨written, ran, built⟩
  cases built
  have begins : (⟨[], 0, SortedMap.empty, []⟩ : Written).Holds opts host dict [] := by
    refine ⟨rfl, fun hash blocks seen => ?_, List.Forall₂.nil⟩
    rw [SortedMap.get?_empty] at seen
    cases seen
  have holds : written.payload.length < 2 ^ 64 → written.Holds opts host dict ([] ++ files) :=
    @Option.foldlM_keeps _ _
      (fun past written => written.payload.length < 2 ^ 64 → written.Holds opts host dict past) _
      writeFile_holds [] files _ _ (fun _ => begins) ran
  exact ⟨(holds small).offset, (holds small).files⟩

end

/-! ### Reading -/

/-- The readers link the crates that packed. -/
structure SameCrates (host : Host) (readers : Readers) : Prop where
  blake3 : readers.crates.blake3 = host.blake3
  frames : ∀ dict run frame, host.compress dict run = some frame →
    bulkDecompress readers.crates readers.bulkWith dict frame run.length = .ok run

/-- The payload stands in the file where the footer says. -/
structure StandsIn (opts : PackOptions) (dict : Option Bytes) (payload : Bytes) (pkg : PackageData) :
    Prop where
  place : ∃ lead tail, pkg.file = lead ++ payload ++ tail ∧ lead.length = pkg.footer.payloadOffset
  size : pkg.footer.payloadSize = payload.length
  small : pkg.file.length < 2 ^ 64
  codec : pkg.codec = .zstd dict
  stored : pkg.footer.flags.stored = opts.noCompress

section
variable {opts : PackOptions} {host : Host} {dict : Option Bytes} {readers : Readers}
  {payload : Bytes} {pkg : PackageData}

/-- The bytes of a block are found where it says. -/
theorem StandsIn.reads (stands : StandsIn opts dict payload pkg) {block : Block}
    (inside : block.payloadOffset + block.compressedSize ≤ payload.length) :
    ∃ extent, Runtime.blockExtent pkg.footer block = some extent ∧
      Runtime.readExactAt pkg.file extent.1 extent.2 =
        some (slice payload block.payloadOffset block.compressedSize) := by
  rcases stands.place with ⟨lead, tail, file, place⟩
  have small := stands.small
  have length := congrArg List.length file
  rw [List.length_append, List.length_append] at length
  refine ⟨(pkg.footer.payloadOffset + block.payloadOffset, block.compressedSize), ?_, ?_⟩
  · refine Runtime.blockExtent_eq_some.mpr ⟨rfl, rfl, ?_, ?_⟩
    · rw [stands.size]
      omega
    · rw [stands.size, Runtime.u64Limit]
      omega
  · have bytes : slice pkg.file (pkg.footer.payloadOffset + block.payloadOffset)
        block.compressedSize = slice payload block.payloadOffset block.compressedSize := by
      rw [file, ← place, slice_append_of_inside tail (by rw [List.length_append]; omega), slice,
        List.drop_length_add_append]
      rfl
    rw [Runtime.readExactAt, if_pos (by rw [List.length_drop]; omega), bytes]

theorem decompressBlock_of_holds (same : SameCrates host readers)
    (stands : StandsIn opts dict payload pkg) {block : Block} {run : Bytes}
    (holds : HoldsRun opts host dict payload block run) :
    decompressBlock readers.crates readers.bulkWith pkg block = .ok run := by
  rcases stands.reads holds.inside with ⟨extent, located, read⟩
  have encoded := encodeBlock_eq_some.mp holds.encoded
  have checked : checkBlockHash readers.crates block run = .ok () := by
    refine checkBlockHash_eq_ok.mpr fun _ => ?_
    rw [same.blake3]
    exact encoded.2.2.symm
  have made := encoded.1
  rw [encodedAs] at made
  rw [decompressBlock, stands.codec]
  refine Except.andThen_eq_ok.mpr ⟨extent, orError_eq_ok.mpr located,
    Except.andThen_eq_ok.mpr ⟨_, orError_eq_ok.mpr read, ?_⟩⟩
  rw [stands.stored]
  split
  · next raw =>
      rw [if_pos raw] at made
      rw [Option.some.inj made]
  · next compressed =>
      rw [if_neg compressed] at made
      have cap : Runtime.blockOriginalSize block = some run.length := by
        have bound : ¬run.length > Runtime.maxBlockOriginal :=
          Nat.not_lt.mpr (Nat.le_trans holds.small (by decide))
        have size : block.originalSize = run.length := encoded.2.1
        rw [Runtime.blockOriginalSize, size, if_neg bound]
      refine Except.andThen_eq_ok.mpr ⟨run.length, orError_eq_ok.mpr cap,
        Except.andThen_eq_ok.mpr ⟨run, same.frames dict run _ made,
          Except.andThen_eq_ok.mpr ⟨(), refuseIf_eq_ok.mpr (not_ne_iff.mpr rfl),
            Except.andThen_eq_ok.mpr ⟨(), checked, rfl⟩⟩⟩⟩

theorem decompressEntry_of_holds (same : SameCrates host readers)
    (stands : StandsIn opts dict payload pkg) {blocks : List Block} {content : Bytes}
    (holds : HoldsContent opts host dict payload blocks content) :
    decompressEntry readers.crates readers.bulkWith pkg blocks = .ok content := by
  rcases holds with ⟨runs, whole, held⟩
  induction held generalizing content with
  | nil =>
      rw [← whole]
      rfl
  | cons first _ ih =>
      rw [List.flatten_cons] at whole
      rw [← whole, decompressEntry]
      exact Except.andThen_eq_ok.mpr ⟨_, decompressBlock_of_holds same stands first,
        Except.andThen_eq_ok.mpr ⟨_, ih rfl, rfl⟩⟩

end

end Onelf.Cli.Pack
