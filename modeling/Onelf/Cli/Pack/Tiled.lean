import Onelf.Cli.Pack.Opened
import Onelf.Lib.Chunks

/-! The payload of a package is tiled by its blocks, and each file decodes from its own (`pack.rs`,
`compress.rs`). -/

namespace Onelf.Cli.Pack

open Onelf.Lib hiding Holds
open Onelf.Format
open Onelf.Runtime (Block)

/-! ### Files compressed by chunks -/

section
variable (opts : PackOptions) (host : Host)

/-- Runs of files whose total size stays within the budget, `held` the one being filled and `acc`
its size; a file larger than the budget is a run of its own. -/
def sizeBoundedChunksFrom (budget : Nat) :
    List CollectedFile → Nat → List CollectedFile → List (List CollectedFile)
  | held, _, [] => if held.isEmpty then [] else [held]
  | held, acc, file :: files =>
      if !held.isEmpty && acc + file.content.length > budget then
        held :: sizeBoundedChunksFrom budget [file] file.content.length files
      else sizeBoundedChunksFrom budget (held ++ [file]) (acc + file.content.length) files

def sizeBoundedChunks (budget : Nat) (files : List CollectedFile) : List (List CollectedFile) :=
  sizeBoundedChunksFrom budget [] 0 files

/-- An encoded file written behind those before it, unless its content is there already. -/
def placeFile (written : Written) (file : CollectedFile) (encoded : EncodedFile) : Written :=
  match written.seen.get? encoded.contentHash with
  | some shared => { written with files := written.files ++
      [⟨file.relPath, shared, encoded.contentHash, file.mode, file.mtimeSecs⟩] }
  | none =>
      let laid := layBlocks written.payloadOffset encoded.blocks
      ⟨written.payload ++ encoded.blocks.flatMap CompressedBlock.data, laid.2,
        written.seen.insert encoded.contentHash laid.1, written.files ++
          [⟨file.relPath, laid.1, encoded.contentHash, file.mode, file.mtimeSecs⟩]⟩

/-- One run of files, all encoded before the first is written. -/
def writeChunk (dict : Option Bytes) (written : Written) (chunk : List CollectedFile) :
    Option Written := do
  let done ← chunk.mapM fun file => encodeInBlocks opts host dict file.content
  some ((chunk.zip done).foldl (fun written pair => placeFile written pair.1 pair.2) written)

end

section
variable {opts : PackOptions} {host : Host} {dict : Option Bytes}

theorem sizeBoundedChunksFrom_flatten (budget : Nat) (held : List CollectedFile) (acc : Nat)
    (files : List CollectedFile) :
    (sizeBoundedChunksFrom budget held acc files).flatten = held ++ files := by
  induction files generalizing held acc with
  | nil => cases held <;> simp [sizeBoundedChunksFrom]
  | cons file files ih =>
      rw [sizeBoundedChunksFrom]
      split
      · rw [List.flatten_cons, ih, List.singleton_append]
      · rw [ih, List.append_assoc, List.singleton_append]

/-- A run that may be encoded at once: a single file, or files within the budget. -/
def Bounded (budget : Nat) (run : List CollectedFile) : Prop :=
  (∃ file, run = [file]) ∨
    run ≠ [] ∧ (run.map fun file => file.content.length).sum ≤ budget

theorem sizeBoundedChunksFrom_bounded {budget : Nat} {held : List CollectedFile}
    (bounded : held = [] ∨ Bounded budget held) (files : List CollectedFile) :
    ∀ run ∈ sizeBoundedChunksFrom budget held
      (held.map fun file => file.content.length).sum files, Bounded budget run := by
  induction files generalizing held with
  | nil =>
      intro run member
      rw [sizeBoundedChunksFrom] at member
      split at member
      · cases member
      · next filled =>
          rw [List.mem_singleton.mp member]
          exact bounded.resolve_left fun empty => filled (by rw [empty]; rfl)
  | cons file files ih =>
      intro run member
      rw [sizeBoundedChunksFrom] at member
      split at member
      · next full =>
          rcases List.mem_cons.mp member with same | later
          · rw [same]
            exact bounded.resolve_left fun empty => by simp [empty] at full
          · exact ih (Or.inr (Or.inl ⟨file, rfl⟩)) run (by simpa using later)
      · next room =>
          refine @ih (held ++ [file]) ?_ run (by simpa using member)
          cases held with
          | nil => exact Or.inr (Or.inl ⟨file, rfl⟩)
          | cons first more =>
              refine Or.inr (Or.inr ⟨by simp, ?_⟩)
              simpa [Nat.add_assoc] using room

theorem writeFile_eq (written : Written) (file : CollectedFile) :
    writeFile opts host dict written file =
      (encodeInBlocks opts host dict file.content).map (placeFile written file) := by
  rw [writeFile]
  cases encodeInBlocks opts host dict file.content with
  | none => rfl
  | some encoded =>
      rw [Option.bind_eq_bind, Option.bind_some, Option.map_some, placeFile]
      cases written.seen.get? encoded.contentHash <;> rfl

theorem writeChunk_eq (written : Written) (chunk : List CollectedFile) :
    writeChunk opts host dict written chunk = chunk.foldlM (writeFile opts host dict) written := by
  induction chunk generalizing written with
  | nil => rfl
  | cons file chunk ih =>
      rw [List.foldlM_cons, writeFile_eq, writeChunk, List.mapM_cons]
      cases encoded : encodeInBlocks opts host dict file.content with
      | none => rfl
      | some first =>
          have rest := ih (placeFile written file first)
          rw [writeChunk] at rest
          simp only [Option.map_some, Option.bind_eq_bind, Option.bind_some, ← rest]
          cases chunk.mapM fun file => encodeInBlocks opts host dict file.content <;> rfl

/-- No run is empty or, unless it is one file, above the budget; and however the files are split into
runs, they are written one after another in order. -/
theorem chunks_written (budget : Nat) (files : List CollectedFile) (written : Written) :
    (∀ run ∈ sizeBoundedChunks budget files, Bounded budget run) ∧
      (sizeBoundedChunks budget files).foldlM (writeChunk opts host dict) written =
        files.foldlM (writeFile opts host dict) written := by
  refine ⟨sizeBoundedChunksFrom_bounded (Or.inl rfl) files, ?_⟩
  have whole := sizeBoundedChunksFrom_flatten budget [] 0 files
  rw [List.nil_append] at whole
  have chunked (chunks : List (List CollectedFile)) (written : Written) :
      chunks.foldlM (writeChunk opts host dict) written =
        chunks.flatten.foldlM (writeFile opts host dict) written := by
    induction chunks generalizing written with
    | nil => rfl
    | cons chunk chunks ih =>
        rw [List.foldlM_cons, List.flatten_cons, List.foldlM_append, writeChunk_eq]
        simp only [ih]
  rw [sizeBoundedChunks, chunked, whole]

/-! ### Blocks end to end -/

/-- The bytes of the payload a block names. -/
def span (block : Block) : Nat × Nat := (block.payloadOffset, block.compressedSize)

theorem runsOf_ne_nil {size : Nat} (positive : 0 < size) {fuel : Nat} {bytes run : Bytes}
    (member : run ∈ runsOf size fuel bytes) : run ≠ [] := by
  induction fuel generalizing bytes with
  | zero => cases member
  | succ fuel ih =>
      rw [runsOf] at member
      split at member
      · cases member
      · next some =>
          rcases List.mem_cons.mp member with first | later
          · rw [first]
            intro empty
            rw [List.take_eq_nil_iff] at empty
            rcases empty with none | none
            · omega
            · exact some (List.isEmpty_iff.mpr none)
          · exact ih later

/-- What is relied on of the compressor: a frame is not empty. -/
def Framed (host : Host) : Prop :=
  ∀ dict run frame, host.compress dict run = some frame → frame ≠ []

theorem encodeInBlocks_data (framed : Framed host) {content : Bytes} {encoded : EncodedFile}
    (ran : encodeInBlocks opts host dict content = some encoded) :
    ∀ block ∈ encoded.blocks, block.data ≠ [] := by
  rw [encodeInBlocks] at ran
  split at ran
  · cases ran
  · next sized =>
      have positive : 0 < opts.blockSize := by omega
      simp only [Option.bind_eq_bind, Option.bind_eq_some_iff, Option.some.injEq] at ran
      obtain ⟨blocks, made, built⟩ := ran
      intro block member
      rw [← built] at member
      obtain ⟨run, inside, encodes⟩ := forall₂_mem (Option.mapM_eq_some.mp made).flip member
      have data := (encodeBlock_eq_some.mp encodes).1
      rw [encodedAs] at data
      split at data
      · rw [← Option.some.inj data]
        exact runsOf_ne_nil positive inside
      · exact framed _ _ _ data

theorem layBlocks_tiles (lead : Bytes) {blocks : List CompressedBlock}
    (data : ∀ block ∈ blocks, block.data ≠ [])
    (small : (lead ++ blocks.flatMap CompressedBlock.data).length < 2 ^ 64) :
    Tiles lead.length ((layBlocks lead.length blocks).1.map span)
      (lead ++ blocks.flatMap CompressedBlock.data).length := by
  induction blocks generalizing lead with
  | nil =>
      rw [List.flatMap_nil, List.append_nil]
      rfl
  | cons first blocks ih =>
      rw [List.forall_mem_cons] at data
      have whole : lead ++ (first :: blocks).flatMap CompressedBlock.data =
          lead ++ first.data ++ blocks.flatMap CompressedBlock.data := by
        rw [List.flatMap_cons, List.append_assoc]
      rw [whole] at small ⊢
      have bound := small
      rw [List.length_append, List.length_append] at bound
      have size : asU64 first.data.length = first.data.length := Nat.mod_eq_of_lt (by omega)
      have here : asU64 (lead.length + first.data.length) = (lead ++ first.data).length := by
        rw [List.length_append]
        exact Nat.mod_eq_of_lt (by omega)
      have rest := ih (lead ++ first.data) data.2 small
      rw [layBlocks, here, List.map_cons, span, size]
      refine ⟨rfl, List.length_pos_iff.mpr data.1, ?_⟩
      rwa [← List.length_append]

/-- What a payload being written keeps of its blocks: those of its files are laid end to end, and a
content that was seen has the blocks of the file it was seen in. -/
structure Written.Tiled (written : Written) : Prop where
  laid : ∃ laid : List Block, Tiles 0 (laid.map span) written.payloadOffset ∧
    ∀ block, block ∈ laid ↔ ∃ built ∈ written.files, block ∈ built.blocks
  seen : ∀ built ∈ written.files, written.seen.get? built.contentHash = some built.blocks
  shared : ∀ hash blocks, written.seen.get? hash = some blocks →
    ∃ built ∈ written.files, built.blocks = blocks

end


section
variable {opts : PackOptions} {host : Host} {dict : Option Bytes}

theorem Written.tiled_nil : Written.Tiled ⟨[], 0, SortedMap.empty, []⟩ where
  laid := ⟨[], rfl, fun block => by simp⟩
  seen := by simp
  shared hash blocks held := by
    rw [SortedMap.get?_empty] at held
    cases held

theorem placeFile_payload (written : Written) (file : CollectedFile) (encoded : EncodedFile) :
    ∃ more, (placeFile written file encoded).payload = written.payload ++ more := by
  rw [placeFile]
  split
  · exact ⟨[], (List.append_nil _).symm⟩
  · exact ⟨_, rfl⟩

theorem placeFile_tiled {written : Written} (tiled : written.Tiled) {file : CollectedFile}
    {encoded : EncodedFile} (data : ∀ block ∈ encoded.blocks, block.data ≠ [])
    (offset : written.payloadOffset = written.payload.length)
    (small : (placeFile written file encoded).payload.length < 2 ^ 64) :
    (placeFile written file encoded).Tiled := by
  obtain ⟨laid, tiles, named⟩ := tiled.laid
  rw [placeFile] at small ⊢
  cases found : written.seen.get? encoded.contentHash with
  | some shared =>
      obtain ⟨earlier, member, same⟩ := tiled.shared _ _ found
      refine ⟨⟨laid, tiles, ?_⟩, ?_, ?_⟩
      · intro block
        rw [named]
        simp only [List.mem_append, List.mem_singleton]
        constructor
        · rintro ⟨built, inside, held⟩
          exact ⟨built, .inl inside, held⟩
        · rintro ⟨built, inside | last, held⟩
          · exact ⟨built, inside, held⟩
          · rw [last] at held
            exact ⟨earlier, member, same ▸ held⟩
      · simp only [List.mem_append, List.mem_singleton]
        rintro built (inside | last)
        · exact tiled.seen built inside
        · rw [last]
          exact found
      · intro hash blocks held
        obtain ⟨built, inside, same⟩ := tiled.shared hash blocks held
        exact ⟨built, List.mem_append_left _ inside, same⟩
  | none =>
      rw [found] at small
      have more := layBlocks_tiles written.payload data small
      have places := (layBlocks_places written.payload encoded.blocks small).1
      rw [← offset] at more places
      rw [← places] at more
      refine ⟨⟨laid ++ (layBlocks written.payloadOffset encoded.blocks).1, ?_, ?_⟩, ?_, ?_⟩
      · rw [List.map_append]
        exact tiles.append more
      · intro block
        simp only [List.mem_append, List.mem_singleton, named]
        constructor
        · rintro (⟨built, inside, held⟩ | own)
          · exact ⟨built, .inl inside, held⟩
          · exact ⟨_, .inr rfl, own⟩
        · rintro ⟨built, inside | last, held⟩
          · exact .inl ⟨built, inside, held⟩
          · rw [last] at held
            exact .inr held
      · simp only [List.mem_append, List.mem_singleton]
        rintro built (inside | last)
        · have before := tiled.seen built inside
          rw [SortedMap.get?_insert, if_neg]
          · exact before
          · intro same
            rw [← same, found] at before
            cases before
        · rw [last, SortedMap.get?_insert, if_pos rfl]
      · intro hash blocks held
        rw [SortedMap.get?_insert] at held
        split at held
        · cases held
          exact ⟨_, List.mem_append_right _ (List.mem_singleton_self _), rfl⟩
        · obtain ⟨built, inside, same⟩ := tiled.shared hash blocks held
          exact ⟨built, List.mem_append_left _ inside, same⟩

theorem blocksPayload_tiled (framed : Framed host) {files : List CollectedFile}
    {payloaded : Payloaded} (ran : blocksPayload opts host dict files = some payloaded)
    (small : payloaded.payload.length < 2 ^ 64) :
    (∃ laid : List Block, Tiles 0 (laid.map span) payloaded.payload.length ∧
      ∀ block, block ∈ laid ↔ ∃ built ∈ payloaded.files, block ∈ built.blocks) ∧
    ∀ first ∈ payloaded.files, ∀ second ∈ payloaded.files,
      first.contentHash = second.contentHash → first.blocks = second.blocks := by
  have size := (blocksPayload_holds ran small).1
  rw [blocksPayload, Option.bind_eq_bind, Option.bind_eq_some_iff] at ran
  obtain ⟨written, ran, built⟩ := ran
  cases built
  have kept : ∀ (past : List CollectedFile) (before : Written) (file : CollectedFile) (next : Written),
      (before.payload.length < 2 ^ 64 → before.Tiled ∧ before.Holds opts host dict past) →
      writeFile opts host dict before file = some next → next.payload.length < 2 ^ 64 →
      next.Tiled ∧ next.Holds opts host dict (past ++ [file]) := by
    intro past before file next held wrote small
    have holds := writeFile_holds past before file next (fun short => (held short).2) wrote small
    rw [writeFile_eq, Option.map_eq_some_iff] at wrote
    obtain ⟨encoded, encodes, same⟩ := wrote
    rw [← same] at small holds ⊢
    obtain ⟨more, grown⟩ := placeFile_payload before file encoded
    have short : before.payload.length < 2 ^ 64 := by
      rw [grown, List.length_append] at small
      omega
    exact ⟨placeFile_tiled (held short).1 (encodeInBlocks_data framed encodes) (held short).2.offset
      small, holds⟩
  have begins : (⟨[], 0, SortedMap.empty, []⟩ : Written).Holds opts host dict [] := by
    refine ⟨rfl, fun hash blocks seen => ?_, List.Forall₂.nil⟩
    rw [SortedMap.get?_empty] at seen
    cases seen
  have tiled : written.payload.length < 2 ^ 64 →
      written.Tiled ∧ written.Holds opts host dict ([] ++ files) :=
    @Option.foldlM_keeps _ _ (fun past written => written.payload.length < 2 ^ 64 →
      written.Tiled ∧ written.Holds opts host dict past) _ kept [] files _ _
      (fun _ => ⟨Written.tiled_nil, begins⟩) ran
  have last := (tiled small).1
  obtain ⟨laid, tiles, named⟩ := last.laid
  refine ⟨⟨laid, ?_, named⟩, ?_⟩
  · rw [← size]
    exact tiles
  · intro first inside second also same
    have blocks := last.seen first inside
    rw [same, last.seen second also] at blocks
    exact (Option.some.inj blocks).symm

/-! ### The manifest's blocks -/

/-- What an entry has of its item's content. -/
structure Carries (item : Item) (entry : Entry) : Prop where
  kind : entry.kind = item.kind
  blocks : entry.blocks = item.blocks
  contentHash : entry.contentHash = item.contentHash

theorem addEntry_carries {table next : Table} {item : Item} (ran : addEntry table item = some next) :
    ∃ entry, next.entries = table.entries ++ [entry] ∧ Carries item entry := by
  simp only [addEntry, Option.bind_eq_bind, Option.bind_eq_some_iff, Option.some.injEq] at ran
  obtain ⟨name, -, target, -, built⟩ := ran
  rw [← built]
  exact ⟨_, rfl, rfl, rfl, rfl⟩

theorem addEntries_carry {items : List Item} {table last : Table}
    (ran : items.foldlM addEntry table = some last) :
    ∃ entries, last.entries = table.entries ++ entries ∧ List.Forall₂ Carries items entries := by
  induction items generalizing table with
  | nil =>
      cases ran
      exact ⟨[], (List.append_nil _).symm, .nil⟩
  | cons item items ih =>
      rw [List.foldlM_cons, Option.bind_eq_bind, Option.bind_eq_some_iff] at ran
      obtain ⟨next, now, later⟩ := ran
      obtain ⟨entry, grown, carries⟩ := addEntry_carries now
      obtain ⟨entries, whole, rest⟩ := ih later
      exact ⟨entry :: entries, by rw [whole, grown]; simp, .cons carries rest⟩

/-- The manifest has the root's entry and one for each item, with its blocks and its hash. -/
theorem manifestOf_carries {libDirs : List Text} {collected : Collected}
    {files : List CompressedFile} {manifest : Manifest}
    (ran : manifestOf opts host libDirs collected files = some manifest) :
    ∃ name entries, manifest.entries = rootEntry name :: entries ∧
      List.Forall₂ Carries (itemsOf collected files) entries := by
  simp only [manifestOf, startTable, Option.bind_eq_bind, Option.bind_eq_some_iff,
    Option.some.injEq] at ran
  obtain ⟨started, begun, table, filled, flags, -, entrypoints, -, built⟩ := ran
  split at begun
  · cases begun
    obtain ⟨entries, whole, carries⟩ := addEntries_carry filled
    rw [← built]
    exact ⟨_, entries, whole, carries⟩
  · cases begun

def fileEntries (manifest : Manifest) : List Entry :=
  manifest.entries.filter fun entry => entry.kind = .file

theorem forall₂_filter_kind {items : List Item} {entries : List Entry}
    (carries : List.Forall₂ Carries items entries) :
    List.Forall₂ Carries (items.filter fun item => item.kind = .file)
      (entries.filter fun entry => entry.kind = .file) := by
  induction carries with
  | nil => exact .nil
  | cons here later ih =>
      rw [List.filter_cons, List.filter_cons, here.kind]
      split
      · exact .cons here ih
      · exact ih

theorem fileEntries_carry {libDirs : List Text} {collected : Collected}
    {files : List CompressedFile} {manifest : Manifest}
    (ran : manifestOf opts host libDirs collected files = some manifest) :
    List.Forall₂ (fun (file : CompressedFile) (entry : Entry) =>
      entry.blocks = file.blocks ∧ entry.contentHash = file.contentHash) files
        (fileEntries manifest) := by
  obtain ⟨name, entries, whole, carries⟩ := manifestOf_carries ran
  have own : (itemsOf collected files).filter (fun item => item.kind = .file) = files.map fileItem := by
    have dirs : ((sortedDirs collected.dirs).map dirItem).filter (fun item => item.kind = .file) = [] := by
      simp [dirItem]
    have links : (collected.symlinks.map symlinkItem).filter (fun item => item.kind = .file) = [] := by
      simp [symlinkItem]
    have kept : (files.map fileItem).filter (fun item => item.kind = .file) = files.map fileItem := by
      simp [fileItem]
    rw [itemsOf, List.filter_append, List.filter_append, dirs, links, kept]
    simp
  have filtered := forall₂_filter_kind carries
  rw [own, List.forall₂_map_left_iff] at filtered
  rw [fileEntries, whole, List.filter_cons_of_neg (by simp [rootEntry])]
  exact filtered.imp fun file entry carried => ⟨carried.blocks, carried.contentHash⟩

theorem mem_entries_blocks {libDirs : List Text} {collected : Collected}
    {files : List CompressedFile} {manifest : Manifest}
    (ran : manifestOf opts host libDirs collected files = some manifest) (block : Block) :
    (∃ entry ∈ manifest.entries, block ∈ entry.blocks) ↔ ∃ file ∈ files, block ∈ file.blocks := by
  obtain ⟨name, entries, whole, carries⟩ := manifestOf_carries ran
  constructor
  · rintro ⟨entry, inside, held⟩
    rw [whole] at inside
    rcases List.mem_cons.mp inside with root | later
    · rw [root] at held
      cases held
    · obtain ⟨item, member, carried⟩ := forall₂_mem carries.flip later
      rw [carried.blocks] at held
      simp only [itemsOf, List.mem_append, List.mem_map] at member
      rcases member with (⟨dir, -, same⟩ | ⟨file, member, same⟩) | ⟨link, -, same⟩
      · rw [← same] at held
        cases held
      · rw [← same] at held
        exact ⟨file, member, held⟩
      · rw [← same] at held
        cases held
  · rintro ⟨file, member, held⟩
    obtain ⟨entry, inside, carried⟩ := forall₂_mem (fileEntries_carry ran) member
    refine ⟨entry, List.mem_of_mem_filter inside, ?_⟩
    rw [carried.1]
    exact held

end


/-! ### Decoding -/

/-- The bytes of a block out of the payload, decompressed unless they are stored raw. -/
def decodeBlock (opts : PackOptions) (unframe : Option Bytes → Bytes → Nat → Option Bytes)
    (dict : Option Bytes) (payload : Bytes) (block : Block) : Option Bytes :=
  let data := slice payload block.payloadOffset block.compressedSize
  if opts.noCompress then some data else unframe dict data block.originalSize

/-- What is relied on of the decompressor and the compressor. -/
structure Unframes (host : Host) (unframe : Option Bytes → Bytes → Nat → Option Bytes) : Prop where
  decodes : ∀ dict run frame, host.compress dict run = some frame →
    unframe dict frame run.length = some run
  framed : Framed host

/-- The entry's blocks decode to the content, each to a run of the size and the hash it names. -/
structure DecodesTo (opts : PackOptions) (host : Host)
    (unframe : Option Bytes → Bytes → Nat → Option Bytes) (dict : Option Bytes) (payload : Bytes)
    (content : Bytes) (entry : Entry) : Prop where
  contentHash : entry.contentHash = host.blake3 content
  runs : ∃ runs, entry.blocks.mapM (decodeBlock opts unframe dict payload) = some runs ∧
    runs.flatten = content ∧ List.Forall₂ (fun (block : Block) run =>
      run.length = block.originalSize ∧ host.blake3 run = block.contentHash) entry.blocks runs

section
variable {opts : PackOptions} {host : Host} {tree : Tree} {dict : Option Bytes}
  {unframe : Option Bytes → Bytes → Nat → Option Bytes}

theorem decodeBlock_of_holds (unframes : Unframes host unframe) {payload : Bytes} {block : Block}
    {run : Bytes} (holds : HoldsRun opts host dict payload block run) :
    decodeBlock opts unframe dict payload block = some run ∧ run.length = block.originalSize ∧
      host.blake3 run = block.contentHash := by
  obtain ⟨data, size, hash⟩ := encodeBlock_eq_some.mp holds.encoded
  refine ⟨?_, size.symm, hash.symm⟩
  rw [encodedAs] at data
  rw [decodeBlock]
  split at data
  · next raw => rw [if_pos raw, data]
  · next framed =>
      have whole := unframes.decodes _ _ _ data
      have length : block.originalSize = run.length := size
      rw [if_neg framed, length]
      exact whole

theorem decodes_of_holds (unframes : Unframes host unframe) {payload content : Bytes}
    {entry : Entry} (hashed : entry.contentHash = host.blake3 content)
    (holds : HoldsContent opts host dict payload entry.blocks content) :
    DecodesTo opts host unframe dict payload content entry := by
  obtain ⟨runs, whole, held⟩ := holds
  refine ⟨hashed, runs, Option.mapM_eq_some.mpr ?_, whole, ?_⟩
  · exact held.imp fun block run holds => (decodeBlock_of_holds unframes holds).1
  · exact held.imp fun block run holds => (decodeBlock_of_holds unframes holds).2

theorem forall₂_both {α β : Type} {first second : α → β → Prop} {left : List α} {right : List β}
    (one : List.Forall₂ first left right) (other : List.Forall₂ second left right) :
    List.Forall₂ (fun x y => first x y ∧ second x y ∧ x ∈ left ∧ y ∈ right) left right := by
  rw [List.forall₂_iff_get] at one other ⊢
  exact ⟨one.1, fun index inside also => ⟨one.2 index inside also, other.2 index inside also,
    List.get_mem left ⟨index, inside⟩, List.get_mem right ⟨index, also⟩⟩⟩

/-- A pack's blocks lie end to end in its payload, in strictly rising order and with none left out,
each file's decode to the file, and files of one content have the same blocks. -/
theorem pack_tiled (packs : opts.payload = .blocks) (unframes : Unframes host unframe)
    (apart : Set.InjOn host.blake3
      {content | ∃ file ∈ (shipped opts host tree).files, file.content = content})
    {packed : Packed} (ran : pack opts host tree = some packed)
    (counted : packed.output.length < 2 ^ 64) :
    ∃ (lead payload dict : Bytes) (footer : Footer),
      packed.output = lead ++ payload ++ dict ++ footerBytes footer ∧
      footer.payloadSize = payload.length ∧
      (∃ laid : List Block, Tiles 0 (laid.map span) footer.payloadSize ∧
        ∀ block, block ∈ laid ↔ ∃ entry ∈ packed.manifest.entries, block ∈ entry.blocks) ∧
      List.Forall₂ (fun (file : CollectedFile) entry =>
        DecodesTo opts host unframe (dictionary opts host (shipped opts host tree).files) payload
          file.content entry) (shipped opts host tree).files (fileEntries packed.manifest) ∧
      ∀ first ∈ (shipped opts host tree).files.zip (fileEntries packed.manifest),
        ∀ second ∈ (shipped opts host tree).files.zip (fileEntries packed.manifest),
          first.1.content = second.1.content → first.2.blocks = second.2.blocks := by
  obtain ⟨payloaded, compressed, footer, file⟩ := pack_file ran
  have wrote := file.origin.payload
  rw [writePayload, packs] at wrote
  have shorter : payloaded.payload.length < 2 ^ 64 := by
    rw [file.output] at counted
    simp only [List.length_append] at counted
    omega
  obtain ⟨size, holds⟩ := blocksPayload_holds wrote shorter
  obtain ⟨⟨laid, tiles, named⟩, shares⟩ := blocksPayload_tiled unframes.framed wrote shorter
  have stands := blocksPayload_stands wrote
  have carries := fileEntries_carry file.origin.manifest
  have footerSize : footer.payloadSize = payloaded.payload.length := by
    obtain ⟨checksum, finished, -⟩ := file.finished
    rw [finished, ← size]
    rfl
  refine ⟨patchRuntime host.runtime ++ compressed, payloaded.payload, _, footer, file.output,
    footerSize, ⟨laid, footerSize ▸ tiles, ?_⟩, ?_, ?_⟩
  · intro block
    rw [named, mem_entries_blocks file.origin.manifest]
  · refine forall₂_trans ?_ (forall₂_both holds stands) carries
    intro shippedFile built entry facts carried
    obtain ⟨⟨other, among, hash, content⟩, stood, member, -⟩ := facts
    have same : other.content = shippedFile.content :=
      apart ⟨other, among, rfl⟩ ⟨shippedFile, member, rfl⟩ hash
    rw [same, ← carried.1] at content
    exact decodes_of_holds unframes (carried.2.trans stood.contentHash) content
  · have paired : List.Forall₂ (fun (shippedFile : CollectedFile) (entry : Entry) =>
        ∃ built ∈ payloaded.files, built.contentHash = host.blake3 shippedFile.content ∧
          entry.blocks = built.blocks) (shipped opts host tree).files
          (fileEntries packed.manifest) := by
      refine forall₂_trans ?_ (forall₂_both stands stands) carries
      intro shippedFile built entry facts carried
      exact ⟨built, facts.2.2.2, facts.1.contentHash, carried.1⟩
    rintro ⟨firstFile, firstEntry⟩ first ⟨secondFile, secondEntry⟩ second same
    obtain ⟨built, inside, hash, blocks⟩ := List.forall₂_zip paired first
    obtain ⟨built', inside', hash', blocks'⟩ := List.forall₂_zip paired second
    have contents : firstFile.content = secondFile.content := same
    dsimp only
    rw [blocks, blocks']
    apply shares built inside built' inside'
    rw [hash, hash', contents]

end

theorem pack_tiled_plain : ∃ (lead payload dict : Bytes) (footer : Footer),
    ((pack plainOptions appHost plainTree).get plainTree_packed).output =
      lead ++ payload ++ dict ++ footerBytes footer ∧ footer.payloadSize = payload.length := by
  have apart : ∀ first ∈ (shipped plainOptions appHost plainTree).files,
      ∀ second ∈ (shipped plainOptions appHost plainTree).files,
        appHost.blake3 first.content = appHost.blake3 second.content →
          first.content = second.content := by
    decide +kernel
  have counted : (pack plainOptions appHost plainTree).all
      (fun packed => decide (packed.output.length < 2 ^ 64)) = true := by decide +kernel
  have ran := (Option.some_get plainTree_packed).symm
  rw [ran, Option.all_some, decide_eq_true_eq] at counted
  have unframes : Unframes appHost fun _ _ _ => none :=
    ⟨fun _ _ _ framed => (by cases framed), fun _ _ _ framed => (by cases framed)⟩
  obtain ⟨lead, payload, dict, footer, file, size, -⟩ := pack_tiled rfl unframes (by
    rintro _ ⟨first, inside, rfl⟩ _ ⟨second, also, rfl⟩ same
    exact apart first inside second also same) ran counted
  exact ⟨lead, payload, dict, footer, file, size⟩

/-! ### A stipplefs image -/

def stippleOptions : PackOptions := { plainOptions with payload := .stipple }

/-- Each file in the image under its own inode, read back in one slice. -/
def stippleHost : Host :=
  { appHost with
    stippleImage := fun files => some (files.flatMap Prod.snd, fun path =>
      (UInt32.ofNat (files.findIdx fun file => file.1 = path),
        ((files.find? fun file => file.1 = path).map Prod.snd).toList)) }

/-- Every file's blocks count from its own start. -/
theorem stipple_untiled : ∃ packed, pack stippleOptions stippleHost plainTree = some packed ∧
    ¬∃ (laid : List Block) (stop : Nat), Tiles 0 (laid.map span) stop ∧
      ∀ block, block ∈ laid ↔ ∃ entry ∈ packed.manifest.entries, block ∈ entry.blocks := by
  have packs : (pack stippleOptions stippleHost plainTree).isSome = true := by decide +kernel
  have alike : (pack stippleOptions stippleHost plainTree).all (fun packed => decide
      (∃ one ∈ packed.manifest.entries, ∃ first ∈ one.blocks, ∃ other ∈ packed.manifest.entries,
        ∃ second ∈ other.blocks, first ≠ second ∧
          first.payloadOffset = second.payloadOffset)) = true := by decide +kernel
  obtain ⟨packed, ran⟩ := Option.isSome_iff_exists.mp packs
  rw [ran, Option.all_some, decide_eq_true_eq] at alike
  obtain ⟨one, among, first, held, other, also, second, owned, distinct, same⟩ := alike
  refine ⟨packed, ran, ?_⟩
  rintro ⟨laid, stop, tiles, named⟩
  have sorted := List.pairwise_map.mp tiles.sorted
  have apart : laid.Pairwise fun left right => left.payloadOffset ≠ right.payloadOffset :=
    sorted.imp fun below => Nat.ne_of_lt below.2
  have symmetric : Std.Symm fun left right : Block => left.payloadOffset ≠ right.payloadOffset :=
    ⟨fun _ _ different => different.symm⟩
  exact apart.forall ((named first).mpr ⟨one, among, held⟩)
    ((named second).mpr ⟨other, also, owned⟩) distinct same


end Onelf.Cli.Pack
