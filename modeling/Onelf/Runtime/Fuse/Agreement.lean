import Onelf.Runtime.Fuse.Reads

/-! When a read through the mount agrees with the content of the file. -/

namespace Onelf.Runtime.Fuse

open Onelf.Lib

variable {crates : Crates} {pkg : PackageData}

/-- What an entry's blocks hold: the bytes that verify and, where a block has none, any bytes of the
size it claims. -/
def Contents (crates : Crates) (pkg : PackageData) (blocks : List Block) (content : List Bytes) :
    Prop :=
  List.Forall₂ (fun block bytes =>
    match readPayloadEntry crates pkg block with
    | some data => bytes = data
    | none => bytes.length = block.originalSize) blocks content

/-- The reply is an error, or the window of the content asked for, the whole of which has the size
the mount reports. -/
def Reply.Agrees (crates : Crates) (pkg : PackageData) (entry : Entry) (offset size : Nat) :
    Reply → Prop
  | .error _ => True
  | .data _ slices => ∀ content, Contents crates pkg entry.blocks content →
      (∀ target, content.flatten.length = attrSize entry target) ∧
        slices.flatten = slice content.flatten offset size
  | .aborted => False

/-- Every block of the entry that verifies decodes to the size it claims. -/
def Truthful (crates : Crates) (pkg : PackageData) (entry : Entry) : Prop :=
  ∀ block ∈ entry.blocks, ∀ data, readPayloadEntry crates pkg block = some data →
    data.length = block.originalSize

/-- Every block of the entry that verifies is stored in as many bytes as it claims, where the
payload is stored. -/
def StoredTruthfully (crates : Crates) (pkg : PackageData) (entry : Entry) : Prop :=
  ∀ dict, pkg.codec = .zstd dict → pkg.footer.flags.stored = true →
    ∀ block ∈ entry.blocks, (readPayloadEntry crates pkg block).isSome →
      block.compressedSize = block.originalSize

theorem truthful_iff (entry : Entry) :
    Truthful crates pkg entry ↔ StoredTruthfully crates pkg entry := by
  constructor
  · intro truthful dict codec stored block inside verifies
    rcases Option.isSome_iff_exists.mp verifies with ⟨data, verified⟩
    have read := (readPayloadEntry_eq_some.mp verified).1
    rw [← readBlock_stored_length codec stored read]
    exact truthful block inside data verified
  · intro truthful block inside data verified
    have read := (readPayloadEntry_eq_some.mp verified).1
    cases codec : pkg.codec with
    | stipple reader => exact readBlock_length (Or.inl ⟨reader, codec⟩) read
    | zstd dict =>
        cases stored : pkg.footer.flags.stored with
        | false => exact readBlock_length (Or.inr stored) read
        | true =>
            rw [readBlock_stored_length codec stored read]
            exact truthful dict codec stored block inside (by rw [verified]; rfl)

/-! ### Contents -/

theorem contents_cons {block : Block} {blocks : List Block} {bytes : Bytes}
    {content : List Bytes} : Contents crates pkg (block :: blocks) (bytes :: content) ↔
      (match readPayloadEntry crates pkg block with
        | some data => bytes = data
        | none => bytes.length = block.originalSize) ∧ Contents crates pkg blocks content :=
  List.forall₂_cons

/-- Zeros where a block does not verify. -/
def fillContents (crates : Crates) (pkg : PackageData) (block : Block) : Bytes :=
  (readPayloadEntry crates pkg block).getD (List.replicate block.originalSize 0)

theorem contents_fill (blocks : List Block) :
    Contents crates pkg blocks (blocks.map (fillContents crates pkg)) := by
  induction blocks with
  | nil => exact List.Forall₂.nil
  | cons block blocks ih =>
      rw [List.map_cons]
      refine contents_cons.mpr ⟨?_, ih⟩
      rw [fillContents]
      cases readPayloadEntry crates pkg block with
      | none => exact List.length_replicate
      | some data => rfl

theorem Contents.length_flatten {blocks : List Block} {content : List Bytes}
    (held : Contents crates pkg blocks content)
    (truthful : ∀ block ∈ blocks, ∀ data, readPayloadEntry crates pkg block = some data →
      data.length = block.originalSize) :
    content.flatten.length = claimedSize blocks := by
  induction held with
  | nil => rfl
  | @cons block bytes blocks content here rest ih =>
      have sized : bytes.length = block.originalSize := by
        cases verified : readPayloadEntry crates pkg block with
        | none => rwa [verified] at here
        | some data =>
            rw [verified] at here
            rw [here]
            exact truthful block List.mem_cons_self data verified
      rw [List.flatten_cons, List.length_append, sized, claimedSize_cons,
        ih fun other inside => truthful other (List.mem_cons_of_mem block inside)]

theorem Contents.getElem? {blocks : List Block} {content : List Bytes}
    (held : Contents crates pkg blocks content) {index : Nat} {block : Block} {bytes : Bytes}
    (one : blocks[index]? = some block) (other : content[index]? = some bytes) :
    match readPayloadEntry crates pkg block with
    | some data => bytes = data
    | none => bytes.length = block.originalSize := by
  induction held generalizing index with
  | nil => cases one
  | cons here rest ih =>
      cases index with
      | zero =>
          rw [List.getElem?_cons_zero] at one other
          rw [← Option.some.inj one, ← Option.some.inj other]
          exact here
      | succ index =>
          rw [List.getElem?_cons_succ] at one other
          exact ih one other

/-- Where the window of a content starts inside it, what it holds is the slice asked for. -/
theorem overlap_zero_eq_slice {content : Bytes} {offset size : Nat} :
    overlap offset (min (offset + size) content.length) 0 content = slice content offset size := by
  have taken : content.take (min (offset + size) content.length) =
      content.take (offset + size) := by
    rw [List.take_eq_take_iff]
    omega
  rw [overlap, Nat.sub_zero, Nat.sub_zero, taken, List.drop_take, Nat.add_sub_cancel_left, slice]

/-- The bytes of a content that stand where a span does. -/
def contentAt (content : List Bytes) (span : Span) : Bytes := content.getD span.index []

theorem Contents.contentAt {blocks : List Block} {content : List Bytes}
    (held : Contents crates pkg blocks content) {span : Span} (inside : span ∈ spansFrom 0 0 blocks) :
    match readPayloadEntry crates pkg span.block with
    | some data => contentAt content span = data
    | none => (contentAt content span).length = span.block.originalSize := by
  have listed := (mem_spansFrom inside).2
  rw [Nat.sub_zero] at listed
  have counted : content.length = blocks.length := (List.Forall₂.length_eq held).symm
  have below : span.index < content.length := by
    rw [counted]
    exact (List.getElem?_eq_some_iff.mp listed).1
  have bytes : content[span.index]? = some (Fuse.contentAt content span) := by
    rw [Fuse.contentAt, List.getD_eq_getElem?_getD, List.getElem?_eq_getElem below]
    rfl
  exact held.getElem? listed bytes

/-- The window of a content, out of the blocks it needs. -/
theorem flatten_needed {blocks : List Block} {content : List Bytes} {offset size : Nat}
    (held : Contents crates pkg blocks content)
    (truthful : ∀ block ∈ blocks, ∀ data, readPayloadEntry crates pkg block = some data →
      data.length = block.originalSize)
    (fits : claimedSize blocks < u64Limit) :
    ((neededBlocks blocks offset (min (offset + size) (claimedSize blocks))).map fun span =>
      overlap offset (min (offset + size) (claimedSize blocks)) span.start
        (contentAt content span)).flatten = slice content.flatten offset size := by
  have whole := held.length_flatten truthful
  have counted : content.length = blocks.length := (List.Forall₂.length_eq held).symm
  have sized : ∀ span ∈ spansFrom 0 0 blocks,
      (contentAt content span).length = span.block.originalSize := by
    intro span inside
    have here := held.contentAt inside
    have listed := List.mem_of_getElem? (mem_spansFrom inside).2
    cases verified : readPayloadEntry crates pkg span.block with
    | none => rwa [verified] at here
    | some data =>
        rw [verified] at here
        rw [here]
        exact truthful span.block listed data verified
  have skipped : ∀ span ∈ spansFrom 0 0 blocks,
      span.overlaps offset (min (offset + size) (claimedSize blocks)) = false →
      overlap offset (min (offset + size) (claimedSize blocks)) span.start
        (contentAt content span) = [] := by
    intro span inside apart
    have within := (span_inside (by omega) inside).2
    have unmet : ¬(offset < span.start + span.block.originalSize ∧
        span.start < min (offset + size) (claimedSize blocks)) := by
      intro crosses
      rw [(overlaps_iff (by omega)).mpr crosses] at apart
      cases apart
    rcases Nat.lt_or_ge offset (span.start + span.block.originalSize) with before | behind
    · exact overlap_after (Nat.not_lt.mp fun crosses => unmet ⟨before, crosses⟩)
    · exact overlap_before (by rw [sized span inside]; exact behind)
  have laid : Laid 0 ((spansFrom 0 0 blocks).map fun span =>
      (span.start, contentAt content span)) := laid_spansFrom (by omega) sized
  have placed : ((spansFrom 0 0 blocks).map fun span => (span.start, contentAt content span)).map
      Prod.snd = content := by
    rw [List.map_map]
    exact map_spansFrom 0 0 content [] counted rfl
  have window (stop : Nat) : (spansFrom 0 0 blocks).flatMap (fun span =>
      overlap offset stop span.start (contentAt content span)) =
        overlap offset stop 0 content.flatten := by
    have joined : _ = overlap offset stop 0 _ := flatMap_overlap laid
    rw [placed, List.flatMap_map] at joined
    exact joined
  rw [← List.flatMap_def, neededBlocks, flatMap_filter_of_nil skipped, window, ← whole]
  exact overlap_zero_eq_slice

/-! ### The reply to a read -/

/-- What a fresh read gives of the block a span stands for. -/
def freshBlock (crates : Crates) (pkg : PackageData) (span : Span) : Bytes :=
  (readPayloadEntry crates pkg span.block).getD []

/-- In a sound state the reply is an error where a needed block does not verify, and else what the
window holds of the needed blocks, whatever was cached or prefetched before. -/
theorem readNeeded_eq {state : FuseState} (sound : state.Sound crates pkg) (now : Nat)
    (turns : Nat → List Nat) {inode : Nat} {entry : Entry}
    (found : pkg.manifest.entries[inodeToEntry inode]? = some entry) {offset stop : Nat}
    (fits : claimedSize entry.blocks < u64Limit) (below : offset < claimedSize entry.blocks)
    (ordered : offset ≤ stop) (bounded : stop < u64Limit)
    (small : ∀ span ∈ neededBlocks entry.blocks offset stop,
      span.start + (freshBlock crates pkg span).length < u64Limit) :
    (readNeeded crates pkg now turns state inode offset stop
        (neededBlocks entry.blocks offset stop)).2 =
      if (neededBlocks entry.blocks offset stop).all fun span =>
          (readPayloadEntry crates pkg span.block).isSome then
        replyData ((neededBlocks entry.blocks offset stop).map fun span =>
          overlap offset stop span.start (freshBlock crates pkg span))
      else .error .eio := by
  have loaded := loaded_neededBlocks now turns found offset stop sound
  have located : ∀ span ∈ neededBlocks entry.blocks offset stop,
      Located pkg.manifest inode span := located_neededBlocks found
  rw [readNeeded]
  split
  · next reached done =>
      rw [done] at loaded
      have verified : ∀ span ∈ neededBlocks entry.blocks offset stop,
          reached.cache.getBlock inode span.index = some (freshBlock crates pkg span) ∧
            (readPayloadEntry crates pkg span.block).isSome := by
        intro span inside
        rcases Option.isSome_iff_exists.mp (loaded.present rfl span inside) with ⟨data, cached⟩
        have fresh := loaded.sound.cache inode span.index data cached
        rw [verifiedBlock, located span inside, Option.bind_some] at fresh
        rw [freshBlock, fresh]
        exact ⟨cached, rfl⟩
      have every : ((neededBlocks entry.blocks offset stop).all fun span =>
          (readPayloadEntry crates pkg span.block).isSome) = true :=
        List.all_eq_true.mpr fun span inside => (verified span inside).2
      have overlapping : ∀ span ∈ neededBlocks entry.blocks offset stop, span.start < stop := by
        intro span inside
        have within := (span_inside (by omega) (List.mem_filter.mp inside).1).2
        exact ((overlaps_iff (by omega)).mp (List.mem_filter.mp inside).2).2
      rw [if_pos every]
      refine replyBlocks_eq (fun span inside => (verified span inside).1) ordered bounded
        (fun span inside => ⟨overlapping span inside, small span inside⟩) fun span alone => ?_
      have crosses := overlapping span (by rw [alone]; exact List.mem_cons_self)
      rcases Nat.eq_or_lt_of_le ordered with nothing | something
      · omega
      have covered : ∃ span ∈ spansFrom 0 0 entry.blocks,
          span.start ≤ offset ∧ offset < span.start + span.block.originalSize :=
        span_covers 0 0 (by omega) (by omega) (by omega)
      rcases covered with ⟨cover, inside, around⟩
      have within := (span_inside (by omega) inside).2
      have needed : cover ∈ neededBlocks entry.blocks offset stop :=
        List.mem_filter.mpr ⟨inside, (overlaps_iff (by omega)).mpr ⟨around.2, by omega⟩⟩
      rw [alone] at needed
      rw [← List.mem_singleton.mp needed]
      exact around.1
  · next reached failed =>
      rw [failed] at loaded
      rcases loaded.complete rfl with ⟨span, inside, missing⟩
      rw [if_neg]
      intro every
      have verifies := List.all_eq_true.mp every span inside
      rw [missing] at verifies
      cases verifies

/-- A read of a package file goes to its entry. -/
theorem handleRead_eq (now : Nat) (turns : Nat → List Nat) (state : FuseState)
    {readIn : FuseReadIn} {index : Nat} {entry : Entry}
    (opened : readIn.fh = entryToInode index)
    (found : pkg.manifest.entries[index]? = some entry) :
    handleRead crates pkg now turns state (some readIn) =
      readEntry crates pkg now turns state readIn.fh entry readIn.offset.toNat
        readIn.size.toNat := by
  have below := (List.getElem?_eq_some_iff.mp found).1
  have plain : syntheticGet pkg.manifest state.synthetic readIn.fh = none := by
    rw [syntheticGet, if_pos]
    rw [opened, entryToInode]
    omega
  have named : readIn.fh ≠ 0 := by
    rw [opened, entryToInode]
    omega
  have same : inodeToEntry readIn.fh = index := by
    rw [opened, entryToInode, inodeToEntry, Nat.add_sub_cancel]
  rw [handleRead, plain, Option.filter_none]
  simp only [if_neg named, same, found]

theorem attrSize_file {entry : Entry} (file : entry.kind = .file)
    (fits : claimedSize entry.blocks < u64Limit) (target : Bytes) :
    attrSize entry target = claimedSize entry.blocks := by
  rw [attrSize, file]
  exact Nat.mod_eq_of_lt fits

/-- In a sound state a truthful entry is read as its content. -/
theorem readBlocks_agrees {state : FuseState} (sound : state.Sound crates pkg) (now : Nat)
    (turns : Nat → List Nat) {inode : Nat} {entry : Entry}
    (found : pkg.manifest.entries[inodeToEntry inode]? = some entry) (file : entry.kind = .file)
    (truthful : Truthful crates pkg entry) {offset size : Nat}
    (fits : claimedSize entry.blocks + size < u64Limit) :
    (readBlocks crates pkg now turns state inode entry offset size).2.Agrees crates pkg entry
      offset size := by
  have total : totalSize entry.blocks = claimedSize entry.blocks := totalSize_eq (by omega)
  rw [readBlocks, total]
  split
  · next beyond =>
      intro content held
      have whole := held.length_flatten truthful
      refine ⟨fun target => by rw [whole, attrSize_file file (by omega)], ?_⟩
      rw [slice, List.drop_eq_nil_of_le (by omega), List.take_nil]
      rfl
  · next inside =>
      have stop : readStop entry.blocks offset size =
          min (offset + size) (claimedSize entry.blocks) := by
        rw [readStop, total, wrappingAdd_of_lt (by omega)]
      have agree : ∀ span ∈ neededBlocks entry.blocks offset
          (min (offset + size) (claimedSize entry.blocks)),
          (readPayloadEntry crates pkg span.block).isSome →
            (freshBlock crates pkg span).length = span.block.originalSize := by
        intro span needed verifies
        rcases Option.isSome_iff_exists.mp verifies with ⟨data, verified⟩
        have listed := List.mem_of_getElem? (mem_spansFrom (List.mem_filter.mp needed).1).2
        rw [freshBlock, verified]
        exact truthful span.block listed data verified
      have small : ∀ span ∈ neededBlocks entry.blocks offset
          (min (offset + size) (claimedSize entry.blocks)),
          span.start + (freshBlock crates pkg span).length < u64Limit := by
        intro span needed
        have within := (span_inside (by omega) (List.mem_filter.mp needed).1).2
        cases verified : readPayloadEntry crates pkg span.block with
        | none =>
            rw [freshBlock, verified, Option.getD_none, List.length_nil]
            omega
        | some data =>
            rw [agree span needed (by rw [verified]; rfl)]
            omega
      rw [stop, readNeeded_eq sound now turns found (by omega) (by omega) (by omega) (by omega)
        small]
      split
      · next every =>
          intro content held
          have whole := held.length_flatten truthful
          refine ⟨fun target => by rw [whole, attrSize_file file (by omega)], ?_⟩
          rw [← flatten_needed held truthful (by omega)]
          refine congrArg List.flatten (List.map_congr_left fun span needed => ?_)
          have here := held.contentAt (List.mem_filter.mp needed).1
          rcases Option.isSome_iff_exists.mp (List.all_eq_true.mp every span needed) with
            ⟨data, verified⟩
          rw [verified] at here
          rw [freshBlock, verified, here]
          rfl
      · trivial

/-! ### Reads that disagree -/

theorem exists_span {blocks : List Block} {block : Block} (listed : block ∈ blocks)
    (index total : Nat) : ∃ span ∈ spansFrom index total blocks, span.block = block := by
  induction blocks generalizing index total with
  | nil => cases listed
  | cons first blocks ih =>
      rcases List.mem_cons.mp listed with same | later
      · exact ⟨_, List.mem_cons_self, same.symm⟩
      · rcases ih later (index + 1) (saturatingAdd total first.originalSize) with
          ⟨span, inside, same⟩
        exact ⟨span, List.mem_cons_of_mem _ inside, same⟩

/-- Blocks that are nowhere short fill the claimed size, and only just when each is as long as it
claims. -/
theorem long_blocks {blocks : List Block}
    (long : ∀ block ∈ blocks, block.originalSize ≤ (fillContents crates pkg block).length) :
    claimedSize blocks ≤ (blocks.map (fillContents crates pkg)).flatten.length ∧
      ((blocks.map (fillContents crates pkg)).flatten.length = claimedSize blocks →
        ∀ block ∈ blocks, (fillContents crates pkg block).length = block.originalSize) := by
  induction blocks with
  | nil => exact ⟨le_refl _, fun _ block inside => nomatch inside⟩
  | cons block blocks ih =>
      have rest := ih fun other inside => long other (List.mem_cons_of_mem block inside)
      have here := long block List.mem_cons_self
      rw [List.map_cons, List.flatten_cons, List.length_append, claimedSize_cons]
      refine ⟨by omega, fun same other inside => ?_⟩
      rcases List.mem_cons.mp inside with first | later
      · rw [first]
        omega
      · exact rest.2 (by omega) other later

/-- A truthful size with an untruthful block leaves some block short. -/
theorem exists_short {entry : Entry} (untruthful : ¬Truthful crates pkg entry)
    (whole : (entry.blocks.map (fillContents crates pkg)).flatten.length =
      claimedSize entry.blocks) :
    ∃ block ∈ entry.blocks, ∃ data, readPayloadEntry crates pkg block = some data ∧
      data.length < block.originalSize := by
  by_contra none
  have long : ∀ block ∈ entry.blocks,
      block.originalSize ≤ (fillContents crates pkg block).length := by
    intro block inside
    by_contra short
    rw [fillContents] at short
    cases verified : readPayloadEntry crates pkg block with
    | none =>
        rw [verified, Option.getD_none, List.length_replicate] at short
        exact short (le_refl _)
    | some data =>
        rw [verified, Option.getD_some] at short
        exact none ⟨block, inside, data, verified, Nat.lt_of_not_le short⟩
  refine untruthful fun block inside data verified => ?_
  have same := (long_blocks long).2 whole block inside
  rwa [fillContents, verified] at same

/-- The read of the one byte behind a short block comes back empty. -/
theorem read_behind_short {state : FuseState} (sound : state.Sound crates pkg) (now : Nat)
    (turns : Nat → List Nat) {inode : Nat} {entry : Entry}
    (found : pkg.manifest.entries[inodeToEntry inode]? = some entry) {span : Span}
    (inside : span ∈ spansFrom 0 0 entry.blocks) {data : Bytes}
    (verified : readPayloadEntry crates pkg span.block = some data)
    (short : data.length < span.block.originalSize)
    (fits : claimedSize entry.blocks + 1 < u64Limit) :
    ∃ len slices, (readBlocks crates pkg now turns state inode entry (span.start + data.length)
        1).2 = .data len slices ∧ slices.flatten = [] := by
  have total : totalSize entry.blocks = claimedSize entry.blocks := totalSize_eq (by omega)
  have within := (span_inside (by omega) inside).2
  have only : ∀ needed ∈ neededBlocks entry.blocks (span.start + data.length)
      (span.start + data.length + 1), needed = span := by
    intro needed listed
    have member := (List.mem_filter.mp listed).1
    have reach := (span_inside (by omega) member).2
    have crosses := (overlaps_iff (by omega)).mp (List.mem_filter.mp listed).2
    exact span_unique (by omega) member inside ⟨by omega, crosses.1⟩ ⟨by omega, by omega⟩
  have fresh : freshBlock crates pkg span = data := by
    rw [freshBlock, verified, Option.getD_some]
  have stop : readStop entry.blocks (span.start + data.length) 1 =
      span.start + data.length + 1 := by
    rw [readStop, total, wrappingAdd_of_lt (by omega)]
    omega
  have every : ((neededBlocks entry.blocks (span.start + data.length)
      (span.start + data.length + 1)).all fun span =>
        (readPayloadEntry crates pkg span.block).isSome) = true := by
    refine List.all_eq_true.mpr fun needed listed => ?_
    rw [only needed listed, verified]
    rfl
  rw [readBlocks, total, if_neg (by omega), stop,
    readNeeded_eq sound now turns found (by omega) (by omega) (by omega) (by omega)
      (fun needed listed => by rw [only needed listed, fresh]; omega), if_pos every]
  refine ⟨_, _, rfl, List.flatten_eq_nil_iff.mpr fun window listed => ?_⟩
  rcases List.mem_map.mp listed with ⟨needed, member, same⟩
  rw [← same, only needed member, fresh]
  exact overlap_before (le_refl _)

/-- Reads of an entry agree with its content, whatever came before them, exactly where the entry is
refused altogether or each of its stored blocks has the size it claims. -/
theorem reads_agree_iff (crates : Crates) (pkg : PackageData) (index : Nat) (entry : Entry)
    (found : pkg.manifest.entries[index]? = some entry) (file : entry.kind = .file)
    (sized : claimedSize entry.blocks + 2 ^ 32 ≤ u64Limit) :
    (∀ budget named window threads events now turns readIn, readIn.fh = entryToInode index →
      (handleRead crates pkg now turns
        (serve crates pkg (FuseState.new pkg.manifest budget named window threads) events)
        (some readIn)).2.Agrees crates pkg entry readIn.offset.toNat readIn.size.toNat) ↔
      admitted crates pkg entry = false ∨ StoredTruthfully crates pkg entry := by
  have own : inodeToEntry (entryToInode index) = index := Nat.add_sub_cancel index 1
  rw [← truthful_iff]
  constructor
  · intro agree
    by_contra neither
    have served : admitted crates pkg entry = true := by
      rw [← Bool.not_eq_false]
      exact fun refused => neither (Or.inl refused)
    have untruthful : ¬Truthful crates pkg entry := fun truthful => neither (Or.inr truthful)
    -- Already the first read of a fresh server goes wrong, at one of two offsets.
    have fresh : (FuseState.new pkg.manifest 0 [] 0 0).Sound crates pkg :=
      sound_new pkg.manifest rfl 0 [] 0 0
    have listed : pkg.manifest.entries[inodeToEntry (entryToInode index)]? = some entry := by
      rw [own, found]
    have carried : entry.blocks.isEmpty = false := by
      rw [← Bool.not_eq_true, List.isEmpty_iff]
      intro empty
      refine untruthful fun block inside => ?_
      rw [empty] at inside
      cases inside
    have checked := verifyEntry_eq fresh listed
    have reads (offset : UInt64) (size : UInt32) :
        (readBlocks crates pkg 0 (fun _ => []) (verifyEntry crates pkg
          (FuseState.new pkg.manifest 0 [] 0 0) (entryToInode index) entry).1
          (entryToInode index) entry offset.toNat size.toNat).2.Agrees crates pkg entry
            offset.toNat size.toNat := by
      have first := agree 0 [] 0 0 [] 0 (fun _ => []) ⟨entryToInode index, offset, size⟩ rfl
      rw [handleRead_eq 0 (fun _ => []) _ rfl found, readEntry, if_neg (by rw [carried]; simp)] at first
      rw [served] at checked
      split at first
      · next reached passed =>
          have same : (verifyEntry crates pkg (FuseState.new pkg.manifest 0 [] 0 0)
              (entryToInode index) entry).1 = reached := congrArg Prod.fst passed
          rw [same]
          exact first
      · next reached refused =>
          have other := checked.2.symm.trans (congrArg Prod.snd refused)
          cases other
    have filled : Contents crates pkg entry.blocks
        (entry.blocks.map (fillContents crates pkg)) := contents_fill entry.blocks
    have whole : (entry.blocks.map (fillContents crates pkg)).flatten.length =
        claimedSize entry.blocks := by
      have last := reads (UInt64.ofNat (u64Limit - 1)) 0
      have top : (UInt64.ofNat (u64Limit - 1)).toNat = u64Limit - 1 := by decide
      have total : totalSize entry.blocks = claimedSize entry.blocks := totalSize_eq (by omega)
      rw [top, readBlocks, if_pos (by omega)] at last
      rw [(last _ filled).1 [], attrSize_file file (by omega)]
    rcases exists_short untruthful whole with ⟨block, inside, data, verified, short⟩
    rcases exists_span inside 0 0 with ⟨span, member, same⟩
    rw [← same] at verified short
    have within := (span_inside (by omega) member).2
    have point : (UInt64.ofNat (span.start + data.length)).toNat = span.start + data.length :=
      UInt64.toNat_ofNat_of_lt' (by change _ < u64Limit; omega)
    have behind := reads (UInt64.ofNat (span.start + data.length)) 1
    rw [point] at behind
    rcases read_behind_short checked.1 0 (fun _ => []) listed member verified short (by omega) with
      ⟨len, slices, reply, empty⟩
    have one : (1 : UInt32).toNat = 1 := rfl
    rw [one, reply] at behind
    have missing := (behind _ filled).2
    have counted := congrArg List.length missing
    rw [empty, length_slice (by omega)] at counted
    cases counted
  · intro condition budget named window threads events now turns readIn opened
    have fresh : (FuseState.new pkg.manifest budget named window threads).Sound crates pkg :=
      sound_new pkg.manifest rfl budget named window threads
    have sound := fresh.serve events
    rw [handleRead_eq now turns _ opened found, readEntry]
    have listed : pkg.manifest.entries[inodeToEntry readIn.fh]? = some entry := by
      rw [opened, own, found]
    have checked := verifyEntry_eq sound listed
    split
    · trivial
    · split
      · next reached passed =>
          rw [passed] at checked
          have truthful : Truthful crates pkg entry := by
            rcases condition with refused | truthful
            · rw [← checked.2] at refused
              cases refused
            · exact truthful
          have small := readIn.size.toNat_lt
          exact readBlocks_agrees checked.1 now turns listed file truthful (by omega)
      · trivial

/-! ### A stored package -/

def mountHashes : List (Bytes × Nat) :=
  [([1, 2, 3, 4], 0x3254a019db5cd6e91c3520ec91a93551d0d512878d05fa1263a32514171d7863),
    ([5, 6], 0x46d9e50c9da0a05f46ebd509055169e20017b818d904b4676f8c9957b76be0f2),
    ([1, 2, 3, 4, 5, 6], 0xa29fbe0012f05db095cf6ffb0115cc209534846f1a95bf1e6fb886ae60868a82)]

/-- BLAKE3 on the content of the package below. -/
def mountCrates : Crates where
  blake3 bytes :=
    let digest := ((mountHashes.find? fun entry => entry.1 = bytes).map Prod.snd).getD 0
    ⟨leBytes 32 digest, length_leBytes 32 digest⟩
  xxh3 _ := 0
  decompress _ _ := none
  decompressWith _ _ _ := none

/-- One file in two stored blocks of four and two bytes, with the sizes they claim. -/
def mountEntry (first second : Nat) : Entry where
  kind := .file
  blocks := [⟨0, 4, first, mountCrates.blake3 [1, 2, 3, 4]⟩,
    ⟨4, 2, second, mountCrates.blake3 [5, 6]⟩]
  contentHash := mountCrates.blake3 [1, 2, 3, 4, 5, 6]

def mountPackage (first second : Nat) : PackageData where
  footer := ⟨⟨true, false, false⟩, 6, 1, 0, 6, 0, 0⟩
  manifest := ⟨3, mountCrates.blake3 [], [mountEntry first second]⟩
  file := [1, 2, 3, 4, 5, 6, 7] ++ List.replicate footerSize 8
  codec := .zstd none

/-- Claimed sizes of two and four shift the second block two bytes forward. -/
theorem stored_sizes_misread : ¬(handleRead mountCrates (mountPackage 2 4) 0 (fun _ => [])
    (serve mountCrates (mountPackage 2 4)
      (FuseState.new (mountPackage 2 4).manifest 64 [] 64 0) [])
    (some ⟨1, 2, 2⟩)).2.Agrees mountCrates (mountPackage 2 4) (mountEntry 2 4) 2 2 := by
  intro agrees
  have reply : (handleRead mountCrates (mountPackage 2 4) 0 (fun _ => [])
      (serve mountCrates (mountPackage 2 4)
        (FuseState.new (mountPackage 2 4).manifest 64 [] 64 0) [])
      (some ⟨1, 2, 2⟩)).2 = .data 18 [[5, 6]] := by decide +kernel
  have first : readPayloadEntry mountCrates (mountPackage 2 4)
      ⟨0, 4, 2, mountCrates.blake3 [1, 2, 3, 4]⟩ = some [1, 2, 3, 4] := by decide +kernel
  have second : readPayloadEntry mountCrates (mountPackage 2 4)
      ⟨4, 2, 4, mountCrates.blake3 [5, 6]⟩ = some [5, 6] := by decide +kernel
  have content : Contents mountCrates (mountPackage 2 4) (mountEntry 2 4).blocks
      [[1, 2, 3, 4], [5, 6]] := by
    refine contents_cons.mpr ⟨?_, contents_cons.mpr ⟨?_, List.Forall₂.nil⟩⟩
    · rw [first]
    · rw [second]
  rw [reply] at agrees
  exact absurd (agrees _ content).2 (by decide)

/-- With the sizes the blocks have, every read agrees. -/
theorem reads_agree_of_stored_sizes :
    StoredTruthfully mountCrates (mountPackage 4 2) (mountEntry 4 2) ∧
      ∀ budget named window threads events now turns readIn, readIn.fh = entryToInode 0 →
        (handleRead mountCrates (mountPackage 4 2) now turns
          (serve mountCrates (mountPackage 4 2)
            (FuseState.new (mountPackage 4 2).manifest budget named window threads) events)
          (some readIn)).2.Agrees mountCrates (mountPackage 4 2) (mountEntry 4 2)
            readIn.offset.toNat readIn.size.toNat := by
  have truthful : StoredTruthfully mountCrates (mountPackage 4 2) (mountEntry 4 2) := by
    intro dict codec stored block listed verifies
    rcases List.mem_cons.mp listed with same | listed
    · rw [same]
    · rw [List.mem_singleton.mp listed]
  exact ⟨truthful, (reads_agree_iff mountCrates (mountPackage 4 2) 0 (mountEntry 4 2) rfl rfl
    (by decide +kernel)).mpr (Or.inr truthful)⟩

end Onelf.Runtime.Fuse
