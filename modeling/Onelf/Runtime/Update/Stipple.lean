import Onelf.Runtime.Loader
import Onelf.Runtime.Update.Assembly

/-! The delta plan of fully stored stipplefs images (`plan_stipple_slices` of `update/delta.rs`). -/

namespace Onelf.Runtime.Update

open Onelf.Lib

/-! ### The image -/

inductive BlockCodec where
  | stored
  | compressed
  deriving DecidableEq

/-- An entry of an image's block index. -/
structure BlockEntry where
  codec : BlockCodec
  imageOffset : Nat
  decodedLength : Nat
  storedLength : Nat
  deriving DecidableEq

/-- A place of an extent of a file: in the stream of all content, in the file, and its length. -/
structure Extent where
  stream : Nat
  offset : Nat
  len : Nat
  deriving DecidableEq

/-- What the reader of an image gives: its block index and each file's extents, and the block that
holds a position of the stream. -/
structure StippleReader where
  blockSize : Nat
  count : Nat
  get : Nat → Option BlockEntry
  locate : Nat → Option (Nat × Nat)
  fileExtents : Nat → List Extent
  located : ∀ position index inside, locate position = some (index, inside) →
    index < count ∧ ∀ entry, get index = some entry → inside < entry.decodedLength

/-- A section of the image's metadata. -/
structure ImageSection where
  offset : Nat
  size : Nat
  absent : Bool
  deriving DecidableEq

/-- The bytes from `start` to `stop`. -/
structure Range where
  start : Nat
  stop : Nat
  deriving DecidableEq

def Range.len (range : Range) : Nat := wrappingSub range.stop range.start

/-! ### Planning -/

def metadataMax : Nat := 64 * 1024 * 1024

/-- Where the image's metadata ends, at the boundary the first data block starts on. -/
def metadataRange (sections : List ImageSection) (imageSize : Nat) : Option (Option Nat) :=
  match ((sections.filter fun part => !part.absent).map fun part =>
      wrappingAdd part.offset part.size).max? with
  | none => some none
  | some last =>
      let stop := min (min ((last + 4095) / 4096 * 4096) (u64Limit - 1)) imageSize
      if metadataMax < stop then none else some (some stop)

/-- The runs of the package file that hold the bytes of the stream from `position` to `stop`. -/
def blockRuns (reader : StippleReader) (base position stop : Nat) : Option (List Range) :=
  if position < stop then
    match _located : reader.locate position with
    | none => none
    | some (index, inside) =>
        match _held : reader.get index with
        | none => none
        | some entry =>
            let count := min (entry.decodedLength - inside) (stop - position)
            if entry.codec ≠ .stored then none
            else if entry.storedLength < inside + count then none
            else
              let start := wrappingAdd (wrappingAdd base entry.imageOffset) inside
              (blockRuns reader base (position + count) stop).map fun rest =>
                ⟨start, wrappingAdd start count⟩ :: rest
  else some []
termination_by stop - position
decreasing_by
  have inside := (reader.located position _ _ _located).2 entry _held
  omega

/-- The loop over a file's extents: the runs up to `limit`, and how far they reach. -/
def extentRuns (reader : StippleReader) (base limit : Nat) :
    List Extent → Nat → Option (List Range × Nat)
  | [], covered => some ([], covered)
  | extent :: extents, covered => do
      let stop ← checkedAdd extent.offset extent.len
      if stop ≤ covered then extentRuns reader base limit extents covered
      -- A hole in the file.
      else if covered < extent.offset then none
      else
        let reach := min limit stop
        let first ← checkedAdd extent.stream (covered - extent.offset)
        let last ← checkedAdd extent.stream (reach - extent.offset)
        let runs ← blockRuns reader base first last
        if limit ≤ reach then some (runs, reach)
        else (extentRuns reader base limit extents reach).map fun rest => (runs ++ rest.1, rest.2)

def sliceStoredRanges (reader : StippleReader) (base ino offset len : Nat) :
    Option (List Range) := do
  let limit ← checkedAdd offset len
  let (runs, covered) ← extentRuns reader base limit (reader.fileExtents ino) offset
  if covered < limit then none else some runs

/-- What is left of the ranges once the first has given `taken` bytes. -/
def dropTaken (taken : Nat) (range : Range) (ranges : List Range) : List Range :=
  if taken = range.len then ranges else ⟨wrappingAdd range.start taken, range.stop⟩ :: ranges

/-- Zip two range lists into copy ranges; they have to cover the same total. -/
def zipRanges : List Range → List Range → Option (List CopyRange)
  | [], [] => some []
  | dst :: dsts, src :: srcs =>
      (zipRanges (dropTaken (min dst.len src.len) dst dsts)
        (dropTaken (min dst.len src.len) src srcs)).map fun rest =>
          ⟨dst.start, src.start, min dst.len src.len⟩ :: rest
  | _, _ => none
termination_by dsts srcs => dsts.length + srcs.length
decreasing_by
  rw [List.length_cons, List.length_cons, dropTaken, dropTaken]
  split
  · split
    · omega
    · rw [List.length_cons]
      omega
  · split
    · rw [List.length_cons]
      omega
    · next first second => exact absurd (min_choice dst.len src.len) (by simp [first, second])

/-- Content hash to the running package's inode, file offset and length; the first file that has it
counts. -/
def indexSlice (index : SortedMap Digest (Nat × Nat × Nat)) (block : Block) :
    Option (SortedMap Digest (Nat × Nat × Nat)) :=
  if block.compressedSize < 2 ^ 32 then
    some (index.orInsert block.contentHash
      (block.compressedSize, block.payloadOffset, block.originalSize))
  else none

structure Slicing where
  seen : List (Nat × Nat)
  copies : List CopyGroup

section
variable (running : PackageData) (localReader : StippleReader)
variable (remote : RemotePackage) (remoteReader : StippleReader)

/-- One slice of the release, planned once however often the manifest lists it. -/
def planSlice (index : SortedMap Digest (Nat × Nat × Nat)) (state : Slicing) (block : Block) :
    Option Slicing := do
  let len ← blockOriginalSize block
  match index.get? block.contentHash with
  | none => some state
  | some (ino, offset, original) =>
      if original ≠ len then some state
      else if ¬ block.compressedSize < 2 ^ 32 then none
      else if state.seen.contains (block.compressedSize, block.payloadOffset) then some state
      else do
        let dst ← sliceStoredRanges remoteReader remote.footer.payloadOffset block.compressedSize
          block.payloadOffset len
        let src ← sliceStoredRanges localReader running.footer.payloadOffset ino offset len
        let ranges ← zipRanges dst src
        some ⟨(block.compressedSize, block.payloadOffset) :: state.seen,
          state.copies ++ [⟨ranges, .raw block.contentHash⟩]⟩

def payloadEnd (footer : Footer) : Nat := wrappingAdd footer.payloadOffset footer.payloadSize

/-- The stored bytes of a block, which its digest follows. -/
def blockDigest (i : Nat) : Option (Nat × Nat) := do
  let entry ← remoteReader.get i
  let start ← checkedAdd remote.footer.payloadOffset entry.imageOffset
  let stop ← checkedAdd start entry.storedLength
  if remoteReader.blockSize < entry.storedLength ∨ payloadEnd remote.footer < saturatingAdd stop 8
  then none
  else some (start, entry.storedLength)

/-- The loop of `complement`, over sorted ranges. -/
def complementFrom (stop : Nat) : Nat → List Range → List Span
  | position, [] => if position < stop then [⟨position, stop - position⟩] else []
  | position, range :: taken =>
      if range.stop ≤ position ∨ range.stop ≤ range.start then complementFrom stop position taken
      else
        let rest := complementFrom stop (max position range.stop) taken
        if position < max range.start position then
          ⟨position, max range.start position - position⟩ :: rest
        else rest

/-- The bytes from `start` to `stop` that no range takes. -/
def complement (start stop : Nat) (taken : List Range) : List Span :=
  complementFrom stop start (sortByKey Range.start taken)

/-- What a plan leaves for nothing to fetch. -/
def takenRanges (copies : List CopyGroup) (digests : List (Nat × Nat)) (known : Option Range) :
    List Range :=
  copies.flatMap (fun group => group.ranges.map fun range =>
      ⟨range.dst, wrappingAdd range.dst range.len⟩) ++
    digests.map (fun run => ⟨run.1 + run.2, wrappingAdd (run.1 + run.2) 8⟩) ++ known.toList

def planStippleSlices (known : Option Range) : Option Plan := do
  let index ← (fileBlocks running.manifest).foldlM indexSlice SortedMap.empty
  let planned ← (fileBlocks remote.manifest).foldlM
    (planSlice running localReader remote remoteReader index) ⟨[], []⟩
  let digests ← (List.range remoteReader.count).mapM (blockDigest remote remoteReader)
  let fetch := complement remote.footer.payloadOffset (payloadEnd remote.footer)
    (takenRanges planned.copies digests known)
  some ⟨prefixPlan running remote, none, planned.copies, fetch, digests, none⟩

/-- The prefetched metadata, where it lies in the release. -/
def knownRange (metadata : Option Nat) : Option Range :=
  metadata.map fun stop =>
    ⟨remote.footer.payloadOffset, wrappingAdd remote.footer.payloadOffset stop⟩

end

/-! ### What lies inside the payload -/

/-- The bytes of a range are bytes of the payload. -/
structure Range.Inside (footer : Footer) (range : Range) : Prop where
  first : footer.payloadOffset ≤ range.start
  ordered : range.start ≤ range.stop
  last : range.stop ≤ footer.payloadOffset + footer.payloadSize

def InPayload (footer : Footer) (start len : Nat) : Prop :=
  footer.payloadOffset ≤ start ∧ start + len ≤ footer.payloadOffset + footer.payloadSize

/-- Every block of the index lies in the payload. -/
def BlocksInside (footer : Footer) (reader : StippleReader) : Prop :=
  ∀ i < reader.count, ∀ entry, reader.get i = some entry →
    footer.payloadOffset + entry.imageOffset + entry.storedLength ≤
      footer.payloadOffset + footer.payloadSize

variable {footer : Footer}

theorem Range.Inside.len_eq {range : Range} (inside : range.Inside footer) :
    range.len = range.stop - range.start := wrappingSub_of_le inside.ordered

theorem Range.Inside.inPayload {range : Range} (inside : range.Inside footer) :
    InPayload footer range.start range.len := by
  have first := inside.first
  have ordered := inside.ordered
  have last := inside.last
  rw [InPayload, inside.len_eq]
  omega

theorem dropTaken_inside (fits : footer.payloadOffset + footer.payloadSize < u64Limit)
    {taken : Nat} {range : Range} {ranges : List Range} (inside : range.Inside footer)
    (rest : ∀ other ∈ ranges, other.Inside footer) (some : taken ≤ range.len) :
    ∀ other ∈ dropTaken taken range ranges, other.Inside footer := by
  rw [dropTaken]
  split
  · exact rest
  · intro other member
    rcases List.mem_cons.mp member with same | later
    · have first := inside.first
      have ordered := inside.ordered
      have last := inside.last
      rw [inside.len_eq] at some
      have unwrapped : wrappingAdd range.start taken = range.start + taken :=
        wrappingAdd_of_lt (by omega)
      have above : footer.payloadOffset ≤ range.start + taken := by omega
      have below : range.start + taken ≤ range.stop := by omega
      rw [same, unwrapped]
      exact ⟨above, below, last⟩
    · exact rest other later

theorem zipRanges_inside (fits : footer.payloadOffset + footer.payloadSize < u64Limit)
    {dsts srcs : List Range} {ranges : List CopyRange}
    (inside : ∀ range ∈ dsts, range.Inside footer) (zipped : zipRanges dsts srcs = some ranges) :
    ∀ range ∈ ranges, InPayload footer range.dst range.len := by
  induction dsts, srcs using zipRanges.induct generalizing ranges with
  | case1 =>
      rw [zipRanges, Option.some.injEq] at zipped
      rw [← zipped]
      intro range member
      cases member
  | case2 dst dsts src srcs ih =>
      rw [zipRanges] at zipped
      rcases Option.map_eq_some_iff.mp zipped with ⟨rest, later, same⟩
      have here := inside dst List.mem_cons_self
      have behind := dropTaken_inside fits here
        (fun other member => inside other (List.mem_cons_of_mem _ member))
        (Nat.min_le_left dst.len src.len)
      intro range member
      rw [← same] at member
      rcases List.mem_cons.mp member with first | inRest
      · have whole := here.inPayload
        have least := Nat.min_le_left dst.len src.len
        rw [first]
        exact ⟨whole.1, (Nat.add_le_add_left least dst.start).trans whole.2⟩
      · exact ih behind later range inRest
  | case3 dsts srcs neither both =>
      rw [zipRanges.eq_3 _ _ neither both] at zipped
      cases zipped

/-- A run of a block is a run of the payload. -/
theorem blockRun_inside (fits : footer.payloadOffset + footer.payloadSize < u64Limit)
    {imageOffset storedLength inside count : Nat}
    (bounded : footer.payloadOffset + imageOffset + storedLength ≤
      footer.payloadOffset + footer.payloadSize)
    (short : inside + count ≤ storedLength) :
    Range.Inside footer ⟨wrappingAdd (wrappingAdd footer.payloadOffset imageOffset) inside,
      wrappingAdd (wrappingAdd (wrappingAdd footer.payloadOffset imageOffset) inside) count⟩ := by
  have block : wrappingAdd footer.payloadOffset imageOffset = footer.payloadOffset + imageOffset :=
    wrappingAdd_of_lt (by omega)
  have start : wrappingAdd (footer.payloadOffset + imageOffset) inside =
      footer.payloadOffset + imageOffset + inside := wrappingAdd_of_lt (by omega)
  have stop : wrappingAdd (footer.payloadOffset + imageOffset + inside) count =
      footer.payloadOffset + imageOffset + inside + count := wrappingAdd_of_lt (by omega)
  rw [block, start, stop]
  exact {
    first := (Nat.le_add_right _ _).trans (Nat.le_add_right _ _)
    ordered := Nat.le_add_right _ _
    last := by
      show footer.payloadOffset + imageOffset + inside + count ≤ _
      omega }

theorem blockRuns_inside (fits : footer.payloadOffset + footer.payloadSize < u64Limit)
    {reader : StippleReader} (blocks : BlocksInside footer reader) {position stop : Nat}
    {runs : List Range} (found : blockRuns reader footer.payloadOffset position stop = some runs) :
    ∀ run ∈ runs, run.Inside footer := by
  induction left : stop - position using Nat.strong_induction_on generalizing position runs with
  | _ left' ih =>
      rw [blockRuns] at found
      split at found
      · next unfinished =>
          split at found
          · cases found
          · next index inside located =>
              split at found
              · cases found
              · next entry held =>
                  rcases reader.located _ _ _ located with ⟨listed, within⟩
                  have some := within entry held
                  simp only at found
                  split at found
                  · cases found
                  · split at found
                    · cases found
                    · next short =>
                        rcases Option.map_eq_some_iff.mp found with ⟨rest, later, same⟩
                        have behind := ih (stop - (position +
                          min (entry.decodedLength - inside) (stop - position))) (by omega) later rfl
                        rw [← same]
                        intro run member
                        rcases List.mem_cons.mp member with first | inRest
                        · rw [first]
                          exact blockRun_inside fits (blocks index listed entry held)
                            (not_lt.mp short)
                        · exact behind run inRest
      · rw [Option.some.injEq] at found
        rw [← found]
        intro run member
        cases member

theorem extentRuns_inside (fits : footer.payloadOffset + footer.payloadSize < u64Limit)
    {reader : StippleReader} (blocks : BlocksInside footer reader) {limit covered : Nat}
    {extents : List Extent} {found : List Range × Nat}
    (ran : extentRuns reader footer.payloadOffset limit extents covered = some found) :
    ∀ run ∈ found.1, run.Inside footer := by
  induction extents generalizing covered found with
  | nil =>
      rw [extentRuns, Option.some.injEq] at ran
      rw [← ran]
      intro run member
      cases member
  | cons extent extents ih =>
      rcases Option.bind_eq_some_iff.mp ran with ⟨stop, _, ran⟩
      split at ran
      · exact ih ran
      · split at ran
        · cases ran
        · rcases Option.bind_eq_some_iff.mp ran with ⟨first, _, ran⟩
          rcases Option.bind_eq_some_iff.mp ran with ⟨last, _, ran⟩
          rcases Option.bind_eq_some_iff.mp ran with ⟨runs, read, ran⟩
          have here := blockRuns_inside fits blocks read
          split at ran
          · rw [Option.some.injEq] at ran
            rw [← ran]
            exact here
          · rcases Option.map_eq_some_iff.mp ran with ⟨rest, later, same⟩
            rw [← same]
            intro run member
            rcases List.mem_append.mp member with early | inRest
            · exact here run early
            · exact ih later run inRest

theorem sliceStoredRanges_inside (fits : footer.payloadOffset + footer.payloadSize < u64Limit)
    {reader : StippleReader} (blocks : BlocksInside footer reader) {ino offset len : Nat}
    {runs : List Range}
    (sliced : sliceStoredRanges reader footer.payloadOffset ino offset len = some runs) :
    ∀ run ∈ runs, run.Inside footer := by
  rcases Option.bind_eq_some_iff.mp sliced with ⟨limit, _, ran⟩
  rcases Option.bind_eq_some_iff.mp ran with ⟨⟨reached, covered⟩, read, ran⟩
  simp only [Option.ite_none_left_eq_some, Option.some.injEq] at ran
  rw [← ran.2]
  exact extentRuns_inside fits blocks read

/-! ### What the plan covers -/

theorem complementFrom_covers {stop position i : Nat} (ranges : List Range)
    (first : position ≤ i) (last : i < stop) :
    (∃ range ∈ ranges, range.start ≤ i ∧ i < range.stop) ∨
      ∃ span ∈ complementFrom stop position ranges, within span.start span.len i := by
  induction ranges generalizing position with
  | nil =>
      rw [complementFrom, if_pos (by omega)]
      refine Or.inr ⟨_, List.mem_singleton_self _, ?_⟩
      show position ≤ i ∧ i < position + (stop - position)
      omega
  | cons range ranges ih =>
      rw [complementFrom]
      split
      · rcases ih first with taken | fetched
        · rcases taken with ⟨other, member, inside⟩
          exact Or.inl ⟨other, List.mem_cons_of_mem _ member, inside⟩
        · exact Or.inr fetched
      · next open_ =>
          by_cases gap : i < max range.start position
          · right
            have opens : position < max range.start position := by omega
            rw [if_pos opens]
            refine ⟨_, List.mem_cons_self, ?_⟩
            show position ≤ i ∧ i < position + (max range.start position - position)
            omega
          · by_cases here : i < range.stop
            · exact Or.inl ⟨range, List.mem_cons_self, by omega, here⟩
            · have beyond : max position range.stop ≤ i := by omega
              rcases ih beyond with taken | fetched
              · rcases taken with ⟨other, member, inside⟩
                exact Or.inl ⟨other, List.mem_cons_of_mem _ member, inside⟩
              · rcases fetched with ⟨span, member, inside⟩
                refine Or.inr ⟨span, ?_, inside⟩
                split
                · exact List.mem_cons_of_mem _ member
                · exact member

theorem complementFrom_inside {stop position : Nat} {ranges : List Range}
    (within : ∀ range ∈ ranges, range.start < range.stop → range.stop ≤ stop) :
    ∀ span ∈ complementFrom stop position ranges,
      position ≤ span.start ∧ span.start + span.len ≤ stop := by
  induction ranges generalizing position with
  | nil =>
      intro span member
      rw [complementFrom] at member
      split at member
      · rw [List.mem_singleton.mp member]
        show position ≤ position ∧ position + (stop - position) ≤ stop
        omega
      · cases member
  | cons range ranges ih =>
      have later := fun other member => within other (List.mem_cons_of_mem _ member)
      intro span member
      rw [complementFrom] at member
      split at member
      · exact ih later span member
      · next open_ =>
          have ends := within range List.mem_cons_self (by omega)
          have behind (inRest : span ∈ complementFrom stop (max position range.stop) ranges) :
              position ≤ span.start ∧ span.start + span.len ≤ stop := by
            have placed := ih later span inRest
            exact ⟨(Nat.le_max_left _ _).trans placed.1, placed.2⟩
          simp only at member
          split at member
          · next opens =>
              rcases List.mem_cons.mp member with same | inRest
              · rw [same]
                show position ≤ position ∧
                  position + (max range.start position - position) ≤ stop
                omega
              · exact behind inRest
          · exact behind member

theorem complement_covers {start stop i : Nat} {ranges : List Range} (first : start ≤ i)
    (last : i < stop) :
    (∃ range ∈ ranges, range.start ≤ i ∧ i < range.stop) ∨
      ∃ span ∈ complement start stop ranges, within span.start span.len i := by
  rcases complementFrom_covers (sortByKey Range.start ranges) first last with taken | fetched
  · rcases taken with ⟨range, member, inside⟩
    exact Or.inl ⟨range, (sortByKey_perm Range.start ranges).mem_iff.mp member, inside⟩
  · exact Or.inr fetched

theorem complement_inside {start stop : Nat} {ranges : List Range}
    (within : ∀ range ∈ ranges, range.start < range.stop → range.stop ≤ stop) :
    ∀ span ∈ complement start stop ranges,
      start ≤ span.start ∧ span.start + span.len ≤ stop :=
  complementFrom_inside fun range member =>
    within range ((sortByKey_perm Range.start ranges).mem_iff.mp member)

end Onelf.Runtime.Update
