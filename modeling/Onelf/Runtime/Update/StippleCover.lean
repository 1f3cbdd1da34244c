import Onelf.Runtime.Update.Stipple

/-! A plan of stored stipplefs images leaves no byte of the payload out. -/

namespace Onelf.Runtime.Update

open Onelf.Lib

variable {footer : Footer}

/-! ### The blocks of an accepted index -/

theorem blockDigest_eq_some {remote : RemotePackage} {reader : StippleReader} {i : Nat}
    {run : Nat × Nat} (planned : blockDigest remote reader i = some run) :
    ∃ entry, reader.get i = some entry ∧
      run = (remote.footer.payloadOffset + entry.imageOffset, entry.storedLength) ∧
        run.1 + run.2 < u64Limit ∧ saturatingAdd (run.1 + run.2) 8 ≤ payloadEnd remote.footer := by
  rcases Option.bind_eq_some_iff.mp planned with ⟨entry, held, planned⟩
  rcases Option.bind_eq_some_iff.mp planned with ⟨start, started, planned⟩
  rcases Option.bind_eq_some_iff.mp planned with ⟨stop, stopped, planned⟩
  rcases checkedAdd_eq_some.mp started with ⟨startAt, _⟩
  rcases checkedAdd_eq_some.mp stopped with ⟨stopAt, below⟩
  simp only [Option.ite_none_left_eq_some, Option.some.injEq] at planned
  rcases planned with ⟨accepted, same⟩
  have fits : saturatingAdd stop 8 ≤ payloadEnd remote.footer := by
    by_contra above
    exact accepted (Or.inr (not_le.mp above))
  rw [← startAt] at same stopAt
  rw [← same]
  simp only [stopAt]
  exact ⟨entry, held, rfl, below, fits⟩

/-- The 8 bytes of a digest lie behind the block they are of. -/
theorem slot_inside {remote : RemotePackage} {stop : Nat}
    (fits : remote.footer.payloadOffset + remote.footer.payloadSize < u64Limit)
    (below : stop < u64Limit) (checked : saturatingAdd stop 8 ≤ payloadEnd remote.footer) :
    stop ≤ remote.footer.payloadOffset + remote.footer.payloadSize ∧
      (stop + 8 < u64Limit ↔
        stop + 8 ≤ remote.footer.payloadOffset + remote.footer.payloadSize) := by
  rw [payloadEnd, wrappingAdd_of_lt fits, saturatingAdd] at checked
  omega

theorem digests_planned {remote : RemotePackage} {reader : StippleReader}
    {digests : List (Nat × Nat)}
    (planned : (List.range reader.count).mapM (blockDigest remote reader) = some digests) :
    (∀ i < reader.count, ∃ run ∈ digests, blockDigest remote reader i = some run) ∧
      ∀ run ∈ digests, ∃ i < reader.count, blockDigest remote reader i = some run := by
  have paired := Option.mapM_eq_some.mp planned
  constructor
  · intro i listed
    exact paired_with_mem paired (List.mem_range.mpr listed)
  · intro run member
    rcases paired_of_mem paired member with ⟨i, listed, here⟩
    exact ⟨i, List.mem_range.mp listed, here⟩

theorem blocksInside_of_digests {remote : RemotePackage} {reader : StippleReader}
    {digests : List (Nat × Nat)}
    (fits : remote.footer.payloadOffset + remote.footer.payloadSize < u64Limit)
    (planned : (List.range reader.count).mapM (blockDigest remote reader) = some digests) :
    BlocksInside remote.footer reader := by
  intro i listed entry held
  rcases (digests_planned planned).1 i listed with ⟨run, _, here⟩
  rcases blockDigest_eq_some here with ⟨other, same, runs, below, checked⟩
  rw [held, Option.some.injEq] at same
  rw [runs, ← same] at below checked
  exact (slot_inside fits below checked).1

/-! ### The copies -/

theorem planSlice_inside {running : PackageData} {localReader remoteReader : StippleReader}
    {remote : RemotePackage}
    (fits : remote.footer.payloadOffset + remote.footer.payloadSize < u64Limit)
    (blocks : BlocksInside remote.footer remoteReader)
    {index : SortedMap Digest (Nat × Nat × Nat)} {state next : Slicing} {block : Block}
    (inside : ∀ group ∈ state.copies, ∀ range ∈ group.ranges,
      InPayload remote.footer range.dst range.len)
    (planned : planSlice running localReader remote remoteReader index state block = some next) :
    ∀ group ∈ next.copies, ∀ range ∈ group.ranges,
      InPayload remote.footer range.dst range.len := by
  rcases Option.bind_eq_some_iff.mp planned with ⟨len, _, planned⟩
  split at planned
  · rw [← Option.some.inj planned]
    exact inside
  · split at planned
    · rw [← Option.some.inj planned]
      exact inside
    · split at planned
      · cases planned
      · split at planned
        · rw [← Option.some.inj planned]
          exact inside
        · rcases Option.bind_eq_some_iff.mp planned with ⟨dst, sliced, planned⟩
          rcases Option.bind_eq_some_iff.mp planned with ⟨src, _, planned⟩
          rcases Option.bind_eq_some_iff.mp planned with ⟨ranges, zipped, planned⟩
          rw [← Option.some.inj planned]
          intro group member
          rcases List.mem_append.mp member with early | new
          · exact inside group early
          · rw [List.mem_singleton.mp new]
            exact zipRanges_inside fits (sliceStoredRanges_inside fits blocks sliced) zipped

/-! ### The ranges nothing is fetched for -/

section
variable {remote : RemotePackage} {reader : StippleReader} {copies : List CopyGroup}
variable {digests : List (Nat × Nat)} {known : Option Range}

theorem knownRange_inside {sections : List ImageSection} {metadata : Option Nat} {range : Range}
    (fits : remote.footer.payloadOffset + remote.footer.payloadSize < u64Limit)
    (ranged : metadataRange sections remote.footer.payloadSize = some metadata)
    (held : range ∈ knownRange remote metadata) :
    range.stop ≤ remote.footer.payloadOffset + remote.footer.payloadSize := by
  rcases Option.map_eq_some_iff.mp held with ⟨stop, found, same⟩
  rw [metadataRange] at ranged
  split at ranged
  · rw [← Option.some.inj ranged] at found
    cases found
  · simp only [Option.ite_none_left_eq_some, Option.some.injEq] at ranged
    have reaches : stop ≤ remote.footer.payloadSize := by
      rw [found, Option.some.injEq] at ranged
      rw [← ranged.2]
      exact Nat.min_le_right _ _
    rw [← same]
    show wrappingAdd remote.footer.payloadOffset stop ≤ _
    rw [wrappingAdd_of_lt (by omega)]
    omega

theorem mem_takenRanges {range : Range} :
    range ∈ takenRanges copies digests known ↔
      (∃ group ∈ copies, ∃ copy ∈ group.ranges,
        range = ⟨copy.dst, wrappingAdd copy.dst copy.len⟩) ∨
      (∃ run ∈ digests, range = ⟨run.1 + run.2, wrappingAdd (run.1 + run.2) 8⟩) ∨
        range ∈ known := by
  rw [takenRanges, List.mem_append, List.mem_append, List.mem_flatMap, Option.mem_toList]
  simp only [List.mem_map, or_assoc, eq_comm, Option.mem_def]

/-- No range that is not empty reaches past the payload. -/
theorem takenRanges_inside
    (fits : remote.footer.payloadOffset + remote.footer.payloadSize < u64Limit)
    (copied : ∀ group ∈ copies, ∀ range ∈ group.ranges,
      InPayload remote.footer range.dst range.len)
    (planned : (List.range reader.count).mapM (blockDigest remote reader) = some digests)
    (held : ∀ range ∈ known,
      range.stop ≤ remote.footer.payloadOffset + remote.footer.payloadSize) :
    ∀ range ∈ takenRanges copies digests known, range.start < range.stop →
      range.stop ≤ payloadEnd remote.footer := by
  intro range member ordered
  rw [payloadEnd, wrappingAdd_of_lt fits]
  rcases mem_takenRanges.mp member with copy | digest | prefetched
  · rcases copy with ⟨group, inCopies, copy, inGroup, same⟩
    have inside := copied group inCopies copy inGroup
    rw [InPayload] at inside
    rw [same]
    show wrappingAdd copy.dst copy.len ≤ _
    rw [wrappingAdd_of_lt (by omega)]
    exact inside.2
  · rcases digest with ⟨run, inDigests, same⟩
    rcases (digests_planned planned).2 run inDigests with ⟨i, _, here⟩
    rcases blockDigest_eq_some here with ⟨_, _, _, below, checked⟩
    rw [same] at ordered ⊢
    simp only at ordered ⊢
    by_cases wraps : run.1 + run.2 + 8 < u64Limit
    · rw [wrappingAdd_of_lt wraps]
      exact (slot_inside fits below checked).2.mp wraps
    · -- The sum starts again from zero, and the range has nothing in it.
      have eight : 8 < u64Limit := by decide
      have small : run.1 + run.2 + 8 - u64Limit < u64Limit := by omega
      rw [wrappingAdd, Nat.mod_eq_sub_mod (by omega), Nat.mod_eq_of_lt small] at ordered
      omega
  · exact held range prefetched

/-- A byte of a range is a byte of a copy, of a digest's place or of the metadata. -/
theorem covered_of_taken {i : Nat}
    (fits : remote.footer.payloadOffset + remote.footer.payloadSize < u64Limit)
    (copied : ∀ group ∈ copies, ∀ range ∈ group.ranges,
      InPayload remote.footer range.dst range.len)
    (taken : ∃ range ∈ takenRanges copies digests known, range.start ≤ i ∧ i < range.stop) :
    (∃ group ∈ copies, ∃ range ∈ group.ranges, within range.dst range.len i) ∨
      (∃ run ∈ digests, within (run.1 + run.2) 8 i) ∨
        ∃ range ∈ known, range.start ≤ i ∧ i < range.stop := by
  rcases taken with ⟨range, member, first, last⟩
  rcases mem_takenRanges.mp member with copy | digest | prefetched
  · rcases copy with ⟨group, inCopies, copy, inGroup, same⟩
    have inside := copied group inCopies copy inGroup
    rw [InPayload] at inside
    rw [same] at first last
    simp only at first last
    rw [wrappingAdd_of_lt (by omega)] at last
    exact Or.inl ⟨group, inCopies, copy, inGroup, first, last⟩
  · rcases digest with ⟨run, inDigests, same⟩
    rw [same] at first last
    have short : wrappingAdd (run.1 + run.2) 8 ≤ run.1 + run.2 + 8 := Nat.mod_le _ _
    exact Or.inr (Or.inl ⟨run, inDigests, first, last.trans_le short⟩)
  · exact Or.inr (Or.inr ⟨range, prefetched, first, last⟩)

end

/-! ### Merging the fetches -/

theorem mergeSpan_inside {merged : List Span} {span : Span}
    (inside : ∀ other ∈ merged, InPayload footer other.start other.len)
    (here : InPayload footer span.start span.len) :
    ∀ other ∈ mergeSpan merged span, InPayload footer other.start other.len := by
  have added : ∀ other ∈ merged ++ [span], InPayload footer other.start other.len := by
    intro other member
    rcases List.mem_append.mp member with before | same
    · exact inside other before
    · rw [List.mem_singleton.mp same]
      exact here
  intro other member
  rw [mergeSpan] at member
  split at member
  · next last found =>
      split at member
      · rcases List.mem_append.mp member with before | same
        · exact inside other ((List.dropLast_sublist _).subset before)
        · have placed := inside last (List.mem_of_getLast? found)
          rw [List.mem_singleton.mp same]
          rw [InPayload] at placed here ⊢
          refine ⟨placed.1, ?_⟩
          show last.start + (max (last.start + last.len) (span.start + span.len) - last.start) ≤ _
          omega
      · exact added other member
  · exact added other member

theorem coalesce_inside {plan : Plan}
    (inside : ∀ span ∈ plan.fetch, InPayload footer span.start span.len) :
    ∀ span ∈ (coalesce plan).fetch, InPayload footer span.start span.len := by
  have merged (spans merged : List Span)
      (before : ∀ span ∈ merged, InPayload footer span.start span.len)
      (fetched : ∀ span ∈ spans, InPayload footer span.start span.len) :
      ∀ span ∈ spans.foldl mergeSpan merged, InPayload footer span.start span.len := by
    induction spans generalizing merged with
    | nil => exact before
    | cons span spans ih =>
        exact ih _ (mergeSpan_inside before (fetched span List.mem_cons_self))
          fun other member => fetched other (List.mem_cons_of_mem _ member)
  apply merged
  · intro span none
    cases none
  · intro span member
    exact inside span ((sortByKey_perm Span.start plan.fetch).mem_iff.mp member)

/-- A group is dropped only where a span downloads all of it. -/
theorem coalesce_dropped {plan : Plan} {group : CopyGroup} (member : group ∈ plan.copies)
    (dropped : group ∉ (coalesce plan).copies) {range : CopyRange} (inGroup : range ∈ group.ranges)
    {i : Nat} (inside : within range.dst range.len i) :
    ∃ span ∈ (coalesce plan).fetch, within span.start span.len i := by
  cases fetched : group.ranges.all (isFetched (coalesce plan).fetch) with
  | true => exact isFetched_covers (List.all_eq_true.mp fetched range inGroup) inside
  | false =>
      have kept : (!group.ranges.all (isFetched (coalesce plan).fetch)) = true := by
        rw [fetched]
        rfl
      exact absurd (List.mem_filter.mpr ⟨member, kept⟩) dropped

/-! ### The plan of an image -/

/-- What a plan has to be, of the payload and of the metadata already fetched. -/
structure PlansImage (footer : Footer) (known : Option Range) (plan : Plan) : Prop where
  covered : ∀ i, footer.payloadOffset ≤ i → i < footer.payloadOffset + footer.payloadSize →
    Covered plan.copies plan.fetch i ∨ (∃ run ∈ plan.digests, within (run.1 + run.2) 8 i) ∨
      ∃ range ∈ known, range.start ≤ i ∧ i < range.stop
  fetched : ∀ span ∈ plan.fetch, InPayload footer span.start span.len
  copied : ∀ group ∈ plan.copies, ∀ range ∈ group.ranges, InPayload footer range.dst range.len
  digested : ∀ run ∈ plan.digests, InPayload footer (run.1 + run.2) 8
  merged : ∀ span ∈ (coalesce plan).fetch, InPayload footer span.start span.len
  dropped : ∀ group ∈ plan.copies, group ∉ (coalesce plan).copies →
    ∀ range ∈ group.ranges, ∀ i, within range.dst range.len i →
      ∃ span ∈ (coalesce plan).fetch, within span.start span.len i

/-- No digest's place runs past what 64 bits can name. -/
def SlotsNamed (footer : Footer) (reader : StippleReader) : Prop :=
  ∀ i < reader.count, ∀ entry, reader.get i = some entry →
    footer.payloadOffset + entry.imageOffset + entry.storedLength + 8 < u64Limit

section
variable {running : PackageData} {localReader remoteReader : StippleReader}
variable {remote : RemotePackage} {plan : Plan}

theorem planStippleSlices_plans {known : Option Range}
    (fits : remote.footer.payloadOffset + remote.footer.payloadSize < u64Limit)
    (held : ∀ range ∈ known,
      range.stop ≤ remote.footer.payloadOffset + remote.footer.payloadSize)
    (planned : planStippleSlices running localReader remote remoteReader known = some plan) :
    PlansImage remote.footer known plan ↔ SlotsNamed remote.footer remoteReader := by
  rcases Option.bind_eq_some_iff.mp planned with ⟨index, _, planned⟩
  rcases Option.bind_eq_some_iff.mp planned with ⟨slices, sliced, planned⟩
  rcases Option.bind_eq_some_iff.mp planned with ⟨digests, digested, planned⟩
  have blocks := blocksInside_of_digests fits digested
  have copied : ∀ group ∈ slices.copies, ∀ range ∈ group.ranges,
      InPayload remote.footer range.dst range.len := by
    have start : ∀ group ∈ ([] : List CopyGroup), ∀ range ∈ group.ranges,
        InPayload remote.footer range.dst range.len := by
      intro group none
      cases none
    exact @Option.foldlM_keeps _ _ (fun _ state => ∀ group ∈ state.copies,
      ∀ range ∈ group.ranges, InPayload remote.footer range.dst range.len) _
      (fun _ _ _ _ inside step => planSlice_inside fits blocks inside step) [] _ _ _ start sliced
  have ends : payloadEnd remote.footer =
      remote.footer.payloadOffset + remote.footer.payloadSize := wrappingAdd_of_lt fits
  rw [← Option.some.inj planned]
  constructor
  · intro plans i listed entry holds
    rcases (digests_planned digested).1 i listed with ⟨run, inDigests, here⟩
    rcases blockDigest_eq_some here with ⟨other, same, runs, below, checked⟩
    rw [holds, Option.some.injEq] at same
    have inside := (plans.digested run inDigests).2
    have named := (slot_inside fits below checked).2.mpr inside
    rw [runs, ← same] at named
    exact named
  · intro named
    have spans : ∀ span ∈ complement remote.footer.payloadOffset (payloadEnd remote.footer)
        (takenRanges slices.copies digests known), InPayload remote.footer span.start span.len := by
      intro span member
      have inside := complement_inside (takenRanges_inside fits copied digested held) span member
      rw [ends] at inside
      exact inside
    exact {
      covered := by
        intro i first last
        rw [← ends] at last
        rcases complement_covers first last with taken | fetched
        · rcases covered_of_taken fits copied taken with copy | other
          · exact Or.inl (Or.inl copy)
          · exact Or.inr other
        · exact Or.inl (Or.inr fetched)
      fetched := spans
      copied := copied
      digested := by
        intro run member
        rcases (digests_planned digested).2 run member with ⟨i, listed, here⟩
        rcases blockDigest_eq_some here with ⟨entry, holds, runs, below, checked⟩
        have room := named i listed entry holds
        have exact_ : run.1 + run.2 + 8 < u64Limit := by
          rw [runs]
          exact room
        refine ⟨?_, (slot_inside fits below checked).2.mp exact_⟩
        rw [runs]
        exact (Nat.le_add_right _ _).trans (Nat.le_add_right _ _)
      merged := coalesce_inside spans
      dropped := by
        intro group member gone range inGroup i inside
        exact coalesce_dropped member gone inGroup inside }

end

/-- A stored plan is sound exactly when no digest's place wraps. -/
theorem planned_image_iff {running : PackageData} {localReader remoteReader : StippleReader}
    {remote : RemotePackage} {sections : List ImageSection} {metadata : Option Nat} {plan : Plan}
    (valid : inBounds remote.footer.payloadOffset remote.footer.payloadSize remote.size = true)
    (ranged : metadataRange sections remote.footer.payloadSize = some metadata)
    (planned : planStippleSlices running localReader remote remoteReader
      (knownRange remote metadata) = some plan) :
    PlansImage remote.footer (knownRange remote metadata) plan ↔
      SlotsNamed remote.footer remoteReader := by
  have fits : remote.footer.payloadOffset + remote.footer.payloadSize < u64Limit := by
    rw [inBounds, Option.any_eq_true] at valid
    rcases valid with ⟨stop, added, _⟩
    rcases checkedAdd_eq_some.mp added with ⟨same, below⟩
    rw [same]
    exact below
  exact planStippleSlices_plans fits (fun range held => knownRange_inside fits ranged held) planned

/-! ### An image of one block -/

/-- An image whose stream is one stored block of four bytes, and whose every file is that block. -/
def oneBlock (imageOffset : Nat) : StippleReader where
  blockSize := 4096
  count := 1
  get := fun i => if i = 0 then some ⟨.stored, imageOffset, 4, 4⟩ else none
  locate := fun position => if position < 4 then some (0, position) else none
  fileExtents := fun _ => [⟨0, 0, 4⟩]
  located := by
    intro position index inside found
    simp only [Option.ite_none_right_eq_some, Option.some.injEq, Prod.mk.injEq] at found
    rcases found with ⟨short, first, same⟩
    rw [← first, ← same]
    refine ⟨Nat.one_pos, ?_⟩
    intro entry held
    rw [if_pos rfl, Option.some.injEq] at held
    rw [← held]
    exact short

def stippleFooter (payloadOffset payloadSize : Nat) : Footer where
  flags := ⟨true, true, false⟩
  manifestOffset := 0
  manifestCompressed := 0
  payloadOffset := payloadOffset
  payloadSize := payloadSize
  dictOffset := 0
  dictSize := 0

/-- A package of one file, the four bytes of the one block. -/
def oneFile : Manifest :=
  ⟨3, numberedDigest 0, [⟨.file, [⟨0, 1, 4, numberedDigest 7⟩], numberedDigest 7⟩]⟩

def oneFilePackage : PackageData where
  footer := stippleFooter 4096 12288
  manifest := oneFile
  file := []
  codec := .stipple fun _ _ _ => none

def oneFileRelease (payloadSize size : Nat) : RemotePackage where
  footer := stippleFooter 4096 payloadSize
  footerBytes := List.replicate footerSize 0
  manifest := oneFile
  manifestBytes := []
  size := size

/-- The sections of the image's metadata: one page. -/
def onePage : List ImageSection := [⟨0, 4096, false⟩]

/-- A release whose block is already in the running package. -/
theorem planned_image_near : ∃ plan,
    planStippleSlices oneFilePackage (oneBlock 4096) (oneFileRelease 8192 12364) (oneBlock 4096)
        (knownRange (oneFileRelease 8192 12364) (some 4096)) = some plan ∧
      PlansImage (stippleFooter 4096 8192) (knownRange (oneFileRelease 8192 12364) (some 4096))
        plan := by
  rcases Option.isSome_iff_exists.mp (show (planStippleSlices oneFilePackage (oneBlock 4096)
    (oneFileRelease 8192 12364) (oneBlock 4096)
      (knownRange (oneFileRelease 8192 12364) (some 4096))).isSome by decide +kernel)
    with ⟨plan, planned⟩
  refine ⟨plan, planned, ?_⟩
  have ranged : metadataRange onePage (oneFileRelease 8192 12364).footer.payloadSize =
      some (some 4096) := by
    decide +kernel
  apply (planned_image_iff (by decide +kernel) ranged planned).mpr
  intro i listed entry held
  rw [oneBlock, Option.ite_none_right_eq_some] at held
  rw [← Option.some.inj held.2]
  decide

/-- A release that claims all the bytes 64 bits can name, its block the last four of them. -/
def farOffset : Nat := 2 ^ 64 - 1 - 4096 - 4
def farRelease : RemotePackage := oneFileRelease (2 ^ 64 - 1 - 4096) (2 ^ 64 - 1)

/-- The place of its digest is planned behind the payload. -/
theorem planned_image_far :
    inBounds farRelease.footer.payloadOffset farRelease.footer.payloadSize farRelease.size = true ∧
      metadataRange onePage farRelease.footer.payloadSize = some (some 4096) ∧
        ∃ plan, planStippleSlices oneFilePackage (oneBlock 4096) farRelease (oneBlock farOffset)
            (knownRange farRelease (some 4096)) = some plan ∧
          ¬ PlansImage farRelease.footer (knownRange farRelease (some 4096)) plan := by
  refine ⟨by decide +kernel, by decide +kernel, ?_⟩
  have digests : (planStippleSlices oneFilePackage (oneBlock 4096) farRelease (oneBlock farOffset)
      (knownRange farRelease (some 4096))).map Plan.digests = some [(2 ^ 64 - 5, 4)] := by
    decide +kernel
  rcases Option.map_eq_some_iff.mp digests with ⟨plan, planned, slots⟩
  refine ⟨plan, planned, ?_⟩
  intro plans
  have member : (2 ^ 64 - 5, 4) ∈ plan.digests := by
    rw [slots]
    exact List.mem_singleton_self _
  exact absurd (plans.digested _ member).2 (by decide +kernel)

end Onelf.Runtime.Update
