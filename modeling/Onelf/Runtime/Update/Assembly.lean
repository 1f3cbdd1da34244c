import Mathlib.Data.Set.Function
import Onelf.Runtime.Update.Delta

/-! A delta-assembled release is the release, byte for byte. -/

namespace Onelf.Runtime.Update

open Onelf.Lib

/-! ### A release as the packer lays it out -/

/-- Blocks one after another from `start`, none of them empty. -/
def Placed : Nat → List (Block × Bytes) → Prop
  | _, [] => True
  | start, (block, bytes) :: rest =>
      block.payloadOffset = start ∧ block.compressedSize = bytes.length ∧ bytes ≠ [] ∧
        Placed (start + bytes.length) rest

def payload (blocks : List (Block × Bytes)) : Bytes := blocks.flatMap Prod.snd

/-- A release file: the runtime, the manifest, the distinct blocks the manifest names, the
dictionary when there is one, and the footer. -/
structure Release (crates : Crates) where
  runtime : Bytes
  manifestBytes : Bytes
  blocks : List (Block × Bytes)
  dict : Option Bytes
  footerBytes : Bytes
  footer : Footer
  manifest : Manifest
  prefixHashed : manifest.prefixHash = crates.blake3 runtime
  manifestPlaced : footer.manifestOffset = runtime.length
  payloadPlaced : footer.payloadOffset = runtime.length + manifestBytes.length
  payloadSized : footer.payloadSize = (payload blocks).length
  dictFlagged : footer.flags.hasDict = dict.isSome
  dictPlaced : ∀ bytes ∈ dict, footer.dictSize = bytes.length ∧
    footer.dictOffset = footer.payloadOffset + footer.payloadSize
  footerSized : footerBytes.length = footerSize
  placed : Placed 0 blocks
  named : ∀ block, block ∈ fileBlocks manifest ↔ block ∈ blocks.map Prod.fst
  hashed : footer.flags.stored = true →
    ∀ entry ∈ blocks, crates.blake3 entry.2 = entry.1.contentHash
  coded : footer.flags.stored = false → ∀ entry ∈ blocks, ∃ content,
    decodeBlock crates entry.2 entry.1.originalSize (dict.filter fun dict => dict ≠ []) =
      some content ∧ crates.blake3 content = entry.1.contentHash

namespace Release

variable {crates : Crates} (release : Release crates)

def bytes : Bytes :=
  release.runtime ++ release.manifestBytes ++ payload release.blocks ++ release.dict.getD [] ++
    release.footerBytes

/-- What the probe of the release finds. -/
def remote : RemotePackage :=
  ⟨release.footer, release.footerBytes, release.manifest, release.manifestBytes,
    release.bytes.length⟩

end Release

theorem slice_append (lead middle tail : Bytes) :
    slice (lead ++ middle ++ tail) lead.length middle.length = middle := by
  rw [slice, List.append_assoc, List.drop_left, List.take_left]

/-- Each placed block lies where its offset says. -/
theorem Placed.split {start : Nat} {blocks : List (Block × Bytes)} (placed : Placed start blocks)
    {entry : Block × Bytes} (member : entry ∈ blocks) :
    ∃ lead tail, payload blocks = lead ++ entry.2 ++ tail ∧
      entry.1.payloadOffset = start + lead.length ∧ entry.1.compressedSize = entry.2.length := by
  induction blocks generalizing start with
  | nil => cases member
  | cons first rest ih =>
      rcases placed with ⟨offset, size, _, later⟩
      rcases List.mem_cons.mp member with same | inRest
      · refine ⟨[], payload rest, ?_, ?_, ?_⟩
        · rw [same, payload, List.flatMap_cons]
          rfl
        · rw [same, offset]
          rfl
        · rw [same, size]
      · rcases ih later inRest with ⟨lead, tail, whole, position, length⟩
        refine ⟨first.2 ++ lead, tail, ?_, ?_, length⟩
        · rw [payload, List.flatMap_cons, ← payload, whole]
          simp only [List.append_assoc]
        · rw [position, List.length_append]
          omega

/-- The blocks leave no byte of the payload out. -/
theorem Placed.cover {start : Nat} {blocks : List (Block × Bytes)} (placed : Placed start blocks)
    {i : Nat} (first : start ≤ i) (last : i < start + (payload blocks).length) :
    ∃ entry ∈ blocks, within entry.1.payloadOffset entry.1.compressedSize i := by
  induction blocks generalizing start with
  | nil =>
      simp only [payload, List.flatMap_nil, List.length_nil] at last
      omega
  | cons entry rest ih =>
      rcases placed with ⟨offset, size, _, later⟩
      rw [payload, List.flatMap_cons, ← payload, List.length_append] at last
      by_cases here : i < start + entry.2.length
      · refine ⟨entry, List.mem_cons_self, ?_⟩
        rw [within, offset, size]
        exact ⟨first, here⟩
      · rcases ih later (by omega) (by omega) with ⟨other, member, inside⟩
        exact ⟨other, List.mem_cons_of_mem _ member, inside⟩

theorem Placed.le_offset {start : Nat} {blocks : List (Block × Bytes)}
    (placed : Placed start blocks) {entry : Block × Bytes} (member : entry ∈ blocks) :
    start ≤ entry.1.payloadOffset := by
  rcases placed.split member with ⟨lead, _, _, position, _⟩
  omega

/-- No two blocks share an offset. -/
theorem Placed.inj {start : Nat} {blocks : List (Block × Bytes)} (placed : Placed start blocks)
    {first second : Block × Bytes} (one : first ∈ blocks) (other : second ∈ blocks)
    (same : first.1.payloadOffset = second.1.payloadOffset) : first = second := by
  induction blocks generalizing start with
  | nil => cases one
  | cons head rest ih =>
      rcases placed with ⟨offset, _, nonempty, later⟩
      have positive := List.length_pos_of_ne_nil nonempty
      rcases List.mem_cons.mp one with here | inRest
      · rcases List.mem_cons.mp other with here' | inRest'
        · rw [here, here']
        · have above := later.le_offset inRest'
          rw [here] at same
          omega
      · rcases List.mem_cons.mp other with here' | inRest'
        · have above := later.le_offset inRest
          rw [here'] at same
          omega
        · exact ih later inRest inRest'

/-! ### What the plan covers -/

/-- The byte at `i` is written by a copy group or a fetch. -/
def Covered (copies : List CopyGroup) (fetch : List Span) (i : Nat) : Prop :=
  (∃ group ∈ copies, ∃ range ∈ group.ranges, within range.dst range.len i) ∨
    ∃ span ∈ fetch, within span.start span.len i

theorem extendFetch_keeps {spans : List Span} {start len i : Nat}
    (covered : (∃ span ∈ spans, within span.start span.len i) ∨ within start len i) :
    ∃ span ∈ extendFetch spans start len, within span.start span.len i := by
  have added : (∃ span ∈ spans, within span.start span.len i) ∨ within start len i →
      ∃ span ∈ spans ++ [⟨start, len⟩], within span.start span.len i := by
    intro either
    rcases either with earlier | new
    · rcases earlier with ⟨span, member, inside⟩
      exact ⟨span, List.mem_append_left _ member, inside⟩
    · exact ⟨⟨start, len⟩, List.mem_append_right _ (List.mem_singleton_self _), new⟩
  rw [extendFetch]
  split
  · next last found =>
      split
      · next touches =>
          have parts : spans = spans.dropLast ++ [last] :=
            (List.dropLast_append_getLast? last found).symm
          have grown : within last.start (last.len + len) i → ∃ span ∈
              spans.dropLast ++ [⟨last.start, last.len + len⟩], within span.start span.len i :=
            fun inside => ⟨_, List.mem_append_right _ (List.mem_singleton_self _), inside⟩
          rcases covered with earlier | new
          · rcases earlier with ⟨span, member, inside⟩
            rw [parts] at member
            rcases List.mem_append.mp member with before | same
            · exact ⟨span, List.mem_append_left _ before, inside⟩
            · rw [List.mem_singleton.mp same] at inside
              apply grown
              rw [within] at inside ⊢
              omega
          · apply grown
            rw [within] at new ⊢
            omega
      · exact added covered
  · exact added covered

theorem mergeSpan_keeps {merged : List Span} {span : Span} {i : Nat}
    (ordered : ∀ other ∈ merged, other.start ≤ span.start)
    (covered : (∃ other ∈ merged, within other.start other.len i) ∨ within span.start span.len i) :
    ∃ other ∈ mergeSpan merged span, within other.start other.len i := by
  have added : (∃ other ∈ merged, within other.start other.len i) ∨ within span.start span.len i →
      ∃ other ∈ merged ++ [span], within other.start other.len i := by
    intro either
    rcases either with earlier | new
    · rcases earlier with ⟨other, member, inside⟩
      exact ⟨other, List.mem_append_left _ member, inside⟩
    · exact ⟨span, List.mem_append_right _ (List.mem_singleton_self _), new⟩
  rw [mergeSpan]
  split
  · next last found =>
      split
      · have parts : merged = merged.dropLast ++ [last] :=
          (List.dropLast_append_getLast? last found).symm
        have below : last.start ≤ span.start := ordered last (by rw [parts]; simp)
        have grown : within last.start
            (max (last.start + last.len) (span.start + span.len) - last.start) i →
            ∃ other ∈ merged.dropLast ++
              [⟨last.start, max (last.start + last.len) (span.start + span.len) - last.start⟩],
              within other.start other.len i :=
          fun inside => ⟨_, List.mem_append_right _ (List.mem_singleton_self _), inside⟩
        rcases covered with earlier | new
        · rcases earlier with ⟨other, member, inside⟩
          rw [parts] at member
          rcases List.mem_append.mp member with before | same
          · exact ⟨other, List.mem_append_left _ before, inside⟩
          · rw [List.mem_singleton.mp same] at inside
            apply grown
            rw [within] at inside ⊢
            omega
        · apply grown
          rw [within] at new ⊢
          omega
      · exact added covered
  · exact added covered

theorem mergeSpan_starts {merged : List Span} {span other : Span}
    (member : other ∈ mergeSpan merged span) :
    other.start = span.start ∨ ∃ earlier ∈ merged, earlier.start = other.start := by
  have added : other ∈ merged ++ [span] →
      other.start = span.start ∨ ∃ earlier ∈ merged, earlier.start = other.start := by
    intro member
    rcases List.mem_append.mp member with before | same
    · exact Or.inr ⟨other, before, rfl⟩
    · exact Or.inl (by rw [List.mem_singleton.mp same])
  rw [mergeSpan] at member
  split at member
  · next last found =>
      split at member
      · rcases List.mem_append.mp member with before | same
        · exact Or.inr ⟨other, (List.dropLast_sublist _).subset before, rfl⟩
        · right
          refine ⟨last, List.mem_of_getLast? found, ?_⟩
          rw [List.mem_singleton.mp same]
      · exact added member
  · exact added member

theorem foldl_mergeSpan_keeps {spans merged : List Span} {i : Nat}
    (sorted : (spans.map Span.start).Pairwise (· ≤ ·))
    (ordered : ∀ other ∈ merged, ∀ span ∈ spans, other.start ≤ span.start)
    (covered : (∃ other ∈ merged, within other.start other.len i) ∨
      ∃ span ∈ spans, within span.start span.len i) :
    ∃ other ∈ spans.foldl mergeSpan merged, within other.start other.len i := by
  induction spans generalizing merged with
  | nil =>
      rcases covered with earlier | none
      · exact earlier
      · rcases none with ⟨span, member, _⟩
        cases member
  | cons span spans ih =>
      rw [List.map_cons, List.pairwise_cons] at sorted
      have here := fun other member => ordered other member span List.mem_cons_self
      rw [List.foldl_cons]
      apply ih sorted.2
      · intro other member next inRest
        have after : span.start ≤ next.start :=
          sorted.1 next.start (List.mem_map_of_mem inRest)
        rcases mergeSpan_starts member with same | earlier
        · omega
        · rcases earlier with ⟨before, inMerged, same⟩
          rw [← same]
          exact ordered before inMerged next (List.mem_cons_of_mem _ inRest)
      · rcases covered with earlier | some
        · exact Or.inl (mergeSpan_keeps here (Or.inl earlier))
        · rcases some with ⟨other, member, inside⟩
          rcases List.mem_cons.mp member with same | later
          · rw [same] at inside
            exact Or.inl (mergeSpan_keeps here (Or.inr inside))
          · exact Or.inr ⟨other, later, inside⟩

theorem isFetched_covers {fetch : List Span} {range : CopyRange}
    (fetched : isFetched fetch range = true) {i : Nat} (inside : within range.dst range.len i) :
    ∃ span ∈ fetch, within span.start span.len i := by
  rw [isFetched] at fetched
  split at fetched
  · cases fetched
  · next n count =>
      rw [Option.any_eq_true] at fetched
      rcases fetched with ⟨span, held, reaches⟩
      have reaches : range.dst + range.len ≤ span.start + span.len := by simpa using reaches
      have early : span ∈ fetch.takeWhile fun span => span.start ≤ range.dst := by
        have short : n < (fetch.takeWhile fun span => span.start ≤ range.dst).length := by
          rw [partitionPoint] at count
          omega
        have lead := List.takeWhile_prefix (fun span : Span => decide (span.start ≤ range.dst))
          (l := fetch)
        have same := lead.getElem short
        rw [List.getElem?_eq_getElem (lead.length_le.trans_lt' short), Option.some.injEq] at held
        rw [← held, ← same]
        exact List.getElem_mem short
      have starts : span.start ≤ range.dst := by
        simpa using List.all_eq_true.mp List.all_takeWhile span early
      refine ⟨span, List.mem_of_getElem? held, ?_⟩
      rw [within] at inside ⊢
      omega

theorem sortByKey_ascending {spans : List Span} :
    ((sortByKey Span.start spans).map Span.start).Pairwise (· ≤ ·) := by
  have total : Std.Total fun first second : Span => first.start ≤ second.start :=
    ⟨fun first second => le_total first.start second.start⟩
  have transitive : IsTrans Span fun first second => first.start ≤ second.start :=
    ⟨fun _ _ _ => le_trans⟩
  exact List.pairwise_map.mpr (List.pairwise_insertionSort _ spans)

/-- Coalescing leaves no byte out. -/
theorem coalesce_covers {plan : Plan} {i : Nat} (covered : Covered plan.copies plan.fetch i) :
    Covered (coalesce plan).copies (coalesce plan).fetch i := by
  have merged (span : Span) (member : span ∈ plan.fetch) (inside : within span.start span.len i) :
      ∃ other ∈ (coalesce plan).fetch, within other.start other.len i := by
    apply foldl_mergeSpan_keeps sortByKey_ascending
    · intro other none
      cases none
    · exact Or.inr ⟨span, (sortByKey_perm Span.start plan.fetch).mem_iff.mpr member, inside⟩
  rcases covered with copied | fetched
  · rcases copied with ⟨group, member, range, inGroup, inside⟩
    cases dropped : group.ranges.all (isFetched (coalesce plan).fetch) with
    | true => exact Or.inr (isFetched_covers (List.all_eq_true.mp dropped range inGroup) inside)
    | false =>
        have kept : (!group.ranges.all (isFetched (coalesce plan).fetch)) = true := by
          rw [dropped]
          rfl
        exact Or.inl ⟨group, List.mem_filter.mpr ⟨member, kept⟩, range, inGroup, inside⟩
  · rcases fetched with ⟨span, member, inside⟩
    exact Or.inr (merged span member inside)

theorem coalesce_copies {plan : Plan} {group : CopyGroup}
    (member : group ∈ (coalesce plan).copies) : group ∈ plan.copies :=
  (List.mem_filter.mp member).1

/-! ### What the planner plans -/

section Planner

variable {crates : Crates} (release : Release crates)

/-- A copy group for one block of the release. -/
def CopyGroup.Reuses (group : CopyGroup) : Prop :=
  ∃ entry ∈ release.blocks, ∃ src check, blockCheck release.footer entry.1 = some check ∧
    group = ⟨[⟨release.footer.payloadOffset + entry.1.payloadOffset, src,
      entry.1.compressedSize⟩], check⟩

/-- What holds once the blocks `visited` are planned. -/
structure Planned (visited : List Block) (state : Planning) : Prop where
  seen : ∀ offset, offset ∈ state.seen ↔ ∃ block ∈ visited, block.payloadOffset = offset
  copies : ∀ group ∈ state.copies, group.Reuses release
  covered : ∀ block ∈ visited, ∀ i,
    within (release.footer.payloadOffset + block.payloadOffset) block.compressedSize i →
      Covered state.copies state.fetch i

theorem planBlock_planned {comparable : Bool} {index : SortedMap Digest (Nat × Nat)}
    {visited : List Block} {state next : Planning} {block : Block}
    (planned : Planned release visited state)
    (known : ∀ other ∈ block :: visited, other ∈ release.blocks.map Prod.fst)
    (step : planBlock comparable index release.footer state block = some next) :
    Planned release (block :: visited) next := by
  rw [planBlock] at step
  split at step
  · next again =>
      rw [← Option.some.inj step]
      rcases (planned.seen _).mp again with ⟨other, member, offset⟩
      rcases List.mem_map.mp (known block List.mem_cons_self) with ⟨entry, inBlocks, isBlock⟩
      rcases List.mem_map.mp (known other (List.mem_cons_of_mem _ member)) with
        ⟨entry', inBlocks', isOther⟩
      have twin : entry = entry' := release.placed.inj inBlocks inBlocks' (by
        rw [isBlock, isOther, offset])
      have same : block = other := by rw [← isBlock, ← isOther, twin]
      refine ⟨?_, planned.copies, ?_⟩
      · intro place
        rw [planned.seen]
        simp only [List.mem_cons, exists_eq_or_imp]
        constructor
        · exact Or.inr
        · intro either
          rcases either with here | earlier
          · exact ⟨other, member, offset.trans here⟩
          · exact earlier
      · intro visitedBlock inVisited
        rcases List.mem_cons.mp inVisited with here | earlier
        · rw [here, same]
          exact planned.covered other member
        · exact planned.covered visitedBlock earlier
  · rcases Option.bind_eq_some_iff.mp step with ⟨⟨dst, len⟩, extent, rest⟩
    have position := blockExtent_eq_some.mp extent
    have seen : ∀ offset, offset ∈ block.payloadOffset :: state.seen ↔
        ∃ other ∈ block :: visited, other.payloadOffset = offset := by
      intro offset
      rw [List.mem_cons, planned.seen]
      simp only [List.mem_cons, exists_eq_or_imp]
      exact or_congr_left eq_comm
    simp only at rest
    split at rest
    · next src srcLen found =>
        rcases Option.bind_eq_some_iff.mp rest with ⟨check, checkedAs, done⟩
        rw [← Option.some.inj done]
        refine ⟨seen, ?_, ?_⟩
        · intro group member
          rcases List.mem_append.mp member with earlier | new
          · exact planned.copies group earlier
          · rw [List.mem_singleton.mp new, position.1, position.2.1]
            rcases List.mem_map.mp (known block List.mem_cons_self) with ⟨entry, inBlocks, same⟩
            rw [← same] at checkedAs ⊢
            exact ⟨entry, inBlocks, src, check, checkedAs, rfl⟩
        · intro other inVisited i inside
          rcases List.mem_cons.mp inVisited with here | earlier
          · rw [here, ← position.1, ← position.2.1] at inside
            exact Or.inl ⟨_, List.mem_append_right _ (List.mem_singleton_self _), _,
              List.mem_singleton_self _, inside⟩
          · rcases planned.covered other earlier i inside with copied | fetched
            · rcases copied with ⟨group, member, range, inGroup, inside⟩
              exact Or.inl ⟨group, List.mem_append_left _ member, range, inGroup, inside⟩
            · exact Or.inr fetched
    · rw [← Option.some.inj rest]
      refine ⟨seen, planned.copies, ?_⟩
      intro other inVisited i inside
      rcases List.mem_cons.mp inVisited with here | earlier
      · rw [here, ← position.1, ← position.2.1] at inside
        exact Or.inr (extendFetch_keeps (Or.inr inside))
      · rcases planned.covered other earlier i inside with copied | fetched
        · exact Or.inl copied
        · exact Or.inr (extendFetch_keeps (Or.inl fetched))

theorem foldlM_planBlock_planned {comparable : Bool} {index : SortedMap Digest (Nat × Nat)}
    {blocks visited : List Block} {state next : Planning}
    (planned : Planned release visited state)
    (known : ∀ block ∈ blocks ++ visited, block ∈ release.blocks.map Prod.fst)
    (folded : blocks.foldlM (planBlock comparable index release.footer) state = some next) :
    ∃ all, (∀ block, block ∈ blocks ∨ block ∈ visited → block ∈ all) ∧
      Planned release all next := by
  induction blocks generalizing visited state with
  | nil =>
      rw [List.foldlM_nil] at folded
      rw [← Option.some.inj folded]
      exact ⟨visited, fun block member => member.resolve_left List.not_mem_nil, planned⟩
  | cons block blocks ih =>
      rw [List.foldlM_cons] at folded
      rcases Option.bind_eq_some_iff.mp folded with ⟨middle, step, rest⟩
      have after := planBlock_planned release planned (by
        intro other member
        apply known
        rcases List.mem_cons.mp member with same | earlier
        · rw [same]
          exact List.mem_append_left _ List.mem_cons_self
        · exact List.mem_append_right _ earlier) step
      have later := ih after (by
        intro other member
        apply known
        rcases List.mem_append.mp member with inBlocks | inVisited
        · exact List.mem_append_left _ (List.mem_cons_of_mem _ inBlocks)
        · rcases List.mem_cons.mp inVisited with same | earlier
          · rw [same]
            exact List.mem_append_left _ List.mem_cons_self
          · exact List.mem_append_right _ earlier) rest
      rcases later with ⟨all, members, plannedAll⟩
      refine ⟨all, ?_, plannedAll⟩
      intro other member
      apply members
      rcases member with inBlocks | inVisited
      · rcases List.mem_cons.mp inBlocks with same | inRest
        · exact Or.inr (List.mem_cons.mpr (Or.inl same))
        · exact Or.inl inRest
      · exact Or.inr (List.mem_cons_of_mem _ inVisited)

/-- The plan for a release: groups that reuse its blocks, and a copy or a fetch for every byte of
its payload. -/
structure PlansRelease (plan : Plan) : Prop where
  copies : ∀ group ∈ plan.copies, group.Reuses release
  covered : ∀ i, within release.footer.payloadOffset release.footer.payloadSize i →
    Covered plan.copies plan.fetch i
  digests : plan.digests = []
  known : plan.known = none

theorem coalesce_plans {plan : Plan} (plans : PlansRelease release plan) :
    PlansRelease release (coalesce plan) :=
  ⟨fun group member => plans.copies group (coalesce_copies member),
    fun i inside => coalesce_covers (plans.covered i inside), plans.digests, plans.known⟩

theorem planBlocks_plans {running : PackageData} {src : RangeSource} {plan : Plan}
    (planned : planBlocks running release.remote src = some plan) : PlansRelease release plan := by
  rcases Option.bind_eq_some_iff.mp planned with ⟨dict, _, rest⟩
  rcases Option.bind_eq_some_iff.mp rest with ⟨index, _, rest'⟩
  rcases Option.bind_eq_some_iff.mp rest' with ⟨state, folded, done⟩
  have start : Planned release [] ⟨[], [], []⟩ := by
    constructor
    · intro offset
      simp
    · intro group none
      cases none
    · intro block none
      cases none
  have known : ∀ block ∈ fileBlocks release.manifest ++ [],
      block ∈ release.blocks.map Prod.fst := by
    intro block member
    rw [List.append_nil] at member
    exact (release.named block).mp member
  rcases foldlM_planBlock_planned release start known folded with ⟨all, members, plannedAll⟩
  rw [← Option.some.inj done]
  refine ⟨plannedAll.copies, ?_, rfl, rfl⟩
  intro i inside
  rw [within, release.payloadSized] at inside
  have offset : 0 ≤ i - release.footer.payloadOffset := Nat.zero_le _
  rcases release.placed.cover offset (by omega) with ⟨entry, member, within'⟩
  have named := (release.named entry.1).mpr (List.mem_map_of_mem member)
  apply plannedAll.covered entry.1 (members _ (Or.inl named))
  rw [within] at within' ⊢
  omega

end Planner

/-! ### Where the parts of a release lie -/

namespace Release

variable {crates : Crates} (release : Release crates)

theorem length_bytes : release.bytes.length =
    release.footer.payloadOffset + release.footer.payloadSize + (release.dict.getD []).length +
      footerSize := by
  rw [release.payloadPlaced, release.payloadSized, ← release.footerSized]
  simp only [bytes, List.length_append]

theorem slice_runtime : slice release.bytes 0 release.footer.manifestOffset = release.runtime := by
  rw [release.manifestPlaced, bytes, List.append_assoc, List.append_assoc, List.append_assoc]
  exact slice_append [] release.runtime _

theorem slice_manifest : slice release.bytes release.footer.manifestOffset
    release.manifestBytes.length = release.manifestBytes := by
  rw [release.manifestPlaced, bytes, List.append_assoc, List.append_assoc]
  exact slice_append release.runtime release.manifestBytes _

theorem slice_block {entry : Block × Bytes} (member : entry ∈ release.blocks) :
    slice release.bytes (release.footer.payloadOffset + entry.1.payloadOffset)
      entry.1.compressedSize = entry.2 := by
  rcases release.placed.split member with ⟨lead, tail, whole, position, length⟩
  have around : release.bytes = (release.runtime ++ release.manifestBytes ++ lead) ++ entry.2 ++
      (tail ++ release.dict.getD [] ++ release.footerBytes) := by
    rw [bytes, whole]
    simp only [List.append_assoc]
  have before : release.footer.payloadOffset + entry.1.payloadOffset =
      (release.runtime ++ release.manifestBytes ++ lead).length := by
    rw [position, release.payloadPlaced, List.length_append, List.length_append]
    omega
  rw [around, before, length]
  exact slice_append _ _ _

theorem block_inside {entry : Block × Bytes} (member : entry ∈ release.blocks) :
    release.footer.payloadOffset + entry.1.payloadOffset + entry.1.compressedSize ≤
      release.bytes.length := by
  rcases release.placed.split member with ⟨lead, tail, whole, position, length⟩
  have size := congrArg List.length whole
  rw [List.length_append, List.length_append, ← release.payloadSized] at size
  rw [release.length_bytes]
  omega

theorem slice_dict {dict : Bytes} (carried : release.dict = some dict) :
    slice release.bytes release.footer.dictOffset release.footer.dictSize = dict := by
  rcases release.dictPlaced dict carried with ⟨size, offset⟩
  have around : release.bytes =
      (release.runtime ++ release.manifestBytes ++ payload release.blocks) ++ dict ++
        release.footerBytes := by
    rw [bytes, carried, Option.getD_some]
  have before : release.footer.dictOffset =
      (release.runtime ++ release.manifestBytes ++ payload release.blocks).length := by
    rw [offset, release.payloadPlaced, release.payloadSized, List.length_append,
      List.length_append]
  rw [around, before, size]
  exact slice_append _ _ _

theorem slice_footer : slice release.bytes (release.bytes.length - footerSize) footerSize =
    release.footerBytes := by
  have before : release.bytes.length - footerSize = (release.runtime ++ release.manifestBytes ++
      payload release.blocks ++ release.dict.getD []).length := by
    rw [bytes, List.length_append, release.footerSized]
    omega
  have around : release.bytes = (release.runtime ++ release.manifestBytes ++
      payload release.blocks ++ release.dict.getD []) ++ release.footerBytes ++ [] := by
    rw [bytes, List.append_nil]
  rw [before, ← release.footerSized, around]
  exact slice_append _ _ _

end Release

/-! ### What is written -/

/-- A source whose every answer is the bytes of `file` it was asked for. -/
def Honest (src : RangeSource) (file : Bytes) : Prop :=
  ∀ start len bytes, 0 < len → src start len = some bytes →
    start + len ≤ file.length ∧ bytes = slice file start len

/-- Everything the assembly hashes: runs of either file, and what they decode to. -/
def hashable (crates : Crates) (running release : Bytes) : Set Bytes :=
  {bytes | ∃ file, (file = running ∨ file = release) ∧ ∃ start len,
    bytes = slice file start len ∨
      ∃ original dict, decodeBlock crates (slice file start len) original dict = some bytes}

theorem take_slice (file : Bytes) (start len : Nat) :
    (slice file start len).take len = slice file start len := by
  rw [slice, List.take_take, Nat.min_self]

theorem fetchSpan_holds {src : RangeSource} {image staged written : Bytes} {known : Nat → Prop}
    {start len count : Nat} (honest : Honest src image) (holds : Holds image known staged)
    (fetched : fetchSpan src staged start len = some (written, count)) :
    Holds image (fun i => known i ∨ within start len i) written := by
  rw [fetchSpan] at fetched
  split at fetched
  · next nothing =>
      rw [← (Prod.mk.inj (Option.some.inj fetched)).1]
      apply holds.weaken
      intro i either
      rcases either with before | empty
      · exact before
      · rw [within] at empty
        omega
  · next positive =>
      rcases Option.bind_eq_some_iff.mp fetched with ⟨reader, answered, rest⟩
      rcases Option.bind_eq_some_iff.mp rest with ⟨file, moved, done⟩
      rcases honest start len reader (Nat.pos_of_ne_zero positive) answered with ⟨inside, exact⟩
      have chunk : 0 < 64 * 1024 := by decide
      rw [transfer_eq chunk (Nat.le_refl len)] at moved
      split at moved
      · cases moved
      · rw [exact, take_slice] at moved
        rw [← (Prod.mk.inj (Option.some.inj done)).1, ← Option.some.inj moved]
        exact holds.write inside

theorem writePrefix_holds {crates : Crates} (release : Release crates) {running staged written : Bytes}
    {src : RangeSource} {count : Nat} (honest : Honest src release.bytes)
    (apart : Set.InjOn crates.blake3 (hashable crates running release.bytes))
    (holds : Holds release.bytes (fun _ => False) staged) {runtime : Prefix}
    (planned : runtime = .copy release.footer.manifestOffset ∨
      runtime = .fetch release.footer.manifestOffset)
    (prefixed : writePrefix crates running release.remote src staged runtime =
      some (written, count)) :
    Holds release.bytes (fun i => i < release.footer.manifestOffset) written := by
  have reaches {file : Bytes} (holds : Holds release.bytes
      (fun i => False ∨ within 0 release.footer.manifestOffset i) file) :
      Holds release.bytes (fun i => i < release.footer.manifestOffset) file := by
    apply holds.weaken
    intro i inside
    exact Or.inr ⟨Nat.zero_le i, by omega⟩
  rcases planned with copy | fetch
  · rw [copy, writePrefix] at prefixed
    rcases Option.bind_eq_some_iff.mp prefixed with ⟨⟨hash, copied⟩, ran, rest⟩
    rcases Option.map_eq_some_iff.mp ran with ⟨file, moved, same⟩
    rcases Prod.mk.inj same with ⟨sameHash, sameFile⟩
    have chunk : 0 < 1024 * 1024 := by decide
    rw [transfer_eq chunk (Nat.le_refl _)] at moved
    have inside : release.footer.manifestOffset ≤ release.bytes.length := by
      rw [release.length_bytes, release.payloadPlaced, ← release.manifestPlaced]
      omega
    split at moved
    · cases moved
    · next enough =>
        have wrote : writeAt staged (slice running 0 release.footer.manifestOffset) 0 = copied := by
          rw [← sameFile, ← Option.some.inj moved]
          rfl
        simp only at rest
        split at rest
        · have size : (slice running 0 release.footer.manifestOffset).length ≤
              release.footer.manifestOffset := by
            rw [slice, List.length_take]
            exact Nat.min_le_left _ _
          have dirty : Holds release.bytes (fun _ => False) copied := by
            rw [← wrote]
            exact holds.scribble (by omega) fun _ none => none.elim
          exact reaches (fetchSpan_holds honest dirty rest)
        · next equal =>
            have hashed : crates.blake3 (slice running 0 release.footer.manifestOffset) =
                crates.blake3 (slice release.bytes 0 release.footer.manifestOffset) := by
              rw [sameHash, release.slice_runtime]
              exact (not_not.mp equal).trans release.prefixHashed
            have bytes : slice running 0 release.footer.manifestOffset =
                slice release.bytes 0 release.footer.manifestOffset :=
              apart ⟨running, Or.inl rfl, _, _, Or.inl rfl⟩
                ⟨release.bytes, Or.inr rfl, _, _, Or.inl rfl⟩ hashed
            rw [← (Prod.mk.inj (Option.some.inj rest)).1, ← wrote, bytes]
            exact reaches (holds.write (by omega))
  · rw [fetch, writePrefix] at prefixed
    exact reaches (fetchSpan_holds honest holds prefixed)

/-- The dictionary a release's blocks are coded against. -/
def Release.codecDict {crates : Crates} (release : Release crates) : Option Bytes :=
  release.dict.filter fun dict => dict ≠ []

/-- A run of the running package and a block of the release that are as long and decode to the
same content are the same bytes. -/
def Canonical (crates : Crates) (running : Bytes) (release : Release crates) : Prop :=
  ∀ start len, ∀ entry ∈ release.blocks, (slice running start len).length = entry.2.length →
    ∀ original content,
      decodeBlock crates (slice running start len) original release.codecDict = some content →
      decodeBlock crates entry.2 original release.codecDict = some content →
        slice running start len = entry.2

section Writer

variable {crates : Crates} (release : Release crates) {running : Bytes} {src : RangeSource}

/-- A run that passes the check of a block is the block. -/
theorem checked_eq (apart : Set.InjOn crates.blake3 (hashable crates running release.bytes))
    (canonical : release.footer.flags.stored = false → Canonical crates running release)
    {entry : Block × Bytes} (member : entry ∈ release.blocks) {check : Check}
    (planned : blockCheck release.footer entry.1 = some check) {start : Nat}
    (size : (slice running start entry.1.compressedSize).length = entry.1.compressedSize)
    (passed : checked crates release.codecDict (slice running start entry.1.compressedSize) check =
      true) :
    slice running start entry.1.compressedSize = entry.2 := by
  have block := release.slice_block member
  rw [blockCheck] at planned
  split at planned
  · next stored =>
      rw [← Option.some.inj planned, checked, decide_eq_true_iff, ← release.hashed stored entry member,
        ← block] at passed
      rw [← block]
      exact apart ⟨running, Or.inl rfl, _, _, Or.inl rfl⟩
        ⟨release.bytes, Or.inr rfl, _, _, Or.inl rfl⟩ passed
  · next compressed =>
      have coded : release.footer.flags.stored = false := Bool.eq_false_iff.mpr compressed
      rcases Option.map_eq_some_iff.mp planned with ⟨original, bounded, same⟩
      rw [blockOriginalSize] at bounded
      split at bounded
      · cases bounded
      · rw [← same, checked, Option.any_eq_true] at passed
        rcases passed with ⟨decoded, decodes, hash⟩
        rcases release.coded coded entry member with ⟨content, contents, contentHash⟩
        rw [Option.some.inj bounded] at contents
        have sameHash : crates.blake3 decoded = crates.blake3 content := by
          rw [contentHash]
          simpa using hash
        have contents' := contents
        rw [← block] at contents'
        have equal : decoded = content :=
          apart ⟨running, Or.inl rfl, _, _, Or.inr ⟨_, _, decodes⟩⟩
            ⟨release.bytes, Or.inr rfl, _, _, Or.inr ⟨_, _, contents'⟩⟩ sameHash
        rw [equal] at decodes
        rcases release.placed.split member with ⟨_, _, _, _, length⟩
        exact canonical coded start entry.1.compressedSize entry member (by rw [size, length])
          original content decodes contents

theorem writeGroup_holds (honest : Honest src release.bytes)
    (apart : Set.InjOn crates.blake3 (hashable crates running release.bytes))
    (canonical : release.footer.flags.stored = false → Canonical crates running release)
    {staged written : Staged} {known : Nat → Prop} (holds : Holds release.bytes known staged.bytes)
    {group : CopyGroup} (reuses : group.Reuses release)
    (wrote : writeGroup crates running release.codecDict src staged group = some written) :
    Holds release.bytes
      (fun i => known i ∨ ∃ range ∈ group.ranges, within range.dst range.len i) written.bytes := by
  rcases reuses with ⟨entry, member, start, check, planned, shape⟩
  rw [shape] at wrote ⊢
  have single {file : Bytes} (holds : Holds release.bytes (fun i => known i ∨
      within (release.footer.payloadOffset + entry.1.payloadOffset) entry.1.compressedSize i)
      file) : Holds release.bytes (fun i => known i ∨ ∃ range ∈
        [(⟨release.footer.payloadOffset + entry.1.payloadOffset, start,
          entry.1.compressedSize⟩ : CopyRange)], within range.dst range.len i) file := by
    apply holds.weaken
    intro i either
    rcases either with before | inside
    · exact Or.inl before
    · rcases inside with ⟨range, same, inside⟩
      rw [List.mem_singleton.mp same] at inside
      exact Or.inr inside
  rw [writeGroup] at wrote
  split at wrote
  · next nothing =>
      rw [← Option.some.inj wrote]
      apply single
      apply holds.weaken
      intro i either
      rcases either with before | inside
      · exact before
      · have empty : entry.1.compressedSize = 0 := by simpa using nothing
        rw [within, empty] at inside
        omega
  · rcases Option.bind_eq_some_iff.mp wrote with ⟨bytes, read, rest⟩
    simp only [groupBytes, List.foldlM_cons, List.foldlM_nil] at read
    rcases Option.bind_eq_some_iff.mp read with ⟨joined, readOne, same⟩
    rcases Option.map_eq_some_iff.mp readOne with ⟨run, exact, joinedAs⟩
    have bytesEq : run = bytes := by
      rw [← Option.some.inj same, ← joinedAs, List.nil_append]
    have ran := readExactAt_eq_some exact
    rw [bytesEq] at ran
    split at rest
    · next passed =>
        rw [ran.1] at passed
        have size : (slice running start entry.1.compressedSize).length =
            entry.1.compressedSize := by
          rw [← ran.1]
          exact ran.2
        have block := checked_eq release apart canonical member planned size passed
        rw [← Option.some.inj rest]
        apply single
        simp only [writeRanges]
        rw [ran.1, take_slice, block, ← release.slice_block member]
        exact holds.write (release.block_inside member)
    · rcases Option.bind_eq_some_iff.mp rest with ⟨⟨file, more⟩, fetched, done⟩
      simp only [fetchRanges, List.foldlM_cons, List.foldlM_nil] at fetched
      rcases Option.bind_eq_some_iff.mp fetched with ⟨state, fetchedOne, sameState⟩
      rcases Option.map_eq_some_iff.mp fetchedOne with ⟨spanned, fetchedSpan, stateAs⟩
      have fileEq : spanned.1 = file := by
        have first := congrArg Prod.fst stateAs
        have second := congrArg Prod.fst (Option.some.inj sameState)
        exact first.trans second
      rw [← Option.some.inj done]
      apply single
      simp only
      rw [← fileEq]
      exact fetchSpan_holds honest holds fetchedSpan

theorem foldlM_writeGroup_holds (honest : Honest src release.bytes)
    (apart : Set.InjOn crates.blake3 (hashable crates running release.bytes))
    (canonical : release.footer.flags.stored = false → Canonical crates running release)
    {groups : List CopyGroup} (reuses : ∀ group ∈ groups, group.Reuses release)
    {staged written : Staged} {known : Nat → Prop} (holds : Holds release.bytes known staged.bytes)
    (wrote : groups.foldlM (writeGroup crates running release.codecDict src) staged =
      some written) :
    Holds release.bytes (fun i => known i ∨ ∃ group ∈ groups, ∃ range ∈ group.ranges,
      within range.dst range.len i) written.bytes := by
  induction groups generalizing staged known with
  | nil =>
      rw [List.foldlM_nil] at wrote
      rw [← Option.some.inj wrote]
      apply holds.weaken
      intro i either
      rcases either with before | none
      · exact before
      · rcases none with ⟨group, member, _⟩
        cases member
  | cons group groups ih =>
      rw [List.foldlM_cons] at wrote
      rcases Option.bind_eq_some_iff.mp wrote with ⟨middle, step, rest⟩
      have here := writeGroup_holds release honest apart canonical holds
        (reuses group List.mem_cons_self) step
      have later := ih (fun other member => reuses other (List.mem_cons_of_mem _ member)) here rest
      apply later.weaken
      intro i either
      rcases either with before | copied
      · exact Or.inl (Or.inl before)
      · rcases copied with ⟨other, member, range, inGroup, inside⟩
        rcases List.mem_cons.mp member with same | inRest
        · rw [same] at inGroup
          exact Or.inl (Or.inr ⟨range, inGroup, inside⟩)
        · exact Or.inr ⟨other, inRest, range, inGroup, inside⟩

theorem foldlM_writeSpan_holds (honest : Honest src release.bytes) {spans : List Span}
    {staged written : Staged} {known : Nat → Prop} (holds : Holds release.bytes known staged.bytes)
    (wrote : spans.foldlM (writeSpan src) staged = some written) :
    Holds release.bytes (fun i => known i ∨ ∃ span ∈ spans, within span.start span.len i)
      written.bytes := by
  induction spans generalizing staged known with
  | nil =>
      rw [List.foldlM_nil] at wrote
      rw [← Option.some.inj wrote]
      apply holds.weaken
      intro i either
      rcases either with before | none
      · exact before
      · rcases none with ⟨span, member, _⟩
        cases member
  | cons span spans ih =>
      rw [List.foldlM_cons] at wrote
      rcases Option.bind_eq_some_iff.mp wrote with ⟨middle, step, rest⟩
      rcases Option.map_eq_some_iff.mp step with ⟨⟨file, count⟩, fetched, same⟩
      have here := fetchSpan_holds honest holds fetched
      have middleIs : middle.bytes = file := by rw [← same]
      rw [← middleIs] at here
      apply (ih here rest).weaken
      intro i either
      rcases either with before | fetched
      · exact Or.inl (Or.inl before)
      · rcases fetched with ⟨other, member, inside⟩
        rcases List.mem_cons.mp member with same | inRest
        · rw [same] at inside
          exact Or.inl (Or.inr inside)
        · exact Or.inr ⟨other, inRest, inside⟩

theorem planBlocks_dict (honest : Honest src release.bytes) {running : PackageData} {plan : Plan}
    (planned : planBlocks running release.remote src = some plan) :
    plan.dict = release.codecDict := by
  rcases Option.bind_eq_some_iff.mp planned with ⟨dict, fetched, rest⟩
  rcases Option.bind_eq_some_iff.mp rest with ⟨index, _, rest'⟩
  rcases Option.bind_eq_some_iff.mp rest' with ⟨state, _, done⟩
  rw [← Option.some.inj done, Release.codecDict]
  change fetchDict src release.footer = some dict at fetched
  rw [fetchDict, release.dictFlagged] at fetched
  cases carried : release.dict with
  | none =>
      rw [carried] at fetched
      exact (Option.some.inj fetched).symm
  | some bytes =>
      rcases release.dictPlaced bytes carried with ⟨size, _⟩
      rw [carried] at fetched
      by_cases empty : bytes = []
      · rw [empty, List.length_nil] at size
        simp only [size, empty] at fetched ⊢
        simpa [Option.filter] using fetched.symm
      · have positive := List.length_pos_of_ne_nil empty
        have visible : ¬ (!(some bytes).isSome || decide (release.footer.dictSize = 0)) = true := by
          simp only [Option.isSome_some, Bool.not_true, Bool.false_or, decide_eq_true_eq]
          omega
        rw [if_neg visible] at fetched
        split at fetched
        · cases fetched
        · rcases Option.bind_eq_some_iff.mp fetched with ⟨reader, answered, read⟩
          rcases honest _ _ reader (by omega) answered with ⟨_, exact⟩
          split at read
          · cases read
          · rw [exact, take_slice, release.slice_dict carried] at read
            rw [← Option.some.inj read]
            simp [Option.filter, empty]

theorem planBlocks_runtime {running : PackageData} {plan : Plan}
    (planned : planBlocks running release.remote src = some plan) :
    plan.runtime = .copy release.footer.manifestOffset ∨
      plan.runtime = .fetch release.footer.manifestOffset := by
  rcases Option.bind_eq_some_iff.mp planned with ⟨dict, _, rest⟩
  rcases Option.bind_eq_some_iff.mp rest with ⟨index, _, rest'⟩
  rcases Option.bind_eq_some_iff.mp rest' with ⟨state, _, done⟩
  rw [← Option.some.inj done]
  simp only [prefixPlan]
  split
  · exact Or.inl rfl
  · exact Or.inr rfl

end Writer

theorem writeDict_holds {crates : Crates} (release : Release crates) {file : Bytes}
    {known : Nat → Prop} (holds : Holds release.bytes known file) :
    Holds release.bytes
      (fun i => known i ∨
        ∃ dict, release.dict = some dict ∧ within release.footer.dictOffset dict.length i)
      (release.codecDict.elim file fun dict => writeAt file dict release.footer.dictOffset) := by
  rw [Release.codecDict]
  cases carried : release.dict with
  | none =>
      apply holds.weaken
      intro i either
      rcases either with before | none
      · exact before
      · rcases none with ⟨dict, same, _⟩
        cases same
  | some bytes =>
      rcases release.dictPlaced bytes carried with ⟨size, offset⟩
      by_cases empty : bytes = []
      · simp only [Option.filter, empty, ne_eq, not_true_eq_false, decide_false,
          Bool.false_eq_true, ↓reduceIte, Option.elim_none]
        apply holds.weaken
        intro i either
        rcases either with before | some
        · exact before
        · rcases some with ⟨dict, same, inside⟩
          rw [← Option.some.inj same, within, List.length_nil] at inside
          omega
      · simp only [Option.filter, ne_eq, empty, not_false_eq_true, decide_true, ↓reduceIte,
          Option.elim_some]
        have room : release.footer.dictOffset + release.footer.dictSize ≤
            release.bytes.length := by
          rw [release.length_bytes, carried, Option.getD_some]
          omega
        have wrote := holds.write room
        rw [release.slice_dict carried] at wrote
        apply wrote.weaken
        intro i either
        rcases either with before | some
        · exact Or.inl before
        · rcases some with ⟨dict, same, inside⟩
          rw [← Option.some.inj same, ← size] at inside
          exact Or.inr inside

/-- Delta assembly reproduces the release: whatever the running package holds, a plan written to
its end leaves the release's own bytes. -/
theorem assembled_eq_release {crates : Crates} (release : Release crates) (running : PackageData)
    (src : RangeSource) (staged : Bytes) (honest : Honest src release.bytes)
    (apart : Set.InjOn crates.blake3 (hashable crates running.file release.bytes))
    (canonical : release.footer.flags.stored = false → Canonical crates running.file release)
    (plan : Plan) (planned : planBlocks running release.remote src = some plan) (written : Staged)
    (wrote : writePlan crates staged running.file release.remote (coalesce plan) plan.dict src =
      some written) :
    written.bytes = release.bytes := by
  have plans := coalesce_plans release (planBlocks_plans release planned)
  have dict : plan.dict = release.codecDict := planBlocks_dict release honest planned
  have sameDict : (coalesce plan).dict = release.codecDict := dict
  have known : (coalesce plan).known = none := plans.known
  rcases Option.bind_eq_some_iff.mp wrote with ⟨⟨withPrefix, count⟩, prefixed, rest⟩
  rcases Option.bind_eq_some_iff.mp rest with ⟨copied, copies, rest⟩
  rcases Option.bind_eq_some_iff.mp rest with ⟨complete, fetches, rest⟩
  rcases Option.bind_eq_some_iff.mp rest with ⟨digested, digests, done⟩
  simp only [known, Option.elim_none, sameDict, dict] at copies
  rw [plans.digests, List.foldlM_nil] at digests
  have length := release.length_bytes
  have manifestEnd : release.footer.manifestOffset + release.manifestBytes.length =
      release.footer.payloadOffset := by
    rw [release.manifestPlaced, release.payloadPlaced]
  have manifestRoom : release.footer.manifestOffset + release.manifestBytes.length ≤
      release.bytes.length := by
    omega
  have footerRoom : release.bytes.length - footerSize + footerSize ≤ release.bytes.length := by
    omega
  -- one writer after the other, each adding the positions it is answerable for
  have sized : Holds release.bytes (fun _ => False) (setLen staged release.bytes.length) :=
    ⟨length_setLen _ _, fun _ none => none.elim⟩
  have afterPrefix := writePrefix_holds release honest apart sized
    (planBlocks_runtime release planned) prefixed
  have afterManifest := afterPrefix.write manifestRoom
  rw [release.slice_manifest] at afterManifest
  have afterDict := writeDict_holds release afterManifest
  have afterCopies := foldlM_writeGroup_holds release honest apart canonical plans.copies
    afterDict copies
  have afterFetches := foldlM_writeSpan_holds release honest afterCopies fetches
  have afterFooter := afterFetches.write footerRoom
  rw [release.slice_footer] at afterFooter
  rw [← Option.some.inj done, ← Option.some.inj digests]
  apply afterFooter.complete
  intro i inside
  by_cases inPrefix : i < release.footer.manifestOffset
  · exact Or.inl (Or.inl (Or.inl (Or.inl (Or.inl inPrefix))))
  · by_cases inManifest : i < release.footer.payloadOffset
    · have manifest : within release.footer.manifestOffset release.manifestBytes.length i :=
        ⟨by omega, by omega⟩
      exact Or.inl (Or.inl (Or.inl (Or.inl (Or.inr manifest))))
    · by_cases inPayload : i < release.footer.payloadOffset + release.footer.payloadSize
      · rcases plans.covered i ⟨by omega, inPayload⟩ with copied | fetched
        · exact Or.inl (Or.inl (Or.inr copied))
        · exact Or.inl (Or.inr fetched)
      · by_cases inDict : i < release.bytes.length - footerSize
        · have held : ∃ dict, release.dict = some dict ∧
              within release.footer.dictOffset dict.length i := by
            cases carried : release.dict with
            | none =>
                rw [carried, Option.getD_none, List.length_nil] at length
                omega
            | some bytes =>
                rw [carried, Option.getD_some] at length
                rcases release.dictPlaced bytes carried with ⟨_, offset⟩
                exact ⟨bytes, rfl, by omega, by omega⟩
          exact Or.inl (Or.inl (Or.inl (Or.inr held)))
        · exact Or.inr ⟨by omega, by omega⟩

/-! ### A release of three blocks -/

def numberedDigest (n : Nat) : Digest := ⟨leBytes 32 n, length_leBytes 32 n⟩

theorem numberedDigest_inj {m n : Nat} (first : m < 256 ^ 32) (second : n < 256 ^ 32)
    (same : numberedDigest m = numberedDigest n) : m = n := by
  have bytes : leBytes 32 m = leBytes 32 n := congrArg Digest.bytes same
  rw [← ofLeBytes_leBytes 32 m first, bytes, ofLeBytes_leBytes 32 n second]

/-- The hashes of the runs the example's assembly hashes. -/
def exampleHashes : List (Bytes × Nat) :=
  [([1, 1], 0x159095c7a662277ea686d4481aaae3d1f5624919d0839ecf74a71b579dec2220),
    ([1, 2, 3], 0x436549de42e7facb0ee6c6995b769bb21347d4e673d410703bfb6df21bec77b1),
    ([4, 5], 0x25c5d49283daea6aa95cc67b7e01f63cb618ccd8ca82a7a3a9f294aa2755805f),
    ([6, 1], 0xd3475fe3f1c85c32be7a9206fad91855f5c4187f3089a59710b271aec8e344ad),
    ([6, 2], 0xf92d6c03eefe9311e8eae8c805022550e7b92d976fd2b2d4204692afdfc9c545)]

/-- Any other run of small bytes, as a number of its own. -/
def numeral : Bytes → Nat
  | [] => 0
  | byte :: rest => 1 + byte.toNat + 7 * numeral rest

def hashNumber (bytes : Bytes) : Nat :=
  ((exampleHashes.find? fun entry => entry.1 = bytes).map Prod.snd).getD (numeral bytes)

def exampleCrates : Crates where
  blake3 bytes := numberedDigest (hashNumber bytes)
  xxh3 _ := 0
  decompress _ _ := none
  decompressWith _ _ _ := none

theorem numeral_pow_le {bytes : Bytes} (small : ∀ byte ∈ bytes, byte.toNat < 7) :
    6 * numeral bytes + 7 ≤ 7 ^ (bytes.length + 1) := by
  induction bytes with
  | nil => decide
  | cons byte rest ih =>
      have here := small byte List.mem_cons_self
      have later := ih fun other member => small other (List.mem_cons_of_mem _ member)
      rw [numeral, List.length_cons, Nat.pow_succ]
      omega

theorem numeral_bound {bytes : Bytes} (small : ∀ byte ∈ bytes, byte.toNat < 7)
    (short : bytes.length ≤ 86) : numeral bytes < 2 ^ 248 := by
  have bound : 7 ^ (bytes.length + 1) ≤ 7 ^ 87 := Nat.pow_le_pow_right (by decide) (by omega)
  have below : (7 : Nat) ^ 87 < 2 ^ 248 := by decide +kernel
  have most := numeral_pow_le small
  omega

theorem numeral_inj {left right : Bytes} (small : ∀ byte ∈ left, byte.toNat < 7)
    (small' : ∀ byte ∈ right, byte.toNat < 7) (same : numeral left = numeral right) :
    left = right := by
  induction left generalizing right with
  | nil =>
      cases right with
      | nil => rfl
      | cons byte rest => simp only [numeral] at same; omega
  | cons byte rest ih =>
      cases right with
      | nil => simp only [numeral] at same; omega
      | cons byte' rest' =>
          have here := small byte List.mem_cons_self
          have here' := small' byte' List.mem_cons_self
          simp only [numeral] at same
          have heads : byte = byte' := UInt8.toNat_inj.mp (by omega)
          have tails : rest = rest' :=
            ih (fun other member => small other (List.mem_cons_of_mem _ member))
              (fun other member => small' other (List.mem_cons_of_mem _ member)) (by omega)
          rw [heads, tails]

theorem hashNumber_inj {left right : Bytes} (small : ∀ byte ∈ left, byte.toNat < 7)
    (small' : ∀ byte ∈ right, byte.toNat < 7) (short : left.length ≤ 86)
    (short' : right.length ≤ 86) (same : hashNumber left = hashNumber right) : left = right := by
  have high : ∀ entry ∈ exampleHashes, 2 ^ 248 ≤ entry.2 := by decide +kernel
  have distinct : ∀ entry ∈ exampleHashes, ∀ other ∈ exampleHashes, entry.2 = other.2 →
      entry.1 = other.1 := by
    decide +kernel
  have listed {bytes : Bytes} {entry : Bytes × Nat}
      (found : (exampleHashes.find? fun entry => entry.1 = bytes) = some entry) :
      entry ∈ exampleHashes ∧ entry.1 = bytes :=
    ⟨List.mem_of_find?_eq_some found, by simpa using List.find?_some found⟩
  rw [hashNumber, hashNumber] at same
  cases first : exampleHashes.find? fun entry => entry.1 = left with
  | none =>
      cases second : exampleHashes.find? fun entry => entry.1 = right with
      | none =>
          rw [first, second] at same
          exact numeral_inj small small' same
      | some entry =>
          rw [first, second] at same
          have above := high entry (listed second).1
          have below := numeral_bound small short
          simp only [Option.map_none, Option.getD_none, Option.map_some, Option.getD_some] at same
          omega
  | some entry =>
      cases second : exampleHashes.find? fun entry => entry.1 = right with
      | none =>
          rw [first, second] at same
          have above := high entry (listed first).1
          have below := numeral_bound small' short'
          simp only [Option.map_none, Option.getD_none, Option.map_some, Option.getD_some] at same
          omega
      | some other =>
          rw [first, second] at same
          rw [← (listed first).2, ← (listed second).2]
          exact distinct entry (listed first).1 other (listed second).1 same

def exampleBlocks : List (Block × Bytes) :=
  [(⟨0, 3, 3, exampleCrates.blake3 [1, 2, 3]⟩, [1, 2, 3]),
    (⟨3, 2, 2, exampleCrates.blake3 [6, 1]⟩, [6, 1]),
    (⟨5, 2, 2, exampleCrates.blake3 [4, 5]⟩, [4, 5])]

def exampleManifest : Manifest where
  version := 3
  prefixHash := exampleCrates.blake3 [1, 1]
  entries := [⟨.file, exampleBlocks.map Prod.fst, exampleCrates.blake3 [1, 1]⟩]

def exampleRelease : Release exampleCrates where
  runtime := [1, 1]
  manifestBytes := [2]
  blocks := exampleBlocks
  dict := none
  footerBytes := List.replicate 76 3
  footer := ⟨⟨true, false, false⟩, 2, 1, 3, 7, 0, 0⟩
  manifest := exampleManifest
  prefixHashed := rfl
  manifestPlaced := rfl
  payloadPlaced := rfl
  payloadSized := rfl
  dictFlagged := rfl
  dictPlaced := by simp
  footerSized := rfl
  placed := by simp [exampleBlocks, Placed]
  named block := by simp [fileBlocks, exampleManifest]
  hashed _ := by
    intro entry member
    simp only [exampleBlocks, List.mem_cons, List.not_mem_nil, or_false] at member
    rcases member with same | same | same <;> rw [same]
  coded stored := by cases stored

/-- The running package: one block as the release has it, one that has rotted, one of its own. -/
def exampleRunning : PackageData where
  footer := ⟨⟨true, false, false⟩, 2, 1, 3, 7, 0, 0⟩
  manifest :=
    { version := 3
      prefixHash := exampleCrates.blake3 [1, 1]
      entries := [⟨.file, [⟨0, 3, 3, exampleCrates.blake3 [1, 2, 3]⟩,
        ⟨3, 2, 2, exampleCrates.blake3 [6, 1]⟩, ⟨5, 2, 2, exampleCrates.blake3 [2, 2]⟩],
        exampleCrates.blake3 [1, 1]⟩] }
  file := [1, 1] ++ [5] ++ [1, 2, 3] ++ [6, 2] ++ [2, 2] ++ List.replicate 76 4
  codec := .zstd none

def exampleSource : RangeSource := fun start len =>
  if start + len ≤ exampleRelease.bytes.length then some (slice exampleRelease.bytes start len)
  else none

theorem assembled_eq_release_of_example :
    ∃ plan written, planBlocks exampleRunning exampleRelease.remote exampleSource = some plan ∧
      writePlan exampleCrates [9] exampleRunning.file exampleRelease.remote (coalesce plan)
        plan.dict exampleSource = some written ∧
      written.bytes = exampleRelease.bytes := by
  have honest : Honest exampleSource exampleRelease.bytes := by
    intro start len bytes _ answered
    rw [exampleSource] at answered
    split at answered
    · next inside => exact ⟨inside, (Option.some.inj answered).symm⟩
    · cases answered
  have small : ∀ file, file = exampleRunning.file ∨ file = exampleRelease.bytes →
      (∀ byte ∈ file, byte.toNat < 7) ∧ file.length ≤ 86 := by
    intro file either
    rcases either with same | same <;> rw [same] <;> decide +kernel
  have undecoded (bytes : Bytes) (original : Nat) (dict : Option Bytes) :
      decodeBlock exampleCrates bytes original dict = none := by
    cases dict <;> rfl
  have runs : ∀ bytes ∈ hashable exampleCrates exampleRunning.file exampleRelease.bytes,
      (∀ byte ∈ bytes, byte.toNat < 7) ∧ bytes.length ≤ 86 := by
    intro bytes member
    rcases member with ⟨file, either, start, len, run | decoded⟩
    · have whole := small file either
      rw [run, slice]
      constructor
      · intro byte inside
        exact whole.1 byte (List.mem_of_mem_drop (List.mem_of_mem_take inside))
      · rw [List.length_take, List.length_drop]
        omega
    · rcases decoded with ⟨original, dict, decodes⟩
      rw [undecoded] at decodes
      cases decodes
  have bounded : ∀ bytes ∈ hashable exampleCrates exampleRunning.file exampleRelease.bytes,
      hashNumber bytes < 256 ^ 32 := by
    intro bytes member
    have run := runs bytes member
    have known : ∀ entry ∈ exampleHashes, entry.2 < 256 ^ 32 := by decide +kernel
    rw [hashNumber]
    cases found : exampleHashes.find? fun entry => entry.1 = bytes with
    | none =>
        have room : (2 : Nat) ^ 248 < 256 ^ 32 := by decide +kernel
        exact Nat.lt_trans (numeral_bound run.1 run.2) room
    | some entry => exact known entry (List.mem_of_find?_eq_some found)
  have apart : Set.InjOn exampleCrates.blake3
      (hashable exampleCrates exampleRunning.file exampleRelease.bytes) := by
    intro left first right second same
    have run := runs left first
    have run' := runs right second
    exact hashNumber_inj run.1 run'.1 run.2 run'.2
      (numberedDigest_inj (bounded left first) (bounded right second) same)
  have ran : ((planBlocks exampleRunning exampleRelease.remote exampleSource).bind fun plan =>
      writePlan exampleCrates [9] exampleRunning.file exampleRelease.remote (coalesce plan)
        plan.dict exampleSource).isSome = true := by
    decide +kernel
  rcases Option.isSome_iff_exists.mp ran with ⟨written, both⟩
  rcases Option.bind_eq_some_iff.mp both with ⟨plan, planned, wrote⟩
  exact ⟨plan, written, planned, wrote,
    assembled_eq_release exampleRelease exampleRunning exampleSource [9] honest apart
      (fun stored => by cases stored) plan planned written wrote⟩

end Onelf.Runtime.Update
