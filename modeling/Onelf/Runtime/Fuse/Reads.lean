import Mathlib.Algebra.GroupWithZero.Nat
import Onelf.Lib.Chunks
import Onelf.Runtime.Fuse.Sound

/-! Reads against the content of the file: what a reply holds, after any history. -/

namespace Onelf.Runtime.Fuse

open Onelf.Lib

variable {crates : Crates} {pkg : PackageData}

def claimedSize (blocks : List Block) : Nat := (blocks.map Block.originalSize).sum

theorem claimedSize_cons (block : Block) (blocks : List Block) :
    claimedSize (block :: blocks) = block.originalSize + claimedSize blocks := by
  rw [claimedSize, List.map_cons, List.sum_cons, claimedSize]

/-! ### Where the blocks lie -/

theorem foldl_saturatingAdd {blocks : List Block} {total : Nat}
    (fits : total + claimedSize blocks < u64Limit) :
    blocks.foldl (fun total block => saturatingAdd total block.originalSize) total =
      total + claimedSize blocks := by
  induction blocks generalizing total with
  | nil => rfl
  | cons block blocks ih =>
      rw [claimedSize_cons] at fits ⊢
      have here : saturatingAdd total block.originalSize = total + block.originalSize :=
        saturatingAdd_of_lt (by omega)
      rw [List.foldl_cons, here, ih (by omega), Nat.add_assoc]

theorem totalSize_eq {blocks : List Block} (fits : claimedSize blocks < u64Limit) :
    totalSize blocks = claimedSize blocks := by
  rw [totalSize, foldl_saturatingAdd (by omega), Nat.zero_add]

/-- What the spans of the blocks from `total` on keep to. -/
theorem spansFrom_cons {index total : Nat} {block : Block} {blocks : List Block}
    (fits : total + claimedSize (block :: blocks) < u64Limit) :
    spansFrom index total (block :: blocks) =
      ⟨index, total, block⟩ :: spansFrom (index + 1) (total + block.originalSize) blocks := by
  rw [claimedSize_cons] at fits
  rw [spansFrom, saturatingAdd_of_lt (by omega)]

theorem span_inside {index total : Nat} {blocks : List Block} {span : Span}
    (fits : total + claimedSize blocks < u64Limit) (inside : span ∈ spansFrom index total blocks) :
    total ≤ span.start ∧ span.start + span.block.originalSize ≤ total + claimedSize blocks := by
  induction blocks generalizing index total with
  | nil => cases inside
  | cons block blocks ih =>
      rw [spansFrom_cons fits] at inside
      rw [claimedSize_cons] at fits ⊢
      rcases List.mem_cons.mp inside with first | later
      · rw [first]
        exact ⟨le_refl total, by simp only; omega⟩
      · have rest := ih (by omega) later
        omega

/-- An offset inside the claimed size lies in some block. -/
theorem span_covers (index total : Nat) {offset : Nat} {blocks : List Block}
    (fits : total + claimedSize blocks < u64Limit) (from_ : total ≤ offset)
    (below : offset < total + claimedSize blocks) :
    ∃ span ∈ spansFrom index total blocks,
      span.start ≤ offset ∧ offset < span.start + span.block.originalSize := by
  induction blocks generalizing index total with
  | nil => exact absurd below (Nat.not_lt.mpr from_)
  | cons block blocks ih =>
      rw [spansFrom_cons fits]
      rw [claimedSize_cons] at fits below
      by_cases here : offset < total + block.originalSize
      · exact ⟨_, List.mem_cons_self, from_, here⟩
      · rcases ih (index + 1) (total + block.originalSize) (by omega) (by omega) (by omega)
          with ⟨span, inside, around⟩
        exact ⟨span, List.mem_cons_of_mem _ inside, around⟩

/-- No offset lies in two blocks. -/
theorem span_unique {index total offset : Nat} {blocks : List Block}
    (fits : total + claimedSize blocks < u64Limit) {span other : Span}
    (inside : span ∈ spansFrom index total blocks) (also : other ∈ spansFrom index total blocks)
    (first : span.start ≤ offset ∧ offset < span.start + span.block.originalSize)
    (second : other.start ≤ offset ∧ offset < other.start + other.block.originalSize) :
    span = other := by
  induction blocks generalizing index total with
  | nil => cases inside
  | cons block blocks ih =>
      rw [spansFrom_cons fits] at inside also
      rw [claimedSize_cons] at fits
      have later {late : Span}
          (behind : late ∈ spansFrom (index + 1) (total + block.originalSize) blocks) :
          total + block.originalSize ≤ late.start := (span_inside (by omega) behind).1
      rcases List.mem_cons.mp inside with one | one
      · rcases List.mem_cons.mp also with two | two
        · rw [one, two]
        · have start := later two
          rw [one] at first
          simp only at first
          omega
      · rcases List.mem_cons.mp also with two | two
        · have start := later one
          rw [two] at second
          simp only at second
          omega
        · exact ih (by omega) one two

theorem overlaps_iff {span : Span} {offset stop : Nat}
    (fits : span.start + span.block.originalSize < u64Limit) :
    span.overlaps offset stop = true ↔
      offset < span.start + span.block.originalSize ∧ span.start < stop := by
  rw [Span.overlaps, saturatingAdd_of_lt fits]
  simp

/-- Chunks of the claimed lengths lie end to end at the spans. -/
theorem laid_spansFrom {index total : Nat} {blocks : List Block} {hold : Span → Bytes}
    (fits : total + claimedSize blocks < u64Limit)
    (sized : ∀ span ∈ spansFrom index total blocks,
      (hold span).length = span.block.originalSize) :
    Laid total ((spansFrom index total blocks).map fun span => (span.start, hold span)) := by
  induction blocks generalizing index total with
  | nil => trivial
  | cons block blocks ih =>
      rw [spansFrom_cons fits] at sized ⊢
      rw [claimedSize_cons] at fits
      have here := sized _ List.mem_cons_self
      refine ⟨rfl, ?_⟩
      simp only at here
      rw [here]
      exact ih (by omega) fun span inside => sized span (List.mem_cons_of_mem _ inside)

theorem map_spansFrom (index total : Nat) {blocks : List Block} (content before : List Bytes)
    (counted : content.length = blocks.length) (at_ : before.length = index) :
    (spansFrom index total blocks).map (fun span => (before ++ content).getD span.index []) =
      content := by
  induction blocks generalizing index total before content with
  | nil => rw [List.eq_nil_of_length_eq_zero counted]; rfl
  | cons block blocks ih =>
      cases content with
      | nil => cases counted
      | cons bytes content =>
          have rest := ih (index + 1) (saturatingAdd total block.originalSize) content
            (before ++ [bytes]) (by simpa using counted) (by rw [List.length_append, at_]; rfl)
          rw [List.append_assoc, List.singleton_append] at rest
          rw [spansFrom, List.map_cons, rest, ← at_]
          simp

/-! ### The slices of a reply -/

theorem sliceRange_min {data : Bytes} {start stop : Nat} (ordered : start ≤ stop) :
    sliceRange data (min start data.length) (min stop data.length) =
      some ((data.take stop).drop start) := by
  have taken : data.take (min stop data.length) = data.take stop := by
    rw [List.take_eq_take_iff]
    omega
  rw [sliceRange, if_pos (by omega), taken]
  rcases Nat.le_total start data.length with inside | beyond
  · rw [Nat.min_eq_left inside]
  · have short : (data.take stop).length ≤ data.length := List.length_take_le' stop data
    rw [Nat.min_eq_right beyond, List.drop_eq_nil_of_le short,
      List.drop_eq_nil_of_le (short.trans beyond)]

theorem singlePayload_eq {span : Span} {data : Bytes} {offset stop : Nat}
    (from_ : span.start ≤ offset) (ordered : offset ≤ stop) (fits : stop < u64Limit) :
    singlePayload span data offset (wrappingSub stop offset) =
      some (overlap offset stop span.start data) := by
  rw [singlePayload, wrappingSub_of_le from_, wrappingSub_of_le ordered,
    saturatingAdd_of_lt (by omega)]
  rcases Nat.le_total (offset - span.start) data.length with inside | beyond
  · have whole : min (offset - span.start) data.length + (stop - offset) = stop - span.start := by
      omega
    rw [whole]
    exact sliceRange_min (by omega)
  · have empty : overlap offset stop span.start data = [] := overlap_before (by omega)
    rw [empty, Nat.min_eq_right beyond, Nat.min_eq_right (Nat.le_add_right _ _), sliceRange,
      if_pos ⟨le_refl _, le_refl _⟩, List.take_length, List.drop_length]

theorem gatherPayload_eq {span : Span} {data : Bytes} {offset stop : Nat}
    (before : span.start < stop) (ordered : offset ≤ stop)
    (small : span.start + data.length < u64Limit) :
    gatherPayload span data offset stop = some (overlap offset stop span.start data) := by
  have start : max offset span.start - span.start = offset - span.start := by omega
  have reach : min (min stop (span.start + data.length) - span.start) data.length =
      min (stop - span.start) data.length := by omega
  rw [gatherPayload, wrappingAdd_of_lt small, wrappingSub_of_le (by omega),
    wrappingSub_of_le (by omega), start, reach]
  exact sliceRange_min (by omega)

theorem gatherBlocks_eq {cache : BlockCache} {inode offset stop : Nat} {spans : List Span}
    {hold : Span → Bytes}
    (cached : ∀ span ∈ spans, cache.getBlock inode span.index = some (hold span))
    (ordered : offset ≤ stop)
    (placed : ∀ span ∈ spans, span.start < stop ∧ span.start + (hold span).length < u64Limit) :
    gatherBlocks cache inode offset stop spans =
      .ok (spans.map fun span => overlap offset stop span.start (hold span)) := by
  induction spans with
  | nil => rfl
  | cons span spans ih =>
      have here := placed span List.mem_cons_self
      have rest := ih (fun next inside => cached next (List.mem_cons_of_mem span inside))
        (fun next inside => placed next (List.mem_cons_of_mem span inside))
      rw [gatherBlocks, cached span List.mem_cons_self]
      simp only [gatherPayload_eq here.1 ordered here.2, rest, List.map_cons]

/-- The reply out of cached blocks: what the window holds of each, on the fast path as on the
gather path. -/
theorem replyBlocks_eq {cache : BlockCache} {inode offset stop : Nat} {needed : List Span}
    {hold : Span → Bytes}
    (cached : ∀ span ∈ needed, cache.getBlock inode span.index = some (hold span))
    (ordered : offset ≤ stop) (fits : stop < u64Limit)
    (placed : ∀ span ∈ needed, span.start < stop ∧ span.start + (hold span).length < u64Limit)
    (alone : ∀ span, needed = [span] → span.start ≤ offset) :
    replyBlocks cache inode offset stop needed =
      replyData (needed.map fun span => overlap offset stop span.start (hold span)) := by
  rw [replyBlocks.eq_def]
  split
  · next span =>
      rw [cached span List.mem_cons_self]
      simp only [singlePayload_eq (alone span rfl) ordered fits, List.map_cons, List.map_nil]
  · rw [gatherBlocks_eq cached ordered placed]

end Onelf.Runtime.Fuse
