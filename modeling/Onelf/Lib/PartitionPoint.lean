import Mathlib.Data.List.Pairwise
import Mathlib.Tactic.Linarith

/-! `slice::partition_point`: the binary search for where a predicate stops holding. -/

namespace Onelf.Lib

variable {α : Type} (pred : α → Bool) (items : List α)

/-- The window of `size` items from `base` narrowed to one. -/
def narrow : Nat → Nat → Nat → Nat
  | 0, base, _ => base
  | fuel + 1, base, size =>
      if size ≤ 1 then base
      else
        narrow fuel (if items[base + size / 2]?.any pred then base + size / 2 else base)
          (size - size / 2)

def partitionPoint : Nat :=
  if items = [] then 0
  else
    if items[narrow pred items items.length 0 items.length]?.any pred then
      narrow pred items items.length 0 items.length + 1
    else narrow pred items items.length 0 items.length

/-- `pred` holds of the first `point` items and of no other. -/
structure PartitionedAt (point : Nat) : Prop where
  inside : point ≤ items.length
  holds : ∀ i, i < items.length → (items[i]?.any pred = true ↔ i < point)

variable {pred items}

theorem narrow_keeps {point fuel base size : Nat} (parted : PartitionedAt pred items point)
    (enough : size ≤ fuel + 1) (some : 1 ≤ size) (window : base + size ≤ items.length)
    (low : base < point ∨ base = 0) (high : point ≤ base + size) :
    narrow pred items fuel base size < items.length ∧
      (narrow pred items fuel base size < point ∨ narrow pred items fuel base size = 0) ∧
        point ≤ narrow pred items fuel base size + 1 := by
  induction fuel generalizing base size with
  | zero =>
      have one : size = 1 := by omega
      rw [one] at window high
      exact ⟨window, low, high⟩
  | succ fuel ih =>
      rw [narrow]
      by_cases small : size ≤ 1
      · have one : size = 1 := by omega
        rw [one] at window high
        rw [if_pos small]
        exact ⟨window, low, high⟩
      · have middle : base + size / 2 < items.length := by omega
        have tells := parted.holds (base + size / 2) middle
        rw [if_neg small]
        by_cases held : items[base + size / 2]?.any pred = true
        · have below := tells.mp held
          rw [if_pos held]
          exact ih (by omega) (by omega) (by omega) (Or.inl below) (by omega)
        · have above : ¬base + size / 2 < point := fun below => held (tells.mpr below)
          rw [if_neg held]
          exact ih (by omega) (by omega) (by omega) low (by omega)

/-- On a partitioned list the search finds the point. -/
theorem partitionPoint_eq {point : Nat} (parted : PartitionedAt pred items point) :
    partitionPoint pred items = point := by
  have bound := parted.inside
  rw [partitionPoint]
  by_cases empty : items = []
  · rw [empty, List.length_nil] at bound
    rw [if_pos empty]
    omega
  · have some : 1 ≤ items.length := List.length_pos_iff.mpr empty
    have found := narrow_keeps parted (Nat.le_succ _) some (by omega) (Or.inr rfl) (by omega)
    rw [if_neg empty]
    have tells := parted.holds _ found.1
    by_cases held : items[narrow pred items items.length 0 items.length]?.any pred = true
    · have below := tells.mp held
      rw [if_pos held]
      omega
    · have above : ¬narrow pred items items.length 0 items.length < point :=
        fun below => held (tells.mpr below)
      rw [if_neg held]
      omega

/-- Along an ascending list a predicate that only ever stops holding partitions. -/
theorem partitionedAt_takeWhile {before : α → α → Prop} (sorted : items.Pairwise before)
    (stops : ∀ first second, before first second → pred second = true → pred first = true) :
    PartitionedAt pred items (items.takeWhile pred).length := by
  constructor
  · exact (List.takeWhile_sublist pred).length_le
  · induction items with
    | nil =>
        intro i inside
        exact absurd inside (Nat.not_lt_zero i)
    | cons first rest ih =>
        rw [List.pairwise_cons] at sorted
        intro i inside
        by_cases held : pred first = true
        · rw [List.takeWhile_cons_of_pos held, List.length_cons]
          cases i with
          | zero => simp [held]
          | succ i =>
              rw [List.length_cons, Nat.succ_lt_succ_iff] at inside
              rw [List.getElem?_cons_succ, Nat.succ_lt_succ_iff]
              exact ih sorted.2 i inside
        · rw [List.takeWhile_cons_of_neg held, List.length_nil]
          cases i with
          | zero => simp [held]
          | succ i =>
              rw [List.length_cons, Nat.succ_lt_succ_iff] at inside
              rw [List.getElem?_cons_succ, List.getElem?_eq_getElem inside]
              have later := sorted.1 _ (List.getElem_mem inside)
              have off : ¬pred rest[i] = true := fun on => held (stops _ _ later on)
              simp [off]

theorem getElem?_takeWhile_length : items[(items.takeWhile pred).length]? =
    items.find? fun item => !pred item := by
  induction items with
  | nil => rfl
  | cons first rest ih =>
      by_cases held : pred first = true
      · rw [List.takeWhile_cons_of_pos held, List.length_cons, List.getElem?_cons_succ, ih,
          List.find?_cons_of_neg (by simp [held])]
      · rw [List.takeWhile_cons_of_neg held, List.find?_cons_of_pos (by simp [held])]
        rfl

/-- What stands at the point is the first item that `pred` does not hold of. -/
theorem getElem?_partitionPoint {before : α → α → Prop} (sorted : items.Pairwise before)
    (stops : ∀ first second, before first second → pred second = true → pred first = true) :
    items[partitionPoint pred items]? = items.find? fun item => !pred item := by
  rw [partitionPoint_eq (partitionedAt_takeWhile sorted stops), getElem?_takeWhile_length]

end Onelf.Lib
