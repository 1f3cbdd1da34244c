import Mathlib.Data.List.Basic

/-! A window of a sequence that is kept as chunks laid end to end. -/

namespace Onelf.Lib

variable {α : Type}

/-- What the window from `off` to `stop` holds of a chunk that starts at `start`. -/
def overlap (off stop start : Nat) (chunk : List α) : List α :=
  (chunk.take (stop - start)).drop (off - start)

/-- The chunks follow one another from `first` on. -/
def Laid : Nat → List (Nat × List α) → Prop
  | _, [] => True
  | first, (start, chunk) :: placed => start = first ∧ Laid (first + chunk.length) placed

theorem overlap_before {off stop start : Nat} {chunk : List α}
    (before : start + chunk.length ≤ off) : overlap off stop start chunk = [] := by
  rw [overlap, List.drop_eq_nil_iff, List.length_take]
  omega

theorem overlap_after {off stop start : Nat} {chunk : List α} (after : stop ≤ start) :
    overlap off stop start chunk = [] := by
  rw [overlap, Nat.sub_eq_zero_of_le after, List.take_zero, List.drop_nil]

theorem overlap_append {off stop first : Nat} (chunk rest : List α) :
    overlap off stop first (chunk ++ rest) =
      overlap off stop first chunk ++ overlap off stop (first + chunk.length) rest := by
  simp only [overlap, List.take_append, List.drop_append, List.length_take, Nat.sub_sub]
  rcases Nat.le_total chunk.length (stop - first) with fits | short
  · rw [Nat.min_eq_right fits]
  · have none : stop - (first + chunk.length) = 0 := by omega
    simp [none]

/-- The window of the whole is what it holds of each chunk in turn. -/
theorem flatMap_overlap {off stop first : Nat} {placed : List (Nat × List α)}
    (laid : Laid first placed) :
    placed.flatMap (fun chunk => overlap off stop chunk.1 chunk.2) =
      overlap off stop first (placed.map Prod.snd).flatten := by
  induction placed generalizing first with
  | nil => simp [overlap]
  | cons chunk placed ih =>
      rcases chunk with ⟨start, chunk⟩
      rcases laid with ⟨same, rest⟩
      rw [List.flatMap_cons, ih rest, List.map_cons, List.flatten_cons, overlap_append, same]

/-- Chunks the window holds nothing of may be passed over. -/
theorem flatMap_filter_of_nil {β : Type} {keep : α → Bool} {give : α → List β} {items : List α}
    (skipped : ∀ item ∈ items, keep item = false → give item = []) :
    (items.filter keep).flatMap give = items.flatMap give := by
  induction items with
  | nil => rfl
  | cons item items ih =>
      have rest := ih fun other inside => skipped other (List.mem_cons_of_mem item inside)
      cases kept : keep item with
      | true => rw [List.filter_cons_of_pos kept, List.flatMap_cons, List.flatMap_cons, rest]
      | false =>
          rw [List.filter_cons_of_neg (by simp [kept]), rest, List.flatMap_cons,
            skipped item List.mem_cons_self kept, List.nil_append]

/-! ### Spans end to end -/

/-- Spans, an offset and a size that is not zero, lie end to end from `start` to `stop`. -/
def Tiles : Nat → List (Nat × Nat) → Nat → Prop
  | start, [], stop => start = stop
  | start, (offset, size) :: spans, stop =>
      offset = start ∧ 0 < size ∧ Tiles (start + size) spans stop

theorem Tiles.append {start middle stop : Nat} {left right : List (Nat × Nat)}
    (first : Tiles start left middle) (second : Tiles middle right stop) :
    Tiles start (left ++ right) stop := by
  induction left generalizing start with
  | nil => exact first ▸ second
  | cons span left ih =>
      obtain ⟨same, some, rest⟩ := first
      exact ⟨same, some, ih rest⟩

theorem Tiles.le {start stop : Nat} {spans : List (Nat × Nat)} (tiles : Tiles start spans stop) :
    start ≤ stop ∧ ∀ span ∈ spans, start ≤ span.1 ∧ span.1 + span.2 ≤ stop := by
  induction spans generalizing start with
  | nil => exact ⟨Nat.le_of_eq tiles, fun span member => absurd member List.not_mem_nil⟩
  | cons span spans ih =>
      obtain ⟨same, some, rest⟩ := tiles
      obtain ⟨ordered, inside⟩ := ih rest
      rw [List.forall_mem_cons]
      refine ⟨by omega, ⟨by omega, by omega⟩, ?_⟩
      intro other member
      have bounds := inside other member
      omega

/-- They are sorted by their offsets, no two alike. -/
theorem Tiles.sorted {start stop : Nat} {spans : List (Nat × Nat)} (tiles : Tiles start spans stop) :
    spans.Pairwise fun left right => left.1 + left.2 ≤ right.1 ∧ left.1 < right.1 := by
  induction spans generalizing start with
  | nil => exact .nil
  | cons span spans ih =>
      obtain ⟨same, some, rest⟩ := tiles
      rw [List.pairwise_cons]
      refine ⟨?_, ih rest⟩
      intro other member
      have bounds := rest.le.2 other member
      omega

end Onelf.Lib
