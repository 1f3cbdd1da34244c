import Mathlib.Data.List.Basic

/-! Text cut at a separator, rewritten piece by piece and put together again. -/

namespace Onelf.Lib

variable {α : Type}

/-! ### Pieces that keep their separator -/

/-- `str::split_inclusive` -/
def splitInclusive [DecidableEq α] (sep : α) : List α → List (List α)
  | [] => []
  | c :: text =>
      if c = sep then [c] :: splitInclusive sep text
      else match splitInclusive sep text with
        | [] => [[c]]
        | piece :: rest => (c :: piece) :: rest

/-- Pieces that end in the separator, the last one perhaps without it. -/
inductive Ruled (sep : α) : List (List α) → Prop
  | nil : Ruled sep []
  | last {body : List α} : sep ∉ body → body ≠ [] → Ruled sep [body]
  | cons {body : List α} {pieces : List (List α)} : sep ∉ body → Ruled sep pieces →
      Ruled sep ((body ++ [sep]) :: pieces)

variable {sep : α}

theorem Ruled.sublist {pieces fewer : List (List α)} (ruled : Ruled sep pieces)
    (sub : fewer.Sublist pieces) : Ruled sep fewer := by
  induction ruled generalizing fewer with
  | nil =>
      rw [List.sublist_nil.mp sub]
      exact .nil
  | last whole some =>
      cases sub with
      | cons _ rest =>
          rw [List.sublist_nil.mp rest]
          exact .nil
      | cons_cons _ rest =>
          rw [List.sublist_nil.mp rest]
          exact .last whole some
  | cons whole _ ih =>
      cases sub with
      | cons _ rest => exact ih rest
      | cons_cons _ rest => exact .cons whole (ih rest)

/-- What leaves each piece's end as it is leaves the pieces ruled. -/
theorem Ruled.map {pieces : List (List α)} (ruled : Ruled sep pieces) {f : List α → List α}
    (ended : ∀ body, sep ∉ body → body ++ [sep] ∈ pieces →
      ∃ body', sep ∉ body' ∧ f (body ++ [sep]) = body' ++ [sep])
    (last : ∀ body ∈ pieces, sep ∉ body → body ≠ [] → sep ∉ f body ∧ f body ≠ []) :
    Ruled sep (pieces.map f) := by
  induction ruled with
  | nil => exact .nil
  | last whole some =>
      obtain ⟨whole', some'⟩ := last _ List.mem_cons_self whole some
      exact .last whole' some'
  | @cons body pieces whole _ ih =>
      obtain ⟨body', whole', same⟩ := ended body whole List.mem_cons_self
      rw [List.map_cons, same]
      refine .cons whole' (ih ?_ ?_)
      · intro other plain member
        exact ended other plain (List.mem_cons_of_mem _ member)
      · intro other member
        exact last other (List.mem_cons_of_mem _ member)

/-! ### All pieces but the outer ones -/

/-- All but the last. -/
def mapInit (f : List α → List α) : List (List α) → List (List α)
  | [] => []
  | [last] => [last]
  | piece :: next :: rest => f piece :: mapInit f (next :: rest)

/-- All but the first and the last. -/
def mapInner (f : List α → List α) : List (List α) → List (List α)
  | [] => []
  | first :: rest => first :: mapInit f rest

variable {f : List α → List α}

theorem mapInit_cons {piece : List α} {rest : List (List α)} (some : rest ≠ []) :
    mapInit f (piece :: rest) = f piece :: mapInit f rest := by
  cases rest with
  | nil => exact absurd rfl some
  | cons next rest => rfl

theorem mapInit_ne_nil {pieces : List (List α)} (some : pieces ≠ []) : mapInit f pieces ≠ [] := by
  match pieces with
  | [] => exact absurd rfl some
  | [_] => exact List.cons_ne_nil _ _
  | _ :: _ :: _ => exact List.cons_ne_nil _ _

/-! ### Cutting and putting together -/

variable [DecidableEq α]

theorem ruled_splitInclusive (text : List α) : Ruled sep (splitInclusive sep text) := by
  induction text with
  | nil => exact .nil
  | cons c text ih =>
      rw [splitInclusive]
      split
      · next same =>
          rw [same]
          exact @Ruled.cons α sep [] _ List.not_mem_nil ih
      · next other =>
          generalize splitInclusive sep text = pieces at ih ⊢
          cases ih with
          | nil => exact .last (by simp [Ne.symm other]) (by simp)
          | last whole _ => exact .last (by simp [Ne.symm other, whole]) (by simp)
          | @cons body _ whole rest =>
              exact @Ruled.cons α sep (c :: body) _ (by simp [Ne.symm other, whole]) rest

theorem splitInclusive_append {body : List α} (whole : sep ∉ body) (text : List α) :
    splitInclusive sep (body ++ sep :: text) = (body ++ [sep]) :: splitInclusive sep text := by
  induction body with
  | nil => simp [splitInclusive]
  | cons c body ih =>
      rw [List.mem_cons, not_or] at whole
      rw [List.cons_append, splitInclusive, if_neg (Ne.symm whole.1), ih whole.2]
      rfl

theorem splitInclusive_last {body : List α} (whole : sep ∉ body) (some : body ≠ []) :
    splitInclusive sep body = [body] := by
  induction body with
  | nil => exact absurd rfl some
  | cons c body ih =>
      rw [List.mem_cons, not_or] at whole
      rw [splitInclusive, if_neg (Ne.symm whole.1)]
      cases body with
      | nil => rfl
      | cons next body => rw [ih whole.2 (List.cons_ne_nil next body)]

/-- Pieces put together come apart where they did. -/
theorem Ruled.splitInclusive_flatten {pieces : List (List α)} (ruled : Ruled sep pieces) :
    splitInclusive sep pieces.flatten = pieces := by
  induction ruled with
  | nil => rfl
  | last whole some => simpa using splitInclusive_last whole some
  | cons whole _ ih =>
      rw [List.flatten_cons, List.append_assoc, List.singleton_append, splitInclusive_append whole,
        ih]

/-! ### Pieces between two separators -/

/-- The pieces between two separators. -/
def piecesBetween (sep : α) (text : List α) : List (List α) := (text.splitOn sep).tail.dropLast

/-- What follows a separator, with what stands before the next ones rewritten. -/
def mapAfter (sep : α) (f : List α → List α) (text : List α) : List α :=
  [sep].intercalate (mapInit f (text.splitOn sep))

/-- `text` with what stands between two separators rewritten. -/
def mapBetween (sep : α) (f : List α → List α) (text : List α) : List α :=
  [sep].intercalate (mapInner f (text.splitOn sep))

theorem mapAfter_last {text : List α} (absent : sep ∉ text) : mapAfter sep f text = text := by
  rw [mapAfter, List.splitOn_eq_singleton absent, mapInit, List.intercalate_singleton]

theorem mapAfter_append {piece : List α} (absent : sep ∉ piece) (rest : List α) :
    mapAfter sep f (piece ++ sep :: rest) = f piece ++ sep :: mapAfter sep f rest := by
  have some := List.splitOn_ne_nil sep rest
  rw [mapAfter, List.splitOn_append_cons_self_of_not_mem absent, mapInit_cons some,
    List.intercalate_cons_of_ne_nil (mapInit_ne_nil some), mapAfter, List.append_assoc,
    List.singleton_append]

theorem mapBetween_last {text : List α} (absent : sep ∉ text) : mapBetween sep f text = text := by
  rw [mapBetween, List.splitOn_eq_singleton absent, mapInner, mapInit, List.intercalate_singleton]

theorem mapBetween_append {piece : List α} (absent : sep ∉ piece) (rest : List α) :
    mapBetween sep f (piece ++ sep :: rest) = piece ++ sep :: mapAfter sep f rest := by
  rw [mapBetween, List.splitOn_append_cons_self_of_not_mem absent, mapInner,
    List.intercalate_cons_of_ne_nil (mapInit_ne_nil (List.splitOn_ne_nil sep rest)), mapAfter,
    List.append_assoc, List.singleton_append]

/-- Text that does not begin with a piece to rewrite is read alike wherever it stands. -/
theorem mapAfter_eq_mapBetween {text : List α} (same : ∀ piece rest, sep ∉ piece →
    text = piece ++ sep :: rest → f piece = piece) :
    mapAfter sep f text = mapBetween sep f text := by
  by_cases member : sep ∈ text
  · obtain ⟨piece, rest, split, absent⟩ := List.eq_append_cons_of_mem member
    rw [split, mapAfter_append absent, mapBetween_append absent, same piece rest absent split]
  · rw [mapAfter_last member, mapBetween_last member]

theorem piecesBetween_last {text : List α} (absent : sep ∉ text) : piecesBetween sep text = [] := by
  rw [piecesBetween, List.splitOn_eq_singleton absent]
  rfl

/-- The pieces of what follows a separator that stand before another one. -/
def piecesBefore (sep : α) (text : List α) : List (List α) := (text.splitOn sep).dropLast

theorem piecesBefore_last {text : List α} (absent : sep ∉ text) : piecesBefore sep text = [] := by
  rw [piecesBefore, List.splitOn_eq_singleton absent]
  rfl

theorem piecesBefore_append {piece : List α} (absent : sep ∉ piece) (rest : List α) :
    piecesBefore sep (piece ++ sep :: rest) = piece :: piecesBefore sep rest := by
  rw [piecesBefore, List.splitOn_append_cons_self_of_not_mem absent,
    List.dropLast_cons_of_ne_nil (List.splitOn_ne_nil sep rest), piecesBefore]

theorem piecesBetween_append {piece : List α} (absent : sep ∉ piece) (rest : List α) :
    piecesBetween sep (piece ++ sep :: rest) = piecesBefore sep rest := by
  rw [piecesBetween, List.splitOn_append_cons_self_of_not_mem absent, List.tail_cons, piecesBefore]

/-- Induction over text, one separator at a time. -/
theorem pieces_induction {motive : List α → Prop} (last : ∀ text, sep ∉ text → motive text)
    (append : ∀ piece rest, sep ∉ piece → motive rest → motive (piece ++ sep :: rest))
    (text : List α) : motive text := by
  induction length : text.length using Nat.strongRecOn generalizing text with
  | _ n ih =>
      by_cases member : sep ∈ text
      · obtain ⟨piece, rest, split, absent⟩ := List.eq_append_cons_of_mem member
        have shorter : rest.length < n := by
          rw [← length, split, List.length_append, List.length_cons]
          omega
        rw [split]
        exact append piece rest absent (ih _ shorter rest rfl)
      · exact last text member

theorem not_mem_of_mem_piecesBefore {text piece : List α} (member : piece ∈ piecesBefore sep text) :
    sep ∉ piece := by
  induction text using @pieces_induction α sep with
  | last text absent =>
      rw [piecesBefore_last absent] at member
      cases member
  | append first rest absent ih =>
      rw [piecesBefore_append absent] at member
      rcases List.mem_cons.mp member with rfl | later
      · exact absent
      · exact ih later

theorem not_mem_of_mem_piecesBetween {text piece : List α} (member : piece ∈ piecesBetween sep text) :
    sep ∉ piece := by
  by_cases inside : sep ∈ text
  · obtain ⟨first, rest, split, absent⟩ := List.eq_append_cons_of_mem inside
    rw [split, piecesBetween_append absent] at member
    exact not_mem_of_mem_piecesBefore member
  · rw [piecesBetween_last inside] at member
    cases member

theorem mem_of_mem_piecesBefore {c : α} {text piece : List α}
    (member : piece ∈ piecesBefore sep text) (inside : c ∈ piece) : c ∈ text := by
  induction text using @pieces_induction α sep with
  | last text absent =>
      rw [piecesBefore_last absent] at member
      cases member
  | append first rest absent ih =>
      rw [piecesBefore_append absent] at member
      rcases List.mem_cons.mp member with rfl | later
      · exact List.mem_append_left _ inside
      · exact List.mem_append_right _ (List.mem_cons_of_mem _ (ih later))

theorem mem_of_mem_piecesBetween {c : α} {text piece : List α}
    (member : piece ∈ piecesBetween sep text) (inside : c ∈ piece) : c ∈ text := by
  by_cases cut : sep ∈ text
  · obtain ⟨first, rest, split, absent⟩ := List.eq_append_cons_of_mem cut
    rw [split, piecesBetween_append absent] at member
    rw [split]
    exact List.mem_append_right _ (List.mem_cons_of_mem _ (mem_of_mem_piecesBefore member inside))
  · rw [piecesBetween_last cut] at member
    cases member

theorem mem_mapAfter {c : α} {text : List α} (member : c ∈ mapAfter sep f text) :
    c ∈ text ∨ ∃ piece ∈ piecesBefore sep text, c ∈ f piece := by
  induction text using @pieces_induction α sep with
  | last text absent => exact Or.inl (mapAfter_last absent ▸ member)
  | append piece rest absent ih =>
      rw [mapAfter_append absent, List.mem_append, List.mem_cons] at member
      rw [piecesBefore_append absent, List.mem_append, List.mem_cons]
      rcases member with rewritten | rfl | later
      · exact Or.inr ⟨piece, List.mem_cons_self, rewritten⟩
      · exact Or.inl (Or.inr (Or.inl rfl))
      · rcases ih later with kept | ⟨other, listed, inside⟩
        · exact Or.inl (Or.inr (Or.inr kept))
        · exact Or.inr ⟨other, List.mem_cons_of_mem _ listed, inside⟩

theorem mem_mapBetween {c : α} {text : List α} (member : c ∈ mapBetween sep f text) :
    c ∈ text ∨ ∃ piece ∈ piecesBetween sep text, c ∈ f piece := by
  by_cases inside : sep ∈ text
  · obtain ⟨piece, rest, split, absent⟩ := List.eq_append_cons_of_mem inside
    rw [split, mapBetween_append absent, List.mem_append, List.mem_cons] at member
    rw [split, piecesBetween_append absent, List.mem_append, List.mem_cons]
    rcases member with kept | rfl | later
    · exact Or.inl (Or.inl kept)
    · exact Or.inl (Or.inr (Or.inl rfl))
    · rcases mem_mapAfter later with kept | rewritten
      · exact Or.inl (Or.inr (Or.inr kept))
      · exact Or.inr rewritten
  · exact Or.inl (mapBetween_last inside ▸ member)

/-- What stands behind the last separator stays. -/
theorem mapAfter_tail {tail : List α} (absent : sep ∉ tail) (text : List α) :
    mapAfter sep f (text ++ tail) = mapAfter sep f text ++ tail := by
  induction text using @pieces_induction α sep with
  | last text whole =>
      rw [mapAfter_last whole, mapAfter_last (by simp [whole, absent])]
  | append piece rest whole ih =>
      rw [List.append_assoc, List.cons_append, mapAfter_append whole, mapAfter_append whole, ih,
        List.append_assoc, List.cons_append]

theorem mapBetween_tail {tail : List α} (absent : sep ∉ tail) (text : List α) :
    mapBetween sep f (text ++ tail) = mapBetween sep f text ++ tail := by
  by_cases inside : sep ∈ text
  · obtain ⟨piece, rest, split, whole⟩ := List.eq_append_cons_of_mem inside
    rw [split, List.append_assoc, List.cons_append, mapBetween_append whole,
      mapBetween_append whole, mapAfter_tail absent, List.append_assoc, List.cons_append]
  · rw [mapBetween_last inside, mapBetween_last (by simp [inside, absent])]

theorem mapAfter_mapAfter {text : List α}
    (settled : ∀ piece ∈ piecesBefore sep text, sep ∉ f piece ∧ f (f piece) = f piece) :
    mapAfter sep f (mapAfter sep f text) = mapAfter sep f text := by
  induction text using @pieces_induction α sep with
  | last text absent => rw [mapAfter_last absent, mapAfter_last absent]
  | append piece rest absent ih =>
      rw [piecesBefore_append absent, List.forall_mem_cons] at settled
      rw [mapAfter_append absent, mapAfter_append settled.1.1, settled.1.2, ih settled.2]

/-- Pieces that are settled once rewritten are not rewritten again. -/
theorem mapBetween_mapBetween {text : List α}
    (settled : ∀ piece ∈ piecesBetween sep text, sep ∉ f piece ∧ f (f piece) = f piece) :
    mapBetween sep f (mapBetween sep f text) = mapBetween sep f text := by
  by_cases inside : sep ∈ text
  · obtain ⟨piece, rest, split, absent⟩ := List.eq_append_cons_of_mem inside
    rw [split, piecesBetween_append absent] at settled
    rw [split, mapBetween_append absent, mapBetween_append absent, mapAfter_mapAfter settled]
  · rw [mapBetween_last inside, mapBetween_last inside]

theorem mapBetween_ne_nil {text : List α} (some : text ≠ []) : mapBetween sep f text ≠ [] := by
  by_cases inside : sep ∈ text
  · obtain ⟨piece, rest, split, absent⟩ := List.eq_append_cons_of_mem inside
    rw [split, mapBetween_append absent]
    exact List.append_ne_nil_of_right_ne_nil _ (List.cons_ne_nil _ _)
  · rwa [mapBetween_last inside]

end Onelf.Lib
