import Mathlib.Data.List.Nodup

/-! Runs of steps that each change a map at one name only: what a name holds at the end is what the
last step at that name left. -/

namespace Onelf.Lib

variable {κ ν ι : Type} (key : ι → κ) (step : (κ → ν) → ι → κ → ν)

/-- Each step leaves every name but its own as it was. -/
def OneName : Prop := ∀ (state : κ → ν) (item : ι) (name : κ), name ≠ key item →
  step state item name = state name

variable {key step}

theorem OneName.untouched (one : OneName key step) {items : List ι} {name : κ}
    (absent : ∀ item ∈ items, key item ≠ name) (state : κ → ν) :
    items.foldl step state name = state name := by
  induction items generalizing state with
  | nil => rfl
  | cons item items ih =>
      rw [List.forall_mem_cons] at absent
      rw [List.foldl_cons, ih absent.2]
      exact one state item name (Ne.symm absent.1)

theorem OneName.last (one : OneName key step) {before after : List ι} {item : ι}
    (absent : ∀ later ∈ after, key later ≠ key item) (state : κ → ν) :
    (before ++ item :: after).foldl step state (key item) =
      step (before.foldl step state) item (key item) := by
  rw [List.foldl_append, List.foldl_cons]
  exact one.untouched absent _

/-- A name that some item has is the name of a last one. -/
theorem exists_last [DecidableEq κ] {items : List ι} {name : κ}
    (present : ∃ item ∈ items, key item = name) :
    ∃ before item after, items = before ++ item :: after ∧ key item = name ∧
      ∀ later ∈ after, key later ≠ name := by
  induction items with
  | nil =>
      rcases present with ⟨item, member, -⟩
      cases member
  | cons item items ih =>
      by_cases later : ∃ item ∈ items, key item = name
      · rcases ih later with ⟨before, final, after, same, named, absent⟩
        exact ⟨item :: before, final, after, congrArg (item :: ·) same, named, absent⟩
      · rcases present with ⟨found, member, named⟩
        rcases List.mem_cons.mp member with same | behind
        · refine ⟨[], item, items, rfl, ?_, ?_⟩
          · rw [← same]
            exact named
          · intro other held equal
            exact later ⟨other, held, equal⟩
        · exact absurd ⟨found, behind, named⟩ later

/-- A run ends where it began exactly when the last step at each name leaves there what the run began
with. -/
theorem OneName.foldl_eq_iff [DecidableEq κ] (one : OneName key step) (items : List ι)
    (state : κ → ν) :
    items.foldl step state = state ↔ ∀ before item after, items = before ++ item :: after →
      (∀ later ∈ after, key later ≠ key item) →
        step (before.foldl step state) item (key item) = state (key item) := by
  constructor
  · intro same before item after split absent
    calc step (before.foldl step state) item (key item)
        = items.foldl step state (key item) := by rw [split, one.last absent]
      _ = state (key item) := by rw [same]
  · intro kept
    funext name
    by_cases present : ∃ item ∈ items, key item = name
    · rcases exists_last present with ⟨before, item, after, split, named, absent⟩
      rw [← named] at absent ⊢
      rw [split, one.last absent]
      exact kept before item after split absent
    · apply one.untouched
      intro item member named
      exact present ⟨item, member, named⟩

/-- Where no two items share a name, a run ends where it began exactly when every step, taken there,
changes nothing. -/
theorem OneName.foldl_eq_iff_of_nodup (one : OneName key step) {items : List ι}
    (distinct : (items.map key).Nodup) (state : κ → ν) :
    items.foldl step state = state ↔ ∀ item ∈ items, step state item = state := by
  induction items with
  | nil => exact ⟨fun _ _ member => absurd member List.not_mem_nil, fun _ => rfl⟩
  | cons item items ih =>
      rw [List.map_cons, List.nodup_cons] at distinct
      have absent : ∀ later ∈ items, key later ≠ key item := by
        intro later member same
        exact distinct.1 (List.mem_map.mpr ⟨later, member, same⟩)
      rw [List.foldl_cons, List.forall_mem_cons]
      constructor
      · intro same
        have first : step state item = state := by
          funext name
          by_cases own : name = key item
          · have ends := congrFun same (key item)
            rw [one.untouched absent] at ends
            rw [own]
            exact ends
          · exact one state item name own
        rw [first] at same
        exact ⟨first, (ih distinct.2).mp same⟩
      · intro quiet
        rw [quiet.1]
        exact (ih distinct.2).mpr quiet.2

end Onelf.Lib
