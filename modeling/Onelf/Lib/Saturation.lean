import Mathlib.Data.Finset.Card

/-! A set that a rule adds to, round after round, until a round adds nothing to its size. -/

namespace Onelf.Lib

section Saturation

variable {ν : Type} [DecidableEq ν]

/-- The rounds; `fuel` bounds their number. -/
def saturate (more : Finset ν → Finset ν) : Nat → Finset ν → Option (Finset ν)
  | 0, _ => none
  | fuel + 1, names =>
      if (names ∪ more names).card = names.card then some names
      else saturate more fuel (names ∪ more names)

variable {more : Finset ν → Finset ν} {names result bound : Finset ν} {fuel : Nat}

/-- The size says whether anything was added. -/
theorem union_card_eq_iff : (names ∪ more names).card = names.card ↔ more names ⊆ names := by
  constructor
  · intro same
    have whole : names = names ∪ more names :=
      Finset.eq_of_subset_of_card_le Finset.subset_union_left (Nat.le_of_eq same)
    exact Finset.union_eq_left.mp whole.symm
  · intro inside
    rw [Finset.union_eq_left.mpr inside]

/-- Within a finite set the rounds end. -/
theorem saturate_isSome (bounded : ∀ names ⊆ bound, more names ⊆ bound)
    (inside : names ⊆ bound) (enough : bound.card - names.card < fuel) :
    (saturate more fuel names).isSome = true := by
  induction fuel generalizing names with
  | zero => exact absurd enough (Nat.not_lt_zero _)
  | succ fuel ih =>
      rw [saturate]
      split
      · rfl
      · next other =>
          have within : names ∪ more names ⊆ bound :=
            Finset.union_subset inside (bounded names inside)
          have grows : names.card < (names ∪ more names).card :=
            Nat.lt_of_le_of_ne (Finset.card_le_card Finset.subset_union_left) (Ne.symm other)
          have most : (names ∪ more names).card ≤ bound.card := Finset.card_le_card within
          exact ih within (by omega)

/-- What a round preserves holds in the end. -/
theorem saturate_keeps {holds : Finset ν → Prop}
    (step : ∀ names, holds names → holds (names ∪ more names)) (first : holds names)
    (ended : saturate more fuel names = some result) : holds result := by
  induction fuel generalizing names with
  | zero => cases ended
  | succ fuel ih =>
      rw [saturate] at ended
      split at ended
      · cases ended
        exact first
      · exact ih (step names first) ended

/-- In the end the rule adds nothing. -/
theorem saturate_closed (ended : saturate more fuel names = some result) : more result ⊆ result := by
  induction fuel generalizing names with
  | zero => cases ended
  | succ fuel ih =>
      rw [saturate] at ended
      split at ended
      · next same =>
          cases ended
          exact union_card_eq_iff.mp same
      · exact ih ended

end Saturation

end Onelf.Lib
