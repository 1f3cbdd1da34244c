import Mathlib.Data.List.Infix

/-! Replacing every occurrence of one text by another, from the left, and which texts that makes
equal. -/

namespace Onelf.Lib

variable {α : Type} [DecidableEq α]

/-- `text` with each occurrence of `old` replaced, from the left; `skip` bytes of an occurrence are
still to be passed over. -/
def replaceFrom (old new : List α) : Nat → List α → List α
  | _, [] => []
  | skip + 1, _ :: text => replaceFrom old new skip text
  | 0, first :: text =>
      if old <+: first :: text then new ++ replaceFrom old new (old.length - 1) text
      else first :: replaceFrom old new 0 text

def replaceAll (old new text : List α) : List α := replaceFrom old new 0 text

theorem replaceFrom_eq (old new : List α) (skip : Nat) (text : List α) :
    replaceFrom old new skip text = replaceAll old new (text.drop skip) := by
  induction text generalizing skip with
  | nil =>
      rw [List.drop_nil]
      cases skip with
      | zero => rfl
      | succ skip => rfl
  | cons first text ih =>
      cases skip with
      | zero => rfl
      | succ skip => exact ih skip

variable {old new : List α}

@[simp] theorem replaceAll_nil : replaceAll old new [] = [] := rfl

theorem replaceAll_append (some : old ≠ []) (text : List α) :
    replaceAll old new (old ++ text) = new ++ replaceAll old new text := by
  cases old with
  | nil => exact absurd rfl some
  | cons first old =>
      have begins : first :: old <+: first :: (old ++ text) := List.prefix_append (first :: old) text
      rw [List.cons_append, replaceAll, replaceFrom, if_pos begins, replaceFrom_eq,
        List.length_cons, Nat.add_sub_cancel, List.drop_left]

theorem replaceAll_cons {first : α} {text : List α} (plain : ¬old <+: first :: text) :
    replaceAll old new (first :: text) = first :: replaceAll old new text := by
  rw [replaceAll, replaceFrom, if_neg plain]
  rfl

/-- No occurrence of `old` begins inside `lead` in `lead ++ text`. -/
def Clear (old : List α) : List α → List α → Prop
  | [], _ => True
  | first :: lead, text => ¬old <+: first :: (lead ++ text) ∧ Clear old lead text

theorem replaceAll_clear {lead text : List α} (clear : Clear old lead text) :
    replaceAll old new (lead ++ text) = lead ++ replaceAll old new text := by
  induction lead with
  | nil => rfl
  | cons first lead ih =>
      rw [List.cons_append, replaceAll_cons clear.1, ih clear.2, List.cons_append]

/-- The texts agree except that where one has `old` the other may have `new` as it stands. -/
inductive Interchanged (old new : List α) : List α → List α → Prop where
  | nil : Interchanged old new [] []
  | same (first : α) {left right : List α} (plainLeft : ¬old <+: first :: left)
      (plainRight : ¬old <+: first :: right) (rest : Interchanged old new left right) :
      Interchanged old new (first :: left) (first :: right)
  | both {left right : List α} (rest : Interchanged old new left right) :
      Interchanged old new (old ++ left) (old ++ right)
  | left {left right : List α} (clear : Clear old new right)
      (rest : Interchanged old new left right) :
      Interchanged old new (old ++ left) (new ++ right)
  | right {left right : List α} (clear : Clear old new left)
      (rest : Interchanged old new left right) :
      Interchanged old new (new ++ left) (old ++ right)

theorem Interchanged.replaceAll_eq {left right : List α} (some : old ≠ [])
    (interchanged : Interchanged old new left right) :
    replaceAll old new left = replaceAll old new right := by
  induction interchanged with
  | nil => rfl
  | same first plainLeft plainRight _ ih =>
      rw [replaceAll_cons plainLeft, replaceAll_cons plainRight, ih]
  | both _ ih => rw [replaceAll_append some, replaceAll_append some, ih]
  | left clear _ ih => rw [replaceAll_append some, replaceAll_clear clear, ih]
  | right clear _ ih => rw [replaceAll_append some, replaceAll_clear clear, ih]

/-- What comes out as `lead`, none of it the first byte of `new`, stood there before. -/
theorem clear_of_replaceAll {first : α} {tail lead text rest : List α}
    (fresh : first ∉ lead) (some : old ≠ [])
    (out : replaceAll old (first :: tail) text = lead ++ rest) :
    ∃ after, text = lead ++ after ∧ Clear old lead after ∧
      replaceAll old (first :: tail) after = rest := by
  induction lead generalizing text with
  | nil => exact ⟨text, rfl, trivial, out⟩
  | cons head lead ih =>
      have other := not_or.mp (List.mem_cons.not.mp fresh)
      cases text with
      | nil => cases out
      | cons byte text =>
          by_cases begins : old <+: byte :: text
          · rcases begins with ⟨after, split⟩
            rw [← split, replaceAll_append some] at out
            exact absurd (List.cons.inj out).1 other.1
          · rw [replaceAll_cons begins] at out
            rcases List.cons.inj out with ⟨same, out⟩
            rcases ih other.2 out with ⟨after, split, clear, done⟩
            rw [same, split] at begins
            exact ⟨after, by rw [same, split, List.cons_append], ⟨begins, clear⟩, done⟩

/-- Replacing makes two texts equal exactly where one has `new` for `old` of the other, for a
replacement whose first byte does not come again in it. -/
theorem replaceAll_eq_iff {first : α} {tail : List α} (fresh : first ∉ tail) (some : old ≠ [])
    {left right : List α} :
    replaceAll old (first :: tail) left = replaceAll old (first :: tail) right ↔
      Interchanged old (first :: tail) left right := by
  refine ⟨fun same => ?_, Interchanged.replaceAll_eq some⟩
  -- One side begins with `old`, whose replacement the other has as it stands.
  have swapped {text after : List α} (plain : ¬old <+: text)
      (same : replaceAll old (first :: tail) text = first :: tail ++ replaceAll old (first :: tail) after) :
      ∃ behind, text = first :: tail ++ behind ∧ Clear old (first :: tail) behind ∧
        replaceAll old (first :: tail) behind = replaceAll old (first :: tail) after := by
    cases text with
    | nil => cases same
    | cons byte text =>
        rw [replaceAll_cons plain] at same
        rcases List.cons.inj same with ⟨heads, out⟩
        rcases clear_of_replaceAll fresh some out with ⟨behind, split, clear, done⟩
        rw [heads, split] at plain
        exact ⟨behind, by rw [heads, split, List.cons_append], ⟨plain, clear⟩, done⟩
  have shorter (after : List α) : after.length < (old ++ after).length := by
    have positive := List.length_pos_iff.mpr some
    rw [List.length_append]
    omega
  induction size : left.length + right.length using Nat.strong_induction_on generalizing left right with
  | _ total ih =>
      by_cases beginsLeft : old <+: left
      · rcases beginsLeft with ⟨left, rfl⟩
        have less := shorter left
        by_cases beginsRight : old <+: right
        · rcases beginsRight with ⟨right, rfl⟩
          have less' := shorter right
          rw [replaceAll_append some, replaceAll_append some] at same
          exact .both (ih _ (by omega) (List.append_cancel_left same) rfl)
        · rw [replaceAll_append some] at same
          rcases swapped beginsRight same.symm with ⟨behind, split, clear, done⟩
          have longer := congrArg List.length split
          rw [List.length_append] at longer
          rw [split]
          exact .left clear (ih _ (by omega) done.symm rfl)
      · by_cases beginsRight : old <+: right
        · rcases beginsRight with ⟨right, rfl⟩
          have less := shorter right
          rw [replaceAll_append some] at same
          rcases swapped beginsLeft same with ⟨behind, split, clear, done⟩
          have longer := congrArg List.length split
          rw [List.length_append] at longer
          rw [split]
          exact .right clear (ih _ (by omega) done rfl)
        · cases left with
          | nil =>
              cases right with
              | nil => exact .nil
              | cons byte right =>
                  rw [replaceAll_cons beginsRight] at same
                  cases same
          | cons byte left =>
              cases right with
              | nil =>
                  rw [replaceAll_cons beginsLeft] at same
                  cases same
              | cons other right =>
                  rw [replaceAll_cons beginsLeft, replaceAll_cons beginsRight] at same
                  rcases List.cons.inj same with ⟨heads, tails⟩
                  rw [← heads] at beginsRight ⊢
                  simp only [List.length_cons] at size
                  exact .same byte beginsLeft beginsRight (ih _ (by omega) tails rfl)

/-! ### How often, and how long -/

/-- How many occurrences `replaceFrom` replaces. -/
def occurrencesFrom (old : List α) : Nat → List α → Nat
  | _, [] => 0
  | skip + 1, _ :: text => occurrencesFrom old skip text
  | 0, first :: text =>
      if old <+: first :: text then occurrencesFrom old (old.length - 1) text + 1
      else occurrencesFrom old 0 text

def occurrences (old text : List α) : Nat := occurrencesFrom old 0 text

theorem occurrencesFrom_eq (old : List α) (skip : Nat) (text : List α) :
    occurrencesFrom old skip text = occurrences old (text.drop skip) := by
  induction text generalizing skip with
  | nil =>
      rw [List.drop_nil]
      cases skip with
      | zero => rfl
      | succ skip => rfl
  | cons first text ih =>
      cases skip with
      | zero => rfl
      | succ skip => exact ih skip

theorem occurrences_append (some : old ≠ []) (text : List α) :
    occurrences old (old ++ text) = occurrences old text + 1 := by
  cases old with
  | nil => exact absurd rfl some
  | cons first old =>
      have begins : first :: old <+: first :: (old ++ text) := List.prefix_append (first :: old) text
      rw [List.cons_append, occurrences, occurrencesFrom, if_pos begins, occurrencesFrom_eq,
        List.length_cons, Nat.add_sub_cancel, List.drop_left]

theorem occurrences_cons {first : α} {text : List α} (plain : ¬old <+: first :: text) :
    occurrences old (first :: text) = occurrences old text := by
  rw [occurrences, occurrencesFrom, if_neg plain]
  rfl

/-- Each occurrence takes its own length out and puts the replacement's in. -/
theorem length_replaceAll (some : old ≠ []) (new text : List α) :
    (replaceAll old new text).length + occurrences old text * old.length =
      text.length + occurrences old text * new.length := by
  induction size : text.length using Nat.strong_induction_on generalizing text with
  | _ total ih =>
      by_cases begins : old <+: text
      · rcases begins with ⟨behind, rfl⟩
        have positive := List.length_pos_iff.mpr some
        rw [List.length_append] at size
        have rest := ih behind.length (by omega) behind rfl
        rw [replaceAll_append some, occurrences_append some, List.length_append, Nat.add_mul,
          Nat.add_mul, ← size]
        omega
      · cases text with
        | nil =>
            have none : occurrences old [] = 0 := rfl
            rw [← size, none, replaceAll_nil, Nat.zero_mul, Nat.zero_mul]
        | cons first text =>
            rw [List.length_cons] at size
            have rest := ih text.length (by omega) text rfl
            rw [replaceAll_cons begins, occurrences_cons begins, List.length_cons]
            omega

theorem occurrences_mul_le (some : old ≠ []) (text : List α) :
    occurrences old text * old.length ≤ text.length := by
  have length := length_replaceAll some [] text
  rw [List.length_nil, Nat.mul_zero] at length
  omega

theorem occurrences_replicate (letter : α) (count : Nat) :
    occurrences [letter] (List.replicate count letter) = count := by
  induction count with
  | zero => rfl
  | succ count ih =>
      have front : List.replicate (count + 1) letter = [letter] ++ List.replicate count letter := rfl
      rw [front, occurrences_append (List.cons_ne_nil _ _), ih]

end Onelf.Lib
