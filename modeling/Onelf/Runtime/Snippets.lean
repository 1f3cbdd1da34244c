import Onelf.Lib.NaturalOrder

/-! The order in which carried configuration snippets are listed (`natural_cmp` of `env.rs`). -/

namespace Onelf.Runtime.Snippets

open Onelf.Lib

/-- The run of digits that starts where a cursor stands. -/
def digitRun (bytes : Bytes) : Bytes := bytes.takeWhile isDigit

/-- What lies past it. -/
def afterRun (bytes : Bytes) : Bytes := bytes.dropWhile isDigit

/-- Two runs past their leading zeros: by length, then by their digits. -/
def compareRuns (left right : Bytes) : Ordering :=
  let left := left.dropWhile (· = 48)
  let right := right.dropWhile (· = 48)
  (compare left.length right.length).then (compare left right)

/-- File-name order: runs of digits compare as numbers. Each argument is what one cursor has
left. -/
def naturalCmp : Bytes → Bytes → Ordering
  | first :: left, second :: right =>
      if isDigit first && isDigit second then
        match compareRuns (digitRun (first :: left)) (digitRun (second :: right)) with
        -- The first byte is of the run, which ends where the digits behind it do.
        | .eq => naturalCmp (afterRun left) (afterRun right)
        | order => order
      else if first = second then naturalCmp left right
      else compare first second
  | left, right => compare left.length right.length
termination_by left => left.length
decreasing_by
  · exact Nat.lt_succ_of_le (List.dropWhile_sublist _).length_le
  · exact Nat.lt_succ_self _

theorem compareRuns_eq {left right : Bytes} (first : ∀ digit ∈ left, isDigit digit = true)
    (second : ∀ digit ∈ right, isDigit digit = true) :
    compareRuns left right = compare (decimalValue left) (decimalValue right) := by
  have first' : ∀ digit ∈ left.dropWhile (· = 48), isDigit digit = true := fun digit member =>
    first digit ((List.dropWhile_sublist _).subset member)
  have second' : ∀ digit ∈ right.dropWhile (· = 48), isDigit digit = true := fun digit member =>
    second digit ((List.dropWhile_sublist _).subset member)
  have leads (digits : Bytes) : (digits.dropWhile (· = 48)).head? ≠ some 48 := by
    intro zero
    have stopped := List.head?_dropWhile_not (fun digit : UInt8 => decide (digit = 48)) digits
    rw [zero] at stopped
    cases stopped
  rw [compareRuns, ← decimalValue_dropWhile left, ← decimalValue_dropWhile right]
  rcases Nat.lt_trichotomy (left.dropWhile (· = 48)).length (right.dropWhile (· = 48)).length with
    shorter | same | longer
  · rw [Nat.compare_eq_lt.mpr shorter,
      Nat.compare_eq_lt.mpr (decimalValue_lt_of_length first' second' (leads right) shorter)]
    rfl
  · rw [compare_decimalValue first' second' same, same, Std.ReflOrd.compare_self]
    rfl
  · rw [Nat.compare_eq_gt.mpr longer,
      Nat.compare_eq_gt.mpr (decimalValue_lt_of_length second' first' (leads left) longer)]
    rfl

theorem lexemes_run {first : UInt8} (digit : isDigit first = true) (rest : Bytes) :
    lexemes (first :: rest) =
      .number (decimalValue (digitRun (first :: rest))) :: lexemes (afterRun rest) := by
  rw [lexemes_digit digit, List.dropWhile_cons_of_pos digit]
  rfl

theorem isDigit_digitRun (bytes : Bytes) : ∀ digit ∈ digitRun bytes, isDigit digit = true :=
  fun digit member => List.all_eq_true.mp List.all_takeWhile digit member

/-- Before or behind another byte all digits stand alike. -/
theorem compare_digit_other {digit other : UInt8} (first : isDigit digit = true)
    (second : isDigit other = false) : compare digit other = compare 48 other := by
  have bounds := digit_bounds first
  have outside : other.toNat < 48 ∨ 57 < other.toNat := by
    by_contra inside
    rw [isDigit, Bool.and_eq_false_iff, decide_eq_false_iff_not, decide_eq_false_iff_not,
      UInt8.le_iff_toNat_le, UInt8.le_iff_toNat_le] at second
    exact inside (second.imp Nat.lt_of_not_le Nat.lt_of_not_le)
  rcases outside with below | above
  · rw [Std.compare_eq_gt.mpr (UInt8.lt_iff_toNat_lt.mpr (by omega)),
      Std.compare_eq_gt.mpr (UInt8.lt_iff_toNat_lt.mpr below)]
  · rw [Std.compare_eq_lt.mpr (UInt8.lt_iff_toNat_lt.mpr (by omega)),
      Std.compare_eq_lt.mpr (UInt8.lt_iff_toNat_lt.mpr (Nat.lt_trans (by decide) above))]

theorem naturalCmp_nil_left (right : Bytes) : naturalCmp [] right = compare 0 right.length := by
  rw [naturalCmp]
  · rfl
  · exact fun _ _ _ _ absurd => nomatch absurd

theorem naturalCmp_nil_right (left : Bytes) : naturalCmp left [] = compare left.length 0 := by
  rw [naturalCmp]
  · rfl
  · exact fun _ _ _ _ _ absurd => nomatch absurd

theorem lexemes_cons (first : UInt8) (rest : Bytes) :
    ∃ lexeme later, lexemes (first :: rest) = lexeme :: later := by
  rw [lexemes]
  split
  · exact ⟨_, _, rfl⟩
  · exact ⟨_, _, rfl⟩

/-- The two cursors compare the texts lexeme by lexeme. -/
theorem naturalCmp_eq_compareLex (left right : Bytes) :
    naturalCmp left right = (lexemes left).compareLex Lexeme.order (lexemes right) := by
  induction left, right using naturalCmp.induct with
  | case1 first left second right digits equal ih =>
      rw [Bool.and_eq_true] at digits
      have runs := compareRuns_eq (isDigit_digitRun (first :: left))
        (isDigit_digitRun (second :: right))
      rw [naturalCmp, if_pos (by simpa using digits), equal, ih, lexemes_run digits.1,
        lexemes_run digits.2, List.compareLex_cons_cons, Lexeme.order, ← runs, equal]
      rfl
  | case2 first left second right digits apart =>
      rw [Bool.and_eq_true] at digits
      have runs := compareRuns_eq (isDigit_digitRun (first :: left))
        (isDigit_digitRun (second :: right))
      rw [naturalCmp, if_pos (by simpa using digits), lexemes_run digits.1, lexemes_run digits.2,
        List.compareLex_cons_cons, Lexeme.order, ← runs]
      cases held : compareRuns (digitRun (first :: left)) (digitRun (second :: right)) with
      | lt => rfl
      | eq => exact absurd held apart
      | gt => rfl
  | case3 left second right digits ih =>
      have other : isDigit second = false := by simpa using digits
      rw [naturalCmp, if_neg digits, if_pos rfl, ih, lexemes_byte other, lexemes_byte other,
        List.compareLex_cons_cons, Lexeme.order, Std.ReflOrd.compare_self]
      rfl
  | case4 first left second right digits apart =>
      have unequal : compare first second ≠ .eq := fun same =>
        apart (Std.LawfulEqOrd.eq_of_compare same)
      rw [naturalCmp, if_neg digits, if_neg apart]
      cases one : isDigit first with
      | false =>
          rw [lexemes_byte one]
          cases two : isDigit second with
          | false =>
              have heads : Lexeme.order (.byte first one) (.byte second two) ≠ .eq := unequal
              rw [lexemes_byte two, compareLex_of_ne heads, Lexeme.order]
          | true =>
              have swapped : compare first second = compare first 48 := by
                have around : compare first second = (compare second first).swap :=
                  Std.OrientedOrd.eq_swap
                rw [around, compare_digit_other two one, ← Std.OrientedOrd.eq_swap]
              rw [swapped] at unequal ⊢
              have heads : Lexeme.order (.byte first one)
                  (.number (decimalValue (digitRun (second :: right)))) ≠ .eq := unequal
              rw [lexemes_run two, compareLex_of_ne heads, Lexeme.order]
      | true =>
          have two : isDigit second = false := by simpa [one] using digits
          rw [compare_digit_other one two] at unequal ⊢
          have heads : Lexeme.order (.number (decimalValue (digitRun (first :: left))))
              (.byte second two) ≠ .eq := unequal
          rw [lexemes_run one, lexemes_byte two, compareLex_of_ne heads, Lexeme.order]
  | case5 left right short =>
      cases left with
      | nil =>
          cases right with
          | nil =>
              rw [naturalCmp_nil_left, lexemes]
              rfl
          | cons second right =>
              obtain ⟨lexeme, later, shape⟩ := lexemes_cons second right
              rw [naturalCmp_nil_left, lexemes, shape]
              rfl
      | cons first left =>
          cases right with
          | nil =>
              obtain ⟨lexeme, later, shape⟩ := lexemes_cons first left
              rw [naturalCmp_nil_right, lexemes, shape]
              rfl
          | cons second right => exact absurd rfl (short first left second right rfl)

/-- `natural_cmp` is a total preorder, that of their lexemes in turn. -/
theorem naturalCmp_total_preorder :
    (∀ text, naturalCmp text text = .eq) ∧ Std.TransCmp naturalCmp ∧
      ∀ left right,
        naturalCmp left right = (lexemes left).compareLex Lexeme.order (lexemes right) := by
  have same : naturalCmp = fun left right =>
      (lexemes left).compareLex Lexeme.order (lexemes right) := by
    funext left right
    exact naturalCmp_eq_compareLex left right
  have total : Std.TransCmp naturalCmp := by
    rw [same]
    exact transCmp_on lexemes
  exact ⟨fun text => Std.ReflCmp.compare_self, total, naturalCmp_eq_compareLex⟩

end Onelf.Runtime.Snippets
