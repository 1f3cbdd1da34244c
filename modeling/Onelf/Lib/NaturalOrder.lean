import Onelf.Lib.Text

/-! Texts compared piece by piece, a whole run of digits as one number. -/

namespace Onelf.Lib

/-! ### Numerals -/

theorem foldl_pushDigit (digits : Bytes) (start : Nat) :
    digits.foldl pushDigit start = start * 10 ^ digits.length + decimalValue digits := by
  induction digits generalizing start with
  | nil => simp [decimalValue]
  | cons digit digits ih =>
      have whole : decimalValue (digit :: digits) = digits.foldl pushDigit (pushDigit 0 digit) :=
        rfl
      rw [whole, List.foldl_cons, ih, ih, pushDigit, pushDigit, List.length_cons]
      ring

theorem decimalValue_cons (digit : UInt8) (digits : Bytes) :
    decimalValue (digit :: digits) =
      (digit.toNat - 48) * 10 ^ digits.length + decimalValue digits := by
  have whole : decimalValue (digit :: digits) = digits.foldl pushDigit (pushDigit 0 digit) := rfl
  rw [whole, foldl_pushDigit, pushDigit, Nat.zero_mul, Nat.zero_add]

theorem digit_bounds {digit : UInt8} (decimal : isDigit digit = true) :
    48 ≤ digit.toNat ∧ digit.toNat ≤ 57 := by
  simpa [isDigit, UInt8.le_iff_toNat_le] using decimal

theorem decimalValue_lt {digits : Bytes} (decimal : ∀ digit ∈ digits, isDigit digit = true) :
    decimalValue digits < 10 ^ digits.length := by
  induction digits with
  | nil => exact Nat.one_pos
  | cons digit digits ih =>
      obtain ⟨here, rest⟩ := List.forall_mem_cons.mp decimal
      have small : digit.toNat - 48 + 1 ≤ 10 := by
        have bounds := digit_bounds here
        omega
      have below := ih rest
      rw [decimalValue_cons, List.length_cons, Nat.pow_succ, Nat.mul_comm _ 10]
      calc
        _ < (digit.toNat - 48) * 10 ^ digits.length + 10 ^ digits.length :=
          Nat.add_lt_add_left below _
        _ = (digit.toNat - 48 + 1) * 10 ^ digits.length := (Nat.succ_mul _ _).symm
        _ ≤ 10 * 10 ^ digits.length := Nat.mul_le_mul_right _ small

/-- Leading zeros count for nothing. -/
theorem decimalValue_dropWhile (digits : Bytes) :
    decimalValue (digits.dropWhile (· = 48)) = decimalValue digits := by
  induction digits with
  | nil => rfl
  | cons digit digits ih =>
      by_cases zero : digit = 48
      · rw [List.dropWhile_cons_of_pos (by simpa using zero), ih, decimalValue_cons, zero]
        simp
      · rw [List.dropWhile_cons_of_neg (by simpa using zero)]

/-- Numerals of one length compare as their digits do. -/
theorem compare_decimalValue {left right : Bytes}
    (first : ∀ digit ∈ left, isDigit digit = true) (second : ∀ digit ∈ right, isDigit digit = true)
    (length : left.length = right.length) :
    compare (decimalValue left) (decimalValue right) = compare left right := by
  induction left generalizing right with
  | nil =>
      rw [List.eq_nil_of_length_eq_zero length.symm]
      rfl
  | cons digit left ih =>
      cases right with
      | nil => cases length
      | cons other right =>
          obtain ⟨here, above⟩ := List.forall_mem_cons.mp first
          obtain ⟨there, below⟩ := List.forall_mem_cons.mp second
          have tail := ih above below (Nat.succ.inj length)
          have short := decimalValue_lt above
          have shortOther := decimalValue_lt below
          have bounds := digit_bounds here
          have bounds' := digit_bounds there
          rw [Nat.succ.inj length] at short
          rw [List.compare_cons_cons, decimalValue_cons, decimalValue_cons, Nat.succ.inj length]
          rcases Nat.lt_trichotomy digit.toNat other.toNat with less | same | more
          · have order : compare digit other = .lt :=
              Std.compare_eq_lt.mpr (UInt8.lt_iff_toNat_lt.mpr less)
            have step : (digit.toNat - 48 + 1) * 10 ^ right.length ≤
                (other.toNat - 48) * 10 ^ right.length := Nat.mul_le_mul_right _ (by omega)
            rw [Nat.succ_mul] at step
            rw [order, Nat.compare_eq_lt.mpr (by omega)]
            rfl
          · rw [UInt8.toNat_inj.mp same, Std.ReflOrd.compare_self, ← tail]
            rcases Nat.lt_trichotomy (decimalValue left) (decimalValue right) with
              less | even | more
            · rw [Nat.compare_eq_lt.mpr less, Nat.compare_eq_lt.mpr (by omega)]
              rfl
            · rw [even, Std.ReflOrd.compare_self, Std.ReflOrd.compare_self]
              rfl
            · rw [Nat.compare_eq_gt.mpr more, Nat.compare_eq_gt.mpr (by omega)]
              rfl
          · have order : compare digit other = .gt :=
              Std.compare_eq_gt.mpr (UInt8.lt_iff_toNat_lt.mpr more)
            have step : (other.toNat - 48 + 1) * 10 ^ right.length ≤
                (digit.toNat - 48) * 10 ^ right.length := Nat.mul_le_mul_right _ (by omega)
            rw [Nat.succ_mul] at step
            rw [order, Nat.compare_eq_gt.mpr (by omega)]
            rfl

/-- A numeral without leading zeros is less than a longer one. -/
theorem decimalValue_lt_of_length {left right : Bytes}
    (first : ∀ digit ∈ left, isDigit digit = true) (second : ∀ digit ∈ right, isDigit digit = true)
    (leads : right.head? ≠ some 48) (longer : left.length < right.length) :
    decimalValue left < decimalValue right := by
  cases right with
  | nil => cases longer
  | cons digit right =>
      have bounds := digit_bounds (second digit List.mem_cons_self)
      have positive : 1 ≤ digit.toNat - 48 := by
        have nonzero : digit.toNat ≠ 48 := by
          intro zero
          apply leads
          rw [List.head?_cons, UInt8.toNat_inj.mp (show digit.toNat = (48 : UInt8).toNat from zero)]
        omega
      rw [decimalValue_cons]
      calc
        _ < 10 ^ left.length := decimalValue_lt first
        _ ≤ 10 ^ right.length := Nat.pow_le_pow_right (by decide) (Nat.le_of_lt_succ longer)
        _ = 1 * 10 ^ right.length := (Nat.one_mul _).symm
        _ ≤ (digit.toNat - 48) * 10 ^ right.length := Nat.mul_le_mul_right _ positive
        _ ≤ _ := Nat.le_add_right _ _

/-! ### Lexemes -/

/-- What a text is compared by: a run of digits, or a byte that is no digit. -/
inductive Lexeme where
  | number (value : Nat)
  | byte (value : UInt8) (other : isDigit value = false)

namespace Lexeme

/-- Numbers by their value, bytes as they are; before or behind another byte a number stands where
a digit does. -/
def order : Lexeme → Lexeme → Ordering
  | number left, number right => compare left right
  | number _, byte right _ => compare 48 right
  | byte left _, number _ => compare left 48
  | byte left _, byte right _ => compare left right

/-- Where a lexeme stands among the bytes. -/
def kind : Lexeme → UInt8
  | number _ => 48
  | byte value _ => value

def value : Lexeme → Nat
  | number value => value
  | byte _ _ => 0

theorem order_eq : order = compareLex (compareOn kind) (compareOn value) := by
  funext left right
  cases left with
  | number left =>
      cases right with
      | number right => rfl
      | byte right other =>
          have apart : compare 48 right ≠ .eq := by
            intro same
            rw [← Std.LawfulEqOrd.eq_of_compare same] at other
            cases other
          rw [order, compareLex, compareOn, compareOn, kind, kind]
          cases held : compare 48 right with
          | lt => rfl
          | eq => exact absurd held apart
          | gt => rfl
  | byte left other =>
      cases right with
      | number right =>
          have apart : compare left 48 ≠ .eq := by
            intro same
            rw [Std.LawfulEqOrd.eq_of_compare same] at other
            cases other
          rw [order, compareLex, compareOn, compareOn, kind, kind]
          cases held : compare left 48 with
          | lt => rfl
          | eq => exact absurd held apart
          | gt => rfl
      | byte right _ =>
          rw [order, compareLex, compareOn, compareOn, kind, kind]
          cases compare left right <;> rfl

instance : Std.TransCmp order := by
  rw [order_eq]
  infer_instance

end Lexeme

/-- The lexemes of a text, each maximal run of digits one number. -/
def lexemes : Bytes → List Lexeme
  | [] => []
  | first :: rest =>
      if digit : isDigit first then
        .number (decimalValue ((first :: rest).takeWhile isDigit)) ::
          lexemes ((first :: rest).dropWhile isDigit)
      else .byte first (Bool.eq_false_iff.mpr digit) :: lexemes rest
termination_by text => text.length
decreasing_by
  · rw [List.dropWhile_cons_of_pos digit]
    exact Nat.lt_succ_of_le (List.dropWhile_sublist _).length_le
  · exact Nat.lt_succ_self _

theorem lexemes_digit {first : UInt8} (digit : isDigit first = true) (rest : Bytes) :
    lexemes (first :: rest) = .number (decimalValue ((first :: rest).takeWhile isDigit)) ::
      lexemes ((first :: rest).dropWhile isDigit) := by
  rw [lexemes, dif_pos digit]

theorem lexemes_byte {first : UInt8} (other : isDigit first = false) (rest : Bytes) :
    lexemes (first :: rest) = .byte first other :: lexemes rest := by
  rw [lexemes, dif_neg (Bool.eq_false_iff.mp other)]

theorem compareLex_of_ne {α : Type} {cmp : α → α → Ordering} {first second : α}
    {left right : List α} (apart : cmp first second ≠ .eq) :
    (first :: left).compareLex cmp (second :: right) = cmp first second := by
  rw [List.compareLex_cons_cons]
  cases held : cmp first second with
  | lt => rfl
  | eq => exact absurd held apart
  | gt => rfl

/-- What two values are compared by orders them as it is ordered itself. -/
theorem transCmp_on {α β : Type} {cmp : β → β → Ordering} [total : Std.TransCmp cmp] (key : α → β) :
    Std.TransCmp fun left right => cmp (key left) (key right) where
  eq_swap := total.eq_swap
  isLE_trans := total.isLE_trans

end Onelf.Lib
