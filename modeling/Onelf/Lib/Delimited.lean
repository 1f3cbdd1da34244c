import Mathlib.Data.List.Basic
import Mathlib.Logic.Function.Basic
import Onelf.Lib.Text

/-! Self-delimiting renderings: texts that say themselves where they end, so that a sequence of
them can only be read one way. -/

namespace Onelf.Lib

variable {α β : Type}

/-- No text begins with the renderings of two values. -/
def Delimited (render : α → Bytes) : Prop :=
  ∀ left right rest rest', render left ++ rest = render right ++ rest' →
    left = right ∧ rest = rest'

theorem Delimited.injective {render : α → Bytes} (delimited : Delimited render) :
    Function.Injective render := fun left right same =>
  (delimited left right [] [] (by rw [same])).1

/-- Texts of which none begins another. -/
theorem Delimited.apart {render : α → Bytes}
    (apart : ∀ left right, render left <+: render right → left = right) : Delimited render := by
  intro left right rest rest' same
  have begins : render left <+: render right ++ rest' := ⟨rest, same⟩
  have values : left = right := by
    rcases List.prefix_or_prefix_of_prefix begins (List.prefix_append _ _) with shorter | longer
    · exact apart left right shorter
    · exact (apart right left longer).symm
  rw [values] at same
  exact ⟨values, List.append_cancel_left same⟩

/-- Two renderings in a row. -/
theorem Delimited.both {render : α → Bytes} {render' : β → Bytes} (first : Delimited render)
    (second : Delimited render') :
    Delimited fun pair : α × β => render pair.1 ++ render' pair.2 := by
  intro left right rest rest' same
  rw [List.append_assoc, List.append_assoc] at same
  rcases first _ _ _ _ same with ⟨heads, tail⟩
  rcases second _ _ _ _ tail with ⟨tails, beyond⟩
  exact ⟨Prod.ext heads tails, beyond⟩

theorem Delimited.congr {render render' : α → Bytes} (delimited : Delimited render)
    (same : ∀ value, render' value = render value) : Delimited render' := by
  rw [funext same]
  exact delimited

theorem Delimited.behind {render : α → Bytes} (delimited : Delimited render) (lead : Bytes) :
    Delimited fun value => lead ++ render value := by
  intro left right rest rest' same
  rw [List.append_assoc, List.append_assoc] at same
  exact delimited _ _ _ _ (List.append_cancel_left same)

theorem Delimited.before {render : α → Bytes} (delimited : Delimited render) (trail : Bytes) :
    Delimited fun value => render value ++ trail := by
  intro left right rest rest' same
  rw [List.append_assoc, List.append_assoc] at same
  rcases delimited _ _ _ _ same with ⟨values, beyond⟩
  exact ⟨values, List.append_cancel_left beyond⟩

/-- Renderings of one length. -/
theorem Delimited.fixed {render : α → Bytes} {width : Nat}
    (sized : ∀ value, (render value).length = width) (whole : Function.Injective render) :
    Delimited render := by
  intro left right rest rest' same
  rcases List.append_inj same (by rw [sized, sized]) with ⟨heads, tails⟩
  exact ⟨whole heads, tails⟩

theorem Delimited.decimal {mark : UInt8} (ends : isDigit mark = false) :
    Delimited fun n => Lib.decimal n ++ [mark] := by
  intro left right rest rest' same
  rw [List.append_assoc, List.append_assoc] at same
  exact decimal_append_inj ends same

/-- Raw bytes behind their length. -/
theorem Delimited.sized {mark : UInt8} (ends : isDigit mark = false) :
    Delimited fun bytes : Bytes => Lib.decimal bytes.length ++ [mark] ++ bytes := by
  intro left right rest rest' same
  have split (bytes beyond : Bytes) : Lib.decimal bytes.length ++ [mark] ++ bytes ++ beyond =
      Lib.decimal bytes.length ++ [mark] ++ (bytes ++ beyond) := List.append_assoc _ _ _
  rw [split left rest, split right rest'] at same
  rcases Delimited.decimal ends _ _ _ _ same with ⟨lengths, tail⟩
  exact List.append_inj tail lengths

/-- A value that may be absent, where the first byte tells. -/
theorem Delimited.option {render : α → Bytes} (delimited : Delimited render) {absent : Bytes}
    (told : ∀ value rest, (render value ++ rest).head? ≠ absent.head?)
    (marked : absent ≠ []) :
    Delimited fun value : Option α =>
      match value with
      | some value => render value
      | none => absent := by
  have apart (value : α) (rest rest' : Bytes) : render value ++ rest ≠ absent ++ rest' := by
    intro same
    apply told value rest
    rw [same, List.head?_append_of_ne_nil _ marked]
  intro left right rest rest' same
  cases left with
  | none =>
      cases right with
      | none => exact ⟨rfl, List.append_cancel_left same⟩
      | some value => exact absurd same.symm (apart value rest' rest)
  | some value =>
      cases right with
      | none => exact absurd same (apart value rest rest')
      | some other =>
          rcases delimited _ _ _ _ same with ⟨values, beyond⟩
          exact ⟨congrArg some values, beyond⟩

/-- As many values as are counted before them. -/
theorem Delimited.counted {render : α → Bytes} (delimited : Delimited render) {mark : UInt8}
    (ends : isDigit mark = false) :
    Delimited fun values : List α => Lib.decimal values.length ++ [mark] ++ values.flatMap render := by
  have list : ∀ (left right : List α) (rest rest' : Bytes), left.length = right.length →
      left.flatMap render ++ rest = right.flatMap render ++ rest' →
        left = right ∧ rest = rest' := by
    intro left
    induction left with
    | nil =>
        intro right rest rest' lengths same
        rw [List.eq_nil_of_length_eq_zero lengths.symm] at same ⊢
        exact ⟨rfl, same⟩
    | cons value left ih =>
        intro right rest rest' lengths same
        cases right with
        | nil => cases lengths
        | cons other right =>
            rw [List.flatMap_cons, List.flatMap_cons, List.append_assoc, List.append_assoc] at same
            rcases delimited _ _ _ _ same with ⟨heads, tail⟩
            rcases ih right rest rest' (Nat.succ.inj lengths) tail with ⟨tails, beyond⟩
            exact ⟨by rw [heads, tails], beyond⟩
  intro left right rest rest' same
  have split (values : List α) (beyond : Bytes) :
      Lib.decimal values.length ++ [mark] ++ values.flatMap render ++ beyond =
        Lib.decimal values.length ++ [mark] ++ (values.flatMap render ++ beyond) :=
    List.append_assoc _ _ _
  rw [split left rest, split right rest'] at same
  rcases Delimited.decimal ends _ _ _ _ same with ⟨lengths, tail⟩
  exact list left right rest rest' lengths tail

end Onelf.Lib
