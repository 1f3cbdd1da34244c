import Onelf.Lib.Rows

/-! Memory as little-endian words, and strings laid end to end below an address. -/

namespace Onelf.Lib

/-! ### Words -/

def words (width : Nat) : Nat → Bytes → List Nat
  | 0, _ => []
  | count + 1, bytes => ofLeBytes (bytes.take width) :: words width count (bytes.drop width)

def wordBytes (width : Nat) (values : List Nat) : Bytes := values.flatMap (leBytes width)

section
variable {width : Nat}

theorem wordBytes_cons (value : Nat) (values : List Nat) :
    wordBytes width (value :: values) = leBytes width value ++ wordBytes width values := rfl

theorem wordBytes_append (left right : List Nat) :
    wordBytes width (left ++ right) = wordBytes width left ++ wordBytes width right :=
  List.flatMap_append

theorem length_wordBytes (values : List Nat) :
    (wordBytes width values).length = values.length * width := by
  induction values with
  | nil => simp [wordBytes]
  | cons value values ih =>
      rw [wordBytes_cons, List.length_append, length_leBytes, ih, List.length_cons, Nat.succ_mul,
        Nat.add_comm]

theorem words_lt (count : Nat) (bytes : Bytes) :
    ∀ value ∈ words width count bytes, value < 256 ^ width := by
  induction count generalizing bytes with
  | zero => exact fun value member => absurd member List.not_mem_nil
  | succ count ih =>
      rw [words, List.forall_mem_cons]
      refine ⟨?_, ih _⟩
      calc ofLeBytes (bytes.take width)
          < 256 ^ (bytes.take width).length := ofLeBytes_lt _
        _ ≤ 256 ^ width := Nat.pow_le_pow_right (by decide) (List.length_take_le width bytes)

/-- Words are read back in front of anything. -/
theorem words_wordBytes {values : List Nat} (fit : ∀ value ∈ values, value < 256 ^ width)
    (count : Nat) (rest : Bytes) :
    words width (values.length + count) (wordBytes width values ++ rest) =
      values ++ words width count rest := by
  induction values with
  | nil => simp [wordBytes]
  | cons value values ih =>
      rw [List.forall_mem_cons] at fit
      have length : (leBytes width value).length = width := length_leBytes width value
      have front : (leBytes width value ++ (wordBytes width values ++ rest)).take width =
          leBytes width value := List.take_left' length
      have back : (leBytes width value ++ (wordBytes width values ++ rest)).drop width =
          wordBytes width values ++ rest := List.drop_left' length
      rw [List.length_cons, Nat.add_right_comm, wordBytes_cons, List.append_assoc, words, front, back,
        ih fit.2, ofLeBytes_leBytes width value fit.1]
      rfl

end

/-! ### Strings -/

/-- Where each string starts when they lie end to end, `after` bytes between the last and `top`. -/
def addresses (top after : Nat) : List Bytes → List Nat
  | [] => []
  | text :: texts => (top - ((text :: texts).flatten.length + after)) :: addresses top after texts

section
variable {top after : Nat}

@[simp] theorem length_addresses (texts : List Bytes) :
    (addresses top after texts).length = texts.length := by
  induction texts with
  | nil => rfl
  | cons text texts ih => rw [addresses, List.length_cons, List.length_cons, ih]

theorem addresses_append (left right : List Bytes) :
    addresses top after (left ++ right) =
      addresses top (right.flatten.length + after) left ++ addresses top after right := by
  induction left with
  | nil => rfl
  | cons text left ih =>
      rw [List.cons_append, addresses, addresses, ih, List.cons_append, List.flatten_cons,
        List.flatten_cons, List.flatten_append]
      simp only [List.length_append, Nat.add_assoc]

/-- Where a string lies in memory that starts at `base`. -/
def LiesAt (base : Nat) (memory : Bytes) (address : Nat) (text : Bytes) : Prop :=
  base ≤ address ∧ address - base + text.length ≤ memory.length ∧
    slice memory (address - base) text.length = text

/-- Strings at the end of memory lie at their addresses. -/
theorem addresses_lie {base : Nat} (front : Bytes) (texts : List Bytes) (back : Bytes)
    (ends : base + (front ++ texts.flatten ++ back).length = top) (same : back.length = after) :
    List.Forall₂ (LiesAt base (front ++ texts.flatten ++ back)) (addresses top after texts) texts := by
  induction texts generalizing front with
  | nil => exact .nil
  | cons text texts ih =>
      have moved : front ++ (text :: texts).flatten ++ back =
          front ++ text ++ texts.flatten ++ back := by
        rw [List.flatten_cons, ← List.append_assoc]
      rw [moved] at ends ⊢
      refine .cons ?_ (ih (front ++ text) ends)
      have place : top - ((text :: texts).flatten.length + after) = base + front.length := by
        simp only [List.length_append] at ends
        rw [List.flatten_cons, List.length_append]
        omega
      rw [place]
      refine ⟨Nat.le_add_right _ _, ?_, ?_⟩
      · simp only [List.length_append]
        omega
      · have inner : front ++ text ++ texts.flatten ++ back =
            front ++ (text ++ (texts.flatten ++ back)) := by
          simp only [List.append_assoc]
        rw [Nat.add_sub_cancel_left, inner, ← Nat.add_zero front.length, slice_append_right,
          slice_append_left (by omega), slice_all]

theorem le_of_mem_addresses {texts : List Bytes} (below : texts.flatten.length + after ≤ top)
    {placed : Nat × Bytes} (member : placed ∈ (addresses top after texts).zip texts) :
    top - (texts.flatten.length + after) ≤ placed.1 := by
  induction texts with
  | nil => cases member
  | cons text texts ih =>
      rw [List.flatten_cons, List.length_append] at below ⊢
      rw [addresses, List.zip_cons_cons, List.mem_cons] at member
      rcases member with same | later
      · rw [same, List.flatten_cons, List.length_append]
      · have bound := ih (by omega) later
        omega

/-- Each string ends at or before the start of every later one. -/
theorem addresses_apart {texts : List Bytes} (below : texts.flatten.length + after ≤ top) :
    ((addresses top after texts).zip texts).Pairwise fun left right =>
      left.1 + left.2.length ≤ right.1 := by
  induction texts with
  | nil => exact .nil
  | cons text texts ih =>
      rw [List.flatten_cons, List.length_append] at below
      rw [addresses, List.zip_cons_cons, List.pairwise_cons]
      refine ⟨?_, ih (by omega)⟩
      intro placed member
      have bound := le_of_mem_addresses (by omega) member
      rw [List.flatten_cons, List.length_append]
      dsimp only
      omega

end

end Onelf.Lib
