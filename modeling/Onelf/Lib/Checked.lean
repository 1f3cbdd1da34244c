import Onelf.Lib.Checks
import Onelf.Lib.Text

/-! Machine arithmetic and slicing that can fail: a read of hostile bytes may be refused, may leave
the range of a `usize`, or may slice past the end. -/

namespace Onelf.Lib

/-- How a read ends early. -/
inductive Halt where
  | miss
  | overflow
  | outOfRange
  deriving DecidableEq

abbrev Checked := Except Halt

namespace Checked

variable {α β : Type}

/-- `?` on an option. -/
def orMiss : Option α → Checked α
  | some value => .ok value
  | none => .error .miss

def add (left right : Nat) : Checked Nat :=
  if left + right < usizeLimit then .ok (left + right) else .error .overflow

def mul (left right : Nat) : Checked Nat :=
  if left * right < usizeLimit then .ok (left * right) else .error .overflow

def sub (left right : Nat) : Checked Nat :=
  if right ≤ left then .ok (left - right) else .error .overflow

/-- `&bytes[..stop]`. -/
def upTo (bytes : Bytes) (stop : Nat) : Checked Bytes :=
  if stop ≤ bytes.length then .ok (bytes.take stop) else .error .outOfRange

/-- `&bytes[start..]`. -/
def after (bytes : Bytes) (start : Nat) : Checked Bytes :=
  if start ≤ bytes.length then .ok (bytes.drop start) else .error .outOfRange

/-- `bytes.get(start..)`. -/
def getFrom (bytes : Bytes) (start : Nat) : Option Bytes :=
  if start ≤ bytes.length then some (bytes.drop start) else none

def position (sep : UInt8) (bytes : Bytes) : Option Nat := bytes.findIdx? (· == sep)

/-! ### Their outcomes -/

@[simp] theorem orMiss_some (value : α) : orMiss (some value) = .ok value := rfl

@[simp] theorem orMiss_none : orMiss (none : Option α) = .error .miss := rfl

theorem orMiss_eq_ok {found : Option α} {value : α} : orMiss found = .ok value ↔ found = some value := by
  cases found with
  | none => simp
  | some other => simp

theorem orMiss_eq_error {found : Option α} {reason : Halt} :
    orMiss found = .error reason ↔ found = none ∧ reason = .miss := by
  cases found with
  | none => simp [eq_comm]
  | some other => simp

theorem bind_ok (value : α) (next : α → Checked β) : ((.ok value : Checked α) >>= next) = next value :=
  rfl

theorem bind_error (reason : Halt) (next : α → Checked β) :
    ((.error reason : Checked α) >>= next) = .error reason := rfl

theorem bind_eq_error {first : Checked α} {next : α → Checked β} {reason : Halt} :
    (first >>= next) = .error reason ↔
      first = .error reason ∨ ∃ value, first = .ok value ∧ next value = .error reason := by
  cases first with
  | error other => simp [bind_error]
  | ok value => simp [bind_ok]

theorem upTo_append (left right : Bytes) : upTo (left ++ right) left.length = .ok left := by
  rw [upTo, if_pos (by simp), List.take_left]

theorem position_eq_some {sep : UInt8} {bytes : Bytes} {place : Nat} :
    position sep bytes = some place ↔
      ∃ left right, splitOnce sep bytes = some (left, right) ∧ place = left.length := by
  constructor
  · intro found
    rcases List.findIdx?_eq_some_iff_getElem.mp found with ⟨inside, here, before⟩
    have split : bytes = bytes.take place ++ sep :: bytes.drop (place + 1) := by
      rw [← eq_of_beq here, List.getElem_cons_drop, List.take_append_drop]
    have absent : sep ∉ bytes.take place := by
      intro member
      rcases List.mem_iff_getElem.mp member with ⟨index, small, same⟩
      rw [List.length_take] at small
      have other := before index (by omega)
      rw [List.getElem_take] at same
      rw [same] at other
      exact other (beq_self_eq_true sep)
    refine ⟨_, _, splitOnce_eq_some.mpr ⟨absent, split⟩, ?_⟩
    rw [List.length_take]
    omega
  · intro shape
    rcases shape with ⟨left, right, split, rfl⟩
    rcases splitOnce_eq_some.mp split with ⟨absent, rfl⟩
    apply List.findIdx?_eq_some_iff_getElem.mpr
    refine ⟨by simp, by simp, fun index small => ?_⟩
    rw [List.getElem_append_left small]
    intro same
    exact absent (eq_of_beq same ▸ List.getElem_mem small)

theorem position_eq_none {sep : UInt8} {bytes : Bytes} (missing : splitOnce sep bytes = none) :
    position sep bytes = none := by
  cases found : position sep bytes with
  | none => rfl
  | some place =>
      rcases position_eq_some.mp found with ⟨left, right, split, _⟩
      rw [missing] at split
      cases split

theorem position_append {sep : UInt8} {left : Bytes} (absent : sep ∉ left) (right : Bytes) :
    position sep (left ++ sep :: right) = some left.length :=
  position_eq_some.mpr ⟨left, right, splitOnce_append absent right, rfl⟩

theorem after_mark (sep : UInt8) (left right : Bytes) :
    after (left ++ sep :: right) (left.length + 1) = .ok right := by
  have length : (left ++ [sep]).length = left.length + 1 := by simp
  have split : left ++ sep :: right = (left ++ [sep]) ++ right := by simp
  rw [after, if_pos (by simp), split, ← length, List.drop_left]

theorem getFrom_mark (sep : UInt8) (left right : Bytes) (count : Nat) :
    getFrom (left ++ sep :: right) (left.length + 1 + count) =
      if count ≤ right.length then some (right.drop count) else none := by
  have length : (left ++ [sep]).length = left.length + 1 := by simp
  have split : left ++ sep :: right = (left ++ [sep]) ++ right := by simp
  have inside : left.length + 1 + count ≤ (left ++ sep :: right).length ↔ count ≤ right.length := by
    rw [List.length_append, List.length_cons]
    omega
  simp only [getFrom, inside]
  rw [split, ← length, ← List.drop_drop, List.drop_left]

end Checked

end Onelf.Lib
