import Mathlib.Data.Bool.AllAny
import Mathlib.Data.Char
import Mathlib.Data.List.DropRight
import Onelf.Lib.Utf8

/-! Strings by their characters: what Rust's `char` and `str` methods give. -/

namespace Onelf.Lib

abbrev Str := List Char

namespace Str

/-! ### Bytes -/

def encodeUtf8 (text : Str) : Bytes := text.flatMap String.utf8EncodeChar

/-- `String::from_utf8_lossy`. -/
def fromUtf8Lossy (bytes : Bytes) : Str :=
  ((lossy bytes).toByteArray.utf8Decode?.getD #[]).toList

section
open Utf8State

theorem toNat_ofNat {n : Nat} (small : n < 256) : (UInt8.ofNat n).toNat = n :=
  UInt8.toNat_ofNat_of_lt' small

/-- A byte in the range a state asks for takes it on. -/
theorem step_within {state next : Utf8State} (low high : UInt8) {n : Nat}
    (shape : ∀ byte, state.step byte = Utf8State.within low high byte next) (small : n < 256)
    (above : low.toNat ≤ n) (below : n ≤ high.toNat) :
    state.step (UInt8.ofNat n) = some next := by
  rw [shape, Utf8State.within, if_pos]
  rw [Bool.and_eq_true, decide_eq_true_eq, decide_eq_true_eq, UInt8.le_iff_toNat_le,
    UInt8.le_iff_toNat_le, toNat_ofNat small]
  exact ⟨above, below⟩

theorem lead_ofNat {n : Nat} (small : n < 256) : lead (UInt8.ofNat n) =
    if n < 128 then some start
    else if n < 194 then none
    else if n ≤ 223 then some last
    else if n = 224 then some afterE0
    else if n = 237 then some afterED
    else if n ≤ 239 then some two
    else if n = 240 then some afterF0
    else if n ≤ 243 then some three
    else if n = 244 then some afterF4
    else none := by
  simp only [lead, UInt8.lt_iff_toNat_lt, UInt8.le_iff_toNat_le, ← UInt8.toNat_inj,
    toNat_ofNat small]
  rfl

theorem trail {n : Nat} (short : n < 64) {state next : Utf8State}
    (shape : ∀ byte, state.step byte = Utf8State.within 0x80 0xBF byte next) :
    state.step (UInt8.ofNat (n + 128)) = some next :=
  step_within 0x80 0xBF shape (by omega) (by simp) (by simp; omega)

theorem run_utf8EncodeChar (c : Char) :
    Utf8State.start.run (String.utf8EncodeChar c) = some .start := by
  have valid : c.val.toNat < 55296 ∨ 57343 < c.val.toNat ∧ c.val.toNat < 1114112 := c.valid
  rw [String.utf8EncodeChar]
  generalize c.val.toNat = v at valid
  have small (n : Nat) : n % 64 < 64 := Nat.mod_lt n (by decide)
  have ends : last.step (UInt8.ofNat (v % 64 + 128)) = some start := trail (small v) fun _ => rfl
  have next : two.step (UInt8.ofNat (v / 64 % 64 + 128)) = some last :=
    trail (small _) fun _ => rfl
  split
  · rw [run_cons, step, lead_ofNat (by omega), if_pos (by omega)]
    rfl
  · split
    · rw [run_cons, step, lead_ofNat (by omega), if_neg (by omega), if_neg (by omega),
        if_pos (by omega), Option.bind_some, run_cons, ends]
      rfl
    · split
      · have lead : start.step (UInt8.ofNat (v / 4096 % 16 + 224)) = some (
            if v / 4096 = 0 then afterE0 else if v / 4096 = 13 then afterED else two) := by
          rw [step, lead_ofNat (by omega), if_neg (by omega), if_neg (by omega), if_neg (by omega)]
          split_ifs <;> first | rfl | omega
        have second : (if v / 4096 = 0 then afterE0 else if v / 4096 = 13 then afterED else two).step
            (UInt8.ofNat (v / 64 % 64 + 128)) = some last := by
          split
          · exact step_within 0xA0 0xBF (fun _ => rfl) (by omega) (by simp; omega) (by simp; omega)
          · split
            · exact step_within 0x80 0x9F (fun _ => rfl) (by omega) (by simp) (by simp; omega)
            · exact next
        rw [run_cons, lead, Option.bind_some, run_cons, second, Option.bind_some, run_cons, ends]
        rfl
      · have lead : start.step (UInt8.ofNat (v / 262144 % 8 + 240)) = some (
            if v / 262144 = 0 then afterF0 else if v / 262144 = 4 then afterF4 else three) := by
          rw [step, lead_ofNat (by omega), if_neg (by omega), if_neg (by omega), if_neg (by omega),
            if_neg (by omega), if_neg (by omega), if_neg (by omega)]
          split_ifs <;> first | rfl | omega
        have second : (if v / 262144 = 0 then afterF0 else
            if v / 262144 = 4 then afterF4 else three).step
            (UInt8.ofNat (v / 4096 % 64 + 128)) = some two := by
          split
          · exact step_within 0x90 0xBF (fun _ => rfl) (by omega) (by simp; omega) (by simp; omega)
          · split
            · exact step_within 0x80 0x8F (fun _ => rfl) (by omega) (by simp) (by simp; omega)
            · exact trail (small _) fun _ => rfl
        rw [run_cons, lead, Option.bind_some, run_cons, second, Option.bind_some, run_cons, next,
          Option.bind_some, run_cons, ends]
        rfl

end

theorem validUtf8_encodeUtf8 (text : Str) : validUtf8 (encodeUtf8 text) = true := by
  rw [validUtf8_iff]
  induction text with
  | nil => rfl
  | cons c text ih =>
      rw [encodeUtf8, List.flatMap_cons, Utf8State.run_append, run_utf8EncodeChar]
      exact ih

theorem fromUtf8Lossy_encodeUtf8 (text : Str) : fromUtf8Lossy (encodeUtf8 text) = text := by
  have whole : (lossy (encodeUtf8 text)).toByteArray = text.utf8Encode := by
    rw [lossy_of_validUtf8 (validUtf8_encodeUtf8 text)]
    rfl
  rw [fromUtf8Lossy, whole, List.utf8Decode?_utf8Encode]
  rfl

theorem encodeUtf8_injective : Function.Injective encodeUtf8 := by
  intro left right same
  have back := congrArg fromUtf8Lossy same
  rwa [fromUtf8Lossy_encodeUtf8, fromUtf8Lossy_encodeUtf8] at back

/-! ### Kinds of characters -/

/-- `char::is_control`. -/
def isControl (c : Char) : Bool := c.toNat < 32 || (127 ≤ c.toNat && c.toNat ≤ 159)

/-- `char::is_whitespace`. -/
def isWhitespace (c : Char) : Bool :=
  (9 ≤ c.toNat && c.toNat ≤ 13) || c.toNat == 32 || c.toNat == 0x85 || c.toNat == 0xA0 ||
    c.toNat == 0x1680 || (0x2000 ≤ c.toNat && c.toNat ≤ 0x200A) || c.toNat == 0x2028 ||
    c.toNat == 0x2029 || c.toNat == 0x202F || c.toNat == 0x205F || c.toNat == 0x3000

/-- `char::to_digit(16)`. -/
def hexValue (c : Char) : Option Nat :=
  if 48 ≤ c.toNat ∧ c.toNat ≤ 57 then some (c.toNat - 48)
  else if 97 ≤ c.toNat ∧ c.toNat ≤ 102 then some (c.toNat - 87)
  else if 65 ≤ c.toNat ∧ c.toNat ≤ 70 then some (c.toNat - 55)
  else none

/-- `char::is_ascii_hexdigit`. -/
def isHexDigit (c : Char) : Bool := (hexValue c).isSome

/-- `str::to_ascii_lowercase`. -/
def lowercase (text : Str) : Str := text.map Char.toLower

theorem toNat_toLower (c : Char) :
    c.toLower.toNat = if 65 ≤ c.toNat ∧ c.toNat ≤ 90 then c.toNat + 32 else c.toNat := by
  have lower : c.val ≥ 'A'.val ∧ c.val ≤ 'Z'.val ↔ 65 ≤ c.toNat ∧ c.toNat ≤ 90 := Iff.rfl
  by_cases upper : 65 ≤ c.toNat ∧ c.toNat ≤ 90
  · have moved : c.toLower.val = c.val + 32 := congrArg Char.val (dif_pos (lower.mpr upper))
    have small : c.val.toNat ≤ 90 := upper.2
    rw [if_pos upper, Char.toNat, moved, UInt32.toNat_add]
    exact Nat.mod_eq_of_lt (by simp; omega)
  · have kept : c.toLower = c := dif_neg fun held => upper (lower.mp held)
    rw [if_neg upper, kept]

theorem isHexDigit_iff (c : Char) : isHexDigit c = true ↔ 48 ≤ c.toNat ∧ c.toNat ≤ 57 ∨
    97 ≤ c.toNat ∧ c.toNat ≤ 102 ∨ 65 ≤ c.toNat ∧ c.toNat ≤ 70 := by
  rw [isHexDigit, hexValue]
  split_ifs <;> simp <;> omega

theorem isHexDigit_toLower (c : Char) : isHexDigit c.toLower = isHexDigit c := by
  rw [Bool.eq_iff_iff, isHexDigit_iff, isHexDigit_iff, toNat_toLower]
  split <;> omega
theorem isControl_of_isHexDigit {c : Char} (digit : isHexDigit c = true) :
    isControl c = false := by
  rw [isHexDigit_iff] at digit
  rw [isControl, Bool.or_eq_false_iff, Bool.and_eq_false_iff, decide_eq_false_iff_not,
    decide_eq_false_iff_not, decide_eq_false_iff_not]
  omega


/-! ### Trimming -/

def trim (text : Str) : Str := (text.dropWhile isWhitespace).rdropWhile isWhitespace

theorem mem_of_mem_trim {text : Str} {c : Char} (member : c ∈ trim text) : c ∈ text := by
  have inner : c ∈ text.dropWhile isWhitespace :=
    (List.rdropWhile_prefix isWhitespace _).subset member
  exact (List.dropWhile_sublist isWhitespace).subset inner

/-- No whitespace at either end. -/
def Trimmed (text : Str) : Prop :=
  (∀ c ∈ text.head?, isWhitespace c = false) ∧ ∀ c ∈ text.getLast?, isWhitespace c = false

theorem trim_of_trimmed {text : Str} (trimmed : Trimmed text) : trim text = text := by
  cases text with
  | nil => rfl
  | cons c text =>
      have first : isWhitespace c = false := trimmed.1 c rfl
      rw [trim, List.dropWhile_cons_of_neg (by simp [first]), List.rdropWhile_eq_self_iff]
      intro some
      rw [trimmed.2 _ (List.getLast?_eq_some_getLast some)]
      exact Bool.false_ne_true

theorem trimmed_trim (text : Str) : Trimmed (trim text) := by
  constructor
  · intro c first
    have kept : (text.dropWhile isWhitespace).head? = some c := by
      rcases List.rdropWhile_prefix isWhitespace (text.dropWhile isWhitespace) with ⟨rest, same⟩
      rw [← same, List.head?_append, show List.rdropWhile _ _ = trim text from rfl, first]
      rfl
    have stopped := List.head?_dropWhile_not isWhitespace text
    rw [kept] at stopped
    simpa using stopped
  · intro c final
    have some : trim text ≠ [] := by
      intro empty
      rw [empty] at final
      cases final
    have stopped := List.rdropWhile_last_not isWhitespace (text.dropWhile isWhitespace) some
    rw [List.getLast?_eq_some_getLast some] at final
    cases final
    exact Bool.eq_false_iff.mpr stopped

theorem trim_eq_self_iff {text : Str} : trim text = text ↔ Trimmed text := by
  constructor
  · intro same
    rw [← same]
    exact trimmed_trim text
  · exact trim_of_trimmed

/-- Text between two characters that are not whitespace. -/
theorem trim_between {first last : Char} (text : Str) (opens : isWhitespace first = false)
    (closes : isWhitespace last = false) :
    trim (first :: (text ++ [last])) = first :: (text ++ [last]) := by
  apply trim_of_trimmed
  constructor
  · intro c same
    cases same
    exact opens
  · intro c same
    rw [← List.cons_append, List.getLast?_append] at same
    cases same
    exact closes

/-! ### Pieces -/

/-- `strip_prefix` of one character. -/
def stripPrefix (first : Char) : Str → Option Str
  | [] => none
  | c :: text => if c = first then some text else none

theorem stripPrefix_cons (first : Char) (text : Str) : stripPrefix first (first :: text) = some text :=
  if_pos rfl

/-- `strip_suffix` of one character. -/
def stripSuffix (last : Char) (text : Str) : Option Str :=
  if text.getLast? = some last then some text.dropLast else none

theorem stripSuffix_append (text : Str) (last : Char) :
    stripSuffix last (text ++ [last]) = some text := by
  rw [stripSuffix, if_pos (by simp), List.dropLast_concat]

theorem mem_of_stripSuffix {last c : Char} {text rest : Str}
    (stripped : stripSuffix last text = some rest) (member : c ∈ rest) : c ∈ text := by
  rw [stripSuffix] at stripped
  split at stripped
  · cases stripped
    exact (List.dropLast_sublist _).subset member
  · cases stripped

/-- `split_once` at a character. -/
def splitOnce (sep : Char) : Str → Option (Str × Str)
  | [] => none
  | c :: text =>
      if c = sep then some ([], text) else (splitOnce sep text).map fun parts => (c :: parts.1, parts.2)

theorem splitOnce_append {sep : Char} {left : Str} (absent : sep ∉ left) (right : Str) :
    splitOnce sep (left ++ sep :: right) = some (left, right) := by
  induction left with
  | nil => simp [splitOnce]
  | cons c left ih =>
      rw [List.mem_cons, not_or] at absent
      rw [List.cons_append, splitOnce, if_neg (Ne.symm absent.1), ih absent.2]
      rfl

theorem splitOnce_eq_none {sep : Char} {text : Str} (absent : sep ∉ text) :
    splitOnce sep text = none := by
  induction text with
  | nil => rfl
  | cons c text ih =>
      rw [List.mem_cons, not_or] at absent
      rw [splitOnce, if_neg (Ne.symm absent.1), ih absent.2]
      rfl

/-! ### Lines -/

/-- A terminated line without the carriage return that may come before its end. -/
def dropReturn (line : Str) : Str := if line.getLast? = some '\r' then line.dropLast else line

/-- The lines of what is left, `held` the start of the first. -/
def linesFrom (held : Str) : Str → List Str
  | [] => if held = [] then [] else [held]
  | c :: text =>
      if c = '\n' then dropReturn held :: linesFrom [] text else linesFrom (held ++ [c]) text

/-- `str::lines`. -/
def lines (text : Str) : List Str := linesFrom [] text

theorem linesFrom_append {line : Str} (whole : '\n' ∉ line) (held rest : Str) :
    linesFrom held (line ++ '\n' :: rest) = dropReturn (held ++ line) :: linesFrom [] rest := by
  induction line generalizing held with
  | nil => simp [linesFrom]
  | cons c line ih =>
      rw [List.mem_cons, not_or] at whole
      rw [List.cons_append, linesFrom, if_neg (Ne.symm whole.1), ih whole.2, List.append_assoc]
      rfl

theorem linesFrom_single {text : Str} (whole : '\n' ∉ text) (held : Str) :
    linesFrom held text = if held ++ text = [] then [] else [held ++ text] := by
  induction text generalizing held with
  | nil => rw [linesFrom, List.append_nil]
  | cons c text ih =>
      rw [List.mem_cons, not_or] at whole
      rw [linesFrom, if_neg (Ne.symm whole.1), ih whole.2, List.append_assoc,
        List.singleton_append]

theorem dropReturn_append {last : Char} (text : Str) (other : last ≠ '\r') :
    dropReturn (text ++ [last]) = text ++ [last] := by
  rw [dropReturn, if_neg]
  simpa using other

theorem lines_append {line : Str} (whole : '\n' ∉ line) (rest : Str) :
    lines (line ++ '\n' :: rest) = dropReturn line :: lines rest := linesFrom_append whole [] rest

theorem mem_of_mem_dropReturn {line : Str} {c : Char} (member : c ∈ dropReturn line) : c ∈ line := by
  rw [dropReturn] at member
  split at member
  · exact (List.dropLast_sublist _).subset member
  · exact member

theorem linesFrom_whole {held text line : Str} (whole : '\n' ∉ held)
    (member : line ∈ linesFrom held text) : '\n' ∉ line := by
  induction text generalizing held with
  | nil =>
      rw [linesFrom] at member
      split at member
      · cases member
      · rw [List.mem_singleton] at member
        rw [member]
        exact whole
  | cons c text ih =>
      rw [linesFrom] at member
      split at member
      · rcases List.mem_cons.mp member with same | later
        · rw [same]
          intro inside
          exact whole (mem_of_mem_dropReturn inside)
        · exact ih List.not_mem_nil later
      · next other =>
          refine ih ?_ member
          rw [List.mem_append, List.mem_singleton, not_or]
          exact ⟨whole, Ne.symm other⟩

/-- No line holds a line feed. -/
theorem lines_whole {text line : Str} (member : line ∈ lines text) : '\n' ∉ line :=
  linesFrom_whole List.not_mem_nil member

end Str

end Onelf.Lib
