import Onelf.Lib.Str

/-! Escapes: a mark and a code for each character that may not stand for itself. -/

namespace Onelf.Lib.Str

/-- How one character is written: its code behind the mark, or itself. -/
def escapeChar (mark : Char) (code : Char → Option Char) (c : Char) : Str :=
  match code c with
  | some coded => [mark, coded]
  | none => [c]

def escape (mark : Char) (code : Char → Option Char) (text : Str) : Str :=
  text.flatMap (escapeChar mark code)

/-- What an escaped text says, when every mark has a code behind it and no character stands bare
that has to be escaped. -/
def unescape (mark : Char) (meaning : Char → Option Char) (bare : Char → Bool) :
    Str → Option Str
  | [] => some []
  | [c] => if c = mark ∨ bare c = true then none else some [c]
  | c :: next :: text =>
      if c = mark then
        (meaning next).bind fun meant => (unescape mark meaning bare text).map (meant :: ·)
      else if bare c then none
      else (unescape mark meaning bare (next :: text)).map (c :: ·)

section
variable {mark : Char} {code meaning : Char → Option Char} {bare : Char → Bool}

theorem escape_nil : escape mark code [] = [] := rfl

theorem escape_cons (c : Char) (text : Str) :
    escape mark code (c :: text) = escapeChar mark code c ++ escape mark code text := rfl

theorem escape_append (left right : Str) :
    escape mark code (left ++ right) = escape mark code left ++ escape mark code right :=
  List.flatMap_append

theorem unescape_mark (next : Char) (text : Str) :
    unescape mark meaning bare (mark :: next :: text) =
      (meaning next).bind fun meant => (unescape mark meaning bare text).map (meant :: ·) := by
  rw [unescape, if_pos rfl]

theorem unescape_plain {c : Char} (plain : c ≠ mark) (free : bare c = false) (text : Str) :
    unescape mark meaning bare (c :: text) = (unescape mark meaning bare text).map (c :: ·) := by
  cases text with
  | nil => simp [unescape, plain, free]
  | cons next text => rw [unescape, if_neg plain, if_neg (by simp [free])]

/-- Escaping is undone when the mark is escaped itself, every code means its character and only
escaped characters are refused bare. -/
theorem unescape_escape (marked : (code mark).isSome)
    (means : ∀ c coded, code c = some coded → meaning coded = some c)
    (free : ∀ c, code c = none → bare c = false) (text : Str) :
    unescape mark meaning bare (escape mark code text) = some text := by
  induction text with
  | nil => rfl
  | cons c text ih =>
      rw [escape_cons, escapeChar]
      cases coded : code c with
      | some letter =>
          rw [List.cons_append, List.singleton_append, unescape_mark, means c letter coded, ih]
          rfl
      | none =>
          have plain : c ≠ mark := by
            intro same
            rw [← same, coded] at marked
            cases marked
          rw [List.singleton_append, unescape_plain plain (free c coded), ih]
          rfl

/-- Text with nothing to escape is written as it is. -/
theorem escape_of_plain {text : Str} (plain : ∀ c ∈ text, code c = none) :
    escape mark code text = text := by
  induction text with
  | nil => rfl
  | cons c text ih =>
      rw [List.forall_mem_cons] at plain
      rw [escape_cons, escapeChar, plain.1, ih plain.2]
      rfl

end

end Onelf.Lib.Str
