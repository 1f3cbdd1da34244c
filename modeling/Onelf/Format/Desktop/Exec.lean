import Onelf.Lib.Escapes

/-! `Exec=` values of desktop entries: quoting an argument and finding where one ends
(`desktop.rs`). -/

namespace Onelf.Format.Desktop

open Onelf.Lib (Str)
open Onelf.Lib.Str

/-! ### Writing an argument -/

/-- The characters a quoted argument escapes. -/
def quotedEscapes : Str := "\"`$\\".toList

def reservedChars : Str := "\"'\\<>~|&;$*?#()`".toList

def isReserved (c : Char) : Bool := isWhitespace c || reservedChars.contains c

def needsQuotes (s : Str) : Bool := s.isEmpty || s.any isReserved

/-- One character of an argument, inside quotes or not. -/
def argChar (quote : Bool) (c : Char) : Str :=
  (if quote && quotedEscapes.contains c then ['\\'] else []) ++ (if c = '%' then ['%'] else []) ++
    [c]

/-- The letter a string value writes behind a backslash. -/
def valueCode (c : Char) : Option Char :=
  if c = '\\' then some '\\'
  else if c = '\n' then some 'n'
  else if c = '\t' then some 't'
  else if c = '\r' then some 'r'
  else none

def stringValue : Str → Str
  | [] => []
  | c :: rest => (if c = ' ' then ['\\', 's'] else escapeChar '\\' valueCode c) ++
      escape '\\' valueCode rest

/-- The argument before its string escaping. -/
def quoted (s : Str) : Str :=
  if needsQuotes s then '"' :: (s.flatMap (argChar true) ++ ['"']) else s.flatMap (argChar false)

def execArg (s : Str) : Str := stringValue (quoted s)

/-! ### Finding its end

The scan compares bytes with ASCII ones only and passes over every other byte, so it stops at the
same place when it goes by characters. -/

/-- `u8::is_ascii_whitespace`. -/
def isAsciiWhitespace (c : Char) : Bool :=
  c == ' ' || c == '\t' || c == '\n' || c == '\r' || c.toNat == 12

/-- How many characters behind a backslash go with it: the value is still string-escaped, so two
backslashes are one, which takes what follows it along. -/
def escapeWidth : Str → Nat
  | [] => 0
  | c :: rest =>
      if c = '\\' then
        match rest with
        | [] => 1
        | next :: beyond => if next = '\\' ∧ beyond ≠ [] then 3 else 2
      else 1

/-- What follows the closing quote, `skip` characters passed over first. -/
def quotedRest : Nat → Str → Str
  | _, [] => []
  | skip + 1, _ :: rest => quotedRest skip rest
  | 0, c :: rest =>
      if c = '\\' then quotedRest (escapeWidth rest) rest
      else if c = '"' then rest
      else quotedRest 0 rest

/-- What follows the first argument. -/
def execArgRest (value : Str) : Str :=
  match value.dropWhile isAsciiWhitespace with
  | [] => []
  | c :: rest =>
      if c = '"' then quotedRest 0 rest
      else (c :: rest).dropWhile fun c => !isAsciiWhitespace c

def execArgTail (value : Str) : Str := (execArgRest value).dropWhile isAsciiWhitespace

/-- The first argument, as it is written. -/
def execArgToken (value : Str) : Str := value.take (value.length - (execArgRest value).length)

/-! ### Reading an argument by the specification -/

/-- The character a string value's escape stands for. -/
def valueMeaning (c : Char) : Option Char :=
  if c = 's' then some ' '
  else if c = 'n' then some '\n'
  else if c = 't' then some '\t'
  else if c = 'r' then some '\r'
  else if c = '\\' then some '\\'
  else none

def unescapeValue : Str → Option Str := unescape '\\' valueMeaning fun _ => false

/-- A quoted argument's characters, or those of one that needs no quotes. -/
def unquote (argument : Str) : Option Str :=
  match stripPrefix '"' argument with
  | some rest =>
      (stripSuffix '"' rest).bind <|
        unescape '\\' (fun c => if quotedEscapes.contains c then some c else none)
          fun c => quotedEscapes.contains c
  | none => if needsQuotes argument then none else some argument

/-- A doubled percent sign is one; a single one would begin a field code. -/
def undouble : Str → Option Str :=
  unescape '%' (fun c => if c = '%' then some '%' else none) fun _ => false

def decodeArg (stored : Str) : Option Str :=
  (unescapeValue stored).bind fun argument => (unquote argument).bind undouble


/-! ### Reading back what was written -/

theorem unescapeValue_stringValue (text : Str) : unescapeValue (stringValue text) = some text := by
  have means : ∀ c coded, valueCode c = some coded → valueMeaning coded = some c := by
    intro c coded code
    rw [valueCode] at code
    split_ifs at code with first second third fourth
    all_goals
      cases code
      subst c
      rfl
  have inner (text : Str) : unescapeValue (escape '\\' valueCode text) = some text :=
    unescape_escape rfl means (fun _ _ => rfl) text
  cases text with
  | nil => rfl
  | cons c rest =>
      rw [stringValue]
      split
      · next blank =>
          have read := @unescape_mark '\\' valueMeaning (fun _ => false) 's'
            (escape '\\' valueCode rest)
          rw [List.cons_append, List.singleton_append, unescapeValue, read, ← unescapeValue,
            inner rest, blank]
          rfl
      · rw [← escape_cons, inner]

/-- A character doubled when it is a percent sign. -/
def percentCode (c : Char) : Option Char := if c = '%' then some '%' else none

theorem undouble_escape (text : Str) : undouble (escape '%' percentCode text) = some text := by
  have means : ∀ c coded, percentCode c = some coded →
      (if coded = '%' then some '%' else none) = some c := by
    intro c coded code
    rw [percentCode] at code
    split_ifs at code with percent
    cases code
    rw [percent]
    rfl
  exact unescape_escape rfl means (fun _ _ => rfl) text

/-- A character escaped inside quotes. -/
def quoteCode (c : Char) : Option Char := if quotedEscapes.contains c then some c else none

theorem argChar_false (c : Char) : argChar false c = escapeChar '%' percentCode c := by
  rw [argChar, escapeChar, percentCode]
  by_cases percent : c = '%'
  · rw [if_pos percent, if_pos percent, percent]
    rfl
  · rw [if_neg percent, if_neg percent]
    rfl

theorem argChar_true (c : Char) :
    argChar true c = escape '\\' quoteCode (escapeChar '%' percentCode c) := by
  rw [argChar, escapeChar, percentCode]
  by_cases percent : c = '%'
  · rw [if_pos percent, if_pos percent, percent]
    decide
  · rw [if_neg percent, if_neg percent, escape_cons, escape_nil, escapeChar, quoteCode,
      Bool.true_and]
    cases quotedEscapes.contains c <;> rfl

theorem flatMap_argChar_false (s : Str) : s.flatMap (argChar false) = escape '%' percentCode s := by
  rw [escape, funext argChar_false]

theorem flatMap_argChar_true (s : Str) :
    s.flatMap (argChar true) = escape '\\' quoteCode (escape '%' percentCode s) := by
  rw [escape, escape, List.flatMap_assoc, funext argChar_true]
  rfl

theorem mem_of_mem_percent {s : Str} {c : Char} (member : c ∈ escape '%' percentCode s) :
    c ∈ s := by
  rw [escape, List.mem_flatMap] at member
  obtain ⟨source, inside, written⟩ := member
  rw [escapeChar, percentCode] at written
  by_cases percent : source = '%'
  · rw [if_pos percent, ← percent] at written
    simp only [List.mem_cons, List.not_mem_nil, or_false, or_self] at written
    rwa [written]
  · rw [if_neg percent, List.mem_singleton] at written
    rwa [written]

theorem needsQuotes_eq_false {s : Str} :
    needsQuotes s = false ↔ s ≠ [] ∧ ∀ c ∈ s, isReserved c = false := by
  rw [needsQuotes, Bool.or_eq_false_iff, List.isEmpty_eq_false_iff, List.any_eq_false]
  simp only [Bool.not_eq_true]

theorem needsQuotes_percent {s : Str} (plain : needsQuotes s = false) :
    needsQuotes (escape '%' percentCode s) = false := by
  rw [needsQuotes_eq_false] at plain ⊢
  constructor
  · obtain ⟨c, rest, same⟩ := List.exists_cons_of_ne_nil plain.1
    rw [same, escape_cons, escapeChar]
    cases percentCode c <;> exact List.cons_ne_nil _ _
  · intro c member
    exact plain.2 c (mem_of_mem_percent member)

theorem stripPrefix_plain {s : Str} (plain : needsQuotes s = false) : stripPrefix '"' s = none := by
  cases s with
  | nil => rfl
  | cons c s =>
      rw [stripPrefix, if_neg]
      intro quote
      have free := (needsQuotes_eq_false.mp plain).2 c List.mem_cons_self
      rw [quote] at free
      exact absurd free (by decide)

theorem unquote_quoted (s : Str) : unquote (quoted s) = some (escape '%' percentCode s) := by
  rw [quoted]
  split
  · have means : ∀ c coded, quoteCode c = some coded → quoteCode coded = some c := by
      intro c coded code
      rw [quoteCode] at code
      split_ifs at code with escaped
      cases code
      rw [quoteCode, if_pos escaped]
    have bare : ∀ c, quoteCode c = none → quotedEscapes.contains c = false := by
      intro c code
      rw [quoteCode] at code
      split_ifs at code with escaped
      exact Bool.eq_false_iff.mpr escaped
    rw [flatMap_argChar_true, unquote, stripPrefix_cons]
    simp only [stripSuffix_append, Option.bind_some]
    exact unescape_escape (by decide) means bare _
  · next plain =>
      have free := needsQuotes_percent (Bool.not_eq_true _ ▸ plain)
      rw [flatMap_argChar_false, unquote, stripPrefix_plain free]
      exact if_neg (Bool.eq_false_iff.mp free)

theorem decodeArg_execArg (s : Str) : decodeArg (execArg s) = some s := by
  rw [decodeArg, execArg, unescapeValue_stringValue, Option.bind_some, unquote_quoted,
    Option.bind_some, undouble_escape]

/-! ### The end of what was written -/

/-- One character of a quoted argument as the file stores it. -/
def storedChar (c : Char) : Str := escape '\\' valueCode (argChar true c)

theorem escape_flatMap_argChar (s : Str) :
    escape '\\' valueCode (s.flatMap (argChar true)) = s.flatMap storedChar := by
  rw [escape, List.flatMap_assoc]
  rfl

/-- Every character the scan could stop at or be led astray by is written as an escape it passes
over whole. -/
theorem quotedRest_storedChar (c : Char) (rest : Str) :
    quotedRest 0 (storedChar c ++ rest) = quotedRest 0 rest := by
  by_cases special : c ∈ ['"', Char.ofNat 96, '$', '\\', '%', '\n', '\t', '\r']
  · simp only [List.mem_cons, List.not_mem_nil, or_false] at special
    rcases special with same | same | same | same | same | same | same | same
    all_goals
      rw [same]
      rfl
  · simp only [List.mem_cons, List.not_mem_nil, or_false, not_or] at special
    obtain ⟨quote, tick, dollar, slash, percent, feed, tab, back⟩ := special
    have bare : quotedEscapes.contains c = false := by
      apply Bool.eq_false_iff.mpr
      intro held
      have member : c ∈ ['"', Char.ofNat 96, '$', '\\'] := List.contains_iff_mem.mp held
      simp only [List.mem_cons, List.not_mem_nil, or_false] at member
      rcases member with same | same | same | same
      · exact quote same
      · exact tick same
      · exact dollar same
      · exact slash same
    have stored : storedChar c = [c] := by
      rw [storedChar, argChar, bare, if_neg percent, escape_of_plain]
      · rfl
      · intro other member
        have same : other = c := List.mem_singleton.mp member
        rw [same, valueCode, if_neg slash, if_neg feed,
          if_neg tab, if_neg back]
    rw [stored, List.singleton_append, quotedRest, if_neg slash, if_neg quote]

theorem quotedRest_stored (s rest : Str) :
    quotedRest 0 (s.flatMap storedChar ++ '"' :: rest) = rest := by
  induction s with
  | nil => rfl
  | cons c s ih => rw [List.flatMap_cons, List.append_assoc, quotedRest_storedChar, ih]

theorem execArg_of_quotes {s : Str} (quotes : needsQuotes s = true) :
    execArg s = '"' :: (s.flatMap storedChar ++ ['"']) := by
  rw [execArg, quoted, if_pos quotes, stringValue, escape_append, escape_flatMap_argChar]
  rfl

theorem isReserved_of_isAsciiWhitespace {c : Char} (blank : isAsciiWhitespace c = true) :
    isReserved c = true := by
  have white : isWhitespace c = true := by
    simp only [isAsciiWhitespace, Bool.or_eq_true, beq_iff_eq] at blank
    rcases blank with (((same | same) | same) | same) | code
    all_goals try rw [same]; rfl
    rw [isWhitespace, code]
    rfl
  rw [isReserved, white, Bool.true_or]

/-- An argument that needs no quotes is stored with nothing but its percent signs doubled. -/
theorem execArg_of_plain {s : Str} (plain : needsQuotes s = false) :
    execArg s = escape '%' percentCode s := by
  have free := needsQuotes_eq_false.mp (needsQuotes_percent plain)
  have code : ∀ c ∈ escape '%' percentCode s, valueCode c = none := by
    intro c member
    have unreserved := free.2 c member
    rw [valueCode]
    split_ifs with slash feed tab back
    · rw [slash] at unreserved
      exact absurd unreserved (by decide)
    · rw [feed] at unreserved
      exact absurd unreserved (by decide)
    · rw [tab] at unreserved
      exact absurd unreserved (by decide)
    · rw [back] at unreserved
      exact absurd unreserved (by decide)
    · rfl
  rw [execArg, quoted, if_neg (Bool.eq_false_iff.mp plain), flatMap_argChar_false]
  obtain ⟨c, rest, same⟩ := List.exists_cons_of_ne_nil free.1
  rw [same] at free code ⊢
  have first : c ≠ ' ' := by
    intro blank
    have unreserved := free.2 c List.mem_cons_self
    rw [blank] at unreserved
    exact absurd unreserved (by decide)
  rw [stringValue, if_neg first, ← escape_cons, escape_of_plain code]

/-- A value that begins with a written argument is taken apart where the argument ends. -/
theorem execArgRest_execArg (s : Str) {t : Str} (apart : ∀ c ∈ t.head?, c = ' ') :
    execArgRest (execArg s ++ t) = t := by
  rw [execArgRest]
  by_cases quotes : needsQuotes s = true
  · rw [execArg_of_quotes quotes, List.cons_append, List.append_assoc, List.singleton_append,
      List.dropWhile_cons_of_neg (by decide)]
    exact quotedRest_stored s t
  · rw [Bool.not_eq_true] at quotes
    have free := needsQuotes_eq_false.mp (needsQuotes_percent quotes)
    rw [execArg_of_plain quotes]
    have solid : ∀ c ∈ escape '%' percentCode s, isAsciiWhitespace c = false := by
      intro c member
      apply Bool.eq_false_iff.mpr
      intro blank
      have reserved := isReserved_of_isAsciiWhitespace blank
      rw [free.2 c member] at reserved
      cases reserved
    have tail : t.dropWhile (fun c => !isAsciiWhitespace c) = t := by
      cases t with
      | nil => rfl
      | cons c t =>
          have blank : c = ' ' := apart c rfl
          rw [blank, List.dropWhile_cons_of_neg (by decide)]
    obtain ⟨c, rest, same⟩ := List.exists_cons_of_ne_nil free.1
    rw [same] at free solid ⊢
    have opens : c ≠ '"' := by
      intro quote
      have unreserved := free.2 c List.mem_cons_self
      rw [quote] at unreserved
      exact absurd unreserved (by decide)
    rw [List.cons_append, List.dropWhile_cons_of_neg (by simp [solid c List.mem_cons_self])]
    simp only [if_neg opens]
    rw [← List.cons_append, List.dropWhile_append_of_pos, tail]
    intro other member
    rw [solid other member]
    rfl

/-- The tail a value keeps is the one written behind its argument, the argument is found whole and
it decodes to what was written. -/
theorem execArg_round_trip (p t : Str) (apart : ∀ c ∈ t.head?, c = ' ') :
    execArgToken (execArg p ++ t) = execArg p ∧ execArgRest (execArg p ++ t) = t ∧
      execArgTail (execArg p ++ t) = t.dropWhile isAsciiWhitespace ∧
      decodeArg (execArgToken (execArg p ++ t)) = some p := by
  have rest := execArgRest_execArg p apart
  have token : execArgToken (execArg p ++ t) = execArg p := by
    have length : (execArg p ++ t).length - t.length = (execArg p).length := by
      rw [List.length_append, Nat.add_sub_cancel]
    rw [execArgToken, rest, length, List.take_left]
  refine ⟨token, rest, ?_, ?_⟩
  · rw [execArgTail, rest]
  · rw [token, decodeArg_execArg]

theorem spaced_path_round_trip :
    execArgTail (execArg "/a\"b $c\\".toList ++ " %U".toList) = "%U".toList ∧
      decodeArg (execArgToken (execArg "/a\"b $c\\".toList ++ " %U".toList)) =
        some "/a\"b $c\\".toList := by
  have apart : ∀ c ∈ " %U".toList.head?, c = ' ' := by
    intro c member
    cases member
    rfl
  have held := execArg_round_trip "/a\"b $c\\".toList " %U".toList apart
  exact ⟨held.2.2.1.trans (by decide), held.2.2.2⟩

end Onelf.Format.Desktop
