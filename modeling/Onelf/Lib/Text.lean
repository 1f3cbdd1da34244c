import Mathlib.Algebra.Order.BigOperators.Group.List
import Mathlib.Tactic.IntervalCases
import Onelf.Lib.Bytes

/-! Byte-level text: decimal numerals, hexadecimal words, lines and separators.

Everything here looks at ASCII bytes only, so on UTF-8 text it agrees with the
character-level reading of the same functions. -/

namespace Onelf.Lib

/-! ### Classes of ASCII bytes -/

def isDigit (byte : UInt8) : Bool := 48 ≤ byte && byte ≤ 57

def isAlphabetic (byte : UInt8) : Bool := (65 ≤ byte && byte ≤ 90) || (97 ≤ byte && byte ≤ 122)

def isAlphanumeric (byte : UInt8) : Bool := isDigit byte || isAlphabetic byte

def isLowerHex (byte : UInt8) : Bool := isDigit byte || (97 ≤ byte && byte ≤ 102)

def isControl (byte : UInt8) : Bool := byte < 32 || byte == 127

/-! ### Decimal numerals -/

/-- Digits of `n`, most significant first; `fuel` bounds their number. -/
def decimalDigits : Nat → Nat → Bytes
  | 0, _ => []
  | fuel + 1, n =>
      (if n < 10 then [] else decimalDigits fuel (n / 10)) ++ [UInt8.ofNat (48 + n % 10)]

def decimal (n : Nat) : Bytes := decimalDigits (n + 1) n

def decimalValue (digits : Bytes) : Nat :=
  digits.foldl (fun value digit => value * 10 + (digit.toNat - 48)) 0

/-- A number with one more digit read after it. -/
def pushDigit (value : Nat) (digit : UInt8) : Nat := value * 10 + (digit.toNat - 48)

theorem le_foldl_pushDigit (digits : Bytes) (start : Nat) : start ≤ digits.foldl pushDigit start := by
  induction digits generalizing start with
  | nil => exact Nat.le_refl start
  | cons digit digits ih =>
      have later := ih (pushDigit start digit)
      have here : start ≤ pushDigit start digit := by
        rw [pushDigit]
        omega
      exact Nat.le_trans here later

theorem toNat_digit (n : Nat) : (UInt8.ofNat (48 + n % 10)).toNat = 48 + n % 10 :=
  UInt8.toNat_ofNat_of_lt' (by change 48 + n % 10 < 256; omega)

theorem isDigit_digit (n : Nat) : isDigit (UInt8.ofNat (48 + n % 10)) = true := by
  have low : n % 10 < 10 := Nat.mod_lt n (by decide)
  simp only [isDigit, Bool.and_eq_true, decide_eq_true_eq, UInt8.le_iff_toNat_le, toNat_digit]
  exact ⟨by simp, by change 48 + n % 10 ≤ 57; omega⟩

theorem decimalDigits_isDigit (fuel n : Nat) : ∀ byte ∈ decimalDigits fuel n, isDigit byte := by
  induction fuel generalizing n with
  | zero => intro byte member; cases member
  | succ fuel ih =>
      intro byte member
      simp only [decimalDigits, List.mem_append, List.mem_singleton] at member
      rcases member with high | rfl
      · split at high
        · cases high
        · exact ih (n / 10) byte high
      · exact isDigit_digit n

theorem decimal_isDigit (n : Nat) : ∀ byte ∈ decimal n, isDigit byte :=
  decimalDigits_isDigit (n + 1) n

theorem decimal_ne_nil (n : Nat) : decimal n ≠ [] := by
  simp [decimal, decimalDigits]

theorem decimal_cons (n : Nat) : ∃ digit rest, decimal n = digit :: rest ∧ isDigit digit := by
  cases digits : decimal n with
  | nil => exact absurd digits (decimal_ne_nil n)
  | cons digit rest =>
      exact ⟨digit, rest, rfl, decimal_isDigit n digit (by rw [digits]; exact List.mem_cons_self)⟩

theorem length_decimalDigits_le {fuel n width : Nat} (positive : 0 < width) (small : n < 10 ^ width) :
    (decimalDigits fuel n).length ≤ width := by
  induction fuel generalizing n width with
  | zero => exact Nat.zero_le _
  | succ fuel ih =>
      rw [decimalDigits, List.length_append, List.length_singleton]
      split
      · rw [List.length_nil]
        omega
      · next large =>
          cases width with
          | zero => omega
          | succ width =>
              have rest : n / 10 < 10 ^ width := by
                rw [Nat.div_lt_iff_lt_mul (by decide), ← Nat.pow_succ]
                exact small
              have wide : 0 < width := by
                cases width with
                | zero => exact absurd small (by omega)
                | succ width => exact Nat.succ_pos width
              have shorter := ih wide rest
              omega

theorem length_decimal_le {n width : Nat} (positive : 0 < width) (small : n < 10 ^ width) :
    (decimal n).length ≤ width :=
  length_decimalDigits_le positive small

theorem decimalValue_append_digit (digits : Bytes) (n : Nat) :
    decimalValue (digits ++ [UInt8.ofNat (48 + n % 10)]) = decimalValue digits * 10 + n % 10 := by
  rw [decimalValue, List.foldl_append, List.foldl_cons, List.foldl_nil, toNat_digit]
  simp [decimalValue]

theorem decimalValue_decimalDigits (fuel n : Nat) (enough : n < fuel) :
    decimalValue (decimalDigits fuel n) = n := by
  induction fuel generalizing n with
  | zero => omega
  | succ fuel ih =>
      rw [decimalDigits, decimalValue_append_digit]
      split
      · simp only [decimalValue, List.foldl_nil]
        omega
      · rw [ih (n / 10) (by omega)]
        omega

theorem decimalValue_decimal (n : Nat) : decimalValue (decimal n) = n :=
  decimalValue_decimalDigits (n + 1) n (Nat.lt_succ_self n)

theorem decimal_injective {m n : Nat} (same : decimal m = decimal n) : m = n := by
  rw [← decimalValue_decimal m, ← decimalValue_decimal n, same]

/-- Two runs of one kind of value, each ended by a value of another kind, agree when the
whole lists do. -/
theorem run_append_inj {α : Type} {kind : α → Bool} {run run' : List α} {mark mark' : α}
    {rest rest' : List α} (inRun : ∀ value ∈ run, kind value) (inRun' : ∀ value ∈ run', kind value)
    (ends : kind mark = false) (ends' : kind mark' = false)
    (same : run ++ mark :: rest = run' ++ mark' :: rest') :
    run = run' ∧ mark = mark' ∧ rest = rest' := by
  have stop {run rest : List α} {mark : α} (inRun : ∀ value ∈ run, kind value)
      (ends : kind mark = false) : (run ++ mark :: rest).takeWhile kind = run := by
    rw [List.takeWhile_append_of_pos inRun]
    simp [ends]
  have runs : run = run' := by
    exact (stop inRun ends).symm.trans ((congrArg _ same).trans (stop inRun' ends'))
  rw [runs] at same
  exact ⟨runs, List.cons.inj (List.append_cancel_left same)⟩

/-- Two numerals followed by a non-digit can only agree when the numbers do. -/
theorem decimal_append_inj {m n : Nat} {sep : UInt8} {left right : Bytes}
    (notDigit : isDigit sep = false)
    (same : decimal m ++ sep :: left = decimal n ++ sep :: right) : m = n ∧ left = right := by
  obtain ⟨digits, -, rest⟩ :=
    run_append_inj (decimal_isDigit m) (decimal_isDigit n) notDigit notDigit same
  exact ⟨decimal_injective digits, rest⟩

/-! ### Lowercase hexadecimal -/

def hexDigit (n : Nat) : UInt8 := if n < 10 then UInt8.ofNat (48 + n) else UInt8.ofNat (87 + n)

def hexValue (digit : UInt8) : Option Nat :=
  if isDigit digit then some (digit.toNat - 48)
  else if 97 ≤ digit && digit ≤ 102 then some (digit.toNat - 87)
  else none

/-- The low `width` digits of `n`, most significant first. -/
def hexDigits : Nat → Nat → Bytes
  | 0, _ => []
  | width + 1, n => hexDigits width (n / 16) ++ [hexDigit (n % 16)]

/-- The value of a run of digits read after a number. -/
def hexNumber (number : Nat) (digits : Bytes) : Option Nat :=
  digits.foldlM (fun number digit => (hexValue digit).map fun value => number * 16 + value) number

theorem hexValue_hexDigit {n : Nat} (small : n < 16) : hexValue (hexDigit n) = some n := by
  interval_cases n <;> rfl

theorem isLowerHex_hexDigit {n : Nat} (small : n < 16) : isLowerHex (hexDigit n) = true := by
  interval_cases n <;> rfl

@[simp] theorem length_hexDigits (width n : Nat) : (hexDigits width n).length = width := by
  induction width generalizing n with
  | zero => rfl
  | succ width ih => simp [hexDigits, ih]

theorem hexDigits_isLowerHex (width n : Nat) : ∀ digit ∈ hexDigits width n, isLowerHex digit := by
  induction width generalizing n with
  | zero => simp [hexDigits]
  | succ width ih =>
      intro digit member
      rw [hexDigits, List.mem_append, List.mem_singleton] at member
      rcases member with high | low
      · exact ih (n / 16) digit high
      · rw [low]
        exact isLowerHex_hexDigit (Nat.mod_lt n (by decide))

theorem hexDigits_cons (width n : Nat) :
    ∃ digit rest, hexDigits (width + 1) n = digit :: rest ∧ isLowerHex digit := by
  have hex := hexDigits_isLowerHex (width + 1) n
  cases digits : hexDigits (width + 1) n with
  | nil =>
      have length := length_hexDigits (width + 1) n
      rw [digits] at length
      cases length
  | cons digit rest =>
      exact ⟨digit, rest, rfl, hex digit (by rw [digits]; exact List.mem_cons_self)⟩

theorem hexNumber_append (number : Nat) (left right : Bytes) :
    hexNumber number (left ++ right) =
      (hexNumber number left).bind fun number => hexNumber number right := by
  simp only [hexNumber, List.foldlM_append]
  rfl

theorem hexNumber_singleton (number : Nat) {n : Nat} (small : n < 16) :
    hexNumber number [hexDigit n] = some (number * 16 + n) := by
  simp [hexNumber, hexValue_hexDigit small]

theorem hexNumber_hexDigits (width number n : Nat) :
    hexNumber number (hexDigits width n) = some (number * 16 ^ width + n % 16 ^ width) := by
  induction width generalizing n with
  | zero => simp [hexNumber, hexDigits, Nat.mod_one]
  | succ width ih =>
      have low : n % 16 < 16 := Nat.mod_lt n (by decide)
      have digits : n % 16 ^ (width + 1) = n % 16 + 16 * (n / 16 % 16 ^ width) := by
        rw [Nat.pow_succ', Nat.mod_mul]
      rw [hexDigits, hexNumber_append, ih, Option.bind_some, hexNumber_singleton _ low, digits]
      congr 1
      ring

/-! ### Numbers read from text -/

def usizeLimit : Nat := 2 ^ 64

def dropSign : Bytes → Bytes
  | 43 :: digits => digits
  | digits => digits

/-- `str::parse::<usize>`, which allows one leading `+`. -/
def parseUsize (text : Bytes) : Option Nat :=
  if (dropSign text).isEmpty || !(dropSign text).all isDigit then none
  else if decimalValue (dropSign text) < usizeLimit then some (decimalValue (dropSign text))
  else none

theorem dropSign_decimal (n : Nat) : dropSign (decimal n) = decimal n := by
  cases digits : decimal n with
  | nil => rfl
  | cons digit rest =>
      have sign : isDigit digit := decimal_isDigit n digit (by rw [digits]; exact List.mem_cons_self)
      rw [dropSign]
      intro tail plus
      rw [(List.cons.inj plus).1] at sign
      exact absurd sign (by decide)

theorem parseUsize_decimal {n : Nat} (fits : n < usizeLimit) : parseUsize (decimal n) = some n := by
  have digits : (decimal n).all isDigit = true := List.all_eq_true.mpr (decimal_isDigit n)
  simp [parseUsize, dropSign_decimal, decimal_ne_nil, digits, decimalValue_decimal, fits]

/-! ### Prefixes and separators -/

/-- `str::strip_prefix`. -/
def stripPrefix (lead text : Bytes) : Option Bytes := text.dropPrefix? lead

theorem stripPrefix_eq_some {lead text rest : Bytes} :
    stripPrefix lead text = some rest ↔ text = lead ++ rest := by
  rw [stripPrefix, List.dropPrefix?_eq_some_iff]
  constructor
  · rintro ⟨lead', same, matched⟩
    rw [same, eq_of_beq matched]
  · intro same
    exact ⟨lead, same, beq_self_eq_true lead⟩

@[simp] theorem stripPrefix_append (lead rest : Bytes) :
    stripPrefix lead (lead ++ rest) = some rest :=
  stripPrefix_eq_some.mpr rfl

theorem stripPrefix_eq_none {lead text : Bytes} :
    stripPrefix lead text = none ↔ ∀ rest, text ≠ lead ++ rest := by
  constructor
  · intro missing rest same
    rw [stripPrefix_eq_some.mpr same] at missing
    cases missing
  · intro missing
    cases found : stripPrefix lead text with
    | none => rfl
    | some rest => exact absurd (stripPrefix_eq_some.mp found) (missing rest)

/-- Two tags neither of which begins the other never answer for one another. -/
theorem stripPrefix_other {lead other : Bytes} (apart : ¬ lead <+: other ∧ ¬ other <+: lead)
    (rest : Bytes) : stripPrefix lead (other ++ rest) = none := by
  rw [stripPrefix_eq_none]
  intro tail same
  rcases List.append_eq_append_iff.mp same with ⟨middle, extended, -⟩ | ⟨middle, extended, -⟩
  · exact apart.2 ⟨middle, extended.symm⟩
  · exact apart.1 ⟨middle, extended.symm⟩

/-- `str::split_once` at one ASCII byte. -/
def splitOnce (sep : UInt8) : Bytes → Option (Bytes × Bytes)
  | [] => none
  | byte :: text =>
      if byte = sep then some ([], text)
      else (splitOnce sep text).map fun (left, right) => (byte :: left, right)

theorem splitOnce_append {sep : UInt8} {left : Bytes} (absent : sep ∉ left) (right : Bytes) :
    splitOnce sep (left ++ sep :: right) = some (left, right) := by
  induction left with
  | nil => simp [splitOnce]
  | cons byte left ih =>
      simp only [List.mem_cons, not_or] at absent
      simp [splitOnce, Ne.symm absent.1, ih absent.2]

theorem splitOnce_eq_some {sep : UInt8} {text left right : Bytes} :
    splitOnce sep text = some (left, right) ↔ sep ∉ left ∧ text = left ++ sep :: right := by
  constructor
  · intro found
    induction text generalizing left with
    | nil => cases found
    | cons byte text ih =>
        rw [splitOnce] at found
        split at found
        · next same =>
            rcases Prod.mk.inj (Option.some.inj found) with ⟨empty, rest⟩
            rw [← empty, ← rest, same]
            exact ⟨List.not_mem_nil, rfl⟩
        · next other =>
            rcases Option.map_eq_some_iff.mp found with ⟨⟨left', right'⟩, later, same⟩
            rcases Prod.mk.inj same with ⟨head, tail⟩
            rw [tail] at later
            have parts := ih later
            rw [← head, parts.2]
            exact ⟨by simp [Ne.symm other, parts.1], rfl⟩
  · intro parts
    rw [parts.2]
    exact splitOnce_append parts.1 right

/-! ### Parts between separators -/

theorem not_mem_of_mem_splitOn {sep : UInt8} {text part : Bytes} (member : part ∈ text.splitOn sep) :
    sep ∉ part := by
  induction text generalizing part with
  | nil =>
      rw [List.splitOn_nil, List.mem_singleton] at member
      simp [member]
  | cons byte text ih =>
      rw [List.splitOn_cons_eq_if_modifyHead] at member
      split at member
      · rcases List.mem_cons.mp member with rfl | later
        · exact List.not_mem_nil
        · exact ih later
      · next other =>
          obtain ⟨first, rest, parts⟩ := List.exists_cons_of_ne_nil (List.splitOn_ne_nil sep text)
          rw [parts] at member ih
          rcases List.mem_cons.mp member with rfl | later
          · rw [List.mem_cons, not_or]
            exact ⟨fun same => other (beq_iff_eq.mpr same.symm), ih List.mem_cons_self⟩
          · exact ih (List.mem_cons_of_mem _ later)

theorem mem_intercalate_of_mem (sep : UInt8) {byte : UInt8} {parts : List Bytes} {part : Bytes}
    (member : part ∈ parts) (inside : byte ∈ part) : byte ∈ [sep].intercalate parts := by
  induction parts with
  | nil => cases member
  | cons first rest ih =>
      cases rest with
      | nil => simp_all
      | cons second rest =>
          rw [List.intercalate_cons_cons]
          rcases List.mem_cons.mp member with rfl | later
          · simp [inside]
          · simp [ih later]

theorem mem_of_mem_intercalate {sep byte : UInt8} {parts : List Bytes}
    (member : byte ∈ [sep].intercalate parts) : byte = sep ∨ ∃ part ∈ parts, byte ∈ part := by
  induction parts with
  | nil => simp at member
  | cons first rest ih =>
      cases rest with
      | nil => simp_all
      | cons second rest =>
          rw [List.intercalate_cons_cons, List.mem_append, List.mem_append, List.mem_singleton] at member
          rcases member with (inside | same) | later
          · exact Or.inr ⟨first, List.mem_cons_self, inside⟩
          · exact Or.inl same
          · rcases ih later with same | ⟨part, inRest, inside⟩
            · exact Or.inl same
            · exact Or.inr ⟨part, List.mem_cons_of_mem _ inRest, inside⟩

theorem length_intercalate (sep : UInt8) {parts : List Bytes} (nonempty : parts ≠ []) :
    ([sep].intercalate parts).length + 1 = (parts.map fun part => part.length + 1).sum := by
  induction parts with
  | nil => contradiction
  | cons first rest ih =>
      cases rest with
      | nil => simp
      | cons second rest =>
          have tail := ih (by simp)
          rw [List.intercalate_cons_cons, List.map_cons, List.sum_cons, ← tail]
          simp
          omega

/-- Dropping parts never makes the joined text longer. -/
theorem length_intercalate_filter_le (sep : UInt8) (kept : Bytes → Bool) (parts : List Bytes) :
    ([sep].intercalate (parts.filter kept)).length ≤ ([sep].intercalate parts).length := by
  by_cases none : parts.filter kept = []
  · simp [none]
  · have some : parts ≠ [] := by
      rintro rfl
      exact none rfl
    have fewer : ((parts.filter kept).map fun part => part.length + 1).sum ≤
        (parts.map fun part => part.length + 1).sum :=
      (List.filter_sublist.map _).sum_le_sum fun _ _ => Nat.zero_le _
    have left := length_intercalate sep none
    have right := length_intercalate sep some
    omega

/-! ### Lines -/

def lineFeed : UInt8 := 10
def carriageReturn : UInt8 := 13

/-- `split_inclusive('\n')`. -/
def rawLines : Bytes → List Bytes
  | [] => []
  | byte :: text =>
      if byte = lineFeed then [byte] :: rawLines text
      else match rawLines text with
        | [] => [[byte]]
        | line :: lines => (byte :: line) :: lines

/-- Drops a line's terminator: `\n` or `\r\n`, never a bare `\r`. -/
def chompLine (line : Bytes) : Bytes :=
  match line.reverse with
  | 10 :: 13 :: body => body.reverse
  | 10 :: body => body.reverse
  | _ => line

/-- `str::lines`. -/
def lines (text : Bytes) : List Bytes := (rawLines text).map chompLine

theorem rawLines_append {line : Bytes} (whole : lineFeed ∉ line) (rest : Bytes) :
    rawLines (line ++ lineFeed :: rest) = (line ++ [lineFeed]) :: rawLines rest := by
  induction line with
  | nil => simp [rawLines]
  | cons byte line ih =>
      simp only [List.mem_cons, not_or] at whole
      simp [rawLines, Ne.symm whole.1, ih whole.2]

theorem rawLines_last {line : Bytes} (whole : lineFeed ∉ line) (nonempty : line ≠ []) :
    rawLines line = [line] := by
  induction line with
  | nil => contradiction
  | cons byte line ih =>
      simp only [List.mem_cons, not_or] at whole
      cases line with
      | nil => simp [rawLines, Ne.symm whole.1]
      | cons next line =>
          rw [rawLines, if_neg (Ne.symm whole.1), ih whole.2 (by simp)]

theorem chompLine_terminated {line : Bytes} (bare : line.getLast? ≠ some carriageReturn) :
    chompLine (line ++ [lineFeed]) = line := by
  rw [List.getLast?_eq_head?_reverse] at bare
  simp only [chompLine, List.reverse_append, List.reverse_cons, List.reverse_nil, List.nil_append,
    List.singleton_append, lineFeed]
  cases reversed : line.reverse with
  | nil => simpa using reversed
  | cons byte body =>
      have back : line = (byte :: body).reverse := by rw [← reversed, List.reverse_reverse]
      have other : byte ≠ 13 := by
        intro same
        rw [reversed, same] at bare
        exact bare rfl
      split
      · next heq => simp_all
      · next heq => simp_all
      · next heq => simp_all

theorem chompLine_whole {line : Bytes} (whole : lineFeed ∉ line) : chompLine line = line := by
  have absent : (10 : UInt8) ∉ line.reverse := by simpa [lineFeed] using whole
  rw [chompLine]
  split
  · next heq => simp [heq] at absent
  · next heq => simp [heq] at absent
  · rfl

/-- A line that `lines` returns as it stands. -/
def PlainLine (line : Bytes) : Prop :=
  lineFeed ∉ line ∧ line.getLast? ≠ some carriageReturn

instance (line : Bytes) : Decidable (PlainLine line) := inferInstanceAs (Decidable (_ ∧ _))

theorem PlainLine.append {left right : Bytes} (first : PlainLine left) (second : PlainLine right) :
    PlainLine (left ++ right) := by
  constructor
  · simp only [List.mem_append, not_or]
    exact ⟨first.1, second.1⟩
  · intro bare
    rw [List.getLast?_append] at bare
    cases last : right.getLast? with
    | none => exact first.2 (by simpa [last] using bare)
    | some byte => exact second.2 (by simpa [last] using bare)

theorem plainLine_of_not_mem {line : Bytes} (whole : lineFeed ∉ line)
    (noReturn : carriageReturn ∉ line) : PlainLine line :=
  ⟨whole, fun bare => noReturn (List.mem_of_getLast? bare)⟩

theorem decimal_plain (n : Nat) : PlainLine (decimal n) :=
  plainLine_of_not_mem (fun feed => absurd (decimal_isDigit n _ feed) (by decide))
    fun back => absurd (decimal_isDigit n _ back) (by decide)

theorem lines_append {line : Bytes} (plain : PlainLine line) (rest : Bytes) :
    lines (line ++ lineFeed :: rest) = line :: lines rest := by
  rw [lines, rawLines_append plain.1, List.map_cons, chompLine_terminated plain.2]
  rfl

theorem lines_last {line : Bytes} (whole : lineFeed ∉ line) (nonempty : line ≠ []) :
    lines line = [line] := by
  simp [lines, rawLines_last whole nonempty, chompLine_whole whole]

/-- Lines each followed by its terminator. -/
def unlines (text : List Bytes) : Bytes := text.flatMap fun line => line ++ [lineFeed]

theorem unlines_cons (line : Bytes) (text : List Bytes) :
    unlines (line :: text) = line ++ lineFeed :: unlines text := by
  simp [unlines]

theorem unlines_append (left right : List Bytes) :
    unlines (left ++ right) = unlines left ++ unlines right := by
  simp [unlines]

theorem lines_unlines_append {text : List Bytes} (plain : ∀ line ∈ text, PlainLine line)
    (rest : Bytes) : lines (unlines text ++ rest) = text ++ lines rest := by
  induction text with
  | nil => rfl
  | cons line text ih =>
      rw [unlines_cons, List.append_assoc, List.cons_append, lines_append (plain line (by simp)),
        ih fun other member => plain other (List.mem_cons_of_mem _ member), List.cons_append]

theorem lines_unlines {text : List Bytes} (plain : ∀ line ∈ text, PlainLine line) :
    lines (unlines text) = text := by
  simpa [lines, rawLines] using lines_unlines_append plain []

/-- Lines joined by single line feeds, with none after the last. -/
def joinLines : List Bytes → Bytes
  | [] => []
  | [line] => line
  | line :: next :: text => line ++ lineFeed :: joinLines (next :: text)

theorem lines_joinLines {text : List Bytes} (plain : ∀ line ∈ text, PlainLine line ∧ line ≠ []) :
    lines (joinLines text) = text := by
  induction text with
  | nil => rfl
  | cons line text ih =>
      have here := plain line (by simp)
      cases text with
      | nil => exact lines_last here.1.1 here.2
      | cons next text =>
          rw [joinLines, lines_append here.1,
            ih fun other member => plain other (List.mem_cons_of_mem _ member)]

theorem joinLines_ne_nil {text : List Bytes} (nonempty : text ≠ [])
    (whole : ∀ line ∈ text, line ≠ []) : joinLines text ≠ [] := by
  match text with
  | [] => contradiction
  | [line] => exact whole line (by simp)
  | line :: next :: text => simp [joinLines]

theorem joinLines_append_singleton {text : List Bytes} (nonempty : text ≠ []) (line : Bytes) :
    joinLines (text ++ [line]) = joinLines text ++ lineFeed :: line := by
  induction text with
  | nil => contradiction
  | cons first text ih =>
      cases text with
      | nil => rfl
      | cons second text => simpa [joinLines] using ih (by simp)

/-- Appending a line to text already joined, as a loop with a separator does. -/
theorem joinLines_snoc {text : List Bytes} (whole : ∀ line ∈ text, line ≠ []) (line : Bytes) :
    (if (joinLines text).isEmpty then joinLines text else joinLines text ++ [lineFeed]) ++ line =
      joinLines (text ++ [line]) := by
  by_cases empty : text = []
  · subst empty; rfl
  · have visible := joinLines_ne_nil empty whole
    rw [joinLines_append_singleton empty, if_neg (by simpa using visible)]
    simp

theorem unlines_eq_joinLines {text : List Bytes} (nonempty : text ≠ []) :
    unlines text = joinLines text ++ [lineFeed] := by
  induction text with
  | nil => contradiction
  | cons line text ih =>
      cases text with
      | nil => simp [unlines, joinLines]
      | cons next text => rw [unlines_cons, ih (by simp), joinLines]; simp

/-! ### Values read one after another -/

section Sequence

variable {α : Type}

/-- The values `next` reads from `text`, up to the first it refuses; `fuel` bounds their number. -/
def readWhile (next : Bytes → Option (α × Bytes)) : Nat → Bytes → List α
  | 0, _ => []
  | fuel + 1, text =>
      match next text with
      | none => []
      | some (value, rest) => value :: readWhile next fuel rest

theorem readWhile_flatMap {next : Bytes → Option (α × Bytes)} {write : α → Bytes}
    {values : List α} {fuel : Nat} (done : next [] = none)
    (back : ∀ value ∈ values, ∀ rest, next (write value ++ rest) = some (value, rest))
    (enough : values.length ≤ fuel) : readWhile next fuel (values.flatMap write) = values := by
  induction values generalizing fuel with
  | nil => cases fuel <;> simp [readWhile, done]
  | cons value values ih =>
      cases fuel with
      | zero => simp at enough
      | succ fuel =>
          have first := back value List.mem_cons_self (values.flatMap write)
          rw [List.flatMap_cons, readWhile, first]
          simp only [List.cons.injEq, true_and]
          exact ih (fun other member => back other (List.mem_cons_of_mem _ member))
            (Nat.le_of_succ_le_succ enough)

/-- What every read pays for out of the text is paid for by the text as a whole. -/
theorem sum_readWhile_le {next : Bytes → Option (α × Bytes)} (weight : α → Nat)
    (paid : ∀ {text value rest}, next text = some (value, rest) →
      weight value + rest.length ≤ text.length) (fuel : Nat) (text : Bytes) :
    ((readWhile next fuel text).map weight).sum ≤ text.length := by
  induction fuel generalizing text with
  | zero => simp [readWhile]
  | succ fuel ih =>
      rw [readWhile]
      cases step : next text with
      | none => simp
      | some read =>
          have here := paid step
          have later := ih read.2
          rw [List.map_cons, List.sum_cons]
          omega

end Sequence

end Onelf.Lib
