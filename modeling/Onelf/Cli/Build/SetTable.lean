import Onelf.Runtime.Sets

/-! The set table a build records, and what the runtime reads of it (`bundle/sysroot.rs`). -/

namespace Onelf.Cli.Build

open Onelf.Lib Onelf.Runtime.Sets

/-- A dependency set shared between packages. -/
structure SharedSet where
  name : Str
  packages : List Str
  url : Str
  blake3 : Str
  deriving DecidableEq

/-! ### Strings -/

/-- A hex digit in upper case. -/
def upperHex (n : Nat) : Char := if n < 10 then Char.ofNat (48 + n) else Char.ofNat (55 + n)

/-- `\uXXXX`; no control character needs a fifth digit. -/
def unicodeEscape (c : Char) : Str :=
  ['\\', 'u', upperHex (c.toNat / 4096 % 16), upperHex (c.toNat / 256 % 16),
    upperHex (c.toNat / 16 % 16), upperHex (c.toNat % 16)]

def escapeChar (c : Char) : Str :=
  if c = '"' then ['\\', '"']
  else if c = '\\' then ['\\', '\\']
  else if Str.isControl c then unicodeEscape c
  else [c]

/-- A basic TOML string. -/
def tomlString (value : Str) : Str := '"' :: (value.flatMap escapeChar ++ ['"'])

/-! ### The table -/

/-- The packages left to a set. -/
def closureOf (closures : List (Str × List Str)) (name : Str) : List Str :=
  ((closures.find? fun entry => entry.1 = name).map Prod.snd).getD []

/-- One set's lines; its name stands bare. -/
def setLines (closures : List (Str × List Str)) (set : SharedSet) : List Str :=
  ['[' :: (set.name ++ [']']), "url = ".toList ++ tomlString set.url,
    "blake3 = ".toList ++ tomlString set.blake3,
    "packages = [".toList ++
      ([',', ' '].intercalate ((closureOf closures set.name).map tomlString) ++ [']']), []]

def renderSets (sets : List SharedSet) (closures : List (Str × List Str)) : Str :=
  (sets.flatMap (setLines closures)).flatMap fun line => line ++ ['\n']

/-! ### What is read back -/

/-- A character of a value as the runtime reads it: the escape of a control character stays. -/
def shownChar (c : Char) : Str := if Str.isControl c then unicodeEscape c else [c]

def shown (value : Str) : Str := value.flatMap shownChar

theorem isControl_quote : Str.isControl '"' = false ∧ Str.isControl '\\' = false := by decide

/-- No digit of an escape is a quote, a backslash or a control character. -/
theorem upperHex_plain (n : Nat) : upperHex (n % 16) ≠ '"' ∧ upperHex (n % 16) ≠ '\\' ∧
    Str.isControl (upperHex (n % 16)) = false := by
  have small : n % 16 < 16 := Nat.mod_lt n (by decide)
  generalize n % 16 = digit at small
  revert digit
  decide

/-- After the quotes are read back, backslashes and control characters are still escaped. -/
def halfShownChar (c : Char) : Str :=
  if c = '"' then ['"'] else if c = '\\' then ['\\', '\\'] else shownChar c

theorem escape_head (value : Str) : (value.flatMap escapeChar).head? ≠ some '"' := by
  cases value with
  | nil => exact fun none => by cases none
  | cons c value =>
      rw [List.flatMap_cons, escapeChar]
      split_ifs with quoted escaped control
      · simp
      · simp
      · simp [unicodeEscape]
      · simpa using quoted

/-- Text that begins with no backslash is passed over. -/
theorem replaceAll_plain {old new lead text : Str} {next : Char} (plain : ∀ c ∈ lead, c ≠ '\\') :
    replaceAll ('\\' :: next :: old) new (lead ++ text) =
      lead ++ replaceAll ('\\' :: next :: old) new text := by
  induction lead with
  | nil => rfl
  | cons c lead ih =>
      have other : ¬ '\\' :: next :: old <+: c :: (lead ++ text) := by
        intro begins
        exact plain c List.mem_cons_self (List.cons_prefix_cons.mp begins).1.symm
      rw [List.cons_append, replaceAll_cons other, ih fun d later =>
        plain d (List.mem_cons_of_mem _ later), List.cons_append]

theorem replaceAll_other {next second : Char} {new text : Str} (other : second ≠ next) :
    replaceAll ['\\', next] new ('\\' :: second :: text) =
      '\\' :: replaceAll ['\\', next] new (second :: text) := by
  apply replaceAll_cons
  intro begins
  exact other (List.cons_prefix_cons.mp (List.cons_prefix_cons.mp begins).2).1.symm

theorem unicodeEscape_tail (c : Char) : ∃ digits, unicodeEscape c = '\\' :: 'u' :: digits ∧
    ∀ d ∈ 'u' :: digits, d ≠ '\\' := by
  refine ⟨_, rfl, ?_⟩
  intro d member
  simp only [List.mem_cons, List.not_mem_nil, or_false] at member
  rcases member with u | first | second | third | fourth
  · rw [u]
    decide
  · exact first ▸ (upperHex_plain _).2.1
  · exact second ▸ (upperHex_plain _).2.1
  · exact third ▸ (upperHex_plain _).2.1
  · exact fourth ▸ (upperHex_plain _).2.1

/-- An escape of a control character is passed over, by either replacement. -/
theorem replaceAll_unicodeEscape {next : Char} {new text : Str} (other : next ≠ 'u') (c : Char) :
    replaceAll ['\\', next] new (unicodeEscape c ++ text) =
      unicodeEscape c ++ replaceAll ['\\', next] new text := by
  rcases unicodeEscape_tail c with ⟨digits, shape, plain⟩
  rw [shape, List.cons_append, List.cons_append, replaceAll_other (Ne.symm other),
    ← List.cons_append, replaceAll_plain plain, List.cons_append, List.cons_append]
  rfl

theorem replaceAll_quotes (value : Str) :
    replaceAll escapedQuote quote (value.flatMap escapeChar) = value.flatMap halfShownChar := by
  induction value with
  | nil => rfl
  | cons c value ih =>
      rw [List.flatMap_cons, List.flatMap_cons, ← ih, escapeChar, halfShownChar, shownChar]
      split_ifs with quoted escaped control
      · exact replaceAll_append (by decide) _
      · have second : ¬escapedQuote <+: '\\' :: value.flatMap escapeChar := by
          intro begins
          rcases (List.cons_prefix_cons.mp begins).2 with ⟨rest, same⟩
          apply escape_head value
          rw [← same]
          rfl
        have first : ¬escapedQuote <+: '\\' :: '\\' :: value.flatMap escapeChar := by
          intro begins
          exact absurd (List.cons_prefix_cons.mp (List.cons_prefix_cons.mp begins).2).1 (by decide)
        calc replaceAll escapedQuote quote ('\\' :: '\\' :: value.flatMap escapeChar)
            = '\\' :: replaceAll escapedQuote quote ('\\' :: value.flatMap escapeChar) :=
              replaceAll_cons first
          _ = '\\' :: '\\' :: replaceAll escapedQuote quote (value.flatMap escapeChar) := by
              rw [replaceAll_cons second]
      · exact replaceAll_unicodeEscape (by decide) c
      · apply replaceAll_plain
        intro d member
        rw [List.mem_singleton.mp member]
        exact escaped

theorem replaceAll_backslashes (value : Str) :
    replaceAll escapedBackslash backslash (value.flatMap halfShownChar) = shown value := by
  induction value with
  | nil => rfl
  | cons c value ih =>
      rw [shown, List.flatMap_cons, List.flatMap_cons, ← shown, ← ih, halfShownChar]
      by_cases quoted : c = '"'
      · rw [if_pos quoted, shownChar, quoted, isControl_quote.1]
        apply replaceAll_plain
        intro d member
        rw [List.mem_singleton.mp member]
        decide
      · rw [if_neg quoted]
        by_cases escaped : c = '\\'
        · rw [if_pos escaped, shownChar, escaped, isControl_quote.2]
          exact replaceAll_append (by decide) _
        · rw [if_neg escaped, shownChar]
          split
          · exact replaceAll_unicodeEscape (by decide) c
          · apply replaceAll_plain
            intro d member
            rw [List.mem_singleton.mp member]
            exact escaped

/-- A value comes back with its control characters escaped. -/
theorem unquote_tomlString (value : Str) : unquote (tomlString value) = some (shown value) := by
  rw [unquote, tomlString, Str.stripPrefix_cons]
  calc (do
        let inner ← Str.stripSuffix '"' (value.flatMap escapeChar ++ ['"'])
        some (replaceAll escapedBackslash backslash (replaceAll escapedQuote quote inner)))
      = some (replaceAll escapedBackslash backslash
          (replaceAll escapedQuote quote (value.flatMap escapeChar))) := by
        rw [Str.stripSuffix_append]
        rfl
    _ = some (shown value) := by rw [replaceAll_quotes, replaceAll_backslashes]

/-! ### Reading the table -/

/-- The pin a set's lines are read as. -/
def readBack (set : SharedSet) : Option Pin :=
  checkedPin (Str.trim set.name) (shown set.url) (Str.lowercase (shown set.blake3))

theorem upperHex_ne (n : Nat) {c : Char} (other : Str.isHexDigit c = false) :
    upperHex (n % 16) ≠ c := by
  have small : n % 16 < 16 := Nat.mod_lt n (by decide)
  intro same
  rw [← same] at other
  generalize n % 16 = digit at small other
  revert digit
  decide

/-- No escaped value holds a line feed. -/
theorem lineFeed_not_mem_tomlString (value : Str) : '\n' ∉ tomlString value := by
  have absent (c : Char) : '\n' ∉ escapeChar c := by
    rw [escapeChar]
    split_ifs with quoted escaped control
    · decide
    · decide
    · simp only [unicodeEscape, List.mem_cons, List.not_mem_nil, or_false, not_or]
      exact ⟨by decide, by decide, (upperHex_ne _ (by decide)).symm,
        (upperHex_ne _ (by decide)).symm, (upperHex_ne _ (by decide)).symm,
        (upperHex_ne _ (by decide)).symm⟩
    · intro same
      rw [← List.mem_singleton.mp same] at control
      exact control (by decide)
  rw [tomlString]
  intro member
  rcases List.mem_cons.mp member with first | later
  · exact absurd first (by decide)
  · rcases List.mem_append.mp later with inside | last
    · rcases List.mem_flatMap.mp inside with ⟨c, _, within⟩
      exact absent c within
    · exact absurd last (by decide)

/-- A line that ends as `last` does is read as it stands. -/
structure ReadsLine (line : Str) : Prop where
  whole : '\n' ∉ line
  kept : Str.dropReturn line = line

theorem readsLine_of_last {body : Str} {last : Char} (whole : '\n' ∉ body) (feed : last ≠ '\n')
    (other : last ≠ '\r') : ReadsLine (body ++ [last]) := by
  refine ⟨?_, Str.dropReturn_append body other⟩
  rw [List.mem_append, List.mem_singleton, not_or]
  exact ⟨whole, feed.symm⟩

theorem lines_of_readsLine {text : List Str} (reads : ∀ line ∈ text, ReadsLine line) :
    Str.lines (text.flatMap fun line => line ++ ['\n']) = text := by
  induction text with
  | nil => rfl
  | cons line text ih =>
      have first := reads line List.mem_cons_self
      rw [List.flatMap_cons, List.append_assoc, List.singleton_append,
        Str.lines_append first.whole, first.kept,
        ih fun other later => reads other (List.mem_cons_of_mem _ later)]

theorem not_mem_intercalate {c : Char} {sep : Str} (fresh : c ∉ sep) {parts : List Str}
    (absent : ∀ part ∈ parts, c ∉ part) : c ∉ sep.intercalate parts := by
  induction parts with
  | nil => exact List.not_mem_nil
  | cons first rest ih =>
      have later := ih fun part member => absent part (List.mem_cons_of_mem _ member)
      have here := absent first List.mem_cons_self
      cases rest with
      | nil => rwa [List.intercalate_singleton]
      | cons second rest =>
          rw [List.intercalate_cons_cons, List.mem_append, List.mem_append, not_or, not_or]
          exact ⟨⟨here, fresh⟩, later⟩

theorem tomlString_line {lead : Str} (whole : '\n' ∉ lead) (value : Str) :
    ReadsLine (lead ++ tomlString value) := by
  have absent := lineFeed_not_mem_tomlString value
  rw [tomlString, ← List.cons_append, List.mem_append, not_or] at absent
  rw [tomlString, ← List.cons_append, ← List.append_assoc]
  apply readsLine_of_last _ (by decide) (by decide)
  rw [List.mem_append, not_or]
  exact ⟨whole, absent.1⟩

theorem setLines_read (closures : List (Str × List Str)) {set : SharedSet}
    (whole : '\n' ∉ set.name) : ∀ line ∈ setLines closures set, ReadsLine line := by
  have header : ReadsLine ('[' :: (set.name ++ [']'])) := by
    rw [← List.cons_append]
    apply readsLine_of_last _ (by decide) (by decide)
    rw [List.mem_cons, not_or]
    exact ⟨by decide, whole⟩
  have packages : ReadsLine ("packages = [".toList ++
      ([',', ' '].intercalate ((closureOf closures set.name).map tomlString) ++ [']'])) := by
    rw [← List.append_assoc]
    apply readsLine_of_last _ (by decide) (by decide)
    rw [List.mem_append, not_or]
    refine ⟨by decide, not_mem_intercalate (by decide) ?_⟩
    intro part member
    rcases List.mem_map.mp member with ⟨package, _, same⟩
    exact same ▸ lineFeed_not_mem_tomlString package
  have empty : ReadsLine [] := ⟨List.not_mem_nil, rfl⟩
  intro line member
  simp only [setLines, List.mem_cons, List.not_mem_nil, or_false] at member
  rcases member with same | same | same | same | same
  · exact same ▸ header
  · exact same ▸ tomlString_line (by decide) set.url
  · exact same ▸ tomlString_line (by decide) set.blake3
  · exact same ▸ packages
  · exact same ▸ empty

/-- A line is a value's where it opens no table. -/
theorem readLine_value (reading : Reading) {first last : Char} (body : Str) (opens : first ≠ '[')
    (begins : Str.isWhitespace first = false) (closes : Str.isWhitespace last = false) :
    readLine reading (first :: (body ++ [last])) = readValue reading (first :: (body ++ [last])) := by
  rw [readLine, Str.trim_between body begins closes]
  split
  · next rest same => exact absurd (List.cons.inj same).1 opens
  · rfl

theorem readValue_split (reading : Reading) (key value : Str) (plain : '=' ∉ key) :
    readValue reading (key ++ '=' :: ' ' :: value) =
      match unquote (Str.trim value) with
      | none => reading
      | some value =>
          if Str.trim key = ['u', 'r', 'l'] then { reading with url := some value }
          else if Str.trim key = ['b', 'l', 'a', 'k', 'e', '3'] then
            { reading with blake3 := some (Str.lowercase value) }
          else reading := by
  rw [readValue, Str.splitOnce_append plain]
  rfl

theorem trim_tomlString (value : Str) : Str.trim (tomlString value) = tomlString value :=
  Str.trim_between _ (by decide) (by decide)

theorem readLine_url (reading : Reading) (value : Str) :
    readLine reading ("url = ".toList ++ tomlString value) =
      { reading with url := some (shown value) } := by
  have split := readValue_split reading ['u', 'r', 'l', ' '] (tomlString value) (by decide)
  rw [trim_tomlString, unquote_tomlString] at split
  calc readLine reading ("url = ".toList ++ tomlString value)
      = readValue reading (['u', 'r', 'l', ' '] ++ '=' :: ' ' :: tomlString value) :=
        readLine_value reading ("rl = ".toList ++ '"' :: value.flatMap escapeChar) (by decide)
          (by decide) (by decide)
    _ = { reading with url := some (shown value) } := split

theorem readLine_blake3 (reading : Reading) (value : Str) :
    readLine reading ("blake3 = ".toList ++ tomlString value) =
      { reading with blake3 := some (Str.lowercase (shown value)) } := by
  have split := readValue_split reading "blake3 ".toList (tomlString value) (by decide)
  rw [trim_tomlString, unquote_tomlString] at split
  calc readLine reading ("blake3 = ".toList ++ tomlString value)
      = readValue reading ("blake3 ".toList ++ '=' :: ' ' :: tomlString value) :=
        readLine_value reading ("lake3 = ".toList ++ '"' :: value.flatMap escapeChar) (by decide)
          (by decide) (by decide)
    _ = { reading with blake3 := some (Str.lowercase (shown value)) } := split

/-- The packages are no quoted value, so the runtime passes them over. -/
theorem readLine_packages (reading : Reading) (packages : Str) :
    readLine reading ("packages = [".toList ++ (packages ++ [']'])) = reading := by
  have split := readValue_split reading "packages ".toList ('[' :: (packages ++ [']'])) (by decide)
  rw [Str.trim_between packages (by decide) (by decide)] at split
  calc readLine reading ("packages = [".toList ++ (packages ++ [']']))
      = readValue reading ("packages ".toList ++ '=' :: ' ' :: '[' :: (packages ++ [']'])) := by
        rw [← List.append_assoc]
        exact readLine_value reading ("ackages = [".toList ++ packages) (by decide) (by decide)
          (by decide)
    _ = reading := split

theorem readLine_header (reading : Reading) (name : Str) :
    readLine reading ('[' :: (name ++ [']'])) = ⟨some (Str.trim name), none, none, reading.flushed⟩ := by
  rw [readLine, Str.trim_between name (by decide) (by decide)]
  simp only [Str.stripSuffix_append, Option.map_some]

theorem foldl_setLines (closures : List (Str × List Str)) (set : SharedSet) (reading : Reading) :
    (setLines closures set).foldl readLine reading = ⟨some (Str.trim set.name),
      some (shown set.url), some (Str.lowercase (shown set.blake3)), reading.flushed⟩ := by
  rw [setLines, List.foldl_cons, readLine_header, List.foldl_cons, readLine_url, List.foldl_cons,
    readLine_blake3, List.foldl_cons, readLine_packages]
  rfl

/-! ### What comes back unchanged -/

theorem isControl_shown {value : Str} {c : Char} (member : c ∈ shown value) :
    Str.isControl c = false := by
  rcases List.mem_flatMap.mp member with ⟨origin, _, within⟩
  rw [shownChar] at within
  split at within
  · simp only [unicodeEscape, List.mem_cons, List.not_mem_nil, or_false] at within
    rcases within with same | same | same | same | same | same
    · exact same ▸ isControl_quote.2
    · rw [same]
      decide
    · exact same ▸ (upperHex_plain _).2.2
    · exact same ▸ (upperHex_plain _).2.2
    · exact same ▸ (upperHex_plain _).2.2
    · exact same ▸ (upperHex_plain _).2.2
  · next plain =>
      rw [List.mem_singleton.mp within]
      exact Bool.eq_false_iff.mpr plain

theorem shown_eq_self_iff {value : Str} :
    shown value = value ↔ ∀ c ∈ value, Str.isControl c = false := by
  constructor
  · intro same c member
    rw [← same] at member
    exact isControl_shown member
  · intro plain
    induction value with
    | nil => rfl
    | cons c value ih =>
        have first : shownChar c = [c] := by
          rw [shownChar, plain c List.mem_cons_self]
          rfl
        rw [shown, List.flatMap_cons, ← shown, first,
          ih fun d later => plain d (List.mem_cons_of_mem _ later)]
        rfl

theorem isDigest_lowercase (blake3 : Str) : isDigest (Str.lowercase blake3) = isDigest blake3 := by
  rw [isDigest, isDigest, Str.lowercase, List.length_map, List.all_map]
  congr 2
  funext c
  exact Str.isHexDigit_toLower c

theorem isControl_of_isDigest {blake3 : Str} (digest : isDigest blake3 = true) :
    ∀ c ∈ blake3, Str.isControl c = false := by
  rw [isDigest, Bool.and_eq_true, List.all_eq_true] at digest
  intro c member
  exact Str.isControl_of_isHexDigit (digest.2 c member)

/-- The pin a declaration stands for. -/
def pinOf (set : SharedSet) : Pin := ⟨set.name, set.url, Str.lowercase set.blake3⟩

/-- The table carries the declaration as it is. -/
structure Recorded (set : SharedSet) : Prop where
  name : Readable set.name
  blake3 : isDigest set.blake3 = true
  url : ∀ c ∈ set.url, Str.isControl c = false

theorem readBack_of_recorded {set : SharedSet} (recorded : Recorded set) :
    readBack set = some (pinOf set) := by
  have hash := shown_eq_self_iff.mpr (isControl_of_isDigest recorded.blake3)
  rw [readBack, Str.trim_of_trimmed recorded.name.trimmed, shown_eq_self_iff.mpr recorded.url, hash]
  apply checkedPin_eq_some.mpr
  exact ⟨recorded.name.nonempty, recorded.name.noSlash, recorded.name.visible,
    (isDigest_lowercase _).trans recorded.blake3, rfl⟩

/-- A table whose names are one line each is read set by set. -/
theorem parse_renderSets {sets : List SharedSet} (closures : List (Str × List Str))
    (whole : ∀ set ∈ sets, '\n' ∉ set.name) :
    parse (renderSets sets closures) = sets.filterMap readBack := by
  have gathered (reading : Reading) : ((sets.flatMap (setLines closures)).foldl readLine
      reading).flushed = reading.flushed ++ sets.filterMap readBack := by
    clear whole
    induction sets generalizing reading with
    | nil => exact (List.append_nil _).symm
    | cons set sets ih =>
        rw [List.flatMap_cons, List.foldl_append, foldl_setLines, ih, Reading.flushed,
          List.append_assoc, List.filterMap_cons, ← readBack]
        cases readBack set with
        | none => rfl
        | some pin => rfl
  rw [parse, renderSets, lines_of_readsLine]
  · exact gathered _
  · intro line member
    rcases List.mem_flatMap.mp member with ⟨set, within, inside⟩
    exact setLines_read closures (whole set within) line inside

/-! ### Tables that name every set -/

/-- The pin a set is read as where its name and hash come back as they are. -/
def shownPin (set : SharedSet) : Pin := ⟨set.name, shown set.url, Str.lowercase set.blake3⟩

/-- A hash that is read as a digest is one. -/
theorem shown_of_isDigest {blake3 : Str} (digest : isDigest (shown blake3) = true) :
    shown blake3 = blake3 := by
  rw [isDigest, Bool.and_eq_true, List.all_eq_true] at digest
  rw [shown_eq_self_iff]
  intro c member
  cases control : Str.isControl c with
  | false => rfl
  | true =>
      have escaped : '\\' ∈ shown blake3 := by
        apply List.mem_flatMap.mpr
        refine ⟨c, member, ?_⟩
        rw [shownChar, if_pos control]
        exact List.mem_cons_self
      exact absurd (digest.2 _ escaped) (by decide)

theorem readBack_eq_some {set : SharedSet} {pin : Pin} (read : readBack set = some pin) :
    pin.label = Str.trim set.name ∧ isDigest set.blake3 = true ∧ pin.url = shown set.url ∧
      pin.blake3 = Str.lowercase set.blake3 := by
  rcases checkedPin_eq_some.mp read with ⟨-, -, -, digest, same⟩
  rw [isDigest_lowercase] at digest
  have hash := shown_of_isDigest digest
  rw [hash] at digest same
  rw [same]
  exact ⟨rfl, digest, rfl, rfl⟩

variable {sets : List SharedSet}

/-- A table that gives a pin under every declared name is read set by set, with only the addresses
changed. -/
theorem parse_of_labels (closures : List (Str × List Str))
    (distinct : (sets.map SharedSet.name).Nodup)
    (labelled : ∀ set ∈ sets, ∃ pin ∈ parse (renderSets sets closures), pin.label = set.name) :
    parse (renderSets sets closures) = sets.map shownPin ∧
      ∀ set ∈ sets, Readable set.name ∧ isDigest set.blake3 = true := by
  have readable : ∀ set ∈ sets, Readable set.name := by
    intro set member
    rcases labelled set member with ⟨pin, read, same⟩
    exact same ▸ (mem_parse read).1
  have exact := parse_renderSets closures fun set member => (readable set member).oneLine
  have each : ∀ set ∈ sets, readBack set = some (shownPin set) ∧ isDigest set.blake3 = true := by
    intro set member
    rcases labelled set member with ⟨pin, read, label⟩
    rw [exact] at read
    rcases List.mem_filterMap.mp read with ⟨other, within, back⟩
    rcases readBack_eq_some back with ⟨name, digest, url, blake3⟩
    rw [Str.trim_of_trimmed (readable other within).trimmed] at name
    have same : other = set :=
      List.inj_on_of_nodup_map distinct within member (name.symm.trans label)
    rw [same] at back digest name url blake3
    refine ⟨back.trans ?_, digest⟩
    rw [shownPin, ← name, ← url, ← blake3]
  constructor
  · rw [exact, List.filterMap_congr fun set member => (each set member).1]
    exact congrFun List.filterMap_eq_map sets
  · intro set member
    exact ⟨readable set member, (each set member).2⟩

theorem parse_of_recorded (closures : List (Str × List Str))
    (recorded : ∀ set ∈ sets, Recorded set) :
    parse (renderSets sets closures) = sets.map pinOf := by
  rw [parse_renderSets closures fun set member => (recorded set member).name.oneLine,
    List.filterMap_congr fun set member => readBack_of_recorded (recorded set member)]
  exact congrFun List.filterMap_eq_map sets

theorem shownPin_eq_iff {set : SharedSet} :
    shownPin set = pinOf set ↔ ∀ c ∈ set.url, Str.isControl c = false := by
  rw [← shown_eq_self_iff, shownPin, pinOf, Pin.mk.injEq]
  constructor
  · intro same
    exact same.2.1
  · intro same
    exact ⟨rfl, same, rfl⟩

/-- Read with their addresses shown, sets are read as they are where no address changes. -/
theorem map_shownPin_perm_iff (distinct : (sets.map SharedSet.name).Nodup) :
    (sets.map shownPin).Perm (sets.map pinOf) ↔
      ∀ set ∈ sets, ∀ c ∈ set.url, Str.isControl c = false := by
  constructor
  · intro perm set member
    have inside : pinOf set ∈ sets.map shownPin :=
      perm.mem_iff.mpr (List.mem_map_of_mem member)
    rcases List.mem_map.mp inside with ⟨other, within, same⟩
    have name : other.name = set.name := congrArg Pin.label same
    rw [List.inj_on_of_nodup_map distinct within member name] at same
    exact shownPin_eq_iff.mp same
  · intro plain
    rw [List.map_congr_left fun set member => shownPin_eq_iff.mpr (plain set member)]

end Onelf.Cli.Build
