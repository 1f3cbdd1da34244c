import Onelf.Lib.Checked
import Onelf.Runtime.View.Identity

/-! The configuration record of a view, as it is written and read back (`view` of
`onelf-rt/src/links.rs`). -/

namespace Onelf.Runtime.View

open Onelf.Lib Onelf.Lib.Checked Onelf.Format

def recordMaxBytes : Nat := 4 * 1024 * 1024

structure ViewRecord where
  canonical : Bytes
  expandedEnv : Option Bytes
  deriving DecidableEq

/-! ### Writing -/

/-- The line publication adds: the hash of the environment input as expanded into the view. -/
def expandedLine : Option Digest → Bytes
  | some digest => utf8 "expanded " ++ (hexPrefix digest.bytes ++ [lineFeed])
  | none => utf8 "expanded -\n"

def writeRecord (blake3 : Bytes → Digest) (identity : ViewIdentity) (expandedEnv : Option Bytes) :
    Bytes :=
  identity.canonical ++ expandedLine (expandedEnv.map blake3)

/-! ### Reading -/

def splitLine (bytes : Bytes) : Checked (Bytes × Bytes) := do
  let place ← orMiss (position lineFeed bytes)
  let line ← upTo bytes place
  let start ← add place 1
  let tail ← after bytes start
  .ok (line, tail)

/-- `<len>:<bytes>`; gives what follows the bytes. -/
def sizedField (text : Bytes) : Checked Bytes := do
  let colon ← orMiss (position 58 text)
  let digits ← upTo text colon
  let len ← orMiss (parseUsize digits)
  let start ← add colon 1
  let stop ← add start len
  orMiss (getFrom text stop)

def scalarLine (rest tag : Bytes) : Checked Bytes := do
  let line ← splitLine rest
  let _ ← orMiss (stripPrefix tag line.1)
  .ok line.2

def valueLine (rest tag : Bytes) : Checked Bytes := do
  let behind ← orMiss (stripPrefix tag rest)
  match stripPrefix (utf8 " -\n") behind with
  | some tail => .ok tail
  | none => do
      let field ← orMiss (stripPrefix (utf8 " ") behind)
      let tail ← sizedField field
      orMiss (stripPrefix (utf8 "\n") tail)

/-- One side of a link line, between its lead and its trail. -/
def sizedPart (lead trail rest : Bytes) : Checked Bytes := do
  let field ← orMiss (stripPrefix lead rest)
  let tail ← sizedField field
  orMiss (stripPrefix trail tail)

def readLinkLine (rest : Bytes) : Checked Bytes := do
  let target ← sizedPart (utf8 "link ") (utf8 "\t") rest
  sizedPart [] (utf8 "\n") target

def readLinkLines : Nat → Bytes → Checked Bytes
  | 0, rest => .ok rest
  | count + 1, rest => do
      let next ← readLinkLine rest
      readLinkLines count next

def readLinks (rest : Bytes) : Checked Bytes := do
  let line ← splitLine rest
  let digits ← orMiss (stripPrefix (utf8 "links ") line.1)
  let count ← orMiss (parseUsize digits)
  if count > maxViewLinks then .error .miss else readLinkLines count line.2

def scalarTags : List Bytes :=
  [utf8 "uid ", utf8 "package ", utf8 "meta ", utf8 "policy ", utf8 "shadow "]

def valueTags : List Bytes := [utf8 "loader", utf8 "entry", utf8 "pins"]

/-- What follows the canonical text at the top of `bytes`, and where that text ends. -/
def parseCanonical (bytes : Bytes) : Checked (Bytes × Nat) := do
  let scalars ← orMiss (stripPrefix viewHeader bytes)
  let values ← scalarTags.foldlM scalarLine scalars
  let links ← valueTags.foldlM valueLine values
  let env ← readLinks links
  let rest ← valueLine env (utf8 "env")
  let stop ← sub bytes.length rest.length
  .ok (rest, stop)

def hexDigest (bytes : Bytes) : Option Bytes :=
  if bytes.length = 64 && bytes.all isLowerHex then some bytes else none

def readExpanded (line : Bytes) : Checked (Option Bytes) := do
  let shown ← orMiss (stripPrefix (utf8 "expanded ") line)
  if shown = utf8 "-" then .ok none else (orMiss (hexDigest shown)).map some

def parseRecord (bytes : Bytes) : Checked (Bytes × Option Bytes) := do
  let read ← parseCanonical bytes
  let line ← splitLine read.1
  let expanded ← readExpanded line.1
  if line.2 ≠ [] then .error .miss
  else do
    let canonical ← upTo bytes read.2
    .ok (canonical, expanded)

/-- The record `identity` names, of the configuration file's bytes. -/
def loadRecord (identity : ViewIdentity) (bytes : Bytes) : Checked ViewRecord :=
  if bytes.length > recordMaxBytes then .error .miss
  else do
    let parsed ← parseRecord bytes
    if parsed.1 ≠ identity.canonical then .error .miss else .ok ⟨parsed.1, parsed.2⟩

/-! ### What a read of the layout is -/

/-- A part of the layout, between its fixed bytes. -/
inductive Item where
  | scalar (tag : Bytes)
  | value (tag : Bytes)
  | sized (lead trail : Bytes)
  | links

/-- `digits` is a length, and `value` has it. -/
def Measures (digits value : Bytes) : Prop := 58 ∉ digits ∧ parseUsize digits = some value.length

/-- A length field behind which so many bytes that their end has no `usize`. -/
def HugeLength (text : Bytes) : Prop :=
  ∃ digits rest len, text = digits ++ 58 :: rest ∧ 58 ∉ digits ∧ parseUsize digits = some len ∧
    usizeLimit ≤ digits.length + 1 + len

def linkItems : List Item := [.sized (utf8 "link ") (utf8 "\t"), .sized [] (utf8 "\n")]

/-- `item` lies at the top of `text` and `rest` behind it, where the items of `more` come first. -/
inductive Takes : Item → Bytes → List Item → Bytes → Prop where
  | scalar {tag line rest : Bytes} (plain : lineFeed ∉ tag ++ line) :
      Takes (.scalar tag) (tag ++ line ++ lineFeed :: rest) [] rest
  | absent {tag rest : Bytes} : Takes (.value tag) (tag ++ (utf8 " -\n" ++ rest)) [] rest
  | value {tag digits value rest : Bytes} (measures : Measures digits value) :
      Takes (.value tag) (tag ++ (utf8 " " ++ (digits ++ 58 :: (value ++ (utf8 "\n" ++ rest))))) [] rest
  | sized {lead trail digits value rest : Bytes} (measures : Measures digits value) :
      Takes (.sized lead trail) (lead ++ (digits ++ 58 :: (value ++ (trail ++ rest)))) [] rest
  | links {digits rest : Bytes} {count : Nat} (plain : lineFeed ∉ digits)
      (counts : parseUsize digits = some count) (few : count ≤ maxViewLinks) :
      Takes .links (utf8 "links " ++ digits ++ lineFeed :: rest)
        (List.replicate count linkItems).flatten rest

def Item.Huge : Item → Bytes → Prop
  | .scalar _, _ => False
  | .value tag, text => ∃ field, text = tag ++ (utf8 " " ++ field) ∧ HugeLength field
  | .sized lead _, text => ∃ field, text = lead ++ field ∧ HugeLength field
  | .links, _ => False

/-- The items lie one behind the other, up to `rest`. -/
inductive Through : List Item → Bytes → Bytes → Prop where
  | nil {text : Bytes} : Through [] text text
  | cons {item : Item} {items more : List Item} {text middle next rest : Bytes}
      (first : Takes item text more middle) (inner : Through more middle next)
      (later : Through items next rest) : Through (item :: items) text rest

/-- The items lie one behind the other up to one of a huge length. -/
inductive HugeIn : List Item → Bytes → Prop where
  | here {item : Item} {items : List Item} {text : Bytes} (huge : item.Huge text) :
      HugeIn (item :: items) text
  | within {item : Item} {items more : List Item} {text middle : Bytes}
      (first : Takes item text more middle) (inner : HugeIn more middle) : HugeIn (item :: items) text
  | later {item : Item} {items more : List Item} {text middle next : Bytes}
      (first : Takes item text more middle) (inner : Through more middle next)
      (rest : HugeIn items next) : HugeIn (item :: items) text

/-- The layout of a canonical text behind its header. -/
def recordItems : List Item :=
  scalarTags.map .scalar ++ (valueTags.map .value ++ ([.links] ++ [.value (utf8 "env")]))

/-- A length field of the layout that no `usize` bounds, before which all is well formed. -/
def HugeRecord (bytes : Bytes) : Prop := ∃ text, bytes = viewHeader ++ text ∧ HugeIn recordItems text

theorem Takes.suffix {item : Item} {more : List Item} {text rest : Bytes}
    (takes : Takes item text more rest) : rest <:+ text := by
  cases takes with
  | scalar _ => exact ⟨_, by rw [← List.append_cons]⟩
  | absent => exact ⟨_, List.append_assoc _ _ _⟩
  | @value tag digits value _ _ =>
      exact ⟨tag ++ (utf8 " " ++ (digits ++ 58 :: (value ++ utf8 "\n"))), by
        simp only [List.append_assoc, List.cons_append]⟩
  | @sized lead trail digits value _ _ =>
      exact ⟨lead ++ (digits ++ 58 :: (value ++ trail)), by
        simp only [List.append_assoc, List.cons_append]⟩
  | links _ _ _ => exact ⟨_, by rw [← List.append_cons]⟩

theorem Through.suffix {items : List Item} {text rest : Bytes} (through : Through items text rest) :
    rest <:+ text := by
  induction through with
  | nil => exact List.suffix_refl _
  | cons first _ _ inner later => exact later.trans (inner.trans first.suffix)

theorem Through.shorter {items : List Item} {text rest : Bytes} (through : Through items text rest) :
    rest.length ≤ text.length := through.suffix.length_le

theorem through_append {first second : List Item} {text rest : Bytes} :
    Through (first ++ second) text rest ↔
      ∃ middle, Through first text middle ∧ Through second middle rest := by
  induction first generalizing text with
  | nil =>
      constructor
      · intro through
        exact ⟨text, .nil, through⟩
      · intro both
        rcases both with ⟨_, here, through⟩
        cases here
        exact through
  | cons item first ih =>
      constructor
      · intro through
        cases through with
        | cons takes inner later =>
            rcases ih.mp later with ⟨middle, before, behind⟩
            exact ⟨middle, .cons takes inner before, behind⟩
      · intro both
        rcases both with ⟨middle, before, behind⟩
        cases before with
        | cons takes inner later => exact .cons takes inner (ih.mpr ⟨middle, later, behind⟩)

theorem hugeIn_append {first second : List Item} {text : Bytes} :
    HugeIn (first ++ second) text ↔
      HugeIn first text ∨ ∃ middle, Through first text middle ∧ HugeIn second middle := by
  induction first generalizing text with
  | nil =>
      constructor
      · intro huge
        exact Or.inr ⟨text, .nil, huge⟩
      · intro either
        rcases either with none | ⟨_, here, huge⟩
        · cases none
        · cases here
          exact huge
  | cons item first ih =>
      constructor
      · intro huge
        cases huge with
        | here huge => exact Or.inl (.here huge)
        | within takes inner => exact Or.inl (.within takes inner)
        | later takes inner rest =>
            rcases ih.mp rest with before | ⟨middle, before, behind⟩
            · exact Or.inl (.later takes inner before)
            · exact Or.inr ⟨middle, .cons takes inner before, behind⟩
      · intro either
        rcases either with huge | ⟨middle, before, behind⟩
        · cases huge with
          | here huge => exact .here huge
          | within takes inner => exact .within takes inner
          | later takes inner rest => exact .later takes inner (ih.mpr (Or.inl rest))
        · cases before with
          | cons takes inner later =>
              exact .later takes inner (ih.mpr (Or.inr ⟨middle, later, behind⟩))

/-- `reader` reads exactly the items, and overflows exactly at a huge length. -/
structure Follows (reader : Bytes → Checked Bytes) (items : List Item) : Prop where
  ok : ∀ {text rest}, text.length < usizeLimit → (reader text = .ok rest ↔ Through items text rest)
  overflow : ∀ {text}, text.length < usizeLimit →
    (reader text = .error .overflow ↔ HugeIn items text)
  inRange : ∀ {text}, text.length < usizeLimit → reader text ≠ .error .outOfRange

theorem Follows.nil : Follows (fun text => .ok text) [] where
  ok := by
    intro text rest _
    constructor
    · intro same
      rw [Except.ok.inj same]
      exact .nil
    · intro through
      cases through
      rfl
  overflow := by
    intro text _
    constructor
    · intro failed
      cases failed
    · intro huge
      cases huge
  inRange := by
    intro text _ failed
    cases failed

theorem Follows.andThen {first second : Bytes → Checked Bytes} {items items' : List Item}
    (follows : Follows first items) (then_follows : Follows second items') :
    Follows (fun text => first text >>= second) (items ++ items') where
  ok := by
    intro text rest short
    rw [Except.andThen_eq_ok, through_append]
    constructor
    · intro both
      rcases both with ⟨middle, before, behind⟩
      have through := (follows.ok short).mp before
      exact ⟨middle, through, (then_follows.ok (lt_of_le_of_lt through.shorter short)).mp behind⟩
    · intro both
      rcases both with ⟨middle, before, behind⟩
      exact ⟨middle, (follows.ok short).mpr before,
        (then_follows.ok (lt_of_le_of_lt before.shorter short)).mpr behind⟩
  overflow := by
    intro text short
    rw [bind_eq_error, hugeIn_append, follows.overflow short]
    apply or_congr_right
    constructor
    · intro both
      rcases both with ⟨middle, before, behind⟩
      have through := (follows.ok short).mp before
      exact ⟨middle, through,
        (then_follows.overflow (lt_of_le_of_lt through.shorter short)).mp behind⟩
    · intro both
      rcases both with ⟨middle, before, behind⟩
      exact ⟨middle, (follows.ok short).mpr before,
        (then_follows.overflow (lt_of_le_of_lt before.shorter short)).mpr behind⟩
  inRange := by
    intro text short failed
    rcases bind_eq_error.mp failed with here | ⟨middle, before, behind⟩
    · exact follows.inRange short here
    · have through := (follows.ok short).mp before
      exact then_follows.inRange (lt_of_le_of_lt through.shorter short) behind

theorem Follows.congr {reader reader' : Bytes → Checked Bytes} {items items' : List Item}
    (follows : Follows reader items) (same : ∀ text, reader' text = reader text)
    (items_same : items' = items) : Follows reader' items' := by
  rw [funext same, items_same]
  exact follows

/-- Items read by one step each, in a row. -/
theorem Follows.foldlM {step : Bytes → Bytes → Checked Bytes} {item : Bytes → Item}
    (one : ∀ tag, Follows (fun text => step text tag) [item tag]) (tags : List Bytes) :
    Follows (fun text => tags.foldlM step text) (tags.map item) := by
  induction tags with
  | nil => exact Follows.nil
  | cons tag tags ih =>
      apply ((one tag).andThen ih).congr
      · intro text
        rfl
      · rfl

/-! ### The readers follow the layout -/

theorem splitLine_eq {bytes : Bytes} (short : bytes.length < usizeLimit) :
    splitLine bytes = orMiss (splitOnce lineFeed bytes) := by
  cases split : splitOnce lineFeed bytes with
  | none => rw [splitLine, position_eq_none split, orMiss_none, bind_error, orMiss_none]
  | some pair =>
      rcases pair with ⟨line, tail⟩
      rcases splitOnce_eq_some.mp split with ⟨absent, rfl⟩
      have room : line.length + 1 < usizeLimit := by
        rw [List.length_append, List.length_cons] at short
        omega
      rw [splitLine, position_append absent, orMiss_some, bind_ok, upTo_append, bind_ok, Checked.add,
        if_pos room, bind_ok, after_mark, bind_ok, orMiss_some]

/-- What a length field gives. -/
theorem sizedField_eq {text : Bytes} (short : text.length < usizeLimit) :
    sizedField text =
      match splitOnce 58 text with
      | none => .error .miss
      | some (digits, rest) =>
          match parseUsize digits with
          | none => .error .miss
          | some len =>
              if usizeLimit ≤ digits.length + 1 + len then .error .overflow
              else if len ≤ rest.length then .ok (rest.drop len) else .error .miss := by
  cases split : splitOnce 58 text with
  | none => rw [sizedField, position_eq_none split, orMiss_none, bind_error]
  | some pair =>
      rcases pair with ⟨digits, rest⟩
      rcases splitOnce_eq_some.mp split with ⟨absent, rfl⟩
      have room : digits.length + 1 < usizeLimit := by
        rw [List.length_append, List.length_cons] at short
        omega
      rw [sizedField, position_append absent, orMiss_some, bind_ok, upTo_append, bind_ok]
      cases parsed : parseUsize digits with
      | none => simp only [parsed, orMiss_none, bind_error]
      | some len =>
          simp only [parsed]
          rw [orMiss_some, bind_ok, Checked.add, if_pos room, bind_ok, Checked.add]
          by_cases huge : usizeLimit ≤ digits.length + 1 + len
          · rw [if_neg (Nat.not_lt.mpr huge), if_pos huge, bind_error]
          · rw [if_pos (Nat.lt_of_not_ge huge), if_neg huge, bind_ok, getFrom_mark]
            by_cases enough : len ≤ rest.length
            · rw [if_pos enough, if_pos enough, orMiss_some]
            · rw [if_neg enough, if_neg enough, orMiss_none]

theorem sizedField_eq_ok {text tail : Bytes} (short : text.length < usizeLimit) :
    sizedField text = .ok tail ↔
      ∃ digits value, text = digits ++ 58 :: (value ++ tail) ∧ Measures digits value := by
  rw [sizedField_eq short]
  constructor
  · intro read
    cases split : splitOnce 58 text with
    | none => simp [split] at read
    | some pair =>
        rcases pair with ⟨digits, rest⟩
        rcases splitOnce_eq_some.mp split with ⟨absent, rfl⟩
        simp only [split] at read
        cases parsed : parseUsize digits with
        | none => simp [parsed] at read
        | some len =>
            simp only [parsed] at read
            split at read
            · cases read
            · split at read
              · next enough =>
                  rw [← Except.ok.inj read]
                  refine ⟨digits, rest.take len, by rw [List.take_append_drop], absent, ?_⟩
                  rw [parsed, List.length_take, Nat.min_eq_left enough]
              · cases read
  · intro shape
    rcases shape with ⟨digits, value, rfl, absent, parsed⟩
    have room : ¬usizeLimit ≤ digits.length + 1 + value.length := by
      rw [List.length_append, List.length_cons, List.length_append] at short
      omega
    simp only [splitOnce_append absent, parsed, if_neg room, List.drop_left]
    rw [if_pos (by simp)]

theorem sizedField_overflows {text : Bytes} (short : text.length < usizeLimit) :
    sizedField text = .error .overflow ↔ HugeLength text := by
  rw [sizedField_eq short]
  constructor
  · intro failed
    cases split : splitOnce 58 text with
    | none => simp [split] at failed
    | some pair =>
        rcases pair with ⟨digits, rest⟩
        rcases splitOnce_eq_some.mp split with ⟨absent, rfl⟩
        simp only [split] at failed
        cases parsed : parseUsize digits with
        | none => simp [parsed] at failed
        | some len =>
            simp only [parsed] at failed
            split at failed
            · next huge => exact ⟨digits, rest, len, rfl, absent, parsed, huge⟩
            · split at failed
              · cases failed
              · cases failed
  · intro shape
    rcases shape with ⟨digits, rest, len, rfl, absent, parsed, huge⟩
    simp only [splitOnce_append absent, parsed, if_pos huge]

theorem sizedField_inRange {text : Bytes} (short : text.length < usizeLimit) :
    sizedField text ≠ .error .outOfRange := by
  rw [sizedField_eq short]
  intro failed
  split at failed
  · cases failed
  · split at failed
    · cases failed
    · split at failed
      · cases failed
      · split at failed
        · cases failed
        · cases failed

theorem Takes.alone {item : Item} {more : List Item} {text rest : Bytes}
    (takes : Takes item text more rest) (plain : item ≠ .links) : more = [] := by
  cases takes with
  | links _ _ _ => exact absurd rfl plain
  | _ => rfl

/-- The reader of one item that has no others inside. -/
theorem Follows.single {reader : Bytes → Checked Bytes} {item : Item} (plain : item ≠ .links)
    (ok : ∀ {text rest}, text.length < usizeLimit →
      (reader text = .ok rest ↔ Takes item text [] rest))
    (overflow : ∀ {text}, text.length < usizeLimit →
      (reader text = .error .overflow ↔ item.Huge text))
    (inRange : ∀ {text}, text.length < usizeLimit → reader text ≠ .error .outOfRange) :
    Follows reader [item] where
  ok := by
    intro text rest short
    rw [ok short]
    constructor
    · intro takes
      exact .cons takes .nil .nil
    · intro through
      cases through with
      | cons takes inner later =>
          have alone := takes.alone plain
          rw [alone] at takes inner
          cases inner
          cases later
          exact takes
  overflow := by
    intro text short
    rw [overflow short]
    constructor
    · exact .here
    · intro huge
      cases huge with
      | here huge => exact huge
      | within takes inner =>
          rw [takes.alone plain] at inner
          cases inner
      | later _ _ rest => cases rest
  inRange := inRange

theorem scalarLine_eq {rest tag : Bytes} (short : rest.length < usizeLimit) :
    scalarLine rest tag = orMiss ((splitOnce lineFeed rest).bind fun line =>
      (stripPrefix tag line.1).map fun _ => line.2) := by
  rw [scalarLine, splitLine_eq short]
  cases splitOnce lineFeed rest with
  | none => rfl
  | some line =>
      rw [orMiss_some, bind_ok, Option.bind_some]
      cases stripPrefix tag line.1 with
      | none => rfl
      | some shown => rfl

theorem scalarLine_follows (tag : Bytes) : Follows (fun text => scalarLine text tag) [.scalar tag] := by
  apply Follows.single (fun same => by cases same)
  · intro text rest short
    rw [scalarLine_eq short, orMiss_eq_ok, Option.bind_eq_some_iff]
    constructor
    · intro read
      rcases read with ⟨⟨line, tail⟩, split, stripped⟩
      rcases Option.map_eq_some_iff.mp stripped with ⟨shown, strip, rfl⟩
      rcases splitOnce_eq_some.mp split with ⟨absent, rfl⟩
      rw [stripPrefix_eq_some] at strip
      simp only at strip
      rw [strip] at absent ⊢
      exact .scalar absent
    · intro takes
      cases takes with
      | scalar plain =>
          exact ⟨_, splitOnce_append plain _, by rw [stripPrefix_append, Option.map_some]⟩
  · intro text short
    rw [scalarLine_eq short, orMiss_eq_error]
    constructor
    · intro failed
      cases failed.2
    · intro huge
      cases huge
  · intro text short failed
    rw [scalarLine_eq short, orMiss_eq_error] at failed
    cases failed.2

/-- A length field and what has to stand behind it. -/
theorem fieldBefore_eq_ok {trail text rest : Bytes} (short : text.length < usizeLimit) :
    (sizedField text >>= fun tail => orMiss (stripPrefix trail tail)) = .ok rest ↔
      ∃ digits value, text = digits ++ 58 :: (value ++ (trail ++ rest)) ∧ Measures digits value := by
  rw [Except.andThen_eq_ok]
  simp only [sizedField_eq_ok short, orMiss_eq_ok, stripPrefix_eq_some]
  constructor
  · intro read
    rcases read with ⟨_, ⟨digits, value, same, measures⟩, rfl⟩
    exact ⟨digits, value, same, measures⟩
  · intro shape
    rcases shape with ⟨digits, value, same, measures⟩
    exact ⟨_, ⟨digits, value, same, measures⟩, rfl⟩

theorem fieldBefore_overflows {trail text : Bytes} (short : text.length < usizeLimit) :
    (sizedField text >>= fun tail => orMiss (stripPrefix trail tail)) = .error .overflow ↔
      HugeLength text := by
  rw [bind_eq_error, sizedField_overflows short]
  apply or_iff_left
  intro later
  rcases later with ⟨_, _, failed⟩
  cases (orMiss_eq_error.mp failed).2

theorem fieldBefore_inRange {trail text : Bytes} (short : text.length < usizeLimit) :
    (sizedField text >>= fun tail => orMiss (stripPrefix trail tail)) ≠ .error .outOfRange := by
  intro failed
  rcases bind_eq_error.mp failed with here | ⟨_, _, later⟩
  · exact sizedField_inRange short here
  · cases (orMiss_eq_error.mp later).2

theorem sizedPart_follows (lead trail : Bytes) :
    Follows (sizedPart lead trail) [.sized lead trail] := by
  have stripped {text field : Bytes} (strip : stripPrefix lead text = some field) :
      sizedPart lead trail text = sizedField field >>= fun tail => orMiss (stripPrefix trail tail) := by
    rw [sizedPart, strip]
    rfl
  have missed {text : Bytes} (strip : stripPrefix lead text = none) :
      sizedPart lead trail text = .error .miss := by
    rw [sizedPart, strip]
    rfl
  have shorter {text field : Bytes} (strip : stripPrefix lead text = some field)
      (short : text.length < usizeLimit) : field.length < usizeLimit := by
    rw [stripPrefix_eq_some.mp strip, List.length_append] at short
    omega
  apply Follows.single (fun same => by cases same)
  · intro text rest short
    constructor
    · intro read
      cases strip : stripPrefix lead text with
      | none =>
          rw [missed strip] at read
          cases read
      | some field =>
          rw [stripped strip, fieldBefore_eq_ok (shorter strip short)] at read
          rcases read with ⟨digits, value, same, measures⟩
          rw [stripPrefix_eq_some.mp strip, same]
          exact .sized measures
    · intro takes
      cases takes with
      | sized measures =>
          have strip := stripPrefix_append lead
          rw [stripped (strip _), fieldBefore_eq_ok (shorter (strip _) short)]
          exact ⟨_, _, rfl, measures⟩
  · intro text short
    constructor
    · intro failed
      cases strip : stripPrefix lead text with
      | none =>
          rw [missed strip] at failed
          cases failed
      | some field =>
          rw [stripped strip, fieldBefore_overflows (shorter strip short)] at failed
          exact ⟨field, stripPrefix_eq_some.mp strip, failed⟩
    · intro huge
      rcases huge with ⟨field, rfl, huge⟩
      have strip := stripPrefix_append lead field
      rw [stripped strip, fieldBefore_overflows (shorter strip short)]
      exact huge
  · intro text short failed
    cases strip : stripPrefix lead text with
    | none =>
        rw [missed strip] at failed
        cases failed
    | some field =>
        rw [stripped strip] at failed
        exact fieldBefore_inRange (shorter strip short) failed

/-- No length begins like an absent value. -/
theorem Measures.not_dash {digits value rest rest' : Bytes} (measures : Measures digits value) :
    digits ++ 58 :: rest ≠ 45 :: rest' := by
  intro same
  have parsed := measures.2
  cases digits with
  | nil =>
      rw [List.nil_append] at same
      exact absurd (List.cons.inj same).1 (by decide)
  | cons digit digits =>
      rw [List.cons_append] at same
      rw [(List.cons.inj same).1] at parsed
      simp [parseUsize, dropSign, isDigit] at parsed

theorem Measures.not_absent {digits value : Bytes} (measures : Measures digits value) (rest : Bytes) :
    stripPrefix (utf8 " -\n") (utf8 " " ++ (digits ++ 58 :: rest)) = none := by
  rw [stripPrefix_eq_none]
  intro rest' same
  have dash : digits ++ 58 :: rest = 45 :: 10 :: rest' := (List.cons.inj same).2
  exact measures.not_dash dash

theorem HugeLength.not_dash {rest : Bytes} : ¬HugeLength (45 :: rest) := by
  intro huge
  rcases huge with ⟨digits, after, len, same, absent, parsed, _⟩
  cases digits with
  | nil => exact absurd (List.cons.inj same).1 (by decide)
  | cons digit digits =>
      rw [← (List.cons.inj same).1] at parsed
      simp [parseUsize, dropSign, isDigit] at parsed

theorem valueLine_follows (tag : Bytes) : Follows (fun text => valueLine text tag) [.value tag] := by
  have missed {text : Bytes} (strip : stripPrefix tag text = none) :
      valueLine text tag = .error .miss := by
    rw [valueLine, strip]
    rfl
  have absent {text tail : Bytes} (same : text = tag ++ (utf8 " -\n" ++ tail)) :
      valueLine text tag = .ok tail := by
    rw [valueLine, same, stripPrefix_append, orMiss_some, bind_ok, stripPrefix_append]
  have present {text behind : Bytes} (strip : stripPrefix tag text = some behind)
      (shown : stripPrefix (utf8 " -\n") behind = none) :
      valueLine text tag = sizedPart (utf8 " ") (utf8 "\n") behind := by
    rw [valueLine, strip, orMiss_some, bind_ok, shown]
    rfl
  have shorter {text behind : Bytes} (strip : stripPrefix tag text = some behind)
      (short : text.length < usizeLimit) : behind.length < usizeLimit := by
    rw [stripPrefix_eq_some.mp strip, List.length_append] at short
    omega
  have part := sizedPart_follows (utf8 " ") (utf8 "\n")
  apply Follows.single (fun same => by cases same)
  · intro text rest short
    constructor
    · intro read
      cases strip : stripPrefix tag text with
      | none =>
          rw [missed strip] at read
          cases read
      | some behind =>
          rw [stripPrefix_eq_some.mp strip]
          cases shown : stripPrefix (utf8 " -\n") behind with
          | some tail =>
              have same := stripPrefix_eq_some.mp shown
              rw [absent (by rw [stripPrefix_eq_some.mp strip, same])] at read
              rw [same, ← Except.ok.inj read]
              exact .absent
          | none =>
              rw [present strip shown, part.ok (shorter strip short)] at read
              cases read with
              | cons takes inner later =>
                  cases takes with
                  | sized measures =>
                      cases inner
                      cases later
                      exact .value measures
    · intro takes
      cases takes with
      | absent => exact absent rfl
      | value measures =>
          have strip := stripPrefix_append tag
          rw [present (strip _) (measures.not_absent _), part.ok (shorter (strip _) short)]
          exact .cons (.sized measures) .nil .nil
  · intro text short
    constructor
    · intro failed
      cases strip : stripPrefix tag text with
      | none =>
          rw [missed strip] at failed
          cases failed
      | some behind =>
          cases shown : stripPrefix (utf8 " -\n") behind with
          | some tail =>
              rw [absent (by rw [stripPrefix_eq_some.mp strip, stripPrefix_eq_some.mp shown])]
                at failed
              cases failed
          | none =>
              rw [present strip shown, part.overflow (shorter strip short)] at failed
              cases failed with
              | here huge =>
                  rcases huge with ⟨field, same, huge⟩
                  exact ⟨field, by rw [stripPrefix_eq_some.mp strip, same], huge⟩
              | within takes inner =>
                  cases takes
                  cases inner
              | later _ _ rest => cases rest
    · intro huge
      rcases huge with ⟨field, rfl, huge⟩
      have strip := stripPrefix_append tag (utf8 " " ++ field)
      have shown : stripPrefix (utf8 " -\n") (utf8 " " ++ field) = none := by
        rw [stripPrefix_eq_none]
        intro rest' same
        have dash : field = 45 :: 10 :: rest' := (List.cons.inj same).2
        rw [dash] at huge
        exact huge.not_dash
      rw [present strip shown, part.overflow (shorter strip short)]
      exact .here ⟨field, rfl, huge⟩
  · intro text short failed
    cases strip : stripPrefix tag text with
    | none =>
        rw [missed strip] at failed
        cases failed
    | some behind =>
        cases shown : stripPrefix (utf8 " -\n") behind with
        | some tail =>
            rw [absent (by rw [stripPrefix_eq_some.mp strip, stripPrefix_eq_some.mp shown])] at failed
            cases failed
        | none =>
            rw [present strip shown] at failed
            exact part.inRange (shorter strip short) failed

theorem readLinkLine_follows : Follows readLinkLine linkItems :=
  (sizedPart_follows (utf8 "link ") (utf8 "\t")).andThen (sizedPart_follows [] (utf8 "\n"))

theorem readLinkLines_follows (count : Nat) :
    Follows (readLinkLines count) (List.replicate count linkItems).flatten := by
  induction count with
  | zero => exact Follows.nil
  | succ count ih =>
      rw [List.replicate_succ, List.flatten_cons]
      exact readLinkLine_follows.andThen ih

/-- Past the line that counts them, the links. -/
theorem readLinks_counted {digits rest : Bytes} {count : Nat} (plain : lineFeed ∉ digits)
    (counts : parseUsize digits = some count) (few : count ≤ maxViewLinks)
    (short : (utf8 "links " ++ digits ++ lineFeed :: rest).length < usizeLimit) :
    readLinks (utf8 "links " ++ digits ++ lineFeed :: rest) = readLinkLines count rest := by
  have line : lineFeed ∉ utf8 "links " ++ digits := by
    rw [List.mem_append, not_or]
    exact ⟨by decide, plain⟩
  rw [readLinks, splitLine_eq short, splitOnce_append line, orMiss_some, bind_ok, stripPrefix_append,
    orMiss_some, bind_ok, counts, orMiss_some, bind_ok, if_neg (Nat.not_lt.mpr few)]

/-- Without such a line, none. -/
theorem readLinks_cases {text : Bytes} (short : text.length < usizeLimit) :
    readLinks text = .error .miss ∨
      ∃ digits rest count, lineFeed ∉ digits ∧ parseUsize digits = some count ∧
        count ≤ maxViewLinks ∧ text = utf8 "links " ++ digits ++ lineFeed :: rest := by
  rw [readLinks, splitLine_eq short]
  cases split : splitOnce lineFeed text with
  | none => exact Or.inl rfl
  | some line =>
      rcases line with ⟨line, rest⟩
      rcases splitOnce_eq_some.mp split with ⟨absent, rfl⟩
      rw [orMiss_some, bind_ok]
      cases strip : stripPrefix (utf8 "links ") line with
      | none => exact Or.inl rfl
      | some digits =>
          rw [orMiss_some, bind_ok]
          rw [stripPrefix_eq_some.mp strip] at absent
          cases counts : parseUsize digits with
          | none => exact Or.inl rfl
          | some count =>
              rw [orMiss_some, bind_ok]
              by_cases many : count > maxViewLinks
              · rw [if_pos many]
                exact Or.inl rfl
              · exact Or.inr ⟨digits, rest, count, (fun member => absent (List.mem_append_right _ member)),
                  counts, Nat.le_of_not_lt many, by rw [stripPrefix_eq_some.mp strip]⟩

theorem short_behind {lead rest : Bytes} {sep : UInt8}
    (short : (lead ++ sep :: rest).length < usizeLimit) : rest.length < usizeLimit := by
  rw [List.length_append, List.length_cons] at short
  omega

theorem readLinks_follows : Follows readLinks [.links] where
  ok := by
    intro text rest short
    constructor
    · intro read
      rcases readLinks_cases short with missed | ⟨digits, tail, count, plain, counts, few, rfl⟩
      · rw [missed] at read
        cases read
      · rw [readLinks_counted plain counts few short,
          (readLinkLines_follows count).ok (short_behind short)] at read
        exact .cons (.links plain counts few) read .nil
    · intro through
      cases through with
      | cons takes inner later =>
          cases takes with
          | links plain counts few =>
              cases later
              rw [readLinks_counted plain counts few short]
              exact ((readLinkLines_follows _).ok (short_behind short)).mpr inner
  overflow := by
    intro text short
    constructor
    · intro failed
      rcases readLinks_cases short with missed | ⟨digits, tail, count, plain, counts, few, rfl⟩
      · rw [missed] at failed
        cases failed
      · rw [readLinks_counted plain counts few short,
          (readLinkLines_follows count).overflow (short_behind short)] at failed
        exact .within (.links plain counts few) failed
    · intro huge
      cases huge with
      | here huge => cases huge
      | within takes inner =>
          cases takes with
          | links plain counts few =>
              rw [readLinks_counted plain counts few short]
              exact ((readLinkLines_follows _).overflow (short_behind short)).mpr inner
      | later _ _ rest => cases rest
  inRange := by
    intro text short failed
    rcases readLinks_cases short with missed | ⟨digits, tail, count, plain, counts, few, rfl⟩
    · rw [missed] at failed
      cases failed
    · rw [readLinks_counted plain counts few short] at failed
      exact (readLinkLines_follows count).inRange (short_behind short) failed

theorem canonical_follows :
    Follows (fun text => do
      let values ← scalarTags.foldlM scalarLine text
      let links ← valueTags.foldlM valueLine values
      let env ← readLinks links
      valueLine env (utf8 "env")) recordItems :=
  (Follows.foldlM scalarLine_follows scalarTags).andThen
    ((Follows.foldlM valueLine_follows valueTags).andThen
      (readLinks_follows.andThen (valueLine_follows (utf8 "env"))))

end Onelf.Runtime.View
