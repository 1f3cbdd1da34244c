import Onelf.Runtime.View.Record

/-! A view's record reads back for its identity, and anything else is a miss: when that is so. -/

namespace Onelf.Runtime.View

open Onelf.Lib Onelf.Lib.Checked Onelf.Format

/-! ### What a load can return -/

/-- No sum leaves the machine's range and no slice its text. -/
def Finishes {α : Type} (result : Checked α) : Prop :=
  result ≠ .error .overflow ∧ result ≠ .error .outOfRange

/-- The line of a record that shows `hash`. -/
def shownLine : Option Bytes → Bytes
  | some hash => utf8 "expanded " ++ (hash ++ [lineFeed])
  | none => utf8 "expanded -\n"

/-- One well-formed line: a digest in full, or none. -/
def WellFormed : Option Bytes → Prop
  | some hash => hash.length = 64 ∧ ∀ digit ∈ hash, isLowerHex digit = true
  | none => True

theorem hexDigest_eq_some {bytes hash : Bytes} :
    hexDigest bytes = some hash ↔ bytes = hash ∧ WellFormed (some hash) := by
  rw [hexDigest]
  constructor
  · intro read
    split at read
    · next plain =>
        rw [Bool.and_eq_true, decide_eq_true_eq, List.all_eq_true] at plain
        rw [← Option.some.inj read]
        exact ⟨rfl, plain⟩
    · cases read
  · intro shape
    rcases shape with ⟨rfl, plain⟩
    rw [if_pos]
    rw [Bool.and_eq_true, decide_eq_true_eq, List.all_eq_true]
    exact plain

theorem readExpanded_eq_ok {line : Bytes} {shown : Option Bytes} :
    readExpanded line = .ok shown ↔
      WellFormed shown ∧ line ++ [lineFeed] = shownLine shown := by
  have dash : ¬WellFormed (some (utf8 "-")) := fun plain => absurd plain.1 (by decide)
  have none_line : shownLine none = utf8 "expanded " ++ utf8 "-" ++ [lineFeed] := by decide +kernel
  rw [readExpanded]
  constructor
  · intro read
    cases strip : stripPrefix (utf8 "expanded ") line with
    | none =>
        rw [strip] at read
        cases read
    | some text =>
        rw [strip, orMiss_some, bind_ok] at read
        rw [stripPrefix_eq_some.mp strip]
        split at read
        · next same =>
            rw [← Except.ok.inj read, same, none_line]
            exact ⟨trivial, rfl⟩
        · cases digest : hexDigest text with
          | none =>
              rw [digest] at read
              cases read
          | some hash =>
              rw [digest] at read
              rw [← Except.ok.inj read]
              rcases hexDigest_eq_some.mp digest with ⟨rfl, plain⟩
              exact ⟨plain, by rw [shownLine, List.append_assoc]⟩
  · intro shape
    rcases shape with ⟨plain, same⟩
    cases shown with
    | none =>
        rw [none_line] at same
        rw [List.append_cancel_right same, stripPrefix_append, orMiss_some, bind_ok, if_pos rfl]
    | some hash =>
        rw [shownLine, ← List.append_assoc] at same
        have other : hash ≠ utf8 "-" := by
          intro short
          rw [short] at plain
          exact dash plain
        rw [List.append_cancel_right same, stripPrefix_append, orMiss_some, bind_ok, if_neg other,
          hexDigest_eq_some.mpr ⟨rfl, plain⟩]
        rfl

theorem readExpanded_error {line : Bytes} {reason : Halt} (failed : readExpanded line = .error reason) :
    reason = .miss := by
  rw [readExpanded] at failed
  rcases bind_eq_error.mp failed with strip | ⟨text, _, later⟩
  · exact (orMiss_eq_error.mp strip).2
  · split at later
    · cases later
    · cases digest : hexDigest text with
      | none =>
          rw [digest] at later
          exact (Except.error.inj later).symm
      | some hash =>
          rw [digest] at later
          cases later

/-- A line without a line feed is one line. -/
theorem lineFeed_not_mem_of_shown {line : Bytes} {shown : Option Bytes} (plain : WellFormed shown)
    (same : line ++ [lineFeed] = shownLine shown) : lineFeed ∉ line := by
  cases shown with
  | none =>
      have split : shownLine none = utf8 "expanded -" ++ [lineFeed] := by decide +kernel
      rw [split] at same
      rw [List.append_cancel_right same]
      decide
  | some hash =>
      rw [shownLine, ← List.append_assoc] at same
      rw [List.append_cancel_right same, List.mem_append, not_or]
      refine ⟨by decide, fun member => ?_⟩
      exact absurd (plain.2 _ member) (by decide)

theorem short_of_append {lead text : Bytes} (short : (lead ++ text).length < usizeLimit) :
    text.length < usizeLimit := by
  rw [List.length_append] at short
  omega

theorem parseCanonical_eq {bytes text : Bytes} (same : bytes = viewHeader ++ text) :
    parseCanonical bytes = (do
      let values ← scalarTags.foldlM scalarLine text
      let links ← valueTags.foldlM valueLine values
      let env ← readLinks links
      valueLine env (utf8 "env")) >>= fun rest =>
        sub bytes.length rest.length >>= fun stop => .ok (rest, stop) := by
  rw [parseCanonical, same, stripPrefix_append, orMiss_some, bind_ok]
  simp only [bind_assoc]

theorem parseCanonical_eq_ok {bytes rest : Bytes} {stop : Nat} (short : bytes.length < usizeLimit) :
    parseCanonical bytes = .ok (rest, stop) ↔
      ∃ text, bytes = viewHeader ++ text ∧ Through recordItems text rest ∧
        stop = bytes.length - rest.length := by
  constructor
  · intro read
    cases strip : stripPrefix viewHeader bytes with
    | none =>
        rw [parseCanonical, strip] at read
        cases read
    | some text =>
        have same := stripPrefix_eq_some.mp strip
        have shorter : text.length < usizeLimit := short_of_append (same ▸ short)
        rw [parseCanonical_eq same, Except.andThen_eq_ok] at read
        rcases read with ⟨last, body, ended⟩
        have through := (canonical_follows.ok shorter).mp body
        have inside := through.shorter
        have fits : last.length ≤ bytes.length := by
          rw [same, List.length_append]
          omega
        rw [sub, if_pos fits, bind_ok, Except.ok.injEq, Prod.mk.injEq] at ended
        rw [← ended.1, ← ended.2]
        exact ⟨text, same, through, rfl⟩
  · intro shape
    rcases shape with ⟨text, same, through, rfl⟩
    have shorter : text.length < usizeLimit := short_of_append (same ▸ short)
    have inside := through.shorter
    have fits : rest.length ≤ bytes.length := by
      rw [same, List.length_append]
      omega
    rw [parseCanonical_eq same, Except.andThen_eq_ok]
    refine ⟨rest, (canonical_follows.ok shorter).mpr through, ?_⟩
    rw [sub, if_pos fits, bind_ok]

theorem parseCanonical_overflows {bytes : Bytes} (short : bytes.length < usizeLimit) :
    parseCanonical bytes = .error .overflow ↔ HugeRecord bytes := by
  constructor
  · intro failed
    cases strip : stripPrefix viewHeader bytes with
    | none =>
        rw [parseCanonical, strip] at failed
        cases failed
    | some text =>
        have same := stripPrefix_eq_some.mp strip
        have shorter : text.length < usizeLimit := short_of_append (same ▸ short)
        rw [parseCanonical_eq same, bind_eq_error] at failed
        rcases failed with body | ⟨rest, body, ended⟩
        · exact ⟨text, same, (canonical_follows.overflow shorter).mp body⟩
        · have inside := ((canonical_follows.ok shorter).mp body).shorter
          have fits : rest.length ≤ bytes.length := by
            rw [same, List.length_append]
            omega
          rw [sub, if_pos fits, bind_ok] at ended
          cases ended
  · intro huge
    rcases huge with ⟨text, same, huge⟩
    have shorter : text.length < usizeLimit := short_of_append (same ▸ short)
    rw [parseCanonical_eq same, bind_eq_error]
    exact Or.inl ((canonical_follows.overflow shorter).mpr huge)

theorem parseCanonical_inRange {bytes : Bytes} (short : bytes.length < usizeLimit) :
    parseCanonical bytes ≠ .error .outOfRange := by
  intro failed
  cases strip : stripPrefix viewHeader bytes with
  | none =>
      rw [parseCanonical, strip] at failed
      cases failed
  | some text =>
      have same := stripPrefix_eq_some.mp strip
      have shorter : text.length < usizeLimit := short_of_append (same ▸ short)
      rw [parseCanonical_eq same, bind_eq_error] at failed
      rcases failed with body | ⟨rest, body, ended⟩
      · exact canonical_follows.inRange shorter body
      · rw [sub] at ended
        split at ended
        · cases ended
        · cases ended

theorem parseRecord_eq_ok {bytes canonical : Bytes} {shown : Option Bytes}
    (short : bytes.length < usizeLimit) :
    parseRecord bytes = .ok (canonical, shown) ↔
      WellFormed shown ∧ bytes = canonical ++ shownLine shown ∧
        ∃ text, bytes = viewHeader ++ text ∧ Through recordItems text (shownLine shown) := by
  rw [parseRecord, Except.andThen_eq_ok]
  constructor
  · intro read
    rcases read with ⟨⟨rest, stop⟩, body, later⟩
    rcases (parseCanonical_eq_ok short).mp body with ⟨text, same, through, rfl⟩
    rcases through.suffix.trans (List.suffix_append viewHeader text) with ⟨front, parted⟩
    rw [← same] at parted
    have fits : rest.length < usizeLimit := short_of_append (parted ▸ short)
    rw [splitLine_eq fits, Except.andThen_eq_ok] at later
    rcases later with ⟨⟨line, tail⟩, split, later⟩
    rcases splitOnce_eq_some.mp (orMiss_eq_ok.mp split) with ⟨_, rest_eq⟩
    rcases Except.andThen_eq_ok.mp later with ⟨expanded, reads, ended⟩
    rcases readExpanded_eq_ok.mp reads with ⟨plain, line_eq⟩
    split at ended
    · cases ended
    · next empty =>
        have stop : bytes.length - rest.length = front.length := by
          rw [← parted, List.length_append, Nat.add_sub_cancel]
        rw [stop, ← parted, upTo_append, bind_ok, Except.ok.injEq, Prod.mk.injEq] at ended
        have whole : rest = shownLine shown := by
          have none : tail = [] := not_not.mp empty
          rw [rest_eq, none, ← ended.2]
          exact line_eq
        rw [← ended.1, ← whole]
        exact ⟨ended.2 ▸ plain, parted.symm, text, same, through⟩
  · intro shape
    rcases shape with ⟨plain, parted, text, same, through⟩
    have fits : (shownLine shown).length < usizeLimit := short_of_append (parted ▸ short)
    have line : ∃ line, line ++ [lineFeed] = shownLine shown := by
      cases shown with
      | none => exact ⟨utf8 "expanded -", by decide +kernel⟩
      | some hash => exact ⟨utf8 "expanded " ++ hash, by rw [shownLine, List.append_assoc]⟩
    rcases line with ⟨line, line_eq⟩
    have split := splitOnce_append (lineFeed_not_mem_of_shown plain line_eq) []
    rw [line_eq] at split
    have stop : bytes.length - (shownLine shown).length = canonical.length := by
      rw [parted, List.length_append, Nat.add_sub_cancel]
    refine ⟨_, (parseCanonical_eq_ok short).mpr ⟨text, same, through, rfl⟩, ?_⟩
    rw [splitLine_eq fits, split, orMiss_some, bind_ok, readExpanded_eq_ok.mpr ⟨plain, line_eq⟩, bind_ok,
      if_neg (not_not.mpr rfl), stop, parted, upTo_append, bind_ok]

/-- Past the canonical text, only a miss ends a read. -/
theorem parseRecord_error {bytes : Bytes} {reason : Halt} (short : bytes.length < usizeLimit)
    (failed : parseRecord bytes = .error reason) :
    parseCanonical bytes = .error reason ∨ reason = .miss := by
  rcases bind_eq_error.mp failed with body | ⟨⟨rest, stop⟩, body, later⟩
  · exact Or.inl body
  · right
    rcases (parseCanonical_eq_ok short).mp body with ⟨text, same, through, rfl⟩
    rcases through.suffix.trans (List.suffix_append viewHeader text) with ⟨front, parted⟩
    rw [← same] at parted
    rw [splitLine_eq (short_of_append (parted ▸ short))] at later
    rcases bind_eq_error.mp later with split | ⟨line, _, later⟩
    · exact (orMiss_eq_error.mp split).2
    · rcases bind_eq_error.mp later with shown | ⟨expanded, _, later⟩
      · exact readExpanded_error shown
      · split at later
        · exact (Except.error.inj later).symm
        · have stop : bytes.length - rest.length = front.length := by
            rw [← parted, List.length_append, Nat.add_sub_cancel]
          rw [stop, ← parted, upTo_append, bind_ok] at later
          cases later

/-- What a load gives is bound to its identity, and lay there with one line behind it. -/
theorem loadRecord_eq_ok {identity : ViewIdentity} {bytes : Bytes} {record : ViewRecord} :
    loadRecord identity bytes = .ok record ↔
      bytes.length ≤ recordMaxBytes ∧ record.canonical = identity.canonical ∧
        WellFormed record.expandedEnv ∧
          bytes = identity.canonical ++ shownLine record.expandedEnv ∧
            ∃ text, bytes = viewHeader ++ text ∧
              Through recordItems text (shownLine record.expandedEnv) := by
  have room : recordMaxBytes < usizeLimit := by decide
  rw [loadRecord]
  by_cases large : bytes.length > recordMaxBytes
  · rw [if_pos large]
    constructor
    · intro failed
      cases failed
    · intro shape
      exact absurd shape.1 (Nat.not_le.mpr large)
  · have short : bytes.length < usizeLimit := lt_of_le_of_lt (Nat.le_of_not_lt large) room
    rw [if_neg large, Except.andThen_eq_ok]
    constructor
    · intro read
      rcases read with ⟨⟨canonical, shown⟩, parsed, bound⟩
      have shape := (parseRecord_eq_ok short).mp parsed
      split at bound
      · cases bound
      · next same =>
          rw [← Except.ok.inj bound, ← not_not.mp same]
          exact ⟨Nat.le_of_not_lt large, rfl, shape⟩
    · intro shape
      rcases shape with ⟨_, same, shape⟩
      refine ⟨(identity.canonical, record.expandedEnv), (parseRecord_eq_ok short).mpr shape, ?_⟩
      rw [if_neg (not_not.mpr rfl), ← same]

theorem loadRecord_finishes_iff {identity : ViewIdentity} {bytes : Bytes} :
    Finishes (loadRecord identity bytes) ↔ ¬(bytes.length ≤ recordMaxBytes ∧ HugeRecord bytes) := by
  have room : recordMaxBytes < usizeLimit := by decide
  rw [Finishes, loadRecord]
  by_cases large : bytes.length > recordMaxBytes
  · rw [if_pos large]
    constructor
    · intro _ both
      exact absurd both.1 (Nat.not_le.mpr large)
    · intro _
      constructor
      · intro same
        cases same
      · intro same
        cases same
  · have small := Nat.le_of_not_lt large
    have short : bytes.length < usizeLimit := lt_of_le_of_lt small room
    have ended {reason : Halt} (other : reason ≠ .miss) :
        (parseRecord bytes >>= fun parsed =>
          if parsed.1 ≠ identity.canonical then .error .miss
          else .ok (⟨parsed.1, parsed.2⟩ : ViewRecord)) = .error reason ↔
          parseCanonical bytes = .error reason := by
      rw [bind_eq_error]
      constructor
      · intro failed
        rcases failed with here | ⟨parsed, _, later⟩
        · rcases parseRecord_error short here with body | same
          · exact body
          · exact absurd same other
        · split at later
          · exact absurd (Except.error.inj later).symm other
          · cases later
      · intro body
        left
        rw [parseRecord, body, bind_error]
    have overflow : Halt.overflow ≠ .miss := by decide
    have outOfRange : Halt.outOfRange ≠ .miss := by decide
    rw [if_neg large, ne_eq, ne_eq, ended overflow, ended outOfRange, parseCanonical_overflows short,
      and_iff_left (parseCanonical_inRange short), and_iff_right small]

end Onelf.Runtime.View
