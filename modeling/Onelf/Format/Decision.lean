import Onelf.Format.Selection
import Onelf.Lib.Utf8

/-! The record a resolver decision is kept in, and the launch that reads it (`resolve.rs`). -/

namespace Onelf.Format

open Onelf.Lib

/-- What `fs::metadata` tells of one file. -/
structure Metadata where
  isFile : Bool
  len : Nat
  ino : Nat
  mtime : Int
  mtimeNsec : Int
  ctime : Int
  ctimeNsec : Int
  deriving DecidableEq

/-- The host at one moment: `fs::metadata` on every path. -/
abbrev Files := Bytes → Option Metadata

def isFile (files : Files) (path : Bytes) : Bool := (files path).any (·.isFile)

/-- What a launch takes from the host. -/
structure Resolution where
  farm : Option Bytes
  hostInterp : Option Bytes
  incomparable : List Bytes
  deriving DecidableEq

namespace Resolution

/-- `Resolution::default`. -/
def empty : Resolution := ⟨none, none, []⟩

end Resolution

/-- Sonames and the host file chosen for each. -/
abbrev Winners := SortedMap Bytes Bytes

def selectionRecordHeader : Bytes := utf8 "onelf-resolve-selection 1"
def selectionDirPrefix : Bytes := utf8 "sel-"
def tab : UInt8 := 9

def signedDecimal : Int → Bytes
  | Int.ofNat n => decimal n
  | Int.negSucc n => utf8 "-" ++ decimal (n + 1)

/-- The identity of one file: size, inode, and both times. -/
def statLine (files : Files) (path : Bytes) : Bytes :=
  match files path with
  | some md =>
      decimal md.len ++ utf8 ":" ++ decimal md.ino ++ utf8 ":" ++ signedDecimal md.mtime ++
        utf8 ":" ++ signedDecimal md.mtimeNsec ++ utf8 ":" ++ signedDecimal md.ctime ++
        utf8 ":" ++ signedDecimal md.ctimeNsec
  | none => utf8 "missing"

def fingerprintLine (fingerprint : Bytes) : Bytes := utf8 "fingerprint " ++ fingerprint

def interpLine (interp : Bytes) : Bytes := utf8 "interp " ++ lossy interp

def hostLine (entry : Bytes × Bytes) : Bytes :=
  utf8 "host " ++ entry.1 ++ utf8 "\t" ++ lossy entry.2

def statEntryLine (files : Files) (entry : Bytes × Bytes) : Bytes :=
  utf8 "stat " ++ entry.1 ++ utf8 "\t" ++ statLine files entry.2

def incomparableLine (name : Bytes) : Bytes := utf8 "incomparable " ++ name

/-- The text `write_decision` puts in the record. -/
def writeDecision (files : Files) (header identityText fingerprint : Bytes)
    (resolution : Resolution) (winners : Winners) : Bytes :=
  header ++ [lineFeed] ++
    (if identityText.isEmpty then [] else identityText ++ [lineFeed]) ++
    (fingerprintLine fingerprint ++ [lineFeed]) ++
    (match resolution.hostInterp with
      | some interp => interpLine interp ++ [lineFeed]
      | none => []) ++
    (winners.entries.flatMap fun entry => hostLine entry ++ [lineFeed]) ++
    (winners.entries.flatMap fun entry => statEntryLine files entry ++ [lineFeed]) ++
    (resolution.incomparable.flatMap fun name => incomparableLine name ++ [lineFeed])

def recordSelection (files : Files) (identity : SelectionIdentity) (fingerprint : Bytes)
    (resolution : Resolution) (winners : Winners) : Bytes :=
  writeDecision files selectionRecordHeader identity.canonical fingerprint resolution winners

/-- The lines left after the expected ones, or `none` at the first that differs. -/
def expectLines : List Bytes → List Bytes → Option (List Bytes)
  | [], rest => some rest
  | _ :: _, [] => none
  | expected :: more, line :: rest => if line = expected then expectLines more rest else none

/-- One pass of the loop over the lines that follow the fingerprint. -/
def readLine (files : Files) (state : Resolution × Winners) (line : Bytes) :
    Option (Resolution × Winners) :=
  match stripPrefix (utf8 "interp ") line with
  | some interp =>
      if isFile files interp then some ({ state.1 with hostInterp := some interp }, state.2)
      else none
  | none =>
    match stripPrefix (utf8 "host ") line with
    | some rest =>
        (splitOnce tab rest).map fun (name, path) => (state.1, state.2.insert name path)
    | none =>
      match stripPrefix (utf8 "stat ") line with
      | some rest =>
          (splitOnce tab rest).bind fun (name, recorded) =>
            (state.2.get? name).bind fun path =>
              if statLine files path = recorded then some state else none
      | none =>
          (stripPrefix (utf8 "incomparable ") line).map fun name =>
            ({ state.1 with incomparable := state.1.incomparable ++ [name] }, state.2)

/-- The decision a record carries, when header, identity and host state all check out. -/
def parseDecision (files : Files) (text header : Bytes) (identityLines : List Bytes)
    (fingerprint : Bytes) : Option (Resolution × Winners) :=
  (expectLines (header :: identityLines) (lines text)).bind fun
    | [] => none
    | line :: rest =>
        (stripPrefix (utf8 "fingerprint ") line).bind fun recorded =>
          if recorded = fingerprint then rest.foldlM (readLine files) (Resolution.empty, SortedMap.empty)
          else none

/-! ### The written text, line by line -/

/-- The lines that carry the decision itself, after the identity and the fingerprint. -/
def decisionLines (files : Files) (resolution : Resolution) (winners : Winners) : List Bytes :=
  resolution.hostInterp.toList.map interpLine ++
    (winners.entries.map hostLine ++
      (winners.entries.map (statEntryLine files) ++ resolution.incomparable.map incomparableLine))

theorem identityText_terminated (identity : SelectionIdentity) :
    (if identity.canonical.isEmpty then [] else identity.canonical ++ [lineFeed]) =
      unlines identity.identityLines := by
  rw [SelectionIdentity.identityLines, SelectionIdentity.lines_canonical, identity.rendered]
  by_cases empty : identity.pins = []
  · rw [empty]
    rfl
  · have some : identity.pins.map pinLine ≠ [] := by simpa using empty
    have visible := joinLines_ne_nil some fun line member => by
      obtain ⟨pin, -, rfl⟩ := List.mem_map.mp member
      exact pinLine_ne_nil pin
    rw [if_neg (by simpa using visible), unlines_eq_joinLines some]

/-- The record is its lines, each terminated. -/
theorem recordSelection_eq_unlines (files : Files) (identity : SelectionIdentity)
    (fingerprint : Bytes) (resolution : Resolution) (winners : Winners) :
    recordSelection files identity fingerprint resolution winners =
      unlines ((selectionRecordHeader :: identity.identityLines) ++
        fingerprintLine fingerprint :: decisionLines files resolution winners) := by
  rw [recordSelection, writeDecision, identityText_terminated]
  cases interp : resolution.hostInterp with
  | none => simp [unlines, decisionLines, interp, List.flatMap_map]
  | some path => simp [unlines, decisionLines, interp, List.flatMap_map]

theorem expectLines_eq_some {expected actual rest : List Bytes} :
    expectLines expected actual = some rest ↔ actual = expected ++ rest := by
  induction expected generalizing actual with
  | nil => simp [expectLines]
  | cons line expected ih =>
      cases actual with
      | nil => simp [expectLines]
      | cons first actual =>
          by_cases same : first = line
          · simp [expectLines, same, ih]
          · simp [expectLines, same]

/-- A served record starts with its reader's identity and fingerprint. -/
theorem parseDecision_eq_some {files : Files} {text header fingerprint : Bytes}
    {identityLines : List Bytes} {served : Resolution × Winners} :
    parseDecision files text header identityLines fingerprint = some served ↔
      ∃ rest, lines text = (header :: identityLines) ++ fingerprintLine fingerprint :: rest ∧
        rest.foldlM (readLine files) (Resolution.empty, SortedMap.empty) = some served := by
  rw [parseDecision, Option.bind_eq_some_iff]
  constructor
  · rintro ⟨left, expected, parsed⟩
    rw [expectLines_eq_some] at expected
    cases left with
    | nil => cases parsed
    | cons line rest =>
        obtain ⟨recorded, stripped, decided⟩ := Option.bind_eq_some_iff.mp parsed
        obtain ⟨same, folded⟩ := Option.ite_none_right_eq_some.mp decided
        rw [stripPrefix_eq_some.mp stripped, same] at expected
        exact ⟨rest, expected, folded⟩
  · rintro ⟨rest, split, folded⟩
    refine ⟨fingerprintLine fingerprint :: rest, expectLines_eq_some.mpr split, ?_⟩
    simpa [fingerprintLine] using folded

/-! ### Reading the lines back -/

/-- A soname or path with none of the bytes the record's lines are made with. -/
def Unbroken (text : Bytes) : Prop :=
  tab ∉ text ∧ lineFeed ∉ text ∧ carriageReturn ∉ text

instance (text : Bytes) : Decidable (Unbroken text) := inferInstanceAs (Decidable (_ ∧ _))

/-- A path the record can show: unbroken, and text the display leaves as it is. -/
def Displayed (path : Bytes) : Prop := Unbroken path ∧ validUtf8 path = true

instance (path : Bytes) : Decidable (Displayed path) := inferInstanceAs (Decidable (_ ∧ _))

theorem Unbroken.plain {text : Bytes} (unbroken : Unbroken text) : PlainLine text :=
  plainLine_of_not_mem unbroken.2.1 unbroken.2.2

theorem Displayed.lossy {path : Bytes} (displayed : Displayed path) : lossy path = path :=
  lossy_of_validUtf8 displayed.2

theorem signedDecimal_plain (n : Int) : PlainLine (signedDecimal n) := by
  cases n with
  | ofNat n => exact decimal_plain n
  | negSucc n => exact PlainLine.append (by decide) (decimal_plain (n + 1))

theorem statLine_plain (files : Files) (path : Bytes) : PlainLine (statLine files path) := by
  have colon : PlainLine (utf8 ":") := by decide
  rw [statLine]
  split
  · next md _ =>
      exact ((((((((((decimal_plain md.len).append colon).append (decimal_plain md.ino)).append
        colon).append (signedDecimal_plain md.mtime)).append colon).append
        (signedDecimal_plain md.mtimeNsec)).append colon).append
        (signedDecimal_plain md.ctime)).append colon).append (signedDecimal_plain md.ctimeNsec)
  · decide

theorem interpLine_plain {interp : Bytes} (displayed : Displayed interp) :
    PlainLine (interpLine interp) := by
  rw [interpLine, displayed.lossy]
  exact PlainLine.append (by decide) displayed.1.plain

theorem hostLine_plain {entry : Bytes × Bytes} (name : Unbroken entry.1)
    (path : Displayed entry.2) : PlainLine (hostLine entry) := by
  rw [hostLine, path.lossy]
  exact ((PlainLine.append (by decide) name.plain).append (by decide)).append path.1.plain

theorem statEntryLine_plain (files : Files) {entry : Bytes × Bytes} (name : Unbroken entry.1) :
    PlainLine (statEntryLine files entry) :=
  ((PlainLine.append (by decide) name.plain).append (by decide)).append (statLine_plain files _)

theorem incomparableLine_plain {name : Bytes} (unbroken : Unbroken name) :
    PlainLine (incomparableLine name) :=
  PlainLine.append (by decide) unbroken.plain

theorem fingerprintLine_plain {fingerprint : Bytes} (plain : PlainLine fingerprint) :
    PlainLine (fingerprintLine fingerprint) :=
  PlainLine.append (by decide) plain

theorem identityLines_plain (identity : SelectionIdentity) :
    ∀ line ∈ selectionRecordHeader :: identity.identityLines, PlainLine line := by
  intro line member
  rcases List.mem_cons.mp member with rfl | pinned
  · decide
  · rw [SelectionIdentity.identityLines, SelectionIdentity.lines_canonical] at pinned
    obtain ⟨pin, inside, rfl⟩ := List.mem_map.mp pinned
    exact pinLine_plain (identity.admitted pin inside)

/-- What the record's text can carry of a decision. -/
structure Recordable (resolution : Resolution) (winners : Winners) : Prop where
  interp : ∀ path ∈ resolution.hostInterp, Displayed path
  winners : ∀ entry ∈ winners.entries, Unbroken entry.1 ∧ Displayed entry.2
  incomparable : ∀ name ∈ resolution.incomparable, Unbroken name

theorem decisionLines_plain {files : Files} {resolution : Resolution} {winners : Winners}
    (recordable : Recordable resolution winners) :
    ∀ line ∈ decisionLines files resolution winners, PlainLine line := by
  intro line member
  simp only [decisionLines, List.mem_append, List.mem_map, Option.mem_toList] at member
  rcases member with ⟨path, held, rfl⟩ | ⟨entry, held, rfl⟩ | ⟨entry, held, rfl⟩ | ⟨name, held, rfl⟩
  · exact interpLine_plain (recordable.interp path held)
  · exact hostLine_plain (recordable.winners entry held).1 (recordable.winners entry held).2
  · exact statEntryLine_plain files (recordable.winners entry held).1
  · exact incomparableLine_plain (recordable.incomparable name held)

/-- Whatever follows, a record's lines begin with its identity and its fingerprint. -/
theorem lines_recordSelection (files : Files) (identity : SelectionIdentity) {fingerprint : Bytes}
    (plain : PlainLine fingerprint) (resolution : Resolution) (winners : Winners) :
    lines (recordSelection files identity fingerprint resolution winners) =
      (selectionRecordHeader :: identity.identityLines) ++ fingerprintLine fingerprint ::
        lines (unlines (decisionLines files resolution winners)) := by
  rw [recordSelection_eq_unlines, unlines_append, lines_unlines_append (identityLines_plain identity),
    unlines_cons, lines_append (fingerprintLine_plain plain)]

theorem readLine_interp_rest (files : Files) (state : Resolution × Winners) (interp : Bytes) :
    readLine files state (utf8 "interp " ++ interp) =
      if isFile files interp then some ({ state.1 with hostInterp := some interp }, state.2)
      else none := by
  rw [readLine, stripPrefix_append]

theorem readLine_host_rest (files : Files) (state : Resolution × Winners) (rest : Bytes) :
    readLine files state (utf8 "host " ++ rest) =
      (splitOnce tab rest).map fun (name, path) => (state.1, state.2.insert name path) := by
  rw [readLine, stripPrefix_other (by decide), stripPrefix_append]

theorem readLine_stat_rest (files : Files) (state : Resolution × Winners) (rest : Bytes) :
    readLine files state (utf8 "stat " ++ rest) =
      (splitOnce tab rest).bind fun (name, recorded) =>
        (state.2.get? name).bind fun path =>
          if statLine files path = recorded then some state else none := by
  rw [readLine, stripPrefix_other (by decide), stripPrefix_other (by decide), stripPrefix_append]

theorem readLine_incomparable (files : Files) (state : Resolution × Winners) (name : Bytes) :
    readLine files state (incomparableLine name) =
      some ({ state.1 with incomparable := state.1.incomparable ++ [name] }, state.2) := by
  rw [incomparableLine, readLine, stripPrefix_other (by decide), stripPrefix_other (by decide),
    stripPrefix_other (by decide), stripPrefix_append, Option.map_some]

theorem readLine_interp {files : Files} {interp : Bytes} (displayed : Displayed interp)
    (file : isFile files interp) (state : Resolution × Winners) :
    readLine files state (interpLine interp) =
      some ({ state.1 with hostInterp := some interp }, state.2) := by
  rw [interpLine, displayed.lossy, readLine_interp_rest, if_pos file]

theorem splitOnce_tab {name : Bytes} (unbroken : Unbroken name) (rest : Bytes) :
    splitOnce tab (name ++ utf8 "\t" ++ rest) = some (name, rest) := by
  rw [List.append_assoc]
  exact splitOnce_append unbroken.1 rest

theorem readLine_host {files : Files} {entry : Bytes × Bytes} (name : Unbroken entry.1)
    (path : Displayed entry.2) (state : Resolution × Winners) :
    readLine files state (hostLine entry) = some (state.1, state.2.insert entry.1 entry.2) := by
  rw [hostLine, path.lossy, List.append_assoc, List.append_assoc, readLine_host_rest,
    ← List.append_assoc, splitOnce_tab name]
  rfl

theorem readLine_stat {before after : Files} {entry : Bytes × Bytes} (name : Unbroken entry.1)
    (unchanged : after entry.2 = before entry.2) {state : Resolution × Winners}
    (held : state.2.get? entry.1 = some entry.2) :
    readLine after state (statEntryLine before entry) = some state := by
  have same : statLine after entry.2 = statLine before entry.2 := by
    rw [statLine, statLine, unchanged]
  rw [statEntryLine, List.append_assoc, List.append_assoc, readLine_stat_rest,
    ← List.append_assoc, splitOnce_tab name]
  simp [held, same]

/-! ### Whole runs of lines -/

theorem foldlM_hostLines {files : Files} {entries : List (Bytes × Bytes)}
    (shown : ∀ entry ∈ entries, Unbroken entry.1 ∧ Displayed entry.2) (resolution : Resolution)
    (winners : Winners) :
    (entries.map hostLine).foldlM (readLine files) (resolution, winners) =
      some (resolution, winners.insertAll entries) := by
  induction entries generalizing winners with
  | nil => rfl
  | cons entry entries ih =>
      have here := shown entry List.mem_cons_self
      rw [List.map_cons, List.foldlM_cons, readLine_host here.1 here.2]
      exact ih (fun other member => shown other (List.mem_cons_of_mem _ member)) _

theorem foldlM_statLines {before after : Files} {entries : List (Bytes × Bytes)}
    {state : Resolution × Winners} (names : ∀ entry ∈ entries, Unbroken entry.1)
    (unchanged : ∀ entry ∈ entries, after entry.2 = before entry.2)
    (held : ∀ entry ∈ entries, state.2.get? entry.1 = some entry.2) :
    (entries.map (statEntryLine before)).foldlM (readLine after) state = some state := by
  induction entries with
  | nil => rfl
  | cons entry entries ih =>
      rw [List.forall_mem_cons] at names unchanged held
      rw [List.map_cons, List.foldlM_cons, readLine_stat names.1 unchanged.1 held.1]
      exact ih names.2 unchanged.2 held.2

theorem foldlM_incomparableLines (files : Files) (names : List Bytes) (resolution : Resolution)
    (winners : Winners) :
    (names.map incomparableLine).foldlM (readLine files) (resolution, winners) =
      some ({ resolution with incomparable := resolution.incomparable ++ names }, winners) := by
  induction names generalizing resolution with
  | nil => simp
  | cons name names ih =>
      rw [List.map_cons, List.foldlM_cons, readLine_incomparable, Option.bind_eq_bind,
        Option.bind_some, ih]
      simp

/-- The decision lines, read over the host they were written on, give the decision back. -/
theorem foldlM_decisionLines {before after : Files} {resolution : Resolution} {winners : Winners}
    (recordable : Recordable resolution winners)
    (unchanged : ∀ entry ∈ winners.entries, after entry.2 = before entry.2)
    (loader : ∀ path ∈ resolution.hostInterp, isFile after path) :
    (decisionLines before resolution winners).foldlM (readLine after)
        (Resolution.empty, SortedMap.empty) =
      some (⟨none, resolution.hostInterp, resolution.incomparable⟩, winners) := by
  have interp : (resolution.hostInterp.toList.map interpLine).foldlM (readLine after)
      (Resolution.empty, SortedMap.empty) =
      some (⟨none, resolution.hostInterp, []⟩, SortedMap.empty) := by
    cases chosen : resolution.hostInterp with
    | none => rfl
    | some path =>
        simp only [Option.toList_some, List.map_cons, List.map_nil, List.foldlM_cons, List.foldlM_nil]
        rw [readLine_interp (recordable.interp path chosen) (loader path chosen)]
        rfl
  have hosts : (winners.entries.map hostLine).foldlM (readLine after)
      (⟨none, resolution.hostInterp, []⟩, SortedMap.empty) =
      some (⟨none, resolution.hostInterp, []⟩, winners) := by
    rw [foldlM_hostLines recordable.winners, SortedMap.insertAll_entries]
  have stats : (winners.entries.map (statEntryLine before)).foldlM (readLine after)
      (⟨none, resolution.hostInterp, []⟩, winners) =
      some (⟨none, resolution.hostInterp, []⟩, winners) :=
    foldlM_statLines (fun entry member => (recordable.winners entry member).1) unchanged
      fun entry member => (SortedMap.mem_entries_iff winners entry.1 entry.2).mp member
  have names := foldlM_incomparableLines after resolution.incomparable
    ⟨none, resolution.hostInterp, []⟩ winners
  simp only [decisionLines, List.foldlM_append, interp, hosts, stats, names, Option.bind_eq_bind,
    Option.bind_some, List.nil_append]

theorem identityLines_kind (identity : SelectionIdentity) :
    ∀ line ∈ identity.identityLines, (stripPrefix (utf8 "pin ") line).isSome := by
  intro line member
  rw [SelectionIdentity.identityLines, SelectionIdentity.lines_canonical] at member
  obtain ⟨pin, -, rfl⟩ := List.mem_map.mp member
  simp [pinLine, List.append_assoc]

/-- The identity lines end where the fingerprint line begins, so two records' identities can
neither be a prefix nor an extension of one another. -/
theorem identity_of_same_lines {a b : SelectionIdentity} {f g : Bytes} {rest rest' : List Bytes}
    (same : a.identityLines ++ fingerprintLine f :: rest =
      b.identityLines ++ fingerprintLine g :: rest') :
    a.canonical = b.canonical ∧ f = g ∧ rest = rest' := by
  have marks (text : Bytes) : (stripPrefix (utf8 "pin ") (fingerprintLine text)).isSome = false := by
    rw [fingerprintLine, stripPrefix_other (by decide)]
    rfl
  obtain ⟨identities, prints, rests⟩ :=
    run_append_inj (identityLines_kind a) (identityLines_kind b) (marks f) (marks g) same
  refine ⟨?_, List.append_cancel_left prints, rests⟩
  rw [a.rendered, b.rendered, ← SelectionIdentity.lines_canonical,
    ← SelectionIdentity.lines_canonical]
  exact congrArg joinLines identities

/-- A record is served only to the identity and fingerprint it was written for, and to them it
gives back the recorded loader, winners and incomparable names while the host stands as it was. -/
theorem record_serves_its_launch (before after : Files) (a b : SelectionIdentity) (f g : Bytes)
    (resolution : Resolution) (winners : Winners) (plain : PlainLine f) :
    (∀ served, parseDecision after (recordSelection before a f resolution winners)
        selectionRecordHeader b.identityLines g = some served →
      a.canonical = b.canonical ∧ f = g) ∧
    (a.canonical = b.canonical → f = g → Recordable resolution winners →
      (∀ entry ∈ winners.entries, after entry.2 = before entry.2) →
      (∀ path ∈ resolution.hostInterp, isFile after path) →
      parseDecision after (recordSelection before a f resolution winners)
        selectionRecordHeader b.identityLines g =
      some (⟨none, resolution.hostInterp, resolution.incomparable⟩, winners)) := by
  constructor
  · intro served parsed
    obtain ⟨rest, split, -⟩ := parseDecision_eq_some.mp parsed
    rw [lines_recordSelection before a plain, List.cons_append, List.cons_append] at split
    have matched := identity_of_same_lines (List.cons.inj split).2
    exact ⟨matched.1, matched.2.1⟩
  · intro identities prints recordable unchanged loader
    rw [parseDecision_eq_some]
    refine ⟨decisionLines before resolution winners, ?_,
      foldlM_decisionLines recordable unchanged loader⟩
    rw [lines_recordSelection before a plain, lines_unlines (decisionLines_plain recordable),
      prints, SelectionIdentity.identityLines, identities]
    rfl

/-! ### A host with its own libc -/

def noPinsHash (_ : Bytes) : Bytes :=
  [175, 19, 73, 185, 245, 249, 161, 166, 160, 64, 77, 234, 54, 220, 201, 73,
    155, 203, 37, 201, 173, 193, 18, 183, 204, 154, 147, 202, 228, 31, 50, 98]

/-- The identity of a launch that activates no set. -/
def noPins : SelectionIdentity := (SelectionIdentity.new noPinsHash []).get (by decide +kernel)

def glibcHost : Files := fun path =>
  if path = utf8 "/lib/libc.so.6" then some ⟨true, 2125328, 917, 1714003200, 120, 1714003260, 7⟩
  else if path = utf8 "/lib/ld-linux-x86-64.so.2" then
    some ⟨true, 236616, 918, -1, 0, 1714003260, 8⟩
  else if path = [47, 255] then some ⟨true, 4096, 919, 1714003200, 0, 1714003260, 9⟩
  else none

def glibcResolution : Resolution :=
  ⟨none, some (utf8 "/lib/ld-linux-x86-64.so.2"), [utf8 "libstdc++.so.6"]⟩

def glibcWinners : Winners :=
  ⟨[(utf8 "ld-linux-x86-64.so.2", utf8 "/lib/ld-linux-x86-64.so.2"),
    (utf8 "libc.so.6", utf8 "/lib/libc.so.6")], by decide +kernel⟩

theorem record_serves_its_launch_on_glibc_host :
    parseDecision glibcHost
        (recordSelection glibcHost noPins (utf8 "onelf-resolve-1 auto") glibcResolution glibcWinners)
        selectionRecordHeader noPins.identityLines (utf8 "onelf-resolve-1 auto") =
      some (glibcResolution, glibcWinners) :=
  (record_serves_its_launch glibcHost glibcHost noPins noPins (utf8 "onelf-resolve-1 auto")
    (utf8 "onelf-resolve-1 auto") glibcResolution glibcWinners (by decide +kernel)).2 rfl rfl
    ⟨by decide +kernel, by decide +kernel, by decide +kernel⟩ (fun _ _ => rfl) (by decide +kernel)

/-- Three records the reader does not take as they were written: a fingerprint that ends in a
carriage return is served to one without it, and a winner whose path is not UTF-8 or a loader
that is no regular file is a miss even for the launch that wrote it. -/
theorem record_not_served_as_written :
    parseDecision glibcHost
        (recordSelection glibcHost noPins (utf8 "f\r") Resolution.empty SortedMap.empty)
        selectionRecordHeader noPins.identityLines (utf8 "f") =
      some (Resolution.empty, SortedMap.empty) ∧
    parseDecision glibcHost
        (recordSelection glibcHost noPins (utf8 "f") Resolution.empty
          (SortedMap.empty.insert (utf8 "libc.so.6") [47, 255]))
        selectionRecordHeader noPins.identityLines (utf8 "f") = none ∧
    parseDecision glibcHost
        (recordSelection glibcHost noPins (utf8 "f") ⟨none, some (utf8 "/lib"), []⟩ SortedMap.empty)
        selectionRecordHeader noPins.identityLines (utf8 "f") = none := by
  decide +kernel

end Onelf.Format
