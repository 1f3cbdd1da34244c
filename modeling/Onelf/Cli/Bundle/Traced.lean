import Onelf.Format.EntryPaths
import Onelf.Lib.Ascii
import Onelf.Sysroot.Prune

/-! Traces: what a mount records of a run, read back as the trace tier (`fs.rs`, `prune.rs`). -/

namespace Onelf.Cli.Bundle

open Onelf.Lib Onelf.Sysroot
open Onelf.Format (Manifest zeroDigest u32Max)

/-- The AppDir path a sysroot path lands at. -/
def appdirPath (rel : Bytes) : Bytes := (stripPrefix (utf8 "usr/") rel).getD rel

/-! ### Recording -/

/-- The directories a root file system keeps beside `usr/`, never inside it. -/
def besideUsr : List Bytes :=
  [utf8 "etc", utf8 "opt", utf8 "var", utf8 "srv", utf8 "boot", utf8 "home", utf8 "media",
    utf8 "mnt", utf8 "root", utf8 "run", utf8 "tmp"]

/-- The sysroot path an AppDir path is taken to come from. -/
def appdirToSysroot (path : Bytes) : Option Bytes :=
  if utf8 ".onelf" <+: path then none
  else if besideUsr.contains ((path.splitOn 47).headD path) then some path
  else some (utf8 "usr/" ++ path)

structure TraceRecorder where
  file : Bytes
  seen : List Nat
  armed : Bool

/-- A request the recorder hears of: the launcher arms it, a run looks an entry up or opens it. -/
inductive Request where
  | arm
  | entry (index : Nat)

namespace TraceRecorder

/-- A recorder that appends to what a file holds. -/
def fromEnv (file : Bytes) : TraceRecorder := ⟨file, [], false⟩

/-- What is written for an entry; only files and links are in a package database. -/
def lineOf (manifest : Manifest) (index : Nat) : Bytes :=
  match manifest.entries[index]? with
  | none => []
  | some entry =>
      if entry.kind ≠ .file ∧ entry.kind ≠ .symlink then []
      else match appdirToSysroot (manifest.entryPath index) with
        | none => []
        | some sysroot => 47 :: (sysroot ++ [lineFeed])

def record (manifest : Manifest) (recorder : TraceRecorder) (index : Nat) : TraceRecorder :=
  if !recorder.armed || recorder.seen.contains index then recorder
  else
    { recorder with
      seen := index :: recorder.seen
      file := recorder.file ++ lineOf manifest index }

def hear (manifest : Manifest) (recorder : TraceRecorder) : Request → TraceRecorder
  | .arm => { recorder with armed := true }
  | .entry index => recorder.record manifest index

def run (manifest : Manifest) (recorder : TraceRecorder) (requests : List Request) :
    TraceRecorder :=
  requests.foldl (hear manifest) recorder

end TraceRecorder

/-! ### Reading back -/

/-- `str::trim`, on the bytes of text. -/
def trimText (line : Bytes) : Bytes := Str.encodeUtf8 (Str.trim (Str.fromUtf8Lossy line))

/-- The non-empty, non-comment lines of a tier file; none where it is not text. -/
def readLines (text : Bytes) : Option (List Bytes) :=
  if validUtf8 text then
    some (((lines text).map trimText).filter fun line => !line.isEmpty && line.head? ≠ some 35)
  else none

/-- `Trace::load`. -/
def loadTrace (text : Bytes) : Option Trace := (readLines text).map Trace.fromPaths

/-! ### Surviving -/

/-- The names of a path. -/
def names (path : Bytes) : List Bytes := (components path).filterMap Component.name?

/-- An entry that holds the file or link a build copied to the AppDir path of `rel`. -/
structure Packed (manifest : Manifest) (index : Nat) (rel : Bytes) : Prop where
  admitted : ∀ c ∈ components rel, c = .current ∨ ∃ name, c = .normal name
  inside : (appdirPath rel).head? ≠ some 47
  named : names (appdirPath rel) ≠ []
  path : manifest.entryPath index = joinPath (names (appdirPath rel))
  leaf : ∃ entry, manifest.entries[index]? = some entry ∧
    (entry.kind = .file ∨ entry.kind = .symlink)

/-- Text of whole lines, as earlier runs leave a trace file. -/
def WholeLines (text : Bytes) : Prop :=
  validUtf8 text = true ∧ (text = [] ∨ text.getLast? = some lineFeed)

/-- Every run that uses the entry leaves a trace that reads back and keeps `rel`. -/
def Survives (manifest : Manifest) (index : Nat) (rel : Bytes) : Prop :=
  ∀ (prior : Bytes) (early late later : List Request), WholeLines prior →
    ∃ trace, loadTrace (((TraceRecorder.fromEnv prior).run manifest
        (early ++ .arm :: late ++ .entry index :: later)).file) = some trace ∧
      trace.keeps rel = true ∧
      ∀ (tiers : Tiers) (keepNames : Finset Bytes), tiers.trace = some trace →
        tiers.survives keepNames rel = true

def Plain (name : Bytes) : Prop := name ≠ [] ∧ name ≠ [46] ∧ name ≠ [46, 46] ∧ 47 ∉ name

/-- Spelled plainly, and from where flattening is undone. -/
def Guessable (rel : Bytes) : Prop :=
  ∃ top below, (∀ name ∈ top :: below, Plain name) ∧
    (rel = joinPath (utf8 "usr" :: top :: below) ∧ top ∉ besideUsr ∧ ¬ utf8 ".onelf" <+: top ∨
      rel = joinPath (top :: below) ∧ top ∈ besideUsr)

/-- Its line comes back as it was, or as far as a directory the sibling rule keeps. -/
def Legible (rel : Str) : Prop :=
  ('\n' ∉ rel ∧ ∀ c ∈ rel.getLast?, Str.isWhitespace c = false) ∨
    ∃ dir, dirOf (Str.encodeUtf8 rel) = some dir ∧ isFlatSystemDir dir = false ∧ lineFeed ∉ dir

/-! ### Directories and names -/

theorem joinPath_concat {front : List Bytes} (some : front ≠ []) (last : Bytes) :
    joinPath (front ++ [last]) = joinPath front ++ 47 :: last := by
  induction front with
  | nil => contradiction
  | cons name front ih =>
      cases front with
      | nil =>
          rw [joinPath, joinPath, List.singleton_append, List.intercalate_cons_cons,
            List.intercalate_singleton, List.intercalate_singleton, List.append_assoc]
          rfl
      | cons second front =>
          have later := ih (List.cons_ne_nil second front)
          rw [joinPath, joinPath] at later
          rw [List.cons_append, List.cons_append, joinPath, joinPath, List.intercalate_cons_cons,
            List.intercalate_cons_cons, ← List.cons_append, later, ← List.append_assoc]

theorem dirOf_eq_some {path dir : Bytes} :
    dirOf path = some dir ↔ ∃ base, 47 ∉ base ∧ path = dir ++ 47 :: base := by
  constructor
  · intro found
    rw [dirOf] at found
    split at found
    · next slash =>
        have some := List.splitOn_ne_nil 47 path
        have parts := List.dropLast_append_getLast some
        have whole : joinPath (path.splitOn 47) = path := List.intercalate_splitOn 47
        refine ⟨_, not_mem_of_mem_splitOn (List.getLast_mem some), ?_⟩
        rw [← Option.some.inj found, ← joinPath_concat, parts, whole]
        intro alone
        rw [alone, List.nil_append] at parts
        have single : [47].intercalate [(path.splitOn 47).getLast some] = path := by
          rw [parts]
          exact whole
        rw [List.intercalate_singleton] at single
        exact not_mem_of_mem_splitOn (List.getLast_mem some) (single.symm ▸ slash)
    · cases found
  · rintro ⟨base, whole, rfl⟩
    rw [dirOf, if_pos (by simp), List.splitOn_append_cons_self, List.splitOn_eq_singleton whole,
      List.dropLast_concat, joinPath, List.intercalate_splitOn]

/-- What comes after the last slash does not change the directory. -/
theorem dirOf_append {path more dir : Bytes} (whole : 47 ∉ more) :
    dirOf (path ++ more) = some dir ↔ dirOf path = some dir := by
  rw [dirOf_eq_some, dirOf_eq_some]
  constructor
  · rintro ⟨base, last, same⟩
    rcases List.append_eq_append_iff.mp same with ⟨middle, head, tail⟩ | ⟨middle, head, tail⟩
    · exfalso
      apply whole
      rw [tail]
      simp
    · cases middle with
      | nil =>
          exfalso
          apply whole
          rw [← List.nil_append more, ← tail]
          exact List.mem_cons_self
      | cons byte middle =>
          rw [List.cons_append, List.cons.injEq] at tail
          refine ⟨middle, fun inside => last (tail.2 ▸ List.mem_append_left _ inside), ?_⟩
          rw [head, tail.1]
  · rintro ⟨base, last, same⟩
    refine ⟨base ++ more, ?_, by rw [same, List.append_assoc, List.cons_append]⟩
    rw [List.mem_append, not_or]
    exact ⟨last, whole⟩

/-- Whether a part of a path is a name. -/
def isName (part : Bytes) : Bool := part ≠ [] ∧ part ≠ [46] ∧ part ≠ [46, 46]

theorem names_eq (path : Bytes) : names path = (path.splitOn 47).filter isName := by
  have each (part : Bytes) : (componentOf part).bind Component.name? =
      if isName part then some part else none := by
    rw [componentOf, isName]
    by_cases nothing : part = [] ∨ part = [46]
    · rw [if_pos nothing, if_neg (by simpa using fun a b => absurd nothing (not_or.mpr ⟨a, b⟩))]
      rfl
    · rw [if_neg nothing]
      rw [not_or] at nothing
      by_cases up : part = [46, 46]
      · simp [up, Component.name?]
      · rw [if_neg up, if_pos (by simpa using ⟨nothing.1, nothing.2, up⟩)]
        rfl
  have body : (path.splitOn 47).filterMap (fun part => (componentOf part).bind Component.name?) =
      (path.splitOn 47).filter isName := by
    rw [← List.filterMap_eq_filter]
    exact List.filterMap_congr fun part _ => (each part).trans (by rw [Option.guard])
  rw [names, components, List.filterMap_append, List.filterMap_filterMap, body]
  split_ifs <;> rfl

theorem length_joinPath_names_le (path : Bytes) :
    (joinPath (names path)).length ≤ path.length := by
  rw [names_eq]
  calc (joinPath ((path.splitOn 47).filter isName)).length
      ≤ (joinPath (path.splitOn 47)).length := length_intercalate_filter_le 47 isName _
    _ = path.length := congrArg List.length (List.intercalate_splitOn 47)

theorem names_snoc {dir base : Bytes} (whole : 47 ∉ base) :
    names (dir ++ 47 :: base) = names dir ++ [base].filter isName := by
  rw [names_eq, names_eq, List.splitOn_append_cons_self, List.filter_append,
    List.splitOn_eq_singleton whole]

theorem names_whole {path : Bytes} (whole : 47 ∉ path) : names path = [path].filter isName := by
  rw [names_eq, List.splitOn_eq_singleton whole]

/-- Names that keep a path's directory keep the path. -/
theorem base_of_joinPath_names {dir base base' : Bytes} (whole : 47 ∉ base)
    (same : joinPath (names (dir ++ 47 :: base)) = dir ++ 47 :: base') (last : 47 ∉ base') :
    base' = base := by
  rw [names_snoc whole] at same
  by_cases named : isName base = true
  · rw [List.filter_cons_of_pos named, List.filter_nil] at same
    by_cases alone : names dir = []
    · exfalso
      rw [alone, List.nil_append, joinPath, List.intercalate_singleton] at same
      apply whole
      rw [same]
      simp
    · rw [joinPath_concat alone] at same
      have dirs : dirOf (dir ++ 47 :: base') = some (joinPath (names dir)) := by
        rw [← same]
        exact dirOf_eq_some.mpr ⟨base, whole, rfl⟩
      rw [dirOf_eq_some.mpr ⟨base', last, rfl⟩, Option.some.injEq] at dirs
      rw [← dirs] at same
      have tails := List.append_cancel_left same
      rw [List.cons.injEq] at tails
      exact tails.2.symm
  · exfalso
    rw [List.filter_cons_of_neg named, List.filter_nil, List.append_nil] at same
    have short := length_joinPath_names_le dir
    rw [same, List.length_append, List.length_cons] at short
    omega

/-! ### What the guess gives back -/

theorem usr_of_append {path more : Bytes} (whole : 47 ∉ more)
    (leads : utf8 "usr/" <+: path ++ more) : utf8 "usr/" <+: path := by
  rcases List.prefix_or_prefix_of_prefix leads (List.prefix_append path more) with
    inside | ⟨rest, all⟩
  · exact inside
  · cases rest with
    | nil => rw [← all, List.append_nil]
    | cons byte rest =>
        exfalso
        rcases leads with ⟨tail, same⟩
        rw [← all, List.append_assoc] at same
        have slash : (47 : UInt8) ∈ byte :: rest := by
          have ends : (path ++ byte :: rest).getLast? = some 47 := by
            rw [all]
            rfl
          rw [List.getLast?_append_of_ne_nil _ (List.cons_ne_nil byte rest)] at ends
          exact List.mem_of_getLast? ends
        apply whole
        rw [← List.append_cancel_left same]
        exact List.mem_append_left _ slash

theorem appdirPath_usr (rest : Bytes) : appdirPath (utf8 "usr/" ++ rest) = rest := by
  rw [appdirPath, stripPrefix_append]
  rfl

theorem appdirPath_other {rel : Bytes} (other : ¬ utf8 "usr/" <+: rel) : appdirPath rel = rel := by
  rw [appdirPath, stripPrefix_eq_none.mpr]
  · rfl
  · intro rest same
    exact other ⟨rest, same.symm⟩

theorem splitOn_usr (rest : Bytes) :
    (utf8 "usr/" ++ rest).splitOn 47 = utf8 "usr" :: rest.splitOn 47 := by
  have parts : utf8 "usr/" ++ rest = utf8 "usr" ++ 47 :: rest := rfl
  rw [parts, List.splitOn_append_cons_self_of_not_mem (by decide)]

/-- Either spelling the guess can give. -/
theorem appdirToSysroot_eq_some {path sysroot : Bytes}
    (found : appdirToSysroot path = some sysroot) :
    sysroot = path ∧ ¬ utf8 "usr/" <+: path ∨ sysroot = utf8 "usr/" ++ path := by
  rw [appdirToSysroot] at found
  split_ifs at found with hidden beside
  · refine Or.inl ⟨(Option.some.inj found).symm, ?_⟩
    rintro ⟨rest, rfl⟩
    rw [splitOn_usr] at beside
    exact absurd beside (by rw [List.headD_cons]; decide)
  · exact Or.inr (Option.some.inj found).symm

/-- The same up to the last slash, or one the beginning of the other. -/
def Alike (path other : Bytes) : Prop :=
  ∃ common more rest, path = common ++ more ∧ other = common ++ rest ∧ 47 ∉ more ∧ 47 ∉ rest ∧
    (rest = [] ∨ common = [] ∨ common.getLast? = some 47)

theorem alike_of_append {path more : Bytes} (whole : 47 ∉ more) : Alike (path ++ more) path :=
  ⟨path, more, [], rfl, (List.append_nil path).symm, whole, List.not_mem_nil, Or.inl rfl⟩

theorem alike_of_dirOf {path other dir : Bytes} (first : dirOf path = some dir)
    (second : dirOf other = some dir) : Alike path other := by
  obtain ⟨base, last, rfl⟩ := dirOf_eq_some.mp first
  obtain ⟨base', last', rfl⟩ := dirOf_eq_some.mp second
  exact ⟨dir ++ [47], base, base', by simp, by simp, last, last', by simp⟩

theorem Alike.usr_iff {path other : Bytes} (alike : Alike path other) :
    utf8 "usr/" <+: path ↔ utf8 "usr/" <+: other := by
  obtain ⟨common, more, rest, rfl, rfl, last, last', -⟩ := alike
  constructor
  · exact fun leads => (usr_of_append last leads).trans (List.prefix_append common rest)
  · exact fun leads => (usr_of_append last' leads).trans (List.prefix_append common more)

theorem Alike.of_usr {path other : Bytes}
    (alike : Alike (utf8 "usr/" ++ path) (utf8 "usr/" ++ other)) : Alike path other := by
  obtain ⟨common, more, rest, first, second, last, last', shape⟩ := alike
  obtain ⟨below, rfl⟩ := usr_of_append last (first ▸ List.prefix_append _ path)
  rw [List.append_assoc] at first second
  refine ⟨below, more, rest, List.append_cancel_left first, List.append_cancel_left second, last,
    last', shape.imp_right fun shape => ?_⟩
  cases below with
  | nil => exact Or.inl rfl
  | cons byte below =>
      refine Or.inr (shape.resolve_left (by simp [utf8]) ▸ ?_)
      rw [List.getLast?_append_of_ne_nil _ (List.cons_ne_nil byte below)]

theorem joinPath_names_eq {path : Bytes} (named : names path ≠ [])
    (alike : Alike (joinPath (names path)) path) : joinPath (names path) = path := by
  obtain ⟨common, more, rest, first, second, last, last', shape⟩ := alike
  rcases shape with rfl | rfl | ends
  · have short := length_joinPath_names_le path
    rw [List.append_nil] at second
    rw [first, ← second, List.length_append] at short
    rw [first, List.length_eq_zero_iff.mp (by omega : more.length = 0), List.append_nil, ← second]
  · rw [List.nil_append] at second
    rw [← second] at last'
    rw [names_whole last'] at named ⊢
    by_cases whole : isName path = true
    · rw [List.filter_cons_of_pos whole, List.filter_nil, joinPath, List.intercalate_singleton]
    · exact absurd (List.filter_cons_of_neg whole) named
  · obtain ⟨dir, rfl⟩ := List.getLast?_eq_some_iff.mp ends
    rw [List.append_assoc, List.singleton_append] at first second
    rw [second] at first
    rw [second, first, base_of_joinPath_names last' first last]

/-- What the guess spells like `rel` is `rel`. -/
theorem sysroot_eq {rel sysroot : Bytes} (named : names (appdirPath rel) ≠ [])
    (found : appdirToSysroot (joinPath (names (appdirPath rel))) = some sysroot)
    (alike : Alike sysroot rel) : sysroot = rel := by
  by_cases leads : utf8 "usr/" <+: rel
  · obtain ⟨rest, rfl⟩ := leads
    rw [appdirPath_usr] at found named
    rcases appdirToSysroot_eq_some found with ⟨rfl, other⟩ | rfl
    · exact absurd (alike.usr_iff.mpr (List.prefix_append _ rest)) other
    · rw [joinPath_names_eq named alike.of_usr]
  · rw [appdirPath_other leads] at found named
    rcases appdirToSysroot_eq_some found with ⟨rfl, -⟩ | rfl
    · exact joinPath_names_eq named alike
    · exact absurd (alike.usr_iff.mp (List.prefix_append _ _)) leads

/-! ### Lines -/

theorem trimText_encodeUtf8 (text : Str) :
    trimText (Str.encodeUtf8 text) = Str.encodeUtf8 (Str.trim text) := by
  rw [trimText, Str.fromUtf8Lossy_encodeUtf8]

theorem encodeUtf8_slash (text : Str) :
    Str.encodeUtf8 ('/' :: text) = 47 :: Str.encodeUtf8 text := rfl

/-- A line feed ends a line, with a carriage return before it or not; trimming takes both. -/
theorem trimText_chompLine (text : Str) :
    trimText (chompLine (Str.encodeUtf8 text ++ [lineFeed])) = Str.encodeUtf8 (Str.trim text) := by
  by_cases returned : (Str.encodeUtf8 text).getLast? = some carriageReturn
  · obtain ⟨front, same⟩ := List.getLast?_eq_some_iff.mp returned
    obtain ⟨before, after, parts, first, second⟩ :=
      encodeUtf8_split (by decide : carriageReturn < 0x80) same
    have chomped : chompLine (Str.encodeUtf8 text ++ [lineFeed]) = front := by
      rw [chompLine, same, List.reverse_append, List.reverse_append]
      exact List.reverse_reverse front
    have none : after = [] := Str.encodeUtf8_injective second
    rw [chomped, ← first, trimText_encodeUtf8, parts, none, trim_append (by decide)]
  · rw [chompLine_terminated returned, trimText_encodeUtf8]

theorem trim_slash (text : Str) :
    Str.trim ('/' :: text) = '/' :: text.rdropWhile Str.isWhitespace := by
  rw [Str.trim, List.dropWhile_cons_of_neg (by decide), List.rdropWhile, List.rdropWhile,
    List.reverse_cons, List.dropWhile_append]
  split
  · next all =>
      rw [List.isEmpty_iff.mp all]
      rfl
  · rw [List.reverse_append]
    rfl

/-- Text without the blanks at its end. -/
def shown (text : Str) : Str := text.rdropWhile Str.isWhitespace

/-- The line of a path comes back as the path without the blanks at its end. -/
theorem line_read (text : Str) :
    trimText (chompLine (47 :: Str.encodeUtf8 text ++ [lineFeed])) =
      47 :: Str.encodeUtf8 (shown text) := by
  have line := trimText_chompLine ('/' :: text)
  rwa [trim_slash, encodeUtf8_slash, encodeUtf8_slash] at line

theorem shown_eq_self_iff {text : Str} :
    shown text = text ↔ ∀ c ∈ text.getLast?, Str.isWhitespace c = false := by
  rw [shown, List.rdropWhile_eq_self_iff]
  constructor
  · intro last c ends
    have some : text ≠ [] := by
      rintro rfl
      cases ends
    rw [List.getLast?_eq_some_getLast some] at ends
    rw [← Option.some.inj ends]
    exact Bool.eq_false_iff.mpr (last some)
  · intro last some
    rw [last _ (List.getLast?_eq_some_getLast some)]
    exact Bool.false_ne_true

/-- The blanks hold no slash. -/
theorem shown_append (text : Str) :
    ∃ blanks, Str.encodeUtf8 text = Str.encodeUtf8 (shown text) ++ blanks ∧ 47 ∉ blanks := by
  refine ⟨Str.encodeUtf8 (text.rtakeWhile Str.isWhitespace), ?_, ?_⟩
  · rw [← encodeUtf8_append, shown, List.rdropWhile_append_rtakeWhile]
  · rw [mem_encodeUtf8 (by decide)]
    exact fun inside => absurd (List.mem_rtakeWhile_imp inside) (by decide)

theorem dirOf_shown (text : Str) {dir : Bytes} :
    dirOf (Str.encodeUtf8 (shown text)) = some dir ↔ dirOf (Str.encodeUtf8 text) = some dir := by
  obtain ⟨blanks, parts, whole⟩ := shown_append text
  rw [parts, dirOf_append whole]

theorem rawLines_ne_nil {text : Bytes} (some : text ≠ []) : rawLines text ≠ [] := by
  cases text with
  | nil => contradiction
  | cons byte text =>
      rw [rawLines]
      split_ifs
      · exact List.cons_ne_nil _ _
      · split
        · exact List.cons_ne_nil _ _
        · exact List.cons_ne_nil _ _

/-- Lines that end are lines of any text they begin. -/
theorem rawLines_append_whole {before : Bytes}
    (complete : before = [] ∨ before.getLast? = some lineFeed) (rest : Bytes) :
    rawLines (before ++ rest) = rawLines before ++ rawLines rest := by
  induction before with
  | nil => rfl
  | cons byte before ih =>
      replace complete := complete.resolve_left (List.cons_ne_nil byte before)
      cases before with
      | nil =>
          have ends : byte = lineFeed := Option.some.inj complete
          rw [ends, List.singleton_append, rawLines, rawLines, if_pos rfl, if_pos rfl]
          rfl
      | cons next before =>
          rw [List.getLast?_cons_cons] at complete
          have later := ih (Or.inr complete)
          rw [List.cons_append, rawLines, rawLines, later]
          split_ifs
          · rfl
          · cases lines : rawLines (next :: before) with
            | nil => exact absurd lines (rawLines_ne_nil (List.cons_ne_nil next before))
            | cons line lines => rfl

theorem mem_readLines {text line : Bytes} (valid : validUtf8 text = true)
    (member : 47 :: line ∈ (lines text).map trimText) :
    ∃ read, readLines text = some read ∧ 47 :: line ∈ read := by
  refine ⟨_, by rw [readLines, if_pos valid], ?_⟩
  exact List.mem_filter.mpr ⟨member, rfl⟩

theorem lines_around {before line after : Bytes}
    (complete : before = [] ∨ before.getLast? = some lineFeed) (whole : lineFeed ∉ line) :
    chompLine (line ++ [lineFeed]) ∈ lines (before ++ (line ++ lineFeed :: after)) := by
  rw [lines, rawLines_append_whole complete, rawLines_append whole]
  apply List.mem_map_of_mem
  simp

/-! ### What a run writes -/

theorem wholeLines_append {first second : Bytes} (left : WholeLines first)
    (right : WholeLines second) : WholeLines (first ++ second) := by
  refine ⟨validUtf8_append left.1 right.1, ?_⟩
  by_cases none : second = []
  · rw [none, List.append_nil]
    exact left.2
  · rw [List.getLast?_append_of_ne_nil _ none]
    exact Or.inr (right.2.resolve_left none)

theorem validUtf8_entryPath (manifest : Manifest) (index : Nat) :
    validUtf8 (manifest.entryPath index) = true := by
  rw [Manifest.entryPath_eq, joinPath, validUtf8_intercalate (by decide)]
  intro part member
  obtain ⟨-, _, entry, -, rfl⟩ := Manifest.mem_entryParts member
  rw [Manifest.getString]
  split_ifs with valid
  · exact valid
  · rfl

namespace TraceRecorder

variable {manifest : Manifest} {recorder : TraceRecorder}

theorem wholeLines_lineOf (index : Nat) : WholeLines (lineOf manifest index) := by
  have nothing : WholeLines [] := ⟨rfl, Or.inl rfl⟩
  rw [lineOf]
  split
  · exact nothing
  · split_ifs
    · exact nothing
    · split
      · exact nothing
      · next sysroot found =>
          have path := validUtf8_entryPath manifest index
          have valid : validUtf8 sysroot = true := by
            rcases appdirToSysroot_eq_some found with ⟨rfl, -⟩ | rfl
            · exact path
            · exact validUtf8_append rfl path
          have ends : (47 :: (sysroot ++ [lineFeed])).getLast? = some lineFeed := by
            rw [← List.cons_append, List.getLast?_concat]
          refine ⟨?_, Or.inr ends⟩
          have slash : validUtf8 ([47] ++ (sysroot ++ [lineFeed])) = true :=
            validUtf8_append rfl (validUtf8_append valid rfl)
          exact slash

/-- A file of whole lines that holds the line of every entry seen. -/
structure Faithful (manifest : Manifest) (recorder : TraceRecorder) : Prop where
  whole : WholeLines recorder.file
  held : ∀ index ∈ recorder.seen, ∃ before after, WholeLines before ∧
    recorder.file = before ++ (lineOf manifest index ++ after)

theorem Faithful.record (faithful : Faithful manifest recorder) (index : Nat) :
    Faithful manifest (recorder.record manifest index) := by
  rw [TraceRecorder.record]
  split_ifs
  · exact faithful
  · constructor
    · exact wholeLines_append faithful.whole (wholeLines_lineOf index)
    · intro other member
      rcases List.mem_cons.mp member with rfl | earlier
      · exact ⟨recorder.file, [], faithful.whole, by rw [List.append_nil]⟩
      · obtain ⟨before, after, complete, file⟩ := faithful.held other earlier
        refine ⟨before, after ++ lineOf manifest index, complete, ?_⟩
        simp only [file, List.append_assoc]

theorem Faithful.run (faithful : Faithful manifest recorder) (requests : List Request) :
    Faithful manifest (recorder.run manifest requests) := by
  induction requests generalizing recorder with
  | nil => exact faithful
  | cons request requests ih =>
      cases request with
      | arm => exact ih ⟨faithful.whole, faithful.held⟩
      | entry index => exact ih (faithful.record index)

theorem seen_record (index : Nat) : recorder.seen ⊆ (recorder.record manifest index).seen := by
  rw [record]
  split_ifs
  · exact List.Subset.refl _
  · exact List.subset_cons_self index recorder.seen

theorem armed_record (index : Nat) :
    (recorder.record manifest index).armed = recorder.armed := by
  rw [record]
  split_ifs <;> rfl

theorem seen_run (requests : List Request) :
    recorder.seen ⊆ (recorder.run manifest requests).seen := by
  induction requests generalizing recorder with
  | nil => exact List.Subset.refl _
  | cons request requests ih =>
      cases request with
      | arm => exact @ih { recorder with armed := true }
      | entry index => exact List.Subset.trans (seen_record index) ih

theorem armed_run (armed : recorder.armed = true) (requests : List Request) :
    (recorder.run manifest requests).armed = true := by
  induction requests generalizing recorder with
  | nil => exact armed
  | cons request requests ih =>
      cases request with
      | arm => exact ih rfl
      | entry index => exact ih ((armed_record index).trans armed)

theorem run_append (first second : List Request) :
    recorder.run manifest (first ++ second) = (recorder.run manifest first).run manifest second :=
  List.foldl_append

theorem mem_seen_record (armed : recorder.armed = true) (index : Nat) :
    index ∈ (recorder.record manifest index).seen := by
  rw [record, armed]
  split_ifs with seen
  · simpa using seen
  · exact List.mem_cons_self

/-- A run that uses an entry leaves its line in the file. -/
theorem file_run {prior : Bytes} (complete : WholeLines prior) (early late later : List Request)
    (index : Nat) :
    ∃ before after, WholeLines before ∧
      WholeLines ((fromEnv prior).run manifest
        (early ++ .arm :: late ++ .entry index :: later)).file ∧
      ((fromEnv prior).run manifest (early ++ .arm :: late ++ .entry index :: later)).file =
        before ++ (lineOf manifest index ++ after) := by
  have start : Faithful manifest (fromEnv prior) :=
    ⟨complete, fun _ member => absurd member List.not_mem_nil⟩
  have whole := start.run (early ++ .arm :: late ++ .entry index :: later)
  have seen : index ∈ ((fromEnv prior).run manifest
      (early ++ .arm :: late ++ .entry index :: later)).seen := by
    rw [run_append, run_append]
    apply seen_run later
    apply mem_seen_record
    exact armed_run rfl late
  obtain ⟨before, after, first, file⟩ := whole.held index seen
  exact ⟨before, after, first, whole.whole, file⟩

end TraceRecorder

/-! ### Where the guess is right -/

theorem names_joinPath {parts : List Bytes} (plain : ∀ name ∈ parts, Plain name)
    (some : parts ≠ []) : names (joinPath parts) = parts := by
  rw [names_eq, joinPath, List.splitOn_intercalate 47 (fun name member => (plain name member).2.2.2)
    some, List.filter_eq_self]
  intro name member
  have own := plain name member
  simpa [isName] using ⟨own.1, own.2.1, own.2.2.1⟩

theorem plain_names (path : Bytes) : ∀ name ∈ names path, Plain name := by
  intro name member
  rw [names_eq, List.mem_filter] at member
  have own : name ≠ [] ∧ name ≠ [46] ∧ name ≠ [46, 46] := by simpa [isName] using member.2
  exact ⟨own.1, own.2.1, own.2.2, not_mem_of_mem_splitOn member.1⟩

theorem joinPath_cons (top : Bytes) (below : List Bytes) :
    ∃ rest, joinPath (top :: below) = top ++ rest ∧ (rest = [] ∨ rest.head? = some 47) := by
  cases below with
  | nil => exact ⟨[], by rw [joinPath, List.intercalate_singleton, List.append_nil], Or.inl rfl⟩
  | cons next below =>
      refine ⟨47 :: joinPath (next :: below), ?_, Or.inr rfl⟩
      rw [joinPath, List.intercalate_cons_cons, List.append_assoc]
      rfl

theorem joinPath_usr (top : Bytes) (below : List Bytes) :
    joinPath (utf8 "usr" :: top :: below) = utf8 "usr/" ++ joinPath (top :: below) := by
  rw [joinPath, List.intercalate_cons_cons]
  rfl

/-- A prefix without a slash is one of the first name. -/
theorem lead_joinPath {lead top : Bytes} {below : List Bytes} (whole : 47 ∉ lead) :
    lead <+: joinPath (top :: below) ↔ lead <+: top := by
  obtain ⟨rest, same, shape⟩ := joinPath_cons top below
  rw [same]
  constructor
  · intro leads
    rcases List.prefix_or_prefix_of_prefix leads (List.prefix_append top rest) with
      inside | ⟨more, all⟩
    · exact inside
    · cases more with
      | nil => rw [← all, List.append_nil]
      | cons byte more =>
          exfalso
          rw [← all, List.prefix_append_right_inj] at leads
          rcases shape with rfl | slash
          · exact absurd leads (by simp)
          · rw [List.cons_prefix_iff] at leads
            obtain ⟨tail, parts, -⟩ := leads
            rw [parts] at slash
            apply whole
            rw [← all, ← Option.some.inj slash]
            simp
  · exact fun leads => leads.trans (List.prefix_append top rest)

theorem appdirToSysroot_joinPath {top : Bytes} {below : List Bytes}
    (plain : ∀ name ∈ top :: below, Plain name) {sysroot : Bytes} :
    appdirToSysroot (joinPath (top :: below)) = some sysroot ↔
      sysroot = joinPath (utf8 "usr" :: top :: below) ∧ top ∉ besideUsr ∧ ¬ utf8 ".onelf" <+: top ∨
        sysroot = joinPath (top :: below) ∧ top ∈ besideUsr := by
  have parts : (joinPath (top :: below)).splitOn 47 = top :: below :=
    List.splitOn_intercalate 47 (fun name member => (plain name member).2.2.2)
      (List.cons_ne_nil top below)
  have shown : ∀ other ∈ besideUsr, ¬ utf8 ".onelf" <+: other := by decide
  have lead : utf8 ".onelf" <+: joinPath (top :: below) ↔ utf8 ".onelf" <+: top :=
    lead_joinPath (by decide)
  rw [appdirToSysroot, ← lead, parts, List.headD_cons, joinPath_usr]
  split_ifs with hidden beside
  · simp only [hidden, not_true_eq_false, and_false, false_or, false_iff, not_and]
    exact fun _ inside => shown top inside (lead.mp hidden)
  · have inside := List.contains_iff_mem.mp beside
    simp [inside, eq_comm]
  · have outside : top ∉ besideUsr := fun inside => beside (List.contains_iff_mem.mpr inside)
    simp [outside, hidden, eq_comm]

theorem guessable_iff {rel : Bytes} (named : names (appdirPath rel) ≠ []) :
    appdirToSysroot (joinPath (names (appdirPath rel))) = some rel ↔ Guessable rel := by
  constructor
  · intro found
    cases held : names (appdirPath rel) with
    | nil => exact absurd held named
    | cons top below =>
        have plain := plain_names (appdirPath rel)
        rw [held] at plain found
        exact ⟨top, below, plain, (appdirToSysroot_joinPath plain).mp found⟩
  · rintro ⟨top, below, plain, shape⟩
    have path : appdirPath rel = joinPath (top :: below) := by
      rcases shape with ⟨rfl, -⟩ | ⟨rfl, beside⟩
      · rw [joinPath_usr, appdirPath_usr]
      · apply appdirPath_other
        rintro ⟨rest, same⟩
        have parts := splitOn_usr rest
        rw [same, joinPath, List.splitOn_intercalate 47
          (fun name member => (plain name member).2.2.2) (List.cons_ne_nil top below)] at parts
        rw [(List.cons.inj parts).1] at beside
        exact absurd beside (by decide)
    rw [path, names_joinPath plain (List.cons_ne_nil top below)]
    exact (appdirToSysroot_joinPath plain).mpr shape

/-! ### A line comes back -/

theorem dropWhile_relative {kept more : Bytes} (relative : (kept ++ more).head? ≠ some 47) :
    kept.dropWhile (· = 47) = kept := by
  cases kept with
  | nil => rfl
  | cons byte kept =>
      rw [List.cons_append, List.head?_cons] at relative
      exact List.dropWhile_cons_of_neg (by simpa using relative)

/-- Where a file holds the line of `front`, its trace has opened it, up to blanks at its end. -/
theorem opened_of_line {before after : Bytes} {front : Str} (complete : WholeLines before)
    (valid : validUtf8 (before ++ (47 :: Str.encodeUtf8 front ++ lineFeed :: after)) = true)
    (whole : lineFeed ∉ Str.encodeUtf8 front) (relative : (Str.encodeUtf8 front).head? ≠ some 47) :
    ∃ trace, loadTrace (before ++ (47 :: Str.encodeUtf8 front ++ lineFeed :: after)) = some trace ∧
      Str.encodeUtf8 (shown front) ∈ trace.opened ∧
      trace.openedDirs = trace.opened.filterMap dirOf := by
  have bare : lineFeed ∉ 47 :: Str.encodeUtf8 front := by
    rw [List.mem_cons, not_or]
    exact ⟨by decide, whole⟩
  have member : 47 :: Str.encodeUtf8 (shown front) ∈
      (lines (before ++ (47 :: Str.encodeUtf8 front ++ lineFeed :: after))).map trimText := by
    rw [← line_read]
    exact List.mem_map_of_mem (lines_around complete.2 bare)
  obtain ⟨read, loaded, held⟩ := mem_readLines valid member
  refine ⟨Trace.fromPaths read, by rw [loadTrace, loaded]; rfl, ?_, rfl⟩
  obtain ⟨blanks, parts, -⟩ := shown_append front
  refine List.mem_map.mpr ⟨_, held, ?_⟩
  rw [List.dropWhile_cons_of_pos (by decide)]
  exact dropWhile_relative (parts ▸ relative)

theorem head_of_admitted {rel : Bytes}
    (admitted : ∀ c ∈ components rel, c = .current ∨ ∃ name, c = .normal name) :
    rel.head? ≠ some 47 := by
  intro slash
  have root : Component.root ∈ components rel := by
    rw [components, if_pos slash]
    exact List.mem_cons_self
  rcases admitted _ root with same | ⟨_, same⟩ <;> cases same

theorem keeps_of_dir {trace : Trace} {kept rel dir : Bytes} (opened : kept ∈ trace.opened)
    (dirs : trace.openedDirs = trace.opened.filterMap dirOf) (first : dirOf kept = some dir)
    (second : dirOf rel = some dir) (deep : isFlatSystemDir dir = false) :
    trace.keeps rel = true := by
  have held : dir ∈ trace.openedDirs := by
    rw [dirs]
    exact List.mem_filterMap.mpr ⟨kept, opened, first⟩
  rw [Trace.keeps, second, Option.any_some, deep]
  simpa using Or.inr held

theorem survives_of_keeps {trace : Trace} {rel : Bytes} (keeps : trace.keeps rel = true)
    (tiers : Tiers) (keepNames : Finset Bytes) (own : tiers.trace = some trace) :
    tiers.survives keepNames rel = true := by
  rw [Tiers.survives, own, Option.all_some, keeps]
  simp

variable {manifest : Manifest} {index : Nat} {rel : Bytes}

theorem Packed.lineOf_eq (packed : Packed manifest index rel) :
    TraceRecorder.lineOf manifest index =
      match appdirToSysroot (joinPath (names (appdirPath rel))) with
      | none => []
      | some sysroot => 47 :: (sysroot ++ [lineFeed]) := by
  obtain ⟨entry, found, kind⟩ := packed.leaf
  rw [TraceRecorder.lineOf, found]
  dsimp only
  rw [if_neg (by rcases kind with same | same <;> simp [same]), packed.path]

/-! ### What keeps a path -/

/-- The first line of a path goes past its directory where that has no line feed. -/
theorem first_line {p : Str} {dir base : Bytes} (path : Str.encodeUtf8 p = dir ++ 47 :: base)
    (last : 47 ∉ base) (clear : lineFeed ∉ dir) (after : Bytes) :
    ∃ front more start, lineFeed ∉ Str.encodeUtf8 front ∧
      Str.encodeUtf8 front <+: Str.encodeUtf8 p ∧
      Str.encodeUtf8 p ++ lineFeed :: after = Str.encodeUtf8 front ++ lineFeed :: more ∧
      Str.encodeUtf8 front = dir ++ 47 :: start ∧ 47 ∉ start := by
  by_cases broken : lineFeed ∈ base
  · obtain ⟨start, rest, rfl, fresh⟩ := List.eq_append_cons_of_mem broken
    rw [List.mem_append, not_or] at last
    have parts : Str.encodeUtf8 p = (dir ++ 47 :: start) ++ lineFeed :: rest := by
      rw [path, List.append_assoc, List.cons_append]
    obtain ⟨front, -, -, first, -⟩ := encodeUtf8_split (by decide) parts
    refine ⟨front, rest ++ lineFeed :: after, start, ?_, ?_, ?_, first, last.1⟩
    · rw [first, List.mem_append, List.mem_cons]
      rintro (inside | same | inside)
      · exact clear inside
      · cases same
      · exact fresh inside
    · rw [parts, first]
      exact List.prefix_append _ _
    · rw [parts, first, List.append_assoc, List.cons_append]
  · refine ⟨p, after, base, ?_, List.prefix_refl _, rfl, path, last⟩
    rw [path, List.mem_append, List.mem_cons]
    rintro (inside | same | inside)
    · exact clear inside
    · cases same
    · exact broken inside

theorem survives_of_guessable {p : Str} (packed : Packed manifest index (Str.encodeUtf8 p))
    (guessable : Guessable (Str.encodeUtf8 p)) (legible : Legible p) :
    Survives manifest index (Str.encodeUtf8 p) := by
  intro prior early late later complete
  obtain ⟨before, after, whole, valid, file⟩ :=
    @TraceRecorder.file_run manifest prior complete early late later index
  have line := packed.lineOf_eq
  rw [(guessable_iff packed.named).mpr guessable] at line
  dsimp only at line
  rw [line] at file
  rw [file] at valid ⊢
  have relative := head_of_admitted packed.admitted
  suffices kept : ∃ trace, loadTrace (before ++ (47 :: (Str.encodeUtf8 p ++ [lineFeed]) ++ after)) =
      some trace ∧ trace.keeps (Str.encodeUtf8 p) = true by
    obtain ⟨trace, loaded, keeps⟩ := kept
    exact ⟨trace, loaded, keeps, survives_of_keeps keeps⟩
  -- the line as the recorder's file holds it, its first line being `front`'s
  have reads {front : Str} {more : Bytes} (first : lineFeed ∉ Str.encodeUtf8 front)
      (begins : Str.encodeUtf8 front <+: Str.encodeUtf8 p)
      (same : Str.encodeUtf8 p ++ lineFeed :: after = Str.encodeUtf8 front ++ lineFeed :: more) :
      ∃ trace, loadTrace (before ++ (47 :: (Str.encodeUtf8 p ++ [lineFeed]) ++ after)) =
          some trace ∧
        Str.encodeUtf8 (shown front) ∈ trace.opened ∧
        trace.openedDirs = trace.opened.filterMap dirOf := by
    have text : before ++ (47 :: (Str.encodeUtf8 p ++ [lineFeed]) ++ after) =
        before ++ (47 :: Str.encodeUtf8 front ++ lineFeed :: more) := by
      rw [List.cons_append, List.append_assoc, List.singleton_append, same, List.cons_append]
    rw [text] at valid ⊢
    apply opened_of_line whole valid.1 first
    intro slash
    obtain ⟨rest, parts⟩ := begins
    rw [← parts, List.head?_append, slash] at relative
    exact relative rfl
  rcases legible with ⟨single, last⟩ | ⟨dir, inside, deep, clear⟩
  · have first : lineFeed ∉ Str.encodeUtf8 p := by
      rw [mem_encodeUtf8 (by decide)]
      exact single
    obtain ⟨trace, loaded, opened, -⟩ := reads first (List.prefix_refl _) rfl
    refine ⟨trace, loaded, ?_⟩
    rw [shown_eq_self_iff.mpr last] at opened
    rw [Trace.keeps, List.contains_iff_mem.mpr opened, Bool.true_or]
  · obtain ⟨base, last, path⟩ := dirOf_eq_some.mp inside
    obtain ⟨front, more, start, first, begins, same, dirs, ends⟩ :=
      first_line path last clear after
    obtain ⟨trace, loaded, opened, held⟩ := reads first begins same
    have own : dirOf (Str.encodeUtf8 (shown front)) = some dir :=
      (dirOf_shown front).mpr (dirOf_eq_some.mpr ⟨start, ends, dirs⟩)
    exact ⟨trace, loaded, keeps_of_dir opened held own inside deep⟩

/-! ### What a kept path takes -/

/-- Bytes that are text. -/
def IsText (bytes : Bytes) : Prop := ∃ text, Str.encodeUtf8 text = bytes

theorem IsText.append {first second : Bytes} (left : IsText first) (right : IsText second) :
    IsText (first ++ second) := by
  obtain ⟨front, rfl⟩ := left
  obtain ⟨back, rfl⟩ := right
  exact ⟨front ++ back, encodeUtf8_append front back⟩

theorem isText_splitOn (text : Str) : ∀ part ∈ (Str.encodeUtf8 text).splitOn 47, IsText part := by
  intro part member
  by_cases slash : (47 : UInt8) ∈ Str.encodeUtf8 text
  · obtain ⟨left, right, same⟩ := List.append_of_mem slash
    obtain ⟨front, back, parts, first, second⟩ := encodeUtf8_split (by decide) same
    have shorter : front.length < text.length ∧ back.length < text.length := by
      rw [parts, List.length_append, List.length_cons]
      omega
    rw [same, List.splitOn_append_cons_self, ← first, ← second] at member
    rcases List.mem_append.mp member with before | after
    · exact isText_splitOn front part before
    · exact isText_splitOn back part after
  · rw [List.splitOn_eq_singleton slash, List.mem_singleton] at member
    exact ⟨text, member.symm⟩
termination_by text.length
decreasing_by
  · exact shorter.1
  · exact shorter.2

theorem isText_joinPath {parts : List Bytes} (each : ∀ part ∈ parts, IsText part) :
    IsText (joinPath parts) := by
  induction parts with
  | nil => exact ⟨[], rfl⟩
  | cons part parts ih =>
      rw [List.forall_mem_cons] at each
      cases parts with
      | nil =>
          rw [joinPath, List.intercalate_singleton]
          exact each.1
      | cons next parts =>
          rw [joinPath, List.intercalate_cons_cons]
          exact (each.1.append ⟨['/'], rfl⟩).append (ih each.2)

theorem isText_appdirPath (p : Str) : IsText (appdirPath (Str.encodeUtf8 p)) := by
  by_cases leads : utf8 "usr/" <+: Str.encodeUtf8 p
  · obtain ⟨rest, same⟩ := leads
    have parts : Str.encodeUtf8 p = utf8 "usr" ++ 47 :: rest := same.symm
    obtain ⟨-, back, -, -, second⟩ := encodeUtf8_split (by decide) parts
    rw [← same, appdirPath_usr]
    exact ⟨back, second⟩
  · rw [appdirPath_other leads]
    exact ⟨p, rfl⟩

theorem isText_sysroot {p : Str} {sysroot : Bytes}
    (found : appdirToSysroot (joinPath (names (appdirPath (Str.encodeUtf8 p)))) = some sysroot) :
    IsText sysroot := by
  have path : IsText (joinPath (names (appdirPath (Str.encodeUtf8 p)))) := by
    obtain ⟨text, same⟩ := isText_appdirPath p
    apply isText_joinPath
    intro part member
    rw [names_eq, ← same] at member
    exact isText_splitOn text part (List.mem_filter.mp member).1
  rcases appdirToSysroot_eq_some found with ⟨rfl, -⟩ | rfl
  · exact path
  · exact IsText.append ⟨['u', 's', 'r', '/'], rfl⟩ path

theorem mem_joinPath_names {path : Bytes} {byte : UInt8} (other : byte ≠ 47)
    (member : byte ∈ joinPath (names path)) : byte ∈ path := by
  obtain ⟨part, inside, held⟩ := (mem_of_mem_intercalate member).resolve_left other
  rw [names_eq] at inside
  have whole := mem_intercalate_of_mem 47 (List.mem_filter.mp inside).1 held
  rwa [List.intercalate_splitOn] at whole

/-- A line feed in what the guess gives stands in what it was made from. -/
theorem mem_of_mem_sysroot {rel sysroot : Bytes}
    (found : appdirToSysroot (joinPath (names (appdirPath rel))) = some sysroot)
    (broken : lineFeed ∈ sysroot) : lineFeed ∈ rel := by
  have below : lineFeed ∈ appdirPath rel := by
    apply mem_joinPath_names (by decide)
    rcases appdirToSysroot_eq_some found with ⟨rfl, -⟩ | rfl
    · exact broken
    · exact (List.mem_append.mp broken).resolve_left (by decide)
  by_cases leads : utf8 "usr/" <+: rel
  · obtain ⟨rest, rfl⟩ := leads
    rw [appdirPath_usr] at below
    exact List.mem_append_right _ below
  · rwa [appdirPath_other leads] at below

theorem mem_of_mem_linesFrom {held text line : Str} {c : Char}
    (member : line ∈ Str.linesFrom held text) (inside : c ∈ line) : c ∈ held ∨ c ∈ text := by
  induction text generalizing held with
  | nil =>
      rw [Str.linesFrom] at member
      split at member
      · cases member
      · rw [List.mem_singleton.mp member] at inside
        exact Or.inl inside
  | cons first text ih =>
      rw [Str.linesFrom] at member
      split at member
      · rcases List.mem_cons.mp member with rfl | later
        · exact Or.inl (Str.mem_of_mem_dropReturn inside)
        · have below := (ih later).resolve_left List.not_mem_nil
          exact Or.inr (List.mem_cons_of_mem _ below)
      · rcases ih member with before | after
        · rw [List.mem_append, List.mem_singleton] at before
          rcases before with earlier | rfl
          · exact Or.inl earlier
          · exact Or.inr List.mem_cons_self
        · exact Or.inr (List.mem_cons_of_mem _ after)

/-- Lines cut from the bytes of text are those cut from its characters. -/
theorem lines_encodeUtf8 (text : Str) : (lines (Str.encodeUtf8 text)).map trimText =
    (Str.lines text).map fun line => Str.encodeUtf8 (Str.trim line) := by
  by_cases broken : '\n' ∈ text
  · obtain ⟨front, back, split, whole⟩ := List.eq_append_cons_of_mem broken
    have shorter : back.length < text.length := by
      rw [split, List.length_append, List.length_cons]
      omega
    have bare : lineFeed ∉ Str.encodeUtf8 front := by
      rw [mem_encodeUtf8 (by decide)]
      exact whole
    have bytes : Str.encodeUtf8 (front ++ '\n' :: back) =
        Str.encodeUtf8 front ++ lineFeed :: Str.encodeUtf8 back := encodeUtf8_append _ _
    have later := lines_encodeUtf8 back
    rw [lines] at later
    rw [split, bytes, lines, rawLines_append bare, Str.lines_append whole, List.map_cons,
      List.map_cons, List.map_cons, later, trimText_chompLine, trim_dropReturn]
  · have bare : lineFeed ∉ Str.encodeUtf8 text := by
      rw [mem_encodeUtf8 (by decide)]
      exact broken
    rw [Str.lines, Str.linesFrom_single broken, List.nil_append]
    cases text with
    | nil => rfl
    | cons c text =>
        have some : Str.encodeUtf8 (c :: text) ≠ [] := fun none =>
          absurd (@Str.encodeUtf8_injective (c :: text) [] none) (List.cons_ne_nil c text)
        rw [if_neg (List.cons_ne_nil c text), lines, rawLines_last bare some, List.map_singleton,
          List.map_singleton, List.map_singleton, chompLine_whole bare, trimText_encodeUtf8]
termination_by text.length
decreasing_by
  exact shorter

theorem opened_of_loadTrace {text : Str} {trace : Trace}
    (loaded : loadTrace (Str.encodeUtf8 text) = some trace) :
    trace.openedDirs = trace.opened.filterMap dirOf ∧ ∀ path ∈ trace.opened,
      ∃ line ∈ Str.lines text, (Str.encodeUtf8 (Str.trim line)).dropWhile (· = 47) = path := by
  rw [loadTrace, readLines, if_pos (Str.validUtf8_encodeUtf8 text), lines_encodeUtf8,
    Option.map_some, Option.some.injEq] at loaded
  rw [← loaded]
  refine ⟨rfl, fun path member => ?_⟩
  obtain ⟨line, held, rfl⟩ := List.mem_map.mp member
  obtain ⟨own, inside, rfl⟩ := List.mem_map.mp (List.mem_filter.mp held).1
  exact ⟨own, inside, rfl⟩

/-- What a trace of one recorded line, and of what follows it, has opened. -/
theorem opened_eq {front back : Str} (whole : '\n' ∉ front)
    (relative : (Str.encodeUtf8 front).head? ≠ some 47) {path : Bytes}
    (opened : ∃ line ∈ Str.lines ('/' :: front ++ '\n' :: back),
      (Str.encodeUtf8 (Str.trim line)).dropWhile (· = 47) = path) :
    lineFeed ∉ path ∧ (path = Str.encodeUtf8 (shown front) ∨
      back ≠ [] ∧ ('/' ∉ back → 47 ∉ path)) := by
  obtain ⟨line, member, rfl⟩ := opened
  have bare {byte : UInt8} (ascii : byte < 0x80) (absent : charOf byte ∉ line) :
      byte ∉ (Str.encodeUtf8 (Str.trim line)).dropWhile (· = 47) := by
    intro inside
    have held := (List.dropWhile_sublist _).subset inside
    rw [mem_encodeUtf8 ascii] at held
    exact absent (Str.mem_of_mem_trim held)
  refine ⟨bare (by decide) (Str.lines_whole member), ?_⟩
  have apart : '\n' ∉ '/' :: front := by
    rw [List.mem_cons, not_or]
    exact ⟨by decide, whole⟩
  rw [Str.lines_append apart] at member
  rcases List.mem_cons.mp member with rfl | later
  · left
    rw [trim_dropReturn, trim_slash, encodeUtf8_slash, List.dropWhile_cons_of_pos (by decide)]
    obtain ⟨blanks, parts, -⟩ := shown_append front
    exact dropWhile_relative (parts ▸ relative)
  · right
    constructor
    · rintro rfl
      cases later
    · intro absent
      apply bare (by decide)
      exact fun inside => absent ((mem_of_mem_linesFrom later inside).resolve_left List.not_mem_nil)

theorem dirOf_of_keeps {trace : Trace} {rel : Bytes} (keeps : trace.keeps rel = true)
    (held : trace.openedDirs = trace.opened.filterMap dirOf) :
    rel ∈ trace.opened ∨ ∃ dir, dirOf rel = some dir ∧ isFlatSystemDir dir = false ∧
      ∃ path ∈ trace.opened, dirOf path = some dir := by
  rw [Trace.keeps, Bool.or_eq_true, List.contains_iff_mem, Option.any_eq_true] at keeps
  refine keeps.imp_right ?_
  rintro ⟨dir, own, shape⟩
  rw [Bool.and_eq_true, Bool.not_eq_true', List.contains_iff_mem, held] at shape
  exact ⟨dir, own, shape.1, List.mem_filterMap.mp shape.2⟩

theorem head_sysroot {rel sysroot : Bytes} (named : names (appdirPath rel) ≠ [])
    (found : appdirToSysroot (joinPath (names (appdirPath rel))) = some sysroot) :
    sysroot.head? ≠ some 47 := by
  rcases appdirToSysroot_eq_some found with ⟨rfl, -⟩ | rfl
  · have plain := plain_names (appdirPath rel)
    cases held : names (appdirPath rel) with
    | nil => exact absurd held named
    | cons top below =>
        rw [held] at plain
        have own := plain top List.mem_cons_self
        obtain ⟨rest, same, -⟩ := joinPath_cons top below
        rw [same, List.head?_append_of_ne_nil _ own.1]
        exact fun slash => own.2.2.2 (List.mem_of_head? slash)
  · have first : (utf8 "usr/" ++ joinPath (names (appdirPath rel))).head? = some 117 := rfl
    rw [first]
    decide

/-- A line feed in the last name of `rel` only stands in the last name of what the guess gives. -/
theorem sysroot_split {rel sysroot dir base : Bytes}
    (found : appdirToSysroot (joinPath (names (appdirPath rel))) = some sysroot)
    (path : rel = dir ++ 47 :: base) (last : 47 ∉ base) (clear : lineFeed ∉ dir)
    (broken : lineFeed ∈ base) : ∃ lead, sysroot = lead ++ base ∧ lineFeed ∉ lead := by
  have named : isName base = true := by
    rw [isName]
    simp only [decide_eq_true_eq]
    refine ⟨?_, ?_, ?_⟩ <;> rintro rfl <;> revert broken <;> decide
  have below : ∃ lead, joinPath (names (appdirPath rel)) = lead ++ base ∧ lineFeed ∉ lead := by
    obtain ⟨common, same, shape, bare⟩ : ∃ common, appdirPath rel = common ++ base ∧
        (common = [] ∨ ∃ front, common = front ++ [47]) ∧ lineFeed ∉ common := by
      have parts : rel = (dir ++ [47]) ++ base := by rw [path, List.append_assoc]; rfl
      have bare : lineFeed ∉ dir ++ [47] := by
        rw [List.mem_append, not_or]
        exact ⟨clear, by decide⟩
      by_cases leads : utf8 "usr/" <+: rel
      · obtain ⟨common, same⟩ := usr_of_append last (parts ▸ leads)
        refine ⟨common, ?_, ?_, fun inside => bare (same ▸ List.mem_append_right _ inside)⟩
        · rw [parts, ← same, List.append_assoc, appdirPath_usr]
        · rcases List.eq_nil_or_concat' common with none | ⟨front, slash, rfl⟩
          · exact Or.inl none
          · rw [← List.append_assoc] at same
            have ends := List.append_inj_right' same rfl
            rw [List.singleton_inj] at ends
            exact Or.inr ⟨front, by rw [ends]⟩
      · exact ⟨dir ++ [47], by rw [appdirPath_other leads, parts], Or.inr ⟨dir, rfl⟩, bare⟩
    rw [same]
    rcases shape with rfl | ⟨front, rfl⟩
    · rw [List.nil_append, names_whole last, List.filter_cons_of_pos named, List.filter_nil,
        joinPath, List.intercalate_singleton]
      exact ⟨[], rfl, List.not_mem_nil⟩
    · rw [List.append_assoc, List.singleton_append, names_snoc last,
        List.filter_cons_of_pos named, List.filter_nil]
      by_cases alone : names front = []
      · rw [alone, List.nil_append, joinPath, List.intercalate_singleton]
        exact ⟨[], rfl, List.not_mem_nil⟩
      · refine ⟨joinPath (names front) ++ [47], ?_, ?_⟩
        · rw [joinPath_concat alone, List.append_assoc]
          rfl
        · rw [List.mem_append, not_or]
          refine ⟨fun inside => bare ?_, by decide⟩
          exact List.mem_append_left _ (mem_joinPath_names (by decide) inside)
  obtain ⟨lead, same, fresh⟩ := below
  rcases appdirToSysroot_eq_some found with ⟨rfl, -⟩ | rfl
  · exact ⟨lead, same, fresh⟩
  · refine ⟨utf8 "usr/" ++ lead, by rw [same, List.append_assoc], ?_⟩
    rw [List.mem_append, not_or]
    exact ⟨by decide, fresh⟩

theorem guessable_of_keeps {p : Str} {trace : Trace}
    (packed : Packed manifest index (Str.encodeUtf8 p))
    (loaded : loadTrace (TraceRecorder.lineOf manifest index) = some trace)
    (keeps : trace.keeps (Str.encodeUtf8 p) = true) : Guessable (Str.encodeUtf8 p) ∧ Legible p := by
  rw [packed.lineOf_eq] at loaded
  cases found : appdirToSysroot (joinPath (names (appdirPath (Str.encodeUtf8 p)))) with
  | none =>
      rw [found] at loaded
      have empty : some ⟨[], []⟩ = some trace := loaded
      rw [← Option.some.inj empty, Trace.keeps] at keeps
      simp at keeps
  | some sysroot =>
      rw [found] at loaded
      dsimp only at loaded
      obtain ⟨front, rfl⟩ := isText_sysroot found
      have relative := head_sysroot packed.named found
      have text : (47 :: (Str.encodeUtf8 front ++ [lineFeed])) =
          Str.encodeUtf8 ('/' :: front ++ ['\n']) := by
        rw [encodeUtf8_append]
        rfl
      rw [text] at loaded
      obtain ⟨held, opened⟩ := opened_of_loadTrace loaded
      have same (alike : Alike (Str.encodeUtf8 front) (Str.encodeUtf8 p)) :
          front = p ∧ Guessable (Str.encodeUtf8 p) := by
        have equal := sysroot_eq packed.named found alike
        exact ⟨Str.encodeUtf8_injective equal, (guessable_iff packed.named).mp (equal ▸ found)⟩
      by_cases broken : '\n' ∈ front
      · obtain ⟨first, rest, split, whole⟩ := List.eq_append_cons_of_mem broken
        have bytes : Str.encodeUtf8 front =
            Str.encodeUtf8 first ++ lineFeed :: Str.encodeUtf8 rest := by
          rw [split, encodeUtf8_append]
          rfl
        have inside : lineFeed ∈ Str.encodeUtf8 p := by
          apply mem_of_mem_sysroot found
          rw [bytes]
          simp
        have starts : (Str.encodeUtf8 first).head? ≠ some 47 := by
          intro slash
          rw [bytes, List.head?_append, slash] at relative
          exact relative rfl
        have read {path : Bytes} (member : path ∈ trace.opened) := by
          have line := opened path member
          rw [split, List.cons_append, List.append_assoc, List.cons_append] at line
          exact opened_eq whole starts line
        rcases dirOf_of_keeps keeps held with own | ⟨dir, own, deep, path, member, dirs⟩
        · exact absurd inside (read own).1
        · obtain ⟨base, last, shape⟩ := dirOf_eq_some.mp own
          obtain ⟨start, -, spelled⟩ := dirOf_eq_some.mp dirs
          have clear : lineFeed ∉ dir := by
            intro within
            apply (read member).1
            rw [spelled]
            exact List.mem_append_left _ within
          have within : lineFeed ∈ base := by
            rw [shape, List.mem_append, List.mem_cons] at inside
            exact (inside.resolve_left clear).resolve_left (by decide)
          obtain ⟨lead, ends, fresh⟩ := sysroot_split found shape last clear within
          have later : 47 ∉ lineFeed :: Str.encodeUtf8 rest := by
            intro slash
            rw [ends] at bytes
            rcases List.append_eq_append_iff.mp bytes with ⟨more, -, tail⟩ | ⟨more, beyond, tail⟩
            · exact last (tail ▸ List.mem_append_right _ slash)
            · cases more with
              | nil => exact last (by rw [List.nil_append] at tail; exact tail ▸ slash)
              | cons byte more =>
                  rw [List.cons_append, List.cons.injEq] at tail
                  exact fresh (beyond ▸ List.mem_append_right _ (tail.1 ▸ List.mem_cons_self))
          have bare : '/' ∉ rest ++ ['\n'] := by
            intro slash
            rw [List.mem_append, List.mem_singleton] at slash
            apply later
            apply List.mem_cons_of_mem
            rw [mem_encodeUtf8 (by decide)]
            exact slash.resolve_right (by decide)
          have kept := (read member).2.resolve_right fun more => more.2 bare (spelled ▸ by simp)
          have same_dir : dirOf (Str.encodeUtf8 front) = some dir := by
            rw [bytes, dirOf_append later, ← dirOf_shown, ← kept]
            exact dirs
          obtain ⟨rfl, guessable⟩ := same (alike_of_dirOf same_dir own)
          exact ⟨guessable, Or.inr ⟨dir, own, deep, clear⟩⟩
      · have only {path : Bytes} (member : path ∈ trace.opened) :
            path = Str.encodeUtf8 (shown front) :=
          (opened_eq broken relative (opened path member)).2.resolve_right fun more => more.1 rfl
        rcases dirOf_of_keeps keeps held with own | ⟨dir, own, deep, path, member, dirs⟩
        · obtain ⟨blanks, parts, whole⟩ := shown_append front
          have kept := only own
          rw [← kept] at parts
          obtain ⟨rfl, guessable⟩ := same (parts ▸ alike_of_append whole)
          exact ⟨guessable,
            Or.inl ⟨broken, shown_eq_self_iff.mp (Str.encodeUtf8_injective kept.symm)⟩⟩
        · rw [only member, dirOf_shown] at dirs
          obtain ⟨rfl, guessable⟩ := same (alike_of_dirOf dirs own)
          refine ⟨guessable, Or.inr ⟨dir, own, deep, fun inside => broken ?_⟩⟩
          obtain ⟨base, -, shape⟩ := dirOf_eq_some.mp own
          have within : lineFeed ∈ Str.encodeUtf8 front := by
            rw [shape]
            exact List.mem_append_left _ inside
          exact (mem_encodeUtf8 (by decide)).mp within

/-- A packed entry a run uses keeps the path it was copied from exactly when flattening is undone to
that path and its line comes back far enough. -/
theorem traced_survives_iff {p : Str} (packed : Packed manifest index (Str.encodeUtf8 p)) :
    Survives manifest index (Str.encodeUtf8 p) ↔ Guessable (Str.encodeUtf8 p) ∧ Legible p := by
  constructor
  · intro survives
    obtain ⟨trace, loaded, keeps, -⟩ := survives [] [] [] [] ⟨rfl, Or.inl rfl⟩
    exact guessable_of_keeps packed loaded keeps
  · rintro ⟨guessable, legible⟩
    exact survives_of_guessable packed guessable legible

/-- A package that holds `lib/libfoo.so.1`. -/
def libraryManifest : Manifest where
  header := ⟨3, 3, 17, 0, 0, 0, 0, zeroDigest, zeroDigest, zeroDigest⟩
  entrypoints := []
  entries :=
    [⟨.dir, u32Max, 0, 0, 0, 0, zeroDigest, [], 0⟩, ⟨.dir, 0, 1, 0, 0, 0, zeroDigest, [], 0⟩,
      ⟨.file, 1, 5, 0, 0, 0, zeroDigest, [], 0⟩]
  libDirOffsets := []
  stringTable := [0] ++ utf8 "lib" ++ [0] ++ utf8 "libfoo.so.1" ++ [0]

def library : Str := "usr/lib/libfoo.so.1".toList

/-- The same file where the root keeps `lib/` beside `usr/`. -/
def splitLibrary : Str := "lib/libfoo.so.1".toList

theorem libraryManifest_packed {rel : Bytes}
    (admitted : ∀ c ∈ components rel, c = .current ∨ ∃ name, c = .normal name)
    (copied : appdirPath rel = utf8 "lib/libfoo.so.1") : Packed libraryManifest 2 rel := by
  have parts : names (appdirPath rel) = [utf8 "lib", utf8 "libfoo.so.1"] := by
    rw [copied]
    decide
  constructor
  · exact admitted
  · rw [copied]
    decide
  · rw [parts]
    exact List.cons_ne_nil _ _
  · rw [parts]
    decide
  · exact ⟨_, rfl, Or.inl rfl⟩

theorem library_packed : Packed libraryManifest 2 (Str.encodeUtf8 library) := by
  apply libraryManifest_packed
  · have parts : components (Str.encodeUtf8 library) =
        [.normal (utf8 "usr"), .normal (utf8 "lib"), .normal (utf8 "libfoo.so.1")] := by decide
    rw [parts]
    simp
  · decide

theorem splitLibrary_packed : Packed libraryManifest 2 (Str.encodeUtf8 splitLibrary) := by
  apply libraryManifest_packed
  · have parts : components (Str.encodeUtf8 splitLibrary) =
        [.normal (utf8 "lib"), .normal (utf8 "libfoo.so.1")] := by decide
    rw [parts]
    simp
  · decide

theorem traced_library_survives :
    Survives libraryManifest 2 (Str.encodeUtf8 library) := by
  have bare : ∀ c ∈ library.getLast?, Str.isWhitespace c = false := by
    intro c last
    cases last
    rfl
  refine (traced_survives_iff library_packed).mpr ⟨?_, Or.inl ⟨by decide, bare⟩⟩
  exact (guessable_iff library_packed.named).mp (by decide)

/-- The entry is recorded as the library under `usr/`, and the one copied is pruned. -/
theorem traced_splitLibrary_pruned : Packed libraryManifest 2 (Str.encodeUtf8 splitLibrary) ∧
    ¬Survives libraryManifest 2 (Str.encodeUtf8 splitLibrary) := by
  refine ⟨splitLibrary_packed, fun survives => ?_⟩
  obtain ⟨trace, loaded, keeps, -⟩ := survives [] [] [] [] ⟨rfl, Or.inl rfl⟩
  have guessable := (guessable_of_keeps splitLibrary_packed loaded keeps).1
  rw [← guessable_iff splitLibrary_packed.named] at guessable
  exact absurd guessable (by decide)

end Onelf.Cli.Bundle
