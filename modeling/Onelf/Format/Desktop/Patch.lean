import Onelf.Format.Desktop.Exec

/-! Patching a desktop file for a package's launch (`desktop.rs`). -/

namespace Onelf.Format.Desktop

open Onelf.Lib (Str)
open Onelf.Lib.Str

/-! ### The command -/

def entrypointVar : Str := "ONELF_ENTRYPOINT".toList

def execCommand (path : Str) (entrypoint : Option Str) : Str :=
  match entrypoint with
  | some name => "env ".toList ++ execArg (entrypointVar ++ '=' :: name) ++ ' ' :: execArg path
  | none => execArg path

def trimStart (text : Str) : Str := text.dropWhile isWhitespace

/-- `value` without the assignment an earlier patch wrote ahead of the binary. -/
def withoutEntrypointPrefix (value : Str) : Str :=
  if "env ".toList.isPrefixOf value then
    let rest := trimStart (value.drop 4)
    let token := rest.takeWhile fun c => !isWhitespace c
    if entrypointVar.isPrefixOf (token.dropWhile (· == '"')) then
      trimStart (rest.drop token.length)
    else value
  else value

/-! ### One line -/

/-- Whether the lines read stand in the entry group, or in an action's. -/
structure Groups where
  inEntry : Bool
  inAction : Bool
  deriving DecidableEq

def entryHeader : Str := "[Desktop Entry]".toList
def actionHeader : Str := "[Desktop Action ".toList

def isHeader (line : Str) : Bool :=
  (trimStart line).head? == some '[' && (trimStart line).getLast? == some ']'

def Groups.advance (groups : Groups) (line : Str) : Groups :=
  if isHeader line then
    { inEntry := trimStart line == entryHeader
      inAction := actionHeader.isPrefixOf (trimStart line) }
  else groups

def execKey : Str := "Exec=".toList
def tryExecKey : Str := "TryExec=".toList
def iconKey : Str := "Icon=".toList

/-- What the patch writes. -/
structure Launch where
  command : Str
  tryExec : Str
  icon : Option Str

def execLine (command tail : Str) : Str :=
  if tail = [] then execKey ++ command else execKey ++ (command ++ ' ' :: tail)

/-- The arguments an `Exec=` line passes on. -/
def lineTail (line : Str) : Str := execArgTail (withoutEntrypointPrefix (line.drop execKey.length))

def patchLine (launch : Launch) (groups : Groups) (line : Str) : Str :=
  if isHeader line then line
  else if !groups.inEntry && !groups.inAction then line
  else if execKey.isPrefixOf line then execLine launch.command (lineTail line)
  else if groups.inAction then line
  else if tryExecKey.isPrefixOf line then tryExecKey ++ launch.tryExec
  else if iconKey.isPrefixOf line then
    match launch.icon with
    | some name => iconKey ++ name
    | none => line
  else line

/-- Whether the line is the entry group's `Exec=`. -/
def givesExec (groups : Groups) (line : Str) : Bool :=
  !isHeader line && groups.inEntry && execKey.isPrefixOf line

/-- Whether the line is the entry group's `TryExec=`. -/
def givesTryExec (groups : Groups) (line : Str) : Bool :=
  !isHeader line && groups.inEntry && !groups.inAction && tryExecKey.isPrefixOf line

/-! ### The file -/

def patchLines (launch : Launch) : Groups → List Str → List Str
  | _, [] => []
  | groups, line :: lines =>
      patchLine launch groups line :: patchLines launch (groups.advance line) lines

/-- Whether the loop meets a line that passes `test`. -/
def meetsLine (test : Groups → Str → Bool) : Groups → List Str → Bool
  | _, [] => false
  | groups, line :: lines => test groups line || meetsLine test (groups.advance line) lines

def outside : Groups := ⟨false, false⟩

/-- The keys the entry group lacks. -/
def missingKeys (launch : Launch) (lines : List Str) : List Str :=
  (if meetsLine givesExec outside lines then [] else [execKey ++ launch.command]) ++
    (if meetsLine givesTryExec outside lines then [] else [tryExecKey ++ launch.tryExec])

/-- The patched lines, the missing keys right after the entry's header or at the end. -/
def patchedLines (launch : Launch) (lines : List Str) : List Str :=
  let patched := patchLines launch outside lines
  let insertAt :=
    match patched.findIdx? fun line => trim line == entryHeader with
    | some header => header + 1
    | none => patched.length
  patched.take insertAt ++ missingKeys launch lines ++ patched.drop insertAt

/-- Lines joined, with a line feed at the end unless there is one. -/
def joinedText (lines : List Str) : Str :=
  let result := ['\n'].intercalate lines
  if result.getLast? = some '\n' then result else result ++ ['\n']

def launchOf (execPath : Str) (entrypoint iconName : Option Str) : Launch :=
  { command := execCommand execPath entrypoint
    tryExec := stringValue execPath
    icon := iconName }

def patchDesktopFile (content execPath : Str) (entrypoint iconName : Option Str) : Str :=
  joinedText (patchedLines (launchOf execPath entrypoint iconName) (lines content))

/-! ### Reading a written command again -/

/-- No whitespace but what the string escaping takes away. -/
def SingleWord (name : Str) : Prop :=
  ∀ c ∈ name, isWhitespace c = true → c = '\n' ∨ c = '\t' ∨ c = '\r'

/-- A command whose binary is found behind the assignment it may begin with. -/
def Recognized (path : Str) : Option Str → Prop
  | some name => SingleWord name
  | none => path ≠ "env".toList

theorem isWhitespace_of_unreserved {c : Char} (free : isReserved c = false) :
    isWhitespace c = false := by
  rw [isReserved, Bool.or_eq_false_iff] at free
  exact free.1

theorem solid_storedChar {c other : Char}
    (word : isWhitespace c = true → c = '\n' ∨ c = '\t' ∨ c = '\r')
    (member : other ∈ storedChar c) : isWhitespace other = false := by
  by_cases escaped : c = '\n' ∨ c = '\t' ∨ c = '\r'
  · have solid : ∀ other ∈ storedChar c, isWhitespace other = false := by
      rcases escaped with rfl | rfl | rfl
      all_goals exact List.all_iff_forall_prop.mp (by decide)
    exact solid other member
  · have blank : isWhitespace c = false := Bool.eq_false_iff.mpr fun white => escaped (word white)
    rw [not_or, not_or] at escaped
    simp only [storedChar, escape, List.mem_flatMap, argChar, List.mem_append,
      List.mem_singleton] at member
    obtain ⟨source, written, stored⟩ := member
    have plain : isWhitespace source = false := by
      rcases written with (escape | percent) | same
      · split at escape
        · rw [List.mem_singleton.mp escape]
          rfl
        · cases escape
      · split at percent
        · rw [List.mem_singleton.mp percent]
          rfl
        · cases percent
      · rw [same]
        exact blank
    rw [escapeChar, valueCode] at stored
    split_ifs at stored
    all_goals
      simp only [List.mem_cons, List.not_mem_nil, or_false] at stored
      first
        | rw [stored]; exact plain
        | rcases stored with same | same <;> rw [same] <;> rfl

theorem solid_execArg {s : Str} (word : SingleWord s) {c : Char} (member : c ∈ execArg s) :
    isWhitespace c = false := by
  by_cases quotes : needsQuotes s = true
  · rw [execArg_of_quotes quotes, List.mem_cons, List.mem_append, List.mem_singleton,
      List.mem_flatMap] at member
    rcases member with same | ⟨source, inside, stored⟩ | same
    · rw [same]
      rfl
    · exact solid_storedChar (word source inside) stored
    · rw [same]
      rfl
  · rw [Bool.not_eq_true] at quotes
    rw [execArg_of_plain quotes] at member
    exact isWhitespace_of_unreserved ((needsQuotes_eq_false.mp (needsQuotes_percent quotes)).2 c member)

/-- A written argument begins with a character that is not whitespace. -/
theorem execArg_begins (s : Str) : ∃ c rest, execArg s = c :: rest ∧ isWhitespace c = false := by
  by_cases quotes : needsQuotes s = true
  · exact ⟨'"', _, execArg_of_quotes quotes, rfl⟩
  · rw [Bool.not_eq_true] at quotes
    have free := needsQuotes_eq_false.mp (needsQuotes_percent quotes)
    obtain ⟨c, rest, same⟩ := List.exists_cons_of_ne_nil free.1
    refine ⟨c, rest, (execArg_of_plain quotes).trans same, ?_⟩
    apply isWhitespace_of_unreserved
    apply free.2
    rw [same]
    exact List.mem_cons_self

theorem trimStart_execArg (s rest : Str) : trimStart (execArg s ++ rest) = execArg s ++ rest := by
  obtain ⟨c, more, same, solid⟩ := execArg_begins s
  rw [same, List.cons_append, trimStart, List.dropWhile_cons_of_neg (by simp [solid])]

/-- The word a written argument without whitespace is. -/
theorem takeWhile_execArg {s : Str} (word : SingleWord s) (rest : Str) :
    (execArg s ++ ' ' :: rest).takeWhile (fun c => !isWhitespace c) = execArg s := by
  rw [List.takeWhile_append_of_pos]
  · rw [List.takeWhile_cons_of_neg (by decide), List.append_nil]
  · intro c member
    rw [solid_execArg word member]
    rfl

theorem assignment_begins (name : Str) : entrypointVar.isPrefixOf
    ((execArg (entrypointVar ++ '=' :: name)).dropWhile (· == '"')) = true := by
  rw [List.isPrefixOf_iff_prefix]
  by_cases quotes : needsQuotes (entrypointVar ++ '=' :: name) = true
  · rw [execArg_of_quotes quotes, List.dropWhile_cons_of_pos rfl, List.flatMap_append,
      show entrypointVar.flatMap storedChar = entrypointVar by decide]
    exact ⟨_, (List.append_assoc _ _ _).symm⟩
  · rw [execArg_of_plain (Bool.not_eq_true _ ▸ quotes), escape_append,
      show escape '%' percentCode entrypointVar = entrypointVar by decide]
    exact List.prefix_append _ _

theorem withoutEntrypointPrefix_env {name : Str} (word : SingleWord name) (path rest : Str) :
    withoutEntrypointPrefix (execCommand path (some name) ++ rest) = execArg path ++ rest := by
  have whole : SingleWord (entrypointVar ++ '=' :: name) := by
    intro c member white
    rw [List.mem_append, List.mem_cons] at member
    rcases member with letter | sign | inside
    · have letters : ∀ c ∈ entrypointVar, isWhitespace c = false :=
        List.all_iff_forall_prop.mp (by decide)
      rw [letters c letter] at white
      cases white
    · rw [sign] at white
      cases white
    · exact word c inside white
  have value : execCommand path (some name) ++ rest = "env ".toList ++
      (execArg (entrypointVar ++ '=' :: name) ++ ' ' :: (execArg path ++ rest)) := by
    simp only [execCommand, List.append_assoc, List.cons_append]
  have lead : "env ".toList.isPrefixOf (execCommand path (some name) ++ rest) = true := by
    rw [List.isPrefixOf_iff_prefix, value]
    exact List.prefix_append _ _
  have behind : (execCommand path (some name) ++ rest).drop 4 =
      execArg (entrypointVar ++ '=' :: name) ++ ' ' :: (execArg path ++ rest) := by
    rw [value]
    rfl
  rw [withoutEntrypointPrefix, if_pos lead]
  simp only [behind, trimStart_execArg, takeWhile_execArg whole, assignment_begins, if_true,
    List.drop_left]
  rw [trimStart, List.dropWhile_cons_of_pos (by decide)]
  exact trimStart_execArg path rest

/-- Only a binary called `env` reads as the assignment's. -/
theorem withoutEntrypointPrefix_plain {path rest : Str} (other : path ≠ "env".toList)
    (apart : ∀ c ∈ rest.head?, c = ' ') :
    withoutEntrypointPrefix (execArg path ++ rest) = execArg path ++ rest := by
  rw [withoutEntrypointPrefix, if_neg]
  rw [List.isPrefixOf_iff_prefix]
  rintro ⟨more, same⟩
  by_cases quotes : needsQuotes path = true
  · rw [execArg_of_quotes quotes] at same
    cases same
  · rw [Bool.not_eq_true] at quotes
    have word : SingleWord path := by
      intro c member white
      have free := isWhitespace_of_unreserved ((needsQuotes_eq_false.mp quotes).2 c member)
      rw [white] at free
      cases free
    have read : (execArg path ++ rest).takeWhile (fun c => !isWhitespace c) = execArg path := by
      cases rest with
      | nil =>
          rw [List.append_nil, List.takeWhile_eq_self_iff]
          intro c member
          rw [solid_execArg word member]
          rfl
      | cons c rest =>
          have blank : c = ' ' := apart c rfl
          rw [blank]
          exact takeWhile_execArg word rest
    have written : execArg path = "env".toList := by
      rw [← read, ← same]
      rfl
    have decoded := decodeArg_execArg path
    rw [written] at decoded
    have name : decodeArg "env".toList = some "env".toList := by decide
    rw [name] at decoded
    exact other (Option.some.inj decoded).symm

/-- Behind a recognized command stand the arguments it was written with. -/
theorem execArgTail_execCommand {path : Str} {entrypoint : Option Str}
    (recognized : Recognized path entrypoint) {rest : Str} (apart : ∀ c ∈ rest.head?, c = ' ') :
    execArgTail (withoutEntrypointPrefix (execCommand path entrypoint ++ rest)) =
      rest.dropWhile isAsciiWhitespace := by
  cases entrypoint with
  | some name =>
      rw [withoutEntrypointPrefix_env recognized, execArgTail, execArgRest_execArg path apart]
  | none =>
      rw [execCommand, withoutEntrypointPrefix_plain recognized apart, execArgTail,
        execArgRest_execArg path apart]

/-! ### A patched line -/

theorem not_isHeader_of_begins {c : Char} {rest : Str} (solid : isWhitespace c = false)
    (other : c ≠ '[') : isHeader (c :: rest) = false := by
  rw [isHeader, trimStart, List.dropWhile_cons_of_neg (by simp [solid])]
  simp [other]

@[simp] theorem not_isHeader_execKey (rest : Str) : isHeader (execKey ++ rest) = false :=
  not_isHeader_of_begins rfl (by decide)

@[simp] theorem not_isHeader_tryExecKey (rest : Str) : isHeader (tryExecKey ++ rest) = false :=
  not_isHeader_of_begins rfl (by decide)

@[simp] theorem not_isHeader_iconKey (rest : Str) : isHeader (iconKey ++ rest) = false :=
  not_isHeader_of_begins rfl (by decide)

theorem execLine_eq (command tail : Str) :
    execLine command tail = execKey ++ (command ++ if tail = [] then [] else ' ' :: tail) := by
  rw [execLine]
  split
  · rw [List.append_nil]
  · rfl

/-- A line that is read back as it is written. -/
def Whole (line : Str) : Prop := '\n' ∉ line ∧ line.getLast? ≠ some '\r'

/-- What a launch writes stays on its line. -/
structure Launch.Clean (launch : Launch) : Prop where
  command : ∀ c ∈ launch.command, c ≠ '\n' ∧ c ≠ '\r'
  tryExec : ∀ c ∈ launch.tryExec, c ≠ '\n' ∧ c ≠ '\r'

/-- What a launch writes is read back from it, a line at a time. -/
structure Launch.Settled (launch : Launch) : Prop extends launch.Clean where
  recognized : ∀ rest : Str, (∀ c ∈ rest.head?, c = ' ') →
    execArgTail (withoutEntrypointPrefix (launch.command ++ rest)) =
      rest.dropWhile isAsciiWhitespace
  icon : ∀ name ∈ launch.icon, Whole name

theorem lineTail_execLine {launch : Launch} (settled : launch.Settled) {tail : Str}
    (trimmed : ∀ c ∈ tail.head?, isAsciiWhitespace c = false) :
    lineTail (execLine launch.command tail) = tail := by
  rw [lineTail, execLine_eq, List.drop_left, settled.recognized]
  · split
    · next none => rw [none]; rfl
    · rw [List.dropWhile_cons_of_pos (by decide)]
      cases tail with
      | nil => rfl
      | cons c tail => rw [List.dropWhile_cons_of_neg (by simp [trimmed c rfl])]
  · intro c first
    split at first
    · cases first
    · cases first
      rfl

theorem lineTail_trimmed (line : Str) : ∀ c ∈ (lineTail line).head?, isAsciiWhitespace c = false := by
  intro c first
  have stopped := List.head?_dropWhile_not isAsciiWhitespace
    (execArgRest (withoutEntrypointPrefix (line.drop execKey.length)))
  rw [lineTail, execArgTail] at first
  rw [first] at stopped
  simpa using stopped

theorem execKey_isPrefixOf (rest : Str) : execKey.isPrefixOf (execKey ++ rest) = true :=
  List.isPrefixOf_iff_prefix.mpr (List.prefix_append _ _)

theorem tryExecKey_isPrefixOf (rest : Str) : tryExecKey.isPrefixOf (tryExecKey ++ rest) = true :=
  List.isPrefixOf_iff_prefix.mpr (List.prefix_append _ _)

theorem iconKey_isPrefixOf (rest : Str) : iconKey.isPrefixOf (iconKey ++ rest) = true :=
  List.isPrefixOf_iff_prefix.mpr (List.prefix_append _ _)

/-- The lines the patch writes itself, with their kinds. -/
inductive Written (launch : Launch) (line : Str) : Str → Prop where
  | kept : Written launch line line
  | exec : execKey.isPrefixOf line = true → Written launch line (execLine launch.command (lineTail line))
  | tryExec : execKey.isPrefixOf line = false → tryExecKey.isPrefixOf line = true →
      Written launch line (tryExecKey ++ launch.tryExec)
  | icon (name : Str) : execKey.isPrefixOf line = false → tryExecKey.isPrefixOf line = false →
      iconKey.isPrefixOf line = true → launch.icon = some name → Written launch line (iconKey ++ name)

theorem patchLine_written (launch : Launch) (groups : Groups) (line : Str) :
    Written launch line (patchLine launch groups line) := by
  rw [patchLine]
  split
  · exact .kept
  · split
    · exact .kept
    · split
      · next exec => exact .exec exec
      · next noExec =>
          split
          · exact .kept
          · split
            · next tryExec => exact .tryExec (Bool.not_eq_true _ ▸ noExec) tryExec
            · next noTryExec =>
                split
                · next icon =>
                    cases named : launch.icon with
                    | none => exact .kept
                    | some name =>
                        exact .icon name (Bool.not_eq_true _ ▸ noExec)
                          (Bool.not_eq_true _ ▸ noTryExec) icon named
                · exact .kept

/-- The second patch over the first one's lines: an icon the second does not name stays. -/
def Launch.after (second first : Launch) : Launch :=
  { second with icon := second.icon.or first.icon }

theorem isHeader_of_key {key line : Str} (opens : ∀ rest, isHeader (key ++ rest) = false)
    (begins : key.isPrefixOf line = true) : isHeader line = false := by
  obtain ⟨rest, same⟩ := List.isPrefixOf_iff_prefix.mp begins
  rw [← same]
  exact opens rest

section
variable {launch : Launch} {line line' : Str}

theorem Written.isHeader_eq (written : Written launch line line') : isHeader line' = isHeader line := by
  cases written with
  | kept => rfl
  | exec exec => rw [execLine_eq, not_isHeader_execKey, isHeader_of_key not_isHeader_execKey exec]
  | tryExec _ tryExec => rw [not_isHeader_tryExecKey, isHeader_of_key not_isHeader_tryExecKey tryExec]
  | icon name _ _ icon => rw [not_isHeader_iconKey, isHeader_of_key not_isHeader_iconKey icon]

theorem Written.execKey_eq (written : Written launch line line') :
    execKey.isPrefixOf line' = execKey.isPrefixOf line := by
  cases written with
  | kept => rfl
  | exec exec => rw [execLine_eq, execKey_isPrefixOf, exec]
  | tryExec noExec => rw [noExec]; rfl
  | icon name noExec => rw [noExec]; rfl

theorem Written.tryExecKey_eq (written : Written launch line line') :
    tryExecKey.isPrefixOf line' = tryExecKey.isPrefixOf line := by
  cases written with
  | kept => rfl
  | exec exec =>
      obtain ⟨rest, same⟩ := List.isPrefixOf_iff_prefix.mp exec
      rw [execLine_eq, ← same]
      rfl
  | tryExec _ tryExec => rw [tryExecKey_isPrefixOf, tryExec]
  | icon name _ noTryExec => rw [noTryExec]; rfl

theorem Written.iconKey_eq (written : Written launch line line') :
    iconKey.isPrefixOf line' = iconKey.isPrefixOf line := by
  cases written with
  | kept => rfl
  | exec exec =>
      obtain ⟨rest, same⟩ := List.isPrefixOf_iff_prefix.mp exec
      rw [execLine_eq, ← same]
      rfl
  | tryExec _ tryExec =>
      obtain ⟨rest, same⟩ := List.isPrefixOf_iff_prefix.mp tryExec
      rw [← same]
      rfl
  | icon name _ _ icon => rw [iconKey_isPrefixOf, icon]

end

theorem isHeader_patchLine (launch : Launch) (groups : Groups) (line : Str) :
    isHeader (patchLine launch groups line) = isHeader line :=
  (patchLine_written launch groups line).isHeader_eq

theorem patchLine_of_isHeader {line : Str} (header : isHeader line = true) (launch : Launch)
    (groups : Groups) : patchLine launch groups line = line := if_pos header

theorem advance_patchLine (launch : Launch) (groups before : Groups) (line : Str) :
    before.advance (patchLine launch groups line) = before.advance line := by
  by_cases header : isHeader line = true
  · rw [patchLine_of_isHeader header]
  · rw [Groups.advance, Groups.advance, isHeader_patchLine, if_neg header, if_neg header]

theorem givesExec_patchLine (launch : Launch) (groups before : Groups) (line : Str) :
    givesExec before (patchLine launch groups line) = givesExec before line := by
  rw [givesExec, givesExec, isHeader_patchLine, (patchLine_written launch groups line).execKey_eq]

theorem givesTryExec_patchLine (launch : Launch) (groups before : Groups) (line : Str) :
    givesTryExec before (patchLine launch groups line) = givesTryExec before line := by
  rw [givesTryExec, givesTryExec, isHeader_patchLine,
    (patchLine_written launch groups line).tryExecKey_eq]

/-- Patching a patched line leaves nothing of the first patch but an icon the second has not. -/
theorem patchLine_patchLine {first : Launch} (settled : first.Settled) (second : Launch)
    (groups : Groups) (line : Str) :
    patchLine second groups (patchLine first groups line) =
      patchLine (second.after first) groups line := by
  have written := patchLine_written first groups line
  rw [patchLine.eq_1 second, written.isHeader_eq, written.execKey_eq, written.tryExecKey_eq,
    written.iconKey_eq]
  rw [patchLine.eq_1 first, patchLine.eq_1 (second.after first)]
  split_ifs with header apart exec action tryExec icon
  · rfl
  · rfl
  · rw [lineTail_execLine settled (lineTail_trimmed line)]
    rfl
  · rfl
  · rfl
  · rw [show (second.after first).icon = second.icon.or first.icon from rfl]
    cases first.icon <;> cases second.icon <;> rfl
  · rfl

theorem patchLines_patchLines {first : Launch} (settled : first.Settled) (second : Launch)
    (groups : Groups) (lines : List Str) :
    patchLines second groups (patchLines first groups lines) =
      patchLines (second.after first) groups lines := by
  induction lines generalizing groups with
  | nil => rfl
  | cons line lines ih =>
      rw [patchLines, patchLines, patchLines, advance_patchLine, patchLine_patchLine settled, ih]

/-- A test of the lines' groups and kinds has the same outcome on patched lines. -/
theorem meetsLine_patchLines {test : Groups → Str → Bool} {launch : Launch}
    (same : ∀ groups before line, test before (patchLine launch groups line) = test before line)
    (groups : Groups) (lines : List Str) :
    meetsLine test groups (patchLines launch groups lines) = meetsLine test groups lines := by
  induction lines generalizing groups with
  | nil => rfl
  | cons line lines ih => rw [patchLines, meetsLine, meetsLine, advance_patchLine, same, ih]

end Onelf.Format.Desktop
