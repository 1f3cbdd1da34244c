import Onelf.Format.Desktop.Patch

/-! Patching a desktop file that was patched before (`desktop.rs`). -/

namespace Onelf.Format.Desktop

open Onelf.Lib (Str)
open Onelf.Lib.Str

/-! ### The patched lines of a file with a header -/

def inside : Groups := ⟨true, false⟩

/-- Lines whose first entry header, by the trimmed text, is one by the loop's test too. -/
structure Headed (front : List Str) (header : Str) : Prop where
  first : ∀ line ∈ front, trim line ≠ entryHeader
  exact : trimStart header = entryHeader

theorem patchLines_append (launch : Launch) (groups : Groups) (left right : List Str) :
    patchLines launch groups (left ++ right) =
      patchLines launch groups left ++
        patchLines launch (left.foldl Groups.advance groups) right := by
  induction left generalizing groups with
  | nil => rfl
  | cons line left ih => rw [List.cons_append, patchLines, patchLines, ih]; rfl

theorem meetsLine_append (test : Groups → Str → Bool) (groups : Groups) (left right : List Str) :
    meetsLine test groups (left ++ right) =
      (meetsLine test groups left ||
        meetsLine test (left.foldl Groups.advance groups) right) := by
  induction left generalizing groups with
  | nil => rfl
  | cons line left ih => rw [List.cons_append, meetsLine, meetsLine, ih, Bool.or_assoc]; rfl

theorem length_patchLines (launch : Launch) (groups : Groups) (lines : List Str) :
    (patchLines launch groups lines).length = lines.length := by
  induction lines generalizing groups with
  | nil => rfl
  | cons line lines ih => rw [patchLines, List.length_cons, List.length_cons, ih]

theorem trim_begins {line : Str} (same : trim line = entryHeader) :
    (trimStart line).head? = some '[' := by
  obtain ⟨rest, whole⟩ := List.rdropWhile_prefix isWhitespace (line.dropWhile isWhitespace)
  rw [trimStart, ← whole, show List.rdropWhile _ _ = trim line from rfl, same]
  rfl

theorem trim_ne_of_begins {c : Char} {rest : Str} (solid : isWhitespace c = false)
    (other : c ≠ '[') : trim (c :: rest) ≠ entryHeader := by
  intro same
  have first := trim_begins same
  rw [trimStart, List.dropWhile_cons_of_neg (by simp [solid])] at first
  exact other (Option.some.inj first)

theorem Written.trim_ne {launch : Launch} {line line' : Str} (written : Written launch line line')
    (other : trim line ≠ entryHeader) : trim line' ≠ entryHeader := by
  cases written with
  | kept => exact other
  | exec => rw [execLine_eq]; exact trim_ne_of_begins rfl (by decide)
  | tryExec => exact trim_ne_of_begins rfl (by decide)
  | icon => exact trim_ne_of_begins rfl (by decide)

/-- What holds of every line, and of what is written for it, holds of every patched line. -/
theorem forall_mem_patchLines {launch : Launch} {holds : Str → Prop} {groups : Groups}
    {lines : List Str}
    (carries : ∀ {line line'}, Written launch line line' → holds line → holds line')
    (all : ∀ line ∈ lines, holds line) : ∀ line ∈ patchLines launch groups lines, holds line := by
  induction lines generalizing groups with
  | nil => exact fun line member => absurd member List.not_mem_nil
  | cons line lines ih =>
      rw [List.forall_mem_cons] at all
      rw [patchLines, List.forall_mem_cons]
      exact ⟨carries (patchLine_written launch groups line) all.1, ih all.2⟩

section
variable {front : List Str} {header : Str}

theorem Headed.isHeader_eq (headed : Headed front header) : isHeader header = true := by
  rw [isHeader, headed.exact]
  rfl

theorem Headed.trim_eq (headed : Headed front header) : trim header = entryHeader := by
  rw [trim, ← trimStart, headed.exact]
  decide

theorem Headed.advance_eq (headed : Headed front header) (groups : Groups) :
    groups.advance header = inside := by
  rw [Groups.advance, if_pos headed.isHeader_eq, headed.exact]
  rfl

theorem Headed.patched (headed : Headed front header) (launch : Launch) (groups : Groups) :
    Headed (patchLines launch groups front) header where
  first := forall_mem_patchLines Written.trim_ne headed.first
  exact := headed.exact

/-- The missing keys stand right behind the header. -/
theorem Headed.patchedLines_eq (headed : Headed front header) (launch : Launch)
    (back : List Str) :
    patchedLines launch (front ++ header :: back) =
      patchLines launch outside front ++
        header :: (missingKeys launch (front ++ header :: back) ++ patchLines launch inside back) := by
  have split : patchLines launch outside (front ++ header :: back) =
      patchLines launch outside front ++ header :: patchLines launch inside back := by
    rw [patchLines_append, patchLines, patchLine_of_isHeader headed.isHeader_eq, headed.advance_eq]
  have found : (patchLines launch outside front ++ header :: patchLines launch inside back).findIdx?
      (fun line => trim line == entryHeader) = some front.length := by
    have before : (patchLines launch outside front).findIdx? (fun line => trim line == entryHeader) =
        none := by
      rw [List.findIdx?_eq_none_iff]
      intro line member
      exact beq_eq_false_iff_ne.mpr ((headed.patched launch outside).first line member)
    rw [List.findIdx?_append, before, List.findIdx?_cons, headed.trim_eq, length_patchLines]
    simp
  have length := length_patchLines launch outside front
  rw [patchedLines, split]
  simp only [found]
  rw [← length, List.take_length_add_append, List.drop_length_add_append]
  simp

theorem Headed.meetsLine_eq (headed : Headed front header) {test : Groups → Str → Bool}
    (skips : ∀ groups, test groups header = false) (back : List Str) :
    meetsLine test outside (front ++ header :: back) =
      (meetsLine test outside front || meetsLine test inside back) := by
  rw [meetsLine_append, meetsLine, skips, headed.advance_eq, Bool.false_or]

theorem Headed.givesExec_eq (headed : Headed front header) (groups : Groups) :
    givesExec groups header = false := by
  rw [givesExec, headed.isHeader_eq]
  rfl

theorem Headed.givesTryExec_eq (headed : Headed front header) (groups : Groups) :
    givesTryExec groups header = false := by
  rw [givesTryExec, headed.isHeader_eq]
  rfl

end

/-! ### Patching twice -/

theorem givesExec_execKey (rest : Str) : givesExec inside (execKey ++ rest) = true := by
  rw [givesExec, not_isHeader_execKey, execKey_isPrefixOf]
  rfl

theorem givesTryExec_tryExecKey (rest : Str) : givesTryExec inside (tryExecKey ++ rest) = true := by
  rw [givesTryExec, not_isHeader_tryExecKey, tryExecKey_isPrefixOf]
  rfl

theorem advance_execKey (groups : Groups) (rest : Str) : groups.advance (execKey ++ rest) = groups :=
  if_neg (by rw [not_isHeader_execKey]; exact Bool.false_ne_true)

theorem advance_tryExecKey (groups : Groups) (rest : Str) :
    groups.advance (tryExecKey ++ rest) = groups :=
  if_neg (by rw [not_isHeader_tryExecKey]; exact Bool.false_ne_true)

theorem patchLine_execKey {first : Launch} (settled : first.Settled) (second : Launch) :
    patchLine second inside (execKey ++ first.command) = execKey ++ second.command := by
  have tail := @lineTail_execLine _ settled [] (by simp)
  rw [execLine, if_pos rfl] at tail
  rw [patchLine, if_neg (by simp), if_neg (by decide), if_pos (execKey_isPrefixOf _), tail, execLine,
    if_pos rfl]

theorem patchLine_tryExecKey (launch : Launch) (rest : Str) :
    patchLine launch inside (tryExecKey ++ rest) = tryExecKey ++ launch.tryExec := by
  have other : execKey.isPrefixOf (tryExecKey ++ rest) = false := rfl
  rw [patchLine, if_neg (by simp), if_neg (by decide), other, if_neg Bool.false_ne_true,
    if_neg (by decide), if_pos (tryExecKey_isPrefixOf _)]

theorem advance_missingKeys (launch : Launch) (lines : List Str) :
    (missingKeys launch lines).foldl Groups.advance inside = inside := by
  rw [missingKeys]
  split <;> split <;> simp [advance_execKey, advance_tryExecKey]

theorem patchLines_missingKeys {first : Launch} (settled : first.Settled) (second : Launch)
    (lines : List Str) :
    patchLines second inside (missingKeys first lines) = missingKeys second lines := by
  rw [missingKeys, missingKeys]
  split <;> split <;> simp [patchLines, advance_execKey, patchLine_execKey settled,
    patchLine_tryExecKey]

/-- A file that was patched lacks no key. -/
theorem missingKeys_patched {front : List Str} {header : Str} (headed : Headed front header)
    (first second : Launch) (back : List Str) :
    missingKeys second (patchedLines first (front ++ header :: back)) = [] := by
  have meets (test : Groups → Str → Bool) (skips : ∀ groups, test groups header = false)
      (same : ∀ groups before line,
        test before (patchLine first groups line) = test before line)
      (given : meetsLine test outside (front ++ header :: back) = false →
        meetsLine test inside (missingKeys first (front ++ header :: back)) = true) :
      meetsLine test outside (patchedLines first (front ++ header :: back)) = true := by
    have whole := headed.meetsLine_eq skips back
    rw [headed.patchedLines_eq, (headed.patched first outside).meetsLine_eq skips, meetsLine_append,
      advance_missingKeys, meetsLine_patchLines same, meetsLine_patchLines same]
    by_cases held : meetsLine test outside (front ++ header :: back) = true
    · rw [whole, Bool.or_eq_true] at held
      rcases held with before | behind
      · rw [before, Bool.true_or]
      · rw [behind, Bool.or_true, Bool.or_true]
    · rw [given (Bool.not_eq_true _ ▸ held), Bool.true_or, Bool.or_true]
  have exec := meets givesExec headed.givesExec_eq (givesExec_patchLine first) <| by
    intro missing
    rw [missingKeys, missing, if_neg Bool.false_ne_true, List.singleton_append, meetsLine,
      givesExec_execKey, Bool.true_or]
  have tryExec := meets givesTryExec headed.givesTryExec_eq (givesTryExec_patchLine first) <| by
    intro missing
    rw [missingKeys, missing, if_neg Bool.false_ne_true]
    split <;> simp [meetsLine, advance_execKey, givesTryExec_tryExecKey]
  rw [missingKeys, exec, tryExec]
  rfl

theorem patchedLines_patchedLines {first : Launch} (settled : first.Settled) (second : Launch)
    {front : List Str} {header : Str} (headed : Headed front header) (back : List Str) :
    patchedLines second (patchedLines first (front ++ header :: back)) =
      patchedLines (second.after first) (front ++ header :: back) := by
  have none := missingKeys_patched headed first second back
  rw [headed.patchedLines_eq first] at none ⊢
  rw [(headed.patched first outside).patchedLines_eq, none, patchLines_append,
    advance_missingKeys, patchLines_missingKeys settled, patchLines_patchLines settled,
    patchLines_patchLines settled, headed.patchedLines_eq]
  rfl

/-! ### The text -/

def unlines (lines : List Str) : Str := lines.flatMap (· ++ ['\n'])

theorem unlines_append (left right : List Str) : unlines (left ++ right) = unlines left ++ unlines right :=
  List.flatMap_append

theorem lines_unlines {written : List Str} (whole : ∀ line ∈ written, Whole line) :
    lines (unlines written) = written := by
  induction written with
  | nil => rfl
  | cons line written ih =>
      rw [List.forall_mem_cons] at whole
      have kept : dropReturn line = line := if_neg whole.1.2
      rw [unlines, List.flatMap_cons, List.append_assoc, List.singleton_append,
        lines_append whole.1.1, kept, ← unlines, ih whole.2]

theorem intercalate_concat (front : List Str) (last : Str) :
    ['\n'].intercalate (front ++ [last]) = unlines front ++ last := by
  induction front with
  | nil => simp [unlines]
  | cons line front ih =>
      have more : front ++ [last] ≠ [] := by simp
      obtain ⟨next, rest, same⟩ := List.exists_cons_of_ne_nil more
      rw [List.cons_append, same, List.intercalate_cons_cons, ← same, ih]
      simp [unlines]

/-- A blank last line is the text's final line feed. -/
theorem joinedText_concat_nil {front : List Str} (more : front ≠ []) :
    joinedText (front ++ [[]]) = unlines front := by
  obtain ⟨init, last, same⟩ := (List.eq_nil_or_concat front).resolve_left more
  have ends : (unlines front).getLast? = some '\n' := by
    rw [same, List.concat_eq_append, unlines_append]
    simp [unlines]
  rw [joinedText, intercalate_concat, List.append_nil]
  exact if_pos ends

theorem joinedText_concat {last : Str} (whole : '\n' ∉ last) (more : last ≠ []) (front : List Str) :
    joinedText (front ++ [last]) = unlines (front ++ [last]) := by
  have ends : (unlines front ++ last).getLast? ≠ some '\n' := by
    rw [List.getLast?_append_of_ne_nil _ more]
    intro same
    exact whole (List.mem_of_getLast? same)
  rw [joinedText, intercalate_concat]
  simp only [if_neg ends]
  rw [unlines_append]
  simp [unlines]

/-- The lines a joined text is read as: a blank one at the end is gone. -/
def settled (lines : List Str) : List Str :=
  if lines.getLast? = some [] then lines.dropLast else lines

theorem joinedText_eq {written : List Str} (whole : ∀ line ∈ written, '\n' ∉ line)
    (solid : ∃ line ∈ written, line ≠ []) : joinedText written = unlines (settled written) := by
  obtain ⟨line, member, some⟩ := solid
  have more : written ≠ [] := List.ne_nil_of_mem member
  obtain ⟨front, last, same⟩ := (List.eq_nil_or_concat written).resolve_left more
  rw [List.concat_eq_append] at same
  rw [same, settled, List.getLast?_concat, List.dropLast_concat]
  by_cases blank : last = []
  · have before : front ≠ [] := by
      intro none
      rw [same, none, blank, List.nil_append, List.mem_singleton] at member
      exact some member
    rw [blank, if_pos rfl, joinedText_concat_nil before]
  · have ends : '\n' ∉ last := whole last (by rw [same]; simp)
    rw [if_neg (by simpa using blank), joinedText_concat ends blank]

theorem lines_joinedText {written : List Str} (whole : ∀ line ∈ written, Whole line)
    (solid : ∃ line ∈ written, line ≠ []) : lines (joinedText written) = settled written := by
  rw [joinedText_eq (fun line member => (whole line member).1) solid, lines_unlines]
  intro line member
  apply whole line
  rw [settled] at member
  split at member
  · exact (List.dropLast_sublist _).subset member
  · exact member

theorem Written.eq_nil {launch : Launch} {line' : Str} (written : Written launch [] line') :
    line' = [] := by
  cases written with
  | kept => rfl
  | exec exec => cases exec
  | tryExec _ tryExec => cases tryExec
  | icon _ _ _ icon => cases icon

theorem Written.ne_nil {launch : Launch} {line line' : Str} (written : Written launch line line')
    (more : line ≠ []) : line' ≠ [] := by
  cases written with
  | kept => exact more
  | exec =>
      rw [execLine_eq]
      exact List.cons_ne_nil _ _
  | tryExec => exact List.cons_ne_nil _ _
  | icon => exact List.cons_ne_nil _ _

section
variable {front : List Str} {header : Str}

theorem Headed.ne_nil (headed : Headed front header) : header ≠ [] := by
  intro none
  have exact := headed.exact
  rw [none] at exact
  cases exact

theorem Headed.settled_eq (headed : Headed front header) (back : List Str) :
    settled (front ++ header :: back) = front ++ header :: settled back := by
  rcases List.eq_nil_or_concat back with none | ⟨back, last, same⟩
  · rw [none, settled, List.getLast?_concat, if_neg (by simpa using headed.ne_nil)]
    rfl
  · rw [same, List.concat_eq_append, ← List.cons_append, ← List.append_assoc, settled, settled,
      List.getLast?_concat, List.getLast?_concat, List.dropLast_concat, List.dropLast_concat]
    split <;> simp

theorem mem_missingKeys {launch : Launch} {lines : List Str} {line : Str}
    (member : line ∈ missingKeys launch lines) :
    line = execKey ++ launch.command ∨ line = tryExecKey ++ launch.tryExec := by
  rw [missingKeys, List.mem_append] at member
  rcases member with exec | tryExec
  · split at exec
    · cases exec
    · exact .inl (List.mem_singleton.mp exec)
  · split at tryExec
    · cases tryExec
    · exact .inr (List.mem_singleton.mp tryExec)

/-- The blank line a joined text loses is the file's own. -/
theorem Headed.settled_patchedLines (headed : Headed front header) (launch : Launch)
    (back : List Str) :
    settled (patchedLines launch (front ++ header :: back)) =
      patchedLines launch (front ++ header :: settled back) := by
  rcases List.eq_nil_or_concat back with none | ⟨back, last, same⟩
  · rw [none]
    have last : (patchedLines launch (front ++ [header])).getLast? ≠ some [] := by
      rw [headed.patchedLines_eq, patchLines, List.append_nil,
        List.getLast?_append_of_ne_nil _ (List.cons_ne_nil _ _)]
      intro blank
      rcases List.mem_cons.mp (List.mem_of_getLast? blank) with same | missing
      · exact headed.ne_nil same.symm
      · rcases mem_missingKeys missing with exec | tryExec
        · cases exec
        · cases tryExec
    exact if_neg last
  · rw [same, List.concat_eq_append]
    by_cases blank : last = []
    · have same : patchedLines launch (front ++ header :: (back ++ [[]])) =
          patchedLines launch (front ++ header :: back) ++ [[]] := by
        have missing : missingKeys launch (front ++ header :: (back ++ [[]])) =
            missingKeys launch (front ++ header :: back) := by
          have silent (test : Groups → Str → Bool) (blank : ∀ groups, test groups [] = false) :
              meetsLine test outside (front ++ header :: (back ++ [[]])) =
                meetsLine test outside (front ++ header :: back) := by
            rw [← List.cons_append, ← List.append_assoc, meetsLine_append, meetsLine, blank, meetsLine,
              Bool.or_false, Bool.or_false]
          rw [missingKeys, silent givesExec, silent givesTryExec, ← missingKeys]
          · intro groups
            exact Bool.and_false _
          · intro groups
            exact Bool.and_false _
        rw [headed.patchedLines_eq, missing, headed.patchedLines_eq, patchLines_append, patchLines,
          (patchLine_written _ _ _).eq_nil]
        simp [patchLines]
      rw [blank, same, settled, settled, List.getLast?_concat, List.getLast?_concat, if_pos rfl,
        if_pos rfl, List.dropLast_concat, List.dropLast_concat]
    · have more := (patchLine_written launch (back.foldl Groups.advance inside) last).ne_nil blank
      have same : patchedLines launch (front ++ header :: (back ++ [last])) =
          (patchLines launch outside front ++ header ::
            (missingKeys launch (front ++ header :: (back ++ [last])) ++
              patchLines launch inside back)) ++
            [patchLine launch (back.foldl Groups.advance inside) last] := by
        rw [headed.patchedLines_eq, patchLines_append, patchLines, patchLines]
        simp
      rw [settled, same, List.getLast?_concat, if_neg (by simpa using more), ← same, settled,
        List.getLast?_concat, if_neg (by simpa using blank)]

end

/-! ### What a launch writes -/

theorem escapeChar_valueCode_clean {c other : Char} (member : other ∈ escapeChar '\\' valueCode c) :
    other ≠ '\n' ∧ other ≠ '\r' := by
  rw [escapeChar, valueCode] at member
  split_ifs at member with slash feed tab back
  all_goals simp only [List.mem_cons, List.not_mem_nil, or_false] at member
  case neg => exact ⟨fun same => feed (member ▸ same), fun same => back (member ▸ same)⟩
  all_goals
    rcases member with same | same
    all_goals
      rw [same]
      decide

theorem stringValue_clean {text : Str} {c : Char} (member : c ∈ stringValue text) :
    c ≠ '\n' ∧ c ≠ '\r' := by
  cases text with
  | nil => cases member
  | cons first rest =>
      rw [stringValue, List.mem_append] at member
      rcases member with here | later
      · split at here
        · simp only [List.mem_cons, List.not_mem_nil, or_false] at here
          rcases here with same | same
          all_goals
            rw [same]
            decide
        · exact escapeChar_valueCode_clean here
      · obtain ⟨source, -, written⟩ := List.mem_flatMap.mp later
        exact escapeChar_valueCode_clean written

theorem clean_launchOf (path : Str) (entrypoint icon : Option Str) :
    (launchOf path entrypoint icon).Clean where
  command := by
    intro c inside
    have member : c ∈ execCommand path entrypoint := inside
    cases entrypoint with
    | none => exact stringValue_clean member
    | some name =>
        simp only [execCommand, List.mem_append, List.mem_cons] at member
        rcases member with (lead | assignment) | blank | binary
        · have letters : ∀ c ∈ "env ".toList, c ≠ '\n' ∧ c ≠ '\r' :=
            List.all_iff_forall_prop.mp (by decide)
          exact letters c lead
        · exact stringValue_clean assignment
        · rw [blank]
          decide
        · exact stringValue_clean binary
  tryExec := fun _ member => stringValue_clean member

theorem settled_launchOf {path : Str} {entrypoint icon : Option Str}
    (recognized : Recognized path entrypoint) (named : ∀ name ∈ icon, Whole name) :
    (launchOf path entrypoint icon).Settled where
  toClean := clean_launchOf path entrypoint icon
  recognized := fun _ apart => execArgTail_execCommand recognized apart
  icon := named

/-! ### Lines stay lines -/

theorem quotedRest_suffix (skip : Nat) (text : Str) : quotedRest skip text <:+ text := by
  induction text generalizing skip with
  | nil => cases skip <;> exact List.suffix_refl _
  | cons c text ih =>
      cases skip with
      | succ skip => exact (ih skip).trans (List.suffix_cons c text)
      | zero =>
          rw [quotedRest]
          split
          · exact (ih _).trans (List.suffix_cons c text)
          · split
            · exact List.suffix_cons c text
            · exact (ih 0).trans (List.suffix_cons c text)

theorem execArgTail_suffix (value : Str) : execArgTail value <:+ value := by
  refine (List.dropWhile_suffix _).trans ?_
  have trimmed := List.dropWhile_suffix (l := value) isAsciiWhitespace
  rw [execArgRest]
  split
  · exact List.nil_suffix
  · next c rest same =>
      rw [same] at trimmed
      refine List.IsSuffix.trans ?_ trimmed
      split
      · exact (quotedRest_suffix 0 rest).trans (List.suffix_cons c rest)
      · exact List.dropWhile_suffix _

theorem withoutEntrypointPrefix_suffix (value : Str) : withoutEntrypointPrefix value <:+ value := by
  rw [withoutEntrypointPrefix]
  split
  · dsimp only
    split
    · refine (List.dropWhile_suffix _).trans ((List.drop_suffix _ _).trans ?_)
      exact (List.dropWhile_suffix _).trans (List.drop_suffix _ _)
    · exact List.suffix_refl _
  · exact List.suffix_refl _

theorem lineTail_suffix (line : Str) : lineTail line <:+ line :=
  (execArgTail_suffix _).trans ((withoutEntrypointPrefix_suffix _).trans (List.drop_suffix _ _))

theorem whole_append {lead text : Str} (begins : ∀ c ∈ lead, c ≠ '\n' ∧ c ≠ '\r')
    (whole : Whole text) : Whole (lead ++ text) := by
  constructor
  · intro member
    rcases List.mem_append.mp member with before | behind
    · exact (begins _ before).1 rfl
    · exact whole.1 behind
  · cases text with
    | nil =>
        rw [List.append_nil]
        intro last
        exact (begins _ (List.mem_of_getLast? last)).2 rfl
    | cons c text =>
        rw [List.getLast?_append_of_ne_nil _ (List.cons_ne_nil c text)]
        exact whole.2

theorem whole_nil : Whole [] := ⟨List.not_mem_nil, nofun⟩

theorem whole_suffix {line tail : Str} (whole : Whole line) (ends : tail <:+ line) : Whole tail := by
  obtain ⟨before, same⟩ := ends
  constructor
  · intro member
    apply whole.1
    rw [← same]
    exact List.mem_append_right before member
  · cases tail with
    | nil => exact whole_nil.2
    | cons c tail =>
        have last := whole.2
        rwa [← same, List.getLast?_append_of_ne_nil _ (List.cons_ne_nil c tail)] at last

theorem execKey_clean : ∀ c ∈ execKey, c ≠ '\n' ∧ c ≠ '\r' :=
  List.all_iff_forall_prop.mp (by decide)
theorem tryExecKey_clean : ∀ c ∈ tryExecKey, c ≠ '\n' ∧ c ≠ '\r' :=
  List.all_iff_forall_prop.mp (by decide)
theorem iconKey_clean : ∀ c ∈ iconKey, c ≠ '\n' ∧ c ≠ '\r' :=
  List.all_iff_forall_prop.mp (by decide)

theorem whole_of_clean {text : Str} (clean : ∀ c ∈ text, c ≠ '\n' ∧ c ≠ '\r') : Whole text := by
  have whole := whole_append clean whole_nil
  rwa [List.append_nil] at whole

theorem Written.whole {launch : Launch} {line line' : Str} (written : Written launch line line')
    (settled : launch.Settled) (whole : Whole line) : Whole line' := by
  cases written with
  | kept => exact whole
  | exec =>
      rw [execLine_eq]
      refine whole_append execKey_clean (whole_append settled.command ?_)
      split
      · exact whole_nil
      · have blank : ∀ c ∈ [' '], c ≠ '\n' ∧ c ≠ '\r' :=
          List.all_iff_forall_prop.mp (by decide)
        exact whole_append blank (whole_suffix whole (lineTail_suffix line))
  | tryExec => exact whole_append tryExecKey_clean (whole_of_clean settled.tryExec)
  | icon name _ _ _ named => exact whole_append iconKey_clean (settled.icon name named)

theorem feedless_append {lead text : Str} (begins : ∀ c ∈ lead, c ≠ '\n' ∧ c ≠ '\r')
    (whole : '\n' ∉ text) : '\n' ∉ lead ++ text := by
  intro member
  rcases List.mem_append.mp member with before | behind
  · exact (begins _ before).1 rfl
  · exact whole behind

theorem Written.feedless {launch : Launch} {line line' : Str} (clean : launch.Clean)
    (named : ∀ name ∈ launch.icon, '\n' ∉ name) (written : Written launch line line')
    (whole : '\n' ∉ line) : '\n' ∉ line' := by
  cases written with
  | kept => exact whole
  | exec =>
      rw [execLine_eq]
      refine feedless_append execKey_clean (feedless_append clean.command ?_)
      split
      · exact List.not_mem_nil
      · intro member
        rcases List.mem_cons.mp member with blank | tail
        · cases blank
        · exact whole ((lineTail_suffix line).subset tail)
  | tryExec =>
      exact feedless_append tryExecKey_clean fun member => (clean.tryExec _ member).1 rfl
  | icon name _ _ _ given => exact feedless_append iconKey_clean (named name given)

theorem forall_mem_patchedLines {launch : Launch} {holds : Str → Prop} {lines : List Str}
    (carries : ∀ {line line'}, Written launch line line' → holds line → holds line')
    (exec : holds (execKey ++ launch.command)) (tryExec : holds (tryExecKey ++ launch.tryExec))
    (all : ∀ line ∈ lines, holds line) : ∀ line ∈ patchedLines launch lines, holds line := by
  intro line member
  rw [patchedLines] at member
  simp only [List.mem_append] at member
  rcases member with (before | missing) | behind
  · exact forall_mem_patchLines carries all line (List.mem_of_mem_take before)
  · rcases mem_missingKeys missing with same | same
    · rw [same]
      exact exec
    · rw [same]
      exact tryExec
  · exact forall_mem_patchLines carries all line (List.mem_of_mem_drop behind)

theorem patchedLines_whole {launch : Launch} (ready : launch.Settled)
    {lines : List Str} (whole : ∀ line ∈ lines, Whole line) :
    ∀ line ∈ patchedLines launch lines, Whole line :=
  forall_mem_patchedLines (fun written => written.whole ready)
    (whole_append execKey_clean (whole_of_clean ready.command))
    (whole_append tryExecKey_clean (whole_of_clean ready.tryExec)) whole

theorem patchedLines_feedless {launch : Launch} (clean : launch.Clean)
    (named : ∀ name ∈ launch.icon, '\n' ∉ name) {lines : List Str}
    (whole : ∀ line ∈ lines, '\n' ∉ line) : ∀ line ∈ patchedLines launch lines, '\n' ∉ line :=
  forall_mem_patchedLines (Written.feedless clean named)
    (feedless_append execKey_clean fun member => (clean.command _ member).1 rfl)
    (feedless_append tryExecKey_clean fun member => (clean.tryExec _ member).1 rfl) whole

/-! ### The arguments passed on -/

/-- Whether the line is an `Exec=` the patch rewrites. -/
def launches (groups : Groups) (line : Str) : Bool :=
  !isHeader line && (groups.inEntry || groups.inAction) && execKey.isPrefixOf line

def execTails : Groups → List Str → List Str
  | _, [] => []
  | groups, line :: lines =>
      (if launches groups line then [lineTail line] else []) ++
        execTails (groups.advance line) lines

/-- The arguments the entry and its actions pass on to their programs, where they pass any. -/
def passedOn (content : Str) : List Str :=
  (execTails outside (lines content)).filter (· ≠ [])

theorem execTails_append (groups : Groups) (left right : List Str) :
    execTails groups (left ++ right) =
      execTails groups left ++ execTails (left.foldl Groups.advance groups) right := by
  induction left generalizing groups with
  | nil => rfl
  | cons line left ih =>
      rw [List.cons_append, execTails, execTails, ih, List.append_assoc]
      rfl

theorem lineTail_patchLine {launch : Launch} (settled : launch.Settled) {groups : Groups}
    {line : Str} (held : launches groups line = true) :
    lineTail (patchLine launch groups line) = lineTail line := by
  rw [launches, Bool.and_eq_true, Bool.and_eq_true] at held
  obtain ⟨⟨plain, grouped⟩, exec⟩ := held
  have apart : (!groups.inEntry && !groups.inAction) = false := by
    rw [← Bool.not_or, grouped]
    rfl
  rw [patchLine, if_neg (by simpa using plain), apart, if_neg Bool.false_ne_true, if_pos exec]
  exact lineTail_execLine settled (lineTail_trimmed line)

theorem execTails_patchLines {launch : Launch} (settled : launch.Settled) (groups : Groups)
    (lines : List Str) :
    execTails groups (patchLines launch groups lines) = execTails groups lines := by
  induction lines generalizing groups with
  | nil => rfl
  | cons line lines ih =>
      have same : launches groups (patchLine launch groups line) = launches groups line := by
        rw [launches, launches, isHeader_patchLine,
          (patchLine_written launch groups line).execKey_eq]
      rw [patchLines, execTails, execTails, advance_patchLine, ih, same]
      by_cases held : launches groups line = true
      · rw [if_pos held, if_pos held, lineTail_patchLine settled held]
      · rw [if_neg held, if_neg held]

theorem execTails_missingKeys {launch : Launch} (settled : launch.Settled) (lines : List Str) :
    (execTails inside (missingKeys launch lines)).filter (· ≠ []) = [] := by
  have tail := @lineTail_execLine _ settled [] (by simp)
  rw [execLine, if_pos rfl] at tail
  have exec : launches inside (execKey ++ launch.command) = true := givesExec_execKey _
  have tryExec : launches inside (tryExecKey ++ launch.tryExec) = false := Bool.and_false _
  rw [missingKeys]
  split <;> split <;> simp [execTails, advance_execKey, tail, exec, tryExec]

theorem Headed.launches_eq {front : List Str} {header : Str} (headed : Headed front header)
    (groups : Groups) : launches groups header = false := by
  rw [launches, headed.isHeader_eq]
  rfl

theorem Headed.execTails_patchedLines {front : List Str} {header : Str}
    (headed : Headed front header) {launch : Launch} (settled : launch.Settled) (back : List Str) :
    (execTails outside (patchedLines launch (front ++ header :: back))).filter (· ≠ []) =
      (execTails outside (front ++ header :: back)).filter (· ≠ []) := by
  rw [headed.patchedLines_eq, execTails_append, execTails_append, execTails, execTails,
    headed.advance_eq, headed.advance_eq, execTails_append, advance_missingKeys,
    execTails_patchLines settled, execTails_patchLines settled]
  have missing := execTails_missingKeys settled (front ++ header :: back)
  simp only [List.filter_append, missing, List.nil_append, headed.launches_eq]

theorem execTails_settled (groups : Groups) (lines : List Str) :
    execTails groups (settled lines) = execTails groups lines := by
  rw [settled]
  split
  · next blank =>
      obtain ⟨front, same⟩ := List.getLast?_eq_some_iff.mp blank
      have none (groups : Groups) : launches groups [] = false := Bool.and_false _
      rw [same, List.dropLast_concat, execTails_append, execTails, none]
      simp [execTails]
  · rfl

/-! ### A file that can be patched again -/

/-- A desktop file whose lines a patch reads as they stand: its first entry header has nothing
behind it, no line ends with a carriage return and at most one blank line is at the end. -/
structure Patchable (content : Str) : Prop where
  headed : ∃ header, (lines content).find? (fun line => trim line == entryHeader) = some header ∧
    trimStart header = entryHeader
  returns : ∀ line ∈ lines content, line.getLast? ≠ some '\r'
  blank : ¬[[], []] <:+ lines content

section
variable {content path : Str} {entrypoint iconName : Option Str}

theorem Patchable.headed_eq (patchable : Patchable content) : ∃ front header back,
    lines content = front ++ header :: back ∧ Headed front header := by
  obtain ⟨header, found, exact⟩ := patchable.headed
  obtain ⟨-, front, back, same, before⟩ := List.find?_eq_some_iff_append.mp found
  refine ⟨front, header, back, same, ?_, exact⟩
  intro line member
  simpa using before line member

theorem Patchable.whole (patchable : Patchable content) : ∀ line ∈ lines content, Whole line :=
  fun line member => ⟨lines_whole member, patchable.returns line member⟩

theorem settled_twice {lines : List Str} (single : ¬[[], []] <:+ lines) :
    settled (settled lines) = settled lines := by
  by_cases blank : lines.getLast? = some []
  · obtain ⟨front, same⟩ := List.getLast?_eq_some_iff.mp blank
    have once : settled lines = front := by
      rw [settled, if_pos blank, same, List.dropLast_concat]
    rw [once, settled, if_neg]
    intro again
    obtain ⟨before, earlier⟩ := List.getLast?_eq_some_iff.mp again
    apply single
    rw [same, earlier]
    exact ⟨before, by simp⟩
  · have same : settled lines = lines := if_neg blank
    rw [same, same]

theorem not_blank_of_settled {lines : List Str} (same : settled lines = lines) :
    lines.getLast? ≠ some [] := by
  intro blank
  obtain ⟨front, ends⟩ := List.getLast?_eq_some_iff.mp blank
  rw [settled, if_pos blank, ends, List.dropLast_concat] at same
  exact List.cons_ne_nil _ _ (List.append_right_eq_self.mp same.symm)

theorem settled_blank {lines : List Str} (front : List Str) (single : ¬[[], []] <:+ front ++ lines) :
    settled (settled lines) = settled lines := by
  apply settled_twice
  intro twice
  exact single (twice.trans (List.suffix_append front lines))

theorem Headed.find?_eq {front : List Str} {header : Str} (headed : Headed front header)
    (back : List Str) :
    (front ++ header :: back).find? (fun line => trim line == entryHeader) = some header := by
  rw [List.find?_eq_some_iff_append]
  refine ⟨by rw [headed.trim_eq]; rfl, front, back, rfl, ?_⟩
  intro line member
  simpa using headed.first line member

theorem Headed.solid {front : List Str} {header : Str} (headed : Headed front header)
    (launch : Launch) (back : List Str) :
    ∃ line ∈ patchedLines launch (front ++ header :: back), line ≠ [] := by
  refine ⟨header, ?_, headed.ne_nil⟩
  rw [headed.patchedLines_eq]
  simp

/-- The lines a patched file is read as. -/
theorem Headed.lines_patched {front back : List Str} {header : Str} (headed : Headed front header)
    {launch : Launch} (ready : launch.Settled)
    (whole : ∀ line ∈ front ++ header :: back, Whole line) :
    lines (joinedText (patchedLines launch (front ++ header :: back))) =
      patchedLines launch (front ++ header :: settled back) := by
  rw [lines_joinedText (patchedLines_whole ready whole) (headed.solid launch back),
    headed.settled_patchedLines]

/-- A blank line at the end makes no difference to the text. -/
theorem Headed.joinedText_settled {front back : List Str} {header : Str}
    (headed : Headed front header) {launch : Launch} (clean : launch.Clean)
    (named : ∀ name ∈ launch.icon, '\n' ∉ name)
    (whole : ∀ line ∈ front ++ header :: back, '\n' ∉ line)
    (single : settled (settled back) = settled back) :
    joinedText (patchedLines launch (front ++ header :: settled back)) =
      joinedText (patchedLines launch (front ++ header :: back)) := by
  have fewer : ∀ line ∈ front ++ header :: settled back, '\n' ∉ line := by
    rw [← headed.settled_eq, settled]
    split
    · exact fun line member => whole line ((List.dropLast_sublist _).subset member)
    · exact whole
  rw [joinedText_eq (patchedLines_feedless clean named fewer) (headed.solid launch _),
    joinedText_eq (patchedLines_feedless clean named whole) (headed.solid launch _),
    headed.settled_patchedLines, headed.settled_patchedLines, single]

/-- Patching again replaces what the patch before wrote, but for an icon it is not given one for;
the arguments stay; and the file can be patched again. -/
theorem patchDesktopFile_twice (patchable : Patchable content)
    (recognized : Recognized path entrypoint) (named : ∀ name ∈ iconName, Whole name)
    (path' : Str) (entrypoint' iconName' : Option Str) (named' : ∀ name ∈ iconName', '\n' ∉ name) :
    patchDesktopFile (patchDesktopFile content path entrypoint iconName) path' entrypoint' iconName' =
        patchDesktopFile content path' entrypoint' (iconName'.or iconName) ∧
      passedOn (patchDesktopFile content path entrypoint iconName) = passedOn content ∧
      Patchable (patchDesktopFile content path entrypoint iconName) := by
  have ready := settled_launchOf recognized named
  obtain ⟨front, header, back, same, headed⟩ := patchable.headed_eq
  have whole := patchable.whole
  have single := patchable.blank
  rw [same] at whole single
  have once : settled (settled back) = settled back := by
    apply settled_blank (front ++ [header])
    rwa [List.append_assoc, List.singleton_append]
  have fewer : ∀ line ∈ front ++ header :: settled back, Whole line := by
    rw [← headed.settled_eq, settled]
    split
    · exact fun line member => whole line ((List.dropLast_sublist _).subset member)
    · exact whole
  have read : lines (patchDesktopFile content path entrypoint iconName) =
      patchedLines (launchOf path entrypoint iconName) (front ++ header :: settled back) := by
    rw [patchDesktopFile, same]
    exact headed.lines_patched ready whole
  have icons : ∀ name ∈ iconName'.or iconName, '\n' ∉ name := by
    intro name member
    cases iconName' with
    | none => exact (named name member).1
    | some given => exact named' name member
  refine ⟨?_, ?_, ?_⟩
  · rw [patchDesktopFile, read, patchedLines_patchedLines ready _ headed, patchDesktopFile, same]
    exact headed.joinedText_settled (clean_launchOf path' entrypoint' _) icons
      (fun line member => (whole line member).1) once
  · rw [passedOn, passedOn, read, same, headed.execTails_patchedLines ready, ← headed.settled_eq,
      execTails_settled]
  · constructor
    · rw [read, headed.patchedLines_eq]
      exact ⟨header, (headed.patched _ _).find?_eq _, headed.exact⟩
    · rw [read]
      exact fun line member => (patchedLines_whole ready fewer line member).2
    · rw [read]
      have last : (patchedLines (launchOf path entrypoint iconName)
          (front ++ header :: settled back)).getLast? ≠ some [] := by
        apply not_blank_of_settled
        rw [headed.settled_patchedLines, once]
      rintro ⟨before, ends⟩
      apply last
      rw [← ends]
      simp

/-- A menu entry whose package has moved and is launched through a quoted entrypoint. -/
theorem moved_package_patched_again :
    let content := "[Desktop Entry]\nExec=old %U\n\n[Desktop Action n]\nExec=old --new\n".toList
    let once := patchDesktopFile content "/a b".toList (some "d'x".toList) (some "i".toList)
    patchDesktopFile once "/c".toList none none =
        patchDesktopFile content "/c".toList none (some "i".toList) ∧
      passedOn once = ["%U".toList, "--new".toList] := by
  have patchable : Patchable
      "[Desktop Entry]\nExec=old %U\n\n[Desktop Action n]\nExec=old --new\n".toList :=
    ⟨⟨entryHeader, by decide +kernel, by decide⟩, by decide +kernel, by decide +kernel⟩
  have word : Recognized "/a b".toList (some "d'x".toList) :=
    List.all_iff_forall_prop.mp (by decide)
  have held := @patchDesktopFile_twice _ "/a b".toList (some "d'x".toList) (some "i".toList) patchable
    word (by unfold Whole; decide +kernel) "/c".toList none none (by decide +kernel)
  exact ⟨held.1, held.2.1.trans (by decide +kernel)⟩

end

/-- What a patch leaves in the way of the next: an icon the next is given none for; keys written
where no header, or one with a blank behind it, makes them the entry's; one of several blank lines
at the end and a carriage return before a line's end; an assignment whose quoted name has a blank,
and a binary called `env` before an argument that reads as the assignment. -/
theorem patch_shows_through :
    let twice := fun content path entrypoint icon path' entrypoint' icon' =>
      patchDesktopFile (patchDesktopFile content path entrypoint icon) path' entrypoint' icon'
    let full := "[Desktop Entry]\nExec=a %U\nTryExec=a\nIcon=a\n"
    twice full.toList "p".toList none (some "b".toList) "q".toList none none ≠
        patchDesktopFile full.toList "q".toList none none ∧
      twice [] "p".toList none none "p".toList none none ≠
        patchDesktopFile [] "p".toList none none ∧
      twice "[Desktop Entry] \n".toList "p".toList none none "p".toList none none ≠
        patchDesktopFile "[Desktop Entry] \n".toList "p".toList none none ∧
      twice (full ++ "\n\n").toList "p".toList none none "p".toList none none ≠
        patchDesktopFile (full ++ "\n\n").toList "p".toList none none ∧
      twice (full ++ "A=b\r\r\n").toList "p".toList none none "p".toList none none ≠
        patchDesktopFile (full ++ "A=b\r\r\n").toList "p".toList none none ∧
      twice full.toList "p".toList (some "a b".toList) none "p".toList (some "a b".toList) none ≠
        patchDesktopFile full.toList "p".toList (some "a b".toList) none ∧
      twice "[Desktop Entry]\nExec=a ONELF_ENTRYPOINT=x\n".toList "env".toList none none
          "env".toList none none ≠
        patchDesktopFile "[Desktop Entry]\nExec=a ONELF_ENTRYPOINT=x\n".toList "env".toList none
          none := by
  decide +kernel

end Onelf.Format.Desktop
