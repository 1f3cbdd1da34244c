import Onelf.Cli.Pack.Packed
import Onelf.Payloads.EnvAgreement
import Onelf.Runtime.EnvTwice

/-! A recipe's `[env]` table on its way to a launch: expanded by the packer (`onelf/src/recipe.rs`),
written into `.onelf/env` and read back by the runtime. -/

namespace Onelf.Cli.Pack.DeclaredEnv

open Onelf.Lib
open Onelf.Payloads (Env setenv)
open Onelf.Runtime.CustomEnv

/-! ### The packer's expansion -/

/-- The loop of `expand_env`; the next `skip` bytes belong to what was replaced last. -/
def expandFrom (env : Env) : Nat → Bytes → Bytes
  | _, [] => []
  | skip + 1, _ :: rest => expandFrom env skip rest
  | 0, byte :: rest =>
      if byte = dollar ∧ rest.head? = some dollar then dollar :: expandFrom env 1 rest
      else
        match reference (byte :: rest) with
        | some name =>
            -- A variable that is not set stays for the runtime.
            (var env (if validUtf8 name then name else [])).getD (referenceText name) ++
              expandFrom env (name.length + 2) rest
        | none => byte :: expandFrom env 0 rest

def expandEnv (env : Env) (text : Str) : Str :=
  Str.fromUtf8Lossy (expandFrom env 0 (Str.encodeUtf8 text))

def ofStr (text : Str) : Text := ⟨Str.encodeUtf8 text, Str.validUtf8_encodeUtf8 text⟩

/-- The settings of a recipe as `PackOptions` takes them over; its keys are left untouched. -/
def expandTable (env : Env) (table : List (Str × Str)) : List (Str × Str) :=
  table.map fun setting => (setting.1, expandEnv env setting.2)

def settings (table : List (Str × Str)) : List (Text × Text) :=
  table.map fun setting => (ofStr setting.1, ofStr setting.2)

/-- The text of `.onelf/env`. -/
def envText (opts : PackOptions) : Bytes := joined (envLines opts)

/-! ### What a table declares -/

def pathKey : Str := "PATH".toList

/-- The package's own `bin` before what `PATH` holds. -/
def defaultPath : Str × Str := (pathKey, "${ONELF_DIR}/bin:${PATH:-/usr/bin:/bin}".toList)

/-- The default and the table's own settings, as the packer expanded them. -/
def declared (table : List (Str × Str)) : List (Str × Str) :=
  (if ∃ setting ∈ table, setting.1 = pathKey then [] else [defaultPath]) ++ table

def bytesOf (setting : Str × Str) : Bytes × Bytes :=
  (Str.encodeUtf8 setting.1, Str.encodeUtf8 setting.2)

/-- A setting that a line can hold. -/
structure Plain (setting : Str × Str) : Prop where
  key : Str.Trimmed setting.1
  value : Str.Trimmed setting.2
  unhashed : setting.1.head? ≠ some '#'
  parted : '=' ∉ setting.1
  whole : '\n' ∉ setting.1 ∧ '\n' ∉ setting.2

/-! ### The assignments a launch makes -/

/-- The calls of `set_var` that the lines make. -/
def calls (onelfDir : Bytes) : Env → List (Bytes × Bytes) → List (Bytes × Bytes)
  | _, [] => []
  | env, line :: lines =>
      if NeedsTree onelfDir line.2 ∨ alreadyApplied env onelfDir line.1 line.2 = true ∨
          Refused line.1 (expandEnvValue env onelfDir line.2) then
        calls onelfDir env lines
      else
        (line.1, expandEnvValue env onelfDir line.2) ::
          calls onelfDir (setenv env line.1 (expandEnvValue env onelfDir line.2)) lines

/-- `made` are the assignments of `lines`, one after another from `env`: each line assigns its
expanded value, but for one whose package tree is not there, that was applied before, or that the
system has no variable for. -/
inductive Assigns (onelfDir : Bytes) :
    Env → List (Bytes × Bytes) → List (Bytes × Bytes) → Env → Prop
  | done (env : Env) : Assigns onelfDir env [] [] env
  | skipped {env final : Env} {line : Bytes × Bytes} {lines made : List (Bytes × Bytes)} :
      Skipped onelfDir env line → Assigns onelfDir env lines made final →
        Assigns onelfDir env (line :: lines) made final
  | assigned {env final : Env} {line : Bytes × Bytes} {lines made : List (Bytes × Bytes)} :
      ¬ Skipped onelfDir env line →
      Assigns onelfDir (setenv env line.1 (expandEnvValue env onelfDir line.2)) lines made final →
        Assigns onelfDir env (line :: lines)
          ((line.1, expandEnvValue env onelfDir line.2) :: made) final

theorem assigns_calls (onelfDir : Bytes) (env : Env) (lines : List (Bytes × Bytes)) :
    Assigns onelfDir env lines (calls onelfDir env lines)
      (lines.foldl (applyAssignment onelfDir) env) := by
  induction lines generalizing env with
  | nil => exact .done env
  | cons line lines ih =>
      rw [calls, List.foldl_cons]
      split
      · next skipped =>
          rw [applyAssignment_skipped skipped]
          exact .skipped skipped (ih env)
      · next runs =>
          rw [applyAssignment_set runs]
          exact .assigned runs (ih _)

/-! ### What is read back of a text -/

/-- The assignments that the lines of a text read as. -/
def reads (text : Str) : List (Bytes × Bytes) := (Str.lines text).filterMap assignment

theorem assignments_encodeUtf8 (text : Str) : assignments (Str.encodeUtf8 text) = reads text := by
  rw [assignments, if_pos (Str.validUtf8_encodeUtf8 text), Str.fromUtf8Lossy_encodeUtf8]
  rfl

/-- The carriage return that ends a line is trimmed with the rest. -/
theorem assignment_chomped (line : Str) : assignment (Str.dropReturn line) = assignment line :=
  Payloads.Constructor.assignment_dropReturn line

theorem filterMap_linesFrom_append (held part rest : Str) :
    (Str.linesFrom held (part ++ '\n' :: rest)).filterMap assignment =
      (Str.linesFrom held part).filterMap assignment ++ reads rest := by
  induction part generalizing held with
  | nil =>
      have own : (Str.linesFrom held []).filterMap assignment = (assignment held).toList := by
        rw [Str.linesFrom]
        split
        · next empty =>
            rw [empty]
            rfl
        · cases held_reads : assignment held with
          | none => simp [held_reads]
          | some line => simp [held_reads]
      have ends : Str.linesFrom held ('\n' :: rest) = Str.dropReturn held :: Str.lines rest := by
        rw [Str.linesFrom, if_pos rfl]
        rfl
      rw [List.nil_append, ends, own, reads]
      cases held_reads : assignment held with
      | none => rw [List.filterMap_cons_none (by rw [assignment_chomped, held_reads])]; rfl
      | some line => rw [List.filterMap_cons_some (by rw [assignment_chomped, held_reads])]; rfl
  | cons c part ih =>
      rw [List.cons_append, Str.linesFrom, Str.linesFrom]
      split
      · have later := ih []
        rw [List.filterMap_cons, List.filterMap_cons, later]
        cases assignment (Str.dropReturn held) with
        | none => rfl
        | some line => rfl
      · exact ih (held ++ [c])

theorem reads_intercalate (parts : List Str) :
    reads (['\n'].intercalate parts) = parts.flatMap reads := by
  induction parts with
  | nil => rfl
  | cons first rest ih =>
      cases rest with
      | nil => rw [List.intercalate_singleton, List.flatMap_cons, List.flatMap_nil, List.append_nil]
      | cons second rest =>
          rw [List.intercalate_cons_cons, List.append_assoc, List.singleton_append,
            List.flatMap_cons, ← ih]
          exact filterMap_linesFrom_append [] first _

/-- The line of a setting. -/
def lineOf (setting : Str × Str) : Str := setting.1 ++ '=' :: setting.2

theorem encodeUtf8_intercalate (parts : List Str) :
    Str.encodeUtf8 (['\n'].intercalate parts) =
      [lineFeed].intercalate (parts.map Str.encodeUtf8) := by
  induction parts with
  | nil => rfl
  | cons first rest ih =>
      cases rest with
      | nil => rw [List.map_singleton, List.intercalate_singleton, List.intercalate_singleton]
      | cons second rest =>
          rw [List.intercalate_cons_cons, encodeUtf8_append, encodeUtf8_append, ih]
          simp only [List.map_cons, List.intercalate_cons_cons]
          rfl

theorem ofStr_bytes_eq {text : Str} {name : Str} :
    (ofStr text).bytes = Str.encodeUtf8 name ↔ text = name :=
  Str.encodeUtf8_injective.eq_iff

theorem envLines_eq {opts : PackOptions} {table : List (Str × Str)}
    (taken : opts.env = settings table) :
    envLines opts = ((declared table).map lineOf).map Str.encodeUtf8 := by
  have written : ∀ setting : Str × Str,
      (ofStr setting.1).bytes ++ utf8 "=" ++ (ofStr setting.2).bytes =
        Str.encodeUtf8 (lineOf setting) := by
    intro setting
    rw [lineOf, encodeUtf8_append, List.append_assoc]
    rfl
  have own : (opts.env.any fun setting => setting.1.bytes = utf8 "PATH") = true ↔
      ∃ setting ∈ table, setting.1 = pathKey := by
    have name : utf8 "PATH" = Str.encodeUtf8 pathKey := by decide
    rw [taken, settings, List.any_map, List.any_eq_true, name]
    simp only [Function.comp_apply, decide_eq_true_iff, ofStr_bytes_eq]
  rw [envLines, declared, taken, List.map_append, List.map_append, settings, List.map_map,
    List.map_map, List.map_map]
  congr 1
  · rw [← settings, ← taken]
    by_cases named : ∃ setting ∈ table, setting.1 = pathKey
    · rw [if_pos (own.mpr named), if_pos named]
      rfl
    · rw [if_neg (fun found => named (own.mp found)), if_neg named]
      decide
  · apply List.map_congr_left
    intro setting member
    exact written setting

theorem assignments_envText {opts : PackOptions} {table : List (Str × Str)}
    (taken : opts.env = settings table) :
    assignments (envText opts) =
      (declared table).flatMap fun setting => reads (lineOf setting) := by
  rw [envText, joined, envLines_eq taken, ← encodeUtf8_intercalate, assignments_encodeUtf8,
    reads_intercalate, List.flatMap_map]

/-! ### Which settings a line holds -/

theorem trimmed_lineOf {setting : Str × Str} (key : Str.Trimmed setting.1)
    (value : Str.Trimmed setting.2) : Str.Trimmed (lineOf setting) := by
  constructor
  · intro c first
    cases text : setting.1 with
    | nil =>
        rw [lineOf, text] at first
        rw [← Option.some.inj first]
        decide
    | cons d rest =>
        rw [lineOf, text] at first
        apply key.1
        rw [text]
        exact first
  · intro c final
    rw [lineOf, List.getLast?_append_cons] at final
    cases text : setting.2 with
    | nil =>
        rw [text] at final
        rw [← Option.some.inj final]
        decide
    | cons d rest =>
        apply value.2
        rw [text] at final ⊢
        rwa [List.getLast?_cons_cons] at final

theorem lines_lineOf {setting : Str × Str} (whole : '\n' ∉ setting.1 ∧ '\n' ∉ setting.2) :
    Str.lines (lineOf setting) = [lineOf setting] := by
  have unbroken : '\n' ∉ lineOf setting := by
    rw [lineOf, List.mem_append, List.mem_cons, not_or, not_or]
    exact ⟨whole.1, by decide, whole.2⟩
  rw [Str.lines, Str.linesFrom_single unbroken, List.nil_append, if_neg]
  rw [lineOf]
  simp

/-- What a line that opens no comment reads as. -/
theorem reads_lineOf {setting : Str × Str} (key : Str.Trimmed setting.1)
    (value : Str.Trimmed setting.2) (parted : '=' ∉ setting.1)
    (whole : '\n' ∉ setting.1 ∧ '\n' ∉ setting.2) :
    reads (lineOf setting) = if setting.1.head? = some '#' then [] else [bytesOf setting] := by
  have opens : (lineOf setting).head? = some '#' ↔ setting.1.head? = some '#' := by
    rw [lineOf]
    cases setting.1 with
    | nil => simp
    | cons c rest => simp
  have some_text : lineOf setting ≠ [] := by simp [lineOf]
  have line : assignment (lineOf setting) =
      if setting.1.head? = some '#' then none else some (bytesOf setting) := by
    rw [assignment, Str.trim_of_trimmed (trimmed_lineOf key value)]
    simp only [some_text, false_or, opens]
    split
    · rfl
    · rw [lineOf, Str.splitOnce_append parted, Option.map_some, Str.trim_of_trimmed key,
        Str.trim_of_trimmed value, bytesOf]
  rw [reads, lines_lineOf whole]
  split
  · next hashed =>
      rw [if_pos hashed] at line
      exact List.filterMap_cons_none line
  · next unhashed =>
      rw [if_neg unhashed] at line
      exact List.filterMap_cons_some line

theorem reads_of_plain {setting : Str × Str} (plain : Plain setting) :
    reads (lineOf setting) = [bytesOf setting] := by
  rw [reads_lineOf plain.key plain.value plain.parted plain.whole,
    if_neg plain.unhashed]

theorem splitOnce_parts {sep : Char} {text : Str} {parts : Str × Str}
    (split : Str.splitOnce sep text = some parts) :
    sep ∉ parts.1 ∧ text = parts.1 ++ sep :: parts.2 := by
  by_cases present : sep ∈ text
  · rcases List.eq_append_cons_of_mem present with ⟨front, back, cut, absent⟩
    rw [cut, Str.splitOnce_append absent] at split
    rw [← Option.some.inj split]
    exact ⟨absent, cut⟩
  · rw [Str.splitOnce_eq_none present] at split
    cases split

theorem trimmed_and_whole {line : Str} {pair : Bytes × Bytes} (whole : '\n' ∉ line)
    (read : assignment line = some pair) :
    ∃ setting, pair = bytesOf setting ∧ Str.Trimmed setting.1 ∧ Str.Trimmed setting.2 ∧
      '=' ∉ setting.1 ∧ '\n' ∉ setting.1 ∧ '\n' ∉ setting.2 := by
  rw [assignment] at read
  split at read
  · cases read
  · rcases Option.map_eq_some_iff.mp read with ⟨parts, split, same⟩
    rcases splitOnce_parts split with ⟨parted, text⟩
    have unbroken : ∀ c, c ∈ parts.1 ∨ c ∈ parts.2 → c ≠ '\n' := by
      intro c inside feed
      apply whole
      rw [← feed]
      apply Str.mem_of_mem_trim
      rw [text, List.mem_append, List.mem_cons]
      exact inside.imp_right Or.inr
    refine ⟨(Str.trim parts.1, Str.trim parts.2), same.symm, Str.trimmed_trim _, Str.trimmed_trim _,
      fun inside => parted (Str.mem_of_mem_trim inside),
      fun inside => unbroken _ (Or.inl (Str.mem_of_mem_trim inside)) rfl,
      fun inside => unbroken _ (Or.inr (Str.mem_of_mem_trim inside)) rfl⟩

theorem bytesOf_injective : Function.Injective bytesOf := by
  intro left right same
  have parts := Prod.mk.inj same
  exact Prod.ext (Str.encodeUtf8_injective parts.1) (Str.encodeUtf8_injective parts.2)

/-- Whatever is read back could be read back from its own line, unless that opens a comment. -/
theorem reads_self {setting : Str × Str} {text : Str} (member : bytesOf setting ∈ reads text) :
    reads (lineOf setting) = if setting.1.head? = some '#' then [] else [bytesOf setting] := by
  rcases List.mem_filterMap.mp member with ⟨line, listed, read⟩
  rcases trimmed_and_whole (Str.lines_whole listed) read with
    ⟨other, same, key, value, parted, whole⟩
  rw [bytesOf_injective same]
  exact reads_lineOf key value parted whole

theorem plain_iff_reads {setting : Str × Str} :
    Plain setting ↔ reads (lineOf setting) = [bytesOf setting] := by
  constructor
  · exact reads_of_plain
  · intro read
    have member : bytesOf setting ∈ reads (lineOf setting) := by
      rw [read]
      exact List.mem_singleton_self _
    rcases List.mem_filterMap.mp member with ⟨line, listed, parsed⟩
    rcases trimmed_and_whole (Str.lines_whole listed) parsed with
      ⟨other, same, key, value, parted, whole⟩
    rw [← bytesOf_injective same] at key value parted whole
    refine ⟨key, value, ?_, parted, whole⟩
    intro hashed
    rw [reads_lineOf key value parted whole, if_pos hashed] at read
    cases read

/-- Where each value gives itself or nothing, giving all of them back takes each of them. -/
theorem singles_of_flatMap {α β : Type} {give : α → List β} {own : α → β} {values : List α}
    (each : ∀ value ∈ values, give value = [own value] ∨ give value = [])
    (all : values.flatMap give = values.map own) : ∀ value ∈ values, give value = [own value] := by
  induction values with
  | nil => nofun
  | cons value values ih =>
      rw [List.forall_mem_cons] at each ⊢
      rw [List.flatMap_cons, List.map_cons] at all
      rcases each.1 with single | missing
      · rw [single] at all
        exact ⟨single, ih each.2 (List.cons.inj all).2⟩
      · have few : (values.flatMap give).length ≤ values.length := by
          rw [List.length_flatMap]
          calc
            (values.map fun value => (give value).length).sum ≤ (values.map fun _ => 1).sum := by
              apply List.sum_le_sum
              intro other member
              rcases each.2 other member with one | none
              · simp [one]
              · simp [none]
            _ = values.length := by simp
        rw [missing, List.nil_append] at all
        rw [all, List.length_cons, List.length_map] at few
        omega

/-- The text reads back as what was declared exactly where a line can hold each setting. -/
theorem assignments_envText_iff {opts : PackOptions} {table : List (Str × Str)}
    (taken : opts.env = settings table) :
    assignments (envText opts) = (declared table).map bytesOf ↔
      ∀ setting ∈ declared table, Plain setting := by
  rw [assignments_envText taken]
  constructor
  · intro all setting member
    rw [plain_iff_reads]
    refine singles_of_flatMap (fun other listed => ?_) all setting member
    have inside : bytesOf other ∈
        (declared table).flatMap fun setting => reads (lineOf setting) := by
      rw [all]
      exact List.mem_map_of_mem listed
    rcases List.mem_flatMap.mp inside with ⟨source, -, read⟩
    rw [reads_self read]
    split
    · exact Or.inr rfl
    · exact Or.inl rfl
  · intro plain
    rw [List.map_eq_flatMap]
    exact List.flatMap_congr fun setting member => reads_of_plain (plain setting member)

theorem plain_default : Plain defaultPath where
  key := Str.trim_eq_self_iff.mp (by decide)
  value := Str.trim_eq_self_iff.mp (by decide)
  unhashed := by decide
  parted := by decide
  whole := by decide

/-- Every setting that a line can hold is assigned as it was declared: once, in order, its value
expanded by the packer and then by the runtime, and nothing else is assigned. -/
theorem declared_applied (packEnv : Env) (table : List (Str × Str)) (opts : PackOptions)
    (taken : opts.env = settings (expandTable packEnv table))
    (plain : ∀ setting ∈ expandTable packEnv table, Plain setting) (env : Env) (onelfDir : Bytes) :
    Assigns onelfDir env ((declared (expandTable packEnv table)).map bytesOf)
      (calls onelfDir env (assignments (envText opts)))
      (applyCustomEnv env (envText opts) onelfDir) := by
  have all : ∀ setting ∈ declared (expandTable packEnv table), Plain setting := by
    intro setting member
    rcases List.mem_append.mp member with own | listed
    · split at own
      · cases own
      · rw [List.mem_singleton.mp own]
        exact plain_default
    · exact plain setting listed
  rw [applyCustomEnv, (assignments_envText_iff taken).mpr all]
  exact assigns_calls onelfDir env _

def noEnv : Env := fun _ => none

def plainTable : List (Str × Str) := [("B".toList, "x $${HOME:-y}".toList)]

theorem declared_applied_plain :
    Assigns (utf8 "/app") noEnv ((declared (expandTable noEnv plainTable)).map bytesOf)
        (calls (utf8 "/app") noEnv (assignments (envText
          { plainOptions with env := settings (expandTable noEnv plainTable) })))
        (applyCustomEnv noEnv
          (envText { plainOptions with env := settings (expandTable noEnv plainTable) })
          (utf8 "/app")) ∧
      calls (utf8 "/app") noEnv (assignments (envText
        { plainOptions with env := settings (expandTable noEnv plainTable) })) =
          [(utf8 "PATH", utf8 "/app/bin:/usr/bin:/bin"), (utf8 "B", utf8 "x y")] := by
  constructor
  · refine declared_applied noEnv plainTable _ rfl ?_ noEnv (utf8 "/app")
    intro setting member
    have expanded : expandTable noEnv plainTable =
        [("B".toList, "x ${HOME:-y}".toList)] := by decide +kernel
    rw [expanded] at member
    rw [List.mem_singleton.mp member]
    exact ⟨Str.trim_eq_self_iff.mp (by decide), Str.trim_eq_self_iff.mp (by decide), by decide,
      by decide, by decide⟩
  · decide +kernel

/-- The package's `bin` is in front already. -/
def launchedEnv : Env := fun name =>
  if name = utf8 "PATH" then some (utf8 "/app/bin:/usr/bin") else none

def brokenTable : List (Str × Str) :=
  [("PATH".toList, "/bin".toList), ("A".toList, "1\nB=2".toList)]

/-- The default is declared and not assigned where it was applied before; a value with a line break
assigns a variable that is not declared. -/
theorem declared_misapplied :
    (declared (expandTable noEnv []) = [defaultPath] ∧
      calls (utf8 "/app") launchedEnv (assignments (envText
        { plainOptions with env := settings (expandTable noEnv []) })) = []) ∧
    declared (expandTable noEnv brokenTable) = brokenTable ∧
      calls (utf8 "/app") noEnv (assignments (envText
        { plainOptions with env := settings (expandTable noEnv brokenTable) })) =
          [(utf8 "PATH", utf8 "/bin"), (utf8 "A", utf8 "1"), (utf8 "B", utf8 "2")] := by
  refine ⟨⟨?_, ?_⟩, ?_, ?_⟩
  · decide +kernel
  · decide +kernel
  · decide +kernel
  · decide +kernel

end Onelf.Cli.Pack.DeclaredEnv
