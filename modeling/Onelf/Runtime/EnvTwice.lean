import Onelf.Lib.LastWrite
import Onelf.Runtime.CustomEnv

/-! The runtime's pass over `.onelf/env`, made a second time over the environment it left. -/

namespace Onelf.Runtime.CustomEnv

open Onelf.Lib
open Onelf.Payloads (Env setenv)

/-! ### What a line leaves -/

/-- The line sets nothing. -/
def Skipped (onelfDir : Bytes) (env : Env) (line : Bytes × Bytes) : Prop :=
  NeedsTree onelfDir line.2 ∨ alreadyApplied env onelfDir line.1 line.2 = true ∨
    Refused line.1 (expandEnvValue env onelfDir line.2)

/-- The line sets nothing, or what its variable holds. -/
def Quiet (onelfDir : Bytes) (env : Env) (line : Bytes × Bytes) : Prop :=
  Skipped onelfDir env line ∨ env line.1 = some (expandEnvValue env onelfDir line.2)

/-- The line finds `held` in its variable and sets nothing, or sets `held`. -/
def Leaves (onelfDir : Bytes) (env : Env) (line : Bytes × Bytes) (held : Option Bytes) : Prop :=
  (Skipped onelfDir env line ∧ env line.1 = held) ∨
    (¬Skipped onelfDir env line ∧ some (expandEnvValue env onelfDir line.2) = held)

/-- The last line of each variable, in the environment the lines before it leave, leaves it as `env`
has it. -/
def Settled (onelfDir : Bytes) (env : Env) (lines : List (Bytes × Bytes)) : Prop :=
  ∀ before line after, lines = before ++ line :: after → (∀ later ∈ after, later.1 ≠ line.1) →
    Leaves onelfDir (before.foldl (applyAssignment onelfDir) env) line (env line.1)

section
variable {onelfDir : Bytes} {env : Env} {line : Bytes × Bytes}

theorem applyAssignment_skipped (skipped : Skipped onelfDir env line) :
    applyAssignment onelfDir env line = env := by
  rw [applyAssignment]
  rcases skipped with needs | applied | refused
  · rw [if_pos needs]
  · rw [if_pos applied, ite_self]
  · rw [setVarChecked, if_pos refused, ite_self, ite_self]

theorem applyAssignment_set (runs : ¬Skipped onelfDir env line) :
    applyAssignment onelfDir env line =
      setenv env line.1 (expandEnvValue env onelfDir line.2) := by
  rw [Skipped, not_or, not_or] at runs
  rw [applyAssignment, if_neg runs.1, if_neg runs.2.1, setVarChecked, if_neg runs.2.2]

theorem applyAssignment_leaves {held : Option Bytes} :
    applyAssignment onelfDir env line line.1 = held ↔ Leaves onelfDir env line held := by
  rw [Leaves]
  by_cases skipped : Skipped onelfDir env line
  · rw [applyAssignment_skipped skipped]
    simp [skipped]
  · rw [applyAssignment_set skipped, setenv, if_pos rfl]
    simp [skipped]

theorem oneName_applyAssignment : OneName Prod.fst (applyAssignment onelfDir) := by
  intro env line name other
  by_cases skipped : Skipped onelfDir env line
  · rw [applyAssignment_skipped skipped]
  · rw [applyAssignment_set skipped, setenv, if_neg other]

theorem applyAssignment_eq_self_iff :
    applyAssignment onelfDir env line = env ↔ Quiet onelfDir env line := by
  rw [Quiet]
  by_cases skipped : Skipped onelfDir env line
  · rw [applyAssignment_skipped skipped]
    simp [skipped]
  · have own := @applyAssignment_leaves onelfDir env line (env line.1)
    rw [Leaves] at own
    constructor
    · intro same
      rcases own.mp (congrFun same line.1) with ⟨skip, -⟩ | ⟨-, holds⟩
      · exact Or.inl skip
      · exact Or.inr holds.symm
    · intro quiet
      have holds := quiet.resolve_left skipped
      funext name
      by_cases same : name = line.1
      · rw [same]
        exact own.mpr (Or.inr ⟨skipped, holds.symm⟩)
      · exact oneName_applyAssignment env line name same

end

/-! ### What a line reads -/

section
variable {onelfDir : Bytes} {env env' : Env}

theorem var_congr {name : Bytes} (same : env name = env' name) : var env name = var env' name := by
  rw [var, var, same]

theorem substituted_congr {token : Bytes}
    (same : env (splitDefault token).1 = env' (splitDefault token).1) :
    substituted env onelfDir token = substituted env' onelfDir token := by
  rw [substituted, substituted, resolved, resolved, var_congr same]

theorem expandEnvValue_congr {val : Bytes} (same : ∀ name ∈ names val, env name = env' name) :
    expandEnvValue env onelfDir val = expandEnvValue env' onelfDir val := by
  apply scan_congr
  intro token member
  exact substituted_congr (same _ (List.mem_map_of_mem member))

/-- A value is split at a reference that its names count once more. -/
theorem names_of_split {key val before after : Bytes}
    (split : splitAtSelfReference key val = some (before, after)) :
    names val = names before ++ key :: names after := by
  rcases splitAtSelfReference_eq_some split with ⟨token, -, name, scans⟩
  have listed : tokens val = tokens before ++ ([token] ++ tokens after) := scans _ _
  rw [names, listed, List.map_append, List.map_append, ← name]
  rfl

theorem splitFrom_none {key before src : Bytes} (missing : splitFrom key before 0 src = none) :
    key ∉ names src := by
  induction src using references_induction generalizing before with
  | nil => exact List.not_mem_nil
  | token token rest closed ih =>
      have listed : tokens (referenceText token ++ rest) = token :: tokens rest :=
        scan_reference _ _ closed rest
      rw [splitFrom_reference closed] at missing
      split at missing
      · cases missing
      · next other =>
          rw [names, listed, List.map_cons, List.mem_cons, not_or]
          exact ⟨Ne.symm other, ih missing⟩
  | letter byte rest bare ih =>
      have listed : tokens (byte :: rest) = tokens rest := scan_letter _ _ bare
      rw [names, listed]
      rw [splitFrom_letter bare] at missing
      split at missing
      · next opens =>
          -- an unclosed reference ends the search: nothing is closed behind it
          have unclosed := splitOnce_eq_none.mp (reference_eq_none bare opens)
          rcases opens with ⟨inner, same⟩
          rcases List.cons.inj same with ⟨-, second⟩
          have nothing : tokens rest = [] := by
            apply tokens_unclosed
            rw [← second]
            rw [← same] at unclosed
            intro member
            rcases List.mem_cons.mp member with brace | behind
            · exact absurd brace (by decide)
            · exact unclosed behind
          rw [nothing]
          exact List.not_mem_nil
      · exact ih missing

/-- What is tested depends on the variable and on the variables that the value refers to. -/
theorem alreadyApplied_congr {key val : Bytes} (own : env key = env' key)
    (same : ∀ name ∈ names val, env name = env' name) :
    alreadyApplied env onelfDir key val = alreadyApplied env' onelfDir key val := by
  rw [alreadyApplied, alreadyApplied]
  cases split : splitAtSelfReference key val with
  | none => rfl
  | some parts =>
      have listed := names_of_split split
      rw [listed] at same
      have lead : expandEnvValue env onelfDir parts.1 = expandEnvValue env' onelfDir parts.1 :=
        expandEnvValue_congr fun name member => same name (List.mem_append_left _ member)
      have tail : expandEnvValue env onelfDir parts.2 = expandEnvValue env' onelfDir parts.2 :=
        expandEnvValue_congr fun name member =>
          same name (List.mem_append_right _ (List.mem_cons_of_mem _ member))
      dsimp only
      rw [current, current, var_congr own, lead, tail]

theorem substituted_valid (root : validUtf8 onelfDir = true) {token : Bytes}
    (valid : validUtf8 token = true) : validUtf8 (substituted env onelfDir token) = true := by
  rw [substituted]
  split
  · next value found =>
      have resolves := (Option.filter_eq_some_iff.mp found).1
      rw [resolved] at resolves
      split at resolves
      · rw [← Option.some.inj resolves]
        exact root
      · rw [var] at resolves
        split at resolves
        · cases resolves
        · exact (Option.filter_eq_some_iff.mp resolves).2
  · cases word : (splitDefault token).2 with
    | none => rfl
    | some word =>
        rw [splitDefault_word word, validUtf8_split (by decide)] at valid
        have behind := valid.2
        rw [← List.nil_append (45 :: _), validUtf8_split (by decide)] at behind
        exact behind.2

theorem expandEnvValue_valid (root : validUtf8 onelfDir = true) {val : Bytes}
    (valid : validUtf8 val = true) : validUtf8 (expandEnvValue env onelfDir val) = true :=
  scan_valid valid fun _ _ held => substituted_valid root held

end

/-! ### The second pass -/

/-- No variable has two lines, a line refers to its own variable at most once and to no variable of
a line behind it. -/
structure ReadsBehind (lines : List (Bytes × Bytes)) : Prop where
  apart : lines.Pairwise fun line later => later.1 ≠ line.1 ∧ later.1 ∉ names line.2
  once : ∀ line ∈ lines, (names line.2).count line.1 ≤ 1

section
variable {onelfDir : Bytes} {env env' : Env} {key val : Bytes}

theorem skipped_congr (own : env key = env' key)
    (same : ∀ name ∈ names val, env name = env' name) (skipped : Skipped onelfDir env (key, val)) :
    Skipped onelfDir env' (key, val) := by
  rw [Skipped, alreadyApplied_congr own same, expandEnvValue_congr same] at skipped
  exact skipped

/-- A reference that gave nothing gives nothing while its variable is empty. -/
theorem substituted_empty {token : Bytes} (none : substituted env onelfDir token = [])
    (set : var env' (splitDefault token).1 = some []) : substituted env' onelfDir token = [] := by
  rw [substituted] at none ⊢
  split at none
  · next value found =>
      have nonempty := (Option.filter_eq_some_iff.mp found).2
      rw [none] at nonempty
      cases nonempty
  · next found =>
      have missing : (resolved env' onelfDir (splitDefault token).1).filter (· ≠ []) = Option.none := by
        rw [resolved] at found ⊢
        by_cases tree : (splitDefault token).1 = utf8 "ONELF_DIR"
        · rw [if_pos tree] at found ⊢
          exact found
        · rw [if_neg tree, set]
          rfl
      rw [missing]
      exact none

/-- What a line set around its own variable is quiet from then on. -/
theorem quiet_of_wrapped (root : validUtf8 onelfDir = true) (valid : validUtf8 val = true)
    (once : (names val).count key ≤ 1) (bare : 0 ∉ key) (wraps : key ∈ names val)
    (same : ∀ name ∈ names val, name ≠ key → env' name = env name)
    (set : env' key = some (expandEnvValue env onelfDir val)) :
    Quiet onelfDir env' (key, val) := by
  cases split : splitAtSelfReference key val with
  | none => exact absurd wraps (splitFrom_none split)
  | some parts =>
      rcases parts with ⟨before, after⟩
      have listed := names_of_split split
      rcases splitAtSelfReference_eq_some split with ⟨token, -, name, scans⟩
      rw [listed, List.count_append, List.count_cons_self] at once
      have leadFree : key ∉ names before := List.count_eq_zero.mp (by omega)
      have tailFree : key ∉ names after := List.count_eq_zero.mp (by omega)
      -- what stands beside the reference is read as it was
      have kept (part : Bytes) (free : key ∉ names part) (within : names part ⊆ names val) :
          expandEnvValue env' onelfDir part = expandEnvValue env onelfDir part :=
        expandEnvValue_congr fun other member =>
          same other (within member) fun equal => free (equal ▸ member)
      have lead := kept before leadFree (by simp [listed])
      have tail := kept after tailFree (by simp [listed])
      have whole : expandEnvValue env onelfDir val = expandEnvValue env onelfDir before ++
          (substituted env onelfDir token ++ expandEnvValue env onelfDir after) := scans _ _
      have held : current env' key = expandEnvValue env onelfDir val := by
        rw [current, var, if_neg bare, set, Option.filter_some,
          if_pos (expandEnvValue_valid root valid)]
        rfl
      by_cases empty : expandEnvValue env onelfDir val = []
      · right
        have again : expandEnvValue env' onelfDir val = expandEnvValue env' onelfDir before ++
            (substituted env' onelfDir token ++ expandEnvValue env' onelfDir after) := scans _ _
        rw [empty] at whole set
        rcases List.append_eq_nil_iff.mp whole.symm with ⟨noLead, rest⟩
        rcases List.append_eq_nil_iff.mp rest with ⟨noGiven, noTail⟩
        have holds : var env' (splitDefault token).1 = some [] := by
          rw [name, var, if_neg bare, set]
          rfl
        rw [again, lead, tail, noLead, noTail, substituted_empty noGiven holds]
        exact set
      · left
        right
        left
        have longer : (expandEnvValue env onelfDir before).length +
            (expandEnvValue env onelfDir after).length ≤ (expandEnvValue env onelfDir val).length := by
          rw [whole, List.length_append, List.length_append]
          omega
        have begins : expandEnvValue env onelfDir before <+: expandEnvValue env onelfDir val := by
          rw [whole]
          exact List.prefix_append _ _
        have ends : expandEnvValue env onelfDir after <:+ expandEnvValue env onelfDir val := by
          rw [whole, ← List.append_assoc]
          exact List.suffix_append _ _
        rw [alreadyApplied, split]
        dsimp only
        rw [lead, tail, held]
        simp [empty, longer, begins, ends]

/-- A line is quiet in the environment that it and the lines behind it leave. -/
theorem quiet_behind (root : validUtf8 onelfDir = true) {after : List (Bytes × Bytes)}
    (valid : validUtf8 val = true) (once : (names val).count key ≤ 1)
    (apart : ∀ later ∈ after, later.1 ≠ key ∧ later.1 ∉ names val) :
    Quiet onelfDir
      (after.foldl (applyAssignment onelfDir) (applyAssignment onelfDir env (key, val)))
      (key, val) := by
  have one := @oneName_applyAssignment onelfDir
  have own := one.untouched (fun later member => (apart later member).1)
    (applyAssignment onelfDir env (key, val))
  have read {name : Bytes} (member : name ∈ names val) :=
    one.untouched (fun later behind same => (apart later behind).2 (same ▸ member))
      (applyAssignment onelfDir env (key, val))
  generalize after.foldl (applyAssignment onelfDir) (applyAssignment onelfDir env (key, val)) = final
    at own read
  by_cases skipped : Skipped onelfDir env (key, val)
  · rw [applyAssignment_skipped skipped] at own read
    exact Or.inl (skipped_congr own.symm (fun name member => (read member).symm) skipped)
  · rw [applyAssignment_set skipped] at own read
    rw [setenv, if_pos rfl] at own
    have others : ∀ name ∈ names val, name ≠ key → final name = env name := by
      intro name member other
      rw [read member, setenv, if_neg other]
    by_cases wraps : key ∈ names val
    · have bare : 0 ∉ key := by
        intro zero
        exact skipped (Or.inr (Or.inr (Or.inr (Or.inr (Or.inl zero)))))
      exact quiet_of_wrapped root valid once bare wraps others own
    · right
      have same : expandEnvValue final onelfDir val = expandEnvValue env onelfDir val := by
        apply expandEnvValue_congr
        intro name member
        exact others name member fun equal => wraps (equal ▸ member)
      rw [same]
      exact own

end

theorem assignments_valid {envData key val : Bytes} (member : (key, val) ∈ assignments envData) :
    validUtf8 val = true := by
  rw [assignments] at member
  split at member
  · rcases List.mem_filterMap.mp member with ⟨line, -, read⟩
    rw [assignment] at read
    split at read
    · cases read
    · rcases Option.map_eq_some_iff.mp read with ⟨parts, -, same⟩
      rw [← (Prod.mk.inj same).2]
      exact Str.validUtf8_encodeUtf8 _
  · cases member

theorem applyCustomEnv_eq_self_iff {envData onelfDir : Bytes} {env : Env}
    (distinct : ((assignments envData).map Prod.fst).Nodup) :
    applyCustomEnv env envData onelfDir = env ↔
      ∀ line ∈ assignments envData, Quiet onelfDir env line := by
  rw [applyCustomEnv, oneName_applyAssignment.foldl_eq_iff_of_nodup distinct]
  apply forall_congr'
  intro line
  rw [applyAssignment_eq_self_iff]

/-- Where every line reads behind, the first pass leaves nothing for a second one to change. -/
theorem applied_twice_of_readsBehind {envData onelfDir : Bytes} (root : validUtf8 onelfDir = true)
    (behind : ReadsBehind (assignments envData)) (start : Env) :
    applyCustomEnv (applyCustomEnv start envData onelfDir) envData onelfDir =
      applyCustomEnv start envData onelfDir := by
  have distinct : ((assignments envData).map Prod.fst).Nodup := by
    rw [List.Nodup, List.pairwise_map]
    exact behind.apart.imp fun held => Ne.symm held.1
  rw [applyCustomEnv_eq_self_iff distinct]
  rintro ⟨key, val⟩ member
  have valid := assignments_valid member
  have once := behind.once _ member
  have apart := behind.apart
  rcases List.append_of_mem member with ⟨before, after, split⟩
  rw [split, List.pairwise_append, List.pairwise_cons] at apart
  rw [applyCustomEnv, split, List.foldl_append, List.foldl_cons]
  exact quiet_behind root valid once apart.2.1.1

def wrappedText : Bytes := utf8 "B=x\nA=${B}/bin:${A:-y}\n"

def startEnv : Env := fun name => if name = utf8 "A" then some (utf8 "/usr") else none

theorem applied_twice_wrapped :
    applyCustomEnv (applyCustomEnv startEnv wrappedText (utf8 "/app")) wrappedText (utf8 "/app") =
      applyCustomEnv startEnv wrappedText (utf8 "/app") := by
  have read : assignments wrappedText =
      [(utf8 "B", utf8 "x"), (utf8 "A", utf8 "${B}/bin:${A:-y}")] := by decide +kernel
  have behind : ReadsBehind (assignments wrappedText) := by
    rw [read]
    constructor
    · decide +kernel
    · decide +kernel
  exact applied_twice_of_readsBehind (by decide +kernel) behind startEnv

/-! ### A line that reads a variable set behind it -/

def bareEnv : Env := fun _ => none

def aheadText : Bytes := utf8 "A=${B}\nB=x\n"

def behindText : Bytes := utf8 "B=x\nA=${B}\n"

end Onelf.Runtime.CustomEnv
