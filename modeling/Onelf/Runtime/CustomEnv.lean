import Onelf.Lib.References
import Onelf.Lib.Str
import Onelf.Payloads.RuntimeEnv

/-! The runtime's pass over a package's `.onelf/env` (`onelf-rt/src/env.rs`). -/

namespace Onelf.Runtime.CustomEnv

open Onelf.Lib
open Onelf.Payloads (Env setenv)

/-- `env::var(name).ok()`. -/
def var (env : Env) (name : Bytes) : Option Bytes :=
  if 0 ∈ name then none else (env name).filter validUtf8

/-- A name and a value that `std` would abort on. -/
def Refused (key value : Bytes) : Prop := key = [] ∨ 61 ∈ key ∨ 0 ∈ key ∨ 0 ∈ value

instance (key value : Bytes) : Decidable (Refused key value) :=
  inferInstanceAs (Decidable (_ ∨ _ ∨ _ ∨ _))

/-- `set_var_checked`. -/
def setVarChecked (env : Env) (key value : Bytes) : Env :=
  if Refused key value then env else setenv env key value

/-! ### Expanding a value -/

/-- What `${name}` stands for. -/
def resolved (env : Env) (onelfDir name : Bytes) : Option Bytes :=
  if name = utf8 "ONELF_DIR" then some onelfDir else var env name

/-- What a reference is replaced by: its word when its name stands for nothing. -/
def substituted (env : Env) (onelfDir token : Bytes) : Bytes :=
  match (resolved env onelfDir (splitDefault token).1).filter (· ≠ []) with
  | some value => value
  | none => (splitDefault token).2.getD []

/-- `expand_env_value`. -/
def expandEnvValue (env : Env) (onelfDir val : Bytes) : Bytes :=
  scan (substituted env onelfDir) (fun byte => [byte]) val

/-! ### A value that wraps its own variable -/

/-- The search of `split_at_self_reference` from past `before`; the next `skip` bytes belong to a
reference to something else. -/
def splitFrom (key : Bytes) : Bytes → Nat → Bytes → Option (Bytes × Bytes)
  | _, _, [] => none
  | before, skip + 1, byte :: rest => splitFrom key (before ++ [byte]) skip rest
  | before, 0, byte :: rest =>
      if Opens (byte :: rest) then
        match splitOnce closeBrace (rest.drop 1) with
        | none => none
        | some (token, after) =>
            if (splitDefault token).1 = key then some (before, after)
            else splitFrom key (before ++ [byte]) (token.length + 2) rest
      else splitFrom key (before ++ [byte]) 0 rest

theorem splitFrom_eq (key before : Bytes) (skip : Nat) (src : Bytes) :
    splitFrom key before skip src = splitFrom key (before ++ src.take skip) 0 (src.drop skip) := by
  induction src generalizing skip before with
  | nil =>
      cases skip with
      | zero => rw [List.take_nil, List.append_nil]; rfl
      | succ skip => rfl
  | cons byte src ih =>
      cases skip with
      | zero => rw [List.take_zero, List.append_nil]; rfl
      | succ skip =>
          rw [splitFrom, ih, List.take_succ_cons, List.drop_succ_cons, List.append_assoc]
          rfl

theorem splitFrom_reference {key before token rest : Bytes} (closed : closeBrace ∉ token) :
    splitFrom key before 0 (referenceText token ++ rest) =
      if (splitDefault token).1 = key then some (before, rest)
      else splitFrom key (before ++ referenceText token) 0 rest := by
  have opens : Opens (referenceText token ++ rest) := ⟨token ++ [closeBrace] ++ rest, rfl⟩
  have parted : splitOnce closeBrace (token ++ [closeBrace] ++ rest) = some (token, rest) := by
    rw [List.append_assoc]
    exact splitOnce_append closed rest
  have taken : (openBrace :: (token ++ [closeBrace] ++ rest)).take (token.length + 2) =
      openBrace :: (token ++ [closeBrace]) := by
    rw [← List.cons_append]
    exact List.take_left' (by simp)
  have behind : (openBrace :: (token ++ [closeBrace] ++ rest)).drop (token.length + 2) = rest := by
    rw [← List.cons_append]
    exact List.drop_left' (by simp)
  rw [referenceText, List.cons_append, List.cons_append] at opens ⊢
  rw [splitFrom, if_pos opens, List.drop_succ_cons, List.drop_zero, parted]
  dsimp only
  split
  · rfl
  · rw [splitFrom_eq, taken, behind, List.append_assoc]
    rfl

theorem splitFrom_letter {key before rest : Bytes} {byte : UInt8}
    (bare : reference (byte :: rest) = none) :
    splitFrom key before 0 (byte :: rest) =
      if Opens (byte :: rest) then none else splitFrom key (before ++ [byte]) 0 rest := by
  rw [splitFrom]
  split
  · next opens =>
      have unclosed := reference_eq_none bare opens
      rw [List.drop_succ_cons] at unclosed
      rw [unclosed]
  · rfl

def splitAtSelfReference (key val : Bytes) : Option (Bytes × Bytes) := splitFrom key [] 0 val

/-- What a value is split into is the value, and is scanned as the value is. -/
theorem splitFrom_eq_some {key before src lead tail : Bytes}
    (split : splitFrom key before 0 src = some (lead, tail)) :
    ∃ middle token, lead = before ++ middle ∧ src = middle ++ (referenceText token ++ tail) ∧
      (splitDefault token).1 = key ∧
        ∀ {α : Type} (give : Bytes → List α) (keep : UInt8 → List α),
          scan give keep src = scan give keep middle ++ (give token ++ scan give keep tail) := by
  induction src using references_induction generalizing before with
  | nil => cases split
  | token token rest closed ih =>
      rw [splitFrom_reference closed] at split
      split at split
      · next name =>
          rcases Prod.mk.inj (Option.some.inj split) with ⟨first, second⟩
          rw [← second]
          refine ⟨[], token, ?_, rfl, name, ?_⟩
          · rw [List.append_nil, first]
          · intro α give keep
            exact scan_reference give keep closed rest
      · rcases ih split with ⟨middle, own, leads, whole, name, scans⟩
        refine ⟨referenceText token ++ middle, own, ?_, ?_, name, ?_⟩
        · rw [leads, List.append_assoc]
        · rw [whole, List.append_assoc]
        · intro α give keep
          rw [scan_reference give keep closed, scans, scan_reference give keep closed,
            List.append_assoc]
  | letter byte rest bare ih =>
      rw [splitFrom_letter bare] at split
      split at split
      · cases split
      · next other =>
          rcases ih split with ⟨middle, own, leads, whole, name, scans⟩
          have still : reference (byte :: middle) = none := by
            rw [reference, if_neg]
            rintro ⟨inner, same⟩
            apply other
            rw [whole, ← List.cons_append, ← same, List.append_assoc]
            exact ⟨_, rfl⟩
          refine ⟨byte :: middle, own, ?_, ?_, name, ?_⟩
          · rw [leads, List.append_assoc]
            rfl
          · rw [whole]
            rfl
          · intro α give keep
            rw [scan_letter give keep bare, scans, scan_letter give keep still, List.append_assoc]

theorem splitAtSelfReference_eq_some {key val before after : Bytes}
    (split : splitAtSelfReference key val = some (before, after)) :
    ∃ token, val = before ++ (referenceText token ++ after) ∧ (splitDefault token).1 = key ∧
      ∀ {α : Type} (give : Bytes → List α) (keep : UInt8 → List α),
        scan give keep val = scan give keep before ++ (give token ++ scan give keep after) := by
  rcases splitFrom_eq_some split with ⟨middle, token, leads, whole, name, scans⟩
  rw [List.nil_append] at leads
  rw [leads]
  exact ⟨token, whole, name, scans⟩

/-- `env::var(key).unwrap_or_default()`. -/
def current (env : Env) (key : Bytes) : Bytes := (var env key).getD []

def alreadyApplied (env : Env) (onelfDir key val : Bytes) : Bool :=
  match splitAtSelfReference key val with
  | none => false
  | some (before, after) =>
      current env key ≠ [] &&
        (expandEnvValue env onelfDir before).length + (expandEnvValue env onelfDir after).length ≤
            (current env key).length &&
          expandEnvValue env onelfDir before <+: current env key &&
            expandEnvValue env onelfDir after <:+ current env key

/-! ### The lines -/

/-- A line's key and value. -/
def assignment (line : Str) : Option (Bytes × Bytes) :=
  if Str.trim line = [] ∨ (Str.trim line).head? = some '#' then none
  else (Str.splitOnce '=' (Str.trim line)).map fun (key, val) =>
    (Str.encodeUtf8 (Str.trim key), Str.encodeUtf8 (Str.trim val))

def assignments (envData : Bytes) : List (Bytes × Bytes) :=
  if validUtf8 envData then (Str.lines (Str.fromUtf8Lossy envData)).filterMap assignment else []

/-- The value names a package tree that is not there. -/
def NeedsTree (onelfDir val : Bytes) : Prop :=
  onelfDir = [] ∧ (utf8 "${ONELF_DIR}" <:+: val ∨ utf8 "$\x7bONELF_DIR:-" <:+: val)

instance (onelfDir val : Bytes) : Decidable (NeedsTree onelfDir val) :=
  inferInstanceAs (Decidable (_ ∧ (_ ∨ _)))

def applyAssignment (onelfDir : Bytes) (env : Env) : Bytes × Bytes → Env
  | (key, val) =>
      if NeedsTree onelfDir val then env
      else if alreadyApplied env onelfDir key val then env
      else setVarChecked env key (expandEnvValue env onelfDir val)

/-- `apply_custom_env`. -/
def applyCustomEnv (env : Env) (envData onelfDir : Bytes) : Env :=
  (assignments envData).foldl (applyAssignment onelfDir) env

end Onelf.Runtime.CustomEnv
