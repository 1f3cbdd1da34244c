import Onelf.Lib.Ascii
import Onelf.Payloads.CustomEnv
import Onelf.Runtime.CustomEnv

/-! The runtime's pass and the constructor's pass over `.onelf/env` leave the same environment. -/

namespace Onelf.Payloads.Constructor

open Onelf.Lib
open Onelf.Runtime.CustomEnv (expandEnvValue splitAtSelfReference splitFrom substituted resolved var
  current setVarChecked splitFrom_reference splitFrom_letter splitAtSelfReference_eq_some)

/-! ### Texts -/

def IsPrintable (byte : UInt8) : Prop := (32 ≤ byte ∧ byte ≤ 126) ∨ byte = 9 ∨ byte = 10 ∨ byte = 13

/-- A UTF-8 string that a NUL can end. -/
structure Utf8CString (bytes : Bytes) : Prop where
  valid : validUtf8 bytes = true
  bare : 0 ∉ bytes

/-- Every value of the environment is UTF-8. -/
def Utf8Values (env : Env) : Prop := ∀ name value, env name = some value → Utf8CString value

theorem IsPrintable.ascii {byte : UInt8} (printable : IsPrintable byte) : byte < 0x80 := by
  rcases printable with ⟨-, below⟩ | same | same | same
  · exact lt_of_le_of_lt below (by decide)
  · rw [same]
    decide
  · rw [same]
    decide
  · rw [same]
    decide

theorem IsPrintable.ne_zero {byte : UInt8} (printable : IsPrintable byte) : byte ≠ 0 := by
  intro zero
  rw [zero] at printable
  rcases printable with ⟨above, -⟩ | same | same | same
  · exact absurd above (by decide)
  · cases same
  · cases same
  · cases same

theorem utf8CString_nil : Utf8CString [] := ⟨rfl, List.not_mem_nil⟩

theorem Utf8CString.append {left right : Bytes} (first : Utf8CString left)
    (second : Utf8CString right) : Utf8CString (left ++ right) where
  valid := validUtf8_append first.valid second.valid
  bare := by
    rw [List.mem_append, not_or]
    exact ⟨first.bare, second.bare⟩

theorem utf8CString_of_printable {bytes : Bytes} (printable : ∀ byte ∈ bytes, IsPrintable byte) :
    Utf8CString bytes where
  valid := validUtf8_of_ascii fun byte member => (printable byte member).ascii
  bare := fun member => (printable 0 member).ne_zero rfl

theorem cString_of_bare {bytes : Bytes} (bare : 0 ∉ bytes) : cString bytes = bytes := by
  rw [cString, List.takeWhile_eq_self_iff]
  intro byte member
  rw [decide_eq_true_eq]
  intro zero
  exact bare (zero ▸ member)

theorem Utf8Values.setenv {env : Env} {name value : Bytes} (values : Utf8Values env)
    (held : Utf8CString value) : Utf8Values (setenv env name value) := by
  intro other found
  rw [Payloads.setenv]
  split
  · intro same
    rw [← Option.some.inj same]
    exact held
  · exact values other found

theorem Utf8Values.var {env : Env} {name : Bytes} (values : Utf8Values env) (bare : 0 ∉ name) :
    var env name = env name := by
  rw [Runtime.CustomEnv.var, if_neg bare]
  cases found : env name with
  | none => rfl
  | some value => rw [Option.filter_some, if_pos (values name value found).valid]

/-! ### Expanding a value -/

theorem nameAndWord_eq (token : Bytes) : nameAndWord token = splitDefault token := by
  induction token with
  | nil => rfl
  | cons first token ih =>
      cases token with
      | nil =>
          rw [splitDefault, if_neg (by simp)]
          rfl
      | cons second token =>
          rw [nameAndWord, splitDefault, ih]
          by_cases mark : first = 58 ∧ second = 45
          · rw [if_pos mark, if_pos (by simp [mark])]
            rfl
          · rw [if_neg mark, if_neg]
            intro lead
            rw [List.cons_prefix_cons, List.cons_prefix_cons] at lead
            exact mark ⟨lead.1.symm, lead.2.1.symm⟩

theorem opens_iff {text : Bytes} : Opens text ↔ ∃ inner, text = 36 :: 123 :: inner := by
  constructor
  · rintro ⟨inner, same⟩
    exact ⟨inner, same.symm⟩
  · rintro ⟨inner, same⟩
    exact ⟨inner, same.symm⟩

/-- The names that the references of `text` give fit their buffer. -/
def NamesFit (text : Bytes) : Prop :=
  ∀ token ∈ tokens text, (splitDefault token).1.length < nameCapacity

theorem replaceable_eq {text : Bytes} (short : ∀ token, reference text = some token →
    (splitDefault token).1.length < nameCapacity) : replaceable text = reference text := by
  by_cases opens : Opens text
  · rcases opens_iff.mp opens with ⟨inner, same⟩
    have given : reference text = (splitOnce 125 inner).map Prod.fst := by
      rw [reference, if_pos opens, same]
      rfl
    rw [given] at short ⊢
    rw [same, replaceable]
    cases split : (splitOnce 125 inner).map Prod.fst with
    | none => rfl
    | some token =>
        rw [Option.filter_some, if_pos]
        rw [decide_eq_true_eq, nameAndWord_eq]
        exact short token split
  · rw [reference, if_neg opens, replaceable]
    intro inner same
    exact opens (opens_iff.mpr ⟨inner, same⟩)

theorem foldlM_push {cap : Nat} {out bytes : Bytes} (fits : out.length + bytes.length < cap) :
    bytes.foldlM (push cap) out = some (out ++ bytes) := by
  induction bytes generalizing out with
  | nil =>
      rw [List.append_nil]
      rfl
  | cons byte bytes ih =>
      rw [List.length_cons] at fits
      have room : ¬out.length + 1 ≥ cap := by omega
      have rest : (out ++ [byte]).length + bytes.length < cap := by
        rw [List.length_append, List.length_singleton]
        omega
      rw [List.foldlM_cons, push, if_neg room]
      calc (some (out ++ [byte]) >>= fun out => bytes.foldlM (push cap) out)
          = bytes.foldlM (push cap) (out ++ [byte]) := rfl
        _ = some (out ++ [byte] ++ bytes) := ih rest
        _ = some (out ++ byte :: bytes) := by rw [List.append_assoc]; rfl

theorem expandFrom_eq (env : Env) (root : Bytes) (cap : Nat) (out : Bytes) (skip : Nat)
    (src : Bytes) :
    expandFrom env root cap out skip src = expandFrom env root cap out 0 (src.drop skip) := by
  induction src generalizing skip with
  | nil =>
      rw [List.drop_nil]
      cases skip with
      | zero => rfl
      | succ skip => rfl
  | cons byte src ih =>
      cases skip with
      | zero => rfl
      | succ skip => exact ih skip

section
variable {env : Env} {root : Bytes}

theorem replacement_eq (values : Utf8Values env) (bare : 0 ∉ root) {token : Bytes}
    (plain : 0 ∉ token) : replacement env root token = substituted env root token := by
  have name : 0 ∉ (splitDefault token).1 := fun member => plain (mem_splitDefault (Or.inl member))
  have same : (found env root (nameAndWord token).1).map cString =
      resolved env root (splitDefault token).1 := by
    rw [nameAndWord_eq, found, cString_of_bare name, resolved, values.var name]
    split
    · rw [Option.map_some, cString_of_bare bare]
    · cases held : env (splitDefault token).1 with
      | none => rfl
      | some value => rw [Option.map_some, cString_of_bare (values _ value held).bare]
  rw [replacement, substituted, same, nameAndWord_eq]
  cases resolved env root (splitDefault token).1 with
  | none => rfl
  | some value =>
      cases value with
      | nil => rfl
      | cons byte value => rfl

theorem expandFrom_reference {cap : Nat} {token rest out : Bytes} (closed : closeBrace ∉ token)
    (short : (splitDefault token).1.length < nameCapacity)
    (fits : out.length + (replacement env root token).length < cap) :
    expandFrom env root cap out 0 (referenceText token ++ rest) =
      expandFrom env root cap (out ++ replacement env root token) 0 rest := by
  have given := reference_append closed rest
  have held : replaceable (referenceText token ++ rest) = some token := by
    rw [replaceable_eq, given]
    intro other same
    rw [given] at same
    rw [← Option.some.inj same]
    exact short
  have behind : (openBrace :: (token ++ [closeBrace]) ++ rest).drop (token.length + 2) = rest :=
    List.drop_left' (by simp)
  rw [referenceText, List.cons_append] at held ⊢
  rw [expandFrom, held]
  dsimp only
  rw [foldlM_push fits]
  dsimp only
  rw [expandFrom_eq, behind]

theorem expandFrom_letter {cap : Nat} {byte : UInt8} {rest out : Bytes}
    (bare : reference (byte :: rest) = none) (fits : out.length + 1 < cap) :
    expandFrom env root cap out 0 (byte :: rest) =
      expandFrom env root cap (out ++ [byte]) 0 rest := by
  have held : replaceable (byte :: rest) = none := by
    rw [replaceable_eq, bare]
    intro token same
    rw [bare] at same
    cases same
  rw [expandFrom, held]
  dsimp only
  rw [push, if_neg (Nat.not_le.mpr fits)]

theorem expandFrom_fits (values : Utf8Values env) (bare : 0 ∉ root) {cap : Nat} {src out : Bytes}
    (plain : 0 ∉ src) (names : NamesFit src)
    (fits : out.length + (expandEnvValue env root src).length < cap) :
    expandFrom env root cap out 0 src = some (out ++ expandEnvValue env root src) := by
  induction src using references_induction generalizing out with
  | nil =>
      have room : ¬out.length ≥ cap := Nat.not_le.mpr fits
      rw [expandFrom, if_neg room]
      exact congrArg some (List.append_nil out).symm
  | token token rest closed ih =>
      have listed : tokens (referenceText token ++ rest) = token :: tokens rest :=
        scan_reference _ _ closed rest
      rw [NamesFit, listed, List.forall_mem_cons] at names
      rw [List.mem_append, not_or] at plain
      have inner : 0 ∉ token := fun member => plain.1 (by simp [referenceText, member])
      have given := replacement_eq values bare inner
      rw [expandEnvValue, scan_reference _ _ closed, ← given, List.length_append] at fits
      have room : out.length + (replacement env root token).length < cap := by omega
      have later : (out ++ replacement env root token).length +
          (expandEnvValue env root rest).length < cap := by
        rw [List.length_append, Nat.add_assoc]
        exact fits
      calc expandFrom env root cap out 0 (referenceText token ++ rest)
          = expandFrom env root cap (out ++ replacement env root token) 0 rest :=
            expandFrom_reference closed names.1 room
        _ = some (out ++ replacement env root token ++ expandEnvValue env root rest) :=
            ih plain.2 names.2 later
        _ = some (out ++ expandEnvValue env root (referenceText token ++ rest)) := by
            rw [expandEnvValue, expandEnvValue, scan_reference _ _ closed, given, List.append_assoc]
  | letter byte rest letter ih =>
      have listed : tokens (byte :: rest) = tokens rest := scan_letter _ _ letter
      rw [NamesFit, listed] at names
      rw [List.mem_cons, not_or] at plain
      rw [expandEnvValue, scan_letter _ _ letter, List.length_append, List.length_singleton] at fits
      have room : out.length + 1 < cap := by omega
      have later : (out ++ [byte]).length + (expandEnvValue env root rest).length < cap := by
        rw [List.length_append, List.length_singleton, Nat.add_assoc]
        exact fits
      calc expandFrom env root cap out 0 (byte :: rest)
          = expandFrom env root cap (out ++ [byte]) 0 rest := expandFrom_letter letter room
        _ = some (out ++ [byte] ++ expandEnvValue env root rest) := ih plain.2 names later
        _ = some (out ++ expandEnvValue env root (byte :: rest)) := by
            rw [expandEnvValue, expandEnvValue, scan_letter _ _ letter, List.append_assoc]

/-- A value that fits its buffer with the NUL behind it is expanded as the runtime expands it. -/
theorem expand_eq (values : Utf8Values env) (bare : 0 ∉ root) {cap : Nat} {src : Bytes}
    (plain : 0 ∉ src) (names : NamesFit src) (fits : (expandEnvValue env root src).length < cap) :
    expand env root cap src = some (expandEnvValue env root src) := by
  have room : ([] : Bytes).length + (expandEnvValue env root src).length < cap := by
    rw [List.length_nil, Nat.zero_add]
    exact fits
  exact expandFrom_fits values bare plain names room

theorem expandEnvValue_utf8 (values : Utf8Values env) (held : Utf8CString root) {val : Bytes}
    (printable : ∀ byte ∈ val, IsPrintable byte) : Utf8CString (expandEnvValue env root val) := by
  apply scan_induction utf8CString_nil (fun _ _ => Utf8CString.append)
  · intro token _ inside
    have name : 0 ∉ (splitDefault token).1 := fun member =>
      (printable 0 (inside 0 (mem_splitDefault (Or.inl member)))).ne_zero rfl
    have word : Utf8CString ((splitDefault token).2.getD []) :=
      utf8CString_of_printable fun byte member =>
        printable byte (inside byte (mem_splitDefault (Or.inr member)))
    rw [substituted]
    split
    · next value given =>
        have resolves := (Option.filter_eq_some_iff.mp given).1
        rw [resolved] at resolves
        split at resolves
        · rw [← Option.some.inj resolves]
          exact held
        · rw [values.var name] at resolves
          exact values _ value resolves
    · exact word
  · intro byte member
    apply utf8CString_of_printable
    intro other same
    rw [List.mem_singleton.mp same]
    exact printable byte member

/-! ### A value that wraps its own variable -/

theorem alreadyAppliedFrom_eq (key before : Bytes) (skip : Nat) (src : Bytes) :
    alreadyAppliedFrom env root key before skip src =
      alreadyAppliedFrom env root key (before ++ src.take skip) 0 (src.drop skip) := by
  induction src generalizing skip before with
  | nil =>
      cases skip with
      | zero => rw [List.take_nil, List.append_nil]; rfl
      | succ skip => rfl
  | cons byte src ih =>
      cases skip with
      | zero => rw [List.take_zero, List.append_nil]; rfl
      | succ skip =>
          rw [alreadyAppliedFrom, ih, List.take_succ_cons, List.drop_succ_cons, List.append_assoc]
          rfl

theorem alreadyAppliedFrom_reference {key before token rest : Bytes} (closed : closeBrace ∉ token) :
    alreadyAppliedFrom env root key before 0 (referenceText token ++ rest) =
      if (splitDefault token).1 = cString key then wrapsCurrent env root key before rest
      else alreadyAppliedFrom env root key (before ++ referenceText token) 0 rest := by
  have opens : [36, 123] <+: referenceText token ++ rest := ⟨token ++ [closeBrace] ++ rest, rfl⟩
  have parted : splitOnce 125 (token ++ [closeBrace] ++ rest) = some (token, rest) := by
    rw [List.append_assoc]
    exact splitOnce_append closed rest
  have taken : (openBrace :: (token ++ [closeBrace] ++ rest)).take (token.length + 2) =
      openBrace :: (token ++ [closeBrace]) := by
    rw [← List.cons_append]
    exact List.take_left' (by simp)
  have behind : (openBrace :: (token ++ [closeBrace] ++ rest)).drop (token.length + 2) = rest := by
    rw [← List.cons_append]
    exact List.drop_left' (by simp)
  rw [referenceText, List.cons_append, List.cons_append] at opens ⊢
  rw [alreadyAppliedFrom, if_pos opens, List.drop_succ_cons, List.drop_zero, parted]
  dsimp only
  rw [nameAndWord_eq]
  split
  · rfl
  · rw [alreadyAppliedFrom_eq, taken, behind, List.append_assoc]
    rfl

theorem alreadyAppliedFrom_letter {key before rest : Bytes} {byte : UInt8}
    (bare : reference (byte :: rest) = none) :
    alreadyAppliedFrom env root key before 0 (byte :: rest) =
      if Opens (byte :: rest) then false
      else alreadyAppliedFrom env root key (before ++ [byte]) 0 rest := by
  rw [alreadyAppliedFrom]
  by_cases opens : Opens (byte :: rest)
  · have unclosed := reference_eq_none bare opens
    rw [List.drop_succ_cons] at unclosed
    have missing : splitOnce 125 (rest.drop 1) = none := unclosed
    have marked : [36, 123] <+: byte :: rest := opens
    rw [if_pos marked, if_pos opens, missing]
  · have unmarked : ¬[36, 123] <+: byte :: rest := opens
    rw [if_neg unmarked, if_neg opens]

/-- The constructor looks for the reference that the runtime splits a value at. -/
theorem alreadyAppliedFrom_split (key before src : Bytes) :
    alreadyAppliedFrom env root key before 0 src =
      match splitFrom (cString key) before 0 src with
      | none => false
      | some (lead, tail) => wrapsCurrent env root key lead tail := by
  induction src using references_induction generalizing before with
  | nil => rfl
  | token token rest closed ih =>
      rw [alreadyAppliedFrom_reference closed, splitFrom_reference closed]
      split
      · rfl
      · exact ih _
  | letter byte rest bare ih =>
      rw [alreadyAppliedFrom_letter bare, splitFrom_letter bare]
      split
      · rfl
      · exact ih _

/-- What `wraps_current` compares fits the buffers it is expanded into. -/
theorem wrapsCurrent_eq (values : Utf8Values env) (held : Utf8CString root)
    {key before after : Bytes} (name : 0 ∉ key) (lead : ∀ byte ∈ before, IsPrintable byte)
    (tail : ∀ byte ∈ after, IsPrintable byte) (names : NamesFit before ∧ NamesFit after)
    (fits : current env key ≠ [] → (expandEnvValue env root before).length < wrapCapacity ∧
      (expandEnvValue env root after).length < wrapCapacity) :
    wrapsCurrent env root key before after =
      (current env key ≠ [] &&
        (expandEnvValue env root before).length + (expandEnvValue env root after).length ≤
            (current env key).length &&
          expandEnvValue env root before <+: current env key &&
            expandEnvValue env root after <:+ current env key) := by
  rw [current, values.var name] at fits ⊢
  rw [wrapsCurrent, cString_of_bare name]
  cases found : env key with
  | none => rfl
  | some value =>
      rw [found] at fits
      dsimp only [Option.getD_some] at fits ⊢
      rw [cString_of_bare (values key value found).bare]
      by_cases empty : value = []
      · rw [empty]
        rfl
      · have room := fits empty
        have first := expandEnvValue_utf8 values held lead
        have second := expandEnvValue_utf8 values held tail
        rw [expand_eq values held.bare (utf8CString_of_printable lead).bare names.1 room.1,
          expand_eq values held.bare (utf8CString_of_printable tail).bare names.2 room.2]
        dsimp only
        simp only [cString_of_bare first.bare, cString_of_bare second.bare, Bool.and_assoc,
          ge_iff_le]

/-- A line's key, references and expansions fit the constructor's buffers: the value where it is
expanded, and what it wraps around its own variable where that is compared. -/
structure Fits (env : Env) (root key val : Bytes) : Prop where
  short : key.length < keyCapacity
  names : NamesFit val
  wraps : ∀ before after, splitAtSelfReference key val = some (before, after) →
    current env key ≠ [] → (expandEnvValue env root before).length < wrapCapacity ∧
      (expandEnvValue env root after).length < wrapCapacity
  room : Runtime.CustomEnv.alreadyApplied env root key val = false →
    (expandEnvValue env root val).length < valueCapacity

theorem alreadyApplied_eq (values : Utf8Values env) (held : Utf8CString root) {key val : Bytes}
    (name : 0 ∉ key) (printable : ∀ byte ∈ val, IsPrintable byte) (fits : Fits env root key val) :
    alreadyApplied env root key val = Runtime.CustomEnv.alreadyApplied env root key val := by
  rw [alreadyApplied, alreadyAppliedFrom_split, Runtime.CustomEnv.alreadyApplied,
    cString_of_bare name, show splitFrom key [] 0 val = splitAtSelfReference key val from rfl]
  cases split : splitAtSelfReference key val with
  | none => rfl
  | some parts =>
      rcases splitAtSelfReference_eq_some split with ⟨token, whole, -, scans⟩
      have listed : tokens val = tokens parts.1 ++ ([token] ++ tokens parts.2) := scans _ _
      have names := fits.names
      rw [NamesFit, listed] at names
      apply wrapsCurrent_eq values held name
      · intro byte member
        apply printable
        rw [whole]
        exact List.mem_append_left _ member
      · intro byte member
        apply printable
        rw [whole]
        exact List.mem_append_right _ (List.mem_append_right _ member)
      · constructor
        · intro other member
          exact names other (List.mem_append_left _ member)
        · intro other member
          exact names other (List.mem_append_right _ (List.mem_append_right _ member))
      · exact fits.wraps _ _ split

/-! ### The lines -/

/-- A key and a value as a printable line gives them. -/
structure Assigned (key val : Bytes) : Prop where
  name : ∀ byte ∈ key, IsPrintable byte
  unequal : 61 ∉ key
  value : ∀ byte ∈ val, IsPrintable byte

theorem applyAssignment_eq (values : Utf8Values env) (held : Utf8CString root) (some : root ≠ [])
    {key val : Bytes} (assigned : Assigned key val) (named : key ≠ []) (fits : Fits env root key val) :
    applyAssignment root env (key, val) =
      Runtime.CustomEnv.applyAssignment root env (key, val) := by
  have name := (utf8CString_of_printable assigned.name).bare
  have expanded := expandEnvValue_utf8 values held assigned.value
  have tree : ¬Runtime.CustomEnv.NeedsTree root val := fun needs => some needs.1
  rw [applyAssignment, Runtime.CustomEnv.applyAssignment, if_neg tree,
    alreadyApplied_eq values held name assigned.value fits]
  cases applied : Runtime.CustomEnv.alreadyApplied env root key val with
  | true => rfl
  | false =>
      have refused : ¬Runtime.CustomEnv.Refused key (expandEnvValue env root val) := by
        rw [Runtime.CustomEnv.Refused, not_or, not_or, not_or]
        exact ⟨named, assigned.unequal, name, expanded.bare⟩
      rw [if_neg Bool.false_ne_true, if_neg Bool.false_ne_true, setVarChecked, if_neg refused,
        expand_eq values held.bare (utf8CString_of_printable assigned.value).bare fits.names
          (fits.room applied)]
      dsimp only
      rw [cString_of_bare name, if_neg named, cString_of_bare expanded.bare]

theorem applyAssignment_utf8 (values : Utf8Values env) (held : Utf8CString root) {key val : Bytes}
    (assigned : Assigned key val) :
    Utf8Values (Runtime.CustomEnv.applyAssignment root env (key, val)) := by
  rw [Runtime.CustomEnv.applyAssignment]
  split
  · exact values
  · split
    · exact values
    · rw [setVarChecked]
      split
      · exact values
      · exact values.setenv (expandEnvValue_utf8 values held assigned.value)

end

/-- What the two passes read off a line, before the constructor drops what does not fit. -/
def parsed (line : Bytes) : Option (Bytes × Bytes) :=
  if trim line = [] ∨ (trim line).head? = some 35 then none
  else (splitOnce 61 (trim line)).map fun (key, val) => (trim key, trim val)

/-- The constructor passes over an unnamed line and one whose key does not fit its buffer. -/
def Passes (assigned : Bytes × Bytes) : Bool :=
  assigned.1 ≠ [] && assigned.1.length < keyCapacity

theorem mem_of_mem_trim {line : Bytes} {byte : UInt8} (member : byte ∈ trim line) :
    byte ∈ line :=
  (List.dropWhile_sublist isBlank).subset ((List.rdropWhile_prefix isBlank _).subset member)

theorem parsed_assigned {line key val : Bytes} (printable : ∀ byte ∈ line, IsPrintable byte)
    (read : parsed line = some (key, val)) : Assigned key val := by
  rw [parsed] at read
  split at read
  · cases read
  · rcases Option.map_eq_some_iff.mp read with ⟨⟨key', val'⟩, found, same⟩
    rcases Prod.mk.inj same with ⟨first, second⟩
    have parts := splitOnce_eq_some.mp found
    have inner : ∀ byte ∈ key' ++ 61 :: val', IsPrintable byte := by
      rw [← parts.2]
      intro byte member
      exact printable byte (mem_of_mem_trim member)
    rw [← first, ← second]
    constructor
    · intro byte member
      exact inner byte (List.mem_append_left _ (mem_of_mem_trim member))
    · intro member
      exact parts.1 (mem_of_mem_trim member)
    · intro byte member
      exact inner byte (List.mem_append_right _ (List.mem_cons_of_mem _ (mem_of_mem_trim member)))

theorem assignment_eq (line : Bytes) : assignment line = (parsed line).filter Passes := by
  rw [assignment, parsed]
  split
  · rfl
  · cases splitOnce 61 (trim line) with
    | none => rfl
    | some parts =>
        dsimp only
        rw [Option.map_some, Option.filter_some, Passes]
        by_cases unnamed : trim parts.1 = []
        · rw [if_pos unnamed]
          simp [unnamed]
        · rw [if_neg unnamed]
          by_cases long : (trim parts.1).length + 1 > keyCapacity
          · have wide : ¬(trim parts.1).length < keyCapacity := by omega
            rw [if_pos long]
            simp [wide]
          · have short : (trim parts.1).length < keyCapacity := by omega
            rw [if_neg long]
            simp [unnamed, short]

/-! ### Reading a printable text -/

theorem isWhitespace_charOf {byte : UInt8} (printable : IsPrintable byte) (whole : byte ≠ 10) :
    Str.isWhitespace (charOf byte) = isBlank byte := by
  have small : byte.toNat < 128 := printable.ascii
  have other : byte.toNat ≠ 10 := fun same => whole (UInt8.toNat_inj.mp same)
  have low : byte.toNat = 32 ∨ byte.toNat = 9 ∨ byte.toNat = 13 ∨ 32 < byte.toNat := by
    rcases printable with ⟨above, -⟩ | same | same | same
    · have above : 32 ≤ byte.toNat := above
      omega
    · rw [same]
      exact Or.inr (Or.inl rfl)
    · exact absurd same whole
    · rw [same]
      exact Or.inr (Or.inr (Or.inl rfl))
  rw [Bool.eq_iff_iff]
  simp only [Str.isWhitespace, isBlank, toNat_charOf, Bool.or_eq_true, Bool.and_eq_true,
    decide_eq_true_eq, beq_iff_eq, ← UInt8.toNat_inj, UInt8.reduceToNat]
  omega

theorem trim_line {line : Bytes} (printable : ∀ byte ∈ line, IsPrintable byte) (whole : 10 ∉ line) :
    Str.trim (chars line) = chars (trim line) := by
  apply trim_chars
  intro byte member
  apply isWhitespace_charOf (printable byte member)
  intro same
  exact whole (same ▸ member)

theorem head_chars (line : Bytes) : (chars line).head? = some '#' ↔ line.head? = some 35 := by
  cases line with
  | nil => simp [chars]
  | cons byte line =>
      have mark : '#' = charOf 35 := rfl
      rw [chars, List.map_cons, List.head?_cons, List.head?_cons, mark, Option.some_inj,
        Option.some_inj, charOf_eq_iff]

/-- A line read as text is the line read as bytes. -/
theorem assignment_chars {line : Bytes} (printable : ∀ byte ∈ line, IsPrintable byte)
    (whole : 10 ∉ line) : Runtime.CustomEnv.assignment (chars line) = parsed line := by
  have inner : ∀ byte ∈ trim line, IsPrintable byte :=
    fun byte member => printable byte (mem_of_mem_trim member)
  have unbroken : 10 ∉ trim line := fun member => whole (mem_of_mem_trim member)
  have passed : (chars (trim line) = [] ∨ (chars (trim line)).head? = some '#') ↔
      (trim line = [] ∨ (trim line).head? = some 35) := by
    rw [head_chars, chars, List.map_eq_nil_iff]
  have mark : '=' = charOf 61 := rfl
  rw [Runtime.CustomEnv.assignment, parsed, trim_line printable whole, mark, splitOnce_chars]
  by_cases skipped : trim line = [] ∨ (trim line).head? = some 35
  · rw [if_pos skipped, if_pos (passed.mpr skipped)]
  · rw [if_neg skipped, if_neg fun held => skipped (passed.mp held)]
    cases found : splitOnce 61 (trim line) with
    | none => rfl
    | some parts =>
        rcases parts with ⟨key, val⟩
        have split := (splitOnce_eq_some.mp found).2
        rw [split] at inner unbroken
        rw [List.mem_append, List.mem_cons, not_or, not_or] at unbroken
        rw [List.forall_mem_append, List.forall_mem_cons] at inner
        rw [Option.map_some, Option.map_some, Option.map_some]
        dsimp only
        rw [trim_line inner.1 unbroken.1, trim_line inner.2.2 unbroken.2.2,
          encodeUtf8_chars fun byte member => (inner.1 byte (mem_of_mem_trim member)).ascii,
          encodeUtf8_chars fun byte member => (inner.2.2 byte (mem_of_mem_trim member)).ascii]

/-- The carriage return that ends a line is trimmed with the rest. -/
theorem assignment_dropReturn (line : Str) :
    Runtime.CustomEnv.assignment (Str.dropReturn line) = Runtime.CustomEnv.assignment line := by
  rw [Runtime.CustomEnv.assignment, trim_dropReturn]
  rfl

/-- The lines of the text are the lines of the bytes, from any line begun. -/
theorem linesFrom_chars {held text : Bytes} (whole : 10 ∉ held)
    (printable : ∀ byte ∈ held ++ text, IsPrintable byte) :
    (Str.linesFrom (chars held) (chars text)).filterMap Runtime.CustomEnv.assignment =
      (linesFrom held text).filterMap parsed := by
  induction text generalizing held with
  | nil =>
      rw [List.append_nil] at printable
      have read := assignment_chars printable whole
      rw [show chars [] = [] from rfl, Str.linesFrom, linesFrom]
      by_cases empty : held = []
      · rw [if_pos empty, if_pos (chars_eq_nil.mpr empty)]
        rfl
      · rw [if_neg empty, if_neg fun none => empty (chars_eq_nil.mp none),
          List.filterMap_cons, List.filterMap_cons, read]
        rfl
  | cons byte text ih =>
      have mark : '\n' = charOf 10 := rfl
      have same : charOf byte = '\n' ↔ byte = 10 := by rw [mark, charOf_eq_iff]
      rw [show chars (byte :: text) = charOf byte :: chars text from rfl, Str.linesFrom, linesFrom]
      rw [List.forall_mem_append, List.forall_mem_cons] at printable
      by_cases feed : byte = 10
      · have read := assignment_chars printable.1 whole
        have rest := @ih [] List.not_mem_nil printable.2.2
        rw [if_pos feed, if_pos (same.mpr feed), List.filterMap_cons, List.filterMap_cons,
          assignment_dropReturn, read, ← rest]
        rfl
      · have longer : chars held ++ [charOf byte] = chars (held ++ [byte]) :=
          (chars_append held [byte]).symm
        rw [if_neg feed, if_neg fun equal => feed (same.mp equal), longer]
        apply ih
        · rw [List.mem_append, List.mem_singleton, not_or]
          exact ⟨whole, Ne.symm feed⟩
        · rw [List.forall_mem_append, List.forall_mem_append, List.forall_mem_singleton]
          exact ⟨⟨printable.1, printable.2.1⟩, printable.2.2⟩

theorem assignments_eq {text : Bytes} (printable : ∀ byte ∈ text, IsPrintable byte) :
    Runtime.CustomEnv.assignments text = (linesFrom [] text).filterMap parsed := by
  have ascii : ∀ byte ∈ text, byte < 0x80 := fun byte member => (printable byte member).ascii
  rw [Runtime.CustomEnv.assignments, if_pos (validUtf8_of_ascii ascii), fromUtf8Lossy_ascii ascii]
  exact linesFrom_chars List.not_mem_nil printable

/-- The constructor applies the lines that the runtime reads, less the ones it passes over. -/
theorem constructor_assignments {text : Bytes} (printable : ∀ byte ∈ text, IsPrintable byte) :
    (linesFrom [] text).filterMap assignment =
      (Runtime.CustomEnv.assignments text).filter Passes := by
  rw [assignments_eq printable, List.filter_filterMap]
  apply List.filterMap_congr
  intro line _
  exact assignment_eq line

theorem mem_linesFrom {held text line : Bytes} {byte : UInt8} (member : line ∈ linesFrom held text)
    (inside : byte ∈ line) : byte ∈ held ++ text := by
  induction text generalizing held with
  | nil =>
      rw [linesFrom] at member
      split at member
      · cases member
      · rw [List.mem_singleton] at member
        rw [List.append_nil, ← member]
        exact inside
  | cons first text ih =>
      rw [linesFrom] at member
      split at member
      · rcases List.mem_cons.mp member with same | later
        · rw [← same]
          exact List.mem_append_left _ inside
        · exact List.mem_append_right _ (List.mem_cons_of_mem _ (ih later))
      · have moved := ih member
        rw [List.append_assoc] at moved
        exact moved

theorem assigned_of_mem {text : Bytes} (printable : ∀ byte ∈ text, IsPrintable byte)
    {key val : Bytes} (member : (key, val) ∈ Runtime.CustomEnv.assignments text) :
    Assigned key val := by
  rw [assignments_eq printable] at member
  rcases List.mem_filterMap.mp member with ⟨line, listed, read⟩
  apply parsed_assigned ?_ read
  intro byte inside
  exact printable byte (mem_linesFrom listed inside)

/-! ### Whole runs -/

/-- Every line of a run fits in the environment it is applied to. -/
def RunFits (root : Bytes) : Env → List (Bytes × Bytes) → Prop
  | _, [] => True
  | env, (key, val) :: rest =>
      Fits env root key val ∧
        RunFits root (Runtime.CustomEnv.applyAssignment root env (key, val)) rest

/-- A line without a name sets nothing. -/
theorem applyAssignment_unnamed (env : Env) (root val : Bytes) :
    Runtime.CustomEnv.applyAssignment root env ([], val) = env := by
  have refused : Runtime.CustomEnv.Refused [] (expandEnvValue env root val) := Or.inl rfl
  rw [Runtime.CustomEnv.applyAssignment, setVarChecked, if_pos refused, ite_self, ite_self]

theorem foldl_applyAssignment_eq {root : Bytes} (held : Utf8CString root) (some : root ≠ [])
    {lines : List (Bytes × Bytes)} (assigned : ∀ line ∈ lines, Assigned line.1 line.2) {env : Env}
    (values : Utf8Values env) (fits : RunFits root env lines) :
    (lines.filter Passes).foldl (applyAssignment root) env =
      lines.foldl (Runtime.CustomEnv.applyAssignment root) env := by
  induction lines generalizing env with
  | nil => rfl
  | cons line lines ih =>
      rcases line with ⟨key, val⟩
      rw [List.forall_mem_cons] at assigned
      rcases fits with ⟨fit, later⟩
      have kept := applyAssignment_utf8 values held assigned.1
      rw [List.foldl_cons]
      by_cases unnamed : key = []
      · have dropped : Passes (key, val) = false := by
          rw [Passes, unnamed]
          rfl
        have still := applyAssignment_unnamed env root val
        rw [unnamed] at later ⊢
        rw [still] at later ⊢
        rw [unnamed] at dropped
        rw [List.filter_cons_of_neg (by rw [dropped]; exact Bool.false_ne_true)]
        exact ih assigned.2 values later
      · have passes : Passes (key, val) = true := by
          rw [Passes, Bool.and_eq_true, decide_eq_true_eq, decide_eq_true_eq]
          exact ⟨unnamed, fit.short⟩
        rw [List.filter_cons_of_pos passes, List.foldl_cons,
          applyAssignment_eq values held some assigned.1 unnamed fit]
        exact ih assigned.2 kept later

/-- The runtime's pass and the constructor's pass leave the same environment. -/
theorem applyEnvBytes_eq_applyCustomEnv {text root : Bytes} {env : Env}
    (printable : ∀ byte ∈ text, IsPrintable byte) (held : Utf8CString root) (some : root ≠ [])
    (values : Utf8Values env) (fits : RunFits root env (Runtime.CustomEnv.assignments text)) :
    Runtime.CustomEnv.applyCustomEnv env text root = applyEnvBytes env text root := by
  rw [Runtime.CustomEnv.applyCustomEnv, applyEnvBytes, constructor_assignments printable]
  symm
  apply foldl_applyAssignment_eq held some ?_ values fits
  rintro ⟨key, val⟩ member
  exact assigned_of_mem printable member

/-! ### A search path wrapped around its own variable -/

def pathEnv : Env := fun name => if name = utf8 "PATH" then some (utf8 "/usr/bin") else none

def pathText : Bytes := utf8 "# search\n\tPATH = ${ONELF_DIR}/bin:${PATH:-/bin} \r\n"

def pathValue : Bytes := utf8 "${ONELF_DIR}/bin:${PATH:-/bin}"

theorem pathEnv_utf8 : Utf8Values pathEnv := by
  intro name value found
  rw [pathEnv] at found
  split at found
  · rw [← Option.some.inj found]
    exact ⟨by decide, by decide⟩
  · cases found

theorem pathText_fits :
    RunFits (utf8 "/app") pathEnv (Runtime.CustomEnv.assignments pathText) := by
  have read : Runtime.CustomEnv.assignments pathText = [(utf8 "PATH", pathValue)] := by
    decide +kernel
  rw [read]
  refine ⟨⟨by decide, ?_, ?_, ?_⟩, trivial⟩
  · have listed : tokens pathValue = [utf8 "ONELF_DIR", utf8 "PATH:-/bin"] := by decide +kernel
    rw [NamesFit, listed]
    decide +kernel
  · intro before after split _
    have parted : splitAtSelfReference (utf8 "PATH") pathValue =
        some (utf8 "${ONELF_DIR}/bin:", []) := by decide +kernel
    rcases Prod.mk.inj (Option.some.inj (parted.symm.trans split)) with ⟨first, second⟩
    rw [← first, ← second]
    decide +kernel
  · intro _
    decide +kernel

theorem applyEnvBytes_eq_applyCustomEnv_path :
    Runtime.CustomEnv.applyCustomEnv pathEnv pathText (utf8 "/app") =
      applyEnvBytes pathEnv pathText (utf8 "/app") := by
  apply applyEnvBytes_eq_applyCustomEnv ?_ ⟨by decide, by decide⟩ (by decide) pathEnv_utf8
    pathText_fits
  have kept : ∀ byte ∈ pathText,
      (32 ≤ byte ∧ byte ≤ 126) ∨ byte = 9 ∨ byte = 10 ∨ byte = 13 := by decide +kernel
  exact kept

end Onelf.Payloads.Constructor
