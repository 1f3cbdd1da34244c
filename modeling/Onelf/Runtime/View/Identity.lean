import Onelf.Format.Resolve
import Onelf.Format.Selection
import Onelf.Lib.Delimited
import Onelf.Lib.Replace

/-! The identity of one launch-visible view (`view` of `onelf-rt/src/links.rs`). -/

namespace Onelf.Runtime.View

open Onelf.Lib Onelf.Format

def maxEntryName : Nat := 128
def maxLoaderBytes : Nat := 4096
def maxViewLinks : Nat := 256
def maxLinkName : Nat := 255
def maxLinkTarget : Nat := 1024
def maxEnvBytes : Nat := 1024 * 1024
def viewKeyBytes : Nat := 16

def layout : Nat := 1

/-- What an occurrence of the execution root is replaced by in the environment input. -/
def rootToken : Bytes := utf8 "<view>"

structure ViewInputs where
  uid : Nat
  package : Digest
  metadata : Option Digest
  pins : List ActivePin
  policy : HostLibsPolicy
  hostLibc : Bool
  loader : Option Bytes
  entrypoint : Option Bytes
  links : SortedMap Bytes Bytes
  runtimeEnv : Bytes
  root : Bytes

structure ViewIdentity where
  uid : Nat
  canonical : Bytes
  key : Bytes

def policyName : HostLibsPolicy → Bytes
  | .never => utf8 "never"
  | .auto => utf8 "auto"
  | .always => utf8 "always"

/-! ### Bounds -/

def admittedEntry (name : Bytes) : Bool :=
  !name.isEmpty && name.length ≤ maxEntryName && name.all fun byte => !isControl byte

def admittedLoader (loader : Bytes) : Bool :=
  !loader.isEmpty && loader.length ≤ maxLoaderBytes && !loader.contains 0

def admittedLink (name target : Bytes) : Bool :=
  !name.isEmpty && name.length ≤ maxLinkName && !name.contains 47 && !name.contains 0 &&
    !target.isEmpty && target.length ≤ maxLinkTarget && !target.contains 0

/-- The environment input with every occurrence of the execution root replaced; `none` past the
bound or carrying NUL. -/
def normalizedEnv (env root : Bytes) : Option Bytes :=
  if env.length > maxEnvBytes || env.contains 0 then none
  else if root.isEmpty || root.contains 0 then some env
  else some (replaceAll root rootToken env)

/-! ### The canonical text -/

def viewHeader : Bytes := utf8 "onelf-view " ++ (decimal layout ++ [lineFeed])

/-- `<tag> <len>:<bytes>` and a newline. -/
def pushValue (tag value : Bytes) : Bytes :=
  tag ++ ([32] ++ (decimal value.length ++ [58] ++ value ++ [lineFeed]))

/-- `<tag> -` and a newline: the value is absent. -/
def pushAbsent (tag : Bytes) : Bytes := tag ++ ([32] ++ utf8 "-\n")

def pushOption (tag : Bytes) : Option Bytes → Bytes
  | some value => pushValue tag value
  | none => pushAbsent tag

def uidLine (uid : Nat) : Bytes := utf8 "uid " ++ (decimal uid ++ [lineFeed])

def packageLine (package : Digest) : Bytes :=
  utf8 "package " ++ (hexPrefix package.bytes ++ [lineFeed])

def metadataLine : Option Digest → Bytes
  | some digest => utf8 "meta " ++ (hexPrefix digest.bytes ++ [lineFeed])
  | none => utf8 "meta -\n"

def policyLine (policy : HostLibsPolicy) : Bytes :=
  utf8 "policy " ++ (policyName policy ++ [lineFeed])

def shadowLine (hostLibc : Bool) : Bytes :=
  utf8 "shadow " ++ ((if hostLibc then utf8 "y" else utf8 "n") ++ [lineFeed])

def linkLine (link : Bytes × Bytes) : Bytes :=
  utf8 "link " ++ ((decimal link.1.length ++ [58] ++ link.1 ++ utf8 "\t") ++
    (decimal link.2.length ++ [58] ++ link.2 ++ [lineFeed]))

def linkLines (links : List (Bytes × Bytes)) : Bytes :=
  utf8 "links " ++ (decimal links.length ++ [lineFeed] ++ links.flatMap linkLine)

/-- The canonical text: fixed scalar lines, then every value length-prefixed. -/
def canonicalText (inputs : ViewInputs) (selection env : Bytes) : Bytes :=
  viewHeader ++ (uidLine inputs.uid ++ (packageLine inputs.package ++
    (metadataLine inputs.metadata ++ (policyLine inputs.policy ++ (shadowLine inputs.hostLibc ++
      (pushOption (utf8 "loader") inputs.loader ++ (pushOption (utf8 "entry") inputs.entrypoint ++
        (pushValue (utf8 "pins") selection ++ (linkLines inputs.links.entries ++
          pushValue (utf8 "env") env)))))))))

/-- The identity of `inputs`, or `none` when an input lies outside the bounds. -/
def ViewIdentity.new (blake3 : Bytes → Bytes) (inputs : ViewInputs) : Option ViewIdentity := do
  let selection ← SelectionIdentity.new blake3 inputs.pins
  guard (inputs.entrypoint.all admittedEntry)
  guard (inputs.loader.all admittedLoader)
  guard (inputs.links.entries.length ≤ maxViewLinks)
  guard (inputs.links.entries.all fun link => admittedLink link.1 link.2)
  let env ← normalizedEnv inputs.runtimeEnv inputs.root
  let canonical := canonicalText inputs selection.canonical env
  some ⟨inputs.uid, canonical, hexPrefix ((blake3 canonical).take viewKeyBytes)⟩

/-! ### The text is read one way -/

theorem hexByte_injective : Function.Injective fun byte : UInt8 =>
    [hexDigit (byte.toNat / 16), hexDigit (byte.toNat % 16)] := by
  intro left right same
  have high := hexValue_hexDigit (Nat.div_lt_of_lt_mul left.toNat_lt : left.toNat / 16 < 16)
  have high' := hexValue_hexDigit (Nat.div_lt_of_lt_mul right.toNat_lt : right.toNat / 16 < 16)
  have low := hexValue_hexDigit (Nat.mod_lt left.toNat (by decide : 16 > 0))
  have low' := hexValue_hexDigit (Nat.mod_lt right.toNat (by decide : 16 > 0))
  rcases List.cons.inj same with ⟨highs, lows⟩
  rw [highs, high'] at high
  rw [(List.cons.inj lows).1, low'] at low
  have upper := Option.some.inj high
  have lower := Option.some.inj low
  exact UInt8.toNat_inj.mp (by omega)

theorem hexPrefix_injective : Function.Injective hexPrefix := by
  intro left
  induction left with
  | nil =>
      intro right same
      cases right with
      | nil => rfl
      | cons byte right => cases same
  | cons byte left ih =>
      intro right same
      cases right with
      | nil => cases same
      | cons other right =>
          rw [hexPrefix, hexPrefix, List.flatMap_cons, List.flatMap_cons] at same
          rcases List.append_inj same rfl with ⟨heads, tails⟩
          rw [hexByte_injective heads, ih tails]

theorem length_hexPrefix (bytes : Bytes) : (hexPrefix bytes).length = 2 * bytes.length := by
  induction bytes with
  | nil => rfl
  | cons byte bytes ih =>
      rw [hexPrefix, List.flatMap_cons, List.length_append, List.length_cons]
      rw [hexPrefix] at ih
      rw [ih]
      simp only [List.length_cons, List.length_nil]
      omega

theorem delimited_digest :
    Delimited fun digest : Digest => hexPrefix digest.bytes ++ [lineFeed] := by
  have sized (digest : Digest) : (hexPrefix digest.bytes).length = 64 := by
    rw [length_hexPrefix, digest.size]
  have whole : Function.Injective fun digest : Digest => hexPrefix digest.bytes :=
    hexPrefix_injective.comp fun _ _ => Digest.ext
  exact (Delimited.fixed sized whole).before [lineFeed]

theorem delimited_uidLine : Delimited uidLine :=
  (Delimited.decimal (by decide)).behind (utf8 "uid ")

theorem delimited_packageLine : Delimited packageLine := delimited_digest.behind (utf8 "package ")

theorem isDigit_head_decimal {n : Nat} {rest : Bytes} {byte : UInt8}
    (head : (decimal n ++ rest).head? = some byte) : isDigit byte = true := by
  rw [List.head?_append_of_ne_nil _ (decimal_ne_nil n)] at head
  exact decimal_isDigit n byte (List.mem_of_head? head)

theorem isLowerHex_head_hexPrefix {bytes rest : Bytes} {byte : UInt8} (some : bytes ≠ [])
    (head : (hexPrefix bytes ++ rest).head? = Option.some byte) : isLowerHex byte = true := by
  cases bytes with
  | nil => exact absurd rfl some
  | cons first bytes =>
      rw [hexPrefix, List.flatMap_cons, List.cons_append, List.cons_append, List.head?_cons] at head
      rw [← Option.some.inj head]
      exact isLowerHex_hexDigit (Nat.div_lt_of_lt_mul first.toNat_lt)

/-- No digest is written like an absent one. -/
theorem delimited_metadataLine : Delimited metadataLine := by
  have told (digest : Digest) (rest : Bytes) :
      (hexPrefix digest.bytes ++ [lineFeed] ++ rest).head? ≠ (utf8 "-\n").head? := by
    intro dash
    have some : digest.bytes ≠ [] := List.ne_nil_of_length_pos (by rw [digest.size]; decide)
    rw [List.append_assoc] at dash
    exact absurd (isLowerHex_head_hexPrefix some dash) (by decide)
  have field := (delimited_digest.option told (by decide)).behind (utf8 "meta ")
  apply field.congr
  intro metadata
  cases metadata with
  | none => rfl
  | some digest => rfl

theorem delimited_policyLine : Delimited policyLine := by
  apply Delimited.apart
  intro left right
  cases left with
  | never => cases right <;> decide
  | auto => cases right <;> decide
  | always => cases right <;> decide

theorem delimited_shadowLine : Delimited shadowLine := by
  apply Delimited.apart
  intro left right
  cases left with
  | false => cases right <;> decide
  | true => cases right <;> decide

theorem delimited_pushValue (tag : Bytes) : Delimited (pushValue tag) :=
  (((Delimited.sized (by decide)).before [lineFeed]).behind [32]).behind tag

/-- No length begins like an absent value. -/
theorem delimited_pushOption (tag : Bytes) : Delimited (pushOption tag) := by
  have told (value rest : Bytes) :
      (decimal value.length ++ [58] ++ value ++ [lineFeed] ++ rest).head? ≠ (utf8 "-\n").head? := by
    intro dash
    simp only [List.append_assoc] at dash
    exact absurd (isDigit_head_decimal dash) (by decide)
  have field := ((((Delimited.sized (by decide)).before [lineFeed]).option told
    (by decide)).behind [32]).behind tag
  apply field.congr
  intro value
  cases value with
  | none => rfl
  | some value => rfl

theorem delimited_linkLine : Delimited linkLine :=
  (((Delimited.sized (by decide)).before (utf8 "\t")).both
    ((Delimited.sized (by decide)).before [lineFeed])).behind (utf8 "link ")

theorem delimited_linkLines : Delimited linkLines :=
  (delimited_linkLine.counted (by decide)).behind (utf8 "links ")

/-- What a view's canonical text says, but for the pins and the environment. -/
def SameParts (a b : ViewInputs) : Prop :=
  a.uid = b.uid ∧ a.package = b.package ∧ a.metadata = b.metadata ∧ a.policy = b.policy ∧
    a.hostLibc = b.hostLibc ∧ a.loader = b.loader ∧ a.entrypoint = b.entrypoint ∧ a.links = b.links

/-- The canonical text says each of its parts, and nothing else. -/
theorem canonicalText_eq_iff (a b : ViewInputs) (selection selection' env env' : Bytes) :
    canonicalText a selection env = canonicalText b selection' env' ↔
      SameParts a b ∧ selection = selection' ∧ env = env' := by
  constructor
  · intro same
    rcases delimited_uidLine _ _ _ _ (List.append_cancel_left same) with ⟨uid, same⟩
    rcases delimited_packageLine _ _ _ _ same with ⟨package, same⟩
    rcases delimited_metadataLine _ _ _ _ same with ⟨metadata, same⟩
    rcases delimited_policyLine _ _ _ _ same with ⟨policy, same⟩
    rcases delimited_shadowLine _ _ _ _ same with ⟨hostLibc, same⟩
    rcases delimited_pushOption _ _ _ _ _ same with ⟨loader, same⟩
    rcases delimited_pushOption _ _ _ _ _ same with ⟨entrypoint, same⟩
    rcases delimited_pushValue _ _ _ _ _ same with ⟨pins, same⟩
    rcases delimited_linkLines _ _ _ _ same with ⟨links, same⟩
    exact ⟨⟨uid, package, metadata, policy, hostLibc, loader, entrypoint, SortedMap.ext links⟩,
      pins, (delimited_pushValue _).injective same⟩
  · rintro ⟨⟨uid, package, metadata, policy, hostLibc, loader, entrypoint, links⟩, pins, envs⟩
    rw [canonicalText, canonicalText, uid, package, metadata, policy, hostLibc, loader, entrypoint,
      links, pins, envs]

/-! ### The environment input -/

theorem eq_of_interchanged_nil {new left right : Bytes} (some : new ≠ [])
    (interchanged : Interchanged [] new left right) : left = right := by
  have never (text : Bytes) : ¬Clear [] new text := by
    cases new with
    | nil => exact absurd rfl some
    | cons first new => exact fun clear => clear.1 List.nil_prefix
  induction interchanged with
  | nil => rfl
  | same first plain _ _ _ => exact absurd List.nil_prefix plain
  | both _ ih => exact ih
  | left clear _ _ => exact absurd clear (never _)
  | right clear _ _ => exact absurd clear (never _)

theorem eq_of_interchanged_absent {byte : UInt8} {old new left right : Bytes} (held : byte ∈ old)
    (interchanged : Interchanged old new left right) (absentLeft : byte ∉ left)
    (absentRight : byte ∉ right) : left = right := by
  induction interchanged with
  | nil => rfl
  | same first _ _ _ ih =>
      rw [ih (List.not_mem_of_not_mem_cons absentLeft) (List.not_mem_of_not_mem_cons absentRight)]
  | both _ _ => exact absurd (List.mem_append_left _ held) absentLeft
  | left _ _ _ => exact absurd (List.mem_append_left _ held) absentLeft
  | right _ _ _ => exact absurd (List.mem_append_left _ held) absentRight

theorem normalizedEnv_eq_some {env root normalized : Bytes}
    (admitted : normalizedEnv env root = some normalized) :
    0 ∉ env ∧ normalized =
      if root.isEmpty || root.contains 0 then env else replaceAll root rootToken env := by
  rw [normalizedEnv] at admitted
  split at admitted
  · cases admitted
  · next bounded =>
      have plain : 0 ∉ env := by
        intro nul
        apply bounded
        rw [Bool.or_eq_true, List.contains_iff_mem]
        exact Or.inr nul
      split at admitted
      · next unplaced => exact ⟨plain, by rw [if_pos unplaced, Option.some.inj admitted]⟩
      · next placed => exact ⟨plain, by rw [if_neg placed, Option.some.inj admitted]⟩

/-- Admitted environments come out alike where they are alike but for the root in one standing as
its token in the other. -/
theorem normalizedEnv_eq_iff {root left right normalized normalized' : Bytes}
    (admitted : normalizedEnv left root = some normalized)
    (admitted' : normalizedEnv right root = some normalized') :
    normalized = normalized' ↔ left = right ∨ Interchanged root rootToken left right := by
  rcases normalizedEnv_eq_some admitted with ⟨plain, out⟩
  rcases normalizedEnv_eq_some admitted' with ⟨plain', out'⟩
  rw [out, out']
  by_cases unplaced : (root.isEmpty || root.contains 0) = true
  · rw [if_pos unplaced, if_pos unplaced]
    constructor
    · exact Or.inl
    · intro either
      rcases either with same | interchanged
      · exact same
      · rcases Bool.or_eq_true_iff.mp unplaced with empty | nul
        · rw [List.isEmpty_iff.mp empty] at interchanged
          exact eq_of_interchanged_nil (by decide) interchanged
        · exact eq_of_interchanged_absent (List.contains_iff_mem.mp nul) interchanged plain plain'
  · rw [if_neg unplaced, if_neg unplaced]
    have placed : root ≠ [] := by
      intro empty
      exact unplaced (by rw [empty]; rfl)
    have token : rootToken = 60 :: utf8 "view>" := by decide
    rw [token, ← replaceAll_eq_iff (by decide) placed]
    constructor
    · exact Or.inr
    · intro either
      rcases either with same | replaced
      · rw [same]
      · exact replaced

/-! ### Which inputs share a text -/

theorem ViewIdentity.new_eq_some {blake3 : Bytes → Bytes} {inputs : ViewInputs}
    {identity : ViewIdentity} (built : ViewIdentity.new blake3 inputs = some identity) :
    ∃ selection env, SelectionIdentity.new blake3 inputs.pins = some selection ∧
      normalizedEnv inputs.runtimeEnv inputs.root = some env ∧
      identity.canonical = canonicalText inputs selection.canonical env := by
  simp only [ViewIdentity.new, Option.bind_eq_bind, Option.bind_eq_some_iff] at built
  rcases built with ⟨selection, selected, _, _, _, _, _, _, _, _, env, normalized, made⟩
  exact ⟨selection, env, selected, normalized, by rw [← Option.some.inj made]⟩

/-- The inputs isolate alike: each part the same, the pins as the set they denote. -/
def SameInputs (a b : ViewInputs) : Prop :=
  SameParts a b ∧ SelectionIdentity.pinSet a.pins = SelectionIdentity.pinSet b.pins ∧
    a.runtimeEnv = b.runtimeEnv

/-- The inputs differ in the environment alone, and there only in that one has the execution root
where the other has the token itself. -/
def Conflated (a b : ViewInputs) : Prop :=
  SameParts a b ∧ SelectionIdentity.pinSet a.pins = SelectionIdentity.pinSet b.pins ∧
    a.runtimeEnv ≠ b.runtimeEnv ∧ Interchanged a.root rootToken a.runtimeEnv b.runtimeEnv

theorem canonical_eq_iff {blake3 : Bytes → Bytes} {a b : ViewInputs} {ia ib : ViewIdentity}
    (builtA : ViewIdentity.new blake3 a = some ia) (builtB : ViewIdentity.new blake3 b = some ib)
    (sameRoot : a.root = b.root) :
    ia.canonical = ib.canonical ↔
      SameParts a b ∧ SelectionIdentity.pinSet a.pins = SelectionIdentity.pinSet b.pins ∧
        (a.runtimeEnv = b.runtimeEnv ∨ Interchanged a.root rootToken a.runtimeEnv b.runtimeEnv) := by
  rcases ViewIdentity.new_eq_some builtA with ⟨selection, env, selected, normalized, text⟩
  rcases ViewIdentity.new_eq_some builtB with ⟨selection', env', selected', normalized', text'⟩
  rw [← sameRoot] at normalized'
  rw [text, text', canonicalText_eq_iff, normalizedEnv_eq_iff normalized normalized',
    (SelectionIdentity.canonical_form blake3 _ _ _ _ selected selected').1]

/-- Two admitted inputs of one root share a text exactly where they isolate alike, unless their
environments are conflated. -/
theorem canonical_separates_iff (blake3 : Bytes → Bytes) (a b : ViewInputs) (ia ib : ViewIdentity)
    (builtA : ViewIdentity.new blake3 a = some ia) (builtB : ViewIdentity.new blake3 b = some ib)
    (sameRoot : a.root = b.root) :
    (ia.canonical = ib.canonical ↔ SameInputs a b) ↔ ¬Conflated a b := by
  rw [canonical_eq_iff builtA builtB sameRoot, SameInputs, Conflated]
  tauto

/-! ### A root and its token in the environment -/

/-- A launch whose environment input names a module file below `base`. -/
def placedInputs (base : Bytes) : ViewInputs where
  uid := 1000
  package := ⟨List.replicate 32 1, rfl⟩
  metadata := none
  pins := []
  policy := .auto
  hostLibc := true
  loader := none
  entrypoint := some (utf8 "app")
  links := SortedMap.empty
  runtimeEnv := utf8 "MODULES=" ++ (base ++ utf8 "/loaders.cache\n")
  root := utf8 "/run/views/a"

/-- Stands for the hash, on which the text does not depend. -/
def zeroHash (_ : Bytes) : Bytes := List.replicate 32 0

def rootedIdentity : ViewIdentity :=
  (ViewIdentity.new zeroHash (placedInputs (utf8 "/run/views/a"))).get (by decide +kernel)

def tokenIdentity : ViewIdentity :=
  (ViewIdentity.new zeroHash (placedInputs rootToken)).get (by decide +kernel)

def elsewhereIdentity : ViewIdentity :=
  (ViewIdentity.new zeroHash (placedInputs (utf8 "/elsewhere"))).get (by decide +kernel)

theorem canonical_conflates_token :
    ∃ (blake3 : Bytes → Bytes) (a b : ViewInputs) (ia ib : ViewIdentity),
      ViewIdentity.new blake3 a = some ia ∧ ViewIdentity.new blake3 b = some ib ∧
        a.root = b.root ∧ ¬(ia.canonical = ib.canonical ↔ SameInputs a b) := by
  refine ⟨zeroHash, placedInputs (utf8 "/run/views/a"), placedInputs rootToken, rootedIdentity,
    tokenIdentity, (Option.some_get _).symm, (Option.some_get _).symm, rfl, ?_⟩
  intro separated
  have same := separated.mp (by decide +kernel)
  exact absurd same.2.2 (by decide +kernel)

theorem canonical_separates_elsewhere :
    (rootedIdentity.canonical = elsewhereIdentity.canonical ↔
        SameInputs (placedInputs (utf8 "/run/views/a")) (placedInputs (utf8 "/elsewhere"))) ↔
      ¬Conflated (placedInputs (utf8 "/run/views/a")) (placedInputs (utf8 "/elsewhere")) :=
  canonical_separates_iff zeroHash _ _ rootedIdentity elsewhereIdentity (Option.some_get _).symm
    (Option.some_get _).symm rfl

end Onelf.Runtime.View
