import Mathlib.Data.Finset.Card
import Onelf.Lib.SortedMap
import Onelf.Lib.Text

/-! The canonical identity of a launch's active pin set (`resolve.rs`). -/

namespace Onelf.Format

open Onelf.Lib

/-- One active dependency set: its declaration name and its pinned digest in hex. -/
structure ActivePin where
  label : Bytes
  hash : Bytes
  deriving DecidableEq

namespace ActivePin

/-- The derived ordering: by name, then by hash. -/
def orderKey (pin : ActivePin) : Bytes ×ₗ Bytes := toLex (pin.label, pin.hash)

theorem orderKey_injective : Function.Injective orderKey := by
  intro left right same
  have pair := toLex.injective same
  cases left
  cases right
  simp_all

instance : LinearOrder ActivePin := LinearOrder.lift' orderKey orderKey_injective

end ActivePin

def maxActivePins : Nat := 4096
def maxPinLabelBytes : Nat := 128
def selectionKeyBytes : Nat := 16

/-- `str::to_ascii_lowercase`. -/
def toAsciiLowercase (text : Bytes) : Bytes :=
  text.map fun byte => if 65 ≤ byte && byte ≤ 90 then byte + 32 else byte

/-- Whether `pin` is inside the bounds a record can carry. -/
def admitted (pin : ActivePin) : Option Unit :=
  if pin.label.isEmpty || pin.label.length > maxPinLabelBytes then none
  else if pin.label.any isControl then none
  else if pin.hash.length != 64 || !pin.hash.all isLowerHex then none
  else some ()

/-- One pin's canonical record line, `pin <name length>:<name>\t<hash>`. -/
def pinLine (pin : ActivePin) : Bytes :=
  utf8 "pin " ++ decimal pin.label.length ++ utf8 ":" ++ pin.label ++ utf8 "\t" ++ pin.hash

def hexPrefix (bytes : Bytes) : Bytes :=
  bytes.flatMap fun byte => [hexDigit (byte.toNat / 16), hexDigit (byte.toNat % 16)]

/-- One step of the rendering loop: refuse the pin or append its line. -/
def pushPin (canonical : Bytes) (pin : ActivePin) : Option Bytes :=
  (admitted pin).map fun _ =>
    (if canonical.isEmpty then canonical else canonical ++ [lineFeed]) ++ pinLine pin

def lowercaseHash (pin : ActivePin) : ActivePin := { pin with hash := toAsciiLowercase pin.hash }

/-- The pins in canonical order, exact duplicates collapsed. -/
def canonicalPins (pins : List ActivePin) : List ActivePin := sortDedup (pins.map lowercaseHash)

theorem admitted_eq_some {pin : ActivePin} :
    admitted pin = some () ↔
      (pin.label ≠ [] ∧ pin.label.length ≤ maxPinLabelBytes) ∧
      (∀ byte ∈ pin.label, isControl byte = false) ∧
      pin.hash.length = 64 ∧ ∀ byte ∈ pin.hash, isLowerHex byte = true := by
  simp only [admitted, Option.ite_none_left_eq_some, Bool.or_eq_true, not_or, List.isEmpty_iff,
    decide_eq_true_eq, Nat.not_lt, Bool.not_eq_true, List.any_eq_false, bne_iff_ne, not_not,
    Bool.not_eq_eq_eq_not, Bool.not_true, Bool.not_eq_false, List.all_eq_true, and_true]

theorem pinLine_ne_nil (pin : ActivePin) : pinLine pin ≠ [] := by
  simp [pinLine, decimal_ne_nil]

/-- The length prefix makes the line injective, whatever bytes the name holds. -/
theorem pinLine_injective : Function.Injective pinLine := by
  rintro ⟨label, hash⟩ ⟨label', hash'⟩ same
  simp only [pinLine, List.append_assoc] at same
  have tail := List.append_cancel_left same
  obtain ⟨lengths, body⟩ := decimal_append_inj (by decide) tail
  change label ++ (utf8 "\t" ++ hash) = label' ++ (utf8 "\t" ++ hash') at body
  obtain ⟨labels, rest⟩ := List.append_inj body lengths
  exact congrArg₂ ActivePin.mk labels (List.append_cancel_left rest)

theorem pinLine_plain {pin : ActivePin} (inside : admitted pin = some ()) :
    PlainLine (pinLine pin) := by
  obtain ⟨_, printable, size, hex⟩ := admitted_eq_some.mp inside
  constructor
  · simp only [pinLine, List.mem_append, not_or]
    refine ⟨⟨⟨⟨⟨by decide, fun digit => ?_⟩, by decide⟩, fun label => ?_⟩, by decide⟩, fun tail => ?_⟩
    · exact absurd (decimal_isDigit _ _ digit) (by decide)
    · exact absurd (printable _ label) (by decide)
    · exact absurd (hex _ tail) (by decide)
  · have last : pin.hash ≠ [] := by
      intro empty
      simp [empty] at size
    rw [pinLine, List.getLast?_append_of_ne_nil _ last, List.getLast?_eq_some_getLast last]
    intro bare
    have member := hex _ (List.getLast_mem last)
    rw [Option.some.inj bare] at member
    exact absurd member (by decide)

theorem foldlM_pushPin (pins : List ActivePin) (canonical : Bytes) (lead : List Bytes)
    (rendered : canonical = joinLines lead) (whole : ∀ line ∈ lead, line ≠ []) :
    pins.foldlM pushPin canonical =
      if ∀ pin ∈ pins, admitted pin = some () then some (joinLines (lead ++ pins.map pinLine))
      else none := by
  induction pins generalizing canonical lead with
  | nil => simp [rendered]
  | cons pin pins ih =>
      rw [List.foldlM_cons]
      cases verdict : admitted pin with
      | none => simp [pushPin, verdict]
      | some _ =>
          have next : (if canonical.isEmpty then canonical else canonical ++ [lineFeed]) ++ pinLine pin
              = joinLines (lead ++ [pinLine pin]) := by
            rw [rendered]
            exact joinLines_snoc whole (pinLine pin)
          have lines : ∀ line ∈ lead ++ [pinLine pin], line ≠ [] := by
            intro line member
            rcases List.mem_append.mp member with old | new
            · exact whole line old
            · rw [List.mem_singleton.mp new]
              exact pinLine_ne_nil pin
          simp only [pushPin, verdict, Option.map_some, Option.bind_eq_bind, Option.bind_some]
          rw [ih _ (lead ++ [pinLine pin]) next lines]
          simp [verdict]

/-- The canonical identity of a launch's active pin set, with what its constructor ensures. -/
structure SelectionIdentity where
  pins : List ActivePin
  canonical : Bytes
  key : Bytes
  sorted : pins.Pairwise (· < ·)
  admitted : ∀ pin ∈ pins, admitted pin = some ()
  rendered : canonical = joinLines (pins.map pinLine)

namespace SelectionIdentity

theorem rendered_of_foldlM {pins : List ActivePin} {canonical : Bytes}
    (folded : pins.foldlM pushPin [] = some canonical) :
    (∀ pin ∈ pins, Format.admitted pin = some ()) ∧ canonical = joinLines (pins.map pinLine) := by
  rw [foldlM_pushPin pins [] [] rfl (by simp)] at folded
  split at folded
  · next every => exact ⟨every, by simpa using (Option.some.inj folded).symm⟩
  · cases folded

/-- The identity of `pins`, or `none` when a pin is outside the bounds. -/
def new (blake3 : Bytes → Bytes) (pins : List ActivePin) : Option SelectionIdentity :=
  if pins.length > maxActivePins then none
  else match folded : (canonicalPins pins).foldlM pushPin [] with
    | none => none
    | some canonical => some {
        pins := canonicalPins pins
        canonical := canonical
        key := hexPrefix ((blake3 canonical).take selectionKeyBytes)
        sorted := sortDedup_sorted _
        admitted := (rendered_of_foldlM folded).1
        rendered := (rendered_of_foldlM folded).2 }

theorem new_pins {blake3 : Bytes → Bytes} {pins : List ActivePin} {identity : SelectionIdentity}
    (built : new blake3 pins = some identity) : identity.pins = canonicalPins pins := by
  rw [new] at built
  split at built
  · cases built
  · split at built
    · cases built
    · rw [← Option.some.inj built]

def identityLines (identity : SelectionIdentity) : List Bytes := lines identity.canonical

/-- The canonical text splits back into exactly its pins' lines. -/
theorem lines_canonical (identity : SelectionIdentity) :
    lines identity.canonical = identity.pins.map pinLine := by
  rw [identity.rendered]
  apply lines_joinLines
  intro line member
  obtain ⟨pin, inside, rfl⟩ := List.mem_map.mp member
  exact ⟨pinLine_plain (identity.admitted pin inside), pinLine_ne_nil pin⟩

theorem canonical_inj {left right : SelectionIdentity} (same : left.canonical = right.canonical) :
    left.pins = right.pins := by
  apply List.map_injective_iff.mpr pinLine_injective
  rw [← lines_canonical, ← lines_canonical, same]

/-- The set of (name, lowercase hash) pairs a pin list denotes. -/
def pinSet (pins : List ActivePin) : Finset ActivePin := (pins.map lowercaseHash).toFinset

theorem canonicalPins_toFinset (pins : List ActivePin) :
    (canonicalPins pins).toFinset = pinSet pins := by
  ext pin
  simp [canonicalPins, pinSet]

theorem canonicalPins_eq_iff (left right : List ActivePin) :
    canonicalPins left = canonicalPins right ↔ pinSet left = pinSet right := by
  constructor
  · intro same
    rw [← canonicalPins_toFinset, ← canonicalPins_toFinset, same]
  · intro same
    apply eq_of_sorted_of_mem_iff (sortDedup_sorted _) (sortDedup_sorted _)
    intro pin
    have members := Finset.ext_iff.mp same pin
    simpa [pinSet] using members

/-- Two admitted lists share their canonical text exactly when they denote the same set of
pins, and the text's lines are those pins' lines, one each. -/
theorem canonical_form (blake3 : Bytes → Bytes) (left right : List ActivePin)
    (a b : SelectionIdentity) (builtA : new blake3 left = some a) (builtB : new blake3 right = some b) :
    (a.canonical = b.canonical ↔ pinSet left = pinSet right) ∧
      (lines a.canonical).Nodup ∧
      (lines a.canonical).toFinset = (pinSet left).image pinLine ∧
      (lines a.canonical).length = (pinSet left).card := by
  have pinsA := new_pins builtA
  have pinsB := new_pins builtB
  have distinct : a.pins.Nodup := nodup_of_sorted a.sorted
  refine ⟨?_, ?_, ?_, ?_⟩
  · rw [← canonicalPins_eq_iff, ← pinsA, ← pinsB]
    exact ⟨canonical_inj, fun same => by rw [a.rendered, b.rendered, same]⟩
  · rw [lines_canonical]
    exact distinct.map pinLine_injective
  · rw [lines_canonical, ← canonicalPins_toFinset, ← pinsA]
    ext line
    simp
  · rw [lines_canonical, List.length_map, ← canonicalPins_toFinset, ← pinsA,
      List.toFinset_card_of_nodup distinct]

def toolkits : List ActivePin :=
  [⟨utf8 "qt", List.replicate 64 65⟩, ⟨utf8 "gtk", List.replicate 64 97⟩]

def toolkitsRepeated : List ActivePin :=
  [⟨utf8 "gtk", List.replicate 64 65⟩, ⟨utf8 "qt", List.replicate 64 97⟩,
    ⟨utf8 "gtk", List.replicate 64 97⟩]

/-- The hash on the one text both lists above render to. -/
def toolkitsHash (_ : Bytes) : Bytes :=
  [183, 3, 114, 154, 127, 97, 183, 232, 235, 84, 238, 7, 47, 213, 236, 162,
    177, 87, 37, 69, 102, 134, 186, 5, 176, 91, 66, 255, 192, 61, 223, 78]

def toolkitsIdentity : SelectionIdentity := (new toolkitsHash toolkits).get (by decide +kernel)

def toolkitsRepeatedIdentity : SelectionIdentity :=
  (new toolkitsHash toolkitsRepeated).get (by decide +kernel)

theorem canonical_form_of_toolkits :
    (toolkitsIdentity.canonical = toolkitsRepeatedIdentity.canonical ↔
        pinSet toolkits = pinSet toolkitsRepeated) ∧
      (lines toolkitsIdentity.canonical).Nodup ∧
      (lines toolkitsIdentity.canonical).toFinset = (pinSet toolkits).image pinLine ∧
      (lines toolkitsIdentity.canonical).length = (pinSet toolkits).card :=
  canonical_form toolkitsHash toolkits toolkitsRepeated toolkitsIdentity toolkitsRepeatedIdentity
    (Option.some_get _).symm (Option.some_get _).symm

end SelectionIdentity

end Onelf.Format
