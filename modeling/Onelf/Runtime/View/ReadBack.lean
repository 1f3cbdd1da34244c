import Mathlib.Algebra.Order.BigOperators.Group.List
import Onelf.Runtime.View.Recorded

/-! Which views' records read back: the size of the record against the bound of a read. -/

namespace Onelf.Runtime.View

open Onelf.Lib Onelf.Lib.Checked Onelf.Format

/-! ### What is written follows the layout -/

theorem takes_scalar {tag line : Bytes} (plain : lineFeed ∉ tag ++ line) (rest : Bytes) :
    Takes (.scalar tag) (tag ++ (line ++ [lineFeed]) ++ rest) [] rest := by
  have shape : tag ++ (line ++ [lineFeed]) ++ rest = tag ++ line ++ lineFeed :: rest := by
    simp only [List.append_assoc, List.singleton_append]
  rw [shape]
  exact .scalar plain

theorem measures_decimal {value : Bytes} (short : value.length < usizeLimit) :
    Measures (decimal value.length) value := by
  refine ⟨fun colon => ?_, parseUsize_decimal short⟩
  exact absurd (decimal_isDigit _ _ colon) (by decide)

theorem takes_pushValue {tag value : Bytes} (short : value.length < usizeLimit) (rest : Bytes) :
    Takes (.value tag) (pushValue tag value ++ rest) [] rest := by
  have shape : pushValue tag value ++ rest =
      tag ++ (utf8 " " ++ (decimal value.length ++ 58 :: (value ++ (utf8 "\n" ++ rest)))) := by
    simp only [pushValue, List.append_assoc, List.cons_append]
    rfl
  rw [shape]
  exact .value (measures_decimal short)

theorem takes_pushOption {tag : Bytes} {value : Option Bytes}
    (short : (pushOption tag value).length < usizeLimit) (rest : Bytes) :
    Takes (.value tag) (pushOption tag value ++ rest) [] rest := by
  cases value with
  | none =>
      have shape : pushOption tag none ++ rest = tag ++ (utf8 " -\n" ++ rest) := by
        simp only [pushOption, pushAbsent, List.append_assoc, List.singleton_append]
        rfl
      rw [shape]
      exact .absent
  | some value =>
      apply takes_pushValue
      simp only [pushOption, pushValue, List.length_append] at short
      omega

theorem through_linkLine {link : Bytes × Bytes} (short : (linkLine link).length < usizeLimit)
    (rest : Bytes) : Through linkItems (linkLine link ++ rest) rest := by
  simp only [linkLine, List.length_append] at short
  let target := decimal link.2.length ++ 58 :: (link.2 ++ (utf8 "\n" ++ rest))
  have shape : linkLine link ++ rest =
      utf8 "link " ++ (decimal link.1.length ++ 58 :: (link.1 ++ (utf8 "\t" ++ target))) := by
    simp only [linkLine, target, List.append_assoc, List.singleton_append]
    rfl
  have name : Takes (.sized (utf8 "link ") (utf8 "\t")) (linkLine link ++ rest) [] target := by
    rw [shape]
    exact .sized (measures_decimal (by omega))
  have file : Takes (.sized [] (utf8 "\n")) target [] rest :=
    @Takes.sized [] (utf8 "\n") _ link.2 rest (measures_decimal (by omega))
  exact .cons name .nil (.cons file .nil .nil)

theorem through_linkLines {links : List (Bytes × Bytes)}
    (short : (links.flatMap linkLine).length < usizeLimit) (rest : Bytes) :
    Through (List.replicate links.length linkItems).flatten (links.flatMap linkLine ++ rest) rest := by
  induction links with
  | nil => exact .nil
  | cons link links ih =>
      rw [List.flatMap_cons, List.length_append] at short
      rw [List.flatMap_cons, List.append_assoc, List.length_cons, List.replicate_succ,
        List.flatten_cons, through_append]
      exact ⟨_, through_linkLine (by omega) _, ih (by omega)⟩

theorem takes_linkLines {links : List (Bytes × Bytes)} (few : links.length ≤ maxViewLinks)
    (rest : Bytes) :
    Takes .links (linkLines links ++ rest) (List.replicate links.length linkItems).flatten
      (links.flatMap linkLine ++ rest) := by
  have shape : linkLines links ++ rest = utf8 "links " ++ decimal links.length ++
      lineFeed :: (links.flatMap linkLine ++ rest) := by
    simp only [linkLines, List.append_assoc, List.cons_append, List.nil_append]
  have bound : maxViewLinks < usizeLimit := by decide
  rw [shape]
  refine .links ?_ (parseUsize_decimal (lt_of_le_of_lt few bound)) few
  intro mark
  exact absurd (decimal_isDigit _ _ mark) (by decide)

theorem isLowerHex_hexPrefix (bytes : Bytes) : ∀ digit ∈ hexPrefix bytes, isLowerHex digit = true := by
  intro digit member
  rcases List.mem_flatMap.mp member with ⟨byte, _, among⟩
  have high : byte.toNat / 16 < 16 := Nat.div_lt_of_lt_mul byte.toNat_lt
  have low : byte.toNat % 16 < 16 := Nat.mod_lt _ (by decide)
  rcases List.mem_cons.mp among with first | second
  · rw [first]
    exact isLowerHex_hexDigit high
  · rw [List.mem_singleton.mp second]
    exact isLowerHex_hexDigit low

theorem lineFeed_not_mem_hexPrefix (bytes : Bytes) : lineFeed ∉ hexPrefix bytes := fun mark =>
  absurd (isLowerHex_hexPrefix bytes _ mark) (by decide)

/-- The canonical text behind its header. -/
def canonicalBody (inputs : ViewInputs) (selection env : Bytes) : Bytes :=
  uidLine inputs.uid ++ (packageLine inputs.package ++
    (metadataLine inputs.metadata ++ (policyLine inputs.policy ++ (shadowLine inputs.hostLibc ++
      (pushOption (utf8 "loader") inputs.loader ++ (pushOption (utf8 "entry") inputs.entrypoint ++
        (pushValue (utf8 "pins") selection ++ (linkLines inputs.links.entries ++
          pushValue (utf8 "env") env))))))))

theorem canonicalText_eq (inputs : ViewInputs) (selection env : Bytes) :
    canonicalText inputs selection env = viewHeader ++ canonicalBody inputs selection env := rfl

theorem takes_uidLine (uid : Nat) (rest : Bytes) :
    Takes (.scalar (utf8 "uid ")) (uidLine uid ++ rest) [] rest := by
  apply takes_scalar
  rw [List.mem_append, not_or]
  exact ⟨by decide, fun mark => absurd (decimal_isDigit _ _ mark) (by decide)⟩

theorem takes_packageLine (package : Digest) (rest : Bytes) :
    Takes (.scalar (utf8 "package ")) (packageLine package ++ rest) [] rest := by
  apply takes_scalar
  rw [List.mem_append, not_or]
  exact ⟨by decide, lineFeed_not_mem_hexPrefix _⟩

theorem takes_metadataLine (metadata : Option Digest) (rest : Bytes) :
    Takes (.scalar (utf8 "meta ")) (metadataLine metadata ++ rest) [] rest := by
  cases metadata with
  | none => exact takes_scalar (by decide : lineFeed ∉ utf8 "meta " ++ utf8 "-") rest
  | some digest =>
      apply takes_scalar
      rw [List.mem_append, not_or]
      exact ⟨by decide, lineFeed_not_mem_hexPrefix _⟩

theorem takes_policyLine (policy : HostLibsPolicy) (rest : Bytes) :
    Takes (.scalar (utf8 "policy ")) (policyLine policy ++ rest) [] rest := by
  apply takes_scalar
  cases policy with
  | never => decide
  | auto => decide
  | always => decide

theorem takes_shadowLine (hostLibc : Bool) (rest : Bytes) :
    Takes (.scalar (utf8 "shadow ")) (shadowLine hostLibc ++ rest) [] rest := by
  apply takes_scalar
  cases hostLibc with
  | false => decide
  | true => decide

theorem canonicalBody_through {inputs : ViewInputs} {selection env : Bytes}
    (few : inputs.links.entries.length ≤ maxViewLinks)
    (short : (canonicalBody inputs selection env).length < usizeLimit) (rest : Bytes) :
    Through recordItems (canonicalBody inputs selection env ++ rest) rest := by
  simp only [canonicalBody, pushValue, linkLines, List.length_append] at short
  have links := @through_linkLines inputs.links.entries (by omega)
    (pushValue (utf8 "env") env ++ rest)
  simp only [canonicalBody, List.append_assoc]
  exact .cons (takes_uidLine _ _) .nil <|
    .cons (takes_packageLine _ _) .nil <|
    .cons (takes_metadataLine _ _) .nil <|
    .cons (takes_policyLine _ _) .nil <|
    .cons (takes_shadowLine _ _) .nil <|
    .cons (takes_pushOption (by omega) _) .nil <|
    .cons (takes_pushOption (by omega) _) .nil <|
    .cons (takes_pushValue (by omega) _) .nil <|
    .cons (takes_linkLines few _) links <|
    .cons (takes_pushValue (by omega) _) .nil .nil

/-! ### Sizes -/

/-- The environment input's size once its execution roots have been replaced. -/
def normalizedSize (env root : Bytes) : Nat :=
  if root.isEmpty || root.contains 0 then env.length
  else env.length + occurrences root env * rootToken.length - occurrences root env * root.length

/-- The size of a value's line, its length in decimal included. -/
def valueSize (tag : Bytes) (size : Nat) : Nat :=
  tag.length + 1 + (decimal size).length + 1 + size + 1

def optionSize (tag : Bytes) : Option Bytes → Nat
  | some value => valueSize tag value.length
  | none => tag.length + 3

def pinSize (pin : ActivePin) : Nat :=
  4 + (decimal pin.label.length).length + 1 + pin.label.length + 1 + pin.hash.length

/-- A line for each pin, with line feeds between them. -/
def pinsSize (pins : List ActivePin) : Nat :=
  ((canonicalPins pins).map pinSize).sum + ((canonicalPins pins).length - 1)

def linkSize (link : Bytes × Bytes) : Nat :=
  5 + (decimal link.1.length).length + 1 + link.1.length + 1 +
    (decimal link.2.length).length + 1 + link.2.length + 1

def policySize : HostLibsPolicy → Nat
  | .never => 5
  | .auto => 4
  | .always => 6

/-- The size of the record of a view built from `inputs`. -/
def recordSize (inputs : ViewInputs) (expandedEnv : Option Bytes) : Nat :=
  13 + (5 + (decimal inputs.uid).length) + 73 + (if inputs.metadata.isSome then 70 else 7) +
    (8 + policySize inputs.policy) + 9 + optionSize (utf8 "loader") inputs.loader +
    optionSize (utf8 "entry") inputs.entrypoint + valueSize (utf8 "pins") (pinsSize inputs.pins) +
    (7 + (decimal inputs.links.entries.length).length + (inputs.links.entries.map linkSize).sum) +
    valueSize (utf8 "env") (normalizedSize inputs.runtimeEnv inputs.root) +
    (if expandedEnv.isSome then 74 else 11)

/-- A record small enough to be read: of a root of three bytes or more always, of a shorter one where
its token does not make the environment input too long. -/
def RecordFits (inputs : ViewInputs) (expandedEnv : Option Bytes) : Prop :=
  3 ≤ inputs.root.length ∨ recordSize inputs expandedEnv ≤ recordMaxBytes

theorem length_normalizedEnv {env root normalized : Bytes}
    (admitted : normalizedEnv env root = some normalized) :
    normalized.length = normalizedSize env root := by
  rcases normalizedEnv_eq_some admitted with ⟨_, rfl⟩
  rw [normalizedSize]
  by_cases unplaced : (root.isEmpty || root.contains 0) = true
  · rw [if_pos unplaced, if_pos unplaced]
  · have placed : root ≠ [] := by
      intro empty
      exact unplaced (by rw [empty]; rfl)
    have length := length_replaceAll placed rootToken env
    rw [if_neg unplaced, if_neg unplaced]
    omega

theorem length_pushValue (tag value : Bytes) :
    (pushValue tag value).length = valueSize tag value.length := by
  simp only [pushValue, valueSize, List.length_append, List.length_cons, List.length_nil,
    lineFeed]
  omega

theorem length_pushOption (tag : Bytes) (value : Option Bytes) :
    (pushOption tag value).length = optionSize tag value := by
  cases value with
  | none =>
      have dash : (utf8 "-\n").length = 2 := rfl
      simp only [pushOption, pushAbsent, optionSize, List.length_append, List.length_cons,
        List.length_nil, dash]
  | some value => exact length_pushValue tag value

theorem length_joinLines (text : List Bytes) :
    (joinLines text).length = (text.map List.length).sum + (text.length - 1) := by
  induction text with
  | nil => rfl
  | cons line text ih =>
      cases text with
      | nil => simp [joinLines]
      | cons next text =>
          rw [joinLines, List.length_append, List.length_cons, ih]
          simp only [List.map_cons, List.sum_cons, List.length_cons]
          omega

theorem length_pinLine (pin : ActivePin) : (pinLine pin).length = pinSize pin := by
  have lead : (utf8 "pin ").length = 4 := rfl
  have colon : (utf8 ":").length = 1 := rfl
  have tab : (utf8 "\t").length = 1 := rfl
  simp only [pinLine, pinSize, List.length_append, lead, colon, tab]

theorem length_pins (pins : List ActivePin) :
    (joinLines ((canonicalPins pins).map pinLine)).length = pinsSize pins := by
  have sizes : List.length ∘ pinLine = pinSize := funext length_pinLine
  rw [length_joinLines, List.map_map, sizes, List.length_map, pinsSize]

theorem length_linkLine (link : Bytes × Bytes) : (linkLine link).length = linkSize link := by
  have lead : (utf8 "link ").length = 5 := rfl
  have tab : (utf8 "\t").length = 1 := rfl
  simp only [linkLine, linkSize, List.length_append, lead, tab, List.length_cons, List.length_nil]
  omega

theorem length_linkLines (links : List (Bytes × Bytes)) :
    (linkLines links).length = 7 + (decimal links.length).length + (links.map linkSize).sum := by
  have lead : (utf8 "links ").length = 6 := rfl
  have sizes : (fun link => (linkLine link).length) = linkSize := funext length_linkLine
  simp only [linkLines, List.length_append, lead, List.length_cons, List.length_nil,
    List.length_flatMap, sizes]
  omega

theorem length_expandedLine (hash : Option Digest) :
    (expandedLine hash).length = if hash.isSome then 74 else 11 := by
  cases hash with
  | none => rfl
  | some digest =>
      have lead : (utf8 "expanded ").length = 9 := rfl
      simp only [expandedLine, List.length_append, lead, length_hexPrefix, digest.size,
        List.length_cons, List.length_nil]
      rfl

/-- What the bounds of an identity hold of its inputs. -/
structure Admitted (inputs : ViewInputs) : Prop where
  pins : (canonicalPins inputs.pins).length ≤ maxActivePins
  pin : ∀ pin ∈ canonicalPins inputs.pins, pin.label.length ≤ maxPinLabelBytes ∧ pin.hash.length = 64
  loader : ∀ loader ∈ inputs.loader, loader.length ≤ maxLoaderBytes
  entrypoint : ∀ name ∈ inputs.entrypoint, name.length ≤ maxEntryName
  links : inputs.links.entries.length ≤ maxViewLinks
  link : ∀ link ∈ inputs.links.entries, link.1.length ≤ maxLinkName ∧ link.2.length ≤ maxLinkTarget
  env : inputs.runtimeEnv.length ≤ maxEnvBytes

theorem length_canonicalPins_le (pins : List ActivePin) : (canonicalPins pins).length ≤ pins.length := by
  have distinct : (canonicalPins pins).Nodup := nodup_of_sorted (sortDedup_sorted _)
  have within : canonicalPins pins ⊆ pins.map lowercaseHash := fun pin member =>
    (mem_sortDedup pin _).mp member
  have shorter := (distinct.subperm within).length_le
  rwa [List.length_map] at shorter

theorem normalizedEnv_bound {env root normalized : Bytes}
    (admitted : normalizedEnv env root = some normalized) : env.length ≤ maxEnvBytes := by
  rw [normalizedEnv] at admitted
  split at admitted
  · cases admitted
  · next bounded =>
      rw [Bool.or_eq_true, not_or, decide_eq_true_eq] at bounded
      exact Nat.le_of_not_lt bounded.1

theorem ViewIdentity.new_admitted {blake3 : Bytes → Bytes} {inputs : ViewInputs}
    {identity : ViewIdentity} (built : ViewIdentity.new blake3 inputs = some identity) :
    Admitted inputs ∧ ∃ env, normalizedEnv inputs.runtimeEnv inputs.root = some env ∧
      identity.canonical =
        canonicalText inputs (joinLines ((canonicalPins inputs.pins).map pinLine)) env := by
  simp only [ViewIdentity.new, Option.bind_eq_bind, Option.bind_eq_some_iff, guard_eq_some,
    exists_const] at built
  rcases built with ⟨selection, selected, entry, loader, links, link, env, normalized, made⟩
  have few : inputs.pins.length ≤ maxActivePins := by
    rw [SelectionIdentity.new] at selected
    split at selected
    · cases selected
    · next few => exact Nat.le_of_not_lt few
  have pins := SelectionIdentity.new_pins selected
  constructor
  · constructor
    · exact le_trans (length_canonicalPins_le _) few
    · intro pin member
      have fine := admitted_eq_some.mp (selection.admitted pin (pins ▸ member))
      exact ⟨fine.1.2, fine.2.2.1⟩
    · intro path held
      rw [held] at loader
      simp only [Option.all_some, admittedLoader, Bool.and_eq_true, decide_eq_true_eq] at loader
      exact loader.1.2
    · intro name held
      rw [held] at entry
      simp only [Option.all_some, admittedEntry, Bool.and_eq_true, decide_eq_true_eq] at entry
      exact entry.1.2
    · exact links
    · intro pair member
      have fine := List.all_eq_true.mp link pair member
      simp only [admittedLink, Bool.and_eq_true, decide_eq_true_eq] at fine
      exact ⟨fine.1.1.1.1.1.2, fine.1.2⟩
    · exact normalizedEnv_bound normalized
  · refine ⟨env, normalized, ?_⟩
    rw [← Option.some.inj made, selection.rendered, pins]

/-- The record is as long as its parts. -/
theorem length_writeRecord {blake3 : Bytes → Digest} {inputs : ViewInputs} {identity : ViewIdentity}
    (built : ViewIdentity.new (fun bytes => (blake3 bytes).bytes) inputs = some identity)
    (expandedEnv : Option Bytes) :
    (writeRecord blake3 identity expandedEnv).length = recordSize inputs expandedEnv := by
  rcases (ViewIdentity.new_admitted built).2 with ⟨env, normalized, text⟩
  have header : viewHeader.length = 13 := by decide +kernel
  have uid : (utf8 "uid ").length = 4 := rfl
  have package : (utf8 "package ").length = 8 := rfl
  have policy : (policyLine inputs.policy).length = 8 + policySize inputs.policy := by
    cases inputs.policy with
    | never => rfl
    | auto => rfl
    | always => rfl
  have shadow : (shadowLine inputs.hostLibc).length = 9 := by
    cases inputs.hostLibc with
    | false => rfl
    | true => rfl
  have metadata : (metadataLine inputs.metadata).length = if inputs.metadata.isSome then 70 else 7 := by
    cases inputs.metadata with
    | none => rfl
    | some digest =>
        have lead : (utf8 "meta ").length = 5 := rfl
        simp only [metadataLine, List.length_append, lead, length_hexPrefix, digest.size,
          List.length_cons, List.length_nil]
        rfl
  rw [writeRecord, text]
  simp only [canonicalText, uidLine, packageLine, List.length_append, header, uid, package, policy, shadow,
    metadata, length_pushOption, length_pushValue, length_pins, length_linkLines, length_expandedLine,
    length_normalizedEnv normalized, length_hexPrefix, inputs.package.size, Option.isSome_map,
    List.length_cons, List.length_nil, recordSize]
  omega

/-! ### When a record fits -/

theorem valueSize_le {tag : Bytes} {size bound width : Nat} (small : size ≤ bound)
    (positive : 0 < width) (digits : bound < 10 ^ width) :
    valueSize tag size ≤ tag.length + 3 + width + bound := by
  have length := length_decimal_le positive (lt_of_le_of_lt small digits)
  rw [valueSize]
  omega

theorem optionSize_le {tag : Bytes} {value : Option Bytes} {bound width : Nat}
    (small : ∀ bytes ∈ value, bytes.length ≤ bound) (positive : 0 < width)
    (digits : bound < 10 ^ width) : optionSize tag value ≤ tag.length + 3 + width + bound := by
  cases value with
  | none =>
      rw [optionSize]
      omega
  | some bytes => exact valueSize_le (small bytes rfl) positive digits

theorem sum_map_le {α : Type} {size : α → Nat} {bound : Nat} {values : List α}
    (each : ∀ value ∈ values, size value ≤ bound) :
    (values.map size).sum ≤ values.length * bound := by
  have sum := List.sum_le_card_nsmul (values.map size) bound (by
    intro length member
    rcases List.mem_map.mp member with ⟨value, among, rfl⟩
    exact each value among)
  rwa [List.length_map, Nat.nsmul_eq_mul] at sum

theorem pinsSize_le {inputs : ViewInputs} (admitted : Admitted inputs) :
    pinsSize inputs.pins ≤ 4096 * 202 := by
  have each : ∀ pin ∈ canonicalPins inputs.pins, pinSize pin ≤ 201 := by
    intro pin member
    rcases admitted.pin pin member with ⟨label, hash⟩
    have digits := @length_decimal_le pin.label.length 3 (by decide)
      (lt_of_le_of_lt label (by decide))
    rw [maxPinLabelBytes] at label
    rw [pinSize]
    omega
  have sum := sum_map_le each
  have count := admitted.pins
  rw [maxActivePins] at count
  rw [pinsSize]
  omega

theorem linkSizes_le {inputs : ViewInputs} (admitted : Admitted inputs) :
    (inputs.links.entries.map linkSize).sum ≤ 256 * 1295 := by
  have each : ∀ link ∈ inputs.links.entries, linkSize link ≤ 1295 := by
    intro link member
    rcases admitted.link link member with ⟨name, target⟩
    have first := @length_decimal_le link.1.length 3 (by decide) (lt_of_le_of_lt name (by decide))
    have second := @length_decimal_le link.2.length 4 (by decide) (lt_of_le_of_lt target (by decide))
    rw [maxLinkName] at name
    rw [maxLinkTarget] at target
    rw [linkSize]
    omega
  exact le_trans (sum_map_le each) (Nat.mul_le_mul_right 1295 admitted.links)

/-- A root of three bytes or more at most doubles the environment. -/
theorem normalizedSize_le {env root : Bytes} (long : 3 ≤ root.length) :
    normalizedSize env root ≤ 2 * env.length := by
  have some : root ≠ [] := List.ne_nil_of_length_pos (by omega)
  have count := occurrences_mul_le some env
  have token : rootToken.length = 6 := rfl
  have enough : occurrences root env * 3 ≤ occurrences root env * root.length :=
    Nat.mul_le_mul_left _ long
  rw [normalizedSize]
  split
  · omega
  · rw [token]
    omega

theorem recordSize_le {inputs : ViewInputs} (admitted : Admitted inputs) (uid : inputs.uid < 2 ^ 32)
    (long : 3 ≤ inputs.root.length) (expandedEnv : Option Bytes) :
    recordSize inputs expandedEnv ≤ recordMaxBytes := by
  have uids := @length_decimal_le inputs.uid 10 (by decide) (lt_trans uid (by decide))
  have policy : policySize inputs.policy ≤ 6 := by
    cases inputs.policy with
    | never => decide
    | auto => decide
    | always => decide
  have loader := @optionSize_le (utf8 "loader") inputs.loader 4096 4 admitted.loader (by decide)
    (by decide)
  have entry := @optionSize_le (utf8 "entry") inputs.entrypoint 128 3 admitted.entrypoint (by decide)
    (by decide)
  have pins := @valueSize_le (utf8 "pins") _ _ 6 (pinsSize_le admitted) (by decide) (by decide)
  have counted := @length_decimal_le inputs.links.entries.length 3 (by decide)
    (lt_of_le_of_lt admitted.links (by decide))
  have links := linkSizes_le admitted
  have doubled : normalizedSize inputs.runtimeEnv inputs.root ≤ 2 * (1024 * 1024) :=
    le_trans (normalizedSize_le long) (Nat.mul_le_mul_left 2 admitted.env)
  have env := @valueSize_le (utf8 "env") _ _ 7 doubled (by decide) (by decide)
  have tags : (utf8 "loader").length = 6 ∧ (utf8 "entry").length = 5 ∧ (utf8 "pins").length = 4 ∧
    (utf8 "env").length = 3 := ⟨rfl, rfl, rfl, rfl⟩
  have metadata : (if inputs.metadata.isSome then 70 else 7) ≤ 70 := by
    split
    · exact le_refl 70
    · decide
  have expanded : (if expandedEnv.isSome then 74 else 11) ≤ 74 := by
    split
    · exact le_refl 74
    · decide
  rw [recordSize, recordMaxBytes]
  omega

/-- A record within the bound is read back for its identity. -/
theorem loadRecord_writeRecord {blake3 : Bytes → Digest} {inputs : ViewInputs}
    {identity : ViewIdentity}
    (built : ViewIdentity.new (fun bytes => (blake3 bytes).bytes) inputs = some identity)
    (expandedEnv : Option Bytes)
    (fits : (writeRecord blake3 identity expandedEnv).length ≤ recordMaxBytes) :
    loadRecord identity (writeRecord blake3 identity expandedEnv) =
      .ok ⟨identity.canonical, expandedEnv.map fun env => hexPrefix (blake3 env).bytes⟩ := by
  rcases ViewIdentity.new_admitted built with ⟨admitted, env, _, text⟩
  have room : recordMaxBytes < usizeLimit := by decide
  have line : expandedLine (expandedEnv.map blake3) =
      shownLine (expandedEnv.map fun env => hexPrefix (blake3 env).bytes) := by
    cases expandedEnv with
    | none => rfl
    | some env => rfl
  have plain : WellFormed (expandedEnv.map fun env => hexPrefix (blake3 env).bytes) := by
    cases expandedEnv with
    | none => trivial
    | some env => exact ⟨by rw [length_hexPrefix, (blake3 env).size], isLowerHex_hexPrefix _⟩
  have short := lt_of_le_of_lt fits room
  rw [writeRecord, text, canonicalText_eq] at short
  simp only [List.length_append] at short
  have through := @canonicalBody_through inputs
    (joinLines ((canonicalPins inputs.pins).map pinLine)) env admitted.links (by omega)
    (shownLine (expandedEnv.map fun env => hexPrefix (blake3 env).bytes))
  apply loadRecord_eq_ok.mpr
  refine ⟨fits, rfl, plain, by rw [writeRecord, line], _, ?_, through⟩
  rw [writeRecord, text, canonicalText_eq, List.append_assoc, line]

/-- A view's record fits the bound of a read and reads back exactly where the root's token does not
make the environment too long, and a read of any bytes finishes exactly where it meets no length that
leaves the machine's range; what it gives is bound to its identity. -/
theorem viewRecord_reads_back_iff (blake3 : Bytes → Digest) :
    (∀ (inputs : ViewInputs) (identity : ViewIdentity) (expandedEnv : Option Bytes),
      ViewIdentity.new (fun bytes => (blake3 bytes).bytes) inputs = some identity →
      inputs.uid < 2 ^ 32 → inputs.root ≠ [] →
        ((writeRecord blake3 identity expandedEnv).length ≤ recordMaxBytes ∧
          loadRecord identity (writeRecord blake3 identity expandedEnv) =
            .ok ⟨identity.canonical, expandedEnv.map fun env => hexPrefix (blake3 env).bytes⟩ ↔
          RecordFits inputs expandedEnv)) ∧
    ∀ (identity : ViewIdentity) (bytes : Bytes),
      (Finishes (loadRecord identity bytes) ∧
        (∀ record, loadRecord identity bytes = .ok record →
          record.canonical = identity.canonical ∧ WellFormed record.expandedEnv ∧
            bytes = identity.canonical ++ shownLine record.expandedEnv) ↔
        ¬(bytes.length ≤ recordMaxBytes ∧ HugeRecord bytes)) := by
  constructor
  · intro inputs identity expandedEnv built uid _
    rw [RecordFits, ← length_writeRecord built]
    constructor
    · intro both
      exact Or.inr both.1
    · intro fits
      have small : (writeRecord blake3 identity expandedEnv).length ≤ recordMaxBytes := by
        rcases fits with long | small
        · rw [length_writeRecord built]
          exact recordSize_le (ViewIdentity.new_admitted built).1 uid long expandedEnv
        · exact small
      exact ⟨small, loadRecord_writeRecord built expandedEnv small⟩
  · intro identity bytes
    rw [loadRecord_finishes_iff]
    apply and_iff_left
    intro record read
    have shape := loadRecord_eq_ok.mp read
    exact ⟨shape.2.1, shape.2.2.1, shape.2.2.2.1⟩

/-! ### A root of one byte, and a length of twenty digits -/

/-- A launch at the root directory, whose environment input is as many slashes. -/
def slashInputs (count : Nat) : ViewInputs :=
  { placedInputs [] with runtimeEnv := List.replicate count 47, root := [47] }

theorem zeros_size : (List.replicate 32 (0 : UInt8)).length = 32 := rfl

def zeroBlake3 (_ : Bytes) : Digest := ⟨List.replicate 32 0, zeros_size⟩

theorem normalizedEnv_slashes {count : Nat} (bounded : count ≤ maxEnvBytes) :
    ∃ env, normalizedEnv (List.replicate count 47) [47] = some env := by
  have plain : (List.replicate count (47 : UInt8)).contains 0 = false := by
    rw [Bool.eq_false_iff]
    intro nul
    have same := List.eq_of_mem_replicate (List.contains_iff_mem.mp nul)
    exact absurd same (by decide)
  refine ⟨replaceAll [47] rootToken (List.replicate count 47), ?_⟩
  rw [normalizedEnv, if_neg, if_neg (by decide)]
  rw [plain, List.length_replicate, Bool.or_false, decide_eq_true_eq]
  exact Nat.not_lt.mpr bounded

theorem ViewIdentity.new_slashes {count : Nat} (bounded : count ≤ maxEnvBytes) :
    ∃ identity, ViewIdentity.new (fun bytes => (zeroBlake3 bytes).bytes) (slashInputs count) =
      some identity := by
  rcases normalizedEnv_slashes bounded with ⟨env, normalized⟩
  have selected : ∃ selection,
      SelectionIdentity.new (fun bytes => (zeroBlake3 bytes).bytes) [] = some selection :=
    Option.isSome_iff_exists.mp (by decide +kernel)
  rcases selected with ⟨selection, selected⟩
  have entry : (some (utf8 "app")).all admittedEntry = true := by decide +kernel
  rw [← Option.isSome_iff_exists]
  simp only [ViewIdentity.new, slashInputs, placedInputs, selected, entry, normalized, Option.bind_eq_bind,
    Option.bind_some, Option.all_none]
  rfl

theorem slashes_past_bound {count : Nat} (many : recordMaxBytes < 6 * count) (expandedEnv : Option Bytes) :
    recordMaxBytes < recordSize (slashInputs count) expandedEnv := by
  have env : normalizedSize (List.replicate count 47) [47] = 6 * count := by
    rw [normalizedSize, if_neg (by decide), occurrences_replicate, List.length_replicate]
    have token : rootToken.length = 6 := rfl
    rw [token, List.length_singleton]
    omega
  have part : 6 * count ≤ recordSize (slashInputs count) expandedEnv := by
    rw [recordSize]
    simp only [slashInputs, env, valueSize]
    omega
  exact lt_of_lt_of_le many part

/-- A record whose loader is said to be as long as a `usize` can say. -/
def hugeLoader : Bytes :=
  viewHeader ++ utf8 "uid 0\npackage \nmeta \npolicy \nshadow \nloader 18446744073709551615:"

theorem viewRecord_not_read_back :
    (∃ (blake3 : Bytes → Digest) (inputs : ViewInputs) (identity : ViewIdentity)
      (expandedEnv : Option Bytes),
        ViewIdentity.new (fun bytes => (blake3 bytes).bytes) inputs = some identity ∧
          inputs.uid < 2 ^ 32 ∧ inputs.root ≠ [] ∧
            recordMaxBytes < (writeRecord blake3 identity expandedEnv).length ∧
              loadRecord identity (writeRecord blake3 identity expandedEnv) = .error .miss) ∧
      ∃ identity : ViewIdentity, loadRecord identity hugeLoader = .error .overflow := by
  constructor
  · rcases ViewIdentity.new_slashes (le_refl maxEnvBytes) with ⟨identity, built⟩
    have past : recordMaxBytes < (writeRecord zeroBlake3 identity none).length := by
      rw [length_writeRecord built]
      exact slashes_past_bound (by decide) none
    refine ⟨zeroBlake3, slashInputs maxEnvBytes, identity, none, built,
      (by decide : 1000 < 2 ^ 32), List.cons_ne_nil _ _, past, ?_⟩
    rw [loadRecord, if_pos past]
  · exact ⟨⟨0, [], []⟩, by decide +kernel⟩

theorem viewRecord_reads_back_placed :
    ∃ identity, ViewIdentity.new (fun bytes => (zeroBlake3 bytes).bytes)
        (placedInputs (utf8 "/run/views/a")) = some identity ∧
      loadRecord identity (writeRecord zeroBlake3 identity none) = .ok ⟨identity.canonical, none⟩ ∧
        Finishes (loadRecord identity []) := by
  rcases Option.isSome_iff_exists.mp (by decide +kernel :
    (ViewIdentity.new (fun bytes => (zeroBlake3 bytes).bytes)
      (placedInputs (utf8 "/run/views/a"))).isSome = true) with ⟨identity, built⟩
  have both := (viewRecord_reads_back_iff zeroBlake3).1 _ identity none built (by decide)
    (by decide +kernel)
  have empty : ¬(([] : Bytes).length ≤ recordMaxBytes ∧ HugeRecord []) := by
    intro huge
    rcases huge.2 with ⟨text, same, _⟩
    have length := congrArg List.length same
    have header : viewHeader.length = 13 := by decide +kernel
    rw [List.length_append, header, List.length_nil] at length
    omega
  exact ⟨identity, built, (both.mpr (Or.inl (by decide +kernel))).2,
    (((viewRecord_reads_back_iff zeroBlake3).2 identity []).mpr empty).1⟩

end Onelf.Runtime.View
