import Onelf.Format.Metadata.EntrypointSets
import Onelf.Format.Metadata.RuntimeRules

/-! What the records are checked against: each other, the entrypoints and the declared pins
(`runtime_metadata.rs`). -/

namespace Onelf.Format.Metadata

open Onelf.Lib

/-- Every bound rule names a pin of the table. -/
def RuntimeRuleMetadata.validateBindings (rules : RuntimeRuleMetadata) (sets : EntrypointSets) :
    Except MetadataError Unit := do
  rules.validate
  sets.validate
  rules.rules.forM fun rule => refuseIf (∃ pin ∈ rule.binding, pin ∉ sets.pins)
    (.text "runtime binding: unknown set or mismatched full pin")

theorem RuntimeRuleMetadata.validateBindings_eq_ok {rules : RuntimeRuleMetadata}
    {sets : EntrypointSets} : rules.validateBindings sets = .ok () ↔
      rules.Valid ∧ sets.Valid ∧ ∀ rule ∈ rules.rules, ∀ pin ∈ rule.binding, pin ∈ sets.pins := by
  simp only [validateBindings, Except.followed_eq_ok, Except.forM_eq_ok, refuseIf_eq_ok,
    validate_eq_ok, EntrypointSets.validate_eq_ok, not_exists, not_and, not_not]

namespace EntrypointSets

/-- The final entrypoint names and the actual pins are exactly the record's. -/
def validateAgainst (sets : EntrypointSets) (manifestNames : List Text)
    (actualPins : List SetPin) : Except MetadataError Unit := do
  sets.validate
  refuseIf (manifestNames.length > maxRecords ∨ actualPins.length > maxRecords)
    (.text "external tables: exceeds MAX_RECORDS (4096)")
  eachUnique (fun name => validateEntrypointName name.bytes) (fun _ => .ok ()) id
    (fun _ => .text "manifest: duplicate entrypoint name") [] manifestNames
  refuseIf (sortDedup (sets.entrypoints.map EntrypointSelection.name) ≠ sortDedup manifestNames)
    (.text "selection table: does not match final manifest entrypoint names")
  eachUnique (fun _ => .ok ()) (fun _ => .ok ()) SetPin.name
    (fun _ => .text "actual pins: duplicate set name or conflicting pins") [] actualPins
  refuseIf (sortDedup sets.pins ≠ sortDedup actualPins)
    (.text "pin table: does not match actual declared full pins")

/-- What `validateAgainst` accepts. -/
structure Backed (sets : EntrypointSets) (names : List Text) (pins : List SetPin) : Prop where
  valid : sets.Valid
  fewNames : names.length ≤ maxRecords
  fewPins : pins.length ≤ maxRecords
  named : ∀ name ∈ names, validateEntrypointName name.bytes = .ok ()
  namesDistinct : names.Nodup
  namesMatch : ∀ name, name ∈ sets.entrypoints.map EntrypointSelection.name ↔ name ∈ names
  pinsDistinct : (pins.map SetPin.name).Nodup
  pinsMatch : ∀ pin, pin ∈ sets.pins ↔ pin ∈ pins

theorem validateAgainst_eq_ok {sets : EntrypointSets} {names : List Text} {pins : List SetPin} :
    sets.validateAgainst names pins = .ok () ↔ sets.Backed names pins := by
  simp only [validateAgainst, Except.followed_eq_ok, refuseIf_eq_ok, validate_eq_ok,
    eachUnique_eq_ok, not_or, not_lt, not_not, gt_iff_lt, sortDedup_eq_iff, List.map_id,
    List.not_mem_nil, not_false_eq_true, implies_true, true_and, and_true]
  constructor
  · intro accepted
    rcases accepted with ⟨valid, few, names, namesMatch, pins, pinsMatch⟩
    exact ⟨valid, few.1, few.2, names.1, names.2, namesMatch, pins, pinsMatch⟩
  · intro backed
    exact ⟨backed.valid, ⟨backed.fewNames, backed.fewPins⟩, ⟨backed.named, backed.namesDistinct⟩,
      backed.namesMatch, backed.pinsDistinct, backed.pinsMatch⟩

/-- The order of the actual pins is immaterial. -/
theorem Backed.perm {sets : EntrypointSets} {names : List Text} {pins others : List SetPin}
    (backed : sets.Backed names pins) (perm : pins.Perm others) : sets.Backed names others where
  valid := backed.valid
  fewNames := backed.fewNames
  fewPins := perm.length_eq ▸ backed.fewPins
  named := backed.named
  namesDistinct := backed.namesDistinct
  namesMatch := backed.namesMatch
  pinsDistinct := (perm.map SetPin.name).nodup_iff.mp backed.pinsDistinct
  pinsMatch pin := (backed.pinsMatch pin).trans perm.mem_iff

/-- A table of pins alone is checked the same in every order. -/
theorem Valid.perm {pins others : List SetPin} (valid : (EntrypointSets.mk pins []).Valid)
    (perm : pins.Perm others) : (EntrypointSets.mk others []).Valid where
  few := by
    have few := valid.few
    rwa [tablesRecords, perm.length_eq] at few
  pinNames pin member := valid.pinNames pin (perm.mem_iff.mpr member)
  pinsDistinct := (perm.map SetPin.name).nodup_iff.mp valid.pinsDistinct
  names entry member := absurd member List.not_mem_nil
  declared entry member := absurd member List.not_mem_nil
  setsDistinct entry member := absurd member List.not_mem_nil
  namesDistinct := List.nodup_nil

end EntrypointSets

end Onelf.Format.Metadata
