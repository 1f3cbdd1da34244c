import Onelf.Cli.Build.Metadata
import Onelf.Cli.Pack.Packed

/-! What a launch of a built package acquires, against what its recipe selects. -/

namespace Onelf.Cli.Build

open Onelf.Lib Onelf.Format.Metadata Onelf.Cli.Pack Onelf.Runtime.Sets

/-! ### What the recipe says -/

namespace Job

/-- The declared sets an entrypoint's own list names, or all of them where it was omitted. -/
def selected (job : Job) (name : Text) : List SharedSet :=
  job.sets.filter fun set => selects (ownList job.recipe name) set.name

/-- Every entrypoint of the package is let through with exactly its own pins. -/
def Acquires (job : Job) (pkg : Records) : Prop :=
  ∀ name ∈ pkg.names, ∃ metadata, validate pkg name = .ok metadata ∧
    metadata.pins.Perm ((job.selected name).map pinOf)

/-- The table as it is written. -/
def table (job : Job) : Str := renderSets job.sets (job.closures.getD [])

/-- The table reaches the launch: the walk keeps it, and it is under the limit of a record. -/
def Intact (job : Job) : Prop :=
  keepsTable job = true ∧ (Str.encodeUtf8 job.table).length ≤ maxMetadataBytes

/-- Every set that some entrypoint selects is recorded as it is declared. -/
def Carried (job : Job) : Prop :=
  job.sets = [] ∨ job.Intact ∧
    ∀ name ∈ finalEntrypointNames job.opts, ∀ set ∈ job.selected name, Recorded set

theorem mem_selected {job : Job} {name : Text} {set : SharedSet} : set ∈ job.selected name ↔
    set ∈ job.sets ∧ ∀ names ∈ ownList job.recipe name, set.name ∈ names := by
  rw [selected, List.mem_filter, selects_iff]

theorem sets_distinct (job : Job) : (job.sets.map SharedSet.name).Nodup := by
  rw [sets, List.map_map]
  exact nodup_of_sorted job.recipe.declared.keys_sorted

end Job

/-! ### What a build goes through -/

variable {job : Job} {pkg : Records}

/-- What a build that packs has passed. -/
structure Built (job : Job) (pkg : Records) (table : List ResolvedSelection)
    (text : Option Str) (carried : Option EntrypointSets) (rules : Option RuntimeRuleMetadata)
    (record : Option EntrypointSets) : Prop where
  resolved : Resolved job.recipe job.opts table
  staged : text = tableText job.sets (job.closures.getD [])
  lowered : selectionTable job.sets table = .ok carried
  names : pkg.names = finalEntrypointNames job.opts
  packed : pkg.sets = packedTable job text
  encoded : encodeSets carried = .ok pkg.entrypointSets
  decodedRules : decodeRecord RuntimeRuleMetadata.decode pkg.runtimeRules = .ok rules
  decodedSets : decodeRecord EntrypointSets.decode pkg.entrypointSets = .ok record
  checked : checkCarried rules record text (finalEntrypointNames job.opts) = .ok ()
  bound : checkBound rules record = .ok ()

theorem stageTable_text {text : Option Str} (staged : stageTable job = .ok text) :
    text = tableText job.sets (job.closures.getD []) := by
  rw [stageTable] at staged
  split at staged
  · next none =>
      cases staged
      rw [none]
      rfl
  · next closures some =>
      rw [Except.followed_eq_ok] at staged
      cases staged.2
      rw [some]
      rfl

theorem lowerRuntimeMetadata_encoded {rules : List RuntimeRuleRecord}
    {sets : Option EntrypointSets} {metadata : MetadataPayload}
    (lowered : lowerRuntimeMetadata rules sets = .ok metadata) :
    encodeSets sets = .ok metadata.entrypointSets := by
  rw [lowerRuntimeMetadata] at lowered
  split at lowered
  · next none =>
      cases lowered
      rw [none.2]
      rfl
  · rw [Except.followed_eq_ok] at lowered
    rcases Except.andThen_eq_ok.mp lowered.2 with ⟨first, _, rest⟩
    rcases Except.andThen_eq_ok.mp rest with ⟨second, encoded, same⟩
    cases same
    exact encoded

theorem mapError_eq_ok {ε ε' α : Type} {result : Except ε α} {change : ε → ε'} {value : α} :
    result.mapError change = .ok value ↔ result = .ok value := by
  cases result with
  | error reason => simp [Except.mapError]
  | ok other => simp [Except.mapError]

theorem build_built (packs : build job = .ok pkg) :
    ∃ table text carried rules record, Built job pkg table text carried rules record := by
  rw [build, Except.andThen_eq_ok] at packs
  rcases packs with ⟨selections, normalized, packs⟩
  rcases Except.andThen_eq_ok.mp packs with ⟨table, resolved, packs⟩
  rcases Except.andThen_eq_ok.mp packs with ⟨text, staged, packs⟩
  rcases Except.andThen_eq_ok.mp packs with ⟨metadata, lowered, packs⟩
  rw [Except.followed_eq_ok, Except.followed_eq_ok] at packs
  rcases packs with ⟨checked, entrypoints, same⟩
  cases same
  rw [buildMetadata, Except.andThen_eq_ok] at lowered
  rcases lowered with ⟨carried, selected, lowered⟩
  have encoded := lowerRuntimeMetadata_encoded (mapError_eq_ok.mp lowered)
  rw [checkMetadata, Except.andThen_eq_ok] at checked
  rcases checked with ⟨rules, decodedRules, checked⟩
  rcases Except.andThen_eq_ok.mp checked with ⟨record, decodedSets, checked⟩
  rw [Except.followed_eq_ok] at checked
  rw [checkEntrypoints, Except.followed_eq_ok, eachUnique_eq_ok] at entrypoints
  have distinct : (job.recipe.entrypoints.map Entrypoint.name).Nodup := by
    have once := entrypoints.1.2.2
    rw [Job.opts, packOptions, List.map_map] at once
    exact once
  exact ⟨table, text, carried, rules, record, resolveSelections_resolved distinct normalized resolved,
    stageTable_text staged, selected, rfl, rfl, encoded, decodedRules, decodedSets, checked.1,
    checked.2⟩

/-! ### What the gate reads -/

theorem decodeRecord_eq_ok {α : Type} {decode : Bytes → Except MetadataError α}
    {record : Option Bytes} {value : Option α} :
    decodeRecord decode record = .ok value ↔ record = none ∧ value = none ∨
      ∃ bytes inner, record = some bytes ∧ decode bytes = .ok inner ∧ value = some inner := by
  cases record with
  | none => simp [decodeRecord, eq_comm]
  | some bytes =>
      cases ran : decode bytes with
      | error why => simp [decodeRecord, ran, Except.mapError, Except.map]
      | ok inner => simp [decodeRecord, ran, Except.mapError, Except.map, eq_comm]

theorem readRecord_of_decodeRecord {α : Type} {decode : Bytes → Except MetadataError α}
    (bounded : ∀ bytes value, decode bytes = .ok value → bytes.length ≤ maxMetadataBytes)
    {record : Option Bytes} {value : Option α} (decoded : decodeRecord decode record = .ok value) :
    readRecord decode record = .ok value := by
  rcases decodeRecord_eq_ok.mp decoded with absent | present
  · rw [absent.1, absent.2]
    rfl
  · rcases present with ⟨bytes, inner, held, ran, same⟩
    have short : ¬bytes.length > maxMetadataBytes := not_lt.mpr (bounded bytes inner ran)
    rw [held, same, readRecord, readBoundedRecord, if_neg short]
    exact congrArg (fun result => (result.mapError GateError.rejected).map some) ran

section
variable {table : List ResolvedSelection} {text : Option Str} {carried record : Option EntrypointSets}
  {rules : Option RuntimeRuleMetadata}

/-- The record a launch reads is the table that was lowered, in its canonical order. -/
theorem Built.record_eq (built : Built job pkg table text carried rules record) :
    record = carried.map EntrypointSets.sorted := by
  have encoded := built.encoded
  rcases decodeRecord_eq_ok.mp built.decodedSets with absent | present
  · cases carried with
    | none => exact absent.2
    | some sets =>
        rw [absent.1, encodeSets] at encoded
        cases written : sets.encode with
        | error why =>
            rw [written] at encoded
            cases encoded
        | ok bytes =>
            rw [written] at encoded
            cases encoded
  · rcases present with ⟨bytes, inner, held, ran, same⟩
    rw [held] at encoded
    cases carried with
    | none => cases encoded
    | some sets =>
        rw [encodeSets] at encoded
        cases written : sets.encode with
        | error why =>
            rw [written] at encoded
            cases encoded
        | ok other =>
            rw [written] at encoded
            cases encoded
            have back := EntrypointSets.tables_codec_bijective.1 sets bytes written
            rw [same, Option.map_some, ← Except.ok.inj (back.symm.trans ran)]

/-- Without the set table, the gate lets everything through that the packer has checked. -/
theorem Built.gate (built : Built job pkg table text carried rules record) (name : Text) :
    validate pkg name = (do
      let sets ← readBoundedRecord pkg.sets
      checkBindings rules record sets
      let pins ← selection sets record (finalEntrypointNames job.opts) name
      .ok ⟨rules, pins⟩) := by
  have read := readRecord_of_decodeRecord (fun bytes value ran =>
    (RuntimeRuleMetadata.decode_eq_ok.mp ran).2.2.1) built.decodedRules
  have also := readRecord_of_decodeRecord (fun bytes value ran =>
    (EntrypointSets.decode_eq_ok.mp ran).2.2.1) built.decodedSets
  rw [validate, read, also, built.names]
  rfl

/-- The pins the AppDir's table gives. -/
def parsed (text : Option Str) : List Pin := (text.map parse).getD []

/-- A table that reaches the launch is read as the packer read it. -/
theorem Built.read (built : Built job pkg table text carried rules record)
    (intact : job.sets = [] ∨ job.Intact) :
    readBoundedRecord pkg.sets = .ok pkg.sets ∧ parseTable pkg.sets = parsed text := by
  by_cases none : job.sets = []
  · have absent : text = Option.none := by
      rw [built.staged, tableText, if_pos none]
    have bare : pkg.sets = Option.none := by
      rw [built.packed, packedTable, absent]
      split <;> rfl
    rw [bare, absent]
    exact ⟨rfl, rfl⟩
  · have whole := intact.resolve_left none
    have present : text = some job.table := by
      rw [built.staged, tableText, if_neg none]
      rfl
    have carried : pkg.sets = some (Str.encodeUtf8 job.table) := by
      rw [built.packed, packedTable, if_pos whole.1, present]
      rfl
    rw [carried, present, readBoundedRecord, if_neg (not_lt.mpr whole.2), parseTable,
      Option.map_some, Option.getD_some, Str.fromUtf8Lossy_encodeUtf8]
    exact ⟨rfl, rfl⟩

theorem packerPins_eq_ok {pins : List SetPin} : packerPins text = .ok pins ↔
    ∃ backed, (parsed text).mapM declaredPin = .ok backed ∧ pins = sortByKey SetPin.name backed := by
  rw [packerPins, Except.andThen_eq_ok]
  simp only [mapError_eq_ok, Except.ok.injEq]
  constructor
  · intro found
    rcases found with ⟨backed, mapped, same⟩
    exact ⟨backed, mapped, same.symm⟩
  · intro found
    rcases found with ⟨backed, mapped, same⟩
    exact ⟨backed, mapped, same.symm⟩

/-- A binding the packer let through is let through at launch. -/
theorem Built.bindings (built : Built job pkg table text carried rules record)
    {sets : Option Bytes} (read : parseTable sets = parsed text) :
    checkBindings rules record sets = .ok () := by
  have checked := built.checked
  have bound := built.bound
  cases rules with
  | none => rfl
  | some rules =>
      cases record with
      | some record =>
          rw [checkBound, mapError_eq_ok] at bound
          rw [checkBindings, mapError_eq_ok]
          exact bound
      | none =>
          rw [checkCarried, Except.andThen_eq_ok] at checked
          rcases checked with ⟨declared, gathered, matched⟩
          rcases packerPins_eq_ok.mp gathered with ⟨backed, mapped, same⟩
          rw [mapError_eq_ok, RuntimeRuleMetadata.validateBindings_eq_ok, same] at matched
          have sorted : (sortByKey SetPin.name backed).Perm (backed.insertionSort (· ≤ ·)) :=
            (sortByKey_perm SetPin.name backed).trans (List.perm_insertionSort _ backed).symm
          rw [checkBindings]
          split
          · rw [declaredPins, read, mapped, Except.andThen_eq_ok]
            refine ⟨_, rfl, ?_⟩
            rw [mapError_eq_ok, RuntimeRuleMetadata.validateBindings_eq_ok]
            refine ⟨matched.1, matched.2.1.perm sorted, ?_⟩
            intro rule member pin binding
            exact sorted.mem_iff.mp (matched.2.2 rule member pin binding)
          · rfl

/-- Where the table reaches the launch, the gate stands or falls with the selection. -/
theorem Built.gate_intact (built : Built job pkg table text carried rules record)
    (intact : job.sets = [] ∨ job.Intact) (name : Text) {metadata : LaunchMetadata} :
    validate pkg name = .ok metadata ↔ metadata.rules = rules ∧
      selection pkg.sets record (finalEntrypointNames job.opts) name = .ok metadata.pins := by
  rcases built.read intact with ⟨bounded, read⟩
  rw [built.gate name, bounded, Except.andThen_eq_ok]
  constructor
  · intro passed
    rcases passed with ⟨sets, same, passed⟩
    rw [← Except.ok.inj same, Except.followed_eq_ok] at passed
    rcases Except.andThen_eq_ok.mp passed.2 with ⟨pins, selected, same⟩
    cases same
    exact ⟨rfl, selected⟩
  · intro passed
    refine ⟨_, rfl, Except.followed_eq_ok.mpr ⟨built.bindings read, ?_⟩⟩
    exact Except.andThen_eq_ok.mpr ⟨metadata.pins, passed.2, by rw [← passed.1]⟩

end

/-! ### What the selection record holds -/

section
variable {sets : List SharedSet} {table : List ResolvedSelection}

theorem selectionTable_none (lowered : selectionTable sets table = .ok none) :
    ∀ row ∈ table, row.sets = .all := by
  rw [selectionTable] at lowered
  split at lowered
  · rcases Except.andThen_eq_ok.mp lowered with ⟨declared, _, rest⟩
    rcases Except.andThen_eq_ok.mp rest with ⟨entrypoints, _, same⟩
    cases same
  · next implicit =>
      intro row member
      cases written : row.sets with
      | all => rfl
      | names list =>
          refine absurd (List.any_eq_true.mpr ⟨row, member, ?_⟩) implicit
          rw [written]
          rfl

theorem selectionTable_some {record : EntrypointSets}
    (lowered : selectionTable sets table = .ok (some record)) :
    sets.mapM declaredSetPin = .ok record.pins ∧
      table.mapM (selectedRow record.pins) = .ok record.entrypoints := by
  rw [selectionTable] at lowered
  split at lowered
  · rcases Except.andThen_eq_ok.mp lowered with ⟨declared, pins, rest⟩
    rcases Except.andThen_eq_ok.mp rest with ⟨entrypoints, rows, same⟩
    cases same
    exact ⟨pins, rows⟩
  · cases lowered

theorem declaredSetPin_name {set : SharedSet} {pin : SetPin} (made : declaredSetPin set = .ok pin) :
    pin.name.bytes = Str.encodeUtf8 set.name := by
  rw [declaredSetPin] at made
  split at made
  · cases made
  · cases made
  · next named _ =>
      cases made
      exact Format.RuleId.new_eq_ok.mp named

theorem declaredPin_name {pin : Pin} {backed : SetPin} (made : declaredPin pin = .ok backed) :
    backed.name.bytes = Str.encodeUtf8 pin.label := by
  rw [declaredPin] at made
  split at made
  · cases made
  · cases made
  · next named _ =>
      cases made
      exact Format.RuleId.new_eq_ok.mp named

/-- The pin a table of declared sets gives under an identity. -/
theorem pinNamed_shown (distinct : (sets.map SharedSet.name).Nodup) {set : SharedSet}
    (member : set ∈ sets) {id : Format.RuleId} (same : id.bytes = Str.encodeUtf8 set.name) :
    pinNamed (sets.map shownPin) id = .ok (shownPin set) := by
  rw [pinNamed]
  split
  · next pin found =>
      have label : Str.encodeUtf8 pin.label = id.bytes := by simpa using List.find?_some found
      rcases List.mem_map.mp (List.mem_of_find?_eq_some found) with ⟨other, within, shown⟩
      rw [← shown] at label
      have names : other.name = set.name := Str.encodeUtf8_injective (label.trans same)
      rw [← shown, List.inj_on_of_nodup_map distinct within member names]
  · next absent =>
      have passed := List.find?_eq_none.mp absent (shownPin set) (List.mem_map_of_mem member)
      exact absurd (decide_eq_true same.symm) passed

/-- Identities that stand for some of the declared sets give the pins of exactly those. -/
theorem mapM_pinNamed (distinct : (sets.map SharedSet.name).Nodup) {chosen : List SharedSet}
    (within : chosen.Sublist sets) {ids : List Format.RuleId} (once : ids.Nodup)
    (sound : ∀ id ∈ ids, ∃ set ∈ chosen, id.bytes = Str.encodeUtf8 set.name)
    (complete : ∀ set ∈ chosen, ∃ id ∈ ids, id.bytes = Str.encodeUtf8 set.name) :
    ∃ pins, ids.mapM (pinNamed (sets.map shownPin)) = .ok pins ∧
      pins.Perm (chosen.map shownPin) := by
  have each : ∀ id ∈ ids, ∃ pin, pinNamed (sets.map shownPin) id = .ok pin := by
    intro id member
    rcases sound id member with ⟨set, chosen, same⟩
    exact ⟨_, pinNamed_shown distinct (within.subset chosen) same⟩
  rcases Except.mapM_total each with ⟨pins, ran⟩
  refine ⟨pins, ran, ?_⟩
  have paired := Except.mapM_eq_ok.mp ran
  have labels : pins.map (fun pin => Str.encodeUtf8 pin.label) = ids.map Format.RuleId.bytes := by
    have named : ∀ id ∈ ids, ∀ pin : Pin, pinNamed (sets.map shownPin) id = .ok pin →
        (Str.encodeUtf8 pin.label = id.bytes ↔ True) := by
      intro id member pin found
      rcases sound id member with ⟨set, chosen, same⟩
      rw [pinNamed_shown distinct (within.subset chosen) same] at found
      cases found
      exact iff_of_true same.symm trivial
    exact (paired_map_eq_iff paired named).mpr fun _ _ => trivial
  have pinsOnce : pins.Nodup := by
    apply List.Nodup.of_map
    rw [labels]
    exact once.map fun left right => Format.RuleId.ext
  have chosenOnce : (chosen.map shownPin).Nodup := by
    have names : ((chosen.map shownPin).map Pin.label).Nodup := by
      rw [List.map_map]
      exact (within.map SharedSet.name).nodup distinct
    exact names.of_map
  apply (List.perm_ext_iff_of_nodup pinsOnce chosenOnce).mpr
  intro pin
  constructor
  · intro member
    rcases paired_of_mem paired member with ⟨id, inside, found⟩
    rcases sound id inside with ⟨set, picked, same⟩
    rw [pinNamed_shown distinct (within.subset picked) same] at found
    cases found
    exact List.mem_map_of_mem picked
  · intro member
    rcases List.mem_map.mp member with ⟨set, picked, same⟩
    rcases complete set picked with ⟨id, inside, named⟩
    rcases paired_with_mem paired inside with ⟨other, listed, found⟩
    rw [pinNamed_shown distinct (within.subset picked) named] at found
    rw [← same, Except.ok.inj found]
    exact listed

end

/-- A row of the record selects the identities of the sets its entrypoint selects. -/
theorem selectedRow_ids {declared : List SetPin} {resolved : ResolvedSelection}
    {entry : EntrypointSelection} (pins : job.sets.mapM declaredSetPin = .ok declared)
    (made : selectedRow declared resolved = .ok entry)
    (own : resolved.sets = selectionOf (ownList job.recipe resolved.name))
    (known : ∀ names ∈ ownList job.recipe resolved.name,
      ∀ name ∈ names, name ∈ job.recipe.declared.keys) :
    entry.name = resolved.name ∧
      (∀ id ∈ entry.sets, ∃ set ∈ job.selected resolved.name,
        id.bytes = Str.encodeUtf8 set.name) ∧
      ∀ set ∈ job.selected resolved.name, ∃ id ∈ entry.sets,
        id.bytes = Str.encodeUtf8 set.name := by
  have paired := Except.mapM_eq_ok.mp pins
  rw [selectedRow, Except.andThen_eq_ok] at made
  rcases made with ⟨ids, found, same⟩
  cases same
  refine ⟨rfl, ?_⟩
  rw [selectedIds, own] at found
  cases written : ownList job.recipe resolved.name with
  | none =>
      rw [written, selectionOf] at found
      cases found
      constructor
      · intro id member
        rcases List.mem_map.mp member with ⟨pin, within, same⟩
        rcases paired_of_mem paired within with ⟨set, declared, made⟩
        refine ⟨set, Job.mem_selected.mpr ⟨declared, ?_⟩, same ▸ declaredSetPin_name made⟩
        intro names none
        rw [written] at none
        cases none
      · intro set member
        rcases paired_with_mem paired (Job.mem_selected.mp member).1 with ⟨pin, within, made⟩
        exact ⟨pin.name, List.mem_map_of_mem within, declaredSetPin_name made⟩
  | some names =>
      rw [written, selectionOf] at found
      have rows := Except.mapM_eq_ok.mp found
      have chosen {name : Str} {id : Format.RuleId}
          (ok : selectedId declared resolved.name name = .ok id) :
          id.bytes = Str.encodeUtf8 name := by
        rw [selectedId] at ok
        split at ok
        · next pin held =>
            cases ok
            simpa using List.find?_some held
        · cases ok
      have listed (name : Str) : name ∈ sortByKey id names ↔ name ∈ names :=
        (sortByKey_perm id names).mem_iff
      constructor
      · intro id member
        rcases paired_of_mem rows member with ⟨name, within, ok⟩
        have inside := (listed name).mp within
        rcases List.mem_map.mp (known names written name inside) with ⟨entry, declared, key⟩
        refine ⟨⟨entry.1, entry.2.packages, entry.2.url, entry.2.blake3⟩,
          Job.mem_selected.mpr ⟨List.mem_map_of_mem declared, ?_⟩, ?_⟩
        · intro others same
          rw [written] at same
          cases same
          exact key ▸ inside
        · exact (chosen ok).trans (congrArg Str.encodeUtf8 key.symm)
      · intro set member
        have picked := (Job.mem_selected.mp member).2 names written
        rcases paired_with_mem rows ((listed set.name).mpr picked) with ⟨id, within, ok⟩
        exact ⟨id, within, chosen ok⟩

/-! ### What the gate returns -/

section
variable {table : List ResolvedSelection} {text : Option Str} {carried record : Option EntrypointSets}
  {rules : Option RuntimeRuleMetadata}

/-- A table that gives a pin under every declared name gives only the declared sets. -/
theorem Built.parsed_eq (built : Built job pkg table text carried rules record)
    (labelled : ∀ set ∈ job.sets, ∃ pin ∈ parsed text, pin.label = set.name) :
    parsed text = job.sets.map shownPin ∧
      ∀ set ∈ job.sets, Readable set.name ∧ isDigest set.blake3 = true := by
  by_cases none : job.sets = []
  · rw [built.staged, tableText, if_pos none, none]
    exact ⟨rfl, fun set member => absurd member List.not_mem_nil⟩
  · have present : parsed text = parse job.table := by
      rw [built.staged, tableText, if_neg none]
      rfl
    rw [present] at labelled ⊢
    exact parse_of_labels _ job.sets_distinct labelled

/-- The packer's check of a selection record. -/
theorem Built.backed {lowered : EntrypointSets}
    (built : Built job pkg table text (some lowered) rules record) :
    ∃ pins, (parsed text).mapM declaredPin = .ok pins ∧
      lowered.sorted.Backed (finalEntrypointNames job.opts) pins := by
  have checked := built.checked
  rw [built.record_eq, Option.map_some, checkCarried, Except.andThen_eq_ok] at checked
  rcases checked with ⟨pins, gathered, matched⟩
  rcases packerPins_eq_ok.mp gathered with ⟨backed, mapped, same⟩
  rw [mapError_eq_ok, EntrypointSets.validateAgainst_eq_ok, same] at matched
  exact ⟨backed, mapped, matched.perm (sortByKey_perm SetPin.name backed)⟩

theorem Built.labelled {lowered : EntrypointSets}
    (built : Built job pkg table text (some lowered) rules record) :
    ∀ set ∈ job.sets, ∃ pin ∈ parsed text, pin.label = set.name := by
  rcases built.backed with ⟨pins, mapped, backed⟩
  intro set member
  have declared := Except.mapM_eq_ok.mp (selectionTable_some built.lowered).1
  rcases paired_with_mem declared member with ⟨pin, within, made⟩
  have actual := (backed.pinsMatch pin).mp (lowered.sorted_pins_perm.mem_iff.mpr within)
  rcases paired_of_mem (Except.mapM_eq_ok.mp mapped) actual with ⟨read, listed, named⟩
  refine ⟨read, listed, Str.encodeUtf8_injective ?_⟩
  exact (declaredPin_name named).symm.trans (declaredSetPin_name made)

/-- With a record that reaches the launch, an entrypoint is given the sets it selects, as the table
shows them. -/
theorem Built.selection_record {lowered : EntrypointSets}
    (built : Built job pkg table text (some lowered) rules record)
    (read : parseTable pkg.sets = parsed text) {name : Text}
    (final : name ∈ finalEntrypointNames job.opts) :
    ∃ pins, selection pkg.sets record (finalEntrypointNames job.opts) name = .ok pins ∧
      pins.Perm ((job.selected name).map shownPin) := by
  rcases built.backed with ⟨backed, mapped, matched⟩
  rcases selectionTable_some built.lowered with ⟨declared, rows⟩
  have shown := (built.parsed_eq built.labelled).1
  cases found : lowered.sorted.entrypoints.find? fun entry => entry.name = name with
  | none =>
      rcases List.mem_map.mp ((matched.namesMatch name).mpr final) with ⟨entry, within, same⟩
      exact absurd (decide_eq_true same) (List.find?_eq_none.mp found entry within)
  | some entry =>
      have within := List.mem_of_find?_eq_some found
      have named : entry.name = name := by simpa using List.find?_some found
      rcases EntrypointSets.mem_sorted_entrypoints within with ⟨original, listed, same⟩
      rcases paired_of_mem (Except.mapM_eq_ok.mp rows) listed with ⟨resolved, member, made⟩
      have ids := selectedRow_ids declared made (built.resolved.own resolved member)
        fun names own => (built.resolved.known resolved member names own).1
      have leads : resolved.name = name := by
        rw [← ids.1, ← named, ← same]
        rfl
      have sorted (id : Format.RuleId) : id ∈ entry.sets ↔ id ∈ original.sets := by
        rw [← same]
        exact (sortByKey_perm _ original.sets).mem_iff
      rw [leads] at ids
      rcases mapM_pinNamed job.sets_distinct List.filter_sublist
          (matched.valid.setsDistinct entry within)
          (fun id member => ids.2.1 id ((sorted id).mp member))
          (fun set member => by
            rcases ids.2.2 set member with ⟨id, inside, same⟩
            exact ⟨id, (sorted id).mpr inside, same⟩) with ⟨pins, ran, perm⟩
      refine ⟨pins, ?_, perm⟩
      simp only [selection, read, built.record_eq, Option.map_some, mapped, found]
      rw [Except.andThen_eq_ok]
      refine ⟨backed, rfl, ?_⟩
      rw [Except.followed_eq_ok, mapError_eq_ok, EntrypointSets.validateAgainst_eq_ok, shown]
      exact ⟨matched, ran⟩

/-- A record that names no set of a list leaves every set selected. -/
theorem Built.selected_all (built : Built job pkg table text none rules record) {name : Text}
    (final : name ∈ finalEntrypointNames job.opts) : job.selected name = job.sets := by
  rw [← built.resolved.names] at final
  rcases List.mem_map.mp final with ⟨row, member, same⟩
  have own := built.resolved.own row member
  rw [selectionTable_none built.lowered row member, same] at own
  rw [Job.selected, List.filter_eq_self]
  intro set _
  rw [selects_iff]
  intro names written
  rw [Option.mem_def.mp written] at own
  cases own

/-- Without a record the launch acquires the whole table as it is read. -/
theorem Built.parsed_perm_iff (built : Built job pkg table text none rules record) :
    (parsed text).Perm (job.sets.map pinOf) ↔ ∀ set ∈ job.sets, Recorded set := by
  constructor
  · intro perm
    have labelled : ∀ set ∈ job.sets, ∃ pin ∈ parsed text, pin.label = set.name := fun set member =>
      ⟨pinOf set, perm.mem_iff.mpr (List.mem_map_of_mem member), rfl⟩
    rcases built.parsed_eq labelled with ⟨shown, readable⟩
    rw [shown, map_shownPin_perm_iff job.sets_distinct] at perm
    intro set member
    exact ⟨(readable set member).1, (readable set member).2, perm set member⟩
  · intro recorded
    have exact : parsed text = job.sets.map pinOf := by
      rw [built.staged, tableText]
      split
      · next none =>
          rw [none]
          rfl
      · exact parse_of_recorded _ recorded
    rw [exact]

theorem defaultName_final (opts : PackOptions) : defaultName opts ∈ finalEntrypointNames opts :=
  List.mem_cons_self

/-- A table that reaches the launch gives each entrypoint its own pins where every selected set is
recorded as it is declared. -/
theorem Built.acquires_iff (built : Built job pkg table text carried rules record)
    (intact : job.sets = [] ∨ job.Intact) : job.Acquires pkg ↔
      ∀ name ∈ finalEntrypointNames job.opts, ∀ set ∈ job.selected name, Recorded set := by
  have read := (built.read intact).2
  have gate (name : Text) : (∃ metadata, validate pkg name = .ok metadata ∧
      metadata.pins.Perm ((job.selected name).map pinOf)) ↔
      ∃ pins, selection pkg.sets record (finalEntrypointNames job.opts) name = .ok pins ∧
        pins.Perm ((job.selected name).map pinOf) := by
    constructor
    · intro passed
      rcases passed with ⟨metadata, ok, perm⟩
      exact ⟨metadata.pins, ((built.gate_intact intact name).mp ok).2, perm⟩
    · intro passed
      rcases passed with ⟨pins, ok, perm⟩
      exact ⟨⟨rules, pins⟩, (built.gate_intact intact name).mpr ⟨rfl, ok⟩, perm⟩
  rw [Job.Acquires, built.names]
  apply forall_congr'
  intro name
  apply imp_congr_right
  intro final
  rw [gate name]
  cases carried with
  | none =>
      have whole : selection pkg.sets record (finalEntrypointNames job.opts) name =
          .ok (parsed text) := by
        simp only [selection, read, built.record_eq, Option.map_none]
      rw [whole, built.selected_all final, ← built.parsed_perm_iff]
      constructor
      · intro passed
        rcases passed with ⟨pins, same, perm⟩
        cases same
        exact perm
      · intro perm
        exact ⟨_, rfl, perm⟩
  | some lowered =>
      rcases built.selection_record read final with ⟨pins, selected, perm⟩
      have readable := (built.parsed_eq built.labelled).2
      have distinct : ((job.selected name).map SharedSet.name).Nodup :=
        (List.filter_sublist.map SharedSet.name).nodup job.sets_distinct
      constructor
      · intro passed set member
        rcases passed with ⟨other, same, others⟩
        rw [selected, Except.ok.injEq] at same
        have plain := (map_shownPin_perm_iff distinct).mp (perm.symm.trans (same ▸ others))
        have declared := readable set (Job.mem_selected.mp member).1
        exact ⟨declared.1, declared.2, plain set member⟩
      · intro recorded
        exact ⟨pins, selected, perm.trans ((map_shownPin_perm_iff distinct).mpr
          fun set member => (recorded set member).url)⟩

/-- A table that does not reach the launch leaves the default entrypoint without its pins. -/
theorem Built.not_acquires (built : Built job pkg table text carried rules record)
    (some : job.sets ≠ []) (lost : ¬job.Intact) : ¬job.Acquires pkg := by
  intro acquires
  have final := defaultName_final job.opts
  rw [Job.Acquires, built.names] at acquires
  rcases acquires _ final with ⟨metadata, ok, perm⟩
  rw [built.gate, Except.andThen_eq_ok] at ok
  rcases ok with ⟨sets, bounded, ok⟩
  rw [Except.followed_eq_ok] at ok
  rcases Except.andThen_eq_ok.mp ok.2 with ⟨pins, selected, same⟩
  cases same
  by_cases keeps : keepsTable job = true
  · have long : maxMetadataBytes < (Str.encodeUtf8 job.table).length :=
      not_le.mp fun short => lost ⟨keeps, short⟩
    have held : pkg.sets = Option.some (Str.encodeUtf8 job.table) := by
      rw [built.packed, packedTable, if_pos keeps, built.staged, tableText, if_neg some]
      rfl
    rw [held, readBoundedRecord, if_pos long] at bounded
    cases bounded
  · have bare : pkg.sets = none := by
      rw [built.packed, packedTable, if_neg keeps]
    rw [bare, readBoundedRecord] at bounded
    cases bounded
    cases carried with
    | none =>
        simp only [selection, built.record_eq, Option.map_none] at selected
        cases selected
        rw [built.selected_all final] at perm
        exact some (List.map_eq_nil_iff.mp perm.nil_eq.symm)
    | some lowered =>
        simp only [selection, built.record_eq, Option.map_some] at selected
        rw [Except.andThen_eq_ok] at selected
        rcases selected with ⟨backed, none, matched⟩
        cases none
        rw [Except.followed_eq_ok, mapError_eq_ok, EntrypointSets.validateAgainst_eq_ok] at matched
        have declared := Except.mapM_eq_ok.mp (selectionTable_some built.lowered).1
        cases sets : job.sets with
        | nil => exact some sets
        | cons set rest =>
            have member : set ∈ job.sets := sets ▸ List.mem_cons_self
            rcases paired_with_mem declared member with ⟨pin, within, _⟩
            have actual := (matched.1.pinsMatch pin).mp
              (lowered.sorted_pins_perm.mem_iff.mpr within)
            exact absurd actual List.not_mem_nil

end

theorem Built.acquires_iff_carried {table : List ResolvedSelection} {text : Option Str}
    {carried record : Option EntrypointSets} {rules : Option RuntimeRuleMetadata}
    (built : Built job pkg table text carried rules record) : job.Acquires pkg ↔ job.Carried := by
  by_cases intact : job.sets = [] ∨ job.Intact
  · rw [built.acquires_iff intact]
    constructor
    · intro recorded
      rcases intact with none | whole
      · exact Or.inl none
      · exact Or.inr ⟨whole, recorded⟩
    · intro carried name final set member
      rcases carried with none | whole
      · rw [Job.selected, none] at member
        exact absurd member List.not_mem_nil
      · exact whole.2 name final set member
  · rw [not_or] at intact
    refine iff_of_false (built.not_acquires intact.1 intact.2) ?_
    intro carried
    rcases carried with none | whole
    · exact intact.1 none
    · exact intact.2 whole.1

/-- A launch of a built package acquires exactly what its recipe selects just where the set table
reaches it and carries every selected set as it is declared. -/
theorem build_acquires_iff (packs : build job = .ok pkg) : job.Acquires pkg ↔ job.Carried := by
  rcases build_built packs with ⟨table, text, carried, rules, record, built⟩
  exact built.acquires_iff_carried

/-! ### Two recipes -/

def zeroHash : Str := List.replicate 64 '0'

/-- A recipe without a package database that declares one set. -/
def toolkitJob (entrypoints : List Entrypoint) (url : Str) : Job where
  recipe :=
    { command := lossyText (utf8 "app")
      sets := some ["qt".toList]
      exclude := []
      entrypoints := entrypoints
      declared := SortedMap.empty.insert "qt".toList ⟨[], url, zeroHash⟩ }
  rest := plainOptions
  appDir := ⟨false, none⟩
  closures := none
  rules := []

/-- A command that selects the set, beside an entrypoint that selects none. -/
def cliJob : Job :=
  toolkitJob [⟨lossyText (utf8 "cli"), lossyText (utf8 "app"), [], false, some []⟩]
    "https://e/qt".toList

theorem cliJob_recorded : ∀ set ∈ cliJob.sets, Recorded set := by
  intro set member
  have same : set = ⟨"qt".toList, [], "https://e/qt".toList, zeroHash⟩ := List.mem_singleton.mp member
  rw [same]
  have trimmed : Str.Trimmed "qt".toList := by
    constructor
    · intro c first
      cases first
      decide
    · intro c last
      cases last
      decide
  have plain : "https://e/qt".toList.all (fun c => !Str.isControl c) = true := by decide +kernel
  refine ⟨⟨by decide +kernel, trimmed, by decide +kernel, by decide +kernel, by decide +kernel⟩,
    by decide +kernel, ?_⟩
  intro c inside
  exact (Bool.not_eq_true' _).mp (List.all_eq_true.mp plain c inside)

theorem build_acquires_cli : ∃ pkg, build cliJob = .ok pkg ∧ cliJob.Acquires pkg := by
  have packs : (build cliJob).isOk = true := by decide +kernel
  cases ran : build cliJob with
  | error why =>
      rw [ran] at packs
      cases packs
  | ok pkg =>
      have intact : cliJob.Intact := ⟨by decide +kernel, by decide +kernel⟩
      refine ⟨pkg, rfl, (build_acquires_iff ran).mpr (Or.inr ⟨intact, ?_⟩)⟩
      intro name _ set member
      exact cliJob_recorded set (Job.mem_selected.mp member).1

/-- The tab in the address comes back as its escape. -/
def tabJob : Job :=
  { toolkitJob [] "https://e/\tqt".toList with
    recipe := { (toolkitJob [] "https://e/\tqt".toList).recipe with sets := none } }

theorem build_acquires_other : ¬∀ (job : Job) (pkg : Records), build job = .ok pkg →
    job.Acquires pkg := by
  intro every
  have packs : (build tabJob).isOk = true := by decide +kernel
  cases ran : build tabJob with
  | error why =>
      rw [ran] at packs
      cases packs
  | ok pkg =>
      rcases build_built ran with ⟨table, text, carried, rules, record, built⟩
      rcases built.acquires_iff_carried.mp (every tabJob pkg ran) with none | whole
      · cases none
      · have recorded := whole.2 _ (defaultName_final tabJob.opts)
          ⟨"qt".toList, [], "https://e/\tqt".toList, zeroHash⟩ (by decide +kernel)
        exact absurd (recorded.url '\t' (by decide +kernel)) (by decide)

end Onelf.Cli.Build
