import Onelf.Format.Catalog
import Onelf.Format.Selection
import Onelf.Lib.Chunks
import Onelf.Runtime.ExtractToCas
import Onelf.Runtime.PathGroups
import Onelf.Runtime.Sets

/-! The rule records a build lowers its catalog to (`onelf/src/rules.rs`) and what a launch makes of
them (`onelf-rt/src/env.rs`). -/

namespace Onelf.Runtime.LoweredRules

open Onelf.Lib Onelf.Format Onelf.Format.Metadata
open Onelf.Runtime.PathGroups

/-! ### The records -/

/-- The built-in descriptors; every registered hook is named by one of them. -/
structure Builtins where
  rules : List Descriptor
  registered : ∀ hook : RuntimeHookId, ∃ rule ∈ rules, hook ∈ rule.runtime.hooks

structure RuleCatalog where
  builtins : Builtins
  locals : List Descriptor
  disabled : List RuleId

/-- What a set's preparation wrote into one pin's subtree, by rule. -/
structure PreparedPin where
  set : Bytes
  pin : Str
  rules : List Bytes

inductive LowerError where
  | setName (set : Bytes) (why : RuleError)
  | pinDigest (set : Bytes)
  deriving DecidableEq

namespace RuleCatalog
variable (catalog : RuleCatalog)

/-- What `load` checks of the descriptors it read. -/
def Accepted : Prop :=
  validateCatalog catalog.builtins.rules catalog.locals catalog.disabled = .ok ()

def find (id : Bytes) : Option Descriptor :=
  (catalog.builtins.rules ++ catalog.locals).find? fun rule => rule.id.bytes = id

def enabled : List Descriptor :=
  enabledRules catalog.builtins.rules catalog.locals catalog.disabled

end RuleCatalog

def hasRuntime (rule : Descriptor) : Bool :=
  !rule.runtime.paths.isEmpty || !rule.runtime.hooks.isEmpty

def unbound (rule : Descriptor) : RuntimeRuleRecord := ⟨rule.id, none, rule.runtime⟩

def bound (binding : SetPin) (rule : Descriptor) : RuntimeRuleRecord :=
  ⟨rule.id, some binding, ⟨rule.runtime.paths, []⟩⟩

def bindingOf (prepared : PreparedPin) : Except LowerError SetPin :=
  match RuleId.setName prepared.set with
  | .error why => .error (.setName prepared.set why)
  | .ok name =>
      match Sets.hexDigest prepared.pin with
      | none => .error (.pinDigest prepared.set)
      | some hash => .ok ⟨name, hash⟩

/-- The record that one rule's preparation of a pin lowers. -/
def boundRecord (catalog : RuleCatalog) (binding : SetPin) (rule : Bytes) :
    Option RuntimeRuleRecord :=
  match catalog.find rule with
  | none => none
  | some descriptor =>
      if descriptor.runtime.paths.isEmpty || catalog.disabled.contains descriptor.id then none
      else some (bound binding descriptor)

def boundRecords (catalog : RuleCatalog) :
    List PreparedPin → Except LowerError (List RuntimeRuleRecord)
  | [] => .ok []
  | pin :: prepared => do
      let binding ← bindingOf pin
      let rest ← boundRecords catalog prepared
      .ok (pin.rules.filterMap (boundRecord catalog binding) ++ rest)

/-- `None` where the fallback reproduces the records as they are. -/
def runtimeRecords (catalog : RuleCatalog) (prepared : List PreparedPin) :
    Except LowerError (Option (List RuntimeRuleRecord)) := do
  let bindings ← boundRecords catalog prepared
  let records := (catalog.enabled.filter hasRuntime).map unbound ++ bindings
  let fallback := (catalog.builtins.rules.filter hasRuntime).map unbound
  .ok (if !bindings.isEmpty || records ≠ fallback then some records else none)

/-- What a launch finds of the records a package was given. -/
def carriedRules :
    Option (List RuntimeRuleRecord) → Except MetadataError (Option RuntimeRuleMetadata)
  | none => .ok none
  | some records => do
      let bytes ← RuntimeRuleMetadata.encode ⟨records⟩
      let rules ← RuntimeRuleMetadata.decode bytes
      .ok (some rules)

/-! ### A launch -/

def allRuntimeHooks : List RuntimeHookId :=
  [.gdkCacheAbsolutise, .gioModulePaths, .fontconfigGenerate, .tclTkLibraries,
    .alsaConfigPathNaturalSort]

def asciiLower (byte : UInt8) : UInt8 := if 65 ≤ byte ∧ byte ≤ 90 then byte + 32 else byte

/-- One of the pins a launch obtained is `binding`. -/
def obtained (pins : List ActivePin) (binding : SetPin) : Bool :=
  pins.any fun pin => pin.label = binding.name.bytes &&
    pin.hash.map asciiLower = (Extract.hex binding.hash.bytes).map asciiLower

def preparedDir (binding : SetPin) : Bytes :=
  utf8 ".onelf-prepared" ++ [slash] ++ binding.name.bytes ++ [slash] ++
    Extract.hex binding.hash.bytes

/-- A pin's prepared subtree. -/
def subtree (pkg : Path) (binding : SetPin) : Path := pkg ++ components (preparedDir binding)

/-- What paths are compared by: their components, a root before a dot before two before names. -/
def pathKey (path : Path) : List (ℕ ×ₗ Bytes) :=
  path.map fun component => match component with
    | .root => toLex (0, [])
    | .current => toLex (1, [])
    | .parent => toLex (2, [])
    | .normal name => toLex (3, name)

/-- The groups and hooks a launch evaluates, and the subtrees its hooks search too. -/
structure ActiveRules where
  groups : List ActiveGroup
  hooks : List RuntimeHookId
  prepared : List Path

/-- A group under its rule's identity and its own. -/
abbrev Keyed := (RuleId × RuleId) × ActiveGroup

/-- The group of that identity takes the subtree too; a new one comes last. -/
def placeGroup (root : Option Path) (rule : RuleId) : List Keyed → RuntimePathGroup → List Keyed
  | [], group => [((rule, group.id), ⟨group, root.toList⟩)]
  | entry :: entries, group =>
      if entry.1 = (rule, group.id) then
        (entry.1, { entry.2 with prepared := entry.2.prepared ++ root.toList }) :: entries
      else entry :: placeGroup root rule entries group

def addNew {α : Type} [DecidableEq α] (known : List α) (item : α) : List α :=
  if known.contains item then known else known ++ [item]

structure Gathered where
  entries : List Keyed
  hooks : List RuntimeHookId
  prepared : List Path

section
variable (pkg : Path) (pins : List ActivePin)

def Gathered.take (state : Gathered) (record : RuntimeRuleRecord) (root : Option Path) :
    Gathered where
  entries := record.runtime.paths.foldl (placeGroup root record.id) state.entries
  hooks := record.runtime.hooks.foldl addNew state.hooks
  prepared := root.toList.foldl addNew state.prepared

/-- A record bound to a pin that was not obtained is passed over. -/
def addRecord (state : Gathered) (record : RuntimeRuleRecord) : Gathered :=
  match record.binding with
  | none => state.take record none
  | some binding =>
      if obtained pins binding then state.take record (some (subtree pkg binding)) else state

/-- `ActiveRules::new`. -/
def activeRules (builtins : Builtins) : Option RuntimeRuleMetadata → ActiveRules
  | none => ⟨(builtins.rules.flatMap fun rule => rule.runtime.paths).map fun group => ⟨group, []⟩,
      allRuntimeHooks, []⟩
  | some carried =>
      let gathered := carried.rules.foldl (addRecord pkg pins) ⟨[], [], []⟩
      ⟨gathered.entries.map Prod.snd, gathered.hooks, sortByKey pathKey gathered.prepared⟩

end

/-- The hooks that are run for `ids`, in the registry's order. -/
def runOrder (ids : List RuntimeHookId) : List RuntimeHookId :=
  allRuntimeHooks.filter fun hook => ids.contains hook

def ActiveRules.assignments (active : ActiveRules) (kinds : Kinds) (pkg : Path)
    (libDirs setLibDirs setRoots : List Path) : List PathGroups.PathAssignment :=
  PathGroups.assignments kinds active.groups pkg libDirs setLibDirs setRoots

section
variable {ε : Type}

/-- A preserved variable keeps a value that is there. -/
def setPath (value : ε) (policy : Inheritance) (env : Bytes → Option ε) (name : Bytes) :
    Bytes → Option ε :=
  if policy = .preserve ∧ (env name).isSome then env else Function.update env name (some value)

def applyAssignment (text : List Path → ε) (env : Bytes → Option ε)
    (assignment : PathGroups.PathAssignment) : Bytes → Option ε :=
  (assignment.variableNames.map EnvironmentName.bytes).foldl
    (setPath (text assignment.value) assignment.inheritance) env

/-- What the assignments leave of an environment; `text` is how a value's paths are joined. -/
def applyPathAssignments (text : List Path → ε) (env : Bytes → Option ε)
    (assignments : List PathGroups.PathAssignment) : Bytes → Option ε :=
  assignments.foldl (applyAssignment text) env

end

/-! ### What the catalog asks for -/

/-- The pin, where the rule wrote into its preparation. -/
def writtenBy (rule : Descriptor) (pin : PreparedPin) : Option SetPin :=
  if pin.rules.contains rule.id.bytes then (bindingOf pin).toOption else none

/-- The pins whose preparation the rule wrote into, in canonical order. -/
def writtenInto (prepared : List PreparedPin) (rule : Descriptor) : List SetPin :=
  sortByKey (fun binding => binding) (prepared.filterMap (writtenBy rule))

/-- The subtrees of those of the pins that the launch obtained. -/
def subtrees (pkg : Path) (pins : List ActivePin) (bindings : List SetPin) : List Path :=
  (bindings.filter (obtained pins)).map (subtree pkg)

section
variable (prepared : List PreparedPin) (pkg : Path) (pins : List ActivePin)

/-- The path groups of one rule with the subtrees of its obtained pins. -/
def ruleGroups (rule : Descriptor) : List ActiveGroup :=
  rule.runtime.paths.map fun group =>
    ⟨group, subtrees pkg pins (writtenInto prepared rule)⟩

/-- Every path group of the enabled descriptors once, in identity and declaration order. -/
def catalogGroups (catalog : RuleCatalog) : List ActiveGroup :=
  catalog.enabled.flatMap (ruleGroups prepared pkg pins)

/-- The subtrees that a rule with path groups was prepared into. -/
def ruleRoots (rule : Descriptor) : List Path :=
  if rule.runtime.paths = [] then [] else subtrees pkg pins (writtenInto prepared rule)

/-- One rule's groups evaluated against the application, its pins' subtrees and the sets. -/
def ruleAssignments (kinds : Kinds) (libDirs setLibDirs setRoots : List Path)
    (rule : Descriptor) : List PathGroups.PathAssignment :=
  let roots := subtrees pkg pins (writtenInto prepared rule)
  rule.runtime.paths.filterMap (evaluatePathGroup kinds [⟨[pkg], libDirs⟩,
    ⟨roots, preparedLibDirs pkg libDirs roots⟩, ⟨setRoots, setLibDirs⟩])

def catalogAssignments (catalog : RuleCatalog) (kinds : Kinds)
    (libDirs setLibDirs setRoots : List Path) : List PathGroups.PathAssignment :=
  catalog.enabled.flatMap (ruleAssignments prepared pkg pins kinds libDirs setLibDirs setRoots)

end

/-! ### The records in canonical order -/

section
variable {catalog : RuleCatalog} {prepared : List PreparedPin}

theorem mem_enabled {rule : Descriptor} : rule ∈ catalog.enabled ↔
    rule ∈ catalog.builtins.rules ++ catalog.locals ∧ rule.id ∉ catalog.disabled := mem_enabledRules

theorem ascending_enabled (accepted : catalog.Accepted) :
    catalog.enabled.Pairwise fun left right => left.id < right.id := by
  have distinct := (validateCatalog_eq_ok.mp accepted).distinct
  exact List.pairwise_map.mp (sortByKey_sorted
    (distinct.sublist (List.filter_sublist.map Descriptor.id)))

theorem find_eq_some (accepted : catalog.Accepted) {id : Bytes} {rule : Descriptor} :
    catalog.find id = some rule ↔
      rule ∈ catalog.builtins.rules ++ catalog.locals ∧ rule.id.bytes = id := by
  have distinct := (validateCatalog_eq_ok.mp accepted).distinct
  constructor
  · intro found
    exact ⟨List.mem_of_find?_eq_some found, by simpa using List.find?_some found⟩
  · rintro ⟨listed, same⟩
    cases found : catalog.find id with
    | none =>
        have missing := List.find?_eq_none.mp found rule listed
        rw [decide_eq_true_iff] at missing
        exact absurd same missing
    | some other =>
        have there := List.mem_of_find?_eq_some found
        have named : other.id.bytes = id := by simpa using List.find?_some found
        rw [List.inj_on_of_nodup_map distinct there listed (RuleId.ext (named.trans same.symm))]

/-- The records bound to the pins, each with the rule it comes from. -/
theorem mem_boundRecords (accepted : catalog.Accepted) {records : List RuntimeRuleRecord}
    (lowered : boundRecords catalog prepared = .ok records) {record : RuntimeRuleRecord} :
    record ∈ records ↔ ∃ pin ∈ prepared, ∃ binding, bindingOf pin = .ok binding ∧
      ∃ rule ∈ catalog.enabled, rule.id.bytes ∈ pin.rules ∧ rule.runtime.paths ≠ [] ∧
        record = bound binding rule := by
  have own : ∀ binding name, boundRecord catalog binding name = some record ↔
      ∃ rule ∈ catalog.enabled, rule.id.bytes = name ∧ rule.runtime.paths ≠ [] ∧
        record = bound binding rule := by
    intro binding name
    rw [boundRecord]
    constructor
    · intro given
      cases found : catalog.find name with
      | none =>
          rw [found] at given
          cases given
      | some rule =>
          rw [found] at given
          obtain ⟨kept, same⟩ := Option.ite_none_left_eq_some.mp given
          obtain ⟨listed, named⟩ := (find_eq_some accepted).mp found
          rw [Bool.or_eq_true, not_or, List.isEmpty_iff, List.contains_iff_mem] at kept
          exact ⟨rule, mem_enabled.mpr ⟨listed, kept.2⟩, named, kept.1, (Option.some.inj same).symm⟩
    · rintro ⟨rule, enabled, named, paths, rfl⟩
      obtain ⟨listed, kept⟩ := mem_enabled.mp enabled
      rw [(find_eq_some accepted).mpr ⟨listed, named⟩]
      apply if_neg
      rw [Bool.or_eq_true, not_or, List.isEmpty_iff, List.contains_iff_mem]
      exact ⟨paths, kept⟩
  induction prepared generalizing records with
  | nil =>
      cases lowered
      simp
  | cons pin prepared ih =>
      rw [boundRecords] at lowered
      obtain ⟨binding, read, lowered⟩ := Except.andThen_eq_ok.mp lowered
      obtain ⟨rest, later, lowered⟩ := Except.andThen_eq_ok.mp lowered
      cases lowered
      rw [List.mem_append, List.mem_filterMap]
      refine (or_congr_right (ih later)).trans ?_
      simp only [own, List.exists_mem_cons_iff, read, Except.ok.injEq, exists_eq_left']
      constructor
      · rintro (⟨name, listed, rule, enabled, rfl, rest⟩ | other)
        · exact Or.inl ⟨rule, enabled, listed, rest⟩
        · exact Or.inr other
      · rintro (⟨rule, enabled, listed, rest⟩ | other)
        · exact Or.inl ⟨_, listed, rule, enabled, rfl, rest⟩
        · exact Or.inr other

theorem writtenBy_eq_some {rule : Descriptor} {pin : PreparedPin} {binding : SetPin} :
    writtenBy rule pin = some binding ↔
      bindingOf pin = .ok binding ∧ rule.id.bytes ∈ pin.rules := by
  rw [writtenBy, Option.ite_none_right_eq_some, List.contains_iff_mem, and_comm]
  cases bindingOf pin with
  | error why => simp [Except.toOption]
  | ok other => simp [Except.toOption]

theorem mem_writtenInto {rule : Descriptor} {binding : SetPin} :
    binding ∈ writtenInto prepared rule ↔
      ∃ pin ∈ prepared, bindingOf pin = .ok binding ∧ rule.id.bytes ∈ pin.rules := by
  rw [writtenInto, (sortByKey_perm _ _).mem_iff, List.mem_filterMap]
  simp only [writtenBy_eq_some]

/-- The records of one rule, its own and then those of its pins. -/
def ruleRecords (prepared : List PreparedPin) (rule : Descriptor) : List RuntimeRuleRecord :=
  unbound rule :: if rule.runtime.paths = [] then [] else
    (writtenInto prepared rule).map fun binding => bound binding rule

/-- All of them, rule by rule. -/
def canonicalRecords (catalog : RuleCatalog) (prepared : List PreparedPin) :
    List RuntimeRuleRecord :=
  (catalog.enabled.filter hasRuntime).flatMap (ruleRecords prepared)

theorem hasRuntime_of_paths {rule : Descriptor} (paths : rule.runtime.paths ≠ []) :
    hasRuntime rule = true := by
  rw [hasRuntime, Bool.or_eq_true, Bool.not_eq_true', List.isEmpty_eq_false_iff]
  exact Or.inl paths

theorem mem_canonicalRecords (accepted : catalog.Accepted) {bindings : List RuntimeRuleRecord}
    (lowered : boundRecords catalog prepared = .ok bindings) (record : RuntimeRuleRecord) :
    record ∈ (catalog.enabled.filter hasRuntime).map unbound ++ bindings ↔
      record ∈ canonicalRecords catalog prepared := by
  rw [List.mem_append, mem_boundRecords accepted lowered, List.mem_map, canonicalRecords,
    List.mem_flatMap]
  simp only [ruleRecords, List.mem_cons]
  constructor
  · rintro (⟨rule, member, rfl⟩ | ⟨pin, listed, binding, read, rule, enabled, names, paths, rfl⟩)
    · exact ⟨rule, member, Or.inl rfl⟩
    · refine ⟨rule, List.mem_filter.mpr ⟨enabled, hasRuntime_of_paths paths⟩, Or.inr ?_⟩
      rw [if_neg paths]
      exact List.mem_map_of_mem (mem_writtenInto.mpr ⟨pin, listed, read, names⟩)
  · rintro ⟨rule, member, rfl | listed⟩
    · exact Or.inl ⟨rule, member, rfl⟩
    · split at listed
      · cases listed
      · next paths =>
          obtain ⟨binding, written, rfl⟩ := List.mem_map.mp listed
          obtain ⟨pin, there, read, names⟩ := mem_writtenInto.mp written
          exact Or.inr ⟨pin, there, binding, read, rule, (List.mem_filter.mp member).1, names,
            paths, rfl⟩

/-- The records of a rule that a pin lists are among those of the pins, each for its own pin. -/
theorem bound_sublist (accepted : catalog.Accepted) {bindings : List RuntimeRuleRecord}
    (lowered : boundRecords catalog prepared = .ok bindings) {rule : Descriptor}
    (enabled : rule ∈ catalog.enabled) (paths : rule.runtime.paths ≠ []) :
    ((prepared.filterMap (writtenBy rule)).map fun binding => bound binding rule).Sublist
      bindings := by
  obtain ⟨listed, kept⟩ := mem_enabled.mp enabled
  have own : ∀ binding, boundRecord catalog binding rule.id.bytes = some (bound binding rule) := by
    intro binding
    rw [boundRecord, (find_eq_some accepted).mpr ⟨listed, rfl⟩]
    apply if_neg
    rw [Bool.or_eq_true, not_or, List.isEmpty_iff, List.contains_iff_mem]
    exact ⟨paths, kept⟩
  induction prepared generalizing bindings with
  | nil => exact List.nil_sublist _
  | cons pin prepared ih =>
      rw [boundRecords] at lowered
      obtain ⟨binding, read, lowered⟩ := Except.andThen_eq_ok.mp lowered
      obtain ⟨rest, later, lowered⟩ := Except.andThen_eq_ok.mp lowered
      cases lowered
      have below := ih later
      cases written : writtenBy rule pin with
      | none =>
          rw [List.filterMap_cons_none written]
          exact below.trans (List.sublist_append_right _ _)
      | some other =>
          obtain ⟨same, names⟩ := writtenBy_eq_some.mp written
          rw [read, Except.ok.injEq] at same
          rw [List.filterMap_cons_some written, ← same, List.map_cons]
          have inside : bound binding rule ∈ pin.rules.filterMap (boundRecord catalog binding) :=
            List.mem_filterMap.mpr ⟨_, names, own binding⟩
          exact (List.singleton_sublist.mpr inside).append below

theorem nodup_writtenInto (accepted : catalog.Accepted) {bindings : List RuntimeRuleRecord}
    (lowered : boundRecords catalog prepared = .ok bindings)
    (distinct : (bindings.map RuntimeRuleRecord.scopedIdentity).Nodup) {rule : Descriptor}
    (enabled : rule ∈ catalog.enabled) (paths : rule.runtime.paths ≠ []) :
    ((prepared.filterMap (writtenBy rule)).map fun binding => binding).Nodup := by
  have sublist :=
    (bound_sublist accepted lowered enabled paths).map RuntimeRuleRecord.scopedIdentity
  have keys := distinct.sublist sublist
  rw [List.map_map] at keys
  rw [List.map_id']
  exact keys.of_map

theorem scopedIdentity_of_id {left right : RuntimeRuleRecord} (less : left.id < right.id) :
    left.scopedIdentity < right.scopedIdentity := Prod.Lex.lt_iff.mpr (Or.inl less)

theorem unbound_lt_bound (rule : Descriptor) (binding : SetPin) :
    (unbound rule).scopedIdentity < (bound binding rule).scopedIdentity :=
  Prod.Lex.lt_iff.mpr (Or.inr ⟨rfl, WithBot.bot_lt_coe binding⟩)

theorem bound_lt_bound (rule : Descriptor) {first second : SetPin} (less : first < second) :
    (bound first rule).scopedIdentity < (bound second rule).scopedIdentity :=
  Prod.Lex.lt_iff.mpr (Or.inr ⟨rfl, WithBot.coe_lt_coe.mpr less⟩)

theorem pairwise_canonicalRecords (accepted : catalog.Accepted) {bindings : List RuntimeRuleRecord}
    (lowered : boundRecords catalog prepared = .ok bindings)
    (distinct : (bindings.map RuntimeRuleRecord.scopedIdentity).Nodup) :
    (canonicalRecords catalog prepared).Pairwise fun left right =>
      left.scopedIdentity < right.scopedIdentity := by
  have identities : ∀ rule record, record ∈ ruleRecords prepared rule → record.id = rule.id := by
    intro rule record member
    rw [ruleRecords] at member
    rcases List.mem_cons.mp member with rfl | listed
    · rfl
    · split at listed
      · cases listed
      · obtain ⟨binding, -, rfl⟩ := List.mem_map.mp listed
        rfl
  rw [canonicalRecords, List.pairwise_flatMap]
  constructor
  · intro rule member
    obtain ⟨enabled, -⟩ := List.mem_filter.mp member
    rw [ruleRecords, List.pairwise_cons]
    constructor
    · intro record listed
      split at listed
      · cases listed
      · obtain ⟨binding, -, rfl⟩ := List.mem_map.mp listed
        exact unbound_lt_bound rule binding
    · split
      · exact List.Pairwise.nil
      · next paths =>
          have once := nodup_writtenInto accepted lowered distinct enabled paths
          have sorted := sortByKey_sorted once
          rw [List.map_id'] at sorted
          rw [List.pairwise_map]
          refine List.Pairwise.imp ?_ sorted
          intro first second less
          exact bound_lt_bound rule less
  · have ascending : (catalog.enabled.filter hasRuntime).Pairwise fun left right =>
        left.id < right.id := by
      exact (ascending_enabled accepted).sublist List.filter_sublist
    refine ascending.imp ?_
    intro first second less left inLeft right inRight
    apply scopedIdentity_of_id
    rw [identities first left inLeft, identities second right inRight]
    exact less

/-- What a launch decodes of a lowered record. -/
theorem sorted_eq_canonicalRecords (accepted : catalog.Accepted) {bindings : List RuntimeRuleRecord}
    (lowered : boundRecords catalog prepared = .ok bindings)
    (distinct : (((catalog.enabled.filter hasRuntime).map unbound ++ bindings).map
      RuntimeRuleRecord.scopedIdentity).Nodup) :
    sortByKey RuntimeRuleRecord.scopedIdentity
      ((catalog.enabled.filter hasRuntime).map unbound ++ bindings) =
        canonicalRecords catalog prepared := by
  have own : (bindings.map RuntimeRuleRecord.scopedIdentity).Nodup := by
    rw [List.map_append] at distinct
    exact (List.nodup_append.mp distinct).2.1
  have irreflexive : Std.Irrefl fun left right : RuntimeRuleRecord =>
      left.scopedIdentity < right.scopedIdentity := ⟨fun _ => lt_irrefl _⟩
  have antisymmetric : Std.Antisymm fun left right : RuntimeRuleRecord =>
      left.scopedIdentity < right.scopedIdentity :=
    ⟨fun _ _ first second => absurd second (lt_asymm first)⟩
  apply List.Pairwise.eq_of_mem_iff (List.pairwise_map.mp (sortByKey_sorted distinct))
    (pairwise_canonicalRecords accepted lowered own)
  intro record
  rw [(sortByKey_perm _ _).mem_iff]
  exact mem_canonicalRecords accepted lowered record

end

/-! ### What a launch gathers -/

theorem placeGroup_fresh {root : Option Path} {rule : RuleId} {group : RuntimePathGroup}
    {entries : List Keyed} (fresh : ∀ entry ∈ entries, entry.1 ≠ (rule, group.id)) :
    placeGroup root rule entries group =
      entries ++ [((rule, group.id), ⟨group, root.toList⟩)] := by
  induction entries with
  | nil => rfl
  | cons entry entries ih =>
      rw [List.forall_mem_cons] at fresh
      rw [placeGroup, if_neg fresh.1, ih fresh.2, List.cons_append]

theorem placeGroup_known {root : Option Path} {rule : RuleId} {group : RuntimePathGroup}
    {before : List Keyed} (fresh : ∀ entry ∈ before, entry.1 ≠ (rule, group.id))
    (active : ActiveGroup) (after : List Keyed) :
    placeGroup root rule (before ++ ((rule, group.id), active) :: after) group =
      before ++ ((rule, group.id), { active with prepared := active.prepared ++ root.toList }) ::
        after := by
  induction before with
  | nil => exact if_pos rfl
  | cons entry before ih =>
      rw [List.forall_mem_cons] at fresh
      rw [List.cons_append, placeGroup, if_neg fresh.1, ih fresh.2, List.cons_append]

/-- The groups of a rule under their keys, all with the same subtrees. -/
def keyed (rule : RuleId) (roots : List Path) (groups : List RuntimePathGroup) : List Keyed :=
  groups.map fun group => ((rule, group.id), ⟨group, roots⟩)

theorem key_ne_of_nodup {rule : RuleId} {group : RuntimePathGroup} {groups : List RuntimePathGroup}
    (distinct : ((group :: groups).map RuntimePathGroup.id).Nodup) {entries : List Keyed}
    (fresh : ∀ entry ∈ entries, ∀ other ∈ group :: groups, entry.1 ≠ (rule, other.id))
    (active : ActiveGroup) :
    ∀ entry ∈ entries ++ [((rule, group.id), active)], ∀ other ∈ groups,
      entry.1 ≠ (rule, other.id) := by
  intro entry member other listed
  rcases List.mem_append.mp member with earlier | last
  · exact fresh entry earlier other (List.mem_cons_of_mem _ listed)
  · rw [List.mem_singleton.mp last]
    intro same
    rw [List.map_cons, List.nodup_cons] at distinct
    apply distinct.1
    rw [(Prod.mk.inj same).2]
    exact List.mem_map_of_mem listed

/-- Groups that are new come last. -/
theorem foldl_placeGroup_fresh {root : Option Path} {rule : RuleId}
    {groups : List RuntimePathGroup} (distinct : (groups.map RuntimePathGroup.id).Nodup)
    {entries : List Keyed}
    (fresh : ∀ entry ∈ entries, ∀ group ∈ groups, entry.1 ≠ (rule, group.id)) :
    groups.foldl (placeGroup root rule) entries = entries ++ keyed rule root.toList groups := by
  induction groups generalizing entries with
  | nil => exact (List.append_nil entries).symm
  | cons group groups ih =>
      have here : ∀ entry ∈ entries, entry.1 ≠ (rule, group.id) := fun entry member =>
        fresh entry member group List.mem_cons_self
      have later := key_ne_of_nodup distinct fresh ⟨group, root.toList⟩
      rw [List.foldl_cons, placeGroup_fresh here, ih (List.nodup_cons.mp distinct).2 later,
        List.append_assoc]
      rfl

/-- Groups that are known take one more subtree. -/
theorem foldl_placeGroup_known {root : Option Path} {rule : RuleId} {roots : List Path}
    {groups : List RuntimePathGroup} (distinct : (groups.map RuntimePathGroup.id).Nodup)
    {entries : List Keyed}
    (fresh : ∀ entry ∈ entries, ∀ group ∈ groups, entry.1 ≠ (rule, group.id)) :
    groups.foldl (placeGroup root rule) (entries ++ keyed rule roots groups) =
      entries ++ keyed rule (roots ++ root.toList) groups := by
  induction groups generalizing entries with
  | nil => rfl
  | cons group groups ih =>
      have here : ∀ entry ∈ entries, entry.1 ≠ (rule, group.id) := fun entry member =>
        fresh entry member group List.mem_cons_self
      have later := key_ne_of_nodup distinct fresh ⟨group, roots ++ root.toList⟩
      have rest := ih (List.nodup_cons.mp distinct).2 later
      rw [List.append_assoc, List.append_assoc] at rest
      rw [List.foldl_cons, keyed, List.map_cons, placeGroup_known here]
      exact rest

section
variable {pkg : Path} {pins : List ActivePin}

theorem foldl_bound {rule : Descriptor}
    (distinct : (rule.runtime.paths.map RuntimePathGroup.id).Nodup)
    {entries : List Keyed} (fresh : ∀ entry ∈ entries, entry.1.1 ≠ rule.id) (roots : List Path)
    (hooks : List RuntimeHookId) (known : List Path) (bindings : List SetPin) :
    (bindings.map fun binding => bound binding rule).foldl (addRecord pkg pins)
        ⟨entries ++ keyed rule.id roots rule.runtime.paths, hooks, known⟩ =
      ⟨entries ++ keyed rule.id (roots ++ subtrees pkg pins bindings) rule.runtime.paths, hooks,
        (subtrees pkg pins bindings).foldl addNew known⟩ := by
  induction bindings generalizing roots known with
  | nil => simp [subtrees]
  | cons binding bindings ih =>
      have apart : ∀ entry ∈ entries, ∀ group ∈ rule.runtime.paths, entry.1 ≠ (rule.id, group.id) :=
        fun entry member group _ same => fresh entry member (congrArg Prod.fst same)
      rw [List.map_cons, List.foldl_cons]
      cases active : obtained pins binding with
      | false =>
          have here : subtrees pkg pins (binding :: bindings) = subtrees pkg pins bindings := by
            simp [subtrees, active]
          rw [here, ← ih roots known]
          simp [addRecord, bound, active]
      | true =>
          have here : subtrees pkg pins (binding :: bindings) =
              subtree pkg binding :: subtrees pkg pins bindings := by
            simp [subtrees, active]
          have placed := @foldl_placeGroup_known (some (subtree pkg binding)) rule.id roots
            rule.runtime.paths distinct entries apart
          have step : addRecord pkg pins
              ⟨entries ++ keyed rule.id roots rule.runtime.paths, hooks, known⟩
              (bound binding rule) = ⟨entries ++ keyed rule.id (roots ++ [subtree pkg binding])
                rule.runtime.paths, hooks, addNew known (subtree pkg binding)⟩ := by
            simp only [addRecord, bound, active, if_true, Gathered.take, List.foldl_nil]
            rw [placed]
            rfl
          rw [step, ih, here, List.append_assoc]
          rfl

/-- What a rule's records leave: its groups with its pins' subtrees. -/
theorem foldl_ruleRecords {prepared : List PreparedPin} {rule : Descriptor}
    (distinct : (rule.runtime.paths.map RuntimePathGroup.id).Nodup) {entries : List Keyed}
    (fresh : ∀ entry ∈ entries, entry.1.1 ≠ rule.id) (hooks : List RuntimeHookId)
    (known : List Path) :
    (ruleRecords prepared rule).foldl (addRecord pkg pins) ⟨entries, hooks, known⟩ =
      ⟨entries ++ keyed rule.id (subtrees pkg pins (writtenInto prepared rule)) rule.runtime.paths,
        rule.runtime.hooks.foldl addNew hooks,
        (ruleRoots prepared pkg pins rule).foldl addNew known⟩ := by
  have apart : ∀ entry ∈ entries, ∀ group ∈ rule.runtime.paths, entry.1 ≠ (rule.id, group.id) :=
    fun entry member group _ same => fresh entry member (congrArg Prod.fst same)
  have first : addRecord pkg pins ⟨entries, hooks, known⟩ (unbound rule) =
      ⟨entries ++ keyed rule.id [] rule.runtime.paths, rule.runtime.hooks.foldl addNew hooks,
        known⟩ := by
    have placed := @foldl_placeGroup_fresh none rule.id rule.runtime.paths distinct entries apart
    simp only [addRecord, unbound, Gathered.take]
    rw [placed]
    rfl
  rw [ruleRecords, List.foldl_cons, first, ruleRoots]
  split
  · next none =>
      rw [none]
      rfl
  · rw [foldl_bound distinct fresh, List.nil_append]

theorem fst_of_keyed {rule : RuleId} {roots : List Path} {groups : List RuntimePathGroup}
    {entry : Keyed} (member : entry ∈ keyed rule roots groups) : entry.1.1 = rule := by
  obtain ⟨group, -, rfl⟩ := List.mem_map.mp member
  rfl

theorem foldl_records {prepared : List PreparedPin} {rules : List Descriptor}
    (identities : (rules.map Descriptor.id).Nodup)
    (distinct : ∀ rule ∈ rules, (rule.runtime.paths.map RuntimePathGroup.id).Nodup)
    {entries : List Keyed} (fresh : ∀ entry ∈ entries, ∀ rule ∈ rules, entry.1.1 ≠ rule.id)
    (hooks : List RuntimeHookId) (known : List Path) :
    (rules.flatMap (ruleRecords prepared)).foldl (addRecord pkg pins) ⟨entries, hooks, known⟩ =
      ⟨entries ++ rules.flatMap fun rule =>
          keyed rule.id (subtrees pkg pins (writtenInto prepared rule)) rule.runtime.paths,
        (rules.flatMap fun rule => rule.runtime.hooks).foldl addNew hooks,
        (rules.flatMap (ruleRoots prepared pkg pins)).foldl addNew known⟩ := by
  induction rules generalizing entries hooks known with
  | nil => simp
  | cons rule rules ih =>
      rw [List.map_cons, List.nodup_cons] at identities
      rw [List.forall_mem_cons] at distinct
      have here : ∀ entry ∈ entries, entry.1.1 ≠ rule.id := fun entry member =>
        fresh entry member rule List.mem_cons_self
      have later : ∀ entry ∈ entries ++
          keyed rule.id (subtrees pkg pins (writtenInto prepared rule)) rule.runtime.paths,
          ∀ other ∈ rules, entry.1.1 ≠ other.id := by
        intro entry member other listed
        rcases List.mem_append.mp member with earlier | own
        · exact fresh entry earlier other (List.mem_cons_of_mem _ listed)
        · rw [fst_of_keyed own]
          intro same
          exact identities.1 (same ▸ List.mem_map_of_mem listed)
      rw [List.flatMap_cons, List.foldl_append, foldl_ruleRecords distinct.1 here,
        ih identities.2 distinct.2 later, List.flatMap_cons, List.flatMap_cons, List.flatMap_cons,
        List.append_assoc, List.foldl_append, List.foldl_append]

end

section
variable {α : Type} [DecidableEq α]

theorem mem_foldl_addNew {known more : List α} {item : α} :
    item ∈ more.foldl addNew known ↔ item ∈ known ∨ item ∈ more := by
  induction more generalizing known with
  | nil => simp
  | cons first more ih =>
      rw [List.foldl_cons, ih, addNew, List.mem_cons]
      split
      · next old =>
          rw [List.contains_iff_mem] at old
          constructor
          · exact Or.imp_right Or.inr
          · rintro (held | rfl | later)
            · exact Or.inl held
            · exact Or.inl old
            · exact Or.inr later
      · rw [List.mem_append, List.mem_singleton, or_assoc]

theorem nodup_foldl_addNew {known : List α} (once : known.Nodup) (more : List α) :
    (more.foldl addNew known).Nodup := by
  induction more generalizing known with
  | nil => exact once
  | cons first more ih =>
      rw [List.foldl_cons]
      apply ih
      rw [addNew]
      split
      · exact once
      · next new =>
          rw [List.contains_iff_mem] at new
          refine List.nodup_append.mpr ⟨once, List.nodup_singleton _, ?_⟩
          intro item held other last same
          exact new (List.mem_singleton.mp last ▸ same ▸ held)

end

theorem pathKey_injective : Function.Injective pathKey := by
  apply List.map_injective_iff.mpr
  intro left right same
  cases left <;> cases right <;> simp_all

/-! ### The two agree -/

section
variable {catalog : RuleCatalog} {prepared : List PreparedPin}

theorem groups_distinct (accepted : catalog.Accepted) {rule : Descriptor}
    (enabled : rule ∈ catalog.enabled) : (rule.runtime.paths.map RuntimePathGroup.id).Nodup := by
  have fields := (validateCatalog_eq_ok.mp accepted).each rule (mem_enabled.mp enabled).1
  have runtime := (Descriptor.checked_of_validateFields fields).runtime
  rw [RuntimeRules.validateFields, Except.followed_eq_ok] at runtime
  exact (eachUnique_eq_ok.mp runtime.1).2.2

theorem nodup_enabled (accepted : catalog.Accepted) : (catalog.enabled.map Descriptor.id).Nodup :=
  (validateCatalog_eq_ok.mp accepted).nodup_enabledRules

theorem hasRuntime_eq_false {rule : Descriptor} :
    hasRuntime rule = false ↔ rule.runtime.paths = [] ∧ rule.runtime.hooks = [] := by
  rw [hasRuntime, Bool.or_eq_false_iff, Bool.not_eq_false', Bool.not_eq_false', List.isEmpty_iff,
    List.isEmpty_iff]

/-- The records of a launch that carries them. -/
theorem activeRules_some (accepted : catalog.Accepted) {bindings : List RuntimeRuleRecord}
    (lowered : boundRecords catalog prepared = .ok bindings)
    (distinct : (((catalog.enabled.filter hasRuntime).map unbound ++ bindings).map
      RuntimeRuleRecord.scopedIdentity).Nodup) (pkg : Path) (pins : List ActivePin) :
    activeRules pkg pins catalog.builtins (some (RuntimeRuleMetadata.sorted
        ⟨(catalog.enabled.filter hasRuntime).map unbound ++ bindings⟩)) =
      ⟨catalogGroups prepared pkg pins catalog,
        (catalog.enabled.flatMap fun rule => rule.runtime.hooks).foldl addNew [],
        sortByKey pathKey
          ((catalog.enabled.flatMap (ruleRoots prepared pkg pins)).foldl addNew [])⟩ := by
  have canonical := sorted_eq_canonicalRecords accepted lowered distinct
  have within : ∀ rule ∈ catalog.enabled.filter hasRuntime,
      (rule.runtime.paths.map RuntimePathGroup.id).Nodup := fun rule member =>
    groups_distinct accepted (List.mem_filter.mp member).1
  have gathered := @foldl_records pkg pins prepared (catalog.enabled.filter hasRuntime)
    ((nodup_enabled accepted).sublist (List.filter_sublist.map _)) within [] nofun [] []
  have hooks : (catalog.enabled.filter hasRuntime).flatMap (fun rule => rule.runtime.hooks) =
      catalog.enabled.flatMap fun rule => rule.runtime.hooks :=
    flatMap_filter_of_nil fun rule _ none => (hasRuntime_eq_false.mp none).2
  have roots : (catalog.enabled.filter hasRuntime).flatMap (ruleRoots prepared pkg pins) =
      catalog.enabled.flatMap (ruleRoots prepared pkg pins) :=
    flatMap_filter_of_nil fun rule _ none => if_pos (hasRuntime_eq_false.mp none).1
  have groups : (catalog.enabled.filter hasRuntime).flatMap (ruleGroups prepared pkg pins) =
      catalogGroups prepared pkg pins catalog :=
    flatMap_filter_of_nil fun rule _ none => by
      rw [ruleGroups, (hasRuntime_eq_false.mp none).1, List.map_nil]
  rw [activeRules]
  dsimp only [RuntimeRuleMetadata.sorted]
  rw [canonical, canonicalRecords, gathered, hooks, roots, ← groups, List.nil_append,
    List.map_flatMap]
  congr 2
  funext rule
  rw [keyed, List.map_map, ruleGroups]
  rfl

theorem writtenInto_eq_nil (accepted : catalog.Accepted)
    (lowered : boundRecords catalog prepared = .ok []) {rule : Descriptor}
    (enabled : rule ∈ catalog.enabled) (paths : rule.runtime.paths ≠ []) :
    writtenInto prepared rule = [] := by
  rw [List.eq_nil_iff_forall_not_mem]
  intro binding written
  obtain ⟨pin, listed, read, names⟩ := mem_writtenInto.mp written
  have inside := (mem_boundRecords accepted lowered).mpr
    ⟨pin, listed, binding, read, rule, enabled, names, paths, rfl⟩
  cases inside

/-- The groups of a launch without a record, where the fallback's records are the catalog's. -/
theorem groups_none (accepted : catalog.Accepted)
    (lowered : boundRecords catalog prepared = .ok [])
    (same : (catalog.enabled.filter hasRuntime).map unbound =
      (catalog.builtins.rules.filter hasRuntime).map unbound) (pkg : Path) (pins : List ActivePin) :
    (activeRules pkg pins catalog.builtins none).groups =
      catalogGroups prepared pkg pins catalog := by
  have paths : ∀ rules : List Descriptor, rules.flatMap (fun rule => rule.runtime.paths) =
      ((rules.filter hasRuntime).map unbound).flatMap fun record => record.runtime.paths := by
    intro rules
    rw [List.flatMap_map]
    exact (flatMap_filter_of_nil fun rule _ none => (hasRuntime_eq_false.mp none).1).symm
  have bare : catalogGroups prepared pkg pins catalog =
      (catalog.enabled.flatMap fun rule => rule.runtime.paths).map fun group => ⟨group, []⟩ := by
    rw [catalogGroups, List.map_flatMap]
    apply List.flatMap_congr
    intro rule enabled
    rw [ruleGroups]
    by_cases none : rule.runtime.paths = []
    · rw [none]
      rfl
    · rw [writtenInto_eq_nil accepted lowered enabled none]
      rfl
  rw [bare, paths, same, ← paths]
  rfl

/-- A launch without a record runs every hook, and each of them some enabled descriptor names. -/
theorem mem_hooks_none (same : (catalog.enabled.filter hasRuntime).map unbound =
      (catalog.builtins.rules.filter hasRuntime).map unbound) (hook : RuntimeHookId) :
    hook ∈ allRuntimeHooks ↔ ∃ rule ∈ catalog.enabled, hook ∈ rule.runtime.hooks := by
  constructor
  · intro _
    obtain ⟨rule, listed, names⟩ := catalog.builtins.registered hook
    have runtime : hasRuntime rule = true := by
      rw [hasRuntime, Bool.or_eq_true, Bool.not_eq_true', Bool.not_eq_true',
        List.isEmpty_eq_false_iff, List.isEmpty_eq_false_iff]
      exact Or.inr (List.ne_nil_of_mem names)
    have inside : unbound rule ∈ (catalog.enabled.filter hasRuntime).map unbound := by
      rw [same]
      exact List.mem_map_of_mem (List.mem_filter.mpr ⟨listed, runtime⟩)
    obtain ⟨other, member, record⟩ := List.mem_map.mp inside
    refine ⟨other, (List.mem_filter.mp member).1, ?_⟩
    have alike : other.runtime = rule.runtime := congrArg RuntimeRuleRecord.runtime record
    rw [alike]
    exact names
  · intro _
    cases hook <;> decide

/-- A launch without a record was prepared nothing. -/
theorem ruleRoots_eq_nil (accepted : catalog.Accepted)
    (lowered : boundRecords catalog prepared = .ok []) {rule : Descriptor}
    (enabled : rule ∈ catalog.enabled) (pkg : Path) (pins : List ActivePin) :
    ruleRoots prepared pkg pins rule = [] := by
  rw [ruleRoots]
  split
  · rfl
  · next paths =>
      rw [writtenInto_eq_nil accepted lowered enabled paths]
      rfl

theorem allRuntimeHooks_nodup : allRuntimeHooks.Nodup := by decide

/-- What a launch makes of the records is what the catalog asks for. -/
structure Agrees (catalog : RuleCatalog) (prepared : List PreparedPin) (pkg : Path)
    (pins : List ActivePin) (active : ActiveRules) : Prop where
  groups : active.groups = catalogGroups prepared pkg pins catalog
  once : active.hooks.Nodup
  hooks : ∀ hook, hook ∈ active.hooks ↔ ∃ rule ∈ catalog.enabled, hook ∈ rule.runtime.hooks
  sorted : active.prepared.Pairwise fun left right => pathKey left < pathKey right
  prepared : ∀ root, root ∈ active.prepared ↔
    ∃ rule ∈ catalog.enabled, root ∈ ruleRoots prepared pkg pins rule

theorem agrees_of_lowered (accepted : catalog.Accepted) {records : Option (List RuntimeRuleRecord)}
    (lowered : runtimeRecords catalog prepared = .ok records) {rules : Option RuntimeRuleMetadata}
    (read : carriedRules records = .ok rules) (pkg : Path) (pins : List ActivePin) :
    Agrees catalog prepared pkg pins (activeRules pkg pins catalog.builtins rules) := by
  rw [runtimeRecords] at lowered
  obtain ⟨bindings, bound, lowered⟩ := Except.andThen_eq_ok.mp lowered
  dsimp only at lowered
  rw [Except.ok.injEq] at lowered
  split at lowered
  · subst lowered
    rw [carriedRules] at read
    obtain ⟨bytes, encoded, read⟩ := Except.andThen_eq_ok.mp read
    obtain ⟨decoded, found, read⟩ := Except.andThen_eq_ok.mp read
    have canonical := RuntimeRuleMetadata.codec_bijective.1 _ _ encoded
    rw [canonical, Except.ok.injEq] at found
    rw [Except.ok.injEq, ← found] at read
    have distinct := (RuntimeRuleMetadata.encode_eq_ok.mp encoded).1.distinct
    rw [← read, activeRules_some accepted bound distinct]
    have once := nodup_foldl_addNew List.nodup_nil
      (catalog.enabled.flatMap (ruleRoots prepared pkg pins))
    refine ⟨rfl, nodup_foldl_addNew List.nodup_nil _, fun hook => ?_, ?_, fun root => ?_⟩
    · rw [mem_foldl_addNew, List.mem_flatMap]
      simp
    · exact List.pairwise_map.mp (sortByKey_sorted
        ((List.nodup_map_iff pathKey_injective).mpr once))
    · rw [(sortByKey_perm _ _).mem_iff, mem_foldl_addNew, List.mem_flatMap]
      simp
  · next plain =>
      subst lowered
      cases read
      rw [Bool.or_eq_true, not_or, Bool.not_eq_true, Bool.not_eq_false', List.isEmpty_iff] at plain
      obtain ⟨none, same⟩ := plain
      rw [decide_eq_true_iff, not_not, none, List.append_nil] at same
      rw [none] at bound
      refine ⟨groups_none accepted bound same pkg pins, allRuntimeHooks_nodup, mem_hooks_none same,
        List.Pairwise.nil, fun root => ?_⟩
      constructor
      · exact fun inside => absurd inside List.not_mem_nil
      · rintro ⟨rule, enabled, inside⟩
        rw [ruleRoots_eq_nil accepted bound enabled] at inside
        cases inside

section
variable {pkg : Path} {pins : List ActivePin} {active : ActiveRules}

/-- The assignments are those of the enabled descriptors' groups in order. -/
theorem Agrees.assignments_eq (agrees : Agrees catalog prepared pkg pins active) (kinds : Kinds)
    (libDirs setLibDirs setRoots : List Path) :
    active.assignments kinds pkg libDirs setLibDirs setRoots =
      catalogAssignments prepared pkg pins catalog kinds libDirs setLibDirs setRoots := by
  rw [ActiveRules.assignments, PathGroups.assignments, agrees.groups, catalogGroups,
    catalogAssignments, List.flatMap_assoc]
  apply List.flatMap_congr
  intro rule _
  rw [ruleGroups, ruleAssignments, List.flatMap_map, List.filterMap_eq_flatMap_toList]
  apply List.flatMap_congr
  intro group _
  rw [evaluatePathGroups, List.filterMap_cons]
  dsimp only [ActiveGroup.scopes]
  split
  · next none => rw [none]; rfl
  · next some => rw [some]; rfl

/-- The hooks run are those an enabled descriptor names, each once. -/
theorem Agrees.runOrder_eq (agrees : Agrees catalog prepared pkg pins active) :
    runOrder active.hooks = allRuntimeHooks.filter fun hook =>
      catalog.enabled.any fun rule => rule.runtime.hooks.contains hook := by
  rw [runOrder]
  apply List.filter_congr
  intro hook _
  rw [Bool.eq_iff_iff, List.contains_iff_mem, agrees.hooks, List.any_eq_true]
  simp only [List.contains_iff_mem]

end

/-! ### A local rule more -/

/-- The catalog is the other one with a local rule more. -/
structure AddsLocal (fewer catalog : RuleCatalog) (extra : Descriptor) : Prop where
  builtins : fewer.builtins = catalog.builtins
  disabled : fewer.disabled = catalog.disabled
  locals : ∃ before after, fewer.locals = before ++ after ∧
    catalog.locals = before ++ extra :: after

/-- What a launch makes of two catalogs is the same but for a rule's own variables, its hooks and
the subtrees it was prepared into. -/
structure SameBut (extra : Descriptor) (prepared : List PreparedPin) (pkg : Path)
    (first second : ActiveRules) : Prop where
  values : ∀ {ε : Type} (text : List Path → ε) (caller : Bytes → Option ε) (kinds : Kinds)
    (libDirs setLibDirs setRoots : List Path),
    ∀ name ∉ extra.mappedNames.map EnvironmentName.bytes,
      applyPathAssignments text caller (first.assignments kinds pkg libDirs setLibDirs setRoots)
        name =
      applyPathAssignments text caller (second.assignments kinds pkg libDirs setLibDirs setRoots)
        name
  hooks : extra.runtime.hooks = [] → runOrder first.hooks = runOrder second.hooks
  prepared : (∀ pin ∈ prepared, extra.id.bytes ∉ pin.rules) → first.prepared = second.prepared

section
variable {fewer : RuleCatalog} {extra : Descriptor}

theorem AddsLocal.mem_listed (adds : AddsLocal fewer catalog extra) {rule : Descriptor} :
    rule ∈ catalog.builtins.rules ++ catalog.locals ↔
      rule = extra ∨ rule ∈ fewer.builtins.rules ++ fewer.locals := by
  obtain ⟨before, after, fewerLocals, locals⟩ := adds.locals
  rw [adds.builtins, fewerLocals, locals]
  simp only [List.mem_append, List.mem_cons]
  grind

theorem AddsLocal.id_ne (adds : AddsLocal fewer catalog extra) (accepted : catalog.Accepted)
    {rule : Descriptor} (listed : rule ∈ fewer.builtins.rules ++ fewer.locals) :
    rule.id ≠ extra.id := by
  have distinct := (validateCatalog_eq_ok.mp accepted).distinct
  obtain ⟨before, after, fewerLocals, locals⟩ := adds.locals
  rw [locals, ← List.append_assoc, List.map_append, List.map_cons, List.nodup_middle,
    List.nodup_cons, ← List.map_append, List.append_assoc, ← fewerLocals, ← adds.builtins]
    at distinct
  intro same
  exact distinct.1 (same ▸ List.mem_map_of_mem listed)

theorem AddsLocal.mem_enabled (adds : AddsLocal fewer catalog extra) (accepted : catalog.Accepted)
    {rule : Descriptor} :
    rule ∈ fewer.enabled ↔ rule ∈ catalog.enabled ∧ rule.id ≠ extra.id := by
  rw [LoweredRules.mem_enabled, LoweredRules.mem_enabled, adds.mem_listed, adds.disabled]
  constructor
  · rintro ⟨listed, kept⟩
    exact ⟨⟨Or.inr listed, kept⟩, adds.id_ne accepted listed⟩
  · rintro ⟨⟨rfl | listed, kept⟩, other⟩
    · exact absurd rfl other
    · exact ⟨listed, kept⟩

theorem AddsLocal.enabled_eq (adds : AddsLocal fewer catalog extra) (accepted : catalog.Accepted)
    (also : fewer.Accepted) :
    fewer.enabled = catalog.enabled.filter fun rule => rule.id ≠ extra.id := by
  have irreflexive : Std.Irrefl fun left right : Descriptor => left.id < right.id :=
    ⟨fun _ => lt_irrefl _⟩
  have antisymmetric : Std.Antisymm fun left right : Descriptor => left.id < right.id :=
    ⟨fun _ _ first second => absurd second (lt_asymm first)⟩
  apply List.Pairwise.eq_of_mem_iff (ascending_enabled also)
    ((ascending_enabled accepted).sublist List.filter_sublist)
  intro rule
  rw [adds.mem_enabled accepted, List.mem_filter, decide_eq_true_iff]

end

section
variable {ε : Type} {text : List Path → ε} {name : Bytes}

theorem foldl_setPath_of_agree {value : ε} {policy : Inheritance} {first second : Bytes → Option ε}
    (agree : first name = second name) (names : List Bytes) :
    names.foldl (setPath value policy) first name =
      names.foldl (setPath value policy) second name := by
  induction names generalizing first second with
  | nil => exact agree
  | cons other names ih =>
      apply ih
      by_cases same : name = other
      · subst same
        rw [setPath, setPath, agree]
        split
        · exact agree
        · rw [Function.update_self, Function.update_self]
      · have left : ∀ env : Bytes → Option ε, setPath value policy env other name = env name := by
          intro env
          rw [setPath]
          split
          · rfl
          · exact Function.update_of_ne same _ _
        rw [left, left, agree]

theorem foldl_setPath_of_notMem {value : ε} {policy : Inheritance} {names : List Bytes}
    (other : name ∉ names) (env : Bytes → Option ε) :
    names.foldl (setPath value policy) env name = env name := by
  induction names generalizing env with
  | nil => rfl
  | cons first names ih =>
      rw [List.mem_cons, not_or] at other
      rw [List.foldl_cons, ih other.2, setPath]
      split
      · rfl
      · exact Function.update_of_ne other.1 _ _

theorem applyPathAssignments_of_agree {first second : Bytes → Option ε}
    (agree : first name = second name) (assignments : List PathGroups.PathAssignment) :
    applyPathAssignments text first assignments name =
      applyPathAssignments text second assignments name := by
  induction assignments generalizing first second with
  | nil => exact agree
  | cons assignment assignments ih => exact ih (foldl_setPath_of_agree agree _)

theorem applyPathAssignments_of_notMem {assignments : List PathGroups.PathAssignment}
    (other : ∀ assignment ∈ assignments,
      name ∉ assignment.variableNames.map EnvironmentName.bytes) (env : Bytes → Option ε) :
    applyPathAssignments text env assignments name = env name := by
  induction assignments generalizing env with
  | nil => rfl
  | cons assignment assignments ih =>
      rw [List.forall_mem_cons] at other
      exact (ih other.2 _).trans (foldl_setPath_of_notMem other.1 env)

/-- Rules that do not map a variable may be passed over. -/
theorem applyPathAssignments_filter {keep : Descriptor → Bool}
    {give : Descriptor → List PathGroups.PathAssignment} {rules : List Descriptor}
    (other : ∀ rule ∈ rules, keep rule = false → ∀ assignment ∈ give rule,
      name ∉ assignment.variableNames.map EnvironmentName.bytes) {first second : Bytes → Option ε}
    (agree : first name = second name) :
    applyPathAssignments text first (rules.flatMap give) name =
      applyPathAssignments text second ((rules.filter keep).flatMap give) name := by
  induction rules generalizing first second with
  | nil => exact agree
  | cons rule rules ih =>
      rw [List.forall_mem_cons] at other
      cases kept : keep rule with
      | true =>
          have here := @applyPathAssignments_of_agree ε text name first second agree (give rule)
          rw [List.filter_cons_of_pos kept, List.flatMap_cons, List.flatMap_cons,
            applyPathAssignments, applyPathAssignments, List.foldl_append, List.foldl_append]
          exact ih other.2 here
      | false =>
          have here := @applyPathAssignments_of_notMem ε text name _ (other.1 kept) first
          rw [List.filter_cons_of_neg (by simp [kept]), List.flatMap_cons, applyPathAssignments,
            List.foldl_append]
          exact ih other.2 (here.trans agree)

end

theorem variableNames_of_ruleAssignments {pkg : Path} {pins : List ActivePin} {kinds : Kinds}
    {libDirs setLibDirs setRoots : List Path} {rule : Descriptor}
    {assignment : PathGroups.PathAssignment}
    (made : assignment ∈ ruleAssignments prepared pkg pins kinds libDirs setLibDirs setRoots rule)
    {name : EnvironmentName} (names : name ∈ assignment.variableNames) :
    name ∈ rule.mappedNames := by
  obtain ⟨group, listed, evaluated⟩ := List.mem_filterMap.mp made
  rw [evaluatePathGroup, Option.ite_none_left_eq_some, Option.map_eq_some_iff] at evaluated
  obtain ⟨-, value, -, rfl⟩ := evaluated
  exact List.mem_flatMap.mpr ⟨group, listed, names⟩

/-- A local rule more changes its own variables only. -/
theorem Agrees.sameBut {fewer : RuleCatalog} {extra : Descriptor} {pkg : Path}
    {pins : List ActivePin} {first second : ActiveRules} (adds : AddsLocal fewer catalog extra)
    (accepted : catalog.Accepted) (also : fewer.Accepted)
    (more : Agrees catalog prepared pkg pins first)
    (less : Agrees fewer prepared pkg pins second) : SameBut extra prepared pkg first second := by
  have enabled := adds.enabled_eq accepted also
  have own : ∀ rule ∈ catalog.enabled, rule.id = extra.id → rule = extra := by
    intro rule member same
    rcases adds.mem_listed.mp (LoweredRules.mem_enabled.mp member).1 with here | other
    · exact here
    · exact absurd same (adds.id_ne accepted other)
  constructor
  · intro ε text caller kinds libDirs setLibDirs setRoots name other
    rw [more.assignments_eq, less.assignments_eq, catalogAssignments, catalogAssignments, enabled]
    apply applyPathAssignments_filter _ rfl
    intro rule member skipped assignment made inside
    rw [decide_eq_false_iff_not, not_not] at skipped
    obtain ⟨variable', names, rfl⟩ := List.mem_map.mp inside
    have mapped := variableNames_of_ruleAssignments made names
    rw [own rule member skipped] at mapped
    exact other (List.mem_map_of_mem mapped)
  · intro silent
    rw [more.runOrder_eq, less.runOrder_eq, enabled]
    apply List.filter_congr
    intro hook _
    rw [Bool.eq_iff_iff, List.any_eq_true, List.any_eq_true]
    constructor
    · rintro ⟨rule, member, names⟩
      refine ⟨rule, List.mem_filter.mpr ⟨member, decide_eq_true fun same => ?_⟩, names⟩
      rw [own rule member same, silent] at names
      cases names
    · rintro ⟨rule, member, names⟩
      exact ⟨rule, (List.mem_filter.mp member).1, names⟩
  · intro unwritten
    have irreflexive : Std.Irrefl fun left right : Path => pathKey left < pathKey right :=
      ⟨fun _ => lt_irrefl _⟩
    have antisymmetric : Std.Antisymm fun left right : Path => pathKey left < pathKey right :=
      ⟨fun _ _ first second => absurd second (lt_asymm first)⟩
    apply List.Pairwise.eq_of_mem_iff more.sorted less.sorted
    intro root
    rw [more.prepared, less.prepared, enabled]
    constructor
    · rintro ⟨rule, member, inside⟩
      refine ⟨rule, List.mem_filter.mpr ⟨member, decide_eq_true fun same => ?_⟩, inside⟩
      rw [own rule member same, ruleRoots] at inside
      split at inside
      · cases inside
      · obtain ⟨binding, obtained, -⟩ := List.mem_map.mp inside
        obtain ⟨pin, listed, -, names⟩ := mem_writtenInto.mp (List.mem_filter.mp obtained).1
        exact unwritten pin listed names
    · rintro ⟨rule, member, inside⟩
      exact ⟨rule, (List.mem_filter.mp member).1, inside⟩

end

/-- What a launch makes of a lowered record is what its catalog asks for: the assignments of every
enabled rule in turn and each hook one of them names. A local rule more changes its own variables
only. -/
theorem lowered_evaluates (catalog : RuleCatalog) (prepared : List PreparedPin) (pkg : Path)
    (pins : List ActivePin) (accepted : catalog.Accepted)
    {records : Option (List RuntimeRuleRecord)}
    (lowered : runtimeRecords catalog prepared = .ok records) {rules : Option RuntimeRuleMetadata}
    (read : carriedRules records = .ok rules) :
    Agrees catalog prepared pkg pins (activeRules pkg pins catalog.builtins rules) ∧
    (∀ (kinds : Kinds) (libDirs setLibDirs setRoots : List Path),
      (activeRules pkg pins catalog.builtins rules).assignments kinds pkg libDirs setLibDirs
          setRoots =
        catalogAssignments prepared pkg pins catalog kinds libDirs setLibDirs setRoots) ∧
    runOrder (activeRules pkg pins catalog.builtins rules).hooks =
      allRuntimeHooks.filter (fun hook =>
        catalog.enabled.any fun rule => rule.runtime.hooks.contains hook) ∧
    ∀ fewer extra, AddsLocal fewer catalog extra → fewer.Accepted →
      ∀ without, runtimeRecords fewer prepared = .ok without →
        ∀ others, carriedRules without = .ok others →
          SameBut extra prepared pkg (activeRules pkg pins catalog.builtins rules)
            (activeRules pkg pins fewer.builtins others) := by
  have agrees := agrees_of_lowered accepted lowered read pkg pins
  refine ⟨agrees, agrees.assignments_eq, agrees.runOrder_eq, ?_⟩
  intro fewer extra adds also without lowered' others read'
  exact Agrees.sameBut adds accepted also agrees (agrees_of_lowered also lowered' read' pkg pins)

/-- A rule with one hook of the registry. -/
def hookRule (id : RuleId) (hook : RuntimeHookId) : Descriptor :=
  ⟨1, id, [], ⟨[], [], []⟩, [], ⟨[], [hook]⟩⟩

def hookRules : List Descriptor :=
  [hookRule ⟨utf8 "alsa", by decide⟩ .alsaConfigPathNaturalSort,
    hookRule ⟨utf8 "fontconfig", by decide⟩ .fontconfigGenerate,
    hookRule ⟨utf8 "gdk-pixbuf", by decide⟩ .gdkCacheAbsolutise,
    hookRule ⟨utf8 "gio-modules", by decide⟩ .gioModulePaths,
    hookRule ⟨utf8 "tcl-tk", by decide⟩ .tclTkLibraries]

def hookBuiltins : Builtins := ⟨hookRules, fun hook => by cases hook <;> decide⟩

/-- A local rule for a magic database. -/
def vendorRule : Descriptor where
  schema := 1
  id := ⟨utf8 "vendor-magic", by decide⟩
  triggers := []
  resources := ⟨[], [], []⟩
  buildHooks := []
  runtime :=
    { paths := [{ id := ⟨utf8 "magic-database", by decide⟩
                  kind := .file
                  candidates :=
                    [⟨.packageRoot, ⟨utf8 "share/vendor.mgc", by decide, by decide⟩⟩]
                  variableNames := [⟨utf8 "MAGIC_FILES", by decide⟩]
                  selection := .first
                  inheritance := .preserve }]
      hooks := [] }

def vendorCatalog : RuleCatalog := ⟨hookBuiltins, [vendorRule], []⟩

/-- A pin that its preparation wrote into. -/
def vendorPin : PreparedPin :=
  ⟨utf8 "plasma", "2b2b2b2b2b2b2b2b2b2b2b2b2b2b2b2b2b2b2b2b2b2b2b2b2b2b2b2b2b2b2b2b".toList,
    [utf8 "vendor-magic"]⟩

def vendorBinding : SetPin := ⟨⟨utf8 "plasma", by decide⟩, ⟨List.replicate 32 43, by decide⟩⟩

def vendorRecords : RuntimeRuleMetadata :=
  ⟨hookRules.map unbound ++ [unbound vendorRule, bound vendorBinding vendorRule]⟩

theorem vendorCatalog_accepted : vendorCatalog.Accepted ∧
    (⟨hookBuiltins, [], []⟩ : RuleCatalog).Accepted := by
  constructor
  · show validateCatalog hookRules [vendorRule] [] = .ok ()
    decide +kernel
  · show validateCatalog hookRules [] [] = .ok ()
    decide +kernel

theorem vendorCatalog_enabled : vendorCatalog.enabled = hookRules ++ [vendorRule] :=
  sortByKey_of_sorted (by decide +kernel)

theorem vendorRecords_lowered :
    runtimeRecords vendorCatalog [vendorPin] = .ok (some vendorRecords.rules) := by
  have bindings :
      boundRecords vendorCatalog [vendorPin] = .ok [bound vendorBinding vendorRule] := by
    decide +kernel
  rw [runtimeRecords, bindings, vendorCatalog_enabled]
  rfl

theorem vendorRecords_read :
    carriedRules (some vendorRecords.rules) = .ok (some vendorRecords) := by
  have sorted : vendorRecords.sorted = vendorRecords :=
    RuntimeRuleMetadata.ext (sortByKey_of_sorted (by decide +kernel))
  have valid : vendorRecords.Valid := RuntimeRuleMetadata.validate_eq_ok.mp (by decide +kernel)
  have encoded : vendorRecords.encode = .ok vendorRecords.sorted.file :=
    RuntimeRuleMetadata.encode_eq_ok.mpr ⟨valid, by rw [sorted]; decide +kernel, rfl⟩
  have decoded := RuntimeRuleMetadata.codec_bijective.1 _ _ encoded
  rw [sorted] at encoded decoded
  rw [carriedRules]
  exact Except.andThen_eq_ok.mpr ⟨_, encoded, Except.andThen_eq_ok.mpr ⟨_, decoded, rfl⟩⟩

theorem lowered_evaluates_vendor :
    (activeRules [] [] hookBuiltins (some vendorRecords)).groups =
        catalogGroups [vendorPin] [] [] vendorCatalog ∧
      SameBut vendorRule [vendorPin] [] (activeRules [] [] hookBuiltins (some vendorRecords))
        (activeRules [] [] hookBuiltins none) := by
  have evaluates := lowered_evaluates vendorCatalog [vendorPin] [] [] vendorCatalog_accepted.1
    vendorRecords_lowered vendorRecords_read
  have fewer : runtimeRecords ⟨hookBuiltins, [], []⟩ [vendorPin] = .ok none := by
    have kept : RuleCatalog.enabled ⟨hookBuiltins, [], []⟩ = hookRules :=
      sortByKey_of_sorted (by decide +kernel)
    have bindings : boundRecords ⟨hookBuiltins, [], []⟩ [vendorPin] = .ok [] := by decide +kernel
    rw [runtimeRecords, bindings, kept]
    decide +kernel
  exact ⟨evaluates.1.groups, evaluates.2.2.2 ⟨hookBuiltins, [], []⟩ vendorRule
    ⟨rfl, rfl, [], [], rfl, rfl⟩ vendorCatalog_accepted.2 none fewer none rfl⟩

end Onelf.Runtime.LoweredRules
