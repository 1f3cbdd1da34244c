import Onelf.Format.Rules

/-! Framework descriptors and the catalog they make up (`rules.rs`). -/

namespace Onelf.Format

open Onelf.Lib

def schemaVersion : Nat := 1

/-! ### Triggers -/

/-- A case-sensitive predicate over a whole soname. -/
structure Trigger where
  sonamePrefix : Bytes
  deriving DecidableEq

def validSoname (value : Bytes) : Bool :=
  !value.isEmpty && value.length ≤ maxPathBytes && value ≠ [46] && value ≠ [46, 46] &&
    !value.any fun byte => isControl byte || (utf8 "/\\").contains byte

def validPrefix (value : Bytes) : Bool := validSoname value && !value.any (utf8 ":*?[]").contains

def Trigger.matchesSoname (trigger : Trigger) (soname : Bytes) : Bool :=
  validPrefix trigger.sonamePrefix && validSoname soname && trigger.sonamePrefix.isPrefixOf soname

/-! ### Descriptors -/

inductive SourceBase where
  | installationPrefix
  | libraryDir
  deriving DecidableEq

structure SourceCandidate where
  base : SourceBase
  path : RelativePath
  deriving DecidableEq

inductive Requirement where
  | required
  | optional
  deriving DecidableEq

/-- A plugin tree or data resource with ordered source alternatives. -/
structure ResourceGroup where
  id : RuleId
  kind : ResourceKind
  candidates : List SourceCandidate
  destination : RelativePath
  requirement : Requirement
  members : List RelativePath
  deriving DecidableEq

/-- A helper executable of a plugin or data group. -/
structure HelperGroup where
  id : RuleId
  group : RuleId
  kind : ResourceKind
  candidates : List SourceCandidate
  destination : RelativePath
  requirement : Requirement
  deriving DecidableEq

structure Resources where
  plugins : List ResourceGroup
  data : List ResourceGroup
  helpers : List HelperGroup
  deriving DecidableEq

inductive BuildHookId where
  | alsaConfPatch
  deriving DecidableEq

def BuildHookId.debugName : BuildHookId → Bytes
  | alsaConfPatch => utf8 "AlsaConfPatch"

/-- A framework's discovery, build and runtime behavior. -/
structure Descriptor where
  schema : Nat
  id : RuleId
  triggers : List Trigger
  resources : Resources
  buildHooks : List BuildHookId
  runtime : RuntimeRules
  deriving DecidableEq

namespace Descriptor

/-- The counts the record budget is charged with, in turn. -/
def recordCounts (rule : Descriptor) : List Nat :=
  [1, rule.triggers.length, rule.resources.plugins.length, rule.resources.data.length,
      rule.resources.helpers.length, rule.runtime.paths.length, rule.buildHooks.length,
      rule.runtime.hooks.length] ++
    (rule.resources.plugins ++ rule.resources.data).flatMap (fun resource =>
      [resource.candidates.length, resource.members.length]) ++
    rule.resources.helpers.flatMap (fun helper => [1, helper.candidates.length]) ++
    rule.runtime.paths.flatMap fun path => [path.candidates.length, path.variableNames.length]

def countRecords (used : Nat) (rule : Descriptor) : Except RuleError Nat :=
  rule.recordCounts.foldlM addRecords used

/-- The members of a plugin group: none listed twice. -/
def validatePlugin (plugin : ResourceGroup) : Except RuleError Unit := do
  refuseIf (plugin.kind ≠ .directory) ⟨"plugins.kind", "must be directory", some plugin.id.bytes⟩
  eachUnique (fun _ => .ok ()) (fun _ => .ok ()) (fun member => member)
    (fun member => ⟨"plugins.members", "duplicate identity", some member.bytes⟩) [] plugin.members

/-- A helper of one of the groups `known`. -/
def validateHelper (known : List RuleId) (helper : HelperGroup) : Except RuleError Unit := do
  refuseIf (helper.group ∉ known)
    ⟨"helpers.group", "unknown plugin or data group", some helper.group.bytes⟩
  refuseIf (helper.kind ≠ .file) ⟨"helpers.kind", "must be file", some helper.id.bytes⟩
  requireCandidates helper.candidates helper.id.bytes

def validateFields (rule : Descriptor) : Except RuleError Unit := do
  let groups := rule.resources.plugins ++ rule.resources.data
  refuseIf (rule.schema ≠ schemaVersion) ⟨"schema", "unsupported version", some rule.id.bytes⟩
  eachUnique
    (fun trigger => refuseIf (!validPrefix trigger.sonamePrefix)
      ⟨"soname-prefix", "expected a literal soname prefix", some trigger.sonamePrefix⟩)
    (fun _ => .ok ()) Trigger.sonamePrefix
    (fun trigger => ⟨"soname-prefix", "duplicate identity", some trigger.sonamePrefix⟩) []
    rule.triggers
  eachUnique (fun _ => .ok ()) (fun group => requireCandidates group.candidates group.id.bytes)
    ResourceGroup.id (fun group => ⟨"resource id", "duplicate identity", some group.id.bytes⟩) []
    groups
  rule.resources.plugins.forM validatePlugin
  rule.resources.data.forM fun group => refuseIf (!group.members.isEmpty)
    ⟨"data.members", "only plugin groups list members", some group.id.bytes⟩
  rule.resources.helpers.forM (validateHelper (groups.map ResourceGroup.id))
  eachUnique (fun _ => .ok ()) (fun _ => .ok ()) HelperGroup.id
    (fun helper => ⟨"resource id", "duplicate identity", some helper.id.bytes⟩)
    (groups.map ResourceGroup.id) rule.resources.helpers
  rule.runtime.validateFields
  eachUnique (fun _ => .ok ()) (fun _ => .ok ()) (fun hook => hook)
    (fun hook => ⟨"build hook", "duplicate identity", some hook.debugName⟩) [] rule.buildHooks

/-- The environment names a rule's path groups map. -/
def mappedNames (rule : Descriptor) : List EnvironmentName :=
  rule.runtime.paths.flatMap RuntimePathGroup.variableNames

end Descriptor

/-! ### The catalog -/

/-- A complete catalog and its disabled identities. -/
def validateCatalog (builtins locals : List Descriptor) (disabled : List RuleId) :
    Except RuleError Unit := do
  let used ← addRecords 0 disabled.length
  let _ ← (builtins ++ locals).foldlM Descriptor.countRecords used
  eachUnique Descriptor.validateFields (fun _ => .ok ()) Descriptor.id
    (fun rule => ⟨"rule id", "duplicate identity", some rule.id.bytes⟩) [] (builtins ++ locals)
  eachUnique
    (fun id => refuseIf (id ∉ (builtins ++ locals).map Descriptor.id)
      ⟨"disable-rules", "unknown rule id", some id.bytes⟩)
    (fun _ => .ok ()) id
    (fun id => ⟨"disabled rule id", "duplicate identity", some id.bytes⟩) [] disabled
  eachUnique (fun _ => .ok ()) (fun _ => .ok ()) id
    (fun name => ⟨"runtime.paths.variables", "mapped by more than one enabled runtime path group",
      some name.bytes⟩) []
    (((builtins ++ locals).filter fun rule => !disabled.contains rule.id).flatMap
      Descriptor.mappedNames)

/-- The enabled descriptors, sorted by identity. -/
def enabledRules (builtins locals : List Descriptor) (disabled : List RuleId) : List Descriptor :=
  sortByKey Descriptor.id ((builtins ++ locals).filter fun rule => !disabled.contains rule.id)

/-! ### What is accepted -/

theorem addRecords_adds (count : Nat) :
    Adds maxRecords (fun used => addRecords used count) count := by
  intro used _ total
  simp only [addRecords]
  split
  · next fits =>
      rw [Except.ok.injEq]
      constructor
      · intro same
        exact ⟨same.symm, same ▸ fits⟩
      · exact fun same => same.1.symm
  · next large =>
      constructor
      · exact fun same => nomatch same
      · rintro ⟨rfl, fits⟩
        exact absurd fits large

namespace Descriptor

/-- The records one descriptor is charged with. -/
def records (rule : Descriptor) : Nat := rule.recordCounts.sum

theorem countRecords_adds (rule : Descriptor) :
    Adds maxRecords (fun used => countRecords used rule) rule.records := by
  have adds := Adds.foldlM addRecords_adds rule.recordCounts
  rwa [List.map_id'] at adds

/-- The identities of a descriptor's resources, in declaration order. -/
def resourceIds (rule : Descriptor) : List RuleId :=
  (rule.resources.plugins ++ rule.resources.data).map ResourceGroup.id ++
    rule.resources.helpers.map HelperGroup.id

/-- What `validateFields` makes sure of that activation and the launch rely on. -/
structure Checked (rule : Descriptor) : Prop where
  resources : rule.resourceIds.Nodup
  runtime : rule.runtime.validateFields = .ok ()

theorem checked_of_validateFields {rule : Descriptor} (accepted : rule.validateFields = .ok ()) :
    rule.Checked := by
  rw [validateFields] at accepted
  simp only [Except.followed_eq_ok] at accepted
  obtain ⟨-, -, grouped, -, -, -, helped, runtime, -⟩ := accepted
  obtain ⟨-, -, groups⟩ := eachUnique_eq_ok.mp grouped
  obtain ⟨-, others, helpers⟩ := eachUnique_eq_ok.mp helped
  refine ⟨List.nodup_append.mpr ⟨groups, helpers, ?_⟩, runtime⟩
  intro id member other inside same
  obtain ⟨helper, declared, rfl⟩ := List.mem_map.mp inside
  exact others helper declared (same ▸ member)

end Descriptor

/-- What `validateCatalog` accepts. -/
structure CatalogValid (builtins locals : List Descriptor) (disabled : List RuleId) : Prop where
  few : disabled.length + ((builtins ++ locals).map Descriptor.records).sum ≤ maxRecords
  each : ∀ rule ∈ builtins ++ locals, rule.validateFields = .ok ()
  distinct : ((builtins ++ locals).map Descriptor.id).Nodup
  known : ∀ id ∈ disabled, id ∈ (builtins ++ locals).map Descriptor.id
  once : disabled.Nodup
  mapped : (((builtins ++ locals).filter fun rule => !disabled.contains rule.id).flatMap
    Descriptor.mappedNames).Nodup

theorem validateCatalog_eq_ok {builtins locals : List Descriptor} {disabled : List RuleId} :
    validateCatalog builtins locals disabled = .ok () ↔ CatalogValid builtins locals disabled := by
  have counts := (addRecords_adds disabled.length).andThen
    (Adds.foldlM Descriptor.countRecords_adds (builtins ++ locals)) 0 (Nat.zero_le _)
  simp only [Except.andThen_eq_ok, Nat.zero_add] at counts
  constructor
  · intro accepted
    rw [validateCatalog] at accepted
    obtain ⟨used, first, rest⟩ := Except.andThen_eq_ok.mp accepted
    obtain ⟨total, second, rest⟩ := Except.andThen_eq_ok.mp rest
    simp only [Except.followed_eq_ok, eachUnique_eq_ok, refuseIf_eq_ok] at rest
    obtain ⟨⟨each, -, distinct⟩, ⟨known, -, once⟩, -, -, mapped⟩ := rest
    obtain ⟨rfl, few⟩ := (counts total).mp ⟨used, first, second⟩
    rw [List.map_id] at once mapped
    exact ⟨few, fun rule member => (each rule member).1, distinct,
      fun id member => not_not.mp (known id member).1, once, mapped⟩
  · intro valid
    obtain ⟨used, first, second⟩ := (counts _).mpr ⟨rfl, valid.few⟩
    rw [validateCatalog]
    refine Except.andThen_eq_ok.mpr ⟨used, first, Except.andThen_eq_ok.mpr ⟨_, second, ?_⟩⟩
    simp only [Except.followed_eq_ok, eachUnique_eq_ok, refuseIf_eq_ok]
    rw [List.map_id, List.map_id]
    exact ⟨⟨fun rule member => ⟨valid.each rule member, trivial⟩, fun _ _ => List.not_mem_nil,
        valid.distinct⟩,
      ⟨fun id member => ⟨not_not.mpr (valid.known id member), trivial⟩, fun _ _ => List.not_mem_nil,
        valid.once⟩,
      fun _ _ => ⟨trivial, trivial⟩, fun _ _ => List.not_mem_nil, valid.mapped⟩

theorem mem_enabledRules {builtins locals : List Descriptor} {disabled : List RuleId}
    {rule : Descriptor} : rule ∈ enabledRules builtins locals disabled ↔
      rule ∈ builtins ++ locals ∧ rule.id ∉ disabled := by
  rw [enabledRules, (sortByKey_perm Descriptor.id _).mem_iff, List.mem_filter]
  simp

theorem CatalogValid.nodup_enabledRules {builtins locals : List Descriptor}
    {disabled : List RuleId} (valid : CatalogValid builtins locals disabled) :
    ((enabledRules builtins locals disabled).map Descriptor.id).Nodup :=
  ((sortByKey_perm Descriptor.id _).map Descriptor.id).nodup_iff.mpr
    (valid.distinct.sublist (List.filter_sublist.map Descriptor.id))

end Onelf.Format
