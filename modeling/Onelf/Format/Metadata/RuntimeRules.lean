import Onelf.Format.Metadata.Wire

/-! The ORUL file: rule records, their bindings, path groups and hooks (`runtime_metadata.rs`). -/

namespace Onelf.Format.Metadata

open Onelf.Lib
open Onelf.Lib.Codec (Reads Writes)

/-- One descriptor's runtime behavior, optionally scoped to a selected set pin. -/
@[ext] structure RuntimeRuleRecord where
  id : RuleId
  binding : Option SetPin
  runtime : RuntimeRules
  deriving DecidableEq

/-- A complete runtime-rule transport file. -/
@[ext] structure RuntimeRuleMetadata where
  rules : List RuntimeRuleRecord
  deriving DecidableEq

namespace RuntimeRuleRecord

/-- The identity records are ordered by; an unbound record comes before the bound ones. -/
def scopedIdentity (rule : RuntimeRuleRecord) : RuleId ×ₗ WithBot SetPin :=
  toLex (rule.id, rule.binding)

end RuntimeRuleRecord

/-! ### Validation -/

def countPath (used : Nat) (path : RuntimePathGroup) : Except MetadataError Nat := do
  let used ← addBudget used path.candidates.length
  addBudget used path.variableNames.length

def countRule (used : Nat) (rule : RuntimeRuleRecord) : Except MetadataError Nat := do
  let used ← addBudget used (if rule.binding.isSome then 1 else 0)
  let used ← addBudget used rule.runtime.paths.length
  let used ← addBudget used rule.runtime.hooks.length
  rule.runtime.paths.foldlM countPath used

def validateRule (rule : RuntimeRuleRecord) : Except MetadataError Unit := do
  match rule.binding with
  | some pin => discard (liftRule (RuleId.setName pin.name.bytes))
  | none => pure ()
  liftRule rule.runtime.validate

namespace RuntimeRuleMetadata

def recordCount (metadata : RuntimeRuleMetadata) : Except MetadataError Nat := do
  let used ← addBudget 0 metadata.rules.length
  metadata.rules.foldlM countRule used

def validate (metadata : RuntimeRuleMetadata) : Except MetadataError Unit := do
  let _ ← metadata.recordCount
  eachUnique (fun _ => .ok ()) validateRule RuntimeRuleRecord.scopedIdentity
    (fun _ => .text "runtime rules: duplicate scoped descriptor identity") [] metadata.rules

end RuntimeRuleMetadata

/-! ### Tags -/

def kindTag : ResourceKind → UInt8
  | .file => 1
  | .directory => 2

def kindOf : UInt8 → Option ResourceKind
  | 1 => some .file
  | 2 => some .directory
  | _ => none

def selectionTag : PathSelection → UInt8
  | .first => 1
  | .all => 2
  | .firstPerLibraryRoot => 3

def selectionOf : UInt8 → Option PathSelection
  | 1 => some .first
  | 2 => some .all
  | 3 => some .firstPerLibraryRoot
  | _ => none

def inheritanceTag : Inheritance → UInt8
  | .preserve => 1
  | .replace => 2

def inheritanceOf : UInt8 → Option Inheritance
  | 1 => some .preserve
  | 2 => some .replace
  | _ => none

def baseTag : RuntimeBase → UInt8
  | .packageRoot => 1
  | .libraryRoot => 2

def baseOf : UInt8 → Option RuntimeBase
  | 1 => some .packageRoot
  | 2 => some .libraryRoot
  | _ => none

def hookTag : RuntimeHookId → UInt8
  | .alsaConfigPathNaturalSort => 1
  | .gdkCacheAbsolutise => 2
  | .fontconfigGenerate => 3
  | .gioModulePaths => 4
  | .tclTkLibraries => 5

def hookOf : UInt8 → Option RuntimeHookId
  | 1 => some .alsaConfigPathNaturalSort
  | 2 => some .gdkCacheAbsolutise
  | 3 => some .fontconfigGenerate
  | 4 => some .gioModulePaths
  | 5 => some .tclTkLibraries
  | _ => none

/-! ### Encoding -/

def writeCandidate (candidate : RuntimeCandidate) : Write Unit :=
  Write.record 4 do
    Write.byte (baseTag candidate.base)
    Write.string candidate.path.bytes

def writePath (path : RuntimePathGroup) : Write Unit :=
  Write.record 3 do
    Write.string path.id.bytes
    Write.byte (kindTag path.kind)
    Write.byte (selectionTag path.selection)
    Write.byte (inheritanceTag path.inheritance)
    Write.count path.candidates.length
    path.candidates.forM writeCandidate
    Write.count path.variableNames.length
    path.variableNames.forM fun name => Write.string name.bytes

def writeHook (hook : RuntimeHookId) : Write Unit := Write.record 5 (Write.byte (hookTag hook))

def writeBinding (binding : Option SetPin) : Write Unit := do
  Write.byte (if binding.isSome then 1 else 0)
  match binding with
  | some pin => writePin 2 pin
  | none => pure ()

def writeRule (rule : RuntimeRuleRecord) : Write Unit :=
  Write.record 1 do
    Write.string rule.id.bytes
    writeBinding rule.binding
    Write.count rule.runtime.paths.length
    rule.runtime.paths.forM writePath
    Write.count rule.runtime.hooks.length
    rule.runtime.hooks.forM writeHook

namespace RuntimeRuleMetadata

/-- The records in the order the encoding gives them. -/
def sorted (metadata : RuntimeRuleMetadata) : RuntimeRuleMetadata :=
  ⟨sortByKey RuntimeRuleRecord.scopedIdentity metadata.rules⟩

def encode (metadata : RuntimeRuleMetadata) : Except MetadataError Bytes := do
  metadata.validate
  let records ← metadata.recordCount
  encodeFile (utf8 "ORUL") records do
    Write.count metadata.sorted.rules.length
    metadata.sorted.rules.forM writeRule

end RuntimeRuleMetadata

/-! ### Decoding -/

def readTag {α : Type} (valueOf : UInt8 → Option α) (unknown : String) : Read α := do
  let tag ← Read.byte
  Codec.check (match valueOf tag with
    | some value => .ok value
    | none => .error (.text unknown))

def readRelativePath : Read RelativePath := do
  let encoded ← Read.string maxPathBytes
  Codec.check (do
    let path ← liftRule (RelativePath.new encoded)
    if path.bytes = encoded.bytes then .ok path
    else .error (.text "runtime candidate: nonnormalized relative path"))

def readCandidate : Read RuntimeCandidate :=
  Read.record 4 do
    let base ← readTag baseOf "runtime candidate: unknown base tag"
    let path ← readRelativePath
    pure ⟨base, path⟩

def readVariable : Read EnvironmentName := do
  let name ← Read.string maxIdBytes
  Codec.check (liftRule (EnvironmentName.new name.bytes))

def readPath : Read RuntimePathGroup :=
  Read.record 3 do
    let id ← readId
    let kind ← readTag kindOf "runtime path: unknown resource kind tag"
    let selection ← readTag selectionOf "runtime path: unknown selection tag"
    let inheritance ← readTag inheritanceOf "runtime path: unknown inheritance tag"
    let candidates ← Read.counted 11 readCandidate
    let variableNames ← Read.counted 5 readVariable
    pure { id, kind, candidates, variableNames, selection, inheritance }

def readHook : Read RuntimeHookId :=
  Read.record 5 (readTag hookOf "runtime hook: unknown registry tag")

def readBinding : Read (Option SetPin) := do
  let flag ← Read.byte
  if flag = 0 then pure none
  else if flag = 1 then do
    Read.spend 1
    let pin ← readPin 2
    pure (some pin)
  else Codec.check (.error (.text "runtime binding: unknown flag"))

def readRule : Read RuntimeRuleRecord :=
  Read.record 1 do
    let id ← readId
    let binding ← readBinding
    let paths ← Read.counted 5 readPath
    let hooks ← Read.counted 6 readHook
    pure ⟨id, binding, ⟨paths, hooks⟩⟩

namespace RuntimeRuleMetadata

def decode (bytes : Bytes) : Except MetadataError RuntimeRuleMetadata := do
  let rules ← decodeFile (utf8 "ORUL") (Read.counted 5 readRule) bytes
  let value : RuntimeRuleMetadata := ⟨rules⟩
  value.validate
  if outOfOrder (value.rules.map RuntimeRuleRecord.scopedIdentity) then
    .error (.text "runtime rules: noncanonical scoped identity order")
  else .ok value

end RuntimeRuleMetadata

/-! ### What the records carry -/

def candidateBytes (candidate : RuntimeCandidate) : Bytes :=
  Codec.frame 4 (baseTag candidate.base :: stringBytes candidate.path.bytes)

def pathBytes (path : RuntimePathGroup) : Bytes :=
  Codec.frame 3 (stringBytes path.id.bytes ++
    [kindTag path.kind, selectionTag path.selection, inheritanceTag path.inheritance] ++
    Codec.countedBytes candidateBytes path.candidates ++
    Codec.countedBytes (fun name => stringBytes name.bytes) path.variableNames)

def hookBytes (hook : RuntimeHookId) : Bytes := Codec.frame 5 [hookTag hook]

def bindingBytes : Option SetPin → Bytes
  | none => [0]
  | some pin => 1 :: pinBytes 2 pin

def ruleBytes (rule : RuntimeRuleRecord) : Bytes :=
  Codec.frame 1 (stringBytes rule.id.bytes ++ bindingBytes rule.binding ++
    Codec.countedBytes pathBytes rule.runtime.paths ++
    Codec.countedBytes hookBytes rule.runtime.hooks)

/-- The records one path group adds to the budget, beside itself. -/
def pathRecords (path : RuntimePathGroup) : Nat :=
  path.candidates.length + path.variableNames.length

def bindingRecords (binding : Option SetPin) : Nat := if binding.isSome then 1 else 0

def ruleRecords (rule : RuntimeRuleRecord) : Nat :=
  bindingRecords rule.binding + (rule.runtime.paths.length + (rule.runtime.hooks.length +
    (rule.runtime.paths.map pathRecords).sum))

def rulesRecords (rules : List RuntimeRuleRecord) : Nat :=
  rules.length + (rules.map ruleRecords).sum

theorem tag_reads {α : Type} {valueOf : UInt8 → Option α} {tagOf : α → UInt8} (unknown : String)
    (sound : ∀ tag value, valueOf tag = some value → tag = tagOf value)
    (complete : ∀ value, valueOf (tagOf value) = some value) :
    Reads (readTag valueOf unknown) (fun value => [tagOf value]) (fun _ => 0) fun _ => True := by
  apply (Codec.Reads.checked tagOf (fun _ => True) byte_reads _).congr
  · intro value
    rfl
  · intro value
    rfl
  · simp
  · intro tag value _
    constructor
    · intro accepted
      cases found : valueOf tag with
      | none => simp [found] at accepted
      | some other =>
          rw [found] at accepted
          exact ⟨sound tag value (by rw [found, Except.ok.inj accepted]), trivial⟩
    · intro same
      rw [same.1, complete value]

theorem base_reads (unknown : String) :
    Reads (readTag baseOf unknown) (fun base => [baseTag base]) (fun _ => 0) fun _ => True := by
  apply tag_reads unknown
  · intro tag base found
    unfold baseOf at found
    split at found <;> cases found <;> rfl
  · intro base
    cases base <;> rfl

theorem kind_reads (unknown : String) :
    Reads (readTag kindOf unknown) (fun kind => [kindTag kind]) (fun _ => 0) fun _ => True := by
  apply tag_reads unknown
  · intro tag kind found
    unfold kindOf at found
    split at found <;> cases found <;> rfl
  · intro kind
    cases kind <;> rfl

theorem selection_reads (unknown : String) :
    Reads (readTag selectionOf unknown) (fun selection => [selectionTag selection])
      (fun _ => 0) fun _ => True := by
  apply tag_reads unknown
  · intro tag selection found
    unfold selectionOf at found
    split at found <;> cases found <;> rfl
  · intro selection
    cases selection <;> rfl

theorem inheritance_reads (unknown : String) :
    Reads (readTag inheritanceOf unknown) (fun inheritance => [inheritanceTag inheritance])
      (fun _ => 0) fun _ => True := by
  apply tag_reads unknown
  · intro tag inheritance found
    unfold inheritanceOf at found
    split at found <;> cases found <;> rfl
  · intro inheritance
    cases inheritance <;> rfl

theorem hook_reads : Reads readHook hookBytes (fun _ => 0) fun _ => True := by
  apply record_reads
  apply tag_reads
  · intro tag hook found
    unfold hookOf at found
    split at found <;> cases found <;> rfl
  · intro hook
    cases hook <;> rfl

theorem relativePath_reads :
    Reads readRelativePath (fun path => stringBytes path.bytes) (fun _ => 0) fun _ => True := by
  apply (Codec.Reads.checked (fun path => ⟨path.bytes, path.valid⟩) (fun _ => True)
    (string_reads (by decide)) _).congr
  · intro path
    rfl
  · intro path
    rfl
  · intro path
    simp [path.length_pos, path.length_le]
  · intro text path _
    rw [Except.andThen_eq_ok, Text.ext_iff, and_true]
    constructor
    · intro accepted
      rcases accepted with ⟨found, parsed, kept⟩
      split at kept
      · next normal =>
          cases kept
          exact normal.symm
      · cases kept
    · intro same
      have normal : RelativePath.new text = .ok path := by
        rw [RelativePath.new_eq_ok, same, path.checked]
      exact ⟨path, liftRule_eq_ok.mpr normal, if_pos same.symm⟩

theorem candidate_reads : Reads readCandidate candidateBytes (fun _ => 0) fun _ => True := by
  apply (record_reads (Codec.Reads.start RuntimeCandidate.base (base_reads _) fun base _ =>
    Codec.Reads.field RuntimeCandidate.path relativePath_reads fun path _ =>
      Codec.Reads.done _)).congr
  · simp [candidateBytes]
  · simp
  · simp
  · intro base _ path _ candidate
    simp [RuntimeCandidate.ext_iff]

theorem variable_reads :
    Reads readVariable (fun name => stringBytes name.bytes) (fun _ => 0) fun _ => True := by
  apply (Codec.Reads.checked (fun name => ⟨name.bytes, name.valid⟩) (fun _ => True)
    (string_reads (by decide)) _).congr
  · intro name
    rfl
  · intro name
    rfl
  · intro name
    simp [name.length_pos, name.length_le]
  · intro text name _
    rw [liftRule_eq_ok, EnvironmentName.new_eq_ok, Text.ext_iff, and_true, eq_comm]

theorem path_reads : Reads readPath pathBytes pathRecords fun _ => True := by
  have candidates := counted_reads 11 candidate_reads (by decide) fun candidate => by
    have long := candidate.path.length_pos
    rw [candidateBytes, Codec.length_frame, List.length_cons, length_stringBytes]
    omega
  have names := counted_reads 5 variable_reads (by decide) fun name => by
    have long := name.length_pos
    rw [length_stringBytes]
    omega
  apply (record_reads (Codec.Reads.start RuntimePathGroup.id readId_reads fun id _ =>
    Codec.Reads.field RuntimePathGroup.kind (kind_reads _) fun kind _ =>
    Codec.Reads.field RuntimePathGroup.selection (selection_reads _) fun selection _ =>
    Codec.Reads.field RuntimePathGroup.inheritance (inheritance_reads _) fun inheritance _ =>
    Codec.Reads.field RuntimePathGroup.candidates candidates fun candidates _ =>
    Codec.Reads.field RuntimePathGroup.variableNames names fun names _ =>
      Codec.Reads.done _)).congr
  · simp [pathBytes]
  · simp [pathRecords]
  · simp
  · intro id _ kind _ selection _ inheritance _ candidates _ names _ path
    simp only [RuntimePathGroup.ext_iff, true_and]
    tauto

theorem binding_reads : Reads readBinding bindingBytes bindingRecords fun _ => True := by
  intro source binding next
  simp only [readBinding, Codec.bind_eq_ok, byte_reads _ _ _]
  constructor
  · intro accepted
    rcases accepted with ⟨flag, middle, ⟨-, ahead, same⟩, rest⟩
    split at rest
    · next unbound =>
        rcases Codec.pure_eq_ok.mp rest with ⟨none, last⟩
        subst none last unbound
        exact ⟨trivial, ahead, same⟩
    · split at rest
      · next bound =>
          simp only [Codec.bind_eq_ok, Read.spend, Codec.spend_eq_ok, readPin_reads 2 _ _ _,
            Codec.pure_eq_ok] at rest
          rcases rest with ⟨_, spent, ⟨kept, counted⟩, pin, last, ⟨-, behind, total⟩, found, done⟩
          subst found done bound
          refine ⟨trivial, ?_, ?_⟩
          · rw [ahead, ← kept, behind]
            rfl
          · rw [total, counted, same]
            rfl
      · cases rest
  · intro shape
    rcases shape with ⟨-, ahead, counted⟩
    cases binding with
    | none => exact ⟨0, next, ⟨trivial, ahead, counted⟩, rfl⟩
    | some pin =>
        have suffix := source.small
        rw [ahead, bindingBytes, List.cons_append, List.length_cons] at suffix
        have one : next.used = source.used + 1 := counted
        have bound := next.within
        let middle : Codec.Source maxMetadataBytes maxRecords :=
          ⟨pinBytes 2 pin ++ next.rest, source.used, by omega, source.within⟩
        let spent : Codec.Source maxMetadataBytes maxRecords :=
          ⟨pinBytes 2 pin ++ next.rest, source.used + 1, by omega, by omega⟩
        refine ⟨1, middle, ⟨trivial, ahead, rfl⟩, ?_⟩
        rw [if_neg (by decide), if_pos rfl]
        simp only [Codec.bind_eq_ok, Read.spend, Codec.spend_eq_ok, readPin_reads 2 _ _ _,
          Codec.pure_eq_ok]
        exact ⟨(), spent, ⟨rfl, rfl⟩, pin, next, ⟨trivial, rfl, one⟩, rfl, rfl⟩

theorem rule_reads : Reads readRule ruleBytes ruleRecords fun _ => True := by
  have paths := counted_reads 5 path_reads (by decide) fun path => by
    rw [pathBytes, Codec.length_frame]
    omega
  have hooks := counted_reads 6 hook_reads (by decide) fun hook => by
    simp [hookBytes]
  apply (record_reads (Codec.Reads.start RuntimeRuleRecord.id readId_reads fun id _ =>
    Codec.Reads.field RuntimeRuleRecord.binding binding_reads fun binding _ =>
    Codec.Reads.field (fun rule : RuntimeRuleRecord => rule.runtime.paths) paths fun paths _ =>
    Codec.Reads.field (fun rule : RuntimeRuleRecord => rule.runtime.hooks) hooks fun hooks _ =>
      Codec.Reads.done _)).congr
  · simp [ruleBytes]
  · simp [ruleRecords]
    omega
  · simp
  · intro id _ binding _ paths _ hooks _ rule
    simp [RuntimeRuleRecord.ext_iff, RuntimeRules.ext_iff, and_assoc]

theorem rules_reads :
    Reads (Read.counted 5 readRule) (Codec.countedBytes ruleBytes) rulesRecords fun _ => True :=
  counted_reads 5 rule_reads (by decide) fun rule => by
    rw [ruleBytes, Codec.length_frame]
    omega

/-! ### Writing the records -/

theorem candidate_writes (candidate : RuntimeCandidate) :
    Writes (writeCandidate candidate) (candidateBytes candidate) :=
  record_writes 4 ((byte_writes _).andThen
    (string_writes (lt_of_le_of_lt candidate.path.length_le (by decide))))

theorem variable_writes (name : EnvironmentName) :
    Writes (Write.string name.bytes) (stringBytes name.bytes) :=
  string_writes (lt_of_le_of_lt name.length_le (by decide))

theorem hook_writes (hook : RuntimeHookId) : Writes (writeHook hook) (hookBytes hook) :=
  record_writes 5 (byte_writes _)

theorem binding_writes (binding : Option SetPin) :
    Writes (writeBinding binding) (bindingBytes binding) := by
  cases binding with
  | none => exact (byte_writes 0).andThen Codec.Writes.nothing
  | some pin => exact (byte_writes 1).andThen (writePin_writes 2 pin)

theorem path_writes {path : RuntimePathGroup} (few : pathRecords path ≤ maxRecords) :
    Writes (writePath path) (pathBytes path) := by
  have candidates := counted_writes path.candidates (le_trans (Nat.le_add_right _ _) few)
    fun candidate _ => candidate_writes candidate
  have names := counted_writes path.variableNames (le_trans (Nat.le_add_left _ _) few)
    fun name _ => variable_writes name
  have fields := (id_writes path.id).andThen ((byte_writes (kindTag path.kind)).andThen
    ((byte_writes (selectionTag path.selection)).andThen
      ((byte_writes (inheritanceTag path.inheritance)).andThen (candidates.andThen names))))
  have record := record_writes 3 fields
  simpa [writePath, pathBytes] using record

theorem pathRecords_le {path : RuntimePathGroup} {paths : List RuntimePathGroup} {most : Nat}
    (member : path ∈ paths) (few : (paths.map pathRecords).sum ≤ most) : pathRecords path ≤ most :=
  le_trans (List.le_sum_of_mem (List.mem_map_of_mem member)) few

theorem rule_writes {rule : RuntimeRuleRecord} (few : ruleRecords rule ≤ maxRecords) :
    Writes (writeRule rule) (ruleBytes rule) := by
  rw [ruleRecords] at few
  have paths := counted_writes rule.runtime.paths (by omega) fun path member =>
    path_writes (pathRecords_le member (by omega))
  have hooks := counted_writes rule.runtime.hooks (by omega) fun hook _ =>
    hook_writes hook
  have record := record_writes 1 ((id_writes rule.id).andThen
    ((binding_writes rule.binding).andThen (paths.andThen hooks)))
  simpa [writeRule, ruleBytes] using record

theorem rules_writes {rules : List RuntimeRuleRecord} (few : rulesRecords rules ≤ maxRecords) :
    Writes (do Write.count rules.length; rules.forM writeRule)
      (Codec.countedBytes ruleBytes rules) := by
  rw [rulesRecords] at few
  apply counted_writes rules (by omega)
  intro rule member
  have most := List.le_sum_of_mem (List.mem_map_of_mem (f := ruleRecords) member)
  exact rule_writes (by omega)

/-! ### Both directions of the file -/

theorem countPath_adds (path : RuntimePathGroup) :
    Adds maxRecords (fun used => countPath used path) (pathRecords path) :=
  (addBudget_adds _).andThen (addBudget_adds _)

theorem countRule_adds (rule : RuntimeRuleRecord) :
    Adds maxRecords (fun used => countRule used rule) (ruleRecords rule) :=
  (addBudget_adds _).andThen ((addBudget_adds _).andThen ((addBudget_adds _).andThen
    (Adds.foldlM countPath_adds _)))

namespace RuntimeRuleMetadata

theorem recordCount_eq_ok {metadata : RuntimeRuleMetadata} {records : Nat} :
    metadata.recordCount = .ok records ↔
      records = rulesRecords metadata.rules ∧ records ≤ maxRecords := by
  have counts := (addBudget_adds metadata.rules.length).andThen
    (Adds.foldlM countRule_adds metadata.rules)
  have total := counts 0 (Nat.zero_le _) records
  rwa [Nat.zero_add] at total

/-- What `validate` accepts. -/
structure Valid (metadata : RuntimeRuleMetadata) : Prop where
  few : rulesRecords metadata.rules ≤ maxRecords
  distinct : (metadata.rules.map RuntimeRuleRecord.scopedIdentity).Nodup
  each : ∀ rule ∈ metadata.rules, validateRule rule = .ok ()

theorem validate_eq_ok {metadata : RuntimeRuleMetadata} :
    metadata.validate = .ok () ↔ metadata.Valid := by
  rw [validate, Except.andThen_eq_ok]
  simp only [recordCount_eq_ok, eachUnique_eq_ok]
  constructor
  · intro accepted
    rcases accepted with ⟨_, ⟨rfl, few⟩, each, -, distinct⟩
    exact ⟨few, distinct, fun rule member => (each rule member).2⟩
  · intro valid
    exact ⟨_, ⟨rfl, valid.few⟩, fun rule member => ⟨trivial, valid.each rule member⟩,
      fun _ _ => List.not_mem_nil, valid.distinct⟩

theorem rulesRecords_sorted (metadata : RuntimeRuleMetadata) :
    rulesRecords metadata.sorted.rules = rulesRecords metadata.rules := by
  have perm := sortByKey_perm RuntimeRuleRecord.scopedIdentity metadata.rules
  rw [rulesRecords, rulesRecords]
  exact congrArg₂ (· + ·) perm.length_eq (perm.map ruleRecords).sum_eq

theorem Valid.sorted {metadata : RuntimeRuleMetadata} (valid : metadata.Valid) :
    metadata.sorted.Valid := by
  have perm := sortByKey_perm RuntimeRuleRecord.scopedIdentity metadata.rules
  constructor
  · rw [rulesRecords_sorted]
    exact valid.few
  · exact (perm.map _).nodup_iff.mpr valid.distinct
  · intro rule member
    exact valid.each rule (perm.mem_iff.mp member)

/-- The one file a value has. -/
def file (metadata : RuntimeRuleMetadata) : Bytes :=
  fileBytes (utf8 "ORUL") (rulesRecords metadata.rules) (Codec.countedBytes ruleBytes metadata.rules)

theorem encode_eq_ok {metadata : RuntimeRuleMetadata} {bytes : Bytes} :
    metadata.encode = .ok bytes ↔
      metadata.Valid ∧ bytes.length ≤ maxMetadataBytes ∧ bytes = metadata.sorted.file := by
  rw [encode, Except.andThen_eq_ok]
  simp only [Except.andThen_eq_ok, recordCount_eq_ok]
  constructor
  · intro encoded
    rcases encoded with ⟨_, validated, _, ⟨rfl, few⟩, written⟩
    have valid := validate_eq_ok.mp validated
    have writes := rules_writes valid.sorted.few
    rcases (encodeFile_eq_ok (by decide) few writes).mp written with ⟨fits, same⟩
    exact ⟨valid, fits, by rw [same, file, rulesRecords_sorted]⟩
  · intro shape
    rcases shape with ⟨valid, fits, same⟩
    refine ⟨(), validate_eq_ok.mpr valid, _, ⟨rfl, valid.few⟩, ?_⟩
    rw [encodeFile_eq_ok (by decide) valid.few (rules_writes valid.sorted.few), ← rulesRecords_sorted]
    exact ⟨fits, same⟩

theorem decode_eq_ok {metadata : RuntimeRuleMetadata} {bytes : Bytes} :
    decode bytes = .ok metadata ↔
      metadata.Valid ∧ (metadata.rules.map RuntimeRuleRecord.scopedIdentity).Pairwise (· < ·) ∧
        bytes.length ≤ maxMetadataBytes ∧ bytes = metadata.file := by
  have magic : (utf8 "ORUL").length = 4 := by decide
  simp only [decode, Except.andThen_eq_ok, decodeFile_eq_ok magic rules_reads]
  constructor
  · intro decoded
    rcases decoded with ⟨rules, ⟨-, few, fits, same⟩, _, validated, ordered⟩
    split at ordered
    · cases ordered
    · next ascending =>
        cases ordered
        rw [Bool.not_eq_true, outOfOrder_eq_false] at ascending
        exact ⟨validate_eq_ok.mp validated, ascending, fits, same⟩
  · intro shape
    rcases shape with ⟨valid, ascending, fits, same⟩
    refine ⟨metadata.rules, ⟨trivial, valid.few, fits, same⟩, (), validate_eq_ok.mpr valid, ?_⟩
    rw [if_neg]
    rw [Bool.not_eq_true, outOfOrder_eq_false]
    exact ascending

theorem sorted_ascending {metadata : RuntimeRuleMetadata} (valid : metadata.Valid) :
    (metadata.sorted.rules.map RuntimeRuleRecord.scopedIdentity).Pairwise (· < ·) :=
  sortByKey_sorted valid.distinct

/-- Every encoded value decodes to itself in canonical order, and every accepted file is the
encoding of what it decodes to. -/
theorem codec_bijective :
    (∀ (metadata : RuntimeRuleMetadata) (bytes : Bytes), metadata.encode = .ok bytes →
      decode bytes = .ok metadata.sorted) ∧
    (∀ (bytes : Bytes) (metadata : RuntimeRuleMetadata), decode bytes = .ok metadata →
      metadata.encode = .ok bytes) := by
  constructor
  · intro metadata bytes encoded
    rcases encode_eq_ok.mp encoded with ⟨valid, fits, same⟩
    exact decode_eq_ok.mpr ⟨valid.sorted, sorted_ascending valid, fits, same⟩
  · intro bytes metadata decoded
    rcases decode_eq_ok.mp decoded with ⟨valid, ascending, fits, same⟩
    have canonical : metadata.sorted = metadata :=
      RuntimeRuleMetadata.ext (sortByKey_of_sorted ascending)
    exact encode_eq_ok.mpr ⟨valid, fits, by rw [canonical, same]⟩

/-- The magic database of a package, and a GIO rule bound to a pinned set. -/
def magicRules : RuntimeRuleMetadata :=
  ⟨[⟨⟨utf8 "magic", by decide⟩, none,
      ⟨[{ id := ⟨utf8 "database", by decide⟩
          kind := .file
          candidates := [⟨.packageRoot, ⟨utf8 "share/misc/magic.mgc", by decide, by decide⟩⟩]
          variableNames := [⟨utf8 "MAGIC", by decide⟩]
          selection := .first
          inheritance := .preserve }], []⟩⟩,
    ⟨⟨utf8 "gio", by decide⟩,
      some ⟨⟨utf8 "gnome", by decide⟩, ⟨List.replicate 32 11, by decide⟩⟩,
      ⟨[], [.gioModulePaths]⟩⟩]⟩

theorem codec_bijective_of_magicRules :
    decode magicRules.sorted.file = .ok magicRules.sorted ∧
      magicRules.sorted.encode = .ok magicRules.sorted.file :=
  ⟨codec_bijective.1 magicRules magicRules.sorted.file (by decide +kernel),
    codec_bijective.2 magicRules.sorted.file magicRules.sorted (by decide +kernel)⟩

end RuntimeRuleMetadata

end Onelf.Format.Metadata
