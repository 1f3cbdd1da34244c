import Onelf.Lib.Checks
import Onelf.Lib.Text
import Onelf.Lib.Utf8

/-! Typed framework descriptors: identities, relative paths, environment names and the runtime
rules built from them (`rules.rs`). -/

namespace Onelf.Format

open Onelf.Lib

/-- A descriptor error: the field it names, its reason and the value it quotes. The value stands
here whole; the source escapes and cuts it when it renders the error. -/
structure RuleError where
  field : String
  reason : String
  value : Option Bytes
  deriving DecidableEq

def maxRecords : Nat := 4096
def maxIdBytes : Nat := 128
def maxPathBytes : Nat := 4096

/-! ### Identities -/

namespace RuleId

def isIdByte (byte : UInt8) : Bool := isAlphanumeric byte || byte == 46 || byte == 95 || byte == 45

/-- What `RuleId::new` asks of an identity. -/
def check (value : Bytes) : Except RuleError Unit :=
  if value.length > maxIdBytes then .error ⟨"id", "exceeds MAX_ID_BYTES (128)", none⟩
  else if !value.head?.any isAlphanumeric || !value.all isIdByte then
    .error ⟨"id", "expected an alphanumeric identity", some value⟩
  else .ok ()

end RuleId

/-- A nonempty stable rule or descriptor-local group identity. -/
@[ext] structure RuleId where
  bytes : Bytes
  checked : RuleId.check bytes = .ok ()
  deriving DecidableEq

namespace RuleId

def new (value : Bytes) : Except RuleError RuleId :=
  match checked : check value with
  | .ok () => .ok ⟨value, checked⟩
  | .error reason => .error reason

/-- A set declaration name: an identity without dots. -/
def setName (value : Bytes) : Except RuleError RuleId := do
  let id ← new value
  if value.contains 46 then
    .error ⟨"set name", "expected ASCII letters, digits, - and _ only", some value⟩
  else .ok id

instance : LinearOrder RuleId := LinearOrder.lift' RuleId.bytes fun _ _ => RuleId.ext

theorem new_eq_ok {value : Bytes} {id : RuleId} : new value = .ok id ↔ id.bytes = value := by
  rw [new]
  split
  · rw [Except.ok.injEq, RuleId.ext_iff, eq_comm]
  · next reason refused =>
      refine ⟨nofun, ?_⟩
      rintro rfl
      rw [id.checked] at refused
      cases refused

theorem check_eq_ok {value : Bytes} :
    check value = .ok () ↔ value.length ≤ maxIdBytes ∧
      value.head?.any isAlphanumeric = true ∧ value.all isIdByte = true := by
  rw [check]
  split
  · next long => simp [Nat.not_le.mpr long]
  · next short =>
      split
      · next refused =>
          refine ⟨nofun, ?_⟩
          rintro ⟨-, first, every⟩
          simp [first, every] at refused
      · next accepted =>
          rw [Bool.or_eq_true, not_or] at accepted
          have within : value.length ≤ maxIdBytes := Nat.not_lt.mp short
          simpa [within] using accepted

theorem setName_eq_ok {value : Bytes} {id : RuleId} :
    setName value = .ok id ↔ id.bytes = value ∧ 46 ∉ value := by
  rw [setName, Except.andThen_eq_ok]
  constructor
  · intro accepted
    obtain ⟨found, named, rest⟩ := accepted
    split at rest
    · cases rest
    · next plain =>
        cases rest
        exact ⟨new_eq_ok.mp named, by simpa using plain⟩
  · intro shape
    obtain ⟨named, plain⟩ := shape
    refine ⟨id, new_eq_ok.mpr named, ?_⟩
    rw [if_neg (by simpa using plain)]

theorem ne_nil (id : RuleId) : id.bytes ≠ [] := by
  intro empty
  have first := (check_eq_ok.mp id.checked).2.1
  simp [empty] at first

theorem length_pos (id : RuleId) : 0 < id.bytes.length := List.length_pos_of_ne_nil id.ne_nil

theorem length_le (id : RuleId) : id.bytes.length ≤ maxIdBytes := (check_eq_ok.mp id.checked).1

theorem isIdByte_ascii {byte : UInt8} (inside : isIdByte byte = true) : byte < 0x80 := by
  simp only [isIdByte, isAlphanumeric, isDigit, isAlphabetic, Bool.or_eq_true, Bool.and_eq_true,
    decide_eq_true_eq, beq_iff_eq] at inside
  rcases inside with (((digit | upper | lower) | rfl) | rfl) | rfl
  · exact lt_of_le_of_lt digit.2 (by decide)
  · exact lt_of_le_of_lt upper.2 (by decide)
  · exact lt_of_le_of_lt lower.2 (by decide)
  · decide
  · decide
  · decide

theorem valid (id : RuleId) : validUtf8 id.bytes = true := by
  have every := (check_eq_ok.mp id.checked).2.2
  rw [List.all_eq_true] at every
  exact validUtf8_of_ascii fun byte member => isIdByte_ascii (every byte member)

end RuleId

/-! ### Relative paths -/

def slash : UInt8 := 47

namespace RelativePath

def keptPart (part : Bytes) : Bool := part != [] && part != [46]

def windowsDrive (firstComponent : Bytes) : Bool :=
  firstComponent[1]? == some 58 && firstComponent.head?.any isAlphabetic

/-- `value` with redundant slashes and `.` components removed. -/
def normalize (value : Bytes) : Bytes := [slash].intercalate ((value.splitOn slash).filter keptPart)

/-- Whether `RelativePath::new` refuses `value` as leading outside its base. -/
def unconfined (value : Bytes) : Bool :=
  value.head? == some slash ||
    windowsDrive (((value.splitOn slash).find? keptPart).getD []) ||
    value.contains 92 || value.any isControl || (value.splitOn slash).contains [46, 46]

/-- The normalized path, for a value `RelativePath::new` accepts. -/
def check (value : Bytes) : Except RuleError Bytes :=
  if value.length > maxPathBytes then .error ⟨"path", "exceeds MAX_PATH_BYTES (4096)", none⟩
  else if unconfined value then
    .error ⟨"path", "expected a confined relative path", some value⟩
  else if normalize value = [] then
    .error ⟨"path", "must name a resource below its base", none⟩
  else .ok (normalize value)

theorem check_eq_ok {value path : Bytes} :
    check value = .ok path ↔ value.length ≤ maxPathBytes ∧ unconfined value = false ∧
      path ≠ [] ∧ path = normalize value := by
  rw [check]
  split
  · next long => simp [Nat.not_le.mpr long]
  · next short =>
      split
      · next refused => simp [refused]
      · next confined =>
          split
          · next empty => simp +contextual [empty]
          · next named =>
              rw [Except.ok.injEq]
              constructor
              · rintro rfl
                exact ⟨Nat.not_lt.mp short, by simpa using confined, named, rfl⟩
              · rintro ⟨-, -, -, rfl⟩
                rfl

theorem splitOn_normalize {value : Bytes} (named : normalize value ≠ []) :
    (normalize value).splitOn slash = (value.splitOn slash).filter keptPart := by
  apply List.splitOn_intercalate
  · intro part member
    exact not_mem_of_mem_splitOn (List.mem_filter.mp member).1
  · rintro none
    exact named (by rw [normalize, none, List.intercalate_nil])

theorem mem_of_mem_normalize {value : Bytes} {byte : UInt8} (member : byte ∈ normalize value) :
    byte = slash ∨ byte ∈ value := by
  rcases mem_of_mem_intercalate member with same | ⟨part, kept, inside⟩
  · exact Or.inl same
  · have whole := mem_intercalate_of_mem slash (List.mem_filter.mp kept).1 inside
    rw [List.intercalate_splitOn] at whole
    exact Or.inr whole

theorem length_normalize_le (value : Bytes) : (normalize value).length ≤ value.length := by
  have shorter := length_intercalate_filter_le slash keptPart (value.splitOn slash)
  rwa [List.intercalate_splitOn] at shorter

theorem head?_normalize_ne (value : Bytes) : (normalize value).head? ≠ some slash := by
  rw [normalize]
  cases parts : (value.splitOn slash).filter keptPart with
  | nil => simp
  | cons part rest =>
      have member : part ∈ (value.splitOn slash).filter keptPart := by simp [parts]
      obtain ⟨split, kept⟩ := List.mem_filter.mp member
      have absent := not_mem_of_mem_splitOn split
      cases part with
      | nil => simp [keptPart] at kept
      | cons byte part =>
          have other : byte ≠ slash := fun same => absent (same ▸ List.mem_cons_self)
          cases rest with
          | nil => simp [other]
          | cons next rest => simp [List.intercalate_cons_cons, other]

theorem unconfined_normalize {value : Bytes} (confined : unconfined value = false)
    (named : normalize value ≠ []) : unconfined (normalize value) = false := by
  simp only [unconfined, Bool.or_eq_false_iff] at confined ⊢
  obtain ⟨⟨⟨⟨-, drive⟩, backslash⟩, control⟩, parent⟩ := confined
  rw [splitOn_normalize named]
  refine ⟨⟨⟨⟨?_, ?_⟩, ?_⟩, ?_⟩, ?_⟩
  · simpa using head?_normalize_ne value
  · have first : ((value.splitOn slash).filter keptPart).find? keptPart =
        (value.splitOn slash).find? keptPart := by simp
    rw [first]
    exact drive
  · rw [List.contains_eq_mem, decide_eq_false_iff_not] at backslash ⊢
    intro member
    rcases mem_of_mem_normalize member with same | inside
    · exact absurd same (by decide)
    · exact backslash inside
  · rw [List.any_eq_false] at control ⊢
    intro byte member
    rcases mem_of_mem_normalize member with rfl | inside
    · decide
    · exact control byte inside
  · rw [List.contains_eq_mem, decide_eq_false_iff_not] at parent ⊢
    exact fun member => parent (List.mem_filter.mp member).1

theorem normalize_normalize (value : Bytes) : normalize (normalize value) = normalize value := by
  by_cases named : normalize value = []
  · rw [named]
    rfl
  · rw [normalize, splitOn_normalize named, List.filter_filter]
    simp [normalize]

/-- A normalized path is accepted as it stands. -/
theorem check_idem {value path : Bytes} (accepted : check value = .ok path) :
    check path = .ok path := by
  obtain ⟨short, confined, named, rfl⟩ := check_eq_ok.mp accepted
  exact check_eq_ok.mpr ⟨le_trans (length_normalize_le value) short,
    unconfined_normalize confined named, named, (normalize_normalize value).symm⟩

theorem validUtf8_check {value path : Bytes} (text : validUtf8 value = true)
    (accepted : check value = .ok path) : validUtf8 path = true := by
  obtain ⟨-, -, -, rfl⟩ := check_eq_ok.mp accepted
  have whole : [slash].intercalate (value.splitOn slash) = value := List.intercalate_splitOn slash
  rw [← whole, validUtf8_intercalate (by decide)] at text
  rw [normalize, validUtf8_intercalate (by decide)]
  exact fun part member => text part (List.mem_filter.mp member).1

end RelativePath

/-- A normalized, nonempty path relative to a typed source or runtime base. -/
@[ext] structure RelativePath where
  bytes : Bytes
  checked : RelativePath.check bytes = .ok bytes
  valid : validUtf8 bytes = true

namespace RelativePath

instance : DecidableEq RelativePath := fun left right =>
  decidable_of_iff (left.bytes = right.bytes) RelativePath.ext_iff.symm

def new (value : Text) : Except RuleError RelativePath :=
  match accepted : check value.bytes with
  | .ok path => .ok ⟨path, check_idem accepted, validUtf8_check value.valid accepted⟩
  | .error reason => .error reason

theorem new_eq_ok {value : Text} {path : RelativePath} :
    new value = .ok path ↔ check value.bytes = .ok path.bytes := by
  rw [new]
  split
  · next bytes accepted =>
      rw [Except.ok.injEq, RelativePath.ext_iff]
      constructor
      · rintro rfl
        exact accepted
      · intro same
        exact Except.ok.inj (accepted.symm.trans same)
  · next reason refused => simp [refused]

theorem length_pos (path : RelativePath) : 0 < path.bytes.length :=
  List.length_pos_of_ne_nil (check_eq_ok.mp path.checked).2.2.1

theorem length_le (path : RelativePath) : path.bytes.length ≤ maxPathBytes :=
  (check_eq_ok.mp path.checked).1

end RelativePath

/-! ### Environment names -/

namespace EnvironmentName

def isNameByte (byte : UInt8) : Bool := isAlphanumeric byte || byte == 95

/-- What `EnvironmentName::new` asks of a name. -/
def check (value : Bytes) : Except RuleError Unit :=
  if value.length > maxIdBytes then .error ⟨"environment", "exceeds MAX_ID_BYTES (128)", none⟩
  else if !(value.head?.any fun byte => isAlphabetic byte || byte == 95) ||
      !value.all isNameByte then
    .error ⟨"environment", "invalid variable name", some value⟩
  else if (utf8 "LD_").isPrefixOf value || value == utf8 "GCONV_PATH" ||
      value == utf8 "GLIBC_TUNABLES" then
    .error ⟨"environment", "prohibited library-search or loader-control variable", some value⟩
  else if (utf8 "ONELF_").isPrefixOf value then
    .error ⟨"environment", "prohibited runtime-owned variable", some value⟩
  else .ok ()

end EnvironmentName

/-- A portable environment name that cannot configure the application loader. -/
@[ext] structure EnvironmentName where
  bytes : Bytes
  checked : EnvironmentName.check bytes = .ok ()
  deriving DecidableEq

namespace EnvironmentName

def new (value : Bytes) : Except RuleError EnvironmentName :=
  match checked : check value with
  | .ok () => .ok ⟨value, checked⟩
  | .error reason => .error reason

theorem new_eq_ok {value : Bytes} {name : EnvironmentName} :
    new value = .ok name ↔ name.bytes = value := by
  rw [new]
  split
  · rw [Except.ok.injEq, EnvironmentName.ext_iff, eq_comm]
  · next reason refused =>
      refine ⟨nofun, ?_⟩
      rintro rfl
      rw [name.checked] at refused
      cases refused

theorem shape (name : EnvironmentName) :
    name.bytes.length ≤ maxIdBytes ∧
      (name.bytes.head?.any fun byte => isAlphabetic byte || byte == 95) = true ∧
      name.bytes.all isNameByte = true := by
  have accepted := name.checked
  rw [check] at accepted
  split at accepted
  · cases accepted
  · next short =>
      split at accepted
      · cases accepted
      · next formed =>
          rw [Bool.or_eq_true, not_or] at formed
          exact ⟨Nat.not_lt.mp short, by simpa using formed.1, by simpa using formed.2⟩

theorem length_pos (name : EnvironmentName) : 0 < name.bytes.length := by
  apply List.length_pos_of_ne_nil
  intro empty
  have first := name.shape.2.1
  simp [empty] at first

theorem length_le (name : EnvironmentName) : name.bytes.length ≤ maxIdBytes := name.shape.1

theorem valid (name : EnvironmentName) : validUtf8 name.bytes = true := by
  have every := name.shape.2.2
  rw [List.all_eq_true] at every
  apply validUtf8_of_ascii
  intro byte member
  apply RuleId.isIdByte_ascii
  have inside := every byte member
  rw [isNameByte, Bool.or_eq_true] at inside
  rw [RuleId.isIdByte]
  rcases inside with letter | underscore
  · simp [letter]
  · simp [underscore]

end EnvironmentName

/-! ### Runtime rules -/

inductive ResourceKind where
  | file
  | directory
  deriving DecidableEq

inductive RuntimeBase where
  | packageRoot
  | libraryRoot
  deriving DecidableEq

inductive PathSelection where
  | first
  | all
  | firstPerLibraryRoot
  deriving DecidableEq

inductive Inheritance where
  | preserve
  | replace
  deriving DecidableEq

/-- The closed runtime hook registry. -/
inductive RuntimeHookId where
  | alsaConfigPathNaturalSort
  | gdkCacheAbsolutise
  | fontconfigGenerate
  | gioModulePaths
  | tclTkLibraries
  deriving DecidableEq

@[ext] structure RuntimeCandidate where
  base : RuntimeBase
  path : RelativePath
  deriving DecidableEq

/-- A presence-based runtime environment mapping with one value for all its aliases. -/
@[ext] structure RuntimePathGroup where
  id : RuleId
  kind : ResourceKind
  candidates : List RuntimeCandidate
  variableNames : List EnvironmentName
  selection : PathSelection
  inheritance : Inheritance
  deriving DecidableEq

@[ext] structure RuntimeRules where
  paths : List RuntimePathGroup
  hooks : List RuntimeHookId
  deriving DecidableEq

/-- The environment names each registered runtime hook assigns. -/
def hookNames : List (RuntimeHookId × List Bytes) :=
  [(.alsaConfigPathNaturalSort, [utf8 "ALSA_CONFIG_PATH"]),
    (.gdkCacheAbsolutise, [utf8 "GDK_PIXBUF_MODULE_FILE", utf8 "GTK_IM_MODULE_FILE"]),
    (.fontconfigGenerate, [utf8 "FONTCONFIG_FILE"]),
    (.gioModulePaths, [utf8 "GIO_MODULE_DIR", utf8 "GIO_EXTRA_MODULES"]),
    (.tclTkLibraries, [utf8 "TCL_LIBRARY", utf8 "TK_LIBRARY"])]

/-- The environment names the launch's own procedures assign. -/
def procedureNames : List Bytes :=
  [utf8 "GCONV_PATH", utf8 "LIBDECOR_PLUGIN_DIR", utf8 "LIBGL_DRIVERS_PATH",
    utf8 "LIBVA_DRIVERS_PATH", utf8 "GBM_BACKENDS_PATH", utf8 "__EGL_VENDOR_LIBRARY_DIRS",
    utf8 "VK_DRIVER_FILES", utf8 "VK_ADD_DRIVER_FILES", utf8 "DRIRC_CONFIGDIR",
    utf8 "LIBDRM_IDS_PATH", utf8 "TERMINFO_DIRS", utf8 "SSL_CERT_FILE", utf8 "CURL_CA_BUNDLE",
    utf8 "LOCPATH"]

/-- Whether a runtime hook or the launch's own procedures assign `name`. -/
def runtimeOwned (name : Bytes) : Bool :=
  (hookNames.flatMap Prod.snd ++ procedureNames).contains name

def RuntimeHookId.debugName : RuntimeHookId → Bytes
  | .alsaConfigPathNaturalSort => utf8 "AlsaConfigPathNaturalSort"
  | .gdkCacheAbsolutise => utf8 "GdkCacheAbsolutise"
  | .fontconfigGenerate => utf8 "FontconfigGenerate"
  | .gioModulePaths => utf8 "GioModulePaths"
  | .tclTkLibraries => utf8 "TclTkLibraries"

def requireCandidates {α : Type} (candidates : List α) (id : Bytes) : Except RuleError Unit :=
  refuseIf candidates.isEmpty
    ⟨"candidates", "requires at least one source or runtime candidate", some id⟩

/-- `RecordBudget::add`. -/
def addRecords (used count : Nat) : Except RuleError Nat :=
  if used + count ≤ maxRecords then .ok (used + count)
  else .error ⟨"records", "exceeds MAX_RECORDS (4096)", none⟩

namespace RuntimeRules

/-- The aliases of one path group: none assigned by the runtime, none repeated. -/
def validateVariables (names : List EnvironmentName) : Except RuleError Unit :=
  eachUnique
    (fun name => refuseIf (runtimeOwned name.bytes)
      ⟨"runtime.paths.variables", "assigned by a runtime hook or launch procedure", some name.bytes⟩)
    (fun _ => .ok ()) id
    (fun name => ⟨"environment alias", "duplicate identity", some name.bytes⟩) [] names

/-- What one path group must hold beside an identity of its own. -/
def validatePath (path : RuntimePathGroup) : Except RuleError Unit := do
  requireCandidates path.candidates path.id.bytes
  refuseIf path.variableNames.isEmpty
    ⟨"runtime.paths.variables", "requires at least one environment alias", some path.id.bytes⟩
  validateVariables path.variableNames
  refuseIf (path.selection = .firstPerLibraryRoot ∧ path.candidates.any (·.base != .libraryRoot))
    ⟨"runtime.paths.selection", "first-per-library-root requires library-root candidates",
      some path.id.bytes⟩

def validateFields (rules : RuntimeRules) : Except RuleError Unit := do
  eachUnique (fun _ => .ok ()) validatePath RuntimePathGroup.id
    (fun path => ⟨"runtime path id", "duplicate identity", some path.id.bytes⟩) [] rules.paths
  eachUnique (fun _ => .ok ()) (fun _ => .ok ()) id
    (fun hook => ⟨"runtime hook", "duplicate identity", some hook.debugName⟩) [] rules.hooks

def countPath (used : Nat) (path : RuntimePathGroup) : Except RuleError Nat := do
  let used ← addRecords used path.candidates.length
  addRecords used path.variableNames.length

def validate (rules : RuntimeRules) : Except RuleError Unit := do
  let used ← addRecords 0 rules.paths.length
  let used ← addRecords used rules.hooks.length
  let _ ← rules.paths.foldlM countPath used
  rules.validateFields

end RuntimeRules

end Onelf.Format
