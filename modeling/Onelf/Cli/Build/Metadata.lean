import Onelf.Cli.Build.Selections

/-! What a build records of its sets: the AppDir's table, the selection record and the packer's
checks of both (`main.rs`, `pack.rs`, `bundle/sysroot.rs`). -/

namespace Onelf.Cli.Build

open Onelf.Lib Onelf.Format Onelf.Format.Metadata Onelf.Cli.Pack Onelf.Runtime.Sets

/-- `.onelf/sets`. -/
def setsFile : RelPath := [onelfDir, utf8 "sets"]

/-- How the AppDir stands around the set table. -/
structure AppDir where
  /-- A symbolic link leads there: the table is written through it, and the walk lists the link. -/
  linked : Bool
  /-- Where the output lies, if that is inside the directory. -/
  output : Option RelPath

/-- One build of a recipe. -/
structure Job where
  recipe : Recipe
  /-- What the recipe says of other matters. -/
  rest : PackOptions
  appDir : AppDir
  /-- The packages each set's closure holds, where `[sysroot]` has a package database. -/
  closures : Option (List (Str × List Str))
  /-- The rule records the catalog has for the runtime. -/
  rules : List RuntimeRuleRecord

namespace Job

def opts (job : Job) : PackOptions := packOptions job.recipe job.rest

/-- The declared sets, in the order of the recipe's table. -/
def sets (job : Job) : List SharedSet :=
  job.recipe.declared.entries.map fun entry =>
    ⟨entry.1, entry.2.packages, entry.2.url, entry.2.blake3⟩

end Job

/-! ### The table -/

/-- A build is executable code, so it comes over TLS or from a local file. -/
def checkUrl (url : Str) : Bool := "https://".toList <+: url || "file://".toList <+: url

/-- What a package database's build asks of a set. -/
def checkSet (set : SharedSet) : Except BuildError Unit := do
  refuseIf ((RuleId.setName (Str.encodeUtf8 set.name)).toOption = none) (.setName set.name)
  refuseIf (set.packages = []) (.noPackages set.name)
  refuseIf (checkUrl set.url = false) (.setUrl set.name)
  refuseIf (isDigest set.blake3 = false) (.setHash set.name)

/-- A recipe that declares no set leaves no table. -/
def tableText (sets : List SharedSet) (closures : List (Str × List Str)) : Option Str :=
  if sets = [] then none else some (renderSets sets closures)

/-- The table `populate` writes, or `record_sets` without a package database. -/
def stageTable (job : Job) : Except BuildError (Option Str) :=
  match job.closures with
  | none => .ok (tableText job.sets [])
  | some closures => do
      job.sets.forM checkSet
      .ok (tableText job.sets closures)

/-! ### The records -/

def declaredSetPin (set : SharedSet) : Except BuildError SetPin :=
  match RuleId.new (Str.encodeUtf8 set.name), hexDigest set.blake3 with
  | .error _, _ => .error (.setName set.name)
  | .ok _, none => .error (.setHash set.name)
  | .ok name, some hash => .ok ⟨name, hash⟩

/-- The identity a written name selects. -/
def selectedId (declared : List SetPin) (entrypoint : Text) (name : Str) : Except BuildError RuleId :=
  match declared.find? fun pin => pin.name.bytes = Str.encodeUtf8 name with
  | some pin => .ok pin.name
  | none => .error (.undeclaredSet entrypoint name)

/-- An omitted selection expands to every declared name. -/
def selectedIds (declared : List SetPin) (resolved : ResolvedSelection) :
    Except BuildError (List RuleId) :=
  match resolved.sets with
  | .all => .ok (declared.map SetPin.name)
  | .names list => list.mapM (selectedId declared resolved.name)

def selectedRow (declared : List SetPin) (resolved : ResolvedSelection) :
    Except BuildError EntrypointSelection := do
  let sets ← selectedIds declared resolved
  .ok ⟨resolved.name, sets⟩

/-- A build whose every list was omitted carries no table. -/
def selectionTable (sets : List SharedSet) (table : List ResolvedSelection) :
    Except BuildError (Option EntrypointSets) :=
  if table.any fun resolved => resolved.sets.isExplicit then do
    let declared ← sets.mapM declaredSetPin
    let entrypoints ← table.mapM (selectedRow declared)
    .ok (some ⟨declared, entrypoints⟩)
  else .ok none

structure MetadataPayload where
  runtimeRules : Option Bytes
  entrypointSets : Option Bytes

def checkRecords (rules : RuntimeRuleMetadata) : Option EntrypointSets → Except MetadataError Unit
  | some sets => rules.validateBindings sets
  | none => rules.validate

def encodeRules (rules : List RuntimeRuleRecord) : Except MetadataError (Option Bytes) :=
  if rules = [] then .ok none else (RuntimeRuleMetadata.encode ⟨rules⟩).map some

def encodeSets : Option EntrypointSets → Except MetadataError (Option Bytes)
  | some sets => sets.encode.map some
  | none => .ok none

def lowerRuntimeMetadata (rules : List RuntimeRuleRecord) (sets : Option EntrypointSets) :
    Except MetadataError MetadataPayload :=
  if rules = [] ∧ sets = none then .ok ⟨none, none⟩
  else do
    checkRecords ⟨rules⟩ sets
    let runtimeRules ← encodeRules rules
    let entrypointSets ← encodeSets sets
    .ok ⟨runtimeRules, entrypointSets⟩

def buildMetadata (job : Job) (table : List ResolvedSelection) :
    Except BuildError MetadataPayload := do
  let sets ← selectionTable job.sets table
  (lowerRuntimeMetadata job.rules sets).mapError .record

/-! ### The packer's checks -/

/-- The pins the AppDir's table records, by name, as the runtime's parser reads them. -/
def packerPins (text : Option Str) : Except BuildError (List SetPin) := do
  let pins ← (((text.map parse).getD []).mapM declaredPin).mapError .table
  .ok (sortByKey SetPin.name pins)

def decodeRecord {α : Type} (decode : Bytes → Except MetadataError α) :
    Option Bytes → Except BuildError (Option α)
  | none => .ok none
  | some bytes => ((decode bytes).mapError .record).map some

/-- Without a selection record a bound rule names a pin of the AppDir's table; with one, the record
is exactly what the table and the entrypoints are. -/
def checkCarried (rules : Option RuntimeRuleMetadata) (sets : Option EntrypointSets)
    (text : Option Str) (names : List Text) : Except BuildError Unit :=
  match sets, rules with
  | none, none => .ok ()
  | none, some rules => do
      let declared ← packerPins text
      (rules.validateBindings ⟨declared, []⟩).mapError .record
  | some sets, _ => do
      let pins ← packerPins text
      (sets.validateAgainst names pins).mapError .record

def checkBound : Option RuntimeRuleMetadata → Option EntrypointSets → Except BuildError Unit
  | some rules, some sets => (rules.validateBindings sets).mapError .record
  | _, _ => .ok ()

/-- Every record the package carries decodes, and matches what it is about. -/
def checkMetadata (metadata : MetadataPayload) (text : Option Str) (names : List Text) :
    Except BuildError Unit := do
  let rules ← decodeRecord RuntimeRuleMetadata.decode metadata.runtimeRules
  let sets ← decodeRecord EntrypointSets.decode metadata.entrypointSets
  checkCarried rules sets text names
  checkBound rules sets

/-- Whether the walk brings the table into the package. -/
def keepsTable (job : Job) : Bool := !job.appDir.linked && kept job.opts job.appDir.output setsFile

def packedTable (job : Job) (text : Option Str) : Option Bytes :=
  if keepsTable job then text.map Str.encodeUtf8 else none

def checkEntrypoints (opts : PackOptions) : Except BuildError Unit := do
  eachUnique (fun _ => .ok ()) (fun _ => .ok ()) Declared.name
    (fun row => .duplicateEntrypoint row.name) [] opts.entrypoints
  match opts.defaultEntrypoint with
  | none => .ok ()
  | some name => refuseIf (∀ row ∈ opts.entrypoints, row.name ≠ name) (.noEntrypoint name)

/-! ### A build -/

/-- What the package of a build holds for the launch gate. -/
def build (job : Job) : Except BuildError Records := do
  let selections ← normalize job.recipe
  let table ← resolveSelections selections job.opts
  let text ← stageTable job
  let metadata ← buildMetadata job table
  checkMetadata metadata text (finalEntrypointNames job.opts)
  checkEntrypoints job.opts
  .ok ⟨finalEntrypointNames job.opts, packedTable job text, metadata.entrypointSets,
    metadata.runtimeRules⟩

end Onelf.Cli.Build
