import Onelf.Cli.Pack.Describes

/-! Declared paths spelled with components that stand for nothing (`pack.rs`). -/

namespace Onelf.Cli.Pack

open Onelf.Lib hiding Holds
open Onelf.Format

/-! ### Spellings of one path -/

/-- One `./` more: before a relative path, or behind a slash. -/
inductive DotStep : Bytes → Bytes → Prop
  | leading (path : Bytes) (relative : path.head? ≠ some 47) : DotStep path (46 :: 47 :: path)
  | inner (front back : Bytes) : DotStep (front ++ 47 :: back) (front ++ 47 :: 46 :: 47 :: back)

/-- A path with any number of `./` components put in. -/
def Respelled : Bytes → Bytes → Prop := Relation.ReflTransGen DotStep

/-- Whether a spelling begins with `./`. -/
def dotted (path : Bytes) : Bool := (components path).head? = some .current

theorem filterMap_componentOf_ne_current {parts : List Bytes} :
    ∀ component ∈ parts.filterMap componentOf, component ≠ .current := by
  intro component member
  obtain ⟨part, -, same⟩ := List.mem_filterMap.mp member
  rw [componentOf] at same
  split_ifs at same
  · cases same
    exact Component.noConfusion
  · cases same
    exact Component.noConfusion

theorem filter_ne_current (parts : List Bytes) :
    (parts.filterMap componentOf).filter (· ≠ .current) = parts.filterMap componentOf := by
  rw [List.filter_eq_self]
  intro component member
  exact decide_eq_true (filterMap_componentOf_ne_current component member)

/-- Only a first component is ever folded away. -/
theorem components_eq (path : Bytes) :
    components path = (if dotted path then [.current] else []) ++ packageRelative path := by
  have first : (((path.splitOn 47).filterMap componentOf).head? = some .current) = False := by
    rw [eq_iff_iff, iff_false]
    intro same
    exact filterMap_componentOf_ne_current _ (List.mem_of_head? same) rfl
  have shape : ∃ lead, components path = lead ++ (path.splitOn 47).filterMap componentOf ∧
      (lead = [.root] ∨ lead = [.current] ∨ lead = []) := by
    rw [components]
    split
    · exact ⟨_, rfl, .inl rfl⟩
    · split
      · exact ⟨_, rfl, .inr (.inl rfl)⟩
      · exact ⟨_, rfl, .inr (.inr rfl)⟩
  obtain ⟨lead, same, kinds⟩ := shape
  rw [packageRelative, dotted, same, List.filter_append, filter_ne_current]
  rcases kinds with root | current | none
  · rw [root]
    rfl
  · rw [current]
    rfl
  · rw [none, List.nil_append, List.filter_nil, List.nil_append, if_neg]
    · rfl
    · simp only [first, decide_false]
      exact Bool.false_ne_true

theorem packageRelative_relative {path : Bytes} (relative : path.head? ≠ some 47) :
    packageRelative path = (path.splitOn 47).filterMap componentOf := by
  rw [packageRelative, components, if_neg relative, List.filter_append, filter_ne_current]
  split <;> rfl

theorem splitOn_leading (path : Bytes) : (46 :: 47 :: path).splitOn 47 = [46] :: path.splitOn 47 :=
  List.splitOn_append_cons_self [46] path

/-- What a spelling is read for is the same of both: its components, but for a first one that stands
for nothing, and its last part. -/
structure SameRead (path path' : Bytes) : Prop where
  relative : packageRelative path' = packageRelative path
  last : (path'.splitOn 47).getLast? = (path.splitOn 47).getLast?

theorem DotStep.sameRead {path path' : Bytes} (step : DotStep path path') : SameRead path path' := by
  cases step with
  | leading path relative =>
      constructor
      · rw [packageRelative_relative relative, packageRelative_relative (by simp), splitOn_leading]
        rfl
      · rw [splitOn_leading, List.getLast?_cons,
          List.getLast?_eq_some_getLast (List.splitOn_ne_nil 47 path)]
        rfl
  | inner front back =>
      have plain : (front ++ 47 :: back).splitOn 47 = front.splitOn 47 ++ back.splitOn 47 :=
        List.splitOn_append_cons_self front back
      have added : (front ++ 47 :: 46 :: 47 :: back).splitOn 47 =
          front.splitOn 47 ++ [46] :: back.splitOn 47 := by
        rw [List.splitOn_append_cons_self, splitOn_leading]
      constructor
      · have head : (front ++ 47 :: 46 :: 47 :: back).head? = (front ++ 47 :: back).head? := by
          cases front <;> rfl
        have firstPart : (front.splitOn 47 ++ [46] :: back.splitOn 47).head? =
            (front.splitOn 47 ++ back.splitOn 47).head? := by
          rw [List.head?_append_of_ne_nil _ (List.splitOn_ne_nil 47 front),
            List.head?_append_of_ne_nil _ (List.splitOn_ne_nil 47 front)]
        have parts : (front.splitOn 47 ++ [46] :: back.splitOn 47).filterMap componentOf =
            (front.splitOn 47 ++ back.splitOn 47).filterMap componentOf := by
          rw [List.filterMap_append, List.filterMap_append]
          rfl
        rw [packageRelative, packageRelative, components, components, head, added, plain, firstPart,
          parts]
      · rw [added, plain, List.getLast?_append_of_ne_nil _ (List.cons_ne_nil _ _),
          List.getLast?_append_of_ne_nil _ (List.splitOn_ne_nil 47 back), List.getLast?_cons,
          List.getLast?_eq_some_getLast (List.splitOn_ne_nil 47 back)]
        rfl

theorem Respelled.sameRead {path path' : Bytes} (respelled : Respelled path path') :
    SameRead path path' := by
  induction respelled with
  | refl => exact ⟨rfl, rfl⟩
  | tail _ step ih =>
      exact ⟨step.sameRead.relative.trans ih.relative, step.sameRead.last.trans ih.last⟩

/-! ### Options with other spellings -/

/-- The options with another command and other entrypoints. -/
def PackOptions.respell (opts : PackOptions) (command : Text) (entrypoints : List Declared) :
    PackOptions :=
  { opts with
    command
    entrypoints }

/-- Two declarations of one entrypoint. -/
def SameRow (row row' : Declared) : Prop :=
  row'.name = row.name ∧ row'.args = row.args ∧ Respelled row.path.bytes row'.path.bytes

/-- The same options but for spellings. -/
structure Respells (opts : PackOptions) (command : Text) (entrypoints : List Declared) : Prop where
  command : Respelled opts.command.bytes command.bytes
  entrypoints : List.Forall₂ SameRow opts.entrypoints entrypoints

/-- The package's copy of the interpreter that the file of these components names. -/
def interpOf (host : Host) (collected : Collected) (target : List Component) : Option Bytes := do
  let target ← collected.files.find? fun file => file.relPath.map Component.normal = target
  let interp ← host.ptInterp target.content
  let name ← Lib.fileName interp
  let path ← ((collected.files.map CollectedFile.relPath).find? fun path =>
      path.getLast? = some name).or
    ((collected.symlinks.map CollectedSymlink.relPath).find? fun path => path.getLast? = some name)
  some (lossy (joinPath path))

/-- The interpreter the default entrypoint's file names, whatever its spelling. -/
def namedInterp (opts : PackOptions) (host : Host) (tree : Tree) : Option Bytes :=
  interpOf host (beforeInterp opts host (collect opts host tree))
    (packageRelative (defaultEntrypointPath opts))

section
variable {opts : PackOptions} {host : Host} {tree : Tree} {command : Text}
  {entrypoints : List Declared}

/-- A spelling that begins with a dot names no file when the interpreter is looked for. -/
theorem bundledInterp_eq (collected : Collected) : bundledInterp opts host collected =
    if dotted (defaultEntrypointPath opts) then none
    else interpOf host collected (packageRelative (defaultEntrypointPath opts)) := by
  have same : bundledInterp opts host collected =
      interpOf host collected (components (defaultEntrypointPath opts)) := rfl
  rw [same, components_eq]
  split
  · have missed : (collected.files.find? fun file => file.relPath.map Component.normal =
        [.current] ++ packageRelative (defaultEntrypointPath opts)) = none := by
      rw [List.find?_eq_none]
      intro file _ same
      have names := of_decide_eq_true same
      cases path : file.relPath <;> rw [path] at names <;> cases names
    rw [interpOf, missed]
    rfl
  · rfl

theorem find?_sameRow {rows rows' : List Declared} (paired : List.Forall₂ SameRow rows rows')
    (name : Text) :
    Option.Rel SameRow (rows.find? fun row => row.name = name)
      (rows'.find? fun row => row.name = name) := by
  induction paired with
  | nil => exact .none
  | cons here _ ih =>
      rw [List.find?_cons, List.find?_cons, here.1]
      split
      · exact .some here
      · exact ih

end

/-! ### The package under the other spellings -/

section
variable {opts : PackOptions} {host : Host} {tree : Tree} {command : Text}
  {entrypoints : List Declared}

/-- The rest of what is injected, behind the interpreter's record. -/
def injectWith (opts : PackOptions) (interp : Option Bytes) (collected : Collected) : Collected :=
  let collected := injectOption opts (utf8 "interp") interp collected
  let collected := injectOnelfFile opts (utf8 "env") (joined (envLines opts)) collected
  let collected := injectOption opts (utf8 "paths")
    (whereAny (opts.paths.map fun overlay => overlay.1.bytes ++ utf8 "\t" ++ overlay.2.bytes))
    collected
  let collected := injectOption opts (utf8 "preload") (whereAny (opts.preload.map Text.bytes))
    collected
  let collected := injectOption opts (utf8 "needs-setuid")
    (if opts.needsSetuid then some [] else none) collected
  injectOption opts (utf8 "prefetch") (whereAny (prefetchLines opts collected)) collected

/-- The interpreter's record is all that a spelling may change of what is shipped. -/
theorem shipped_respell (opts : PackOptions) (host : Host) (tree : Tree) (command : Text)
    (entrypoints : List Declared) :
    shipped (opts.respell command entrypoints) host tree = injectWith opts
      (bundledInterp (opts.respell command entrypoints) host
        (beforeInterp opts host (collect opts host tree)))
      (beforeInterp opts host (collect opts host tree)) := rfl

theorem Respells.defaultDecl (respells : Respells opts command entrypoints) :
    Option.Rel SameRow (defaultDecl opts) (defaultDecl (opts.respell command entrypoints)) := by
  change Option.Rel SameRow
    (opts.defaultEntrypoint.bind fun name => opts.entrypoints.find? fun row => row.name = name)
    (opts.defaultEntrypoint.bind fun name => entrypoints.find? fun row => row.name = name)
  cases opts.defaultEntrypoint with
  | none => exact .none
  | some name => exact find?_sameRow respells.entrypoints name

theorem Respells.defaultName (respells : Respells opts command entrypoints) :
    defaultName (opts.respell command entrypoints) = defaultName opts := by
  have same : packageRelative (opts.respell command entrypoints).command.bytes =
      packageRelative opts.command.bytes := respells.command.sameRead.relative
  rw [Pack.defaultName, Pack.defaultName, same]
  rfl

theorem Respells.defaultRow (respells : Respells opts command entrypoints) :
    SameRow (defaultRow opts) (defaultRow (opts.respell command entrypoints)) := by
  have declared := respells.defaultDecl
  rw [Pack.defaultRow, Pack.defaultRow]
  generalize Pack.defaultDecl opts = row at declared ⊢
  generalize Pack.defaultDecl (opts.respell command entrypoints) = row' at declared ⊢
  cases declared with
  | none => exact ⟨respells.defaultName, rfl, respells.command⟩
  | some same => exact ⟨respells.defaultName, same.2.1, same.2.2⟩

theorem defaultEntrypointPath_eq (opts : PackOptions) :
    defaultEntrypointPath opts = (defaultRow opts).path.bytes := by
  rw [defaultEntrypointPath, Pack.defaultRow, Pack.defaultDecl]
  generalize (opts.defaultEntrypoint.bind fun name =>
    opts.entrypoints.find? fun row => row.name = name) = row
  cases row <;> rfl

theorem Respells.defaultPath (respells : Respells opts command entrypoints) :
    packageRelative (defaultEntrypointPath (opts.respell command entrypoints)) =
      packageRelative (defaultEntrypointPath opts) := by
  rw [defaultEntrypointPath_eq, defaultEntrypointPath_eq]
  exact respells.defaultRow.2.2.sameRead.relative

theorem Respells.packageName (respells : Respells opts command entrypoints) :
    packageName (opts.respell command entrypoints) = packageName opts := by
  have same : ((opts.respell command entrypoints).command.bytes.splitOn 47).getLast? =
      (opts.command.bytes.splitOn 47).getLast? := respells.command.sameRead.last
  rw [Pack.packageName, Pack.packageName, same]
  rfl

theorem SameRow.relPathOf {row row' : Declared} (same : SameRow row row') :
    relPathOf row'.path.bytes = relPathOf row.path.bytes := by
  rw [Pack.relPathOf, Pack.relPathOf, same.2.2.sameRead.relative]

theorem SameRow.isWalked {row row' : Declared} (same : SameRow row row') (collected : Collected) :
    isWalked collected row'.path = isWalked collected row.path := by
  rw [Pack.isWalked, Pack.isWalked, same.relPathOf]

theorem SameRow.addEntrypoint {row row' : Declared} (same : SameRow row row') (table : Table)
    (emptyArgs : Nat) (added : StringTableBuilder × List EntryPoint) :
    addEntrypoint (opts.respell command entrypoints) table emptyArgs added row' =
      addEntrypoint opts table emptyArgs added row := by
  rw [Pack.addEntrypoint, Pack.addEntrypoint, Table.indexOf, Table.indexOf, same.relPathOf, same.1,
    same.2.1]
  rfl

section
variable {rows rows' : List Declared}

theorem names_sameRow (paired : List.Forall₂ SameRow rows rows') :
    rows'.map Declared.name = rows.map Declared.name := by
  induction paired with
  | nil => rfl
  | cons here _ ih => rw [List.map_cons, List.map_cons, here.1, ih]

theorem filter_sameRow (paired : List.Forall₂ SameRow rows rows') (keep : Text → Bool) :
    List.Forall₂ SameRow (rows.filter fun row => keep row.name)
      (rows'.filter fun row => keep row.name) := by
  induction paired with
  | nil => exact .nil
  | cons here _ ih =>
      rw [List.filter_cons, List.filter_cons, here.1]
      split
      · exact .cons here ih
      · exact ih

theorem all_isWalked_sameRow (paired : List.Forall₂ SameRow rows rows') (collected : Collected) :
    rows'.all (fun row => isWalked collected row.path) =
      rows.all fun row => isWalked collected row.path := by
  induction paired with
  | nil => rfl
  | cons here _ ih => rw [List.all_cons, List.all_cons, here.isWalked, ih]

/-- Rows that are declared alike give entrypoints alike. -/
theorem foldlM_sameRow (paired : List.Forall₂ SameRow rows rows') (table : Table) (emptyArgs : Nat)
    (added : StringTableBuilder × List EntryPoint) :
    rows'.foldlM (addEntrypoint (opts.respell command entrypoints) table emptyArgs) added =
      rows.foldlM (addEntrypoint opts table emptyArgs) added := by
  induction paired generalizing added with
  | nil => rfl
  | cons here _ ih =>
      rw [List.foldlM_cons, List.foldlM_cons, here.addEntrypoint]
      exact congrArg _ (funext fun _ => ih _)

end

theorem Respells.accepted (respells : Respells opts command entrypoints) (collected : Collected) :
    entrypointsAccepted (opts.respell command entrypoints) collected =
      entrypointsAccepted opts collected := by
  have declared (name : Text) : (entrypoints.any fun row => row.name = name) =
      opts.entrypoints.any fun row => row.name = name := by
    have any (rows : List Declared) : (rows.any fun row => row.name = name) =
        (rows.map Declared.name).any (· = name) := by
      rw [List.any_map]
      rfl
    rw [any, any, names_sameRow respells.entrypoints]
  have launched : isWalked collected command = isWalked collected opts.command := by
    rw [isWalked, isWalked, relPathOf, relPathOf, respells.command.sameRead.relative]
  rw [entrypointsAccepted, entrypointsAccepted]
  change (decide (entrypoints.map Declared.name).Nodup &&
    (opts.defaultEntrypoint.all fun name => entrypoints.any fun row => row.name = name) &&
    isWalked collected command && entrypoints.all fun row => isWalked collected row.path) = _
  rw [launched, all_isWalked_sameRow respells.entrypoints, names_sameRow respells.entrypoints]
  simp only [declared]

theorem Respells.manifestOf (respells : Respells opts command entrypoints) (libDirs : List Text)
    (collected : Collected) (files : List CompressedFile) :
    manifestOf (opts.respell command entrypoints) host libDirs collected files =
      manifestOf opts host libDirs collected files := by
  have started : startTable (opts.respell command entrypoints) = startTable opts := by
    rw [startTable, startTable, respells.packageName]
  have flags : memfdFlag (opts.respell command entrypoints) host collected.files =
      memfdFlag opts host collected.files := by
    rw [memfdFlag, memfdFlag, respells.defaultRow.relPathOf]
    rfl
  have entries (table : Table) (flag : UInt8) :
      addEntrypoints (opts.respell command entrypoints) table flag =
        addEntrypoints opts table flag := by
    have launched : table.indexOf (opts.respell command entrypoints).command =
        table.indexOf opts.command := by
      have same : packageRelative (opts.respell command entrypoints).command.bytes =
          packageRelative opts.command.bytes := respells.command.sameRead.relative
      rw [Table.indexOf, Table.indexOf, relPathOf, relPathOf, same]
    have default : table.indexOf (Pack.defaultRow (opts.respell command entrypoints)).path =
        table.indexOf (Pack.defaultRow opts).path := by
      rw [Table.indexOf, Table.indexOf, respells.defaultRow.relPathOf]
    have folded (emptyArgs : Nat) (added : StringTableBuilder × List EntryPoint) :
        (otherRows (opts.respell command entrypoints)).foldlM
            (addEntrypoint (opts.respell command entrypoints) table emptyArgs) added =
          (otherRows opts).foldlM (addEntrypoint opts table emptyArgs) added :=
      foldlM_sameRow (filter_sameRow respells.entrypoints fun name =>
        opts.defaultEntrypoint ≠ some name) table emptyArgs added
    rw [addEntrypoints, addEntrypoints, launched, default, respells.defaultName,
      respells.defaultRow.2.1]
    simp only [folded]
    rfl
  rw [Pack.manifestOf, Pack.manifestOf, started, flags]
  simp only [entries]

end

section
variable {opts : PackOptions} {host : Host} {tree : Tree} {command : Text}
  {entrypoints : List Declared}

/-- Where the same is shipped, the same is packed. -/
theorem Respells.pack (respells : Respells opts command entrypoints)
    (same : shipped (opts.respell command entrypoints) host tree = shipped opts host tree) :
    pack (opts.respell command entrypoints) host tree = pack opts host tree := by
  have injected : injectAll (opts.respell command entrypoints) host
      (collect (opts.respell command entrypoints) host tree) =
        injectAll opts host (collect opts host tree) := same
  simp only [Pack.pack, injected, respells.accepted, respells.manifestOf]
  rfl

/-- What a package says of its paths: the entries, what the entrypoints lead to and the injected
files. -/
structure Outcome where
  entries : List Entry
  targets : List Nat
  injected : List CollectedFile

def outcome (opts : PackOptions) (host : Host) (tree : Tree) : Option Outcome :=
  (pack opts host tree).map fun packed => ⟨packed.manifest.entries,
    packed.manifest.entrypoints.map EntryPoint.targetEntry,
    (shipped opts host tree).files.filter fun file => [onelfDir] <+: file.relPath⟩

/-- The default entrypoint's path begins with a dot in both spellings or in neither, or its file
names no interpreter that the package has. -/
def SpelledAlike (opts : PackOptions) (host : Host) (tree : Tree) (command : Text)
    (entrypoints : List Declared) : Prop :=
  dotted (defaultEntrypointPath (opts.respell command entrypoints)) =
      dotted (defaultEntrypointPath opts) ∨ namedInterp opts host tree = none

/-- The interpreter's path is recorded unless the spelling begins with a dot. -/
theorem Respells.bundledInterp (respells : Respells opts command entrypoints) :
    bundledInterp (opts.respell command entrypoints) host
        (beforeInterp opts host (collect opts host tree)) =
      if dotted (defaultEntrypointPath (opts.respell command entrypoints)) then none
      else namedInterp opts host tree := by
  rw [bundledInterp_eq, respells.defaultPath]
  rfl

def interpFile : RelPath := [onelfDir, utf8 "interp"]

/-- A package has the record exactly where the interpreter was found. -/
theorem interpFile_mem (free : collision (collect opts host tree) = none) :
    interpFile ∈ ((shipped opts host tree).files.filter fun file =>
        [onelfDir] <+: file.relPath).map CollectedFile.relPath ↔
      (Pack.bundledInterp opts host (beforeInterp opts host (collect opts host tree))).isSome =
        true := by
  obtain ⟨prefetched, injects, -⟩ := @injectAll_interp opts host (collect opts host tree)
  obtain ⟨more, files, paths⟩ := injects.files
  have reserved : isReserved interpFile = true := by decide +kernel
  have fresh : interpFile ∉ (collect opts host tree).files.map CollectedFile.relPath := by
    intro member
    have clear := List.find?_eq_none.mp free interpFile
      (List.mem_append_left _ (List.mem_append_left _ member))
    exact clear reserved
  have below : interpFile ∈ ((shipped opts host tree).files.filter fun file =>
      [onelfDir] <+: file.relPath).map CollectedFile.relPath ↔
        interpFile ∈ (shipped opts host tree).files.map CollectedFile.relPath := by
    constructor
    · exact fun member => List.map_subset _ (List.filter_subset_self _) member
    · intro member
      obtain ⟨file, within, same⟩ := List.mem_map.mp member
      refine List.mem_map.mpr ⟨file, List.mem_filter.mpr ⟨within, ?_⟩, same⟩
      rw [same]
      decide +kernel
  have listed (interp : Bool) :
      (interpFile, interp) ∈ injectRecords opts host (collect opts host tree) interp prefetched :=
    List.mem_append_right _ (List.mem_cons_of_mem _ List.mem_cons_self)
  have whole : shipped opts host tree = injectAll opts host (collect opts host tree) := rfl
  rw [below, whole, files, List.map_append, List.mem_append, paths,
    mem_present_iff (injectRecords_nodup _ _ _) (listed _)]
  exact or_iff_right fresh

/-- Spelled alike, a package is the same. Where either spelling packs, nothing else keeps it so: the
path that is looked up for its interpreter is not stripped of a leading dot. -/
theorem pack_respelled (opts : PackOptions) (host : Host) (tree : Tree) (command : Text)
    (entrypoints : List Declared) (respells : Respells opts command entrypoints) :
    (SpelledAlike opts host tree command entrypoints →
      outcome (opts.respell command entrypoints) host tree = outcome opts host tree) ∧
    ((outcome opts host tree).isSome ∨
        (outcome (opts.respell command entrypoints) host tree).isSome →
      (outcome (opts.respell command entrypoints) host tree = outcome opts host tree ↔
        SpelledAlike opts host tree command entrypoints)) := by
  have respelled := @Respells.bundledInterp opts host tree command entrypoints respells
  have plain : Pack.bundledInterp opts host (beforeInterp opts host (collect opts host tree)) =
      if dotted (defaultEntrypointPath opts) then none else namedInterp opts host tree :=
    bundledInterp_eq _
  have alike : SpelledAlike opts host tree command entrypoints →
      outcome (opts.respell command entrypoints) host tree = outcome opts host tree := by
    intro alike
    have interp : Pack.bundledInterp (opts.respell command entrypoints) host
        (beforeInterp opts host (collect opts host tree)) =
          Pack.bundledInterp opts host (beforeInterp opts host (collect opts host tree)) := by
      rw [respelled, plain]
      rcases alike with same | none
      · rw [same]
      · rw [none, ite_self, ite_self]
    have same : shipped (opts.respell command entrypoints) host tree = shipped opts host tree := by
      rw [shipped_respell, interp]
      rfl
    rw [outcome, outcome, respells.pack same, same]
  refine ⟨alike, fun packs => ⟨fun same => ?_, alike⟩⟩
  have both : (outcome opts host tree).isSome = true := by
    rw [same, or_self] at packs
    exact packs
  obtain ⟨packed, ran⟩ := Option.isSome_iff_exists.mp ((Option.isSome_map).symm.trans both)
  have again : (outcome (opts.respell command entrypoints) host tree).isSome = true := same ▸ both
  obtain ⟨packed', ran'⟩ := Option.isSome_iff_exists.mp ((Option.isSome_map).symm.trans again)
  rw [outcome, outcome, ran, ran', Option.map_some, Option.map_some, Option.some.injEq] at same
  have injected := congrArg (fun outcome => outcome.injected.map CollectedFile.relPath) same
  obtain ⟨_, origin⟩ := pack_from ran
  have free := origin.packable.free
  have held : (Pack.bundledInterp (opts.respell command entrypoints) host
      (beforeInterp opts host (collect opts host tree))).isSome = true ↔
        (Pack.bundledInterp opts host (beforeInterp opts host (collect opts host tree))).isSome =
          true := by
    rw [← interpFile_mem free]
    have other := @interpFile_mem (opts.respell command entrypoints) host tree free
    rw [← injected]
    exact other.symm
  rw [respelled, plain] at held
  rw [SpelledAlike]
  cases found : namedInterp opts host tree with
  | none => exact .inr rfl
  | some interp =>
      have flag (spelled : Bool) : (if spelled then none else some interp).isSome = !spelled := by
        cases spelled <;> rfl
      rw [found, flag, flag] at held
      exact .inl (Bool.not_inj (Bool.eq_iff_iff.mpr held))

end

/-! ### A program whose loader is packed -/

/-- A program that names a loader, and the loader. -/
def loaderTree : Tree where
  entries := [plainEntry ["app"] (.file [1]), plainEntry ["ld.so"] (.file [2])]
  output := none
  distinct := by decide +kernel
  named := by decide +kernel
  parents := by decide +kernel
  targets := by decide +kernel

def loaderPath : Bytes := utf8 "ld.so"

/-- The crates on the package with the record of the loader and on the one without. -/
def loaderHost : Host :=
  let recorded := plainHost 0x6b8a1c4d6e6bac37cc95ac30c6b1f37095394a46308894ef8c4544d37c2838fd
    0x1bc8885a608ca195116c6ec29ca2acab632523a74376df3d039469a5a7551a02 0xbcdf64ca
  let silent := plainHost 0xe86cefc7fe31184e876f55da6a74f97f84127c55fef84bbc490e31edb1944855
    0x4c3d24f4ac4c1bfe08aef147b5d0fcfade3fdb72fbec49a4042caa2e4325b806 0x3bec350b
  { recorded with
    blake3 bytes :=
      if bytes = loaderPath then ⟨leBytes 32
        0x536f6b0617f24998d3b61e43033e3d60af358afc08b0c8ea7530a08a2ab367fe, length_leBytes 32 _⟩
      else if bytes.length > 643 ∨
          bytes.length = Runtime.footerSize ∧ slice bytes 64 4 = leBytes 4 0xbcdf64ca then
        recorded.blake3 bytes
      else silent.blake3 bytes
    xxh32 bytes := if bytes.length > 643 then recorded.xxh32 bytes else silent.xxh32 bytes
    ptInterp content := if content = [1] then some (utf8 "/lib64/ld.so") else none }

def dottedApp : Text := lossyText (utf8 "./app")

theorem dottedApp_respells : Respells plainOptions dottedApp [] where
  command := by
    have written : dottedApp.bytes = 46 :: 47 :: plainOptions.command.bytes := by decide +kernel
    rw [written]
    exact .single (.leading _ (by decide +kernel))
  entrypoints := .nil

/-- The loader's path is recorded for `app` and not for `./app`. -/
theorem dotted_not_recorded : ¬∀ (opts : PackOptions) (host : Host) (tree : Tree) (command : Text)
    (entrypoints : List Declared), Respells opts command entrypoints →
      outcome (opts.respell command entrypoints) host tree = outcome opts host tree := by
  intro same
  have records := congrArg
    (Option.map fun outcome => outcome.injected.map CollectedFile.relPath)
    (same plainOptions loaderHost loaderTree dottedApp [] dottedApp_respells)
  have plain : (outcome plainOptions loaderHost loaderTree).map
      (fun outcome => outcome.injected.map CollectedFile.relPath) =
        some [interpFile, [onelfDir, utf8 "env"]] := by decide +kernel
  have dotted : (outcome (plainOptions.respell dottedApp []) loaderHost loaderTree).map
      (fun outcome => outcome.injected.map CollectedFile.relPath) =
        some [[onelfDir, utf8 "env"]] := by decide +kernel
  rw [plain, dotted] at records
  cases records

/-- Nor is the package the same then; a program that names no loader packs as before. -/
theorem pack_respelled_app :
    outcome (plainOptions.respell dottedApp []) loaderHost loaderTree ≠
        outcome plainOptions loaderHost loaderTree ∧
      outcome (plainOptions.respell dottedApp []) appHost plainTree =
        outcome plainOptions appHost plainTree := by
  have packs : (outcome plainOptions loaderHost loaderTree).isSome = true := by decide +kernel
  have spelled : ¬SpelledAlike plainOptions loaderHost loaderTree dottedApp [] := by
    have dots : dotted (defaultEntrypointPath (plainOptions.respell dottedApp [])) ≠
        dotted (defaultEntrypointPath plainOptions) := by decide +kernel
    have named : namedInterp plainOptions loaderHost loaderTree ≠ none := by decide +kernel
    rintro (same | none)
    · exact dots same
    · exact named none
  have none : namedInterp plainOptions appHost plainTree = none := by decide +kernel
  constructor
  · intro same
    exact spelled (((pack_respelled plainOptions loaderHost loaderTree dottedApp []
      dottedApp_respells).2 (.inl packs)).mp same)
  · exact (pack_respelled plainOptions appHost plainTree dottedApp [] dottedApp_respells).1
      (.inr none)


end Onelf.Cli.Pack
