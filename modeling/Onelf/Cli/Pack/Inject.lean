import Onelf.Cli.Pack.Walk

/-! What the injected files add to what was collected. -/

namespace Onelf.Cli.Pack

open Onelf.Lib Onelf.Format

/-- The records that are written, of those that may be. -/
def present (records : List (RelPath × Bool)) : List RelPath := (records.filter Prod.snd).map Prod.fst

theorem present_append (records others : List (RelPath × Bool)) :
    present (records ++ others) = present records ++ present others := by
  rw [present, List.filter_append, List.map_append]
  rfl

theorem mem_present {records : List (RelPath × Bool)} {path : RelPath} :
    path ∈ present records ↔ (path, true) ∈ records := by
  simp [present]

/-- `after` is `before` with files at the records' paths, and their directory. -/
structure Injects (before after : Collected) (records : List (RelPath × Bool)) : Prop where
  files : ∃ more, after.files = before.files ++ more ∧
    more.map CollectedFile.relPath = present records
  symlinks : after.symlinks = before.symlinks
  dirs : after.dirs = before.dirs ∨ [onelfDir] ∉ before.dirs.map CollectedDir.relPath ∧
    ∃ dir, dir.relPath = [onelfDir] ∧ after.dirs = before.dirs ++ [dir]

theorem Injects.refl (collected : Collected) : Injects collected collected [] :=
  ⟨⟨[], (List.append_nil _).symm, rfl⟩, rfl, Or.inl rfl⟩

theorem Injects.trans {before middle after : Collected} {records others : List (RelPath × Bool)}
    (first : Injects before middle records) (second : Injects middle after others) :
    Injects before after (records ++ others) := by
  rcases first.files with ⟨more, files, paths⟩
  rcases second.files with ⟨further, grown, names⟩
  refine ⟨⟨more ++ further, ?_, ?_⟩, second.symlinks.trans first.symlinks, ?_⟩
  · rw [grown, files, List.append_assoc]
  · rw [List.map_append, paths, names, present_append]
  · rcases first.dirs with same | ⟨fresh, dir, named, added⟩
    · rw [← same]
      exact second.dirs
    · rcases second.dirs with same | ⟨again, _⟩
      · exact Or.inr ⟨fresh, dir, named, same.trans added⟩
      · refine absurd ?_ again
        rw [added, List.map_append, List.map_singleton, named]
        exact List.mem_append_right _ (List.mem_singleton_self _)

section
variable {opts : PackOptions} {host : Host}

theorem injectOnelfFile_injects (name content : Bytes) (collected : Collected) :
    Injects collected (injectOnelfFile opts name content collected) [([onelfDir, name], true)] := by
  refine ⟨⟨_, rfl, rfl⟩, rfl, ?_⟩
  by_cases held : collected.dirs.any (fun dir => dir.relPath = [onelfDir]) = true
  · rw [injectOnelfFile, if_pos held]
    exact Or.inl (List.append_nil _)
  · rw [injectOnelfFile, if_neg held]
    refine Or.inr ⟨?_, _, rfl, rfl⟩
    intro member
    rcases List.mem_map.mp member with ⟨dir, within, same⟩
    exact held (List.any_eq_true.mpr ⟨dir, within, decide_eq_true same⟩)

theorem injectOnelfFile_dir (name content : Bytes) (collected : Collected) :
    [onelfDir] ∈ (injectOnelfFile opts name content collected).dirs.map CollectedDir.relPath := by
  rw [injectOnelfFile, List.map_append]
  by_cases held : collected.dirs.any (fun dir => dir.relPath = [onelfDir]) = true
  · rcases List.any_eq_true.mp held with ⟨dir, within, same⟩
    exact List.mem_append_left _ (List.mem_map.mpr ⟨dir, within, of_decide_eq_true same⟩)
  · rw [if_neg held]
    exact List.mem_append_right _ (List.mem_singleton_self _)

theorem injectOption_injects (name : Bytes) (content : Option Bytes) (collected : Collected) :
    Injects collected (injectOption opts name content collected)
      [([onelfDir, name], content.isSome)] := by
  cases content with
  | none => exact ⟨⟨[], (List.append_nil _).symm, rfl⟩, rfl, Or.inl rfl⟩
  | some content => exact injectOnelfFile_injects name content collected

theorem injectAll_carried (records : List (Bytes × Option Bytes)) (collected : Collected) :
    Injects collected (records.foldl
      (fun collected record => injectOption opts record.1 record.2 collected) collected)
      (records.map fun record => ([onelfDir, record.1], record.2.isSome)) := by
  induction records generalizing collected with
  | nil => exact .refl collected
  | cons record records ih =>
      exact (injectOption_injects record.1 record.2 collected).trans (ih _)

/-- The compiled schemas are shipped because their sources are. -/
def schemasCompiled (host : Host) (collected : Collected) : Bool :=
  needsSchemas collected && host.compiledSchemas.any fun blob => !blob.isEmpty

theorem compileGsettingsSchemas_injects (collected : Collected) :
    Injects collected (compileGsettingsSchemas opts host collected)
      [(compiledSchema, schemasCompiled host collected)] := by
  rw [compileGsettingsSchemas, schemasCompiled]
  cases needsSchemas collected with
  | false => exact ⟨⟨[], (List.append_nil _).symm, rfl⟩, rfl, Or.inl rfl⟩
  | true =>
      cases host.compiledSchemas with
      | none => exact ⟨⟨[], (List.append_nil _).symm, rfl⟩, rfl, Or.inl rfl⟩
      | some blob =>
          cases blob with
          | nil => exact ⟨⟨[], (List.append_nil _).symm, rfl⟩, rfl, Or.inl rfl⟩
          | cons byte blob => exact ⟨⟨_, rfl, rfl⟩, rfl, Or.inl rfl⟩

/-- Files of the reserved directory change nothing about the schemas. -/
theorem needsSchemas_injects {before after : Collected} {records : List (RelPath × Bool)}
    (injects : Injects before after records)
    (reserved : ∀ path ∈ present records, ∃ name, path = [onelfDir, name]) :
    needsSchemas after = needsSchemas before := by
  rcases injects.files with ⟨more, files, paths⟩
  have injected {file : CollectedFile} (member : file ∈ more) :
      ∃ name, file.relPath = [onelfDir, name] :=
    reserved _ (paths ▸ List.mem_map_of_mem member)
  have dirs : (after.dirs.any fun dir => dir.relPath = schemasDir) =
      before.dirs.any fun dir => dir.relPath = schemasDir := by
    rcases injects.dirs with same | ⟨_, dir, named, added⟩
    · rw [same]
    · have other : dir.relPath ≠ schemasDir := by
        rw [named]
        exact nofun
      rw [added, List.any_append, List.any_cons, decide_eq_false other]
      simp
  have compiled : (more.any fun file => file.relPath = compiledSchema) = false := by
    refine List.any_eq_false.mpr fun file member same => ?_
    rcases injected member with ⟨name, path⟩
    rw [path] at same
    exact absurd (of_decide_eq_true same) nofun
  have sources : (more.any fun file => isSchemaSource file.relPath) = false := by
    refine List.any_eq_false.mpr fun file member source => ?_
    rcases injected member with ⟨name, path⟩
    rw [path, isSchemaSource, Bool.and_eq_true, Bool.and_eq_true] at source
    exact absurd (of_decide_eq_true source.1.1) nofun
  rw [needsSchemas, needsSchemas, dirs, files, List.any_append, List.any_append, compiled, sources,
    Bool.or_false, Bool.or_false]

/-- Every path that may be injected, and whether it is. -/
def injectRecords (opts : PackOptions) (host : Host) (collected : Collected)
    (interp prefetched : Bool) : List (RelPath × Bool) :=
  ((carriedRecords opts).map fun record => ([onelfDir, record.1], record.2.isSome)) ++
    [(compiledSchema, schemasCompiled host collected), ([onelfDir, utf8 "interp"], interp),
      ([onelfDir, utf8 "env"], true), ([onelfDir, utf8 "paths"], !opts.paths.isEmpty),
      ([onelfDir, utf8 "preload"], !opts.preload.isEmpty),
      ([onelfDir, utf8 "needs-setuid"], opts.needsSetuid),
      ([onelfDir, utf8 "prefetch"], prefetched)]

theorem whereAny_isSome (lines : List Bytes) : (whereAny lines).isSome = !lines.isEmpty := by
  cases lines with
  | nil => rfl
  | cons line lines => rfl

theorem Injects.dirs_subset {before after : Collected} {records : List (RelPath × Bool)}
    (injects : Injects before after records) : before.dirs ⊆ after.dirs := by
  rcases injects.dirs with same | ⟨_, dir, _, added⟩
  · rw [same]
    exact List.Subset.refl _
  · rw [added]
    exact List.subset_append_left _ _

/-- What stands collected when the interpreter is looked for. -/
def beforeInterp (opts : PackOptions) (host : Host) (collected : Collected) : Collected :=
  compileGsettingsSchemas opts host ((carriedRecords opts).foldl
    (fun collected record => injectOption opts record.1 record.2 collected) collected)

theorem injectAll_interp (collected : Collected) : ∃ prefetched,
    Injects collected (injectAll opts host collected)
      (injectRecords opts host collected
        (bundledInterp opts host (beforeInterp opts host collected)).isSome prefetched) ∧
    [onelfDir] ∈ (injectAll opts host collected).dirs.map CollectedDir.relPath := by
  let carried := (carriedRecords opts).foldl
    (fun collected record => injectOption opts record.1 record.2 collected) collected
  let compiled := compileGsettingsSchemas opts host carried
  let loaded := injectOption opts (utf8 "interp") (bundledInterp opts host compiled) compiled
  let settled := injectOnelfFile opts (utf8 "env") (joined (envLines opts)) loaded
  let overlaid := injectOption opts (utf8 "paths")
    (whereAny (opts.paths.map fun overlay => overlay.1.bytes ++ utf8 "\t" ++ overlay.2.bytes)) settled
  let preloaded := injectOption opts (utf8 "preload")
    (whereAny (opts.preload.map Text.bytes)) overlaid
  let owned := injectOption opts (utf8 "needs-setuid")
    (if opts.needsSetuid then some [] else none) preloaded
  let last := injectOption opts (utf8 "prefetch") (whereAny (prefetchLines opts owned)) owned
  have whole : injectAll opts host collected = last := rfl
  have first : Injects collected carried ((carriedRecords opts).map fun record =>
      ([onelfDir, record.1], record.2.isSome)) := injectAll_carried _ _
  have reserved : ∀ path ∈ present ((carriedRecords opts).map fun record =>
      ([onelfDir, record.1], record.2.isSome)), ∃ name, path = [onelfDir, name] := by
    intro path member
    rcases List.mem_map.mp (mem_present.mp member) with ⟨record, _, same⟩
    exact ⟨record.1, (congrArg Prod.fst same).symm⟩
  have second : Injects carried compiled [(compiledSchema, schemasCompiled host collected)] := by
    have compiles : Injects carried compiled _ := compileGsettingsSchemas_injects carried
    rwa [schemasCompiled, needsSchemas_injects first reserved] at compiles
  have third : Injects compiled loaded _ := injectOption_injects _ _ _
  have fourth : Injects loaded settled _ := injectOnelfFile_injects _ _ _
  have fifth : Injects settled overlaid [([onelfDir, utf8 "paths"], !opts.paths.isEmpty)] := by
    have injects : Injects settled overlaid _ := injectOption_injects _ _ _
    rwa [whereAny_isSome, List.isEmpty_map] at injects
  have sixth : Injects overlaid preloaded
      [([onelfDir, utf8 "preload"], !opts.preload.isEmpty)] := by
    have injects : Injects overlaid preloaded _ := injectOption_injects _ _ _
    rwa [whereAny_isSome, List.isEmpty_map] at injects
  have seventh : Injects preloaded owned [([onelfDir, utf8 "needs-setuid"], opts.needsSetuid)] := by
    have injects : Injects preloaded owned _ := injectOption_injects _ _ _
    cases needed : opts.needsSetuid with
    | false =>
        rw [needed] at injects
        exact injects
    | true =>
        rw [needed] at injects
        exact injects
  have eighth : Injects owned last _ := injectOption_injects _ _ _
  have rest := fifth.trans (sixth.trans (seventh.trans eighth))
  refine ⟨_, whole ▸ first.trans (second.trans (third.trans (fourth.trans rest))), ?_⟩
  have made : [onelfDir] ∈ settled.dirs.map CollectedDir.relPath := injectOnelfFile_dir _ _ _
  rw [whole]
  exact List.map_subset _ rest.dirs_subset made

theorem injectAll_injects (collected : Collected) : ∃ interp prefetched,
    Injects collected (injectAll opts host collected)
      (injectRecords opts host collected interp prefetched) ∧
    [onelfDir] ∈ (injectAll opts host collected).dirs.map CollectedDir.relPath :=
  ⟨_, injectAll_interp collected⟩

/-! ### The paths a package ships -/

def pathsFile : RelPath := [onelfDir, utf8 "paths"]

theorem injectRecords_paths (collected : Collected) (interp prefetched : Bool) :
    (injectRecords opts host collected interp prefetched).map Prod.fst =
      [[onelfDir, utf8 "update-url"], [onelfDir, utf8 "update-revision"],
        [onelfDir, utf8 "update-key"], [onelfDir, utf8 "update-unsigned"],
        [onelfDir, utf8 "package-info.toml"], [onelfDir, utf8 "providers"],
        [onelfDir, utf8 "runtime-rules"], [onelfDir, utf8 "entrypoint-sets"], compiledSchema,
        [onelfDir, utf8 "interp"], [onelfDir, utf8 "env"], pathsFile, [onelfDir, utf8 "preload"],
        [onelfDir, utf8 "needs-setuid"], [onelfDir, utf8 "prefetch"]] := rfl

/-- A path no file is packed at for its own sake, unless it is one the tree may bring. -/
def injectable (path : RelPath) : Bool :=
  (path = compiledSchema || path = pathsFile || isReserved path) &&
    (path = compiledSchema || path.dropLast = [onelfDir]) &&
    path.all isSafeComponent && !path.isEmpty && !isScratchName (lossy (path.getLastD []))

theorem injectRecords_injectable (collected : Collected) (interp prefetched : Bool) :
    ((injectRecords opts host collected interp prefetched).map Prod.fst).all injectable = true := by
  rw [injectRecords_paths]
  decide +kernel

theorem injectRecords_nodup (collected : Collected) (interp prefetched : Bool) :
    ((injectRecords opts host collected interp prefetched).map Prod.fst).Nodup := by
  rw [injectRecords_paths]
  decide +kernel

theorem present_nodup {records : List (RelPath × Bool)} (distinct : (records.map Prod.fst).Nodup) :
    (present records).Nodup :=
  ((List.filter_sublist).map Prod.fst).nodup distinct

/-- A record is written as its own flag says. -/
theorem mem_present_iff {records : List (RelPath × Bool)} (distinct : (records.map Prod.fst).Nodup)
    {path : RelPath} {flag : Bool} (listed : (path, flag) ∈ records) :
    path ∈ present records ↔ flag = true := by
  rw [mem_present]
  constructor
  · intro written
    exact congrArg Prod.snd (List.inj_on_of_nodup_map distinct listed written rfl)
  · intro set
    exact set ▸ listed

end

end Onelf.Cli.Pack
