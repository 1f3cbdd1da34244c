import Onelf.Cli.Pack.Inject

/-! The tree a package ships: the collected entries with the injected files. -/

namespace Onelf.Cli.Pack

open Onelf.Lib Onelf.Format

/-- What a package of the directory holds. -/
def shipped (opts : PackOptions) (host : Host) (tree : Tree) : Collected :=
  injectAll opts host (collect opts host tree)

/-- A directory that is not refused for a reserved path, under an output that can be written. -/
structure Packable (opts : PackOptions) (host : Host) (tree : Tree) : Prop where
  free : collision (collect opts host tree) = none
  output : outputIsDir tree = false

section
variable {opts : PackOptions} {host : Host} {tree : Tree}

/-- What stands in a package beside what was collected: the injected files, and the directory made
for them. -/
structure Additions (opts : PackOptions) (host : Host) (tree : Tree) (injected made : List RelPath) :
    Prop where
  files : ∃ more, (shipped opts host tree).files = (collect opts host tree).files ++ more ∧
    more.map CollectedFile.relPath = injected
  symlinks : (shipped opts host tree).symlinks = (collect opts host tree).symlinks
  dirs : ∃ more, (shipped opts host tree).dirs = (collect opts host tree).dirs ++ more ∧
    more.map CollectedDir.relPath = made
  onelf : made = [] ∧ [onelfDir] ∈ (collect opts host tree).dirs.map CollectedDir.relPath ∨
    made = [[onelfDir]] ∧ [onelfDir] ∉ (collect opts host tree).dirs.map CollectedDir.relPath
  injectable : ∀ path ∈ injected, injectable path = true
  distinct : injected.Nodup
  env : [onelfDir, utf8 "env"] ∈ injected
  paths : pathsFile ∈ injected ↔ opts.paths ≠ []
  schemas : compiledSchema ∈ injected ↔ schemasCompiled host (collect opts host tree) = true

theorem shipped_additions (opts : PackOptions) (host : Host) (tree : Tree) :
    ∃ injected made, Additions opts host tree injected made := by
  have spec : ∃ interp prefetched, Injects (collect opts host tree) (shipped opts host tree)
      (injectRecords opts host (collect opts host tree) interp prefetched) ∧
      [onelfDir] ∈ (shipped opts host tree).dirs.map CollectedDir.relPath :=
    injectAll_injects (collect opts host tree)
  rcases spec with ⟨interp, prefetched, injects, made⟩
  have distinct : ((injectRecords opts host (collect opts host tree) interp prefetched).map
      Prod.fst).Nodup := injectRecords_nodup _ _ _
  have whole := List.all_eq_true.mp
    (injectRecords_injectable (collect opts host tree) interp prefetched :
      ((injectRecords opts host _ interp prefetched).map Prod.fst).all injectable = true)
  have written {path : RelPath} (member : path ∈ present
      (injectRecords opts host (collect opts host tree) interp prefetched)) :
      injectable path = true :=
    whole path (List.mem_map.mpr ⟨(path, true), mem_present.mp member, rfl⟩)
  have paths : (pathsFile, !opts.paths.isEmpty) ∈
      injectRecords opts host (collect opts host tree) interp prefetched :=
    List.mem_append_right _ (by simp [pathsFile])
  have schemas : (compiledSchema, schemasCompiled host (collect opts host tree)) ∈
      injectRecords opts host (collect opts host tree) interp prefetched :=
    List.mem_append_right _ List.mem_cons_self
  have either : ∃ dirs, (∃ more, (shipped opts host tree).dirs = (collect opts host tree).dirs ++
      more ∧ more.map CollectedDir.relPath = dirs) ∧
      (dirs = [] ∧ [onelfDir] ∈ (collect opts host tree).dirs.map CollectedDir.relPath ∨
        dirs = [[onelfDir]] ∧
          [onelfDir] ∉ (collect opts host tree).dirs.map CollectedDir.relPath) := by
    rcases injects.dirs with same | ⟨fresh, dir, named, added⟩
    · exact ⟨[], ⟨[], by rw [same, List.append_nil], rfl⟩, Or.inl ⟨rfl, same ▸ made⟩⟩
    · exact ⟨[[onelfDir]], ⟨[dir], added, by rw [List.map_singleton, named]⟩, Or.inr ⟨rfl, fresh⟩⟩
  rcases either with ⟨dirs, added, onelf⟩
  have env : ([onelfDir, utf8 "env"], true) ∈
      injectRecords opts host (collect opts host tree) interp prefetched :=
    List.mem_append_right _ (by simp)
  refine ⟨_, dirs, injects.files, injects.symlinks, added, onelf, fun path => written,
    present_nodup distinct, mem_present.mpr env, ?_, mem_present_iff distinct schemas⟩
  rw [mem_present_iff distinct paths, Bool.not_eq_true', List.isEmpty_eq_false_iff]

section
variable {injected made : List RelPath}

theorem Additions.mem_paths (additions : Additions opts host tree injected made) {path : RelPath} :
    path ∈ (shipped opts host tree).paths ↔
      path ∈ (collect opts host tree).paths ∨ path ∈ injected ∨ path ∈ made := by
  rcases additions.files with ⟨more, files, paths⟩
  rcases additions.dirs with ⟨others, dirs, names⟩
  rw [Collected.paths, Collected.paths, files, dirs, additions.symlinks, List.map_append,
    List.map_append, paths, names]
  simp only [List.mem_append]
  tauto

theorem Additions.made_eq (additions : Additions opts host tree injected made) {path : RelPath}
    (member : path ∈ made) : path = [onelfDir] := by
  rcases additions.onelf with none | one
  · rw [none.1] at member
    exact absurd member List.not_mem_nil
  · rw [one.1] at member
    exact List.mem_singleton.mp member

theorem Additions.onelf_dir (additions : Additions opts host tree injected made) :
    ∃ dir ∈ (shipped opts host tree).dirs, dir.relPath = [onelfDir] := by
  rcases additions.dirs with ⟨more, dirs, names⟩
  rw [dirs, ← List.mem_map, List.map_append, names]
  rcases additions.onelf with held | new
  · exact List.mem_append_left _ held.2
  · rw [new.1]
    exact List.mem_append_right _ (List.mem_singleton_self _)

theorem Additions.collected_dir (additions : Additions opts host tree injected made)
    {path : RelPath} (held : ∃ dir ∈ (collect opts host tree).dirs, dir.relPath = path) :
    ∃ dir ∈ (shipped opts host tree).dirs, dir.relPath = path := by
  rcases additions.dirs with ⟨more, dirs, names⟩
  rcases held with ⟨dir, member, same⟩
  exact ⟨dir, dirs ▸ List.mem_append_left _ member, same⟩

theorem injectable_iff {path : RelPath} : injectable path = true ↔
    (path = compiledSchema ∨ path = pathsFile ∨ isReserved path = true) ∧
      (path = compiledSchema ∨ path.dropLast = [onelfDir]) ∧
      (∀ name ∈ path, isSafeComponent name = true) ∧ path ≠ [] ∧
        isScratchName (lossy (path.getLastD [])) = false := by
  simp only [injectable, Bool.and_eq_true, Bool.or_eq_true, decide_eq_true_eq, List.all_eq_true,
    Bool.not_eq_true', List.isEmpty_eq_false_iff, and_assoc, or_assoc]

/-! ### Names -/

theorem onelfDir_plain : isSafeComponent onelfDir = true ∧ isScratchName (lossy onelfDir) = false := by
  decide +kernel

/-- Every shipped path is one a path can be. -/
theorem shipped_proper {path : RelPath} (member : path ∈ (shipped opts host tree).paths) :
    path ≠ [] ∧ ∀ name ∈ path, isSafeComponent name = true := by
  rcases shipped_additions opts host tree with ⟨injected, made, additions⟩
  rcases additions.mem_paths.mp member with collected | added | dir
  · rcases mem_collect_paths collected with ⟨entry, within, same, _⟩
    exact same ▸ tree.named entry within
  · have plain := injectable_iff.mp (additions.injectable path added)
    exact ⟨plain.2.2.2.1, plain.2.2.1⟩
  · rw [additions.made_eq dir]
    refine ⟨List.cons_ne_nil _ _, fun name member => ?_⟩
    rw [List.mem_singleton.mp member]
    exact onelfDir_plain.1

/-- Nothing that is shipped has a skipped name itself. -/
theorem shipped_last {path : RelPath} (member : path ∈ (shipped opts host tree).paths) :
    isScratchName (lossy (path.getLastD [])) = false := by
  rcases shipped_additions opts host tree with ⟨injected, made, additions⟩
  rcases additions.mem_paths.mp member with collected | added | dir
  · rcases mem_collect_paths collected with ⟨_, _, _, passed⟩
    exact (kept_iff.mp passed).2.2.1
  · exact (injectable_iff.mp (additions.injectable path added)).2.2.2.2
  · rw [additions.made_eq dir]
    exact onelfDir_plain.2

/-! ### Parents -/

/-- A directory above what is shipped is shipped, unless it was skipped for its name. -/
theorem shipped_above (packable : Packable opts host tree) {path : RelPath}
    (member : path ∈ (shipped opts host tree).paths) {lead : RelPath} (leads : lead <+: path)
    (deep : lead ≠ []) (strict : lead ≠ path)
    (clear : isScratchName (lossy (lead.getLastD [])) = false) :
    ∃ dir ∈ (shipped opts host tree).dirs, dir.relPath = lead := by
  rcases shipped_additions opts host tree with ⟨injected, made, additions⟩
  have collected {path : RelPath} (member : path ∈ (collect opts host tree).paths)
      (leads : lead <+: path) (strict : lead ≠ path) :=
    additions.collected_dir (collect_above packable.free packable.output member leads deep strict
      clear)
  have onelf {dir : RelPath} (single : dir = [onelfDir]) (leads : lead <+: dir) :
      lead = [onelfDir] := by
    rw [single] at leads
    rcases List.prefix_cons_iff.mp leads with none | ⟨rest, same, short⟩
    · exact absurd none deep
    · rw [same, List.prefix_nil.mp short]
  rcases additions.mem_paths.mp member with walked | added | dir
  · exact collected walked leads strict
  · have above := dropLast_of_strict_lead leads strict
    rcases (injectable_iff.mp (additions.injectable path added)).2.1 with schema | below
    · have sources := additions.schemas.mp (schema ▸ added)
      rw [schemasCompiled, Bool.and_eq_true, needsSchemas, Bool.and_eq_true, Bool.and_eq_true]
        at sources
      rcases List.any_eq_true.mp sources.1.1.1 with ⟨dir, within, same⟩
      have same := of_decide_eq_true same
      rw [schema] at above
      by_cases direct : lead = schemasDir
      · exact additions.collected_dir ⟨dir, within, same.trans direct.symm⟩
      · refine collected (Collected.mem_paths.mpr (Or.inr (Or.inl ⟨dir, within, same⟩))) above
          direct
    · rw [onelf below above]
      exact additions.onelf_dir
  · exact absurd (onelf (additions.made_eq dir) leads) (additions.made_eq dir ▸ strict)

theorem clearOfScratch_iff {path : RelPath} : clearOfScratch path = true ↔
    ∀ name ∈ path.dropLast, isScratchName (lossy name) = false := by
  simp only [clearOfScratch, List.all_eq_true, Bool.not_eq_true']

/-- The injected files are clear of skipped names. -/
theorem shipped_clear
    (clear : ∀ path ∈ (collect opts host tree).paths, clearOfScratch path = true) :
    ∀ path ∈ (shipped opts host tree).paths, clearOfScratch path = true := by
  intro path member
  have under {dir : RelPath} (single : dir = [onelfDir] ∨ dir.dropLast = [onelfDir]) :
      clearOfScratch dir = true := by
    refine clearOfScratch_iff.mpr fun name inside => ?_
    rcases single with top | below
    · rw [top] at inside
      exact absurd inside List.not_mem_nil
    · rw [below] at inside
      exact List.mem_singleton.mp inside ▸ onelfDir_plain.2
  rcases shipped_additions opts host tree with ⟨injected, made, additions⟩
  rcases additions.mem_paths.mp member with collected | added | dir
  · exact clear path collected
  · rcases (injectable_iff.mp (additions.injectable path added)).2.1 with schema | below
    · rw [schema]
      decide +kernel
    · exact under (Or.inr below)
  · exact under (Or.inl (additions.made_eq dir))

/-- Where something was collected below a path, no file or link was collected at it. -/
theorem collected_parent {path : RelPath} (member : path ∈ (collect opts host tree).paths)
    (deep : path.dropLast ≠ []) :
    (∀ file ∈ (collect opts host tree).files, file.relPath ≠ path.dropLast) ∧
      ∀ symlink ∈ (collect opts host tree).symlinks, symlink.relPath ≠ path.dropLast := by
  rcases mem_collect_paths member with ⟨entry, within, same, _⟩
  have strict : path.dropLast ≠ entry.path := by
    intro whole
    have shorter := congrArg List.length whole
    have long := List.length_pos_of_ne_nil (tree.named entry within).1
    rw [List.length_dropLast, same] at shorter
    rw [same] at long
    omega
  rcases tree.above within (same ▸ List.dropLast_prefix path) deep strict with
    ⟨parent, there, place, kind⟩
  constructor
  · intro file held at_parent
    rcases mem_collect_files held with ⟨other, also, path, node, _⟩
    rw [tree.entry_unique there also (by rw [place, path, at_parent]), node] at kind
    cases kind
  · intro symlink held at_parent
    rcases mem_collect_symlinks held with ⟨other, also, path, node, _⟩
    rw [tree.entry_unique there also (by rw [place, path, at_parent]), node] at kind
    cases kind

theorem isReserved_deep {second : Bytes} (third : Bytes) (icons : second ≠ utf8 "icons")
    (desktop : second ≠ utf8 "desktop") : isReserved [onelfDir, second, third] = true := by
  have first : ¬ [onelfDir, utf8 "icons"] <+: [onelfDir, second, third] := by
    rw [List.cons_prefix_cons, List.cons_prefix_cons]
    exact fun leads => icons leads.2.1.symm
  have other : ¬ [onelfDir, utf8 "desktop"] <+: [onelfDir, second, third] := by
    rw [List.cons_prefix_cons, List.cons_prefix_cons]
    exact fun leads => desktop leads.2.1.symm
  have brought : broughtFiles.contains [onelfDir, second, third] = false := by
    rw [List.contains_eq_mem]
    refine decide_eq_false fun member => ?_
    have short : broughtFiles.all (fun path => path.length = 2) = true := rfl
    exact absurd (of_decide_eq_true (List.all_eq_true.mp short _ member)) (by simp)
  have under : [onelfDir] <+: [onelfDir, second, third] := List.prefix_append [onelfDir] _
  rw [isReserved, decide_eq_true under, decide_eq_true first, decide_eq_true other, brought]
  rfl

theorem isReserved_pair {second : Bytes} (reserved : isReserved [onelfDir, second] = true) :
    second ≠ utf8 "icons" ∧ second ≠ utf8 "desktop" := by
  simp only [isReserved, Bool.and_eq_true, decide_eq_true_eq, List.cons_prefix_cons] at reserved
  exact ⟨fun same => reserved.1.1.2 ⟨trivial, same.symm, List.nil_prefix⟩,
    fun same => reserved.1.2 ⟨trivial, same.symm, List.nil_prefix⟩⟩
/-- Nothing is collected below an injected file of the reserved directory. -/
theorem below_injected (packable : Packable opts host tree) {path : RelPath}
    (member : path ∈ (collect opts host tree).paths) (added : injectable path.dropLast = true)
    (onelf : path.dropLast.dropLast = [onelfDir]) : False := by
  have free := packable.free
  rw [collision, List.find?_eq_none] at free
  refine free path member ?_
  have parts := injectable_iff.mp added
  have proper := parts.2.2.2.1
  -- The path is of three names.
  have split : path = [onelfDir, path.dropLast.getLastD [], path.getLastD []] := by
    have outer {whole : RelPath} (some : whole ≠ []) :
        whole = whole.dropLast ++ [whole.getLastD []] := by
      rw [List.getLastD_eq_getLast?, List.getLast?_eq_some_getLast some, Option.getD_some,
        List.dropLast_append_getLast]
    have inner := outer proper
    have some : path ≠ [] := fun none => proper (by rw [none]; rfl)
    rw [onelf] at inner
    exact (outer some).trans (by rw [inner]; rfl)
  generalize path.dropLast.getLastD [] = second at split
  generalize path.getLastD [] = third at split
  rw [split] at parts ⊢
  have pair : second ≠ utf8 "icons" ∧ second ≠ utf8 "desktop" := by
    rcases parts.1 with schema | listed | reserved
    · exact absurd (congrArg List.length schema) (by simp [compiledSchema, schemasDir])
    · rcases List.cons_eq_cons.mp (List.cons_eq_cons.mp listed).2 with ⟨name, _⟩
      rw [name]
      decide +kernel
    · exact isReserved_pair reserved
  exact isReserved_deep third pair.1 pair.2

/-! ### Paths shipped twice -/

/-- What an injected file would stand in the way of. -/
structure Unshadowed (opts : PackOptions) (host : Host) (tree : Tree) : Prop where
  onelf : ∀ path ∈ (collect opts host tree).files.map CollectedFile.relPath ++
    (collect opts host tree).symlinks.map CollectedSymlink.relPath, path ≠ [onelfDir]
  paths : opts.paths ≠ [] → pathsFile ∉ (collect opts host tree).paths
  schemas : schemasCompiled host (collect opts host tree) = true →
    compiledSchema ∉ (collect opts host tree).paths

theorem shipped_paths_perm (additions : Additions opts host tree injected made) :
    (shipped opts host tree).paths.Perm ((collect opts host tree).paths ++ (injected ++ made)) := by
  rcases additions.files with ⟨more, files, paths⟩
  rcases additions.dirs with ⟨others, dirs, names⟩
  rw [Collected.paths, Collected.paths, files, dirs, additions.symlinks, List.map_append,
    List.map_append, paths, names]
  rw [List.perm_iff_count]
  intro path
  simp only [List.count_append]
  omega

/-- No path is shipped twice exactly where no injected file shadows what was collected. -/
theorem shipped_nodup_iff (packable : Packable opts host tree) :
    (shipped opts host tree).paths.Nodup ↔ Unshadowed opts host tree := by
  rcases shipped_additions opts host tree with ⟨injected, made, additions⟩
  have plain : injectable [onelfDir] = false := by decide +kernel
  have apart : (injected ++ made).Nodup := by
    rw [List.nodup_append]
    refine ⟨additions.distinct, ?_, fun path first other second same => ?_⟩
    · rcases additions.onelf with none | one
      · rw [none.1]
        exact List.nodup_nil
      · rw [one.1]
        exact List.nodup_singleton _
    · have added := additions.injectable path first
      rw [same, additions.made_eq second, plain] at added
      cases added
  rw [(shipped_paths_perm additions).nodup_iff, List.nodup_append,
    and_iff_right (collect_paths_nodup tree), and_iff_right apart]
  constructor
  · intro disjoint
    refine ⟨fun path member same => ?_, fun some held => ?_, fun compiled held => ?_⟩
    · rw [same] at member
      rcases additions.onelf with ⟨_, held⟩ | ⟨new, _⟩
      · have dirs := collect_dirs_apart (List.mem_map.mp held)
        rcases List.mem_append.mp member with file | symlink
        · rcases List.mem_map.mp file with ⟨file, within, here⟩
          exact dirs.1 file within here
        · rcases List.mem_map.mp symlink with ⟨symlink, within, here⟩
          exact dirs.2 symlink within here
      · have walked : [onelfDir] ∈ (collect opts host tree).paths := by
          rw [Collected.mem_paths]
          rcases List.mem_append.mp member with file | symlink
          · exact Or.inl (List.mem_map.mp file)
          · exact Or.inr (Or.inr (List.mem_map.mp symlink))
        exact disjoint _ walked _ (List.mem_append_right _ (new ▸ List.mem_singleton_self _)) rfl
    · exact disjoint _ held _ (List.mem_append_left _ (additions.paths.mpr some)) rfl
    · exact disjoint _ held _ (List.mem_append_left _ (additions.schemas.mpr compiled)) rfl
  · intro unshadowed path walked other added same
    rw [← same] at added
    rcases List.mem_append.mp added with file | dir
    · rcases (injectable_iff.mp (additions.injectable path file)).1 with schema | listed | reserved
      · rw [schema] at file walked
        exact unshadowed.schemas (additions.schemas.mp file) walked
      · rw [listed] at file walked
        exact unshadowed.paths (additions.paths.mp file) walked
      · have free := packable.free
        rw [collision, List.find?_eq_none] at free
        exact free path walked reserved
    · have single := additions.made_eq dir
      rcases additions.onelf with ⟨none, _⟩ | ⟨_, fresh⟩
      · rw [none] at dir
        exact List.not_mem_nil dir
      · rw [single] at walked
        rcases Collected.mem_paths.mp walked with file | held | symlink
        · exact unshadowed.onelf _ (List.mem_append_left _ (List.mem_map.mpr file)) rfl
        · exact fresh (List.mem_map.mpr held)
        · exact unshadowed.onelf _ (List.mem_append_right _ (List.mem_map.mpr symlink)) rfl

end

end

end Onelf.Cli.Pack
