import Onelf.Cli.Pack.Assemble

/-! What the walk collects of a directory, and what the injected files add to it. -/

namespace Onelf.Cli.Pack

open Onelf.Lib Onelf.Format

section
variable {opts : PackOptions} {host : Host}

/-! ### Collecting -/

/-- What one entry alone is collected as. -/
def collected1 (opts : PackOptions) (host : Host) (output : Option RelPath) (entry : Walked) :
    Collected :=
  collectEntry opts host output ⟨[], [], []⟩ entry

theorem collectEntry_eq (output : Option RelPath) (past : Collected) (entry : Walked) :
    collectEntry opts host output past entry =
      ⟨past.dirs ++ (collected1 opts host output entry).dirs,
        past.files ++ (collected1 opts host output entry).files,
        past.symlinks ++ (collected1 opts host output entry).symlinks⟩ := by
  rw [collected1, collectEntry, collectEntry]
  split
  · cases entry.node with
    | dir => simp
    | file content =>
        dsimp only
        split <;> simp
    | symlink target => simp
    | special => simp
  · simp

theorem foldl_collectEntry (output : Option RelPath) (entries : List Walked) (past : Collected) :
    entries.foldl (collectEntry opts host output) past =
      ⟨past.dirs ++ entries.flatMap fun entry => (collected1 opts host output entry).dirs,
        past.files ++ entries.flatMap fun entry => (collected1 opts host output entry).files,
        past.symlinks ++ entries.flatMap fun entry =>
          (collected1 opts host output entry).symlinks⟩ := by
  induction entries generalizing past with
  | nil => simp
  | cons entry entries ih =>
      rw [List.foldl_cons, ih, collectEntry_eq]
      simp only [List.flatMap_cons, List.append_assoc]

theorem collect_eq (tree : Tree) : collect opts host tree =
    ⟨tree.entries.flatMap fun entry => (collected1 opts host tree.output entry).dirs,
      tree.entries.flatMap fun entry => (collected1 opts host tree.output entry).files,
      tree.entries.flatMap fun entry => (collected1 opts host tree.output entry).symlinks⟩ := by
  rw [collect, foldl_collectEntry]
  rfl

/-- A directory is collected where the walk passes it on. -/
theorem mem_collect_dirs {tree : Tree} {path : RelPath} :
    (∃ dir ∈ (collect opts host tree).dirs, dir.relPath = path) ↔
      ∃ entry ∈ tree.entries, entry.path = path ∧ entry.node = .dir ∧
        kept opts tree.output path = true := by
  rw [collect_eq]
  constructor
  · intro held
    rcases held with ⟨dir, member, same⟩
    rcases List.mem_flatMap.mp member with ⟨entry, within, single⟩
    rw [collected1, collectEntry] at single
    split at single
    · next passed =>
        cases kind : entry.node with
        | dir =>
            rw [kind] at single
            have shape := List.mem_singleton.mp single
            rw [shape] at same
            exact ⟨entry, within, same, kind, same ▸ passed⟩
        | file content =>
            rw [kind] at single
            dsimp only at single
            split at single <;> exact absurd single List.not_mem_nil
        | symlink target =>
            rw [kind] at single
            exact absurd single List.not_mem_nil
        | special =>
            rw [kind] at single
            exact absurd single List.not_mem_nil
    · exact absurd single List.not_mem_nil
  · intro held
    rcases held with ⟨entry, within, same, kind, passed⟩
    rw [← same] at passed ⊢
    refine ⟨⟨entry.path, entry.mode, getMtime opts host entry.mtime⟩,
      List.mem_flatMap.mpr ⟨entry, within, ?_⟩, rfl⟩
    rw [collected1, collectEntry, if_pos passed, kind]
    exact List.mem_singleton_self _

/-- A file is collected where the walk passes it on and it is no package itself. -/
theorem collected_file_iff {tree : Tree} {path : RelPath} {content : Bytes} :
    (∃ file ∈ (collect opts host tree).files, file.relPath = path ∧ file.content = content) ↔
      ∃ entry ∈ tree.entries, entry.path = path ∧ entry.node = .file content ∧
        kept opts tree.output path = true ∧ isOnelfPackage content = false := by
  rw [collect_eq]
  constructor
  · intro held
    rcases held with ⟨file, member, place, bytes⟩
    rcases List.mem_flatMap.mp member with ⟨entry, within, single⟩
    rw [collected1, collectEntry] at single
    split at single
    · next passed =>
        cases kind : entry.node with
        | dir =>
            rw [kind] at single
            exact absurd single List.not_mem_nil
        | file content =>
            rw [kind] at single
            dsimp only at single
            split at single
            · exact absurd single List.not_mem_nil
            · next other =>
                rw [List.mem_singleton.mp single] at place bytes
                rw [← place, ← bytes]
                exact ⟨entry, within, rfl, kind, passed, Bool.not_eq_true _ ▸ other⟩
        | symlink target =>
            rw [kind] at single
            exact absurd single List.not_mem_nil
        | special =>
            rw [kind] at single
            exact absurd single List.not_mem_nil
    · exact absurd single List.not_mem_nil
  · intro held
    rcases held with ⟨entry, within, same, kind, passed, other⟩
    rw [← same] at passed
    refine ⟨⟨entry.path, content, entry.mode, getMtime opts host entry.mtime⟩,
      List.mem_flatMap.mpr ⟨entry, within, ?_⟩, same, rfl⟩
    rw [collected1, collectEntry, if_pos passed, kind]
    dsimp only
    rw [other, if_neg Bool.false_ne_true]
    exact List.mem_singleton_self _

/-- A collected file is a file of the directory. -/
theorem mem_collect_files {tree : Tree} {file : CollectedFile}
    (member : file ∈ (collect opts host tree).files) :
    ∃ entry ∈ tree.entries, entry.path = file.relPath ∧ entry.node = .file file.content ∧
      kept opts tree.output file.relPath = true := by
  rcases collected_file_iff.mp ⟨file, member, rfl, rfl⟩ with
    ⟨entry, within, place, node, passed, _⟩
  exact ⟨entry, within, place, node, passed⟩

theorem mem_collect_symlinks {tree : Tree} {symlink : CollectedSymlink}
    (member : symlink ∈ (collect opts host tree).symlinks) :
    ∃ entry ∈ tree.entries, entry.path = symlink.relPath ∧ entry.node = .symlink symlink.target ∧
      kept opts tree.output symlink.relPath = true := by
  rw [collect_eq] at member
  rcases List.mem_flatMap.mp member with ⟨entry, within, single⟩
  rw [collected1, collectEntry] at single
  split at single
  · next passed =>
      cases kind : entry.node with
      | dir =>
          rw [kind] at single
          exact absurd single List.not_mem_nil
      | file content =>
          rw [kind] at single
          dsimp only at single
          split at single <;> exact absurd single List.not_mem_nil
      | symlink target =>
          rw [kind] at single
          rw [List.mem_singleton.mp single]
          exact ⟨entry, within, rfl, kind, passed⟩
      | special =>
          rw [kind] at single
          exact absurd single List.not_mem_nil
  · exact absurd single List.not_mem_nil

theorem Collected.mem_paths {collected : Collected} {path : RelPath} :
    path ∈ collected.paths ↔ (∃ file ∈ collected.files, file.relPath = path) ∨
      (∃ dir ∈ collected.dirs, dir.relPath = path) ∨
        ∃ symlink ∈ collected.symlinks, symlink.relPath = path := by
  rw [Collected.paths, List.mem_append, List.mem_append, List.mem_map, List.mem_map, List.mem_map,
    or_assoc]

/-- A collected path is an entry's that the walk passes on. -/
theorem mem_collect_paths {tree : Tree} {path : RelPath}
    (member : path ∈ (collect opts host tree).paths) :
    ∃ entry ∈ tree.entries, entry.path = path ∧ kept opts tree.output path = true := by
  rcases Collected.mem_paths.mp member with ⟨file, within, same⟩ | held | ⟨symlink, within, same⟩
  · rcases mem_collect_files within with ⟨entry, there, path, _, passed⟩
    exact ⟨entry, there, path.trans same, same ▸ passed⟩
  · rcases mem_collect_dirs.mp held with ⟨entry, there, path, _, passed⟩
    exact ⟨entry, there, path, passed⟩
  · rcases mem_collect_symlinks within with ⟨entry, there, path, _, passed⟩
    exact ⟨entry, there, path.trans same, same ▸ passed⟩

/-- A path has one entry. -/
theorem Tree.entry_unique (tree : Tree) {entry other : Walked} (member : entry ∈ tree.entries)
    (also : other ∈ tree.entries) (same : entry.path = other.path) : entry = other :=
  List.inj_on_of_nodup_map tree.distinct member also same

/-- A collected path is of one kind. -/
theorem collect_dirs_apart {tree : Tree} {path : RelPath}
    (held : ∃ dir ∈ (collect opts host tree).dirs, dir.relPath = path) :
    (∀ file ∈ (collect opts host tree).files, file.relPath ≠ path) ∧
      ∀ symlink ∈ (collect opts host tree).symlinks, symlink.relPath ≠ path := by
  rcases mem_collect_dirs.mp held with ⟨entry, there, place, kind, _⟩
  constructor
  · intro file member same
    rcases mem_collect_files member with ⟨other, also, path, node, _⟩
    rw [tree.entry_unique there also (by rw [place, path, same]), node] at kind
    cases kind
  · intro symlink member same
    rcases mem_collect_symlinks member with ⟨other, also, path, node, _⟩
    rw [tree.entry_unique there also (by rw [place, path, same]), node] at kind
    cases kind

theorem flatMap_sublist {α β : Type} {give : α → List β} {key : α → β} {values : List α}
    (single : ∀ value, (give value).Sublist [key value]) :
    (values.flatMap give).Sublist (values.map key) := by
  induction values with
  | nil => exact List.Sublist.refl []
  | cons value values ih =>
      rw [List.flatMap_cons, List.map_cons, ← List.singleton_append]
      exact (single value).append ih

/-- No path is collected twice. -/
theorem collect_paths_nodup (tree : Tree) : (collect opts host tree).paths.Nodup := by
  have files : ((collect opts host tree).files.map CollectedFile.relPath).Nodup := by
    rw [collect_eq, List.map_flatMap]
    refine (flatMap_sublist fun entry => ?_).nodup tree.distinct
    rw [collected1, collectEntry]
    split
    · cases entry.node with
      | file content =>
          dsimp only
          split
          · exact List.nil_sublist _
          · exact List.Sublist.refl _
      | _ => exact List.nil_sublist _
    · exact List.nil_sublist _
  have dirs : ((collect opts host tree).dirs.map CollectedDir.relPath).Nodup := by
    rw [collect_eq, List.map_flatMap]
    refine (flatMap_sublist fun entry => ?_).nodup tree.distinct
    rw [collected1, collectEntry]
    split
    · cases entry.node with
      | dir => exact List.Sublist.refl _
      | file content =>
          dsimp only
          split <;> exact List.nil_sublist _
      | _ => exact List.nil_sublist _
    · exact List.nil_sublist _
  have symlinks : ((collect opts host tree).symlinks.map CollectedSymlink.relPath).Nodup := by
    rw [collect_eq, List.map_flatMap]
    refine (flatMap_sublist fun entry => ?_).nodup tree.distinct
    rw [collected1, collectEntry]
    split
    · cases entry.node with
      | symlink target => exact List.Sublist.refl _
      | file content =>
          dsimp only
          split <;> exact List.nil_sublist _
      | _ => exact List.nil_sublist _
    · exact List.nil_sublist _
  rw [Collected.paths, List.nodup_append, List.nodup_append]
  refine ⟨⟨files, dirs, ?_⟩, symlinks, ?_⟩
  · intro path file other dir same
    rcases List.mem_map.mp file with ⟨file, member, here⟩
    exact (collect_dirs_apart (List.mem_map.mp dir)).1 file member (here.trans same)
  · intro path either other symlink same
    rcases List.mem_map.mp symlink with ⟨symlink, member, here⟩
    rcases List.mem_append.mp either with file | dir
    · rcases List.mem_map.mp file with ⟨file, within, there⟩
      rcases mem_collect_files within with ⟨entry, first, path, node, _⟩
      rcases mem_collect_symlinks member with ⟨link, second, place, kind, _⟩
      rw [tree.entry_unique first second (by rw [path, place, there, here, same]), kind] at node
      cases node
    · exact (collect_dirs_apart (List.mem_map.mp dir)).2 symlink member (here.trans same.symm)

/-! ### What stands above a collected path -/

theorem dropLast_of_strict_lead {lead path : RelPath} (leads : lead <+: path)
    (strict : lead ≠ path) : lead <+: path.dropLast := by
  rcases leads with ⟨rest, whole⟩
  have deep : rest ≠ [] := fun none => strict (by rw [← whole, none, List.append_nil])
  rw [← whole, List.dropLast_append_of_ne_nil deep]
  exact List.prefix_append lead rest.dropLast

/-- Every path above an entry is a directory's. -/
theorem Tree.above (tree : Tree) {entry : Walked} (member : entry ∈ tree.entries) {lead : RelPath}
    (leads : lead <+: entry.path) (deep : lead ≠ []) (strict : lead ≠ entry.path) :
    ∃ parent ∈ tree.entries, parent.path = lead ∧ parent.node = .dir := by
  induction length : entry.path.length using Nat.strong_induction_on generalizing entry with
  | _ size ih =>
      have shorter := dropLast_of_strict_lead leads strict
      have some : entry.path ≠ [] := (tree.named entry member).1
      rcases tree.parents entry member with top | ⟨parent, within, path, kind⟩
      · rw [top] at shorter
        exact absurd (List.prefix_nil.mp shorter) deep
      · by_cases direct : lead = entry.path.dropLast
        · exact ⟨parent, within, path.trans direct.symm, kind⟩
        · have less : parent.path.length < size := by
            have long := List.length_pos_of_ne_nil some
            rw [path, List.length_dropLast]
            omega
          exact ih _ less within (path ▸ shorter) (path ▸ direct) rfl

/-- Nothing above the path was skipped for its name. -/
def clearOfScratch (path : RelPath) : Bool := path.dropLast.all fun name => !isScratchName (lossy name)

theorem kept_iff {output : Option RelPath} {path : RelPath} : kept opts output path = true ↔
    output ≠ some path ∧ path ≠ generatedFile ∧ isScratchName (lossy (path.getLastD [])) = false ∧
      excluded opts path = false := by
  simp only [kept, Bool.and_eq_true, decide_eq_true_eq, Bool.not_eq_true', and_assoc]

theorem isReserved_below {path : RelPath} (below : generatedFile <+: path)
    (strict : generatedFile ≠ path) : isReserved path = true := by
  rcases below with ⟨rest, whole⟩
  cases rest with
  | nil => exact absurd (by rw [← whole, List.append_nil]) strict
  | cons name rest =>
      rw [← whole]
      have icons : utf8 "icons" ≠ utf8 "generated" := by decide +kernel
      have desktop : utf8 "desktop" ≠ utf8 "generated" := by decide +kernel
      simp [isReserved, generatedFile, broughtFiles, icons, desktop]

/-- Clear of skipped names, every directory above what is collected is collected. -/
theorem collect_above {tree : Tree} (free : collision (collect opts host tree) = none)
    (output : outputIsDir tree = false) {path : RelPath}
    (member : path ∈ (collect opts host tree).paths) {lead : RelPath} (leads : lead <+: path)
    (deep : lead ≠ []) (strict : lead ≠ path)
    (clear : isScratchName (lossy (lead.getLastD [])) = false) :
    ∃ dir ∈ (collect opts host tree).dirs, dir.relPath = lead := by
  rcases mem_collect_paths member with ⟨entry, within, same, passed⟩
  rw [← same] at leads strict
  rcases tree.above within leads deep strict with ⟨parent, there, place, kind⟩
  refine mem_collect_dirs.mpr ⟨parent, there, place, kind, kept_iff.mpr ⟨?_, ?_, clear, ?_⟩⟩
  · intro named
    rw [outputIsDir, Bool.or_eq_false_iff, List.any_eq_false] at output
    have refused := output.2 parent there
    rw [place, kind, named] at refused
    simp at refused
  · intro generated
    have reserved := isReserved_below (generated ▸ leads) (generated ▸ strict)
    rw [collision, List.find?_eq_none] at free
    exact free path member (same ▸ reserved)
  · have whole := (kept_iff.mp passed).2.2.2
    rw [excluded, List.any_eq_false] at whole ⊢
    intro name inside
    exact whole name (same ▸ leads.subset inside)

end

end Onelf.Cli.Pack
