import Onelf.Lib.FileSystem

/-! Operations that stay below one directory, and the tree they leave there. -/

namespace Onelf.Lib

def Node.bare {τ α : Type} : Node τ α → Node τ Unit
  | .dir => .dir
  | .file _ => .file ()
  | .link target => .link target

theorem Node.bare_eq_dir {τ α : Type} {node : Node τ α} : node.bare = .dir ↔ node = .dir := by
  cases node <;> simp [bare]

theorem Node.target_bare {τ α : Type} (node : Node τ α) : node.bare.target? = node.target? := by
  cases node <;> rfl

/-- What has happened so far happened below `base`, through no link, or in the content store where
that is shared. -/
structure Confined (base : List Bytes) (start : Disk Stored) (shared : Bool) (system : FileSystem) :
    Prop where
  outside : ∀ place, ¬ base <+: place → system.disk place = start place
  below : ∀ act place followed, .disk act place followed ∈ system.effects →
    base <+: place ∧ followed = 0
  stored : ∀ path, .store path ∈ system.effects →
    shared = true ∧ path ≠ [] ∧ ∀ name ∈ path, isSafeComponent name = true

/-- The tree below `base`, the contents of its files left out. -/
def Shows (base : List Bytes) (tree : Disk Unit) (system : FileSystem) : Prop :=
  ∀ rel, (system.disk (base ++ rel)).map Node.bare = tree rel

variable {base : List Bytes} {start : Disk Stored} {shared : Bool} {tree : Disk Unit}
  {system : FileSystem}

theorem Confined.perform (confined : Confined base start shared system) (act : Act) (rel : List Bytes)
    (node : Option (Node Bytes Stored)) :
    Confined base start shared (system.perform act (base ++ rel) kernelLinks node) where
  outside place apart := by
    have other : place ≠ base ++ rel := fun same => apart (same ▸ List.prefix_append base rel)
    rw [FileSystem.perform]
    dsimp only
    rw [Function.update_of_ne other]
    exact confined.outside place apart
  below act' place followed member := by
    rw [FileSystem.perform, List.mem_append, List.mem_singleton] at member
    rcases member with before | here
    · exact confined.below act' place followed before
    · cases here
      exact ⟨List.prefix_append base rel, Nat.sub_self _⟩
  stored path member := by
    rw [FileSystem.perform, List.mem_append, List.mem_singleton] at member
    rcases member with before | here
    · exact confined.stored path before
    · cases here

theorem Shows.perform (shows : Shows base tree system) (act : Act) (rel : List Bytes)
    (node : Option (Node Bytes Stored)) :
    Shows base (Function.update tree rel (node.map Node.bare))
      (system.perform act (base ++ rel) kernelLinks node) := by
  intro other
  rw [FileSystem.perform]
  dsimp only
  by_cases same : other = rel
  · rw [same, Function.update_self, Function.update_self]
  · have apart : base ++ other ≠ base ++ rel := fun equal => same (List.append_cancel_left equal)
    rw [Function.update_of_ne same, Function.update_of_ne apart]
    exact shows other

theorem Shows.dir_iff (shows : Shows base tree system) (rel : List Bytes) :
    system.disk (base ++ rel) = some .dir ↔ tree rel = some .dir := by
  rw [← shows rel]
  cases system.disk (base ++ rel) with
  | none => simp
  | some node => simp [Node.bare_eq_dir]

theorem Shows.none_iff (shows : Shows base tree system) (rel : List Bytes) :
    system.disk (base ++ rel) = none ↔ tree rel = none := by
  rw [← shows rel, Option.map_eq_none_iff]

theorem Shows.linkAt (shows : Shows base tree system) (rel : List Bytes) :
    World.linkAt system.disk (base ++ rel) = World.linkAt tree rel := by
  rw [World.linkAt, World.linkAt, ← shows rel]
  cases system.disk (base ++ rel) with
  | none => rfl
  | some node => exact (Node.target_bare node).symm

theorem Shows.clear (shows : Shows base tree system) {follow : Bool} {rel : List Bytes}
    (clear : World.Clear tree follow [] rel) : system.disk.world.Clear follow base rel := by
  intro before part after same more
  have bare := clear before part after same more
  rw [Disk.world_linkAt, List.append_assoc, shows.linkAt]
  rw [List.nil_append] at bare
  rw [bare]
  rfl

/-! ### Directories -/

/-- The tree with a directory at every place down to `rel`. -/
def Disk.addDirs (tree : Disk Unit) (rel : List Bytes) : Disk Unit := fun place =>
  if place <+: rel then some .dir else tree place

theorem linkAt_addDirs (rel : List Bytes) {place : List Bytes} (plain : World.linkAt tree place = none) :
    World.linkAt (tree.addDirs rel) place = none := by
  rw [World.linkAt, Disk.addDirs]
  split
  · rfl
  · exact plain

theorem clear_addDirs {follow : Bool} {rel names : List Bytes}
    (clear : World.Clear tree follow [] names) : World.Clear (tree.addDirs rel) follow [] names :=
  fun before part after same more => linkAt_addDirs rel (clear before part after same more)

theorem addDirs_concat (above : List Bytes) (name : Bytes) :
    tree.addDirs (above ++ [name]) =
      Function.update (tree.addDirs above) (above ++ [name]) (some .dir) := by
  funext place
  by_cases same : place = above ++ [name]
  · rw [same, Function.update_self, Disk.addDirs, if_pos (List.prefix_refl _)]
  · rw [Function.update_of_ne same, Disk.addDirs, Disk.addDirs]
    congr 1
    rw [List.prefix_concat_iff]
    exact propext (or_iff_right same)

theorem makeDir_ensures {above : List Bytes} {name : Bytes}
    (clear : World.Clear tree true [] (above ++ [name])) :
    Proc.Ensures (fun system => Confined base start shared system ∧ Shows base (tree.addDirs above) system)
      (makeDir base (above ++ [name]))
      (fun _ system => Confined base start shared system ∧
        Shows base (tree.addDirs (above ++ [name])) system)
      (Confined base start shared) := by
  intro system held
  obtain ⟨confined, shows⟩ := held
  rcases exec_makeDir (shows.clear (clear_addDirs clear)) with
    ⟨reason, refused⟩ | ⟨dir, there⟩ | ⟨_, _, made⟩
  · rw [refused]
    exact confined
  · rw [there]
    refine ⟨confined, ?_⟩
    have same := (shows.dir_iff _).mp dir
    rw [addDirs_concat, ← same, Function.update_eq_self]
    exact shows
  · rw [made]
    refine ⟨confined.perform _ _ _, ?_⟩
    rw [addDirs_concat]
    exact shows.perform .mkdir (above ++ [name]) (some .dir)

theorem makeDirs_ensures {above rest : List Bytes}
    (clear : World.Clear tree true [] (above ++ rest)) :
    Proc.Ensures (fun system => Confined base start shared system ∧ Shows base (tree.addDirs above) system)
      (makeDirs base above rest)
      (fun _ system => Confined base start shared system ∧
        Shows base (tree.addDirs (above ++ rest)) system)
      (Confined base start shared) := by
  induction rest generalizing above with
  | nil =>
      rw [makeDirs, List.append_nil]
      exact Proc.Ensures.ret fun system holds => holds
  | cons name rest ih =>
      rw [List.append_cons] at clear ⊢
      rw [makeDirs]
      refine Proc.Ensures.bind (makeDir_ensures ?_) fun _ => ih clear
      intro before part after same more
      exact clear before part (after ++ rest) (by rw [same, List.append_assoc]; rfl) (Or.inl rfl)

/-- Directories are made down to `rel` where no link is on the way. -/
theorem createDirAll_ensures {rel : List Bytes} (rooted : tree [] = some .dir)
    (clear : World.Clear tree true [] rel) :
    Proc.Ensures (fun system => Confined base start shared system ∧ Shows base tree system)
      (createDirAll base rel)
      (fun _ system => Confined base start shared system ∧ Shows base (tree.addDirs rel) system)
      (Confined base start shared) := by
  have same : tree.addDirs [] = tree := by
    funext place
    rw [Disk.addDirs]
    split
    · next top => rw [List.prefix_nil.mp top, rooted]
    · rfl
  have ensures := @makeDirs_ensures base start shared tree [] rel clear
  rw [same, List.nil_append] at ensures
  exact ensures

/-! ### Files and links -/

theorem replaceEntry_ensures {act : Act} {rel : List Bytes} {node : Node Bytes Stored}
    (clear : World.Clear tree false [] rel) :
    Proc.Ensures (fun system => Confined base start shared system ∧ Shows base tree system)
      (replaceEntry base act rel node)
      (fun _ system => Confined base start shared system ∧
        Shows base (Function.update tree rel (some node.bare)) system ∧
          rel ≠ [] ∧ tree rel ≠ some .dir)
      (Confined base start shared) := by
  -- After the removal, if any, nothing stands at `rel` and no link stands above it.
  have entered (bared : Disk Unit) (agrees : ∀ place, place ≠ rel → bared place = tree place) :
      Proc.Ensures (fun system => Confined base start shared system ∧ Shows base bared system)
        (enter base act rel node)
        (fun _ system => Confined base start shared system ∧
          Shows base (Function.update tree rel (some node.bare)) system ∧ rel ≠ [] ∧
            bared rel = none)
        (Confined base start shared) := by
    intro system held
    obtain ⟨confined, shows⟩ := held
    have clears : World.Clear bared true [] rel.dropLast := by
      intro before part after same more
      have bare := clear.dropLast before part after same more
      have other : [] ++ before ++ [part] ≠ rel := by
        intro equal
        have shorter := congrArg List.length same
        rw [← equal] at shorter
        simp at shorter
      rw [World.linkAt, agrees _ other]
      exact bare
    rcases exec_enter (shows.clear clears) with ⟨reason, refused⟩ | ⟨named, _, absent, made⟩
    · rw [refused]
      exact confined
    · rw [made]
      refine ⟨confined.perform _ _ _, ?_, named, (shows.none_iff rel).mp absent⟩
      have same : Function.update tree rel (some node.bare) =
          Function.update bared rel ((some node).map Node.bare) := by
        funext place
        by_cases here : place = rel
        · rw [here, Function.update_self, Function.update_self]
          rfl
        · rw [Function.update_of_ne here, Function.update_of_ne here, agrees place here]
      rw [same]
      exact shows.perform act rel (some node)
  intro system held
  obtain ⟨confined, shows⟩ := held
  rw [replaceEntry, Proc.exec_bind]
  rcases exec_present (shows.clear clear) with there | ⟨_, absent⟩
  · rw [there]
    dsimp only
    rw [if_pos rfl, Proc.exec_bind]
    rcases exec_removeFile (shows.clear clear) with ⟨reason, refused⟩ | ⟨plain, gone⟩
    · rw [refused]
      exact confined
    · rw [gone]
      dsimp only
      have next := entered (Function.update tree rel none)
        (fun place other => Function.update_of_ne other _ _) _
        ⟨confined.perform .unlink rel none, shows.perform .unlink rel none⟩
      split
      · next result after ran =>
          rw [ran] at next
          exact ⟨next.1, next.2.1, next.2.2.1, fun dir => plain ((shows.dir_iff rel).mpr dir)⟩
      · next reason after ran =>
          rw [ran] at next
          exact next
  · rw [absent]
    dsimp only
    rw [if_neg Bool.false_ne_true]
    have next := entered tree (fun place _ => rfl) _ ⟨confined, shows⟩
    split
    · next result after ran =>
        rw [ran] at next
        exact ⟨next.1, next.2.1, next.2.2.1, by
          rw [next.2.2.2]
          exact (Option.some_ne_none _).symm⟩
    · next reason after ran =>
        rw [ran] at next
        exact next

theorem writeFile_ensures {rel : List Bytes} {bytes : Bytes} (rooted : tree [] = some .dir)
    (clear : World.Clear tree true [] rel) :
    Proc.Ensures (fun system => Confined base start shared system ∧ Shows base tree system)
      (writeFile base rel bytes)
      (fun _ system => Confined base start shared system ∧
        Shows base (Function.update tree rel (some (.file ()))) system ∧
          rel ≠ [] ∧ tree rel ≠ some .dir)
      (Confined base start shared) := by
  intro system held
  obtain ⟨confined, shows⟩ := held
  have top : system.disk base = some .dir := by
    have here := (shows.dir_iff []).mpr rooted
    rwa [List.append_nil] at here
  rcases exec_writeFile top (shows.clear clear) with
    ⟨reason, refused⟩ | ⟨node, held, plain, ran⟩ | ⟨named, absent, ran⟩
  · rw [refused]
    exact confined
  · rw [ran]
    have below : tree rel ≠ some .dir := by
      rw [Ne, ← shows.dir_iff rel, held]
      exact fun same => plain (Option.some.inj same)
    refine ⟨confined.perform _ _ _, ?_, ?_, below⟩
    · cases node with
      | dir => exact absurd rfl plain
      | file stored => exact shows.perform .write rel (some (.file ⟨bytes, stored.mode⟩))
      | link text =>
          -- A path followed to its end does not lead to a link.
          have link := shows.linkAt rel
          rw [World.linkAt_eq_some.mpr held] at link
          cases rel using List.reverseRecOn with
          | nil => exact absurd rooted below
          | append_singleton above last =>
              have bare := clear above last [] rfl (Or.inl rfl)
              rw [List.nil_append, ← link] at bare
              cases bare
    · intro empty
      rw [empty] at below
      exact below rooted
  · rw [ran]
    refine ⟨confined.perform _ _ _, shows.perform .create rel (some (.file ⟨bytes, 0o666⟩)), named,
      ?_⟩
    rw [(shows.none_iff rel).mp absent]
    exact nofun

theorem setPermissions_ensures {rel : List Bytes} {mode : Nat}
    (clear : World.Clear tree true [] rel) :
    Proc.Ensures (fun system => Confined base start shared system ∧ Shows base tree system)
      (setPermissions base rel mode)
      (fun _ system => Confined base start shared system ∧ Shows base tree system)
      (Confined base start shared) := by
  intro system held
  obtain ⟨confined, shows⟩ := held
  rcases exec_setPermissions (shows.clear clear) with ⟨reason, refused⟩ | ran
  · rw [refused]
    exact confined
  · rw [ran]
    refine ⟨confined.perform _ _ _, ?_⟩
    have same : Function.update tree rel
        (((system.disk (base ++ rel)).map (chmodded mode)).map Node.bare) = tree := by
      have bare : ((system.disk (base ++ rel)).map (chmodded mode)).map Node.bare =
          (system.disk (base ++ rel)).map Node.bare := by
        cases system.disk (base ++ rel) with
        | none => rfl
        | some node => cases node <;> rfl
      rw [bare, shows rel, Function.update_eq_self]
    have shown := shows.perform .chmod rel ((system.disk (base ++ rel)).map (chmodded mode))
    rwa [same] at shown

theorem metadata_ensures {rel : List Bytes} :
    Proc.Ensures (fun system => Confined base start shared system ∧ Shows base tree system)
      (metadata base rel)
      (fun _ system => Confined base start shared system ∧ Shows base tree system)
      (Confined base start shared) := by
  intro system held
  obtain ⟨confined, shows⟩ := held
  rcases exec_metadata rel system with ⟨reason, refused⟩ | ran
  · rw [refused]
    exact confined
  · rw [ran]
    exact ⟨confined, shows⟩

end Onelf.Lib
