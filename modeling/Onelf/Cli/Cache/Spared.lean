import Onelf.Cli.Cache.Clear

/-! What `onelf cache clear` leaves of the trees in use. -/

namespace Onelf.Cli.Cache

open Onelf.Lib Onelf.Lib.FileTree

/-! ### What is in use -/

/-- A package's id: a digest in hexadecimal. -/
structure PackageId where
  name : Bytes
  sized : name.length = 64
  hex : ∀ byte ∈ name, isLowerHex byte = true

/-- The key of a view, which it is named by. -/
structure ViewKey where
  key : Bytes
  hex : ∀ byte ∈ key, isLowerHex byte = true

def ViewKey.name (view : ViewKey) : Bytes := utf8 "view-" ++ view.key

section
variable (system : System) (tree : Tree)

/-- Another process holds the lock file at a path. -/
def Held (path : Path) : Prop :=
  system.held path = true ∧ ∃ inode, find path tree = some (.leaf (.file inode))

/-- The trees of the packages and views in use, and what is being extracted or staged of them. -/
inductive InUse : Path → Prop where
  | package (id : PackageId) (held : Held system tree (lockPath id.name)) :
      InUse (pkgDir id.name)
  | scratch (id : PackageId) (held : Held system tree (lockPath id.name)) :
      InUse (extractTmpDir id.name)
  | view (view : ViewKey) (held : Held system tree (leaseLockPath view.name) ∨
      Held system tree (creationLockPath view.name)) : InUse (viewPath view.name)
  | staging (view : ViewKey) (rest : Bytes) (held : Held system tree (creationLockPath view.name))
      (made : (find (viewPath (view.name ++ stagingSep ++ rest)) tree).isSome) :
      InUse (viewPath (view.name ++ stagingSep ++ rest))

/-- What no pass touches: the trees in use, and the lock files that say so. -/
inductive Spared : Path → Prop where
  | inUse (path : Path) (used : InUse system tree path) : Spared path
  | lock (id : PackageId) (held : Held system tree (lockPath id.name)) :
      Spared (lockPath id.name)
  | lease (view : ViewKey) (held : Held system tree (leaseLockPath view.name)) :
      Spared (leaseLockPath view.name)
  | creation (view : ViewKey) (held : Held system tree (creationLockPath view.name)) :
      Spared (creationLockPath view.name)

/-- A pass has left everything spared as it was. -/
structure Kept (after : Tree) : Prop where
  named : wellNamed after
  found : ∀ path, Spared system tree path → find path after = find path tree

end

variable {system : System} {tree after : Tree}

theorem PackageId.dot_not_mem (id : PackageId) : 46 ∉ id.name := by
  intro member
  exact absurd (id.hex 46 member) (by decide)

theorem ViewKey.dot_not_mem (view : ViewKey) : 46 ∉ view.name := by
  intro member
  rcases List.mem_append.mp member with lead | inKey
  · exact absurd lead (by decide)
  · exact absurd (view.hex 46 inKey) (by decide)

/-! ### Paths apart -/

/-- Neither path is inside the other. -/
def Apart (path other : Path) : Prop := ¬ path <+: other ∧ ¬ other <+: path

theorem apart_of_heads {first second : Bytes} {path other : Path} (differ : first ≠ second) :
    Apart (first :: path) (second :: other) := by
  constructor
  · intro inside
    exact differ (List.cons_prefix_cons.mp inside).1
  · intro inside
    exact differ (List.cons_prefix_cons.mp inside).1.symm

theorem apart_of_names {dir name other : Bytes} (differ : name ≠ other) :
    Apart [dir, name] [dir, other] := by
  constructor
  · intro inside
    exact differ (List.cons_prefix_cons.mp (List.cons_prefix_cons.mp inside).2).1
  · intro inside
    exact differ (List.cons_prefix_cons.mp (List.cons_prefix_cons.mp inside).2).1.symm

theorem Kept.alter {change : Option Tree → Option Tree} {path : Path}
    (kept : Kept system tree after)
    (shaped : ∀ old, (∀ inner ∈ old, wellNamed inner) → ∀ inner ∈ change old, wellNamed inner)
    (apart : ∀ other, Spared system tree other → Apart path other) :
    Kept system tree (alter change path after) where
  named := wellNamed_alter shaped kept.named
  found := by
    intro other spared
    rw [find_alter_apart kept.named (apart other spared).1 (apart other spared).2]
    exact kept.found other spared

/-- A removal that takes an entry or leaves it. -/
theorem Kept.remove {change : Option Tree → Option Tree} {path : Path}
    (kept : Kept system tree after)
    (takes : ∀ old, change old = none ∨ change old = old)
    (apart : ∀ other, Spared system tree other → Apart path other) :
    Kept system tree (FileTree.alter change path after) := by
  apply kept.alter _ apart
  intro old named inner changed
  rcases takes old with gone | same
  · rw [gone] at changed
    cases changed
  · rw [same] at changed
    exact named inner changed

theorem Kept.removeFile {path : Path} (kept : Kept system tree after)
    (apart : ∀ other, Spared system tree other → Apart path other) :
    Kept system tree (removeFile path after) := by
  apply kept.remove _ apart
  intro old
  split
  · exact Or.inl rfl
  · exact Or.inr rfl

theorem Kept.removeDirAll {path : Path} (kept : Kept system tree after)
    (apart : ∀ other, Spared system tree other → Apart path other) :
    Kept system tree (removeDirAll path after) := by
  apply kept.remove _ apart
  intro old
  split
  · exact Or.inr rfl
  · exact Or.inl rfl

theorem Kept.removeDir {path : Path} (kept : Kept system tree after)
    (apart : ∀ other, Spared system tree other → Apart path other) :
    Kept system tree (removeDir path after) := by
  apply kept.remove _ apart
  intro old
  split
  · exact Or.inl rfl
  · exact Or.inr rfl

theorem Kept.removeAny {path : Path} (kept : Kept system tree after)
    (apart : ∀ other, Spared system tree other → Apart path other) :
    Kept system tree (removeAny path after) :=
  kept.remove (fun _ => Or.inl rfl) apart

theorem Kept.foldl {ι : Type} {step : Tree → ι → Tree} {items : List ι}
    (steps : ∀ item ∈ items, ∀ before, Kept system tree before →
      Kept system tree (step before item))
    (kept : Kept system tree after) : Kept system tree (items.foldl step after) := by
  induction items generalizing after with
  | nil => exact kept
  | cons item items ih =>
      exact ih (fun other member => steps other (List.mem_cons_of_mem _ member))
        (steps item List.mem_cons_self after kept)

theorem Kept.held {path : Path} (kept : Kept system tree after)
    (spared : Spared system tree path) (held : Held system tree path) :
    Held system after path := by
  rcases held with ⟨taken, inode, found⟩
  exact ⟨taken, inode, (kept.found path spared).trans found⟩

/-! ### Packages -/

theorem apart_pkg {name : Bytes}
    (id : ∀ id : PackageId, Held system tree (lockPath id.name) → name ≠ id.name)
    (scratch : ∀ id : PackageId, Held system tree (lockPath id.name) →
      name ≠ utf8 "." ++ id.name ++ utf8 ".tmp") :
    ∀ other, Spared system tree other → Apart [utf8 "pkg", name] other := by
  intro other spared
  cases spared with
  | inUse path used =>
      cases used with
      | package other held => exact apart_of_names (id other held)
      | scratch other held => exact apart_of_names (scratch other held)
      | view view held => exact apart_of_heads (by decide)
      | staging view rest held made => exact apart_of_heads (by decide)
  | lock other held => exact apart_of_heads (by decide)
  | lease view held => exact apart_of_heads (by decide)
  | creation view held => exact apart_of_heads (by decide)

theorem apart_lock {name : Bytes}
    (id : ∀ id : PackageId, Held system tree (lockPath id.name) → name ≠ id.name) :
    ∀ other, Spared system tree other → Apart [utf8 "lock", name] other := by
  intro other spared
  cases spared with
  | inUse path used =>
      cases used with
      | package other held => exact apart_of_heads (by decide)
      | scratch other held => exact apart_of_heads (by decide)
      | view view held => exact apart_of_heads (by decide)
      | staging view rest held made => exact apart_of_heads (by decide)
  | lock other held => exact apart_of_names (id other held)
  | lease view held => exact apart_of_heads (by decide)
  | creation view held => exact apart_of_heads (by decide)

/-- Everything spared is in one of three directories. -/
theorem apart_elsewhere {dir : Bytes} {path : Path} (pkg : dir ≠ utf8 "pkg")
    (lock : dir ≠ utf8 "lock") (views : dir ≠ utf8 "views") :
    ∀ other, Spared system tree other → Apart (dir :: path) other := by
  intro other spared
  cases spared with
  | inUse path used =>
      cases used with
      | package other held => exact apart_of_heads pkg
      | scratch other held => exact apart_of_heads pkg
      | view view held => exact apart_of_heads views
      | staging view rest held made => exact apart_of_heads views
  | lock other held => exact apart_of_heads lock
  | lease view held => exact apart_of_heads views
  | creation view held => exact apart_of_heads views

theorem ne_of_dot {name other : Bytes} (dotted : 46 ∈ name) (plain : 46 ∉ other) : name ≠ other := by
  intro same
  exact plain (same ▸ dotted)

theorem append_ne_append {left right : Bytes} (lead : Bytes) (other : Bytes)
    (ends : left.getLast? ≠ right.getLast?) (some : left ≠ []) (some' : right ≠ []) :
    lead ++ left ≠ other ++ right := by
  intro same
  have last := congrArg List.getLast? same
  rw [List.getLast?_append_of_ne_nil _ some, List.getLast?_append_of_ne_nil _ some'] at last
  exact ends last

theorem Kept.removePackage {id : Bytes} (kept : Kept system tree after)
    (plain : id.head? ≠ some 46)
    (idle : ∀ other : PackageId, Held system tree (lockPath other.name) → id ≠ other.name) :
    Kept system tree (removePackage id after) := by
  have marked : Kept system tree (Cache.removeFile (readyMarker id) after) := by
    apply kept.removeFile
    apply apart_pkg
    · intro other _
      exact ne_of_dot (List.mem_append_left _ (List.mem_append_left _ (by decide)))
        other.dot_not_mem
    · intro other _
      exact append_ne_append _ _ (by decide) (by decide) (by decide)
  have idleTree := marked.removeDirAll (apart_pkg idle (by
    intro other _ same
    rw [same] at plain
    exact plain rfl))
  have scratchNames : ∀ other, Spared system tree other → Apart (extractTmpDir id) other := by
    apply apart_pkg
    · intro other _
      exact ne_of_dot (List.mem_append_left _ (List.mem_append_left _ (by decide)))
        other.dot_not_mem
    · intro other held same
      exact idle other held (List.append_cancel_left (List.append_cancel_right same))
  have recordNames : ∀ other, Spared system tree other → Apart (metaPath id) other :=
    apart_elsewhere (by decide) (by decide) (by decide)
  have mutexNames : ∀ other, Spared system tree other → Apart (extractLockPath id) other :=
    apart_lock fun other _ => ne_of_dot (List.mem_append_right _ (by decide)) other.dot_not_mem
  exact ((idleTree.removeDirAll scratchNames).removeFile recordNames).removeFile mutexNames

theorem Kept.tryRemoveLocked {id : Bytes} (kept : Kept system tree after)
    (plain : id.head? ≠ some 46) : Kept system tree (tryRemoveLocked system after id) := by
  by_cases used : ∃ other : PackageId, Held system tree (lockPath other.name) ∧ id = other.name
  · rcases used with ⟨other, held, same⟩
    rcases kept.held (.lock other held) held with ⟨taken, inode, found⟩
    rw [Cache.tryRemoveLocked, same, found]
    simp only [taken, if_true]
    exact kept
  · have removed := kept.removePackage plain fun other held same => used ⟨other, held, same⟩
    rw [Cache.tryRemoveLocked]
    split
    · split
      · exact kept
      · exact removed
    · exact kept
    · exact removed

theorem head_of_mem_cachedIds {id : Bytes} (member : id ∈ cachedIds after) :
    id.head? ≠ some 46 := by
  rw [cachedIds, mem_sortDedup, List.mem_filter, decide_eq_true_iff] at member
  exact member.2.2

/-! ### Builds and blobs -/

theorem mem_storedBuilds {file : Path} (member : file ∈ storedBuilds after) :
    ∃ label name, file = [utf8 "platform", label, name] := by
  rcases List.mem_map.mp member with ⟨build, inBuilds, same⟩
  rw [(sortByKey_perm _ _).mem_iff] at inBuilds
  rcases List.mem_flatMap.mp inBuilds with ⟨label, _, inLabel⟩
  rcases List.mem_filterMap.mp inLabel with ⟨entry, _, named⟩
  rcases Option.bind_eq_some_iff.mp named with ⟨hash, _, built⟩
  rw [Option.ite_none_left_eq_some, Option.some.injEq] at built
  refine ⟨label, entry.1, ?_⟩
  rw [← same, ← built.2]
  rfl

theorem Kept.removeBuild {label name : Bytes} (kept : Kept system tree after) :
    Kept system tree (removeBuild after [utf8 "platform", label, name]) := by
  rw [Cache.removeBuild]
  split
  · exact (kept.removeFile (apart_elsewhere (by decide) (by decide) (by decide))).removeDir
      (apart_elsewhere (by decide) (by decide) (by decide))
  · exact kept

theorem Kept.removeBlob {shard blob : Bytes} (kept : Kept system tree after) :
    Kept system tree (removeBlob system after [utf8 "cas", shard, blob]) := by
  rw [Cache.removeBlob]
  split
  · split
    · exact kept
    · exact kept.removeFile (apart_elsewhere (by decide) (by decide) (by decide))
  · exact kept

theorem Kept.collectShard {shard : Bytes} (kept : Kept system tree after) :
    Kept system tree (collectShard system after shard) := by
  apply kept.foldl
  intro blob member before keptBefore
  rcases List.mem_map.mp member with ⟨entry, _, same⟩
  rw [← same]
  exact keptBefore.removeBlob

/-! ### Lock files -/

/-- Opening a lock file changes nothing spared: at most it makes a file that was missing. -/
theorem Kept.openLock {path : Path} {opened : Tree} {busy : Bool} (kept : Kept system tree after)
    (there : ∀ other, Spared system tree other →
      Apart path other ∨ other = path ∧ (find path after).isSome)
    (ran : Cache.openLock system path after = some (opened, busy)) : Kept system tree opened := by
  rw [Cache.openLock] at ran
  split at ran
  · cases ran
  · rw [Option.some.injEq, Prod.mk.injEq] at ran
    rw [← ran.1]
    exact kept
  · next missing =>
      split at ran
      · rw [Option.some.injEq, Prod.mk.injEq] at ran
        rw [← ran.1]
        apply kept.alter
        · intro old _ inner made
          rw [← Option.some.inj made]
          trivial
        · intro other spared
          rcases there other spared with apart | held
          · exact apart
          · rw [missing] at held
            cases held.2
      · cases ran

/-- A lock that was free is held by nobody else. -/
theorem Kept.not_held {path : Path} {opened : Tree} (kept : Kept system tree after)
    (spared : Held system tree path → Spared system tree path)
    (ran : Cache.openLock system path after = some (opened, false)) : ¬ Held system tree path := by
  intro held
  rcases kept.held (spared held) held with ⟨taken, inode, found⟩
  rw [Cache.openLock, found] at ran
  simp only [taken, Option.some.injEq, Prod.mk.injEq] at ran
  cases ran.2

theorem Kept.collectCas (kept : Kept system tree after) :
    Kept system tree (collectCas system after) := by
  have there : ∀ other, Spared system tree other →
      Apart casLockPath other ∨ other = casLockPath ∧ (find casLockPath after).isSome := by
    intro other spared
    left
    apply apart_lock _ other spared
    intro id _ same
    have sized := id.sized
    rw [← same] at sized
    exact absurd sized (by decide)
  rw [Cache.collectCas]
  split
  · exact kept
  · next opened ran => exact kept.openLock there ran
  · next opened ran =>
      apply (kept.openLock there ran).foldl
      intro shard _ before keptBefore
      exact keptBefore.collectShard

/-! ### Views -/

theorem splitOnceAt_eq_some {sep text base rest : Bytes} (proper : sep ≠ [])
    (split : splitOnceAt sep text = some (base, rest)) :
    ¬ sep <:+: base ∧ text = base ++ sep ++ rest := by
  induction text generalizing base with
  | nil => cases split
  | cons byte text ih =>
      rw [splitOnceAt] at split
      split at split
      · next lead =>
          rcases lead with ⟨tail, whole⟩
          rw [Option.some.injEq, Prod.mk.injEq, ← whole, List.drop_left] at split
          rw [← split.1, ← split.2]
          exact ⟨fun inside => proper (List.infix_nil.mp inside), whole.symm⟩
      · next lead =>
          rcases Option.map_eq_some_iff.mp split with ⟨⟨first, last⟩, later, same⟩
          simp only [Prod.mk.injEq] at same
          rw [same.2] at later
          rcases ih later with ⟨absent, whole⟩
          rw [← same.1]
          refine ⟨?_, by rw [whole]; rfl⟩
          intro inside
          rcases List.infix_cons_iff.mp inside with here | inner
          · apply lead
            rw [whole]
            have longer : byte :: first <+: byte :: (first ++ sep ++ rest) :=
              ⟨sep ++ rest, by simp⟩
            exact here.trans longer
          · exact absent inner

theorem splitOnceAt_eq_none {sep text : Bytes} (proper : sep ≠ [])
    (split : splitOnceAt sep text = none) : ¬ sep <:+: text := by
  induction text with
  | nil => exact fun inside => proper (List.infix_nil.mp inside)
  | cons byte text ih =>
      rw [splitOnceAt] at split
      split at split
      · cases split
      · next lead =>
          intro inside
          rcases List.infix_cons_iff.mp inside with here | inner
          · exact lead here
          · exact ih (Option.map_eq_none_iff.mp split) inner

/-- A view's identity has no separator in it. -/
theorem unmarked_of_identityOf {entry : Bytes × Tree} {name : Bytes}
    (found : identityOf entry = some name) : ¬ stagingSep <:+: name := by
  rw [identityOf] at found
  split at found
  · split at found
    · next base rest split =>
        rw [← Option.some.inj found]
        exact (splitOnceAt_eq_some (by decide) split).1
    · next unsplit _ =>
        rw [← Option.some.inj found]
        exact splitOnceAt_eq_none (by decide) unsplit
    · cases found
  · cases found

/-- A name that runs, with a separator behind it, along a view's own is that view's. -/
theorem eq_or_longer {name view tail rest : Bytes} (plain : 46 ∉ view)
    (same : name ++ (stagingSep ++ rest) = view ++ tail) :
    name = view ∨ ∃ more, more ≠ [] ∧ name = view ++ more ∧ tail = more ++ (stagingSep ++ rest) := by
  rcases List.append_eq_append_iff.mp same with ⟨more, longer, whole⟩ | ⟨more, longer, whole⟩
  · cases more with
    | nil => exact Or.inl (by rw [longer, List.append_nil])
    | cons byte more =>
        have first : byte = 46 := (List.cons.inj whole).1.symm
        apply absurd _ plain
        rw [longer, first]
        exact List.mem_append_right _ List.mem_cons_self
  · cases more with
    | nil => exact Or.inl (by rw [longer, List.append_nil])
    | cons byte more => exact Or.inr ⟨byte :: more, List.cons_ne_nil _ _, longer, whole⟩

theorem eq_of_marked {name view tail : Bytes} (unmarked : ¬ stagingSep <:+: name)
    (plain : 46 ∉ view) (marked : name ++ stagingSep <+: view ++ (stagingSep ++ tail)) :
    name = view := by
  rcases marked with ⟨rest, same⟩
  rw [List.append_assoc] at same
  rcases eq_or_longer plain same with here | ⟨more, some, longer, whole⟩
  · exact here
  · have inName (inside : stagingSep <:+: more) : False := by
      apply unmarked
      rw [longer]
      exact inside.trans (List.suffix_append view more).isInfix
    rcases List.append_eq_append_iff.mp whole with ⟨end_, parts, _⟩ | ⟨end_, parts, ends⟩
    · exact absurd (inName ⟨[], end_, by rw [parts, List.nil_append]⟩) id
    · cases end_ with
      | nil => exact absurd (inName ⟨[], [], by rw [parts]; simp⟩) id
      | cons byte end_ =>
          -- The dot of the second separator would stand inside the first one.
          have first : byte = 46 := (List.cons.inj ends).1.symm
          cases more with
          | nil => exact absurd rfl some
          | cons lead more =>
              have inside : (46 : UInt8) ∈ stagingSep.tail := by
                rw [parts, List.cons_append, List.tail_cons, first]
                exact List.mem_append_right _ List.mem_cons_self
              exact absurd inside (by decide)

theorem not_marked {name view tail : Bytes} (plain : 46 ∉ view) (short : tail.length < 9) :
    ¬ name ++ stagingSep <+: view ++ tail := by
  rintro ⟨rest, same⟩
  have nine : stagingSep.length = 9 := by decide
  rw [List.append_assoc] at same
  rcases eq_or_longer plain same with here | ⟨more, _, _, whole⟩
  · rw [here] at same
    have lengths := congrArg List.length (List.append_cancel_left same)
    rw [List.length_append] at lengths
    omega
  · have lengths := congrArg List.length whole
    rw [List.length_append, List.length_append] at lengths
    omega

/-- Beside the views themselves, a spared name of the store is taken. -/
theorem Kept.views_there {name : Bytes} (kept : Kept system tree after) (dotted : 46 ∈ name) :
    ∀ other, Spared system tree other → Apart [utf8 "views", name] other ∨
      other = [utf8 "views", name] ∧ (find [utf8 "views", name] after).isSome := by
  have named (other : Bytes) (spared : Spared system tree [utf8 "views", other])
      (held : (find [utf8 "views", other] tree).isSome) :
      Apart [utf8 "views", name] [utf8 "views", other] ∨
        [utf8 "views", other] = [utf8 "views", name] ∧
          (find [utf8 "views", name] after).isSome := by
    by_cases same : name = other
    · right
      rw [same, kept.found _ spared]
      exact ⟨rfl, held⟩
    · exact Or.inl (apart_of_names same)
  have taken {path : Path} (held : Held system tree path) : (find path tree).isSome := by
    rcases held with ⟨_, inode, found⟩
    rw [found]
    rfl
  intro other spared
  cases spared with
  | inUse path used =>
      cases used with
      | package id held => exact Or.inl (apart_of_heads (by decide))
      | scratch id held => exact Or.inl (apart_of_heads (by decide))
      | view view held => exact Or.inl (apart_of_names (ne_of_dot dotted view.dot_not_mem))
      | staging view rest held made =>
          exact named _ (.inUse _ (.staging view rest held made)) made
  | lock id held => exact Or.inl (apart_of_heads (by decide))
  | lease view held => exact named _ (.lease view held) (taken held)
  | creation view held => exact named _ (.creation view held) (taken held)

/-- The removal of an idle view's tree; a lock file is no tree. -/
theorem Kept.removeView {name : Bytes} (kept : Kept system tree after)
    (unmarked : ¬ stagingSep <:+: name)
    (idle : ∀ view : ViewKey, name = view.name → ¬ (Held system tree (leaseLockPath view.name) ∨
      Held system tree (creationLockPath view.name))) :
    Kept system tree (Cache.removeDirAll (viewPath name) after) := by
  have named : wellNamed (Cache.removeDirAll (viewPath name) after) := by
    apply wellNamed_alter _ kept.named
    intro old shaped inner changed
    split at changed
    · rw [← Option.some.inj changed]
      trivial
    · cases changed
  have away {other : Path} (spared : Spared system tree other) (apart : Apart (viewPath name) other) :
      find other (Cache.removeDirAll (viewPath name) after) = find other tree := by
    rw [Cache.removeDirAll, find_alter_apart kept.named apart.1 apart.2]
    exact kept.found other spared
  have locked {other : Bytes} (spared : Spared system tree (viewPath other))
      (held : Held system tree (viewPath other)) :
      find (viewPath other) (Cache.removeDirAll (viewPath name) after) =
        find (viewPath other) tree := by
    by_cases same : name = other
    · rcases kept.held spared held with ⟨_, inode, found⟩
      rw [← kept.found _ spared, found, same]
      exact find_alter_self kept.named (List.cons_ne_nil _ _) found
    · exact away spared (apart_of_names same)
  refine ⟨named, ?_⟩
  intro other spared
  cases spared with
  | inUse path used =>
      apply away (.inUse _ used)
      cases used with
      | package id held => exact apart_of_heads (by decide)
      | scratch id held => exact apart_of_heads (by decide)
      | view view held =>
          apply apart_of_names
          intro same
          exact idle view same held
      | staging view rest held made =>
          apply apart_of_names
          intro same
          apply unmarked
          rw [same, List.append_assoc]
          exact ⟨view.name, rest, by simp⟩
  | lock id held => exact away (.lock id held) (apart_of_heads (by decide))
  | lease view held => exact locked (.lease view held) held
  | creation view held => exact locked (.creation view held) held

theorem Kept.removeStaging {name entry : Bytes} (kept : Kept system tree after)
    (unmarked : ¬ stagingSep <:+: name)
    (idle : ∀ view : ViewKey, name = view.name → ¬ Held system tree (creationLockPath view.name)) :
    Kept system tree (removeStaging name after entry) := by
  rw [Cache.removeStaging]
  split
  · next marked =>
      have dotted : 46 ∈ entry :=
        marked.2.subset (List.mem_append_right _ (by decide))
      apply kept.removeAny
      intro other spared
      cases spared with
      | inUse path used =>
          cases used with
          | package id held => exact apart_of_heads (by decide)
          | scratch id held => exact apart_of_heads (by decide)
          | view view held => exact apart_of_names (ne_of_dot dotted view.dot_not_mem)
          | staging view rest held made =>
              apply apart_of_names
              intro same
              have lead := marked.2
              rw [same, List.append_assoc] at lead
              exact idle view (eq_of_marked unmarked view.dot_not_mem lead) held
      | lock id held => exact apart_of_heads (by decide)
      | lease view held =>
          apply apart_of_names
          intro same
          have lead := marked.2
          rw [same] at lead
          exact not_marked view.dot_not_mem (by decide) lead
      | creation view held =>
          apply apart_of_names
          intro same
          have lead := marked.2
          rw [same] at lead
          exact not_marked view.dot_not_mem (by decide) lead
  · exact kept

theorem Kept.reclaimView {name : Bytes} (kept : Kept system tree after)
    (unmarked : ¬ stagingSep <:+: name) : Kept system tree (reclaimView system after name) := by
  have dotted (trail : String) (dot : 46 ∈ utf8 trail) : 46 ∈ name ++ utf8 trail :=
    List.mem_append_right _ dot
  rw [Cache.reclaimView]
  split
  · exact kept
  · next leased ran => exact kept.openLock (kept.views_there (dotted _ (by decide))) ran
  · next leased leaseRan =>
      have afterLease := kept.openLock (kept.views_there (dotted _ (by decide))) leaseRan
      split
      · exact afterLease
      · next claimed ran =>
          exact afterLease.openLock (afterLease.views_there (dotted _ (by decide))) ran
      · next claimed ran =>
          have both := afterLease.openLock (afterLease.views_there (dotted _ (by decide))) ran
          have unleased (view : ViewKey) (same : name = view.name) :
              ¬ Held system tree (leaseLockPath view.name) := by
            rw [same] at leaseRan
            exact kept.not_held (Spared.lease view) leaseRan
          have unmade (view : ViewKey) (same : name = view.name) :
              ¬ Held system tree (creationLockPath view.name) := by
            rw [same] at ran
            exact afterLease.not_held (Spared.creation view) ran
          have removed := both.removeView unmarked
            fun view same held => held.elim (unleased view same) (unmade view same)
          apply removed.foldl
          intro entry _ before keptBefore
          exact keptBefore.removeStaging unmarked unmade

theorem Kept.collectViews (kept : Kept system tree after) :
    Kept system tree (collectViews system after) := by
  apply kept.foldl
  intro name member before keptBefore
  rw [mem_sortDedup] at member
  rcases List.mem_filterMap.mp member with ⟨entry, _, found⟩
  exact keptBefore.reclaimView (unmarked_of_identityOf found)

/-! ### The whole command -/

/-- A cache as it lies on disk. -/
structure Store where
  tree : Tree
  named : wellNamed tree

theorem Kept.packages (kept : Kept system tree after) :
    Kept system tree ((cachedIds after).foldl (Cache.tryRemoveLocked system) after) := by
  apply kept.foldl
  intro id member before keptBefore
  exact keptBefore.tryRemoveLocked (head_of_mem_cachedIds member)

theorem Kept.builds (kept : Kept system tree after) :
    Kept system tree ((storedBuilds after).foldl Cache.removeBuild after) := by
  apply kept.foldl
  intro file member before keptBefore
  rcases mem_storedBuilds member with ⟨label, name, same⟩
  rw [same]
  exact keptBefore.removeBuild

/-- What the last pass makes of a tree in use. -/
theorem Kept.pruned {path : Path} (kept : Kept system tree after)
    (used : InUse system tree path) :
    (prune after).bind (find path) = find path tree ↔
      ∀ below, find (path ++ below) tree ≠ some (.dir []) :=
  find_prune_eq_iff kept.named (kept.found path (.inUse path used))

theorem kept_sweep (named : wellNamed tree) : Kept system tree (sweep system tree) := by
  have start : Kept system tree tree := ⟨named, fun _ _ => rfl⟩
  have builds := start.packages.builds
  exact builds.collectViews.collectCas

def runningId : PackageId := ⟨List.replicate 64 97, List.length_replicate, by decide +kernel⟩

def runningSystem : System where
  held := fun path => path = lockPath runningId.name
  elsewhere := fun _ => 0
  newInode := 9

def runningStore : Store where
  tree := .dir [
    (utf8 "pkg", .dir [(runningId.name, .dir [
      (utf8 "app", .leaf (.file 1)), (utf8 "plugins", .dir [])])]),
    (utf8 "lock", .dir [(runningId.name, .leaf (.file 2))])]
  named := by
    simp only [wellNamed, allWellNamed, List.map_cons, List.map_nil]
    decide

end Onelf.Cli.Cache
