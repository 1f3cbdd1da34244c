import Onelf.Runtime.Mountpoints.Locks

/-! No sweep and no launch that leaves removes a directory that is claimed. -/

namespace Onelf.Runtime.Mountpoints

open Onelf.Lib

section
variable {Entry : Type}

/-! ### Claims, and removals without a lock -/

/-- The directory a launch claims. -/
@[simp] def Proc.claimed : Proc → Option Name
  | .launch name (.locked _) | .launch name (.running _) | .launch name (.inherited _) => some name
  | .join build stage => stage.claim?.map fun _ => setDir build
  | _ => none

/-- The directory a sweep that found no lock file is about to remove. -/
@[simp] def Proc.unguarded : Proc → Option Name
  | .sweep (.mounts _ name none) | .sweep (.answers _ name none)
  | .sweep (.unmounting _ name none) | .sweep (.clearing _ name none) => some name
  | _ => none

/-- Nobody claims a directory when a sweep that found no lock file for it sees that it is old, or
while that sweep removes it. -/
structure Spared (base : Base Entry) (others : List Proc) (proc : Proc) (action : Act Entry) :
    Prop where
  claims : ∀ name inode, proc.asks = some (name, inode, .shared) → action = .next →
    grantable held others ⟨.claim inode, .shared⟩ = true → ∀ other ∈ others,
      other.unguarded ≠ some name
  ages : ∀ seen name, proc = .sweep (.aging seen name) → action = .next → base.aged name = true →
    ∀ other ∈ others, other.claimed ≠ some name

structure ClaimsApart (proc other : Proc) : Prop where
  spared : ∀ name, proc.unguarded = some name → other.claimed ≠ some name
  spares : ∀ name, other.unguarded = some name → proc.claimed ≠ some name

theorem ClaimsApart.symm {proc other : Proc} (apart : ClaimsApart proc other) :
    ClaimsApart other proc :=
  ⟨apart.spares, apart.spared⟩

/-- Who claims a directory relies on its lock. -/
theorem claimed_holds {proc : Proc} {name : Name} (claimed : proc.claimed = some name) :
    ∃ inode, proc.holds = some (name, inode) := by
  cases proc with
  | launch there stage => cases stage <;> simp_all
  | join build stage => cases stage <;> simp_all
  | server build stage => cases claimed
  | sweep stage => cases claimed
  | clock | host => cases claimed

theorem unguarded_unclaimed {proc : Proc} {name : Name} (unguarded : proc.unguarded = some name) :
    proc.claimed ≠ some name := by
  cases proc with
  | sweep stage =>
      intro claimed
      cases claimed
  | _ => cases unguarded

/-- Nobody else claims a directory whose lock is held exclusively. -/
theorem exclusive_alone {base : Base Entry} {proc other : Proc} {name : Name} {inode : Nat}
    (found : base.lockInode name = some inode) (exclusive : ⟨.claim inode, .exclusive⟩ ∈ held proc)
    (apart : LocksApart proc other) (named : Named base other) : other.claimed ≠ some name := by
  intro claimed
  rcases claimed_holds claimed with ⟨number, holds⟩
  have same : number = inode := Option.some.inj ((named name number holds).symm.trans found)
  rcases holds_held holds with ⟨mode, taken⟩
  rw [same] at taken
  exact apart.exclusive exclusive taken

/-- What a turn does to claims and removals. -/
structure Claiming (grants : Claim LockKey → Bool) (base : Base Entry) (proc : Proc)
    (action : Act Entry) (turn : Turn (Base Entry) Proc) : Prop where
  claimed : ∀ name, turn.proc.claimed = some name → proc.claimed = some name ∨
    action = .next ∧ ∃ inode, proc.asks = some (name, inode, .shared) ∧
      grants ⟨.claim inode, .shared⟩ = true
  unguarded : ∀ name, turn.proc.unguarded = some name → proc.unguarded = some name ∨
    action = .next ∧ base.aged name = true ∧ ∃ seen, proc = .sweep (.aging seen name)
  children : ∀ child ∈ turn.spawned, child.unguarded = none ∧
    (child.claimed = none ∨ child.claimed = proc.claimed ∧ turn.proc.unguarded = none)

variable {base : Base Entry} {grants : Claim LockKey → Bool} {action : Act Entry}

theorem launchTurn_claiming {name : Name} {stage : Launch}
    {turn : Base Entry × Launch × List Launch}
    (ran : launchTurn base grants name stage action = some turn) :
    Claiming grants base (.launch name stage) action
      ⟨turn.1, .launch name turn.2.1, turn.2.2.map (.launch name)⟩ := by
  fun_cases launchTurn base grants name stage action
  all_goals simp only [launchTurn, *, reduceCtorEq, Option.some.injEq, if_true, if_false,
    Bool.false_eq_true] at ran
  all_goals cases ran
  case case10 | case11 => split <;> constructor <;> simp
  all_goals constructor <;> simp_all

theorem joinTurn_claiming {build : List Char} {stage : Join} {turn : Base Entry × Join × List Proc}
    (ran : joinTurn base grants build stage action = some turn) :
    Claiming grants base (.join build stage) action ⟨turn.1, .join build turn.2.1, turn.2.2⟩ := by
  have untested : ∀ inode test, (Proc.join build (Join.untested inode test)).claimed =
      some (setDir build) := by
    intro inode test
    cases test <;> rfl
  fun_cases joinTurn base grants build stage action
  all_goals simp only [joinTurn, *, reduceCtorEq, Option.some.injEq, if_true, if_false,
    Bool.false_eq_true] at ran
  all_goals cases ran
  case case5 => split <;> constructor <;> simp
  all_goals constructor <;> simp_all

theorem sweepTurn_claiming [DecidableEq Entry] {stage : Sweep} {turn : Base Entry × Sweep}
    (ran : sweepTurn base grants stage action = some turn) :
    Claiming grants base (.sweep stage) action ⟨turn.1, .sweep turn.2, []⟩ := by
  fun_cases sweepTurn base grants stage action
  all_goals simp only [sweepTurn, *, reduceCtorEq, Option.some.injEq, if_true, if_false,
    Bool.false_eq_true] at ran
  all_goals cases ran
  case case12 seen name lock | case13 seen name lock =>
    cases lock <;> split <;> constructor <;> simp_all
  case case14 seen name lock => cases lock <;> constructor <;> simp_all
  case case9 =>
    split <;> constructor <;> simp_all
  case case3 | case5 | case7 | case8 | case17 | case20 | case21 | case22 =>
    split <;> constructor <;> simp
  all_goals constructor <;> simp

variable [DecidableEq Entry] {others : List Proc} {proc : Proc} {turn : Turn (Base Entry) Proc}

theorem program_claiming (ran : program base others proc action = some turn) :
    Claiming (grantable held others) base proc action turn := by
  cases proc with
  | launch name stage =>
      rcases Option.map_eq_some_iff.mp ran with ⟨moved, moves, rfl⟩
      exact launchTurn_claiming moves
  | join build stage =>
      rcases Option.map_eq_some_iff.mp ran with ⟨moved, moves, rfl⟩
      exact joinTurn_claiming moves
  | server build stage =>
      rcases Option.map_eq_some_iff.mp ran with ⟨moved, _, rfl⟩
      constructor <;> simp
  | sweep stage =>
      rcases Option.map_eq_some_iff.mp ran with ⟨moved, moves, rfl⟩
      exact sweepTurn_claiming moves
  | clock =>
      cases action with
      | wait seconds =>
          cases ran
          constructor <;> simp
      | _ => cases ran
  | host =>
      cases action with
      | remount name mounts =>
          cases ran
          constructor <;> simp
      | _ => cases ran

/-- While the locks are on the files their paths lead to and nobody hurries into a removal without a
lock, no such removal is of a claimed directory. -/
theorem program_spared :
    Keeps (@program Entry _)
      (fun base others proc action =>
        Current base others proc action ∧ Spared base others proc action)
      (fun _ => True ∧ True) (fun base proc => Named base proc ∧ True)
      (fun proc other => LocksApart proc other ∧ ClaimsApart proc other) := by
  apply program_locks.extend
  · exact fun _ _ => ClaimsApart.symm
  · intro base others proc action turn _ _ _ _ beside spared ran
    have claiming := program_claiming ran
    have apart : ∀ other ∈ others, ClaimsApart turn.proc other := by
      intro other member
      have apart := (beside other member).2.2
      constructor
      · intro name unguarded
        rcases claiming.unguarded name unguarded with before | ⟨next, aged, seen, aging⟩
        · exact apart.spared name before
        · exact spared.ages seen name aging next aged other member
      · intro name unguarded claimed
        rcases claiming.claimed name claimed with before | ⟨next, inode, asks, granted⟩
        · exact apart.spares name unguarded before
        · exact spared.claims name inode asks next granted other member unguarded
    refine ⟨trivial, trivial, fun other member => ⟨trivial, apart other member⟩, ?_, ?_⟩
    · intro child born
      rcases claiming.children child born with ⟨guarded, claimed⟩
      refine ⟨trivial, ⟨?_, ?_⟩, fun other member => ⟨?_, ?_⟩⟩
      · intro name unguarded
        rcases claimed with none | ⟨_, none⟩
        · rw [none]
          intro claimed
          cases claimed
        · rw [none] at unguarded
          cases unguarded
      · intro name unguarded
        rw [guarded] at unguarded
        cases unguarded
      · intro name unguarded
        rcases claimed with none | ⟨same, _⟩
        · rw [none]
          intro claimed
          cases claimed
        · rw [same]
          exact (beside other member).2.2.spares name unguarded
      · intro name unguarded
        rw [guarded] at unguarded
        cases unguarded
    · apply List.pairwise_of_forall_mem_list
      intro child born other also
      have guarded := (claiming.children child born).1
      have guarded' := (claiming.children other also).1
      constructor
      · intro name unguarded
        rw [guarded] at unguarded
        cases unguarded
      · intro name unguarded
        rw [guarded'] at unguarded
        cases unguarded

/-! ### Removals -/

/-- A launch with a directory of its own, a sweep, or what goes on beside them. -/
def Proc.Plain : Proc → Prop
  | .join _ _ | .server _ _ => False
  | _ => True

theorem exclusive_unclaimed {name : Name} {inode : Nat} (plain : proc.Plain)
    (exclusive : ⟨.claim inode, .exclusive⟩ ∈ held proc) : proc.claimed ≠ some name := by
  cases proc with
  | launch there stage => cases stage <;> simp_all [held, Launch.claims]
  | join build stage => exact plain.elim
  | _ =>
      intro claimed
      cases claimed

/-- The directory is there with all it had. -/
def Kept (before after : Option (Dir Entry)) : Prop :=
  ∀ dir, before = some dir → ∃ later, after = some later ∧ dir.entries ⊆ later.entries

omit [DecidableEq Entry] in
theorem Kept.of_eq {before after : Option (Dir Entry)} (same : after = before) :
    Kept before after :=
  fun dir found => ⟨dir, same.trans found, List.Subset.refl _⟩

/-- A turn takes something from a directory only with its lock, or without one where there was no
lock file. -/
structure Removes (base : Base Entry) (proc : Proc) (turn : Turn (Base Entry) Proc) : Prop where
  dirs : ∀ name, Kept (base.slots name).dir (turn.shared.slots name).dir ∨
    proc.unguarded = some name ∨ ∃ inode, proc.holds = some (name, inode) ∧
      ⟨.claim inode, .exclusive⟩ ∈ held proc
  plain : turn.proc.Plain ∧ ∀ child ∈ turn.spawned, child.Plain

namespace Base

variable (base : Base Entry) (name other : Name)

omit [DecidableEq Entry] in
theorem openLock_kept :
    Kept (base.slots other).dir ((base.openLock name).1.slots other).dir := by
  apply Kept.of_eq
  unfold openLock
  split
  · rfl
  · by_cases here : other = name
    · simp [here]
    · simp [setSlot, here]

omit [DecidableEq Entry] in
theorem createDir_kept : Kept (base.slots other).dir ((base.createDir name).slots other).dir := by
  by_cases here : other = name
  · intro dir found
    rw [here] at found
    exact ⟨dir, by simp [createDir, here, found], List.Subset.refl _⟩
  · exact Kept.of_eq (by simp [createDir, here])

omit [DecidableEq Entry] in
theorem addEntry_kept (entry : Entry) :
    Kept (base.slots other).dir ((base.addEntry name entry).slots other).dir := by
  by_cases here : other = name
  · intro dir found
    rw [here] at found
    exact ⟨⟨entry :: dir.entries, base.now⟩, by simp [addEntry, here, found],
      List.subset_cons_self _ _⟩
  · exact Kept.of_eq (by simp [addEntry, here])

omit [DecidableEq Entry] in
theorem setMounts_kept (mounts : List Mount) :
    Kept (base.slots other).dir ((base.setMounts name mounts).slots other).dir := by
  apply Kept.of_eq
  by_cases here : other = name
  · simp [setMounts, here]
  · simp [setMounts, here]

omit [DecidableEq Entry] in
theorem unlinked_kept : Kept (base.slots other).dir
    ((base.setSlot name { base.slots name with lock := none }).slots other).dir := by
  apply Kept.of_eq
  by_cases here : other = name
  · simp [here]
  · simp [here]

omit [DecidableEq Entry] in
theorem removeDir_kept (apart : other ≠ name) :
    Kept (base.slots other).dir ((base.removeDir name).slots other).dir := by
  apply Kept.of_eq
  unfold removeDir
  split <;> simp [apart]

theorem removeEntry_kept (entry : Entry) (apart : other ≠ name) :
    Kept (base.slots other).dir ((base.removeEntry name entry).slots other).dir := by
  apply Kept.of_eq
  unfold removeEntry
  split <;> simp [apart]

end Base

omit [DecidableEq Entry] in
theorem launchTurn_removes {name : Name} {stage : Launch}
    {turn : Base Entry × Launch × List Launch}
    (ran : launchTurn base grants name stage action = some turn) :
    Removes base (.launch name stage)
      ⟨turn.1, .launch name turn.2.1, turn.2.2.map (.launch name)⟩ := by
  constructor
  case plain =>
    refine ⟨trivial, fun child born => ?_⟩
    rcases List.mem_map.mp born with ⟨stage, _, rfl⟩
    trivial
  intro other
  fun_cases launchTurn base grants name stage action
  all_goals simp only [launchTurn, *, reduceCtorEq, Option.some.injEq, if_true, if_false,
    Bool.false_eq_true] at ran
  all_goals cases ran
  case dirs.case12 inode =>
    by_cases here : other = name
    · exact Or.inr (Or.inr ⟨inode, by rw [here]; rfl, List.mem_cons_self⟩)
    · exact Or.inl (base.removeDir_kept name other here)
  all_goals left
  case dirs.case1 => exact base.openLock_kept name other
  case dirs.case4 => exact base.createDir_kept name other
  case dirs.case5 | dirs.case7 => exact base.addEntry_kept name other _
  all_goals exact Kept.of_eq rfl

theorem sweepTurn_removes {stage : Sweep} {turn : Base Entry × Sweep}
    (ran : sweepTurn base grants stage action = some turn) :
    Removes base (.sweep stage) ⟨turn.1, .sweep turn.2, []⟩ := by
  refine ⟨?_, trivial, fun child born => by cases born⟩
  intro other
  fun_cases sweepTurn base grants stage action
  all_goals simp only [sweepTurn, *, reduceCtorEq, Option.some.injEq, if_true, if_false,
    Bool.false_eq_true] at ran
  all_goals cases ran
  case case15 seen name inode entry =>
    by_cases here : other = name
    · exact Or.inr (Or.inr ⟨inode, by rw [here]; rfl, List.mem_cons_self⟩)
    · exact Or.inl (base.removeEntry_kept name other entry here)
  case case16 seen name lock =>
    by_cases here : other = name
    · cases lock with
      | some inode => exact Or.inr (Or.inr ⟨inode, by rw [here]; rfl, List.mem_cons_self⟩)
      | none => exact Or.inr (Or.inl (by rw [here]; rfl))
    · exact Or.inl (base.removeDir_kept name other here)
  all_goals left
  case case14 => exact base.setMounts_kept _ other _
  case case23 => exact base.unlinked_kept _ other
  all_goals exact Kept.of_eq rfl

theorem program_removes (plain : proc.Plain) (ran : program base others proc action = some turn) :
    Removes base proc turn := by
  cases proc with
  | launch name stage =>
      rcases Option.map_eq_some_iff.mp ran with ⟨moved, moves, rfl⟩
      exact launchTurn_removes moves
  | join build stage => exact plain.elim
  | server build stage => exact plain.elim
  | sweep stage =>
      rcases Option.map_eq_some_iff.mp ran with ⟨moved, moves, rfl⟩
      exact sweepTurn_removes moves
  | clock =>
      cases action with
      | wait seconds =>
          cases ran
          exact ⟨fun _ => Or.inl (Kept.of_eq rfl), trivial, fun child born => by cases born⟩
      | _ => cases ran
  | host =>
      cases action with
      | remount name mounts =>
          cases ran
          exact ⟨fun other => Or.inl (base.setMounts_kept name other mounts), trivial,
            fun child born => by cases born⟩
      | _ => cases ran

/-- The condition on each move: locks on the files their paths lead to, and no hurry. -/
def Guarded (base : Base Entry) (others : List Proc) (proc : Proc) (action : Act Entry) : Prop :=
  Current base others proc action ∧ Spared base others proc action

/-- Before its first operation. -/
def Proc.Fresh : Proc → Prop
  | .launch _ stage => stage = .starting
  | .join _ stage => stage = .starting
  | .server _ _ => False
  | .sweep stage => stage = .listing []
  | .clock | .host => True

omit [DecidableEq Entry] in
theorem Proc.Fresh.idle (fresh : proc.Fresh) : held proc = [] ∧ proc.holds = none ∧
    proc.claimed = none ∧ proc.unguarded = none := by
  cases proc with
  | launch name stage =>
      rw [Proc.Fresh] at fresh
      rw [fresh]
      exact ⟨rfl, rfl, rfl, rfl⟩
  | join build stage =>
      rw [Proc.Fresh] at fresh
      rw [fresh]
      exact ⟨rfl, rfl, rfl, rfl⟩
  | server build stage => exact fresh.elim
  | sweep stage =>
      rw [Proc.Fresh] at fresh
      rw [fresh]
      exact ⟨rfl, rfl, rfl, rfl⟩
  | clock | host => exact ⟨rfl, rfl, rfl, rfl⟩

omit [DecidableEq Entry] in
theorem coherent_fresh {procs : List Proc} (fresh : ∀ proc ∈ procs, proc.Fresh) :
    Coherent (fun _ => True ∧ True) (fun base proc => Named base proc ∧ True)
      (fun proc other => LocksApart proc other ∧ ClaimsApart proc other) ⟨base, procs⟩ where
  common := ⟨trivial, trivial⟩
  own proc member := by
    refine ⟨fun name inode holds => ?_, trivial⟩
    rw [(fresh proc member).idle.2.1] at holds
    cases holds
  apart := by
    apply List.pairwise_of_forall_mem_list
    intro proc member other also
    rcases (fresh proc member).idle with ⟨nothing, _, _, guarded⟩
    have guarded' := (fresh other also).idle.2.2.2
    refine ⟨?_, ?_, ?_⟩
    · intro claim taken
      rw [nothing] at taken
      cases taken
    · intro name unguarded
      rw [guarded] at unguarded
      cases unguarded
    · intro name unguarded
      rw [guarded'] at unguarded
      cases unguarded

theorem program_plain :
    Keeps (@program Entry _) (fun base others proc action =>
        (Current base others proc action ∧ Spared base others proc action) ∧ True)
      (fun _ => (True ∧ True) ∧ True) (fun base proc => (Named base proc ∧ True) ∧ proc.Plain)
      (fun proc other => (LocksApart proc other ∧ ClaimsApart proc other) ∧ True) := by
  apply program_spared.extend
  · exact fun _ _ _ => trivial
  · intro base others proc action turn _ _ _ plain beside _ ran
    have removes := program_removes plain ran
    refine ⟨trivial, removes.plain.1, fun other member => ⟨(beside other member).1.2, trivial⟩,
      fun child born => ⟨removes.plain.2 child born, trivial, fun _ _ => trivial⟩, ?_⟩
    exact List.pairwise_of_forall fun _ _ => trivial

/-- Whatever launches and sweeps do beside each other, and wherever they are killed: a directory
that is claimed keeps all it has. -/
theorem claimed_kept {base : Base Entry} {procs : List Proc} {moves : List (Nat × Act Entry)}
    {final : System (Base Entry) Proc} (fresh : ∀ proc ∈ procs, proc.Fresh ∧ proc.Plain)
    (guarded : System.Meets program Guarded ⟨base, procs⟩ moves)
    (ran : System.run program ⟨base, procs⟩ moves = some final) :
    ∀ index action next, final.move program index action = some next → ∀ proc ∈ final.procs,
      ∀ name, proc.claimed = some name →
        Kept (final.shared.slots name).dir (next.shared.slots name).dir := by
  intro index action next moved claimer member name claimed
  have start : Coherent _ _ _ ⟨base, procs⟩ :=
    coherent_fresh fun proc member => (fresh proc member).1
  have coherent := program_plain.run
    ⟨⟨start.common, trivial⟩, fun proc member => ⟨start.own proc member, (fresh proc member).2⟩,
      start.apart.imp fun apart => ⟨apart, trivial⟩⟩
    (guarded.mono fun _ _ _ _ both => ⟨both, trivial⟩) ran
  rcases System.move_eq_some.mp moved with ⟨proc, turn, found, turned, rfl⟩
  rcases coherent.beside (@program_plain Entry _).symm found with ⟨⟨⟨named, _⟩, plain⟩, beside, _⟩
  rcases (program_removes plain turned).dirs name with kept | unguarded | ⟨inode, holds, exclusive⟩
  · exact kept
  all_goals exfalso
  all_goals rcases List.mem_cons.mp ((System.perm_beside found).symm.subset member) with here | there
  · rw [here] at claimed
    exact unguarded_unclaimed unguarded claimed
  · exact (beside claimer there).2.1.2.spared name unguarded claimed
  · rw [here] at claimed
    exact exclusive_unclaimed plain exclusive claimed
  · rcases beside claimer there with ⟨⟨⟨theirs, _⟩, _⟩, ⟨locks, _⟩, _⟩
    exact exclusive_alone (named name inode holds) exclusive locks theirs claimed

end

/-! ### An old lock file without a directory -/

namespace Orphan

def name : Name := "onelf-a".toList

def base : Base Unit :=
  ⟨fun _ => ⟨some ⟨0, 0⟩, none, []⟩, RECLAIM_GRACE_SECS, 1⟩

def procs : List Proc :=
  [.launch name .starting, .sweep (.listing []), .launch name .starting]

/-- The sweep unlinks the file between the launch's open and its lock, so the second launch locks
another one. -/
def moves : List (Nat × Act Unit) :=
  [(0, .next), (1, .see (.lock name)), (1, .pick (.lock name)), (1, .next), (1, .next), (1, .next),
    (1, .next), (1, .next), (1, .next), (0, .next), (0, .next), (2, .next), (2, .next), (2, .next),
    (2, .next), (2, .next), (2, .next)]

/-- The launch is there before the sweep. -/
def before : List (Nat × Act Unit) :=
  [(0, .next), (0, .next), (0, .next)]

theorem procs_fresh : ∀ proc ∈ procs, proc.Fresh ∧ proc.Plain := by
  simp [procs, Proc.Fresh, Proc.Plain]

theorem before_guarded : System.Meets program Guarded ⟨base, procs⟩ before := by
  iterate 3
    constructor
    · intro proc found
      cases found
      refine ⟨fun name inode mode asks _ _ => ?_, fun name inode asks _ _ other member => ?_,
        fun _ _ same => by cases same⟩
      · cases asks <;> rfl
      · rcases List.mem_cons.mp member with rfl | member
        · intro unguarded
          cases unguarded
        · cases List.mem_singleton.mp member
          intro unguarded
          cases unguarded
    intro next moved
    cases moved
  exact trivial

end Orphan

/-- A launch that opened an old lock file keeps its claim on an unlinked one, and another launch
that leaves removes its directory. -/
theorem claimed_not_kept :
    ¬ ∀ (base : Base Unit) (procs : List Proc) (moves : List (Nat × Act Unit))
      (final : System (Base Unit) Proc), (∀ proc ∈ procs, proc.Fresh ∧ proc.Plain) →
        System.run program ⟨base, procs⟩ moves = some final →
          ∀ index action next, final.move program index action = some next →
            ∀ proc ∈ final.procs, ∀ name, proc.claimed = some name →
              Kept (final.shared.slots name).dir (next.shared.slots name).dir := by
  intro kept
  have reached := kept Orphan.base Orphan.procs Orphan.moves _ Orphan.procs_fresh rfl
  have claims := reached 2 .next _ rfl
  rcases claims _ List.mem_cons_self Orphan.name rfl _ rfl with ⟨dir, found, _⟩
  cases found

theorem claimed_kept_before :
    ∃ final next : System (Base Unit) Proc,
      System.run program ⟨Orphan.base, Orphan.procs⟩ Orphan.before = some final ∧
      final.move program 1 (.see (.lock Orphan.name)) = some next ∧
      Kept (final.shared.slots Orphan.name).dir (next.shared.slots Orphan.name).dir :=
  ⟨_, _, rfl, rfl, claimed_kept Orphan.procs_fresh Orphan.before_guarded rfl 1
    (.see (.lock Orphan.name)) _ rfl _ List.mem_cons_self Orphan.name rfl⟩

end Onelf.Runtime.Mountpoints
