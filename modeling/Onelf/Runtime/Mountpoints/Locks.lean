import Onelf.Runtime.Mountpoints.Directory

/-! Locks that are taken on the file their path leads to stay there. -/

namespace Onelf.Runtime.Mountpoints

open Onelf.Lib

section
variable {Entry : Type}

namespace Base

variable (base : Base Entry) (name other : Name)

@[simp] theorem lockInode_setMounts (mounts : List Mount) :
    (base.setMounts name mounts).lockInode other = base.lockInode other := by
  by_cases here : other = name
  · simp [lockInode, setMounts, here]
  · simp [lockInode, setMounts, here]

@[simp] theorem lockInode_setAnswer (number : Nat) (answer : Answer) :
    (base.setAnswer name number answer).lockInode other = base.lockInode other :=
  base.lockInode_setMounts name other _

@[simp] theorem lockInode_unmount : (base.unmount name).lockInode other = base.lockInode other :=
  base.lockInode_setMounts name other _

@[simp] theorem lockInode_createDir : (base.createDir name).lockInode other = base.lockInode other := by
  by_cases here : other = name
  · simp [lockInode, createDir, here]
  · simp [lockInode, createDir, here]

@[simp] theorem lockInode_removeDir : (base.removeDir name).lockInode other = base.lockInode other := by
  by_cases here : other = name
  · unfold removeDir
    split <;> simp [lockInode, here]
  · unfold removeDir
    split <;> simp [lockInode, here]

@[simp] theorem lockInode_addEntry (entry : Entry) :
    (base.addEntry name entry).lockInode other = base.lockInode other := by
  by_cases here : other = name
  · simp [lockInode, addEntry, here]
  · simp [lockInode, addEntry, here]

@[simp] theorem lockInode_removeEntry [DecidableEq Entry] (entry : Entry) :
    (base.removeEntry name entry).lockInode other = base.lockInode other := by
  by_cases here : other = name
  · unfold removeEntry
    split <;> simp [lockInode, here]
  · unfold removeEntry
    split <;> simp [lockInode, here]

/-- Opening a lock file makes one where there was none, and moves none. -/
theorem lockInode_openLock : (base.openLock name).1.lockInode other = base.lockInode other ∨
    base.lockInode other = none := by
  cases found : (base.slots name).lock with
  | some lock => exact Or.inl (by simp [openLock, found])
  | none =>
      by_cases here : other = name
      · exact Or.inr (by simp [lockInode, here, found])
      · exact Or.inl (by simp [openLock, found, lockInode, setSlot, here])

end Base

/-! ### What a process holds and asks for -/

/-- The claim lock a process relies on, by directory and inode. -/
@[simp] def Proc.holds : Proc → Option (Name × Nat)
  | .launch name (.locked inode) | .launch name (.running inode) | .launch name (.inherited inode)
  | .launch name (.removing inode) => some (name, inode)
  | .join build stage => stage.claim?.map (setDir build, ·)
  | .server build (.probed _ inode) => some (setDir build, inode)
  | .sweep (.mounts _ name (some inode)) | .sweep (.answers _ name (some inode))
  | .sweep (.unmounting _ name (some inode)) | .sweep (.clearing _ name (some inode))
  | .sweep (.unlinking _ name inode) => some (name, inode)
  | _ => none

/-- The claim lock a process tries next. -/
@[simp] def Proc.asks : Proc → Option (Name × Nat × LockMode)
  | .launch name (.opened inode) => some (name, inode, .shared)
  | .launch name (.reopened inode) => some (name, inode, .exclusive)
  | .join build (.opened inode) => some (setDir build, inode, .shared)
  | .server build (.probing _ _ inode) => some (setDir build, inode, .exclusive)
  | .sweep (.probing _ name inode) => some (name, inode, .exclusive)
  | .sweep (.orphanProbing _ name inode) => some (name, inode, .exclusive)
  | _ => none

/-- A lock that is granted is on the file its path still leads to. -/
def Current (base : Base Entry) (others : List Proc) (proc : Proc) (action : Act Entry) : Prop :=
  ∀ name inode mode, proc.asks = some (name, inode, mode) → action = .next →
    grantable held others ⟨.claim inode, mode⟩ = true → base.lockInode name = some inode

/-- The lock a process relies on is on the file its path leads to. -/
def Named (base : Base Entry) (proc : Proc) : Prop :=
  ∀ name inode, proc.holds = some (name, inode) → base.lockInode name = some inode

def LocksApart (proc other : Proc) : Prop :=
  Compatible (held proc) (held other)

/-- What a turn does to the locks. -/
structure Locked (grants : Claim LockKey → Bool) (base : Base Entry) (proc : Proc)
    (action : Act Entry) (turn : Turn (Base Entry) Proc) : Prop where
  taken : held turn.proc ⊆ held proc ∨
    ∃ claim, grants claim = true ∧ held turn.proc ⊆ claim :: held proc
  holds : ∀ name inode, turn.proc.holds = some (name, inode) → proc.holds = some (name, inode) ∨
    action = .next ∧ ∃ mode, proc.asks = some (name, inode, mode) ∧
      grants ⟨.claim inode, mode⟩ = true
  files : ∀ name, turn.shared.lockInode name = base.lockInode name ∨
    base.lockInode name = none ∨ ∃ inode, proc.holds = some (name, inode) ∧
      ⟨.claim inode, .exclusive⟩ ∈ held proc ∧ turn.proc.holds = none
  children : ∀ child ∈ turn.spawned, held child = [] ∧ child.holds = none ∨
    (∃ inode, held child = [⟨.claim inode, .shared⟩]) ∧ held turn.proc = held child ∧
      held proc = held child ∧ child.holds = turn.proc.holds
  few : turn.spawned.length ≤ 1

theorem Locked.still {grants : Claim LockKey → Bool} {base after : Base Entry} {proc later : Proc}
    {action : Act Entry} (files : ∀ name, after.lockInode name = base.lockInode name)
    (taken : held later ⊆ held proc ∨
      ∃ claim, grants claim = true ∧ held later ⊆ claim :: held proc)
    (holds : later.holds = proc.holds ∨ later.holds = none) :
    Locked grants base proc action ⟨after, later, []⟩ where
  taken := taken
  holds name inode same := by
    rcases holds with kept | dropped
    · exact Or.inl (kept ▸ same)
    · rw [dropped] at same
      cases same
  files name := Or.inl (files name)
  children _ member := by cases member
  few := Nat.zero_le 1

theorem Locked.grant {grants : Claim LockKey → Bool} {base : Base Entry} {proc later : Proc}
    {name : Name} {inode : Nat} {mode : LockMode} (asks : proc.asks = some (name, inode, mode))
    (granted : grants ⟨.claim inode, mode⟩ = true)
    (taken : held later ⊆ ⟨.claim inode, mode⟩ :: held proc)
    (holds : later.holds = some (name, inode)) :
    Locked grants base proc .next ⟨base, later, []⟩ where
  taken := Or.inr ⟨_, granted, taken⟩
  holds other inode' same := by
    rw [holds] at same
    cases same
    exact Or.inr ⟨rfl, mode, asks, granted⟩
  files _ := Or.inl rfl
  children _ member := by cases member
  few := Nat.zero_le 1

variable {base : Base Entry} {grants : Claim LockKey → Bool} {action : Act Entry}

theorem Locked.opens {name : Name} {proc later : Proc} (taken : held later ⊆ held proc)
    (holds : later.holds = none) :
    Locked grants base proc action ⟨(base.openLock name).1, later, []⟩ where
  taken := Or.inl taken
  holds other inode same := by
    rw [holds] at same
    cases same
  files other := (base.lockInode_openLock name other).imp_right Or.inl
  children _ member := by cases member
  few := Nat.zero_le 1

theorem Locked.forks {inode : Nat} {proc later child : Proc}
    (mine : held later = [⟨.claim inode, .shared⟩]) (before : held proc = held later)
    (same : proc.holds = later.holds) (theirs : held child = held later)
    (also : child.holds = later.holds) :
    Locked grants base proc action ⟨base, later, [child]⟩ where
  taken := Or.inl (before ▸ List.Subset.refl _)
  holds name number found := Or.inl (same ▸ found)
  files _ := Or.inl rfl
  children other member := by
    cases List.mem_singleton.mp member
    exact Or.inr ⟨⟨inode, theirs.trans mine⟩, theirs.symm, before.trans theirs.symm, also⟩
  few := Nat.le_refl 1

theorem launchTurn_locked {name : Name} {stage : Launch}
    {turn : Base Entry × Launch × List Launch}
    (ran : launchTurn base grants name stage action = some turn) :
    Locked grants base (.launch name stage) action
      ⟨turn.1, .launch name turn.2.1, turn.2.2.map (.launch name)⟩ := by
  fun_cases launchTurn base grants name stage action
  all_goals simp only [launchTurn, *, reduceCtorEq, Option.some.injEq, if_true, if_false,
    Bool.false_eq_true] at ran
  all_goals cases ran
  case case1 => exact .opens (List.Subset.refl _) rfl
  case case2 granted => exact .grant rfl granted (by simp [held, Launch.claims]) rfl
  case case6 | case8 => exact .forks rfl rfl rfl rfl rfl
  case case11 =>
    split
    · next granted => exact .grant rfl granted (by simp [held, Launch.claims]) rfl
    · exact .still (fun _ => rfl) (Or.inl (by simp [held, Launch.claims])) (Or.inr rfl)
  case case10 =>
    split <;> exact .still (fun _ => rfl) (Or.inl (by simp [held, Launch.claims])) (Or.inr rfl)
  all_goals exact .still (by simp) (Or.inl (by simp [held, Launch.claims])) (by simp)

theorem untested_held (build : List Char) (inode : Nat) (test : Test) :
    held (.join build (Join.untested inode test)) ⊆ held (.join build (.testing inode test)) := by
  cases test <;> exact List.Subset.refl _

theorem untested_holds (build : List Char) (inode : Nat) (test : Test) :
    (Proc.join build (Join.untested inode test)).holds =
      (Proc.join build (.testing inode test)).holds := by
  cases test <;> rfl

theorem joinTurn_locked {build : List Char} {stage : Join} {turn : Base Entry × Join × List Proc}
    (ran : joinTurn base grants build stage action = some turn) :
    Locked grants base (.join build stage) action ⟨turn.1, .join build turn.2.1, turn.2.2⟩ := by
  fun_cases joinTurn base grants build stage action
  all_goals simp only [joinTurn, *, reduceCtorEq, Option.some.injEq, if_true, if_false,
    Bool.false_eq_true] at ran
  all_goals cases ran
  case case1 => exact .opens (by simp [held, Join.claims]) rfl
  case case2 granted => exact .grant rfl granted (by simp [held, Join.claims]) rfl
  case case5 inode test =>
    split
    · exact .still (fun _ => rfl) (Or.inl (untested_held build inode test))
        (Or.inl (untested_holds build inode test))
    · exact .still (fun _ => rfl) (Or.inl (List.Subset.refl _)) (Or.inl rfl)
  case case9 inode test _ _ _ _ =>
    exact .still (fun _ => rfl) (Or.inl (untested_held build inode test))
      (Or.inl (untested_holds build inode test))
  case case10 inode granted =>
    exact .still (fun _ => rfl) (Or.inr ⟨_, granted, by simp [held, Join.claims]⟩) (Or.inl rfl)
  case case13 =>
    constructor
    · exact Or.inl (List.Subset.refl _)
    · exact fun _ _ same => Or.inl same
    · exact fun _ => Or.inl rfl
    · intro child member
      cases List.mem_singleton.mp member
      exact Or.inl ⟨rfl, rfl⟩
    · exact Nat.le_refl 1
  case case14 => exact .forks rfl rfl rfl rfl rfl
  all_goals exact .still (by simp) (Or.inl (by simp [held, Join.claims])) (by simp)

theorem serverTurn_locked {build : List Char} {stage : Server} {turn : Base Entry × Server}
    (ran : serverTurn base grants build stage action = some turn) :
    Locked grants base (.server build stage) action ⟨turn.1, .server build turn.2, []⟩ := by
  fun_cases serverTurn base grants build stage action
  all_goals simp only [serverTurn, *, reduceCtorEq, Option.some.injEq, if_true, if_false,
    Bool.false_eq_true] at ran
  all_goals cases ran
  case case1 =>
    exact .still (fun name => base.lockInode_setMounts (setDir build) name _)
      (Or.inl (List.nil_subset _)) (Or.inr rfl)
  case case7 =>
    split
    · exact .still (fun _ => rfl) (Or.inl (List.nil_subset _)) (Or.inr rfl)
    · split <;> exact .still (fun _ => rfl) (Or.inl (List.nil_subset _)) (Or.inr rfl)
  case case8 =>
    split
    · next granted => exact .grant rfl granted (List.Subset.refl _) rfl
    · exact .still (fun _ => rfl) (Or.inl (List.nil_subset _)) (Or.inr rfl)
  case case11 =>
    split
    · next granted =>
        exact .still (fun _ => rfl) (Or.inr ⟨_, granted, List.Subset.refl _⟩) (Or.inr rfl)
    · exact .still (fun _ => rfl) (Or.inl (List.nil_subset _)) (Or.inr rfl)
  all_goals exact .still (by simp) (Or.inl (List.nil_subset _)) (Or.inr rfl)

theorem sweepTurn_locked [DecidableEq Entry] {stage : Sweep} {turn : Base Entry × Sweep}
    (ran : sweepTurn base grants stage action = some turn) :
    Locked grants base (.sweep stage) action ⟨turn.1, .sweep turn.2, []⟩ := by
  fun_cases sweepTurn base grants stage action
  all_goals simp only [sweepTurn, *, reduceCtorEq, Option.some.injEq, if_true, if_false,
    Bool.false_eq_true] at ran
  all_goals cases ran
  case case7 | case22 =>
    split
    · next granted => exact .grant rfl granted (List.Subset.refl _) rfl
    · exact .still (fun _ => rfl) (Or.inl (List.nil_subset _)) (Or.inr rfl)
  case case3 | case5 | case8 | case9 | case17 | case20 | case21 =>
    split <;> exact .still (fun _ => rfl) (Or.inl (List.nil_subset _)) (Or.inr rfl)
  case case12 seen name lock | case13 seen name lock =>
    cases lock <;> split <;>
      exact .still (fun _ => rfl) (Or.inl (by simp [held, Sweep.claims])) (by simp)
  case case14 seen name lock =>
    cases lock <;> exact .still (by simp) (Or.inl (List.Subset.refl _)) (Or.inl rfl)
  case case15 => exact .still (by simp) (Or.inl (List.Subset.refl _)) (Or.inl rfl)
  case case23 seen name inode =>
    constructor
    · exact Or.inl (by simp [held, Sweep.claims])
    · intro other number same
      cases same
    · intro other
      by_cases here : other = name
      · exact Or.inr (Or.inr ⟨inode, by rw [here]; rfl, List.mem_cons_self, rfl⟩)
      · exact Or.inl (by simp [Base.lockInode, here])
    · intro child member
      cases member
    · exact Nat.zero_le 1
  all_goals exact .still (by simp) (Or.inl (by simp [held, Sweep.claims])) (by simp)

variable [DecidableEq Entry] {others : List Proc} {proc : Proc} {turn : Turn (Base Entry) Proc}

theorem program_locked (ran : program base others proc action = some turn) :
    Locked (grantable held others) base proc action turn := by
  cases proc with
  | launch name stage =>
      rcases Option.map_eq_some_iff.mp ran with ⟨moved, moves, rfl⟩
      exact launchTurn_locked moves
  | join build stage =>
      rcases Option.map_eq_some_iff.mp ran with ⟨moved, moves, rfl⟩
      exact joinTurn_locked moves
  | server build stage =>
      rcases Option.map_eq_some_iff.mp ran with ⟨moved, moves, rfl⟩
      exact serverTurn_locked moves
  | sweep stage =>
      rcases Option.map_eq_some_iff.mp ran with ⟨moved, moves, rfl⟩
      exact sweepTurn_locked moves
  | clock =>
      cases action with
      | wait seconds =>
          cases ran
          exact .still (fun _ => rfl) (Or.inl (List.nil_subset _)) (Or.inr rfl)
      | _ => cases ran
  | host =>
      cases action with
      | remount name mounts =>
          cases ran
          exact .still (fun other => base.lockInode_setMounts name other mounts)
            (Or.inl (List.nil_subset _)) (Or.inr rfl)
      | _ => cases ran

omit [DecidableEq Entry] in
/-- The lock a process relies on is one it holds. -/
theorem holds_held {name : Name} {inode : Nat} (holds : proc.holds = some (name, inode)) :
    ∃ mode, ⟨.claim inode, mode⟩ ∈ held proc := by
  cases proc with
  | launch there stage => cases stage <;> simp_all [held, Launch.claims]
  | join build stage => cases stage <;> simp_all [held, Join.claims]
  | server build stage => cases stage <;> simp_all [held, Server.claims]
  | sweep stage =>
      cases stage with
      | mounts _ _ lock | answers _ _ lock | unmounting _ _ lock | clearing _ _ lock =>
          cases lock <;> simp_all [held, Sweep.claims]
      | _ => simp_all [held, Sweep.claims]
  | clock | host => cases holds

theorem shared_compatible {κ : Type} [DecidableEq κ] (file : κ) :
    Compatible [⟨file, LockMode.shared⟩] [⟨file, LockMode.shared⟩] := by
  intro claim member other also
  cases List.mem_singleton.mp member
  cases List.mem_singleton.mp also
  simp [Claim.conflicts]

/-- While every lock is granted on the file its path leads to, every lock stays on such a file. -/
theorem program_locks : Keeps (@program Entry _) Current (fun _ => True) Named LocksApart where
  symm _ _ := Compatible.symm
  step := by
    intro base others proc action turn _ named beside current ran
    have locked := program_locked ran
    have stays : ∀ name inode, base.lockInode name = some inode → turn.proc.holds = none ∨
        turn.shared.lockInode name = some inode := by
      intro name inode found
      rcases locked.files name with same | missing | ⟨_, _, _, dropped⟩
      · exact Or.inr (same.trans found)
      · rw [missing] at found
        cases found
      · exact Or.inl dropped
    have self : Named turn.shared turn.proc := by
      intro name inode holds
      have found : base.lockInode name = some inode := by
        rcases locked.holds name inode holds with before | ⟨next, mode, asks, granted⟩
        · exact named name inode before
        · exact current name inode mode asks next granted
      refine (stays name inode found).resolve_left fun dropped => ?_
      rw [dropped] at holds
      cases holds
    refine ⟨trivial, self, ?_, ?_, ?_⟩
    · intro other member
      rcases beside other member with ⟨also, apart⟩
      constructor
      · intro name inode holds
        have found := also name inode holds
        rcases locked.files name with same | missing | ⟨number, mine, exclusive, _⟩
        · exact same.trans found
        · rw [missing] at found
          cases found
        · exfalso
          have same : number = inode := Option.some.inj ((named name number mine).symm.trans found)
          rw [same] at exclusive
          rcases holds_held holds with ⟨mode, taken⟩
          exact apart.exclusive exclusive taken
      · rcases locked.taken with fewer | ⟨claim, granted, more⟩
        · exact apart.fewer fewer
        · exact apart.granted granted member more
    · intro child born
      rcases locked.children child born with ⟨nothing, holds⟩ | ⟨⟨inode, shared⟩, same, before, also⟩
      · refine ⟨?_, ?_, ?_⟩
        · intro name inode found
          rw [holds] at found
          cases found
        · intro claim member other theirs
          rw [nothing] at theirs
          cases theirs
        · intro other _ claim member taken theirs
          rw [nothing] at theirs
          cases theirs
      · refine ⟨?_, ?_, ?_⟩
        · intro name inode found
          exact self name inode (also ▸ found)
        · rw [LocksApart, same, shared]
          exact shared_compatible _
        · intro other member
          rw [LocksApart, ← before]
          exact (beside other member).2.symm
    · have few := locked.few
      cases born : turn.spawned with
      | nil => exact List.Pairwise.nil
      | cons child rest =>
          have alone : rest = [] := by
            simpa [born] using few
          rw [alone]
          exact List.pairwise_singleton _ _

end

end Onelf.Runtime.Mountpoints
