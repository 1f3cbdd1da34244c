import Onelf.Runtime.Mountpoints.Claimed

/-! The mount of a dependency set stays up under the launches that joined it. -/

namespace Onelf.Runtime.Mountpoints

open Onelf.Lib

section
variable {Entry : Type}

/-! ### Mounts -/

namespace Base

def mounts (base : Base Entry) (name : Name) : List Mount :=
  (base.slots name).mounts

variable (base : Base Entry) (name : Name)

theorem mounts_setSlot {slot : Slot Entry} (same : slot.mounts = base.mounts name) :
    (base.setSlot name slot).mounts = base.mounts := by
  funext other
  by_cases here : other = name
  · rw [here, mounts, setSlot_self, same]
  · rw [mounts, setSlot_other base here, mounts]

@[simp] theorem mounts_setMounts (mounts : List Mount) :
    (base.setMounts name mounts).mounts = Function.update base.mounts name mounts := by
  funext other
  by_cases here : other = name
  · simp [Base.mounts, setMounts, here]
  · simp [Base.mounts, setMounts, here]

theorem mounts_setAnswer {number : Nat} {build : List Char} {answer later : Answer}
    (there : base.mounts name = [⟨number, build, answer⟩]) :
    (base.setAnswer name number later).mounts =
      Function.update base.mounts name [⟨number, build, later⟩] := by
  have there : (base.slots name).mounts = [⟨number, build, answer⟩] := there
  rw [setAnswer, mounts_setMounts, there, List.map_cons, List.map_nil, if_pos rfl]

theorem mounts_unmount :
    (base.unmount name).mounts = Function.update base.mounts name (base.mounts name).tail :=
  base.mounts_setMounts name _

theorem mounts_openLock : (base.openLock name).1.mounts = base.mounts := by
  unfold openLock
  split
  · rfl
  · exact base.mounts_setSlot name rfl

theorem mounts_removeDir : (base.removeDir name).mounts = base.mounts := by
  unfold removeDir
  split
  · exact base.mounts_setSlot name rfl
  · rfl

theorem mounts_removeEntry [DecidableEq Entry] (entry : Entry) :
    (base.removeEntry name entry).mounts = base.mounts := by
  unfold removeEntry
  split
  · exact base.mounts_setSlot name rfl
  · rfl

end Base

/-! ### What holds of each process -/

namespace Server

/-- What is mounted where a server stands. -/
def Mounted (build : List Char) (mounts : List Mount) : Server → Prop
  | starting | closed none => mounts = []
  | mounted mount | loaded mount => mounts = [⟨mount, build, .waits⟩]
  | serving mount _ | probing mount _ _ | probed mount _ | missing mount _ | leaving mount _ =>
      mounts = [⟨mount, build, .answers⟩]
  | closed (some mount) => mounts = [] ∨ mounts = [⟨mount, build, .dead⟩]
  | unmounted | gone => True

end Server

/-- What is mounted where a launch stands. -/
def Join.Mounted (build : List Char) (mounts : List Mount) : Join → Prop
  | .listed _ _ => ∃ number answer, mounts = [⟨number, build, answer⟩]
  | .joined _ => ∃ number, mounts = [⟨number, build, .answers⟩]
  | _ => True

/-- A sweep unmounts what no server serves. -/
def Sweep.Mounted (mounts : Name → List Mount) : Sweep → Prop
  | .unmounting _ name _ => ∀ mount ∈ mounts name, mount.answer = .dead
  | _ => True

def Served (known : List Char → Prop) (mounts : Name → List Mount) : Proc → Prop
  | .launch _ _ | .clock => True
  | .join build stage => known build ∧ stage.Mounted build (mounts (setDir build))
  | .server build stage => known build ∧ stage.Mounted build (mounts (setDir build))
  | .sweep stage => stage.Mounted mounts
  | .host => False

/-- One mount at most on each directory, of a build that belongs there. -/
def Single (known : List Char → Prop) (mounts : Name → List Mount) : Prop :=
  ∀ name, mounts name = [] ∨ ∃ mount, mounts name = [mount] ∧ known mount.build ∧
    setDir mount.build = name

/-- The directory a server that has yet to unmount is at. -/
@[simp] def Proc.serves : Proc → Option Name
  | .server _ .unmounted | .server _ .gone => none
  | .server build _ => some (setDir build)
  | _ => none

@[simp] def Proc.starts : Proc → Option Name
  | .server build .starting => some (setDir build)
  | _ => none

/-- The directory a server is about to unmount. -/
@[simp] def Proc.leaves : Proc → Option Name
  | .server build (.leaving _ _) | .server build (.closed _) => some (setDir build)
  | _ => none

/-- The directory a launch has seen a mount on. -/
@[simp] def Proc.lists : Proc → Option Name
  | .join build (.listed _ _) | .join build (.joined _) => some (setDir build)
  | _ => none

theorem lists_claimed {proc : Proc} {name : Name} (lists : proc.lists = some name) :
    proc.claimed = some name := by
  cases proc with
  | join build stage => cases stage <;> simp_all
  | _ => cases lists

@[simp] def Proc.unmounts : Proc → Option Name
  | .sweep (.unmounting _ name _) => some name
  | _ => none

structure MountsApart (proc other : Proc) : Prop where
  serves : ∀ name, proc.serves = some name → other.serves ≠ some name
  leaves : ∀ name, proc.leaves = some name → other.lists ≠ some name
  lists : ∀ name, proc.lists = some name → other.leaves ≠ some name
  unmounts : ∀ name, proc.unmounts = some name → other.starts ≠ some name
  starts : ∀ name, proc.starts = some name → other.unmounts ≠ some name

theorem MountsApart.symm {proc other : Proc} (apart : MountsApart proc other) :
    MountsApart other proc where
  serves name theirs mine := apart.serves name mine theirs
  leaves name theirs mine := apart.lists name mine theirs
  lists name theirs mine := apart.leaves name mine theirs
  unmounts name theirs mine := apart.starts name mine theirs
  starts name theirs mine := apart.unmounts name mine theirs

/-- The condition on each move, for the mounts. -/
structure Unhurried (base : Base Entry) (others : List Proc) (proc : Proc) (action : Act Entry) :
    Prop where
  /-- A server is started where nothing is mounted and no other has yet to unmount. -/
  forks : ∀ build inode held, proc = .join build (.forking inode held) → action = .next →
    base.mounts (setDir build) = [] ∧ ∀ other ∈ others, other.serves ≠ some (setDir build)
  /-- No mount is found whose server has begun to leave. -/
  lists : ∀ build inode test, proc = .join build (.testing inode test) → action = .next →
    base.mounts (setDir build) ≠ [] → ∀ other ∈ others, other.leaves ≠ some (setDir build)
  /-- A server that found no lock file leaves while there is none. -/
  missing : ∀ build mount original, proc = .server build (.missing mount original) →
    action = .next →
    (∀ inode, original = some inode →
      grantable held others ⟨.claim inode, .exclusive⟩ = true) →
    base.lockInode (setDir build) = none
  /-- A server gives its mount up before anybody found it. -/
  fails : ∀ build mount, proc = .server build (.mounted mount) → action = .fail →
    ∀ other ∈ others, other.lists ≠ some (setDir build)

/-- Who is not concerned with a directory does not see its mounts change. -/
theorem Served.frame {known : List Char → Prop} {mounts after : Name → List Mount} {proc : Proc}
    {name : Name} (served : Served known mounts proc)
    (elsewhere : ∀ other, other ≠ name → after other = mounts other)
    (lists : proc.lists ≠ some name) (serves : proc.serves ≠ some name)
    (unmounts : proc.unmounts ≠ some name) : Served known after proc := by
  cases proc with
  | launch _ _ | clock => trivial
  | host => exact served
  | join build stage =>
      refine ⟨served.1, ?_⟩
      by_cases here : setDir build = name
      · cases stage with
        | listed _ _ | joined _ => exact absurd (congrArg some here) lists
        | _ => trivial
      · rw [elsewhere _ here]
        exact served.2
  | server build stage =>
      refine ⟨served.1, ?_⟩
      by_cases here : setDir build = name
      · cases stage with
        | unmounted | gone => trivial
        | _ => exact absurd (congrArg some here) serves
      · rw [elsewhere _ here]
        exact served.2
  | sweep stage =>
      cases stage with
      | unmounting seen there lock =>
          have apart : there ≠ name := fun here => unmounts (congrArg some here)
          rw [Served, Sweep.Mounted, elsewhere there apart]
          exact served
      | _ => trivial

variable {known : List Char → Prop} {mounts : Name → List Mount} {proc later other : Proc}
  {name : Name}

theorem Single.update {below : List Mount} (single : Single known mounts)
    (fits : below = [] ∨ ∃ mount, below = [mount] ∧ known mount.build ∧ setDir mount.build = name) :
    Single known (Function.update mounts name below) := by
  intro other
  by_cases here : other = name
  · rw [here, Function.update_self]
    exact fits
  · rw [Function.update_of_ne here]
    exact single other

/-- A launch that has seen a mount sees it still. -/
theorem Served.listed (served : Served known mounts proc) (lists : proc.lists = some name) :
    ∃ number build answer, mounts name = [⟨number, build, answer⟩] := by
  cases proc with
  | join build stage =>
      cases stage with
      | listed _ _ =>
          cases lists
          rcases served.2 with ⟨number, answer, there⟩
          exact ⟨number, build, answer, there⟩
      | joined _ =>
          cases lists
          rcases served.2 with ⟨number, there⟩
          exact ⟨number, build, .answers, there⟩
      | _ => cases lists
  | _ => cases lists

theorem Served.unmounting (served : Served known mounts proc) (unmounts : proc.unmounts = some name) :
    ∀ mount ∈ mounts name, mount.answer = .dead := by
  cases proc with
  | sweep stage =>
      cases stage with
      | unmounting seen there lock =>
          cases unmounts
          exact served
      | _ => cases unmounts
  | _ => cases unmounts

theorem Served.update {below : List Mount} (served : Served known mounts proc)
    (serves : proc.serves = some name → Served known (Function.update mounts name below) proc)
    (lists : proc.lists = some name → Served known (Function.update mounts name below) proc)
    (unmounts : proc.unmounts = some name → Served known (Function.update mounts name below) proc) :
    Served known (Function.update mounts name below) proc := by
  by_cases serving : proc.serves = some name
  · exact serves serving
  by_cases listing : proc.lists = some name
  · exact lists listing
  by_cases unmounting : proc.unmounts = some name
  · exact unmounts unmounting
  exact served.frame (fun _ apart => Function.update_of_ne apart _ _) listing serving unmounting

theorem Served.swept {below : List Mount} (unmounts : proc.unmounts = some name)
    (dead : ∀ mount ∈ below, mount.answer = .dead) :
    Served known (Function.update mounts name below) proc := by
  cases proc with
  | sweep stage =>
      cases stage with
      | unmounting seen there lock =>
          cases unmounts
          rw [Served, Sweep.Mounted, Function.update_self]
          exact dead
      | _ => cases unmounts
  | _ => cases unmounts

/-- A process that is at nothing of the kind goes with any other. -/
theorem MountsApart.of_none (serves : proc.serves = none) (leaves : proc.leaves = none)
    (lists : proc.lists = none) (unmounts : proc.unmounts = none) (starts : proc.starts = none) :
    MountsApart proc other where
  serves name same := absurd (serves.symm.trans same) (Option.some_ne_none name).symm
  leaves name same := absurd (leaves.symm.trans same) (Option.some_ne_none name).symm
  lists name same := absurd (lists.symm.trans same) (Option.some_ne_none name).symm
  unmounts name same := absurd (unmounts.symm.trans same) (Option.some_ne_none name).symm
  starts name same := absurd (starts.symm.trans same) (Option.some_ne_none name).symm

theorem MountsApart.turn (apart : MountsApart proc other)
    (serves : ∀ name, later.serves = some name → proc.serves = some name ∨
      other.serves ≠ some name)
    (leaves : ∀ name, later.leaves = some name → proc.leaves = some name ∨
      other.lists ≠ some name)
    (lists : ∀ name, later.lists = some name → proc.lists = some name ∨
      other.leaves ≠ some name)
    (unmounts : ∀ name, later.unmounts = some name → proc.unmounts = some name ∨
      other.starts ≠ some name)
    (starts : ∀ name, later.starts = some name → proc.starts = some name ∨
      other.unmounts ≠ some name) : MountsApart later other where
  serves name mine := (serves name mine).elim (apart.serves name) id
  leaves name mine := (leaves name mine).elim (apart.leaves name) id
  lists name mine := (lists name mine).elim (apart.lists name) id
  unmounts name mine := (unmounts name mine).elim (apart.unmounts name) id
  starts name mine := (starts name mine).elim (apart.starts name) id

/-! ### Turns -/

variable {base after : Base Entry} {others : List Proc} {action : Act Entry}

/-- What a process knows of those beside it. -/
def Beside (known : List Char → Prop) (base : Base Entry) (others : List Proc) (proc : Proc) : Prop :=
  ∀ other ∈ others, ((Named base other ∧ True) ∧ Served known base.mounts other) ∧
    ((LocksApart proc other ∧ ClaimsApart proc other) ∧ MountsApart proc other)

/-- What holds after a turn that started nobody. -/
structure Settled (known : List Char → Prop) (after : Base Entry) (others : List Proc)
    (later : Proc) : Prop where
  single : Single known after.mounts
  served : Served known after.mounts later
  others : ∀ other ∈ others, Served known after.mounts other ∧ MountsApart later other

theorem Settled.still (single : Single known base.mounts) (beside : Beside known base others proc)
    (same : after.mounts = base.mounts) (served : Served known base.mounts later)
    (apart : ∀ other ∈ others, MountsApart later other) : Settled known after others later where
  single := same ▸ single
  served := same ▸ served
  others other member := ⟨same ▸ (beside other member).1.2, apart other member⟩

/-- A server's turn starts nobody, and may have it leave where nobody found its mount. -/
theorem Beside.goes_on {build : List Char} {stage next : Server}
    (beside : Beside known base others (.server build stage))
    (serves : (Proc.server build stage).serves = some (setDir build))
    (leaves : (Proc.server build next).leaves = none ∨
      ∀ other ∈ others, other.lists ≠ some (setDir build))
    (starts : (Proc.server build next).starts = none) :
    ∀ other ∈ others, MountsApart (.server build next) other := by
  intro other member
  apply (beside other member).2.2.turn
  · intro name same
    left
    cases next <;> simp_all
  · intro name same
    right
    rcases leaves with none | unlisted
    · rw [none] at same
      cases same
    · have here : setDir build = name := by
        cases next <;> simp_all
      exact here ▸ unlisted other member
  · intro name same
    cases same
  · intro name same
    cases same
  · intro name same
    rw [starts] at same
    cases same

/-- A server changes what is mounted at its directory. -/
theorem Settled.server {build : List Char} {stage next : Server} {below : List Mount}
    (single : Single known base.mounts) (beside : Beside known base others (.server build stage))
    (serves : (Proc.server build stage).serves = some (setDir build))
    (changed : after.mounts = Function.update base.mounts (setDir build) below)
    (fits : below = [] ∨ ∃ mount, below = [mount] ∧ known mount.build ∧
      setDir mount.build = setDir build)
    (served : known build ∧ next.Mounted build below)
    (lists : ∀ other ∈ others, other.lists = some (setDir build) →
      Served known (Function.update base.mounts (setDir build) below) other)
    (unmounts : ∀ other ∈ others, other.unmounts = some (setDir build) →
      Served known (Function.update base.mounts (setDir build) below) other)
    (apart : ∀ other ∈ others, MountsApart (.server build next) other) :
    Settled known after others (.server build next) where
  single := changed ▸ single.update fits
  served := by
    rw [changed, Served, Function.update_self]
    exact served
  others other member := by
    rw [changed]
    refine ⟨(beside other member).1.2.update ?_ (lists other member) (unmounts other member),
      apart other member⟩
    intro theirs
    exact absurd theirs ((beside other member).2.2.serves _ serves)

theorem server_starting {build : List Char} {turn : Base Entry × Server}
    (single : Single known base.mounts) (served : Served known base.mounts (.server build .starting))
    (beside : Beside known base others (.server build .starting))
    (ran : serverTurn base (grantable held others) build .starting action = some turn) :
    Settled known turn.1 others (.server build turn.2) := by
  have empty : base.mounts (setDir build) = [] := served.2
  have unlisted : ∀ other ∈ others, other.lists ≠ some (setDir build) := by
    intro other member lists
    rcases (beside other member).1.2.listed lists with ⟨number, _, answer, there⟩
    rw [empty] at there
    cases there
  have fails : Settled known base others (.server build (.closed none)) :=
    .still single beside rfl ⟨served.1, empty⟩ (beside.goes_on rfl (Or.inr unlisted) rfl)
  cases action with
  | next =>
      have unmounted : (base.slots (setDir build)).mounts = [] := empty
      rw [serverTurn, unmounted] at ran
      split at ran
      · cases ran
        refine Settled.server single beside rfl
          (base.mounts_setMounts (setDir build) [⟨base.fresh, build, .waits⟩])
          (Or.inr ⟨_, rfl, served.1, rfl⟩) ⟨served.1, rfl⟩ ?_ ?_
          (beside.goes_on rfl (Or.inl rfl) rfl)
        · intro other member lists
          exact absurd lists (unlisted other member)
        · intro other member unmounts
          exact absurd unmounts ((beside other member).2.2.starts _ rfl)
      · cases ran
        exact fails
  | fail =>
      cases ran
      exact fails
  | _ => cases ran

/-- What a launch has found answers for good once its server serves it. -/
theorem server_answers {build : List Char} {mount : Nat} (single : Single known base.mounts)
    (served : Served known base.mounts (.server build (.loaded mount)))
    (beside : Beside known base others (.server build (.loaded mount))) :
    Settled known (base.setAnswer (setDir build) mount .answers) others
      (.server build (.serving mount (base.lockInode (setDir build)))) := by
  have there : base.mounts (setDir build) = [⟨mount, build, .waits⟩] := served.2
  refine Settled.server single beside rfl (base.mounts_setAnswer (setDir build) there)
    (Or.inr ⟨_, rfl, served.1, rfl⟩) ⟨served.1, rfl⟩ ?_ ?_ (beside.goes_on rfl (Or.inl rfl) rfl)
  · intro other member lists
    have served := (beside other member).1.2
    cases other with
    | join building stage =>
        refine ⟨served.1, ?_⟩
        cases stage with
        | listed _ _ =>
            have same : setDir building = setDir build := Option.some.inj lists
            rcases served.2 with ⟨number, answer, also⟩
            rw [same, there] at also
            cases also
            rw [same, Function.update_self]
            exact ⟨mount, .answers, rfl⟩
        | joined _ =>
            have same : setDir building = setDir build := Option.some.inj lists
            rcases served.2 with ⟨number, also⟩
            rw [same, there] at also
            cases also
        | _ => trivial
    | _ => cases lists
  · intro other member unmounts
    have dead := (beside other member).1.2.unmounting unmounts
    rw [there] at dead
    cases dead _ List.mem_cons_self

/-- A server lets go of a mount that nobody has found. -/
theorem server_closes {build : List Char} {stage : Server} {mount : Nat} {answer : Answer}
    (single : Single known base.mounts) (of_known : known build)
    (there : base.mounts (setDir build) = [⟨mount, build, answer⟩])
    (serves : (Proc.server build stage).serves = some (setDir build))
    (beside : Beside known base others (.server build stage))
    (unlisted : ∀ other ∈ others, other.lists ≠ some (setDir build)) :
    Settled known (base.setAnswer (setDir build) mount .dead) others
      (.server build (.closed (some mount))) := by
  refine Settled.server single beside serves (base.mounts_setAnswer (setDir build) there)
    (Or.inr ⟨_, rfl, of_known, rfl⟩) ⟨of_known, Or.inr rfl⟩ ?_ ?_
    (beside.goes_on serves (Or.inr unlisted) rfl)
  · intro other member lists
    exact absurd lists (unlisted other member)
  · intro other member unmounts
    apply Served.swept unmounts
    intro left member
    cases List.mem_singleton.mp member
    rfl

theorem server_unmounts {build : List Char} {mount : Option Nat} (single : Single known base.mounts)
    (served : Served known base.mounts (.server build (.closed mount)))
    (beside : Beside known base others (.server build (.closed mount))) :
    Settled known (base.unmount (setDir build)) others (.server build .unmounted) := by
  have nothing : (base.mounts (setDir build)).tail = [] := by
    cases mount with
    | none =>
        have empty : base.mounts (setDir build) = [] := served.2
        rw [empty, List.tail_nil]
    | some mount =>
        rcases (served.2 : _ ∨ _) with empty | own
        · rw [empty, List.tail_nil]
        · rw [own, List.tail_cons]
  have changed := base.mounts_unmount (setDir build)
  rw [nothing] at changed
  refine Settled.server single beside rfl changed (Or.inl rfl) ⟨served.1, trivial⟩ ?_ ?_
    (beside.goes_on rfl (Or.inl rfl) rfl)
  · intro other member lists
    exact absurd lists ((beside other member).2.2.leaves _ rfl)
  · intro other member unmounts
    apply Served.swept unmounts
    intro left member
    cases member

theorem server_settled {build : List Char} {stage : Server} {turn : Base Entry × Server}
    (single : Single known base.mounts) (named : Named base (.server build stage))
    (served : Served known base.mounts (.server build stage))
    (beside : Beside known base others (.server build stage))
    (unhurried : Unhurried base others (.server build stage) action)
    (ran : serverTurn base (grantable held others) build stage action = some turn) :
    Settled known turn.1 others (.server build turn.2) := by
  cases stage with
  | starting => exact server_starting single served beside ran
  | mounted mount =>
      cases action with
      | next =>
          cases ran
          exact .still single beside rfl served (beside.goes_on rfl (Or.inl rfl) rfl)
      | fail =>
          cases ran
          exact server_closes single served.1 served.2 rfl beside (unhurried.fails _ _ rfl rfl)
      | _ => cases ran
  | loaded mount =>
      cases action with
      | next =>
          cases ran
          exact server_answers single served beside
      | _ => cases ran
  | serving mount original =>
      cases action with
      | next =>
          have there : (base.slots (setDir build)).mounts = [⟨mount, build, .answers⟩] := served.2
          rw [serverTurn, there] at ran
          cases ran
          rw [if_neg (by simp)]
          split <;> exact .still single beside rfl served (beside.goes_on rfl (Or.inl rfl) rfl)
      | _ => cases ran
  | probing mount original inode =>
      cases action with
      | next =>
          cases ran
          split <;> exact .still single beside rfl served (beside.goes_on rfl (Or.inl rfl) rfl)
      | _ => cases ran
  | probed mount inode =>
      cases action with
      | next =>
          cases ran
          refine .still single beside rfl served (beside.goes_on rfl (Or.inr ?_) rfl)
          intro other member lists
          rcases beside other member with ⟨⟨⟨theirs, _⟩, _⟩, ⟨locks, _⟩, _⟩
          exact exclusive_alone (named _ inode rfl) List.mem_cons_self locks theirs
            (lists_claimed lists)
      | _ => cases ran
  | missing mount original =>
      have unlisted (left : base.lockInode (setDir build) = none) :
          ∀ other ∈ others, other.lists ≠ some (setDir build) := by
        intro other member lists
        rcases claimed_holds (lists_claimed lists) with ⟨inode, holds⟩
        have found := (beside other member).1.1.1 _ _ holds
        rw [left] at found
        cases found
      cases action with
      | next =>
          cases original with
          | none =>
              cases ran
              have left := unhurried.missing _ _ _ rfl rfl fun _ same => by cases same
              exact .still single beside rfl served
                (beside.goes_on rfl (Or.inr (unlisted left)) rfl)
          | some inode =>
              cases ran
              split
              · next granted =>
                  have left := unhurried.missing _ _ _ rfl rfl fun _ same => by
                    cases same
                    exact granted
                  exact .still single beside rfl served
                    (beside.goes_on rfl (Or.inr (unlisted left)) rfl)
              · exact .still single beside rfl served (beside.goes_on rfl (Or.inl rfl) rfl)
      | _ => cases original <;> cases ran
  | leaving mount original =>
      cases action with
      | next =>
          cases ran
          exact server_closes single served.1 served.2 rfl beside fun other member =>
            (beside other member).2.2.leaves _ rfl
      | _ => cases ran
  | closed mount =>
      cases action with
      | next =>
          cases ran
          exact server_unmounts single served beside
      | _ => cases ran
  | unmounted =>
      cases action with
      | next =>
          cases ran
          exact .still single beside (base.mounts_removeDir _) ⟨served.1, trivial⟩ fun _ _ =>
            .of_none rfl rfl rfl rfl rfl
      | _ => cases ran
  | gone => cases action <;> cases ran

section
variable [DecidableEq Entry]

/-- A sweep unmounts at one stage only, that comes after it saw a dead mount. -/
theorem sweepTurn_mounts {grants : Claim LockKey → Bool} {stage : Sweep}
    {turn : Base Entry × Sweep} (ran : sweepTurn base grants stage action = some turn) :
    (turn.1.mounts = base.mounts ∨ (Proc.sweep turn.2).unmounts = none ∧
      ∃ seen name lock, stage = .unmounting seen name lock ∧ turn.1 = base.unmount name) ∧
    ∀ name, (Proc.sweep turn.2).unmounts = some name → base.disconnected name = true := by
  have stopped : ∀ {stage : Sweep}, (Proc.sweep stage).unmounts = none →
      ∀ name, (Proc.sweep stage).unmounts = some name → base.disconnected name = true := by
    intro stage none name unmounts
    rw [none] at unmounts
    cases unmounts
  fun_cases sweepTurn base grants stage action
  all_goals simp only [sweepTurn, *, reduceCtorEq, Option.some.injEq, if_true, if_false,
    Bool.false_eq_true] at ran
  all_goals cases ran
  case case13 seen name lock =>
    refine ⟨Or.inl rfl, ?_⟩
    intro other unmounts
    split at unmounts
    · next disconnected =>
        cases unmounts
        exact disconnected
    · cases unmounts
  case case14 seen name lock =>
    exact ⟨Or.inr ⟨rfl, seen, name, lock, rfl, rfl⟩, stopped rfl⟩
  case case15 => exact ⟨Or.inl (base.mounts_removeEntry _ _), stopped rfl⟩
  case case16 => exact ⟨Or.inl (base.mounts_removeDir _), stopped rfl⟩
  case case23 => exact ⟨Or.inl (base.mounts_setSlot _ rfl), stopped rfl⟩
  case case3 | case5 | case7 | case8 | case9 | case12 | case17 | case20 | case21 | case22 =>
    refine ⟨Or.inl rfl, ?_⟩
    intro other unmounts
    split at unmounts <;> cases unmounts
  all_goals exact ⟨Or.inl rfl, stopped rfl⟩

omit [DecidableEq Entry] in
theorem MountsApart.of_sweep {stage : Sweep}
    (unmounts : ∀ name, (Proc.sweep stage).unmounts = some name → other.starts ≠ some name) :
    MountsApart (.sweep stage) other where
  serves name same := by cases same
  leaves name same := by cases same
  lists name same := by cases same
  unmounts := unmounts
  starts name same := by cases same

omit [DecidableEq Entry] in
theorem Served.of_dead {stage : Sweep} (dead : ∀ name, (Proc.sweep stage).unmounts = some name →
    ∀ mount ∈ mounts name, mount.answer = .dead) : Served known mounts (.sweep stage) := by
  cases stage with
  | unmounting seen name lock => exact dead name rfl
  | _ => trivial

omit [DecidableEq Entry] in
/-- Dead mounts can go from under any server. -/
theorem Server.Mounted.cleared {build : List Char} {below : List Mount} {stage : Server}
    (stands : stage.Mounted build below) (dead : ∀ mount ∈ below, mount.answer = .dead) :
    stage.Mounted build [] := by
  cases stage with
  | starting => rfl
  | closed mount =>
      cases mount with
      | none => rfl
      | some mount => exact Or.inl rfl
  | unmounted | gone => trivial
  | _ =>
      rw [Server.Mounted] at stands
      rw [stands] at dead
      cases dead _ List.mem_cons_self

omit [DecidableEq Entry] in
/-- Who is looked up by its start has nothing mounted. -/
theorem Served.started (served : Served known mounts proc) (starts : proc.starts = some name) :
    mounts name = [] := by
  cases proc with
  | server build stage =>
      cases stage with
      | starting =>
          cases starts
          exact served.2
      | _ => cases starts
  | _ => cases starts

omit [DecidableEq Entry] in
/-- Nobody claims a directory that a sweep goes on to unmount. -/
theorem sweep_alone {seen : List Item} {lock : Option Nat}
    (named : Named base (.sweep (.unmounting seen name lock)))
    (locks : LocksApart (.sweep (.unmounting seen name lock)) other)
    (claims : ClaimsApart (.sweep (.unmounting seen name lock)) other) (theirs : Named base other) :
    other.claimed ≠ some name := by
  cases lock with
  | none => exact claims.spared name rfl
  | some inode => exact exclusive_alone (named name inode rfl) List.mem_cons_self locks theirs

omit [DecidableEq Entry] in
theorem sweep_pops {seen : List Item} {lock : Option Nat} {stage : Sweep}
    (single : Single known base.mounts) (named : Named base (.sweep (.unmounting seen name lock)))
    (served : Served known base.mounts (.sweep (.unmounting seen name lock)))
    (beside : Beside known base others (.sweep (.unmounting seen name lock)))
    (stopped : (Proc.sweep stage).unmounts = none) :
    Settled known (base.unmount name) others (.sweep stage) := by
  have changed := base.mounts_unmount name
  have nothing : (base.mounts name).tail = [] := by
    rcases single name with none | ⟨only, one, _⟩
    · rw [none, List.tail_nil]
    · rw [one, List.tail_cons]
  rw [nothing] at changed
  constructor
  · exact changed ▸ single.update (Or.inl rfl)
  · apply Served.of_dead
    intro other unmounts
    rw [stopped] at unmounts
    cases unmounts
  · intro other member
    rcases beside other member with ⟨⟨⟨theirs, _⟩, also⟩, ⟨locks, claims⟩, _⟩
    constructor
    · rw [changed]
      apply also.update
      · intro serves
        cases other with
        | server build stage =>
            refine ⟨also.1, ?_⟩
            have here : setDir build = name := by
              cases stage <;> simp_all
            rw [here, Function.update_self]
            exact Server.Mounted.cleared (here ▸ also.2) served
        | _ => cases serves
      · intro lists
        have claimed := lists_claimed lists
        exact absurd claimed (sweep_alone named locks claims theirs)
      · intro unmounts
        exact Served.swept unmounts fun _ none => by cases none
    · apply MountsApart.of_sweep
      intro other unmounts
      rw [stopped] at unmounts
      cases unmounts

theorem sweep_settled {stage : Sweep} {turn : Base Entry × Sweep}
    (single : Single known base.mounts) (named : Named base (.sweep stage))
    (served : Served known base.mounts (.sweep stage))
    (beside : Beside known base others (.sweep stage))
    (ran : sweepTurn base (grantable held others) stage action = some turn) :
    Settled known turn.1 others (.sweep turn.2) := by
  rcases sweepTurn_mounts ran with ⟨still | ⟨stopped, seen, name, lock, rfl, popped⟩, starts⟩
  · have there : ∀ name, (Proc.sweep turn.2).unmounts = some name →
        ∃ only, base.mounts name = [only] ∧ only.answer = .dead := by
      intro name unmounts
      have disconnected := starts name unmounts
      rcases single name with none | ⟨only, one, _⟩
      · have none : (base.slots name).mounts = [] := none
        simp [Base.disconnected, none] at disconnected
      · have same : (base.slots name).mounts = [only] := one
        exact ⟨only, one, by simpa [Base.disconnected, same] using disconnected⟩
    refine .still single beside still (.of_dead ?_) fun other member => .of_sweep ?_
    · intro name unmounts mount member
      rcases there name unmounts with ⟨only, one, dead⟩
      rw [one] at member
      exact List.mem_singleton.mp member ▸ dead
    · intro name unmounts begins
      rcases there name unmounts with ⟨only, one, _⟩
      rw [(beside other member).1.2.started begins] at one
      cases one
  · rw [popped]
    exact sweep_pops single named served beside stopped

omit [DecidableEq Entry] in
theorem joinTurn_mounts {grants : Claim LockKey → Bool} {build : List Char} {stage : Join}
    {turn : Base Entry × Join × List Proc}
    (ran : joinTurn base grants build stage action = some turn) : turn.1.mounts = base.mounts := by
  fun_cases joinTurn base grants build stage action
  all_goals simp only [joinTurn, *, reduceCtorEq, Option.some.injEq, if_true, if_false,
    Bool.false_eq_true] at ran
  all_goals cases ran
  case case1 => exact base.mounts_openLock _
  case case4 => exact base.mounts_setSlot _ rfl
  all_goals rfl

omit [DecidableEq Entry] in
theorem launchTurn_mounts {grants : Claim LockKey → Bool} {stage : Launch}
    {turn : Base Entry × Launch × List Launch}
    (ran : launchTurn base grants name stage action = some turn) :
    turn.1.mounts = base.mounts := by
  fun_cases launchTurn base grants name stage action
  all_goals simp only [launchTurn, *, reduceCtorEq, Option.some.injEq, if_true, if_false,
    Bool.false_eq_true] at ran
  all_goals cases ran
  case case1 => exact base.mounts_openLock _
  case case12 => exact base.mounts_removeDir _
  case case4 | case5 | case7 => exact base.mounts_setSlot _ rfl
  all_goals rfl

/-- What a turn of a launch leaves it, and whom it starts. -/
structure Joining (known : List Char → Prop) (base : Base Entry) (others : List Proc)
    (build : List Char) (stage : Join) (next : Join) (spawned : List Proc) : Prop where
  served : Served known base.mounts (.join build next)
  lists : (Proc.join build next).lists = none ∨
    (Proc.join build stage).lists = some (setDir build) ∨
      ∀ other ∈ others, other.leaves ≠ some (setDir build)
  children : spawned = [] ∨ spawned = [.server build .starting] ∧
      base.mounts (setDir build) = [] ∧ (Proc.join build stage).claimed = some (setDir build) ∧
        (∀ other ∈ others, other.serves ≠ some (setDir build)) ∧ (∃ inode test, next = .testing inode test) ∨
    spawned = [.join build next] ∧ next = stage

omit [DecidableEq Entry] in
theorem joinTurn_joining {build : List Char} {stage : Join} {turn : Base Entry × Join × List Proc}
    (distinct : ∀ first second, known first → known second → setDir first = setDir second →
      first = second)
    (single : Single known base.mounts) (served : Served known base.mounts (.join build stage))
    (unhurried : Unhurried base others (.join build stage) action)
    (ran : joinTurn base (grantable held others) build stage action = some turn) :
    Joining known base others build stage turn.2.1 turn.2.2 := by
  have of_known := served.1
  have untested : ∀ inode test, Served known base.mounts (.join build (Join.untested inode test)) ∧
      (Proc.join build (Join.untested inode test)).lists = none := by
    intro inode test
    cases test <;> exact ⟨⟨of_known, trivial⟩, rfl⟩
  have crashed : Joining known base others build stage .gone [] :=
    ⟨⟨of_known, trivial⟩, Or.inl rfl, Or.inl rfl⟩
  cases stage with
  | starting | locked _ =>
      cases action with
      | next =>
          cases ran
          exact ⟨⟨of_known, trivial⟩, Or.inl rfl, Or.inl rfl⟩
      | crash =>
          cases ran
          exact crashed
      | _ => cases ran
  | opened inode =>
      cases action with
      | next =>
          rw [joinTurn, Option.ite_none_right_eq_some] at ran
          cases ran.2
          exact ⟨⟨of_known, trivial⟩, Or.inl rfl, Or.inl rfl⟩
      | crash =>
          cases ran
          exact crashed
      | _ => cases ran
  | testing inode test =>
      cases action with
      | next =>
          cases ran
          split
          · exact ⟨(untested inode test).1, Or.inl (untested inode test).2, Or.inl rfl⟩
          · next mounted =>
              have there : base.mounts (setDir build) ≠ [] := by
                simpa [Base.mounts] using mounted
              rcases (single (setDir build)).resolve_left there with ⟨mount, one, also, same⟩
              have ours : mount.build = build := distinct _ _ also of_known same
              refine ⟨⟨of_known, mount.number, mount.answer, ?_⟩,
                Or.inr (Or.inr (unhurried.lists _ _ _ rfl rfl there)), Or.inl rfl⟩
              rw [one, ← ours]
      | crash =>
          cases ran
          exact crashed
      | _ => cases ran
  | listed inode test =>
      cases action with
      | next =>
          rcases served.2 with ⟨number, answer, there⟩
          have same : (base.slots (setDir build)).mounts = [⟨number, build, answer⟩] := there
          rw [joinTurn, same] at ran
          cases answer with
          | waits => cases ran
          | answers =>
              cases ran
              exact ⟨⟨of_known, number, there⟩, Or.inr (Or.inl rfl), Or.inl rfl⟩
          | dead =>
              cases ran
              exact ⟨(untested inode test).1, Or.inl (untested inode test).2, Or.inl rfl⟩
      | crash =>
          cases ran
          exact crashed
      | _ => cases ran
  | unserved inode =>
      cases action with
      | next =>
          rw [joinTurn, Option.ite_none_right_eq_some] at ran
          cases ran.2
          exact ⟨⟨of_known, trivial⟩, Or.inl rfl, Or.inl rfl⟩
      | fail =>
          cases ran
          exact ⟨⟨of_known, trivial⟩, Or.inl rfl, Or.inl rfl⟩
      | crash =>
          cases ran
          exact crashed
      | _ => cases ran
  | forking inode held =>
      cases action with
      | next =>
          cases ran
          rcases unhurried.forks _ _ _ rfl rfl with ⟨empty, alone⟩
          exact ⟨⟨of_known, trivial⟩, Or.inl rfl,
            Or.inr (Or.inl ⟨rfl, empty, rfl, alone, inode, _, rfl⟩)⟩
      | crash =>
          cases ran
          exact crashed
      | _ => cases ran
  | joined inode =>
      cases action with
      | fork =>
          cases ran
          exact ⟨served, Or.inr (Or.inl rfl), Or.inr (Or.inr ⟨rfl, rfl⟩)⟩
      | crash =>
          cases ran
          exact crashed
      | _ => cases ran
  | gone =>
      cases action with
      | crash =>
          cases ran
          exact crashed
      | _ => cases ran

omit [DecidableEq Entry] in
theorem MountsApart.of_join {build : List Char} {stage : Join}
    (lists : ∀ name, (Proc.join build stage).lists = some name → other.leaves ≠ some name) :
    MountsApart (.join build stage) other where
  serves name same := by cases same
  leaves name same := by cases same
  lists := lists
  unmounts name same := by cases same
  starts name same := by cases same

omit [DecidableEq Entry] in
theorem MountsApart.of_launch {stage : Launch} : MountsApart (.launch name stage) other :=
  .of_none rfl rfl rfl rfl rfl

omit [DecidableEq Entry] in
theorem Joining.beside {build : List Char} {stage next : Join} {spawned : List Proc}
    (joining : Joining known base others build stage next spawned)
    (beside : Beside known base others (.join build stage)) :
    ∀ other ∈ others, MountsApart (.join build next) other := by
  intro other member
  apply MountsApart.of_join
  intro name lists leaves
  have here : setDir build = name := by
    cases next <;> simp_all
  rcases joining.lists with none | before | free
  · rw [none] at lists
    cases lists
  · exact (beside other member).2.2.lists name (here ▸ before) leaves
  · exact free other member (here ▸ leaves)

omit [DecidableEq Entry] in
theorem Joining.born {build : List Char} {stage next : Join} {spawned : List Proc}
    (joining : Joining known base others build stage next spawned)
    (named : Named base (.join build stage)) (served : Served known base.mounts (.join build stage))
    (beside : Beside known base others (.join build stage)) :
    ∀ child ∈ spawned, Served known base.mounts child ∧ MountsApart (.join build next) child ∧
      ∀ other ∈ others, MountsApart other child := by
  intro child born
  rcases joining.children with none | ⟨one, empty, claimed, alone, inode, test, rfl⟩ | ⟨one, rfl⟩
  · rw [none] at born
    cases born
  · rw [one] at born
    cases List.mem_singleton.mp born
    refine ⟨⟨served.1, empty⟩, .of_join fun _ same => (by cases same), fun other member => ?_⟩
    apply MountsApart.symm
    constructor
    · intro name same
      cases same
      exact alone other member
    · intro name same
      cases same
    · intro name same
      cases same
    · intro name same
      cases same
    · intro name same unmounts
      cases same
      rcases beside other member with ⟨⟨⟨theirs, _⟩, _⟩, ⟨locks, claims⟩, _⟩
      cases other with
      | sweep stage =>
          cases stage with
          | unmounting seen there lock =>
              cases unmounts
              exact sweep_alone theirs locks.symm claims.symm named claimed
          | _ => cases unmounts
      | _ => cases unmounts
  · rw [one] at born
    cases List.mem_singleton.mp born
    exact ⟨served, .of_join fun _ _ same => (by cases same),
      fun other member => (beside other member).2.2.symm⟩

/-- While nobody hurries, a directory has one mount at most, and launches, servers and sweeps find
on it what they rely on. -/
theorem program_served
    (distinct : ∀ first second, known first → known second → setDir first = setDir second →
      first = second) :
    Keeps (@program Entry _) (fun base others proc action =>
        (Current base others proc action ∧ Spared base others proc action) ∧
          Unhurried base others proc action)
      (fun base => (True ∧ True) ∧ Single known base.mounts)
      (fun base proc => (Named base proc ∧ True) ∧ Served known base.mounts proc)
      (fun proc other => (LocksApart proc other ∧ ClaimsApart proc other) ∧
        MountsApart proc other) := by
  apply program_spared.extend
  · exact fun _ _ => MountsApart.symm
  · intro base others proc action turn _ single named served beside unhurried ran
    have alone {after : Base Entry} {later : Proc} (settled : Settled known after others later) :
        Single known after.mounts ∧ Served known after.mounts later ∧
          (∀ other ∈ others, Served known after.mounts other ∧ MountsApart later other) ∧
          (∀ child ∈ ([] : List Proc), Served known after.mounts child ∧ MountsApart later child ∧
            ∀ other ∈ others, MountsApart other child) ∧ ([] : List Proc).Pairwise MountsApart :=
      ⟨settled.single, settled.served, settled.others, fun _ born => (by cases born), List.Pairwise.nil⟩
    cases proc with
    | host => exact served.elim
    | clock =>
        cases action with
        | wait seconds =>
            cases ran
            exact alone (.still single beside rfl served fun other member =>
              (beside other member).2.2)
        | _ => cases ran
    | sweep stage =>
        rcases Option.map_eq_some_iff.mp ran with ⟨moved, moves, rfl⟩
        exact alone (sweep_settled single named.1 served beside moves)
    | server build stage =>
        rcases Option.map_eq_some_iff.mp ran with ⟨moved, moves, rfl⟩
        exact alone (server_settled single named.1 served beside unhurried moves)
    | launch name stage =>
        rcases Option.map_eq_some_iff.mp ran with ⟨moved, moves, rfl⟩
        have same := launchTurn_mounts moves
        refine ⟨same ▸ single, trivial, fun other member => ⟨same ▸ (beside other member).1.2,
          .of_launch⟩, ?_, ?_⟩
        · intro child born
          rcases List.mem_map.mp born with ⟨stage, _, rfl⟩
          exact ⟨trivial, .of_launch, fun other _ => MountsApart.of_launch.symm⟩
        · apply List.pairwise_of_forall_mem_list
          intro child born other _
          rcases List.mem_map.mp born with ⟨stage, _, rfl⟩
          exact .of_launch
    | join build stage =>
        rcases Option.map_eq_some_iff.mp ran with ⟨moved, moves, rfl⟩
        have same := joinTurn_mounts moves
        have joining := joinTurn_joining distinct single served unhurried moves
        refine ⟨same ▸ single, same ▸ joining.served, fun other member =>
          ⟨same ▸ (beside other member).1.2, joining.beside beside other member⟩, ?_, ?_⟩
        · intro child born
          have child_born := joining.born named.1 served beside child born
          exact ⟨same ▸ child_born.1, child_born.2⟩
        · rcases joining.children with none | ⟨one, _⟩ | ⟨one, _⟩
          · exact none ▸ List.Pairwise.nil
          · exact one ▸ List.pairwise_singleton _ _
          · exact one ▸ List.pairwise_singleton _ _

/-- The condition on each move. -/
def Shared (base : Base Entry) (others : List Proc) (proc : Proc) (action : Act Entry) : Prop :=
  Guarded base others proc action ∧ Unhurried base others proc action

omit [DecidableEq Entry] in
/-- Nobody is hurried by a move beside processes that neither sweep nor leave. -/
theorem Shared.of_calm
    (calm : ∀ other ∈ others, other.unguarded = none ∧ other.leaves = none)
    (current : Current base others proc action)
    (forks : ∀ build inode held, proc = .join build (.forking inode held) →
      base.mounts (setDir build) = [] ∧ ∀ other ∈ others, other.serves ≠ some (setDir build))
    (unswept : ∀ seen name, proc ≠ .sweep (.aging seen name))
    (present : ∀ build mount original, proc ≠ .server build (.missing mount original))
    (sound : ∀ build mount, proc = .server build (.mounted mount) → action ≠ .fail) :
    Shared base others proc action := by
  refine ⟨⟨current, ?_, ?_⟩, ?_, ?_, ?_, ?_⟩
  · intro name inode _ _ _ other member unguarded
    rw [(calm other member).1] at unguarded
    cases unguarded
  · intro seen name same
    exact absurd same (unswept seen name)
  · intro build inode held same _
    exact forks build inode held same
  · intro build inode test _ _ _ other member leaves
    rw [(calm other member).2] at leaves
    cases leaves
  · intro build mount original same
    exact absurd same (present build mount original)
  · intro build mount same failed
    exact absurd failed (sound build mount same)

omit [DecidableEq Entry] in
theorem coherent_unmounted {procs : List Proc} (empty : ∀ name, base.mounts name = [])
    (fresh : ∀ proc ∈ procs, proc.Fresh ∧ proc ≠ .host)
    (of_known : ∀ build stage, .join build stage ∈ procs → known build) :
    Coherent (fun base => (True ∧ True) ∧ Single known base.mounts)
      (fun base proc => (Named base proc ∧ True) ∧ Served known base.mounts proc)
      (fun proc other => (LocksApart proc other ∧ ClaimsApart proc other) ∧ MountsApart proc other)
      ⟨base, procs⟩ := by
  have start : Coherent _ _ _ ⟨base, procs⟩ :=
    coherent_fresh fun proc member => (fresh proc member).1
  constructor
  · exact ⟨start.common, fun name => Or.inl (empty name)⟩
  · intro proc member
    refine ⟨start.own proc member, ?_⟩
    have here := (fresh proc member).1
    cases proc with
    | launch _ _ | clock => trivial
    | host => exact absurd rfl (fresh _ member).2
    | server build stage => exact here.elim
    | join build stage =>
        refine ⟨of_known build stage member, ?_⟩
        rw [Proc.Fresh] at here
        rw [here]
        trivial
    | sweep stage =>
        rw [Proc.Fresh] at here
        rw [here]
        trivial
  · have apart : procs.Pairwise MountsApart := by
      apply List.pairwise_of_forall_mem_list
      intro proc member other _
      have here := (fresh proc member).1
      cases proc with
      | launch _ _ => exact .of_launch
      | host => exact absurd rfl (fresh _ member).2
      | server build stage => exact here.elim
      | clock => exact .of_none rfl rfl rfl rfl rfl
      | join build stage =>
          rw [Proc.Fresh] at here
          rw [here]
          exact .of_join fun _ same => by cases same
      | sweep stage =>
          rw [Proc.Fresh] at here
          rw [here]
          exact .of_sweep fun _ same => by cases same
    exact start.apart.and apart

/-- Whatever launches, servers and sweeps do beside each other: a launch that has joined a mount has
its build answer there, and a server that unmounts takes its own mount only. -/
theorem joined_served {base : Base Entry} {procs : List Proc} {moves : List (Nat × Act Entry)}
    {final : System (Base Entry) Proc} (empty : ∀ name, (base.slots name).mounts = [])
    (fresh : ∀ proc ∈ procs, proc.Fresh ∧ proc ≠ .host)
    (distinct : ∀ first second stage next, .join first stage ∈ procs →
      .join second next ∈ procs → setDir first = setDir second → first = second)
    (shared : System.Meets program Shared ⟨base, procs⟩ moves)
    (ran : System.run program ⟨base, procs⟩ moves = some final) :
    (∀ build inode, .join build (.joined inode) ∈ final.procs →
      ∃ number, (final.shared.slots (setDir build)).mounts = [⟨number, build, .answers⟩]) ∧
    ∀ build own, .server build (.closed own) ∈ final.procs →
      ∀ mount ∈ (final.shared.slots (setDir build)).mounts.head?, own = some mount.number := by
  have keeps := @program_served Entry (fun build => ∃ stage, .join build stage ∈ procs) _ (by
    intro first second known_first known_second
    rcases known_first with ⟨stage, member⟩
    rcases known_second with ⟨next, also⟩
    exact distinct first second stage next member also)
  have held := keeps.run (coherent_unmounted empty fresh fun build stage member => ⟨stage, member⟩)
    shared ran
  constructor
  · intro build inode member
    exact (held.own _ member).2.2
  · intro build own member mount top
    have mounted := (held.own _ member).2.2
    cases own with
    | none =>
        have none : (final.shared.slots (setDir build)).mounts = [] := mounted
        rw [none] at top
        cases top
    | some number =>
        rcases (mounted : _ ∨ _) with none | own
        · have none : (final.shared.slots (setDir build)).mounts = [] := none
          rw [none] at top
          cases top
        · have own : (final.shared.slots (setDir build)).mounts = [⟨number, build, .dead⟩] := own
          rw [own] at top
          cases top
          rfl

end

end

/-! ### A launch that comes as the server leaves -/

namespace Leaver

def build : List Char := "ab".toList

def base : Base Unit :=
  ⟨fun _ => ⟨none, none, []⟩, 0, 0⟩

def procs : List Proc :=
  [.join build .starting, .join build .starting]

/-- The first launch has the set served. -/
def before : List (Nat × Act Unit) :=
  [(0, .next), (0, .next), (0, .next), (0, .next), (0, .next), (0, .next), (0, .next), (2, .next),
    (2, .next), (2, .next), (0, .next), (0, .next)]

/-- It ends, and the second comes between the server's probe and its last step. -/
def moves : List (Nat × Act Unit) :=
  before ++ [(0, .crash), (2, .next), (2, .next), (2, .next), (1, .next), (1, .next), (1, .next),
    (1, .next), (1, .next), (2, .next)]

theorem procs_fresh : ∀ proc ∈ procs, proc.Fresh ∧ proc ≠ .host := by
  simp [procs, Proc.Fresh]

theorem procs_distinct : ∀ first second stage next, .join first stage ∈ procs →
    .join second next ∈ procs → setDir first = setDir second → first = second := by
  simp +contextual [procs]

theorem before_shared : System.Meets program Shared ⟨base, procs⟩ before := by
  iterate 12
    constructor
    · intro proc found
      cases found
      refine .of_calm (by decide) ?_ ?_ (fun _ _ => by simp) (fun _ _ _ => by simp)
        fun _ _ _ => by simp
      · intro name inode mode asks _ _
        cases asks <;> rfl
      · intro building inode held same
        cases same <;> exact ⟨rfl, by decide⟩
    intro next moved
    cases moved
  exact trivial

end Leaver

/-- A server drops its probe's lock before it unmounts, so a launch can still join a mount that is
about to go. -/
theorem joined_not_served :
    ¬ ∀ (base : Base Unit) (procs : List Proc) (moves : List (Nat × Act Unit))
      (final : System (Base Unit) Proc), (∀ name, (base.slots name).mounts = []) →
        (∀ proc ∈ procs, proc.Fresh ∧ proc ≠ .host) →
        (∀ first second stage next, .join first stage ∈ procs → .join second next ∈ procs →
          setDir first = setDir second → first = second) →
        System.run program ⟨base, procs⟩ moves = some final →
          (∀ build inode, .join build (.joined inode) ∈ final.procs →
            ∃ number, (final.shared.slots (setDir build)).mounts = [⟨number, build, .answers⟩]) ∧
          ∀ build own, .server build (.closed own) ∈ final.procs →
            ∀ mount ∈ (final.shared.slots (setDir build)).mounts.head?,
              own = some mount.number := by
  intro served
  have reached := served Leaver.base Leaver.procs Leaver.moves _ (fun _ => rfl) Leaver.procs_fresh
    Leaver.procs_distinct rfl
  rcases reached.1 Leaver.build 0 (List.mem_cons_of_mem _ List.mem_cons_self) with ⟨number, mounts⟩
  cases mounts

theorem joined_served_before :
    ∃ final : System (Base Unit) Proc,
      System.run program ⟨Leaver.base, Leaver.procs⟩ Leaver.before = some final ∧
        .join Leaver.build (.joined 0) ∈ final.procs ∧
          ∃ number, (final.shared.slots (setDir Leaver.build)).mounts =
            [⟨number, Leaver.build, .answers⟩] :=
  ⟨_, rfl, List.mem_cons_self, (joined_served (fun _ => rfl) Leaver.procs_fresh
    Leaver.procs_distinct Leaver.before_shared rfl).1 Leaver.build 0 List.mem_cons_self⟩

end Onelf.Runtime.Mountpoints
