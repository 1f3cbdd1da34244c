import Onelf.Lib.Bytes
import Onelf.Lib.Flock

/-! Self-updates over one installed path (`update/mod.rs`, `main.rs`), in file and lock operations. -/

namespace Onelf.Runtime.Update.Install

open Onelf.Lib

abbrev Inode := Nat

/-- What the gates read of a package; a revision entry that holds no number is an error. -/
structure Package where
  id : Digest
  revision : Except Unit (Option Nat)

/-- Files by inode, whose bytes stay as they were verified, and the names that lead to them. A staging
name is known to the process that drew it alone, and goes by its file here. -/
structure Directory where
  packages : List Package
  installed : Inode
  staging : List Inode

namespace Directory
variable (dir : Directory)

def removeStaging (tmp : Inode) : Directory := { dir with staging := dir.staging.erase tmp }

def claimStaging (package : Package) : Directory :=
  { dir with packages := dir.packages ++ [package], staging := dir.packages.length :: dir.staging }

/-- `rename` of the staging name over the installed one. -/
def replace (tmp : Inode) : Directory :=
  { dir with installed := tmp, staging := dir.staging.erase tmp }

end Directory

/-- What `/proc/self/exe` says: a name that was renamed over is shown as deleted, and opening that
fails. -/
inductive SelfPath where
  | installed
  | deleted
  deriving DecidableEq

/-- How far a process has come (`main`, `apply`, `install_staged`). -/
inductive Stage where
  | idle
  /-- Its own package is loaded. -/
  | loaded (image : Inode)
  | located (image : Inode) (selfPath : SelfPath)
  | ready (selfPath : SelfPath) (current : Option Nat)
  | opened (current : Option Nat) (lock : Inode)
  | locked (current : Option Nat) (lock : Inode)
  | identified (current : Option Nat) (lock : Inode) (localId : Option Digest)
  | probed (current : Option Nat) (lock : Inode) (localId : Option Digest)
  | staged (current : Option Nat) (lock : Inode) (localId : Option Digest) (tmp : Inode)
  | permitted (current : Option Nat) (lock : Inode) (tmp : Inode)
  /-- The installed name led to the locked file. -/
  | unchanged (current : Option Nat) (lock : Inode) (tmp : Inode)
  /-- The staging name led to the verified file. -/
  | proven (current : Option Nat) (lock : Inode) (tmp : Inode)
  | installed (lock : Inode)
  | gone

inductive Act where
  | next
  | fail
  | crash
  /-- The release server answers a probe, or serves no ranges. -/
  | answer (remote : Option Digest)
  /-- A package is downloaded and verified. -/
  | deliver (package : Package)

def held : Stage → List (Claim Inode)
  | .locked _ lock | .identified _ lock _ | .probed _ lock _ | .staged _ lock _ _
  | .permitted _ lock _ | .unchanged _ lock _ | .proven _ lock _ | .installed lock =>
      [⟨lock, .exclusive⟩]
  | _ => []

def revisionPermits : Option Nat → Option Nat → Bool
  | some current, some downloaded => !(downloaded ≤ current)
  | some _, none => false
  | none, _ => true

/-- `staged_info` and the two gates: whether the staged package may be installed. -/
def permits (dir : Directory) (current : Option Nat) (localId : Option Digest) (tmp : Inode) : Bool :=
  match dir.packages[tmp]? with
  | none => false
  | some package =>
      match package.revision with
      | .error _ => false
      | .ok downloaded => some package.id ≠ localId && revisionPermits current downloaded

def stageTurn (dir : Directory) (grants : Claim Inode → Bool) :
    Stage → Act → Option (Directory × Stage)
  | .idle, .next => some (dir, .loaded dir.installed)
  | .loaded image, .next =>
      some (dir, .located image (if dir.installed = image then .installed else .deleted))
  | .located image selfPath, .next =>
      some (dir, match dir.packages[image]?.map Package.revision with
        | some (.ok current) => .ready selfPath current
        | _ => .gone)
  | .ready selfPath current, .next =>
      some (dir, match selfPath with
        | .installed => .opened current dir.installed
        | .deleted => .gone)
  | .opened current lock, .next =>
      some (dir, if grants ⟨lock, .exclusive⟩ then .locked current lock else .gone)
  | .locked current lock, .next =>
      some (dir, .identified current lock (dir.packages[dir.installed]?.map Package.id))
  | .locked current lock, .fail => some (dir, .identified current lock none)
  | .identified current lock localId, .answer remote =>
      some (dir, if remote.isSome && remote = localId then .gone else .probed current lock localId)
  | .probed current lock localId, .deliver package =>
      some (dir.claimStaging package, .staged current lock localId dir.packages.length)
  | .staged current lock localId tmp, .next =>
      some (if permits dir current localId tmp then (dir, .permitted current lock tmp)
        else (dir.removeStaging tmp, .gone))
  | .permitted current lock tmp, .next =>
      some (if dir.installed = lock then (dir, .unchanged current lock tmp)
        else (dir.removeStaging tmp, .gone))
  -- The mode and the rollback copy come between the two checks, and touch neither name.
  | .unchanged current lock tmp, .next =>
      some (if tmp ∈ dir.staging then (dir, .proven current lock tmp)
        else (dir.removeStaging tmp, .gone))
  | .proven _ lock tmp, .next => some (dir.replace tmp, .installed lock)
  | .installed _, .next => some (dir, .gone)
  | .staged _ _ _ tmp, .fail | .permitted _ _ tmp, .fail | .unchanged _ _ tmp, .fail
  | .proven _ _ tmp, .fail => some (dir.removeStaging tmp, .gone)
  | .gone, _ => none
  | _, .fail | _, .crash => some (dir, .gone)
  | _, _ => none

/-- A process in the midst of the others. -/
def program : Program Directory Stage Act := fun dir others stage action =>
  (stageTurn dir (grantable held others) stage action).map fun turn => ⟨turn.1, turn.2, []⟩

/-! ### What holds along a run -/

namespace Directory
variable (dir : Directory)

/-- The revision a file carries, if it is a package that carries one. -/
def revision (inode : Inode) : Option Nat :=
  dir.packages[inode]?.bind fun package =>
    match package.revision with
    | .ok carried => carried
    | .error _ => none

/-- The file carries no revision above the one a process was started with. -/
def Covers (inode : Inode) (current : Option Nat) : Prop :=
  ∀ revision ∈ dir.revision inode, ∃ bound ∈ current, revision ≤ bound

/-- The file may replace any package the process's own revision covers. -/
def Above (current : Option Nat) (tmp : Inode) : Prop :=
  ∀ bound ∈ current, ∃ later ∈ dir.revision tmp, bound < later

instance (inode : Inode) (current : Option Nat) : Decidable (dir.Covers inode current) :=
  inferInstanceAs (Decidable (∀ revision ∈ dir.revision inode, ∃ bound ∈ current, revision ≤ bound))

end Directory

/-- The installed package gives way to one of a strictly greater revision, if it carries one. -/
def Raises (before after : Directory) : Prop :=
  ∀ revision ∈ before.revision before.installed,
    ∃ later ∈ after.revision after.installed, revision < later

instance (before after : Directory) : Decidable (Raises before after) :=
  inferInstanceAs (Decidable (∀ revision ∈ before.revision before.installed,
    ∃ later ∈ after.revision after.installed, revision < later))

/-- A process that takes the lock was started from a revision no lower than that of the file it takes
it on. -/
def Fresh (dir : Directory) (_others : List Stage) : Stage → Act → Prop
  | .opened current lock, .next => dir.Covers lock current
  | _, _ => True

instance (dir : Directory) (others : List Stage) (stage : Stage) (action : Act) :
    Decidable (Fresh dir others stage action) := by
  unfold Fresh
  split <;> infer_instance

/-- The files a process relies on. -/
@[simp] def Stage.files : Stage → List Inode
  | .loaded image | .located image _ => [image]
  | .opened _ lock | .locked _ lock | .identified _ lock _ | .probed _ lock _ => [lock]
  | .staged _ lock _ tmp | .permitted _ lock tmp | .unchanged _ lock tmp | .proven _ lock tmp =>
      [lock, tmp]
  | _ => []

/-- The revision a process was started with and the file it has locked. -/
@[simp] def Stage.lock? : Stage → Option (Option Nat × Inode)
  | .locked current lock | .identified current lock _ | .probed current lock _
  | .staged current lock _ _ | .permitted current lock _ | .unchanged current lock _
  | .proven current lock _ => some (current, lock)
  | _ => none

/-- The revision a process was started with and the file that passed its gates. -/
@[simp] def Stage.passed? : Stage → Option (Option Nat × Inode)
  | .permitted current _ tmp | .unchanged current _ tmp | .proven current _ tmp =>
      some (current, tmp)
  | _ => none

/-- The locked file, once the installed name was seen to lead to it. -/
@[simp] def Stage.settled? : Stage → Option Inode
  | .unchanged _ lock _ | .proven _ lock _ => some lock
  | _ => none

structure Own (dir : Directory) (stage : Stage) : Prop where
  known : ∀ inode ∈ stage.files, inode < dir.packages.length
  covers : ∀ current lock, stage.lock? = some (current, lock) → dir.Covers lock current
  above : ∀ current tmp, stage.passed? = some (current, tmp) → dir.Above current tmp
  settled : ∀ lock, stage.settled? = some lock → dir.installed = lock

def LocksApart (stage other : Stage) : Prop := Compatible (held stage) (held other)

def Installed (dir : Directory) : Prop := dir.installed < dir.packages.length

/-! ### One turn -/

/-- The files are those of before, and maybe more. -/
def Extends (before after : Directory) : Prop :=
  ∀ inode < before.packages.length, after.packages[inode]? = before.packages[inode]?

theorem Extends.refl (dir : Directory) : Extends dir dir := fun _ _ => rfl

theorem extends_removeStaging (dir : Directory) (tmp : Inode) :
    Extends dir (dir.removeStaging tmp) := fun _ _ => rfl

theorem extends_replace (dir : Directory) (tmp : Inode) : Extends dir (dir.replace tmp) :=
  fun _ _ => rfl

theorem extends_claimStaging (dir : Directory) (package : Package) :
    Extends dir (dir.claimStaging package) :=
  fun _ short => List.getElem?_append_left short

section
variable {before after : Directory} (more : Extends before after) {inode : Inode}
  (known : inode < before.packages.length)

include more known

theorem revision_extends : after.revision inode = before.revision inode := by
  rw [Directory.revision, Directory.revision, more inode known]

theorem covers_iff {current : Option Nat} :
    after.Covers inode current ↔ before.Covers inode current := by
  rw [Directory.Covers, Directory.Covers, revision_extends more known]

theorem above_iff {current : Option Nat} : after.Above current inode ↔ before.Above current inode := by
  rw [Directory.Above, Directory.Above, revision_extends more known]

end

theorem lock?_files {stage : Stage} {current : Option Nat} {lock : Inode}
    (found : stage.lock? = some (current, lock)) : lock ∈ stage.files := by
  cases stage <;> simp_all

theorem passed?_files {stage : Stage} {current : Option Nat} {tmp : Inode}
    (found : stage.passed? = some (current, tmp)) : tmp ∈ stage.files := by
  cases stage <;> simp_all

/-- Who has a lock, holds it exclusively. -/
theorem settled?_held {stage : Stage} {lock : Inode} (found : stage.settled? = some lock) :
    ⟨lock, .exclusive⟩ ∈ held stage := by
  cases stage <;> simp_all [held]

/-- What a process relies on holds on where the files do and its lock keeps the installed name. -/
theorem Own.later {before after : Directory} {stage : Stage} (own : Own before stage)
    (more : Extends before after) (count : before.packages.length ≤ after.packages.length)
    (installed : ∀ lock, stage.settled? = some lock → after.installed = before.installed) :
    Own after stage where
  known inode member := Nat.lt_of_lt_of_le (own.known inode member) count
  covers current lock found :=
    (covers_iff more (own.known lock (lock?_files found))).mpr (own.covers current lock found)
  above current tmp found :=
    (above_iff more (own.known tmp (passed?_files found))).mpr (own.above current tmp found)
  settled lock found := by
    rw [installed lock found]
    exact own.settled lock found

theorem permits_above {dir : Directory} {current : Option Nat} {localId : Option Digest}
    {tmp : Inode} (permitted : permits dir current localId tmp = true) : dir.Above current tmp := by
  intro bound started
  rw [permits] at permitted
  split at permitted
  · cases permitted
  · next package found =>
      split at permitted
      · cases permitted
      · next downloaded carried =>
          rw [Bool.and_eq_true, Option.mem_def.mp started] at permitted
          cases downloaded with
          | none => cases permitted.2
          | some later =>
              refine ⟨later, ?_, by simpa [revisionPermits] using permitted.2⟩
              rw [Directory.revision, found, Option.bind_some, carried]
              rfl

/-- What one turn does to the installed name, the files, the locks and what a process relies on. -/
structure Turned (dir : Directory) (grants : Claim Inode → Bool) (stage : Stage)
    (after : Directory) (later : Stage) : Prop where
  more : Extends dir after
  count : dir.packages.length ≤ after.packages.length
  installed : after.installed = dir.installed ∨
    ∃ current lock tmp, stage = .proven current lock tmp ∧ after.installed = tmp
  taken : held later ⊆ held stage ∨
    ∃ claim, grants claim = true ∧ held later ⊆ claim :: held stage
  own : Own after later

/-- A process that has locked nothing yet relies on its files alone. -/
theorem Own.unlocked {dir : Directory} {stage : Stage}
    (known : ∀ inode ∈ stage.files, inode < dir.packages.length) (free : stage.lock? = none) :
    Own dir stage := by
  refine ⟨known, ?_, ?_, ?_⟩
  · intro current lock found
    rw [free] at found
    cases found
  · intro current tmp found
    cases stage <;> simp_all
  · intro lock found
    cases stage <;> simp_all

/-- A process with a lock relies on it until it has passed its gates. -/
theorem Own.ungated {dir : Directory} {stage : Stage} {current : Option Nat} {lock : Inode}
    (known : ∀ inode ∈ stage.files, inode < dir.packages.length)
    (locked : stage.lock? = some (current, lock)) (covers : dir.Covers lock current)
    (ungated : stage.passed? = none) : Own dir stage := by
  refine ⟨known, ?_, ?_, ?_⟩
  · intro other file found
    rw [locked] at found
    cases found
    exact covers
  · intro other tmp found
    rw [ungated] at found
    cases found
  · intro file found
    cases stage <;> simp_all

theorem Own.gone (dir : Directory) : Own dir .gone :=
  Own.unlocked (fun _ member => (List.not_mem_nil member).elim) rfl

theorem Turned.leave {dir : Directory} {grants : Claim Inode → Bool} {stage : Stage} {tmp : Inode} :
    Turned dir grants stage (dir.removeStaging tmp) .gone where
  more := extends_removeStaging dir tmp
  count := Nat.le_refl _
  installed := Or.inl rfl
  taken := Or.inl (List.nil_subset _)
  own := Own.gone _

theorem Turned.still {dir : Directory} {grants : Claim Inode → Bool} {stage later : Stage}
    (taken : held later ⊆ held stage ∨
      ∃ claim, grants claim = true ∧ held later ⊆ claim :: held stage) (own : Own dir later) :
    Turned dir grants stage dir later where
  more := Extends.refl dir
  count := Nat.le_refl _
  installed := Or.inl rfl
  taken := taken
  own := own

theorem stageTurn_turned {dir after : Directory} {grants : Claim Inode → Bool}
    {stage later : Stage} {action : Act} (there : Installed dir) (own : Own dir stage)
    {others : List Stage} (fresh : Fresh dir others stage action)
    (turned : stageTurn dir grants stage action = some (after, later)) :
    Turned dir grants stage after later := by
  have gone : Turned dir grants stage dir .gone :=
    Turned.still (Or.inl (List.nil_subset _)) (Own.gone dir)
  have here : ∀ inode ∈ [dir.installed], inode < dir.packages.length := by
    intro inode member
    rw [List.mem_singleton.mp member]
    exact there
  have known := own.known
  cases stage with
  | idle =>
      cases action with
      | next =>
          cases turned
          exact Turned.still (Or.inl (List.nil_subset _)) (Own.unlocked here rfl)
      | fail | crash => cases turned; exact gone
      | answer | deliver => cases turned
  | loaded image =>
      cases action with
      | next =>
          cases turned
          exact Turned.still (Or.inl (List.nil_subset _)) (Own.unlocked known rfl)
      | fail | crash => cases turned; exact gone
      | answer | deliver => cases turned
  | located image selfPath =>
      cases action with
      | next =>
          cases turned
          split
          · exact Turned.still (Or.inl (List.nil_subset _))
              (Own.unlocked (fun _ member => (List.not_mem_nil member).elim) rfl)
          · exact gone
      | fail | crash => cases turned; exact gone
      | answer | deliver => cases turned
  | ready selfPath current =>
      cases action with
      | next =>
          cases turned
          cases selfPath with
          | installed =>
              exact Turned.still (Or.inl (List.nil_subset _)) (Own.unlocked here rfl)
          | deleted => exact gone
      | fail | crash => cases turned; exact gone
      | answer | deliver => cases turned
  | opened current lock =>
      cases action with
      | next =>
          cases turned
          split
          · next granted =>
              exact Turned.still (Or.inr ⟨_, granted, List.Subset.refl _⟩)
                (Own.ungated known rfl fresh rfl)
          · exact gone
      | fail | crash => cases turned; exact gone
      | answer | deliver => cases turned
  | locked current lock =>
      have covers := own.covers current lock rfl
      cases action with
      | next | fail =>
          cases turned
          exact Turned.still (Or.inl (List.Subset.refl _)) (Own.ungated known rfl covers rfl)
      | crash => cases turned; exact gone
      | answer | deliver => cases turned
  | identified current lock localId =>
      have covers := own.covers current lock rfl
      cases action with
      | answer remote =>
          cases turned
          split
          · exact gone
          · exact Turned.still (Or.inl (List.Subset.refl _)) (Own.ungated known rfl covers rfl)
      | fail | crash => cases turned; exact gone
      | next | deliver => cases turned
  | probed current lock localId =>
      cases action with
      | deliver package =>
          cases turned
          have count : (dir.claimStaging package).packages.length = dir.packages.length + 1 := by
            rw [Directory.claimStaging, List.length_append, List.length_singleton]
          have inside : lock < dir.packages.length := known lock (by simp)
          have covers := own.covers current lock rfl
          refine ⟨extends_claimStaging dir package, count ▸ Nat.le_succ _, Or.inl rfl,
            Or.inl (List.Subset.refl _), Own.ungated ?_ rfl
              ((covers_iff (extends_claimStaging dir package) inside).mpr covers) rfl⟩
          intro inode member
          simp only [Stage.files, List.mem_cons, List.not_mem_nil, or_false] at member
          rw [count]
          rcases member with rfl | rfl
          · exact Nat.lt_succ_of_lt inside
          · exact Nat.lt_succ_self _
      | fail | crash => cases turned; exact gone
      | next | answer => cases turned
  | staged current lock localId tmp =>
      cases action with
      | next =>
          simp only [stageTurn, Option.some.injEq] at turned
          split at turned
          · next permitted =>
              cases turned
              refine Turned.still (Or.inl (List.Subset.refl _)) ⟨known, own.covers, ?_, ?_⟩
              · intro other file found
                cases found
                exact permits_above permitted
              · intro file found
                cases found
          · cases turned
            exact Turned.leave
      | fail => cases turned; exact Turned.leave
      | crash => cases turned; exact gone
      | answer | deliver => cases turned
  | permitted current lock tmp =>
      cases action with
      | next =>
          simp only [stageTurn, Option.some.injEq] at turned
          split at turned
          · next same =>
              cases turned
              refine Turned.still (Or.inl (List.Subset.refl _)) ⟨known, own.covers, own.above, ?_⟩
              intro file found
              cases found
              exact same
          · cases turned
            exact Turned.leave
      | fail => cases turned; exact Turned.leave
      | crash => cases turned; exact gone
      | answer | deliver => cases turned
  | unchanged current lock tmp =>
      cases action with
      | next =>
          simp only [stageTurn, Option.some.injEq] at turned
          split at turned
          · cases turned
            exact Turned.still (Or.inl (List.Subset.refl _))
              ⟨known, own.covers, own.above, own.settled⟩
          · cases turned
            exact Turned.leave
      | fail => cases turned; exact Turned.leave
      | crash => cases turned; exact gone
      | answer | deliver => cases turned
  | proven current lock tmp =>
      cases action with
      | next =>
          cases turned
          exact ⟨extends_replace dir tmp, Nat.le_refl _, Or.inr ⟨current, lock, tmp, rfl, rfl⟩,
            Or.inl (List.Subset.refl _),
            Own.unlocked (fun _ member => (List.not_mem_nil member).elim) rfl⟩
      | fail => cases turned; exact Turned.leave
      | crash => cases turned; exact gone
      | answer | deliver => cases turned
  | installed lock =>
      cases action with
      | next | fail | crash => cases turned; exact gone
      | answer | deliver => cases turned
  | gone => cases action <;> cases turned

/-- Only the rename of a process that has passed all checks moves the installed name. -/
theorem stageTurn_renamed {dir after : Directory} {grants : Claim Inode → Bool}
    {stage later : Stage} {action : Act}
    (turned : stageTurn dir grants stage action = some (after, later))
    (renamed : after.installed ≠ dir.installed) :
    ∃ current lock tmp, stage = .proven current lock tmp ∧ after = dir.replace tmp := by
  revert turned
  fun_cases stageTurn dir grants stage action
  all_goals
    intro turned
    simp only [Option.some.injEq, reduceCtorEq] at turned
  all_goals
    first
      | cases turned; exact (renamed rfl).elim
      | split at turned <;> cases turned <;> exact (renamed rfl).elim
      | cases turned; exact ⟨_, _, _, rfl, rfl⟩

/-! ### Runs -/

theorem program_eq_some {dir : Directory} {others : List Stage} {stage : Stage} {action : Act}
    {turn : Turn Directory Stage} (ran : program dir others stage action = some turn) :
    stageTurn dir (grantable held others) stage action = some (turn.shared, turn.proc) ∧
      turn.spawned = [] := by
  rw [program, Option.map_eq_some_iff] at ran
  obtain ⟨⟨after, later⟩, turned, rfl⟩ := ran
  exact ⟨turned, rfl⟩

/-- While the installed name leads to the file a process has locked, nobody else can replace it. -/
theorem program_keeps : Keeps program Fresh Installed Own LocksApart where
  symm _ _ apart := apart.symm
  step := by
    intro dir others stage action turn there own beside fresh ran
    obtain ⟨turned, none⟩ := program_eq_some ran
    have moved := stageTurn_turned there own fresh turned
    rw [none]
    refine ⟨?_, moved.own, ?_, fun _ member => (List.not_mem_nil member).elim, List.Pairwise.nil⟩
    · rcases moved.installed with same | ⟨current, lock, tmp, proven, renamed⟩
      · rw [Installed, same]
        exact Nat.lt_of_lt_of_le there moved.count
      · have known := own.known tmp (by simp [proven])
        rw [Installed, renamed]
        exact Nat.lt_of_lt_of_le known moved.count
    · intro other member
      obtain ⟨theirs, apart⟩ := beside other member
      constructor
      · refine theirs.later moved.more moved.count ?_
        intro lock settled
        rcases moved.installed with same | ⟨current, mine, tmp, proven, _⟩
        · exact same
        · -- Both have seen the installed name lead to the file they hold.
          have first := own.settled mine (by simp [proven])
          have second := theirs.settled lock settled
          have held : ⟨mine, .exclusive⟩ ∈ held stage := settled?_held (by simp [proven])
          rw [← first, second] at held
          exact (apart.exclusive held (settled?_held settled)).elim
      · rcases moved.taken with fewer | ⟨claim, granted, more⟩
        · exact apart.fewer fewer
        · exact apart.granted granted member more

/-- Any number of processes that have not started, over an installed package. -/
structure Start (system : System Directory Stage) : Prop where
  installed : Installed system.shared
  idle : ∀ stage ∈ system.procs, stage = .idle

theorem Start.coherent {system : System Directory Stage} (start : Start system) :
    Coherent Installed Own LocksApart system where
  common := start.installed
  own stage member := by
    rw [start.idle stage member]
    exact Own.unlocked (fun _ member => (List.not_mem_nil member).elim) rfl
  apart := by
    apply List.pairwise_of_forall_mem_list
    intro stage member other also
    rw [start.idle stage member, LocksApart]
    exact fun _ found => (List.not_mem_nil found).elim

/-- In a run in which every lock is taken on a package no newer than the process's own, every rename
raises the installed revision. -/
theorem renames_raise {start before after : System Directory Stage} (fresh : Start start)
    {moves : List (Nat × Act)} (meets : start.Meets program Fresh moves)
    (ran : start.run program moves = some before) {index : Nat} {action : Act}
    (moved : before.move program index action = some after)
    (renamed : after.shared.installed ≠ before.shared.installed) :
    Raises before.shared after.shared := by
  have coherent := program_keeps.run fresh.coherent meets ran
  obtain ⟨stage, turn, found, turned, rfl⟩ := System.move_eq_some.mp moved
  obtain ⟨own, _⟩ := coherent.beside program_keeps.symm found
  obtain ⟨current, lock, tmp, rfl, replaced⟩ :=
    stageTurn_renamed (program_eq_some turned).1 renamed
  rw [replaced]
  intro revision carried
  rw [own.settled lock rfl] at carried
  obtain ⟨bound, started, low⟩ := own.covers current lock rfl revision carried
  obtain ⟨later, carries, high⟩ := own.above current tmp rfl bound started
  exact ⟨later, carries, Nat.lt_of_le_of_lt low high⟩

/-! ### Two runs -/

def digestOf (byte : UInt8) : Digest := ⟨List.replicate 32 byte, List.length_replicate⟩

def release (byte : UInt8) (revision : Nat) : Package := ⟨digestOf byte, .ok (some revision)⟩

/-- Two processes of one package that have not started. -/
def twoIdle : System Directory Stage := ⟨⟨[release 1 1], 0, []⟩, [.idle, .idle]⟩

theorem twoIdle_start : Start twoIdle := by
  constructor
  · exact Nat.zero_lt_one
  · intro stage member
    simpa [twoIdle] using member

/-- A process reads its own revision and its path. -/
def starts (index : Nat) : List (Nat × Act) := List.replicate 3 (index, .next)

/-- It takes the lock, downloads a package and passes every check. -/
def prepares (index : Nat) (package : Package) : List (Nat × Act) :=
  [(index, .next), (index, .next), (index, .next), (index, .answer none),
    (index, .deliver package), (index, .next), (index, .next), (index, .next)]

def overtaken : List (Nat × Act) :=
  starts 0 ++ starts 1 ++ prepares 1 (release 5 5) ++ [(1, .next), (1, .next)] ++
    prepares 0 (release 3 3)

/-- The last move of a run replaces the installed package, and raises its revision or not. -/
def renames (raises : Bool) (moves : List (Nat × Act)) : Bool :=
  (twoIdle.run program moves).any fun before =>
    (before.move program 0 .next).any fun after =>
      decide (after.shared.installed ≠ before.shared.installed) &&
        decide (Raises before.shared after.shared) == raises

theorem renames_spec {raises : Bool} {moves : List (Nat × Act)}
    (renamed : renames raises moves = true) :
    ∃ before after, twoIdle.run program moves = some before ∧
      before.move program 0 .next = some after ∧
        after.shared.installed ≠ before.shared.installed ∧
          decide (Raises before.shared after.shared) = raises := by
  obtain ⟨before, ran, renamed⟩ := (Option.any_eq_true _ _).mp renamed
  obtain ⟨after, moved, renamed⟩ := (Option.any_eq_true _ _).mp renamed
  rw [Bool.and_eq_true, decide_eq_true_eq, beq_iff_eq] at renamed
  exact ⟨before, after, ran, moved, renamed.1, renamed.2⟩

/-- The process that was started from revision 1 takes the lock on revision 5 and installs 3. -/
theorem rename_lowers :
    Start twoIdle ∧ ∃ before after, twoIdle.run program overtaken = some before ∧
      before.move program 0 .next = some after ∧
        after.shared.installed ≠ before.shared.installed ∧ ¬ Raises before.shared after.shared := by
  have lowered : renames false overtaken = true := by decide +kernel
  obtain ⟨before, after, ran, moved, changed, lower⟩ := renames_spec lowered
  exact ⟨twoIdle_start, before, after, ran, moved, changed, of_decide_eq_false lower⟩

/-- Alone it replaces revision 1 by revision 5. -/
theorem rename_raises : ∃ before after,
    twoIdle.run program (starts 0 ++ prepares 0 (release 5 5)) = some before ∧
      before.move program 0 .next = some after ∧
        after.shared.installed ≠ before.shared.installed ∧ Raises before.shared after.shared := by
  have meets : twoIdle.Meets program Fresh (starts 0 ++ prepares 0 (release 5 5)) := by
    decide +kernel
  have raised : renames true (starts 0 ++ prepares 0 (release 5 5)) = true := by decide +kernel
  obtain ⟨before, after, ran, moved, changed, _⟩ := renames_spec raised
  exact ⟨before, after, ran, moved, changed, renames_raise twoIdle_start meets ran moved changed⟩

end Onelf.Runtime.Update.Install
