import Onelf.Runtime.Cache.Extraction

/-! What no interleaving of launches and collectors takes from a launch. -/

namespace Onelf.Runtime.Cache

open Onelf.Lib

section
variable {Id Entry Blob : Type}

/-! ### What holds of each party -/

/-- The tree is there and holds every entry. -/
def Complete (entries : List Entry) (package : Package Entry) : Prop :=
  ∃ tree, package.tree = some tree ∧ ∀ entry ∈ entries, entry ∈ tree

/-- A completion marker stands beside a complete tree only. -/
def Marked (entries : List Entry) (package : Package Entry) : Prop :=
  package.ready = true → Complete entries package

namespace Stage

/-- The in-use lock file is open. -/
@[simp] def opens : Stage Entry → Bool
  | starting | gone => false
  | _ => true

/-- The tree was seen complete. -/
@[simp] def serves : Stage Entry → Bool
  | hit | touching _ | running => true
  | _ => false

/-- The tree was seen incomplete, and is not marked yet. -/
@[simp] def rebuilds : Stage Entry → Bool
  | clearing _ | unmarking _ | clearingTemp _ | makingTemp _ | openingStore _ | placing _ _
  | linking _ _ _ | moving _ | marking _ | failing _ _ | withdrawing _ => true
  | _ => false

/-- What is still to be put in the scratch tree, once there is one. -/
@[simp] def left (entries : List Entry) : Stage Entry → Option (List Entry)
  | openingStore _ => some entries
  | placing _ rest => some rest
  | linking _ entry rest => some (entry :: rest)
  | moving _ => some []
  | _ => none

end Stage

structure Owns (entries : List Entry) (package : Package Entry) (stage : Stage Entry) : Prop where
  lock : stage.opens = true → package.lock = true
  mutex : ∀ mutex, stage.mutex? = some mutex → package.mutex = some mutex
  serves : stage.serves = true → package.ready = true
  rebuilds : stage.rebuilds = true → package.ready = false
  scratch : ∀ rest, stage.left entries = some rest → ∃ temp, package.temp = some temp ∧
    ∀ entry ∈ entries, entry ∈ rest ∨ entry ∈ temp
  moved : ∀ mutex, stage = .marking mutex → Complete entries package

/-- A change that takes nothing from anybody. -/
structure Mild (package changed : Package Entry) : Prop where
  tree : changed.tree = package.tree
  ready : changed.ready = package.ready
  temp : changed.temp = package.temp
  lock : package.lock = true → changed.lock = true
  mutex : ∀ mutex, package.mutex = some mutex → changed.mutex = some mutex

theorem Mild.refl (package : Package Entry) : Mild package package :=
  ⟨rfl, rfl, rfl, id, fun _ => id⟩

theorem Mild.owns {entries : List Entry} {package changed : Package Entry} {stage : Stage Entry}
    (mild : Mild package changed) (owns : Owns entries package stage) :
    Owns entries changed stage where
  lock opens := mild.lock (owns.lock opens)
  mutex mutex found := mild.mutex mutex (owns.mutex mutex found)
  serves served := mild.ready.trans (owns.serves served)
  rebuilds rebuilt := mild.ready.trans (owns.rebuilds rebuilt)
  scratch rest left := mild.temp ▸ owns.scratch rest left
  moved mutex same := by
    rw [Complete, mild.tree]
    exact owns.moved mutex same

/-- What an extraction does to a package it saw incomplete. -/
structure Rebuild (package changed : Package Entry) : Prop where
  ready : package.ready = false
  lock : changed.lock = package.lock
  mutex : changed.mutex = package.mutex

/-- It takes nothing from a launch that does not extract. -/
theorem Rebuild.owns {entries : List Entry} {package changed : Package Entry} {stage : Stage Entry}
    (rebuild : Rebuild package changed) (idle : stage.extracts = false)
    (owns : Owns entries package stage) : Owns entries changed stage := by
  have served := owns.serves
  rw [rebuild.ready] at served
  constructor
  · rw [rebuild.lock]
    exact owns.lock
  · rw [rebuild.mutex]
    exact owns.mutex
  · intro serves
    cases served serves
  all_goals cases stage <;> first | contradiction | simp

/-! ### What a launch does -/

variable [DecidableEq Id] [DecidableEq Entry] [DecidableEq Blob]
  {packages : Packages Id Entry Blob} {root after : Root Id Entry Blob}
  {grants : Claim (LockFile Id) → Bool} {id : Id} {stage later : Stage Entry}
  {action : Act Id Entry Blob}

omit [DecidableEq Blob] in
theorem Owns.placed {mutex : Nat} {entry : Entry} {rest : List Entry}
    {entries : List Entry} (owns : Owns entries (root.packages id) stage)
    (places : stage = .placing mutex (entry :: rest) ∨ stage = .linking mutex entry rest) :
    Owns entries ((root.placeTemp id entry).packages id) (.placing mutex rest) := by
  have left : stage.left entries = some (entry :: rest) ∧ stage.mutex? = some mutex ∧
      stage.opens = true ∧ stage.rebuilds = true := by
    rcases places with same | same <;> simp [same]
  rcases owns.scratch _ left.1 with ⟨temp, there, placed⟩
  constructor
  · simp [owns.lock left.2.2.1]
  · simp [owns.mutex mutex left.2.1]
  · simp
  · simp [owns.rebuilds left.2.2.2]
  · intro others same
    cases same
    refine ⟨entry :: temp.filter (· ≠ entry), by simp [there], ?_⟩
    intro other member
    by_cases here : other = entry
    · exact Or.inr (here ▸ List.mem_cons_self)
    · rcases placed other member with waits | already
      · exact Or.inl ((List.mem_cons.mp waits).resolve_left here)
      · refine Or.inr (List.mem_cons_of_mem _ (List.mem_filter.mpr ⟨already, ?_⟩))
        exact decide_eq_true here
  · nofun

theorem launchNext_owns (owns : Owns (packages.entries id) (root.packages id) stage)
    (marked : Marked (packages.entries id) (root.packages id))
    (ran : launchNext packages root grants id stage = some (after, later)) :
    Owns (packages.entries id) (after.packages id) later := by
  have whole := owns
  rcases whole with ⟨lock, mutex, serves, rebuilds, scratch, moved⟩
  fun_cases launchNext packages root grants id stage
  all_goals simp only [launchNext, *, reduceCtorEq, Option.some.injEq, Prod.mk.injEq, if_true,
    if_false, Bool.false_eq_true] at ran
  all_goals rcases ran with ⟨rfl, rfl⟩
  case case20 => exact owns.placed (Or.inl rfl)
  case case23 => exact owns.placed (Or.inr rfl)
  case case4 => split <;> constructor <;> simp_all
  case case5 => split <;> constructor <;> simp_all
  case case11 => split <;> constructor <;> simp_all [Marked, Complete]
  case case12 => split <;> constructor <;> simp_all
  all_goals constructor <;> simp_all [Complete]

theorem launchNext_change (owns : Owns (packages.entries id) (root.packages id) stage)
    (ran : launchNext packages root grants id stage = some (after, later)) :
    Mild (root.packages id) (after.packages id) ∨
      stage.rebuilds = true ∧ Rebuild (root.packages id) (after.packages id) := by
  have rebuilt := owns.rebuilds
  fun_cases launchNext packages root grants id stage
  all_goals simp only [launchNext, *, reduceCtorEq, Option.some.injEq, Prod.mk.injEq, if_true,
    if_false, Bool.false_eq_true] at ran
  all_goals rcases ran with ⟨rfl, rfl⟩
  case case13 | case14 | case15 | case16 | case20 | case23 | case24 | case26 | case29 | case30 =>
    refine Or.inr ⟨rfl, rebuilt rfl, ?_, ?_⟩ <;> simp
  all_goals
    left
    constructor <;> simp_all

theorem launchNext_elsewhere (ran : launchNext packages root grants id stage = some (after, later))
    {other : Id} (apart : other ≠ id) : after.packages other = root.packages other := by
  fun_cases launchNext packages root grants id stage
  all_goals simp only [launchNext, *, reduceCtorEq, Option.some.injEq, Prod.mk.injEq, if_true,
    if_false, Bool.false_eq_true] at ran
  all_goals rcases ran with ⟨rfl, _⟩
  all_goals simp [apart]

theorem launchNext_marked (owns : Owns (packages.entries id) (root.packages id) stage)
    (marked : Marked (packages.entries id) (root.packages id))
    (ran : launchNext packages root grants id stage = some (after, later)) :
    Marked (packages.entries id) (after.packages id) := by
  have rebuilt := owns.rebuilds
  have moved := owns.moved
  fun_cases launchNext packages root grants id stage
  all_goals simp only [launchNext, *, reduceCtorEq, Option.some.injEq, Prod.mk.injEq, if_true,
    if_false, Bool.false_eq_true] at ran
  all_goals rcases ran with ⟨rfl, rfl⟩
  all_goals simp_all [Marked, Complete]

/-- The locks of a launch are those it had and one that was granted. -/
theorem launchNext_held (ran : launchNext packages root grants id stage = some (after, later)) :
    later.claims id ⊆ stage.claims id ∨
      ∃ claim, grants claim = true ∧
        later.claims id ⊆ claim :: stage.claims id := by
  fun_cases launchNext packages root grants id stage
  all_goals simp only [launchNext, *, reduceCtorEq, Option.some.injEq, Prod.mk.injEq, if_true,
    if_false, Bool.false_eq_true] at ran
  all_goals rcases ran with ⟨rfl, rfl⟩
  case case2 granted => exact Or.inr ⟨_, granted, by simp⟩
  case case9 granted => exact Or.inr ⟨_, granted, by simp⟩
  case case17 granted => exact Or.inr ⟨_, granted, by simp⟩
  all_goals left
  case case4 | case5 | case11 | case12 => split <;> simp
  all_goals simp

/-- What a turn of a launch does to its package, and to the locks it holds. -/
structure Turned (packages : Packages Id Entry Blob) (grants : Claim (LockFile Id) → Bool)
    (root after : Root Id Entry Blob) (id : Id) (stage later : Stage Entry) : Prop where
  owns : Owns (packages.entries id) (after.packages id) later
  marked : Marked (packages.entries id) (after.packages id)
  change : Mild (root.packages id) (after.packages id) ∨
    stage.rebuilds = true ∧ Rebuild (root.packages id) (after.packages id)
  elsewhere : ∀ other, other ≠ id → after.packages other = root.packages other
  held : later.claims id ⊆ stage.claims id ∨
    ∃ claim, grants claim = true ∧ later.claims id ⊆ claim :: stage.claims id

omit [DecidableEq Id] [DecidableEq Entry] [DecidableEq Blob] in
theorem Owns.gone (entries : List Entry) (package : Package Entry) : Owns entries package .gone := by
  constructor <;> simp

theorem launchTurn_turned (owns : Owns (packages.entries id) (root.packages id) stage)
    (marked : Marked (packages.entries id) (root.packages id))
    (ran : launchTurn packages root grants id stage action = some (after, later)) :
    Turned packages grants root after id stage later := by
  cases action with
  | next =>
      exact ⟨launchNext_owns owns marked ran, launchNext_marked owns marked ran,
        launchNext_change owns ran, fun _ => launchNext_elsewhere ran, launchNext_held ran⟩
  | crash =>
      cases ran
      exact ⟨.gone _ _, marked, Or.inl (.refl _), fun _ _ => rfl, Or.inl (by simp)⟩
  | fail =>
      rcases owns with ⟨lock, mutex, serves, rebuilds, scratch, moved⟩
      cases stage
      all_goals simp only [launchTurn, reduceCtorEq, Option.some.injEq, Prod.mk.injEq] at ran
      all_goals rcases ran with ⟨rfl, rfl⟩
      all_goals refine ⟨?_, marked, Or.inl (.refl _), fun _ _ => rfl, Or.inl (by simp)⟩
      all_goals constructor <;> simp_all
  | unlink entry =>
      rcases owns with ⟨lock, mutex, serves, rebuilds, scratch, moved⟩
      cases stage
      all_goals simp only [launchTurn, reduceCtorEq, Option.some.injEq, Prod.mk.injEq] at ran
      all_goals rcases ran with ⟨rfl, rfl⟩
      all_goals refine ⟨?_, ?_, Or.inr ⟨rfl, rebuilds rfl, ?_, ?_⟩, ?_, Or.inl (by simp)⟩
      all_goals try constructor
      all_goals simp_all [Marked]
  | pick other => cases ran
  | sweepStore => cases ran
  | unlinkBlob blob => cases ran

/-! ### What a collector does -/

/-- The package a collector removes. -/
@[simp] def Sweep.removes : Sweep Id → Option Id
  | .removing id _ _ => some id
  | _ => none

/-- A collector that has taken a package's marker left none. -/
def Unmarked (root : Root Id Entry Blob) (sweep : Sweep Id) : Prop :=
  ∀ id locked part, sweep = .removing id locked part → part = .mark ∨ (root.packages id).ready = false

variable {collector : Collector Id} {sweep next : Sweep Id}

/-- What a turn of a collector does: to the package it removes, and to the locks it holds. -/
structure Swept (grants : Claim (LockFile Id) → Bool) (root after : Root Id Entry Blob)
    (sweep next : Sweep Id) : Prop where
  unmarked : Unmarked after next
  change : ∀ id, after.packages id = root.packages id ∨ sweep.removes = some id ∧
    (after.packages id).ready = false ∧ (after.packages id).lock = (root.packages id).lock
  held : next.claims ⊆ sweep.claims ∨
    ∃ claim, grants claim = true ∧ next.claims ⊆ claim :: sweep.claims
  removes : ∀ id, next.removes = some id → sweep.removes = some id ∨
    (root.packages id).lock = false ∨ grants ⟨.inUse id, .exclusive⟩ = true

omit [DecidableEq Id] [DecidableEq Entry] [DecidableEq Blob] in
/-- A collector at work changes the package it removes, and leaves it unmarked. -/
theorem Swept.removed {locked : Bool} {part : Removal}
    (elsewhere : ∀ other, other ≠ id → after.packages other = root.packages other)
    (ready : (after.packages id).ready = false)
    (lock : (after.packages id).lock = (root.packages id).lock)
    (later : next = .picking ∨ ∃ part, next = .removing id locked part) :
    Swept grants root after (.removing id locked part) next where
  unmarked := by
    intro other held part same
    rcases later with picking | ⟨part, removing⟩
    · rw [picking] at same
      cases same
    · rw [removing] at same
      cases same
      exact Or.inr ready
  change := by
    intro other
    by_cases here : other = id
    · rw [here]
      exact Or.inr ⟨rfl, ready, lock⟩
    · exact Or.inl (elsewhere other here)
  held := by
    rcases later with picking | ⟨part, removing⟩
    · exact Or.inl (picking ▸ List.nil_subset _)
    · rw [removing]
      exact Or.inl (by cases locked <;> simp)
  removes := by
    intro other removes
    rcases later with picking | ⟨part, removing⟩
    · rw [picking] at removes
      cases removes
    · rw [removing] at removes
      exact Or.inl removes

omit [DecidableEq Id] [DecidableEq Entry] [DecidableEq Blob] in
/-- A turn that changes no package and starts no removal. -/
theorem Swept.still (same : after.packages = root.packages) (removes : next.removes = none)
    (held : next.claims ⊆ sweep.claims ∨
      ∃ claim, grants claim = true ∧ next.claims ⊆ claim :: sweep.claims) :
    Swept grants root after sweep next where
  unmarked := by
    intro id locked part same_sweep
    rw [same_sweep] at removes
    cases removes
  change id := Or.inl (by rw [same])
  held := held
  removes := by
    intro id some
    rw [removes] at some
    cases some

omit [DecidableEq Id] [DecidableEq Entry] [DecidableEq Blob] in
/-- A turn that starts a removal. -/
theorem Swept.starts {locked : Bool}
    (free : if locked then grants ⟨.inUse id, .exclusive⟩ = true else (root.packages id).lock = false) :
    Swept grants root root sweep (.removing id locked .mark) where
  unmarked := by
    intro other held part same
    cases same
    exact Or.inl rfl
  change _ := Or.inl rfl
  held := by
    cases locked with
    | true => exact Or.inr ⟨_, free, by simp⟩
    | false => exact Or.inl (List.nil_subset _)
  removes := by
    intro other removes
    cases removes
    cases locked with
    | true => exact Or.inr (Or.inr free)
    | false => exact Or.inr (Or.inl free)

omit [DecidableEq Entry] [DecidableEq Blob] in
theorem collectorNext_swept (unmarked : Unmarked root sweep)
    (ran : collectorNext root grants collector sweep = some (after, next)) :
    Swept grants root after sweep next := by
  cases sweep with
  | picking => cases ran
  | gone => cases ran
  | chosen id =>
      cases ran
      by_cases there : (root.packages id).lock = true
      · rw [if_pos there]
        exact .still rfl rfl (Or.inl (List.nil_subset _))
      · rw [if_neg there]
        exact .starts (Bool.eq_false_iff.mpr there)
  | opened id =>
      cases ran
      by_cases granted : grants ⟨.inUse id, .exclusive⟩ = true
      · rw [if_pos granted]
        exact .starts granted
      · rw [if_neg granted]
        exact .still rfl rfl (Or.inl (List.nil_subset _))
  | removing id locked part =>
      have marked := unmarked id locked part rfl
      cases part with
      | mark =>
          cases ran
          exact .removed (fun _ apart => by simp [apart]) (by simp) (by simp) (Or.inr ⟨_, rfl⟩)
      | tree =>
          have ready := marked.resolve_left nofun
          cases ran
          cases collector <;> exact .removed (fun _ apart => by simp [apart]) (by simpa using ready)
            (by simp) (Or.inr ⟨_, rfl⟩)
      | temp | record =>
          have ready := marked.resolve_left nofun
          cases ran
          exact .removed (fun _ apart => by simp [apart]) (by simpa using ready) (by simp)
            (Or.inr ⟨_, rfl⟩)
      | mutex =>
          have ready := marked.resolve_left nofun
          cases ran
          exact .removed (fun _ apart => by simp [apart]) (by simpa using ready) (by simp)
            (Or.inl rfl)
  | storing =>
      cases ran
      exact .still rfl rfl (Or.inl (List.nil_subset _))

theorem collectorTurn_swept (unmarked : Unmarked root sweep)
    (ran : collectorTurn packages root grants collector sweep action = some (after, next)) :
    Swept grants root after sweep next := by
  cases action with
  | next => exact collectorNext_swept unmarked ran
  | fail => cases ran
  | crash =>
      cases ran
      exact .still rfl rfl (Or.inl (List.nil_subset _))
  | pick id =>
      have chosen : after.packages = root.packages ∧ next = .chosen id := by
        cases sweep <;> cases collector <;> simp_all [collectorTurn]
      rw [chosen.2]
      exact .still chosen.1 rfl (Or.inl (List.nil_subset _))
  | unlink entry =>
      cases sweep with
      | removing id locked part =>
          have marked := unmarked id locked part rfl
          cases part with
          | tree | temp =>
              have ready := marked.resolve_left nofun
              cases ran
              exact .removed (fun _ apart => by simp [apart]) (by simpa using ready) (by simp)
                (Or.inr ⟨_, rfl⟩)
          | _ => cases ran
      | _ => cases ran
  | sweepStore =>
      cases sweep with
      | picking =>
          cases ran
          by_cases granted : grants ⟨.store, .exclusive⟩ = true
          · rw [if_pos granted]
            exact .still rfl rfl (Or.inr ⟨_, granted, by simp⟩)
          · rw [if_neg granted]
            exact .still rfl rfl (Or.inl (List.nil_subset _))
      | _ => cases ran
  | unlinkBlob blob =>
      have swept : after.packages = root.packages ∧ next = sweep ∧ sweep = .storing := by
        cases sweep <;> simp only [collectorTurn, reduceCtorEq] at ran
        split at ran <;> cases ran
        exact ⟨rfl, rfl, rfl⟩
      rw [swept.2.1, swept.2.2]
      exact .still swept.1 rfl (Or.inl (List.Subset.refl _))

/-! ### Every interleaving -/

/-- The package whose in-use lock a process holds. -/
@[simp] def pinned : Proc Id Entry → Option Id
  | .launch id stage => if stage.pins then some id else none
  | .collector _ _ => none

/-- The package a process removes. -/
@[simp] def removed : Proc Id Entry → Option Id
  | .launch _ _ => none
  | .collector _ sweep => sweep.removes

omit [DecidableEq Id] [DecidableEq Entry] in
theorem pinned_launch {there : Id} :
    pinned (.launch id stage) = some there ↔ stage.pins = true ∧ id = there := by
  simp only [pinned, Option.ite_none_right_eq_some, Option.some.injEq]

/-- What holds of one process. -/
def Stands (packages : Packages Id Entry Blob) (root : Root Id Entry Blob) : Proc Id Entry → Prop
  | .launch id stage => Owns (packages.entries id) (root.packages id) stage
  | .collector _ sweep => Unmarked root sweep

/-- What holds between two: their locks go together, and neither removes what the other runs. -/
structure Apart (proc other : Proc Id Entry) : Prop where
  locks : Compatible (held proc) (held other)
  spared : ∀ id, removed proc = some id → pinned other ≠ some id
  spares : ∀ id, removed other = some id → pinned proc ≠ some id

omit [DecidableEq Entry] in
theorem Apart.symm {proc other : Proc Id Entry} (apart : Apart proc other) : Apart other proc :=
  ⟨apart.locks.symm, apart.spares, apart.spared⟩

/-- No launch takes a package's in-use lock while a collector that found no lock file removes the
package. -/
def Unhurried (_ : Root Id Entry Blob) (others : List (Proc Id Entry)) (proc : Proc Id Entry)
    (action : Act Id Entry Blob) : Prop :=
  ∀ id, proc = .launch id .opened → action = .next → ∀ collector part,
    .collector collector (.removing id false part) ∉ others

omit [DecidableEq Id] [DecidableEq Entry] [DecidableEq Blob] in
theorem Stage.mutex_claimed {mutex : Nat} (id : Id) (extracts : stage.extracts = true)
    (found : stage.mutex? = some mutex) : ⟨.mutex mutex, .exclusive⟩ ∈ stage.claims id := by
  rw [claims, if_pos extracts, found]
  exact List.mem_append_left _ (List.mem_append_right _ List.mem_cons_self)

omit [DecidableEq Id] [DecidableEq Entry] [DecidableEq Blob] in
theorem Stage.inUse_claimed (id : Id) (pins : stage.pins = true) :
    ⟨.inUse id, .shared⟩ ∈ stage.claims id := by
  rw [claims, if_pos pins]
  exact List.mem_append_left _ (List.mem_append_left _ List.mem_cons_self)

omit [DecidableEq Entry] [DecidableEq Blob] in
/-- A launch that extracts holds the mutex of its package, so no other launch of it does. -/
theorem Owns.alone {entries : List Entry} {package : Package Entry} {other : Stage Entry}
    (owns : Owns entries package stage) (also : Owns entries package other)
    (compatible : Compatible (stage.claims id) (other.claims id)) (extracts : stage.extracts = true) :
    other.extracts = false := by
  cases both : other.extracts with
  | false => rfl
  | true =>
      exfalso
      have opened {stage : Stage Entry} (extracts : stage.extracts = true) :
          ∃ mutex, stage.mutex? = some mutex := by
        cases stage <;> simp_all
      rcases opened extracts with ⟨mutex, mine⟩
      rcases opened both with ⟨theirs, found⟩
      have same : theirs = mutex :=
        Option.some.inj ((also.mutex _ found).symm.trans (owns.mutex _ mine))
      rw [same] at found
      exact compatible.exclusive (stage.mutex_claimed id extracts mine)
        (other.mutex_claimed id both found)

omit [DecidableEq Id] [DecidableEq Entry] [DecidableEq Blob] in
/-- A launch without the in-use lock asks nothing of the package but its lock file. -/
theorem Owns.unpinned {entries : List Entry} {package changed : Package Entry}
    (owns : Owns entries package stage) (unpinned : stage.pins = false)
    (lock : changed.lock = package.lock) : Owns entries changed stage := by
  constructor
  · rw [lock]
    exact owns.lock
  all_goals cases stage <;> first | contradiction | simp

omit [DecidableEq Entry] [DecidableEq Blob] in
/-- A launch's turn leaves another process what it relies on. -/
theorem Turned.others {other : Proc Id Entry}
    (turned : Turned packages grants root after id stage later)
    (owns : Owns (packages.entries id) (root.packages id) stage)
    (stands : Stands packages root other) (apart : Apart (.launch id stage) other) :
    Stands packages after other := by
  have pins : stage.rebuilds = true → stage.pins = true ∧ stage.extracts = true := by
    cases stage <;> simp
  cases other with
  | launch there waiting =>
      by_cases here : there = id
      · subst here
        rcases turned.change with mild | ⟨rebuilds, rebuild⟩
        · exact mild.owns stands
        · exact rebuild.owns (owns.alone stands apart.locks (pins rebuilds).2) stands
      · rw [Stands, turned.elsewhere there here]
        exact stands
  | collector collector sweep =>
      intro there locked part same
      rcases stands there locked part same with first | ready
      · exact Or.inl first
      · right
        by_cases here : there = id
        · subst here
          rcases turned.change with mild | ⟨rebuilds, _⟩
          · exact mild.ready.trans ready
          · exfalso
            refine apart.spares there (by rw [same]; rfl) ?_
            exact if_pos (pins rebuilds).1
        · rw [turned.elsewhere there here]
          exact ready

omit [DecidableEq Entry] [DecidableEq Blob] in
/-- A collector's turn leaves another process what it relies on. -/
theorem Swept.others {other : Proc Id Entry} (swept : Swept grants root after sweep next)
    (stands : Stands packages root other) (apart : Apart (.collector collector sweep) other) :
    Stands packages after other := by
  cases other with
  | launch there waiting =>
      rcases swept.change there with same | ⟨removes, _, lock⟩
      · rw [Stands, same]
        exact stands
      · have spared := apart.spared there removes
        refine Owns.unpinned stands ?_ lock
        cases pins : waiting.pins with
        | false => rfl
        | true => exact absurd (if_pos pins) spared
  | collector collector waiting =>
      intro there locked part same
      rcases stands there locked part same with first | ready
      · exact Or.inl first
      · rcases swept.change there with same | ⟨_, ready, _⟩
        · exact Or.inr (same ▸ ready)
        · exact Or.inr ready

/-- A launch gets its in-use lock in one turn only, that had it granted. -/
theorem launchTurn_pins
    (ran : launchTurn packages root grants id stage action = some (after, later))
    (pins : later.pins = true) : stage.pins = true ∨
      stage = .opened ∧ action = .next ∧ grants ⟨.inUse id, .shared⟩ = true := by
  cases stage with
  | starting =>
      cases action <;> cases ran <;> cases pins
  | opened =>
      cases action with
      | next =>
          simp only [launchTurn, launchNext, Option.ite_none_right_eq_some] at ran
          exact Or.inr ⟨rfl, rfl, ran.1⟩
      | fail | unlink _ | pick _ | sweepStore | unlinkBlob _ => cases ran
      | crash =>
          cases ran
          cases pins
  | gone =>
      cases action with
      | crash =>
          cases ran
          cases pins
      | _ => cases ran
  | _ => exact Or.inl rfl

omit [DecidableEq Entry] [DecidableEq Blob] in
/-- A lock that is granted on its own conflicts with nothing another process holds. -/
theorem granted_apart {others : List (Proc Id Entry)} {other : Proc Id Entry}
    {claim taken : Claim (LockFile Id)} (granted : grantable held others claim = true)
    (member : other ∈ others) (holds : taken ∈ held other) : claim.conflicts taken = false := by
  have apart := List.all_eq_true.mp (List.all_eq_true.mp granted other member) taken holds
  simpa using apart

/-- No interleaving takes a package from under a launch, but for a collector that found no lock file
and a launch that takes the lock beside it. -/
theorem program_keeps (packages : Packages Id Entry Blob) :
    Keeps (program packages) Unhurried
      (fun root => ∀ id, Marked (packages.entries id) (root.packages id)) (Stands packages)
        Apart where
  symm _ _ := Apart.symm
  step := by
    intro root others proc action turn marked stands beside fits ran
    cases proc with
    | launch id stage =>
        simp only [program, Option.map_eq_some_iff] at ran
        rcases ran with ⟨⟨after, later⟩, ran, rfl⟩
        have turned := launchTurn_turned stands (marked id) ran
        refine ⟨?_, turned.owns, ?_, ?_, List.Pairwise.nil⟩
        · intro other
          by_cases here : other = id
          · rw [here]
            exact turned.marked
          · rw [turned.elsewhere other here]
            exact marked other
        · intro other member
          rcases beside other member with ⟨also, apart⟩
          refine ⟨turned.others stands also apart, ?_, ?_, ?_⟩
          · rcases turned.held with fewer | ⟨claim, granted, more⟩
            · exact apart.locks.fewer fewer
            · exact apart.locks.granted granted member more
          · intro there removes
            cases removes
          · intro there removes pinned
            have pinned := pinned_launch.mp pinned
            rcases launchTurn_pins ran pinned.1 with pins | ⟨opened, next, granted⟩
            · refine apart.spares there removes ?_
              rw [← pinned.2]
              exact if_pos pins
            · rw [pinned.2] at granted
              cases other with
              | launch _ _ => cases removes
              | collector collector sweep =>
                  cases sweep with
                  | removing _ locked part =>
                      cases removes
                      cases locked with
                      | true =>
                          have apart := granted_apart granted member List.mem_cons_self
                          simp [Claim.conflicts] at apart
                      | false =>
                          rw [pinned.2] at fits
                          exact fits there (by rw [opened]) next collector part member
                  | _ => cases removes
        · intro child member
          cases member
    | collector collector sweep =>
        simp only [program, Option.map_eq_some_iff] at ran
        rcases ran with ⟨⟨after, next⟩, ran, rfl⟩
        have swept := collectorTurn_swept stands ran
        refine ⟨?_, swept.unmarked, ?_, ?_, List.Pairwise.nil⟩
        · intro id
          rcases swept.change id with same | ⟨_, ready, _⟩
          · rw [same]
            exact marked id
          · intro ready'
            rw [ready] at ready'
            cases ready'
        · intro other member
          rcases beside other member with ⟨also, apart⟩
          refine ⟨swept.others also apart, ?_, ?_, ?_⟩
          · rcases swept.held with fewer | ⟨claim, granted, more⟩
            · exact apart.locks.fewer fewer
            · exact apart.locks.granted granted member more
          · intro there removes pinned
            rcases swept.removes there removes with before | missing | granted
            · exact apart.spared there before pinned
            · cases other with
              | collector _ _ => cases pinned
              | launch id stage =>
                  have pinned := pinned_launch.mp pinned
                  have opens : stage.opens = true := by
                    cases stage <;> simp_all
                  have lock := also.lock opens
                  rw [pinned.2, missing] at lock
                  cases lock
            · cases other with
              | collector _ _ => cases pinned
              | launch id stage =>
                  have pinned := pinned_launch.mp pinned
                  have apart := granted_apart granted member (stage.inUse_claimed id pinned.1)
                  simp [Claim.conflicts, pinned.2] at apart
          · intro there _ pinned
            cases pinned
        · intro child member
          cases member

/-- Before its first operation. -/
def Proc.Fresh : Proc Id Entry → Prop
  | .launch _ stage => stage = .starting
  | .collector _ sweep => sweep = .picking

omit [DecidableEq Entry] [DecidableEq Blob] in
theorem coherent_fresh {procs : List (Proc Id Entry)}
    (marked : ∀ id, Marked (packages.entries id) (root.packages id))
    (fresh : ∀ proc ∈ procs, proc.Fresh) :
    Coherent (fun root => ∀ id, Marked (packages.entries id) (root.packages id)) (Stands packages)
      Apart ⟨root, procs⟩ where
  common := marked
  own := by
    intro proc member
    have here := fresh proc member
    cases proc with
    | launch id stage =>
        rw [Proc.Fresh] at here
        rw [here]
        constructor <;> simp
    | collector collector sweep =>
        rw [Proc.Fresh] at here
        rw [here]
        intro id locked part same
        cases same
  apart := by
    have idle : ∀ proc ∈ procs, held proc = [] ∧ pinned proc = none ∧ removed proc = none := by
      intro proc member
      have here := fresh proc member
      cases proc <;> rw [Proc.Fresh] at here <;> rw [here] <;> simp [held]
    apply List.pairwise_of_forall_mem_list
    intro proc member other also
    rcases idle proc member with ⟨none, unpinned, idle_proc⟩
    rcases idle other also with ⟨_, unpinned', idle_other⟩
    constructor
    · rw [none]
      intro claim member
      cases member
    · intro id removes
      rw [idle_proc] at removes
      cases removes
    · intro id removes
      rw [idle_other] at removes
      cases removes

/-- Whatever launches and collectors do beside each other, and wherever they stop: the tree of a
launch that has started is whole, unless a launch took its lock beside a collector that had found no
lock file. -/
theorem running_complete {packages : Packages Id Entry Blob} {root : Root Id Entry Blob}
    {procs : List (Proc Id Entry)} {moves : List (Nat × Act Id Entry Blob)}
    {final : System (Root Id Entry Blob) (Proc Id Entry)}
    (marked : ∀ id, Marked (packages.entries id) (root.packages id))
    (fresh : ∀ proc ∈ procs, proc.Fresh)
    (unhurried : System.Meets (program packages) Unhurried ⟨root, procs⟩ moves)
    (ran : System.run (program packages) ⟨root, procs⟩ moves = some final) :
    ∀ id, .launch id .running ∈ final.procs →
      Complete (packages.entries id) (final.shared.packages id) := by
  intro id member
  have held := (program_keeps packages).run (coherent_fresh marked fresh) unhurried ran
  have owns : Owns _ _ _ := held.own _ member
  exact held.common id (owns.serves rfl)

end

/-! ### A package without a lock file -/

namespace Unlocked

/-- One package of one file, that an older release extracted. -/
def packages : Packages Unit Unit Unit :=
  ⟨fun _ => [()], fun _ => none⟩

def root : Root Unit Unit Unit :=
  ⟨fun _ => ⟨some [()], true, none, false, none, true⟩, fun _ => none, 0⟩

def procs : List (Proc Unit Unit) :=
  [.launch () .starting, .collector .command .picking]

/-- The launch comes between the collector's look at the lock file and its removal. -/
def moves : List (Nat × Act Unit Unit Unit) :=
  [(1, .pick ()), (1, .next), (0, .next), (0, .next), (0, .next), (0, .next), (0, .next),
    (1, .next), (1, .unlink ())]

/-- The launch comes first. -/
def before : List (Nat × Act Unit Unit Unit) :=
  [(0, .next), (0, .next), (0, .next), (0, .next), (0, .next), (1, .pick ()), (1, .next),
    (1, .next)]

theorem root_marked : ∀ id, Marked (packages.entries id) (root.packages id) :=
  fun _ _ => ⟨[()], rfl, fun _ member => member⟩

theorem procs_fresh : ∀ proc ∈ procs, proc.Fresh := by
  simp [procs, Proc.Fresh]

theorem before_unhurried : System.Meets (program packages) Unhurried ⟨root, procs⟩ before := by
  iterate 8
    constructor
    · intro proc found id same _ collector part member
      cases found
      cases same <;> cases List.mem_singleton.mp member
    intro next moved
    cases moved
  exact trivial

end Unlocked

/-- A collector that finds no lock file removes the tree of a launch that makes one just after. -/
theorem running_not_complete :
    ¬ ∀ (packages : Packages Unit Unit Unit) (root : Root Unit Unit Unit)
      (procs : List (Proc Unit Unit)) (moves : List (Nat × Act Unit Unit Unit))
      (final : System (Root Unit Unit Unit) (Proc Unit Unit)),
      (∀ id, Marked (packages.entries id) (root.packages id)) → (∀ proc ∈ procs, proc.Fresh) →
        System.run (program packages) ⟨root, procs⟩ moves = some final →
          ∀ id, .launch id .running ∈ final.procs →
            Complete (packages.entries id) (final.shared.packages id) := by
  intro complete
  have whole := complete Unlocked.packages Unlocked.root Unlocked.procs Unlocked.moves _
    Unlocked.root_marked Unlocked.procs_fresh rfl () List.mem_cons_self
  rcases whole with ⟨tree, found, holds⟩
  cases found
  cases holds () List.mem_cons_self

theorem running_complete_before :
    ∃ final, System.run (program Unlocked.packages) ⟨Unlocked.root, Unlocked.procs⟩
        Unlocked.before = some final ∧
      .launch () .running ∈ final.procs ∧
        Complete (Unlocked.packages.entries ()) (final.shared.packages ()) :=
  ⟨_, rfl, List.mem_cons_self, running_complete Unlocked.root_marked Unlocked.procs_fresh
    Unlocked.before_unhurried rfl () List.mem_cons_self⟩

end Onelf.Runtime.Cache
