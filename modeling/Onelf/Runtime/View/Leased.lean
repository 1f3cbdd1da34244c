import Onelf.Runtime.View.Store

/-! A launch that runs from a view runs from a whole one, whatever other launches and collectors
do. -/

namespace Onelf.Runtime.ViewStore

open Onelf.Lib

section
variable {Id Key Entry Env Hash : Type} {views : Views Id Key Entry Env Hash}

/-! ### What a view shows -/

namespace Tree

/-- What `ensure_view` takes for the published view of `id`. -/
def Intact (views : Views Id Key Entry Env Hash) (id : Id) (tree : Tree Id Entry Env Hash) : Prop :=
  tree.ready = true ∧ tree.record = some (id, tree.env.map views.hash)

/-- A complete publication for `id`. -/
def Whole (views : Views Id Key Entry Env Hash) (id : Id) (tree : Tree Id Entry Env Hash) : Prop :=
  tree.entries = views.content id ∧ tree.Intact views id

end Tree

/-- What stands at the view's name is whole if its records say so. -/
def Sound (views : Views Id Key Entry Env Hash) (slot : Slot Id Entry Env Hash) : Prop :=
  ∀ id tree, slot.view = some tree → tree.Intact views id → tree.entries = views.content id

/-- The view's name shows a complete publication for `id`. -/
def Shows (views : Views Id Key Entry Env Hash) (id : Id) (slot : Slot Id Entry Env Hash) : Prop :=
  ∃ tree, slot.view = some tree ∧ tree.Whole views id

theorem Sound.absent {slot : Slot Id Entry Env Hash} (absent : slot.view = none) :
    Sound views slot := by
  intro id tree there
  rw [absent] at there
  cases there

theorem Sound.same {slot after : Slot Id Entry Env Hash} (sound : Sound views slot)
    (same : after.view = slot.view) : Sound views after := by
  rw [Sound, same]
  exact sound

theorem Shows.sound {id : Id} {slot : Slot Id Entry Env Hash} (shows : Shows views id slot) :
    Sound views slot := by
  intro owner tree there intact
  rcases shows with ⟨shown, found, whole, _, record⟩
  cases found.symm.trans there
  cases record.symm.trans intact.2
  exact whole

/-! ### Staging trees -/

section
variable (slot : Slot Id Entry Env Hash) (name : Nat)
  (change : Tree Id Entry Env Hash → Tree Id Entry Env Hash)

theorem Slot.staged_editStaged :
    (slot.editStaged name change).staged name = (slot.staged name).map change := by
  rw [staged, staged, editStaged]
  induction slot.staging with
  | nil => rfl
  | cons entry rest ih =>
      rcases entry with ⟨other, tree⟩
      rw [List.map_cons]
      by_cases here : other = name
      · rw [here, if_pos rfl, List.lookup_cons_self, List.lookup_cons_self, Option.map_some]
      · have apart : (name == other) = false := beq_false_of_ne fun same => here same.symm
        rw [if_neg here, List.lookup_cons, List.lookup_cons, apart]
        exact ih

@[simp] theorem Slot.view_rmdirStaged : (slot.rmdirStaged name).view = slot.view := by
  rw [rmdirStaged]
  split <;> rfl

end

/-- The staging tree `name` is there and is as it should be. -/
def Drafts (slot : Slot Id Entry Env Hash) (name : Nat) (drafted : Tree Id Entry Env Hash → Prop) :
    Prop :=
  slot.view = none ∧ ∃ tree, slot.staged name = some tree ∧ drafted tree

theorem Drafts.edit {slot : Slot Id Entry Env Hash} {name : Nat}
    {drafted after : Tree Id Entry Env Hash → Prop} (drafts : Drafts slot name drafted)
    (change : Tree Id Entry Env Hash → Tree Id Entry Env Hash)
    (follows : ∀ tree, drafted tree → after (change tree)) :
    Drafts (slot.editStaged name change) name after := by
  rcases drafts with ⟨absent, tree, staged, holds⟩
  refine ⟨absent, change tree, ?_, follows tree holds⟩
  rw [Slot.staged_editStaged, staged, Option.map_some]

/-! ### What each party relies on -/

/-- What holds of a view where a launch of it has come to its stage. -/
def Owns (views : Views Id Key Entry Env Hash) (id : Id) (slot : Slot Id Entry Env Hash) :
    Stage Id Entry Env Hash → Prop
  | .starting | .opened | .leased | .clearing | .gone => True
  | .locked | .discarding | .converting | .trying | .refused | .yielding false
  | .regaining false => Sound views slot
  | .readied => Sound views slot ∧ ∃ tree, slot.view = some tree ∧ tree.ready = true
  | .recorded hash => Sound views slot ∧
      ∃ tree, slot.view = some tree ∧ tree.ready = true ∧ tree.record = some (id, hash)
  | .yielding true | .regaining true | .creating | .failing _ => slot.view = none
  | .building name rest => Drafts slot name fun tree =>
      tree.entries ++ rest = views.content id ∧ tree.env = none
  | .expanding name _ => Drafts slot name fun tree =>
      tree.entries = views.content id ∧ tree.env = none
  | .recording name env => Drafts slot name fun tree =>
      tree.entries = views.content id ∧ tree.env = env
  | .syncing name | .marking name => Drafts slot name fun tree =>
      tree.entries = views.content id ∧ tree.record = some (id, tree.env.map views.hash)
  | .publishing name => Drafts slot name (Tree.Whole views id)
  | .published | .stamping => Shows views id slot
  | .running shown => ∃ tree, shown = some tree ∧ slot.view = some tree ∧ tree.Whole views id

section
variable {id : Id} {slot after : Slot Id Entry Env Hash} {stage : Stage Id Entry Env Hash}

/-- A launch that holds the mutex answers for the view, but for one it is clearing away. -/
theorem Owns.sound (owns : Owns views id slot stage) (creates : stage.creates = true)
    (settled : stage ≠ .clearing) : Sound views slot := by
  cases stage with
  | clearing => exact absurd rfl settled
  | starting | opened | leased | running _ | gone => cases creates
  | locked | discarding | converting | trying | refused => exact owns
  | readied | recorded _ => exact owns.1
  | yielding cleared | regaining cleared =>
      cases cleared with
      | true => exact .absent owns
      | false => exact owns
  | creating | failing _ => exact .absent owns
  | building _ _ | expanding _ _ | recording _ _ | syncing _ | marking _ | publishing _ =>
      exact .absent owns.1
  | published | stamping => exact Shows.sound owns

/-- A launch without the mutex asks nothing of the slot but the view it runs from. -/
theorem Owns.waiting (owns : Owns views id slot stage) (waits : stage.creates = false)
    (kept : ∀ shown, stage = .running shown → after.view = slot.view) :
    Owns views id after stage := by
  cases stage with
  | starting | opened | leased | gone => trivial
  | running shown =>
      rcases owns with ⟨tree, same, there, whole⟩
      exact ⟨tree, same, (kept shown rfl).trans there, whole⟩
  | _ => cases waits

end

/-! ### What a launch does -/

variable {store after : Store Id Key Entry Env Hash} {grants : Claim (LockFile Key) → Bool}
  {id : Id}
  {stage later : Stage Id Entry Env Hash} {action : Act Key Entry Env}

/-- How a launch's turn changes the slot of its view. -/
inductive Changes (before after : Slot Id Entry Env Hash) (stage : Stage Id Entry Env Hash) :
    Prop where
  | same (same : after = before)
  | staging (creates : stage.creates = true) (same : after.view = before.view)
  | absent (creates : stage.creates = true) (absent : before.view = none)
  | alone (creates : stage.creates = true) (alone : stage.lease? = some .exclusive)

/-- What a turn of a launch does to the slot of its view, and to the locks it holds. -/
structure Turned (views : Views Id Key Entry Env Hash) (grants : Claim (LockFile Key) → Bool)
    (store after : Store Id Key Entry Env Hash) (id : Id) (stage later : Stage Id Entry Env Hash) :
    Prop where
  owns : Owns views id (after.slots (views.key id)) later
  changes : Changes (store.slots (views.key id)) (after.slots (views.key id)) stage
  elsewhere : ∀ key, key ≠ views.key id → after.slots key = store.slots key
  locks : later.claims (views.key id) ⊆ stage.claims (views.key id) ∨
    ∃ claim, grants claim = true ∧
      later.claims (views.key id) ⊆ claim :: stage.claims (views.key id)
  releases : stage.creates = true → later.creates = false →
    Sound views (after.slots (views.key id))

/-- A turn that touches nothing. -/
theorem Turned.still (owns : Owns views id (store.slots (views.key id)) later)
    (locks : later.claims (views.key id) ⊆ stage.claims (views.key id))
    (sound : stage.creates = true → later.creates = false →
      Sound views (store.slots (views.key id))) : Turned views grants store store id stage later :=
  ⟨owns, .same rfl, fun _ _ => rfl, Or.inl locks, sound⟩

/-- A turn that touches nothing, keeps its locks and holds the mutex on. -/
theorem Turned.steady (owns : Owns views id (store.slots (views.key id)) later)
    (same : later.claims (views.key id) = stage.claims (views.key id))
    (creates : later.creates = true) : Turned views grants store store id stage later := by
  refine .still owns (by rw [same]; exact List.Subset.refl _) fun _ released => ?_
  rw [creates] at released
  cases released

/-- A turn that is granted a lock. -/
theorem Turned.granted {claim : Claim (LockFile Key)} (granted : grants claim = true)
    (owns : Owns views id (store.slots (views.key id)) later)
    (locks : later.claims (views.key id) ⊆ claim :: stage.claims (views.key id))
    (sound : stage.creates = true → later.creates = false →
      Sound views (store.slots (views.key id))) : Turned views grants store store id stage later :=
  ⟨owns, .same rfl, fun _ _ => rfl, Or.inr ⟨claim, granted, locks⟩, sound⟩

section
variable [DecidableEq Key]

/-- A turn that works on the slot of the view. -/
theorem Turned.works {slot : Slot Id Entry Env Hash} (owns : Owns views id slot later)
    (changes : Changes (store.slots (views.key id)) slot stage)
    (locks : later.claims (views.key id) ⊆ stage.claims (views.key id))
    (sound : later.creates = false → Sound views slot) :
    Turned views grants store (store.set (views.key id) slot) id stage later where
  owns := by
    rw [Store.set_self]
    exact owns
  changes := by
    rw [Store.set_self]
    exact changes
  elsewhere _ apart := store.set_other apart slot
  locks := Or.inl locks
  releases _ released := by
    rw [Store.set_self]
    exact sound released

/-- A turn that works on the slot, keeps its locks and holds the mutex on. -/
theorem Turned.worked {slot : Slot Id Entry Env Hash} (owns : Owns views id slot later)
    (changes : Changes (store.slots (views.key id)) slot stage)
    (same : later.claims (views.key id) = stage.claims (views.key id))
    (creates : later.creates = true) :
    Turned views grants store (store.set (views.key id) slot) id stage later := by
  refine .works owns changes (by rw [same]; exact List.Subset.refl _) fun released => ?_
  rw [creates] at released
  cases released

theorem renameOnto_turned {name : Nat}
    (owns : Owns views id (store.slots (views.key id)) (.publishing name))
    (renamed : renameOnto store (views.key id) name = (after, later)) :
    Turned views grants store after id (.publishing name) later := by
  rcases owns with ⟨absent, tree, staged, whole⟩
  rw [renameOnto, staged, absent] at renamed
  cases renamed
  exact .worked ⟨tree, rfl, whole⟩ (.absent rfl absent) rfl rfl

variable [DecidableEq Id] [DecidableEq Hash]

theorem launchNext_turned (owns : Owns views id (store.slots (views.key id)) stage)
    (enters : stage.creates = false → grants ⟨.create (views.key id), .exclusive⟩ = true →
      Sound views (store.slots (views.key id)))
    (ran : launchNext views store grants id (store.slots (views.key id)) stage =
      some (after, later)) : Turned views grants store after id stage later := by
  cases stage with
  | starting =>
      cases ran
      exact .still trivial (by simp) (by simp)
  | opened =>
      simp only [launchNext, Option.ite_none_right_eq_some, Option.some.injEq] at ran
      cases ran.2
      exact .granted ran.1 trivial (by simp) (by simp)
  | leased =>
      simp only [launchNext, Option.ite_none_right_eq_some, Option.some.injEq] at ran
      cases ran.2
      exact .granted ran.1 (enters rfl ran.1) (by simp) (by simp)
  | locked =>
      cases ran
      split
      case isTrue ready =>
        rcases (Option.any_eq_true _ _).mp ready with ⟨tree, there, marked⟩
        exact .steady ⟨owns, tree, there, marked⟩ rfl rfl
      case isFalse => exact .steady owns rfl rfl
  | readied =>
      rcases owns with ⟨sound, tree, there, ready⟩
      simp only [launchNext, there, Option.bind_some] at ran
      split at ran
      case h_1 =>
        cases ran
        exact .steady sound rfl rfl
      case h_2 owner hash recorded =>
        cases ran
        split
        case isTrue same =>
          exact .steady ⟨sound, tree, there, ready, same ▸ recorded⟩ rfl rfl
        case isFalse => exact .steady sound rfl rfl
  | recorded hash =>
      rcases owns with ⟨sound, tree, there, ready, recorded⟩
      cases ran
      split
      case isTrue same =>
        rw [there, Option.bind_some] at same
        have intact : tree.Intact views id := ⟨ready, same ▸ recorded⟩
        exact .steady ⟨tree, there, sound id tree there intact, intact⟩ rfl rfl
      case isFalse => exact .steady sound rfl rfl
  | discarding =>
      simp only [launchNext, Option.ite_none_right_eq_some, Option.some.injEq] at ran
      cases ran.2
      split
      case isTrue => exact .steady owns rfl rfl
      case isFalse absent =>
        exact .steady (Option.not_isSome_iff_eq_none.mp absent) rfl rfl
  | converting =>
      cases ran
      exact .still owns (by simp) (by simp)
  | trying =>
      cases ran
      split
      case isTrue granted => exact .granted granted trivial (by simp) (by simp)
      case isFalse => exact .steady owns rfl rfl
  | refused =>
      simp only [launchNext, Option.ite_none_right_eq_some, Option.some.injEq] at ran
      cases ran.2
      exact .granted ran.1 trivial (by simp) fun _ _ => owns
  | clearing =>
      simp only [launchNext, Option.ite_none_right_eq_some, Option.some.injEq] at ran
      cases ran.2
      exact .worked rfl (.alone rfl rfl) rfl rfl
  | yielding cleared =>
      cases ran
      cases cleared <;> exact .still owns (by simp) (by simp)
  | regaining cleared =>
      simp only [launchNext, Option.ite_none_right_eq_some, Option.some.injEq] at ran
      cases ran.2
      cases cleared with
      | true => exact .granted ran.1 owns (by simp) (by simp)
      | false => exact .granted ran.1 trivial (by simp) fun _ _ => owns
  | creating | gone => cases ran
  | building name rest =>
      cases rest with
      | nil => cases ran
      | cons entry rest =>
          cases ran
          refine .worked (Drafts.edit owns _ fun tree drafted => ⟨?_, drafted.2⟩)
            (.absent rfl owns.1) rfl rfl
          rw [Tree.place, List.append_assoc, List.singleton_append]
          exact drafted.1
  | expanding name env =>
      cases ran
      refine .worked (Drafts.edit owns _ fun tree drafted => ?_) (.absent rfl owns.1) rfl rfl
      cases env with
      | none => exact drafted
      | some env => exact ⟨drafted.1, rfl⟩
  | recording name env =>
      cases ran
      refine .worked (Drafts.edit owns _ fun tree drafted => ⟨drafted.1, ?_⟩) (.absent rfl owns.1)
        rfl rfl
      rw [Tree.write, drafted.2]
  | syncing name =>
      cases ran
      exact .steady owns rfl rfl
  | marking name =>
      cases ran
      exact .worked (Drafts.edit owns _ fun tree drafted => ⟨drafted.1, rfl, drafted.2⟩)
        (.absent rfl owns.1) rfl rfl
  | publishing name => exact renameOnto_turned owns (Option.some.inj ran)
  | published =>
      cases ran
      split
      case isTrue => exact .steady owns rfl rfl
      case isFalse => exact .still trivial (by simp) fun _ _ => Shows.sound owns
  | stamping =>
      cases ran
      have sound := Shows.sound owns
      rcases owns with ⟨tree, there, whole⟩
      exact .still ⟨tree, there, there, whole⟩ (by simp) fun _ _ => sound
  | running shown =>
      cases ran
      exact .still trivial (by simp) (by simp)
  | failing name =>
      cases ran
      exact .works trivial (.absent rfl owns) (by simp) fun _ =>
        .absent ((Slot.view_rmdirStaged _ _).trans owns)

variable [DecidableEq Entry]

theorem launchTurn_turned (owns : Owns views id (store.slots (views.key id)) stage)
    (enters : stage.creates = false → grants ⟨.create (views.key id), .exclusive⟩ = true →
      Sound views (store.slots (views.key id)))
    (finishes : action = .crash ∨ action = .fail → stage = .clearing →
      Sound views (store.slots (views.key id)))
    (ran : launchTurn views store grants id stage action = some (after, later)) :
    Turned views grants store after id stage later := by
  cases action with
  | next => exact launchNext_turned owns enters ran
  | crash =>
      cases ran
      refine .still trivial (by simp) fun created _ => ?_
      by_cases clearing : stage = .clearing
      · exact finishes (Or.inl rfl) clearing
      · exact owns.sound created clearing
  | fail =>
      cases stage with
      | clearing =>
          cases ran
          exact .steady (finishes (Or.inr rfl) rfl) rfl rfl
      | building _ _ | expanding _ _ | recording _ _ | syncing _ | marking _ | publishing _ =>
          cases ran
          exact .steady owns.1 rfl rfl
      | _ => cases ran
  | unlinkView part =>
      cases stage with
      | clearing =>
          cases ran
          exact .worked trivial (.alone rfl rfl) rfl rfl
      | _ => cases ran
  | unlinkStaged name part =>
      cases stage with
      | discarding =>
          cases ran
          exact .worked (Sound.same owns rfl) (.staging rfl rfl) rfl rfl
      | creating =>
          cases ran
          exact .worked owns (.staging rfl rfl) rfl rfl
      | failing own =>
          simp only [launchTurn, Option.ite_none_right_eq_some, Option.some.injEq] at ran
          cases ran.2
          exact .worked owns (.staging rfl rfl) rfl rfl
      | _ => cases ran
  | rmdirStaged name =>
      cases stage with
      | discarding =>
          cases ran
          exact .worked (Sound.same owns (Slot.view_rmdirStaged _ _))
            (.staging rfl (Slot.view_rmdirStaged _ _)) rfl rfl
      | creating =>
          cases ran
          exact .worked ((Slot.view_rmdirStaged _ _).trans owns)
            (.staging rfl (Slot.view_rmdirStaged _ _)) rfl rfl
      | _ => cases ran
  | attempt name =>
      cases stage with
      | creating =>
          simp only [launchTurn, Option.ite_none_right_eq_some, Option.some.injEq] at ran
          cases ran.2
          constructor
          · refine ⟨?_, ⟨store.inodes, [], none, none, false⟩, ?_, rfl, rfl⟩
            · rw [Store.stage, Store.set_self]
              exact owns
            · rw [Store.stage, Store.set_self]
              exact List.lookup_cons_self
          · exact .absent rfl owns
          · exact fun _ apart => store.set_other apart _
          · exact Or.inl (by simp)
          · simp
      | _ => cases ran
  | expand env =>
      cases stage with
      | building name rest =>
          cases rest with
          | nil =>
              cases ran
              rcases owns with ⟨absent, tree, staged, whole, bare⟩
              rw [List.append_nil] at whole
              exact .steady ⟨absent, tree, staged, whole, bare⟩ rfl rfl
          | cons _ _ => cases ran
      | _ => cases ran
  | pick key => cases ran
  | judge idle => cases ran

end

/-! ### What a collector does -/

/-- The view a collector has to itself. -/
@[simp] def Sweep.takes : Sweep Key → Option Key
  | .judging key | .removing key | .scratching key => some key
  | _ => none

/-- What holds of the view a collector has to itself, but for one it is removing. -/
def Spares (views : Views Id Key Entry Env Hash) (store : Store Id Key Entry Env Hash) :
    Sweep Key → Prop
  | .judging key | .scratching key => Sound views (store.slots key)
  | _ => True

/-- What a turn of a collector does: to the view it has to itself, and to the locks it holds. -/
structure Swept (views : Views Id Key Entry Env Hash) (grants : Claim (LockFile Key) → Bool)
    (store after : Store Id Key Entry Env Hash) (sweep next : Sweep Key) : Prop where
  spares : Spares views after next
  change : ∀ key, after.slots key = store.slots key ∨ sweep.takes = some key
  locks : next.claims ⊆ sweep.claims ∨
    ∃ claim, grants claim = true ∧ next.claims ⊆ claim :: sweep.claims
  releases : ∀ key, sweep.takes = some key → next.takes = some key ∨
    Sound views (after.slots key)

variable {sweep next : Sweep Key}

/-- A turn that touches nothing. -/
theorem Swept.still (spares : Spares views store next)
    (locks : next.claims ⊆ sweep.claims ∨
      ∃ claim, grants claim = true ∧ next.claims ⊆ claim :: sweep.claims)
    (releases : ∀ key, sweep.takes = some key → next.takes = some key ∨
      Sound views (store.slots key)) : Swept views grants store store sweep next :=
  ⟨spares, fun _ => Or.inl rfl, locks, releases⟩

section
variable [DecidableEq Key]

/-- A turn that changes the view the collector has, and keeps it. -/
theorem Swept.change_of {key : Key} {slot : Slot Id Entry Env Hash}
    (spares : Spares views (store.set key slot) next) (takes : sweep.takes = some key)
    (keeps : next.takes = some key) (locks : next.claims ⊆ sweep.claims) :
    Swept views grants store (store.set key slot) sweep next where
  spares := spares
  change other := by
    by_cases here : other = key
    · exact Or.inr (here ▸ takes)
    · exact Or.inl (store.set_other here slot)
  locks := Or.inl locks
  releases other same := Or.inl (by rw [keeps, ← takes, same])

variable [DecidableEq Entry]

theorem collectorTurn_swept (spares : Spares views store sweep)
    (enters : ∀ key, sweep = .leased key → grants ⟨.create key, .exclusive⟩ = true →
      Sound views (store.slots key))
    (finishes : action = .crash ∨ action = .fail → ∀ key, sweep = .removing key →
      Sound views (store.slots key))
    (ran : collectorTurn store grants sweep action = some (after, next)) :
    Swept views grants store after sweep next := by
  cases action with
  | next =>
      cases sweep with
      | picking | judging _ | gone => cases ran
      | chosen key =>
          cases ran
          by_cases granted : grants ⟨.lease key, .exclusive⟩ = true
          · rw [if_pos granted]
            exact .still trivial (Or.inr ⟨_, granted, by simp⟩) (by simp)
          · rw [if_neg granted]
            exact .still trivial (Or.inl (by simp)) (by simp)
      | leased key =>
          cases ran
          by_cases granted : grants ⟨.create key, .exclusive⟩ = true
          · rw [if_pos granted]
            exact .still (enters key rfl granted) (Or.inr ⟨_, granted, by simp⟩) (by simp)
          · rw [if_neg granted]
            exact .still trivial (Or.inl (by simp)) (by simp)
      | removing key =>
          simp only [collectorTurn, Option.ite_none_right_eq_some, Option.some.injEq] at ran
          cases ran.2
          refine .change_of ?_ rfl rfl (by simp)
          rw [Spares, Store.set_self]
          exact .absent rfl
      | scratching key =>
          cases ran
          refine .still trivial (Or.inl (by simp)) fun other same => ?_
          cases same
          exact Or.inr spares
  | crash =>
      cases ran
      refine .still trivial (Or.inl (by simp)) fun key same => Or.inr ?_
      cases sweep with
      | picking | chosen _ | leased _ | gone => cases same
      | judging _ | scratching _ =>
          cases same
          exact spares
      | removing _ =>
          cases same
          exact finishes (Or.inl rfl) key rfl
  | fail =>
      cases sweep with
      | removing key =>
          cases ran
          exact .still (finishes (Or.inr rfl) key rfl) (Or.inl (by simp)) fun _ => Or.inl
      | _ => cases ran
  | unlinkView part =>
      cases sweep with
      | removing key =>
          cases ran
          exact .change_of trivial rfl rfl (List.Subset.refl _)
      | _ => cases ran
  | unlinkStaged name part =>
      cases sweep with
      | scratching key =>
          cases ran
          refine .change_of ?_ rfl rfl (List.Subset.refl _)
          rw [Spares, Store.set_self]
          exact Sound.same spares rfl
      | _ => cases ran
  | rmdirStaged name =>
      cases sweep with
      | scratching key =>
          cases ran
          refine .change_of ?_ rfl rfl (List.Subset.refl _)
          rw [Spares, Store.set_self]
          exact Sound.same spares (Slot.view_rmdirStaged _ _)
      | _ => cases ran
  | pick key =>
      cases sweep with
      | picking =>
          cases ran
          exact .still trivial (Or.inl (by simp)) (by simp)
      | _ => cases ran
  | judge idle =>
      cases sweep with
      | judging key =>
          cases ran
          split
          case isTrue => exact .still spares (Or.inl (by simp)) fun _ => Or.inl
          case isFalse => exact .still trivial (Or.inl (by simp)) fun _ => Or.inl
      | _ => cases ran
  | attempt name => cases ran
  | expand env => cases ran

end

/-! ### Every interleaving -/

/-- What holds of one process. -/
def Stands (views : Views Id Key Entry Env Hash) (store : Store Id Key Entry Env Hash) :
    Proc Id Key Entry Env Hash → Prop
  | .launch id stage => Owns views id (store.slots (views.key id)) stage
  | .collector sweep => Spares views store sweep

/-- Of a view whose creation mutex is free, the records tell the truth. -/
def Resting (views : Views Id Key Entry Env Hash) :
    LockFile Key → Store Id Key Entry Env Hash → Prop
  | .lease _, _ => True
  | .create key, store => Sound views (store.slots key)

/-- The view a process is removing. -/
def Proc.removes (views : Views Id Key Entry Env Hash) : Proc Id Key Entry Env Hash → Option Key
  | .launch id .clearing => some (views.key id)
  | .collector (.removing key) => some key
  | _ => none

/-- No process stops half way through the removal of a view whose records still call it whole. -/
def Finishes (views : Views Id Key Entry Env Hash) (store : Store Id Key Entry Env Hash)
    (_ : List (Proc Id Key Entry Env Hash)) (proc : Proc Id Key Entry Env Hash)
    (action : Act Key Entry Env) : Prop :=
  action = .crash ∨ action = .fail → ∀ key, proc.removes views = some key →
    Sound views (store.slots key)

/-- Before its first operation. -/
def Proc.Fresh : Proc Id Key Entry Env Hash → Prop
  | .launch _ stage => stage = .starting
  | .collector sweep => sweep = .picking

/-- A launch is building its view. -/
def Stage.builds : Stage Id Entry Env Hash → Bool
  | .building _ _ | .expanding _ _ | .recording _ _ | .syncing _ | .marking _
  | .publishing _ => true
  | _ => false

/-- A launch that runs sees the publication it was handed, whole, and none builds a view that
stands. -/
def Upheld (views : Views Id Key Entry Env Hash) (store : Store Id Key Entry Env Hash) :
    Proc Id Key Entry Env Hash → Prop
  | .launch id stage =>
      (∀ shown, stage = .running shown → ∃ tree, shown = some tree ∧
        (store.slots (views.key id)).view = some tree ∧ tree.Whole views id) ∧
      (stage.builds = true → (store.slots (views.key id)).view = none)
  | .collector _ => True

theorem Stands.upheld {proc : Proc Id Key Entry Env Hash} (stands : Stands views store proc) :
    Upheld views store proc := by
  cases proc with
  | collector sweep => trivial
  | launch id stage =>
      constructor
      · rintro shown rfl
        exact stands
      · intro builds
        cases stage with
        | building _ _ | expanding _ _ | recording _ _ | syncing _ | marking _ | publishing _ =>
            exact stands.1
        | _ => cases builds

theorem Stage.create_mem (key : Key) :
    (⟨.create key, .exclusive⟩ : Claim (LockFile Key)) ∈ stage.claims key ↔
      stage.creates = true := by
  rw [claims, List.mem_append]
  constructor
  · rintro (lease | create)
    · simp at lease
    · by_contra free
      rw [if_neg free] at create
      cases create
  · intro creates
    rw [if_pos creates]
    exact Or.inr List.mem_cons_self

theorem Stage.create_mem_key {key other : Key}
    (member : (⟨.create other, .exclusive⟩ : Claim (LockFile Key)) ∈ stage.claims key) :
    other = key := by
  rw [claims, List.mem_append] at member
  rcases member with lease | create
  · simp at lease
  · split at create
    · simpa using create
    · cases create

theorem Stage.lease_mem (key : Key) (mode : LockMode) (leases : stage.lease? = some mode) :
    (⟨.lease key, mode⟩ : Claim (LockFile Key)) ∈ stage.claims key := by
  rw [claims, leases]
  exact List.mem_append_left _ List.mem_cons_self

theorem Sweep.create_mem {key : Key} :
    (⟨.create key, .exclusive⟩ : Claim (LockFile Key)) ∈ sweep.claims ↔
      sweep.takes = some key := by
  cases sweep <;> simp [eq_comm]

theorem Sweep.lease_mem {key : Key} (takes : sweep.takes = some key) :
    (⟨.lease key, .exclusive⟩ : Claim (LockFile Key)) ∈ sweep.claims := by
  cases sweep <;> simp_all

theorem Swept.unheld (swept : Swept views grants store after sweep next) {key : Key}
    (free : (⟨.create key, .exclusive⟩ : Claim (LockFile Key)) ∉ sweep.claims)
    (sound : Sound views (store.slots key)) : Sound views (after.slots key) := by
  rcases swept.change key with same | takes
  · rw [same]
    exact sound
  · exact absurd (Sweep.create_mem.mpr takes) free

section
variable [DecidableEq Key]

/-- A launch without a view's mutex leaves the view as sound as it was. -/
theorem Turned.unheld (turned : Turned views grants store after id stage later) {key : Key}
    (free : (⟨.create key, .exclusive⟩ : Claim (LockFile Key)) ∉ stage.claims (views.key id))
    (sound : Sound views (store.slots key)) : Sound views (after.slots key) := by
  by_cases here : key = views.key id
  · subst here
    rcases turned.changes with same | ⟨creates, _⟩ | ⟨creates, _⟩ | ⟨creates, _⟩
    · rw [same]
      exact sound
    all_goals exact absurd ((Stage.create_mem _).mpr creates) free
  · rw [turned.elsewhere key here]
    exact sound

/-- A launch's turn leaves another process what it relies on. -/
theorem Turned.others {other : Proc Id Key Entry Env Hash}
    (turned : Turned views grants store after id stage later) (stands : Stands views store other)
    (apart : Compatible (held views (.launch id stage)) (held views other)) :
    Stands views after other := by
  cases other with
  | launch there waiting =>
      by_cases here : views.key there = views.key id
      · rw [Stands, here] at stands ⊢
        rw [held, held, here] at apart
        have waits : stage.creates = true → waiting.creates = false := by
          intro creates
          by_contra both
          exact apart.exclusive ((Stage.create_mem _).mpr creates)
            ((Stage.create_mem _).mpr (Bool.not_eq_false _ ▸ both))
        rcases turned.changes with same | ⟨creates, same⟩ | ⟨creates, absent⟩ | ⟨creates, alone⟩
        · rw [same]
          exact stands
        · exact Owns.waiting stands (waits creates) fun _ _ => same
        · refine Owns.waiting stands (waits creates) fun shown runs => ?_
          rw [runs] at stands
          rcases stands with ⟨tree, _, shows, _⟩
          rw [absent] at shows
          cases shows
        · refine Owns.waiting stands (waits creates) fun shown runs => ?_
          refine (apart.exclusive (Stage.lease_mem _ _ alone)
            (Stage.lease_mem _ .shared ?_)).elim
          rw [runs]
          rfl
      · rw [Stands, turned.elsewhere _ here]
        exact stands
  | collector sweep =>
      have kept : ∀ key, sweep.takes = some key → Sound views (store.slots key) →
          Sound views (after.slots key) := fun key takes =>
        turned.unheld fun taken => apart.exclusive taken (Sweep.create_mem.mpr takes)
      cases sweep with
      | judging key | scratching key => exact kept key rfl stands
      | _ => trivial

/-- A collector's turn leaves another process what it relies on. -/
theorem Swept.others {other : Proc Id Key Entry Env Hash}
    (swept : Swept views grants store after sweep next) (stands : Stands views store other)
    (apart : Compatible (held views (.collector sweep)) (held views other)) :
    Stands views after other := by
  cases other with
  | launch there waiting =>
      rcases swept.change (views.key there) with same | takes
      · rw [Stands, same]
        exact stands
      · refine Owns.waiting stands ?_ fun shown runs => ?_
        · by_contra both
          exact apart.exclusive (Sweep.create_mem.mpr takes)
            ((Stage.create_mem _).mpr (Bool.not_eq_false _ ▸ both))
        · refine (apart.exclusive (Sweep.lease_mem takes)
            (Stage.lease_mem _ .shared ?_)).elim
          rw [runs]
          rfl
  | collector waiting =>
      have kept : ∀ key, waiting.takes = some key → Sound views (store.slots key) →
          Sound views (after.slots key) := fun key takes =>
        swept.unheld fun taken => apart.exclusive taken (Sweep.create_mem.mpr takes)
      cases waiting with
      | judging key | scratching key => exact kept key rfl stands
      | _ => trivial

/-- Who is granted a view's mutex finds the view sound. -/
theorem entered {others : List (Proc Id Key Entry Env Hash)} {proc : Proc Id Key Entry Env Hash}
    {key : Key} (rests : Rests (held views) (Resting views) store (proc :: others))
    (free : ⟨.create key, .exclusive⟩ ∉ held views proc)
    (granted : grantable (held views) others ⟨.create key, .exclusive⟩ = true) :
    Sound views (store.slots key) :=
  rests.granted granted free

theorem guarded_fresh {procs : List (Proc Id Key Entry Env Hash)}
    (sound : ∀ key, Sound views (store.slots key)) (fresh : ∀ proc ∈ procs, proc.Fresh) :
    Guarded (held views) (Resting views) (Stands views) ⟨store, procs⟩ where
  coherent := {
    common := trivial
    own := by
      intro proc member
      have here := fresh proc member
      cases proc <;> rw [Proc.Fresh] at here <;> rw [here] <;> trivial
    apart := by
      have idle : ∀ proc ∈ procs, held views proc = [] := by
        intro proc member
        have here := fresh proc member
        cases proc <;> rw [Proc.Fresh] at here <;> rw [here] <;> rfl
      apply List.pairwise_of_forall_mem_list
      intro proc member other _
      rw [idle proc member]
      intro claim inside
      cases inside }
  rests := by
    intro file _
    cases file with
    | lease key => trivial
    | create key => exact sound key

variable [DecidableEq Entry]

theorem collector_swept {others : List (Proc Id Key Entry Env Hash)}
    (spares : Spares views store sweep)
    (rests : Rests (held views) (Resting views) store (.collector sweep :: others))
    (finishes : Finishes views store others (.collector sweep) action)
    (ran : collectorTurn store (grantable (held views) others) sweep action = some (after, next)) :
    Swept views (grantable (held views) others) store after sweep next := by
  refine collectorTurn_swept spares (fun key leased => entered rests fun taken => ?_)
    (fun stops key removing => finishes stops key (by rw [removing, Proc.removes])) ran
  have takes := Sweep.create_mem.mp taken
  rw [leased] at takes
  cases takes

variable [DecidableEq Id] [DecidableEq Hash]

theorem launch_turned {others : List (Proc Id Key Entry Env Hash)}
    (owns : Owns views id (store.slots (views.key id)) stage)
    (rests : Rests (held views) (Resting views) store (.launch id stage :: others))
    (finishes : Finishes views store others (.launch id stage) action)
    (ran : launchTurn views store (grantable (held views) others) id stage action =
      some (after, later)) :
    Turned views (grantable (held views) others) store after id stage later := by
  refine launchTurn_turned owns (fun waits => entered rests fun taken => ?_)
    (fun stops clearing => finishes stops _ (by rw [clearing, Proc.removes])) ran
  have creates := (Stage.create_mem _).mp taken
  rw [waits] at creates
  cases creates

/-- Whatever launches and collectors do beside each other, a view whose mutex is free tells the
truth, and each party keeps what it relies on. -/
theorem program_guards (views : Views Id Key Entry Env Hash) :
    Guards (program views) (Finishes views) (held views) (Resting views) (Stands views) where
  keeps := {
    symm := fun _ _ => Compatible.symm
    step := by
      intro store others proc action turn _ stands beside fits ran
      cases proc with
      | launch id stage =>
          simp only [program, Option.map_eq_some_iff] at ran
          rcases ran with ⟨⟨after, later⟩, ran, rfl⟩
          have turned := launch_turned stands fits.2 fits.1 ran
          refine ⟨trivial, turned.owns, fun other member => ?_, by simp, List.Pairwise.nil⟩
          rcases beside other member with ⟨also, apart⟩
          refine ⟨turned.others also apart, ?_⟩
          rcases turned.locks with fewer | ⟨claim, granted, more⟩
          · exact apart.fewer fewer
          · exact apart.granted granted member more
      | collector sweep =>
          simp only [program, Option.map_eq_some_iff] at ran
          rcases ran with ⟨⟨after, next⟩, ran, rfl⟩
          have swept := collector_swept stands fits.2 fits.1 ran
          refine ⟨trivial, swept.spares, fun other member => ?_, by simp, List.Pairwise.nil⟩
          rcases beside other member with ⟨also, apart⟩
          refine ⟨swept.others also apart, ?_⟩
          rcases swept.locks with fewer | ⟨claim, granted, more⟩
          · exact apart.fewer fewer
          · exact apart.granted granted member more }
  rests := by
    intro store others proc action turn stands rests finishes ran
    cases proc with
    | launch id stage =>
        simp only [program, Option.map_eq_some_iff] at ran
        rcases ran with ⟨⟨after, later⟩, ran, rfl⟩
        have turned := launch_turned stands rests finishes ran
        rw [List.append_nil]
        refine rests.turn ?_ ?_
        · intro file free sound
          cases file with
          | lease key => trivial
          | create key => exact turned.unheld free sound
        · intro file taken released
          cases file with
          | lease key => trivial
          | create key =>
              have here : key = views.key id := Stage.create_mem_key taken
              subst here
              refine turned.releases ((Stage.create_mem _).mp taken) ?_
              by_contra still
              exact released ((Stage.create_mem _).mpr (Bool.not_eq_false _ ▸ still))
    | collector sweep =>
        simp only [program, Option.map_eq_some_iff] at ran
        rcases ran with ⟨⟨after, next⟩, ran, rfl⟩
        have swept := collector_swept stands rests finishes ran
        rw [List.append_nil]
        refine rests.turn ?_ ?_
        · intro file free sound
          cases file with
          | lease key => trivial
          | create key => exact swept.unheld free sound
        · intro file taken released
          cases file with
          | lease key => trivial
          | create key =>
              rcases swept.releases key (Sweep.create_mem.mp taken) with still | sound
              · exact absurd (Sweep.create_mem.mpr still) released
              · exact sound

/-- Whatever launches and collectors do beside each other, and wherever they die: a launch runs from
the whole publication it was handed, unchanged, and none builds while something stands at the name,
if no removal of a view that still calls itself whole stops half way. -/
theorem leased_upheld {procs : List (Proc Id Key Entry Env Hash)}
    {moves : List (Nat × Act Key Entry Env)}
    {final : System (Store Id Key Entry Env Hash) (Proc Id Key Entry Env Hash)}
    (sound : ∀ key, Sound views (store.slots key)) (fresh : ∀ proc ∈ procs, proc.Fresh)
    (finishes : System.Meets (program views) (Finishes views) ⟨store, procs⟩ moves)
    (ran : System.run (program views) ⟨store, procs⟩ moves = some final) :
    ∀ proc ∈ final.procs, Upheld views final.shared proc := by
  intro proc member
  have guarded := (program_guards views).run (guarded_fresh sound fresh) finishes ran
  exact (guarded.coherent.own proc member).upheld

/-- A run in which nothing fails and nothing dies finishes its removals. -/
theorem meets_finishes {system : System (Store Id Key Entry Env Hash) (Proc Id Key Entry Env Hash)}
    {moves : List (Nat × Act Key Entry Env)}
    (quiet : ∀ move ∈ moves, move.2 ≠ .crash ∧ move.2 ≠ .fail) :
    System.Meets (program views) (Finishes views) system moves := by
  induction moves generalizing system with
  | nil => trivial
  | cons move moves ih =>
      rw [List.forall_mem_cons] at quiet
      refine ⟨fun proc _ stops => ?_, fun next _ => ih quiet.2⟩
      rcases stops with crash | fail
      · exact absurd crash quiet.1.1
      · exact absurd fail quiet.1.2

end

end

/-! ### Two launches and a collector -/

namespace Shared

/-- One view of one file. -/
def views : Views Unit Unit Unit Unit Unit := ⟨id, fun _ => [()], id⟩

def store : Store Unit Unit Unit Unit Unit := ⟨fun _ => ⟨none, []⟩, 0⟩

def procs : List (Proc Unit Unit Unit Unit Unit) :=
  [.launch () .starting, .launch () .starting, .collector .picking]

def tree : Tree Unit Unit Unit Unit := ⟨0, [()], none, some ((), none), true⟩

/-- The first launch builds the view. -/
def built : List (Nat × Act Unit Unit Unit) :=
  List.replicate 5 (0, .next) ++ [(0, .attempt 0), (0, .next), (0, .expand none)] ++
    List.replicate 7 (0, .next)

/-- The second launch takes the view as it is, beside a collector that finds it leased. -/
def joined : List (Nat × Act Unit Unit Unit) :=
  built ++ [(2, .pick ()), (2, .next)] ++ List.replicate 7 (1, .next)

/-- The first launch ends, and a collector dies once it has taken the view's file. -/
def gutted : List (Nat × Act Unit Unit Unit) :=
  built ++ [(0, .next), (2, .pick ()), (2, .next), (2, .next), (2, .judge true),
    (2, .unlinkView (.entry ())), (2, .crash)] ++ List.replicate 7 (1, .next)

theorem store_sound : ∀ key, Sound views (store.slots key) := fun _ => .absent rfl

theorem procs_fresh : ∀ proc ∈ procs, proc.Fresh := by
  simp [procs, Proc.Fresh]

theorem joined_quiet : ∀ move ∈ joined, move.2 ≠ .crash ∧ move.2 ≠ .fail := by
  simp [joined, built, List.replicate]

end Shared

theorem leased_upheld_joined :
    ∃ final, System.run (program Shared.views) ⟨Shared.store, Shared.procs⟩ Shared.joined =
        some final ∧ .launch () (.running (some Shared.tree)) ∈ final.procs ∧
      ∀ proc ∈ final.procs, Upheld Shared.views final.shared proc :=
  ⟨_, rfl, List.mem_cons_self,
    leased_upheld Shared.store_sound Shared.procs_fresh (meets_finishes Shared.joined_quiet)
      rfl⟩

/-- A collector that dies half way through a removal leaves a view the next launch takes for
whole. -/
theorem leased_not_upheld :
    ¬ ∀ (store : Store Unit Unit Unit Unit Unit) (procs : List (Proc Unit Unit Unit Unit Unit))
      (moves : List (Nat × Act Unit Unit Unit))
      (final : System (Store Unit Unit Unit Unit Unit) (Proc Unit Unit Unit Unit Unit)),
      (∀ key, Sound Shared.views (store.slots key)) → (∀ proc ∈ procs, proc.Fresh) →
        System.run (program Shared.views) ⟨store, procs⟩ moves = some final →
          ∀ proc ∈ final.procs, Upheld Shared.views final.shared proc := by
  intro upheld
  have whole := (upheld Shared.store Shared.procs Shared.gutted _ Shared.store_sound
    Shared.procs_fresh rfl _ (List.mem_cons_of_mem _ List.mem_cons_self)).1 _ rfl
  rcases whole with ⟨tree, shown, _, entries, _⟩
  cases shown
  cases entries

end Onelf.Runtime.ViewStore
