import Onelf.Cli.Bundle.Activate

/-! When the mirror follows the queue: each batch of sonames has to activate its rules in catalog
order. -/

namespace Onelf.Cli.Bundle.Activate

open Onelf.Lib Onelf.Format

/-! ### The condition -/

/-- Whether one of some sonames activates a rule. -/
def RuleState.rousedBy (rule : RuleState) (sonames : List Bytes) : Bool :=
  rule.reason.isNone && sonames.any rule.matchesSoname

/-- Of two rules with groups that some sonames activate, the one first in the catalog is activated
no later. -/
def InOrder (rules : List RuleState) (sonames : List Bytes) : Prop :=
  rules.Pairwise fun first later => first.groups ≠ [] → later.groups ≠ [] →
    ∀ before soname after, sonames = before ++ soname :: after → later.rousedBy [soname] = true →
      first.rousedBy sonames = true → first.rousedBy (before ++ [soname]) = true

/-! ### The claim -/

def WorkItem.group? : WorkItem → Option GroupKey
  | group key => some key
  | object _ => none

/-- The groups in the queue. -/
def WorkQueue.groups (queue : WorkQueue) : List GroupKey := queue.items.filterMap WorkItem.group?

def GroupKey.pair (key : GroupKey) : RuleId × RuleId := (key.rule, key.id)

/-- The mirror is empty exactly when the queue holds no group. -/
def Walk.Level (walk : Walk) : Prop :=
  walk.mirror.groups = [] ↔ walk.discovery.queue.groups = []

/-- A group popped is the one taken from the front, and the mirror is empty with the queue. -/
structure Popped.Right (popped : Popped) : Prop where
  front : ∀ key, popped.item = .group key → popped.front = some key.pair
  level : popped.walk.Level

/-- The walks a run comes to before it pops, where every batch of sonames is an allowed one. -/
inductive Reaches (allowed : List RuleState → List Bytes → Prop) (discovery : Discovery) :
    Walk → Prop
  | start {seeds : List Bytes} {walk : Walk} : allowed discovery.rules seeds →
      start discovery seeds = .ok walk → Reaches allowed discovery walk
  | step {walk next : Walk} {popped : Popped} {actions : List Action} :
      Reaches allowed discovery walk → popNext walk = some popped →
      allowed popped.walk.discovery.rules (actions.map Action.soname) →
      handle popped.walk actions = .ok next → Reaches allowed discovery next

/-- In every run of allowed batches the group handled is the group popped. -/
def Handled (allowed : List RuleState → List Bytes → Prop) (discovery : Discovery) : Prop :=
  (∀ seeds walk, allowed discovery.rules seeds → start discovery seeds = .ok walk → walk.Level) ∧
    ∀ walk popped, Reaches allowed discovery walk → popNext walk = some popped → popped.Right

/-! ### What activation leaves alone -/

/-- Rules of different identities, each with groups of its own. -/
structure Separate (rules : List RuleState) : Prop where
  distinct : (rules.map RuleState.id).Nodup
  own : ∀ rule ∈ rules, ∀ key ∈ rule.groups, key.rule = rule.id
  once : ∀ rule ∈ rules, rule.groups.Nodup

theorem Separate.tail {rule : RuleState} {rules : List RuleState}
    (separate : Separate (rule :: rules)) : Separate rules where
  distinct := (List.nodup_cons.mp separate.distinct).2
  own other member := separate.own other (List.mem_cons_of_mem _ member)
  once other member := separate.once other (List.mem_cons_of_mem _ member)

/-- No group of a rule that is not active was queued. -/
def Unqueued (rules : List RuleState) (queue : WorkQueue) : Prop :=
  ∀ rule ∈ rules, rule.reason = none → ∀ key ∈ rule.groups, key ∉ queue.queuedGroups

theorem RuleState.rousedBy_cons (rule : RuleState) (soname : Bytes) (sonames : List Bytes) :
    rule.rousedBy (soname :: sonames) = (rule.rousedBy [soname] || rule.rousedBy sonames) := by
  simp only [rousedBy, List.any_cons, List.any_nil, Bool.or_false]
  exact Bool.and_or_distrib_left _ _ _

/-- A rule after a soname. -/
def RuleState.observed (rule : RuleState) (soname : Bytes) : RuleState :=
  if rule.rousedBy [soname] then { rule with reason := some soname } else rule

@[simp] theorem RuleState.observed_id (rule : RuleState) (soname : Bytes) :
    (rule.observed soname).id = rule.id := by
  rw [observed]
  split <;> rfl

@[simp] theorem RuleState.observed_groups (rule : RuleState) (soname : Bytes) :
    (rule.observed soname).groups = rule.groups := by
  rw [observed]
  split <;> rfl

theorem RuleState.observed_rousedBy (rule : RuleState) (soname : Bytes) (sonames : List Bytes) :
    (rule.observed soname).rousedBy sonames =
      (rule.rousedBy sonames && !rule.rousedBy [soname]) := by
  rw [observed]
  split
  · next roused =>
      rw [roused, Bool.not_true, Bool.and_false]
      rfl
  · next stays =>
      rw [Bool.not_eq_true] at stays
      rw [stays, Bool.not_false, Bool.and_true]

/-- The groups some sonames queue, in the order they do. -/
def queuedBy : List Bytes → List RuleState → List GroupKey
  | [], _ => []
  | soname :: sonames, rules =>
      (rules.filter (·.rousedBy [soname])).flatMap RuleState.groups ++
        queuedBy sonames (rules.map (·.observed soname))

/-! ### In catalog order -/

/-- A list picked in two goes is picked in one where the first go takes what comes first. -/
theorem filter_or_of_ordered {α : Type} {values : List α} {first second : α → Bool}
    (ordered : values.Pairwise fun value other => ¬ (second value = true ∧ first other = true))
    (apart : ∀ value ∈ values, ¬ (first value = true ∧ second value = true)) :
    values.filter first ++ values.filter second =
      values.filter fun value => first value || second value := by
  induction values with
  | nil => rfl
  | cons value values ih =>
      obtain ⟨here, later⟩ := List.pairwise_cons.mp ordered
      obtain ⟨alone, others⟩ := List.forall_mem_cons.mp apart
      have rest := ih later others
      cases taken : first value with
      | true =>
          have untaken : second value = false := by
            simpa [taken] using alone
          simp [taken, untaken, rest]
      | false =>
          cases taken' : second value with
          | true =>
              have none : values.filter first = [] :=
                List.filter_eq_nil_iff.mpr fun other member held =>
                  here other member ⟨taken', held⟩
              rw [none, List.nil_append] at rest
              simp [taken, taken', none, rest]
          | false => simp [taken, taken', rest]

theorem InOrder.head {rules : List RuleState} {soname : Bytes} {sonames : List Bytes}
    (ordered : InOrder rules (soname :: sonames)) :
    rules.Pairwise fun first later => first.groups ≠ [] → later.groups ≠ [] →
      later.rousedBy [soname] = true → first.rousedBy (soname :: sonames) = true →
        first.rousedBy [soname] = true :=
  ordered.imp fun holds some other roused => holds some other [] soname sonames rfl roused

theorem InOrder.tail {rules : List RuleState} {soname : Bytes} {sonames : List Bytes}
    (ordered : InOrder rules (soname :: sonames)) :
    InOrder (rules.map (·.observed soname)) sonames := by
  refine List.pairwise_map.mpr (ordered.imp @fun first later holds => ?_)
  rw [RuleState.observed_groups, RuleState.observed_groups]
  intro some other before next after parts roused rousedFirst
  rw [RuleState.observed_rousedBy, Bool.and_eq_true] at roused rousedFirst
  have lead := holds some other (soname :: before) next after (congrArg _ parts) roused.1
  rw [RuleState.rousedBy_cons, rousedFirst.1, Bool.or_true] at lead
  have early := lead rfl
  have fresh : first.rousedBy [soname] = false := by simpa using rousedFirst.2
  rw [List.cons_append, RuleState.rousedBy_cons, fresh, Bool.false_or] at early
  rw [RuleState.observed_rousedBy, early, fresh]
  rfl

theorem flatMap_filter_groups (rules : List RuleState) (picked : RuleState → Bool) :
    (rules.filter picked).flatMap RuleState.groups =
      ((rules.filter fun rule => !rule.groups.isEmpty).filter picked).flatMap RuleState.groups := by
  induction rules with
  | nil => rfl
  | cons rule rules ih =>
      cases held : rule.groups with
      | nil => cases taken : picked rule <;> simp [held, taken, ih]
      | cons key keys => cases taken : picked rule <;> simp [held, taken, ih]

/-- In catalog order a batch queues the groups of the rules it activates as the catalog has
them. -/
theorem queuedBy_of_inOrder {rules : List RuleState} {sonames : List Bytes}
    (ordered : InOrder rules sonames) :
    queuedBy sonames rules = (rules.filter (·.rousedBy sonames)).flatMap RuleState.groups := by
  induction sonames generalizing rules with
  | nil => simp [queuedBy, RuleState.rousedBy]
  | cons soname sonames ih =>
      have later : ((rules.map (·.observed soname)).filter (·.rousedBy sonames)).flatMap
          RuleState.groups = (rules.filter fun rule =>
            rule.rousedBy sonames && !rule.rousedBy [soname]).flatMap RuleState.groups := by
        rw [List.filter_map, List.flatMap_map]
        simp only [Function.comp_def, RuleState.observed_rousedBy, RuleState.observed_groups]
      have whole : (rules.filter fun rule => !rule.groups.isEmpty).Pairwise fun rule other =>
          ¬ ((rule.rousedBy sonames && !rule.rousedBy [soname]) = true ∧
            other.rousedBy [soname] = true) := by
        refine List.pairwise_filter.mpr (ordered.head.imp @fun rule other holds some more => ?_)
        rintro ⟨second, first⟩
        rw [Bool.and_eq_true] at second
        have roused := holds (by simpa using some) (by simpa using more) first
          (by rw [RuleState.rousedBy_cons, second.1, Bool.or_true])
        rw [roused] at second
        cases second.2
      have apart : ∀ rule ∈ rules.filter fun rule => !rule.groups.isEmpty,
          ¬ (rule.rousedBy [soname] = true ∧
            (rule.rousedBy sonames && !rule.rousedBy [soname]) = true) := by
        rintro rule - ⟨first, second⟩
        rw [first, Bool.not_true, Bool.and_false] at second
        cases second
      have joined := filter_or_of_ordered whole apart
      rw [queuedBy, ih ordered.tail, later, flatMap_filter_groups,
        flatMap_filter_groups rules fun rule =>
          rule.rousedBy sonames && !rule.rousedBy [soname], ← List.flatMap_append, joined,
        flatMap_filter_groups rules fun rule => rule.rousedBy (soname :: sonames)]
      congr 2
      funext rule
      rw [RuleState.rousedBy_cons rule soname sonames]
      cases rule.rousedBy [soname] <;> simp

/-! ### What a soname queues -/

/-- What pushing some groups makes of the queue. -/
structure Pushed (keys : List GroupKey) (before after : WorkQueue) : Prop where
  items : after.items = before.items ++ keys.map .group
  queued : ∀ key, key ∈ after.queuedGroups ↔ key ∈ keys ∨ key ∈ before.queuedGroups

theorem Pushed.trans {keys more : List GroupKey} {first second third : WorkQueue}
    (pushed : Pushed keys first second) (then' : Pushed more second third) :
    Pushed (keys ++ more) first third := by
  constructor
  · rw [then'.items, pushed.items, List.append_assoc, List.map_append]
  · intro key
    rw [then'.queued, pushed.queued, List.mem_append, or_left_comm, or_assoc]

theorem Pushed.groups {keys : List GroupKey} {before after : WorkQueue}
    (pushed : Pushed keys before after) : after.groups = before.groups ++ keys := by
  rw [WorkQueue.groups, pushed.items, List.filterMap_append, List.filterMap_map]
  exact congrArg _ List.filterMap_some

theorem pushed_pushGroups {keys : List GroupKey} {queue after : WorkQueue}
    (distinct : keys.Nodup) (fresh : ∀ key ∈ keys, key ∉ queue.queuedGroups)
    (ran : keys.foldlM WorkQueue.pushGroup queue = .ok after) : Pushed keys queue after := by
  induction keys generalizing queue with
  | nil =>
      cases ran
      exact ⟨(List.append_nil _).symm, by simp⟩
  | cons key keys ih =>
      obtain ⟨unseen, others⟩ := List.forall_mem_cons.mp fresh
      obtain ⟨alone, distinct⟩ := List.nodup_cons.mp distinct
      rw [List.foldlM_cons, WorkQueue.pushGroup, if_neg (by simpa using unseen)] at ran
      split at ran
      · cases ran
      · have rest := ih distinct (fun other member => ?_) ran
        · have first : Pushed [key] queue
              { queue with
                queuedGroups := key :: queue.queuedGroups
                items := queue.items ++ [.group key] } :=
            ⟨rfl, fun other => by simp⟩
          exact first.trans rest
        · rw [List.mem_cons, not_or]
          exact ⟨fun same => alone (same ▸ member), others other member⟩

/-- The groups of one rule are not those of another. -/
theorem Separate.apart {rule : RuleState} {rules : List RuleState}
    (separate : Separate (rule :: rules)) {other : RuleState} (member : other ∈ rules)
    {key : GroupKey} (held : key ∈ other.groups) : key ∉ rule.groups := by
  intro shared
  have first := separate.own rule List.mem_cons_self key shared
  have second := separate.own other (List.mem_cons_of_mem _ member) key held
  apply (List.nodup_cons.mp separate.distinct).1
  rw [← first, second]
  exact List.mem_map_of_mem member

theorem pushed_observeRules {soname : Bytes} {rules after : List RuleState}
    {queue rest : WorkQueue} (separate : Separate rules) (unqueued : Unqueued rules queue)
    (ran : Discovery.observeRules soname rules queue = .ok (after, rest)) :
    after = rules.map (·.observed soname) ∧
      Pushed ((rules.filter (·.rousedBy [soname])).flatMap RuleState.groups) queue rest := by
  induction rules generalizing queue after with
  | nil =>
      cases ran
      exact ⟨rfl, (List.append_nil _).symm, by simp⟩
  | cons rule rules ih =>
      obtain ⟨unqueuedHere, unqueuedLater⟩ := List.forall_mem_cons.mp unqueued
      have roused : rule.rousedBy [soname] =
          !(rule.reason.isSome || !rule.matchesSoname soname) := by
        rw [RuleState.rousedBy]
        cases rule.reason <;> simp
      rw [Discovery.observeRules] at ran
      split at ran
      · next stays =>
          obtain ⟨⟨others, last⟩, ran, same⟩ := Except.andThen_eq_ok.mp ran
          cases same
          obtain ⟨rfl, pushed⟩ := ih separate.tail unqueuedLater ran
          rw [stays, Bool.not_true] at roused
          rw [List.filter_cons_of_neg (by simp [roused]), List.map_cons, RuleState.observed, roused]
          exact ⟨rfl, pushed⟩
      · next wakes =>
          rw [Bool.not_eq_true] at wakes
          obtain ⟨middle, filled, ran⟩ := Except.andThen_eq_ok.mp ran
          obtain ⟨⟨others, last⟩, ran, same⟩ := Except.andThen_eq_ok.mp ran
          cases same
          have idle : rule.reason = none := by
            rw [Bool.or_eq_false_iff] at wakes
            simpa using wakes.1
          have own := pushed_pushGroups (separate.once rule List.mem_cons_self) (unqueuedHere idle)
            filled
          have still : Unqueued rules middle := by
            intro other member none key held queued
            rcases (own.queued key).mp queued with shared | before
            · exact separate.apart member held shared
            · exact unqueuedLater other member none key held before
          obtain ⟨rfl, pushed⟩ := ih separate.tail still ran
          rw [wakes, Bool.not_false] at roused
          have picked : (rule :: rules).filter (·.rousedBy [soname]) =
              rule :: rules.filter (·.rousedBy [soname]) := List.filter_cons_of_pos roused
          rw [picked, List.flatMap_cons, List.map_cons, RuleState.observed, if_pos roused]
          exact ⟨rfl, own.trans pushed⟩

/-! ### A batch -/

/-- What activation keeps true of its rules and its queue. -/
structure Discovery.Sound (discovery : Discovery) : Prop where
  separate : Separate discovery.rules
  unqueued : Unqueued discovery.rules discovery.queue

theorem Separate.observed {rules : List RuleState} (separate : Separate rules) (soname : Bytes) :
    Separate (rules.map (·.observed soname)) := by
  constructor
  · rw [List.map_map]
    have same : RuleState.id ∘ (·.observed soname) = RuleState.id := by
      funext rule
      exact rule.observed_id soname
    rw [same]
    exact separate.distinct
  · intro rule member
    obtain ⟨before, inside, rfl⟩ := List.mem_map.mp member
    rw [RuleState.observed_groups, RuleState.observed_id]
    exact separate.own before inside
  · intro rule member
    obtain ⟨before, inside, rfl⟩ := List.mem_map.mp member
    rw [RuleState.observed_groups]
    exact separate.once before inside

theorem Separate.eq_of_shared {rules : List RuleState} (separate : Separate rules)
    {rule other : RuleState} (member : rule ∈ rules) (inside : other ∈ rules) {key : GroupKey}
    (held : key ∈ rule.groups) (shared : key ∈ other.groups) : rule = other := by
  have same : rule.id = other.id :=
    (separate.own rule member key held).symm.trans (separate.own other inside key shared)
  exact List.inj_on_of_nodup_map separate.distinct member inside same

theorem Discovery.Sound.observe {discovery after : Discovery} {soname : Bytes}
    (sound : discovery.Sound) (ran : discovery.observe soname = .ok after) :
    after.Sound ∧ after.rules = discovery.rules.map (·.observed soname) ∧
      after.queue.groups = discovery.queue.groups ++
        (discovery.rules.filter (·.rousedBy [soname])).flatMap RuleState.groups := by
  rw [Discovery.observe] at ran
  obtain ⟨⟨rules, queue⟩, matched, same⟩ := Except.andThen_eq_ok.mp ran
  cases same
  obtain ⟨rfl, pushed⟩ := pushed_observeRules sound.separate sound.unqueued matched
  refine ⟨⟨sound.separate.observed soname, ?_⟩, rfl, pushed.groups⟩
  intro rule member idle key held queued
  obtain ⟨before, inside, rfl⟩ := List.mem_map.mp member
  rw [RuleState.observed_groups] at held
  have stays : before.rousedBy [soname] = false := by
    by_contra roused
    rw [Bool.not_eq_false] at roused
    rw [RuleState.observed, if_pos roused] at idle
    cases idle
  rw [RuleState.observed, stays] at idle
  rcases (pushed.queued key).mp queued with new | old
  · obtain ⟨other, picked, shared⟩ := List.mem_flatMap.mp new
    obtain ⟨there, roused⟩ := List.mem_filter.mp picked
    rw [← sound.separate.eq_of_shared inside there held shared, stays] at roused
    cases roused
  · exact sound.unqueued before inside idle key held old

theorem Discovery.Sound.perform {discovery after : Discovery} {action : Action}
    (sound : discovery.Sound) (ran : perform discovery action = .ok after) :
    after.Sound ∧ after.rules = discovery.rules.map (·.observed action.soname) ∧
      after.queue.groups = discovery.queue.groups ++
        (discovery.rules.filter (·.rousedBy [action.soname])).flatMap RuleState.groups := by
  cases action with
  | observe soname => exact sound.observe ran
  | enqueue soname =>
      rw [Activate.perform, Discovery.enqueue] at ran
      obtain ⟨observed, matched, same⟩ := Except.andThen_eq_ok.mp ran
      cases same
      obtain ⟨sound, rules, groups⟩ := sound.observe matched
      exact ⟨⟨sound.separate, sound.unqueued⟩, rules, groups⟩

/-- A rule after some sonames. -/
def RuleState.observedAll (rule : RuleState) (sonames : List Bytes) : RuleState :=
  sonames.foldl observed rule

@[simp] theorem RuleState.observedAll_id (rule : RuleState) (sonames : List Bytes) :
    (rule.observedAll sonames).id = rule.id := by
  induction sonames generalizing rule with
  | nil => rfl
  | cons soname sonames ih => exact (ih (rule.observed soname)).trans (rule.observed_id soname)

@[simp] theorem RuleState.observedAll_groups (rule : RuleState) (sonames : List Bytes) :
    (rule.observedAll sonames).groups = rule.groups := by
  induction sonames generalizing rule with
  | nil => rfl
  | cons soname sonames ih =>
      exact (ih (rule.observed soname)).trans (rule.observed_groups soname)

/-- A rule is active once it was or one of the sonames activates it. -/
theorem RuleState.observedAll_active (rule : RuleState) (sonames : List Bytes) :
    (rule.observedAll sonames).reason.isSome =
      (rule.reason.isSome || rule.rousedBy sonames) := by
  induction sonames generalizing rule with
  | nil => simp [observedAll, rousedBy]
  | cons soname sonames ih =>
      have later := ih (rule.observed soname)
      have here : (rule.observed soname).reason.isSome =
          (rule.reason.isSome || rule.rousedBy [soname]) := by
        rw [observed]
        cases roused : rule.rousedBy [soname] <;> simp
      rw [here, observed_rousedBy] at later
      rw [rousedBy_cons]
      refine later.trans ?_
      cases rule.reason.isSome <;> cases rule.rousedBy [soname] <;> simp

theorem Discovery.Sound.performAll {discovery after : Discovery} {actions : List Action}
    (sound : discovery.Sound) (ran : actions.foldlM Activate.perform discovery = .ok after) :
    after.Sound ∧
      after.rules = discovery.rules.map (·.observedAll (actions.map Action.soname)) ∧
      after.queue.groups = discovery.queue.groups ++
        queuedBy (actions.map Action.soname) discovery.rules := by
  induction actions generalizing discovery with
  | nil =>
      cases ran
      exact ⟨sound, (List.map_id _).symm, (List.append_nil _).symm⟩
  | cons action actions ih =>
      rw [List.foldlM_cons] at ran
      obtain ⟨middle, first, rest⟩ := Except.andThen_eq_ok.mp ran
      obtain ⟨sound, rules, groups⟩ := sound.perform first
      obtain ⟨sound, rules', groups'⟩ := ih sound rest
      refine ⟨sound, ?_, ?_⟩
      · rw [rules', rules, List.map_map]
        rfl
      · rw [groups', groups, rules, List.append_assoc]
        rfl

/-! ### The mirror -/

/-- The groups of the active rules that are not known yet, in catalog order. -/
def unmirrored (rules : List RuleState) (known : List RuleId) : List GroupKey :=
  (rules.filter fun rule => rule.reason.isSome && !known.contains rule.id).flatMap RuleState.groups

/-- What mirroring adds. -/
structure Mirrors (rules : List RuleState) (before after : Mirror) : Prop where
  groups : after.groups = before.groups ++ (unmirrored rules before.known).map GroupKey.pair
  known : ∀ id, id ∈ after.known ↔
    id ∈ before.known ∨ ∃ rule ∈ rules, rule.reason.isSome ∧ rule.id = id

theorem mirrors_foldl {rules : List RuleState} (separate : Separate rules) (mirror : Mirror) :
    Mirrors rules mirror
      ((rules.filterMap RuleState.activation?).foldl mirrorActivation mirror) := by
  induction rules generalizing mirror with
  | nil => exact ⟨by simp [unmirrored], by simp⟩
  | cons rule rules ih =>
      have alone := (List.nodup_cons.mp separate.distinct).1
      cases active : rule.reason with
      | none =>
          obtain ⟨groups, known⟩ := ih separate.tail mirror
          rw [List.filterMap_cons_none (by rw [RuleState.activation?, active]; rfl)]
          refine ⟨?_, fun id => ?_⟩
          · rw [groups, unmirrored, unmirrored, List.filter_cons_of_neg (by simp [active])]
          · rw [known, List.exists_mem_cons_iff, active]
            simp
      | some reason =>
          have step : mirrorActivation mirror ⟨rule.id, reason, rule.groups.map GroupKey.id⟩ =
              if mirror.known.contains rule.id then mirror
              else ⟨rule.id :: mirror.known, mirror.groups ++ rule.groups.map GroupKey.pair⟩ := by
            have pairs : rule.groups.map GroupKey.pair =
                (rule.groups.map GroupKey.id).map fun group => (rule.id, group) := by
              rw [List.map_map]
              refine List.map_congr_left fun key member => ?_
              rw [GroupKey.pair, separate.own rule List.mem_cons_self key member]
              rfl
            rw [mirrorActivation, pairs]
          rw [List.filterMap_cons_some (by rw [RuleState.activation?, active]; rfl),
            List.foldl_cons, step]
          split
          · next seen =>
              obtain ⟨groups, known⟩ := ih separate.tail mirror
              refine ⟨?_, fun id => ?_⟩
              · rw [groups, unmirrored, unmirrored, List.filter_cons_of_neg (by
                  simpa using fun _ => List.contains_iff_mem.mp seen)]
              · rw [known, List.exists_mem_cons_iff, active]
                have there := List.contains_iff_mem.mp seen
                constructor
                · exact Or.imp_right Or.inr
                · rintro (old | ⟨-, same⟩ | later)
                  · exact Or.inl old
                  · exact Or.inl (same ▸ there)
                  · exact Or.inr later
          · next unseen =>
              obtain ⟨groups, known⟩ := ih separate.tail
                ⟨rule.id :: mirror.known, mirror.groups ++ rule.groups.map GroupKey.pair⟩
              have others : unmirrored rules (rule.id :: mirror.known) =
                  unmirrored rules mirror.known := by
                rw [unmirrored, unmirrored]
                congr 1
                refine List.filter_congr fun other member => ?_
                have apart : other.id ≠ rule.id := fun same =>
                  alone (same ▸ List.mem_map_of_mem member)
                simp [apart]
              refine ⟨?_, fun id => ?_⟩
              · rw [groups, others, unmirrored, unmirrored,
                  List.filter_cons_of_pos (by simpa [active] using unseen), List.flatMap_cons,
                  List.map_append, List.append_assoc]
              · rw [known, List.exists_mem_cons_iff, active, List.mem_cons]
                constructor
                · rintro ((same | old) | later)
                  · exact Or.inr (Or.inl ⟨rfl, same.symm⟩)
                  · exact Or.inl old
                  · exact Or.inr (Or.inr later)
                · rintro (old | ⟨-, same⟩ | later)
                  · exact Or.inl (Or.inr old)
                  · exact Or.inl (Or.inl same.symm)
                  · exact Or.inr later

/-! ### Every run -/

/-- What holds before a pop: the mirror, with the groups it has yet to be told of, is the queue. -/
structure Walk.Kept (walk : Walk) : Prop where
  sound : walk.discovery.Sound
  known : ∀ rule ∈ walk.discovery.rules, rule.id ∈ walk.mirror.known → rule.reason.isSome
  groups : walk.mirror.groups ++
      (unmirrored walk.discovery.rules walk.mirror.known).map GroupKey.pair =
    walk.discovery.queue.groups.map GroupKey.pair

/-- What holds once the mirror is brought up to date. -/
structure Walk.Synced (walk : Walk) : Prop where
  sound : walk.discovery.Sound
  known : ∀ rule ∈ walk.discovery.rules, rule.id ∈ walk.mirror.known ↔ rule.reason.isSome
  groups : walk.mirror.groups = walk.discovery.queue.groups.map GroupKey.pair

theorem Walk.Synced.level {walk : Walk} (synced : walk.Synced) : walk.Level := by
  rw [Walk.Level, synced.groups, List.map_eq_nil_iff]

theorem unmirrored_of_known {rules : List RuleState} {known : List RuleId}
    (told : ∀ rule ∈ rules, rule.id ∈ known ↔ rule.reason.isSome) :
    unmirrored rules known = [] := by
  rw [unmirrored, List.filter_eq_nil_iff.mpr, List.flatMap_nil]
  intro rule member
  have same := told rule member
  cases active : rule.reason.isSome <;> simp_all

theorem Walk.Kept.synced {walk : Walk} (kept : walk.Kept) :
    Walk.Synced ⟨walk.discovery, mirrorNewGroups walk.discovery walk.mirror⟩ := by
  obtain ⟨groups, known⟩ := mirrors_foldl kept.sound.separate walk.mirror
  refine ⟨kept.sound, fun rule member => (known rule.id).trans ?_, groups.trans kept.groups⟩
  constructor
  · rintro (old | ⟨other, inside, active, same⟩)
    · exact kept.known rule member old
    · rw [← List.inj_on_of_nodup_map kept.sound.separate.distinct inside member same]
      exact active
  · exact fun active => Or.inr ⟨rule, member, active, rfl⟩

theorem Walk.Synced.handle {walk next : Walk} {actions : List Action} (synced : walk.Synced)
    (ordered : InOrder walk.discovery.rules (actions.map Action.soname))
    (ran : handle walk actions = .ok next) : next.Kept := by
  rw [Activate.handle] at ran
  obtain ⟨discovery, performed, same⟩ := Except.andThen_eq_ok.mp ran
  cases same
  obtain ⟨sound, rules, groups⟩ := synced.sound.performAll performed
  refine ⟨sound, ?_, ?_⟩
  · intro rule member known
    rw [rules] at member
    obtain ⟨before, inside, rfl⟩ := List.mem_map.mp member
    rw [RuleState.observedAll_id] at known
    rw [before.observedAll_active, (synced.known before inside).mp known]
    rfl
  · have picked : unmirrored discovery.rules walk.mirror.known =
        (walk.discovery.rules.filter
          (·.rousedBy (actions.map Action.soname))).flatMap RuleState.groups := by
      rw [unmirrored, rules, List.filter_map, List.flatMap_map]
      simp only [Function.comp_def, RuleState.observedAll_groups, RuleState.observedAll_id,
        RuleState.observedAll_active]
      congr 1
      refine List.filter_congr fun rule member => ?_
      have told := synced.known rule member
      rw [RuleState.rousedBy]
      cases active : rule.reason with
      | none => simp_all
      | some reason => simp_all
    rw [groups, queuedBy_of_inOrder ordered, List.map_append, ← synced.groups, picked]

theorem Walk.Kept.popNext {walk : Walk} {popped : Popped} (kept : walk.Kept)
    (pops : popNext walk = some popped) : popped.Right ∧ popped.walk.Synced := by
  obtain ⟨⟨rules, queue⟩, mirror⟩ := walk
  cases items : queue.items with
  | nil => simp [Activate.popNext, Discovery.pop, WorkQueue.pop, items] at pops
  | cons item rest =>
      obtain ⟨sound, known, whole⟩ := kept.synced
      have left : Discovery.Sound ⟨rules, { queue with items := rest }⟩ :=
        ⟨sound.separate, sound.unqueued⟩
      rw [WorkQueue.groups, items] at whole
      rw [Activate.popNext, Discovery.pop, WorkQueue.pop, items, Option.map_some, Option.map_some,
        Option.some.injEq] at pops
      cases item with
      | object soname =>
          rw [← pops]
          have synced : Walk.Synced ⟨⟨rules, { queue with items := rest }⟩,
              mirrorNewGroups ⟨rules, queue⟩ mirror⟩ := ⟨left, known, whole⟩
          exact ⟨⟨fun key same => (nomatch same), synced.level⟩, synced⟩
      | group key =>
          rw [← pops]
          have front : (mirrorNewGroups ⟨rules, queue⟩ mirror).groups =
              key.pair :: (rest.filterMap WorkItem.group?).map GroupKey.pair := whole
          have synced : Walk.Synced ⟨⟨rules, { queue with items := rest }⟩,
              { mirrorNewGroups ⟨rules, queue⟩ mirror with
                groups := (mirrorNewGroups ⟨rules, queue⟩ mirror).groups.tail }⟩ :=
            ⟨left, known, congrArg List.tail front⟩
          refine ⟨⟨fun other same => ?_, synced.level⟩, synced⟩
          cases same
          exact congrArg List.head? front

/-- What the activator is before it observes anything. -/
structure Discovery.Idle (discovery : Discovery) : Prop where
  separate : Separate discovery.rules
  rules : ∀ rule ∈ discovery.rules, rule.reason = none
  items : discovery.queue.items = []
  queued : discovery.queue.queuedGroups = []

theorem Discovery.Idle.synced {discovery : Discovery} (idle : discovery.Idle) :
    Walk.Synced ⟨discovery, ⟨[], []⟩⟩ := by
  refine ⟨⟨idle.separate, fun rule _ _ key _ queued => ?_⟩, fun rule member => ?_, ?_⟩
  · rw [idle.queued] at queued
    cases queued
  · rw [idle.rules rule member]
    exact ⟨fun known => absurd known List.not_mem_nil, fun active => nomatch active⟩
  · rw [WorkQueue.groups, idle.items]
    rfl

theorem groups_seed (queue : WorkQueue) (sorted : List Bytes) :
    (queue.seed sorted).groups = queue.groups ∧
      (queue.seed sorted).queuedGroups = queue.queuedGroups := by
  induction sorted generalizing queue with
  | nil => exact ⟨rfl, rfl⟩
  | cons soname sorted ih => exact ih (queue.pushObject soname)

theorem Discovery.Idle.start {discovery : Discovery} {seeds : List Bytes} {walk : Walk}
    (idle : discovery.Idle) (ordered : InOrder discovery.rules seeds)
    (ran : start discovery seeds = .ok walk) : walk.Synced := by
  rw [Activate.start] at ran
  obtain ⟨observed, performed, same⟩ := Except.andThen_eq_ok.mp ran
  cases same
  have sonames : (seeds.map Action.observe).map Action.soname = seeds := by
    rw [List.map_map]
    exact List.map_id seeds
  have handled : handle ⟨discovery, ⟨[], []⟩⟩ (seeds.map Action.observe) =
      .ok ⟨observed, ⟨[], []⟩⟩ := by
    rw [Activate.handle, List.foldlM_map]
    exact Except.andThen_eq_ok.mpr ⟨observed, performed, rfl⟩
  obtain ⟨sound, known, groups⟩ := idle.synced.handle (by rwa [sonames]) handled
  have seeded := groups_seed observed.queue seeds
  have kept : Walk.Kept ⟨observed.seed seeds, ⟨[], []⟩⟩ := by
    refine ⟨⟨sound.separate, ?_⟩, known, ?_⟩
    · intro rule member idle key held
      rw [Discovery.seed, seeded.2]
      exact sound.unqueued rule member idle key held
    · rw [Discovery.seed, seeded.1]
      exact groups
  exact kept.synced

theorem groups_of (rule : Descriptor) :
    (RuleState.of rule).groups = rule.resourceIds.map fun id => ⟨rule.id, id⟩ := by
  simp only [RuleState.of, Descriptor.resourceIds, List.map_append, List.map_map]
  rfl

theorem idle_new {builtins locals : List Descriptor} {disabled : List RuleId}
    {discovery : Discovery} (opened : Discovery.new builtins locals disabled = .ok discovery) :
    discovery.Idle := by
  obtain ⟨accepted, same⟩ := Except.followed_eq_ok.mp opened
  cases same
  have valid := validateCatalog_eq_ok.mp accepted
  refine ⟨⟨?_, ?_, ?_⟩, ?_, rfl, rfl⟩
  · rw [List.map_map]
    exact valid.nodup_enabledRules
  · intro state member key held
    obtain ⟨rule, -, rfl⟩ := List.mem_map.mp member
    rw [groups_of] at held
    obtain ⟨id, -, rfl⟩ := List.mem_map.mp held
    rfl
  · intro state member
    obtain ⟨rule, inside, rfl⟩ := List.mem_map.mp member
    have checked := Descriptor.checked_of_validateFields
      (valid.each rule (mem_enabledRules.mp inside).1)
    rw [groups_of]
    exact checked.resources.map fun _ _ same => congrArg GroupKey.id same
  · intro state member
    obtain ⟨rule, -, rfl⟩ := List.mem_map.mp member
    rfl

/-- Where every batch of sonames activates its rules in catalog order, the group handled is the
group popped. -/
theorem handled_of_inOrder {builtins locals : List Descriptor} {disabled : List RuleId}
    {discovery : Discovery} (opened : Discovery.new builtins locals disabled = .ok discovery) :
    Handled InOrder discovery := by
  have idle := idle_new opened
  have kept : ∀ walk, Reaches InOrder discovery walk → walk.Kept := by
    intro walk reached
    induction reached with
    | start ordered ran =>
        have synced := idle.start ordered ran
        refine ⟨synced.sound, fun rule member => (synced.known rule member).mp, ?_⟩
        rw [unmirrored_of_known synced.known]
        simpa using synced.groups
    | step reached pops ordered ran ih => exact (ih.popNext pops).2.handle ordered ran
  exact ⟨fun seeds walk ordered ran => (idle.start ordered ran).level,
    fun walk popped reached pops => ((kept walk reached).popNext pops).1⟩

/-! ### Two rules out of order -/

def gtkId : RuleId := ⟨utf8 "gtk3", by decide⟩
def qtId : RuleId := ⟨utf8 "qt5", by decide⟩

def pluginsPath : RelativePath := ⟨utf8 "plugins", by decide, by decide⟩

/-- A rule with one group of its own name. -/
def pluginRule (id : RuleId) (soname : Bytes) : Descriptor where
  schema := 1
  id := id
  triggers := [⟨soname⟩]
  resources :=
    { plugins := [⟨id, .directory, [⟨.libraryDir, pluginsPath⟩], pluginsPath, .optional, []⟩]
      data := []
      helpers := [] }
  buildHooks := []
  runtime := ⟨[], []⟩

def pluginRules : List Descriptor :=
  [pluginRule gtkId (utf8 "libgtk"), pluginRule qtId (utf8 "libQt")]

/-- `libQt5` sorts before `libgtk-3`, and activates the rule that comes later in the catalog. -/
def pluginSeeds : List Bytes := [utf8 "libQt5.so", utf8 "libgtk-3.so"]

/-- What the activator makes of them. -/
def pluginDiscovery : Discovery := ⟨pluginRules.map RuleState.of, WorkQueue.new maxRecords⟩

theorem pluginDiscovery_new : Discovery.new pluginRules [] [] = .ok pluginDiscovery := by
  have accepted : validateCatalog pluginRules [] [] = .ok () := by decide +kernel
  have kept : enabledRules pluginRules [] [] = pluginRules :=
    sortByKey_of_sorted (by decide +kernel)
  rw [Discovery.new, accepted, kept]
  rfl

theorem plugins_in_order : Discovery.new pluginRules [] [] = .ok pluginDiscovery ∧
    Handled InOrder pluginDiscovery :=
  ⟨pluginDiscovery_new, handled_of_inOrder pluginDiscovery_new⟩

/-- The group of Qt is popped, and that of GTK is handled. -/
theorem plugins_crossed :
    Discovery.new pluginRules [] [] = .ok pluginDiscovery ∧
      ¬ Handled (fun _ _ => True) pluginDiscovery := by
  refine ⟨pluginDiscovery_new, fun handled => ?_⟩
  have first : Reaches (fun _ _ => True) pluginDiscovery _ :=
    @Reaches.start _ _ pluginSeeds _ trivial rfl
  have second := @Reaches.step _ _ _ _ _ [] first rfl trivial rfl
  have third := @Reaches.step _ _ _ _ _ [] second rfl trivial rfl
  have right := (handled.2 _ _ third rfl).front ⟨qtId, qtId⟩ rfl
  cases right

end Onelf.Cli.Bundle.Activate
