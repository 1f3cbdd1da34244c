import Onelf.Format.Catalog

/-! Rule activation over the bundling closure, and the mirror the walk keeps of the queued groups
(`activate.rs`, `bundle.rs`). -/

namespace Onelf.Cli.Bundle.Activate

open Onelf.Lib Onelf.Format

/-! ### The work queue -/

/-- A queued resource group: the rule that owns it and its declared identity. -/
structure GroupKey where
  rule : RuleId
  id : RuleId
  deriving DecidableEq

/-- One unit of discovery work. -/
inductive WorkItem where
  | object (soname : Bytes)
  | group (key : GroupKey)
  deriving DecidableEq

structure WorkQueue where
  items : List WorkItem
  queuedGroups : List GroupKey
  cap : Nat

/-- A rule queued more groups than the queue admits. -/
structure Unbounded where
  rule : RuleId
  cap : Nat

namespace WorkQueue

def new (cap : Nat) : WorkQueue := ⟨[], [], cap⟩

def pushObject (queue : WorkQueue) (soname : Bytes) : WorkQueue :=
  { queue with items := .object soname :: queue.items }

/-- Queue the walk's initial sonames; draining starts at the last. -/
def seed (queue : WorkQueue) (sorted : List Bytes) : WorkQueue := sorted.foldl pushObject queue

/-- Queue a resource group once per identity. -/
def pushGroup (queue : WorkQueue) (group : GroupKey) : Except Unbounded WorkQueue :=
  if queue.queuedGroups.contains group then .ok queue
  else if queue.queuedGroups.length ≥ queue.cap then .error ⟨group.rule, queue.cap⟩
  else
    .ok
      { queue with
        queuedGroups := group :: queue.queuedGroups
        items := queue.items ++ [.group group] }

def pop (queue : WorkQueue) : Option (WorkItem × WorkQueue) :=
  match queue.items with
  | [] => none
  | item :: items => some (item, { queue with items })

end WorkQueue

/-! ### Activation -/

/-- One enabled rule and the soname that activated it. -/
structure RuleState where
  id : RuleId
  triggers : List Trigger
  groups : List GroupKey
  reason : Option Bytes

def RuleState.of (rule : Descriptor) : RuleState where
  id := rule.id
  triggers := rule.triggers
  groups :=
    (rule.resources.plugins ++ rule.resources.data).map (fun group => ⟨rule.id, group.id⟩) ++
      rule.resources.helpers.map fun helper => ⟨rule.id, helper.id⟩
  reason := none

def RuleState.matchesSoname (rule : RuleState) (soname : Bytes) : Bool :=
  rule.triggers.any (·.matchesSoname soname)

structure Discovery where
  rules : List RuleState
  queue : WorkQueue

/-- One activated rule, and its groups in declaration order. -/
structure RuleActivation where
  rule : RuleId
  reason : Bytes
  groups : List RuleId

def RuleState.activation? (rule : RuleState) : Option RuleActivation :=
  rule.reason.map fun reason => ⟨rule.id, reason, rule.groups.map GroupKey.id⟩

namespace Discovery

def new (builtins locals : List Descriptor) (disabled : List RuleId) :
    Except RuleError Discovery := do
  validateCatalog builtins locals disabled
  .ok ⟨(enabledRules builtins locals disabled).map RuleState.of, WorkQueue.new maxRecords⟩

/-- Match a soname against every rule that is not yet active, and queue the groups of each rule it
activates. -/
def observeRules (soname : Bytes) :
    List RuleState → WorkQueue → Except Unbounded (List RuleState × WorkQueue)
  | [], queue => .ok ([], queue)
  | rule :: rules, queue =>
      if rule.reason.isSome || !rule.matchesSoname soname then do
        let (rules, queue) ← observeRules soname rules queue
        .ok (rule :: rules, queue)
      else do
        let queue ← rule.groups.foldlM WorkQueue.pushGroup queue
        let (rules, queue) ← observeRules soname rules queue
        .ok ({ rule with reason := some soname } :: rules, queue)

def observe (discovery : Discovery) (soname : Bytes) : Except Unbounded Discovery := do
  let (rules, queue) ← observeRules soname discovery.rules discovery.queue
  .ok ⟨rules, queue⟩

/-- Observe a soname and queue it for resolution. -/
def enqueue (discovery : Discovery) (soname : Bytes) : Except Unbounded Discovery := do
  let discovery ← discovery.observe soname
  .ok { discovery with queue := discovery.queue.pushObject soname }

def seed (discovery : Discovery) (sorted : List Bytes) : Discovery :=
  { discovery with queue := discovery.queue.seed sorted }

def pop (discovery : Discovery) : Option (WorkItem × Discovery) :=
  discovery.queue.pop.map fun popped => (popped.1, { discovery with queue := popped.2 })

/-- The activations in catalog order. -/
def activations (discovery : Discovery) : List RuleActivation :=
  discovery.rules.filterMap RuleState.activation?

end Discovery

/-! ### The walk -/

/-- What the walk keeps of the activator: the rules it has mirrored and the groups it takes to be
queued, by rule and identity. -/
structure Mirror where
  known : List RuleId
  groups : List (RuleId × RuleId)

def mirrorActivation (mirror : Mirror) (activation : RuleActivation) : Mirror :=
  if mirror.known.contains activation.rule then mirror
  else
    { known := activation.rule :: mirror.known
      groups := mirror.groups ++ activation.groups.map fun group => (activation.rule, group) }

/-- The groups of the rules that activated since the last call. -/
def mirrorNewGroups (discovery : Discovery) (mirror : Mirror) : Mirror :=
  discovery.activations.foldl mirrorActivation mirror

/-- What handling an item does to the activator. -/
inductive Action where
  | observe (soname : Bytes)
  | enqueue (soname : Bytes)

def Action.soname : Action → Bytes
  | observe soname => soname
  | enqueue soname => soname

def perform (discovery : Discovery) : Action → Except Unbounded Discovery
  | .observe soname => discovery.observe soname
  | .enqueue soname => discovery.enqueue soname

structure Walk where
  discovery : Discovery
  mirror : Mirror

/-- The walk once it has observed and seeded its initial sonames. -/
def start (discovery : Discovery) (seeds : List Bytes) : Except Unbounded Walk := do
  let discovery ← seeds.foldlM Discovery.observe discovery
  let discovery := discovery.seed seeds
  .ok ⟨discovery, mirrorNewGroups discovery ⟨[], []⟩⟩

/-- The item popped next, with the front of the mirror where it is a group. -/
structure Popped where
  item : WorkItem
  front : Option (RuleId × RuleId)
  walk : Walk

/-- Pop an item, mirror the groups queued meanwhile, and take the front for a group. -/
def popNext (walk : Walk) : Option Popped :=
  walk.discovery.pop.map fun (item, discovery) =>
    let mirror := mirrorNewGroups discovery walk.mirror
    match item with
    | .object _ => ⟨item, none, ⟨discovery, mirror⟩⟩
    | .group _ =>
        ⟨item, mirror.groups.head?, ⟨discovery, { mirror with groups := mirror.groups.tail }⟩⟩

/-- What handling the item did. -/
def handle (walk : Walk) (actions : List Action) : Except Unbounded Walk := do
  let discovery ← actions.foldlM perform walk.discovery
  .ok { walk with discovery }

end Onelf.Cli.Bundle.Activate
