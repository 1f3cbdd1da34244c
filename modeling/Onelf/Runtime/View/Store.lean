import Mathlib.Logic.Function.Basic
import Onelf.Lib.Guards

/-! Launches that lease an execution view and build it where it is missing (`links.rs`), beside the
collectors of the view store (`cache.rs`), one lock or file operation at a time. -/

namespace Onelf.Runtime.ViewStore

open Onelf.Lib

/-- What launches build: the directory name of an identity, the entries its build stages, in order,
and the digest of an environment input. -/
structure Views (Id Key Entry Env Hash : Type) where
  key : Id → Key
  content : Id → List Entry
  hash : Env → Hash

/-- A view's directory, or a staging tree. -/
structure Tree (Id Entry Env Hash : Type) where
  inode : Nat
  entries : List Entry
  /-- `.onelf/runtime-env` -/
  env : Option Env
  /-- `config`: whose view it is, and the digest of the environment input. -/
  record : Option (Id × Option Hash)
  /-- `ready` -/
  ready : Bool

/-- What one view has under the store. -/
structure Slot (Id Entry Env Hash : Type) where
  /-- `view-<key>` -/
  view : Option (Tree Id Entry Env Hash)
  /-- `view-<key>.staging-<name>` -/
  staging : List (Nat × Tree Id Entry Env Hash)

structure Store (Id Key Entry Env Hash : Type) where
  slots : Key → Slot Id Entry Env Hash
  inodes : Nat

/-! ### Processes -/

/-- How far a launch has come, from the lease through `ensure_view`. -/
inductive Stage (Id Entry Env Hash : Type) where
  | starting
  | opened
  | leased
  | locked
  | readied
  | recorded (hash : Option Hash)
  | discarding
  | converting
  | trying
  | refused
  | clearing
  | yielding (cleared : Bool)
  | regaining (cleared : Bool)
  | creating
  | building (name : Nat) (rest : List Entry)
  | expanding (name : Nat) (env : Option Env)
  | recording (name : Nat) (env : Option Env)
  | syncing (name : Nat)
  | marking (name : Nat)
  | publishing (name : Nat)
  | published
  | stamping
  /-- With what the view's name showed when `ensure_view` returned. -/
  | running (shown : Option (Tree Id Entry Env Hash))
  | failing (name : Nat)
  | gone

/-- How far `reclaim_view` has come. -/
inductive Sweep (Key : Type) where
  | picking
  | chosen (key : Key)
  | leased (key : Key)
  | judging (key : Key)
  | removing (key : Key)
  | scratching (key : Key)
  | gone

inductive Proc (Id Key Entry Env Hash : Type) where
  | launch (id : Id) (stage : Stage Id Entry Env Hash)
  | collector (sweep : Sweep Key)

/-- What `remove_dir_all` takes one at a time. -/
inductive Part (Entry : Type) where
  | entry (entry : Entry)
  | env
  | record
  | ready

/-- What a process does next: the operation its stage is at, which may fail, one removal, a choice,
or its end. -/
inductive Act (Key Entry Env : Type) where
  | next
  | fail
  | unlinkView (part : Part Entry)
  | unlinkStaged (name : Nat) (part : Part Entry)
  | rmdirStaged (name : Nat)
  | attempt (name : Nat)
  | expand (env : Option Env)
  | pick (key : Key)
  | judge (idle : Bool)
  | crash

/-! ### Locks -/

/-- The lock files beside a view. No party unlinks one. -/
inductive LockFile (Key : Type) where
  | lease (key : Key)
  | create (key : Key)
  deriving DecidableEq

section
variable {Id Key Entry Env Hash : Type}

namespace Stage

/-- How the in-use lease is held. A conversion lets the old lock go before it tries for the new. -/
@[simp] def lease? : Stage Id Entry Env Hash → Option LockMode
  | starting | opened | trying | refused | regaining _ | gone => none
  | clearing | yielding _ => some .exclusive
  | _ => some .shared

/-- The creation mutex is held. -/
@[simp] def creates : Stage Id Entry Env Hash → Bool
  | starting | opened | leased | running _ | gone => false
  | _ => true

@[simp] def claims (key : Key) (stage : Stage Id Entry Env Hash) : List (Claim (LockFile Key)) :=
  (stage.lease?.toList.map fun mode => ⟨.lease key, mode⟩) ++
    (if stage.creates then [⟨.create key, .exclusive⟩] else [])

end Stage

@[simp] def Sweep.claims : Sweep Key → List (Claim (LockFile Key))
  | .leased key => [⟨.lease key, .exclusive⟩]
  | .judging key | .removing key | .scratching key =>
      [⟨.lease key, .exclusive⟩, ⟨.create key, .exclusive⟩]
  | _ => []

def held (views : Views Id Key Entry Env Hash) :
    Proc Id Key Entry Env Hash → List (Claim (LockFile Key))
  | .launch id stage => stage.claims (views.key id)
  | .collector sweep => sweep.claims

/-! ### File operations -/

namespace Tree

/-- An empty directory, which is all `rmdir` and a rename onto it take. -/
def bare (tree : Tree Id Entry Env Hash) : Bool :=
  tree.entries.isEmpty && tree.env.isNone && tree.record.isNone && !tree.ready

def unlink [DecidableEq Entry] (tree : Tree Id Entry Env Hash) :
    Part Entry → Tree Id Entry Env Hash
  | .entry entry => { tree with entries := tree.entries.filter (· ≠ entry) }
  | .env => { tree with env := none }
  | .record => { tree with record := none }
  | .ready => { tree with ready := false }

def place (tree : Tree Id Entry Env Hash) (entry : Entry) : Tree Id Entry Env Hash :=
  { tree with entries := tree.entries ++ [entry] }

/-- `write_file` of the environment input, where the build expanded one. -/
def expand (tree : Tree Id Entry Env Hash) : Option Env → Tree Id Entry Env Hash
  | none => tree
  | some env => { tree with env := some env }

/-- `ViewRecord::write` -/
def write (tree : Tree Id Entry Env Hash) (id : Id) (hash : Option Hash) :
    Tree Id Entry Env Hash := { tree with record := some (id, hash) }

/-- `write_ready` -/
def mark (tree : Tree Id Entry Env Hash) : Tree Id Entry Env Hash := { tree with ready := true }

end Tree

namespace Slot

def staged (slot : Slot Id Entry Env Hash) (name : Nat) : Option (Tree Id Entry Env Hash) :=
  slot.staging.lookup name

def unlinkView [DecidableEq Entry] (slot : Slot Id Entry Env Hash) (part : Part Entry) :
    Slot Id Entry Env Hash := { slot with view := slot.view.map (·.unlink part) }

def editStaged (slot : Slot Id Entry Env Hash) (name : Nat)
    (change : Tree Id Entry Env Hash → Tree Id Entry Env Hash) : Slot Id Entry Env Hash :=
  { slot with staging := slot.staging.map fun entry =>
      if entry.1 = name then (entry.1, change entry.2) else entry }

def dropStaged (slot : Slot Id Entry Env Hash) (name : Nat) : Slot Id Entry Env Hash :=
  { slot with staging := slot.staging.filter (·.1 ≠ name) }

/-- `rmdir` of a staging tree, which leaves one that is not empty. -/
def rmdirStaged (slot : Slot Id Entry Env Hash) (name : Nat) : Slot Id Entry Env Hash :=
  if (slot.staged name).any Tree.bare then slot.dropStaged name else slot

end Slot

namespace Store

variable [DecidableEq Key]

def set (store : Store Id Key Entry Env Hash) (key : Key) (slot : Slot Id Entry Env Hash) :
    Store Id Key Entry Env Hash := { store with slots := Function.update store.slots key slot }

@[simp] theorem set_self (store : Store Id Key Entry Env Hash) (key : Key)
    (slot : Slot Id Entry Env Hash) : (store.set key slot).slots key = slot := by
  simp only [set, Function.update_self]

@[simp] theorem set_other (store : Store Id Key Entry Env Hash) {key other : Key}
    (apart : other ≠ key) (slot : Slot Id Entry Env Hash) :
    (store.set key slot).slots other = store.slots other := by
  simp only [set, Function.update_of_ne apart]

/-- `mkdir` of a staging tree. -/
def stage (store : Store Id Key Entry Env Hash) (key : Key) (name : Nat) :
    Store Id Key Entry Env Hash :=
  { store.set key { store.slots key with
      staging := (name, ⟨store.inodes, [], none, none, false⟩) :: (store.slots key).staging } with
    inodes := store.inodes + 1 }

def edit (store : Store Id Key Entry Env Hash) (key : Key) (name : Nat)
    (change : Tree Id Entry Env Hash → Tree Id Entry Env Hash) : Store Id Key Entry Env Hash :=
  store.set key ((store.slots key).editStaged name change)

end Store

/-! ### A launch -/

variable [DecidableEq Id] [DecidableEq Key] [DecidableEq Entry] [DecidableEq Hash]
  (views : Views Id Key Entry Env Hash)

/-- The rename of a staging tree onto the view's name, which replaces an empty directory only. -/
def renameOnto (store : Store Id Key Entry Env Hash) (key : Key) (name : Nat) :
    Store Id Key Entry Env Hash × Stage Id Entry Env Hash :=
  match (store.slots key).staged name with
  | none => (store, .failing name)
  | some tree =>
      if (store.slots key).view.all Tree.bare then
        (store.set key { (store.slots key).dropStaged name with view := some tree }, .published)
      else (store, .failing name)

/-- The next operation of a launch. -/
def launchNext (store : Store Id Key Entry Env Hash) (grants : Claim (LockFile Key) → Bool)
    (id : Id) (slot : Slot Id Entry Env Hash) :
    Stage Id Entry Env Hash → Option (Store Id Key Entry Env Hash × Stage Id Entry Env Hash)
  | .starting => some (store, .opened)
  | .opened => if grants ⟨.lease (views.key id), .shared⟩ then some (store, .leased) else none
  | .leased => if grants ⟨.create (views.key id), .exclusive⟩ then some (store, .locked) else none
  | .locked => some (store, if slot.view.any Tree.ready then .readied else .discarding)
  | .readied =>
      match slot.view.bind Tree.record with
      | none => some (store, .discarding)
      | some (owner, hash) =>
          some (store, if owner = id then .recorded hash else .discarding)
  | .recorded hash =>
      some (store, if (slot.view.bind Tree.env).map views.hash = hash then .stamping
        else .discarding)
  | .discarding =>
      if slot.staging.isEmpty then
        some (store, if slot.view.isSome then .converting else .creating)
      else none
  | .converting => some (store, .trying)
  | .trying =>
      some (store, if grants ⟨.lease (views.key id), .exclusive⟩ then .clearing else .refused)
  | .refused => if grants ⟨.lease (views.key id), .shared⟩ then some (store, .gone) else none
  | .clearing =>
      if slot.view.all Tree.bare then
        some (store.set (views.key id) { slot with view := none }, .yielding true)
      else none
  | .yielding cleared => some (store, .regaining cleared)
  | .regaining cleared =>
      if grants ⟨.lease (views.key id), .shared⟩ then
        some (store, if cleared then .creating else .gone)
      else none
  | .creating => none
  | .building _ [] => none
  | .building name (entry :: rest) =>
      some (store.edit (views.key id) name (·.place entry), .building name rest)
  | .expanding name env =>
      some (store.edit (views.key id) name (·.expand env), .recording name env)
  | .recording name env =>
      some (store.edit (views.key id) name (·.write id (env.map views.hash)), .syncing name)
  | .syncing name => some (store, .marking name)
  | .marking name => some (store.edit (views.key id) name Tree.mark, .publishing name)
  | .publishing name => some (renameOnto store (views.key id) name)
  | .published =>
      some (store, if (slot.view.bind Tree.record).any (·.1 = id) then .stamping else .gone)
  | .stamping => some (store, .running slot.view)
  | .running _ => some (store, .gone)
  | .failing name => some (store.set (views.key id) (slot.rmdirStaged name), .gone)
  | .gone => none

/-- A turn of a launch. An error that only ends the launch is its end. -/
def launchTurn (store : Store Id Key Entry Env Hash) (grants : Claim (LockFile Key) → Bool)
    (id : Id) (stage : Stage Id Entry Env Hash) :
    Act Key Entry Env → Option (Store Id Key Entry Env Hash × Stage Id Entry Env Hash)
  | .next => launchNext views store grants id (store.slots (views.key id)) stage
  | .fail =>
      match stage with
      | .clearing => some (store, .yielding false)
      | .building name _ | .expanding name _ | .recording name _ | .syncing name | .marking name
      | .publishing name => some (store, .failing name)
      | _ => none
  | .unlinkView part =>
      match stage with
      | .clearing =>
          some (store.set (views.key id) ((store.slots (views.key id)).unlinkView part), stage)
      | _ => none
  | .unlinkStaged name part =>
      match stage with
      | .discarding | .creating => some (store.edit (views.key id) name (·.unlink part), stage)
      | .failing own =>
          if name = own then some (store.edit (views.key id) name (·.unlink part), stage) else none
      | _ => none
  | .rmdirStaged name =>
      match stage with
      | .discarding | .creating =>
          some (store.set (views.key id) ((store.slots (views.key id)).rmdirStaged name), stage)
      | _ => none
  | .attempt name =>
      match stage with
      | .creating =>
          if ((store.slots (views.key id)).staged name).isNone then
            some (store.stage (views.key id) name, .building name (views.content id))
          else none
      | _ => none
  | .expand env =>
      match stage with
      | .building name [] => some (store, .expanding name env)
      | _ => none
  | .crash => some (store, .gone)
  | .pick _ | .judge _ => none

/-! ### A collector -/

/-- A turn of `reclaim_view`, for whatever view the listing named. -/
def collectorTurn (store : Store Id Key Entry Env Hash) (grants : Claim (LockFile Key) → Bool)
    (sweep : Sweep Key) :
    Act Key Entry Env → Option (Store Id Key Entry Env Hash × Sweep Key)
  | .next =>
      match sweep with
      | .chosen key =>
          some (store, if grants ⟨.lease key, .exclusive⟩ then .leased key else .picking)
      | .leased key =>
          some (store, if grants ⟨.create key, .exclusive⟩ then .judging key else .picking)
      | .removing key =>
          if (store.slots key).view.all Tree.bare then
            some (store.set key { store.slots key with view := none }, .scratching key)
          else none
      | .scratching _ => some (store, .picking)
      | _ => none
  | .fail =>
      match sweep with
      -- A removal that fails half way is passed over.
      | .removing key => some (store, .scratching key)
      | _ => none
  | .unlinkView part =>
      match sweep with
      | .removing key => some (store.set key ((store.slots key).unlinkView part), sweep)
      | _ => none
  | .unlinkStaged name part =>
      match sweep with
      | .scratching key => some (store.edit key name (·.unlink part), sweep)
      | _ => none
  | .rmdirStaged name =>
      match sweep with
      | .scratching key => some (store.set key ((store.slots key).rmdirStaged name), sweep)
      | _ => none
  | .pick key =>
      match sweep with
      | .picking => some (store, .chosen key)
      | _ => none
  | .judge idle =>
      match sweep with
      | .judging key =>
          some (store, if (store.slots key).view.any Tree.ready && !idle then .scratching key
            else .removing key)
      | _ => none
  | .crash => some (store, .gone)
  | .attempt _ | .expand _ => none

/-- Launches and collectors over one view store. -/
def program : Program (Store Id Key Entry Env Hash) (Proc Id Key Entry Env Hash)
    (Act Key Entry Env)
  | store, others, .launch id stage, action =>
      (launchTurn views store (grantable (held views) others) id stage action).map fun turn =>
        ⟨turn.1, .launch id turn.2, []⟩
  | store, others, .collector sweep, action =>
      (collectorTurn store (grantable (held views) others) sweep action).map fun turn =>
        ⟨turn.1, .collector turn.2, []⟩

end

end Onelf.Runtime.ViewStore
