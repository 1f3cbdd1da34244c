import Mathlib.Logic.Function.Basic
import Onelf.Lib.Flock

/-! Launches that extract their package into the cache, beside the collectors that remove idle
packages from it (`cache.rs`), file operation by file operation. -/

namespace Onelf.Runtime.Cache

open Onelf.Lib

/-- What one package has under the cache root. -/
structure Package (Entry : Type) where
  /-- `pkg/<id>`: what it has in it, if it is there. -/
  tree : Option (List Entry)
  /-- `pkg/.<id>.ready` -/
  ready : Bool
  /-- `pkg/.<id>.tmp` -/
  temp : Option (List Entry)
  /-- `lock/<id>` -/
  lock : Bool
  /-- `lock/<id>.extract`, by its inode. -/
  mutex : Option Nat
  /-- `meta/<id>` -/
  used : Bool

structure Root (Id Entry Blob : Type) where
  packages : Id → Package Entry
  /-- `cas/`: the names each blob has, its own and those in trees. -/
  blobs : Blob → Option Nat
  inodes : Nat

/-- What packages carry: the entries in the order they are extracted, and the blob of a file. -/
structure Packages (Id Entry Blob : Type) where
  entries : Id → List Entry
  blob : Entry → Option Blob

/-! ### Processes -/

/-- How far `ensure_extracted` has come. -/
inductive Stage (Entry : Type) where
  | starting
  | opened
  | pinned
  | found
  | hit
  | missed
  | waiting (mutex : Nat)
  | locked (mutex : Nat)
  | lockedFound (mutex : Nat)
  | clearing (mutex : Nat)
  | unmarking (mutex : Nat)
  | clearingTemp (mutex : Nat)
  | makingTemp (mutex : Nat)
  | openingStore (mutex : Nat)
  | placing (mutex : Nat) (rest : List Entry)
  | linking (mutex : Nat) (entry : Entry) (rest : List Entry)
  | moving (mutex : Nat)
  | marking (mutex : Nat)
  | touching (mutex : Nat)
  | running
  | failing (mutex : Nat) (store : Bool)
  | withdrawing (mutex : Nat)
  | gone

/-- How far `remove_package` has come. -/
inductive Removal where
  | mark
  | tree
  | temp
  | record
  | mutex

inductive Sweep (Id : Type) where
  | picking
  | chosen (id : Id)
  | opened (id : Id)
  /-- With the in-use lock, or without one because its file was missing. -/
  | removing (id : Id) (locked : Bool) (part : Removal)
  | storing
  | gone

/-- Which collector: the runtime's, that leaves its own launch's package alone, or the command's. -/
inductive Collector (Id : Type) where
  | auto (current : Id)
  | command

inductive Proc (Id Entry : Type) where
  | launch (id : Id) (stage : Stage Entry)
  | collector (collector : Collector Id) (sweep : Sweep Id)

/-- What a process does next: the operation its stage is at, which may fail, one removal of a
`remove_dir_all`, a collector's choice, or its end. -/
inductive Act (Id Entry Blob : Type) where
  | next
  | fail
  | unlink (entry : Entry)
  | pick (id : Id)
  | sweepStore
  | unlinkBlob (blob : Blob)
  | crash

/-! ### Locks -/

inductive LockFile (Id : Type) where
  | inUse (id : Id)
  | mutex (inode : Nat)
  | store
  deriving DecidableEq

namespace Stage

variable {Entry : Type}

/-- The in-use lock is held. -/
@[simp] def pins : Stage Entry → Bool
  | starting | opened | gone => false
  | _ => true

/-- The extraction mutex, once it is open. -/
@[simp] def mutex? : Stage Entry → Option Nat
  | waiting mutex | locked mutex | lockedFound mutex | clearing mutex | unmarking mutex
  | clearingTemp mutex | makingTemp mutex | openingStore mutex | placing mutex _
  | linking mutex _ _ | moving mutex | marking mutex | touching mutex | failing mutex _
  | withdrawing mutex => some mutex
  | _ => none

/-- The extraction mutex is held. -/
@[simp] def extracts : Stage Entry → Bool
  | waiting _ => false
  | stage => stage.mutex?.isSome

/-- The store's lock is held. -/
@[simp] def stores : Stage Entry → Bool
  | placing _ _ | linking _ _ _ => true
  | failing _ store => store
  | _ => false

/-- The locks of a launch. -/
@[simp] def claims {Id : Type} (id : Id) (stage : Stage Entry) : List (Claim (LockFile Id)) :=
  (if stage.pins then [⟨.inUse id, .shared⟩] else []) ++
    (if stage.extracts then stage.mutex?.toList.map fun inode => ⟨.mutex inode, .exclusive⟩
      else []) ++
    (if stage.stores then [⟨.store, .shared⟩] else [])

end Stage

/-- The locks of a collector. -/
@[simp] def Sweep.claims {Id : Type} : Sweep Id → List (Claim (LockFile Id))
  | .removing id true _ => [⟨.inUse id, .exclusive⟩]
  | .storing => [⟨.store, .exclusive⟩]
  | _ => []

section
variable {Id Entry Blob : Type}

def held : Proc Id Entry → List (Claim (LockFile Id))
  | .launch id stage => stage.claims id
  | .collector _ sweep => sweep.claims

/-! ### File operations -/

/-- A name of a blob goes. -/
def unlinkBlob [DecidableEq Blob] (blobs : Blob → Option Nat) (blob : Option Blob) :
    Blob → Option Nat :=
  match blob with
  | none => blobs
  | some blob => Function.update blobs blob ((blobs blob).map (· - 1))

/-- `rmdir`, which leaves a directory that is not empty. -/
def rmdir : Option (List Entry) → Option (List Entry)
  | some [] => none
  | tree => tree

namespace Root

variable [DecidableEq Id]

def setPackage (root : Root Id Entry Blob) (id : Id) (package : Package Entry) :
    Root Id Entry Blob :=
  { root with packages := Function.update root.packages id package }

@[simp] theorem setPackage_self (root : Root Id Entry Blob) (id : Id) (package : Package Entry) :
    (root.setPackage id package).packages id = package := by
  simp only [setPackage, Function.update_self]

@[simp] theorem setPackage_other (root : Root Id Entry Blob) {id other : Id} (apart : other ≠ id)
    (package : Package Entry) :
    (root.setPackage id package).packages other = root.packages other := by
  simp only [setPackage, Function.update_of_ne apart]

variable [DecidableEq Entry] [DecidableEq Blob]

/-- One entry of a tree goes. -/
def unlinkTree (packages : Packages Id Entry Blob) (root : Root Id Entry Blob) (id : Id)
    (entry : Entry) : Root Id Entry Blob :=
  { root.setPackage id
      { root.packages id with tree := (root.packages id).tree.map (·.filter (· ≠ entry)) } with
    blobs := unlinkBlob root.blobs (packages.blob entry) }

def unlinkTemp (packages : Packages Id Entry Blob) (root : Root Id Entry Blob) (id : Id)
    (entry : Entry) : Root Id Entry Blob :=
  { root.setPackage id
      { root.packages id with temp := (root.packages id).temp.map (·.filter (· ≠ entry)) } with
    blobs := unlinkBlob root.blobs (packages.blob entry) }

/-- An entry is put in the scratch tree. -/
def placeTemp (root : Root Id Entry Blob) (id : Id) (entry : Entry) : Root Id Entry Blob :=
  root.setPackage id { root.packages id with
    temp := (root.packages id).temp.map fun entries => entry :: entries.filter (· ≠ entry) }

section
variable (packages : Packages Id Entry Blob) (root : Root Id Entry Blob) {id other : Id}
  (entry : Entry)

@[simp] theorem unlinkTree_self : (root.unlinkTree packages id entry).packages id =
    { root.packages id with tree := (root.packages id).tree.map (·.filter (· ≠ entry)) } := by
  simp only [unlinkTree, setPackage_self]

@[simp] theorem unlinkTree_other (apart : other ≠ id) :
    (root.unlinkTree packages id entry).packages other = root.packages other := by
  simp only [unlinkTree, setPackage_other root apart]

@[simp] theorem unlinkTemp_self : (root.unlinkTemp packages id entry).packages id =
    { root.packages id with temp := (root.packages id).temp.map (·.filter (· ≠ entry)) } := by
  simp only [unlinkTemp, setPackage_self]

@[simp] theorem unlinkTemp_other (apart : other ≠ id) :
    (root.unlinkTemp packages id entry).packages other = root.packages other := by
  simp only [unlinkTemp, setPackage_other root apart]

omit [DecidableEq Blob] in
@[simp] theorem placeTemp_self : (root.placeTemp id entry).packages id = { root.packages id with
    temp := (root.packages id).temp.map fun entries => entry :: entries.filter (· ≠ entry) } := by
  simp only [placeTemp, setPackage_self]

omit [DecidableEq Blob] in
@[simp] theorem placeTemp_other (apart : other ≠ id) :
    (root.placeTemp id entry).packages other = root.packages other := by
  simp only [placeTemp, setPackage_other root apart]

end

end Root

/-! ### A launch -/

variable [DecidableEq Id] [DecidableEq Entry] [DecidableEq Blob]
  (packages : Packages Id Entry Blob)

/-- The next operation of `ensure_extracted`. -/
def launchNext (root : Root Id Entry Blob) (grants : Claim (LockFile Id) → Bool) (id : Id) :
    Stage Entry → Option (Root Id Entry Blob × Stage Entry)
  | .starting => some (root.setPackage id { root.packages id with lock := true }, .opened)
  | .opened => if grants ⟨.inUse id, .shared⟩ then some (root, .pinned) else none
  | .pinned => some (root, if (root.packages id).tree.isSome then .found else .missed)
  | .found => some (root, if (root.packages id).ready then .hit else .missed)
  | .hit => some (root.setPackage id { root.packages id with used := true }, .running)
  | .missed =>
      match (root.packages id).mutex with
      | some mutex => some (root, .waiting mutex)
      | none => some ({ root.setPackage id { root.packages id with mutex := some root.inodes } with
          inodes := root.inodes + 1 }, .waiting root.inodes)
  | .waiting mutex => if grants ⟨.mutex mutex, .exclusive⟩ then some (root, .locked mutex) else none
  | .locked mutex =>
      some (root, if (root.packages id).tree.isSome then .lockedFound mutex else .clearing mutex)
  | .lockedFound mutex =>
      some (root, if (root.packages id).ready then .touching mutex else .clearing mutex)
  | .clearing mutex =>
      some (root.setPackage id { root.packages id with tree := rmdir (root.packages id).tree },
        .unmarking mutex)
  | .unmarking mutex =>
      some (root.setPackage id { root.packages id with ready := false }, .clearingTemp mutex)
  | .clearingTemp mutex =>
      some (root.setPackage id { root.packages id with temp := rmdir (root.packages id).temp },
        .makingTemp mutex)
  | .makingTemp mutex =>
      some (root.setPackage id { root.packages id with
        temp := some ((root.packages id).temp.getD []) }, .openingStore mutex)
  | .openingStore mutex =>
      if grants ⟨.store, .shared⟩ then some (root, .placing mutex (packages.entries id)) else none
  | .placing mutex [] => some (root, .moving mutex)
  | .placing mutex (entry :: rest) =>
      match packages.blob entry with
      | none => some (root.placeTemp id entry, .placing mutex rest)
      | some blob => some ({ root with
          blobs := Function.update root.blobs blob (some ((root.blobs blob).getD 1)) },
            .linking mutex entry rest)
  | .linking mutex entry rest =>
      match (packages.blob entry).bind fun blob => (root.blobs blob).map (blob, ·) with
      | none => some (root, .failing mutex true)
      | some (blob, names) => some ({ root.placeTemp id entry with
          blobs := Function.update root.blobs blob (some (names + 1)) }, .placing mutex rest)
  | .moving mutex =>
      -- A rename replaces an empty directory only.
      if (root.packages id).temp.isSome && ((root.packages id).tree.getD []).isEmpty then
        some (root.setPackage id { root.packages id with
          tree := (root.packages id).temp
          temp := none }, .marking mutex)
      else some (root, .failing mutex false)
  | .marking mutex =>
      some (root.setPackage id { root.packages id with ready := true }, .touching mutex)
  | .touching _ => some (root.setPackage id { root.packages id with used := true }, .running)
  | .running => some (root, .gone)
  | .failing _ _ =>
      some (root.setPackage id { root.packages id with temp := rmdir (root.packages id).temp },
        .gone)
  | .withdrawing _ =>
      some (root.setPackage id { root.packages id with tree := rmdir (root.packages id).tree },
        .gone)
  | .gone => none

def launchTurn (root : Root Id Entry Blob) (grants : Claim (LockFile Id) → Bool) (id : Id)
    (stage : Stage Entry) : Act Id Entry Blob → Option (Root Id Entry Blob × Stage Entry)
  | .next => launchNext packages root grants id stage
  | .fail =>
      match stage with
      | .placing mutex _ | .linking mutex _ _ => some (root, .failing mutex true)
      | .moving mutex => some (root, .failing mutex false)
      | .marking mutex => some (root, .withdrawing mutex)
      | _ => none
  | .unlink entry =>
      match stage with
      | .clearing _ | .withdrawing _ => some (root.unlinkTree packages id entry, stage)
      | .clearingTemp _ | .failing _ _ => some (root.unlinkTemp packages id entry, stage)
      | _ => none
  | .crash => some (root, .gone)
  | _ => none

/-! ### A collector -/

/-- The next operation of `try_remove_locked`. -/
def collectorNext (root : Root Id Entry Blob) (grants : Claim (LockFile Id) → Bool)
    (collector : Collector Id) : Sweep Id → Option (Root Id Entry Blob × Sweep Id)
  | .picking => none
  | .chosen id =>
      -- A missing lock file counts as proof that nobody runs the package.
      some (root, if (root.packages id).lock then .opened id else .removing id false .mark)
  | .opened id =>
      some (root, if grants ⟨.inUse id, .exclusive⟩ then .removing id true .mark else .picking)
  | .removing id locked .mark =>
      some (root.setPackage id { root.packages id with ready := false }, .removing id locked .tree)
  | .removing id locked .tree =>
      some (root.setPackage id { root.packages id with tree := rmdir (root.packages id).tree },
        .removing id locked (match collector with
          | .auto _ => .record
          | .command => .temp))
  | .removing id locked .temp =>
      some (root.setPackage id { root.packages id with temp := rmdir (root.packages id).temp },
        .removing id locked .record)
  | .removing id locked .record =>
      some (root.setPackage id { root.packages id with used := false },
        .removing id locked .mutex)
  | .removing id _ .mutex =>
      some (root.setPackage id { root.packages id with mutex := none }, .picking)
  | .storing => some (root, .picking)
  | .gone => none

def collectorTurn (root : Root Id Entry Blob) (grants : Claim (LockFile Id) → Bool)
    (collector : Collector Id) (sweep : Sweep Id) :
    Act Id Entry Blob → Option (Root Id Entry Blob × Sweep Id)
  | .next => collectorNext root grants collector sweep
  | .pick id =>
      match sweep, collector with
      | .picking, .auto current =>
          if (root.packages id).used && current ≠ id then some (root, .chosen id) else none
      | .picking, .command => if (root.packages id).used then some (root, .chosen id) else none
      | _, _ => none
  | .unlink entry =>
      match sweep with
      | .removing id _ .tree => some (root.unlinkTree packages id entry, sweep)
      | .removing id _ .temp => some (root.unlinkTemp packages id entry, sweep)
      | _ => none
  | .sweepStore =>
      match sweep with
      | .picking => some (root, if grants ⟨.store, .exclusive⟩ then .storing else .picking)
      | _ => none
  | .unlinkBlob blob =>
      -- Only a blob that no tree has a name of.
      match sweep, root.blobs blob with
      | .storing, some 1 => some ({ root with blobs := Function.update root.blobs blob none }, sweep)
      | _, _ => none
  | .crash => some (root, .gone)
  | .fail => none

/-- Launches and collectors over one cache root. -/
def program : Program (Root Id Entry Blob) (Proc Id Entry) (Act Id Entry Blob)
  | root, others, .launch id stage, action =>
      (launchTurn packages root (grantable held others) id stage action).map fun turn =>
        ⟨turn.1, .launch id turn.2, []⟩
  | root, others, .collector collector sweep, action =>
      (collectorTurn packages root (grantable held others) collector sweep action).map fun turn =>
        ⟨turn.1, .collector collector turn.2, []⟩

end

end Onelf.Runtime.Cache
