import Mathlib.Logic.Function.Basic
import Onelf.Lib.Flock

/-! The private runtime directory, in file and lock operations: the claims on its directories and
their sweep (`paths.rs`), and the mounts that dependency sets are served from (`sets.rs`). -/

namespace Onelf.Runtime.Mountpoints

open Onelf.Lib

/-- The name of a directory. -/
abbrev Name := List Char

structure LockFile where
  inode : Nat
  modified : Nat

structure Dir (Entry : Type) where
  entries : List Entry
  modified : Nat

/-- What a mount says to who reads it. -/
inductive Answer where
  /-- Nothing, before its server serves it. -/
  | waits
  | answers
  /-- An error, once its server has let go of it. -/
  | dead
  deriving DecidableEq

structure Mount where
  number : Nat
  /-- The hash of the build it serves. -/
  build : List Char
  answer : Answer

/-- What the directory has under one name. -/
structure Slot (Entry : Type) where
  /-- `.<name>.lock` -/
  lock : Option LockFile
  dir : Option (Dir Entry)
  /-- The mounts on the directory, the last first. -/
  mounts : List Mount

structure Base (Entry : Type) where
  slots : Name → Slot Entry
  now : Nat
  /-- Lock files and mounts are numbered from here. -/
  fresh : Nat

def RECLAIM_GRACE_SECS : Nat := 3600

def older_than_grace (now modified : Nat) : Bool :=
  decide (RECLAIM_GRACE_SECS ≤ now - modified)

/-- The directory a set's build is mounted at, after `create_set_mountpoint`. -/
def setDir (hash : List Char) : Name :=
  "onelf-set-".toList ++ hash.take 16

namespace Base

variable {Entry : Type}

def setSlot (base : Base Entry) (name : Name) (slot : Slot Entry) : Base Entry :=
  { base with slots := Function.update base.slots name slot }

@[simp] theorem setSlot_self (base : Base Entry) (name : Name) (slot : Slot Entry) :
    (base.setSlot name slot).slots name = slot := by
  simp only [setSlot, Function.update_self]

@[simp] theorem setSlot_other (base : Base Entry) {name other : Name} (apart : other ≠ name)
    (slot : Slot Entry) : (base.setSlot name slot).slots other = base.slots other := by
  simp only [setSlot, Function.update_of_ne apart]

/-- `open` with `O_CREAT`: the lock file that is there, its time left alone, or a new one. -/
def openLock (base : Base Entry) (name : Name) : Base Entry × Nat :=
  match (base.slots name).lock with
  | some lock => (base, lock.inode)
  | none =>
      ({ base.setSlot name { base.slots name with lock := some ⟨base.fresh, base.now⟩ } with
        fresh := base.fresh + 1 }, base.fresh)

/-- `create_dir_all`. -/
def createDir (base : Base Entry) (name : Name) : Base Entry :=
  base.setSlot name { base.slots name with
    dir := some ((base.slots name).dir.getD ⟨[], base.now⟩) }

/-- `rmdir`, which leaves what is mounted on or not empty. -/
def removeDir (base : Base Entry) (name : Name) : Base Entry :=
  match (base.slots name).dir, (base.slots name).mounts with
  | some ⟨[], _⟩, [] => base.setSlot name { base.slots name with dir := none }
  | _, _ => base

/-- One entry of a directory goes, unless something is mounted over it. -/
def removeEntry [DecidableEq Entry] (base : Base Entry) (name : Name) (entry : Entry) :
    Base Entry :=
  match (base.slots name).mounts with
  | [] => base.setSlot name { base.slots name with
      dir := (base.slots name).dir.map fun dir => ⟨dir.entries.filter (· ≠ entry), base.now⟩ }
  | _ => base

def addEntry (base : Base Entry) (name : Name) (entry : Entry) : Base Entry :=
  base.setSlot name { base.slots name with
    dir := (base.slots name).dir.map fun dir => ⟨entry :: dir.entries, base.now⟩ }

def setMounts (base : Base Entry) (name : Name) (mounts : List Mount) : Base Entry :=
  base.setSlot name { base.slots name with mounts := mounts }

/-- What a mount answers from now on. -/
def setAnswer (base : Base Entry) (name : Name) (number : Nat) (answer : Answer) : Base Entry :=
  base.setMounts name ((base.slots name).mounts.map fun mount =>
    if mount.number = number then { mount with answer := answer } else mount)

/-- `fusermount -u`: what was mounted last on the directory goes. -/
def unmount (base : Base Entry) (name : Name) : Base Entry :=
  base.setMounts name (base.slots name).mounts.tail

/-- Whoever looks at the directory is told that its mount's server is gone. -/
def disconnected (base : Base Entry) (name : Name) : Bool :=
  (base.slots name).mounts.head?.any (·.answer = .dead)

/-- The directory is old enough, or what is mounted on it may be. -/
def aged (base : Base Entry) (name : Name) : Bool :=
  !(base.slots name).mounts.isEmpty ||
    (base.slots name).dir.any fun dir => older_than_grace base.now dir.modified

def lockInode (base : Base Entry) (name : Name) : Option Nat :=
  (base.slots name).lock.map LockFile.inode

end Base

/-! ### Processes -/

/-- How far a launch with a directory of its own has come (`claim_in`, `Mountpoint::release`). -/
inductive Launch where
  | starting
  | opened (inode : Nat)
  | locked (inode : Nat)
  | running (inode : Nat)
  /-- A child of a launch, with the claim inherited. -/
  | inherited (inode : Nat)
  | released
  | reopened (inode : Nat)
  | removing (inode : Nat)
  | gone

/-- Which of its tests for a served mount a launch is at; `held` when it has the creation lock. -/
inductive Test where
  | first
  | creating (held : Bool)
  | waiting (held : Bool)

/-- How far a launch with a dependency set has come (`mount`). -/
inductive Join where
  | starting
  | opened (inode : Nat)
  | locked (inode : Nat)
  | testing (inode : Nat) (test : Test)
  /-- A mount was listed. -/
  | listed (inode : Nat) (test : Test)
  | unserved (inode : Nat)
  | forking (inode : Nat) (held : Bool)
  | joined (inode : Nat)
  | gone

/-- How far a set's server has come (`serve`). -/
inductive Server where
  | starting
  | mounted (mount : Nat)
  | loaded (mount : Nat)
  | serving (mount : Nat) (original : Option Nat)
  | probing (mount : Nat) (original : Option Nat) (inode : Nat)
  | probed (mount : Nat) (inode : Nat)
  /-- Without a lock file to probe. -/
  | missing (mount : Nat) (original : Option Nat)
  | leaving (mount : Nat) (original : Option Nat)
  /-- Its end of the mount is closed, if it made one. -/
  | closed (mount : Option Nat)
  | unmounted
  | gone

/-- What a sweep found in the runtime directory. -/
inductive Item where
  | lock (name : Name)
  | mountpoint (name : Name)
  deriving DecidableEq

/-- How far `sweep_in` has come. A directory is removed with its lock, or without one where the lock
file was missing. -/
inductive Sweep where
  | listing (seen : List Item)
  | mountpoint (seen : List Item) (name : Name)
  | probing (seen : List Item) (name : Name) (inode : Nat)
  | unlocked (seen : List Item) (name : Name)
  | aging (seen : List Item) (name : Name)
  | mounts (seen : List Item) (name : Name) (lock : Option Nat)
  | answers (seen : List Item) (name : Name) (lock : Option Nat)
  | unmounting (seen : List Item) (name : Name) (lock : Option Nat)
  | clearing (seen : List Item) (name : Name) (lock : Option Nat)
  | orphan (seen : List Item) (name : Name)
  | orphanAging (seen : List Item) (name : Name)
  | orphanOpening (seen : List Item) (name : Name)
  | orphanProbing (seen : List Item) (name : Name) (inode : Nat)
  | unlinking (seen : List Item) (name : Name) (inode : Nat)
  | unlinked (seen : List Item) (inode : Nat)
  | gone

inductive Proc where
  | launch (name : Name) (stage : Launch)
  | join (build : List Char) (stage : Join)
  | server (build : List Char) (stage : Server)
  | sweep (stage : Sweep)
  | clock
  /-- Whatever else mounts and unmounts. -/
  | host

inductive Act (Entry : Type) where
  | next
  | fail
  | fork
  | crash
  | write (entry : Entry)
  | unlink (entry : Entry)
  | see (item : Item)
  | pick (item : Item)
  | wait (seconds : Nat)
  | remount (name : Name) (mounts : List Mount)

/-! ### Locks -/

inductive LockKey where
  | claim (inode : Nat)
  | create (name : Name)
  deriving DecidableEq

def Launch.claims : Launch → List (Claim LockKey)
  | .locked inode | .running inode | .inherited inode => [⟨.claim inode, .shared⟩]
  | .removing inode => [⟨.claim inode, .exclusive⟩]
  | _ => []

/-- The claim, once it is taken. -/
@[simp] def Join.claim? : Join → Option Nat
  | .locked inode | .testing inode _ | .listed inode _ | .unserved inode | .forking inode _
  | .joined inode => some inode
  | _ => none

@[simp] def Test.held : Test → Bool
  | .first => false
  | .creating held | .waiting held => held

@[simp] def Join.creates : Join → Bool
  | .testing _ test | .listed _ test => test.held
  | .forking _ held => held
  | _ => false

def Join.claims (name : Name) (stage : Join) : List (Claim LockKey) :=
  (stage.claim?.toList.map fun inode => ⟨.claim inode, .shared⟩) ++
    if stage.creates then [⟨.create name, .exclusive⟩] else []

def Server.claims : Server → List (Claim LockKey)
  | .probed _ inode => [⟨.claim inode, .exclusive⟩]
  | .leaving _ (some inode) => [⟨.claim inode, .exclusive⟩]
  | _ => []

def Sweep.claims : Sweep → List (Claim LockKey)
  | .mounts _ _ (some inode) | .answers _ _ (some inode) | .unmounting _ _ (some inode)
  | .clearing _ _ (some inode) | .unlinking _ _ inode | .unlinked _ inode =>
      [⟨.claim inode, .exclusive⟩]
  | _ => []

def held : Proc → List (Claim LockKey)
  | .launch _ stage => stage.claims
  | .join build stage => stage.claims (setDir build)
  | .server _ stage => stage.claims
  | .sweep stage => stage.claims
  | .clock | .host => []

/-! ### A launch with a directory of its own -/

section
variable {Entry : Type}

def launchTurn (base : Base Entry) (grants : Claim LockKey → Bool) (name : Name) :
    Launch → Act Entry → Option (Base Entry × Launch × List Launch)
  | .starting, .next => some ((base.openLock name).1, .opened (base.openLock name).2, [])
  | .opened inode, .next =>
      if grants ⟨.claim inode, .shared⟩ then some (base, .locked inode, []) else none
  | .locked inode, .next => some (base.createDir name, .running inode, [])
  | .running inode, .write entry => some (base.addEntry name entry, .running inode, [])
  | .running inode, .fork => some (base, .running inode, [.inherited inode])
  | .inherited inode, .write entry => some (base.addEntry name entry, .inherited inode, [])
  | .inherited inode, .fork => some (base, .inherited inode, [.inherited inode])
  | .running _, .next => some (base, .released, [])
  | .released, .next =>
      some (base, match (base.slots name).lock with
        | some lock => .reopened lock.inode
        | none => .gone, [])
  | .reopened inode, .next =>
      some (base, if grants ⟨.claim inode, .exclusive⟩ then .removing inode else .gone, [])
  | .removing _, .next => some (base.removeDir name, .gone, [])
  | _, .crash => some (base, .gone, [])
  | _, _ => none

/-! ### A launch with a dependency set -/

/-- What a test that found nothing served leads to. -/
def Join.untested (inode : Nat) : Test → Join
  | .first => .unserved inode
  | .creating held => .forking inode held
  | .waiting held => .testing inode (.waiting held)

def joinTurn (base : Base Entry) (grants : Claim LockKey → Bool) (build : List Char) :
    Join → Act Entry → Option (Base Entry × Join × List Proc)
  | .starting, .next =>
      some ((base.openLock (setDir build)).1, .opened (base.openLock (setDir build)).2, [])
  | .opened inode, .next =>
      if grants ⟨.claim inode, .shared⟩ then some (base, .locked inode, []) else none
  | .locked inode, .next => some (base.createDir (setDir build), .testing inode .first, [])
  | .testing inode test, .next =>
      some (base, if (base.slots (setDir build)).mounts.isEmpty then Join.untested inode test
        else .listed inode test, [])
  | .listed inode test, .next =>
      -- A directory that is mounted no more can be read as well.
      match (base.slots (setDir build)).mounts with
      | [] => some (base, .joined inode, [])
      | mount :: _ =>
          match mount.answer with
          | .waits => none
          | .answers => some (base, .joined inode, [])
          | .dead => some (base, Join.untested inode test, [])
  | .unserved inode, .next =>
      if grants ⟨.create (setDir build), .exclusive⟩ then
        some (base, .testing inode (.creating true), [])
      else none
  | .unserved inode, .fail => some (base, .testing inode (.creating false), [])
  | .forking inode held, .next =>
      some (base, .testing inode (.waiting held), [.server build .starting])
  | .joined inode, .fork => some (base, .joined inode, [.join build (.joined inode)])
  | _, .crash => some (base, .gone, [])
  | _, _ => none

/-! ### A set's server -/

def serverTurn (base : Base Entry) (grants : Claim LockKey → Bool) (build : List Char) :
    Server → Act Entry → Option (Base Entry × Server)
  | .starting, .next =>
      -- The helper looks at the mountpoint first, which fails on a dead mount.
      if (base.slots (setDir build)).dir.isSome &&
          (base.slots (setDir build)).mounts.all (·.answer ≠ .dead) then
        some ({ base.setMounts (setDir build)
            (⟨base.fresh, build, .waits⟩ :: (base.slots (setDir build)).mounts) with
          fresh := base.fresh + 1 }, .mounted base.fresh)
      else some (base, .closed none)
  | .starting, .fail => some (base, .closed none)
  | .mounted mount, .next => some (base, .loaded mount)
  | .mounted mount, .fail => some (base.setAnswer (setDir build) mount .dead, .closed (some mount))
  | .loaded mount, .next =>
      some (base.setAnswer (setDir build) mount .answers,
        .serving mount (base.lockInode (setDir build)))
  | .serving mount original, .next =>
      some (base, if (base.slots (setDir build)).mounts.all (·.number ≠ mount) then
          -- The connection hangs up once nothing of the mount is left.
          .leaving mount none
        else match base.lockInode (setDir build) with
          | some inode => .probing mount original inode
          | none => .missing mount original)
  | .probing mount original inode, .next =>
      some (base, if grants ⟨.claim inode, .exclusive⟩ then .probed mount inode
        else .serving mount original)
  | .probed mount _, .next => some (base, .leaving mount none)
  | .missing mount none, .next => some (base, .leaving mount none)
  | .missing mount (some inode), .next =>
      some (base, if grants ⟨.claim inode, .exclusive⟩ then .leaving mount (some inode)
        else .serving mount (some inode))
  | .leaving mount _, .next =>
      some (base.setAnswer (setDir build) mount .dead, .closed (some mount))
  | .closed _, .next => some (base.unmount (setDir build), .unmounted)
  | .unmounted, .next => some (base.removeDir (setDir build), .gone)
  | _, _ => none

/-! ### A sweep -/

/-- The item is in the runtime directory, under a name the sweep looks at. -/
def Item.present (base : Base Entry) : Item → Bool
  | .lock name => "onelf-".toList.isPrefixOf name && (base.slots name).lock.isSome
  | .mountpoint name => "onelf-".toList.isPrefixOf name && (base.slots name).dir.isSome

def sweepTurn [DecidableEq Entry] (base : Base Entry) (grants : Claim LockKey → Bool) :
    Sweep → Act Entry → Option (Base Entry × Sweep)
  | .listing seen, .see item =>
      if item.present base then some (base, .listing (item :: seen)) else none
  | .listing seen, .pick item =>
      if item ∈ seen then
        some (base, match item with
          | .lock name => .orphan (seen.erase item) name
          | .mountpoint name => .mountpoint (seen.erase item) name)
      else none
  | .mountpoint seen name, .next =>
      some (base, match base.lockInode name with
        | some inode => .probing seen name inode
        | none => .unlocked seen name)
  | .mountpoint seen _, .fail => some (base, .listing seen)
  | .probing seen name inode, .next =>
      some (base, if grants ⟨.claim inode, .exclusive⟩ then .mounts seen name (some inode)
        else .listing seen)
  | .unlocked seen name, .next =>
      some (base, if (base.slots name).dir.isSome && !base.disconnected name then .aging seen name
        else .listing seen)
  | .aging seen name, .next =>
      some (base, if base.aged name then .mounts seen name none else .listing seen)
  | .aging seen name, .fail =>
      if (base.slots name).mounts.isEmpty then none else some (base, .listing seen)
  | .mounts seen name lock, .next =>
      some (base, if (base.slots name).mounts.isEmpty then .clearing seen name lock
        else .answers seen name lock)
  | .answers seen name lock, .next =>
      some (base, if base.disconnected name then .unmounting seen name lock else .listing seen)
  | .unmounting seen name lock, .next => some (base.unmount name, .clearing seen name lock)
  | .clearing seen name (some inode), .unlink entry =>
      some (base.removeEntry name entry, .clearing seen name (some inode))
  | .clearing seen name _, .next => some (base.removeDir name, .listing seen)
  | .orphan seen name, .next =>
      some (base, if (base.slots name).dir.isSome then .listing seen else .orphanAging seen name)
  | .orphan seen name, .fail =>
      -- A mount that is dead does not exist.
      if base.disconnected name then some (base, .orphanAging seen name) else none
  | .orphanAging seen name, .next =>
      some (base, if (base.slots name).lock.any fun lock =>
          older_than_grace base.now lock.modified then .orphanOpening seen name
        else .listing seen)
  | .orphanOpening seen name, .next =>
      some (base, match base.lockInode name with
        | some inode => .orphanProbing seen name inode
        | none => .listing seen)
  | .orphanProbing seen name inode, .next =>
      some (base, if grants ⟨.claim inode, .exclusive⟩ then .unlinking seen name inode
        else .listing seen)
  | .unlinking seen name inode, .next =>
      some (base.setSlot name { base.slots name with lock := none }, .unlinked seen inode)
  | .unlinked seen _, .next => some (base, .listing seen)
  | _, .crash => some (base, .gone)
  | _, _ => none

/-- Launches, servers and sweeps over one runtime directory. -/
def program [DecidableEq Entry] : Program (Base Entry) Proc (Act Entry)
  | base, others, .launch name stage, action =>
      (launchTurn base (grantable held others) name stage action).map fun turn =>
        ⟨turn.1, .launch name turn.2.1, turn.2.2.map (.launch name)⟩
  | base, others, .join build stage, action =>
      (joinTurn base (grantable held others) build stage action).map fun turn =>
        ⟨turn.1, .join build turn.2.1, turn.2.2⟩
  | base, others, .server build stage, action =>
      (serverTurn base (grantable held others) build stage action).map fun turn =>
        ⟨turn.1, .server build turn.2, []⟩
  | base, others, .sweep stage, action =>
      (sweepTurn base (grantable held others) stage action).map fun turn =>
        ⟨turn.1, .sweep turn.2, []⟩
  | base, _, .clock, .wait seconds => some ⟨{ base with now := base.now + seconds }, .clock, []⟩
  | base, _, .host, .remount name mounts => some ⟨base.setMounts name mounts, .host, []⟩
  | _, _, _, _ => none

end

end Onelf.Runtime.Mountpoints
