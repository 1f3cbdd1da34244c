import Mathlib.Logic.Relation
import Onelf.Lib.Folder
import Onelf.Lib.Text
import Onelf.Runtime.ExtractToCas
import Onelf.Runtime.Update.Install

/-! How a verified update takes the place of the installed binary (`install_staged` and
`save_rollback` of `update/mod.rs`), one file operation at a time. -/

namespace Onelf.Runtime.Update.Staged

open Onelf.Lib
open Onelf.Runtime.Update.Install (Inode Package revisionPermits)

abbrev Directory := Folder Bytes UInt8

/-- `staged_path` -/
def stagedPath (name : Bytes) (pid : Nat) (random : Bytes) : Bytes :=
  name ++ (utf8 ".onelf-update." ++
    (decimal pid ++ (utf8 "." ++ (Extract.hex random ++ utf8 ".tmp"))))

/-- `sibling_path` -/
def siblingPath (name suffix : Bytes) : Bytes := name ++ suffix

/-- What a process that has verified an update brings to its install. -/
structure Site where
  selfName : Bytes
  pid : Nat
  /-- The bytes drawn for the name of the update, and those drawn for that of the rollback copy. -/
  random : Bytes
  again : Bytes
  /-- The locked binary, and the file the update was verified in. -/
  lock : Inode
  verified : Inode
  apart : lock ≠ verified
  localId : Option Digest
  current : Option Nat
  /-- What the loader makes of the verified bytes. -/
  loaded : Option Package

namespace Site
variable (site : Site)

def tmpPath : Bytes := stagedPath site.selfName site.pid site.random
def scratch : Bytes := stagedPath site.selfName site.pid site.again
def prevPath : Bytes := siblingPath site.selfName (utf8 ".onelf-prev")

end Site

/-- How far the install has come. -/
inductive Stage where
  /-- `staged_info` and the two gates. -/
  | gates
  | identity
  | chmod
  | naming
  | claiming
  | copying (copy : Inode)
  | permissions (copy : Inode)
  | syncing (copy : Inode)
  | saving (copy : Inode)
  /-- The rollback copy could not be made. -/
  | unsaved
  | flushing
  | checking
  | replacing
  /-- The rename failed. -/
  | probing
  | restoring
  | leaving (code : Nat)
  | settling
  | returned (code : Nat)
  | dead
  deriving DecidableEq

inductive Act where
  | next
  | fail
  | die
  /-- Some more bytes are copied. -/
  | copy (count : Nat)
  /-- Somebody else makes the update's staging name lead elsewhere. -/
  | swap (entry : Option Inode)

structure State where
  dir : Directory
  stage : Stage
  /-- The names whose removal failed. -/
  stuck : List Bytes

/-- The staging name has not been checked yet. -/
def Stage.unchecked : Stage → Bool
  | .gates | .identity | .chmod | .naming | .claiming | .copying _ | .permissions _ | .syncing _
  | .saving _ | .flushing | .checking => true
  | _ => false

section
variable (site : Site)

/-- Where the two gates lead. -/
def afterGates : Stage :=
  match site.loaded with
  | none => .leaving 2
  | some package =>
      match package.revision with
      | .error _ => .leaving 2
      | .ok downloaded =>
          if some package.id = site.localId then .leaving 0
          else if revisionPermits site.current downloaded then .identity else .leaving 0

/-- A rename, and where the install goes on if it cannot be made. -/
def renameOr (dir : Directory) (source target : Bytes) (done failed : Stage) : Directory × Stage :=
  match dir.rename source target with
  | some after => (after, done)
  | none => (dir, failed)

/-- An operation that goes well. -/
def proceed (dir : Directory) : Stage → Option (Directory × Stage)
  | .gates => some (dir, afterGates site)
  | .identity =>
      some (dir, if dir.names site.selfName = some site.lock then .chmod else .leaving 2)
  | .chmod => some (dir, .naming)
  | .naming => some (dir, .claiming)
  | .claiming =>
      some (if dir.names site.scratch = none then
        (dir.create site.scratch, .copying dir.files.length) else (dir, .unsaved))
  -- The copy ends where the locked file does.
  | .copying copy =>
      if dir.files[copy]? = dir.files[site.lock]? then some (dir, .permissions copy) else none
  | .permissions copy => some (dir, .syncing copy)
  | .syncing copy => some (dir, .saving copy)
  | .saving _ => some (renameOr dir site.scratch site.prevPath .flushing .unsaved)
  | .unsaved => some (dir.unlink site.scratch, .leaving 2)
  | .flushing => some (dir, .checking)
  | .checking =>
      some (dir, if dir.names site.tmpPath = some site.verified then .replacing else .leaving 2)
  | .replacing => some (renameOr dir site.tmpPath site.selfName .settling .probing)
  | .probing =>
      some (dir, if dir.names site.selfName = none then .restoring else .leaving 2)
  | .restoring => some (renameOr dir site.prevPath site.selfName (.leaving 2) (.leaving 2))
  | .leaving code => some (dir.unlink site.tmpPath, .returned code)
  | .settling => some (dir, .returned 0)
  | .returned _ | .dead => none

/-- Where an operation that fails leads, and the name it leaves behind if it was to remove one. -/
def giveUp : Stage → Option (Stage × List Bytes)
  | .gates | .identity | .chmod | .naming | .checking => some (.leaving 2, [])
  | .claiming | .copying _ | .permissions _ | .syncing _ | .saving _ => some (.unsaved, [])
  | .unsaved => some (.leaving 2, [site.scratch])
  | .flushing => some (.checking, [])
  | .replacing => some (.probing, [])
  -- `exists` says no to a name it cannot look at.
  | .probing => some (.restoring, [])
  | .restoring => some (.leaving 2, [])
  | .leaving code => some (.returned code, [site.tmpPath])
  | .settling => some (.returned 0, [])
  | .returned _ | .dead => none

def step (state : State) : Act → Option State
  | .next => (proceed site state.dir state.stage).map fun turn => ⟨turn.1, turn.2, state.stuck⟩
  | .fail => (giveUp site state.stage).map fun turn =>
      ⟨state.dir, turn.1, turn.2 ++ state.stuck⟩
  | .die =>
      match state.stage with
      | .returned _ | .dead => none
      | _ => some { state with stage := .dead }
  | .copy count =>
      match state.stage with
      | .copying copy =>
          let held := (state.dir.files[copy]?.getD []).length
          let bytes := state.dir.files[site.lock]?.getD []
          some { state with dir := state.dir.append copy ((bytes.drop held).take count) }
      | _ => none
  | .swap entry =>
      if there : state.stage.unchecked ∧ site.tmpPath ≠ site.scratch ∧
          ∀ inode ∈ entry, inode < state.dir.files.length then
        some { state with dir := state.dir.bind site.tmpPath entry there.2.2 }
      else none

/-- One operation after another, whatever becomes of each. -/
def Runs : State → State → Prop :=
  Relation.ReflTransGen fun before after => ∃ action, step site before action = some after

end

/-- The process has the locked file and the verified one open. -/
structure Ready (site : Site) (dir : Directory) : Prop where
  lock : site.lock < dir.files.length
  verified : site.verified < dir.files.length

/-- An update is installed whole or not at all; `excused` are names that need not be cleared. -/
structure AllOrNothing (site : Site) (start : Directory) (excused : List Bytes) (state : State) :
    Prop where
  whole : state.dir.read site.selfName = start.read site.selfName ∨
    state.dir.read site.selfName = start.files[site.verified]?
  saved : state.dir.names site.selfName = some site.verified →
    start.names site.selfName = some site.verified ∨
      state.dir.read site.prevPath = start.files[site.lock]?
  kept : ∀ code ≠ 0, state.stage = .returned code →
    state.dir.names site.selfName = start.names site.selfName ∨
      start.names site.selfName = some site.lock ∧
        state.dir.read site.selfName = start.files[site.lock]?
  cleared : ∀ code, state.stage = .returned code →
    (state.dir.names site.tmpPath = none ∨ site.tmpPath ∈ excused) ∧
      ((∀ inode ∈ state.dir.names site.scratch, inode < start.files.length) ∨
        site.scratch ∈ excused)

/-! ### The names are apart -/

section
variable {site : Site}

theorem prevPath_ne_selfName : site.prevPath ≠ site.selfName := by
  intro same
  have short := congrArg List.length same
  rw [Site.prevPath, siblingPath, List.length_append] at short
  have some : 0 < (utf8 ".onelf-prev").length := by decide
  omega

theorem stagedPath_ne_self (name : Bytes) (pid : Nat) (random : Bytes) :
    stagedPath name pid random ≠ name := by
  intro same
  have short := congrArg List.length same
  rw [stagedPath, List.length_append, List.length_append] at short
  have some : 0 < (utf8 ".onelf-update.").length := by decide
  omega

theorem stagedPath_ne_sibling (name : Bytes) (pid : Nat) (random : Bytes) :
    stagedPath name pid random ≠ siblingPath name (utf8 ".onelf-prev") := by
  intro same
  have suffixes := List.append_cancel_left same
  have first := congrArg (List.take 8) suffixes
  rw [List.take_append_of_le_length (by decide)] at first
  exact absurd first (by decide)

theorem tmpPath_ne_selfName : site.tmpPath ≠ site.selfName := stagedPath_ne_self _ _ _

theorem scratch_ne_selfName : site.scratch ≠ site.selfName := stagedPath_ne_self _ _ _

theorem tmpPath_ne_prevPath : site.tmpPath ≠ site.prevPath := stagedPath_ne_sibling _ _ _

theorem scratch_ne_prevPath : site.scratch ≠ site.prevPath := stagedPath_ne_sibling _ _ _

end

/-! ### What holds at each stage -/

section
variable (site : Site) (start : Directory)

/-- The files there were are as they were. -/
structure Grown (dir : Directory) : Prop where
  count : start.files.length ≤ dir.files.length
  same : ∀ inode < start.files.length, dir.files[inode]? = start.files[inode]?

/-- The installed name is as it was. -/
def Kept (dir : Directory) : Prop := dir.names site.selfName = start.names site.selfName

/-- The installed name leads to the locked file, as it did. -/
structure Locked (dir : Directory) : Prop where
  kept : Kept site start dir
  lock : dir.names site.selfName = some site.lock

/-- The rollback name leads to all of the locked file's bytes, in a new file. -/
structure Saved (dir : Directory) : Prop where
  bytes : dir.read site.prevPath = start.files[site.lock]?
  new : ∀ inode ∈ dir.names site.prevPath, start.files.length ≤ inode

/-- The rollback copy took the place of the installed binary. -/
structure Restored (dir : Directory) : Prop where
  lock : start.names site.selfName = some site.lock
  bytes : dir.read site.selfName = start.files[site.lock]?
  new : ∀ inode ∈ dir.names site.selfName, start.files.length ≤ inode

/-- No rollback scratch is left, unless it could not be removed. -/
def Clear (stuck : List Bytes) (dir : Directory) : Prop :=
  (∀ inode ∈ dir.names site.scratch, inode < start.files.length) ∨ site.scratch ∈ stuck

/-- The rollback copy is in the making: a new file that no other name to come leads to. -/
structure Copying (copy : Inode) (dir : Directory) : Prop where
  locked : Locked site start dir
  named : dir.names site.scratch = some copy
  new : start.files.length ≤ copy
  other : dir.names site.prevPath ≠ some copy

/-- All of the locked file's bytes are copied. -/
structure Copied (copy : Inode) (dir : Directory) : Prop where
  copying : Copying site start copy dir
  whole : dir.files[copy]? = start.files[site.lock]?

/-- The rollback copy is in its place, and the installed name untouched. -/
structure Backed (stuck : List Bytes) (dir : Directory) : Prop where
  locked : Locked site start dir
  saved : Saved site start dir
  clear : Clear site start stuck dir

/-- The update is installed. -/
structure Installed (stuck : List Bytes) (dir : Directory) : Prop where
  name : dir.names site.selfName = some site.verified
  saved : Saved site start dir
  clear : Clear site start stuck dir
  tmp : dir.names site.tmpPath = none

/-- The old binary is installed, in its own file or in the copy. -/
def Old (dir : Directory) : Prop := Kept site start dir ∨ Restored site start dir

/-- What holds of the directory at each stage. -/
def Holds (stuck : List Bytes) (dir : Directory) : Stage → Prop
  | .gates | .identity => Kept site start dir ∧ Clear site start stuck dir
  | .chmod | .naming | .claiming => Locked site start dir ∧ Clear site start stuck dir
  | .copying copy => Copying site start copy dir ∧
      ∃ held rest, dir.files[copy]? = some held ∧ start.files[site.lock]? = some (held ++ rest)
  | .permissions copy | .syncing copy | .saving copy => Copied site start copy dir
  | .unsaved => Kept site start dir
  | .flushing | .checking | .probing | .restoring => Backed site start stuck dir
  | .replacing => Backed site start stuck dir ∧ dir.names site.tmpPath = some site.verified
  | .leaving _ => Old site start dir ∧ Clear site start stuck dir
  | .settling => Installed site start stuck dir
  | .returned code =>
      (Old site start dir ∨ code = 0 ∧ dir.names site.selfName = some site.verified ∧
        Saved site start dir) ∧ Clear site start stuck dir ∧
          (dir.names site.tmpPath = none ∨ site.tmpPath ∈ stuck)
  | .dead => Old site start dir ∨
      dir.names site.selfName = some site.verified ∧ Saved site start dir

structure Invariant (state : State) : Prop where
  grown : Grown start state.dir
  holds : Holds site start state.stuck state.dir state.stage

end

/-! ### One operation -/

section
variable {site : Site} {start dir after : Directory} {stuck : List Bytes}

theorem read_congr {name : Bytes} (names : after.names name = dir.names name)
    (files : after.files = dir.files) : after.read name = dir.read name := by
  rw [Folder.read, Folder.read, names, files]

theorem Grown.refl (dir : Directory) : Grown dir dir := ⟨Nat.le_refl _, fun _ _ => rfl⟩

theorem Grown.of_files (grown : Grown start dir) (files : after.files = dir.files) :
    Grown start after := by
  constructor
  · rw [files]
    exact grown.count
  · intro inode old
    rw [files]
    exact grown.same inode old

theorem Clear.more (clear : Clear site start stuck dir) (names : List Bytes) :
    Clear site start (names ++ stuck) dir :=
  clear.imp_right fun left => List.mem_append_right names left

theorem Clear.of_names (clear : Clear site start stuck dir)
    (same : after.names site.scratch = dir.names site.scratch) :
    Clear site start stuck after := by
  rw [Clear, same]
  exact clear

theorem Clear.of_none (none : dir.names site.scratch = none) : Clear site start stuck dir := by
  refine Or.inl fun inode found => ?_
  rw [none] at found
  cases found

/-- Without the staging name the directory is what it was. -/
structure Aside (site : Site) (dir after : Directory) : Prop where
  files : after.files = dir.files
  self : after.names site.selfName = dir.names site.selfName
  prev : after.names site.prevPath = dir.names site.prevPath

theorem Aside.bind {entry : Option Inode} {there : ∀ inode ∈ entry, inode < dir.files.length} :
    Aside site dir (dir.bind site.tmpPath entry there) :=
  ⟨rfl, Folder.names_bind_of_ne tmpPath_ne_selfName.symm,
    Folder.names_bind_of_ne tmpPath_ne_prevPath.symm⟩

theorem Aside.unlink_scratch : Aside site dir (dir.unlink site.scratch) :=
  ⟨rfl, Folder.names_unlink_of_ne scratch_ne_selfName.symm,
    Folder.names_unlink_of_ne scratch_ne_prevPath.symm⟩

theorem Kept.aside (kept : Kept site start dir) (aside : Aside site dir after) :
    Kept site start after := aside.self.trans kept

theorem Locked.aside (locked : Locked site start dir) (aside : Aside site dir after) :
    Locked site start after := ⟨locked.kept.aside aside, aside.self.trans locked.lock⟩

theorem Saved.of_prev (saved : Saved site start dir)
    (prev : after.names site.prevPath = dir.names site.prevPath) (files : after.files = dir.files) :
    Saved site start after where
  bytes := (read_congr prev files).trans saved.bytes
  new := by
    rw [prev]
    exact saved.new

theorem Saved.aside (saved : Saved site start dir) (aside : Aside site dir after) :
    Saved site start after := saved.of_prev aside.prev aside.files

theorem Old.aside (old : Old site start dir) (aside : Aside site dir after) :
    Old site start after := by
  refine old.imp (fun kept => kept.aside aside) fun restored => ⟨restored.lock, ?_, ?_⟩
  · rw [read_congr aside.self aside.files]
    exact restored.bytes
  · rw [aside.self]
    exact restored.new

theorem Copying.aside {copy : Inode} (copying : Copying site start copy dir)
    (aside : Aside site dir after) (scratch : after.names site.scratch = dir.names site.scratch) :
    Copying site start copy after where
  locked := copying.locked.aside aside
  named := scratch.trans copying.named
  new := copying.new
  other := by
    rw [aside.prev]
    exact copying.other

/-- The scratch is claimed under a name that led nowhere, and leads to a new file. -/
theorem holds_claimed (grown : Grown start dir) (locked : Locked site start dir) :
    Copying site start dir.files.length (dir.create site.scratch) where
  locked := by
    have self : (dir.create site.scratch).names site.selfName = dir.names site.selfName :=
      Folder.names_create_of_ne scratch_ne_selfName.symm
    exact ⟨self.trans locked.kept, self.trans locked.lock⟩
  named := Folder.names_create_self
  new := grown.count
  other := by
    rw [Folder.names_create_of_ne scratch_ne_prevPath.symm]
    intro found
    exact absurd (dir.known _ _ found) (Nat.lt_irrefl _)

theorem grown_create (grown : Grown start dir) (name : Bytes) : Grown start (dir.create name) := by
  constructor
  · have longer : (dir.create name).files.length = dir.files.length + 1 := List.length_append
    rw [longer]
    exact Nat.le_succ_of_le grown.count
  · intro inode old
    rw [Folder.files_create (Nat.lt_of_lt_of_le old grown.count)]
    exact grown.same inode old

theorem grown_append (grown : Grown start dir) {copy : Inode} (new : start.files.length ≤ copy)
    (bytes : Bytes) : Grown start (dir.append copy bytes) := by
  constructor
  · rw [Folder.append, List.length_modify]
    exact grown.count
  · intro inode old
    rw [Folder.files_append_of_ne (Nat.ne_of_gt (Nat.lt_of_lt_of_le old new))]
    exact grown.same inode old

/-- The rename of the finished copy over the rollback name. -/
theorem holds_saved {copy : Inode} (copied : Copied site start copy dir)
    (renamed : Folder.Renamed dir site.scratch site.prevPath after) :
    Backed site start stuck after := by
  have self : after.names site.selfName = dir.names site.selfName :=
    renamed.others _ scratch_ne_selfName.symm prevPath_ne_selfName.symm
  have differ : dir.names site.scratch ≠ dir.names site.prevPath := by
    rw [copied.copying.named]
    exact copied.copying.other.symm
  have locked := copied.copying.locked
  have clear : Clear site start stuck after := Clear.of_none (renamed.freed differ)
  refine ⟨⟨self.trans locked.kept, self.trans locked.lock⟩, ⟨?_, ?_⟩, clear⟩
  · rw [Folder.read, renamed.moved, copied.copying.named, renamed.files]
    exact copied.whole
  · rw [renamed.moved, copied.copying.named]
    intro inode same
    rw [← Option.mem_some_iff.mp same]
    exact copied.copying.new

/-- The rename of the update over the installed name. -/
theorem holds_installed (backed : Backed site start stuck dir)
    (checked : dir.names site.tmpPath = some site.verified)
    (renamed : Folder.Renamed dir site.tmpPath site.selfName after) :
    Installed site start stuck after := by
  have differ : dir.names site.tmpPath ≠ dir.names site.selfName := by
    rw [checked, backed.locked.lock]
    exact fun same => site.apart (Option.some.inj same).symm
  have prev : after.names site.prevPath = dir.names site.prevPath :=
    renamed.others _ tmpPath_ne_prevPath.symm prevPath_ne_selfName
  have gone := renamed.freed differ
  refine ⟨renamed.moved.trans checked, backed.saved.of_prev prev renamed.files, ?_, gone⟩
  by_cases same : site.scratch = site.tmpPath
  · exact Clear.of_none (same ▸ gone)
  · exact backed.clear.of_names (renamed.others _ same scratch_ne_selfName)

/-- The rename of the rollback copy over the installed name. -/
theorem holds_restored (backed : Backed site start stuck dir)
    (renamed : Folder.Renamed dir site.prevPath site.selfName after) :
    Restored site start after ∧ Clear site start stuck after := by
  constructor
  · refine ⟨backed.locked.kept.symm.trans backed.locked.lock, ?_, ?_⟩
    · rw [Folder.read, renamed.moved, renamed.files]
      exact backed.saved.bytes
    · rw [renamed.moved]
      exact backed.saved.new
  · exact backed.clear.of_names (renamed.others _ scratch_ne_prevPath scratch_ne_selfName)

/-- The staging name is removed on the way out. -/
theorem holds_left (old : Old site start dir) (clear : Clear site start stuck dir) :
    Old site start (dir.unlink site.tmpPath) ∧ Clear site start stuck (dir.unlink site.tmpPath) ∧
      (dir.unlink site.tmpPath).names site.tmpPath = none := by
  refine ⟨old.aside Aside.bind, ?_, Folder.names_unlink_self⟩
  by_cases same : site.scratch = site.tmpPath
  · exact Clear.of_none (same ▸ Folder.names_unlink_self)
  · exact clear.of_names (Folder.names_unlink_of_ne same)

end

/-! ### Every run -/

section
variable {site : Site} {start : Directory}

theorem afterGates_holds {dir : Directory} {stuck : List Bytes} (kept : Kept site start dir)
    (clear : Clear site start stuck dir) : Holds site start stuck dir (afterGates site) := by
  have left : ∀ code, Holds site start stuck dir (.leaving code) := fun _ => ⟨Or.inl kept, clear⟩
  rw [afterGates]
  split
  · exact left 2
  · split
    · exact left 2
    · split
      · exact left 0
      · split
        · exact ⟨kept, clear⟩
        · exact left 0

/-- A rename leads on, or the install goes on without it. -/
theorem renameOr_keeps {dir after : Directory} {stuck : List Bytes} {source target : Bytes}
    {done failed later : Stage} (apart : target ≠ source) (grown : Grown start dir)
    (renamed : ∀ after, Folder.Renamed dir source target after → Holds site start stuck after done)
    (still : Holds site start stuck dir failed)
    (ran : renameOr dir source target done failed = (after, later)) :
    Grown start after ∧ Holds site start stuck after later := by
  rw [renameOr] at ran
  split at ran
  · next moved found =>
      cases ran
      have there := Folder.rename_eq_some apart found
      exact ⟨grown.of_files there.files, renamed _ there⟩
  · cases ran
    exact ⟨grown, still⟩

/-- What an operation that goes well keeps. -/
theorem proceed_keeps (ready : Ready site start) {dir after : Directory} {stage later : Stage}
    {stuck : List Bytes} (grown : Grown start dir) (holds : Holds site start stuck dir stage)
    (ran : proceed site dir stage = some (after, later)) :
    Grown start after ∧ Holds site start stuck after later := by
  cases stage with
  | gates =>
      cases ran
      exact ⟨grown, afterGates_holds holds.1 holds.2⟩
  | identity =>
      cases ran
      refine ⟨grown, ?_⟩
      split
      · next lock => exact ⟨⟨holds.1, lock⟩, holds.2⟩
      · exact ⟨Or.inl holds.1, holds.2⟩
  | chmod | naming =>
      cases ran
      exact ⟨grown, holds⟩
  | claiming =>
      rw [proceed, Option.some.injEq] at ran
      split at ran
      · cases ran
        refine ⟨grown_create grown _, holds_claimed grown holds.1, [],
          (start.files[site.lock]?).getD [], Folder.files_create_new, ?_⟩
        rw [List.getElem?_eq_getElem ready.lock]
        rfl
      · cases ran
        exact ⟨grown, holds.1.kept⟩
  | copying copy =>
      rw [proceed] at ran
      split at ran
      · next whole =>
          cases ran
          exact ⟨grown, holds.1, whole.trans (grown.same _ ready.lock)⟩
      · cases ran
  | permissions copy | syncing copy =>
      cases ran
      exact ⟨grown, holds⟩
  | saving copy =>
      rw [proceed, Option.some.injEq] at ran
      have kept : Holds site start stuck dir .unsaved := holds.copying.locked.kept
      exact renameOr_keeps scratch_ne_prevPath.symm grown (fun _ => holds_saved holds) kept ran
  | unsaved =>
      cases ran
      exact ⟨grown.of_files rfl, Or.inl (Kept.aside holds Aside.unlink_scratch),
        Clear.of_none Folder.names_unlink_self⟩
  | flushing =>
      cases ran
      exact ⟨grown, holds⟩
  | checking =>
      cases ran
      refine ⟨grown, ?_⟩
      split
      · next checked => exact ⟨holds, checked⟩
      · exact ⟨Or.inl holds.locked.kept, holds.clear⟩
  | replacing =>
      rw [proceed, Option.some.injEq] at ran
      have still : Holds site start stuck dir .probing := holds.1
      exact renameOr_keeps tmpPath_ne_selfName.symm grown
        (fun _ => holds_installed holds.1 holds.2) still ran
  | probing =>
      cases ran
      refine ⟨grown, ?_⟩
      split
      · exact holds
      · exact ⟨Or.inl holds.locked.kept, holds.clear⟩
  | restoring =>
      rw [proceed, Option.some.injEq] at ran
      have restored : ∀ after, Folder.Renamed dir site.prevPath site.selfName after →
          Holds site start stuck after (.leaving 2) := fun after renamed =>
        ⟨Or.inr (holds_restored holds renamed).1, (holds_restored holds renamed).2⟩
      have still : Holds site start stuck dir (.leaving 2) :=
        ⟨Or.inl holds.locked.kept, holds.clear⟩
      exact renameOr_keeps prevPath_ne_selfName.symm grown restored still ran
  | leaving code =>
      cases ran
      obtain ⟨old, clear, gone⟩ := holds_left holds.1 holds.2
      exact ⟨grown.of_files rfl, Or.inl old, clear, Or.inl gone⟩
  | settling =>
      cases ran
      exact ⟨grown, Or.inr ⟨rfl, holds.name, holds.saved⟩, holds.clear, Or.inl holds.tmp⟩
  | returned code | dead => cases ran

/-- What an operation that fails keeps. -/
theorem giveUp_keeps {dir : Directory} {stage later : Stage} {stuck left : List Bytes}
    (holds : Holds site start stuck dir stage) (ran : giveUp site stage = some (later, left)) :
    Holds site start (left ++ stuck) dir later := by
  cases stage with
  | gates | identity =>
      cases ran
      exact ⟨Or.inl holds.1, holds.2⟩
  | chmod | naming =>
      cases ran
      exact ⟨Or.inl holds.1.kept, holds.2⟩
  | claiming =>
      cases ran
      exact holds.1.kept
  | copying copy =>
      cases ran
      exact holds.1.locked.kept
  | permissions copy | syncing copy | saving copy =>
      cases ran
      exact holds.copying.locked.kept
  | unsaved =>
      cases ran
      exact ⟨Or.inl holds, Or.inr List.mem_cons_self⟩
  | flushing =>
      cases ran
      exact holds
  | checking | restoring =>
      cases ran
      exact ⟨Or.inl holds.locked.kept, holds.clear⟩
  | replacing =>
      cases ran
      exact holds.1
  | probing =>
      cases ran
      exact holds
  | leaving code =>
      cases ran
      exact ⟨Or.inl holds.1, holds.2.more _, Or.inr List.mem_cons_self⟩
  | settling =>
      cases ran
      exact ⟨Or.inr ⟨rfl, holds.name, holds.saved⟩, holds.clear, Or.inl holds.tmp⟩
  | returned code | dead => cases ran

/-- Whatever the stage, the installed name leads to the old binary or to the saved update. -/
theorem Holds.old_or_installed {dir : Directory} {stage : Stage} {stuck : List Bytes}
    (holds : Holds site start stuck dir stage) : Old site start dir ∨
      dir.names site.selfName = some site.verified ∧ Saved site start dir := by
  cases stage with
  | gates | identity => exact Or.inl (Or.inl holds.1)
  | chmod | naming | claiming => exact Or.inl (Or.inl holds.1.kept)
  | copying copy => exact Or.inl (Or.inl holds.1.locked.kept)
  | permissions copy | syncing copy | saving copy => exact Or.inl (Or.inl holds.copying.locked.kept)
  | unsaved => exact Or.inl (Or.inl holds)
  | flushing | checking | probing | restoring => exact Or.inl (Or.inl holds.locked.kept)
  | replacing => exact Or.inl (Or.inl holds.1.locked.kept)
  | leaving code => exact Or.inl holds.1
  | settling => exact Or.inr ⟨holds.name, holds.saved⟩
  | returned code => exact holds.1.imp_right And.right
  | dead => exact holds

end

section
variable {site : Site} {start : Directory}

theorem Copying.append {copy : Inode} {dir : Directory} (copying : Copying site start copy dir)
    (bytes : Bytes) : Copying site start copy (dir.append copy bytes) :=
  ⟨⟨copying.locked.kept, copying.locked.lock⟩, copying.named, copying.new, copying.other⟩

/-- More of the locked file is copied, in its order. -/
theorem copy_keeps (ready : Ready site start) {copy : Inode} {dir : Directory} {stuck : List Bytes}
    (grown : Grown start dir) (holds : Holds site start stuck dir (.copying copy)) (count : Nat) :
    Holds site start stuck
      (dir.append copy (((dir.files[site.lock]?.getD []).drop
        (dir.files[copy]?.getD []).length).take count)) (.copying copy) := by
  obtain ⟨copying, held, rest, found, old⟩ := holds
  refine ⟨copying.append _, held ++ rest.take count, rest.drop count, ?_, ?_⟩
  · rw [grown.same _ ready.lock, old, found, Option.getD_some, Option.getD_some, List.drop_left,
      Folder.files_append_self found]
  · rw [old, List.append_assoc, List.take_append_drop]

/-- Somebody else's change to the staging name, while that is unchecked, changes nothing here. -/
theorem swap_keeps {dir : Directory} {stage : Stage} {stuck : List Bytes} {entry : Option Inode}
    (there : ∀ inode ∈ entry, inode < dir.files.length) (unchecked : stage.unchecked = true)
    (apart : site.tmpPath ≠ site.scratch) (holds : Holds site start stuck dir stage) :
    Holds site start stuck (dir.bind site.tmpPath entry there) stage := by
  have aside : Aside site dir (dir.bind site.tmpPath entry there) := Aside.bind
  have scratch : (dir.bind site.tmpPath entry there).names site.scratch = dir.names site.scratch :=
    Folder.names_bind_of_ne apart.symm
  cases stage with
  | gates | identity => exact ⟨holds.1.aside aside, holds.2.of_names scratch⟩
  | chmod | naming | claiming => exact ⟨holds.1.aside aside, holds.2.of_names scratch⟩
  | copying copy => exact ⟨holds.1.aside aside scratch, holds.2⟩
  | permissions copy | syncing copy | saving copy =>
      exact ⟨holds.copying.aside aside scratch, holds.whole⟩
  | flushing | checking =>
      exact ⟨holds.locked.aside aside, holds.saved.aside aside, holds.clear.of_names scratch⟩
  | unsaved | replacing | probing | restoring | leaving code | settling | returned code | dead =>
      cases unchecked

/-- What one step keeps. -/
theorem step_keeps (ready : Ready site start) {state after : State} {action : Act}
    (before : Invariant site start state) (ran : step site state action = some after) :
    Invariant site start after := by
  cases action with
  | next =>
      rw [step, Option.map_eq_some_iff] at ran
      obtain ⟨turn, proceeded, rfl⟩ := ran
      obtain ⟨grown, holds⟩ := proceed_keeps ready before.grown before.holds proceeded
      exact ⟨grown, holds⟩
  | fail =>
      rw [step, Option.map_eq_some_iff] at ran
      obtain ⟨turn, gave, rfl⟩ := ran
      exact ⟨before.grown, giveUp_keeps before.holds gave⟩
  | die =>
      rw [step] at ran
      split at ran
      · cases ran
      · cases ran
      · cases ran
        exact ⟨before.grown, before.holds.old_or_installed⟩
  | copy count =>
      rw [step] at ran
      split at ran
      · next copy copying =>
          cases ran
          have holds := before.holds
          rw [copying] at holds
          refine ⟨grown_append before.grown holds.1.new _, ?_⟩
          rw [copying]
          exact copy_keeps ready before.grown holds count
      · cases ran
  | swap entry =>
      rw [step] at ran
      split at ran
      · next allowed =>
          cases ran
          exact ⟨before.grown.of_files rfl,
            swap_keeps allowed.2.2 allowed.1 allowed.2.1 before.holds⟩
      · cases ran

theorem Invariant.allOrNothing {state : State} (invariant : Invariant site start state)
    (ready : Ready site start) : AllOrNothing site start state.stuck state where
  whole := by
    rcases invariant.holds.old_or_installed with (kept | restored) | ⟨name, saved⟩
    · left
      rw [Folder.read, Folder.read, kept]
      cases found : start.names site.selfName with
      | none => rfl
      | some inode => exact invariant.grown.same inode (start.known _ inode found)
    · left
      rw [restored.bytes, Folder.read, restored.lock]
      rfl
    · right
      rw [Folder.read, name]
      exact invariant.grown.same _ ready.verified
  saved := by
    intro name
    rcases invariant.holds.old_or_installed with (kept | restored) | ⟨_, saved⟩
    · exact Or.inl (kept.symm.trans name)
    · exact absurd (restored.new _ name) (Nat.not_le_of_lt ready.verified)
    · exact Or.inr saved.bytes
  kept := by
    intro code nonzero returned
    have holds := invariant.holds
    rw [returned] at holds
    rcases holds.1 with (kept | restored) | ⟨zero, _⟩
    · exact Or.inl kept
    · exact Or.inr ⟨restored.lock, restored.bytes⟩
    · exact absurd zero nonzero
  cleared := by
    intro code returned
    have holds := invariant.holds
    rw [returned] at holds
    exact ⟨holds.2.2, holds.2.1⟩

end

/-- Whatever becomes of each operation, and wherever the process dies: the installed name leads to
the old binary or to the verified one, to that only with the old one saved; a return with an error
leaves the old one, and no name is left but one whose removal failed. -/
theorem install_all_or_nothing (site : Site) (start : Directory) (ready : Ready site start)
    {state : State} (run : Runs site ⟨start, .gates, []⟩ state) :
    AllOrNothing site start state.stuck state := by
  have first : Clear site start [] start := Or.inl fun inode found => start.known _ inode found
  have invariant : Invariant site start state := by
    induction run with
    | refl => exact ⟨Grown.refl start, rfl, first⟩
    | tail _ turn ih =>
        obtain ⟨action, ran⟩ := turn
        exact step_keeps ready ih ran
  exact invariant.allOrNothing ready

/-- An update of one byte over a binary of two. -/
def smallSite : Site where
  selfName := utf8 "app"
  pid := 7
  random := [1]
  again := [2]
  lock := 0
  verified := 1
  apart := by decide
  localId := none
  current := none
  loaded := some ⟨⟨List.replicate 32 1, by decide⟩, .ok none⟩

def smallDir : Directory :=
  (((⟨[], fun _ => none, nofun⟩ : Directory).create smallSite.selfName).append 0
    (utf8 "v1")).create smallSite.tmpPath |>.append 1 (utf8 "2")

theorem smallDir_ready : Ready smallSite smallDir := ⟨by decide, by decide⟩

/-- One action after another. -/
def run (site : Site) (state : State) (actions : List Act) : Option State :=
  actions.foldlM (step site) state

theorem runs_of_run {site : Site} {state after : State} {actions : List Act}
    (ran : run site state actions = some after) : Runs site state after := by
  induction actions generalizing state with
  | nil =>
      cases ran
      exact Relation.ReflTransGen.refl
  | cons action actions ih =>
      rw [run, List.foldlM_cons] at ran
      obtain ⟨middle, first, rest⟩ := Option.bind_eq_some_iff.mp ran
      exact Relation.ReflTransGen.head ⟨action, first⟩ (ih rest)

/-- All goes well, and the copy is made in two parts. -/
def installed : List Act :=
  [.next, .next, .next, .next, .next, .copy 1, .copy 5, .next, .next, .next, .next, .next, .next,
    .next, .next]

theorem small_installed : ∃ state, run smallSite ⟨smallDir, .gates, []⟩ installed = some state ∧
    state.stage = .returned 0 ∧ state.dir.read smallSite.selfName = some (utf8 "2") ∧
      state.dir.read smallSite.prevPath = some (utf8 "v1") ∧
        AllOrNothing smallSite smallDir state.stuck state := by
  have ran : (run smallSite ⟨smallDir, .gates, []⟩ installed).any (fun state =>
      state.stage = .returned 0 ∧ state.dir.read smallSite.selfName = some (utf8 "2") ∧
        state.dir.read smallSite.prevPath = some (utf8 "v1")) = true := by decide +kernel
  obtain ⟨state, found, ends⟩ := (Option.any_eq_true _ _).mp ran
  rw [decide_eq_true_iff] at ends
  exact ⟨state, found, ends.1, ends.2.1, ends.2.2,
    install_all_or_nothing smallSite smallDir smallDir_ready (runs_of_run found)⟩

/-- The package cannot be read, and the staging name cannot be removed. -/
theorem small_left : Ready smallSite smallDir ∧ ∃ state,
    Runs smallSite ⟨smallDir, .gates, []⟩ state ∧ ¬ AllOrNothing smallSite smallDir [] state := by
  have ran : (run smallSite ⟨smallDir, .gates, []⟩ [.fail, .fail]).any (fun state =>
      state.stage = .returned 2 ∧ state.dir.names smallSite.tmpPath = some 1) = true := by
    decide +kernel
  obtain ⟨state, found, ends⟩ := (Option.any_eq_true _ _).mp ran
  rw [decide_eq_true_iff] at ends
  refine ⟨smallDir_ready, state, runs_of_run found, fun claimed => ?_⟩
  rcases (claimed.cleared 2 ends.1).1 with none | excused
  · rw [ends.2] at none
    cases none
  · cases excused

end Onelf.Runtime.Update.Staged
