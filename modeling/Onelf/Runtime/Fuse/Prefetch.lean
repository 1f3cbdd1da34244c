import Onelf.Runtime.Fuse.BlockCache
import Onelf.Runtime.Loader

/-! Blocks decompressed ahead of the reads that need them (`Prefetch` of `fuse/fs.rs`). -/

namespace Onelf.Runtime.Fuse

open Onelf.Lib

def entryToInode (index : Nat) : Nat := index + 1

def inodeToEntry (inode : Nat) : Nat := inode - 1

/-- The block `key` names in the manifest. -/
def blockAt (manifest : Manifest) (key : BlockKey) : Option Block := do
  let entry ← manifest.entries[inodeToEntry key.1]?
  entry.blocks[key.2]?

/-- `profiled_blocks` once its lines are resolved: the entry and block numbers they name, in order,
without those the package lacks and without repeats. -/
def profiledBlocks (manifest : Manifest) : List (Nat × Nat) → List (BlockKey × Block)
  | [] => []
  | (index, block) :: named =>
      let rest := profiledBlocks manifest named
      match blockAt manifest (entryToInode index, block) with
      | some found =>
          ((entryToInode index, block), found) ::
            rest.filter fun listed => listed.1 ≠ (entryToInode index, block)
      | none => rest

/-- What the workers and the reads share under the lock. -/
structure Store where
  ready : Blocks
  bytes : Nat
  /-- Blocks a read decompressed itself, which a worker must not add. -/
  taken : List BlockKey
  stop : Bool

structure Prefetched where
  blocks : List (BlockKey × Block)
  /-- Index into `blocks` of the next one a worker takes. -/
  next : Nat
  store : Store
  window : Nat

/-- Where a worker is in its loop. -/
inductive Worker where
  | idle
  | waiting (key : BlockKey) (block : Block)
  | decoding (key : BlockKey) (block : Block)
  | finished

structure Prefetch where
  shared : Prefetched
  workers : List Worker

def Prefetched.new (blocks : List (BlockKey × Block)) (window : Nat) : Prefetched :=
  ⟨blocks, 0, ⟨∅, 0, [], false⟩, window⟩

def Prefetched.wanted (shared : Prefetched) (key : BlockKey) : Bool :=
  shared.blocks.any fun listed => listed.1 = key

/-- A worker's lock on the store after it decoded a block: the copy is dropped where a read or
another worker was first. -/
def Store.offer (store : Store) (key : BlockKey) (data : Bytes) : Store :=
  if store.taken.contains key || (store.ready.lookup key).isSome then store
  else { store with bytes := store.bytes + data.length, ready := store.ready.insert key data }

/-- One step of a worker's loop: up to its next wait on the counter, the lock or the decoder. -/
def Prefetched.work (crates : Crates) (pkg : PackageData) (shared : Prefetched) :
    Worker → Prefetched × Worker
  | .idle =>
      match shared.blocks[shared.next]? with
      | some (key, block) => ({ shared with next := shared.next + 1 }, .waiting key block)
      | none => ({ shared with next := shared.next + 1 }, .finished)
  | .waiting key block =>
      if shared.store.stop then (shared, .finished)
      else if shared.store.bytes ≥ shared.window then (shared, .waiting key block)
      else if shared.store.taken.contains key then (shared, .idle)
      else (shared, .decoding key block)
  | .decoding key block =>
      match readPayloadEntry crates pkg block with
      | none => (shared, .idle)
      | some data =>
          if shared.store.stop then (shared, .finished)
          else ({ shared with store := shared.store.offer key data }, .idle)
  | .finished => (shared, .finished)

/-- `Prefetch::start`; `threads` is how many workers could be spawned. -/
def Prefetch.start (blocks : List (BlockKey × Block)) (window threads : Nat) : Option Prefetch :=
  if threads = 0 || blocks.isEmpty then none
  else some ⟨Prefetched.new blocks window, List.replicate threads .idle⟩

/-- A read's lock on the store: the block, when a worker has it ready, or else a note that no worker
is to add it. -/
def Store.take (store : Store) (key : BlockKey) : Store × Option Bytes :=
  match store.ready.lookup key with
  | some data =>
      ({ store with ready := store.ready.erase key, bytes := store.bytes - data.length }, some data)
  | none =>
      if store.taken.contains key then (store, none)
      else ({ store with taken := key :: store.taken }, none)

def Prefetch.take (prefetch : Prefetch) (key : BlockKey) : Prefetch × Option Bytes :=
  if prefetch.shared.wanted key then
    (⟨{ prefetch.shared with store := (prefetch.shared.store.take key).1 }, prefetch.workers⟩,
      (prefetch.shared.store.take key).2)
  else (prefetch, none)

/-- The worker at `index` takes a step. -/
def Prefetch.work (crates : Crates) (pkg : PackageData) (prefetch : Prefetch) (index : Nat) :
    Prefetch :=
  match prefetch.workers[index]? with
  | some worker =>
      ⟨(prefetch.shared.work crates pkg worker).1,
        prefetch.workers.set index (prefetch.shared.work crates pkg worker).2⟩
  | none => prefetch

/-! ### Ready blocks are verified blocks -/

/-- What `key` names, verified. -/
def verifiedBlock (crates : Crates) (pkg : PackageData) (key : BlockKey) : Option Bytes :=
  (blockAt pkg.manifest key).bind (readPayloadEntry crates pkg)

/-- The list of a prefetch names the package's own blocks. -/
def Listed (manifest : Manifest) (blocks : List (BlockKey × Block)) : Prop :=
  ∀ listed ∈ blocks, blockAt manifest listed.1 = some listed.2

/-- A worker holds a block of the package under its own key. -/
def Worker.Holds (manifest : Manifest) : Worker → Prop
  | .waiting key block => blockAt manifest key = some block
  | .decoding key block => blockAt manifest key = some block
  | .idle => True
  | .finished => True

structure Prefetched.Sound (crates : Crates) (pkg : PackageData) (shared : Prefetched) : Prop where
  listed : Listed pkg.manifest shared.blocks
  ready : ∀ key data, shared.store.ready.lookup key = some data →
    verifiedBlock crates pkg key = some data

structure Prefetch.Sound (crates : Crates) (pkg : PackageData) (prefetch : Prefetch) : Prop where
  shared : prefetch.shared.Sound crates pkg
  workers : ∀ worker ∈ prefetch.workers, worker.Holds pkg.manifest

variable {crates : Crates} {pkg : PackageData}

theorem listed_profiledBlocks (manifest : Manifest) (named : List (Nat × Nat)) :
    Listed manifest (profiledBlocks manifest named) := by
  induction named with
  | nil => exact fun listed inside => absurd inside List.not_mem_nil
  | cons line named ih =>
      intro listed inside
      rw [profiledBlocks] at inside
      split at inside
      · next found located =>
          rcases List.mem_cons.mp inside with first | later
          · rw [first]
            exact located
          · exact ih listed (List.mem_filter.mp later).1
      · exact ih listed inside

theorem Store.lookup_offer {store : Store} {key other : BlockKey} {data found : Bytes}
    (present : (store.offer key data).ready.lookup other = some found) :
    (other = key ∧ found = data) ∨ store.ready.lookup other = some found := by
  rw [Store.offer] at present
  split at present
  · exact Or.inr present
  · by_cases same : other = key
    · rw [same, AList.lookup_insert] at present
      exact Or.inl ⟨same, (Option.some.inj present).symm⟩
    · rw [AList.lookup_insert_ne same] at present
      exact Or.inr present

/-- Whatever a worker does, the ready blocks stay verified ones. -/
theorem Prefetched.Sound.work {shared : Prefetched} (sound : shared.Sound crates pkg)
    {worker : Worker} (holds : worker.Holds pkg.manifest) :
    (shared.work crates pkg worker).1.Sound crates pkg ∧
      (shared.work crates pkg worker).2.Holds pkg.manifest := by
  cases worker with
  | idle =>
      rw [Prefetched.work]
      split
      · next key block listed =>
          exact ⟨⟨sound.listed, sound.ready⟩,
            sound.listed (key, block) (List.mem_of_getElem? listed)⟩
      · exact ⟨⟨sound.listed, sound.ready⟩, trivial⟩
  | waiting key block =>
      rw [Prefetched.work]
      split
      · exact ⟨sound, trivial⟩
      · split
        · exact ⟨sound, holds⟩
        · split
          · exact ⟨sound, trivial⟩
          · exact ⟨sound, holds⟩
  | decoding key block =>
      rw [Prefetched.work]
      split
      · exact ⟨sound, trivial⟩
      · next data decoded =>
          split
          · exact ⟨sound, trivial⟩
          · refine ⟨⟨sound.listed, ?_⟩, trivial⟩
            intro other found present
            rcases Store.lookup_offer present with newcomer | before
            · rw [newcomer.1, newcomer.2, verifiedBlock, holds]
              exact decoded
            · exact sound.ready other found before
  | finished => exact ⟨sound, trivial⟩

theorem Prefetch.Sound.work {prefetch : Prefetch} (sound : prefetch.Sound crates pkg)
    (index : Nat) : (prefetch.work crates pkg index).Sound crates pkg := by
  rw [Prefetch.work]
  split
  · next worker held =>
      have stepped := sound.shared.work (sound.workers worker (List.mem_of_getElem? held))
      refine ⟨stepped.1, fun other inside => ?_⟩
      rcases List.mem_or_eq_of_mem_set inside with before | same
      · exact sound.workers other before
      · rw [same]
        exact stepped.2
  · exact sound

theorem Store.lookup_take {store : Store} {key other : BlockKey} {found : Bytes}
    (present : (store.take key).1.ready.lookup other = some found) :
    store.ready.lookup other = some found := by
  rw [Store.take] at present
  split at present
  · by_cases own : other = key
    · rw [own, AList.lookup_erase] at present
      cases present
    · rw [AList.lookup_erase_ne own] at present
      exact present
  · split at present
    · exact present
    · exact present

theorem Store.take_snd (store : Store) (key : BlockKey) :
    (store.take key).2 = store.ready.lookup key := by
  rw [Store.take]
  cases store.ready.lookup key with
  | some data => rfl
  | none => exact apply_ite Prod.snd _ _ _ |>.trans (ite_self none)

theorem Prefetch.Sound.take {prefetch : Prefetch} (sound : prefetch.Sound crates pkg)
    (key : BlockKey) : (prefetch.take key).1.Sound crates pkg ∧
      ∀ data, (prefetch.take key).2 = some data → verifiedBlock crates pkg key = some data := by
  rw [Prefetch.take]
  split
  · refine ⟨⟨⟨sound.shared.listed, fun other found present => ?_⟩, sound.workers⟩,
      fun data given => ?_⟩
    · exact sound.shared.ready other found (Store.lookup_take present)
    · rw [Store.take_snd] at given
      exact sound.shared.ready key data given
  · exact ⟨sound, fun given same => nomatch same⟩

theorem Prefetch.Sound.start {blocks : List (BlockKey × Block)} {window threads : Nat}
    (listed : Listed pkg.manifest blocks) {prefetch : Prefetch}
    (started : Prefetch.start blocks window threads = some prefetch) :
    prefetch.Sound crates pkg := by
  rw [Prefetch.start] at started
  split at started
  · cases started
  · rw [← Option.some.inj started]
    refine ⟨⟨listed, fun key data present => ?_⟩, fun worker inside => ?_⟩
    · rw [Prefetched.new, AList.lookup_empty] at present
      cases present
    · rw [List.eq_of_mem_replicate inside]
      trivial

end Onelf.Runtime.Fuse
