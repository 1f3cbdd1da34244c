import Mathlib.Data.List.AList
import Onelf.Lib.Bytes

/-! The decompressed blocks the mount keeps for reuse (`BlockCache` of `fuse/fs.rs`). -/

namespace Onelf.Runtime.Fuse

open Onelf.Lib

/-- An inode and the index of one of its blocks. -/
abbrev BlockKey := Nat × Nat

abbrev Blocks := AList fun _ : BlockKey => Bytes

/-- Decompressed blocks, bounded by total bytes; `order` has the oldest first. -/
structure BlockCache where
  data : Blocks
  order : List BlockKey
  bytes : Nat
  budget : Nat
  lastAccess : Option Nat

namespace BlockCache

def new (budget : Nat) : BlockCache := ⟨∅, [], 0, budget, none⟩

def getBlock (cache : BlockCache) (inode index : Nat) : Option Bytes :=
  cache.data.lookup (inode, index)

/-- What the eviction loop leaves: the blocks, their order and bytes, and the pinned victims it
passed over. -/
structure Eviction where
  data : Blocks
  order : List BlockKey
  bytes : Nat
  skipped : List BlockKey

def isPinned (inode : Nat) (pinned : List Nat) (key : BlockKey) : Bool :=
  key.1 == inode && pinned.contains key.2

/-- The bytes counted once what is stored under `key` is dropped. -/
def bytesWithout (data : Blocks) (bytes : Nat) (key : BlockKey) : Nat :=
  match data.lookup key with
  | some dropped => bytes - dropped.length
  | none => bytes

/-- Evict oldest-first until the newcomer fits, skipping anything the caller pinned. -/
def evict (budget incoming inode : Nat) (pinned : List Nat) :
    List BlockKey → Blocks → Nat → List BlockKey → Eviction
  | [], data, bytes, skipped => ⟨data, [], bytes, skipped⟩
  | victim :: order, data, bytes, skipped =>
      if bytes + incoming > budget then
        if isPinned inode pinned victim then
          evict budget incoming inode pinned order data bytes (skipped ++ [victim])
        else
          evict budget incoming inode pinned order (data.erase victim)
            (bytesWithout data bytes victim) skipped
      else ⟨data, victim :: order, bytes, skipped⟩

/-- The order once an earlier block under `key` is removed. -/
def orderWithout (cache : BlockCache) (key : BlockKey) : List BlockKey :=
  match cache.data.lookup key with
  | some _ => cache.order.filter (· ≠ key)
  | none => cache.order

/-- Make room for a block of `incoming` bytes under `key`. -/
def makeRoom (cache : BlockCache) (key : BlockKey) (incoming : Nat) (pinned : List Nat) :
    Eviction :=
  evict cache.budget incoming key.1 pinned (cache.orderWithout key) (cache.data.erase key)
    (bytesWithout cache.data cache.bytes key) []

/-- Insert a block, evicting older ones to stay within budget. A block larger than the whole budget
still goes in. -/
def insertBlock (cache : BlockCache) (now inode index : Nat) (content : Bytes)
    (pinned : List Nat) : BlockCache :=
  let room := cache.makeRoom (inode, index) content.length pinned
  { data := room.data.insert (inode, index) content
    order := room.skipped ++ room.order ++ [(inode, index)]
    bytes := room.bytes + content.length
    budget := cache.budget
    lastAccess := some now }

def cacheIdleSecs : Nat := 2

def nanosPerSec : Nat := 1000000000

/-- Clear everything once nothing was inserted for `cacheIdleSecs`, and say whether it did. -/
def maybeClear (cache : BlockCache) (now : Nat) : BlockCache × Bool :=
  match cache.lastAccess with
  | some last =>
      if (now - last) / nanosPerSec ≥ cacheIdleSecs then
        ({ cache with data := ∅, order := [], bytes := 0, lastAccess := none }, true)
      else (cache, false)
  | none => (cache, false)

/-! ### What a lookup finds -/

@[simp] theorem getBlock_new (budget inode index : Nat) :
    (new budget).getBlock inode index = none := AList.lookup_empty _

theorem lookup_evict {budget incoming inode bytes : Nat} {pinned : List Nat}
    {order skipped : List BlockKey} {data : Blocks} {key : BlockKey} {content : Bytes}
    (kept : (evict budget incoming inode pinned order data bytes skipped).data.lookup key =
      some content) : data.lookup key = some content := by
  induction order generalizing data bytes skipped with
  | nil => exact kept
  | cons victim order ih =>
      rw [evict] at kept
      split at kept
      · split at kept
        · exact ih kept
        · have found := ih kept
          by_cases same : key = victim
          · rw [same, AList.lookup_erase] at found
            cases found
          · rw [AList.lookup_erase_ne same] at found
            exact found
      · exact kept

theorem lookup_evict_pinned {budget incoming inode bytes : Nat} {pinned : List Nat}
    {order skipped : List BlockKey} {data : Blocks} {key : BlockKey}
    (held : isPinned inode pinned key = true) :
    (evict budget incoming inode pinned order data bytes skipped).data.lookup key =
      data.lookup key := by
  induction order generalizing data bytes skipped with
  | nil => rfl
  | cons victim order ih =>
      rw [evict]
      split
      · split
        · exact ih
        · next free =>
            have other : key ≠ victim := fun same => free (same ▸ held)
            rw [ih, AList.lookup_erase_ne other]
      · rfl

/-- The block just inserted is there. -/
@[simp] theorem getBlock_insertBlock (cache : BlockCache) (now inode index : Nat)
    (content : Bytes) (pinned : List Nat) :
    (cache.insertBlock now inode index content pinned).getBlock inode index = some content :=
  AList.lookup_insert _

/-- A block found after an insertion is the newcomer or was there before. -/
theorem getBlock_of_insertBlock {cache : BlockCache} {now inode index : Nat} {content : Bytes}
    {pinned : List Nat} {otherInode otherIndex : Nat} {found : Bytes}
    (present : (cache.insertBlock now inode index content pinned).getBlock otherInode otherIndex =
      some found) :
    ((otherInode, otherIndex) = (inode, index) ∧ found = content) ∨
      cache.getBlock otherInode otherIndex = some found := by
  by_cases same : (otherInode, otherIndex) = (inode, index)
  · rcases Prod.mk.inj same with ⟨sameInode, sameIndex⟩
    rw [sameInode, sameIndex, getBlock_insertBlock] at present
    exact Or.inl ⟨same, (Option.some.inj present).symm⟩
  · rw [getBlock, insertBlock, AList.lookup_insert_ne same] at present
    have kept := lookup_evict present
    rw [AList.lookup_erase_ne same] at kept
    exact Or.inr kept

/-- A pinned block survives the insertion of another. -/
theorem getBlock_insertBlock_pinned {cache : BlockCache} {now inode index other : Nat}
    {content : Bytes} {pinned : List Nat} (held : other ∈ pinned) (distinct : other ≠ index) :
    (cache.insertBlock now inode index content pinned).getBlock inode other =
      cache.getBlock inode other := by
  have apart : (inode, other) ≠ (inode, index) := fun same => distinct (Prod.mk.inj same).2
  have kept : isPinned inode pinned (inode, other) = true := by simp [isPinned, held]
  calc
    _ = (cache.makeRoom (inode, index) content.length pinned).data.lookup (inode, other) :=
      AList.lookup_insert_ne apart
    _ = (cache.data.erase (inode, index)).lookup (inode, other) := lookup_evict_pinned kept
    _ = cache.getBlock inode other := AList.lookup_erase_ne apart

theorem getBlock_maybeClear {cache : BlockCache} {now inode index : Nat} {found : Bytes}
    (present : (cache.maybeClear now).1.getBlock inode index = some found) :
    cache.getBlock inode index = some found := by
  rw [maybeClear] at present
  split at present
  · split at present
    · rw [getBlock, AList.lookup_empty] at present
      cases present
    · exact present
  · exact present

end BlockCache

end Onelf.Runtime.Fuse
