import Mathlib.Data.List.Induction
import Onelf.Runtime.Fuse.Sound

/-! What the block cache keeps true: its order, its byte count and its budget (`BlockCache` of
`fuse/fs.rs`). -/

namespace Onelf.Runtime.Fuse

open Onelf.Lib

section
variable {κ : Type} {β : κ → Type} [DecidableEq κ] {data : AList β} {key : κ}

theorem erase_of_notMem (absent : key ∉ data) : data.erase key = data :=
  AList.ext (List.kerase_of_notMem_keys fun member => absent (AList.mem_keys.mpr member))

theorem keys_insert_of_notMem (absent : key ∉ data) (value : β key) :
    (data.insert key value).keys = key :: data.keys := by
  rw [AList.keys_insert, List.erase_of_not_mem fun member => absent (AList.mem_keys.mpr member)]

theorem perm_keys_erase {first second : List κ} (perm : (first ++ key :: second).Perm data.keys) :
    (first ++ second).Perm (data.erase key).keys := by
  have moved := (List.perm_middle.symm.trans perm).erase key
  rwa [List.erase_cons_head, ← AList.keys_erase] at moved

theorem perm_filter_keys_erase {order : List κ} (perm : order.Perm data.keys) :
    (order.filter (· ≠ key)).Perm (data.erase key).keys := by
  rw [AList.keys_erase, data.keys_nodup.erase_eq_filter]
  refine (perm.filter _).trans (List.Perm.of_eq (List.filter_congr fun other _ => ?_))
  by_cases same : other = key <;> simp [same]

end

namespace BlockCache

/-- The bytes of all stored blocks. -/
def stored (data : Blocks) : Nat := (data.entries.map fun entry => entry.2.length).sum

/-- Every stored block stands once in the order, and the bytes are those stored. -/
structure Balanced (cache : BlockCache) : Prop where
  order : cache.order.Perm cache.data.keys
  bytes : cache.bytes = stored cache.data

/-- A call that changes the cache. -/
inductive Call where
  | insert (now inode index : Nat) (content : Bytes) (pinned : List Nat)
  | clear (now : Nat)

def call (cache : BlockCache) : Call → BlockCache
  | .insert now inode index content pinned => cache.insertBlock now inode index content pinned
  | .clear now => (cache.maybeClear now).1

def run (cache : BlockCache) (calls : List Call) : BlockCache := calls.foldl call cache

/-- Past the budget only pinned blocks and the newcomer are left. -/
def Spent (cache : BlockCache) (inode : Nat) (pinned : List Nat) (newcomer : BlockKey) : Prop :=
  cache.budget < cache.bytes →
    ∀ key ∈ cache.data.keys, isPinned inode pinned key = true ∨ key = newcomer

/-! ### Counting -/

theorem stored_insert {data : Blocks} {key : BlockKey} (absent : key ∉ data) (content : Bytes) :
    stored (data.insert key content) = content.length + stored data := by
  rw [stored, AList.entries_insert_of_notMem absent, List.map_cons, List.sum_cons, stored]

theorem stored_erase {data : Blocks} {key : BlockKey} {content : Bytes}
    (held : data.lookup key = some content) :
    stored data = content.length + stored (data.erase key) := by
  have entry : ⟨key, content⟩ ∈ data.entries :=
    (List.mem_dlookup_iff data.nodupKeys).mp held
  obtain ⟨found, first, second, fresh, whole, erased⟩ :=
    List.exists_of_kerase (List.mem_keys_of_mem entry)
  have same : found = content := by
    have other : ⟨key, found⟩ ∈ data.entries := by
      rw [whole]
      exact List.mem_append_right _ List.mem_cons_self
    exact data.nodupKeys.eq_of_mk_mem other entry
  have left : (data.erase key).entries = first ++ second := erased
  rw [stored, stored, left, whole, same]
  simp only [List.map_append, List.sum_append, List.map_cons, List.sum_cons]
  omega

/-- No count goes below nothing. -/
theorem bytesWithout_stored (data : Blocks) (key : BlockKey) :
    bytesWithout data (stored data) key = stored (data.erase key) := by
  rw [bytesWithout]
  cases held : data.lookup key with
  | some dropped => simp only [stored_erase held, Nat.add_sub_cancel_left]
  | none =>
      simp only [erase_of_notMem (AList.lookup_eq_none.mp held)]

/-! ### One insertion -/

/-- What the eviction loop keeps true of the blocks it leaves. -/
structure Evicted (budget incoming inode : Nat) (pinned : List Nat) (left : Eviction) : Prop where
  order : (left.skipped ++ left.order).Perm left.data.keys
  bytes : left.bytes = stored left.data
  spent : budget < left.bytes + incoming →
    left.order = [] ∧ ∀ key ∈ left.skipped, isPinned inode pinned key = true

theorem evicted_evict {budget incoming inode bytes : Nat} {pinned : List Nat}
    {order skipped : List BlockKey} {data : Blocks} (perm : (skipped ++ order).Perm data.keys)
    (counted : bytes = stored data) (held : ∀ key ∈ skipped, isPinned inode pinned key = true) :
    Evicted budget incoming inode pinned
      (evict budget incoming inode pinned order data bytes skipped) := by
  induction order generalizing data bytes skipped with
  | nil => exact ⟨perm, counted, fun _ => ⟨rfl, held⟩⟩
  | cons victim order ih =>
      rw [evict]
      split
      · split
        · next pin =>
            refine ih ?_ counted ?_
            · rwa [List.append_assoc, List.singleton_append]
            · intro key member
              rcases List.mem_append.mp member with before | last
              · exact held key before
              · rw [List.mem_singleton.mp last]
                exact pin
        · refine ih (perm_keys_erase perm) ?_ held
          rw [counted, bytesWithout_stored]
      · next fits => exact ⟨perm, counted, fun more => absurd more fits⟩

theorem Balanced.orderWithout {cache : BlockCache} (balanced : cache.Balanced) (key : BlockKey) :
    (cache.orderWithout key).Perm (cache.data.erase key).keys := by
  rw [BlockCache.orderWithout]
  cases held : cache.data.lookup key with
  | some content => exact perm_filter_keys_erase balanced.order
  | none =>
      rw [erase_of_notMem (AList.lookup_eq_none.mp held)]
      exact balanced.order

theorem Balanced.makeRoom {cache : BlockCache} (balanced : cache.Balanced) (key : BlockKey)
    (incoming : Nat) (pinned : List Nat) :
    Evicted cache.budget incoming key.1 pinned (cache.makeRoom key incoming pinned) := by
  refine evicted_evict ?_ ?_ fun key member => absurd member List.not_mem_nil
  · exact balanced.orderWithout key
  · rw [balanced.bytes, bytesWithout_stored]

/-- Room is made without a block of the newcomer's key. -/
theorem notMem_makeRoom (cache : BlockCache) (key : BlockKey) (incoming : Nat)
    (pinned : List Nat) : key ∉ (cache.makeRoom key incoming pinned).data := by
  intro member
  obtain ⟨content, found⟩ := Option.isSome_iff_exists.mp (AList.lookup_isSome.mpr member)
  have before := lookup_evict found
  rw [AList.lookup_erase] at before
  cases before

theorem Balanced.insertBlock {cache : BlockCache} (balanced : cache.Balanced)
    (now inode index : Nat) (content : Bytes) (pinned : List Nat) :
    (cache.insertBlock now inode index content pinned).Balanced ∧
      (cache.insertBlock now inode index content pinned).Spent inode pinned (inode, index) := by
  have room := balanced.makeRoom (inode, index) content.length pinned
  have absent := notMem_makeRoom cache (inode, index) content.length pinned
  have keys := keys_insert_of_notMem absent content
  refine ⟨⟨?_, ?_⟩, fun more key member => ?_⟩
  · rw [BlockCache.insertBlock, keys]
    exact (List.perm_append_singleton _ _).trans (room.order.cons _)
  · rw [BlockCache.insertBlock, stored_insert absent, room.bytes, Nat.add_comm]
  · obtain ⟨rest, held⟩ := room.spent more
    have order := room.order
    rw [rest, List.append_nil] at order
    rw [BlockCache.insertBlock, keys, List.mem_cons] at member
    rcases member with newcomer | before
    · exact Or.inr newcomer
    · exact Or.inl (held key (order.mem_iff.mpr before))

theorem Balanced.maybeClear {cache : BlockCache} (balanced : cache.Balanced) (now : Nat) :
    (cache.maybeClear now).1.Balanced := by
  rw [BlockCache.maybeClear]
  split
  · split
    · exact ⟨List.Perm.nil, rfl⟩
    · exact balanced
  · exact balanced

/-! ### Any sequence of calls -/

theorem Balanced.call {cache : BlockCache} (balanced : cache.Balanced) (call : Call) :
    (cache.call call).Balanced := by
  cases call with
  | insert now inode index content pinned =>
      exact (balanced.insertBlock now inode index content pinned).1
  | clear now => exact balanced.maybeClear now

theorem balanced_run (budget : Nat) (calls : List Call) :
    ((new budget).run calls).Balanced := by
  induction calls using List.reverseRecOn with
  | nil => exact ⟨List.Perm.nil, rfl⟩
  | append_singleton calls call ih =>
      rw [run, List.foldl_append]
      exact ih.call call

end BlockCache

/-! ### A read's blocks -/

section
variable {crates : Crates} {pkg : PackageData}

/-- What the loading loop leaves of the cache: the pinned blocks that were there, every block it
came to the end of, and past the budget nothing but pinned ones once it has inserted any. -/
structure Filled (inode : Nat) (pinned : List Nat) (spans : List Span) (before : BlockCache)
    (result : FuseState × Bool) : Prop where
  balanced : result.1.cache.Balanced
  kept : ∀ index ∈ pinned, (before.getBlock inode index).isSome →
    (result.1.cache.getBlock inode index).isSome
  present : result.2 = true → ∀ span ∈ spans, (result.1.cache.getBlock inode span.index).isSome
  spent : result.1.cache = before ∨ (result.1.cache.budget < result.1.cache.bytes →
    ∀ key ∈ result.1.cache.data.keys, BlockCache.isPinned inode pinned key = true)

theorem fetchBlock_cache (crates : Crates) (pkg : PackageData) (state : FuseState) (inode : Nat) (span : Span) :
    (fetchBlock crates pkg state inode span).1.cache = state.cache := by
  rw [fetchBlock, takePrefetched]
  split <;> rfl

theorem filled_loadBlocks {now : Nat} {turns : Nat → List Nat} {inode : Nat} {pinned : List Nat}
    {spans : List Span} (pins : ∀ span ∈ spans, span.index ∈ pinned) {state : FuseState}
    (balanced : state.cache.Balanced) :
    Filled inode pinned spans state.cache
      (loadBlocks crates pkg now turns inode pinned spans state) := by
  induction spans generalizing state with
  | nil =>
      exact ⟨balanced, fun index _ present => present,
        fun _ span member => absurd member List.not_mem_nil, Or.inl rfl⟩
  | cons span spans ih =>
      obtain ⟨pinHere, pinsLater⟩ := List.forall_mem_cons.mp pins
      rw [loadBlocks]
      split
      · next data cached =>
          have rest := ih pinsLater balanced
          refine ⟨rest.balanced, rest.kept, fun done => ?_, rest.spent⟩
          refine List.forall_mem_cons.mpr ⟨rest.kept span.index pinHere ?_, rest.present done⟩
          rw [cached]
          rfl
      · have same := fetchBlock_cache crates pkg (advance crates pkg (turns span.index) state) inode
          span
        split
        · next reached data given =>
            rw [given] at same
            have cache : reached.cache = state.cache := same
            have entered := balanced.insertBlock now inode span.index data pinned
            rw [← cache] at entered
            have rest := @ih pinsLater { reached with
              cache := reached.cache.insertBlock now inode span.index data pinned } entered.1
            have there : ((reached.cache.insertBlock now inode span.index data pinned).getBlock
                inode span.index).isSome := by
              rw [BlockCache.getBlock_insertBlock]
              rfl
            refine ⟨rest.balanced, fun index held present => ?_, fun done => ?_, Or.inr ?_⟩
            · refine rest.kept index held ?_
              by_cases newcomer : index = span.index
              · exact newcomer ▸ there
              · rw [BlockCache.getBlock_insertBlock_pinned held newcomer, cache]
                exact present
            · exact List.forall_mem_cons.mpr
                ⟨rest.kept span.index pinHere there, rest.present done⟩
            · rcases rest.spent with unchanged | spent
              · intro more key member
                rw [unchanged] at more member
                rcases entered.2 more key member with held | newcomer
                · exact held
                · rw [newcomer]
                  simp [BlockCache.isPinned, pinHere]
              · exact spent
        · next reached given =>
            rw [given] at same
            have cache : reached.cache = state.cache := same
            refine ⟨cache ▸ balanced, fun index _ present => ?_, fun done => (by cases done),
              Or.inl cache⟩
            rw [cache]
            exact present

end

/-- What the cache promises, whatever calls it has served: its books balance, an insertion goes past
the budget only beside pinned blocks, and a read that gets all its blocks finds them all. -/
structure BlockCache.Upheld (crates : Crates) (pkg : PackageData) (cache : BlockCache) : Prop where
  balanced : cache.Balanced
  spent : ∀ now inode index content pinned,
    (cache.insertBlock now inode index content pinned).Spent inode pinned (inode, index)
  read : ∀ now turns inode needed (state : FuseState), state.cache = cache →
    Filled inode (needed.map Span.index) needed cache
      (loadBlocks crates pkg now turns inode (needed.map Span.index) needed state)

theorem upheld_run (crates : Crates) (pkg : PackageData) (budget : Nat)
    (calls : List BlockCache.Call) :
    ((BlockCache.new budget).run calls).Upheld crates pkg := by
  have balanced := BlockCache.balanced_run budget calls
  refine ⟨balanced, fun now inode index content pinned => ?_,
    fun now turns inode needed state same => ?_⟩
  · exact (balanced.insertBlock now inode index content pinned).2
  · rw [← same] at balanced ⊢
    exact filled_loadBlocks (fun span member => List.mem_map_of_mem member) balanced

end Onelf.Runtime.Fuse
