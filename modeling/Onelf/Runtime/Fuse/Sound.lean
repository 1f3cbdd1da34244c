import Onelf.Runtime.Fuse.Server

/-! Whatever the server holds of a block is the block, verified: in every state a history of reads,
idle checks and worker steps leads to. -/

namespace Onelf.Runtime.Fuse

open Onelf.Lib

variable {crates : Crates} {pkg : PackageData}

/-- Every cached block, ready block and remembered verdict is the one a fresh read would give. -/
structure FuseState.Sound (crates : Crates) (pkg : PackageData) (state : FuseState) : Prop where
  cache : ∀ inode index data, state.cache.getBlock inode index = some data →
    verifiedBlock crates pkg (inode, index) = some data
  prefetch : ∀ prefetch, state.prefetch = some prefetch → prefetch.Sound crates pkg
  verified : ∀ inode ok entry, state.verified.lookup inode = some ok →
    pkg.manifest.entries[inodeToEntry inode]? = some entry → ok = contentMatches crates pkg entry

/-- The span stands for the block its index names in the entry of `inode`. -/
def Located (manifest : Manifest) (inode : Nat) (span : Span) : Prop :=
  blockAt manifest (inode, span.index) = some span.block

theorem Prefetch.Sound.advance {prefetch : Prefetch} (sound : prefetch.Sound crates pkg)
    (workers : List Nat) :
    (workers.foldl (Prefetch.work crates pkg) prefetch).Sound crates pkg := by
  induction workers generalizing prefetch with
  | nil => exact sound
  | cons worker workers ih => exact ih (sound.work worker)

theorem FuseState.Sound.advance {state : FuseState} (sound : state.Sound crates pkg)
    (workers : List Nat) : (advance crates pkg workers state).Sound crates pkg := by
  refine ⟨sound.cache, fun prefetch running => ?_, sound.verified⟩
  rcases Option.map_eq_some_iff.mp running with ⟨before, held, same⟩
  rw [← same]
  exact (sound.prefetch before held).advance workers

/-! ### Loading the needed blocks -/

/-- A worker's copy is what the read itself would have decoded. -/
theorem fetchBlock_eq {state : FuseState} (sound : state.Sound crates pkg) {inode : Nat}
    {span : Span} (located : Located pkg.manifest inode span) :
    (fetchBlock crates pkg state inode span).1.Sound crates pkg ∧
      (fetchBlock crates pkg state inode span).1.cache = state.cache ∧
      (fetchBlock crates pkg state inode span).2 = readPayloadEntry crates pkg span.block := by
  simp only [fetchBlock, takePrefetched]
  cases held : state.prefetch with
  | none => exact ⟨sound, rfl, rfl⟩
  | some prefetch =>
      have taken := (sound.prefetch prefetch held).take (inode, span.index)
      refine ⟨⟨sound.cache, fun other same => ?_, sound.verified⟩, rfl, ?_⟩
      · rw [← Option.some.inj same]
        exact taken.1
      · cases given : (prefetch.take (inode, span.index)).2 with
        | none => rfl
        | some data =>
            have verified := taken.2 data given
            rw [verifiedBlock, located] at verified
            rw [Option.some_or]
            exact verified.symm

theorem FuseState.Sound.insert {state : FuseState} (sound : state.Sound crates pkg)
    (now : Nat) (pinned : List Nat) {inode : Nat} {span : Span} {data : Bytes}
    (located : Located pkg.manifest inode span)
    (verified : readPayloadEntry crates pkg span.block = some data) :
    FuseState.Sound crates pkg
      { state with cache := state.cache.insertBlock now inode span.index data pinned } := by
  refine ⟨fun other index found present => ?_, sound.prefetch, sound.verified⟩
  rcases BlockCache.getBlock_of_insertBlock present with newcomer | before
  · rw [newcomer.1, newcomer.2, verifiedBlock, located]
    exact verified
  · exact sound.cache other index found before

/-- What a pass of the loading loop leaves behind. -/
structure Loaded (crates : Crates) (pkg : PackageData) (inode : Nat) (pinned : List Nat)
    (spans : List Span) (before : FuseState) (result : FuseState × Bool) : Prop where
  sound : result.1.Sound crates pkg
  /-- The pinned blocks that were cached still are. -/
  kept : ∀ index ∈ pinned, (before.cache.getBlock inode index).isSome →
    (result.1.cache.getBlock inode index).isSome
  present : result.2 = true → ∀ span ∈ spans,
    (result.1.cache.getBlock inode span.index).isSome
  complete : result.2 = false → ∃ span ∈ spans, readPayloadEntry crates pkg span.block = none

theorem loaded_loadBlocks {now : Nat} {turns : Nat → List Nat} {inode : Nat} {pinned : List Nat}
    {spans : List Span} (located : ∀ span ∈ spans, Located pkg.manifest inode span)
    (pins : ∀ span ∈ spans, span.index ∈ pinned) {state : FuseState}
    (sound : state.Sound crates pkg) :
    Loaded crates pkg inode pinned spans state
      (loadBlocks crates pkg now turns inode pinned spans state) := by
  induction spans generalizing state with
  | nil =>
      exact ⟨sound, fun index _ present => present, fun _ span inside => (nomatch inside),
        fun failed => (nomatch failed)⟩
  | cons span spans ih =>
      have here := located span List.mem_cons_self
      have pinnedHere := pins span List.mem_cons_self
      have later (other : FuseState) (fine : other.Sound crates pkg) :=
        ih (fun next inside => located next (List.mem_cons_of_mem span inside))
          (fun next inside => pins next (List.mem_cons_of_mem span inside)) fine
      rw [loadBlocks]
      split
      · next data cached =>
          have rest := later state sound
          refine ⟨rest.sound, rest.kept, fun done next inside => ?_, fun failed => ?_⟩
          · rcases List.mem_cons.mp inside with first | inside
            · rw [first]
              exact rest.kept span.index pinnedHere (by rw [cached]; rfl)
            · exact rest.present done next inside
          · rcases rest.complete failed with ⟨next, inside, missing⟩
            exact ⟨next, List.mem_cons_of_mem span inside, missing⟩
      · have fetched := fetchBlock_eq (sound.advance (turns span.index)) here
        split
        · next reached data given =>
            rw [given] at fetched
            have inserted := fetched.1.insert now pinned here fetched.2.2.symm
            have rest := later _ inserted
            have entered : (BlockCache.getBlock (reached.cache.insertBlock now inode span.index
                data pinned) inode span.index).isSome := by
              rw [BlockCache.getBlock_insertBlock]
              rfl
            refine ⟨rest.sound, fun index held present => ?_, fun done next inside => ?_,
              fun failed => ?_⟩
            · by_cases same : index = span.index
              · exact rest.kept index held (same ▸ entered)
              · refine rest.kept index held ?_
                have sameCache : reached.cache = state.cache := fetched.2.1
                rw [BlockCache.getBlock_insertBlock_pinned held same, sameCache]
                exact present
            · rcases List.mem_cons.mp inside with first | inside
              · rw [first]
                exact rest.kept span.index pinnedHere entered
              · exact rest.present done next inside
            · rcases rest.complete failed with ⟨next, inside, missing⟩
              exact ⟨next, List.mem_cons_of_mem span inside, missing⟩
        · next reached given =>
            rw [given] at fetched
            refine ⟨fetched.1, fun index held present => ?_, fun done => (nomatch done),
              fun _ => ⟨span, List.mem_cons_self, fetched.2.2.symm⟩⟩
            have sameCache : reached.cache = state.cache := fetched.2.1
            rw [sameCache]
            exact present

/-! ### Every step keeps the server sound -/

/-- Whether an entry may be served: all its blocks carry a hash, or its content matches its own. -/
def admitted (crates : Crates) (pkg : PackageData) (entry : Entry) : Bool :=
  entry.blocks.all Block.hasContentHash || contentMatches crates pkg entry

theorem verifyEntry_eq {state : FuseState} (sound : state.Sound crates pkg) {inode : Nat}
    {entry : Entry} (found : pkg.manifest.entries[inodeToEntry inode]? = some entry) :
    (verifyEntry crates pkg state inode entry).1.Sound crates pkg ∧
      (verifyEntry crates pkg state inode entry).2 = admitted crates pkg entry := by
  rw [verifyEntry, admitted]
  split
  · next hashed => exact ⟨sound, by rw [hashed, Bool.true_or]⟩
  · next unhashed =>
      rw [Bool.eq_false_iff.mpr unhashed, Bool.false_or]
      split
      · next ok known => exact ⟨sound, sound.verified inode ok entry known found⟩
      · refine ⟨⟨sound.cache, sound.prefetch, fun other ok named known listed => ?_⟩, rfl⟩
        by_cases same : other = inode
        · rw [same] at known listed
          rw [AList.lookup_insert] at known
          rw [found] at listed
          rw [← Option.some.inj known, Option.some.inj listed]
        · rw [AList.lookup_insert_ne same] at known
          exact sound.verified other ok named known listed

theorem mem_spansFrom {index total : Nat} {blocks : List Block} {span : Span}
    (inside : span ∈ spansFrom index total blocks) :
    index ≤ span.index ∧ blocks[span.index - index]? = some span.block := by
  induction blocks generalizing index total with
  | nil => cases inside
  | cons block blocks ih =>
      rcases List.mem_cons.mp inside with first | inside
      · rw [first]
        exact ⟨le_refl _, by rw [Nat.sub_self]; rfl⟩
      · have rest := ih inside
        have shift : span.index - index = span.index - (index + 1) + 1 := by omega
        refine ⟨by omega, ?_⟩
        rw [shift, List.getElem?_cons_succ]
        exact rest.2

theorem located_neededBlocks {inode : Nat} {entry : Entry} {offset stop : Nat}
    (found : pkg.manifest.entries[inodeToEntry inode]? = some entry) :
    ∀ span ∈ neededBlocks entry.blocks offset stop, Located pkg.manifest inode span := by
  intro span inside
  have listed := (mem_spansFrom (List.mem_filter.mp inside).1).2
  rw [Located, blockAt, found]
  exact listed

/-- The loading loop of a read. -/
theorem loaded_neededBlocks (now : Nat) (turns : Nat → List Nat) {inode : Nat} {entry : Entry}
    (found : pkg.manifest.entries[inodeToEntry inode]? = some entry) (offset stop : Nat)
    {state : FuseState} (sound : state.Sound crates pkg) :
    Loaded crates pkg inode ((neededBlocks entry.blocks offset stop).map Span.index)
      (neededBlocks entry.blocks offset stop) state
      (loadBlocks crates pkg now turns inode ((neededBlocks entry.blocks offset stop).map Span.index)
        (neededBlocks entry.blocks offset stop) state) :=
  loaded_loadBlocks (located_neededBlocks found)
    (fun span inside => List.mem_map.mpr ⟨span, inside, rfl⟩) sound

theorem FuseState.Sound.readBlocks {state : FuseState} (sound : state.Sound crates pkg)
    (now : Nat) (turns : Nat → List Nat) {inode : Nat} {entry : Entry}
    (found : pkg.manifest.entries[inodeToEntry inode]? = some entry) (offset size : Nat) :
    (readBlocks crates pkg now turns state inode entry offset size).1.Sound crates pkg := by
  rw [Fuse.readBlocks]
  split
  · exact sound
  · have loaded := loaded_neededBlocks now turns found offset
      (readStop entry.blocks offset size) sound
    rw [readNeeded]
    split
    · next reached done =>
        rw [done] at loaded
        exact loaded.sound
    · next reached failed =>
        rw [failed] at loaded
        exact loaded.sound

theorem FuseState.Sound.handleRead {state : FuseState} (sound : state.Sound crates pkg)
    (now : Nat) (turns : Nat → List Nat) (readIn : Option FuseReadIn) :
    (handleRead crates pkg now turns state readIn).1.Sound crates pkg := by
  cases readIn with
  | none => exact sound
  | some readIn =>
      rw [Fuse.handleRead]
      split
      · exact sound
      · split
        · exact sound
        · split
          · exact sound
          · next entry found =>
              rw [readEntry]
              split
              · exact sound
              · have checked := verifyEntry_eq sound found
                split
                · next reached passed =>
                    rw [passed] at checked
                    exact checked.1.readBlocks now turns found _ _
                · next reached refused =>
                    rw [refused] at checked
                    exact checked.1

theorem FuseState.Sound.clearIfIdle {state : FuseState} (sound : state.Sound crates pkg)
    (now : Nat) : (clearIfIdle now state).Sound crates pkg := by
  have kept : ∀ inode index data, (state.cache.maybeClear now).1.getBlock inode index = some data →
      verifiedBlock crates pkg (inode, index) = some data :=
    fun inode index data present =>
      sound.cache inode index data (BlockCache.getBlock_maybeClear present)
  rw [Fuse.clearIfIdle]
  split
  · next cache cleared =>
      rw [cleared] at kept
      exact ⟨kept, fun prefetch held => (nomatch held), sound.verified⟩
  · next cache uncleared =>
      rw [uncleared] at kept
      exact ⟨kept, sound.prefetch, sound.verified⟩

theorem FuseState.Sound.step {state : FuseState} (sound : state.Sound crates pkg)
    (event : Event) : (step crates pkg state event).Sound crates pkg := by
  cases event with
  | read now turns readIn => exact sound.handleRead now turns readIn
  | idle now => exact sound.clearIfIdle now
  | work workers => exact sound.advance workers
  | link added => exact ⟨sound.cache, sound.prefetch, sound.verified⟩

theorem sound_new (manifest : Manifest) (same : pkg.manifest = manifest) (budget : Nat)
    (named : List (Nat × Nat)) (window threads : Nat) :
    (FuseState.new manifest budget named window threads).Sound crates pkg := by
  refine ⟨fun inode index data present => ?_, fun prefetch started => ?_,
    fun inode ok entry known => ?_⟩
  · rw [FuseState.new, BlockCache.getBlock_new] at present
    cases present
  · refine Prefetch.Sound.start ?_ started
    rw [same]
    exact listed_profiledBlocks manifest named
  · rw [FuseState.new, AList.lookup_empty] at known
    cases known

/-- Every history keeps the server sound. -/
theorem FuseState.Sound.serve {state : FuseState} (sound : state.Sound crates pkg)
    (events : List Event) : (serve crates pkg state events).Sound crates pkg := by
  induction events generalizing state with
  | nil => exact sound
  | cons event events ih => exact ih (sound.step event)

end Onelf.Runtime.Fuse
