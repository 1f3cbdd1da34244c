import Mathlib.Data.List.TakeWhile
import Onelf.Runtime.Fuse.Rows

/-! What the launching child hands over, and what serving it changes. -/

namespace Onelf.Runtime.FuseTree

open Onelf.Lib
open Onelf.Runtime.Fuse (entryToInode inodeToEntry)

/-! ### Wanted links -/

/-- A name the package does not carry, out of a directory. -/
def Admitted (carried : List Bytes) (name : Bytes) : Prop := name ∉ carried ∧ name.length ≤ nameMax

section Wanted

variable {carried : List Bytes}

theorem admitted_addWanted {links : SortedMap Text Bytes} {name : Bytes} (target : Bytes)
    (short : name.length ≤ nameMax)
    (admitted : ∀ pair ∈ links.entries, Admitted carried pair.1.bytes) :
    ∀ pair ∈ (addWanted carried links name target).entries, Admitted carried pair.1.bytes := by
  rw [addWanted]
  cases decoded : fromUtf8 name with
  | none => exact admitted
  | some text =>
      have same := fromUtf8_eq_some.mp decoded
      dsimp only
      split
      · exact admitted
      · next apart =>
          intro pair member
          have held := (SortedMap.mem_entries_iff _ _ _).mp member
          rw [SortedMap.get?_orInsert] at held
          by_cases here : text = pair.1
          · rw [← here, same]
            exact ⟨by simpa using apart, short⟩
          · rw [if_neg here, Option.or_none] at held
            exact admitted pair ((SortedMap.mem_entries_iff _ _ _).mpr held)

/-- No wanted link has a name the package carries. -/
theorem wantedFrom_admitted (sources : Sources) :
    ∀ pair ∈ (wantedFrom sources carried).entries, Admitted carried pair.1.bytes := by
  let holds (links : SortedMap Text Bytes) : Prop :=
    ∀ pair ∈ links.entries, Admitted carried pair.1.bytes
  change holds (wantedFrom sources carried)
  rw [wantedFrom]
  refine List.foldlRecOn (motive := holds) _ _ (List.foldlRecOn (motive := holds) _ _
    (fun pair member => absurd member List.not_mem_nil) ?_) ?_
  · rintro links admitted ⟨name, target⟩ member
    cases target with
    | none => exact admitted
    | some target => exact admitted_addWanted target (sources.farmShort _ member) admitted
  rintro links admitted ⟨dir, listed⟩ member
  refine List.foldlRecOn (motive := holds) _ _ admitted ?_
  intro links admitted name found
  have short : name.length ≤ nameMax := by
    rw [foundIn, List.mem_insertionSort, List.mem_map] at found
    obtain ⟨entry, kept, rfl⟩ := found
    exact sources.setsShort _ member entry (List.mem_of_mem_filter kept)
  exact admitted_addWanted _ short admitted

end Wanted

/-! ### Names and directories -/

section Handing

variable {manifest : Format.Manifest}

theorem nil_spelled : Spelled [] := ⟨rfl, List.not_mem_nil, by decide⟩

theorem getString_spelled (small : manifest.stringTable.length < 256 ^ 4) (offset : Nat) :
    Spelled (manifest.getString offset) := by
  have short : ((manifest.stringTable.drop offset).takeWhile (· ≠ 0)).length < 256 ^ 4 := by
    have first := (List.takeWhile_prefix (fun byte : UInt8 => decide (byte ≠ 0))
      (l := manifest.stringTable.drop offset)).length_le
    rw [List.length_drop] at first
    omega
  rw [Format.Manifest.getString]
  split
  · next valid =>
      refine ⟨valid, fun zero => ?_, short⟩
      simpa using List.mem_takeWhile_imp zero
  · exact nil_spelled

theorem entryName_spelled (small : manifest.stringTable.length < 256 ^ 4) (inode : Nat) :
    Spelled (entryName manifest inode) := by
  rw [entryName]
  cases entryAt manifest inode with
  | none => exact nil_spelled
  | some entry => exact getString_spelled small entry.name

theorem dirIndex_eq_some {rel : Bytes} {idx : Nat} (found : dirIndex manifest rel = some idx) :
    ∃ entry, entryAt manifest (entryToInode idx) = some entry ∧ entry.kind = .dir ∧
      manifest.entryPath idx = rel := by
  have held := List.find?_some found
  rw [Option.any_eq_true] at held
  obtain ⟨entry, here, directory⟩ := held
  rw [decide_eq_true_eq] at directory
  exact ⟨entry, by rw [entryAt_entryToInode]; exact here, directory⟩

/-- The children of a directory have the names it carries. -/
theorem entryName_mem_carried {dir : Bytes} {idx child : Nat}
    (found : dirIndex manifest dir = some idx)
    (member : child ∈ childrenOf manifest (entryToInode idx)) :
    entryName manifest child ∈ carried manifest dir := by
  obtain ⟨entry, at_, _, parent⟩ := mem_childrenOf member
  obtain ⟨index, _, held⟩ := entryAt_eq_some.mp at_
  rw [carried, found, entryName, at_]
  refine List.mem_map.mpr ⟨entry, List.mem_filter.mpr ⟨List.mem_of_getElem? held, ?_⟩, rfl⟩
  exact decide_eq_true (Nat.succ.inj parent)

/-! ### Serving a message -/

theorem add_changes {synthetic : Synthetic} {parent : Nat} {name : Bytes}
    (placed : (entryAt manifest parent).isSome) (spelled : Spelled name)
    (beside : ∀ child ∈ childrenOf manifest parent, entryName manifest child ≠ name)
    (target : Bytes) (file : Bool) :
    Changes manifest synthetic (synthetic.add parent name target file).1 [] := by
  cases held : synthetic.lookup parent name with
  | some inode =>
      rw [Synthetic.add_of_some held]
      exact Changes.none _ _
  | none =>
      rw [Synthetic.add_of_none held]
      exact Changes.link synthetic ⟨parent, name, target, file, false⟩ rfl held placed spelled beside

theorem addLinks_changes {dir : Bytes} {links : LinkPipe.Pairs}
    (plain : ∀ pair ∈ links, LinkPipe.Plain pair)
    (admitted : ∀ pair ∈ links, Admitted (carried manifest dir) pair.1.bytes)
    (synthetic : Synthetic) :
    Changes manifest synthetic (addLinks manifest synthetic dir links) [] := by
  rw [addLinks]
  cases found : dirIndex manifest dir with
  | none => exact Changes.none _ _
  | some idx =>
      obtain ⟨entry, placed, _⟩ := dirIndex_eq_some found
      refine List.foldlRecOn (motive := fun later => Changes manifest synthetic later []) _ _
        (Changes.none _ _) ?_
      rintro later changes ⟨name, target⟩ member
      have fresh := admitted _ member
      have spelled : Spelled name.bytes := by
        refine ⟨name.valid, (plain _ member).2.1, lt_of_le_of_lt fresh.2 ?_⟩
        rw [nameMax]
        decide
      refine changes.trans (add_changes (by rw [placed]; rfl) spelled ?_ target false)
      rintro child among same
      exact fresh.1 (same ▸ entryName_mem_carried found among)

theorem shadowAt_eq_some {path name : Bytes} {child parent : Nat}
    (found : shadowAt manifest path = some (child, parent, name)) :
    ∃ dir idx, rsplitSlash path = some (dir, name) ∧ dirIndex manifest dir = some idx ∧
      parent = entryToInode idx ∧ child ∈ childrenOf manifest parent ∧
      entryName manifest child = name ∧
      ∃ entry, entryAt manifest child = some entry ∧ entry.kind ≠ .dir := by
  obtain ⟨⟨dir, last⟩, split, found⟩ := Option.bind_eq_some_iff.mp found
  obtain ⟨idx, indexed, found⟩ := Option.bind_eq_some_iff.mp found
  obtain ⟨entry, held, found⟩ := Option.bind_eq_some_iff.mp found
  cases found
  have kept := List.find?_some held
  rw [Option.any_eq_true] at kept
  obtain ⟨at_, here, named⟩ := kept
  rw [decide_eq_true_eq] at named
  refine ⟨dir, idx, split, indexed, rfl, List.mem_of_find?_eq_some held, ?_, at_, here, named.1⟩
  rw [entryName, here]
  exact named.2

theorem shadowPath_changes (small : manifest.stringTable.length < 256 ^ 4) (synthetic : Synthetic)
    (path target : Bytes) : Changes manifest synthetic
      (shadowPath manifest synthetic path target).1 (shadowPath manifest synthetic path target).2 := by
  rw [shadowPath]
  cases found : shadowAt manifest path with
  | none => exact Changes.none _ _
  | some place =>
      obtain ⟨child, parent, name⟩ := place
      obtain ⟨dir, idx, _, indexed, rfl, member, named, _⟩ := shadowAt_eq_some found
      obtain ⟨entry, placed, _⟩ := dirIndex_eq_some indexed
      dsimp only
      cases shadowing : synthetic.shadowed.lookup child with
      | some inode =>
          rw [Synthetic.shadow, shadowing]
          exact Changes.none _ _
      | none =>
          cases held : synthetic.lookup (entryToInode idx) name with
          | some inode =>
              rw [Synthetic.shadow, shadowing]
              dsimp only
              rw [Synthetic.add_of_some held]
              exact Changes.none _ _
          | none =>
              rw [Synthetic.shadow_of_none shadowing held]
              exact Changes.shadow synthetic child ⟨entryToInode idx, name, target, false, true⟩ rfl
                rfl held shadowing (by rw [placed]; rfl) (named ▸ entryName_spelled small child)
                member named

theorem shadowAll_changes (small : manifest.stringTable.length < 256 ^ 4) (synthetic : Synthetic)
    (shadows : LinkPipe.Pairs) : Changes manifest synthetic
      (shadowAll manifest synthetic shadows).1 (shadowAll manifest synthetic shadows).2 := by
  refine List.foldlRecOn (motive := fun later : Synthetic × List Notice =>
    Changes manifest synthetic later.1 later.2) _ _ (Changes.none _ _) ?_
  rintro ⟨later, notices⟩ changes ⟨path, target⟩ _
  exact changes.trans (shadowPath_changes small later path.bytes target)

theorem viewEnvName_spelled : Spelled viewEnvName := by
  refine ⟨by decide +kernel, by decide +kernel, ?_⟩
  have length : viewEnvName.length = 11 := by decide +kernel
  rw [length]
  decide

theorem serveViewEnv_changes (synthetic : Synthetic) (env : Bytes) :
    Changes manifest synthetic (serveViewEnv manifest synthetic env) [] := by
  rw [serveViewEnv]
  split
  · exact Changes.none _ _
  · cases found : dirIndex manifest viewEnvDir with
    | none => exact Changes.none _ _
    | some idx =>
        obtain ⟨entry, placed, _⟩ := dirIndex_eq_some found
        dsimp only
        split
        · exact Changes.none _ _
        · next apart =>
            refine add_changes (by rw [placed]; rfl) viewEnvName_spelled ?_ env true
            intro child member same
            exact apart (List.any_eq_true.mpr ⟨child, member, decide_eq_true same⟩)

/-- Serving what a child handed over adds links and shadows, and the kernel is told of each name
that stands for another entry than before. -/
theorem serveMessage_changes (small : manifest.stringTable.length < 256 ^ 4)
    {handoff : LinkPipe.Handoff} {sources : Sources}
    (sends : handoff.links = wanted manifest handoff.dir.bytes sources) (synthetic : Synthetic) :
    Changes manifest synthetic (serveMessage manifest synthetic handoff.received).1
      (serveMessage manifest synthetic handoff.received).2 := by
  have admitted : ∀ pair ∈ handoff.links.entries,
      Admitted (carried manifest handoff.dir.bytes) pair.1.bytes := by
    rw [sends]
    exact wantedFrom_admitted sources
  have linked : Changes manifest synthetic (addLinks manifest synthetic handoff.dir.bytes
    handoff.links.entries) [] := addLinks_changes handoff.linksPlain admitted synthetic
  have shadowed := shadowAll_changes small (addLinks manifest synthetic handoff.dir.bytes
    handoff.links.entries) handoff.shadows.entries
  have env (state : Synthetic) :
      Changes manifest state (serveViewEnv manifest state handoff.env) [] :=
    serveViewEnv_changes state handoff.env
  have whole := (linked.trans shadowed).trans (env _)
  rw [List.nil_append, List.append_nil] at whole
  exact whole

/-! ### How many links -/

theorem size_foldl_le {α β : Type} (size : β → Nat) {step : β → α → β}
    (each : ∀ state item, size (step state item) ≤ size state + 1) (items : List α) (start : β) :
    size (items.foldl step start) ≤ size start + items.length := by
  induction items generalizing start with
  | nil => exact Nat.le_refl _
  | cons item items ih =>
      have first := each start item
      have rest := ih (step start item)
      rw [List.foldl_cons, List.length_cons]
      omega

theorem length_add_le (synthetic : Synthetic) (parent : Nat) (name target : Bytes) (file : Bool) :
    (synthetic.add parent name target file).1.links.length ≤ synthetic.links.length + 1 := by
  cases held : synthetic.lookup parent name with
  | some inode =>
      rw [Synthetic.add_of_some held]
      exact Nat.le_succ _
  | none =>
      rw [Synthetic.add_of_none held]
      exact (List.length_append).le

theorem length_shadow_le (synthetic : Synthetic) (child parent : Nat) (name target : Bytes) :
    (synthetic.shadow child parent name target).links.length ≤ synthetic.links.length + 1 := by
  have added := length_add_le synthetic parent name target false
  rw [Synthetic.shadow]
  split
  · exact Nat.le_succ _
  · split
    · next _ same =>
        rw [same] at added
        exact added
    · next _ inode same =>
        rw [same] at added
        dsimp only
        rw [List.length_modify]
        exact added

/-- As many links are served as the message lists, and the environment input. -/
theorem length_serveMessage_le (synthetic : Synthetic) (message : LinkPipe.Message) :
    (serveMessage manifest synthetic message).1.links.length ≤
      synthetic.links.length + message.links.length + message.shadows.length + 1 := by
  have linked : (addLinks manifest synthetic message.dir.bytes message.links).links.length ≤
      synthetic.links.length + message.links.length := by
    rw [addLinks]
    split
    · exact Nat.le_add_right _ _
    · exact size_foldl_le (fun state : Synthetic => state.links.length)
        (fun state item => length_add_le _ _ _ _ _) _ _
  have shadowed (state : Synthetic) : (shadowAll manifest state message.shadows).1.links.length ≤
      state.links.length + message.shadows.length := by
    refine size_foldl_le (fun state : Synthetic × List Notice => state.1.links.length)
      (fun state item => ?_) message.shadows (state, [])
    change (shadowPath manifest state.1 item.1.bytes item.2).1.links.length ≤ _
    rw [shadowPath]
    split
    · exact Nat.le_succ _
    · exact length_shadow_le _ _ _ _ _
  have env (state : Synthetic) :
      (serveViewEnv manifest state message.env).links.length ≤ state.links.length + 1 := by
    rw [serveViewEnv]
    split
    · exact Nat.le_succ _
    · split
      · exact Nat.le_succ _
      · split
        · exact Nat.le_succ _
        · exact length_add_le _ _ _ _ _
  have middle := shadowed (addLinks manifest synthetic message.dir.bytes message.links)
  have last := env (shadowAll manifest (addLinks manifest synthetic message.dir.bytes message.links)
    message.shadows).1
  change (serveViewEnv manifest (shadowAll manifest (addLinks manifest synthetic message.dir.bytes
    message.links) message.shadows).1 message.env).links.length ≤ _
  omega

end Handing

end Onelf.Runtime.FuseTree
