import Onelf.Runtime.Fuse.Tree

/-! What stays as it is while links are added: inodes, names that are not told to be forgotten, and
the order of every directory. -/

namespace Onelf.Runtime.FuseTree

open Onelf.Lib
open Onelf.Runtime.Fuse (entryToInode inodeToEntry)

/-! ### The package's own entries -/

section Children

variable {manifest : Format.Manifest}

theorem entryAt_entryToInode (index : Nat) :
    entryAt manifest (entryToInode index) = manifest.entries[index]? := by
  have named : entryToInode index ≠ 0 := Nat.succ_ne_zero index
  rw [entryAt, if_neg named, entryToInode, inodeToEntry, Nat.add_sub_cancel]

theorem entryAt_eq_some {inode : Nat} {entry : Format.Entry} :
    entryAt manifest inode = some entry ↔
      ∃ index, inode = entryToInode index ∧ manifest.entries[index]? = some entry := by
  cases inode with
  | zero =>
      rw [entryAt, if_pos rfl]
      refine iff_of_false (fun impossible => nomatch impossible) ?_
      rintro ⟨index, zero, _⟩
      cases zero
  | succ index =>
      rw [show index + 1 = entryToInode index from rfl, entryAt_entryToInode]
      constructor
      · exact fun found => ⟨index, rfl, found⟩
      · rintro ⟨other, same, found⟩
        rwa [Nat.succ.inj same]

theorem entryAt_le {inode : Nat} {entry : Format.Entry} (found : entryAt manifest inode = some entry) :
    inode ≤ manifest.entries.length := by
  obtain ⟨index, rfl, held⟩ := entryAt_eq_some.mp found
  exact (List.getElem?_eq_some_iff.mp held).1

/-- The children of one directory among entries with their indices. -/
def ownChildren (inode : Nat) (entries : List (Format.Entry × Nat)) : List Nat :=
  (entries.filter fun (entry, _) =>
    entry.parent ≠ Format.u32Max ∧ entryToInode entry.parent = inode).map fun (_, idx) =>
      entryToInode idx

theorem foldl_children (entries : List (Format.Entry × Nat)) (children : List (List Nat))
    (inode : Nat) :
    (entries.foldl (fun children (entry, idx) =>
      if entry.parent ≠ Format.u32Max then
        children.modify (entryToInode entry.parent) (· ++ [entryToInode idx])
      else children) children)[inode]? =
        children[inode]?.map (· ++ ownChildren inode entries) := by
  induction entries generalizing children with
  | nil => simp [ownChildren]
  | cons placed entries ih =>
      obtain ⟨entry, idx⟩ := placed
      rw [List.foldl_cons, ih]
      dsimp only
      by_cases top : entry.parent = Format.u32Max
      · simp [ownChildren, top]
      · rw [if_pos top, List.getElem?_modify]
        by_cases here : entryToInode entry.parent = inode
        · simp [ownChildren, top, here, Function.comp_def]
        · simp [ownChildren, here]

/-- The children of a directory are the entries it is the parent of, in their order. -/
theorem childrenOf_eq {inode : Nat} (inside : inode ≤ manifest.entries.length) :
    childrenOf manifest inode = ownChildren inode manifest.entries.zipIdx := by
  rw [childrenOf, buildChildren, List.getD_eq_getElem?_getD, foldl_children,
    List.getElem?_replicate, if_pos (by omega), Option.map_some, Option.getD_some, List.nil_append]

theorem childrenOf_beyond {inode : Nat} (beyond : manifest.entries.length < inode) :
    childrenOf manifest inode = [] := by
  rw [childrenOf, buildChildren, List.getD_eq_getElem?_getD, foldl_children,
    List.getElem?_replicate, if_neg (by omega), Option.map_none, Option.getD_none]

theorem mem_childrenOf {inode child : Nat} (member : child ∈ childrenOf manifest inode) :
    ∃ entry, entryAt manifest child = some entry ∧ entry.parent ≠ Format.u32Max ∧
      entryToInode entry.parent = inode := by
  rcases Nat.lt_or_ge manifest.entries.length inode with beyond | inside
  · rw [childrenOf_beyond beyond] at member
    cases member
  · rw [childrenOf_eq inside, ownChildren, List.mem_map] at member
    obtain ⟨⟨entry, idx⟩, kept, rfl⟩ := member
    rw [List.mem_filter, decide_eq_true_eq] at kept
    refine ⟨entry, ?_, kept.2⟩
    rw [entryAt_entryToInode]
    exact List.mem_zipIdx_iff_getElem?.mp kept.1

/-- An entry is the child of one directory. -/
theorem parent_unique {inode other child : Nat} (member : child ∈ childrenOf manifest inode)
    (also : child ∈ childrenOf manifest other) : inode = other := by
  obtain ⟨entry, found, _, here⟩ := mem_childrenOf member
  obtain ⟨again, same, _, there⟩ := mem_childrenOf also
  rw [found, Option.some.injEq] at same
  rw [← here, ← there, same]

theorem child_lt {inode child : Nat} (member : child ∈ childrenOf manifest inode) :
    child < manifest.entries.length + 1 := by
  obtain ⟨entry, found, _⟩ := mem_childrenOf member
  exact Nat.lt_succ_of_le (entryAt_le found)

theorem length_childrenOf_le (inode : Nat) :
    (childrenOf manifest inode).length ≤ manifest.entries.length := by
  rcases Nat.lt_or_ge manifest.entries.length inode with beyond | inside
  · rw [childrenOf_beyond beyond]
    exact Nat.zero_le _
  · rw [childrenOf_eq inside, ownChildren, List.length_map]
    exact (List.length_filter_le _ _).trans List.length_zipIdx.le

end Children

/-! ### Links and shadows -/

section Links

variable {manifest : Format.Manifest} {synthetic later : Synthetic}

/-- A link added behind the others. -/
def Synthetic.push (synthetic : Synthetic) (link : SyntheticLink) : Synthetic :=
  { synthetic with
    byName := synthetic.byName.insert (link.parent, link.name)
      (synthetic.first + synthetic.links.length)
    links := synthetic.links ++ [link] }

/-- The next inode. -/
def Synthetic.next (synthetic : Synthetic) : Nat := synthetic.first + synthetic.links.length

def Synthetic.pushShadow (synthetic : Synthetic) (child : Nat) (link : SyntheticLink) : Synthetic :=
  { synthetic.push link with shadowed := synthetic.shadowed.insert child synthetic.next }

theorem Synthetic.add_of_some {parent inode : Nat} {name : Bytes}
    (held : synthetic.lookup parent name = some inode) (target : Bytes) (file : Bool) :
    synthetic.add parent name target file = (synthetic, none) := by
  rw [Synthetic.add, show synthetic.byName.lookup (parent, name) = some inode from held]

theorem Synthetic.add_of_none {parent : Nat} {name : Bytes}
    (free : synthetic.lookup parent name = none) (target : Bytes) (file : Bool) :
    synthetic.add parent name target file =
      (synthetic.push ⟨parent, name, target, file, false⟩, some synthetic.next) := by
  rw [Synthetic.add, show synthetic.byName.lookup (parent, name) = none from free]
  rfl

theorem Synthetic.shadow_of_none {child parent : Nat} {name : Bytes}
    (plain : synthetic.shadowed.lookup child = none) (free : synthetic.lookup parent name = none)
    (target : Bytes) : synthetic.shadow child parent name target =
      synthetic.pushShadow child ⟨parent, name, target, false, true⟩ := by
  let added : SyntheticLink := ⟨parent, name, target, false, false⟩
  have last : (synthetic.links ++ [added]).modify synthetic.links.length
      (fun link => { link with shadow := true }) =
        synthetic.links ++ [{ added with shadow := true }] := by
    rw [List.modify_eq_take_cons_drop (by simp)]
    simp
  rw [Synthetic.shadow, plain]
  dsimp only
  rw [Synthetic.add_of_none free]
  simp only [Synthetic.push, Synthetic.next, Nat.add_sub_cancel_left, Synthetic.pushShadow]
  rw [last]

theorem Synthetic.get_push (link : SyntheticLink) (inode : Nat) :
    (synthetic.push link).get inode =
      if inode = synthetic.next then some link else synthetic.get inode := by
  rw [Synthetic.get, Synthetic.get, Synthetic.push, Synthetic.next]
  dsimp only
  by_cases below : inode < synthetic.first
  · rw [if_pos below, if_neg (by omega), if_pos below]
  · rw [if_neg below, if_neg below]
    by_cases last : inode = synthetic.first + synthetic.links.length
    · rw [if_pos last, last, Nat.add_sub_cancel_left, List.getElem?_concat_length]
    · rw [if_neg last, List.getElem?_append]
      split
      · rfl
      · rw [List.getElem?_eq_none (by simp only [List.length_singleton]; omega),
          List.getElem?_eq_none (by omega)]

theorem Synthetic.get_next : synthetic.get synthetic.next = none := by
  rw [Synthetic.get, Synthetic.next, if_neg (by omega), Nat.add_sub_cancel_left,
    List.getElem?_eq_none (Nat.le_refl _)]

/-- Adding a link leaves the others where they are. -/
theorem Synthetic.get_push_of_some {inode : Nat} {other : SyntheticLink} (link : SyntheticLink)
    (found : synthetic.get inode = some other) : (synthetic.push link).get inode = some other := by
  rw [Synthetic.get_push, if_neg, found]
  rintro rfl
  rw [Synthetic.get_next] at found
  cases found

/-- What holds of the links and of the one added holds of all. -/
theorem Synthetic.forall_push {holds : SyntheticLink → Prop} {link : SyntheticLink}
    (old : ∀ {inode : Nat} {other : SyntheticLink}, synthetic.get inode = some other → holds other)
    (new : holds link) {inode : Nat} {other : SyntheticLink}
    (found : (synthetic.push link).get inode = some other) : holds other := by
  rw [Synthetic.get_push] at found
  split at found
  · rw [← Option.some.inj found]
    exact new
  · exact old found

theorem Synthetic.lookup_push (link : SyntheticLink) (parent : Nat) (name : Bytes) :
    (synthetic.push link).lookup parent name =
      if parent = link.parent ∧ name = link.name then some synthetic.next
      else synthetic.lookup parent name := by
  rw [Synthetic.lookup, Synthetic.push]
  by_cases same : parent = link.parent ∧ name = link.name
  · rw [if_pos same, same.1, same.2]
    exact AList.lookup_insert _
  · rw [if_neg same]
    exact AList.lookup_insert_ne (by simpa [Prod.ext_iff] using same)

/-- A name as a request can carry it. -/
structure Spelled (name : Bytes) : Prop where
  valid : validUtf8 name = true
  ends : 0 ∉ name
  short : name.length < 256 ^ 4

/-- What adding can do: nothing, a link under a name that nothing has yet, or a link in the place
of a child of its directory, of which the kernel is told. -/
inductive Changes (manifest : Format.Manifest) : Synthetic → Synthetic → List Notice → Prop
  | none (synthetic : Synthetic) (notices : List Notice) : Changes manifest synthetic synthetic notices
  | link (synthetic : Synthetic) (link : SyntheticLink) (plain : link.shadow = false)
      (free : synthetic.lookup link.parent link.name = .none)
      (placed : (entryAt manifest link.parent).isSome) (spelled : Spelled link.name)
      (beside : ∀ child ∈ childrenOf manifest link.parent, entryName manifest child ≠ link.name) :
      Changes manifest synthetic (synthetic.push link) []
  | shadow (synthetic : Synthetic) (child : Nat) (link : SyntheticLink) (stands : link.shadow = true)
      (symlink : link.file = false) (free : synthetic.lookup link.parent link.name = .none)
      (plain : synthetic.shadowed.lookup child = .none)
      (placed : (entryAt manifest link.parent).isSome) (spelled : Spelled link.name)
      (member : child ∈ childrenOf manifest link.parent)
      (named : entryName manifest child = link.name) :
      Changes manifest synthetic (synthetic.pushShadow child link) [⟨link.parent, link.name⟩]
  | trans {synthetic middle later : Synthetic} {first second : List Notice}
      (one : Changes manifest synthetic middle first) (two : Changes manifest middle later second) :
      Changes manifest synthetic later (first ++ second)

/-- What holds of the links served: the tables are of one mind with them, what shadows an entry
has its name, and what shadows none has a name of its own. -/
structure Sound (manifest : Format.Manifest) (synthetic : Synthetic) : Prop where
  first : synthetic.first = manifest.entries.length + 1
  named : ∀ {parent inode : Nat} {name : Bytes}, synthetic.lookup parent name = some inode ↔
    ∃ link, synthetic.get inode = some link ∧ link.parent = parent ∧ link.name = name
  shadowed : ∀ {child inode : Nat}, synthetic.shadowed.lookup child = some inode →
    ∃ link, synthetic.get inode = some link ∧ link.shadow = true ∧ link.file = false ∧
      child ∈ childrenOf manifest link.parent ∧ entryName manifest child = link.name
  standsIn : ∀ {inode : Nat} {link : SyntheticLink}, synthetic.get inode = some link →
    link.shadow = true → ∃ child, synthetic.shadowed.lookup child = some inode
  beside : ∀ {inode : Nat} {link : SyntheticLink}, synthetic.get inode = some link →
    link.shadow = false →
      ∀ child ∈ childrenOf manifest link.parent, entryName manifest child ≠ link.name
  placed : ∀ {inode : Nat} {link : SyntheticLink}, synthetic.get inode = some link →
    (entryAt manifest link.parent).isSome
  spelled : ∀ {inode : Nat} {link : SyntheticLink}, synthetic.get inode = some link →
    Spelled link.name

theorem new_sound (manifest : Format.Manifest) : Sound manifest (Synthetic.new manifest) := by
  have none (inode : Nat) : (Synthetic.new manifest).get inode = .none := by
    rw [Synthetic.get, Synthetic.new]
    split
    · rfl
    · exact List.getElem?_nil
  have unnamed (parent : Nat) (name : Bytes) :
      (Synthetic.new manifest).lookup parent name = .none := AList.lookup_empty _
  have plain (child : Nat) : (Synthetic.new manifest).shadowed.lookup child = .none :=
    AList.lookup_empty _
  exact {
    first := rfl
    named := by simp [none, unnamed]
    shadowed := by simp [plain]
    standsIn := by simp [none]
    beside := by simp [none]
    placed := by simp [none]
    spelled := by simp [none] }

namespace Sound

/-- The new link is under the new inode, and the others where they were. -/
theorem named_push (sound : Sound manifest synthetic) {link : SyntheticLink}
    (free : synthetic.lookup link.parent link.name = none) {parent inode : Nat} {name : Bytes} :
    (synthetic.push link).lookup parent name = some inode ↔
      ∃ other, (synthetic.push link).get inode = some other ∧ other.parent = parent ∧
        other.name = name := by
  rw [Synthetic.lookup_push, Synthetic.get_push]
  by_cases here : inode = synthetic.next
  · rw [if_pos here]
    subst here
    split
    · next same =>
        exact iff_of_true rfl ⟨link, rfl, same.1.symm, same.2.symm⟩
    · next other =>
        refine iff_of_false (fun found => ?_) ?_
        · obtain ⟨old, held, _⟩ := sound.named.mp found
          rw [Synthetic.get_next] at held
          cases held
        · rintro ⟨_, held, sameParent, sameName⟩
          rw [← Option.some.inj held] at sameParent sameName
          exact other ⟨sameParent.symm, sameName.symm⟩
  · rw [if_neg here]
    split
    · next same =>
        refine iff_of_false (fun found => here (Option.some.inj found).symm) fun old => ?_
        rw [same.1, same.2, ← sound.named, free] at old
        cases old
    · exact sound.named

theorem push (sound : Sound manifest synthetic) {link : SyntheticLink} (plain : link.shadow = false)
    (free : synthetic.lookup link.parent link.name = none)
    (placed : (entryAt manifest link.parent).isSome) (spelled : Spelled link.name)
    (beside : ∀ child ∈ childrenOf manifest link.parent, entryName manifest child ≠ link.name) :
    Sound manifest (synthetic.push link) where
  first := sound.first
  named := sound.named_push free
  shadowed held := by
    obtain ⟨old, found, rest⟩ := sound.shadowed held
    exact ⟨old, Synthetic.get_push_of_some link found, rest⟩
  standsIn := by
    intro inode other found stands
    rw [Synthetic.get_push] at found
    split at found
    · rw [← Option.some.inj found, plain] at stands
      cases stands
    · exact sound.standsIn found stands
  beside := Synthetic.forall_push sound.beside fun _ => beside
  placed := Synthetic.forall_push sound.placed placed
  spelled := Synthetic.forall_push sound.spelled spelled

theorem pushShadow (sound : Sound manifest synthetic) {child : Nat} {link : SyntheticLink}
    (stands : link.shadow = true) (symlink : link.file = false)
    (free : synthetic.lookup link.parent link.name = none)
    (placed : (entryAt manifest link.parent).isSome) (spelled : Spelled link.name)
    (member : child ∈ childrenOf manifest link.parent)
    (named : entryName manifest child = link.name) :
    Sound manifest (synthetic.pushShadow child link) where
  first := sound.first
  named := sound.named_push free
  shadowed := by
    intro other inode held
    change (synthetic.shadowed.insert child synthetic.next).lookup other = some inode at held
    change ∃ link, (synthetic.push _).get inode = some link ∧ _
    by_cases same : other = child
    · subst same
      rw [AList.lookup_insert, Option.some.injEq] at held
      rw [Synthetic.get_push, if_pos held.symm]
      exact ⟨link, rfl, stands, symlink, member, named⟩
    · rw [AList.lookup_insert_ne same] at held
      obtain ⟨old, found, rest⟩ := sound.shadowed held
      exact ⟨old, Synthetic.get_push_of_some link found, rest⟩
  standsIn := by
    intro inode other found standing
    change (synthetic.push _).get inode = some other at found
    change ∃ entry, (synthetic.shadowed.insert child synthetic.next).lookup entry = some inode
    rw [Synthetic.get_push] at found
    split at found
    · next same =>
        refine ⟨child, ?_⟩
        rw [AList.lookup_insert, same]
    · obtain ⟨entry, held⟩ := sound.standsIn found standing
      refine ⟨entry, ?_⟩
      rw [AList.lookup_insert_ne, held]
      rintro rfl
      obtain ⟨old, _, _, _, oldMember, oldNamed⟩ := sound.shadowed held
      have sameParent := parent_unique oldMember member
      rw [named] at oldNamed
      have taken := sound.named.mpr ⟨old, ‹_›, sameParent, oldNamed.symm⟩
      rw [free] at taken
      cases taken
  beside found := by
    refine Synthetic.forall_push sound.beside ?_ (show (synthetic.push link).get _ = _ from found)
    rw [stands]
    exact nofun
  placed := Synthetic.forall_push sound.placed placed
  spelled := Synthetic.forall_push sound.spelled spelled

end Sound

theorem Changes.sound {notices : List Notice} (changes : Changes manifest synthetic later notices)
    (sound : Sound manifest synthetic) : Sound manifest later := by
  induction changes with
  | none => exact sound
  | link synthetic link plain free placed spelled beside =>
      exact sound.push plain free placed spelled beside
  | shadow synthetic child link stands symlink free plain placed spelled member named =>
      exact sound.pushShadow stands symlink free placed spelled member named
  | trans _ _ first second => exact second (first sound)

/-- An inode once given keeps its link. -/
theorem Changes.get {notices : List Notice} (changes : Changes manifest synthetic later notices)
    {inode : Nat} {link : SyntheticLink} (found : synthetic.get inode = some link) :
    later.get inode = some link := by
  induction changes with
  | none => exact found
  | link => exact Synthetic.get_push_of_some _ found
  | shadow => exact Synthetic.get_push_of_some _ found
  | trans _ _ first second => exact second (first found)

/-- A name once given keeps its inode. -/
theorem Changes.lookup {notices : List Notice} (changes : Changes manifest synthetic later notices)
    (sound : Sound manifest synthetic) {parent inode : Nat} {name : Bytes}
    (found : synthetic.lookup parent name = some inode) : later.lookup parent name = some inode := by
  obtain ⟨link, held, named⟩ := sound.named.mp found
  exact (changes.sound sound).named.mpr ⟨link, changes.get held, named⟩

/-- What shadows an entry stays, and another name's entry is shadowed no more than it was. -/
theorem Changes.shadowed {notices : List Notice} (changes : Changes manifest synthetic later notices)
    {parent child : Nat} (member : child ∈ childrenOf manifest parent)
    (kept : ⟨parent, entryName manifest child⟩ ∉ notices) :
    later.shadowed.lookup child = synthetic.shadowed.lookup child := by
  induction changes with
  | none => rfl
  | link => rfl
  | shadow synthetic other link _ _ _ _ _ _ otherMember named =>
      refine AList.lookup_insert_ne ?_
      rintro rfl
      have same := parent_unique member otherMember
      rw [same, named] at kept
      exact kept List.mem_cons_self
  | trans _ _ first second =>
      rw [List.mem_append, not_or] at kept
      rw [second kept.2, first kept.1]

/-- A directory's links keep their order. -/
theorem Changes.children {notices : List Notice} (changes : Changes manifest synthetic later notices)
    (inode : Nat) : synthetic.children inode <+: later.children inode := by
  have pushed (synthetic : Synthetic) (link : SyntheticLink) :
      synthetic.children inode <+: (synthetic.push link).children inode := by
    rw [Synthetic.children, Synthetic.children, Synthetic.push]
    dsimp only
    rw [List.zipIdx_append, List.filter_append, List.map_append]
    exact List.prefix_append _ _
  induction changes with
  | none => exact List.prefix_rfl
  | link => exact pushed _ _
  | shadow => exact pushed _ _
  | trans _ _ first second => exact first.trans second

theorem Sound.lt_next (sound : Sound manifest synthetic) {inode : Nat} {link : SyntheticLink}
    (found : synthetic.get inode = some link) :
    manifest.entries.length < inode ∧
      inode < manifest.entries.length + 1 + synthetic.links.length := by
  rw [Synthetic.get, sound.first] at found
  split at found
  · cases found
  · have inside := (List.getElem?_eq_some_iff.mp found).1
    omega

theorem Sound.get_child (sound : Sound manifest synthetic) {inode : Nat} {entry : Format.Entry}
    (found : entryAt manifest inode = some entry) : synthetic.get inode = none := by
  have below := entryAt_le found
  rw [Synthetic.get, sound.first, if_pos (by omega)]

/-- A child is served as itself where nothing shadows it. -/
theorem Sound.served_eq_iff (sound : Sound manifest synthetic) {parent child : Nat}
    (member : child ∈ childrenOf manifest parent) :
    synthetic.served child = child ↔ synthetic.shadowed.lookup child = none := by
  rw [Synthetic.served]
  cases held : synthetic.shadowed.lookup child with
  | none => exact iff_of_true rfl rfl
  | some inode =>
      refine iff_of_false (fun same => ?_) (fun impossible => nomatch impossible)
      rw [Option.getD_some] at same
      obtain ⟨link, found, _⟩ := sound.shadowed held
      have above := (sound.lt_next found).1
      have below := child_lt member
      omega

/-- A link is served in the place of what it shadows. -/
theorem Sound.get_served (sound : Sound manifest synthetic) {parent child : Nat}
    (member : child ∈ childrenOf manifest parent) (other : synthetic.served child ≠ child) :
    ∃ link, synthetic.get (synthetic.served child) = some link ∧ link.file = false ∧
      entryName manifest child = link.name := by
  cases held : synthetic.shadowed.lookup child with
  | none => exact absurd ((sound.served_eq_iff member).mpr held) other
  | some inode =>
      obtain ⟨link, found, _, symlink, _, named⟩ := sound.shadowed held
      rw [Synthetic.served, held, Option.getD_some]
      exact ⟨link, found, symlink, named⟩

end Links

/-! ### Answers -/

namespace Tree

variable {tree : Tree}

/-- The tree with other links. -/
def serving (tree : Tree) (later : Synthetic) : Tree := { tree with synthetic := later }

theorem childNamed_eq_some {parent child : Nat} {name : Bytes}
    (found : tree.childNamed parent name = some child) :
    child ∈ childrenOf tree.manifest parent ∧ entryName tree.manifest child = name := by
  refine ⟨List.mem_of_find?_eq_some found, ?_⟩
  simpa using List.find?_some found

theorem linkAttr_ino {inode : Nat} {link : SyntheticLink} {attr : FuseAttr}
    (held : tree.linkAttr inode link = some attr) : attr.ino = inode := by
  obtain ⟨dir, _, rfl⟩ := Option.map_eq_some_iff.mp held
  rfl

theorem entryAttr_ino {inode : Nat} {attr : FuseAttr} (held : tree.entryAttr inode = some attr) :
    attr.ino = inode := by
  obtain ⟨entry, _, rfl⟩ := Option.map_eq_some_iff.mp held
  rfl

theorem syntheticAttr_eq {inode : Nat} {link : SyntheticLink}
    (found : tree.synthetic.get inode = some link) :
    tree.syntheticAttr inode = tree.linkAttr inode link := by
  rw [syntheticAttr, found, Option.bind_some]

variable {later : Synthetic} {notices : List Notice}

section
variable (sound : Sound tree.manifest tree.synthetic)
include sound

/-- The attributes under a name are those of its inode. -/
theorem attr_of_resolve {parent : Nat} {name : Bytes} {attr : FuseAttr}
    (found : tree.resolve parent name = some attr) : tree.attr attr.ino = some attr := by
  have linked {inode : Nat} (held : tree.syntheticAttr inode = some attr) :
      tree.attr attr.ino = some attr := by
    obtain ⟨link, got, made⟩ := Option.bind_eq_some_iff.mp held
    rw [linkAttr_ino made, Tree.attr, got]
    exact made
  rw [resolve] at found
  split at found
  · split at found
    · exact linked found
    · have same := entryAttr_ino found
      obtain ⟨entry, at_, _⟩ := Option.map_eq_some_iff.mp found
      rw [same, Tree.attr, sound.get_child at_]
      exact found
  · obtain ⟨inode, _, held⟩ := Option.bind_eq_some_iff.mp found
    exact linked held

variable (changes : Changes tree.manifest tree.synthetic later notices)
include changes

/-- The attributes of an inode do not change. -/
theorem attr_serving {inode : Nat} {attr : FuseAttr} (found : tree.attr inode = some attr) :
    (tree.serving later).attr inode = some attr := by
  rw [Tree.attr] at found
  split at found
  · next link got =>
      rw [Tree.attr, serving, changes.get got]
      exact found
  · obtain ⟨entry, at_, _⟩ := Option.map_eq_some_iff.mp found
    rw [Tree.attr, serving, (changes.sound sound).get_child at_]
    exact found

omit sound in
theorem syntheticAttr_serving {inode : Nat} {attr : FuseAttr}
    (found : tree.syntheticAttr inode = some attr) :
    (tree.serving later).syntheticAttr inode = some attr := by
  obtain ⟨link, got, made⟩ := Option.bind_eq_some_iff.mp found
  rw [syntheticAttr, serving, changes.get got]
  exact made

/-- What is served under a name does not change, unless the kernel is told so. -/
theorem resolve_serving {parent : Nat} {name : Bytes} {attr : FuseAttr}
    (kept : ⟨parent, name⟩ ∉ notices) (found : tree.resolve parent name = some attr) :
    (tree.serving later).resolve parent name = some attr := by
  have linked {inode : Nat} (held : tree.syntheticAttr inode = some attr) :
      (tree.serving later).syntheticAttr inode = some attr := syntheticAttr_serving changes held
  rw [resolve] at found
  rw [resolve, show (tree.serving later).childNamed = tree.childNamed from rfl]
  split at found
  · next child named =>
      obtain ⟨member, same⟩ := childNamed_eq_some named
      rw [← same] at kept
      have served : later.served child = tree.synthetic.served child := by
        rw [Synthetic.served, changes.shadowed member kept, Synthetic.served]
      change (if later.served child ≠ child then
        (tree.serving later).syntheticAttr (later.served child) else tree.entryAttr child) = _
      rw [served]
      split at found
      · next other =>
          rw [if_pos other]
          exact linked found
      · next own =>
          rw [if_neg own]
          exact found
  · next unnamed =>
      obtain ⟨inode, named, held⟩ := Option.bind_eq_some_iff.mp found
      change (later.lookup parent name).bind _ = _
      rw [changes.lookup sound named, Option.bind_some]
      exact linked held

end

end Tree

end Onelf.Runtime.FuseTree
