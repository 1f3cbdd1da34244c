import Mathlib.Data.Nat.Bitwise
import Onelf.Runtime.Fuse.Beside

/-! Directory listings: the rows of a directory, the names they resolve to, and the bytes they are
sent in. -/

namespace Onelf.Runtime.FuseTree

open Onelf.Lib
open Onelf.Runtime.Fuse (entryToInode inodeToEntry)

/-- No two entries of a directory share a name. -/
def Apart (manifest : Format.Manifest) : Prop :=
  ∀ inode, ((childrenOf manifest inode).map (entryName manifest)).Nodup

namespace Tree

variable {tree : Tree}

/-- The names a directory lists: its own and its parent's dots, the package's entries, and the
links beside them. -/
def labels (tree : Tree) (inode : Nat) : List Bytes :=
  utf8 "." :: utf8 ".." :: ((childrenOf tree.manifest inode).map (entryName tree.manifest) ++
    (tree.synthetic.children inode).map fun listed => listed.2.name)

theorem length_labels (tree : Tree) (inode : Nat) :
    (tree.labels inode).length = tree.totalEntries inode := by
  rw [labels, totalEntries, List.length_cons, List.length_cons, List.length_append, List.length_map,
    List.length_map]
  omega

/-- Names are only ever added at the end of a listing. -/
theorem labels_serving {later : Synthetic} {notices : List Notice}
    (changes : Changes tree.manifest tree.synthetic later notices) (inode : Nat) :
    tree.labels inode <+: (tree.serving later).labels inode := by
  obtain ⟨more, grown⟩ := changes.children inode
  refine ⟨more.map fun listed => listed.2.name, ?_⟩
  change _ = utf8 "." :: utf8 ".." :: ((childrenOf tree.manifest inode).map
    (entryName tree.manifest) ++ (later.children inode).map fun listed => listed.2.name)
  rw [← grown, List.map_append, labels, List.cons_append, List.cons_append, List.append_assoc]

theorem mem_children {inode at_ : Nat} {link : SyntheticLink}
    (member : (at_, link) ∈ tree.synthetic.children inode) :
    tree.synthetic.get at_ = some link ∧ link.parent = inode ∧ link.shadow = false := by
  obtain ⟨⟨other, i⟩, kept, same⟩ := List.mem_map.mp member
  rw [List.mem_filter, decide_eq_true_eq] at kept
  obtain ⟨rfl, rfl⟩ := Prod.mk.inj same
  refine ⟨?_, kept.2.1, by simpa using kept.2.2⟩
  rw [Synthetic.get, if_neg (by omega), Nat.add_sub_cancel_left]
  exact List.mem_zipIdx_iff_getElem?.mp kept.1

/-- The dots have no attributes. -/
theorem behind_of_attr {inode : Nat} {entry : Format.Entry} {i : Nat} {row : Row} {attr : FuseAttr}
    (found : tree.rowAt inode entry i = some row) (has : row.attr = some attr) :
    ∃ k, i = k + 2 := by
  rcases i with _ | _ | k
  · rw [← Option.some.inj found] at has
    cases has
  · rw [← Option.some.inj found] at has
    cases has
  · exact ⟨k, rfl⟩

section
variable (sound : Sound tree.manifest tree.synthetic)
include sound

/-! ### Rows and names -/

/-- A child's row has the child's name, whatever shadows it. -/
theorem childRow_name {inode child : Nat} (member : child ∈ childrenOf tree.manifest inode) :
    (tree.childRow child).map Row.name = some (entryName tree.manifest child) := by
  rw [childRow]
  split
  · next other =>
      obtain ⟨link, found, _, named⟩ := sound.get_served member other
      rw [found, Option.map_some, Option.map_some, named]
  · obtain ⟨entry, found, _⟩ := mem_childrenOf member
    rw [entryName, found]
    rfl

theorem rowAt_name (inode : Nat) (entry : Format.Entry) (i : Nat) :
    (tree.rowAt inode entry i).map Row.name = (tree.labels inode)[i]? := by
  match i with
  | 0 => rfl
  | 1 => rfl
  | i + 2 =>
      rw [rowAt, labels, List.getElem?_cons_succ, List.getElem?_cons_succ]
      rcases Nat.lt_or_ge i (childrenOf tree.manifest inode).length with own | beyond
      · rw [List.getElem?_append_left (by rwa [List.length_map]), List.getElem?_map,
          List.getElem?_eq_getElem own, Option.map_some]
        exact childRow_name sound (List.getElem_mem own)
      · rw [List.getElem?_append_right (by rwa [List.length_map]), List.length_map,
          List.getElem?_map, List.getElem?_eq_none beyond, Option.map_map]
        rfl

theorem rowAt_isSome (inode : Nat) (entry : Format.Entry) {i : Nat}
    (inside : i < tree.totalEntries inode) : (tree.rowAt inode entry i).isSome := by
  rw [← Option.isSome_map (f := Row.name), rowAt_name sound, ← length_labels] at *
  rw [List.getElem?_eq_getElem inside]
  rfl

/-- No row is left out. -/
theorem rowsFrom_places (inode : Nat) (entry : Format.Entry) (start : Nat) :
    (tree.rowsFrom inode entry start).map Prod.fst =
      List.range' start (tree.totalEntries inode - start) := by
  rw [rowsFrom, List.map_filterMap]
  refine Eq.trans (List.filterMap_congr (g := some) fun i member => ?_) List.filterMap_some
  rw [List.mem_range'_1] at member
  obtain ⟨row, found⟩ := Option.isSome_iff_exists.mp
    (rowAt_isSome sound inode entry (by omega : i < tree.totalEntries inode))
  rw [found]
  rfl

theorem rowsFrom_names (inode : Nat) (entry : Format.Entry) (start : Nat) :
    (tree.rowsFrom inode entry start).map (fun placed => placed.2.name) =
      (tree.labels inode).drop start := by
  have each (i : Nat) : ((tree.rowAt inode entry i).map fun row => (i, row)).map
      (fun placed => placed.2.name) = (tree.labels inode)[i]? := by
    rw [← rowAt_name sound inode entry i, Option.map_map]
    rfl
  rw [rowsFrom, List.map_filterMap]
  simp only [each, ← length_labels]
  exact filterMap_getElem? _ _

/-! ### Rows and lookups -/

theorem get_of_named {inode at_ : Nat} {name : Bytes}
    (found : tree.synthetic.lookup inode name = some at_)
    (unnamed : tree.childNamed inode name = none) :
    ∃ link, (at_, link) ∈ tree.synthetic.children inode ∧ link.name = name := by
  obtain ⟨link, got, parent, named⟩ := sound.named.mp found
  have apart : link.shadow = false := by
    by_contra stands
    obtain ⟨child, held⟩ := sound.standsIn got (Bool.eq_true_of_not_eq_false stands)
    obtain ⟨same, also, _, _, member, own⟩ := sound.shadowed held
    rw [got, Option.some.injEq] at also
    rw [← also, parent] at member
    rw [← also, named] at own
    exact List.find?_eq_none.mp unnamed child member (decide_eq_true own)
  have above := (sound.lt_next got).1
  rw [Synthetic.get, sound.first, if_neg (by omega)] at got
  refine ⟨link, List.mem_map.mpr ⟨(link, at_ - tree.synthetic.first), ?_, ?_⟩, named⟩
  · rw [List.mem_filter, List.mem_zipIdx_iff_getElem?, sound.first]
    exact ⟨got, by simp [parent, apart]⟩
  · have start := sound.first
    exact Prod.ext (by change _ + (_ - _) = _; omega) rfl

/-- A link's own row is what its name resolves to. -/
theorem resolve_of_link {inode at_ : Nat} {link : SyntheticLink}
    (member : (at_, link) ∈ tree.synthetic.children inode) :
    ∃ attr, tree.linkAttr at_ link = some attr ∧ tree.resolve inode link.name = some attr := by
  obtain ⟨got, parent, apart⟩ := mem_children member
  obtain ⟨dir, placed⟩ := Option.isSome_iff_exists.mp (sound.placed got)
  have unnamed : tree.childNamed inode link.name = none := by
    rw [childNamed, List.find?_eq_none]
    intro child among same
    exact sound.beside got apart child (by rwa [parent]) (of_decide_eq_true same)
  have found : tree.synthetic.lookup inode link.name = some at_ :=
    sound.named.mpr ⟨link, got, parent, rfl⟩
  refine ⟨_, Option.map_eq_some_iff.mpr ⟨dir, placed, rfl⟩, ?_⟩
  rw [resolve, unnamed]
  dsimp only
  rw [found, Option.bind_some, syntheticAttr_eq got]
  exact Option.map_eq_some_iff.mpr ⟨dir, placed, rfl⟩

variable (apart : Apart tree.manifest)

omit sound in
include apart in
theorem childNamed_of_mem {inode child : Nat} (member : child ∈ childrenOf tree.manifest inode) :
    tree.childNamed inode (entryName tree.manifest child) = some child := by
  rw [childNamed]
  cases found : (childrenOf tree.manifest inode).find? fun other =>
      decide (entryName tree.manifest other = entryName tree.manifest child) with
  | none => exact absurd (decide_eq_true rfl) (List.find?_eq_none.mp found child member)
  | some other =>
      have same : entryName tree.manifest other = entryName tree.manifest child := by
        simpa using List.find?_some found
      rw [List.inj_on_of_nodup_map (apart inode) (List.mem_of_find?_eq_some found) member same]

include apart

/-- A child's row is what its name resolves to. -/
theorem resolve_of_child {inode child : Nat} (member : child ∈ childrenOf tree.manifest inode)
    {row : Row} (found : tree.childRow child = some row) :
    ∃ attr, row.attr = some attr ∧ tree.resolve inode row.name = some attr := by
  have name := childRow_name sound member
  rw [found, Option.map_some, Option.some.injEq] at name
  rw [name, resolve, childNamed_of_mem apart member]
  dsimp only
  rw [childRow] at found
  split at found
  · next other =>
      obtain ⟨link, got, rfl⟩ := Option.map_eq_some_iff.mp found
      obtain ⟨dir, placed⟩ := Option.isSome_iff_exists.mp (sound.placed got)
      rw [if_pos other, syntheticAttr_eq got]
      exact ⟨_, Option.map_eq_some_iff.mpr ⟨dir, placed, rfl⟩,
        Option.map_eq_some_iff.mpr ⟨dir, placed, rfl⟩⟩
  · next own =>
      obtain ⟨entry, held, rfl⟩ := Option.map_eq_some_iff.mp found
      rw [if_neg own]
      exact ⟨_, rfl, Option.map_eq_some_iff.mpr ⟨entry, held, rfl⟩⟩

/-- Every row behind the dots is what its name resolves to. -/
theorem resolve_of_row {inode : Nat} {entry : Format.Entry} {i : Nat} {row : Row}
    (found : tree.rowAt inode entry (i + 2) = some row) :
    ∃ attr, row.attr = some attr ∧ tree.resolve inode row.name = some attr := by
  rw [rowAt] at found
  split at found
  · next child own => exact resolve_of_child sound apart (List.mem_of_getElem? own) found
  · obtain ⟨⟨at_, link⟩, listed, rfl⟩ := Option.map_eq_some_iff.mp found
    exact resolve_of_link sound (List.mem_of_getElem? listed)

/-- A row's attributes are what its name resolves to. -/
theorem resolve_of_attr {inode : Nat} {entry : Format.Entry} {i : Nat} {row : Row} {attr : FuseAttr}
    (found : tree.rowAt inode entry i = some row) (has : row.attr = some attr) :
    tree.resolve inode row.name = some attr := by
  obtain ⟨k, rfl⟩ := behind_of_attr found has
  obtain ⟨same, held, resolved⟩ := resolve_of_row sound apart found
  rw [has, Option.some.injEq] at held
  rw [held]
  exact resolved

/-- The names a directory lists behind the dots are the names that resolve in it. -/
theorem mem_labels_iff (inode : Nat) (name : Bytes) :
    name ∈ (tree.labels inode).drop 2 ↔ (tree.resolve inode name).isSome := by
  rw [labels, List.drop_succ_cons, List.drop_succ_cons, List.drop_zero, List.mem_append]
  constructor
  · rintro (own | listed)
    · obtain ⟨child, member, rfl⟩ := List.mem_map.mp own
      have name := childRow_name sound member
      obtain ⟨row, found, named⟩ := Option.map_eq_some_iff.mp name
      obtain ⟨attr, _, resolved⟩ := resolve_of_child sound apart member found
      rw [← named, resolved]
      rfl
    · obtain ⟨⟨at_, link⟩, member, rfl⟩ := List.mem_map.mp listed
      obtain ⟨attr, _, resolved⟩ := resolve_of_link sound member
      rw [resolved]
      rfl
  · intro served
    cases named : tree.childNamed inode name with
    | some child =>
        obtain ⟨member, same⟩ := childNamed_eq_some named
        exact Or.inl (List.mem_map.mpr ⟨child, member, same⟩)
    | none =>
        rw [resolve, named] at served
        cases found : tree.synthetic.lookup inode name with
        | none =>
            rw [found] at served
            cases served
        | some at_ =>
            obtain ⟨link, member, same⟩ := get_of_named sound found named
            exact Or.inr (List.mem_map.mpr ⟨(at_, link), member, same⟩)

/-- No name is listed twice. -/
theorem nodup_labels (inode : Nat) : ((tree.labels inode).drop 2).Nodup := by
  rw [labels, List.drop_succ_cons, List.drop_succ_cons, List.drop_zero, List.nodup_append]
  refine ⟨apart inode, ?_, ?_⟩
  · refine List.Nodup.map_on ?_ ?_
    · rintro ⟨first, link⟩ member ⟨second, other⟩ also same
      obtain ⟨got, parent, _⟩ := mem_children member
      obtain ⟨gotOther, parentOther, _⟩ := mem_children also
      have one := sound.named.mpr ⟨link, got, parent, rfl⟩
      have two := sound.named.mpr ⟨other, gotOther, parentOther, rfl⟩
      change link.name = other.name at same
      rw [same, two, Option.some.injEq] at one
      rw [← one, gotOther, Option.some.injEq] at got
      rw [one, got]
    · have numbered : (tree.synthetic.links.zipIdx.map Prod.snd).Nodup := by
        rw [List.zipIdx_map_snd]
        exact List.nodup_range'
      rw [Synthetic.children]
      refine ((numbered.of_map _).filter _).map_on ?_
      rintro ⟨link, i⟩ _ ⟨other, j⟩ _ same
      obtain ⟨sum, linked⟩ := Prod.mk.inj same
      rw [linked, Nat.add_left_cancel sum]
  · intro name own other listed same
    obtain ⟨child, member, rfl⟩ := List.mem_map.mp own
    obtain ⟨⟨at_, link⟩, among, rfl⟩ := List.mem_map.mp listed
    obtain ⟨got, parent, plain⟩ := mem_children among
    exact sound.beside got plain child (by rwa [parent]) same

end

/-! ### Types and modes -/

theorem rowAt_typ {inode : Nat} {entry : Format.Entry} {i : Nat} {row : Row}
    (found : tree.rowAt inode entry i = some row) : ∃ kind, row.typ = dirType kind := by
  match i with
  | 0 => exact ⟨.dir, by rw [← Option.some.inj found]⟩
  | 1 => exact ⟨.dir, by rw [← Option.some.inj found]⟩
  | i + 2 =>
      rw [rowAt] at found
      split at found
      · rw [childRow] at found
        split at found
        · obtain ⟨link, _, rfl⟩ := Option.map_eq_some_iff.mp found
          exact ⟨.symlink, rfl⟩
        · obtain ⟨entry, _, rfl⟩ := Option.map_eq_some_iff.mp found
          exact ⟨entry.kind, rfl⟩
      · obtain ⟨⟨at_, link⟩, _, rfl⟩ := Option.map_eq_some_iff.mp found
        exact ⟨_, rfl⟩

/-- The file type bits of a mode. -/
def typeOf (mode : Nat) : Nat := mode >>> 12

theorem typeOf_permissions (kind mode : Nat) :
    typeOf (kind ||| (mode &&& 0o7777)) = typeOf kind := by
  have none : (mode &&& 0o7777) >>> 12 = 0 := by
    rw [Nat.shiftRight_eq_div_pow]
    exact Nat.div_eq_of_lt (lt_of_le_of_lt Nat.and_le_right (by decide))
  rw [typeOf, Nat.shiftRight_or_distrib, none, Nat.or_zero, typeOf]

theorem typeOf_makeAttr (owner : Owner) (manifest : Format.Manifest) (inode : Nat)
    (entry : Format.Entry) :
    typeOf (makeAttr owner manifest inode entry).mode = dirType entry.kind := by
  rw [makeAttr]
  dsimp only
  cases entry.kind with
  | dir => exact typeOf_permissions 0o040000 _
  | file => exact typeOf_permissions 0o100000 _
  | symlink => exact typeOf_permissions 0o120000 0o777

theorem typeOf_linkAttr {inode : Nat} {link : SyntheticLink} {attr : FuseAttr}
    (made : tree.linkAttr inode link = some attr) :
    typeOf attr.mode = dirType (if link.file then .file else .symlink) := by
  obtain ⟨dir, _, rfl⟩ := Option.map_eq_some_iff.mp made
  dsimp only
  cases link.file <;> rfl

/-- A row's inode and type are those of its attributes. -/
theorem row_agrees (sound : Sound tree.manifest tree.synthetic) {inode : Nat} {entry : Format.Entry}
    {i : Nat} {row : Row} (found : tree.rowAt inode entry i = some row) {attr : FuseAttr}
    (has : row.attr = some attr) : attr.ino = row.ino ∧ row.typ = typeOf attr.mode := by
  obtain ⟨k, rfl⟩ := behind_of_attr found has
  rw [rowAt] at found
  split at found
  · next child own =>
      rw [childRow] at found
      split at found
      · next other =>
          obtain ⟨link, got, rfl⟩ := Option.map_eq_some_iff.mp found
          obtain ⟨same, gotSame, symlink, _⟩ := sound.get_served (List.mem_of_getElem? own) other
          rw [gotSame, Option.some.injEq] at got
          refine ⟨linkAttr_ino has, ?_⟩
          rw [typeOf_linkAttr has, ← got, symlink]
          rfl
      · obtain ⟨entry, _, rfl⟩ := Option.map_eq_some_iff.mp found
        rw [← Option.some.inj has]
        exact ⟨rfl, (typeOf_makeAttr _ _ _ _).symm⟩
  · obtain ⟨⟨at_, link⟩, _, rfl⟩ := Option.map_eq_some_iff.mp found
    exact ⟨linkAttr_ino has, (typeOf_linkAttr has).symm⟩

end Tree

end Onelf.Runtime.FuseTree
