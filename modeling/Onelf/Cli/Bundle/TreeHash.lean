import Onelf.Lib.Path
import Onelf.Lib.TreeWalk
import Onelf.Lib.Utf8

/-! The aggregate hash of a planned directory (`tree_hash` of `plan.rs`). -/

namespace Onelf.Cli.Bundle.TreeHash

open Onelf.Lib

def treeWalkLimit : Nat := 100000

def treeWalkDepth : Nat := 64

/-- What an entry is that is no directory, read without following it. -/
inductive Leaf where
  | file (content : Bytes)
  | link (target : Bytes)
  | special
  deriving DecidableEq

abbrev Listed : Type := List (Bytes × FileTree Bytes Leaf)

/-- A directory and what lies below it, the entries of each in the order they are read. -/
structure SourceTree where
  entries : Listed
  named : FileTree.wellNamed (.dir entries)
  safe : ∀ path, FileTree.find path (.dir entries) ≠ none →
    ∀ name ∈ path, isSafeComponent name = true

/-- The bounds a walk may pass. -/
inductive Unplanned where
  | tooDeep
  | tooMany
  deriving DecidableEq

/-- The text that has gone into the hash, the entries seen and the directories still to be read. -/
structure Walking where
  text : Bytes
  visited : Nat
  stack : List (List Bytes × Listed × Nat)

/-- What an entry adds to the hash; absolute links and special files add nothing. -/
def leafText (path : List Bytes) : Leaf → Bytes
  | .file content => joinPath path ++ 0 :: (utf8 "file " ++ content)
  | .link target =>
      if target.head? = some 47 then [] else joinPath path ++ 0 :: (utf8 "link " ++ target)
  | .special => []

/-- One entry of a directory that is being read. -/
def visit (rel : List Bytes) (depth : Nat) (walking : Walking)
    (entry : Bytes × FileTree Bytes Leaf) : Except Unplanned Walking :=
  if treeWalkLimit < walking.visited + 1 then .error .tooMany
  else
    match entry.2 with
    | .dir below => .ok
        { walking with
          visited := walking.visited + 1
          stack := (rel ++ [entry.1], below, depth + 1) :: walking.stack }
    | .leaf leaf => .ok
        { walking with
          text := walking.text ++ leafText (rel ++ [entry.1]) leaf
          visited := walking.visited + 1 }

/-- A stack without its depths. -/
def bare (stack : List (List Bytes × Listed × Nat)) : List (List Bytes × Listed) :=
  stack.map fun waiting => (waiting.1, waiting.2.1)

theorem visitAll {rel : List Bytes} {depth : Nat} {entries : Listed} {walking next : Walking}
    (visited : entries.foldlM (visit rel depth) walking = .ok next) :
    bare next.stack = (FileTree.subdirs rel entries).reverse ++ bare walking.stack ∧
      next.text = walking.text ++
        (FileTree.leaves rel entries).flatMap fun leaf => leafText leaf.1 leaf.2 := by
  induction entries generalizing walking with
  | nil =>
      cases visited
      exact ⟨rfl, (List.append_nil _).symm⟩
  | cons entry entries ih =>
      obtain ⟨name, tree⟩ := entry
      rw [List.foldlM_cons, visit] at visited
      split at visited
      · cases visited
      · cases tree with
        | dir below =>
            obtain ⟨stack, text⟩ := ih visited
            refine ⟨?_, text⟩
            have first : FileTree.subdirs rel ((name, .dir below) :: entries) =
                (rel ++ [name], below) :: FileTree.subdirs rel entries := rfl
            rw [stack, first, List.reverse_cons, List.append_assoc]
            rfl
        | leaf leaf =>
            obtain ⟨stack, text⟩ := ih visited
            refine ⟨stack, ?_⟩
            have first : FileTree.leaves rel ((name, .leaf leaf) :: entries) =
                (rel ++ [name], leaf) :: FileTree.leaves rel entries := rfl
            rw [text, first, List.flatMap_cons, List.append_assoc]

/-- The loop over the directories, the last one found first. -/
def walk (walking : Walking) : Except Unplanned Bytes :=
  match _taken : walking.stack with
  | [] => .ok walking.text
  | (rel, entries, depth) :: stack =>
      if treeWalkDepth < depth then .error .tooDeep
      else
        match _read : (sortByKey Prod.fst entries).foldlM (visit rel depth)
          { walking with stack := stack } with
        | .error reason => .error reason
        | .ok next => walk next
termination_by ((bare walking.stack).map fun waiting => FileTree.weights waiting.2 + 1).sum
decreasing_by
  rw [(visitAll _read).1, _taken]
  exact FileTree.weights_shrink rel entries (bare stack)

variable {Digest : Type} (hash : Bytes → Digest)

/-- `update` after `update` hashes the texts as one. -/
def treeHash (tree : SourceTree) : Except Unplanned Digest :=
  (walk ⟨[], 0, [([], tree.entries, 0)]⟩).map hash

/-! ### The promise -/

/-- The same regular files and the same relative links. -/
structure Same (one other : SourceTree) : Prop where
  files : ∀ path content, FileTree.find path (.dir one.entries) = some (.leaf (.file content)) ↔
    FileTree.find path (.dir other.entries) = some (.leaf (.file content))
  links : ∀ path target, target.head? ≠ some 47 →
    (FileTree.find path (.dir one.entries) = some (.leaf (.link target)) ↔
      FileTree.find path (.dir other.entries) = some (.leaf (.link target)))

/-- A hash tells two trees apart exactly where they differ. -/
def Identified (one other : SourceTree) : Prop :=
  ∀ first second, treeHash hash one = .ok first → treeHash hash other = .ok second →
    (first = second ↔ Same one other)

/-! ### What is hashed -/

/-- What has a part in the hash. -/
def counted : Leaf → Bool
  | .file _ => true
  | .link target => !(target.head? == some 47)
  | .special => false

abbrev Record : Type := List Bytes × Leaf

/-- The files and relative links of a tree in the order of the walk. -/
def records (tree : SourceTree) : List Record :=
  (FileTree.listing [([], tree.entries)]).filter fun record => counted record.2

/-- What an entry's content is, up to its kind. -/
def Leaf.content : Leaf → Bytes
  | .file content => content
  | .link target => target
  | .special => []

/-- The same kind of entry with its content carried on. -/
def Leaf.extend (more : Bytes) : Leaf → Leaf
  | .file content => .file (content ++ more)
  | .link target => .link (target ++ more)
  | .special => .special

def written (records : List Record) : Bytes :=
  records.flatMap fun record => leafText record.1 record.2

/-- Where the first tree's entries part from the second's, both have one path of one kind, the
first's content goes on, and it goes on as the second's next entries do. -/
def Recut (one other : List Record) : Prop :=
  ∃ shared path leaf more rest next, more ≠ [] ∧
    one = shared ++ (path, Leaf.extend more leaf) :: rest ∧
      other = shared ++ (path, leaf) :: next ∧ more ++ written rest = written next

theorem walk_nil {walking : Walking} (empty : walking.stack = []) :
    walk walking = .ok walking.text := by
  rw [walk]
  split
  · rfl
  · next taken =>
      rw [empty] at taken
      cases taken

theorem walk_cons {walking : Walking} {rel : List Bytes} {entries : Listed} {depth : Nat}
    {stack : List (List Bytes × Listed × Nat)}
    (taken : walking.stack = (rel, entries, depth) :: stack) :
    walk walking = if treeWalkDepth < depth then .error .tooDeep
      else ((sortByKey Prod.fst entries).foldlM (visit rel depth)
        { walking with stack := stack }).bind walk := by
  rw [walk]
  split
  · next empty =>
      rw [taken] at empty
      cases empty
  · next again =>
      rw [taken] at again
      cases again
      by_cases deep : treeWalkDepth < depth
      · rw [if_pos deep, if_pos deep]
      · rw [if_neg deep, if_neg deep]
        split
        · next failed =>
            rw [failed]
            rfl
        · next read =>
            rw [read]
            rfl

theorem walk_eq {walking : Walking} {text : Bytes} (done : walk walking = .ok text) :
    text = walking.text ++
      (FileTree.listing (bare walking.stack)).flatMap fun leaf => leafText leaf.1 leaf.2 := by
  induction walking using walk.induct with
  | case1 walking empty =>
      rw [walk_nil empty] at done
      cases done
      rw [empty, bare, List.map_nil, FileTree.listing, List.flatMap_nil, List.append_nil]
  | case2 walking rel entries depth stack taken deep =>
      rw [walk_cons taken, if_pos deep] at done
      cases done
  | case3 walking rel entries depth stack taken within reason failed =>
      rw [walk_cons taken, if_neg within, failed] at done
      cases done
  | case4 walking rel entries depth stack taken within next read ih =>
      rw [walk_cons taken, if_neg within, read] at done
      obtain ⟨below, grown⟩ := visitAll read
      have listed : FileTree.listing (bare walking.stack) =
          FileTree.leaves rel (sortByKey Prod.fst entries) ++
            FileTree.listing (bare next.stack) := by
        rw [below, taken, bare, List.map_cons, FileTree.listing]
        rfl
      rw [ih done, grown, listed, List.flatMap_append, List.append_assoc]

theorem leafText_uncounted {path : List Bytes} {leaf : Leaf} (uncounted : counted leaf = false) :
    leafText path leaf = [] := by
  cases leaf with
  | file content => cases uncounted
  | link target =>
      rw [counted, Bool.not_eq_false', beq_iff_eq] at uncounted
      rw [leafText, if_pos uncounted]
  | special => rfl

theorem written_filter (listed : List Record) :
    written (listed.filter fun record => counted record.2) = written listed := by
  induction listed with
  | nil => rfl
  | cons record listed ih =>
      cases part : counted record.2 with
      | true =>
          rw [List.filter_cons, if_pos part, written, List.flatMap_cons, ← written, ih]
          rfl
      | false =>
          have skipped : ¬counted record.2 = true := Bool.eq_false_iff.mp part
          rw [List.filter_cons, if_neg skipped, ih, written, written,
            List.flatMap_cons, leafText_uncounted part, List.nil_append]

theorem treeHash_eq {tree : SourceTree} {digest : Digest}
    (hashed : treeHash hash tree = .ok digest) :
    digest = hash (written (records tree)) := by
  rw [treeHash] at hashed
  cases done : walk ⟨[], 0, [([], tree.entries, 0)]⟩ with
  | error reason =>
      rw [done] at hashed
      cases hashed
  | ok text =>
      rw [done] at hashed
      rw [records, written_filter, ← Except.ok.inj hashed, walk_eq done]
      rfl

/-! ### One list of entries for one content -/

theorem mem_records {tree : SourceTree} {path : List Bytes} {leaf : Leaf} :
    (path, leaf) ∈ records tree ↔
      FileTree.find path (.dir tree.entries) = some (.leaf leaf) ∧ counted leaf = true := by
  rw [records, List.mem_filter]
  refine and_congr_left fun _ => ?_
  convert FileTree.mem_listing_root tree.named

theorem records_ordered (tree : SourceTree) :
    (records tree).Pairwise fun one other => FileTree.Before one.1 other.1 := by
  have only : FileTree.Distinct [([], tree.entries)] := by
    intro waiting member
    rw [List.mem_singleton.mp member]
    exact tree.named
  exact (FileTree.listing_ordered only (List.pairwise_singleton _ _)).filter _

theorem same_iff {one other : SourceTree} : Same one other ↔ records one = records other := by
  constructor
  · intro same
    refine FileTree.eq_of_before (records_ordered one) (records_ordered other) ?_
    rintro ⟨path, leaf⟩
    rw [mem_records, mem_records]
    cases leaf with
    | file content => rw [same.files]
    | link target =>
        refine and_congr_left fun part => same.links path target ?_
        rw [counted, Bool.not_eq_true', beq_eq_false_iff_ne] at part
        exact part
    | special =>
        refine and_congr_left fun part => ?_
        cases part
  · intro same
    have both (path : List Bytes) (leaf : Leaf) (part : counted leaf = true) :
        FileTree.find path (.dir one.entries) = some (.leaf leaf) ↔
          FileTree.find path (.dir other.entries) = some (.leaf leaf) := by
      have members : (path, leaf) ∈ records one ↔ (path, leaf) ∈ records other := by rw [same]
      rw [mem_records, mem_records] at members
      constructor
      · exact fun found => (members.mp ⟨found, part⟩).1
      · exact fun found => (members.mpr ⟨found, part⟩).1
    constructor
    · exact fun path content => both path (.file content) rfl
    · intro path target relative
      apply both
      rw [counted, Bool.not_eq_true', beq_eq_false_iff_ne]
      exact relative

/-! ### Where the text can be cut in two ways -/

/-- An entry under a path of safe names. -/
def Entered (record : Record) : Prop :=
  (record.1 ≠ [] ∧ ∀ name ∈ record.1, isSafeComponent name = true) ∧ counted record.2 = true

theorem records_entered {tree : SourceTree} {record : Record} (member : record ∈ records tree) :
    Entered record := by
  obtain ⟨path, leaf⟩ := record
  obtain ⟨found, part⟩ := mem_records.mp member
  refine ⟨⟨?_, tree.safe path ?_⟩, part⟩
  · intro empty
    dsimp only at empty
    rw [empty] at found
    cases found
  · rw [found]
    exact Option.some_ne_none _

def kind : Leaf → Bytes
  | .file _ => utf8 "file "
  | .link _ => utf8 "link "
  | .special => []

theorem leafText_counted {path : List Bytes} {leaf : Leaf} (part : counted leaf = true) :
    leafText path leaf = joinPath path ++ 0 :: (kind leaf ++ leaf.content) := by
  cases leaf with
  | file content => rfl
  | link target =>
      rw [counted, Bool.not_eq_true', beq_eq_false_iff_ne] at part
      rw [leafText, if_neg part]
      rfl
  | special => cases part

theorem kind_inj {leaf other : Leaf} {rest after : Bytes} (part : counted leaf = true)
    (also : counted other = true) (same : kind leaf ++ rest = kind other ++ after) :
    kind leaf = kind other ∧ rest = after := by
  have length {leaf : Leaf} (part : counted leaf = true) : (kind leaf).length = 5 := by
    cases leaf with
    | file content => rfl
    | link target => rfl
    | special => cases part
  exact List.append_inj same ((length part).trans (length also).symm)

/-- Entries of one kind, the content of one beginning the other's. -/
theorem extend_of_content {leaf other : Leaf} {more : Bytes} (part : counted other = true)
    (same : kind leaf = kind other) (longer : leaf.content = other.content ++ more) :
    leaf = other.extend more := by
  have apart : utf8 "file " ≠ utf8 "link " := by decide
  cases other with
  | special => cases part
  | file held =>
      cases leaf with
      | file content => exact congrArg Leaf.file longer
      | link content => exact absurd same apart.symm
      | special => exact absurd same.symm (by decide : utf8 "file " ≠ [])
  | link held =>
      cases leaf with
      | file content => exact absurd same apart
      | link content => exact congrArg Leaf.link longer
      | special => exact absurd same.symm (by decide : utf8 "link " ≠ [])

theorem written_cons (record : Record) (listed : List Record) :
    written (record :: listed) = leafText record.1 record.2 ++ written listed := rfl

theorem written_append (listed more : List Record) :
    written (listed ++ more) = written listed ++ written more := List.flatMap_append

/-- What a first entry's text and what follows it have in common with another's. -/
theorem split_of_written {record other : Record} {rest next : List Record}
    (entered : Entered record) (also : Entered other) (same : written (record :: rest) = written (other :: next)) :
    record.1 = other.1 ∧ kind record.2 = kind other.2 ∧
      record.2.content ++ written rest = other.2.content ++ written next := by
  obtain ⟨path, leaf⟩ := record
  obtain ⟨way, held⟩ := other
  have named {names : List Bytes} (safe : ∀ name ∈ names, isSafeComponent name = true) :
      (0 : UInt8) ∉ joinPath names :=
    not_mem_joinPath (by decide) fun name member =>
      (isSafeComponent_iff.mp (safe name member)).2.2.2.2
  rw [written_cons, written_cons, leafText_counted entered.2, leafText_counted also.2,
    List.append_assoc, List.append_assoc, List.cons_append, List.cons_append] at same
  have joined : joinPath path = joinPath way := by
    have first (names : List Bytes) (safe : ∀ name ∈ names, isSafeComponent name = true)
        (tail : Bytes) : (joinPath names ++ 0 :: tail).takeWhile (· ≠ 0) = joinPath names := by
      rw [List.takeWhile_append_of_pos, List.takeWhile_cons_of_neg (by decide), List.append_nil]
      intro byte member
      exact decide_eq_true fun zero => named safe (zero ▸ member)
    have lead := congrArg (List.takeWhile (· ≠ 0)) same
    rwa [first path entered.1.2, first way also.1.2] at lead
  rw [joined, List.append_cancel_left_eq, List.cons.injEq, List.append_assoc, List.append_assoc]
    at same
  obtain ⟨kinds, contents⟩ := kind_inj entered.2 also.2 same.2
  exact ⟨joinPath_injective entered.1.2 also.1.2 joined, kinds, contents⟩

theorem Recut.cons {one other : List Record} (record : Record) (cut : Recut one other) :
    Recut (record :: one) (record :: other) := by
  obtain ⟨shared, path, leaf, more, rest, next, some, first, second, reads⟩ := cut
  exact ⟨record :: shared, path, leaf, more, rest, next, some, by rw [first]; rfl,
    by rw [second]; rfl, reads⟩

/-- An entry whose content goes on beyond another's, if only by nothing. -/
theorem recut_or_same {path : List Bytes} {leaf other : Leaf} {more : Bytes}
    {rest next : List Record}
    (part : counted other = true) (kinds : kind leaf = kind other)
    (longer : leaf.content = other.content ++ more) (reads : more ++ written rest = written next) :
    Recut ((path, leaf) :: rest) ((path, other) :: next) ∨
      leaf = other ∧ written rest = written next := by
  have grown := extend_of_content part kinds longer
  by_cases none : more = []
  · right
    subst none
    refine ⟨?_, reads⟩
    rw [grown]
    cases other with
    | file content => exact congrArg Leaf.file (List.append_nil content)
    | link target => exact congrArg Leaf.link (List.append_nil target)
    | special => rfl
  · left
    exact ⟨[], path, other, more, rest, next, none, by rw [grown]; rfl, rfl, reads⟩

theorem written_ne_nil {record : Record} (entered : Entered record) (rest : List Record) :
    written (record :: rest) ≠ [] := by
  rw [written_cons, leafText_counted entered.2]
  intro empty
  obtain ⟨text, -⟩ := List.append_eq_nil_iff.mp empty
  exact absurd (List.append_eq_nil_iff.mp text).2 (List.cons_ne_nil _ _)

/-- Entries written alike are alike, or a content runs on into the next entries. -/
theorem recut_of_written {one other : List Record} (entered : ∀ record ∈ one, Entered record)
    (also : ∀ record ∈ other, Entered record) (same : written one = written other) :
    one = other ∨ Recut one other ∨ Recut other one := by
  induction one generalizing other with
  | nil =>
      cases other with
      | nil => exact Or.inl rfl
      | cons record next =>
          exact absurd same.symm (written_ne_nil (also record List.mem_cons_self) next)
  | cons record rest ih =>
      cases other with
      | nil => exact absurd same (written_ne_nil (entered record List.mem_cons_self) rest)
      | cons held next =>
          obtain ⟨here, others⟩ := List.forall_mem_cons.mp entered
          obtain ⟨there, beyond⟩ := List.forall_mem_cons.mp also
          obtain ⟨paths, kinds, contents⟩ := split_of_written here there same
          obtain ⟨path, leaf⟩ := record
          obtain ⟨way, leaf'⟩ := held
          dsimp only at paths kinds contents
          subst paths
          have alike (equal : leaf = leaf') (reads : written rest = written next) :
              (path, leaf) :: rest = (path, leaf') :: next ∨
                Recut ((path, leaf) :: rest) ((path, leaf') :: next) ∨
                  Recut ((path, leaf') :: next) ((path, leaf) :: rest) := by
            rw [equal]
            rcases ih others beyond reads with same | cut | cut
            · exact Or.inl (by rw [same])
            · exact Or.inr (Or.inl (cut.cons _))
            · exact Or.inr (Or.inr (cut.cons _))
          rcases List.append_eq_append_iff.mp contents with
            ⟨more, longer, reads⟩ | ⟨more, longer, reads⟩
          · rcases recut_or_same here.2 kinds.symm longer reads.symm with cut | ⟨equal, reads⟩
            · exact Or.inr (Or.inr cut)
            · exact alike equal.symm reads.symm
          · rcases recut_or_same there.2 kinds longer reads.symm with cut | ⟨equal, reads⟩
            · exact Or.inr (Or.inl cut)
            · exact alike equal reads

theorem leafText_extend {path : List Bytes} {leaf : Leaf} {more : Bytes}
    (part : counted leaf = true) (also : counted (leaf.extend more) = true) :
    leafText path (leaf.extend more) = leafText path leaf ++ more := by
  have carried : kind (leaf.extend more) ++ (leaf.extend more).content =
      kind leaf ++ leaf.content ++ more := by
    cases leaf with
    | file content => exact (List.append_assoc _ _ _).symm
    | link target => exact (List.append_assoc _ _ _).symm
    | special => cases part
  rw [leafText_counted part, leafText_counted also, carried, List.append_assoc (joinPath path),
    List.cons_append]

theorem written_of_recut {one other : List Record} (entered : ∀ record ∈ one, Entered record)
    (also : ∀ record ∈ other, Entered record) (cut : Recut one other) :
    written one = written other ∧ one ≠ other := by
  obtain ⟨shared, path, leaf, more, rest, next, some, rfl, rfl, reads⟩ := cut
  have part : Entered (path, leaf) := also _ (List.mem_append_right _ List.mem_cons_self)
  have grown : Entered (path, leaf.extend more) :=
    entered _ (List.mem_append_right _ List.mem_cons_self)
  constructor
  · rw [written_append, written_append, written_cons, written_cons,
      leafText_extend part.2 grown.2, List.append_assoc, reads]
  · intro same
    have here := (List.cons.inj (List.append_cancel_left same)).1
    rw [Prod.mk.injEq] at here
    cases leaf with
    | file content => exact some (List.append_right_eq_self.mp (Leaf.file.inj here.2))
    | link target => exact some (List.append_right_eq_self.mp (Leaf.link.inj here.2))
    | special => cases part.2

/-! ### The result -/

/-- Under a hash without collisions, trees within the walk's bounds are told apart exactly where
their entries, written one after another, are not one text cut in two ways. -/
theorem identified_iff {hash : Bytes → Digest} (free : Function.Injective hash)
    {one other : SourceTree} {first second : Digest} (hashed : treeHash hash one = .ok first)
    (also : treeHash hash other = .ok second) :
    Identified hash one other ↔
      ¬Recut (records one) (records other) ∧ ¬Recut (records other) (records one) := by
  have entered {tree : SourceTree} : ∀ record ∈ records tree, Entered record :=
    fun _ member => records_entered member
  have digests : first = second ↔ written (records one) = written (records other) := by
    rw [treeHash_eq hash hashed, treeHash_eq hash also, free.eq_iff]
  constructor
  · intro identified
    have told := identified first second hashed also
    rw [digests, same_iff] at told
    constructor
    · intro cut
      obtain ⟨same, apart⟩ := written_of_recut entered entered cut
      exact apart (told.mp same)
    · intro cut
      obtain ⟨same, apart⟩ := written_of_recut entered entered cut
      exact apart (told.mp same.symm).symm
  · rintro ⟨forwards, backwards⟩ left right here there
    rw [hashed, Except.ok.injEq] at here
    rw [also, Except.ok.injEq] at there
    rw [← here, ← there, digests, same_iff]
    constructor
    · intro same
      rcases recut_of_written entered entered same with same | cut | cut
      · exact same
      · exact absurd cut forwards
      · exact absurd cut backwards
    · intro same
      rw [same]

/-- A directory without directories. -/
def flat (leaves : List (Bytes × Leaf)) (distinct : (leaves.map Prod.fst).Nodup)
    (safe : ∀ name ∈ leaves.map Prod.fst, isSafeComponent name = true) : SourceTree where
  entries := leaves.map fun entry => (entry.1, .leaf entry.2)
  named := by
    rw [FileTree.wellNamed, FileTree.allWellNamed_iff, List.map_map]
    refine ⟨distinct, ?_⟩
    intro entry member
    obtain ⟨given, -, rfl⟩ := List.mem_map.mp member
    rw [FileTree.wellNamed]
    trivial
  safe := by
    intro path found name member
    cases path with
    | nil => cases member
    | cons first rest =>
        cases here : FileTree.child first (leaves.map fun entry => (entry.1, .leaf entry.2)) with
        | none =>
            rw [FileTree.find, here] at found
            exact absurd rfl found
        | some tree =>
            obtain ⟨given, among, same⟩ := List.mem_map.mp (FileTree.mem_of_child here)
            rw [Prod.mk.injEq] at same
            cases rest with
            | nil =>
                rw [List.mem_singleton.mp member, ← same.1]
                exact safe _ (List.mem_map_of_mem among)
            | cons next rest =>
                rw [FileTree.find, here, ← same.2] at found
                exact absurd rfl found

def split : SourceTree :=
  flat [(utf8 "a", .file (utf8 "x")), (utf8 "b", .file (utf8 "y"))] (by decide) (by decide)

def joined : SourceTree :=
  flat [(utf8 "a", .file (utf8 "xb\x00file y"))] (by decide) (by decide)

theorem treeHash_flat {tree : SourceTree} {next : Walking}
    (read : (sortByKey Prod.fst tree.entries).foldlM (visit [] 0) ⟨[], 0, []⟩ = .ok next)
    (level : next.stack = []) : treeHash hash tree = .ok (hash next.text) := by
  rw [treeHash, walk_cons rfl, if_neg (by decide), read]
  have done : (Except.ok next : Except Unplanned Walking).bind walk = .ok next.text :=
    walk_nil level
  rw [done]
  rfl

def shown : Bytes := utf8 "a\x00file xb\x00file y"

theorem treeHash_split : treeHash id split = .ok shown :=
  @treeHash_flat Bytes id split ⟨shown, 2, []⟩ (by rfl) rfl

theorem treeHash_joined : treeHash id joined = .ok shown :=
  @treeHash_flat Bytes id joined ⟨shown, 1, []⟩ (by rfl) rfl

/-- Two files in one tree and one file in another are hashed as one text. -/
theorem split_unidentified : ¬Identified id split joined := by
  intro identified
  have same := (identified _ _ treeHash_split treeHash_joined).mp rfl
  have held := (same.files [utf8 "b"] (utf8 "y")).mp rfl
  cases held

/-- Not told apart, these two are cut in two ways. -/
theorem split_recut : Identified id split joined ↔
    ¬Recut (records split) (records joined) ∧ ¬Recut (records joined) (records split) :=
  identified_iff Function.injective_id treeHash_split treeHash_joined

end Onelf.Cli.Bundle.TreeHash
