import Onelf.Runtime.Fuse.Handed
import Onelf.Runtime.Fuse.Wire

/-! A mount in use: what the kernel keeps of the answers it was given, and what its readers have
been told, while the launching child hands its links over. -/

namespace Onelf.Runtime.FuseTree

open Onelf.Lib
open Onelf.Runtime.Fuse (entryToInode inodeToEntry)

/-! ### The kernel -/

/-- What the kernel keeps: the inode under a name and an inode's attributes, neither of which it
asks for again while the mount stands. -/
structure Kernel where
  names : Nat → Bytes → Option Nat
  attrs : Nat → Option Bytes

namespace Kernel

def empty : Kernel := ⟨fun _ _ => none, fun _ => none⟩

def know (kernel : Kernel) (inode : Nat) (attr : Bytes) : Kernel :=
  { kernel with attrs := fun other => if other = inode then some attr else kernel.attrs other }

def forget (kernel : Kernel) (inode : Nat) : Kernel :=
  { kernel with attrs := fun other => if other = inode then none else kernel.attrs other }

/-- The name `name` in `parent` stands for `inode`. -/
def link (kernel : Kernel) (parent : Nat) (name : Bytes) (inode : Nat) (attr : Bytes) : Kernel :=
  { kernel.know inode attr with
    names := fun dir other =>
      if dir = parent ∧ other = name then some inode else kernel.names dir other }

def drop (kernel : Kernel) (parent : Nat) (name : Bytes) : Kernel :=
  { kernel with
    names := fun dir other => if dir = parent ∧ other = name then none else kernel.names dir other }

def notified (kernel : Kernel) (notices : List Notice) : Kernel :=
  notices.foldl (fun kernel notice => kernel.drop notice.parent notice.name) kernel

/-- The answer to a lookup; that a name is not there is not kept. -/
def looked (kernel : Kernel) (parent : Nat) (name : Bytes) : Reply → Kernel
  | .error _ => kernel.drop parent name
  | .ok payload =>
      match readEntryOut payload with
      | none => kernel
      | some ((inode, attr), _) => kernel.link parent name inode attr

def statted (kernel : Kernel) (inode : Nat) : Reply → Kernel
  | .error _ => kernel.forget inode
  | .ok payload =>
      match readAttrOut payload with
      | none => kernel
      | some (attr, _) => kernel.know inode attr

/-- The entries of a READDIRPLUS answer; those without an inode are not kept. -/
def listed (kernel : Kernel) (dir : Nat) (dirents : List Dirent) : Kernel :=
  dirents.foldl (fun kernel dirent =>
    match dirent.entry with
    | none => kernel
    | some (inode, attr) =>
        if inode = 0 then kernel else kernel.link dir dirent.name inode attr) kernel

end Kernel

/-- An open directory: the names read from it so far, and where the next request starts. -/
structure Reader where
  dir : Nat
  reading : PageReader Bytes

/-- The body of a READDIR for so many bytes from a place on. -/
def readdirBody (fh offset size : Nat) : Bytes :=
  leBytes 8 fh ++ leBytes 8 offset ++ leBytes 4 size ++ List.replicate 20 0

/-- A reader goes on where the last entry it was given says. -/
def Reader.given (reader : Reader) (dirents : List Dirent) : Reader :=
  ⟨reader.dir, (dirents.getLast?.map Dirent.off).getD reader.reading.offset,
    reader.reading.labels ++ dirents.map Dirent.name⟩

/-! ### The mount -/

/-- The server, what its child has still to be read of, and the kernel with its open
directories. -/
structure Mount where
  server : Server
  pipe : Bytes
  kernel : Kernel
  readers : Nat → Option Reader

inductive Event where
  | deliver (outcome : LinkPipe.Read)
  | lookup (parent : Nat) (name : Bytes)
  | getattr (inode : Nat)
  | opendir (fh inode : Nat)
  | readdir (fh size : Nat) (plus : Bool)
  | drop (parent : Nat) (name : Bytes)
  | forget (inode : Nat)

section
variable (owner : Owner) (manifest : Format.Manifest)

namespace Mount

/-- The links are awaited; nothing has been asked yet. -/
def start (handoff : LinkPipe.Handoff) : Mount :=
  ⟨⟨Synthetic.new manifest, some []⟩, handoff.framed, Kernel.empty, fun _ => none⟩

def tree (mount : Mount) : Tree := ⟨owner, manifest, mount.server.synthetic⟩

def answer (mount : Mount) (opcode : Opcode) (inode : Nat) (body : Bytes) : Reply :=
  dispatch (mount.tree owner manifest) opcode inode body

/-- What a READDIR on `fh` is answered. -/
def page (mount : Mount) (fh size : Nat) (plus : Bool) (reader : Reader) : Reply :=
  mount.answer owner manifest (if plus then .readdirplus else .readdir) reader.dir
    (readdirBody fh reader.reading.offset size)

/-- One step; `none` where it cannot happen. -/
def step (mount : Mount) : Event → Option Mount
  | .deliver outcome =>
      if outcome.content.isPrefixOf mount.pipe then
        let (server, notices) := takeLinks manifest mount.server outcome
        some { mount with
          server := server
          pipe := mount.pipe.drop outcome.content.length
          kernel := mount.kernel.notified notices }
      else none
  | .lookup parent name =>
      if name.contains 0 then none
      else
        let reply := mount.answer owner manifest .lookup parent (name ++ [0])
        some { mount with kernel := mount.kernel.looked parent name reply }
  | .getattr inode =>
      let reply := mount.answer owner manifest .getattr inode []
      some { mount with kernel := mount.kernel.statted inode reply }
  | .opendir fh inode =>
      match mount.answer owner manifest .opendir inode [] with
      | .error _ => some mount
      | .ok _ =>
          some { mount with readers := fun other =>
            if other = fh then some ⟨inode, PageReader.start⟩ else mount.readers other }
  | .readdir fh size plus =>
      if 256 ^ 4 ≤ size then none
      else do
        let reader ← mount.readers fh
        match mount.page owner manifest fh size plus reader with
        | .error _ => some mount
        | .ok payload =>
            let dirents := readDirents plus payload
            some { mount with
              kernel := mount.kernel.listed reader.dir dirents
              readers := fun other =>
                if other = fh then some (reader.given dirents) else mount.readers other }
  | .drop parent name => some { mount with kernel := mount.kernel.drop parent name }
  | .forget inode => some { mount with kernel := mount.kernel.forget inode }

def run (mount : Mount) : List Event → Option Mount
  | [] => some mount
  | event :: events => do
      let next ← mount.step owner manifest event
      next.run events

end Mount

end

/-! ### What the kernel keeps is what it would be answered -/

section Current

variable {tree : Tree} {kernel : Kernel}

/-- Everything the kernel keeps is what the server would answer now. -/
structure Current (tree : Tree) (kernel : Kernel) : Prop where
  names : ∀ parent name inode, kernel.names parent name = some inode →
    ∃ attr, tree.resolve parent name = some attr ∧ attr.ino = inode
  attrs : ∀ inode bytes, kernel.attrs inode = some bytes →
    ∃ attr, tree.attr inode = some attr ∧ attr.bytes = bytes

namespace Current

theorem empty (tree : Tree) : Current tree Kernel.empty :=
  ⟨nofun, nofun⟩

theorem know (current : Current tree kernel) {inode : Nat} {attr : FuseAttr}
    (held : tree.attr inode = some attr) : Current tree (kernel.know inode attr.bytes) := by
  refine ⟨current.names, fun other bytes kept => ?_⟩
  change (if other = inode then some attr.bytes else kernel.attrs other) = some bytes at kept
  split at kept
  · next same =>
      rw [same]
      exact ⟨attr, held, Option.some.inj kept⟩
  · exact current.attrs other bytes kept

theorem forget (current : Current tree kernel) (inode : Nat) : Current tree (kernel.forget inode) := by
  refine ⟨current.names, fun other bytes kept => ?_⟩
  change (if other = inode then none else kernel.attrs other) = some bytes at kept
  split at kept
  · cases kept
  · exact current.attrs other bytes kept

theorem drop (current : Current tree kernel) (parent : Nat) (name : Bytes) :
    Current tree (kernel.drop parent name) := by
  refine ⟨fun dir other inode kept => ?_, current.attrs⟩
  change (if dir = parent ∧ other = name then none else kernel.names dir other) = some inode at kept
  split at kept
  · cases kept
  · exact current.names dir other inode kept

theorem link (current : Current tree kernel) (sound : Sound tree.manifest tree.synthetic)
    {parent : Nat} {name : Bytes} {attr : FuseAttr}
    (resolved : tree.resolve parent name = some attr) :
    Current tree (kernel.link parent name attr.ino attr.bytes) := by
  refine ⟨fun dir other inode kept => ?_,
    (current.know (Tree.attr_of_resolve sound resolved)).attrs⟩
  change (if dir = parent ∧ other = name then some attr.ino else kernel.names dir other) =
    some inode at kept
  split at kept
  · next same =>
      rw [same.1, same.2]
      exact ⟨attr, resolved, Option.some.inj kept⟩
  · exact current.names dir other inode kept

theorem notified (current : Current tree kernel) (notices : List Notice) :
    Current tree (kernel.notified notices) := by
  induction notices generalizing kernel with
  | nil => exact current
  | cons notice notices ih => exact ih (current.drop notice.parent notice.name)

/-- A name the kernel was told of is not kept. -/
theorem notified_names {notices : List Notice} {parent inode : Nat} {name : Bytes}
    (kept : (kernel.notified notices).names parent name = some inode) :
    ⟨parent, name⟩ ∉ notices ∧ kernel.names parent name = some inode := by
  induction notices generalizing kernel with
  | nil => exact ⟨List.not_mem_nil, kept⟩
  | cons notice notices ih =>
      obtain ⟨later, held⟩ := ih kept
      change (if parent = notice.parent ∧ name = notice.name then none
        else kernel.names parent name) = some inode at held
      split at held
      · cases held
      · next other =>
          refine ⟨?_, held⟩
          rw [List.mem_cons, not_or]
          exact ⟨fun same => other ⟨congrArg Notice.parent same, congrArg Notice.name same⟩, later⟩

/-- What is kept stays true of a tree that has changed, once the kernel is told. -/
theorem serving (current : Current tree kernel) (sound : Sound tree.manifest tree.synthetic)
    {later : Synthetic} {notices : List Notice}
    (changes : Changes tree.manifest tree.synthetic later notices) :
    Current (tree.serving later) (kernel.notified notices) := by
  constructor
  · intro parent name inode kept
    obtain ⟨untold, held⟩ := notified_names kept
    obtain ⟨attr, resolved, same⟩ := current.names parent name inode held
    exact ⟨attr, Tree.resolve_serving sound changes untold resolved, same⟩
  · intro inode bytes kept
    obtain ⟨attr, held, same⟩ := (current.notified notices).attrs inode bytes kept
    exact ⟨attr, Tree.attr_serving sound changes held, same⟩

end Current

end Current

/-! ### Answers the kernel reads -/

section Answers

variable {tree : Tree}

theorem takeWhile_ended {name : Bytes} (plain : 0 ∉ name) :
    (name ++ [0]).takeWhile (fun byte => decide (byte ≠ 0)) = name := by
  rw [List.takeWhile_append_of_pos]
  · simp
  · intro byte member
    exact decide_eq_true fun zero => plain (zero ▸ member)

theorem handleLookup_eq_ok {parent : Nat} {name payload : Bytes} (plain : 0 ∉ name)
    (found : tree.handleLookup parent (name ++ [0]) = .ok payload) :
    ∃ attr, payload = entryOut attr ∧ tree.resolve parent name = some attr := by
  rw [Tree.handleLookup] at found
  split at found
  · cases found
  · rw [takeWhile_ended plain] at found
    dsimp only at found
    split at found
    · cases found
    · split at found
      · cases found
      · cases resolved : tree.resolve parent name with
        | none =>
            rw [resolved] at found
            cases found
        | some attr =>
            rw [resolved] at found
            exact ⟨attr, (Except.ok.inj found).symm, rfl⟩

theorem handleGetattr_eq_ok {inode : Nat} {payload : Bytes}
    (found : tree.handleGetattr inode = .ok payload) :
    ∃ attr, payload = attrOut attr ∧ tree.attr inode = some attr := by
  rw [Tree.handleGetattr] at found
  cases held : tree.attr inode with
  | none =>
      rw [held] at found
      cases found
  | some attr =>
      rw [held] at found
      exact ⟨attr, (Except.ok.inj found).symm, rfl⟩

theorem readEntryOut_entryOut {attr : FuseAttr} (fits : attr.ino < 256 ^ 8) :
    readEntryOut (entryOut attr) = some ((attr.ino, attr.bytes), []) := by
  have read := readEntryOut_takes fits []
  rwa [List.append_nil] at read

theorem readAttrOut_attrOut (attr : FuseAttr) :
    readAttrOut (attrOut attr) = some (attr.bytes, []) := by
  have read := readAttrOut_takes attr []
  rwa [List.append_nil] at read

end Answers

/-! ### Packages and pages -/

/-- A package that was read, whose directories name each entry once, and a launch that hands over
the links it wants. -/
structure Mounting (manifest : Format.Manifest) (handoff : LinkPipe.Handoff) : Prop where
  valid : manifest.Valid
  entries : manifest.entries.length < 256 ^ 4
  strings : manifest.stringTable.length < 256 ^ 4
  apart : Apart manifest
  message : handoff.framed.length ≤ LinkPipe.vecLimit
  sends : ∃ sources, handoff.links = wanted manifest handoff.dir.bytes sources

/-- Links that inodes and places have room for. -/
def Few (synthetic : Synthetic) : Prop := synthetic.links.length ≤ LinkPipe.vecLimit

section Pages

variable {manifest : Format.Manifest} {handoff : LinkPipe.Handoff} {tree : Tree}
  (mounting : Mounting tree.manifest handoff) (sound : Sound tree.manifest tree.synthetic)
  (few : Few tree.synthetic)
include mounting sound few

theorem ino_fits {inode : Nat} {attr : FuseAttr} (held : tree.attr inode = some attr) :
    attr.ino < 256 ^ 8 := by
  have entries := mounting.entries
  have limit : LinkPipe.vecLimit + 256 ^ 4 + 2 < 256 ^ 8 := by decide
  rw [Few] at few
  rw [Tree.attr] at held
  split at held
  · next link found =>
      have bound := (sound.lt_next found).2
      rw [Tree.linkAttr_ino held]
      omega
  · rw [Tree.entryAttr_ino held]
    obtain ⟨entry, at_, _⟩ := Option.map_eq_some_iff.mp held
    have bound := entryAt_le at_
    omega

omit sound in
theorem total_fits (inode : Nat) : tree.totalEntries inode < 256 ^ 8 := by
  have entries := mounting.entries
  have limit : LinkPipe.vecLimit + 256 ^ 4 + 2 < 256 ^ 8 := by decide
  have own : (childrenOf tree.manifest inode).length ≤ tree.manifest.entries.length :=
    length_childrenOf_le inode
  have listed : (tree.synthetic.children inode).length ≤ tree.synthetic.links.length := by
    rw [Synthetic.children, List.length_map]
    exact (List.length_filter_le _ _).trans List.length_zipIdx.le
  rw [Few] at few
  rw [Tree.totalEntries]
  omega

omit few in
theorem labels_spelled (inode : Nat) : ∀ name ∈ tree.labels inode, Spelled name := by
  have dot : Spelled (utf8 ".") := ⟨by decide +kernel, by decide +kernel, by decide +kernel⟩
  have dots : Spelled (utf8 "..") := ⟨by decide +kernel, by decide +kernel, by decide +kernel⟩
  rw [Tree.labels]
  refine List.forall_mem_cons.mpr ⟨dot, List.forall_mem_cons.mpr ⟨dots, ?_⟩⟩
  intro name member
  rcases List.mem_append.mp member with own | listed
  · obtain ⟨child, _, rfl⟩ := List.mem_map.mp own
    exact entryName_spelled mounting.strings child
  · obtain ⟨⟨at_, link⟩, among, rfl⟩ := List.mem_map.mp listed
    exact sound.spelled (Tree.mem_children among).1

omit sound few in
theorem parentInode_le {inode : Nat} {entry : Format.Entry}
    (at_ : entryAt tree.manifest inode = some entry) :
    Tree.parentInode entry ≤ tree.manifest.entries.length := by
  obtain ⟨index, _, found⟩ := entryAt_eq_some.mp at_
  have inside := (List.getElem?_eq_some_iff.mp found).1
  rw [Tree.parentInode]
  split
  · omega
  · next below =>
      have earlier := ((mounting.valid.entries index entry found).1.resolve_left below).1
      rw [entryToInode]
      omega

/-- Every row fits its fields. -/
theorem rowFits {inode : Nat} {entry : Format.Entry} (at_ : entryAt tree.manifest inode = some entry)
    {i : Nat} {row : Tree.Row} (found : tree.rowAt inode entry i = some row) : RowFits (i, row) := by
  have total := total_fits mounting few inode
  have entries := mounting.entries
  have wide : 256 ^ 4 < 256 ^ 8 := by decide
  have name : (tree.labels inode)[i]? = some row.name := by
    rw [← Tree.rowAt_name sound inode entry i, found, Option.map_some]
  have inside := (List.getElem?_eq_some_iff.mp name).1
  rw [Tree.length_labels] at inside
  have attrs {attr : FuseAttr} (has : row.attr = some attr) : attr.ino < 256 ^ 8 :=
    ino_fits mounting sound few (Tree.attr_of_resolve sound
      (Tree.resolve_of_attr sound mounting.apart found has))
  refine {
    ino := ?_
    attr := fun attr has => attrs has
    off := by change i + 1 < _; omega
    name := (labels_spelled mounting sound inode row.name (List.mem_of_getElem? name)).short
    typ := ?_ }
  · rcases i with _ | _ | i
    · have below := entryAt_le at_
      rw [← Option.some.inj found]
      change inode < _
      omega
    · have below := parentInode_le mounting at_
      rw [← Option.some.inj found]
      change Tree.parentInode entry < _
      omega
    · obtain ⟨attr, held, _⟩ := Tree.resolve_of_row sound mounting.apart found
      change row.ino < _
      rw [← (Tree.row_agrees sound found held).1]
      exact attrs held
  · obtain ⟨kind, typ⟩ := Tree.rowAt_typ found
    change row.typ < _
    rw [typ]
    cases kind <;> decide

omit mounting sound few in
theorem readIn_readdirBody (fh : Nat) {offset size : Nat} (far : offset < 256 ^ 8)
    (small : size < 256 ^ 4) : Tree.readIn (readdirBody fh offset size) = some ⟨offset, size⟩ := by
  let rest := leBytes 4 size ++ List.replicate 20 (0 : UInt8)
  have split : readdirBody fh offset size = leBytes 8 fh ++ (leBytes 8 offset ++ rest) := by
    simp only [readdirBody, rest, List.append_assoc]
  have also : readdirBody fh offset size = (leBytes 8 fh ++ leBytes 8 offset) ++ rest := by
    rw [split, List.append_assoc]
  have start : slice (readdirBody fh offset size) 8 8 = leBytes 8 offset := by
    rw [slice, split, List.drop_left' (length_leBytes 8 fh), List.take_left' (length_leBytes 8 offset)]
  have room : slice (readdirBody fh offset size) 16 4 = leBytes 4 size := by
    rw [slice, also, List.drop_left' (by simp only [List.length_append, length_leBytes]),
      List.take_left' (length_leBytes 4 size)]
  have whole : (readdirBody fh offset size).length = Tree.fuseReadInSize := by
    simp only [readdirBody, List.length_append, length_leBytes, List.length_replicate]
    rfl
  rw [Tree.readIn, if_neg (by omega), start, room, ofLeBytes_leBytes 8 offset far,
    ofLeBytes_leBytes 4 size small]

omit mounting sound few in
theorem page_isPrefix (inode : Nat) (entry : Format.Entry) (plus : Bool) (asked : Tree.FuseReadIn) :
    tree.page inode entry plus asked <+: tree.rowsFrom inode entry asked.offset :=
  fill_isPrefix _ _ _ _

omit mounting few in
/-- The names on a page are the next ones of the listing. -/
theorem page_names (inode : Nat) (entry : Format.Entry) (plus : Bool) (asked : Tree.FuseReadIn) :
    (tree.page inode entry plus asked).map (fun placed => placed.2.name) <+:
      (tree.labels inode).drop asked.offset := by
  rw [← Tree.rowsFrom_names sound inode entry]
  exact (page_isPrefix inode entry plus asked).map _

omit mounting few in
/-- The rows on a page are at the next places of the listing. -/
theorem page_places (inode : Nat) (entry : Format.Entry) (plus : Bool) (asked : Tree.FuseReadIn) :
    (tree.page inode entry plus asked).map Prod.fst =
      List.range' asked.offset (tree.page inode entry plus asked).length := by
  have places : (tree.page inode entry plus asked).map Prod.fst <+: List.range' asked.offset
      (tree.totalEntries inode - asked.offset) := by
    rw [← Tree.rowsFrom_places sound inode entry]
    exact (page_isPrefix inode entry plus asked).map Prod.fst
  have short := places.length_le
  have taken := List.prefix_iff_eq_take.mp places
  rw [List.length_map] at short taken
  rw [List.length_range'] at short
  rw [taken, List.take_range'_of_length_ge short]

omit mounting sound few in
theorem mem_page {inode : Nat} {entry : Format.Entry} {plus : Bool} {asked : Tree.FuseReadIn}
    {placed : Nat × Tree.Row} (member : placed ∈ tree.page inode entry plus asked) :
    tree.rowAt inode entry placed.1 = some placed.2 := by
  have among := (page_isPrefix inode entry plus asked).subset member
  obtain ⟨i, _, found⟩ := List.mem_filterMap.mp among
  obtain ⟨row, here, rfl⟩ := Option.map_eq_some_iff.mp found
  exact here

/-- What the kernel reads of an answer are the rows of the page. -/
theorem readDirents_page {inode : Nat} {entry : Format.Entry}
    (at_ : entryAt tree.manifest inode = some entry) (plus : Bool) (asked : Tree.FuseReadIn) :
    readDirents plus ((tree.page inode entry plus asked).flatMap (Tree.rowBytes plus)) =
      (tree.page inode entry plus asked).map (dirent plus) :=
  readDirents_flatMap plus fun _ member => rowFits mounting sound few at_ (mem_page member)

omit mounting few in
/-- A reader goes on behind the page it was given. -/
theorem given_page {reader : Reader} {entry : Format.Entry} (plus : Bool) (size : Nat) :
    reader.given ((tree.page reader.dir entry plus ⟨reader.reading.offset, size⟩).map
      (dirent plus)) = ⟨reader.dir, reader.reading.advance
        ((tree.page reader.dir entry plus ⟨reader.reading.offset, size⟩).map
          fun placed => placed.2.name)⟩ := by
  have places := page_places sound reader.dir entry plus ⟨reader.reading.offset, size⟩
  generalize tree.page reader.dir entry plus ⟨reader.reading.offset, size⟩ = page at places
  have names : (page.map (dirent plus)).map Dirent.name = page.map fun placed => placed.2.name := by
    rw [List.map_map]
    rfl
  have offs : (((page.map (dirent plus)).getLast?).map Dirent.off).getD reader.reading.offset =
      reader.reading.offset + page.length := by
    rw [← List.getLast?_map, List.map_map]
    have off : Dirent.off ∘ dirent plus = Nat.succ ∘ Prod.fst := rfl
    rw [off, ← List.map_map, places, List.getLast?_map]
    change ((List.range' reader.reading.offset page.length).getLast?.map Nat.succ).getD _ = _
    rw [List.getLast?_range']
    split
    · next none =>
        rw [none]
        rfl
    · next some =>
        simp only [Option.map_some, Option.getD_some]
        omega
  rw [Reader.given, names, offs, PageReader.advance, List.length_map]

omit few in
/-- Entries kept out of a listing are what their names resolve to. -/
theorem listed_current {kernel : Kernel} (current : Current tree kernel) {inode : Nat}
    {entry : Format.Entry} (plus : Bool) {rows : List (Nat × Tree.Row)}
    (placed : ∀ row ∈ rows, tree.rowAt inode entry row.1 = some row.2) :
    Current tree (kernel.listed inode (rows.map (dirent plus))) := by
  induction rows generalizing kernel with
  | nil => exact current
  | cons first rows ih =>
      rw [List.forall_mem_cons] at placed
      refine ih ?_ placed.2
      obtain ⟨i, row⟩ := first
      have found : tree.rowAt inode entry i = some row := placed.1
      cases plus with
      | false => exact current
      | true =>
          cases has : row.attr with
          | none =>
              simp only [dirent, if_true, has]
              exact current
          | some attr =>
              simp only [dirent, if_true, has]
              split
              · exact current
              · exact current.link sound (Tree.resolve_of_attr sound mounting.apart found has)

end Pages

/-! ### Steps -/

section Steps

variable {owner : Owner} {manifest : Format.Manifest} {handoff : LinkPipe.Handoff}

/-- What every step keeps. -/
structure Holds (owner : Owner) (manifest : Format.Manifest) (handoff : LinkPipe.Handoff)
    (mount : Mount) : Prop where
  sound : Sound manifest mount.server.synthetic
  few : Few mount.server.synthetic
  waiting : ∀ buf, mount.server.inbox = some buf →
    mount.server.synthetic.links = [] ∧ buf ++ mount.pipe = handoff.framed
  current : Current (mount.tree owner manifest) mount.kernel
  follows : ∀ fh reader, mount.readers fh = some reader → (entryAt manifest reader.dir).isSome ∧
    reader.reading.Follows ((mount.tree owner manifest).labels reader.dir)

theorem start_holds (owner : Owner) (manifest : Format.Manifest) (handoff : LinkPipe.Handoff) :
    Holds owner manifest handoff (Mount.start manifest handoff) where
  sound := new_sound manifest
  few := Nat.zero_le _
  waiting := by
    intro buf held
    rw [← Option.some.inj held]
    exact ⟨rfl, rfl⟩
  current := Current.empty _
  follows := fun _ _ impossible => nomatch impossible

theorem length_encodePairs (pairs : LinkPipe.Pairs) :
    pairs.length ≤ (LinkPipe.encodePairs pairs).length := by
  induction pairs with
  | nil => exact Nat.zero_le _
  | cons pair pairs ih =>
      rw [LinkPipe.encodePairs, List.flatMap_cons, List.length_append, List.length_cons]
      rw [LinkPipe.encodePairs] at ih
      simp only [List.length_append, List.length_cons]
      omega

/-- A message lists no more than it has bytes for. -/
theorem length_pairs_le (handoff : LinkPipe.Handoff) :
    handoff.links.entries.length + handoff.shadows.entries.length + 1 ≤ handoff.framed.length := by
  have links := length_encodePairs handoff.links.entries
  have shadows := length_encodePairs handoff.shadows.entries
  rw [LinkPipe.Handoff.framed, List.length_append, handoff.length_body]
  simp only [List.length_append, List.length_cons]
  omega

/-- Reading the pipe changes nothing, or serves all that was handed over. -/
theorem takeLinks_changes (mounting : Mounting manifest handoff) {mount : Mount}
    (holds : Holds owner manifest handoff mount) {outcome : LinkPipe.Read}
    (begins : outcome.content <+: mount.pipe) :
    Changes manifest mount.server.synthetic (takeLinks manifest mount.server outcome).1.synthetic
      (takeLinks manifest mount.server outcome).2 ∧
    Few (takeLinks manifest mount.server outcome).1.synthetic ∧
    ∀ buf, (takeLinks manifest mount.server outcome).1.inbox = some buf →
      (takeLinks manifest mount.server outcome).1.synthetic.links = [] ∧
        buf ++ mount.pipe.drop outcome.content.length = handoff.framed := by
  cases held : mount.server.inbox with
  | none =>
      rw [takeLinks, held]
      refine ⟨Changes.none _ _, holds.few, fun buf impossible => ?_⟩
      rw [held] at impossible
      cases impossible
  | some buf =>
      obtain ⟨unlinked, whole⟩ := holds.waiting buf held
      -- Nothing more is awaited.
      have ended (next : Bytes) (read : LinkPipe.read buf outcome = (next, .done none)) :
          takeLinks manifest mount.server outcome = ({ mount.server with inbox := none }, []) := by
        rw [takeLinks, held]
        dsimp only
        rw [read]
      -- The message is not there yet.
      have pending (next : Bytes) (read : LinkPipe.read buf outcome = (next, .pending)) :
          takeLinks manifest mount.server outcome =
            ({ mount.server with inbox := some next }, []) := by
        rw [takeLinks, held]
        dsimp only
        rw [read]
      cases outcome with
      | again =>
          rw [pending buf rfl]
          refine ⟨Changes.none _ _, holds.few, fun other same => ?_⟩
          rw [← Option.some.inj same]
          exact ⟨unlinked, whole⟩
      | failed =>
          rw [ended buf rfl]
          exact ⟨Changes.none _ _, holds.few, by simp⟩
      | bytes chunk =>
          by_cases closed : chunk = []
          · rw [ended buf (by rw [LinkPipe.read, if_pos closed])]
            exact ⟨Changes.none _ _, holds.few, by simp⟩
          · obtain ⟨rest, split⟩ := begins
            change chunk ++ rest = mount.pipe at split
            have fits : 8 + handoff.body.length < u64Limit := by
              have message := mounting.message
              have limit : LinkPipe.vecLimit < u64Limit := by decide
              rw [LinkPipe.Handoff.framed, List.length_append, length_leBytes] at message
              omega
            have ahead : (buf ++ chunk) ++ rest = handoff.framed := by
              rw [List.append_assoc, split, whole]
            have read : LinkPipe.read buf (.bytes chunk) =
                (buf ++ chunk, LinkPipe.answer (buf ++ chunk)) := by
              rw [LinkPipe.read, if_neg closed]
            by_cases last : buf ++ chunk = handoff.framed
            · have answered : LinkPipe.answer (buf ++ chunk) = .done (some handoff.received) := by
                rw [last, LinkPipe.Handoff.framed, LinkPipe.answer_framed fits,
                  handoff.decode_body (by omega)]
              have taken : takeLinks manifest mount.server (.bytes chunk) =
                  (⟨(serveMessage manifest mount.server.synthetic handoff.received).1, none⟩,
                    (serveMessage manifest mount.server.synthetic handoff.received).2) := by
                rw [takeLinks, held]
                dsimp only
                rw [read, answered]
              obtain ⟨sources, sends⟩ := mounting.sends
              rw [taken]
              refine ⟨serveMessage_changes mounting.strings sends _, ?_,
                by simp⟩
              have count : (serveMessage manifest mount.server.synthetic
                  handoff.received).1.links.length ≤ mount.server.synthetic.links.length +
                    handoff.links.entries.length + handoff.shadows.entries.length + 1 :=
                length_serveMessage_le _ _
              rw [unlinked, List.length_nil, Nat.zero_add] at count
              exact (count.trans (length_pairs_le handoff)).trans mounting.message
            · have answered : LinkPipe.answer (buf ++ chunk) = .pending :=
                LinkPipe.answer_eq_pending fits ⟨rest, ahead⟩ last
              rw [pending (buf ++ chunk) (by rw [read, answered])]
              refine ⟨Changes.none _ _, holds.few, fun other same => ⟨unlinked, ?_⟩⟩
              rw [← Option.some.inj same, ← split]
              change (buf ++ chunk) ++ (chunk ++ rest).drop chunk.length = _
              rw [List.drop_left, ahead]

/-- The tree of a mount is of one mind with its package. -/
theorem Holds.tree {mount : Mount} (holds : Holds owner manifest handoff mount) :
    Sound (mount.tree owner manifest).manifest (mount.tree owner manifest).synthetic := holds.sound

theorem handleReaddir_eq {tree : Tree} {inode : Nat} {body : Bytes} {asked : Tree.FuseReadIn}
    {entry : Format.Entry} (read : Tree.readIn body = some asked)
    (at_ : entryAt tree.manifest inode = some entry) (plus : Bool) :
    tree.handleReaddir inode body plus =
      .ok ((tree.page inode entry plus asked).flatMap (Tree.rowBytes plus)) := by
  rw [Tree.handleReaddir, read]
  dsimp only
  rw [at_]

theorem handleOpendir_ok {tree : Tree} {inode : Nat} {payload : Bytes}
    (answered : tree.handleOpendir inode = .ok payload) : (entryAt tree.manifest inode).isSome := by
  rw [Tree.handleOpendir] at answered
  cases at_ : entryAt tree.manifest inode with
  | none =>
      rw [at_] at answered
      cases answered
  | some entry => rfl

theorem page_eq (mount : Mount) (fh size : Nat) (plus : Bool) (reader : Reader) :
    mount.page owner manifest fh size plus reader =
      (mount.tree owner manifest).handleReaddir reader.dir
        (readdirBody fh reader.reading.offset size) plus := by
  cases plus <;> rfl

/-- An open directory is answered with a page of it. -/
theorem page_ok (mounting : Mounting manifest handoff) {mount : Mount}
    (holds : Holds owner manifest handoff mount) {fh size : Nat} {reader : Reader}
    (opened : mount.readers fh = some reader) (small : size < 256 ^ 4) (plus : Bool) :
    ∃ entry, entryAt manifest reader.dir = some entry ∧
      mount.page owner manifest fh size plus reader =
        .ok (((mount.tree owner manifest).page reader.dir entry plus
          ⟨reader.reading.offset, size⟩).flatMap (Tree.rowBytes plus)) := by
  obtain ⟨placed, follows⟩ := holds.follows fh reader opened
  obtain ⟨entry, at_⟩ := Option.isSome_iff_exists.mp placed
  have fits : Mounting (mount.tree owner manifest).manifest handoff := mounting
  have total := total_fits fits holds.few reader.dir
  have reach := follows.1
  rw [Tree.length_labels] at reach
  refine ⟨entry, at_, ?_⟩
  rw [page_eq]
  exact handleReaddir_eq (readIn_readdirBody fh (by omega) small) at_ plus

theorem Holds.step (mounting : Mounting manifest handoff) {mount next : Mount}
    (holds : Holds owner manifest handoff mount) {event : Event}
    (steps : mount.step owner manifest event = some next) : Holds owner manifest handoff next := by
  have fits : Mounting (mount.tree owner manifest).manifest handoff := mounting
  -- Nothing but what the kernel keeps changes.
  have kept {kernel : Kernel} (current : Current (mount.tree owner manifest) kernel) :
      Holds owner manifest handoff { mount with kernel := kernel } :=
    ⟨holds.sound, holds.few, holds.waiting, current, holds.follows⟩
  cases event with
  | deliver outcome =>
      rw [Mount.step] at steps
      split at steps
      · next begins =>
          obtain ⟨changes, few, waiting⟩ := takeLinks_changes mounting holds
            (List.isPrefixOf_iff_prefix.mp begins)
          rw [← Option.some.inj steps]
          refine ⟨changes.sound holds.sound, few, waiting, ?_, fun fh reader opened => ?_⟩
          · exact holds.current.serving holds.sound changes
          · obtain ⟨placed, follows⟩ := holds.follows fh reader opened
            have grows : (mount.tree owner manifest).labels reader.dir <+: _ :=
              Tree.labels_serving changes reader.dir
            exact ⟨placed, follows.grow grows⟩
      · cases steps
  | lookup parent name =>
      rw [Mount.step] at steps
      split at steps
      · cases steps
      · next plain =>
          rw [← Option.some.inj steps]
          apply kept
          have unended : 0 ∉ name := by simpa using plain
          change Current _ (mount.kernel.looked parent name
            ((mount.tree owner manifest).handleLookup parent (name ++ [0])))
          cases answered : (mount.tree owner manifest).handleLookup parent (name ++ [0]) with
          | error errno => exact holds.current.drop parent name
          | ok payload =>
              obtain ⟨attr, rfl, resolved⟩ := handleLookup_eq_ok unended answered
              have narrow := ino_fits fits holds.tree holds.few
                (Tree.attr_of_resolve holds.tree resolved)
              rw [Kernel.looked, readEntryOut_entryOut narrow]
              exact holds.current.link holds.sound resolved
  | getattr inode =>
      rw [Mount.step] at steps
      rw [← Option.some.inj steps]
      apply kept
      change Current _ (mount.kernel.statted inode ((mount.tree owner manifest).handleGetattr inode))
      cases answered : (mount.tree owner manifest).handleGetattr inode with
      | error errno => exact holds.current.forget inode
      | ok payload =>
          obtain ⟨attr, rfl, found⟩ := handleGetattr_eq_ok answered
          rw [Kernel.statted, readAttrOut_attrOut]
          exact holds.current.know found
  | opendir fh inode =>
      rw [Mount.step] at steps
      split at steps
      · rw [← Option.some.inj steps]
        exact holds
      · next payload answered =>
          rw [← Option.some.inj steps]
          refine ⟨holds.sound, holds.few, holds.waiting, holds.current, fun other reader opened => ?_⟩
          change (if other = fh then some _ else mount.readers other) = some reader at opened
          split at opened
          · rw [← Option.some.inj opened]
            exact ⟨handleOpendir_ok answered, PageReader.start_follows _⟩
          · exact holds.follows other reader opened
  | readdir fh size plus =>
      rw [Mount.step] at steps
      split at steps
      · cases steps
      · next small =>
          obtain ⟨reader, opened, steps⟩ := Option.bind_eq_some_iff.mp steps
          obtain ⟨entry, at_, answered⟩ := page_ok mounting holds opened (Nat.lt_of_not_le small) plus
          rw [answered] at steps
          dsimp only at steps
          rw [readDirents_page fits holds.tree holds.few at_ plus] at steps
          rw [← Option.some.inj steps]
          refine ⟨holds.sound, holds.few, holds.waiting, ?_, fun other reader' opened' => ?_⟩
          · exact listed_current fits holds.tree holds.current plus fun row member =>
              mem_page member
          · change (if other = fh then some _ else mount.readers other) = some reader' at opened'
            split at opened'
            · rw [← Option.some.inj opened', given_page holds.tree plus size]
              obtain ⟨placed, follows⟩ := holds.follows fh reader opened
              exact ⟨placed, follows.advance (page_names holds.tree _ _ _ _)⟩
            · exact holds.follows other reader' opened'
  | drop parent name =>
      rw [← Option.some.inj steps]
      exact kept (holds.current.drop parent name)
  | forget inode =>
      rw [← Option.some.inj steps]
      exact kept (holds.current.forget inode)

theorem Holds.run (mounting : Mounting manifest handoff) {mount last : Mount}
    (holds : Holds owner manifest handoff mount) {events : List Event}
    (ran : mount.run owner manifest events = some last) : Holds owner manifest handoff last := by
  induction events generalizing mount with
  | nil =>
      rw [← Option.some.inj ran]
      exact holds
  | cons event events ih =>
      obtain ⟨next, steps, rest⟩ := Option.bind_eq_some_iff.mp ran
      exact ih (holds.step mounting steps) rest

end Steps

end Onelf.Runtime.FuseTree
