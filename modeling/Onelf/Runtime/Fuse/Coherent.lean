import Onelf.Runtime.Fuse.Mounted

/-! What a mount guarantees while links are handed over: the kernel's caches stay right, and every
directory is read whole. -/

namespace Onelf.Runtime.FuseTree

open Onelf.Lib
open Onelf.Runtime.Fuse (entryToInode inodeToEntry)

section

variable {data : Bytes} {manifest : Format.Manifest}

/-- A manifest that was read is valid, and its tables are no larger than their counts can say. -/
theorem deserialize_sizes (accepted : Format.Manifest.deserialize data = .ok manifest) :
    manifest.Valid ∧ manifest.entries.length < 256 ^ 4 ∧ manifest.stringTable.length < 256 ^ 4 := by
  rcases Except.andThen_eq_ok.mp accepted with ⟨read, reads, checked⟩
  rcases Codec.map_fst_eq_ok.mp reads with ⟨last, reads⟩
  rw [Except.followed_eq_ok] at checked
  cases checked.2
  refine ⟨Format.validate_eq_ok.mp checked.1, ?_⟩
  simp only [Format.readManifest, Codec.bind_eq_ok, Codec.pure_eq_ok] at reads
  rcases reads with ⟨header, _, first, _, _, _, _, _, _, entries, _, third, _, _, _, _, _, _, _, _, _,
    strings, _, last, built, _⟩
  have fits := ((Format.header_reads _ _ _).mp first).1
  have rows := (((Format.entry_reads _).repeated _ _ _ _).mp third).1.1
  have table := ((Codec.take_reads _ _ _ _ _).mp last).1
  rw [built]
  exact ⟨rows ▸ fits.2.1, table ▸ fits.2.2.1⟩

variable {tree : Tree}

/-- What resolves is a name of a directory of the package. -/
theorem resolve_spelled {handoff : LinkPipe.Handoff} (mounting : Mounting tree.manifest handoff)
    (sound : Sound tree.manifest tree.synthetic) {parent : Nat} {name : Bytes} {attr : FuseAttr}
    (resolved : tree.resolve parent name = some attr) :
    (entryAt tree.manifest parent).isSome ∧ Spelled name := by
  rw [Tree.resolve] at resolved
  cases named : tree.childNamed parent name with
  | some child =>
      obtain ⟨member, rfl⟩ := Tree.childNamed_eq_some named
      refine ⟨?_, entryName_spelled mounting.strings child⟩
      obtain ⟨entry, at_, below, rfl⟩ := mem_childrenOf member
      obtain ⟨index, _, held⟩ := entryAt_eq_some.mp at_
      obtain ⟨_, dir, found, _⟩ :=
        (mounting.valid.entries index entry held).1.resolve_left below
      rw [entryAt_entryToInode, found]
      rfl
  | none =>
      rw [named] at resolved
      obtain ⟨inode, found, _⟩ := Option.bind_eq_some_iff.mp resolved
      obtain ⟨link, got, rfl, rfl⟩ := sound.named.mp found
      exact ⟨sound.placed got, sound.spelled got⟩

/-- The one name that is answered as if it were not there. -/
def Armed (parent : Nat) (name : Bytes) : Prop := parent = entryToInode 0 ∧ name = Tree.traceArm

theorem handleLookup_of_resolve {handoff : LinkPipe.Handoff}
    (mounting : Mounting tree.manifest handoff) (sound : Sound tree.manifest tree.synthetic)
    {parent : Nat} {name : Bytes} {attr : FuseAttr} (unarmed : ¬Armed parent name)
    (resolved : tree.resolve parent name = some attr) :
    tree.handleLookup parent (name ++ [0]) = .ok (entryOut attr) := by
  obtain ⟨placed, spelled⟩ := resolve_spelled mounting sound resolved
  obtain ⟨dir, at_⟩ := Option.isSome_iff_exists.mp placed
  obtain ⟨index, rfl, held⟩ := entryAt_eq_some.mp at_
  have inside := (List.getElem?_eq_some_iff.mp held).1
  have real : ¬(entryToInode index = 0 ∨
      inodeToEntry (entryToInode index) ≥ tree.manifest.entries.length) := by
    rw [entryToInode, inodeToEntry]
    omega
  have absent : ¬(entryToInode index = entryToInode 0 ∧ name = Tree.traceArm) := unarmed
  rw [Tree.handleLookup, if_neg real, takeWhile_ended spelled.ends]
  dsimp only
  rw [if_neg (by rw [spelled.valid]; decide), if_neg absent, resolved, Tree.reply]

/-- A package, its launch and a run of its mount. -/
theorem mounted {handoff : LinkPipe.Handoff} {sources : Sources} {sent : Bytes} {owner : Owner}
    {events : List Event} {mount : Mount}
    (accepted : Format.Manifest.deserialize data = .ok manifest) (apart : Apart manifest)
    (messaged : handoff.message = some sent)
    (sends : handoff.links = wanted manifest handoff.dir.bytes sources)
    (ran : (Mount.start manifest handoff).run owner manifest events = some mount) :
    Mounting manifest handoff ∧ Holds owner manifest handoff mount := by
  obtain ⟨valid, entries, strings⟩ := deserialize_sizes accepted
  have mounting : Mounting manifest handoff :=
    ⟨valid, entries, strings, apart, (Option.ite_none_right_eq_some.mp messaged).1, sources, sends⟩
  exact ⟨mounting, (start_holds owner manifest handoff).run mounting ran⟩

end

/-! ### The kernel's caches -/

section

variable {data : Bytes} {manifest : Format.Manifest} {handoff : LinkPipe.Handoff} {sources : Sources}
  {sent : Bytes} {owner : Owner} {events : List Event} {mount : Mount}

/-- However requests, dropped cache entries and the hand-over of the links follow one another, a
name the kernel keeps is answered with the inode it keeps, and an inode with the attributes. -/
theorem kept_current (accepted : Format.Manifest.deserialize data = .ok manifest)
    (apart : Apart manifest) (messaged : handoff.message = some sent)
    (sends : handoff.links = wanted manifest handoff.dir.bytes sources)
    (ran : (Mount.start manifest handoff).run owner manifest events = some mount) :
    (∀ parent name inode, mount.kernel.names parent name = some inode → ¬Armed parent name →
      ∃ attr, mount.answer owner manifest .lookup parent (name ++ [0]) = .ok (entryOut attr) ∧
        attr.ino = inode) ∧
    ∀ inode bytes, mount.kernel.attrs inode = some bytes →
      ∃ attr, mount.answer owner manifest .getattr inode [] = .ok (attrOut attr) ∧
        attr.bytes = bytes := by
  obtain ⟨mounting, holds⟩ := mounted accepted apart messaged sends ran
  have fits : Mounting (mount.tree owner manifest).manifest handoff := mounting
  constructor
  · intro parent name inode kept unarmed
    obtain ⟨attr, resolved, same⟩ := holds.current.names parent name inode kept
    exact ⟨attr, handleLookup_of_resolve fits holds.tree unarmed resolved, same⟩
  · intro inode bytes kept
    obtain ⟨attr, found, same⟩ := holds.current.attrs inode bytes kept
    refine ⟨attr, ?_, same⟩
    change (mount.tree owner manifest).handleGetattr inode = _
    rw [Tree.handleGetattr, found, Tree.reply]

/-! ### Directories read to their end -/

theorem flatMap_rowBytes_eq_nil {plus : Bool} {rows : List (Nat × Tree.Row)} :
    rows.flatMap (Tree.rowBytes plus) = [] ↔ rows = [] := by
  cases rows with
  | nil => exact iff_of_true rfl rfl
  | cons row rows =>
      refine iff_of_false (fun none => ?_) (List.cons_ne_nil _ _)
      have length := congrArg List.length none
      have bound := dentSize_le plus row.2.name.length
      have base : direntBaseSize = 24 := rfl
      rw [List.flatMap_cons, List.length_append, length_rowBytes, List.length_nil] at length
      omega

/-- Whatever else happens between the requests, the names a reader of a directory was given are
the first ones it lists now, none twice and those that a lookup finds. Where any row fits, the next
answer is empty at the end only, and its rows are what a lookup answers. -/
theorem listing_read (accepted : Format.Manifest.deserialize data = .ok manifest)
    (apart : Apart manifest) (messaged : handoff.message = some sent)
    (sends : handoff.links = wanted manifest handoff.dir.bytes sources)
    (ran : (Mount.start manifest handoff).run owner manifest events = some mount) :
    ∀ fh reader, mount.readers fh = some reader →
      reader.reading.labels <+: (mount.tree owner manifest).labels reader.dir ∧
      (((mount.tree owner manifest).labels reader.dir).drop 2).Nodup ∧
      (∀ name, 0 ∉ name → ¬Armed reader.dir name →
        (name ∈ ((mount.tree owner manifest).labels reader.dir).drop 2 ↔ ∃ payload,
          mount.answer owner manifest .lookup reader.dir (name ++ [0]) = .ok payload)) ∧
      ∀ size plus, size < 256 ^ 4 →
        (∀ name ∈ (mount.tree owner manifest).labels reader.dir,
          dentSize plus name.length ≤ size) →
        ∃ payload, mount.page owner manifest fh size plus reader = .ok payload ∧
          (payload = [] ↔
            reader.reading.labels = (mount.tree owner manifest).labels reader.dir) ∧
          ∀ dirent ∈ readDirents plus payload, 2 < dirent.off → ¬Armed reader.dir dirent.name →
            ∃ attr, mount.answer owner manifest .lookup reader.dir (dirent.name ++ [0]) =
                .ok (entryOut attr) ∧
              attr.ino = dirent.ino ∧ Tree.typeOf attr.mode = dirent.typ := by
  obtain ⟨mounting, holds⟩ := mounted accepted apart messaged sends ran
  have fits : Mounting (mount.tree owner manifest).manifest handoff := mounting
  intro fh reader opened
  obtain ⟨_, follows⟩ := holds.follows fh reader opened
  refine ⟨follows.isPrefix, Tree.nodup_labels holds.tree apart reader.dir, ?_, ?_⟩
  · intro name plain unarmed
    rw [Tree.mem_labels_iff holds.tree apart]
    constructor
    · intro served
      obtain ⟨attr, resolved⟩ := Option.isSome_iff_exists.mp served
      exact ⟨_, handleLookup_of_resolve fits holds.tree unarmed resolved⟩
    · rintro ⟨payload, answered⟩
      obtain ⟨attr, _, resolved⟩ := handleLookup_eq_ok plain answered
      rw [resolved]
      rfl
  · intro size plus small roomy
    obtain ⟨entry, at_, answered⟩ := page_ok mounting holds opened small plus
    refine ⟨_, answered, ?_, ?_⟩
    · have rooms : ∀ placed ∈ (mount.tree owner manifest).rowsFrom reader.dir entry
          reader.reading.offset, dentSize plus placed.2.name.length ≤ size := by
        intro placed member
        have named := List.mem_map_of_mem (f := fun placed : Nat × Tree.Row => placed.2.name) member
        rw [Tree.rowsFrom_names holds.tree] at named
        exact roomy _ (List.mem_of_mem_drop named)
      rw [flatMap_rowBytes_eq_nil, Tree.page, fill_eq_nil _ _ rooms, ← follows.whole_iff,
        ← Tree.rowsFrom_names holds.tree reader.dir entry, List.map_eq_nil_iff]
    · rw [readDirents_page fits holds.tree holds.few at_ plus]
      intro dirent member behind unarmed
      obtain ⟨⟨i, row⟩, listed, rfl⟩ := List.mem_map.mp member
      have found := mem_page listed
      change 2 < i + 1 at behind
      obtain ⟨k, rfl⟩ := Nat.exists_eq_add_of_le' (Nat.lt_succ_iff.mp behind)
      obtain ⟨attr, has, resolved⟩ := Tree.resolve_of_row holds.tree apart found
      obtain ⟨sameIno, sameTyp⟩ := Tree.row_agrees holds.tree found has
      exact ⟨attr, handleLookup_of_resolve fits holds.tree unarmed resolved, sameIno, sameTyp.symm⟩

end

/-! ### A bundled libc that the host's takes the place of -/

def libcName : Bytes := utf8 "libc.so.6"

/-- `lib/libc.so.6` under the root. -/
def libcManifest : Format.Manifest where
  header := ⟨3, 3, 15, 0, 0, 0, 0, Format.zeroDigest, Format.zeroDigest, Format.zeroDigest⟩
  entrypoints := []
  entries :=
    [⟨.dir, Format.u32Max, 0, 0o755, 0, 0, Format.zeroDigest, [], 0⟩,
      ⟨.dir, 0, 1, 0o755, 0, 0, Format.zeroDigest, [], 0⟩,
      ⟨.file, 1, 5, 0o755, 0, 0, Format.zeroDigest, [], 0⟩]
  libDirOffsets := []
  stringTable := utf8 "\x00lib\x00libc.so.6\x00"

theorem libcManifest_accepted :
    Format.Manifest.deserialize (Format.bodyBytes libcManifest) = .ok libcManifest := by
  decide +kernel

theorem libcManifest_apart : Apart libcManifest := by
  intro inode
  rcases Nat.lt_or_ge 3 inode with beyond | inside
  · rw [childrenOf_beyond beyond]
    exact List.nodup_nil
  · have each : ∀ inode < 4, ((childrenOf libcManifest inode).map
        (entryName libcManifest)).Nodup := by
      decide +kernel
    exact each inode (Nat.lt_succ_of_le inside)

/-- The farm holds the host's libc and a library the package does not carry. -/
def libcSources : Sources where
  farm := [(utf8 "libGL.so.1", some (utf8 "/usr/lib/libGL.so.1")),
    (libcName, some (utf8 "/usr/lib/libc.so.6"))]
  sets := []
  farmShort := by decide +kernel
  setsShort := fun _ member => absurd member List.not_mem_nil

def libcShadows : SortedMap Text Bytes :=
  ⟨[(⟨utf8 "lib/libc.so.6", by decide +kernel⟩, utf8 "/usr/lib/libc.so.6")],
    List.pairwise_singleton _ _⟩

theorem libcShadows_plain : ∀ pair ∈ libcShadows.entries, LinkPipe.Plain pair := by
  simpa [libcShadows, LinkPipe.Plain] using (by decide +kernel)

def libcHandoff : LinkPipe.Handoff :=
  { LinkPipe.fixture with shadows := libcShadows, shadowsPlain := libcShadows_plain }

theorem libcHandoff_message : libcHandoff.message = some libcHandoff.framed := by
  rw [LinkPipe.Handoff.message, if_pos (by decide +kernel)]

theorem libcHandoff_sends :
    libcHandoff.links = wanted libcManifest libcHandoff.dir.bytes libcSources := by
  decide +kernel

/-- The directory is half read and the libc looked up before the links arrive, and again after
that. -/
def libcEvents : List Event :=
  [.opendir 3 2, .readdir 3 64 false, .lookup 2 libcName,
    .deliver (.bytes (libcHandoff.framed.take 9)), .deliver (.bytes (libcHandoff.framed.drop 9)),
    .lookup 2 libcName, .getattr 5, .readdir 3 4096 true]

def libcMount : Mount :=
  ((Mount.start libcManifest libcHandoff).run ⟨1000, 1000⟩ libcManifest libcEvents).getD
    (Mount.start libcManifest libcHandoff)

theorem libcMount_ran : (Mount.start libcManifest libcHandoff).run ⟨1000, 1000⟩ libcManifest
    libcEvents = some libcMount := by
  have ends : ((Mount.start libcManifest libcHandoff).run ⟨1000, 1000⟩ libcManifest
      libcEvents).isSome = true := by
    decide +kernel
  rw [libcMount, Option.getD_of_ne_none (Option.isSome_iff_ne_none.mp ends)]

/-- The kernel has the shadow's inode under the bundled copy's name, and so has a lookup. -/
theorem kept_current_libc : libcMount.kernel.names 2 libcName = some 5 ∧ ∃ attr,
    libcMount.answer ⟨1000, 1000⟩ libcManifest .lookup 2 (libcName ++ [0]) = .ok (entryOut attr) ∧
      attr.ino = 5 := by
  have kept : libcMount.kernel.names 2 libcName = some 5 := by decide +kernel
  exact ⟨kept, (kept_current libcManifest_accepted libcManifest_apart libcHandoff_message
    libcHandoff_sends libcMount_ran).1 2 libcName 5 kept fun armed => absurd armed.1 (by decide)⟩

/-- The reader that began before the links arrived was given each name once, and has no more to
come. -/
theorem listing_read_libc : ∃ reader, libcMount.readers 3 = some reader ∧
    reader.reading.labels = [utf8 ".", utf8 "..", libcName, utf8 "libGL.so.1"] ∧ ∃ payload,
      libcMount.page ⟨1000, 1000⟩ libcManifest 3 4096 true reader = .ok payload ∧
        (payload = [] ↔ reader.reading.labels =
          (libcMount.tree ⟨1000, 1000⟩ libcManifest).labels reader.dir) := by
  have reads : (libcMount.readers 3).map (fun reader => (reader.dir, reader.reading.labels)) =
      some (2, [utf8 ".", utf8 "..", libcName, utf8 "libGL.so.1"]) := by
    decide +kernel
  obtain ⟨reader, opened, same⟩ := Option.map_eq_some_iff.mp reads
  obtain ⟨dir, labels⟩ := Prod.mk.inj same
  have roomy : ∀ name ∈ (libcMount.tree ⟨1000, 1000⟩ libcManifest).labels 2,
      dentSize true name.length ≤ 4096 := by
    decide +kernel
  rw [← dir] at roomy
  obtain ⟨_, _, _, pages⟩ := listing_read libcManifest_accepted libcManifest_apart
    libcHandoff_message libcHandoff_sends libcMount_ran 3 reader opened
  obtain ⟨payload, answered, ended, _⟩ := pages 4096 true (by decide) roomy
  exact ⟨reader, opened, labels, payload, answered, ended⟩

end Onelf.Runtime.FuseTree
