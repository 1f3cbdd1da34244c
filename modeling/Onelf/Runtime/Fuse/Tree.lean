import Mathlib.Data.List.AList
import Onelf.Format.EntryPaths
import Onelf.Format.Resolve
import Onelf.Lib.Listing
import Onelf.Lib.Paging
import Onelf.Runtime.Fuse.Prefetch
import Onelf.Runtime.LinkPipe

/-! The tree a mount serves (`fuse/fs.rs`, `fuse/protocol.rs`, `links.rs`): the package's entries,
the links served beside them or in their place, and the answers about them. -/

namespace Onelf.Runtime.FuseTree

open Onelf.Lib
open Onelf.Runtime.Fuse (entryToInode inodeToEntry)

/-! ### What goes over the connection -/

structure FuseAttr where
  ino : Nat
  size : Nat
  blocks : Nat
  atime : Nat
  mtime : Nat
  ctime : Nat
  atimensec : Nat
  mtimensec : Nat
  ctimensec : Nat
  mode : Nat
  nlink : Nat
  uid : Nat
  gid : Nat
  rdev : Nat
  blksize : Nat
  flags : Nat
  deriving DecidableEq

def FuseAttr.bytes (attr : FuseAttr) : Bytes :=
  leBytes 8 attr.ino ++ leBytes 8 attr.size ++ leBytes 8 attr.blocks ++ leBytes 8 attr.atime ++
    leBytes 8 attr.mtime ++ leBytes 8 attr.ctime ++ leBytes 4 attr.atimensec ++
    leBytes 4 attr.mtimensec ++ leBytes 4 attr.ctimensec ++ leBytes 4 attr.mode ++
    leBytes 4 attr.nlink ++ leBytes 4 attr.uid ++ leBytes 4 attr.gid ++ leBytes 4 attr.rdev ++
    leBytes 4 attr.blksize ++ leBytes 4 attr.flags

def attrTimeout : Nat := 1000000000

def entryTimeout : Nat := 1000000000

/-- `FuseEntryOut`: an inode under its name, without a generation. -/
def entryOut (attr : FuseAttr) : Bytes :=
  leBytes 8 attr.ino ++ leBytes 8 0 ++ leBytes 8 entryTimeout ++ leBytes 8 attrTimeout ++
    leBytes 4 0 ++ leBytes 4 0 ++ attr.bytes

/-- `FuseAttrOut`. -/
def attrOut (attr : FuseAttr) : Bytes :=
  leBytes 8 attrTimeout ++ leBytes 4 0 ++ leBytes 4 0 ++ attr.bytes

/-- `FuseOpenOut`. -/
def openOut (fh flags : Nat) : Bytes := leBytes 8 fh ++ leBytes 4 flags ++ leBytes 4 0

def fopenKeepCache : Nat := 2

def direntBaseSize : Nat := 24

def entryOutSize : Nat := 128

def direntSize (nameLen : Nat) : Nat := roundUp 8 (direntBaseSize + nameLen)

def direntplusSize (nameLen : Nat) : Nat := roundUp 8 (entryOutSize + direntBaseSize + nameLen)

/-- The size of an entry of a listing, with attributes or without. -/
def dentSize (plus : Bool) (nameLen : Nat) : Nat :=
  if plus then direntplusSize nameLen else direntSize nameLen

inductive Errno where
  | enoent
  | eio
  | eacces
  | enotdir
  | eisdir
  | einval
  | enosys
  deriving DecidableEq

/-- An answer: an error, or the bytes behind the reply's header. -/
abbrev Reply := Except Errno Bytes

/-- A name the kernel is told to forget. -/
structure Notice where
  parent : Nat
  name : Bytes
  deriving DecidableEq

/-! ### The package's entries -/

/-- Whose files the mount shows: the launching user's. -/
structure Owner where
  uid : Nat
  gid : Nat

section
variable (owner : Owner) (manifest : Format.Manifest)

/-- The inodes in each directory, by the directory's inode. -/
def buildChildren : List (List Nat) :=
  manifest.entries.zipIdx.foldl (fun children (entry, idx) =>
    if entry.parent ≠ Format.u32Max then
      children.modify (entryToInode entry.parent) (· ++ [entryToInode idx])
    else children) (List.replicate (manifest.entries.length + 1) [])

def makeAttr (inode : Nat) (entry : Format.Entry) : FuseAttr :=
  let mode := match entry.kind with
    | .dir => 0o040000 ||| (entry.mode &&& 0o7777)
    | .file => 0o100000 ||| (entry.mode &&& 0o7777)
    | .symlink => 0o120000 ||| 0o777
  let size := match entry.kind with
    | .file => (entry.blocks.map Block.originalSize).sum % u64Limit
    | .symlink => (manifest.getString entry.symlinkTarget).length
    | .dir => 0
  { ino := inode
    size := size
    blocks := (size + 511) / 512
    atime := entry.mtimeSecs
    mtime := entry.mtimeSecs
    ctime := entry.mtimeSecs
    atimensec := entry.mtimeNsec
    mtimensec := entry.mtimeNsec
    ctimensec := entry.mtimeNsec
    mode := mode
    nlink := if entry.kind = .dir then 2 else 1
    uid := owner.uid
    gid := owner.gid
    rdev := 0
    blksize := 4096
    flags := 0 }

/-- The entry an inode of the package's own stands for. -/
def entryAt (inode : Nat) : Option Format.Entry :=
  if inode = 0 then none else manifest.entries[inodeToEntry inode]?

def entryName (inode : Nat) : Bytes :=
  ((entryAt manifest inode).map fun entry => manifest.getString entry.name).getD []

def childrenOf (inode : Nat) : List Nat := (buildChildren manifest).getD inode []

/-- The index of the directory entry at `rel`, relative to the package root. -/
def dirIndex (rel : Bytes) : Option Nat :=
  (List.range manifest.entries.length).find? fun i =>
    (manifest.entries[i]?).any fun entry => entry.kind = .dir ∧ manifest.entryPath i = rel

/-- The names the package itself has in `dir`. -/
def carried (dir : Bytes) : List Bytes :=
  match dirIndex manifest dir with
  | none => []
  | some idx =>
      (manifest.entries.filter fun entry => entry.parent = idx).map fun entry =>
        manifest.getString entry.name

end

/-! ### Entries served beside the package's own -/

structure SyntheticLink where
  parent : Nat
  name : Bytes
  /-- The link's target, or the file's content. -/
  target : Bytes
  file : Bool
  /-- It stands in for a package entry of the same name. -/
  shadow : Bool
  deriving DecidableEq

/-- The entries served beside the package's own; their inodes follow the manifest's, in the order
they were added. -/
structure Synthetic where
  first : Nat
  links : List SyntheticLink
  byName : AList fun _ : Nat × Bytes => Nat
  /-- The inode served in place of each shadowed package entry's. -/
  shadowed : AList fun _ : Nat => Nat

namespace Synthetic

def new (manifest : Format.Manifest) : Synthetic := ⟨manifest.entries.length + 1, [], ∅, ∅⟩

def add (synthetic : Synthetic) (parent : Nat) (name target : Bytes) (file : Bool) :
    Synthetic × Option Nat :=
  match synthetic.byName.lookup (parent, name) with
  | some _ => (synthetic, none)
  | none =>
      let inode := synthetic.first + synthetic.links.length
      ({ synthetic with
          byName := synthetic.byName.insert (parent, name) inode
          links := synthetic.links ++ [⟨parent, name, target, file, false⟩] }, some inode)

/-- Serve a symlink to `target` in place of the package entry `entry`, named `name` in directory
`parent`. -/
def shadow (synthetic : Synthetic) (entry parent : Nat) (name target : Bytes) : Synthetic :=
  match synthetic.shadowed.lookup entry with
  | some _ => synthetic
  | none =>
      match synthetic.add parent name target false with
      | (added, none) => added
      | (added, some inode) =>
          { added with
            links := added.links.modify (inode - added.first) fun link =>
              { link with shadow := true }
            shadowed := added.shadowed.insert entry inode }

/-- The inode served for the package entry `entry`: its own, or the one that shadows it. -/
def served (synthetic : Synthetic) (entry : Nat) : Nat :=
  (synthetic.shadowed.lookup entry).getD entry

def get (synthetic : Synthetic) (inode : Nat) : Option SyntheticLink :=
  if inode < synthetic.first then none else synthetic.links[inode - synthetic.first]?

def lookup (synthetic : Synthetic) (parent : Nat) (name : Bytes) : Option Nat :=
  synthetic.byName.lookup (parent, name)

/-- The links in directory `parent` that are served beside the package's entries. -/
def children (synthetic : Synthetic) (parent : Nat) : List (Nat × SyntheticLink) :=
  (synthetic.links.zipIdx.filter fun (link, _) => link.parent = parent ∧ !link.shadow).map
    fun (link, i) => (synthetic.first + i, link)

end Synthetic

/-- What requests are answered from. -/
structure Tree where
  owner : Owner
  manifest : Format.Manifest
  synthetic : Synthetic

namespace Tree

variable (tree : Tree)

/-- Attributes of the entry at `inode`, timestamped like its directory. -/
def linkAttr (inode : Nat) (link : SyntheticLink) : Option FuseAttr :=
  (entryAt tree.manifest link.parent).map fun dir =>
    { makeAttr tree.owner tree.manifest link.parent dir with
      ino := inode
      mode := if link.file then 0o100000 ||| 0o444 else 0o120000 ||| 0o777
      nlink := 1
      size := link.target.length
      blocks := (link.target.length + 511) / 512 }

/-- An inode of the package's own. -/
def entryAttr (inode : Nat) : Option FuseAttr :=
  (entryAt tree.manifest inode).map (makeAttr tree.owner tree.manifest inode)

def syntheticAttr (inode : Nat) : Option FuseAttr :=
  (tree.synthetic.get inode).bind (tree.linkAttr inode)

/-! ### Names -/

/-- The child of `parent` that the package names `name`. -/
def childNamed (parent : Nat) (name : Bytes) : Option Nat :=
  (childrenOf tree.manifest parent).find? fun child => entryName tree.manifest child = name

/-- What is served under `name` in `parent`: the package's own entry, what shadows it, or else a
link. -/
def resolve (parent : Nat) (name : Bytes) : Option FuseAttr :=
  match tree.childNamed parent name with
  | some child =>
      if tree.synthetic.served child ≠ child then
        tree.syntheticAttr (tree.synthetic.served child)
      else tree.entryAttr child
  | none => (tree.synthetic.lookup parent name).bind tree.syntheticAttr

/-- Looked up in the root just before the launch starts, to arm a trace; it is never there. -/
def traceArm : Bytes := utf8 ".onelf-trace-arm"

def reply {α : Type} (errno : Errno) (render : α → Bytes) (found : Option α) : Reply :=
  match found with
  | none => .error errno
  | some value => .ok (render value)

def handleLookup (parent : Nat) (body : Bytes) : Reply :=
  if parent = 0 ∨ inodeToEntry parent ≥ tree.manifest.entries.length then .error .enoent
  else
    let name := body.takeWhile (· ≠ 0)
    if validUtf8 name = false then .error .enoent
    else if parent = entryToInode 0 ∧ name = traceArm then .error .enoent
    else reply .enoent entryOut (tree.resolve parent name)

/-! ### Inodes -/

/-- The attributes of an inode, whatever name it is served under. -/
def attr (inode : Nat) : Option FuseAttr :=
  match tree.synthetic.get inode with
  | some link => tree.linkAttr inode link
  | none => tree.entryAttr inode

def handleGetattr (inode : Nat) : Reply := reply .enoent attrOut (tree.attr inode)

def handleOpen (inode : Nat) : Reply :=
  match tree.synthetic.get inode with
  | some link => if link.file then .ok (openOut inode fopenKeepCache) else .error .einval
  | none =>
      match entryAt tree.manifest inode with
      | none => .error .enoent
      | some entry =>
          if entry.kind ≠ .file then .error .eisdir else .ok (openOut inode fopenKeepCache)

def handleOpendir (inode : Nat) : Reply :=
  match entryAt tree.manifest inode with
  | none => .error .enoent
  | some entry => if entry.kind ≠ .dir then .error .enotdir else .ok (openOut inode 0)

def handleReadlink (inode : Nat) : Reply :=
  match tree.synthetic.get inode with
  | some link => if link.file then .error .einval else .ok link.target
  | none =>
      match entryAt tree.manifest inode with
      | none => .error .enoent
      | some entry =>
          if entry.kind ≠ .symlink then .error .einval
          else .ok (tree.manifest.getString entry.symlinkTarget)

/-- The owner-bit check for one access question; the mount is read-only. -/
def accessAllowed (mode mask : Nat) : Bool :=
  if mask = 0 then true
  else if mask &&& 2 ≠ 0 then false
  else (mode >>> 6 &&& 7) &&& mask = mask

def handleAccess (inode : Nat) (body : Bytes) : Reply :=
  if body.length < 4 then .error .eio
  else
    let mask := ofLeBytes (body.take 4)
    let mode := match tree.synthetic.get inode with
      | some link => some (if link.file then 0o444 else 0o777)
      | none => (entryAt tree.manifest inode).map Format.Entry.mode
    match mode with
    | none => .error .enoent
    | some mode => if accessAllowed mode mask then .ok [] else .error .eacces

/-! ### Directories -/

def dirType : EntryKind → Nat
  | .dir => 4
  | .file => 8
  | .symlink => 10

/-- One entry of a listing; `.` and `..` come without attributes. -/
structure Row where
  ino : Nat
  typ : Nat
  name : Bytes
  attr : Option FuseAttr
  deriving DecidableEq

/-- A link's row. -/
def linkRow (inode : Nat) (link : SyntheticLink) : Row :=
  ⟨inode, dirType (if link.file then .file else .symlink), link.name, tree.linkAttr inode link⟩

/-- The row of the package's own entry at `child`, or of what shadows it. -/
def childRow (child : Nat) : Option Row :=
  if tree.synthetic.served child ≠ child then
    (tree.synthetic.get (tree.synthetic.served child)).map fun link =>
      ⟨tree.synthetic.served child, dirType .symlink, link.name,
        tree.linkAttr (tree.synthetic.served child) link⟩
  else
    (entryAt tree.manifest child).map fun entry =>
      ⟨child, dirType entry.kind, tree.manifest.getString entry.name,
        some (makeAttr tree.owner tree.manifest child entry)⟩

/-- The parent's inode; the root is its own. -/
def parentInode (entry : Format.Entry) : Nat :=
  if entry.parent = Format.u32Max then 1 else entryToInode entry.parent

def rowAt (inode : Nat) (entry : Format.Entry) : Nat → Option Row
  | 0 => some ⟨inode, dirType .dir, utf8 ".", none⟩
  | 1 => some ⟨parentInode entry, dirType .dir, utf8 "..", none⟩
  | i + 2 =>
      match (childrenOf tree.manifest inode)[i]? with
      | some child => tree.childRow child
      | none =>
          ((tree.synthetic.children inode)[i - (childrenOf tree.manifest inode).length]?).map
            fun (link, row) => tree.linkRow link row

def totalEntries (inode : Nat) : Nat :=
  2 + (childrenOf tree.manifest inode).length + (tree.synthetic.children inode).length

/-- The rows from `start` on, each with its place. -/
def rowsFrom (inode : Nat) (entry : Format.Entry) (start : Nat) : List (Nat × Row) :=
  (List.range' start (tree.totalEntries inode - start)).filterMap fun i =>
    (tree.rowAt inode entry i).map fun row => (i, row)

/-- A row as it is written, padded to eight bytes; its `off` is the place of the next one. -/
def rowBytes (plus : Bool) (placed : Nat × Row) : Bytes :=
  let (i, row) := placed
  let entry := match row.attr with
    | some attr => entryOut attr
    | none => List.replicate entryOutSize 0
  let used := (if plus then entryOutSize else 0) + direntBaseSize + row.name.length
  (if plus then entry else []) ++
    (leBytes 8 row.ino ++ leBytes 8 (i + 1) ++ leBytes 4 row.name.length ++ leBytes 4 row.typ) ++
      row.name ++ List.replicate (dentSize plus row.name.length - used) 0

structure FuseReadIn where
  offset : Nat
  size : Nat

def fuseReadInSize : Nat := 40

/-- The fields of a `FuseReadIn` that a listing looks at. -/
def readIn (body : Bytes) : Option FuseReadIn :=
  if body.length < fuseReadInSize then none
  else some ⟨ofLeBytes (slice body 8 8), ofLeBytes (slice body 16 4)⟩

/-- The rows of one answer: those that fit, up to the first that does not. -/
def page (inode : Nat) (entry : Format.Entry) (plus : Bool) (asked : FuseReadIn) :
    List (Nat × Row) :=
  fill (fun placed => dentSize plus placed.2.name.length) asked.size 0
    (tree.rowsFrom inode entry asked.offset)

/-- READDIR, or READDIRPLUS when `plus`: the directory's own entries, then the links served in
it. -/
def handleReaddir (inode : Nat) (body : Bytes) (plus : Bool) : Reply :=
  match readIn body with
  | none => .error .einval
  | some asked =>
      match entryAt tree.manifest inode with
      | none => .error .enoent
      | some entry => .ok ((tree.page inode entry plus asked).flatMap (rowBytes plus))

end Tree

/-! ### What the launching child sends -/

/-- The longest name a directory has. -/
def nameMax : Nat := 255

/-- What a launch takes links from: the farm's names with what they link to, and the sets' library
directories with their names and whether each is a file. -/
structure Sources where
  farm : List (Bytes × Option Bytes)
  sets : List (Bytes × List (Bytes × Bool))
  farmShort : ∀ listed ∈ farm, listed.1.length ≤ nameMax
  setsShort : ∀ set ∈ sets, ∀ listed ∈ set.2, listed.1.length ≤ nameMax

/-- The first source of a name keeps it; a name the package carries is left out. -/
def addWanted (carried : List Bytes) (links : SortedMap Text Bytes) (name target : Bytes) :
    SortedMap Text Bytes :=
  match fromUtf8 name with
  | none => links
  | some text => if carried.contains name then links else links.orInsert text target

/-- The shared objects of a set's directory, sorted. -/
def foundIn (listed : List (Bytes × Bool)) : List Bytes :=
  ((listed.filter fun (name, file) => Format.containsText (utf8 ".so") name && file).map
    Prod.fst).insertionSort (· ≤ ·)

def wantedFrom (sources : Sources) (carried : List Bytes) : SortedMap Text Bytes :=
  let farmed := sources.farm.foldl (fun links (name, target) =>
    match target with
    | none => links
    | some target => addWanted carried links name target) SortedMap.empty
  sources.sets.foldl (fun links (dir, listed) =>
    (foundIn listed).foldl (fun links name =>
      addWanted carried links name (Format.joinPath dir name)) links) farmed

section
variable (manifest : Format.Manifest)

/-- The links a launch needs in `dir`: every library in the farm and in the sets that the package
does not carry there. -/
def wanted (dir : Bytes) (sources : Sources) : SortedMap Text Bytes :=
  wantedFrom sources (carried manifest dir)

/-- `str::rsplit_once` at a slash. -/
def rsplitSlash (path : Bytes) : Option (Bytes × Bytes) :=
  (splitOnce 47 path.reverse).map fun (name, dir) => (dir.reverse, name.reverse)

/-- The file of the package at `path`, with its directory's inode and its name there. -/
def shadowAt (path : Bytes) : Option (Nat × Nat × Bytes) := do
  let (dir, name) ← rsplitSlash path
  let idx ← dirIndex manifest dir
  let entry ← (childrenOf manifest (entryToInode idx)).find? fun child =>
    (entryAt manifest child).any fun entry =>
      entry.kind ≠ .dir ∧ manifest.getString entry.name = name
  some (entry, entryToInode idx, name)

/-- Serve a symlink to `target` in place of the package's file at `path`. The kernel may hold an
answer about the name, so it is told to forget it. -/
def shadowPath (synthetic : Synthetic) (path target : Bytes) : Synthetic × List Notice :=
  match shadowAt manifest path with
  | none => (synthetic, [])
  | some (entry, parent, name) => (synthetic.shadow entry parent name target, [⟨parent, name⟩])

/-- The directory the generated environment input is served in, and its name there. -/
def viewEnvDir : Bytes := utf8 ".onelf"

def viewEnvName : Bytes := utf8 "runtime-env"

/-- Serve the generated environment input, in a package that has the directory and does not carry
the name itself. -/
def serveViewEnv (synthetic : Synthetic) (env : Bytes) : Synthetic :=
  if env = [] then synthetic
  else
    match dirIndex manifest viewEnvDir with
    | none => synthetic
    | some idx =>
        if (childrenOf manifest (entryToInode idx)).any fun child =>
            entryName manifest child = viewEnvName then synthetic
        else (synthetic.add (entryToInode idx) viewEnvName env true).1

def addLinks (synthetic : Synthetic) (dir : Bytes) (links : LinkPipe.Pairs) : Synthetic :=
  match dirIndex manifest dir with
  | none => synthetic
  | some idx =>
      links.foldl (fun synthetic (name, target) =>
        (synthetic.add (entryToInode idx) name.bytes target false).1) synthetic

def shadowAll (synthetic : Synthetic) (shadows : LinkPipe.Pairs) : Synthetic × List Notice :=
  shadows.foldl (fun (synthetic, notices) (path, target) =>
    let (shadowing, sent) := shadowPath manifest synthetic path.bytes target
    (shadowing, notices ++ sent)) (synthetic, [])

/-- Serve what a message lists. -/
def serveMessage (synthetic : Synthetic) (message : LinkPipe.Message) : Synthetic × List Notice :=
  let (shadowing, notices) :=
    shadowAll manifest (addLinks manifest synthetic message.dir.bytes message.links) message.shadows
  (serveViewEnv manifest shadowing message.env, notices)

/-- What a server serves, and while it waits for the launching child what it has of its message. -/
structure Server where
  synthetic : Synthetic
  inbox : Option Bytes

/-- `take_links`, called when the pipe is readable. -/
def takeLinks (server : Server) (outcome : LinkPipe.Read) : Server × List Notice :=
  match server.inbox with
  | none => (server, [])
  | some buf =>
      match LinkPipe.read buf outcome with
      | (buf, .pending) => ({ server with inbox := some buf }, [])
      | (_, .done none) => ({ server with inbox := none }, [])
      | (_, .done (some message)) =>
          let (synthetic, notices) := serveMessage manifest server.synthetic message
          (⟨synthetic, none⟩, notices)

end

/-! ### Requests -/

/-- The package's size in the blocks `statfs` counts, and its entries. -/
def statfsOut (manifest : Format.Manifest) : Bytes :=
  let sizes := manifest.entries.map fun entry =>
    ((entry.blocks.map Block.originalSize).sum % u64Limit + 511) / 512
  leBytes 8 (sizes.sum % u64Limit) ++ leBytes 8 0 ++ leBytes 8 0 ++
    leBytes 8 manifest.entries.length ++ leBytes 8 0 ++ leBytes 4 512 ++ leBytes 4 255 ++
    leBytes 4 512 ++ leBytes 4 0 ++ List.replicate 24 0

/-- What the server asks of a connection, out of what the kernel offers. -/
def handleInit (body : Bytes) : Reply :=
  if body.length < 16 then .error .einval
  else
    let offered := ofLeBytes (slice body 12 4)
    let flags := 2 ^ 0 ||| 2 ^ 3 |||
      (offered &&& (2 ^ 13 ||| 2 ^ 14 ||| 2 ^ 23 ||| 2 ^ 24 ||| 2 ^ 22))
    .ok (leBytes 4 7 ++ leBytes 4 31 ++ leBytes 4 (1024 * 1024) ++ leBytes 4 flags ++
      leBytes 2 16 ++ leBytes 2 12 ++ leBytes 4 0 ++ leBytes 4 1 ++ leBytes 2 256 ++ leBytes 2 0 ++
      leBytes 4 0 ++ List.replicate 28 0)

inductive Opcode where
  | init
  | lookup
  | getattr
  | readlink
  | open
  | release
  | statfs
  | opendir
  | readdir
  | releasedir
  | access
  | readdirplus
  | other
  deriving DecidableEq

def dispatch (tree : Tree) (opcode : Opcode) (inode : Nat) (body : Bytes) : Reply :=
  match opcode with
  | .init => handleInit body
  | .lookup => tree.handleLookup inode body
  | .getattr => tree.handleGetattr inode
  | .open => tree.handleOpen inode
  | .release => .ok []
  | .releasedir => .ok []
  | .opendir => tree.handleOpendir inode
  | .readdir => tree.handleReaddir inode body false
  | .readdirplus => tree.handleReaddir inode body true
  | .readlink => tree.handleReadlink inode
  | .statfs => .ok (statfsOut tree.manifest)
  | .access => tree.handleAccess inode body
  | .other => .error .enosys

end Onelf.Runtime.FuseTree
