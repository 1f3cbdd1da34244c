import Onelf.Lib.Checks
import Onelf.Lib.FileTree
import Onelf.Lib.Text
import Onelf.Lib.Utf8

/-! `onelf cache clear` (`cache.rs`, and `collect_views` of `onelf-rt/src/cache.rs`) over the cache
on disk. -/

namespace Onelf.Cli.Cache

open Onelf.Lib Onelf.Lib.FileTree

inductive Leaf where
  | file (inode : Nat)
  | link
  deriving DecidableEq

abbrev Tree := FileTree Bytes Leaf
abbrev Path := List Bytes

/-- What the command meets besides the cache: the locks other processes hold, and the names a file
has elsewhere. -/
structure System where
  held : Path → Bool
  elsewhere : Nat → Nat
  /-- The inode of a lock file it makes. -/
  newInode : Nat

/-! ### The layout -/

def pkgDir (id : Bytes) : Path := [utf8 "pkg", id]
def readyMarker (id : Bytes) : Path := [utf8 "pkg", utf8 "." ++ id ++ utf8 ".ready"]
def extractTmpDir (id : Bytes) : Path := [utf8 "pkg", utf8 "." ++ id ++ utf8 ".tmp"]
def lockPath (id : Bytes) : Path := [utf8 "lock", id]
def extractLockPath (id : Bytes) : Path := [utf8 "lock", id ++ utf8 ".extract"]
def metaPath (id : Bytes) : Path := [utf8 "meta", id]
def platformDir : Path := [utf8 "platform"]
def casDir : Path := [utf8 "cas"]
def casLockPath : Path := [utf8 "lock", utf8 "cas"]
def viewStore : Path := [utf8 "views"]
def viewPath (name : Bytes) : Path := [utf8 "views", name]
def leaseLockPath (view : Bytes) : Path := [utf8 "views", view ++ utf8 ".lease"]
def creationLockPath (view : Bytes) : Path := [utf8 "views", view ++ utf8 ".create"]

def stagingSep : Bytes := utf8 ".staging-"

/-! ### File operations -/

def removeFile : Path → Tree → Tree :=
  alter fun
    | some (.leaf _) => none
    | other => other

def removeDirAll : Path → Tree → Tree :=
  alter fun
    | some (.leaf (.file inode)) => some (.leaf (.file inode))
    | _ => none

def removeDir : Path → Tree → Tree :=
  alter fun
    | some (.dir []) => none
    | other => other

def removeAny : Path → Tree → Tree := alter fun _ => none

def readDir (path : Path) (tree : Tree) : Option (List (Bytes × Tree)) :=
  match find path tree with
  | some (.dir entries) => some entries
  | _ => none

/-- Open a lock file, making it where it is missing; and whether another process holds it. -/
def openLock (system : System) (path : Path) (tree : Tree) : Option (Tree × Bool) :=
  match find path tree with
  | some (.dir _) => none
  | some (.leaf _) => some (tree, system.held path)
  | none =>
      match find path.dropLast tree with
      | some (.dir _) => some (alter (fun _ => some (.leaf (.file system.newInode))) path tree, false)
      | _ => none

mutual
def leaves : Tree → List Leaf
  | .leaf content => [content]
  | .dir entries => allLeaves entries

def allLeaves : List (Bytes × Tree) → List Leaf
  | [] => []
  | (_, tree) :: entries => leaves tree ++ allLeaves entries
end

/-- The link count of a file. -/
def nlink (system : System) (inode : Nat) (tree : Tree) : Nat :=
  (leaves tree).count (.file inode) + system.elsewhere inode

/-! ### The passes -/

def removePackage (id : Bytes) (tree : Tree) : Tree :=
  removeFile (extractLockPath id) (removeFile (metaPath id) (removeDirAll (extractTmpDir id)
    (removeDirAll (pkgDir id) (removeFile (readyMarker id) tree))))

/-- A lock file that is not there is no conflict; one that cannot be opened leaves the package
alone. -/
def tryRemoveLocked (system : System) (tree : Tree) (id : Bytes) : Tree :=
  match find (lockPath id) tree, find [utf8 "lock"] tree with
  | some _, _ => if system.held (lockPath id) then tree else removePackage id tree
  | none, some (.leaf _) => tree
  | none, _ => removePackage id tree

/-- The package an entry of `meta` or `pkg` belongs to. -/
def packageOf (name : Bytes) : Bytes :=
  ((stripPrefix (utf8 ".") name).bind fun rest =>
    (rest.dropSuffix? (utf8 ".tmp")).orElse fun _ => rest.dropSuffix? (utf8 ".ready")).getD name

def cachedIds (tree : Tree) : List Bytes :=
  sortDedup ((([utf8 "meta", utf8 "pkg"].flatMap fun dir =>
    ((readDir [dir] tree).getD []).map fun entry => packageOf (lossy entry.1))).filter fun id =>
      id ≠ [] ∧ id.head? ≠ some 46)

/-- The `<hash>.onelf` files of the label directories, by label and hash. -/
def storedBuilds (tree : Tree) : List Path :=
  let labels := ((readDir platformDir tree).getD []).map Prod.fst
  let builds := labels.flatMap fun label =>
    ((readDir (platformDir ++ [label]) tree).getD []).filterMap fun file =>
      ((lossy file.1).dropSuffix? (utf8 ".onelf")).bind fun hash =>
        if hash.head? = some 46 then none
        else some (toLex (lossy label, hash), platformDir ++ [label, file.1])
  (sortByKey Prod.fst builds).map Prod.snd

def removeBuild (tree : Tree) (file : Path) : Tree :=
  match find file tree with
  | some (.leaf _) => removeDir file.dropLast (removeFile file tree)
  | _ => tree

/-- `split_once`, at the first place the separator stands. -/
def splitOnceAt (sep : Bytes) : Bytes → Option (Bytes × Bytes)
  | [] => none
  | byte :: text =>
      if sep <+: byte :: text then some ([], (byte :: text).drop sep.length)
      else (splitOnceAt sep text).map fun parts => (byte :: parts.1, parts.2)

/-- The view an entry of the store belongs to. -/
def identityOf (entry : Bytes × Tree) : Option Bytes :=
  if validUtf8 entry.1 then
    match splitOnceAt stagingSep entry.1, entry.2 with
    | some (base, _), _ => some base
    | none, .dir _ => some entry.1
    | none, .leaf _ => none
  else none

def removeStaging (name : Bytes) (tree : Tree) (entry : Bytes) : Tree :=
  if validUtf8 entry ∧ name ++ stagingSep <+: entry then removeAny (viewPath entry) tree else tree

/-- One identity of the store. No idle time is asked for, so a complete view goes too. -/
def reclaimView (system : System) (tree : Tree) (name : Bytes) : Tree :=
  match openLock system (leaseLockPath name) tree with
  | none => tree
  | some (leased, true) => leased
  | some (leased, false) =>
      match openLock system (creationLockPath name) leased with
      | none => leased
      | some (claimed, true) => claimed
      | some (claimed, false) =>
          let removed := removeDirAll (viewPath name) claimed
          (((readDir viewStore removed).getD []).map Prod.fst).foldl (removeStaging name) removed

def collectViews (system : System) (tree : Tree) : Tree :=
  (sortDedup (((readDir viewStore tree).getD []).filterMap identityOf)).foldl
    (reclaimView system) tree

/-- A blob that has no name but its own. -/
def removeBlob (system : System) (tree : Tree) (blob : Path) : Tree :=
  match find blob tree with
  | some (.leaf (.file inode)) =>
      if 1 < nlink system inode tree then tree else removeFile blob tree
  | _ => tree

def collectShard (system : System) (tree : Tree) (shard : Bytes) : Tree :=
  (((readDir (casDir ++ [shard]) tree).getD []).map fun blob => casDir ++ [shard, blob.1]).foldl
    (removeBlob system) tree

def collectCas (system : System) (tree : Tree) : Tree :=
  match openLock system casLockPath tree with
  | none => tree
  | some (opened, true) => opened
  | some (opened, false) =>
      (((readDir casDir opened).getD []).map Prod.fst).foldl (collectShard system) opened

/-- The passes over packages, builds, views and blobs. -/
def sweep (system : System) (tree : Tree) : Tree :=
  let packages := (cachedIds tree).foldl (tryRemoveLocked system) tree
  let builds := (storedBuilds packages).foldl removeBuild packages
  -- Views first, so that the blobs they pinned can go.
  collectCas system (collectViews system builds)

/-- `clear_cache`, with `remove_empty_dirs` last: what is left of the root. -/
def clearCache (system : System) (tree : Tree) : Option Tree := prune (sweep system tree)

end Onelf.Cli.Cache
