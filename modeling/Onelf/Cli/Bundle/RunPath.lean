import Onelf.Lib.FileSystem
import Onelf.Lib.Relative
import Onelf.Lib.Utf8

/-! The run path a bundled object is given (`elf.rs`). -/

namespace Onelf.Cli.Bundle.RunPath

open Onelf.Lib

/-- A path from the root of the file system, by its components; a dot is none. -/
abbrev Path := List (Segment Bytes)

/-- An object of a bundle, in directories that are no links. -/
structure Object (α : Type) where
  disk : Disk α
  tree : disk.Tree
  root : List Bytes
  /-- The directories below the bundle's own that lead to the object. -/
  above : List Bytes
  stands : disk (root ++ above) = some .dir
  /-- `DT_RUNPATH` where there is one, else `DT_RPATH`. -/
  runpaths : List Bytes

/-- A library directory as a run path can name it: relative to the bundle, and without a colon. -/
structure LibDir where
  path : Text
  relative : path.bytes.head? ≠ some 47
  whole : 58 ∉ path.bytes

/-! ### Paths -/

def parts (text : Bytes) : Path := strip (Target.ofText text).segments

/-- `Path::join`. -/
def join (base : Path) (text : Bytes) : Path :=
  if text.head? = some 47 then parts text else base ++ parts text

def trimSlashes (text : Bytes) : Bytes := text.dropWhile (· = 47)

def segmentText : Segment Bytes → Bytes
  | .name part => part
  | .up => [46, 46]
  | .here => [46]

/-- The directory a path leads to through its links. -/
def leads {α : Type} (disk : Disk α) (path : Path) : Option (List Bytes) :=
  match disk.world.resolve true kernelLinks [] path with
  | .found _ place => if disk.world.isDir place then some place else none
  | _ => none

/-! ### Entries -/

/-- The entry for a path below `$ORIGIN`, so many directories up. -/
def originEntry (up : Nat) (rest : Bytes) : Bytes :=
  utf8 "$ORIGIN" ++ (List.replicate up (utf8 "/..")).flatten ++ rest

def originRunpath (depth : Nat) (libRel : Bytes) : Bytes := originEntry depth (utf8 "/" ++ libRel)

/-- `$ORIGIN`-relative form of `target` seen from `start`, both inside the same tree. The names come
from run paths, which are UTF-8, so that nothing is lost in their text. -/
def originRelative (start target root : Path) : Option Bytes :=
  if root <+: start ∧ root <+: target then
    let rest := apart (start.drop root.length) (target.drop root.length)
    some (originEntry rest.1.length
      (if rest.2 = [] then [] else utf8 "/" ++ joinPath (rest.2.map segmentText)))
  else none

/-- `$ORIGIN` in front is the object's directory. A path that is relative otherwise is read wherever
a process stands. -/
def expandRunpathEntry (origin : Path) (entry : Bytes) : Option Path :=
  match stripPrefix (utf8 "$\x7bORIGIN\x7d") entry with
  | some rest => some (join origin (trimSlashes rest))
  | none => match stripPrefix (utf8 "$ORIGIN") entry with
    | some rest => some (join origin (trimSlashes rest))
    | none => if entry.head? = some 47 then some (parts entry) else none

def isAbsolute (entry : Bytes) : Bool := entry.head? = some 47

namespace Object

variable {α : Type} (object : Object α) (lib : LibDir)

def rootPath : Path := object.root.map .name
def origin : Path := (object.root ++ object.above).map .name

def parseRpathsRaw : List Bytes := object.runpaths.flatMap fun entry => entry.splitOn 58

/-- An entry mapped into the tree, with and without the prefix the conventional layout drops. -/
def mappings (entry : Bytes) : List Path :=
  let rel := trimSlashes entry
  [join object.rootPath rel, join object.rootPath ((stripPrefix (utf8 "usr/") rel).getD rel)]

def runPathDirsInTree : List Path :=
  ((object.parseRpathsRaw.filter isAbsolute).flatMap object.mappings).filter fun path =>
    (leads object.disk path).isSome

/-- Whether the object lies in a subdirectory of the library directory. -/
def belowLib : Bool :=
  components lib.path.bytes <+: object.above.map .normal &&
    object.above.map .normal ≠ components lib.path.bytes

def originRunpathFor : Bytes :=
  let toLib := originRunpath object.above.length lib.path.bytes
  if object.belowLib lib then utf8 "$ORIGIN:" ++ toLib else toLib

/-- A directory's entry, unless it is there already. -/
def pushDir (entries : List Bytes) (target : Path) : List Bytes :=
  match originRelative object.origin target object.rootPath with
  | some entry =>
      if entries.any fun part => (part.splitOn 58).contains entry then entries
      else entries ++ [entry]
  | none => entries

def treeRunpathParts : List Bytes :=
  object.runPathDirsInTree.foldl object.pushDir [object.originRunpathFor lib]

def treeRunpath : Bytes := [58].intercalate (object.treeRunpathParts lib)

/-- The object with the run path written into it. -/
def finalized : Object α :=
  { object with runpaths := [object.treeRunpath lib] }

/-! ### What a run path names -/

/-- The directories that a run path's entries lead to from the object, in order. -/
def dirs (runpath : Bytes) : List (List Bytes) :=
  (runpath.splitOn 58).filterMap fun entry =>
    (expandRunpathEntry object.origin entry).bind (leads object.disk)

/-- Where the library directory lies. -/
def library : Option (List Bytes) := leads object.disk (object.rootPath ++ parts lib.path.bytes)

/-- The library directory, and before it the object's own where that lies below it. -/
def leading : List (List Bytes) :=
  (if object.belowLib lib then [object.root ++ object.above] else []) ++ (object.library lib).toList

/-- What an entry of the original run path may mean in the tree: an absolute one the same path in
it, with or without `usr/`, and any other what it says. -/
def readings (entry : Bytes) : List Path :=
  if isAbsolute entry then
    let rel := trimSlashes entry
    [object.rootPath ++ parts rel,
      object.rootPath ++ parts ((stripPrefix (utf8 "usr/") rel).getD rel)]
  else (expandRunpathEntry object.origin entry).toList

/-- The directories of the bundle that the original run path names, in its order. -/
def named : List (List Bytes) :=
  ((object.parseRpathsRaw.flatMap object.readings).filterMap (leads object.disk)).filter
    (object.root <+: ·)

/-- The directories that absolute entries are mapped to, inside the bundle and out of it. -/
def mapped : List (List Bytes) :=
  (object.runPathDirsInTree.filter (object.rootPath <+: ·)).filterMap (leads object.disk)

end Object

/-! ### Texts -/

theorem parts_append (front back : Bytes) : parts (front ++ 47 :: back) = parts front ++ parts back := by
  rw [parts, parts, parts, Target.ofText, Target.ofText, Target.ofText,
    List.splitOn_append_cons_self, List.map_append, strip_append]

theorem parts_nil : parts [] = [] := rfl

theorem parts_slash (text : Bytes) : parts (47 :: text) = parts text := parts_append [] text

theorem parts_trimSlashes (text : Bytes) : parts (trimSlashes text) = parts text := by
  induction text with
  | nil => rfl
  | cons byte text ih =>
      rw [trimSlashes, List.dropWhile_cons]
      split
      · next slash =>
          rw [of_decide_eq_true slash, parts_slash]
          exact ih
      · rfl

theorem trimSlashes_head (text : Bytes) : (trimSlashes text).head? ≠ some 47 := by
  intro slash
  have kept := List.head?_dropWhile_not (fun byte : UInt8 => decide (byte = 47)) text
  rw [trimSlashes] at slash
  rw [slash] at kept
  simp at kept

/-- Some directories up and then a path: what `$ORIGIN` is followed by. -/
theorem parts_ups (up : Nat) {rest : Bytes} (opens : rest = [] ∨ ∃ text, rest = 47 :: text) :
    parts ((List.replicate up (utf8 "/..")).flatten ++ rest) =
      List.replicate up .up ++ parts rest := by
  have one (more : Bytes) (begins : more = [] ∨ ∃ text, more = 47 :: text) :
      parts (utf8 "/.." ++ more) = .up :: parts more := by
    have alone : parts (utf8 "/..") = [.up] := by decide +kernel
    rcases begins with rfl | ⟨text, rfl⟩
    · rw [List.append_nil, alone]
      rfl
    · rw [parts_append, alone, parts_slash]
      rfl
  induction up with
  | zero => rfl
  | succ up ih =>
      have begins : (List.replicate up (utf8 "/..")).flatten ++ rest = [] ∨
          ∃ text, (List.replicate up (utf8 "/..")).flatten ++ rest = 47 :: text := by
        cases up with
        | zero => exact opens
        | succ up => exact .inr ⟨_, rfl⟩
      rw [List.replicate_succ, List.flatten_cons, List.append_assoc, one _ begins, ih]
      rfl

/-- An entry for `$ORIGIN` is read as it was meant. -/
theorem expand_originEntry (origin : Path) (up : Nat) {rest : Bytes}
    (opens : rest = [] ∨ ∃ text, rest = 47 :: text) :
    expandRunpathEntry origin (originEntry up rest) =
      some (origin ++ (List.replicate up .up ++ parts rest)) := by
  have braced : stripPrefix (utf8 "$\x7bORIGIN\x7d") (originEntry up rest) = none := by
    rw [stripPrefix_eq_none]
    intro other same
    have plain : utf8 "$ORIGIN" = 36 :: 79 :: utf8 "RIGIN" := by decide +kernel
    have braced : utf8 "$\x7bORIGIN\x7d" = 36 :: 123 :: utf8 "ORIGIN\x7d" := by decide +kernel
    rw [originEntry, plain, braced] at same
    simp at same
  have plain : stripPrefix (utf8 "$ORIGIN") (originEntry up rest) =
      some ((List.replicate up (utf8 "/..")).flatten ++ rest) := by
    rw [originEntry, List.append_assoc, stripPrefix_append]
  rw [expandRunpathEntry, braced, plain, ← parts_ups up opens]
  dsimp only
  rw [join, if_neg (trimSlashes_head _), parts_trimSlashes]

end Onelf.Cli.Bundle.RunPath
