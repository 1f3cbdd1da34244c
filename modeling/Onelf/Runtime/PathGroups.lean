import Onelf.Format.Rules
import Onelf.Lib.FirstChoice
import Onelf.Lib.Path

/-! The paths a launch's environment mappings find below its roots (`env.rs`). -/

namespace Onelf.Runtime.PathGroups

open Onelf.Lib Onelf.Format

/-- A path by its components, which is what comparing two paths compares. -/
abbrev Path := List Component

/-- Which paths hold something of the declared kind. -/
abbrev Kinds := ResourceKind → Path → Bool

def join (base : Path) (path : RelativePath) : Path := base ++ components path.bytes

/-- One party's roots: its trees and the library directories below which candidates are joined. -/
structure Scope where
  packages : List Path
  libraries : List Path

/-- The roots a candidate of `base` is joined against, in search order. -/
def bases (scope : Scope) : RuntimeBase → List Path
  | .packageRoot => scope.packages
  | .libraryRoot => scope.libraries

section Selections

variable (kindMatches : Kinds) (group : RuntimePathGroup)

/-- The one path a first-match group selects, scopes in order. -/
def firstMatch (scopes : List Scope) : List Path :=
  ((scopes.flatMap fun scope => group.candidates.flatMap fun candidate =>
    (bases scope candidate.base).map fun base => join base candidate.path).find?
      (kindMatches group.kind)).toList

/-- Every path an all-match group selects, without duplicates. -/
def allMatches (scopes : List Scope) : List Path :=
  scopes.foldl (fun found scope => group.candidates.foldl (fun found candidate =>
    (bases scope candidate.base).foldl (fun found base =>
      if kindMatches group.kind (join base candidate.path) && !found.contains (join base candidate.path)
      then found ++ [join base candidate.path] else found) found) found) []

/-- What one library root adds to the paths found: its first candidate that matches and is not
found yet. -/
def addLibraryRoot (found : List Path) (base : Path) : List Path :=
  match group.candidates.find? fun candidate =>
      kindMatches group.kind (join base candidate.path) &&
        !found.contains (join base candidate.path) with
  | some candidate => found ++ [join base candidate.path]
  | none => found

/-- The path each library root contributes to a per-library-root group. -/
def firstPerLibraryRoot (scopes : List Scope) : List Path :=
  scopes.foldl (fun found scope =>
    scope.libraries.foldl (addLibraryRoot kindMatches group) found) []

def select (scopes : List Scope) : List Path :=
  match group.selection with
  | .first => firstMatch kindMatches group scopes
  | .all => allMatches kindMatches group scopes
  | .firstPerLibraryRoot => firstPerLibraryRoot kindMatches group scopes

end Selections

/-- One evaluated mapping: a single value, here the paths it joins, for every alias. -/
structure PathAssignment where
  variableNames : List EnvironmentName
  value : List Path
  inheritance : Inheritance

/-- `env::join_paths` refuses a path with its separator in it. -/
def joinPaths (paths : List Path) : Option (List Path) :=
  if paths.all fun path => path.all fun component => (component.name?.getD []).all (· != 58)
  then some paths else none

/-- The assignment a group makes; one that finds nothing assigns nothing. -/
def evaluatePathGroup (kindMatches : Kinds) (scopes : List Scope) (group : RuntimePathGroup) :
    Option PathAssignment :=
  if (select kindMatches group scopes).isEmpty then none
  else (joinPaths (select kindMatches group scopes)).map fun value =>
    ⟨group.variableNames, value, group.inheritance⟩

def evaluatePathGroups (kindMatches : Kinds) (groups : List RuntimePathGroup)
    (scopes : List Scope) : List PathAssignment :=
  groups.filterMap (evaluatePathGroup kindMatches scopes)

/-- The application's library directories, rebased from `pkg` into each prepared subtree. -/
def preparedLibDirs (pkg : Path) (libDirs roots : List Path) : List Path :=
  roots.flatMap fun root => libDirs.filterMap fun dir => (dir.dropPrefix? pkg).map fun rel =>
    root ++ rel

/-- A runtime path group with the prepared subtrees of the active pins that carry it. -/
structure ActiveGroup where
  group : RuntimePathGroup
  prepared : List Path

/-- The application's scope, the group's prepared subtrees and the selected sets. -/
def ActiveGroup.scopes (active : ActiveGroup) (pkg : Path)
    (libDirs setLibDirs setRoots : List Path) : List Scope :=
  [⟨[pkg], libDirs⟩, ⟨active.prepared, preparedLibDirs pkg libDirs active.prepared⟩,
    ⟨setRoots, setLibDirs⟩]

def assignments (kindMatches : Kinds) (groups : List ActiveGroup) (pkg : Path)
    (libDirs setLibDirs setRoots : List Path) : List PathAssignment :=
  groups.flatMap fun active => evaluatePathGroups kindMatches [active.group]
    (active.scopes pkg libDirs setLibDirs setRoots)

/-! ### What a library root has to offer -/

section LibraryRoots

variable (kindMatches : Kinds) (group : RuntimePathGroup)

/-- The library roots in scope order. -/
def libraryRoots (scopes : List Scope) : List Path := scopes.flatMap Scope.libraries

/-- The candidates of a group that exist below a library root, in declaration order. -/
def matchesBelow (base : Path) : List Path :=
  (group.candidates.map fun candidate => join base candidate.path).filter (kindMatches group.kind)

/-- What the library roots have to offer, each root's own in its row. -/
def offers (scopes : List Scope) : List (List Path) :=
  (libraryRoots scopes).map (matchesBelow kindMatches group)

variable {kindMatches group}

theorem addLibraryRoot_eq (found : List Path) (base : Path) :
    addLibraryRoot kindMatches group found base =
      found ++ (freshChoice found (matchesBelow kindMatches group base)).toList := by
  have same : freshChoice found (matchesBelow kindMatches group base) =
      (group.candidates.find? fun candidate =>
        kindMatches group.kind (join base candidate.path) &&
          !found.contains (join base candidate.path)).map fun candidate =>
            join base candidate.path := by
    rw [freshChoice, matchesBelow, List.find?_filter, List.find?_map]
    congr 2
    funext candidate
    simp
  rw [addLibraryRoot, same]
  cases group.candidates.find? fun candidate => kindMatches group.kind (join base candidate.path) &&
    !found.contains (join base candidate.path) with
  | none => exact (List.append_nil found).symm
  | some candidate => rfl

theorem foldl_addLibraryRoot (found roots : List Path) :
    roots.foldl (addLibraryRoot kindMatches group) found =
      takeFresh found (roots.map (matchesBelow kindMatches group)) := by
  induction roots generalizing found with
  | nil => rfl
  | cons base roots ih =>
      rw [List.foldl_cons, ih, List.map_cons, takeFresh_cons, addLibraryRoot_eq]

theorem firstPerLibraryRoot_eq (scopes : List Scope) :
    firstPerLibraryRoot kindMatches group scopes =
      takeFresh [] (offers kindMatches group scopes) := by
  rw [firstPerLibraryRoot, offers, ← foldl_addLibraryRoot, libraryRoots, List.foldl_flatMap]

/-- The first candidate in declaration order that exists below a library root. -/
def firstBelow (kindMatches : Kinds) (group : RuntimePathGroup) (base : Path) : Option Path :=
  (group.candidates.find? fun candidate =>
    kindMatches group.kind (join base candidate.path)).map fun candidate => join base candidate.path

/-- Every library root's answer in scope order, less the later duplicates. -/
def answers (kindMatches : Kinds) (group : RuntimePathGroup) (scopes : List Scope) : List Path :=
  eachOnce ((libraryRoots scopes).filterMap (firstBelow kindMatches group))

theorem head?_matchesBelow (base : Path) :
    (matchesBelow kindMatches group base).head? = firstBelow kindMatches group base := by
  rw [matchesBelow, firstBelow, List.head?_filter, List.find?_map]
  rfl

theorem answers_eq (scopes : List Scope) : answers kindMatches group scopes =
    eachOnce ((offers kindMatches group scopes).filterMap List.head?) := by
  rw [answers, offers, List.filterMap_map]
  congr 2
  funext base
  exact (head?_matchesBelow base).symm

/-- The library roots are answered by their first matches exactly where the candidates a repeated
answer falls through to are the answers that come next anyway. -/
theorem firstPerLibraryRoot_eq_answers_iff (kindMatches : Kinds) (group : RuntimePathGroup)
    (scopes : List Scope) :
    firstPerLibraryRoot kindMatches group scopes = answers kindMatches group scopes ↔
      Settled [] [] (offers kindMatches group scopes) := by
  rw [firstPerLibraryRoot_eq, answers_eq]
  exact takeFresh_eq_eachOnce_iff (offers kindMatches group scopes)

end LibraryRoots

/-! ### A library root that is listed twice -/

def pluginPath : RelativePath :=
  ⟨utf8 "libheif/plugins", by decide +kernel, by decide +kernel⟩

def heifPath : RelativePath := ⟨utf8 "libheif", by decide +kernel, by decide +kernel⟩

def heifGroup : RuntimePathGroup where
  id := ⟨utf8 "plugins", by decide +kernel⟩
  kind := .directory
  candidates := [⟨.libraryRoot, pluginPath⟩, ⟨.libraryRoot, heifPath⟩]
  variableNames := []
  selection := .firstPerLibraryRoot
  inheritance := .replace

def libRoot : Path := [.root, .normal (utf8 "lib")]

/-- The second listing falls through to the directory the first one is preferred over. -/
theorem firstPerLibraryRoot_ne_answers :
    firstPerLibraryRoot (fun _ _ => true) heifGroup [⟨[], [libRoot, libRoot]⟩] ≠
      answers (fun _ _ => true) heifGroup [⟨[], [libRoot, libRoot]⟩] := by
  decide +kernel

end Onelf.Runtime.PathGroups
