import Onelf.Format.Manifest
import Onelf.Lib.Path

/-! Which entrypoint a launch runs, and with which arguments (`multicall.rs`, `main.rs`). -/

namespace Onelf.Runtime.Multicall

open Onelf.Lib hiding Holds
open Onelf.Format (EntryPoint)

/-! ### Arguments in one string -/

def argSeparator : UInt8 := 0x1f

/-- The arguments of an entrypoint, from the one string the manifest has of them. -/
def extraArgs (text : Bytes) : List Bytes := if text.isEmpty then [] else text.splitOn argSeparator

/-- Arguments that one string can hold. -/
def Joinable (args : List Bytes) : Prop := args ≠ [[]] ∧ ∀ arg ∈ args, argSeparator ∉ arg

theorem joined_nil {args : List Bytes} (empty : [argSeparator].intercalate args = []) :
    args = [] ∨ args = [[]] := by
  cases args with
  | nil => exact Or.inl rfl
  | cons first rest =>
      cases rest with
      | nil =>
          rw [List.intercalate_singleton] at empty
          exact Or.inr (empty ▸ rfl)
      | cons second rest =>
          rw [List.intercalate_cons_cons] at empty
          simp at empty

theorem extraArgs_joined {args : List Bytes} (joinable : Joinable args) :
    extraArgs ([argSeparator].intercalate args) = args := by
  rw [extraArgs]
  by_cases empty : [argSeparator].intercalate args = []
  · rw [empty]
    rcases joined_nil empty with none | blank
    · exact none.symm
    · exact absurd blank joinable.1
  · rw [if_neg (by rwa [List.isEmpty_iff])]
    refine List.splitOn_intercalate argSeparator joinable.2 ?_
    intro none
    exact empty (none ▸ rfl)

theorem extraArgs_eq_iff {text : Bytes} {args : List Bytes} :
    extraArgs text = args ↔ text = [argSeparator].intercalate args ∧ Joinable args := by
  constructor
  · intro split
    rw [extraArgs] at split
    by_cases empty : text = []
    · rw [empty, List.isEmpty_nil, if_pos rfl] at split
      rw [← split]
      exact ⟨empty, by simp, fun arg member => absurd member List.not_mem_nil⟩
    · rw [if_neg (by rwa [List.isEmpty_iff])] at split
      rw [← split, List.intercalate_splitOn]
      refine ⟨rfl, ?_, fun arg member => not_mem_of_mem_splitOn member⟩
      intro blank
      have whole := congrArg [argSeparator].intercalate blank
      rw [List.intercalate_splitOn, List.intercalate_singleton] at whole
      exact empty whole
  · intro joined
    rw [joined.1]
    exact extraArgs_joined joined.2

/-! ### The entrypoint -/

/-- What a process is started with: its arguments, `ONELF_ENTRYPOINT` and
`ONELF_ENTRYPOINT_EXPORTED`. None of them has a NUL. -/
structure Launch where
  args : List Bytes
  requested : Option Bytes
  exported : Option Bytes
  plainArgs : ∀ arg ∈ args, 0 ∉ arg
  plainRequest : ∀ name ∈ requested, 0 ∉ name

/-- `Path::file_name`, or the whole where there is none. -/
def basename (argv0 : Bytes) : Bytes := ((fileName argv0).filter validUtf8).getD argv0

/-- The entrypoint among `names` to run. -/
def pick (names : List Bytes) (default : Nat) (argv0 : Bytes) (requested exported : Option Bytes) :
    Nat :=
  let find := fun name => names.findIdx? (· = name)
  (((requested.filter fun name => some name ≠ exported).bind find).or
    (find (basename argv0))).getD default

/-- `std::env::var`: what is not text counts as unset. -/
def envVar (value : Option Bytes) : Option Bytes := value.filter validUtf8

def resolveEntrypoint (manifest : Format.Manifest) (argv0 : Bytes) (requested exported : Option Bytes) :
    Nat :=
  pick (manifest.entrypoints.map fun entrypoint => manifest.getString entrypoint.name)
    manifest.header.defaultEntrypoint argv0 (envVar requested) (envVar exported)

namespace Launch

/-- The name a process that was not started by text goes by. -/
def argv0 (launch : Launch) : Bytes := (launch.args.head?.filter validUtf8).getD (utf8 "onelf")

/-- The entrypoint a launch runs and the arguments it passes. -/
def run (manifest : Format.Manifest) (launch : Launch) : Option (EntryPoint × List Bytes) :=
  manifest.entrypoints[resolveEntrypoint manifest launch.argv0 launch.requested
    launch.exported]?.map fun entrypoint =>
      (entrypoint, extraArgs (manifest.getString entrypoint.args) ++ launch.args.drop 1)

/-- The request that is not one a runtime exported. -/
def request (launch : Launch) : Option Bytes :=
  (envVar launch.requested).filter fun name => some name ≠ envVar launch.exported

/-- The name is requested, or is the basename of the first argument with nothing requested. -/
def AsksFor (launch : Launch) (name : Bytes) : Prop :=
  launch.request = some name ∨
    launch.request = none ∧ ∃ argv0, launch.args.head? = some argv0 ∧
      (fileName argv0).getD argv0 = name

/-- The name looked up for a launch that asks for one: a first argument that is not text is not
looked at. -/
def sought (launch : Launch) (name : Bytes) : Bytes :=
  if launch.request = none ∧ launch.args.head?.all (fun argv0 => !validUtf8 argv0) then
    basename (utf8 "onelf")
  else name

end Launch

theorem fileName_part {path name : Bytes} (named : fileName path = some name) :
    name ∈ path.splitOn 47 := by
  have member : Component.normal name ∈ components path := by
    rw [fileName] at named
    split at named
    · next last =>
        cases named
        exact List.mem_of_getLast? last
    · cases named
  rw [components, List.mem_append] at member
  rcases member with lead | part
  · split at lead
    · simp at lead
    · split at lead
      · simp at lead
      · simp at lead
  · rcases List.mem_filterMap.mp part with ⟨part, within, same⟩
    rw [componentOf] at same
    split at same
    · cases same
    · split at same
      · cases same
      · cases same
        exact within

theorem fileName_valid {path name : Bytes} (valid : validUtf8 path = true)
    (named : fileName path = some name) : validUtf8 name = true := by
  have whole : [47].intercalate (path.splitOn 47) = path := List.intercalate_splitOn 47
  rw [← whole] at valid
  exact (validUtf8_intercalate (by decide)).mp valid name (fileName_part named)

theorem fileName_plain {path name : Bytes} (plain : 0 ∉ path) (named : fileName path = some name) :
    0 ∉ name := by
  intro member
  have whole : [47].intercalate (path.splitOn 47) = path := List.intercalate_splitOn 47
  refine plain ?_
  rw [← whole]
  exact mem_intercalate_of_mem 47 (fileName_part named) member

theorem basename_of_valid {argv0 : Bytes} (valid : validUtf8 argv0 = true) :
    basename argv0 = (fileName argv0).getD argv0 := by
  rw [basename]
  cases named : fileName argv0 with
  | none => rfl
  | some name => rw [Option.filter_some_pos (fileName_valid valid named)]

namespace Launch

variable {launch : Launch} {name : Bytes}

/-- The name a launch asks for has no NUL. -/
theorem AsksFor.plain (asks : launch.AsksFor name) : 0 ∉ name := by
  rcases asks with requested | ⟨_, argv0, first, same⟩
  · refine launch.plainRequest name ?_
    rw [request, Option.filter_eq_some_iff, envVar, Option.filter_eq_some_iff] at requested
    exact requested.1.1
  · have plain := launch.plainArgs argv0 (List.mem_of_head? first)
    rw [← same]
    cases named : fileName argv0 with
    | none => exact plain
    | some name => exact fileName_plain plain named

/-- A launch that asks for a name there is runs what is found under the name sought for it. -/
theorem AsksFor.picked (asks : launch.AsksFor name) {names : List Bytes} (named : name ∈ names)
    (default : Nat) :
    pick names default launch.argv0 (envVar launch.requested) (envVar launch.exported) =
      (names.findIdx? (· = launch.sought name)).getD default := by
  have found : (names.findIdx? (· = name)).isSome := by
    rw [List.findIdx?_isSome]
    exact List.any_eq_true.mpr ⟨name, named, decide_eq_true rfl⟩
  rw [pick]
  refine congrArg (Option.getD · default) ?_
  rcases asks with requested | ⟨unset, argv0, first, same⟩
  · rw [request] at requested
    rw [sought, request, requested, Option.bind_some, Option.or_of_isSome found]
    rfl
  · rw [request] at unset
    rw [sought, request, unset, first, Launch.argv0, first, Option.bind_none, Option.none_or,
      Option.all_some]
    cases valid : validUtf8 argv0 with
    | true =>
        rw [Option.filter_some_pos valid, Option.getD_some, basename_of_valid valid, same]
        rfl
    | false =>
        rw [Option.filter_some_neg valid]
        rfl

end Launch

end Onelf.Runtime.Multicall
