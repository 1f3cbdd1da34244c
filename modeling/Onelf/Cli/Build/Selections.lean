import Onelf.Cli.Build.SetTable
import Onelf.Cli.Pack.Assemble
import Onelf.Lib.SortedMap

/-! The set selections a recipe writes, normalized and paired with the final entrypoint table
(`recipe.rs`, `assembly.rs`). -/

namespace Onelf.Cli.Build

open Onelf.Lib Onelf.Format Onelf.Format.Metadata Onelf.Cli.Pack

/-! ### The recipe -/

structure Entrypoint where
  name : Text
  path : Text
  args : List Text
  default : Bool
  /-- As written; an omitted list selects every declared set. -/
  sets : Option (List Str)

/-- One of the `[sysroot.sets]` tables. -/
structure SetDeclaration where
  packages : List Str
  url : Str
  blake3 : Str

/-- What a recipe says of its entrypoints, of what the package leaves out and of its sets. -/
structure Recipe where
  command : Text
  sets : Option (List Str)
  exclude : List Text
  entrypoints : List Entrypoint
  declared : SortedMap Str SetDeclaration

/-- Which of the declared sets one entrypoint selects; a written list is sorted. -/
inductive SetSelection where
  | all
  | names (sets : List Str)
  deriving DecidableEq

def SetSelection.isExplicit : SetSelection → Bool
  | .all => false
  | .names _ => true

structure SetSelections where
  primary : SetSelection
  named : SortedMap Text SetSelection

/-- Why a build stops. -/
inductive BuildError where
  | replacedCommand (default : Text)
  /-- The list is a named entrypoint's, or the package command's. -/
  | duplicateSet (list : Option Text) (name : Str)
  | unknownSet (list : Option Text) (name : Str)
  | noSelection (name : Text)
  | duplicateEntrypoint (name : Text)
  | noEntrypoint (default : Text)
  | undeclaredSet (entrypoint : Text) (name : Str)
  | setName (name : Str)
  | setHash (name : Str)
  | setUrl (name : Str)
  | noPackages (name : Str)
  | record (why : MetadataError)
  | table (why : Runtime.Sets.GateError)

/-! ### Normalization -/

/-- One written list against the declared names, which a repeated or an unknown name fails. -/
def normalizeList (what : Option Text) (written : Option (List Str)) (declared : List Str) :
    Except BuildError SetSelection :=
  match written with
  | none => .ok .all
  | some names => do
      eachUnique (fun _ => .ok ()) (fun name => refuseIf (name ∉ declared) (.unknownSet what name))
        id (.duplicateSet what) [] names
      .ok (.names (sortByKey id names))

/-- A `[package]` list beside a default entrypoint would select for nothing. -/
def checkCommandList (recipe : Recipe) : Except BuildError Unit :=
  match recipe.sets, recipe.entrypoints.find? Entrypoint.default with
  | some _, some default => .error (.replacedCommand default.name)
  | _, _ => .ok ()

def normalizeEntrypoint (declared : List Str) (named : SortedMap Text SetSelection)
    (entrypoint : Entrypoint) : Except BuildError (SortedMap Text SetSelection) := do
  let selection ← normalizeList (some entrypoint.name) entrypoint.sets declared
  .ok (named.insert entrypoint.name selection)

def normalize (recipe : Recipe) : Except BuildError SetSelections := do
  checkCommandList recipe
  let primary ← normalizeList none recipe.sets recipe.declared.keys
  let named ← recipe.entrypoints.foldlM (normalizeEntrypoint recipe.declared.keys) .empty
  .ok ⟨primary, named⟩

/-! ### The final entrypoint table -/

/-- What the recipe gives the packer; `rest` is what it says of other matters. -/
def packOptions (recipe : Recipe) (rest : PackOptions) : PackOptions :=
  { rest with
    command := recipe.command
    exclude := recipe.exclude
    entrypoints := recipe.entrypoints.map fun entrypoint =>
      ⟨entrypoint.name, entrypoint.path, entrypoint.args⟩
    defaultEntrypoint := (recipe.entrypoints.find? Entrypoint.default).map Entrypoint.name }

structure ResolvedSelection where
  name : Text
  sets : SetSelection
  deriving DecidableEq

def setSelectionNamed (named : SortedMap Text SetSelection) (name : Text) :
    Except BuildError SetSelection :=
  match named.get? name with
  | some selection => .ok selection
  | none => .error (.noSelection name)

/-- The first row is the default: the package command's, unless a named entrypoint takes its
place. -/
def rowSelection (selections : SetSelections) (defaultEntrypoint : Option Text) (name : Text)
    (index : Nat) : Except BuildError SetSelection :=
  if index = 0 ∧ defaultEntrypoint = none then .ok selections.primary
  else setSelectionNamed selections.named name

def resolveRow (selections : SetSelections) (defaultEntrypoint : Option Text) (row : Text × Nat) :
    Except BuildError ResolvedSelection := do
  let sets ← rowSelection selections defaultEntrypoint row.1 row.2
  .ok ⟨row.1, sets⟩

def resolveSelections (selections : SetSelections) (opts : PackOptions) :
    Except BuildError (List ResolvedSelection) := do
  let table ← (finalEntrypointNames opts).zipIdx.mapM
    (resolveRow selections opts.defaultEntrypoint)
  eachUnique (fun _ => .ok ()) (fun _ => .ok ()) ResolvedSelection.name
    (fun entry => .duplicateEntrypoint entry.name) [] table
  .ok table

/-! ### What each entrypoint selects -/

/-- The list written for the entrypoint a name leads to. -/
def ownList (recipe : Recipe) (name : Text) : Option (List Str) :=
  match recipe.entrypoints.find? fun entrypoint => entrypoint.name = name with
  | some entrypoint => entrypoint.sets
  | none => recipe.sets

/-- Whether a list selects a set; an omitted one selects every set. -/
def selects (own : Option (List Str)) (name : Str) : Bool := own.all fun names => name ∈ names

theorem selects_iff {own : Option (List Str)} {name : Str} :
    selects own name = true ↔ ∀ names ∈ own, name ∈ names := by
  rw [selects, Option.all_eq_true]
  simp only [decide_eq_true_eq, Option.mem_def]

/-- The selection a list stands for. -/
def selectionOf : Option (List Str) → SetSelection
  | none => .all
  | some names => .names (sortByKey id names)

theorem normalizeList_eq_ok {what : Option Text} {written : Option (List Str)}
    {declared : List Str} {selection : SetSelection} :
    normalizeList what written declared = .ok selection ↔
      (∀ names ∈ written, (∀ name ∈ names, name ∈ declared) ∧ names.Nodup) ∧
        selection = selectionOf written := by
  cases written with
  | none =>
      rw [normalizeList, Except.ok.injEq]
      constructor
      · intro same
        exact ⟨fun _ none => (by cases none), same.symm⟩
      · intro normal
        exact normal.2.symm
  | some names =>
      simp only [normalizeList, Except.followed_eq_ok, eachUnique_eq_ok, refuseIf_eq_ok, not_not,
        List.map_id, List.not_mem_nil, not_false_eq_true, implies_true, true_and, Except.ok.injEq]
      constructor
      · intro normal
        refine ⟨?_, normal.2.symm⟩
        intro other same
        cases same
        exact normal.1
      · intro normal
        exact ⟨normal.1 names rfl, normal.2.symm⟩

/-- Every entrypoint's list is held under its name, where no two share one. -/
theorem normalizeEntrypoint_foldlM {declared : List Str} {entrypoints : List Entrypoint}
    {start last : SortedMap Text SetSelection}
    (distinct : (entrypoints.map Entrypoint.name).Nodup)
    (ran : entrypoints.foldlM (normalizeEntrypoint declared) start = .ok last) :
    (∀ entrypoint ∈ entrypoints, normalizeList (some entrypoint.name) entrypoint.sets declared =
        .ok (selectionOf entrypoint.sets) ∧
      last.get? entrypoint.name = some (selectionOf entrypoint.sets)) ∧
      ∀ name, name ∉ entrypoints.map Entrypoint.name → last.get? name = start.get? name := by
  induction entrypoints generalizing start with
  | nil =>
      cases ran
      exact ⟨fun _ member => absurd member List.not_mem_nil, fun _ _ => rfl⟩
  | cons entrypoint entrypoints ih =>
      rw [List.map_cons, List.nodup_cons] at distinct
      rw [List.foldlM_cons, Except.andThen_eq_ok] at ran
      rcases ran with ⟨next, first, later⟩
      rw [normalizeEntrypoint, Except.andThen_eq_ok] at first
      rcases first with ⟨selection, normal, same⟩
      cases same
      have shape := (normalizeList_eq_ok.mp normal).2
      rcases ih distinct.2 later with ⟨held, untouched⟩
      have here : last.get? entrypoint.name = some (selectionOf entrypoint.sets) := by
        rw [untouched _ distinct.1, SortedMap.get?_insert, if_pos rfl, shape]
      constructor
      · intro other member
        rcases List.mem_cons.mp member with same | within
        · rw [same]
          exact ⟨shape ▸ normal, here⟩
        · exact held other within
      · intro name absent
        rw [List.map_cons, List.mem_cons, not_or] at absent
        rw [untouched name absent.2, SortedMap.get?_insert, if_neg (Ne.symm absent.1)]

section
variable {recipe : Recipe} {rest : PackOptions}

theorem ownList_of_mem (distinct : (recipe.entrypoints.map Entrypoint.name).Nodup)
    {entrypoint : Entrypoint} (member : entrypoint ∈ recipe.entrypoints) :
    ownList recipe entrypoint.name = entrypoint.sets := by
  cases found : recipe.entrypoints.find? fun other => other.name = entrypoint.name with
  | none => exact absurd (decide_eq_true rfl) (List.find?_eq_none.mp found entrypoint member)
  | some other =>
      have same : other.name = entrypoint.name := by simpa using List.find?_some found
      rw [ownList, found,
        List.inj_on_of_nodup_map distinct (List.mem_of_find?_eq_some found) member same]

theorem ownList_of_absent {name : Text}
    (absent : name ∉ recipe.entrypoints.map Entrypoint.name) : ownList recipe name = recipe.sets := by
  have none : recipe.entrypoints.find? (fun other => other.name = name) = none := by
    rw [List.find?_eq_none]
    intro entrypoint member same
    exact absent (List.mem_map.mpr ⟨entrypoint, member, of_decide_eq_true same⟩)
  rw [ownList, none]

theorem finalEntrypointNames_eq : finalEntrypointNames (packOptions recipe rest) =
    defaultName (packOptions recipe rest) ::
      (otherRows (packOptions recipe rest)).map Declared.name := rfl

/-- What normalization makes of the lists of entrypoints that have a name each. -/
structure Normalized (recipe : Recipe) (selections : SetSelections) : Prop where
  primary : normalizeList none recipe.sets recipe.declared.keys = .ok selections.primary
  held : ∀ entrypoint ∈ recipe.entrypoints,
    normalizeList (some entrypoint.name) entrypoint.sets recipe.declared.keys =
        .ok (selectionOf entrypoint.sets) ∧
      selections.named.get? entrypoint.name = some (selectionOf entrypoint.sets)
  absent : ∀ name, name ∉ recipe.entrypoints.map Entrypoint.name →
    selections.named.get? name = none

theorem normalize_normalized {selections : SetSelections}
    (distinct : (recipe.entrypoints.map Entrypoint.name).Nodup)
    (normalized : normalize recipe = .ok selections) : Normalized recipe selections := by
  rw [normalize, Except.followed_eq_ok] at normalized
  rcases Except.andThen_eq_ok.mp normalized.2 with ⟨primary, command, later⟩
  rcases Except.andThen_eq_ok.mp later with ⟨named, gathered, same⟩
  cases same
  have kept := normalizeEntrypoint_foldlM distinct gathered
  exact ⟨command, kept.1, kept.2⟩

theorem resolveSelections_rows {selections : SetSelections} {opts : PackOptions}
    {table : List ResolvedSelection} (resolved : resolveSelections selections opts = .ok table) :
    table.map ResolvedSelection.name = finalEntrypointNames opts ∧
      (table.map ResolvedSelection.name).Nodup ∧
      ∀ row ∈ table, ∃ index, (finalEntrypointNames opts)[index]? = some row.name ∧
        rowSelection selections opts.defaultEntrypoint row.name index = .ok row.sets := by
  rw [resolveSelections, Except.andThen_eq_ok] at resolved
  rcases resolved with ⟨rows, ran, checked⟩
  rw [Except.followed_eq_ok, eachUnique_eq_ok] at checked
  rcases checked with ⟨⟨-, -, once⟩, same⟩
  cases same
  have paired := Except.mapM_eq_ok.mp ran
  have made {entry : Text × Nat} {row : ResolvedSelection}
      (ok : resolveRow selections opts.defaultEntrypoint entry = .ok row) : row.name = entry.1 ∧
        rowSelection selections opts.defaultEntrypoint entry.1 entry.2 = .ok row.sets := by
    rw [resolveRow, Except.andThen_eq_ok] at ok
    rcases ok with ⟨sets, found, same⟩
    cases same
    exact ⟨rfl, found⟩
  have names : table.map ResolvedSelection.name =
      (finalEntrypointNames opts).zipIdx.map Prod.fst := by
    have each : ∀ entry ∈ (finalEntrypointNames opts).zipIdx, ∀ row : ResolvedSelection,
        resolveRow selections opts.defaultEntrypoint entry = .ok row →
          (row.name = entry.1 ↔ True) := fun _ _ row ok => iff_of_true (made ok).1 trivial
    exact (paired_map_eq_iff paired each).mpr fun _ _ => trivial
  rw [List.zipIdx_map_fst] at names
  refine ⟨names, once, ?_⟩
  intro row member
  rcases paired_of_mem paired member with ⟨entry, within, ok⟩
  rcases made ok with ⟨name, sets⟩
  rw [← name] at sets
  refine ⟨entry.2, ?_, sets⟩
  rw [name]
  exact List.mem_zipIdx_iff_getElem?.mp within

/-- The resolved table has the final names, and each row what its entrypoint's own list says. -/
structure Resolved (recipe : Recipe) (opts : PackOptions) (table : List ResolvedSelection) :
    Prop where
  names : table.map ResolvedSelection.name = finalEntrypointNames opts
  distinct : (finalEntrypointNames opts).Nodup
  own : ∀ row ∈ table, row.sets = selectionOf (ownList recipe row.name)
  known : ∀ row ∈ table, ∀ names ∈ ownList recipe row.name,
    (∀ name ∈ names, name ∈ recipe.declared.keys) ∧ names.Nodup

/-- The package command answers under a name no entrypoint has, where none is the default. -/
theorem ownList_defaultName (none : (packOptions recipe rest).defaultEntrypoint = none)
    (distinct : (finalEntrypointNames (packOptions recipe rest)).Nodup) :
    ownList recipe (defaultName (packOptions recipe rest)) = recipe.sets := by
  apply ownList_of_absent
  intro named
  rcases List.mem_map.mp named with ⟨entrypoint, within, same⟩
  rw [finalEntrypointNames_eq, List.nodup_cons] at distinct
  apply distinct.1
  rw [otherRows, none]
  refine List.mem_map.mpr ⟨⟨entrypoint.name, entrypoint.path, entrypoint.args⟩, ?_, same⟩
  exact List.mem_filter.mpr ⟨List.mem_map_of_mem within, decide_eq_true (by simp)⟩

theorem resolveSelections_resolved {selections : SetSelections} {table : List ResolvedSelection}
    (distinct : (recipe.entrypoints.map Entrypoint.name).Nodup)
    (normalized : normalize recipe = .ok selections)
    (resolved : resolveSelections selections (packOptions recipe rest) = .ok table) :
    Resolved recipe (packOptions recipe rest) table := by
  have normal := normalize_normalized distinct normalized
  rcases resolveSelections_rows resolved with ⟨names, once, rows⟩
  rw [names] at once
  -- Each row has the selection of its own list, as normalization checked it.
  have checked : ∀ row ∈ table, ∃ what, normalizeList what (ownList recipe row.name)
      recipe.declared.keys = .ok row.sets := by
    intro row member
    rcases rows row member with ⟨index, place, found⟩
    rw [rowSelection] at found
    split at found
    · next first =>
        rw [first.1, finalEntrypointNames_eq, List.getElem?_cons_zero] at place
        rw [← Option.some.inj place, ownList_defaultName first.2 once,
          ← Except.ok.inj found]
        exact ⟨none, normal.primary⟩
    · rw [setSelectionNamed] at found
      by_cases named : row.name ∈ recipe.entrypoints.map Entrypoint.name
      · rcases List.mem_map.mp named with ⟨entrypoint, within, same⟩
        rcases normal.held entrypoint within with ⟨accepted, kept⟩
        rw [← same, kept] at found
        rw [← same, ownList_of_mem distinct within, ← Except.ok.inj found]
        exact ⟨_, accepted⟩
      · rw [normal.absent _ named] at found
        cases found
  refine ⟨names, once, ?_, ?_⟩
  · intro row member
    rcases checked row member with ⟨what, accepted⟩
    exact (normalizeList_eq_ok.mp accepted).2
  · intro row member
    rcases checked row member with ⟨what, accepted⟩
    exact (normalizeList_eq_ok.mp accepted).1

end

end Onelf.Cli.Build
