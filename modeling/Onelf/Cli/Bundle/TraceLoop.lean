import Mathlib.Order.Bounds.Basic
import Onelf.Lib.Saturation
import Onelf.Lib.Utf8
import Onelf.Sysroot.Path
import Onelf.Sysroot.Prune

/-! Pruning under a trace, repeated until what the kept files need is kept as well (`sysroot.rs`). -/

namespace Onelf.Cli.Bundle

open Onelf.Lib Onelf.Sysroot

/-- What a population prunes. -/
structure Population where
  tiers : Tiers
  sysroot : Rootfs Bytes
  /-- The names an ELF file needs, as goblin reads them; `none` where it refuses the file. -/
  libraries : Bytes → Option (List Bytes)

namespace Population

variable (population : Population)

/-! ### Rounds -/

/-- A link's target joined to the directory of the link. -/
def namedBy (rel target : Bytes) : List (Segment Bytes) :=
  if target.head? = some 47 then queue [] target
  else (components rel).dropLast.filterMap Component.segment? ++ queue [] target

/-- The sysroot path the link at `rel` points to, or `none` when `rel` is no link. -/
def linkTarget (rel : Bytes) : Option Bytes := do
  let place ← population.sysroot.resolveFrom false maxLinks [] (queue [] rel)
  let target ← population.sysroot.readLink place
  let resolved ← population.sysroot.resolveFrom false maxLinks [] (namedBy rel target)
  (fromUtf8 (joinPath resolved)).map Text.bytes

def isElf (content : Bytes) : Bool := content.take 4 = [0x7f, 0x45, 0x4c, 0x46]

/-- An absolute name counts by its last component. -/
def parseNeeded (content : Bytes) : Option (List Bytes) :=
  (population.libraries content).map fun names => names.map fun name =>
    if name.head? = some 47 then (fileName name).getD name else name

/-- What the file at `rel` needs, where it is an ELF file or a link to one. -/
def neededBy (rel : Bytes) : List Bytes :=
  match (population.sysroot.inRoot rel).bind population.sysroot.disk with
  | some (.file content) =>
      if isElf content then (population.parseNeeded content).getD [] else []
  | _ => []

/-- The directories a path lies in, the root among them. -/
def ancestors (rel : Bytes) : List Bytes := (rel.splitOn 47).dropLast.inits.map joinPath

def isLinkInto (kept : List Bytes) (rel : Bytes) : Bool :=
  (population.linkTarget rel).any fun target =>
    kept.contains target || (kept.flatMap ancestors).contains target

/-- The names that the kept files add: link targets and needed names, and the links to what is
kept. -/
def additions (kept : List Bytes) : List Bytes :=
  (kept.flatMap fun rel => (population.linkTarget rel).toList ++ population.neededBy rel) ++
    population.tiers.files.filter fun rel => !kept.contains rel && population.isLinkInto kept rel

/-- The loop, until a round adds no name; `fuel` bounds the rounds. -/
def keepLoop : Nat → Finset Bytes → Option Pruned
  | 0, _ => none
  | fuel + 1, keepNames =>
      let pruned := population.tiers.prune keepNames
      if population.tiers.trace.isNone then some pruned
      else
        let grown := keepNames ∪ (population.additions pruned.kept).toFinset
        if grown.card = keepNames.card then some pruned else keepLoop fuel grown

/-- Every name that a round can add. -/
def names : Finset Bytes := ((population.tiers.files.flatMap fun rel =>
    (population.linkTarget rel).toList ++ population.neededBy rel) ++
  population.tiers.files).toFinset

/-- The pruning of a population, with as many rounds as it can take. -/
def pruned : Option Pruned := population.keepLoop (population.names.card + 1) ∅

/-! ### What is to be kept -/

/-- A file that a soname names. -/
def NamedBy (soname rel : Bytes) : Prop := baseName rel = soname ∨ rel = soname

/-- A kept file, or a directory holding one. -/
def Holds (path rel : Bytes) : Prop := path = rel ∨ path ∈ ancestors rel

/-- A set of admitted files that is closed under what its files need, lead to and are led to by. -/
structure Closes (keeps : Set Bytes) : Prop where
  admitted : ∀ rel ∈ keeps, population.tiers.Admitted rel
  own : ∀ rel, population.tiers.OnItsOwn rel → rel ∈ keeps
  needed : ∀ object ∈ keeps, ∀ soname ∈ population.neededBy object, ∀ rel,
    population.tiers.Admitted rel → NamedBy soname rel → rel ∈ keeps
  target : ∀ link ∈ keeps, ∀ rel, population.linkTarget link = some rel →
    population.tiers.Admitted rel → rel ∈ keeps
  link : ∀ link, population.tiers.Admitted link → ∀ path, population.linkTarget link = some path →
    ∀ rel ∈ keeps, Holds path rel → link ∈ keeps

/-- The files reached by these rules. -/
inductive Kept (population : Population) : Bytes → Prop
  | own {rel : Bytes} : population.tiers.OnItsOwn rel → Kept population rel
  | needed {object soname rel : Bytes} : Kept population object →
      soname ∈ population.neededBy object → population.tiers.Admitted rel → NamedBy soname rel →
      Kept population rel
  | target {link rel : Bytes} : Kept population link → population.linkTarget link = some rel →
      population.tiers.Admitted rel → Kept population rel
  | link {link path rel : Bytes} : population.tiers.Admitted link →
      population.linkTarget link = some path → Kept population rel → Holds path rel →
      Kept population link

theorem kept_isLeast : IsLeast {keeps | population.Closes keeps} {rel | population.Kept rel} := by
  constructor
  · refine ⟨fun rel kept => ?_, fun rel own => .own own,
      fun object kept soname needs rel admitted named => .needed kept needs admitted named,
      fun link kept rel leads admitted => .target kept leads admitted,
      fun link admitted path leads rel kept holds => .link admitted leads kept holds⟩
    cases kept with
    | own own => exact own.1
    | needed _ _ admitted _ => exact admitted
    | target _ _ admitted => exact admitted
    | link admitted _ _ _ => exact admitted
  · intro keeps closes rel kept
    induction kept with
    | own own => exact closes.own _ own
    | needed _ needs admitted named ih => exact closes.needed _ ih _ needs _ admitted named
    | target _ leads admitted ih => exact closes.target _ ih _ leads admitted
    | link admitted leads _ holds ih => exact closes.link _ admitted _ leads _ ih holds

/-- A path that a link rule adds to the names: where a kept link leads, or a link to what is kept
that is not there for a reason of its own. -/
def Pointed (name : Bytes) : Prop :=
  (∃ link, population.Kept link ∧ population.linkTarget link = some name) ∨
    name ∈ population.tiers.files ∧ ¬population.tiers.OnItsOwn name ∧
      ∃ path rel, population.linkTarget name = some path ∧ population.Kept rel ∧ Holds path rel

/-- No path directly in the root that a link rule adds is also the name of a file that is to go. -/
def NamesApart : Prop :=
  ∀ name, 47 ∉ name → population.Pointed name → ∀ rel, population.tiers.Admitted rel →
    baseName rel = name → population.Kept rel

end Population

namespace Population

variable {population : Population}

/-! ### The rounds end -/

/-- What a round adds. -/
def more (population : Population) (keepNames : Finset Bytes) : Finset Bytes :=
  (population.additions (population.tiers.prune keepNames).kept).toFinset

theorem keepLoop_eq (traced : population.tiers.trace.isNone = false) (fuel : Nat)
    (keepNames : Finset Bytes) : population.keepLoop fuel keepNames =
      (saturate population.more fuel keepNames).map population.tiers.prune := by
  induction fuel generalizing keepNames with
  | zero => rfl
  | succ fuel ih =>
      rw [keepLoop, saturate]
      simp only [traced, Bool.false_eq_true, if_false]
      change (if (keepNames ∪ population.more keepNames).card = keepNames.card then _ else _) = _
      split
      · rfl
      · exact ih _

theorem mem_additions {kept : List Bytes} {name : Bytes} : name ∈ population.additions kept ↔
    (∃ rel ∈ kept, population.linkTarget rel = some name ∨ name ∈ population.neededBy rel) ∨
      name ∈ population.tiers.files ∧ name ∉ kept ∧
        ∃ path rel, population.linkTarget name = some path ∧ rel ∈ kept ∧ Holds path rel := by
  have into : population.isLinkInto kept name = true ↔
      ∃ path rel, population.linkTarget name = some path ∧ rel ∈ kept ∧ Holds path rel := by
    rw [isLinkInto, Option.any_eq_true]
    constructor
    · rintro ⟨path, leads, held⟩
      rw [Bool.or_eq_true, List.contains_iff_mem, List.contains_iff_mem] at held
      rcases held with here | above
      · exact ⟨path, path, leads, here, .inl rfl⟩
      · obtain ⟨rel, within, above⟩ := List.mem_flatMap.mp above
        exact ⟨path, rel, leads, within, .inr above⟩
    · rintro ⟨path, rel, leads, within, holds⟩
      refine ⟨path, leads, ?_⟩
      rw [Bool.or_eq_true, List.contains_iff_mem, List.contains_iff_mem]
      rcases holds with rfl | above
      · exact .inl within
      · exact .inr (List.mem_flatMap.mpr ⟨rel, within, above⟩)
  rw [additions, List.mem_append, List.mem_flatMap, List.mem_filter, Bool.and_eq_true, into,
    Bool.not_eq_true', List.contains_eq_mem, decide_eq_false_iff_not]
  simp only [List.mem_append, Option.mem_toList]

theorem mem_more {keepNames : Finset Bytes} {name : Bytes} : name ∈ population.more keepNames ↔
    (∃ rel ∈ (population.tiers.prune keepNames).kept,
        population.linkTarget rel = some name ∨ name ∈ population.neededBy rel) ∨
      name ∈ population.tiers.files ∧ name ∉ (population.tiers.prune keepNames).kept ∧
        ∃ path rel, population.linkTarget name = some path ∧
          rel ∈ (population.tiers.prune keepNames).kept ∧ Holds path rel := by
  rw [more, List.mem_toFinset, mem_additions]

theorem more_names (keepNames : Finset Bytes) : population.more keepNames ⊆ population.names := by
  intro name added
  rw [names, List.mem_toFinset, List.mem_append, List.mem_flatMap]
  rcases mem_more.mp added with ⟨rel, kept, adds⟩ | ⟨listed, -⟩
  · left
    refine ⟨rel, ?_, ?_⟩
    · rcases Tiers.mem_prune.mp kept with own | ⟨admitted, -⟩
      · exact own.1.1
      · exact admitted.1
    · rw [List.mem_append, Option.mem_toList]
      exact adds
  · exact .inr listed

/-- The loop ends, with names that a round adds nothing to. -/
theorem pruned_saturated (traced : population.tiers.trace.isNone = false) :
    ∃ keepNames, saturate population.more (population.names.card + 1) ∅ = some keepNames ∧
      population.pruned = some (population.tiers.prune keepNames) := by
  have ends : (saturate population.more (population.names.card + 1) ∅).isSome = true := by
    apply saturate_isSome (fun keepNames _ => more_names keepNames) (Finset.empty_subset _)
    rw [Finset.card_empty]
    exact Nat.lt_succ_self _
  obtain ⟨keepNames, ended⟩ := Option.isSome_iff_exists.mp ends
  refine ⟨keepNames, ended, ?_⟩
  rw [pruned, keepLoop_eq traced, ended]
  rfl

/-! ### Nothing is missing -/

/-- With names that a round adds nothing to, every file that is to be kept is. -/
theorem kept_of_saturated {keepNames : Finset Bytes} (closed : population.more keepNames ⊆ keepNames)
    {rel : Bytes} (kept : population.Kept rel) : rel ∈ (population.tiers.prune keepNames).kept := by
  induction kept with
  | own own => exact Tiers.mem_prune.mpr (.inl own)
  | @needed object soname rel _ needs admitted named ih =>
      have held : soname ∈ keepNames := closed (mem_more.mpr (.inl ⟨object, ih, .inr needs⟩))
      refine Tiers.mem_prune.mpr (.inr ⟨admitted, ?_⟩)
      rcases named with base | path
      · exact .inl (base ▸ held)
      · exact .inr (path ▸ held)
  | @target link rel _ leads admitted ih =>
      have held : rel ∈ keepNames := closed (mem_more.mpr (.inl ⟨link, ih, .inl leads⟩))
      exact Tiers.mem_prune.mpr (.inr ⟨admitted, .inr held⟩)
  | @link link path rel admitted leads _ holds ih =>
      by_contra absent
      have held : link ∈ keepNames :=
        closed (mem_more.mpr (.inr ⟨admitted.1, absent, path, rel, leads, ih, holds⟩))
      exact absent (Tiers.mem_prune.mpr (.inr ⟨admitted, .inr held⟩))

/-! ### Nothing is too much -/

/-- Why a name is among those that keep. -/
def Justified (population : Population) (name : Bytes) : Prop :=
  (∃ object, population.Kept object ∧ name ∈ population.neededBy object) ∨ population.Pointed name

/-- Where the names are told apart, what they keep is to be kept. -/
theorem kept_of_justified (apart : population.NamesApart) {keepNames : Finset Bytes}
    (justified : ∀ name ∈ keepNames, population.Justified name) {rel : Bytes}
    (kept : rel ∈ (population.tiers.prune keepNames).kept) : population.Kept rel := by
  rcases Tiers.mem_prune.mp kept with own | ⟨admitted, named | path⟩
  · exact .own own
  · rcases justified _ named with ⟨object, here, needs⟩ | pointed
    · exact .needed here needs admitted (.inl rfl)
    · exact apart _ (baseName_whole rel) pointed rel admitted rfl
  · rcases justified _ path with ⟨object, here, needs⟩ | ⟨link, here, leads⟩ |
      ⟨_, _, path, other, leads, here, holds⟩
    · exact .needed here needs admitted (.inr rfl)
    · exact .target here leads admitted
    · exact .link admitted leads here holds

theorem justified_step (apart : population.NamesApart) (keepNames : Finset Bytes)
    (justified : ∀ name ∈ keepNames, population.Justified name) :
    ∀ name ∈ keepNames ∪ population.more keepNames, population.Justified name := by
  intro name member
  rcases Finset.mem_union.mp member with held | added
  · exact justified name held
  · rcases mem_more.mp added with ⟨rel, kept, leads | needs⟩ |
      ⟨listed, absent, path, rel, leads, kept, holds⟩
    · exact .inr (.inl ⟨rel, kept_of_justified apart justified kept, leads⟩)
    · exact .inl ⟨rel, kept_of_justified apart justified kept, needs⟩
    · refine .inr (.inr ⟨listed, fun own => ?_, path, rel, leads,
        kept_of_justified apart justified kept, holds⟩)
      exact absent (Tiers.mem_prune.mpr (.inl own))

/-- What is kept is what is to be kept exactly where the names are told apart. -/
theorem saturated_iff {keepNames : Finset Bytes} {fuel : Nat}
    (ended : saturate population.more fuel ∅ = some keepNames) :
    (∀ rel, rel ∈ (population.tiers.prune keepNames).kept ↔ population.Kept rel) ↔
      population.NamesApart := by
  have closed := saturate_closed ended
  constructor
  · intro same name whole pointed rel admitted base
    have held : name ∈ keepNames := by
      rcases pointed with ⟨link, kept, leads⟩ | ⟨listed, without, path, other, leads, kept, holds⟩
      · exact closed (mem_more.mpr (.inl ⟨link, (same link).mpr kept, .inl leads⟩))
      · by_cases here : name ∈ (population.tiers.prune keepNames).kept
        · rcases Tiers.mem_prune.mp here with own | ⟨_, named | path⟩
          · exact absurd own without
          · rwa [baseName_of_whole whole] at named
          · exact path
        · exact closed (mem_more.mpr (.inr ⟨listed, here, path, other, leads,
            (same other).mpr kept, holds⟩))
    exact (same rel).mp (Tiers.mem_prune.mpr (.inr ⟨admitted, .inl (base ▸ held)⟩))
  · intro apart rel
    have justified : ∀ name ∈ keepNames, population.Justified name :=
      @saturate_keeps _ _ population.more ∅ keepNames fuel
        (fun keepNames => ∀ name ∈ keepNames, population.Justified name)
        (justified_step apart) (fun name member => absurd member (Finset.notMem_empty name)) ended
    exact ⟨kept_of_justified apart justified, kept_of_saturated closed⟩

/-- The loop ends, and what it keeps is the least set that it should keep exactly where no path in
the root that a link rule adds is taken for the name of another file. -/
theorem pruned_isLeast_iff (population : Population) : ∃ pruned, population.pruned = some pruned ∧
    (IsLeast {keeps | population.Closes keeps} {rel | rel ∈ pruned.kept} ↔ population.NamesApart) := by
  have least (pruned : Pruned) :
      IsLeast {keeps | population.Closes keeps} {rel | rel ∈ pruned.kept} ↔
        ∀ rel, rel ∈ pruned.kept ↔ population.Kept rel := by
    constructor
    · intro isLeast rel
      have same := isLeast.unique population.kept_isLeast
      exact iff_of_eq (congrArg (rel ∈ ·) same)
    · intro same
      have sets : {rel | rel ∈ pruned.kept} = {rel | population.Kept rel} := Set.ext same
      rw [sets]
      exact population.kept_isLeast
  cases traced : population.tiers.trace.isNone with
  | false =>
      obtain ⟨keepNames, ended, result⟩ := pruned_saturated traced
      exact ⟨_, result, (least _).trans (saturated_iff ended)⟩
  | true =>
      have none : population.tiers.trace = none := Option.isNone_iff_eq_none.mp traced
      have own (rel : Bytes) (admitted : population.tiers.Admitted rel) :
          population.tiers.OnItsOwn rel := by
        refine ⟨admitted, ?_⟩
        rw [Tiers.survives, none]
        rfl
      refine ⟨population.tiers.prune ∅, ?_, iff_of_true ((least _).mpr fun rel => ?_) ?_⟩
      · rw [pruned, keepLoop, if_pos traced]
      · constructor
        · intro kept
          rcases Tiers.mem_prune.mp kept with here | ⟨admitted, -⟩
          · exact .own here
          · exact .own (own rel admitted)
        · intro kept
          exact Tiers.mem_prune.mpr (.inl (own rel (population.kept_isLeast.1.admitted rel kept)))
      · exact fun _ _ _ rel admitted _ => .own (own rel admitted)

end Population

/-! ### A link named as a file is -/

def toolFile : Bytes := utf8 "usr/share/tool/bin"

def mergedFiles : List (List Bytes) :=
  [[utf8 "usr", utf8 "bin", utf8 "app"], [utf8 "usr", utf8 "share", utf8 "tool", utf8 "bin"]]

def mergedDirs : List (List Bytes) :=
  [[], [utf8 "usr"], [utf8 "usr", utf8 "bin"], [utf8 "usr", utf8 "share"],
    [utf8 "usr", utf8 "share", utf8 "tool"]]

/-- A merged `bin`, a program in it, and a data file of the same name. -/
def mergedDisk : Disk Bytes := fun place =>
  if place = [utf8 "bin"] then some (.link (utf8 "usr/bin"))
  else if mergedFiles.contains place then some (.file [1])
  else if mergedDirs.contains place then some .dir
  else none

theorem mergedDisk_eq (place : List Bytes) : mergedDisk place =
    if place = [utf8 "bin"] then some (.link (utf8 "usr/bin"))
    else if place ∈ mergedFiles then some (.file [1])
    else if place ∈ mergedDirs then some .dir
    else none := by
  simp only [mergedDisk, List.contains_eq_mem, decide_eq_true_eq]

theorem mergedDisk_tree : mergedDisk.Tree where
  root := by
    rw [mergedDisk_eq, if_neg (by decide +kernel), if_neg (by decide +kernel),
      if_pos (by decide +kernel)]
  parents place part there := by
    have known : place ++ [part] ∈ [utf8 "bin"] :: (mergedFiles ++ mergedDirs) := by
      by_contra other
      rw [List.mem_cons, List.mem_append, not_or, not_or] at other
      apply there
      rw [mergedDisk_eq, if_neg other.1, if_neg other.2.1, if_neg other.2.2]
    have dirs : ∀ held ∈ [utf8 "bin"] :: (mergedFiles ++ mergedDirs), held.dropLast ∈ mergedDirs ∧
        held.dropLast ≠ [utf8 "bin"] ∧ held.dropLast ∉ mergedFiles := by decide +kernel
    obtain ⟨dir, bin, file⟩ := dirs _ known
    rw [List.dropLast_concat] at dir bin file
    rw [mergedDisk_eq, if_neg bin, if_neg file, if_pos dir]

/-- The run opened the program. -/
def mergedTiers : Tiers where
  files := [utf8 "bin", utf8 "usr/bin/app", toolFile]
  platform := none
  policy := none
  trace := some (Trace.fromPaths [utf8 "/usr/bin/app"])
  keep := none

def mergedPopulation : Population where
  tiers := mergedTiers
  sysroot :=
    { disk := mergedDisk
      root := []
      tree := mergedDisk_tree
      rooted := mergedDisk_tree.root }
  libraries _ := none

/-- The link `bin` is kept for the program, and with it every file named `bin`. -/
theorem merged_keeps_tool : ¬∀ population : Population, ∃ pruned, population.pruned = some pruned ∧
    IsLeast {keeps | population.Closes keeps} {rel | rel ∈ pruned.kept} := by
  intro least
  obtain ⟨pruned, ran, isLeast⟩ := least mergedPopulation
  have result : mergedPopulation.pruned.map Pruned.kept =
      some [utf8 "bin", utf8 "usr/bin/app", toolFile] := by decide +kernel
  rw [ran, Option.map_some, Option.some.injEq] at result
  have listed (rel : Bytes) (admitted : mergedTiers.Admitted rel) :
      rel ∈ [utf8 "bin", utf8 "usr/bin/app", toolFile] := admitted.1
  have closes : mergedPopulation.Closes {rel | rel ∈ [utf8 "bin", utf8 "usr/bin/app"]} := by
    have quiet : ∀ rel ∈ [utf8 "bin", utf8 "usr/bin/app"], mergedPopulation.neededBy rel = [] := by
      decide +kernel
    have leads : ∀ rel ∈ [utf8 "bin", utf8 "usr/bin/app", toolFile],
        mergedPopulation.linkTarget rel =
          if rel = utf8 "bin" then some (utf8 "usr/bin") else none := by decide +kernel
    have within {rel : Bytes} (member : rel ∈ [utf8 "bin", utf8 "usr/bin/app"]) :
        rel ∈ [utf8 "bin", utf8 "usr/bin/app", toolFile] := List.mem_append_left [toolFile] member
    refine ⟨fun rel member => ⟨within member, rfl, rfl⟩, fun rel own => ?_, ?_, ?_, ?_⟩
    · have survivors : ∀ rel ∈ [utf8 "bin", utf8 "usr/bin/app", toolFile],
          mergedTiers.survives ∅ rel = true → rel ∈ [utf8 "bin", utf8 "usr/bin/app"] := by
        decide +kernel
      exact survivors rel (listed rel own.1) own.2
    · intro object member soname needs
      rw [quiet object member] at needs
      cases needs
    · intro link member rel target admitted
      rw [leads link (within member)] at target
      split at target
      · cases target
        exact absurd (listed _ admitted) (by decide +kernel)
      · cases target
    · intro link admitted path target rel member holds
      rw [leads link (listed link admitted)] at target
      split at target
      · next bin => exact bin ▸ List.mem_cons_self
      · cases target
  have tool : toolFile ∈ {rel | rel ∈ pruned.kept} := by
    rw [result]
    decide +kernel
  have absent : toolFile ∉ [utf8 "bin", utf8 "usr/bin/app"] := by decide +kernel
  exact absent (isLeast.2 closes tool)

end Onelf.Cli.Bundle
