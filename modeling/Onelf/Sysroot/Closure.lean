import Mathlib.Data.Prod.Lex
import Onelf.Lib.Worklist
import Onelf.Sysroot.Database

/-! The set of packages an application reaches (`closure.rs`). -/

namespace Onelf.Sysroot

open Onelf.Lib

/-- The packages reached, sorted, and `(dependency, needed by)` for names no package provides. -/
structure Closure where
  packages : List Name
  unsatisfied : List (Name ×ₗ Name)
  deriving DecidableEq

/-- The dependencies a package is asked for: its own and the optional ones that are named. -/
def wanted (optional : List Name) (package : Package) : List Name :=
  package.depends ++ package.optdepends.filter fun dep => optional.contains dep

namespace Database

variable (db : Database) (root : Name) (optional excluded : List Name)

/-- What one dependency adds to the queue or to the names nothing provides. -/
def follow (seen : List Name) (name : Name) (state : List Name × List (Name ×ₗ Name)) (dep : Name) :
    List Name × List (Name ×ₗ Name) :=
  match db.satisfier dep with
  | some package =>
      (if seen.contains package.name then state.1 else state.1 ++ [package.name], state.2)
  | none => (state.1, state.2 ++ [toLex (dep, name)])

/-- The loop over the queue; `fuel` bounds the names taken from it. -/
def visit : Nat → List Name → List Name → List (Name ×ₗ Name) → List Name × List (Name ×ₗ Name)
  | 0, seen, _, unsatisfied => (seen, unsatisfied)
  | _ + 1, seen, [], unsatisfied => (seen, unsatisfied)
  | fuel + 1, seen, name :: queue, unsatisfied =>
      if seen.contains name then visit fuel seen queue unsatisfied
      else match db.package name with
        | none => visit fuel (name :: seen) queue unsatisfied
        | some package =>
            if excluded.contains name && name ≠ root then
              visit fuel (name :: seen) queue unsatisfied
            else
              let state := (wanted optional package).foldl (db.follow (name :: seen) name)
                (queue, unsatisfied)
              visit fuel (name :: seen) state.1 state.2

/-- The names the walk begins with: the root and what satisfies the optional names. -/
def starts : List Name :=
  root :: optional.filterMap fun name => (db.satisfier name).map Package.name

/-- The packages a name leads on to. -/
def needs (name : Name) : List Name :=
  match db.package name with
  | none => []
  | some package =>
      if excluded.contains name && name ≠ root then []
      else (wanted optional package).filterMap fun dep => (db.satisfier dep).map Package.name

/-- More names than the queue ever holds. -/
def fuel : Nat :=
  (db.starts root optional).length +
    (db.packages.keys.map fun name => (db.needs root optional excluded name).length).sum

/-- As `closure`, with `excluded` packages treated as absent: neither they nor what only they depend
on enter. -/
def closureExcluding : Closure :=
  let reached := db.visit root optional excluded (db.fuel root optional excluded) []
    (db.starts root optional) []
  ⟨(sortDedup reached.1).filter fun name => name = root || !excluded.contains name,
    sortDedup reached.2⟩

def closure : Closure := db.closureExcluding root optional []

/-! ### What the walk reaches -/

/-- The names a name asks for and nothing provides. -/
def missing (name : Name) : List (Name ×ₗ Name) :=
  match db.package name with
  | none => []
  | some package =>
      if excluded.contains name && name ≠ root then []
      else (wanted optional package).filterMap fun dep =>
        if (db.satisfier dep).isNone then some (toLex (dep, name)) else none

variable {db root optional excluded}

theorem foldl_follow (seen : List Name) (name : Name) (deps queue : List Name)
    (unsatisfied : List (Name ×ₗ Name)) :
    deps.foldl (db.follow seen name) (queue, unsatisfied) =
      (queue ++ (deps.filterMap fun dep => (db.satisfier dep).map Package.name).filter
          fun next => next ∉ seen,
        unsatisfied ++ deps.filterMap fun dep =>
          if (db.satisfier dep).isNone then some (toLex (dep, name)) else none) := by
  induction deps generalizing queue unsatisfied with
  | nil => simp
  | cons dep deps ih =>
      rw [List.foldl_cons, follow]
      cases found : db.satisfier dep with
      | none =>
          rw [ih, List.filterMap_cons_none (by rw [found]; rfl),
            List.filterMap_cons_some (b := toLex (dep, name)) (by rw [found]; rfl)]
          simp
      | some package =>
          rw [ih, List.filterMap_cons_some (b := package.name) (by rw [found]; rfl),
            List.filterMap_cons_none (by rw [found]; rfl)]
          by_cases known : package.name ∈ seen
          · simp [known]
          · simp [known]

/-- The walk marks what a worklist marks and notes what the marked names miss. -/
theorem visit_succ_cons (fuel : Nat) (seen : List Name) (name : Name) (queue : List Name)
    (unsatisfied : List (Name ×ₗ Name)) :
    db.visit root optional excluded (fuel + 1) seen (name :: queue) unsatisfied =
      if name ∈ seen then db.visit root optional excluded fuel seen queue unsatisfied
      else db.visit root optional excluded fuel (name :: seen)
        (queue ++ (db.needs root optional excluded name).filter fun next => next ∉ name :: seen)
        (unsatisfied ++ db.missing root optional excluded name) := by
  rw [visit, needs, missing]
  by_cases known : name ∈ seen
  · rw [if_pos known, if_pos (List.contains_iff_mem.mpr known)]
  · rw [if_neg known, if_neg (mt List.contains_iff_mem.mp known)]
    cases db.package name with
    | none => simp
    | some package =>
        by_cases out : (excluded.contains name && name ≠ root) = true
        · simp only [if_pos out]
          simp
        · simp only [if_neg out, foldl_follow]

theorem visit_spec (fuel : Nat) (seen queue : List Name) (unsatisfied : List (Name ×ₗ Name)) :
    (db.visit root optional excluded fuel seen queue unsatisfied).1 =
        walk (db.needs root optional excluded) fuel seen queue ∧
      ∀ pair, pair ∈ (db.visit root optional excluded fuel seen queue unsatisfied).2 ↔
        pair ∈ unsatisfied ∨ ∃ name ∈ walk (db.needs root optional excluded) fuel seen queue,
          name ∉ seen ∧ pair ∈ db.missing root optional excluded name := by
  induction fuel generalizing seen queue unsatisfied with
  | zero =>
      refine ⟨rfl, fun pair => ?_⟩
      rw [visit, walk]
      simp +contextual
  | succ fuel ih =>
      cases queue with
      | nil =>
          refine ⟨rfl, fun pair => ?_⟩
          rw [visit, walk]
          simp +contextual
      | cons name queue =>
          rw [visit_succ_cons, walk]
          by_cases known : name ∈ seen
          · rw [if_pos known, if_pos known]
            exact ih seen queue unsatisfied
          · rw [if_neg known, if_neg known]
            have tail := ih (name :: seen) (queue ++
              (db.needs root optional excluded name).filter fun next => next ∉ name :: seen)
              (unsatisfied ++ db.missing root optional excluded name)
            refine ⟨tail.1, fun pair => ?_⟩
            rw [tail.2, List.mem_append, or_assoc]
            apply or_congr Iff.rfl
            constructor
            · rintro (here | ⟨other, member, fresh, lacks⟩)
              · exact ⟨name, mem_walk_of_seen fuel _ List.mem_cons_self, known, here⟩
              · exact ⟨other, member, fun old => fresh (List.mem_cons_of_mem name old), lacks⟩
            · rintro ⟨other, member, fresh, lacks⟩
              by_cases same : other = name
              · exact Or.inl (same ▸ lacks)
              · right
                refine ⟨other, member, ?_, lacks⟩
                rw [List.mem_cons, not_or]
                exact ⟨same, fresh⟩

/-- The names reached from the root through packages that are not excluded. -/
inductive Kept (db : Database) (root : Name) (optional excluded : List Name) : Name → Prop
  | root : Kept db root optional excluded root
  | named {name : Name} {package : Package} : name ∈ optional → db.satisfier name = some package →
      package.name ∉ excluded → Kept db root optional excluded package.name
  | needed {name dep : Name} {package answer : Package} : Kept db root optional excluded name →
      db.package name = some package → dep ∈ wanted optional package →
      db.satisfier dep = some answer → answer.name ∉ excluded →
      Kept db root optional excluded answer.name

theorem Kept.not_excluded (rooted : root ∉ excluded) {name : Name}
    (kept : Kept db root optional excluded name) : name ∉ excluded := by
  cases kept with
  | root => exact rooted
  | named _ _ stays => exact stays
  | needed _ _ _ _ stays => exact stays

theorem mem_starts {name : Name} : name ∈ db.starts root optional ↔
    name = root ∨ ∃ asked ∈ optional, ∃ package, db.satisfier asked = some package ∧
      package.name = name := by
  rw [starts, List.mem_cons, List.mem_filterMap]
  simp only [Option.map_eq_some_iff]

theorem mem_needs (rooted : root ∉ excluded) {name next : Name} :
    next ∈ db.needs root optional excluded name ↔ name ∉ excluded ∧
      ∃ package, db.package name = some package ∧ ∃ dep ∈ wanted optional package,
        ∃ answer, db.satisfier dep = some answer ∧ answer.name = next := by
  rw [needs]
  cases db.package name with
  | none => simp
  | some package =>
      by_cases out : name ∈ excluded
      · have other : name ≠ root := fun same => rooted (same ▸ out)
        simp [out, other]
      · simp [out, List.mem_filterMap, Option.map_eq_some_iff]

theorem mem_missing (rooted : root ∉ excluded) {name : Name} {pair : Name ×ₗ Name} :
    pair ∈ db.missing root optional excluded name ↔ name ∉ excluded ∧
      ∃ package, db.package name = some package ∧ ∃ dep ∈ wanted optional package,
        db.satisfier dep = none ∧ pair = toLex (dep, name) := by
  rw [missing]
  cases db.package name with
  | none => simp
  | some package =>
      by_cases out : name ∈ excluded
      · have other : name ≠ root := fun same => rooted (same ▸ out)
        simp [out, other]
      · simp [out, List.mem_filterMap, @eq_comm _ pair]

/-- The names the walk marks. -/
def reached (db : Database) (root : Name) (optional excluded : List Name) : List Name :=
  walk (db.needs root optional excluded) (db.fuel root optional excluded) []
    (db.starts root optional)

theorem kept_of_reached (rooted : root ∉ excluded) {name : Name}
    (marked : name ∈ db.reached root optional excluded) (stays : name ∉ excluded) :
    Kept db root optional excluded name := by
  have closed : ∀ value, (value ∉ excluded → Kept db root optional excluded value) →
      ∀ next ∈ db.needs root optional excluded value,
        next ∉ excluded → Kept db root optional excluded next := by
    intro value here next need away
    obtain ⟨inside, package, held, dep, asked, answer, satisfied, same⟩ :=
      (mem_needs rooted).mp need
    rw [← same] at away ⊢
    exact Kept.needed (here inside) held asked satisfied away
  have start : ∀ value, value ∈ [] ∨ value ∈ db.starts root optional →
      value ∉ excluded → Kept db root optional excluded value := by
    intro value first away
    rcases mem_starts.mp (first.resolve_left List.not_mem_nil) with same | asked
    · rw [same]
      exact Kept.root
    · obtain ⟨dep, member, package, satisfied, same⟩ := asked
      rw [← same] at away ⊢
      exact Kept.named member satisfied away
  exact walk_sound closed _ [] _ start name marked stays

theorem reached_closed :
    (∀ name ∈ db.starts root optional, name ∈ db.reached root optional excluded) ∧
      ∀ name ∈ db.reached root optional excluded, ∀ next ∈ db.needs root optional excluded name,
        next ∈ db.reached root optional excluded := by
  have covered (name : Name) :
      name ∈ db.packages.keys ∨ db.needs root optional excluded name = [] := by
    cases held : db.packages.get? name with
    | some package =>
        left
        rw [SortedMap.mem_keys_iff, held]
        rfl
    | none =>
        right
        have absent : db.package name = none := held
        rw [needs, absent]
  have enough : pending (db.needs root optional excluded) db.packages.keys []
      (db.starts root optional) ≤ db.fuel root optional excluded := by
    rw [pending, fuel, List.filter_eq_self.mpr (by simp)]
  have closed := walk_closed covered (db.fuel root optional excluded) []
    (db.starts root optional) (by simp) enough
  exact ⟨fun name first => closed.1 name (Or.inr first), closed.2⟩

theorem reached_of_kept (rooted : root ∉ excluded) {name : Name}
    (kept : Kept db root optional excluded name) : name ∈ db.reached root optional excluded := by
  induction kept with
  | root => exact reached_closed.1 root (mem_starts.mpr (Or.inl rfl))
  | named member satisfied _ =>
      exact reached_closed.1 _ (mem_starts.mpr (Or.inr ⟨_, member, _, satisfied, rfl⟩))
  | needed before held asked satisfied _ ih =>
      exact reached_closed.2 _ ih _ ((mem_needs rooted).mpr
        ⟨before.not_excluded rooted, _, held, _, asked, _, satisfied, rfl⟩)

theorem mem_packages (rooted : root ∉ excluded) (name : Name) :
    name ∈ (db.closureExcluding root optional excluded).packages ↔
      Kept db root optional excluded name := by
  rw [closureExcluding, (visit_spec _ _ _ _).1, List.mem_filter, mem_sortDedup]
  constructor
  · rintro ⟨marked, stays⟩
    apply kept_of_reached rooted marked
    intro out
    have other : name ≠ root := fun same => rooted (same ▸ out)
    simp [out, other] at stays
  · intro kept
    refine ⟨reached_of_kept rooted kept, ?_⟩
    simp [kept.not_excluded rooted]

theorem mem_unsatisfied (rooted : root ∉ excluded) (pair : Name ×ₗ Name) :
    pair ∈ (db.closureExcluding root optional excluded).unsatisfied ↔
      ∃ name, Kept db root optional excluded name ∧ ∃ package, db.package name = some package ∧
        ∃ dep ∈ wanted optional package, db.satisfier dep = none ∧ pair = toLex (dep, name) := by
  rw [closureExcluding, mem_sortDedup, (visit_spec _ _ _ _).2]
  constructor
  · rintro (none | ⟨name, marked, _, lacks⟩)
    · cases none
    · obtain ⟨stays, rest⟩ := (mem_missing rooted).mp lacks
      exact ⟨name, kept_of_reached rooted marked stays, rest⟩
  · rintro ⟨name, kept, rest⟩
    right
    exact ⟨name, reached_of_kept rooted kept, List.not_mem_nil,
      (mem_missing rooted).mpr ⟨kept.not_excluded rooted, rest⟩⟩

theorem packages_sorted :
    (db.closureExcluding root optional excluded).packages.Pairwise (· < ·) :=
  (sortDedup_sorted _).filter _

theorem unsatisfied_sorted :
    (db.closureExcluding root optional excluded).unsatisfied.Pairwise (· < ·) :=
  sortDedup_sorted _

/-- A closure is its members: both lists are sorted and without repeats. -/
theorem closureExcluding_eq_closure_iff {other : Database} (rooted : root ∉ excluded) :
    db.closureExcluding root optional excluded = other.closure root optional ↔
      (∀ name, Kept db root optional excluded name ↔ Kept other root optional [] name) ∧
      ∀ pair, pair ∈ (db.closureExcluding root optional excluded).unsatisfied ↔
        pair ∈ (other.closure root optional).unsatisfied := by
  have free : root ∉ ([] : List Name) := List.not_mem_nil
  constructor
  · intro same
    refine ⟨fun name => ?_, fun pair => by rw [same]⟩
    rw [← mem_packages rooted, same, closure, mem_packages free]
  · rintro ⟨packages, unsatisfied⟩
    rw [Closure.mk.injEq]
    constructor
    · apply eq_of_sorted_of_mem_iff packages_sorted packages_sorted
      intro name
      rw [mem_packages rooted, mem_packages free, packages]
    · exact eq_of_sorted_of_mem_iff unsatisfied_sorted unsatisfied_sorted unsatisfied

/-! ### Exclusion and removal -/

/-- A set of names with the root, what satisfies the optional names and what satisfies whatever its
packages want. -/
structure Closes (db : Database) (root : Name) (optional : List Name) (names : Set Name) :
    Prop where
  root : root ∈ names
  named : ∀ name ∈ optional, ∀ package, db.satisfier name = some package → package.name ∈ names
  needed : ∀ name ∈ names, ∀ package, db.package name = some package →
    ∀ dep ∈ wanted optional package, ∀ answer, db.satisfier dep = some answer → answer.name ∈ names

theorem closes_kept :
    IsLeast {names | db.Closes root optional names} {name | Kept db root optional [] name} := by
  constructor
  · exact {
      root := Kept.root
      named := fun name asked package satisfied => Kept.named asked satisfied List.not_mem_nil
      needed := fun name kept package held dep asked answer satisfied =>
        Kept.needed kept held asked satisfied List.not_mem_nil }
  · intro names closes name kept
    induction kept with
    | root => exact closes.root
    | named asked satisfied _ => exact closes.named _ asked _ satisfied
    | needed _ held asked satisfied _ ih => exact closes.needed _ ih _ held _ asked _ satisfied

/-- Where an excluded package is the first answer, what is left answers with a package the closure
holds anyway; an optional name may also be left without an answer. -/
structure Covered (db other : Database) (root : Name) (optional excluded : List Name) : Prop where
  named : ∀ name ∈ optional, ∀ gone, db.satisfier name = some gone → gone.name ∈ excluded →
    ∀ answer, other.satisfier name = some answer → Kept db root optional excluded answer.name
  needed : ∀ name, Kept db root optional excluded name → ∀ package,
    db.package name = some package → ∀ dep ∈ wanted optional package, ∀ gone,
    db.satisfier dep = some gone → gone.name ∈ excluded →
    ∃ answer, other.satisfier dep = some answer ∧ Kept db root optional excluded answer.name

variable {other : Database}

theorem contains_false {name : Name} (stays : name ∉ excluded) :
    excluded.contains name = false := by
  rw [← Bool.not_eq_true, List.contains_iff_mem]
  exact stays

theorem kept_less (without : Without excluded.contains db other) (rooted : root ∉ excluded)
    {name : Name} (kept : Kept db root optional excluded name) :
    Kept other root optional [] name := by
  induction kept with
  | root => exact Kept.root
  | named asked satisfied stays =>
      exact Kept.named asked (without.satisfier_of_kept satisfied (contains_false stays))
        List.not_mem_nil
  | needed before held asked satisfied stays ih =>
      have here := without.package_of_kept (contains_false (before.not_excluded rooted))
      exact Kept.needed ih (here.trans held) asked
        (without.satisfier_of_kept satisfied (contains_false stays)) List.not_mem_nil

/-- An answer of what is left is the answer of the whole, or replaces an excluded one. -/
theorem satisfier_less (without : Without excluded.contains db other) {name : Name}
    {answer : Package} (satisfied : other.satisfier name = some answer) :
    (db.satisfier name = some answer ∧ answer.name ∉ excluded) ∨
      ∃ gone, db.satisfier name = some gone ∧ gone.name ∈ excluded := by
  cases first : db.satisfier name with
  | none =>
      rw [without.satisfier_of_none first] at satisfied
      cases satisfied
  | some gone =>
      by_cases out : gone.name ∈ excluded
      · exact Or.inr ⟨gone, rfl, out⟩
      · have same := without.satisfier_of_kept first (contains_false out)
        rw [satisfied, Option.some.injEq] at same
        rw [same]
        exact Or.inl ⟨rfl, out⟩

theorem kept_of_less (without : Without excluded.contains db other) (rooted : root ∉ excluded)
    (covered : Covered db other root optional excluded) {name : Name}
    (kept : Kept other root optional [] name) : Kept db root optional excluded name := by
  induction kept with
  | root => exact Kept.root
  | named asked satisfied _ =>
      rcases satisfier_less without satisfied with ⟨first, stays⟩ | ⟨gone, first, out⟩
      · exact Kept.named asked first stays
      · exact covered.named _ asked gone first out _ satisfied
  | needed _ held asked satisfied _ ih =>
      rw [without.package_of_kept (contains_false (ih.not_excluded rooted))] at held
      rcases satisfier_less without satisfied with ⟨first, stays⟩ | ⟨gone, first, out⟩
      · exact Kept.needed ih held asked first stays
      · obtain ⟨answer, found, present⟩ := covered.needed _ ih _ held _ asked gone first out
        rw [found, Option.some.injEq] at satisfied
        exact satisfied ▸ present

theorem covered_of_eq (without : Without excluded.contains db other) (rooted : root ∉ excluded)
    (same : db.closureExcluding root optional excluded = other.closure root optional) :
    Covered db other root optional excluded := by
  obtain ⟨packages, unsatisfied⟩ := (closureExcluding_eq_closure_iff rooted).mp same
  constructor
  · intro name asked gone _ _ answer satisfied
    exact (packages _).mpr (Kept.named asked satisfied List.not_mem_nil)
  · intro name kept package held dep asked gone first _
    have there := (packages name).mp kept
    have here : other.package name = some package := by
      rw [without.package_of_kept (contains_false (kept.not_excluded rooted))]
      exact held
    cases satisfied : other.satisfier dep with
    | some answer =>
        exact ⟨answer, rfl, (packages _).mpr
          (Kept.needed there here asked satisfied List.not_mem_nil)⟩
    | none =>
        -- The pair the smaller database reports is reported by neither visit of the larger one.
        have reported := (unsatisfied (toLex (dep, name))).mpr
          ((mem_unsatisfied List.not_mem_nil _).mpr
            ⟨name, there, package, here, dep, asked, satisfied, rfl⟩)
        obtain ⟨_, _, _, _, dep', _, lacks, pair⟩ := (mem_unsatisfied rooted _).mp reported
        have dep_eq : dep = dep' := congrArg (fun p => (ofLex p).1) pair
        rw [← dep_eq, first] at lacks
        cases lacks

theorem eq_of_covered (without : Without excluded.contains db other) (rooted : root ∉ excluded)
    (covered : Covered db other root optional excluded) :
    db.closureExcluding root optional excluded = other.closure root optional := by
  have members (name : Name) :
      Kept db root optional excluded name ↔ Kept other root optional [] name :=
    ⟨kept_less without rooted, kept_of_less without rooted covered⟩
  apply (closureExcluding_eq_closure_iff rooted).mpr
  refine ⟨members, fun pair => ?_⟩
  rw [closure, mem_unsatisfied rooted, mem_unsatisfied List.not_mem_nil]
  apply exists_congr
  intro name
  rw [← members]
  apply and_congr_right
  intro kept
  rw [without.package_of_kept (contains_false (kept.not_excluded rooted))]
  apply exists_congr
  intro package
  apply and_congr_right
  intro held
  apply exists_congr
  intro dep
  apply and_congr_right
  intro asked
  apply and_congr_left
  intro _
  constructor
  · exact without.satisfier_of_none
  · intro absent
    cases first : db.satisfier dep with
    | none => rfl
    | some answer =>
        by_cases out : answer.name ∈ excluded
        · obtain ⟨found, satisfied, _⟩ := covered.needed _ kept _ held _ asked _ first out
          rw [absent] at satisfied
          cases satisfied
        · rw [without.satisfier_of_kept first (contains_false out)] at absent
          cases absent

/-- Excluded packages are treated as absent exactly where they hide no package. -/
theorem closureExcluding_eq_removed_iff (packages : List Package) (root : Name)
    (optional excluded : List Name) (rooted : root ∉ excluded) :
    ((ofPackages packages).closureExcluding root optional excluded =
        (ofPackages (packages.filter fun package => !excluded.contains package.name)).closure root
          optional ∧
      IsLeast
        {names | (ofPackages (packages.filter fun package =>
          !excluded.contains package.name)).Closes root optional names}
        {name | name ∈ ((ofPackages packages).closureExcluding root optional excluded).packages}) ↔
      Covered (ofPackages packages)
        (ofPackages (packages.filter fun package => !excluded.contains package.name)) root optional
        excluded := by
  have without := without_ofPackages excluded.contains packages
  constructor
  · intro same
    exact covered_of_eq without rooted same.1
  · intro covered
    have same := eq_of_covered without rooted covered
    refine ⟨same, ?_⟩
    have members : {name | name ∈ ((ofPackages packages).closureExcluding root optional
        excluded).packages} = {name | Kept (ofPackages (packages.filter fun package =>
          !excluded.contains package.name)) root optional [] name} := by
      ext name
      rw [same, closure]
      exact mem_packages List.not_mem_nil name
    rw [members]
    exact closes_kept

def app : Name := utf8 "app"
def first : Name := utf8 "first"
def second : Name := utf8 "second"

/-- `app` wants a virtual name that `first` and then `second` provide. -/
def virtualPackages : List Package :=
  [⟨app, [], [utf8 "virtual"], [], [], []⟩, ⟨first, [], [], [], [utf8 "virtual"], []⟩,
    ⟨second, [], [], [], [utf8 "virtual"], []⟩]

theorem virtualPackages_not_covered :
    ¬ Covered (ofPackages virtualPackages)
      (ofPackages (virtualPackages.filter fun package =>
        !([first] : List Name).contains package.name)) app [] [first] := by
  intro covered
  have same := ((closureExcluding_eq_removed_iff virtualPackages app [] [first] (by decide)).mpr
    covered).1
  revert same
  decide +kernel

/-- Without `first` the walk stops at `app`, where removal goes on to `second`. -/
theorem closureExcluding_ne_removed :
    app ∉ [first] ∧
      (ofPackages virtualPackages).closureExcluding app [] [first] ≠
        (ofPackages (virtualPackages.filter fun package =>
          !([first] : List Name).contains package.name)).closure app [] := by
  decide +kernel

end Database

end Onelf.Sysroot
