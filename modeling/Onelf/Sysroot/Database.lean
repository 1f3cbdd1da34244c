import Mathlib.Data.List.Induction
import Onelf.Lib.Bytes
import Onelf.Lib.SortedMap

/-! The installed packages of a sysroot (`db.rs`). -/

namespace Onelf.Sysroot

open Onelf.Lib

/-- A package's or a dependency's name, ordered by its bytes. -/
def Name : Type := Bytes

instance : LinearOrder Name := inferInstanceAs (LinearOrder Bytes)

/-- One installed package. -/
structure Package where
  name : Name
  version : Bytes
  depends : List Name
  optdepends : List Name
  provides : List Name
  files : List Bytes
  deriving DecidableEq

/-- Every installed package, with indexes by provided name and by file. -/
structure Database where
  packages : SortedMap Name Package
  providers : SortedMap Name (List Name)
  owners : SortedMap Bytes Name
  named : ∀ name package, packages.get? name = some package → package.name = name

namespace Database

def empty : Database := ⟨SortedMap.empty, SortedMap.empty, SortedMap.empty, nofun⟩

/-- Add a package, indexing what it provides and owns. -/
def insert (db : Database) (package : Package) : Database where
  packages := db.packages.insert package.name package
  providers := (package.provides.map fun provided => (provided, package.name)).foldl
    SortedMap.push db.providers
  owners := package.files.foldl (fun owners file => owners.orInsert file package.name) db.owners
  named := by
    intro name found held
    rw [SortedMap.get?_insert] at held
    split at held
    · next same => rw [← Option.some.inj held, same]
    · exact db.named name found held

def package (db : Database) (name : Name) : Option Package := db.packages.get? name

/-- The package satisfying a dependency name: the package itself, or the first provider of a virtual
name. -/
def satisfier (db : Database) (name : Name) : Option Package :=
  match db.package name with
  | some package => some package
  | none => (db.providers.get? name).bind fun list => list.findSome? db.package

/-- The database of the packages read one after another. -/
def ofPackages (packages : List Package) : Database := packages.foldl insert empty

/-- The names that claim to provide a virtual name, in the order they were read. -/
def providersOf (db : Database) (name : Name) : List Name := (db.providers.get? name).getD []

theorem satisfier_eq (db : Database) (name : Name) : db.satisfier name =
    (db.package name).or ((db.providersOf name).findSome? db.package) := by
  rw [satisfier, providersOf]
  cases db.package name with
  | some package => rfl
  | none =>
      cases db.providers.get? name with
      | none => rfl
      | some list => rfl

theorem name_of_package {db : Database} {name : Name} {package : Package}
    (held : db.package name = some package) : package.name = name := db.named name package held

@[simp] theorem package_insert (db : Database) (package : Package) (name : Name) :
    (db.insert package).package name =
      if package.name = name then some package else db.package name :=
  SortedMap.get?_insert _ _ _ _

theorem providersOf_insert (db : Database) (package : Package) (name : Name) :
    (db.insert package).providersOf name = db.providersOf name ++
      (package.provides.filter fun provided => provided = name).map fun _ => package.name := by
  rw [providersOf, insert, SortedMap.getD_foldl_push, List.filter_map, List.map_map]
  rfl

theorem ofPackages_append (packages : List Package) (package : Package) :
    ofPackages (packages ++ [package]) = (ofPackages packages).insert package := by
  rw [ofPackages, List.foldl_append]
  rfl

/-! ### A database less some of its packages -/

/-- `other` is `db` less the packages a predicate takes out. -/
structure Without (out : Name → Bool) (db other : Database) : Prop where
  packages : ∀ name, other.package name = if out name then none else db.package name
  providers : ∀ name, other.providersOf name = (db.providersOf name).filter fun n => !out n

variable {out : Name → Bool} {db other : Database}

theorem Without.insert_kept (without : Without out db other) {package : Package}
    (kept : out package.name = false) : Without out (db.insert package) (other.insert package) where
  packages := by
    intro name
    rw [package_insert, package_insert, without.packages]
    by_cases same : package.name = name
    · rw [if_pos same, if_pos same, ← same, kept]
      rfl
    · rw [if_neg same, if_neg same]
  providers := by
    intro name
    rw [providersOf_insert, providersOf_insert, without.providers, List.filter_append,
      List.filter_map]
    congr 2
    exact (List.filter_eq_self.mpr fun _ _ => by rw [Function.comp_apply, kept]; rfl).symm

theorem Without.insert_out (without : Without out db other) {package : Package}
    (taken : out package.name = true) : Without out (db.insert package) other where
  packages := by
    intro name
    rw [package_insert, without.packages]
    by_cases same : package.name = name
    · rw [if_pos same, ← same, taken]
      rfl
    · rw [if_neg same]
  providers := by
    intro name
    have none : ((package.provides.filter fun provided => provided = name).map fun _ =>
        package.name).filter (fun n => !out n) = [] := by
      apply List.filter_eq_nil_iff.mpr
      intro provider member
      rcases List.mem_map.mp member with ⟨_, _, same⟩
      rw [← same, taken]
      exact Bool.false_ne_true
    rw [providersOf_insert, List.filter_append, none, List.append_nil, without.providers]

theorem without_ofPackages (out : Name → Bool) (packages : List Package) :
    Without out (ofPackages packages)
      (ofPackages (packages.filter fun package => !out package.name)) := by
  induction packages using List.reverseRecOn with
  | nil => exact ⟨fun name => by split <;> rfl, fun _ => rfl⟩
  | append_singleton packages package ih =>
      rw [List.filter_append]
      cases taken : out package.name with
      | true =>
          rw [List.filter_cons_of_neg (by rw [taken]; decide), List.filter_nil, List.append_nil,
            ofPackages_append]
          exact ih.insert_out taken
      | false =>
          rw [List.filter_cons_of_pos (by rw [taken]; rfl), List.filter_nil, ofPackages_append,
            ofPackages_append]
          exact ih.insert_kept taken

theorem Without.package_of_kept (without : Without out db other) {name : Name}
    (kept : out name = false) : other.package name = db.package name := by
  rw [without.packages, kept]
  rfl

/-- The first provider stays the first where it stays. -/
theorem Without.findSome_of_kept (without : Without out db other) {list : List Name}
    {package : Package} (found : list.findSome? db.package = some package)
    (kept : out package.name = false) :
    (list.filter fun n => !out n).findSome? other.package = some package := by
  induction list with
  | nil => cases found
  | cons name list ih =>
      rw [List.findSome?_cons] at found
      cases held : db.package name with
      | some first =>
          rw [held, Option.some.injEq] at found
          have here : out name = false := by
            rw [← name_of_package held, found]
            exact kept
          rw [List.filter_cons_of_pos (by rw [here]; rfl), List.findSome?_cons,
            without.package_of_kept here, held, found]
      | none =>
          rw [held] at found
          cases taken : out name with
          | true =>
              rw [List.filter_cons_of_neg (by rw [taken]; decide)]
              exact ih found
          | false =>
              rw [List.filter_cons_of_pos (by rw [taken]; rfl), List.findSome?_cons,
                without.package_of_kept taken, held]
              exact ih found

/-- What satisfies a name and stays still satisfies it. -/
theorem Without.satisfier_of_kept (without : Without out db other) {name : Name}
    {package : Package} (satisfied : db.satisfier name = some package)
    (kept : out package.name = false) : other.satisfier name = some package := by
  rw [satisfier_eq] at satisfied ⊢
  rcases Option.or_eq_some_iff.mp satisfied with own | ⟨absent, provided⟩
  · have here : out name = false := by
      rw [← name_of_package own]
      exact kept
    rw [without.package_of_kept here, own]
    rfl
  · have gone : other.package name = none := by
      rw [without.packages, absent]
      exact ite_self _
    rw [gone, without.providers, without.findSome_of_kept provided kept]
    rfl

theorem Without.satisfier_of_none (without : Without out db other) {name : Name}
    (unsatisfied : db.satisfier name = none) : other.satisfier name = none := by
  rw [satisfier_eq, Option.or_eq_none_iff, List.findSome?_eq_none_iff] at unsatisfied ⊢
  constructor
  · rw [without.packages, unsatisfied.1]
    exact ite_self _
  · intro provider member
    rw [without.providers] at member
    rw [without.packages, unsatisfied.2 provider (List.mem_filter.mp member).1]
    exact ite_self _

end Database

end Onelf.Sysroot
