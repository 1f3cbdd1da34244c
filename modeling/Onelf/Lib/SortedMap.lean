import Mathlib.Data.List.Sort
import Mathlib.Order.Lattice

/-! Finite maps iterated in key order, and sorted lists without repetition. -/

namespace Onelf.Lib

/-! ### Sorting and removing repetitions -/

section Sorted

variable {α : Type} [LinearOrder α]

/-- `Vec::dedup`: keeps one of each run of equal neighbours. -/
def dedupRuns : List α → List α
  | [] => []
  | [first] => [first]
  | first :: second :: rest =>
      if first = second then dedupRuns (second :: rest)
      else first :: dedupRuns (second :: rest)

@[simp] theorem mem_dedupRuns (value : α) (values : List α) :
    value ∈ dedupRuns values ↔ value ∈ values := by
  induction values with
  | nil => rfl
  | cons first rest ih =>
      cases rest with
      | nil => rfl
      | cons second rest =>
          by_cases same : first = second
          · simp [dedupRuns, same, ih]
          · simp [dedupRuns, same, ih]

theorem dedupRuns_sorted {values : List α} (sorted : values.Pairwise (· ≤ ·)) :
    (dedupRuns values).Pairwise (· < ·) := by
  induction values with
  | nil => exact List.Pairwise.nil
  | cons first rest ih =>
      have tail := ih (List.pairwise_cons.mp sorted).2
      cases rest with
      | nil => simp [dedupRuns]
      | cons second rest =>
          by_cases same : first = second
          · simpa [dedupRuns, same] using tail
          · have below := (List.pairwise_cons.mp sorted).1
            have next := (List.pairwise_cons.mp (List.pairwise_cons.mp sorted).2).1
            have strict : first < second := lt_of_le_of_ne (below second (by simp)) same
            rw [dedupRuns, if_neg same]
            refine List.pairwise_cons.mpr ⟨fun value member => ?_, tail⟩
            rw [mem_dedupRuns, List.mem_cons] at member
            rcases member with rfl | later
            · exact strict
            · exact lt_of_lt_of_le strict (next value later)

/-- `sort` followed by `dedup`. -/
def sortDedup (values : List α) : List α := dedupRuns (values.insertionSort (· ≤ ·))

@[simp] theorem mem_sortDedup (value : α) (values : List α) :
    value ∈ sortDedup values ↔ value ∈ values := by
  simp [sortDedup]

theorem sortDedup_sorted (values : List α) : (sortDedup values).Pairwise (· < ·) :=
  dedupRuns_sorted (List.pairwise_insertionSort (· ≤ ·) values)

theorem nodup_of_sorted {values : List α} (sorted : values.Pairwise (· < ·)) : values.Nodup :=
  sorted.imp fun less => ne_of_lt less

/-- A strictly sorted list is determined by its members. -/
theorem eq_of_sorted_of_mem_iff {left right : List α} (first : left.Pairwise (· < ·))
    (second : right.Pairwise (· < ·)) (members : ∀ value, value ∈ left ↔ value ∈ right) :
    left = right := by
  have perm : left.Perm right :=
    (List.perm_ext_iff_of_nodup (nodup_of_sorted first) (nodup_of_sorted second)).mpr members
  have ordered {values : List α} (sorted : values.Pairwise (· < ·)) : values.Pairwise (· ≤ ·) :=
    sorted.imp le_of_lt
  refine List.Perm.eq_of_pairwise ?_ (ordered first) (ordered second) perm
  intro a b _ _ ab ba
  exact le_antisymm ab ba

/-- Collected into a `BTreeSet`, two lists are equal where they have the same members. -/
theorem sortDedup_eq_iff {left right : List α} :
    sortDedup left = sortDedup right ↔ ∀ value, value ∈ left ↔ value ∈ right := by
  constructor
  · intro same value
    rw [← mem_sortDedup, same, mem_sortDedup]
  · intro members
    apply eq_of_sorted_of_mem_iff (sortDedup_sorted left) (sortDedup_sorted right)
    intro value
    rw [mem_sortDedup, mem_sortDedup]
    exact members value

end Sorted

/-! ### Sorted maps -/

/-- A `BTreeMap`: its entries in strictly ascending key order. -/
@[ext] structure SortedMap (κ ν : Type) [LinearOrder κ] where
  entries : List (κ × ν)
  sorted : entries.Pairwise fun first second => first.1 < second.1

namespace SortedMap

variable {κ ν : Type} [LinearOrder κ]

instance [DecidableEq ν] : DecidableEq (SortedMap κ ν) := fun left right =>
  decidable_of_iff (left.entries = right.entries) SortedMap.ext_iff.symm

def empty : SortedMap κ ν := ⟨[], List.Pairwise.nil⟩

def keys (map : SortedMap κ ν) : List κ := map.entries.map Prod.fst

def get? (map : SortedMap κ ν) (key : κ) : Option ν :=
  (map.entries.find? fun entry => entry.1 = key).map Prod.snd

def insertEntry (key : κ) (value : ν) : List (κ × ν) → List (κ × ν)
  | [] => [(key, value)]
  | entry :: rest =>
      if key < entry.1 then (key, value) :: entry :: rest
      else if key = entry.1 then (key, value) :: rest
      else entry :: insertEntry key value rest

theorem mem_insertEntry {key : κ} {value : ν} {entries : List (κ × ν)} {entry : κ × ν}
    (member : entry ∈ insertEntry key value entries) :
    entry = (key, value) ∨ entry ∈ entries := by
  induction entries with
  | nil => simpa [insertEntry] using member
  | cons head rest ih =>
      rw [insertEntry] at member
      split at member
      · simpa using member
      · split at member
        · rcases List.mem_cons.mp member with rfl | later
          · exact Or.inl rfl
          · exact Or.inr (List.mem_cons_of_mem _ later)
        · rcases List.mem_cons.mp member with rfl | later
          · exact Or.inr List.mem_cons_self
          · exact (ih later).imp_right (List.mem_cons_of_mem _)

theorem insertEntry_sorted (key : κ) (value : ν) {entries : List (κ × ν)}
    (sorted : entries.Pairwise fun first second => first.1 < second.1) :
    (insertEntry key value entries).Pairwise fun first second => first.1 < second.1 := by
  induction entries with
  | nil => simp [insertEntry]
  | cons head rest ih =>
      obtain ⟨below, tail⟩ := List.pairwise_cons.mp sorted
      rw [insertEntry]
      split
      · next less =>
          refine List.pairwise_cons.mpr ⟨fun entry member => ?_, sorted⟩
          rcases List.mem_cons.mp member with rfl | later
          · exact less
          · exact lt_trans less (below entry later)
      · next notLess =>
          split
          · next same =>
              refine List.pairwise_cons.mpr ⟨fun entry member => ?_, tail⟩
              simpa [same] using below entry member
          · next different =>
              have greater : head.1 < key :=
                lt_of_le_of_ne (le_of_not_gt notLess) (Ne.symm different)
              refine List.pairwise_cons.mpr ⟨fun entry member => ?_, ih tail⟩
              rcases mem_insertEntry member with rfl | later
              · exact greater
              · exact below entry later

def insert (map : SortedMap κ ν) (key : κ) (value : ν) : SortedMap κ ν :=
  ⟨insertEntry key value map.entries, insertEntry_sorted key value map.sorted⟩

/-- `entry(key).or_insert(value)`: an earlier value stays. -/
def orInsert (map : SortedMap κ ν) (key : κ) (value : ν) : SortedMap κ ν :=
  match map.get? key with
  | some _ => map
  | none => map.insert key value

theorem mem_entries_iff (map : SortedMap κ ν) (key : κ) (value : ν) :
    (key, value) ∈ map.entries ↔ map.get? key = some value := by
  obtain ⟨entries, sorted⟩ := map
  induction entries with
  | nil => simp [get?]
  | cons head rest ih =>
      obtain ⟨below, tail⟩ := List.pairwise_cons.mp sorted
      by_cases same : head.1 = key
      · have absent : (key, value) ∉ rest := fun member =>
          absurd (below (key, value) member) (by simp [same])
        simp [get?, same, absent, Prod.ext_iff, eq_comm]
      · have step := ih tail
        simp only [get?] at step
        have first : ¬ (key, value) = head := fun h => same (by rw [← h])
        simp [get?, same, first, step]

@[simp] theorem get?_empty (key : κ) : (empty : SortedMap κ ν).get? key = none := rfl

theorem get?_insert (map : SortedMap κ ν) (key other : κ) (value : ν) :
    (map.insert key value).get? other = if key = other then some value else map.get? other := by
  obtain ⟨entries, sorted⟩ := map
  induction entries with
  | nil =>
      by_cases same : key = other <;> simp [insert, insertEntry, get?, same]
  | cons head rest ih =>
      have step := ih (List.pairwise_cons.mp sorted).2
      simp only [insert, get?] at step
      simp only [insert, insertEntry, get?]
      by_cases same : key = other
      · subst same
        split
        · simp
        · next notLess =>
            split
            · simp
            · next different =>
                have off : ¬ head.1 = key := fun h => different h.symm
                simpa [off] using step
      · split
        · simp [same]
        · split
          · next equal => simp [same, ← equal]
          · by_cases here : head.1 = other
            · simp [here]
            · simpa [here, same] using step

theorem get?_orInsert (map : SortedMap κ ν) (key other : κ) (value : ν) :
    (map.orInsert key value).get? other =
      (map.get? other).or (if key = other then some value else none) := by
  rw [orInsert]
  split
  · next held =>
      by_cases same : key = other
      · subst same; simp [held]
      · simp [same]
  · next absent =>
      rw [get?_insert]
      by_cases same : key = other
      · subst same; simp [absent]
      · simp [same]

theorem mem_keys_iff (map : SortedMap κ ν) (key : κ) :
    key ∈ map.keys ↔ (map.get? key).isSome := by
  rw [Option.isSome_iff_exists, keys, List.mem_map]
  constructor
  · rintro ⟨⟨k, value⟩, member, rfl⟩
    exact ⟨value, (mem_entries_iff map k value).mp member⟩
  · rintro ⟨value, held⟩
    exact ⟨(key, value), (mem_entries_iff map key value).mpr held, rfl⟩

theorem keys_sorted (map : SortedMap κ ν) : map.keys.Pairwise (· < ·) :=
  List.pairwise_map.mpr map.sorted

/-- A sorted map is determined by its lookups. -/
theorem ext_get? {left right : SortedMap κ ν} (same : ∀ key, left.get? key = right.get? key) :
    left = right := by
  have members : ∀ entry : κ × ν, entry ∈ left.entries ↔ entry ∈ right.entries := by
    rintro ⟨key, value⟩
    rw [mem_entries_iff, mem_entries_iff, same]
  have distinct (map : SortedMap κ ν) : map.entries.Nodup :=
    map.sorted.imp fun less same => absurd less (by simp [same])
  have perm := (List.perm_ext_iff_of_nodup (distinct left) (distinct right)).mpr members
  refine SortedMap.ext (List.Perm.eq_of_pairwise ?_ left.sorted right.sorted perm)
  intro a b _ _ ab ba
  exact absurd ba (lt_asymm ab)

def insertAll (map : SortedMap κ ν) (entries : List (κ × ν)) : SortedMap κ ν :=
  entries.foldl (fun map entry => map.insert entry.1 entry.2) map

theorem insertAll_cons (map : SortedMap κ ν) (entry : κ × ν) (entries : List (κ × ν)) :
    map.insertAll (entry :: entries) = (map.insert entry.1 entry.2).insertAll entries := rfl

theorem get?_insertAll_of_absent {entries : List (κ × ν)} {key : κ}
    (absent : ∀ entry ∈ entries, entry.1 ≠ key) (map : SortedMap κ ν) :
    (map.insertAll entries).get? key = map.get? key := by
  induction entries generalizing map with
  | nil => rfl
  | cons entry entries ih =>
      rw [insertAll_cons, ih fun other member => absent other (List.mem_cons_of_mem _ member),
        get?_insert, if_neg (absent entry List.mem_cons_self)]

theorem get?_insertAll_of_mem {entries : List (κ × ν)}
    (sorted : entries.Pairwise fun first second => first.1 < second.1) {entry : κ × ν}
    (member : entry ∈ entries) (map : SortedMap κ ν) :
    (map.insertAll entries).get? entry.1 = some entry.2 := by
  induction entries generalizing map with
  | nil => cases member
  | cons head rest ih =>
      obtain ⟨below, tail⟩ := List.pairwise_cons.mp sorted
      rw [insertAll_cons]
      rcases List.mem_cons.mp member with rfl | later
      · have absent : ∀ other ∈ rest, other.1 ≠ entry.1 := fun other found =>
          ne_of_gt (below other found)
        rw [get?_insertAll_of_absent absent, get?_insert, if_pos rfl]
      · exact ih tail later _

/-- Inserting a map's own entries in order rebuilds it. -/
theorem insertAll_entries (map : SortedMap κ ν) : empty.insertAll map.entries = map := by
  apply ext_get?
  intro key
  cases held : map.get? key with
  | some value =>
      exact get?_insertAll_of_mem map.sorted ((mem_entries_iff map key value).mpr held) empty
  | none =>
      rw [get?_insertAll_of_absent _ empty, get?_empty]
      intro entry member same
      have found := (mem_entries_iff map entry.1 entry.2).mp member
      rw [same, held] at found
      cases found

/-- `entry(key).or_default().push(value)`. -/
def push (map : SortedMap κ (List ν)) (entry : κ × ν) : SortedMap κ (List ν) :=
  map.insert entry.1 ((map.get? entry.1).getD [] ++ [entry.2])

theorem getD_foldl_push (map : SortedMap κ (List ν)) (entries : List (κ × ν)) (key : κ) :
    ((entries.foldl push map).get? key).getD [] =
      (map.get? key).getD [] ++ (entries.filter fun entry => entry.1 = key).map Prod.snd := by
  induction entries generalizing map with
  | nil => exact (List.append_nil _).symm
  | cons entry entries ih =>
      rw [List.foldl_cons, ih, push, get?_insert]
      by_cases same : entry.1 = key
      · rw [if_pos same, List.filter_cons_of_pos (by simpa using same), List.map_cons, same,
          Option.getD_some, List.append_assoc, List.singleton_append]
      · rw [if_neg same, List.filter_cons_of_neg (by simpa using same)]

/-- What holds of no value at all holds of every entry where it holds under every key. -/
theorem forall_entries_iff {map : SortedMap κ (List ν)} {holds : κ → List ν → Prop}
    (none : ∀ key, holds key []) :
    (∀ entry ∈ map.entries, holds entry.1 entry.2) ↔ ∀ key, holds key ((map.get? key).getD []) := by
  constructor
  · intro every key
    cases held : map.get? key with
    | none => exact none key
    | some values => exact every (key, values) ((mem_entries_iff map key values).mpr held)
  · intro every entry member
    have here := every entry.1
    rwa [(mem_entries_iff map entry.1 entry.2).mp member] at here

end SortedMap

end Onelf.Lib
