import Mathlib.Data.List.Nodup

/-! Trees of named entries: what lies at a path, a change at one path, and the removal of every
directory that holds nothing. -/

namespace Onelf.Lib

inductive FileTree (κ α : Type) where
  | leaf (content : α)
  | dir (entries : List (κ × FileTree κ α))

namespace FileTree

variable {κ α : Type}

/-! ### Names -/

mutual
/-- No directory has two entries of one name. -/
def wellNamed : FileTree κ α → Prop
  | leaf _ => True
  | dir entries => (entries.map Prod.fst).Nodup ∧ allWellNamed entries

def allWellNamed : List (κ × FileTree κ α) → Prop
  | [] => True
  | (_, tree) :: entries => wellNamed tree ∧ allWellNamed entries
end

theorem allWellNamed_iff {entries : List (κ × FileTree κ α)} :
    allWellNamed entries ↔ ∀ entry ∈ entries, wellNamed entry.2 := by
  induction entries with
  | nil => simp [allWellNamed]
  | cons entry entries ih => rw [allWellNamed, ih, List.forall_mem_cons]

/-! ### Removing what holds nothing -/

mutual
/-- The tree without the directories that hold nothing but such directories. -/
def prune : FileTree κ α → Option (FileTree κ α)
  | leaf content => some (leaf content)
  | dir entries =>
      match pruneAll entries with
      | [] => none
      | first :: rest => some (dir (first :: rest))

def pruneAll : List (κ × FileTree κ α) → List (κ × FileTree κ α)
  | [] => []
  | (name, tree) :: entries =>
      match prune tree with
      | none => pruneAll entries
      | some kept => (name, kept) :: pruneAll entries
end

mutual
/-- No directory of the tree is empty. -/
def full : FileTree κ α → Prop
  | leaf _ => True
  | dir entries => entries ≠ [] ∧ allFull entries

def allFull : List (κ × FileTree κ α) → Prop
  | [] => True
  | (_, tree) :: entries => full tree ∧ allFull entries
end

theorem length_pruneAll_le (entries : List (κ × FileTree κ α)) :
    (pruneAll entries).length ≤ entries.length := by
  induction entries with
  | nil => exact Nat.le_refl _
  | cons entry entries ih =>
      rw [pruneAll]
      split
      · exact Nat.le_trans ih (Nat.le_succ _)
      · exact Nat.succ_le_succ ih

mutual
/-- Pruning changes nothing exactly where no directory is empty. -/
theorem prune_eq_self_iff : (tree : FileTree κ α) → (prune tree = some tree ↔ full tree)
  | leaf content => by simp [prune, full]
  | dir entries => by
      rw [full, ← pruneAll_eq_self_iff entries, prune]
      cases pruned : pruneAll entries with
      | nil =>
          constructor
          · intro same
            cases same
          · intro both
            exact absurd both.2.symm both.1
      | cons first rest =>
          constructor
          · intro same
            have whole : first :: rest = entries := by
              injection same with same
              injection same
            exact ⟨whole ▸ List.cons_ne_nil _ _, whole⟩
          · intro both
            exact congrArg some (congrArg dir both.2)

theorem pruneAll_eq_self_iff : (entries : List (κ × FileTree κ α)) →
    (pruneAll entries = entries ↔ allFull entries)
  | [] => by simp [pruneAll, allFull]
  | (name, tree) :: entries => by
      rw [pruneAll, allFull, ← prune_eq_self_iff tree, ← pruneAll_eq_self_iff entries]
      cases pruned : prune tree with
      | none =>
          constructor
          · intro same
            have short := length_pruneAll_le entries
            rw [show pruneAll entries = (name, tree) :: entries from same, List.length_cons] at short
            omega
          · intro both
            cases both.1
      | some kept => simp
end

/-! ### Paths -/

section
variable [DecidableEq κ]

/-- The first entry of a name. -/
def child (name : κ) : List (κ × FileTree κ α) → Option (FileTree κ α)
  | [] => none
  | (other, tree) :: entries => if other = name then some tree else child name entries

def find : List κ → FileTree κ α → Option (FileTree κ α)
  | [], tree => some tree
  | _ :: _, leaf _ => none
  | name :: path, dir entries => (child name entries).bind fun tree => find path tree

/-- The entries with one set or taken out. -/
def put (name : κ) (tree : Option (FileTree κ α)) :
    List (κ × FileTree κ α) → List (κ × FileTree κ α)
  | [] => tree.elim [] fun tree => [(name, tree)]
  | (other, old) :: entries =>
      if other = name then tree.elim entries fun tree => (name, tree) :: entries
      else (other, old) :: put name tree entries

/-- A change of what lies at a path; nothing changes where the directory above it is missing. -/
def alter (change : Option (FileTree κ α) → Option (FileTree κ α)) :
    List κ → FileTree κ α → FileTree κ α
  | [name], dir entries => dir (put name (change (child name entries)) entries)
  | name :: next :: path, dir entries =>
      match child name entries with
      | some tree => dir (put name (some (alter change (next :: path) tree)) entries)
      | none => dir entries
  | _, tree => tree

theorem child_of_absent {name : κ} {entries : List (κ × FileTree κ α)}
    (absent : name ∉ entries.map Prod.fst) : child name entries = none := by
  induction entries with
  | nil => rfl
  | cons entry entries ih =>
      rw [List.map_cons, List.mem_cons, not_or] at absent
      rw [child, if_neg (Ne.symm absent.1)]
      exact ih absent.2

theorem mem_of_child {name : κ} {entries : List (κ × FileTree κ α)} {tree : FileTree κ α}
    (found : child name entries = some tree) : (name, tree) ∈ entries := by
  induction entries with
  | nil => cases found
  | cons entry entries ih =>
      rw [child] at found
      split at found
      · next same =>
          rw [← same, ← Option.some.inj found]
          exact List.mem_cons_self
      · exact List.mem_cons_of_mem _ (ih found)

theorem child_put {name : κ} (other : κ) (tree : Option (FileTree κ α))
    {entries : List (κ × FileTree κ α)} (distinct : (entries.map Prod.fst).Nodup) :
    child other (put name tree entries) = if name = other then tree else child other entries := by
  induction entries with
  | nil =>
      cases tree with
      | none => simp [put, child]
      | some tree => simp [put, child]
  | cons entry entries ih =>
      rcases entry with ⟨first, old⟩
      rw [List.map_cons, List.nodup_cons] at distinct
      have later := ih distinct.2
      rw [put, child]
      by_cases here : first = name
      · rw [if_pos here, here]
        by_cases same : name = other
        · cases tree with
          | none =>
              rw [if_pos same, ← same, ← here]
              exact child_of_absent distinct.1
          | some tree => rw [if_pos same, Option.elim_some, child, if_pos same]
        · cases tree with
          | none => rw [if_neg same, if_neg same, Option.elim_none]
          | some tree => rw [if_neg same, if_neg same, Option.elim_some, child, if_neg same]
      · rw [if_neg here, child, later]
        by_cases same : first = other
        · rw [if_pos same, if_pos same, if_neg (same ▸ Ne.symm here)]
        · rw [if_neg same, if_neg same]

theorem map_fst_put_subset (name : κ) (tree : Option (FileTree κ α))
    (entries : List (κ × FileTree κ α)) {other : κ}
    (member : other ∈ (put name tree entries).map Prod.fst) :
    other = name ∨ other ∈ entries.map Prod.fst := by
  induction entries with
  | nil =>
      cases tree with
      | none => simp [put] at member
      | some tree => exact Or.inl (by simpa [put] using member)
  | cons entry entries ih =>
      rcases entry with ⟨first, old⟩
      rw [List.map_cons, List.mem_cons]
      rw [put] at member
      split at member
      · cases tree with
        | none => exact Or.inr (Or.inr member)
        | some tree =>
            rw [Option.elim_some, List.map_cons, List.mem_cons] at member
            rcases member with same | later
            · exact Or.inl same
            · exact Or.inr (Or.inr later)
      · rw [List.map_cons, List.mem_cons] at member
        rcases member with same | later
        · exact Or.inr (Or.inl same)
        · rcases ih later with same | inside
          · exact Or.inl same
          · exact Or.inr (Or.inr inside)

/-- Setting one entry keeps the names of a directory apart. -/
theorem wellNamed_put {name : κ} {tree : Option (FileTree κ α)}
    {entries : List (κ × FileTree κ α)} (named : wellNamed (dir entries))
    (changed : ∀ new ∈ tree, wellNamed new) : wellNamed (dir (put name tree entries)) := by
  induction entries with
  | nil =>
      cases tree with
      | none => simpa [put] using named
      | some tree => simpa [put, wellNamed, allWellNamed] using changed tree rfl
  | cons entry entries ih =>
      rcases entry with ⟨first, old⟩
      rw [wellNamed, List.map_cons, List.nodup_cons, allWellNamed] at named
      rcases named with ⟨⟨absent, distinct⟩, here, rest⟩
      have later : wellNamed (dir entries) := ⟨distinct, rest⟩
      rw [put]
      by_cases same : first = name
      · rw [if_pos same]
        cases tree with
        | none => exact later
        | some tree =>
            rw [Option.elim_some, wellNamed, List.map_cons, List.nodup_cons, allWellNamed]
            exact ⟨⟨same ▸ absent, distinct⟩, changed tree rfl, rest⟩
      · rw [if_neg same, wellNamed, List.map_cons, List.nodup_cons, allWellNamed]
        rcases ih later with ⟨apart, inner⟩
        refine ⟨⟨?_, apart⟩, here, inner⟩
        intro member
        rcases map_fst_put_subset name tree entries member with this | inside
        · exact same this
        · exact absent inside

theorem wellNamed_of_child {name : κ} {entries : List (κ × FileTree κ α)} {tree : FileTree κ α}
    (named : wellNamed (dir entries)) (found : child name entries = some tree) :
    wellNamed tree :=
  allWellNamed_iff.mp named.2 _ (mem_of_child found)

theorem wellNamed_alter {change : Option (FileTree κ α) → Option (FileTree κ α)}
    (kept : ∀ old, (∀ tree ∈ old, wellNamed tree) → ∀ tree ∈ change old, wellNamed tree)
    {path : List κ} {tree : FileTree κ α} (named : wellNamed tree) :
    wellNamed (alter change path tree) := by
  induction path generalizing tree with
  | nil => exact named
  | cons name path ih =>
      cases tree with
      | leaf content =>
          cases path with
          | nil => exact named
          | cons next path => exact named
      | dir entries =>
          cases path with
          | nil =>
              apply wellNamed_put named
              apply kept
              intro tree found
              exact wellNamed_of_child named found
          | cons next path =>
              rw [alter]
              cases found : child name entries with
              | none => exact named
              | some tree =>
                  apply wellNamed_put named
                  intro new same
                  rw [← Option.some.inj same]
                  exact ih (wellNamed_of_child named found)

/-- A change at one path leaves what lies at another, neither of them inside the other. -/
theorem find_alter_apart {change : Option (FileTree κ α) → Option (FileTree κ α)}
    {path other : List κ} {tree : FileTree κ α} (named : wellNamed tree)
    (above : ¬ path <+: other) (below : ¬ other <+: path) :
    find other (alter change path tree) = find other tree := by
  induction path generalizing other tree with
  | nil => exact absurd List.nil_prefix above
  | cons name path ih =>
      cases other with
      | nil => exact absurd List.nil_prefix below
      | cons first other =>
          cases tree with
          | leaf content =>
              cases path with
              | nil => rfl
              | cons next path => rfl
          | dir entries =>
              cases path with
              | nil =>
                  have apart : name ≠ first := by
                    intro same
                    exact above ⟨other, by rw [same]; rfl⟩
                  rw [alter, find, child_put _ _ named.1, if_neg apart, find]
              | cons next path =>
                  rw [alter]
                  cases found : child name entries with
                  | none => rfl
                  | some tree =>
                      simp only [find, child_put _ _ named.1]
                      by_cases same : name = first
                      · rw [if_pos same, ← same, found]
                        rw [← same] at above below
                        apply ih (wellNamed_of_child named found)
                        · intro inside
                          exact above ((List.prefix_cons_inj name).mpr inside)
                        · intro inside
                          exact below ((List.prefix_cons_inj name).mpr inside)
                      · rw [if_neg same]

/-- What a change makes of the entry it is made to. -/
theorem find_alter_self {change : Option (FileTree κ α) → Option (FileTree κ α)} {path : List κ}
    {tree found : FileTree κ α} (named : wellNamed tree) (below : path ≠ [])
    (held : find path tree = some found) :
    find path (alter change path tree) = change (some found) := by
  induction path generalizing tree with
  | nil => exact absurd rfl below
  | cons name path ih =>
      cases tree with
      | leaf content => cases held
      | dir entries =>
          rcases Option.bind_eq_some_iff.mp held with ⟨tree, first, rest⟩
          cases path with
          | nil =>
              have same : tree = found := Option.some.inj rest
              rw [alter, find, child_put _ _ named.1, if_pos rfl, first, same]
              cases change (some found) with
              | none => rfl
              | some new => rfl
          | cons next path =>
              rw [alter, first]
              simp only [find, child_put _ _ named.1, if_pos]
              exact ih (wellNamed_of_child named first) (List.cons_ne_nil _ _) rest

/-! ### What pruning leaves -/

theorem child_pruneAll {name : κ} {entries : List (κ × FileTree κ α)}
    (distinct : (entries.map Prod.fst).Nodup) :
    child name (pruneAll entries) = (child name entries).bind prune := by
  induction entries with
  | nil => rfl
  | cons entry entries ih =>
      rcases entry with ⟨first, tree⟩
      rw [List.map_cons, List.nodup_cons] at distinct
      have later := ih distinct.2
      rw [pruneAll, child]
      by_cases same : first = name
      · rw [if_pos same, Option.bind_some]
        cases pruned : prune tree with
        | none =>
            simp only
            rw [later, child_of_absent (same ▸ distinct.1)]
            rfl
        | some kept => simp only [child, if_pos same]
      · rw [if_neg same]
        cases pruned : prune tree with
        | none => exact later
        | some kept => simpa only [child, if_neg same] using later

/-- What lies at a path of the pruned tree is what lay there, pruned. -/
theorem find_prune {path : List κ} {tree : FileTree κ α} (named : wellNamed tree) :
    (prune tree).bind (find path) = (find path tree).bind prune := by
  induction path generalizing tree with
  | nil =>
      rw [find, Option.bind_some]
      cases prune tree with
      | none => rfl
      | some kept => rfl
  | cons name path ih =>
      cases tree with
      | leaf content => rfl
      | dir entries =>
          have inside : (child name (pruneAll entries)).bind (find path) =
              (find (name :: path) (dir entries)).bind prune := by
            rw [child_pruneAll named.1, find]
            cases found : child name entries with
            | none => rfl
            | some tree =>
                rw [Option.bind_some, Option.bind_some]
                exact ih (wellNamed_of_child named found)
          rw [← inside, prune]
          cases pruneAll entries with
          | nil => rfl
          | cons first rest => rfl

theorem child_of_mem {entry : κ × FileTree κ α} {entries : List (κ × FileTree κ α)}
    (distinct : (entries.map Prod.fst).Nodup) (member : entry ∈ entries) :
    child entry.1 entries = some entry.2 := by
  induction entries with
  | nil => cases member
  | cons first entries ih =>
      rw [List.map_cons, List.nodup_cons] at distinct
      rw [child]
      rcases List.mem_cons.mp member with same | later
      · rw [same, if_pos rfl]
      · rw [if_neg, ih distinct.2 later]
        intro same
        exact distinct.1 (same ▸ List.mem_map_of_mem later)

mutual
theorem full_iff : (tree : FileTree κ α) → wellNamed tree →
    (full tree ↔ ∀ path, find path tree ≠ some (dir []))
  | leaf content, _ => by
      constructor
      · intro _ path
        cases path with
        | nil => simp [find]
        | cons name path => simp [find]
      · intro _
        trivial
  | dir entries, named => by
      rw [full, allFull_iff entries named.2]
      constructor
      · rintro ⟨some, inner⟩ path
        cases path with
        | nil =>
            intro same
            injection same with same
            injection same with none
            exact some none
        | cons name path =>
            intro same
            rcases Option.bind_eq_some_iff.mp same with ⟨tree, found, empty⟩
            exact inner _ (mem_of_child found) path empty
      · intro inner
        constructor
        · intro none
          exact inner [] (by rw [none, find])
        · intro entry member path empty
          apply inner (entry.1 :: path)
          rw [find, child_of_mem named.1 member]
          exact empty

theorem allFull_iff : (entries : List (κ × FileTree κ α)) → allWellNamed entries →
    (allFull entries ↔ ∀ entry ∈ entries, ∀ path, find path entry.2 ≠ some (dir []))
  | [], _ => by simp [allFull]
  | (name, tree) :: entries, named => by
      rw [allFull, full_iff tree named.1, allFull_iff entries named.2, List.forall_mem_cons]
end

theorem find_append (path below : List κ) (tree : FileTree κ α) :
    find (path ++ below) tree = (find path tree).bind (find below) := by
  induction path generalizing tree with
  | nil => rfl
  | cons name path ih =>
      cases tree with
      | leaf content => rfl
      | dir entries =>
          rw [List.cons_append, find, find]
          cases child name entries with
          | none => rfl
          | some tree => exact ih tree

theorem wellNamed_of_find {path : List κ} {tree found : FileTree κ α} (named : wellNamed tree)
    (held : find path tree = some found) : wellNamed found := by
  induction path generalizing tree with
  | nil =>
      rw [← Option.some.inj held]
      exact named
  | cons name path ih =>
      cases tree with
      | leaf content => cases held
      | dir entries =>
          rcases Option.bind_eq_some_iff.mp held with ⟨tree, first, rest⟩
          exact ih (wellNamed_of_child named first) rest

/-- What a tree had at a path is still there after pruning exactly where no directory in it is
empty. -/
theorem find_prune_eq_iff {path : List κ} {before after : FileTree κ α} (named : wellNamed after)
    (kept : find path after = find path before) :
    (prune after).bind (find path) = find path before ↔
      ∀ below, find (path ++ below) before ≠ some (dir []) := by
  simp only [find_prune named, find_append, kept]
  cases held : find path before with
  | none => simp
  | some found =>
      simp only [Option.bind_some]
      rw [prune_eq_self_iff, full_iff found (wellNamed_of_find named (kept.trans held))]

end

end FileTree

end Onelf.Lib
