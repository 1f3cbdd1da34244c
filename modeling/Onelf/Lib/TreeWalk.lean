import Onelf.Lib.Checks
import Onelf.Lib.FileTree

/-! A depth-first walk of a tree of named entries: what a directory holds itself in the order of its
names, then its directories, the last name first. -/

namespace Onelf.Lib

namespace FileTree

variable {κ α : Type}

/-! ### The walk -/

mutual
/-- How many directories a tree has. -/
def weight : FileTree κ α → Nat
  | leaf _ => 0
  | dir entries => weights entries + 1

def weights : List (κ × FileTree κ α) → Nat
  | [] => 0
  | (_, tree) :: entries => weight tree + weights entries
end

/-- What lies directly in a directory, with the way to it. -/
def leaves (way : List κ) (entries : List (κ × FileTree κ α)) : List (List κ × α) :=
  entries.filterMap fun entry =>
    match entry.2 with
    | leaf content => some (way ++ [entry.1], content)
    | dir _ => none

/-- The directories directly in one. -/
def subdirs (way : List κ) (entries : List (κ × FileTree κ α)) :
    List (List κ × List (κ × FileTree κ α)) :=
  entries.filterMap fun entry =>
    match entry.2 with
    | leaf _ => none
    | dir below => some (way ++ [entry.1], below)

theorem sum_weights_subdirs (way : List κ) (entries : List (κ × FileTree κ α)) :
    ((subdirs way entries).map fun waiting => weights waiting.2 + 1).sum = weights entries := by
  induction entries with
  | nil => rfl
  | cons entry entries ih =>
      obtain ⟨name, tree⟩ := entry
      cases tree with
      | leaf content =>
          rw [subdirs, List.filterMap_cons_none rfl, weights, weight, Nat.zero_add]
          exact ih
      | dir below =>
          have first : subdirs way ((name, dir below) :: entries) =
              (way ++ [name], below) :: subdirs way entries := rfl
          rw [first, List.map_cons, List.sum_cons, ih, weights, weight]

theorem weights_perm {entries others : List (κ × FileTree κ α)} (same : entries.Perm others) :
    weights entries = weights others := by
  rw [← sum_weights_subdirs [] entries, ← sum_weights_subdirs [] others]
  exact ((same.filterMap _).map _).sum_eq

variable [LinearOrder κ]

/-- What is left to list is smaller once a directory has been taken from the stack. -/
theorem weights_shrink (way : List κ) (entries : List (κ × FileTree κ α))
    (stack : List (List κ × List (κ × FileTree κ α))) :
    (((subdirs way (sortByKey Prod.fst entries)).reverse ++ stack).map
      fun waiting => weights waiting.2 + 1).sum <
        (((way, entries) :: stack).map fun waiting => weights waiting.2 + 1).sum := by
  rw [List.map_append, List.sum_append, List.map_reverse, List.sum_reverse, sum_weights_subdirs,
    weights_perm (sortByKey_perm Prod.fst entries), List.map_cons, List.sum_cons]
  exact Nat.add_lt_add_right (Nat.lt_succ_self _) _

def listing : List (List κ × List (κ × FileTree κ α)) → List (List κ × α)
  | [] => []
  | (way, entries) :: stack =>
      leaves way (sortByKey Prod.fst entries) ++
        listing ((subdirs way (sortByKey Prod.fst entries)).reverse ++ stack)
termination_by stack => (stack.map fun waiting => weights waiting.2 + 1).sum
decreasing_by exact weights_shrink way entries stack

/-! ### What it comes to -/

theorem child_eq_some_iff {name : κ} {entries : List (κ × FileTree κ α)} {tree : FileTree κ α}
    (distinct : (entries.map Prod.fst).Nodup) :
    child name entries = some tree ↔ (name, tree) ∈ entries := by
  constructor
  · exact mem_of_child
  · intro member
    induction entries with
    | nil => cases member
    | cons entry entries ih =>
        rw [List.map_cons, List.nodup_cons] at distinct
        rw [child]
        rcases List.mem_cons.mp member with same | later
        · rw [← same, if_pos rfl]
        · rw [if_neg, ih distinct.2 later]
          intro same
          exact distinct.1 (same ▸ List.mem_map_of_mem later)

omit [LinearOrder κ] in
theorem mem_leaves {way path : List κ} {entries : List (κ × FileTree κ α)} {content : α} :
    (path, content) ∈ leaves way entries ↔
      ∃ name, path = way ++ [name] ∧ (name, leaf content) ∈ entries := by
  rw [leaves, List.mem_filterMap]
  constructor
  · rintro ⟨⟨name, tree⟩, member, given⟩
    cases tree with
    | dir below => cases given
    | leaf held =>
        cases Option.some.inj given
        exact ⟨name, rfl, member⟩
  · rintro ⟨name, rfl, member⟩
    exact ⟨_, member, rfl⟩

omit [LinearOrder κ] in
theorem mem_subdirs {way other : List κ} {entries below : List (κ × FileTree κ α)} :
    (other, below) ∈ subdirs way entries ↔
      ∃ name, other = way ++ [name] ∧ (name, dir below) ∈ entries := by
  rw [subdirs, List.mem_filterMap]
  constructor
  · rintro ⟨⟨name, tree⟩, member, given⟩
    cases tree with
    | leaf held => cases given
    | dir held =>
        cases Option.some.inj given
        exact ⟨name, rfl, member⟩
  · rintro ⟨name, rfl, member⟩
    exact ⟨_, member, rfl⟩

/-- What lies below a directory, under its whole path. -/
def Under (waiting : List κ × List (κ × FileTree κ α)) (path : List κ) (content : α) : Prop :=
  ∃ rest, path = waiting.1 ++ rest ∧ find rest (dir waiting.2) = some (leaf content)

theorem under_iff {way path : List κ} {entries : List (κ × FileTree κ α)} {content : α}
    (distinct : (entries.map Prod.fst).Nodup) :
    Under (way, entries) path content ↔ (path, content) ∈ leaves way entries ∨
      ∃ waiting ∈ subdirs way entries, Under waiting path content := by
  constructor
  · rintro ⟨rest, rfl, found⟩
    cases rest with
    | nil => cases found
    | cons name rest =>
        rw [find, Option.bind_eq_some_iff] at found
        obtain ⟨tree, here, found⟩ := found
        have member := (child_eq_some_iff distinct).mp here
        cases tree with
        | leaf held =>
            cases rest with
            | nil =>
                cases Option.some.inj found
                exact Or.inl (mem_leaves.mpr ⟨name, rfl, member⟩)
            | cons next rest => cases found
        | dir below =>
            refine Or.inr ⟨_, mem_subdirs.mpr ⟨name, rfl, member⟩, rest, ?_, found⟩
            rw [List.append_assoc]
            rfl
  · rintro (within | ⟨⟨other, below⟩, within, rest, rfl, found⟩)
    · obtain ⟨name, rfl, member⟩ := mem_leaves.mp within
      refine ⟨[name], rfl, ?_⟩
      rw [find, (child_eq_some_iff distinct).mpr member]
      rfl
    · obtain ⟨name, rfl, member⟩ := mem_subdirs.mp within
      refine ⟨name :: rest, by rw [List.append_assoc]; rfl, ?_⟩
      rw [find, (child_eq_some_iff distinct).mpr member]
      exact found

/-- Directories of distinct names, all the way down. -/
def Distinct (stack : List (List κ × List (κ × FileTree κ α))) : Prop :=
  ∀ waiting ∈ stack, wellNamed (dir waiting.2)

theorem nodup_sorted {entries : List (κ × FileTree κ α)} (named : wellNamed (dir entries)) :
    ((sortByKey Prod.fst entries).map Prod.fst).Nodup := by
  have distinct : (entries.map Prod.fst).Nodup := by
    rw [wellNamed] at named
    exact named.1
  exact ((sortByKey_perm Prod.fst entries).map Prod.fst).nodup_iff.mpr distinct

theorem find_sorted {entries : List (κ × FileTree κ α)} (named : wellNamed (dir entries))
    (rest : List κ) (content : α) :
    find rest (dir (sortByKey Prod.fst entries)) = some (leaf content) ↔
      find rest (dir entries) = some (leaf content) := by
  cases rest with
  | nil => rw [find, find, Option.some.injEq, Option.some.injEq]; simp
  | cons name rest =>
      have same : child name (sortByKey Prod.fst entries) = child name entries := by
        have distinct : (entries.map Prod.fst).Nodup := by
          rw [wellNamed] at named
          exact named.1
        apply Option.ext
        intro tree
        rw [child_eq_some_iff (nodup_sorted named), child_eq_some_iff distinct,
          (sortByKey_perm Prod.fst entries).mem_iff]
      rw [find, find, same]

theorem distinct_step {way : List κ} {entries : List (κ × FileTree κ α)}
    {stack : List (List κ × List (κ × FileTree κ α))}
    (named : Distinct ((way, entries) :: stack)) :
    Distinct ((subdirs way (sortByKey Prod.fst entries)).reverse ++ stack) := by
  intro waiting member
  rcases List.mem_append.mp member with below | later
  · obtain ⟨other, inner⟩ := waiting
    obtain ⟨name, -, within⟩ := mem_subdirs.mp (List.mem_reverse.mp below)
    have whole := named (way, entries) List.mem_cons_self
    rw [wellNamed, allWellNamed_iff] at whole
    exact whole.2 _ ((sortByKey_perm Prod.fst entries).mem_iff.mp within)
  · exact named waiting (List.mem_cons_of_mem _ later)

theorem mem_listing {stack : List (List κ × List (κ × FileTree κ α))} (named : Distinct stack)
    {path : List κ} {content : α} :
    (path, content) ∈ listing stack ↔ ∃ waiting ∈ stack, Under waiting path content := by
  induction stack using listing.induct with
  | case1 =>
      rw [listing]
      simp
  | case2 way entries stack ih =>
      have whole := named (way, entries) List.mem_cons_self
      have here : Under (way, entries) path content ↔
          Under (way, sortByKey Prod.fst entries) path content :=
        exists_congr fun rest => and_congr_right fun _ => (find_sorted whole rest content).symm
      have parts : (∃ waiting ∈ (subdirs way (sortByKey Prod.fst entries)).reverse ++ stack,
          Under waiting path content) ↔
            (∃ waiting ∈ subdirs way (sortByKey Prod.fst entries), Under waiting path content) ∨
              ∃ waiting ∈ stack, Under waiting path content := by
        simp only [List.mem_append, List.mem_reverse, or_and_right, exists_or]
      rw [listing, List.mem_append, ih (distinct_step named), List.exists_mem_cons_iff, here,
        under_iff (nodup_sorted whole), parts, or_assoc]

/-! ### Its order -/

/-- Of what lies under two names of one directory, a leaf comes before what lies deeper; leaves go
by their names and directories the other way. -/
def Parted (first second : κ) : List κ → List κ → Prop
  | [], [] => first < second
  | [], _ :: _ => True
  | _ :: _, [] => False
  | _ :: _, _ :: _ => second < first

/-- The order of the walk, settled where two paths part. -/
def Before : List κ → List κ → Prop
  | [], _ => False
  | _ :: _, [] => False
  | first :: path, second :: other =>
      if first = second then Before path other else Parted first second path other

theorem before_append {way path other : List κ} :
    Before (way ++ path) (way ++ other) ↔ Before path other := by
  induction way with
  | nil => rfl
  | cons name way ih => rw [List.cons_append, List.cons_append, Before, if_pos rfl, ih]

theorem Before.asymm {path other : List κ} (earlier : Before path other) : ¬Before other path := by
  induction path generalizing other with
  | nil => exact absurd earlier not_false
  | cons first path ih =>
      cases other with
      | nil => exact absurd earlier not_false
      | cons second other =>
          rw [Before] at earlier ⊢
          by_cases same : first = second
          · rw [if_pos same] at earlier
            rw [if_pos same.symm]
            exact ih earlier
          · rw [if_neg same] at earlier
            rw [if_neg (Ne.symm same)]
            cases path with
            | nil =>
                cases other with
                | nil => exact lt_asymm earlier
                | cons next other => exact not_false
            | cons next path =>
                cases other with
                | nil => exact absurd earlier not_false
                | cons after other => exact lt_asymm earlier

/-- What the first of two directories holds comes before what the second holds. -/
def Ordered (stack : List (List κ × List (κ × FileTree κ α))) : Prop :=
  stack.Pairwise fun one other => ∀ path content, Under one path content →
    ∀ later held, Under other later held → Before path later

theorem under_of_leaf {way path : List κ} {entries : List (κ × FileTree κ α)} {content : α}
    (named : wellNamed (dir entries))
    (member : (path, content) ∈ leaves way (sortByKey Prod.fst entries)) :
    Under (way, entries) path content := by
  obtain ⟨rest, same, found⟩ := (under_iff (nodup_sorted named)).mpr (Or.inl member)
  exact ⟨rest, same, (find_sorted named rest content).mp found⟩

theorem under_of_subdir {way path : List κ} {entries : List (κ × FileTree κ α)} {content : α}
    {waiting : List κ × List (κ × FileTree κ α)} (named : wellNamed (dir entries))
    (member : waiting ∈ subdirs way (sortByKey Prod.fst entries))
    (under : Under waiting path content) : Under (way, entries) path content := by
  obtain ⟨rest, same, found⟩ := (under_iff (nodup_sorted named)).mpr (Or.inr ⟨_, member, under⟩)
  exact ⟨rest, same, (find_sorted named rest content).mp found⟩

theorem under_below {way path : List κ} {name : κ} {below : List (κ × FileTree κ α)} {content : α}
    (under : Under (way ++ [name], below) path content) :
    ∃ next rest, path = way ++ name :: next :: rest := by
  obtain ⟨rest, same, found⟩ := under
  cases rest with
  | nil => cases found
  | cons next rest => exact ⟨next, rest, by rw [same, List.append_assoc]; rfl⟩

theorem leaves_ordered {way : List κ} {entries : List (κ × FileTree κ α)}
    (sorted : (entries.map Prod.fst).Pairwise (· < ·)) :
    (leaves way entries).Pairwise fun one other => Before one.1 other.1 := by
  rw [List.pairwise_map] at sorted
  refine List.Pairwise.filterMap _ ?_ sorted
  intro one other less first given second held
  obtain ⟨name, tree⟩ := one
  obtain ⟨next, after⟩ := other
  cases tree with
  | dir below => cases given
  | leaf content =>
      cases after with
      | dir below => cases held
      | leaf content =>
          cases Option.some.inj given
          cases Option.some.inj held
          rw [before_append, Before, if_neg (ne_of_lt less)]
          exact less

theorem subdirs_ordered {way : List κ} {entries : List (κ × FileTree κ α)}
    (sorted : (entries.map Prod.fst).Pairwise (· < ·)) :
    Ordered (subdirs way entries).reverse := by
  rw [Ordered, List.pairwise_reverse]
  rw [List.pairwise_map] at sorted
  refine List.Pairwise.filterMap _ ?_ sorted
  intro one other less first given second held path content under later kept beyond
  obtain ⟨name, tree⟩ := one
  obtain ⟨next, after⟩ := other
  cases tree with
  | leaf content => cases given
  | dir below =>
      cases after with
      | leaf content => cases held
      | dir below =>
          cases Option.some.inj given
          cases Option.some.inj held
          obtain ⟨part, rest, rfl⟩ := under_below under
          obtain ⟨other, more, rfl⟩ := under_below beyond
          rw [before_append, Before, if_neg (ne_of_gt less)]
          exact less

theorem leaf_before_subdir {way path later : List κ} {entries : List (κ × FileTree κ α)}
    {content held : α} {waiting : List κ × List (κ × FileTree κ α)}
    (distinct : (entries.map Prod.fst).Nodup) (member : (path, content) ∈ leaves way entries)
    (among : waiting ∈ subdirs way entries) (under : Under waiting later held) :
    Before path later := by
  obtain ⟨name, rfl, here⟩ := mem_leaves.mp member
  obtain ⟨other, below⟩ := waiting
  obtain ⟨next, rfl, there⟩ := mem_subdirs.mp among
  obtain ⟨part, rest, rfl⟩ := under_below under
  have apart : name ≠ next := by
    intro same
    rw [← same] at there
    have one := (child_eq_some_iff distinct).mpr here
    rw [(child_eq_some_iff distinct).mpr there] at one
    cases one
  rw [before_append, Before, if_neg apart]
  trivial

theorem ordered_step {way : List κ} {entries : List (κ × FileTree κ α)}
    {stack : List (List κ × List (κ × FileTree κ α))} (named : wellNamed (dir entries))
    (ordered : Ordered ((way, entries) :: stack)) :
    Ordered ((subdirs way (sortByKey Prod.fst entries)).reverse ++ stack) := by
  rw [Ordered, List.pairwise_cons] at ordered
  rw [wellNamed] at named
  refine List.pairwise_append.mpr ⟨subdirs_ordered (sortByKey_sorted named.1), ordered.2, ?_⟩
  intro waiting among other later path content under
  have whole : wellNamed (dir entries) := by rwa [wellNamed]
  exact ordered.1 other later path content
    (under_of_subdir whole (List.mem_reverse.mp among) under)

theorem listing_ordered {stack : List (List κ × List (κ × FileTree κ α))} (named : Distinct stack)
    (ordered : Ordered stack) :
    (listing stack).Pairwise fun one other => Before one.1 other.1 := by
  induction stack using listing.induct with
  | case1 =>
      rw [listing]
      exact List.Pairwise.nil
  | case2 way entries stack ih =>
      have whole := named (way, entries) List.mem_cons_self
      have rest := ih (distinct_step named) (ordered_step whole ordered)
      rw [wellNamed] at whole
      rw [listing]
      refine List.pairwise_append.mpr ⟨leaves_ordered (sortByKey_sorted whole.1), rest, ?_⟩
      rintro ⟨path, content⟩ here ⟨later, held⟩ there
      have named' : wellNamed (dir entries) := by rwa [wellNamed]
      obtain ⟨waiting, among, under⟩ := (mem_listing (distinct_step named)).mp there
      rcases List.mem_append.mp among with below | beyond
      · exact leaf_before_subdir (nodup_sorted named') here (List.mem_reverse.mp below) under
      · rw [Ordered, List.pairwise_cons] at ordered
        exact ordered.1 waiting beyond path content (under_of_leaf named' here) later held under

theorem mem_listing_root {entries : List (κ × FileTree κ α)} (named : wellNamed (dir entries))
    {path : List κ} {content : α} :
    (path, content) ∈ listing [([], entries)] ↔ find path (dir entries) = some (leaf content) := by
  have only : Distinct [([], entries)] := by
    intro waiting member
    rw [List.mem_singleton.mp member]
    exact named
  rw [mem_listing only]
  constructor
  · rintro ⟨waiting, member, rest, rfl, found⟩
    rw [List.mem_singleton.mp member] at found ⊢
    exact found
  · intro found
    exact ⟨_, List.mem_singleton_self _, path, rfl, found⟩

/-- Lists in the walk's order that hold the same are the same. -/
theorem eq_of_before {one other : List (List κ × α)}
    (first : one.Pairwise fun one other => Before one.1 other.1)
    (second : other.Pairwise fun one other => Before one.1 other.1)
    (same : ∀ value, value ∈ one ↔ value ∈ other) : one = other := by
  have once {values : List (List κ × α)}
      (ordered : values.Pairwise fun one other => Before one.1 other.1) : values.Nodup :=
    ordered.imp fun earlier equal => by
      rw [equal] at earlier
      exact earlier.asymm earlier
  refine List.Perm.eq_of_pairwise ?_ first second
    ((List.perm_ext_iff_of_nodup (once first) (once second)).mpr same)
  intro left right _ _ earlier later
  exact absurd later earlier.asymm

end FileTree

end Onelf.Lib
