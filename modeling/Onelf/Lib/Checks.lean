import Mathlib.Algebra.BigOperators.Group.List.Basic
import Mathlib.Algebra.GroupWithZero.Nat
import Mathlib.Data.List.Forall2
import Onelf.Lib.SortedMap

/-! Checked loops over lists: values that must be distinct, sums that must stay under a limit,
and keys that must ascend. -/

namespace Onelf.Lib

variable {ε α β κ : Type}

/-! ### Lists related place by place -/

theorem forall₂_trans {first : α → β → Prop} {second : β → κ → Prop} {both : α → κ → Prop}
    (joins : ∀ a b c, first a b → second b c → both a c) {as : List α} {bs : List β} {cs : List κ}
    (left : List.Forall₂ first as bs) (right : List.Forall₂ second bs cs) :
    List.Forall₂ both as cs := by
  induction left generalizing cs with
  | nil =>
      cases right
      exact List.Forall₂.nil
  | cons here _ ih =>
      cases right with
      | cons there rest => exact List.Forall₂.cons (joins _ _ _ here there) (ih rest)

theorem forall₂_mem {relation : α → β → Prop} {left : List α} {right : List β}
    (paired : List.Forall₂ relation left right) {x : α} (member : x ∈ left) :
    ∃ y ∈ right, relation x y := by
  induction paired with
  | nil => cases member
  | cons here later ih =>
      rcases List.mem_cons.mp member with same | inside
      · exact ⟨_, List.mem_cons_self, same ▸ here⟩
      · obtain ⟨y, within, held⟩ := ih inside
        exact ⟨y, List.mem_cons_of_mem _ within, held⟩

theorem Except.andThen_eq_ok {first : Except ε α} {second : α → Except ε β} {value : β} :
    (first >>= second) = .ok value ↔ ∃ middle, first = .ok middle ∧ second middle = .ok value := by
  cases first with
  | error reason => simp [bind, Except.bind]
  | ok middle => simp [bind, Except.bind]

theorem Except.followed_eq_ok {first : Except ε Unit} {second : Except ε β} {value : β} :
    (first >>= fun _ => second) = .ok value ↔ first = .ok () ∧ second = .ok value := by
  cases first with
  | error reason => simp [bind, Except.bind]
  | ok nothing => simp [bind, Except.bind]

theorem Except.forM_eq_ok {check : α → Except ε Unit} {values : List α} :
    values.forM check = .ok () ↔ ∀ value ∈ values, check value = .ok () := by
  induction values with
  | nil => exact iff_of_true rfl fun value member => absurd member List.not_mem_nil
  | cons value values ih => rw [List.forM, Except.followed_eq_ok, List.forall_mem_cons, ih]

theorem Except.mapM_eq_ok {step : α → Except ε β} {values : List α} {others : List β} :
    values.mapM step = .ok others ↔
      List.Forall₂ (fun value other => step value = .ok other) values others := by
  induction values generalizing others with
  | nil =>
      rw [List.mapM_nil, List.forall₂_nil_left_iff]
      constructor
      · intro same
        exact (Except.ok.inj same).symm
      · intro same
        exact congrArg Except.ok same.symm
  | cons value values ih =>
      rw [List.mapM_cons, Except.andThen_eq_ok, List.forall₂_cons_left_iff]
      simp only [Except.andThen_eq_ok, ih]
      constructor
      · intro ran
        rcases ran with ⟨other, first, rest, later, same⟩
        exact ⟨other, rest, first, later, (Except.ok.inj same).symm⟩
      · intro ran
        rcases ran with ⟨other, rest, first, later, same⟩
        exact ⟨other, first, rest, later, congrArg Except.ok same.symm⟩

theorem Except.mapM_total {step : α → Except ε β} {values : List α}
    (each : ∀ value ∈ values, ∃ other, step value = .ok other) :
    ∃ others, values.mapM step = .ok others := by
  induction values with
  | nil => exact ⟨[], rfl⟩
  | cons value values ih =>
      rw [List.forall_mem_cons] at each
      rcases each with ⟨⟨other, first⟩, later⟩
      rcases ih later with ⟨others, rest⟩
      refine ⟨other :: others, ?_⟩
      rw [List.mapM_cons, first, rest]
      rfl

theorem Option.mapM_eq_some {step : α → Option β} {values : List α} {others : List β} :
    values.mapM step = some others ↔
      List.Forall₂ (fun value other => step value = some other) values others := by
  induction values generalizing others with
  | nil =>
      rw [List.mapM_nil, List.forall₂_nil_left_iff]
      exact ⟨fun same => (Option.some.inj same).symm, fun same => congrArg some same.symm⟩
  | cons value values ih =>
      rw [List.mapM_cons, List.forall₂_cons_left_iff]
      simp only [Option.bind_eq_bind, Option.bind_eq_some_iff, ih, Option.pure_def,
        Option.some.injEq]
      constructor
      · intro ran
        rcases ran with ⟨first, here, rest, there, whole⟩
        exact ⟨first, rest, here, there, whole.symm⟩
      · intro pairs
        rcases pairs with ⟨first, rest, here, there, whole⟩
        exact ⟨first, here, rest, there, whole.symm⟩

/-- What each step keeps, of the values it has passed and its state, holds of a whole loop. -/
theorem Option.foldlM_keeps {keeps : List α → β → Prop} {step : β → α → Option β}
    (kept : ∀ past state value next, keeps past state → step state value = some next →
      keeps (past ++ [value]) next) {past values : List α} {start last : β}
    (begins : keeps past start) (ran : values.foldlM step start = some last) :
    keeps (past ++ values) last := by
  induction values generalizing past start with
  | nil =>
      cases ran
      rw [List.append_nil]
      exact begins
  | cons value values ih =>
      rw [List.foldlM_cons, Option.bind_eq_bind, Option.bind_eq_some_iff] at ran
      rcases ran with ⟨next, now, later⟩
      rw [← List.singleton_append, ← List.append_assoc]
      exact ih (kept past start value next begins now) later

/-! ### Lists matched value by value -/

theorem paired_of_mem {related : α → β → Prop} {values : List α} {others : List β}
    (paired : List.Forall₂ related values others) {other : β} (member : other ∈ others) :
    ∃ value ∈ values, related value other := by
  induction paired with
  | nil => exact absurd member List.not_mem_nil
  | cons first _ ih =>
      rcases List.mem_cons.mp member with here | later
      · exact ⟨_, List.mem_cons_self, here ▸ first⟩
      · rcases ih later with ⟨value, within, held⟩
        exact ⟨value, List.mem_cons_of_mem _ within, held⟩

theorem paired_with_mem {related : α → β → Prop} {values : List α} {others : List β}
    (paired : List.Forall₂ related values others) {value : α} (member : value ∈ values) :
    ∃ other ∈ others, related value other := by
  induction paired with
  | nil => exact absurd member List.not_mem_nil
  | cons first _ ih =>
      rcases List.mem_cons.mp member with here | later
      · exact ⟨_, List.mem_cons_self, here ▸ first⟩
      · rcases ih later with ⟨other, within, held⟩
        exact ⟨other, List.mem_cons_of_mem _ within, held⟩

theorem paired_getElem? {related : α → β → Prop} {values : List α} {others : List β}
    (paired : List.Forall₂ related values others) {index : Nat} {value : α}
    (found : values[index]? = some value) :
    ∃ other, others[index]? = some other ∧ related value other := by
  induction paired generalizing index with
  | nil => cases found
  | cons first _ ih =>
      cases index with
      | zero => exact ⟨_, rfl, Option.some.inj found ▸ first⟩
      | succ index => exact ih found

/-- The first value that passes, or else the first of all. -/
theorem getElem?_findIdx?_getD (first : α) (rest : List α) (passes : α → Bool) :
    (first :: rest)[((first :: rest).findIdx? passes).getD 0]? =
      some (((first :: rest).find? passes).getD first) := by
  rw [List.find?_eq_bind_findIdx?_getElem?]
  cases found : (first :: rest).findIdx? passes with
  | none => rfl
  | some index =>
      rcases List.findIdx?_eq_some_iff_getElem.mp found with ⟨inside, _⟩
      rw [Option.getD_some, Option.bind_some, List.getElem?_eq_getElem inside, Option.getD_some]

/-- Matched lists give the same where each pair does. -/
theorem paired_map_eq_iff {γ : Type} {related : α → β → Prop} {give : β → γ} {expect : α → γ}
    {holds : α → Prop} {values : List α} {others : List β}
    (paired : List.Forall₂ related values others)
    (each : ∀ value ∈ values, ∀ other, related value other →
      (give other = expect value ↔ holds value)) :
    others.map give = values.map expect ↔ ∀ value ∈ values, holds value := by
  induction paired with
  | nil => simp
  | cons first _ ih =>
      rw [List.forall_mem_cons] at each
      rw [List.map_cons, List.map_cons, List.cons.injEq, List.forall_mem_cons,
        each.1 _ first, ih each.2]

theorem guard_eq_some {held : Prop} [Decidable held] {nothing : Unit} :
    (guard held : Option Unit) = some nothing ↔ held := by
  rw [guard]
  split
  · next holds => exact iff_of_true rfl holds
  · next fails => exact iff_of_false (fun same => by cases same) fails

theorem ok_of_toOption {result : Except ε α} {value : α} (found : result.toOption = some value) :
    result = .ok value := by
  cases result with
  | error reason => cases found
  | ok other => exact congrArg Except.ok (Option.some.inj found)

/-- A check that refuses with `reason` when `refused` holds. -/
def refuseIf (refused : Prop) [Decidable refused] (reason : ε) : Except ε Unit :=
  if refused then .error reason else .ok ()

theorem refuseIf_eq_ok {refused : Prop} [Decidable refused] {reason : ε} :
    refuseIf refused reason = .ok () ↔ ¬ refused := by
  rw [refuseIf]
  split
  · next holds => simp [holds]
  · next fails => simp [fails]

/-- Checks each value and refuses the first whose key was seen before. -/
def eachUnique [DecidableEq κ] (before after : α → Except ε Unit) (key : α → κ)
    (duplicate : α → ε) : List κ → List α → Except ε Unit
  | _, [] => .ok ()
  | seen, value :: rest => do
      before value
      if key value ∈ seen then .error (duplicate value)
      else do
        after value
        eachUnique before after key duplicate (key value :: seen) rest

theorem eachUnique_eq_ok [DecidableEq κ] {before after : α → Except ε Unit} {key : α → κ}
    {duplicate : α → ε} {seen : List κ} {values : List α} :
    eachUnique before after key duplicate seen values = .ok () ↔
      (∀ value ∈ values, before value = .ok () ∧ after value = .ok ()) ∧
        (∀ value ∈ values, key value ∉ seen) ∧ (values.map key).Nodup := by
  induction values generalizing seen with
  | nil => simp [eachUnique]
  | cons value values ih =>
      rw [eachUnique, Except.andThen_eq_ok, List.forall_mem_cons, List.forall_mem_cons, List.map_cons,
        List.nodup_cons]
      constructor
      · rintro ⟨_, first, rest⟩
        split at rest
        · cases rest
        · next fresh =>
            obtain ⟨_, second, others⟩ := Except.andThen_eq_ok.mp rest
            obtain ⟨checked, unseen, distinct⟩ := ih.mp others
            refine ⟨⟨⟨first, second⟩, checked⟩, ⟨fresh, fun other member => ?_⟩, ?_, distinct⟩
            · exact fun old => unseen other member (List.mem_cons_of_mem _ old)
            · intro repeated
              obtain ⟨other, member, same⟩ := List.mem_map.mp repeated
              exact unseen other member (same ▸ List.mem_cons_self)
      · rintro ⟨⟨⟨first, second⟩, checked⟩, ⟨fresh, unseen⟩, once, distinct⟩
        refine ⟨(), first, ?_⟩
        rw [if_neg fresh, Except.andThen_eq_ok]
        refine ⟨(), second, ih.mpr ⟨checked, fun other member => ?_, distinct⟩⟩
        rw [List.mem_cons, not_or]
        refine ⟨fun same => once ?_, unseen other member⟩
        exact same ▸ List.mem_map_of_mem member

/-- The values whose key none before them has. -/
def firsts [DecidableEq κ] (key : α → κ) : List α → List α
  | [] => []
  | value :: values => value :: (firsts key values).filter fun other => key other ≠ key value

/-- A loop that passes over a key it has seen before. -/
def unseen [DecidableEq κ] (key : α → κ) : List κ → List α → List α
  | _, [] => []
  | seen, value :: values =>
      if key value ∈ seen then unseen key seen values
      else value :: unseen key (key value :: seen) values

theorem unseen_eq_firsts [DecidableEq κ] {key : α → κ} (seen : List κ) (values : List α) :
    unseen key seen values = (firsts key values).filter fun value => key value ∉ seen := by
  induction values generalizing seen with
  | nil => rfl
  | cons value values ih =>
      rw [unseen, firsts]
      split
      · next old =>
          rw [ih, List.filter_cons_of_neg (by simpa using old), List.filter_filter]
          refine List.filter_congr fun other _ => ?_
          have apart : key other ∉ seen → key other ≠ key value :=
            fun fresh same => fresh (same ▸ old)
          by_cases fresh : key other ∈ seen
          · simp [fresh]
          · simp [fresh, apart fresh]
      · next fresh =>
          rw [ih, List.filter_cons_of_pos (by simpa using fresh), List.filter_filter]
          refine congrArg (value :: ·) (List.filter_congr fun other _ => ?_)
          simp [List.mem_cons, Bool.and_comm]

theorem unseen_nil [DecidableEq κ] (key : α → κ) (values : List α) :
    unseen key [] values = firsts key values := by
  rw [unseen_eq_firsts]
  exact List.filter_eq_self.mpr fun value _ => by simp

/-- `step` adds `cost` to a running total and refuses to pass `limit`. -/
def Adds (limit : Nat) (step : Nat → Except ε Nat) (cost : Nat) : Prop :=
  ∀ used ≤ limit, ∀ total, step used = .ok total ↔ total = used + cost ∧ total ≤ limit

theorem Adds.andThen {limit first second : Nat} {step step' : Nat → Except ε Nat}
    (adds : Adds limit step first) (adds' : Adds limit step' second) :
    Adds limit (fun used => step used >>= step') (first + second) := by
  intro used within total
  rw [Except.andThen_eq_ok]
  constructor
  · rintro ⟨middle, counted, rest⟩
    obtain ⟨rfl, bounded⟩ := (adds used within middle).mp counted
    obtain ⟨rfl, most⟩ := (adds' _ bounded total).mp rest
    exact ⟨by omega, most⟩
  · rintro ⟨rfl, most⟩
    have bounded : used + first ≤ limit := by omega
    exact ⟨used + first, (adds used within _).mpr ⟨rfl, bounded⟩,
      (adds' _ bounded _).mpr ⟨by omega, most⟩⟩

theorem Adds.foldlM {limit : Nat} {step : Nat → α → Except ε Nat} {cost : α → Nat}
    (adds : ∀ value, Adds limit (fun used => step used value) (cost value)) (values : List α) :
    Adds limit (fun used => values.foldlM step used) (values.map cost).sum := by
  induction values with
  | nil =>
      intro used within total
      change Except.ok used = .ok total ↔ _
      simp only [Except.ok.injEq, List.map_nil, List.sum_nil, Nat.add_zero]
      constructor
      · rintro rfl
        exact ⟨rfl, within⟩
      · rintro ⟨rfl, -⟩
        rfl
  | cons value values ih => exact (adds value).andThen ih

section Ordered

variable [LinearOrder κ]

/-- Whether some window of two does not ascend. -/
def outOfOrder : List κ → Bool
  | first :: second :: rest => first ≥ second || outOfOrder (second :: rest)
  | _ => false

theorem outOfOrder_eq_false {keys : List κ} : outOfOrder keys = false ↔ keys.Pairwise (· < ·) := by
  rw [← List.isChain_iff_pairwise]
  induction keys with
  | nil => simp [outOfOrder]
  | cons first rest ih =>
      cases rest with
      | nil => simp [outOfOrder]
      | cons second rest => simp [outOfOrder, ih]

/-- `sort_by_key`. -/
def sortByKey (key : α → κ) (values : List α) : List α :=
  values.insertionSort fun first second => key first ≤ key second

theorem sortByKey_perm (key : α → κ) (values : List α) : (sortByKey key values).Perm values :=
  List.perm_insertionSort _ values

theorem sortByKey_ascending (key : α → κ) (values : List α) :
    (sortByKey key values).Pairwise fun first second => key first ≤ key second := by
  have total : Std.Total fun first second : α => key first ≤ key second :=
    ⟨fun first second => le_total (key first) (key second)⟩
  have transitive : IsTrans α fun first second => key first ≤ key second :=
    ⟨fun _ _ _ => le_trans⟩
  exact List.pairwise_insertionSort _ values

theorem sortByKey_sorted {key : α → κ} {values : List α} (distinct : (values.map key).Nodup) :
    ((sortByKey key values).map key).Pairwise (· < ·) := by
  have ascending : ((sortByKey key values).map key).Pairwise (· ≤ ·) :=
    List.pairwise_map.mpr (sortByKey_ascending key values)
  have nodup : ((sortByKey key values).map key).Nodup :=
    ((sortByKey_perm key values).map key).nodup_iff.mpr distinct
  exact (ascending.and nodup).imp fun both => lt_of_le_of_ne both.1 both.2

/-- Values already in ascending order stay as they are. -/
theorem sortByKey_of_sorted {key : α → κ} {values : List α}
    (sorted : (values.map key).Pairwise (· < ·)) : sortByKey key values = values :=
  List.Pairwise.insertionSort_eq ((List.pairwise_map.mp sorted).imp le_of_lt)

end Ordered

end Onelf.Lib
