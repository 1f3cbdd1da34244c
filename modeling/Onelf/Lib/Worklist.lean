import Mathlib.Algebra.GroupWithZero.Nat
import Mathlib.Algebra.Order.BigOperators.Group.List
import Mathlib.Algebra.Order.Ring.Nat

/-! A worklist walk: every value reachable from a queue through a successor function. -/

namespace Onelf.Lib

section Worklist

variable {α : Type} [DecidableEq α]

/-- Values popped, marked and followed until the queue is empty; `fuel` bounds the pops. -/
def walk (needs : α → List α) : Nat → List α → List α → List α
  | 0, seen, _ => seen
  | _ + 1, seen, [] => seen
  | fuel + 1, seen, value :: queue =>
      if value ∈ seen then walk needs fuel seen queue
      else walk needs fuel (value :: seen)
        (queue ++ (needs value).filter fun next => next ∉ value :: seen)

/-- The pops a walk can still make: what is queued and what unmarked values may queue. -/
def pending (needs : α → List α) (domain seen queue : List α) : Nat :=
  queue.length + ((domain.filter fun value => value ∉ seen).map fun value =>
    (needs value).length).sum

theorem pending_skip {needs : α → List α} {domain seen queue : List α} {value : α} {fuel : Nat}
    (enough : pending needs domain seen (value :: queue) ≤ fuel + 1) :
    pending needs domain seen queue ≤ fuel := by
  rw [pending, List.length_cons] at enough
  rw [pending]
  omega

theorem sum_filter_mark (weight : α → Nat) {domain seen : List α} {value : α}
    (fresh : value ∉ seen) (covered : value ∈ domain ∨ weight value = 0) :
    ((domain.filter fun other => other ∉ value :: seen).map weight).sum + weight value ≤
      ((domain.filter fun other => other ∉ seen).map weight).sum := by
  have fewer (domain : List α) :
      ((domain.filter fun other => other ∉ value :: seen).map weight).sum ≤
        ((domain.filter fun other => other ∉ seen).map weight).sum := by
    have sub : (domain.filter fun other => other ∉ value :: seen).Sublist
        (domain.filter fun other => other ∉ seen) := by
      apply List.monotone_filter_right
      intro other unmarked
      simp only [decide_eq_true_eq, List.mem_cons, not_or] at unmarked ⊢
      exact unmarked.2
    exact (sub.map weight).sum_le_sum fun _ _ => Nat.zero_le _
  rcases covered with member | weightless
  · induction domain with
    | nil => cases member
    | cons first domain ih =>
        rcases List.mem_cons.mp member with same | later
        · have rest := fewer domain
          rw [← same, List.filter_cons_of_neg (by simp), List.filter_cons_of_pos (by simp [fresh]),
            List.map_cons, List.sum_cons]
          omega
        · have rest := ih later
          by_cases again : first = value
          · rw [again, List.filter_cons_of_neg (by simp),
              List.filter_cons_of_pos (by simp [fresh]), List.map_cons, List.sum_cons]
            omega
          · by_cases marked : first ∈ seen
            · rw [List.filter_cons_of_neg (by simp [marked]),
                List.filter_cons_of_neg (by simp [marked])]
              exact rest
            · rw [List.filter_cons_of_pos (by simp [marked, again]),
                List.filter_cons_of_pos (by simp [marked]), List.map_cons, List.map_cons,
                List.sum_cons, List.sum_cons]
              omega
  · rw [weightless]
    exact fewer domain

theorem pending_mark {needs : α → List α} {domain seen queue : List α} {value : α} {fuel : Nat}
    (fresh : value ∉ seen) (covered : value ∈ domain ∨ needs value = [])
    (enough : pending needs domain seen (value :: queue) ≤ fuel + 1) :
    pending needs domain (value :: seen)
      (queue ++ (needs value).filter fun next => next ∉ value :: seen) ≤ fuel := by
  have paid := sum_filter_mark (fun value => (needs value).length) fresh
    (covered.imp_right fun empty => by rw [empty]; rfl)
  have queued : ((needs value).filter fun next => next ∉ value :: seen).length ≤
      (needs value).length := List.length_filter_le _ _
  rw [pending, List.length_cons] at enough
  rw [pending, List.length_append]
  omega

theorem mem_walk_of_seen {needs : α → List α} (fuel : Nat) {seen : List α} (queue : List α)
    {value : α} (marked : value ∈ seen) : value ∈ walk needs fuel seen queue := by
  induction fuel generalizing seen queue with
  | zero => exact marked
  | succ fuel ih =>
      cases queue with
      | nil => exact marked
      | cons first queue =>
          rw [walk]
          split
          · exact ih queue marked
          · exact ih _ (List.mem_cons_of_mem first marked)

/-- With that much fuel the walk keeps what it has marked and queued, and what it marks it
follows. -/
theorem walk_closed {needs : α → List α} {domain : List α}
    (covered : ∀ value, value ∈ domain ∨ needs value = []) (fuel : Nat) (seen queue : List α)
    (followed : ∀ value ∈ seen, ∀ next ∈ needs value, next ∈ seen ∨ next ∈ queue)
    (enough : pending needs domain seen queue ≤ fuel) :
    (∀ value, value ∈ seen ∨ value ∈ queue → value ∈ walk needs fuel seen queue) ∧
      ∀ value ∈ walk needs fuel seen queue, ∀ next ∈ needs value,
        next ∈ walk needs fuel seen queue := by
  induction fuel generalizing seen queue with
  | zero =>
      have empty : queue = [] := by
        rw [pending] at enough
        exact List.length_eq_zero_iff.mp (by omega)
      rw [empty] at followed ⊢
      simp only [List.not_mem_nil, or_false] at followed ⊢
      exact ⟨fun value member => member, followed⟩
  | succ fuel ih =>
      cases queue with
      | nil =>
          simp only [List.not_mem_nil, or_false] at followed ⊢
          exact ⟨fun value member => member, followed⟩
      | cons value queue =>
          rw [walk]
          by_cases marked : value ∈ seen
          · rw [if_pos marked]
            have tail := ih seen queue (by
              intro other member next need
              rcases followed other member next need with inSeen | inQueue
              · exact Or.inl inSeen
              · rcases List.mem_cons.mp inQueue with same | later
                · exact Or.inl (by rw [same]; exact marked)
                · exact Or.inr later) (pending_skip enough)
            refine ⟨?_, tail.2⟩
            intro other member
            rcases member with inSeen | inQueue
            · exact tail.1 other (Or.inl inSeen)
            · rcases List.mem_cons.mp inQueue with same | later
              · exact tail.1 other (Or.inl (by rw [same]; exact marked))
              · exact tail.1 other (Or.inr later)
          · rw [if_neg marked]
            have tail := ih (value :: seen) _ (by
              intro other member next need
              rw [List.mem_append, List.mem_filter, decide_eq_true_eq]
              by_cases known : next ∈ value :: seen
              · exact Or.inl known
              · right
                rcases List.mem_cons.mp member with same | earlier
                · rw [same] at need
                  exact Or.inr ⟨need, known⟩
                · rcases followed other earlier next need with inSeen | inQueue
                  · exact absurd (List.mem_cons_of_mem _ inSeen) known
                  · rcases List.mem_cons.mp inQueue with same | later
                    · exact absurd (by rw [same]; exact List.mem_cons_self) known
                    · exact Or.inl later) (pending_mark marked (covered value) enough)
            refine ⟨?_, tail.2⟩
            intro other member
            rcases member with inSeen | inQueue
            · exact tail.1 other (Or.inl (List.mem_cons_of_mem _ inSeen))
            · rcases List.mem_cons.mp inQueue with same | later
              · exact tail.1 other (Or.inl (by rw [same]; exact List.mem_cons_self))
              · exact tail.1 other (Or.inr (List.mem_append_left _ later))

/-- A walk marks nothing outside a set that holds the queue and is closed under `needs`. -/
theorem walk_sound {needs : α → List α} {reached : α → Prop}
    (closed : ∀ value, reached value → ∀ next ∈ needs value, reached next) (fuel : Nat)
    (seen queue : List α) (start : ∀ value, value ∈ seen ∨ value ∈ queue → reached value) :
    ∀ value ∈ walk needs fuel seen queue, reached value := by
  induction fuel generalizing seen queue with
  | zero => exact fun value member => start value (Or.inl member)
  | succ fuel ih =>
      cases queue with
      | nil => exact fun value member => start value (Or.inl member)
      | cons value queue =>
          rw [walk]
          have here : reached value := start value (Or.inr List.mem_cons_self)
          split
          · apply ih seen queue
            intro other member
            exact start other (member.imp_right (List.mem_cons_of_mem _))
          · apply ih
            intro other member
            rcases member with inSeen | inQueue
            · rcases List.mem_cons.mp inSeen with same | earlier
              · rw [same]
                exact here
              · exact start other (Or.inl earlier)
            · rcases List.mem_append.mp inQueue with queued | need
              · exact start other (Or.inr (List.mem_cons_of_mem _ queued))
              · exact closed value here other (List.mem_filter.mp need).1

end Worklist

end Onelf.Lib
