import Mathlib.Data.List.FinRange
import Mathlib.Data.List.Sort
import Mathlib.Order.Extension.Linear
import Mathlib.Logic.Relation

/-! Parties holding copies under names, compared with the first party's first copy alone. -/

namespace Onelf.Lib

/-! ### Orders along a relation -/

section Order

variable {ι : Type} {before : ι → ι → Prop}

/-- What has no cycle can be put in an order that goes against none of its pairs. -/
theorem exists_order_of_acyclic (acyclic : ∀ i, ¬ Relation.TransGen before i i)
    (values : List ι) :
    ∃ order : List ι, order.Perm values ∧ order.Pairwise fun i j => ¬ before j i := by
  classical
  have antisymm : ∀ i j, Relation.ReflTransGen before i j → Relation.ReflTransGen before j i →
      i = j := by
    intro i j forth back
    rcases Relation.reflTransGen_iff_eq_or_transGen.mp forth with same | forth
    · exact same.symm
    · exact absurd (forth.trans_left back) (acyclic i)
  have ordered : IsPartialOrder ι (Relation.ReflTransGen before) :=
    { refl := fun _ => Relation.ReflTransGen.refl
      trans := fun _ _ _ => Relation.ReflTransGen.trans
      antisymm := antisymm }
  rcases extend_partialOrder (Relation.ReflTransGen before) with ⟨below, linear, extends_⟩
  refine ⟨values.insertionSort below, List.perm_insertionSort below values, ?_⟩
  apply (List.pairwise_insertionSort below values).imp
  intro i j forth reversed
  have back : below j i := extends_ j i (Relation.ReflTransGen.single reversed)
  have same : i = j := linear.antisymm i j forth back
  exact acyclic i (Relation.TransGen.single (same ▸ reversed))

end Order

/-! ### Copies compared with the first one -/

section Copies

variable {ι κ γ : Type} (copies : ι → κ → List γ) (same : γ → γ → Prop)

/-- The first copy of the first party that has one is the same as every copy after that party. -/
def AgreedOn (name : κ) : List ι → Prop
  | [] => True
  | i :: order =>
      match copies i name with
      | [] => AgreedOn name order
      | first :: _ => ∀ j ∈ order, ∀ copy ∈ copies j name, same first copy

def Agreed (order : List ι) : Prop := ∀ name, AgreedOn copies same name order

/-- A party whose first copy under a name is the same as every copy of the others. -/
def Leads (name : κ) (i : ι) : Prop :=
  ∃ first, (copies i name).head? = some first ∧ ∀ j, j ≠ i → ∀ copy ∈ copies j name, same first copy

/-- A party that leads under a name has to come before one that has copies and does not. -/
def Precedes (i j : ι) : Prop :=
  ∃ name, Leads copies same name i ∧ copies j name ≠ [] ∧ ¬ Leads copies same name j

/-- No two parties differ in a copy under one name. -/
def Unanimous : Prop :=
  ∀ i j, i ≠ j → ∀ name, ∀ copy ∈ copies i name, ∀ other ∈ copies j name, same copy other

variable {copies same}

theorem agreedOn_cons_of_nil {name : κ} {i : ι} {order : List ι} (none : copies i name = []) :
    AgreedOn copies same name (i :: order) ↔ AgreedOn copies same name order := by
  rw [AgreedOn, none]

theorem agreedOn_cons_of_cons {name : κ} {i : ι} {order : List ι} {first : γ} {rest : List γ}
    (some : copies i name = first :: rest) : AgreedOn copies same name (i :: order) ↔
      ∀ j ∈ order, ∀ copy ∈ copies j name, same first copy := by
  rw [AgreedOn, some]

/-- Parties seen through a map agree where what they are mapped to does. -/
theorem agreed_map {ι' : Type} (view : ι' → ι) (order : List ι') :
    Agreed copies same (order.map view) ↔
      Agreed (fun i name => copies (view i) name) same order := by
  apply forall_congr'
  intro name
  induction order with
  | nil => rfl
  | cons i order ih =>
      rw [List.map_cons, AgreedOn, AgreedOn]
      cases copies (view i) name with
      | nil => exact ih
      | cons first rest => exact List.forall_mem_map

/-- Where an order is agreed on a name, a party with copies comes first and leads. -/
theorem first_of_agreedOn {name : κ} {order : List ι} [DecidableEq ι] (distinct : order.Nodup)
    (agreed : AgreedOn copies same name order) {i : ι} (member : i ∈ order)
    (held : copies i name ≠ []) :
    ∃ k ∈ order, ∃ first, (copies k name).head? = some first ∧
      (∀ j ∈ order, j ≠ k → ∀ copy ∈ copies j name, same first copy) ∧
      ∀ j ∈ order, copies j name ≠ [] → j ≠ k → order.idxOf k < order.idxOf j := by
  induction order with
  | nil => cases member
  | cons head order ih =>
      rw [List.nodup_cons] at distinct
      cases here : copies head name with
      | nil =>
          rw [agreedOn_cons_of_nil here] at agreed
          have later : i ∈ order := by
            rcases List.mem_cons.mp member with same | later
            · exact absurd (same ▸ here) held
            · exact later
          rcases ih distinct.2 agreed later with ⟨k, inside, first, leads, others, earlier⟩
          have apart : head ≠ k := fun same => distinct.1 (same ▸ inside)
          refine ⟨k, List.mem_cons_of_mem _ inside, first, leads, ?_, ?_⟩
          · intro j member other copy copied
            rcases List.mem_cons.mp member with same | later
            · rw [same, here] at copied
              cases copied
            · exact others j later other copy copied
          · intro j member holds other
            have elsewhere : head ≠ j := fun same => holds (same ▸ here)
            rw [List.idxOf_cons_ne _ apart, List.idxOf_cons_ne _ elsewhere]
            apply Nat.succ_lt_succ
            apply earlier j _ holds other
            exact (List.mem_cons.mp member).resolve_left (Ne.symm elsewhere)
      | cons first rest =>
          rw [agreedOn_cons_of_cons here] at agreed
          refine ⟨head, List.mem_cons_self, first, by rw [here]; rfl, ?_, ?_⟩
          · intro j member other
            exact agreed j ((List.mem_cons.mp member).resolve_left other)
          · intro j _ _ other
            rw [List.idxOf_cons_self, List.idxOf_cons_ne _ (Ne.symm other)]
            exact Nat.succ_pos _

theorem Leads.has_copies {name : κ} {i : ι} (leads : Leads copies same name i) :
    copies i name ≠ [] := by
  rcases leads with ⟨first, held, _⟩
  intro none
  rw [none] at held
  cases held

variable (symm : ∀ copy other, same copy other → same other copy)
  (trans : ∀ copy other third, same copy other → same other third → same copy third)

include symm trans in
/-- Under a name two parties lead, every party with copies does. -/
theorem leads_of_two {name : κ} {i k j : ι} (first : Leads copies same name i)
    (second : Leads copies same name k) (apart : i ≠ k) (held : copies j name ≠ []) :
    Leads copies same name j := by
  rcases first with ⟨a, aHead, aLeads⟩
  rcases second with ⟨b, bHead, bLeads⟩
  have ab : same a b := aLeads k (Ne.symm apart) b (List.mem_of_head? bHead)
  have all : ∀ l, ∀ copy ∈ copies l name, same a copy := by
    intro l copy copied
    by_cases here : l = i
    · exact trans a b copy ab (bLeads l (here ▸ apart) copy copied)
    · exact aLeads l here copy copied
  rcases List.exists_cons_of_ne_nil held with ⟨c, rest, some⟩
  refine ⟨c, by rw [some]; rfl, ?_⟩
  intro l _ copy copied
  have ac : same a c := all j c (by rw [some]; exact List.mem_cons_self)
  exact trans c a copy (symm a c ac) (all l copy copied)

/-- An order that puts no party before one that precedes it is agreed under a name some party
leads. -/
theorem agreedOn_of_pairwise {name : κ} {order : List ι} (distinct : order.Nodup)
    (along : order.Pairwise fun i j => ¬ Precedes copies same j i)
    (led : ∀ j ∈ order, copies j name ≠ [] → ∃ i ∈ order, Leads copies same name i) :
    AgreedOn copies same name order := by
  induction order with
  | nil => trivial
  | cons head order ih =>
      rw [List.nodup_cons] at distinct
      rw [List.pairwise_cons] at along
      cases here : copies head name with
      | nil =>
          rw [agreedOn_cons_of_nil here]
          apply ih distinct.2 along.2
          intro j member held
          rcases led j (List.mem_cons_of_mem _ member) held with ⟨i, inside, leads⟩
          rcases List.mem_cons.mp inside with same | later
          · exact absurd (same ▸ here) leads.has_copies
          · exact ⟨i, later, leads⟩
      | cons first rest =>
          rw [agreedOn_cons_of_cons here]
          have held : copies head name ≠ [] := by simp [here]
          have leads : Leads copies same name head := by
            rcases led head List.mem_cons_self held with ⟨i, inside, leads⟩
            rcases List.mem_cons.mp inside with same | later
            · exact same ▸ leads
            · by_contra behind
              exact along.1 i later ⟨name, leads, held, behind⟩
          rcases leads with ⟨copy, begins, others⟩
          rw [here, List.head?_cons, Option.some.injEq] at begins
          intro j member
          rw [begins]
          exact others j fun same => distinct.1 (same ▸ member)

variable {all : List ι} (complete : ∀ i, i ∈ all) (distinct : all.Nodup)

include symm trans complete distinct in
/-- Some order is agreed exactly where every name has a party that leads it and the parties need
not come before one another in a circle. -/
theorem exists_agreed_iff : (∃ order : List ι, order.Perm all ∧ Agreed copies same order) ↔
    (∀ name j, copies j name ≠ [] → ∃ i, Leads copies same name i) ∧
      ∀ i, ¬ Relation.TransGen (Precedes copies same) i i := by
  classical
  constructor
  · rintro ⟨order, perm, agreed⟩
    have every (i : ι) : i ∈ order := perm.mem_iff.mpr (complete i)
    have once : order.Nodup := perm.nodup_iff.mpr distinct
    have earliest (name : κ) (j : ι) (held : copies j name ≠ []) : ∃ k,
        Leads copies same name k ∧ (j ≠ k → order.idxOf k < order.idxOf j) := by
      rcases first_of_agreedOn once (agreed name) (every j) held with
        ⟨k, _, first, begins, others, earlier⟩
      exact ⟨k, ⟨first, begins, fun l => others l (every l)⟩, earlier j (every j) held⟩
    constructor
    · intro name j held
      rcases earliest name j held with ⟨k, leads, _⟩
      exact ⟨k, leads⟩
    · have forward (i j : ι) (precedes : Precedes copies same i j) :
          order.idxOf i < order.idxOf j := by
        rcases precedes with ⟨name, leads, held, behind⟩
        rcases earliest name j held with ⟨k, first, earlier⟩
        by_cases here : i = k
        · rw [here]
          apply earlier
          intro same
          exact behind (same ▸ first)
        · exact absurd (leads_of_two symm trans leads first here held) behind
      intro i cycle
      have further (j : ι) (path : Relation.TransGen (Precedes copies same) i j) :
          order.idxOf i < order.idxOf j := by
        induction path with
        | single step => exact forward _ _ step
        | tail _ step ih => exact lt_trans ih (forward _ _ step)
      exact lt_irrefl _ (further i cycle)
  · rintro ⟨led, acyclic⟩
    rcases exists_order_of_acyclic acyclic all with ⟨order, perm, along⟩
    refine ⟨order, perm, fun name => ?_⟩
    apply agreedOn_of_pairwise (perm.nodup_iff.mpr distinct) along
    intro j _ held
    rcases led name j held with ⟨i, leads⟩
    exact ⟨i, perm.mem_iff.mpr (complete i), leads⟩

/-- Parties that differ in nothing are agreed in every order. -/
theorem Unanimous.agreed (unanimous : Unanimous copies same) {order : List ι}
    (once : order.Nodup) : Agreed copies same order := by
  intro name
  induction order with
  | nil => trivial
  | cons head order ih =>
      rw [List.nodup_cons] at once
      cases here : copies head name with
      | nil =>
          rw [agreedOn_cons_of_nil here]
          exact ih once.2
      | cons first rest =>
          rw [agreedOn_cons_of_cons here]
          intro j member
          apply unanimous head j (fun same => once.1 (same ▸ member)) name
          rw [here]
          exact List.mem_cons_self

include symm trans complete in
/-- Parties agreed in every order differ in nothing: each of them comes first in some order. -/
theorem unanimous_of_agreed (agreed : ∀ order : List ι, order.Perm all → Agreed copies same order) :
    Unanimous copies same := by
  classical
  have heads (i : ι) (name : κ) (first : γ) (begins : (copies i name).head? = some first) (j : ι)
      (apart : i ≠ j) : ∀ copy ∈ copies j name, same first copy := by
    have order := agreed (i :: all.erase i) (List.perm_cons_erase (complete i)).symm name
    rcases List.head?_eq_some_iff.mp begins with ⟨rest, held⟩
    rw [agreedOn_cons_of_cons held] at order
    apply order j
    exact (List.mem_erase_of_ne (Ne.symm apart)).mpr (complete j)
  intro i j apart name copy copied other also
  rcases List.exists_cons_of_ne_nil (List.ne_nil_of_mem copied) with ⟨a, _, aHeld⟩
  rcases List.exists_cons_of_ne_nil (List.ne_nil_of_mem also) with ⟨b, _, bHeld⟩
  have aHead : (copies i name).head? = some a := by rw [aHeld]; rfl
  have bHead : (copies j name).head? = some b := by rw [bHeld]; rfl
  have bCopy : same b copy := heads j name b bHead i (Ne.symm apart) copy copied
  have aOther : same a other := heads i name a aHead j apart other also
  have ab : same a b := heads i name a aHead j apart b (List.mem_of_head? bHead)
  exact trans copy b other (symm b copy bCopy) (trans b a other (symm a b ab) aOther)

include symm trans complete distinct in
/-- The order makes no difference exactly where the parties differ in nothing or no order of them
is agreed: some name has no party that leads it, or they would have to come before one another in
a circle. -/
theorem agreed_perm_iff : (∀ order : List ι, order.Perm all →
      (Agreed copies same order ↔ Agreed copies same all)) ↔
    Unanimous copies same ∨ (∃ name, (∃ j, copies j name ≠ []) ∧
      ∀ i, ¬ Leads copies same name i) ∨ ∃ i, Relation.TransGen (Precedes copies same) i i := by
  have some : (∃ order : List ι, order.Perm all ∧ Agreed copies same order) ↔ _ :=
    exists_agreed_iff symm trans complete distinct
  constructor
  · intro steady
    by_cases here : Agreed copies same all
    · left
      apply unanimous_of_agreed symm trans complete
      intro order perm
      exact (steady order perm).mpr here
    · right
      by_contra neither
      rw [not_or] at neither
      rcases neither with ⟨led, acyclic⟩
      have leaders : ∀ name j, copies j name ≠ [] → ∃ i, Leads copies same name i := by
        intro name j held
        by_contra none
        exact led ⟨name, ⟨j, held⟩, not_exists.mp none⟩
      rcases some.mpr ⟨leaders, not_exists.mp acyclic⟩ with ⟨order, perm, agreed⟩
      exact here ((steady order perm).mp agreed)
  · intro condition order perm
    rcases condition with unanimous | stuck
    · have first := unanimous.agreed (perm.nodup_iff.mpr distinct)
      exact iff_of_true first (unanimous.agreed distinct)
    · have never (order : List ι) (perm : order.Perm all) : ¬ Agreed copies same order := by
        intro agreed
        rcases some.mp ⟨order, perm, agreed⟩ with ⟨led, acyclic⟩
        rcases stuck with ⟨name, ⟨j, held⟩, none⟩ | ⟨i, cycle⟩
        · rcases led name j held with ⟨i, leads⟩
          exact none i leads
        · exact acyclic i cycle
      exact iff_of_false (never order perm) (never all (List.Perm.refl all))

end Copies

end Onelf.Lib
