import Mathlib.Data.List.Infix
import Mathlib.Data.List.Perm.Basic

/-! Claims of files, directories and links on places of one tree, taken one after another into a
table: when the order in which they are taken does not matter, and what the table then holds. -/

namespace Onelf.Lib.Claims

open Classical

inductive Kind where
  | file
  | dir
  | link
  deriving DecidableEq

abbrev Content (η : Type) : Type := Kind × η

/-- What a claim comes to on a place that nothing has claimed yet. -/
inductive Verdict where
  | allowed
  | denied
  | unknown
  deriving DecidableEq

/-- A claim on a place. A checked one is a file or a link that has to lie apart from what is claimed
above and below it; any other is a copied file or directory. -/
structure Claim (κ η : Type) where
  place : List κ
  content : Content η
  checked : Bool
  barred : Bool
  verdict : Verdict
  plain : checked = true → content.1 ≠ .dir
  copied : checked = false → content.1 ≠ .link
  sure : checked = true → verdict = .allowed

variable {κ η : Type}

abbrev Table (κ η : Type) : Type := List κ → Option (Content η)

noncomputable def enter (table : Table κ η) (place : List κ) (content : Content η) : Table κ η :=
  fun other => if other = place then some content else table other

theorem enter_self {table : Table κ η} {place : List κ} {content : Content η} :
    enter table place content place = some content := if_pos rfl

theorem enter_of_ne {table : Table κ η} {place other : List κ} {content : Content η}
    (differ : other ≠ place) : enter table place content other = table other := if_neg differ

def Above (place other : List κ) : Prop := place <+: other ∧ place ≠ other

/-- Whether a file or link is claimed above a place, or anything below it. -/
def Nested (table : Table κ η) (place : List κ) : Prop :=
  (∃ other held, Above other place ∧ table other = some held ∧ held.1 ≠ .dir) ∨
    ∃ other, Above place other ∧ table other ≠ none

/-- A link gives way to a file, whichever comes first. -/
def Yields (claim : Claim κ η) (held : Content η) : Prop :=
  claim.checked = true ∧ claim.content.1 = .link ∧ held.1 = .file

/-- The table once a claim has been taken into it, unless there is a conflict. -/
noncomputable def take (table : Table κ η) (claim : Claim κ η) : Option (Table κ η) :=
  if claim.barred then none
  else
    match table claim.place with
    | some held =>
        if claim.content = held ∨ Yields claim held then some table
        else if claim.checked = true ∧ claim.content.1 = .file ∧ held.1 = .link then
          some (enter table claim.place claim.content)
        else none
    | none =>
        match claim.verdict with
        | .denied => none
        | .unknown => some table
        | .allowed =>
            if claim.checked = true ∧ Nested table claim.place then none
            else some (enter table claim.place claim.content)

noncomputable def takeAll (table : Table κ η) (claims : List (Claim κ η)) : Option (Table κ η) :=
  claims.foldlM take table

def vacant : Table κ η := fun _ => none

/-! ### One claim -/

/-- What taking a claim can do. -/
inductive Takes (table : Table κ η) (claim : Claim κ η) : Table κ η → Prop
  | kept {held : Content η} : table claim.place = some held →
      claim.content = held ∨ Yields claim held → Takes table claim table
  | replaced {held : Content η} : table claim.place = some held → claim.checked = true →
      claim.content.1 = .file → held.1 = .link →
        Takes table claim (enter table claim.place claim.content)
  | passed : table claim.place = none → claim.verdict = .unknown → Takes table claim table
  | entered : table claim.place = none → claim.verdict = .allowed →
      (claim.checked = true → ¬Nested table claim.place) →
        Takes table claim (enter table claim.place claim.content)

theorem take_eq_some_iff {table next : Table κ η} {claim : Claim κ η} :
    take table claim = some next ↔ claim.barred = false ∧ Takes table claim next := by
  constructor
  · intro taken
    rw [take] at taken
    split at taken
    · cases taken
    · next free =>
        refine ⟨Bool.eq_false_iff.mpr free, ?_⟩
        split at taken
        · next held there =>
            split at taken
            · next fits =>
                cases Option.some.inj taken
                exact Takes.kept there fits
            · split at taken
              · next gives =>
                  rw [← Option.some.inj taken]
                  exact Takes.replaced there gives.1 gives.2.1 gives.2.2
              · cases taken
        · next absent =>
            split at taken
            · cases taken
            · next unknown =>
                cases Option.some.inj taken
                exact Takes.passed absent unknown
            · next allowed =>
                split at taken
                · cases taken
                · next apart =>
                    have same := Option.some.inj taken
                    have step := Takes.entered absent allowed (not_and.mp apart)
                    rw [← same]
                    convert step
  · rintro ⟨free, step⟩
    rw [take, if_neg (by rw [free]; exact Bool.false_ne_true)]
    cases step with
    | @kept held there fits =>
        rw [there]
        exact if_pos fits
    | @replaced held there checked file link =>
        have differs : ¬(claim.content = held ∨ Yields claim held) := by
          rintro (same | ⟨-, other, -⟩)
          · rw [← same, file] at link
            cases link
          · rw [file] at other
            cases other
        rw [there]
        dsimp only
        rw [if_neg differs, if_pos ⟨checked, file, link⟩]
    | passed absent unknown => rw [absent, unknown]
    | entered absent allowed apart =>
        rw [absent, allowed]
        exact if_neg (not_and.mpr apart)

/-! ### What a run without conflicts leaves -/

/-- A place claimed by an allowed copy. -/
def Free (claims : List (Claim κ η)) (place : List κ) : Prop :=
  ∃ claim ∈ claims, claim.place = place ∧ claim.checked = false ∧ claim.verdict = .allowed

/-- A claim that what a place holds is enough for. -/
def Fits (held : Content η) (claim : Claim κ η) : Prop :=
  claim.verdict = .unknown ∨ claim.content = held ∨ Yields claim held

/-- A table into which claims have been taken. -/
structure Holds (table : Table κ η) (claims : List (Claim κ η)) : Prop where
  unbarred : ∀ claim ∈ claims, claim.barred = false
  missing : ∀ claim ∈ claims, table claim.place = none → claim.verdict = .unknown
  fits : ∀ claim ∈ claims, ∀ held, table claim.place = some held → Fits held claim
  given : ∀ place held, table place = some held → ∃ claim ∈ claims,
    claim.place = place ∧ claim.verdict = .allowed ∧ claim.content = held
  apart : ∀ place other, Above place other → table place ≠ none → table other ≠ none →
    Free claims place ∨ Free claims other

theorem Free.mono {claims others : List (Claim κ η)} (sub : claims ⊆ others) {place : List κ}
    (free : Free claims place) : Free others place := by
  obtain ⟨claim, member, rest⟩ := free
  exact ⟨claim, sub member, rest⟩

theorem holds_vacant : Holds (vacant : Table κ η) [] where
  unbarred claim member := absurd member List.not_mem_nil
  missing claim member := absurd member List.not_mem_nil
  fits claim member := absurd member List.not_mem_nil
  given place held there := by cases there
  apart place other _ there := absurd rfl there

section
variable {table next : Table κ η} {claims : List (Claim κ η)} {claim : Claim κ η}

/-- A claim that fits what is there changes nothing. -/
theorem Holds.kept (holds : Holds table claims) (free : claim.barred = false)
    (missing : table claim.place = none → claim.verdict = .unknown)
    (fits : ∀ held, table claim.place = some held → Fits held claim) :
    Holds table (claims ++ [claim]) where
  unbarred := List.forall_mem_append.mpr
    ⟨holds.unbarred, fun other member => List.mem_singleton.mp member ▸ free⟩
  missing := List.forall_mem_append.mpr
    ⟨holds.missing, fun other member => List.mem_singleton.mp member ▸ missing⟩
  fits := List.forall_mem_append.mpr
    ⟨holds.fits, fun other member => List.mem_singleton.mp member ▸ fits⟩
  given place held there := by
    obtain ⟨other, member, rest⟩ := holds.given place held there
    exact ⟨other, List.mem_append_left _ member, rest⟩
  apart place other above here there :=
    (holds.apart place other above here there).imp (Free.mono (List.subset_append_left _ _))
      (Free.mono (List.subset_append_left _ _))

/-- A checked claim lies apart from what is claimed already, but for copies. -/
theorem Holds.free_above (holds : Holds table claims) (apart : ¬Nested table claim.place)
    {place : List κ} (above : Above place claim.place) (there : table place ≠ none) :
    Free claims place := by
  obtain ⟨held, here⟩ := Option.ne_none_iff_exists'.mp there
  obtain ⟨other, member, same, allowed, content⟩ := holds.given place held here
  refine ⟨other, member, same, ?_, allowed⟩
  by_contra checked
  apply apart
  refine Or.inl ⟨place, held, above, here, ?_⟩
  rw [← content]
  exact other.plain (Bool.not_eq_false _ ▸ checked)

/-- A claim entered where nothing was, or where a link was. -/
theorem Holds.entered (holds : Holds table claims) (free : claim.barred = false)
    (allowed : claim.verdict = .allowed)
    (fits : ∀ other ∈ claims, other.place = claim.place → Fits claim.content other)
    (apart : table claim.place = none → claim.checked = true → ¬Nested table claim.place) :
    Holds (enter table claim.place claim.content) (claims ++ [claim]) where
  unbarred := List.forall_mem_append.mpr
    ⟨holds.unbarred, fun other member => List.mem_singleton.mp member ▸ free⟩
  missing := by
    refine List.forall_mem_append.mpr ⟨?_, ?_⟩
    · intro other member absent
      by_cases same : other.place = claim.place
      · rw [same, enter_self] at absent
        cases absent
      · rw [enter_of_ne same] at absent
        exact holds.missing other member absent
    · intro other member absent
      rw [List.mem_singleton.mp member, enter_self] at absent
      cases absent
  fits := by
    refine List.forall_mem_append.mpr ⟨?_, ?_⟩
    · intro other member held there
      by_cases same : other.place = claim.place
      · rw [same, enter_self] at there
        exact Option.some.inj there ▸ fits other member same
      · rw [enter_of_ne same] at there
        exact holds.fits other member held there
    · intro other member held there
      rw [List.mem_singleton.mp member, enter_self] at there
      rw [List.mem_singleton.mp member]
      exact Or.inr (Or.inl (Option.some.inj there))
  given place held there := by
    by_cases same : place = claim.place
    · rw [same, enter_self] at there
      exact ⟨claim, List.mem_append_right _ (List.mem_singleton_self _), same.symm, allowed,
        Option.some.inj there⟩
    · rw [enter_of_ne same] at there
      obtain ⟨other, member, rest⟩ := holds.given place held there
      exact ⟨other, List.mem_append_left _ member, rest⟩
  apart place other above here there := by
    have own : claim.checked = false → Free (claims ++ [claim]) claim.place := fun copied =>
      ⟨claim, List.mem_append_right _ (List.mem_singleton_self _), rfl, copied, allowed⟩
    by_cases first : place = claim.place
    · subst first
      rw [enter_of_ne (Ne.symm above.2)] at there
      by_cases absent : table claim.place = none
      · cases checked : claim.checked with
        | false => exact Or.inl (own checked)
        | true => exact absurd (Or.inr ⟨other, above, there⟩) (apart absent checked)
      · exact (holds.apart _ other above absent there).imp
          (Free.mono (List.subset_append_left _ _)) (Free.mono (List.subset_append_left _ _))
    · rw [enter_of_ne first] at here
      by_cases second : other = claim.place
      · subst second
        by_cases absent : table claim.place = none
        · cases checked : claim.checked with
          | false => exact Or.inr (own checked)
          | true =>
              exact Or.inl (Free.mono (List.subset_append_left _ _)
                (holds.free_above (apart absent checked) above here))
        · exact (holds.apart place _ above here absent).imp
            (Free.mono (List.subset_append_left _ _)) (Free.mono (List.subset_append_left _ _))
      · rw [enter_of_ne second] at there
        exact (holds.apart place other above here there).imp
          (Free.mono (List.subset_append_left _ _)) (Free.mono (List.subset_append_left _ _))

theorem Holds.take (holds : Holds table claims) (taken : take table claim = some next) :
    Holds next (claims ++ [claim]) := by
  obtain ⟨free, step⟩ := take_eq_some_iff.mp taken
  cases step with
  | @kept held there fits =>
      refine holds.kept free (fun absent => ?_) fun other here => ?_
      · rw [there] at absent
        cases absent
      · rw [there] at here
        exact Or.inr (Option.some.inj here ▸ fits)
  | passed absent unknown =>
      refine holds.kept free (fun _ => unknown) fun other here => ?_
      rw [absent] at here
      cases here
  | @replaced held there checked file link =>
      refine holds.entered free (claim.sure checked) ?_ ?_
      · intro other member same
        rcases holds.fits other member held (same ▸ there) with unknown | content | yields
        · exact Or.inl unknown
        · refine Or.inr (Or.inr ⟨?_, by rw [content, link], file⟩)
          by_contra copied
          exact other.copied (Bool.eq_false_iff.mpr copied) (by rw [content, link])
        · have other := yields.2.2
          rw [link] at other
          cases other
      · intro absent
        rw [there] at absent
        cases absent
  | entered absent allowed apart =>
      refine holds.entered free allowed ?_ fun _ => apart
      · intro other member same
        exact Or.inl (holds.missing other member (same ▸ absent))

theorem Holds.takeAll {more : List (Claim κ η)} (holds : Holds table claims)
    (taken : takeAll table more = some next) : Holds next (claims ++ more) := by
  induction more generalizing table claims with
  | nil =>
      cases taken
      rwa [List.append_nil]
  | cons claim more ih =>
      rw [Claims.takeAll, List.foldlM_cons] at taken
      cases step : Claims.take table claim with
      | none =>
          rw [step] at taken
          cases taken
      | some between =>
          rw [step] at taken
          have rest := ih (holds.take step) taken
          rwa [List.append_assoc] at rest

end

/-! ### Claims that can be taken in some order -/

/-- Claims of which every place's fit one that is allowed there, and no two checked ones of
different places lie one above the other. -/
structure Carries (claims : List (Claim κ η)) : Prop where
  unbarred : ∀ claim ∈ claims, claim.barred = false
  settles : ∀ place, (∀ claim ∈ claims, claim.place = place → claim.verdict = .unknown) ∨
    ∃ first ∈ claims, first.place = place ∧ first.verdict = .allowed ∧
      ∀ claim ∈ claims, claim.place = place → Fits first.content claim
  apart : ∀ claim ∈ claims, ∀ other ∈ claims, Above claim.place other.place →
    claim.verdict ≠ .unknown → other.verdict ≠ .unknown →
      Free claims claim.place ∨ Free claims other.place

theorem Holds.carries {table : Table κ η} {claims : List (Claim κ η)}
    (holds : Holds table claims) : Carries claims where
  unbarred := holds.unbarred
  settles place := by
    cases there : table place with
    | none => exact Or.inl fun claim member same => holds.missing claim member (same ▸ there)
    | some held =>
        obtain ⟨first, member, same, allowed, content⟩ := holds.given place held there
        refine Or.inr ⟨first, member, same, allowed, fun claim other here => ?_⟩
        rw [content]
        exact holds.fits claim other held (here ▸ there)
  apart claim member other among above known also := by
    refine holds.apart _ _ above ?_ ?_
    · exact fun absent => known (holds.missing claim member absent)
    · exact fun absent => also (holds.missing other among absent)

theorem Free.perm {claims others : List (Claim κ η)} (same : claims.Perm others) {place : List κ}
    (free : Free claims place) : Free others place := Free.mono same.subset free

theorem Carries.perm {claims others : List (Claim κ η)} (same : claims.Perm others)
    (carries : Carries claims) : Carries others where
  unbarred claim member := carries.unbarred claim (same.mem_iff.mpr member)
  settles place := by
    rcases carries.settles place with unknown | ⟨first, member, rest, allowed, fits⟩
    · exact Or.inl fun claim member => unknown claim (same.mem_iff.mpr member)
    · exact Or.inr ⟨first, same.mem_iff.mp member, rest, allowed,
        fun claim member => fits claim (same.mem_iff.mpr member)⟩
  apart claim member other among above known also :=
    (carries.apart claim (same.mem_iff.mpr member) other (same.mem_iff.mpr among) above known
      also).imp (Free.perm same) (Free.perm same)

/-- Without a conflict, in whatever order, the claims can be taken. -/
theorem carries_of_takeAll {claims others : List (Claim κ η)} {table : Table κ η}
    (same : others.Perm claims) (taken : takeAll vacant others = some table) : Carries claims := by
  have holds := holds_vacant.takeAll taken
  rw [List.nil_append] at holds
  exact holds.carries.perm same

/-! ### Such an order -/

/-- What each place comes to hold. -/
structure Settled (claims : List (Claim κ η)) (goal : Table κ η) : Prop where
  unknown : ∀ claim ∈ claims, goal claim.place = none → claim.verdict = .unknown
  fits : ∀ claim ∈ claims, ∀ held, goal claim.place = some held → Fits held claim
  given : ∀ place held, goal place = some held → ∃ claim ∈ claims,
    claim.place = place ∧ claim.verdict = .allowed ∧ claim.content = held

theorem Carries.settled {claims : List (Claim κ η)} (carries : Carries claims) :
    ∃ goal, Settled claims goal := by
  have each (place : List κ) : ∃ held : Option (Content η),
      (held = none → ∀ claim ∈ claims, claim.place = place → claim.verdict = .unknown) ∧
        ∀ value, held = some value →
          (∀ claim ∈ claims, claim.place = place → Fits value claim) ∧
            ∃ claim ∈ claims, claim.place = place ∧ claim.verdict = .allowed ∧
              claim.content = value := by
    rcases carries.settles place with unknown | ⟨first, member, same, allowed, fits⟩
    · exact ⟨none, fun _ => unknown, fun value some => by cases some⟩
    · refine ⟨some first.content, fun none => (by cases none), fun value some => ?_⟩
      cases some
      exact ⟨fits, first, member, same, allowed, rfl⟩
  choose goal missing held using each
  exact ⟨goal, fun claim member absent => missing _ absent claim member rfl,
    fun claim member value there => (held _ value there).1 claim member rfl,
    fun place value there => (held place value there).2⟩

/-- A table on the way to a goal. -/
def Towards (goal table : Table κ η) : Prop :=
  ∀ place, table place = none ∨ table place = goal place

section
variable {claims : List (Claim κ η)} {goal table : Table κ η}

/-- Nothing is lost on the way. -/
def Grows (table next : Table κ η) : Prop := ∀ place, table place ≠ none → next place ≠ none

theorem Grows.trans {next last : Table κ η} (first : Grows table next) (second : Grows next last) :
    Grows table last := fun place there => second place (first place there)

/-- A claim on a place that holds what it is to hold. -/
theorem take_settled (carries : Carries claims) (settled : Settled claims goal)
    (towards : Towards goal table) {claim : Claim κ η} (member : claim ∈ claims)
    (known : claim.verdict ≠ .unknown) (there : table claim.place ≠ none) :
    take table claim = some table := by
  obtain ⟨held, here⟩ := Option.ne_none_iff_exists'.mp there
  have whole := (towards claim.place).resolve_left there
  rw [here] at whole
  rcases settled.fits claim member held whole.symm with unknown | fits
  · exact absurd unknown known
  · exact take_eq_some_iff.mpr ⟨carries.unbarred claim member, Takes.kept here fits⟩

theorem Towards.entered (towards : Towards goal table) {claim : Claim κ η}
    (content : goal claim.place = some claim.content) :
    Towards goal (enter table claim.place claim.content) := by
  intro place
  by_cases same : place = claim.place
  · rw [same, enter_self, content]
    exact Or.inr rfl
  · rw [enter_of_ne same]
    exact towards place

theorem grows_entered {claim : Claim κ η} :
    Grows table (enter table claim.place claim.content) := by
  intro place there
  by_cases same : place = claim.place
  · rw [same, enter_self]
    exact Option.some_ne_none _
  · rwa [enter_of_ne same]

/-- Checked claims on places no copy may take, in any order. -/
theorem takeAll_checked (carries : Carries claims) (settled : Settled claims goal)
    (chosen : List (Claim κ η))
    (towards : Towards goal table) (only : ∀ place, table place ≠ none → ¬Free claims place ∧
      ∃ claim ∈ claims, claim.place = place ∧ claim.verdict ≠ .unknown)
    (each : ∀ claim ∈ chosen, claim ∈ claims ∧ claim.checked = true ∧ ¬Free claims claim.place ∧
      (goal claim.place = some claim.content ∨ table claim.place ≠ none)) :
    ∃ next, takeAll table chosen = some next ∧ Towards goal next ∧ Grows table next ∧
      (∀ place, next place ≠ none → ¬Free claims place ∧
        ∃ claim ∈ claims, claim.place = place ∧ claim.verdict ≠ .unknown) ∧
        ∀ claim ∈ chosen, next claim.place ≠ none := by
  induction chosen generalizing table with
  | nil => exact ⟨table, rfl, towards, fun _ there => there, only, List.forall_mem_nil _⟩
  | cons claim rest ih =>
      obtain ⟨⟨member, checked, unfree, ready⟩, others⟩ := List.forall_mem_cons.mp each
      have known : claim.verdict ≠ .unknown := by
        rw [claim.sure checked]
        decide
      by_cases there : table claim.place = none
      · have content := ready.resolve_right (not_not_intro there)
        have apart : ¬Nested table claim.place := by
          rintro (⟨other, held, above, here, -⟩ | ⟨other, above, here⟩)
          · obtain ⟨unfree', claim', member', same, known'⟩ :=
              only other (by rw [here]; exact Option.some_ne_none held)
            subst same
            exact (carries.apart claim' member' claim member above known' known).elim unfree' unfree
          · obtain ⟨unfree', claim', member', same, known'⟩ := only other here
            subst same
            exact (carries.apart claim member claim' member' above known known').elim unfree unfree'
        have step : take table claim =
            some (enter table claim.place claim.content) :=
          take_eq_some_iff.mpr ⟨carries.unbarred claim member,
            Takes.entered there (claim.sure checked) fun _ => apart⟩
        have grown : Grows table (enter table claim.place claim.content) :=
          grows_entered
        have still : ∀ place,
            enter table claim.place claim.content place ≠ none →
              ¬Free claims place ∧
                ∃ claim ∈ claims, claim.place = place ∧ claim.verdict ≠ .unknown := by
          intro place here
          by_cases same : place = claim.place
          · subst same
            exact ⟨unfree, claim, member, rfl, known⟩
          · rw [enter_of_ne same] at here
            exact only place here
        obtain ⟨next, taken, towards', grows, only', each'⟩ :=
          ih (towards.entered content) still fun other among => by
            obtain ⟨member', checked', unfree', ready'⟩ := others other among
            exact ⟨member', checked', unfree', ready'.imp_right (grown _)⟩
        refine ⟨next, ?_, towards', grown.trans grows, only', ?_⟩
        · rw [takeAll, List.foldlM_cons, step]
          exact taken
        · refine List.forall_mem_cons.mpr ⟨grows _ ?_, each'⟩
          rw [enter_self]
          exact Option.some_ne_none _
      · obtain ⟨next, taken, towards', grows, only', each'⟩ := ih towards only others
        refine ⟨next, ?_, towards', grows, only', List.forall_mem_cons.mpr ⟨grows _ there, each'⟩⟩
        rw [takeAll, List.foldlM_cons, take_settled carries settled towards member known there]
        exact taken

/-- Allowed copies, in any order. -/
theorem takeAll_copied (carries : Carries claims) (settled : Settled claims goal)
    (chosen : List (Claim κ η)) (towards : Towards goal table)
    (each : ∀ claim ∈ chosen, claim ∈ claims ∧ claim.checked = false ∧ claim.verdict = .allowed) :
    ∃ next, takeAll table chosen = some next ∧ Towards goal next ∧ Grows table next ∧
      ∀ claim ∈ chosen, next claim.place ≠ none := by
  induction chosen generalizing table with
  | nil => exact ⟨table, rfl, towards, fun _ there => there, List.forall_mem_nil _⟩
  | cons claim rest ih =>
      obtain ⟨⟨member, copied, allowed⟩, others⟩ := List.forall_mem_cons.mp each
      have known : claim.verdict ≠ .unknown := by
        rw [allowed]
        decide
      by_cases there : table claim.place = none
      · have content : goal claim.place = some claim.content := by
          cases whole : goal claim.place with
          | none => exact absurd (settled.unknown claim member whole) known
          | some held =>
              rcases settled.fits claim member held whole with unknown | same | yields
              · exact absurd unknown known
              · rw [same]
              · exact absurd yields.1 (Bool.eq_false_iff.mp copied)
        have step : take table claim =
            some (enter table claim.place claim.content) :=
          take_eq_some_iff.mpr ⟨carries.unbarred claim member, Takes.entered there allowed
            fun checked => by rw [copied] at checked; cases checked⟩
        obtain ⟨next, taken, towards', grows, each'⟩ := ih (towards.entered content) others
        refine ⟨next, ?_, towards', grows_entered.trans grows, ?_⟩
        · rw [takeAll, List.foldlM_cons, step]
          exact taken
        · refine List.forall_mem_cons.mpr ⟨grows _ ?_, each'⟩
          rw [enter_self]
          exact Option.some_ne_none _
      · obtain ⟨next, taken, towards', grows, each'⟩ := ih towards others
        refine ⟨next, ?_, towards', grows, List.forall_mem_cons.mpr ⟨grows _ there, each'⟩⟩
        rw [takeAll, List.foldlM_cons, take_settled carries settled towards member known there]
        exact taken

theorem takeAll_kept {chosen : List (Claim κ η)}
    (each : ∀ claim ∈ chosen, take table claim = some table) :
    takeAll table chosen = some table := by
  induction chosen with
  | nil => rfl
  | cons claim rest ih =>
      obtain ⟨first, others⟩ := List.forall_mem_cons.mp each
      rw [takeAll, List.foldlM_cons, first]
      exact ih others

end

theorem takeAll_append {table : Table κ η} (first second : List (Claim κ η)) :
    takeAll table (first ++ second) =
      (takeAll table first).bind fun next => takeAll next second := by
  rw [takeAll, List.foldlM_append]
  rfl

def isUnknown (claim : Claim κ η) : Bool := claim.verdict = .unknown

def isFile (claim : Claim κ η) : Bool := claim.content.1 = .file

/-- A checked claim on a place that no copy may take. -/
noncomputable def isAlone (claims : List (Claim κ η)) (claim : Claim κ η) : Bool :=
  claim.checked && decide (¬Free claims claim.place)

def isCopied (claim : Claim κ η) : Bool := !claim.checked && claim.verdict = .allowed

theorem isAlone_iff {claims : List (Claim κ η)} {claim : Claim κ η} :
    isAlone claims claim = true ↔ claim.checked = true ∧ ¬Free claims claim.place := by
  rw [isAlone, Bool.and_eq_true, decide_eq_true_eq]

theorem isCopied_iff {claim : Claim κ η} :
    isCopied claim = true ↔ claim.checked = false ∧ claim.verdict = .allowed := by
  rw [isCopied, Bool.and_eq_true, Bool.not_eq_true', decide_eq_true_eq]

theorem mem_known {claims : List (Claim κ η)} {claim : Claim κ η} :
    claim ∈ claims.filter (fun claim => !isUnknown claim) ↔
      claim ∈ claims ∧ claim.verdict ≠ .unknown := by
  rw [List.mem_filter, isUnknown, Bool.not_eq_true', decide_eq_false_iff_not]

/-- What is given at a place is at hand before the claims that only fit it. -/
theorem Settled.ready {claims : List (Claim κ η)} {goal : Table κ η} (settled : Settled claims goal)
    {claim : Claim κ η} (member : claim ∈ claims) (known : claim.verdict ≠ .unknown) :
    ∃ giver ∈ claims, giver.place = claim.place ∧ giver.verdict = .allowed ∧
      (claim.content = giver.content ∨ Yields claim giver.content) ∧
        goal claim.place = some giver.content := by
  cases there : goal claim.place with
  | none => exact absurd (settled.unknown claim member there) known
  | some held =>
      obtain ⟨giver, among, same, allowed, content⟩ := settled.given _ held there
      rcases settled.fits claim member held there with unknown | fits
      · exact absurd unknown known
      · exact ⟨giver, among, same, allowed, by rwa [content], by rw [content]⟩

/-- The claims in an order in which they can all be taken: what is unknown, the checked files and
then the links where nothing is copied, what is copied, and the rest. -/
theorem Carries.takeAll {claims : List (Claim κ η)} (carries : Carries claims) :
    ∃ others table, others.Perm claims ∧ Claims.takeAll vacant others = some table := by
  obtain ⟨goal, settled⟩ := carries.settled
  let unknown := claims.filter isUnknown
  let known := claims.filter fun claim => !isUnknown claim
  let apart := known.filter (isAlone claims)
  let beside := known.filter fun claim => !isAlone claims claim
  let files := apart.filter isFile
  let links := apart.filter fun claim => !isFile claim
  let copies := beside.filter isCopied
  let left := beside.filter fun claim => !isCopied claim
  have order : (unknown ++ ((files ++ links) ++ (copies ++ left))).Perm claims :=
    ((((List.filter_append_perm isFile apart).append
      (List.filter_append_perm isCopied beside)).trans
        (List.filter_append_perm (isAlone claims) known)).append_left unknown).trans
          (List.filter_append_perm isUnknown claims)
  -- Nothing is entered for what is unknown.
  have first : Claims.takeAll vacant unknown = some vacant := by
    refine takeAll_kept fun claim member => ?_
    rw [List.mem_filter, isUnknown, decide_eq_true_eq] at member
    exact take_eq_some_iff.mpr ⟨carries.unbarred claim member.1, Takes.passed rfl member.2⟩
  have inApart {claim : Claim κ η} (member : claim ∈ apart) : (claim ∈ claims ∧
      claim.verdict ≠ .unknown) ∧ claim.checked = true ∧ ¬Free claims claim.place := by
    rw [List.mem_filter, isAlone_iff, mem_known] at member
    exact member
  obtain ⟨second, taken, towards, -, only, filed⟩ := takeAll_checked carries settled files
    (fun _ => Or.inl rfl : Towards goal vacant) (fun place there => absurd rfl there) (by
      intro claim member
      rw [List.mem_filter, isFile, decide_eq_true_eq] at member
      obtain ⟨⟨here, known⟩, checked, unfree⟩ := inApart member.1
      refine ⟨here, checked, unfree, Or.inl ?_⟩
      obtain ⟨giver, -, -, -, same | yields, whole⟩ := settled.ready here known
      · rw [whole, same]
      · have link := yields.2.1
        rw [member.2] at link
        cases link)
  -- A link gives way to a file that is there before it.
  obtain ⟨third, taken', towards', grows, -, linked⟩ := takeAll_checked carries settled links
    towards only (by
      intro claim member
      obtain ⟨⟨here, known⟩, checked, unfree⟩ := inApart (List.mem_filter.mp member).1
      refine ⟨here, checked, unfree, ?_⟩
      obtain ⟨giver, among, place, allowed, same | yields, whole⟩ := settled.ready here known
      · exact Or.inl (by rw [whole, same])
      · right
        rw [← place]
        apply filed giver
        rw [List.mem_filter, List.mem_filter, isAlone_iff, mem_known, isFile, decide_eq_true_eq]
        refine ⟨⟨⟨among, by rw [allowed]; decide⟩, ?_, by rwa [place]⟩, yields.2.2⟩
        by_contra other
        exact unfree ⟨giver, among, place, Bool.eq_false_iff.mpr other, allowed⟩)
  obtain ⟨fourth, taken'', towards'', grows', copied⟩ := takeAll_copied carries settled copies
    towards' (by
      intro claim member
      rw [List.mem_filter, isCopied_iff, List.mem_filter, mem_known] at member
      exact ⟨member.1.1.1, member.2⟩)
  have given {claim : Claim κ η} (member : claim ∈ claims) (allowed : claim.verdict = .allowed)
      (free : Free claims claim.place) : fourth claim.place ≠ none := by
    obtain ⟨copy, among, place, unchecked, allowed'⟩ := free
    rw [← place]
    apply copied copy
    rw [List.mem_filter, isCopied_iff, List.mem_filter, mem_known, Bool.not_eq_true', isAlone,
      unchecked, Bool.false_and]
    exact ⟨⟨⟨among, by rw [allowed']; decide⟩, rfl⟩, rfl, allowed'⟩
  have last : Claims.takeAll fourth left = some fourth := by
    refine takeAll_kept fun claim member => ?_
    rw [List.mem_filter, List.mem_filter, mem_known, Bool.not_eq_true', Bool.not_eq_true'] at member
    obtain ⟨⟨⟨here, known⟩, beside⟩, rest⟩ := member
    refine take_settled carries settled towards'' here known ?_
    obtain ⟨giver, among, place, allowed, fits, -⟩ := settled.ready here known
    by_cases free : Free claims claim.place
    · rw [← place]
      exact given among allowed (by rwa [place])
    · have unchecked : claim.checked = false := by
        rw [isAlone, decide_eq_true free, Bool.and_true] at beside
        exact beside
      have same : claim.content = giver.content :=
        fits.resolve_right fun yields => absurd yields.1 (Bool.eq_false_iff.mp unchecked)
      have checked : giver.checked = true := by
        by_contra other
        exact free ⟨giver, among, place, Bool.eq_false_iff.mpr other, allowed⟩
      have file : giver.content.1 = .file := by
        cases kind : giver.content.1 with
        | file => rfl
        | dir => exact absurd kind (giver.plain checked)
        | link => exact absurd (same ▸ kind) (claim.copied unchecked)
      rw [← place]
      apply grows'
      apply grows
      apply filed giver
      rw [List.mem_filter, List.mem_filter, isAlone_iff, mem_known, isFile, decide_eq_true_eq]
      exact ⟨⟨⟨among, by rw [allowed]; decide⟩, checked, by rwa [place]⟩, file⟩
  refine ⟨_, fourth, order, ?_⟩
  rw [takeAll_append, first, Option.bind_some, takeAll_append, takeAll_append, taken,
    Option.bind_some, taken', Option.bind_some, takeAll_append, taken'', Option.bind_some, last]

/-! ### Claims that never conflict -/

/-- Claims of which no two conflict, in either order, and no file is copied below another. -/
structure Harmless (claims : List (Claim κ η)) : Prop where
  unbarred : ∀ claim ∈ claims, claim.barred = false
  undenied : ∀ claim ∈ claims, claim.verdict ≠ .denied
  alike : ∀ claim ∈ claims, ∀ other ∈ claims, claim.verdict = .allowed →
    other.place = claim.place → other.content = claim.content ∨ Yields other claim.content ∨
      other.checked = true ∧ other.content.1 = .file ∧ claim.content.1 = .link
  apart : ∀ claim ∈ claims, ∀ other ∈ claims, claim.verdict = .allowed →
    other.verdict = .allowed → Above claim.place other.place →
      claim.checked = false ∧
        (claim.content.1 = .dir ∨ other.checked = false ∧ other.content.1 = .dir)

/-- Each entry of a table is that of a claim. -/
def Given (claims : List (Claim κ η)) (table : Table κ η) : Prop :=
  ∀ place held, table place = some held → ∃ claim ∈ claims,
    claim.place = place ∧ claim.verdict = .allowed ∧ claim.content = held

theorem Given.entered {claims : List (Claim κ η)} {table : Table κ η} {claim : Claim κ η}
    (given : Given claims table) (member : claim ∈ claims) (allowed : claim.verdict = .allowed) :
    Given claims (enter table claim.place claim.content) := by
  intro place held there
  by_cases same : place = claim.place
  · rw [same, enter_self] at there
    exact ⟨claim, member, same.symm, allowed, Option.some.inj there⟩
  · rw [enter_of_ne same] at there
    exact given place held there

theorem Harmless.take {claims : List (Claim κ η)} {table : Table κ η} {claim : Claim κ η}
    (harmless : Harmless claims) (given : Given claims table) (member : claim ∈ claims) :
    ∃ next, Claims.take table claim = some next ∧ Given claims next := by
  have free := harmless.unbarred claim member
  cases there : table claim.place with
  | some held =>
      obtain ⟨giver, among, place, allowed, content⟩ := given _ held there
      have alike := harmless.alike giver among claim member allowed place.symm
      rw [content, ← or_assoc] at alike
      rcases alike with fits | ⟨checked, file, link⟩
      · exact ⟨table, take_eq_some_iff.mpr ⟨free, Takes.kept there fits⟩, given⟩
      · exact ⟨_, take_eq_some_iff.mpr ⟨free, Takes.replaced there checked file link⟩,
          given.entered member (claim.sure checked)⟩
  | none =>
      cases verdict : claim.verdict with
      | denied => exact absurd verdict (harmless.undenied claim member)
      | unknown => exact ⟨table, take_eq_some_iff.mpr ⟨free, Takes.passed there verdict⟩, given⟩
      | allowed =>
          have apart (checked : claim.checked = true) : ¬Nested table claim.place := by
            rintro (⟨place, held, above, here, kind⟩ | ⟨place, above, here⟩)
            · obtain ⟨giver, among, rfl, allowed, content⟩ := given place held here
              rcases (harmless.apart giver among claim member allowed verdict above).2 with
                dir | ⟨unchecked, -⟩
              · exact kind (content ▸ dir)
              · exact absurd checked (Bool.eq_false_iff.mp unchecked)
            · obtain ⟨held, here⟩ := Option.ne_none_iff_exists'.mp here
              obtain ⟨giver, among, rfl, allowed, -⟩ := given place held here
              exact absurd checked (Bool.eq_false_iff.mp
                (harmless.apart claim member giver among verdict allowed above).1)
          exact ⟨_, take_eq_some_iff.mpr ⟨free, Takes.entered there verdict apart⟩,
            given.entered member verdict⟩

theorem Harmless.takeAll {claims chosen : List (Claim κ η)} {table : Table κ η}
    (harmless : Harmless claims) (given : Given claims table) (sub : chosen ⊆ claims) :
    ∃ next, Claims.takeAll table chosen = some next ∧ Given claims next := by
  induction chosen generalizing table with
  | nil => exact ⟨table, rfl, given⟩
  | cons claim rest ih =>
      rw [List.cons_subset] at sub
      obtain ⟨between, step, given'⟩ := harmless.take given sub.1
      obtain ⟨next, taken, given''⟩ := ih given' sub.2
      refine ⟨next, ?_, given''⟩
      rw [Claims.takeAll, List.foldlM_cons, step]
      exact taken

/-! ### Conflicts some order shows -/

theorem takeAll_none_of_first {claims : List (Claim κ η)} {claim : Claim κ η}
    (member : claim ∈ claims) (fails : Claims.take vacant claim = none) :
    ∃ others, others.Perm claims ∧ Claims.takeAll vacant others = none := by
  refine ⟨claim :: claims.erase claim, (List.perm_cons_erase member).symm, ?_⟩
  rw [takeAll, List.foldlM_cons, fails]
  rfl

theorem takeAll_none_of_pair {claims : List (Claim κ η)} {claim other : Claim κ η}
    (member : claim ∈ claims) (among : other ∈ claims) (differ : other ≠ claim)
    (free : claim.barred = false) (allowed : claim.verdict = .allowed)
    (fails : take (enter vacant claim.place claim.content) other = none) :
    ∃ others, others.Perm claims ∧ Claims.takeAll vacant others = none := by
  have second : other ∈ claims.erase claim := (List.mem_erase_of_ne differ).mpr among
  have alone : ¬Nested (vacant : Table κ η) claim.place := by
    rintro (⟨place, held, -, there, -⟩ | ⟨place, -, there⟩)
    · cases there
    · exact there rfl
  have step : take vacant claim = some (enter vacant claim.place claim.content) :=
    take_eq_some_iff.mpr ⟨free, Takes.entered rfl allowed fun _ => alone⟩
  refine ⟨claim :: other :: (claims.erase claim).erase other,
    ((List.perm_cons_erase second).symm.cons claim).trans (List.perm_cons_erase member).symm, ?_⟩
  rw [takeAll, List.foldlM_cons, step]
  change Option.bind (take _ other) _ = none
  rw [fails]
  rfl

theorem take_eq_none {table : Table κ η} {claim : Claim κ η}
    (never : ∀ next, ¬Takes table claim next) : take table claim = none := by
  cases step : take table claim with
  | none => rfl
  | some next => exact absurd (take_eq_some_iff.mp step).2 (never next)

/-- Where claims can be taken in some order but not in another, or a file would be copied below one,
they are not harmless; otherwise they are. -/
theorem harmless_of_steady {claims : List (Claim κ η)} (carries : Carries claims)
    (steady : ∀ others, others.Perm claims → takeAll vacant others ≠ none)
    (level : ∀ claim ∈ claims, ∀ other ∈ claims, claim.verdict = .allowed →
      other.verdict = .allowed → claim.checked = false → other.checked = false →
        Above claim.place other.place → claim.content.1 = .dir ∨ other.content.1 = .dir) :
    Harmless claims where
  unbarred := carries.unbarred
  undenied claim member denied := by
    obtain ⟨others, same, fails⟩ := takeAll_none_of_first member (take_eq_none fun next step => by
      cases step with
      | kept there fits => cases there
      | replaced there checked file link => cases there
      | passed absent unknown =>
          rw [denied] at unknown
          cases unknown
      | entered absent allowed apart =>
          rw [denied] at allowed
          cases allowed)
    exact steady others same fails
  alike claim member other among allowed place := by
    by_contra clash
    rw [not_or, not_or] at clash
    obtain ⟨content, yields, gives⟩ := clash
    have there : enter (vacant : Table κ η) claim.place claim.content other.place =
        some claim.content := by rw [place, enter_self]
    obtain ⟨others, same, fails⟩ := takeAll_none_of_pair member among
      (fun same => content (by rw [same])) (carries.unbarred claim member) allowed
      (take_eq_none fun next step => by
        cases step with
        | kept here fits =>
            rw [there, Option.some.injEq] at here
            rcases fits with same | other
            · exact content (same.trans here.symm)
            · exact yields (here ▸ other)
        | replaced here checked file link =>
            rw [there, Option.some.injEq] at here
            exact gives ⟨checked, file, here ▸ link⟩
        | passed absent unknown =>
            rw [there] at absent
            cases absent
        | entered absent allowed apart =>
            rw [there] at absent
            cases absent)
    exact steady others same fails
  apart claim member other among allowed also above := by
    -- What is claimed first is met by a checked claim that comes after it.
    have clash (first second : Claim κ η) (here : first ∈ claims) (there : second ∈ claims)
        (given : first.verdict = .allowed) (checked : second.checked = true)
        (places : first.place ≠ second.place)
        (nested : Nested (enter vacant first.place first.content)
          second.place) : False := by
      have absent : enter (vacant : Table κ η) first.place first.content
          second.place = none := by
        rw [enter_of_ne (Ne.symm places)]
        rfl
      obtain ⟨others, same, fails⟩ := takeAll_none_of_pair here there
        (fun same => places (by rw [same])) (carries.unbarred first here) given
        (take_eq_none fun next step => by
          cases step with
          | kept held fits =>
              rw [absent] at held
              cases held
          | replaced held checked file link =>
              rw [absent] at held
              cases held
          | passed _ unknown =>
              rw [second.sure checked] at unknown
              cases unknown
          | entered _ _ apart => exact apart checked nested)
      exact steady others same fails
    have copied : claim.checked = false := by
      by_contra checked
      refine clash other claim among member also (Bool.not_eq_false _ ▸ checked)
        (Ne.symm above.2) (Or.inr ⟨other.place, above, ?_⟩)
      rw [enter_self]
      exact Option.some_ne_none _
    refine ⟨copied, ?_⟩
    by_cases dir : claim.content.1 = .dir
    · exact Or.inl dir
    · right
      have unchecked : other.checked = false := by
        by_contra checked
        refine clash claim other member among allowed (Bool.not_eq_false _ ▸ checked)
          above.2 (Or.inl ⟨claim.place, claim.content, above, ?_, dir⟩)
        rw [enter_self]
      exact ⟨unchecked, (level claim member other among allowed also copied unchecked
        above).resolve_left dir⟩

/-! ### The result -/

/-- What a table promises of the claims it was made from, in whatever order they came. -/
structure Steady (claims : List (Claim κ η)) : Prop where
  level : ∀ table, takeAll vacant claims = some table → ∀ place other held below,
    table place = some held → table other = some below → Above place other →
      held.1 = .dir ∨ below.1 = .dir
  agrees : ∀ table, takeAll vacant claims = some table → ∀ claim ∈ claims,
    claim.verdict ≠ .unknown → ∃ held, table claim.place = some held ∧
      (claim.content = held ∨ Yields claim held)
  order : ∀ others, others.Perm claims →
    (takeAll vacant others = none ↔ takeAll vacant claims = none)

theorem steady_iff (claims : List (Claim κ η)) :
    Steady claims ↔ ¬Carries claims ∨ Harmless claims := by
  constructor
  · intro steady
    by_cases carries : Carries claims
    · right
      obtain ⟨silent, table, same, taken⟩ := carries.takeAll
      have whole : takeAll vacant claims ≠ none := by
        intro fails
        rw [(steady.order silent same).mpr fails] at taken
        cases taken
      obtain ⟨final, done⟩ := Option.ne_none_iff_exists'.mp whole
      refine harmless_of_steady carries (fun others same fails =>
        whole ((steady.order others same).mp fails)) ?_
      intro claim member other among allowed also copied unchecked above
      have known {claim : Claim κ η} (allowed : claim.verdict = .allowed) :
          claim.verdict ≠ .unknown := by
        rw [allowed]
        decide
      obtain ⟨held, here, fits⟩ := steady.agrees final done claim member (known allowed)
      obtain ⟨below, there, fits'⟩ := steady.agrees final done other among (known also)
      have content := fits.resolve_right fun yields =>
        absurd yields.1 (Bool.eq_false_iff.mp copied)
      have content' := fits'.resolve_right fun yields =>
        absurd yields.1 (Bool.eq_false_iff.mp unchecked)
      rw [content, content']
      exact steady.level final done _ _ held below here there above
    · exact Or.inl carries
  · intro either
    have agrees : ∀ table, takeAll vacant claims = some table → ∀ claim ∈ claims,
        claim.verdict ≠ .unknown → ∃ held, table claim.place = some held ∧
          (claim.content = held ∨ Yields claim held) := by
      intro table taken claim member known
      have holds := holds_vacant.takeAll taken
      rw [List.nil_append] at holds
      cases there : table claim.place with
      | none => exact absurd (holds.missing claim member there) known
      | some held =>
          exact ⟨held, rfl, (holds.fits claim member held there).resolve_left known⟩
    rcases either with doomed | harmless
    · have fails (others : List (Claim κ η)) (same : others.Perm claims) :
          takeAll vacant others = none := by
        by_contra taken
        obtain ⟨table, taken⟩ := Option.ne_none_iff_exists'.mp taken
        exact doomed (carries_of_takeAll same taken)
      have own := fails claims (List.Perm.refl claims)
      refine ⟨fun table taken => ?_, agrees, fun others same => ?_⟩
      · rw [own] at taken
        cases taken
      · rw [fails others same, own]
    · have none : Given claims (vacant : Table κ η) := fun place held there => by cases there
      have runs (others : List (Claim κ η)) (same : others.Perm claims) :
          takeAll vacant others ≠ Option.none := by
        obtain ⟨next, taken, -⟩ := harmless.takeAll none same.subset
        rw [taken]
        exact Option.some_ne_none _
      refine ⟨fun table taken place other held below here there above => ?_, agrees,
        fun others same => ?_⟩
      · obtain ⟨next, taken', given⟩ := harmless.takeAll none (List.Subset.refl claims)
        rw [taken, Option.some.injEq] at taken'
        subst taken'
        obtain ⟨claim, member, rfl, allowed, rfl⟩ := given place held here
        obtain ⟨claim', member', rfl, allowed', rfl⟩ := given other below there
        exact (harmless.apart claim member claim' member' allowed allowed' above).2.imp_right
          And.right
      · exact iff_of_false (runs others same) (runs claims (List.Perm.refl claims))

end Onelf.Lib.Claims
