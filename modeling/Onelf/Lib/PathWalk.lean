import Mathlib.Data.List.Induction
import Mathlib.Data.List.Infix
import Mathlib.Logic.Relation

/-! How a path is resolved: one component after another from where the last one led, through the
links it meets, at most a given number of them. -/

namespace Onelf.Lib

/-- One component of a path's text. -/
inductive Segment (κ : Type) where
  | name (part : κ)
  | up
  | here
  deriving DecidableEq

/-- What a link holds. -/
structure Target (κ : Type) where
  absolute : Bool
  segments : List (Segment κ)
  deriving DecidableEq

inductive Node (τ α : Type) where
  | dir
  | file (content : α)
  | link (target : τ)

/-- What lies at each place; a place is the names that lead to it from the root. -/
abbrev World (κ τ α : Type) : Type := List κ → Option (Node τ α)

/-- A resolution under way: the links it may still follow, where it stands and what is left. -/
structure Walk (κ : Type) where
  links : Nat
  place : List κ
  rest : List (Segment κ)

inductive Outcome (κ : Type) where
  | found (links : Nat) (place : List κ)
  | stuck (walk : Walk κ)
  | looped

variable {κ τ α : Type}

def Node.target? : Node τ α → Option τ
  | link target => some target
  | _ => none

/-- Where a walk goes on that comes through a link at a place. -/
def Target.start (target : Target κ) (place : List κ) : List κ :=
  if target.absolute then [] else place

/-- The components that name something. -/
def strip : List (Segment κ) → List (Segment κ)
  | [] => []
  | .here :: rest => strip rest
  | .up :: rest => .up :: strip rest
  | .name part :: rest => .name part :: strip rest

@[simp] theorem strip_append (left right : List (Segment κ)) :
    strip (left ++ right) = strip left ++ strip right := by
  induction left with
  | nil => rfl
  | cons segment left ih => cases segment <;> simp [strip, ih]

@[simp] theorem strip_names (names : List κ) :
    strip (names.map Segment.name) = names.map Segment.name := by
  induction names with
  | nil => rfl
  | cons name names ih => rw [List.map_cons, strip, ih]

namespace World

/-- The target of the link at a place. -/
def linkAt (world : World κ τ α) (place : List κ) : Option τ := (world place).bind Node.target?

theorem linkAt_eq_some {world : World κ τ α} {place : List κ} {target : τ} :
    world.linkAt place = some target ↔ world place = some (.link target) := by
  rw [linkAt]
  cases held : world place with
  | none => simp
  | some node => cases node <;> simp [Node.target?]

theorem linkAt_of_absent {world : World κ τ α} {place : List κ} (absent : world place = none) :
    world.linkAt place = none := by
  rw [linkAt, absent]
  rfl

variable (world : World κ (Target κ) α)

def isDir (place : List κ) : Bool :=
  match world place with
  | some .dir => true
  | _ => false

/-- How far a walk comes without going through a link. -/
inductive Leg (κ : Type) where
  | found (place : List κ)
  | stuck (place : List κ) (rest : List (Segment κ))
  | link (place : List κ) (target : Target κ) (rest : List (Segment κ))

/-- Components taken until a link is met that is to be followed; without `follow` the last component
is left as it is. -/
def leg (follow : Bool) : List κ → List (Segment κ) → Leg κ
  | place, [] => .found place
  | place, .here :: rest =>
      if world.isDir place then leg follow place rest else .stuck place (.here :: rest)
  | place, .up :: rest =>
      if world.isDir place then leg follow place.dropLast rest else .stuck place (.up :: rest)
  | place, .name part :: rest =>
      match world (place ++ [part]) with
      | none => .stuck place (.name part :: rest)
      | some (.link target) =>
          if follow || !(strip rest).isEmpty then .link place target rest
          else .found (place ++ [part])
      | some _ => leg follow (place ++ [part]) rest

/-- Where a path leads from a place. -/
def resolve (follow : Bool) : Nat → List κ → List (Segment κ) → Outcome κ
  | 0, place, rest =>
      match world.leg follow place rest with
      | .found place => .found 0 place
      | .stuck place rest => .stuck ⟨0, place, rest⟩
      | .link _ _ _ => .looped
  | links + 1, place, rest =>
      match world.leg follow place rest with
      | .found place => .found (links + 1) place
      | .stuck place rest => .stuck ⟨links + 1, place, rest⟩
      | .link place target rest => resolve follow links (target.start place) (target.segments ++ rest)

/-- One component taken. -/
inductive Step : Walk κ → Walk κ → Prop
  | here {links : Nat} {place : List κ} {rest : List (Segment κ)} : world.isDir place = true →
      Step ⟨links, place, .here :: rest⟩ ⟨links, place, rest⟩
  | up {links : Nat} {place : List κ} {rest : List (Segment κ)} : world.isDir place = true →
      Step ⟨links, place, .up :: rest⟩ ⟨links, place.dropLast, rest⟩
  | name {links : Nat} {place : List κ} {part : κ} {rest : List (Segment κ)} {node : Node (Target κ) α} :
      world (place ++ [part]) = some node → node.target? = none →
      Step ⟨links, place, .name part :: rest⟩ ⟨links, place ++ [part], rest⟩
  | link {links : Nat} {place : List κ} {part : κ} {rest : List (Segment κ)} {target : Target κ} :
      world (place ++ [part]) = some (.link target) →
      Step ⟨links + 1, place, .name part :: rest⟩
        ⟨links, target.start place, target.segments ++ rest⟩

/-- The walks a walk passes through. -/
def Reaches : Walk κ → Walk κ → Prop := Relation.ReflTransGen world.Step

variable {world}

theorem leg_name {follow : Bool} {place : List κ} {part : κ} {rest : List (Segment κ)}
    {node : Node (Target κ) α} (held : world (place ++ [part]) = some node) (plain : node.target? = none) :
    world.leg follow place (.name part :: rest) = world.leg follow (place ++ [part]) rest := by
  rw [leg, held]
  cases node with
  | dir => rfl
  | file content => rfl
  | link target => cases plain

theorem resolve_of_leg {follow : Bool} {links : Nat} {place other : List κ}
    {rest left : List (Segment κ)} (same : world.leg follow place rest = world.leg follow other left) :
    world.resolve follow links place rest = world.resolve follow links other left := by
  cases links with
  | zero => rw [resolve, resolve, same]
  | succ links => rw [resolve, resolve, same]

theorem resolve_of_found {follow : Bool} (links : Nat) {place stop : List κ}
    {rest : List (Segment κ)} (found : world.leg follow place rest = .found stop) :
    world.resolve follow links place rest = .found links stop := by
  cases links with
  | zero => rw [resolve, found]
  | succ links => rw [resolve, found]

theorem resolve_of_stuck {follow : Bool} (links : Nat) {place stop : List κ}
    {rest left : List (Segment κ)} (stuck : world.leg follow place rest = .stuck stop left) :
    world.resolve follow links place rest = .stuck ⟨links, stop, left⟩ := by
  cases links with
  | zero => rw [resolve, stuck]
  | succ links => rw [resolve, stuck]

theorem length_of_leg_stuck {follow : Bool} {place stop : List κ} {rest left : List (Segment κ)}
    (stuck : world.leg follow place rest = .stuck stop left) : left.length ≤ rest.length := by
  induction rest generalizing place with
  | nil => cases stuck
  | cons segment rest ih =>
      cases segment with
      | here =>
          rw [leg] at stuck
          split at stuck
          · exact Nat.le_succ_of_le (ih stuck)
          · cases stuck
            exact Nat.le_refl _
      | up =>
          rw [leg] at stuck
          split at stuck
          · exact Nat.le_succ_of_le (ih stuck)
          · cases stuck
            exact Nat.le_refl _
      | name part =>
          rw [leg] at stuck
          split at stuck
          · cases stuck
            exact Nat.le_refl _
          · split at stuck <;> cases stuck
          · exact Nat.le_succ_of_le (ih stuck)

/-- A walk that stops has fewer links left, or no more components. -/
theorem left_of_stuck {follow : Bool} {links : Nat} {place : List κ} {rest : List (Segment κ)}
    {walk : Walk κ} (stuck : world.resolve follow links place rest = .stuck walk) :
    walk.links < links ∨ walk.links = links ∧ walk.rest.length ≤ rest.length := by
  induction links generalizing place rest with
  | zero =>
      rw [resolve] at stuck
      cases reached : world.leg follow place rest with
      | found stop =>
          rw [reached] at stuck
          cases stuck
      | stuck stop left =>
          rw [reached] at stuck
          cases stuck
          exact Or.inr ⟨rfl, length_of_leg_stuck reached⟩
      | link stop target left =>
          rw [reached] at stuck
          cases stuck
  | succ links ih =>
      rw [resolve] at stuck
      cases reached : world.leg follow place rest with
      | found stop =>
          rw [reached] at stuck
          cases stuck
      | stuck stop left =>
          rw [reached] at stuck
          cases stuck
          exact Or.inr ⟨rfl, length_of_leg_stuck reached⟩
      | link stop target left =>
          rw [reached] at stuck
          left
          rcases ih stuck with fewer | ⟨same, _⟩
          · exact Nat.lt_succ_of_lt fewer
          · rw [same]
            exact Nat.lt_succ_self links

/-- A step does not change where a walk ends. -/
theorem resolve_of_step {walk next : Walk κ} (step : world.Step walk next) :
    world.resolve true walk.links walk.place walk.rest =
      world.resolve true next.links next.place next.rest := by
  cases step with
  | here dir =>
      apply resolve_of_leg
      rw [leg, if_pos dir]
  | up dir =>
      apply resolve_of_leg
      rw [leg, if_pos dir]
  | name held plain => exact resolve_of_leg (leg_name held plain)
  | link held =>
      rw [resolve, leg, held]
      rfl

theorem resolve_of_reaches {walk : Walk κ} {links : Nat} {place : List κ}
    (reaches : world.Reaches walk ⟨links, place, []⟩) :
    world.resolve true walk.links walk.place walk.rest = .found links place := by
  induction reaches using Relation.ReflTransGen.head_induction_on with
  | refl => cases links <;> rfl
  | head step _ ih => exact (resolve_of_step step).trans ih

theorem reaches_of_leg_found {links : Nat} {place stop : List κ} {rest : List (Segment κ)}
    (found : world.leg true place rest = .found stop) :
    world.Reaches ⟨links, place, rest⟩ ⟨links, stop, []⟩ := by
  induction rest generalizing place with
  | nil =>
      rw [leg, Leg.found.injEq] at found
      rw [found]
      exact Relation.ReflTransGen.refl
  | cons segment rest ih =>
      cases segment with
      | here =>
          rw [leg] at found
          split at found
          · next dir => exact Relation.ReflTransGen.head (Step.here dir) (ih found)
          · cases found
      | up =>
          rw [leg] at found
          split at found
          · next dir => exact Relation.ReflTransGen.head (Step.up dir) (ih found)
          · cases found
      | name part =>
          rw [leg] at found
          cases held : world (place ++ [part]) with
          | none =>
              rw [held] at found
              cases found
          | some node =>
              rw [held] at found
              cases node with
              | dir => exact Relation.ReflTransGen.head (Step.name held rfl) (ih found)
              | file content => exact Relation.ReflTransGen.head (Step.name held rfl) (ih found)
              | link target => cases found

theorem reaches_of_leg_link {links : Nat} {place stop : List κ} {rest left : List (Segment κ)}
    {target : Target κ} (met : world.leg true place rest = .link stop target left) :
    world.Reaches ⟨links + 1, place, rest⟩ ⟨links, target.start stop, target.segments ++ left⟩ := by
  induction rest generalizing place with
  | nil => cases met
  | cons segment rest ih =>
      cases segment with
      | here =>
          rw [leg] at met
          split at met
          · next dir => exact Relation.ReflTransGen.head (Step.here dir) (ih met)
          · cases met
      | up =>
          rw [leg] at met
          split at met
          · next dir => exact Relation.ReflTransGen.head (Step.up dir) (ih met)
          · cases met
      | name part =>
          rw [leg] at met
          cases held : world (place ++ [part]) with
          | none =>
              rw [held] at met
              cases met
          | some node =>
              rw [held] at met
              cases node with
              | dir => exact Relation.ReflTransGen.head (Step.name held rfl) (ih met)
              | file content => exact Relation.ReflTransGen.head (Step.name held rfl) (ih met)
              | link other =>
                  simp only [Bool.true_or, if_true, Leg.link.injEq] at met
                  obtain ⟨here, same, rest⟩ := met
                  rw [← here, ← same, ← rest]
                  exact Relation.ReflTransGen.single (Step.link held)

/-- A path leads to a place exactly where a walk over it comes to an end there. -/
theorem resolve_eq_found_iff {links left : Nat} {place stop : List κ} {rest : List (Segment κ)} :
    world.resolve true links place rest = .found left stop ↔
      world.Reaches ⟨links, place, rest⟩ ⟨left, stop, []⟩ := by
  constructor
  · intro found
    induction links generalizing place rest with
    | zero =>
        rw [resolve] at found
        cases reached : world.leg true place rest with
        | found here =>
            rw [reached] at found
            cases found
            exact reaches_of_leg_found reached
        | stuck here left =>
            rw [reached] at found
            cases found
        | link here target left =>
            rw [reached] at found
            cases found
    | succ links ih =>
        rw [resolve] at found
        cases reached : world.leg true place rest with
        | found here =>
            rw [reached] at found
            cases found
            exact reaches_of_leg_found reached
        | stuck here left =>
            rw [reached] at found
            cases found
        | link here target left =>
            rw [reached] at found
            exact (reaches_of_leg_link reached).trans (ih found)
  · exact fun reaches => resolve_of_reaches reaches

/-! ### Names alone -/

/-- No link lies on the way from a place over some names, the last of them apart where it is not
followed. -/
def Clear (world : World κ τ α) (follow : Bool) (place names : List κ) : Prop :=
  ∀ before part after, names = before ++ part :: after → (follow = true ∨ after ≠ []) →
    world.linkAt (place ++ before ++ [part]) = none

theorem Clear.tail {world : World κ τ α} {follow : Bool} {place names : List κ} {part : κ}
    (clear : world.Clear follow place (part :: names)) :
    world.Clear follow (place ++ [part]) names := by
  intro before other after same more
  have here := clear (part :: before) other after (by rw [same]; rfl) more
  rwa [List.append_assoc place [part] before]

theorem Clear.dropLast {world : World κ τ α} {follow : Bool} {place names : List κ}
    (clear : world.Clear follow place names) : world.Clear true place names.dropLast := by
  intro before part after same _
  cases names using List.reverseRecOn with
  | nil =>
      rw [List.dropLast_nil] at same
      simp at same
  | append_singleton names name =>
      rw [List.dropLast_concat] at same
      exact clear before part (after ++ [name]) (by rw [same, List.append_assoc]; rfl)
        (Or.inr (by simp))

/-- Over names with no link on the way a walk comes to what they name or ends at the first of them
that names nothing. -/
theorem leg_names {follow : Bool} {place names : List κ}
    (clear : world.Clear follow place names) :
    world.leg follow place (names.map Segment.name) = .found (place ++ names) ∧
        (names ≠ [] → world (place ++ names) ≠ none) ∨
      ∃ before part after, names = before ++ part :: after ∧
        world (place ++ before ++ [part]) = none ∧
        world.leg follow place (names.map Segment.name) =
          .stuck (place ++ before) ((part :: after).map Segment.name) := by
  induction names generalizing place with
  | nil =>
      left
      rw [List.map_nil, leg, List.append_nil]
      exact ⟨rfl, fun none => absurd rfl none⟩
  | cons part names ih =>
      cases held : world (place ++ [part]) with
      | none =>
          right
          refine ⟨[], part, names, rfl, ?_, ?_⟩
          · rw [List.append_nil]
            exact held
          · rw [List.map_cons, leg, held, List.append_nil]
      | some node =>
          cases plain : node.target? with
          | none =>
              rw [List.map_cons, leg_name held plain]
              rcases ih clear.tail with ⟨found, there⟩ | ⟨before, other, after, same, absent, stuck⟩
              · left
                rw [found, List.append_assoc]
                refine ⟨rfl, fun _ => ?_⟩
                cases names with
                | nil =>
                    rw [held]
                    exact Option.some_ne_none node
                | cons next names =>
                    have onward := there (List.cons_ne_nil next names)
                    rwa [List.append_assoc] at onward
              · right
                refine ⟨part :: before, other, after, by rw [same]; rfl, ?_, ?_⟩
                · rw [← absent, List.append_assoc place [part] before]
                  rfl
                · rw [stuck, List.append_assoc place [part] before]
                  rfl
          | some target =>
              have link : world.linkAt (place ++ [] ++ [part]) = some target := by
                rw [linkAt, List.append_nil, held]
                exact plain
              by_cases last : follow = true ∨ names ≠ []
              · rw [clear [] part names rfl last] at link
                cases link
              · obtain ⟨leaves, none⟩ := not_or.mp last
                rw [not_not] at none
                left
                rw [linkAt_eq_some, List.append_nil] at link
                rw [none, List.map_cons, leg, link]
                refine ⟨?_, fun _ => ?_⟩
                · simp [leaves, strip]
                · exact Option.some_ne_none _

/-! ### Trees -/

/-- What exists lies in directories. -/
structure Tree (world : World κ τ α) : Prop where
  root : world [] = some .dir
  parents : ∀ place part, world (place ++ [part]) ≠ none → world place = some .dir

namespace Tree

theorem absent_below {world : World κ τ α} (tree : world.Tree) {place : List κ}
    (absent : world place = none) (names : List κ) : world (place ++ names) = none := by
  induction names using List.reverseRecOn with
  | nil =>
      rw [List.append_nil]
      exact absent
  | append_singleton names name ih =>
      by_contra there
      rw [← List.append_assoc] at there
      rw [tree.parents _ _ there] at ih
      cases ih

/-- What lies above something is a directory. -/
theorem dir_above {world : World κ τ α} (tree : world.Tree) {place names : List κ}
    (there : world (place ++ names) ≠ none) (below : names ≠ []) : world place = some .dir := by
  cases names with
  | nil => exact absurd rfl below
  | cons name names =>
      apply tree.parents place name
      intro absent
      apply there
      have none := tree.absent_below absent names
      rwa [List.append_assoc] at none

theorem dropLast_there {world : World κ τ α} (tree : world.Tree) {place : List κ}
    (there : world place ≠ none) : world place.dropLast ≠ none := by
  cases place using List.reverseRecOn with
  | nil => exact there
  | append_singleton place part =>
      rw [List.dropLast_concat, tree.parents place part there]
      exact Option.some_ne_none _

variable {world : World κ (Target κ) α}

theorem start_there (tree : world.Tree) (target : Target κ) {place : List κ}
    (there : world place ≠ none) : world (target.start place) ≠ none := by
  rw [Target.start]
  split
  · rw [tree.root]
    exact Option.some_ne_none _
  · exact there

/-- What a walk stands at when it stops: it is there, and the next component leads nowhere. -/
def Halted (world : World κ (Target κ) α) (place : List κ) : List (Segment κ) → Prop
  | [] => False
  | .name part :: _ => world (place ++ [part]) = none
  | _ :: _ => world.isDir place = false

def LegThere (world : World κ (Target κ) α) : Leg κ → Prop
  | .found place => world place ≠ none
  | .stuck place rest => world place ≠ none ∧ Halted world place rest
  | .link place _ _ => world place ≠ none

theorem leg_there (tree : world.Tree) (follow : Bool) {place : List κ} (rest : List (Segment κ))
    (there : world place ≠ none) : LegThere world (world.leg follow place rest) := by
  induction rest generalizing place with
  | nil => exact there
  | cons segment rest ih =>
      cases segment with
      | here =>
          rw [leg]
          split
          · exact ih there
          · next file => exact ⟨there, Bool.eq_false_iff.mpr file⟩
      | up =>
          rw [leg]
          split
          · exact ih (tree.dropLast_there there)
          · next file => exact ⟨there, Bool.eq_false_iff.mpr file⟩
      | name part =>
          cases held : world (place ++ [part]) with
          | none =>
              rw [leg, held]
              exact ⟨there, held⟩
          | some node =>
              have onward : world (place ++ [part]) ≠ none := by
                rw [held]
                exact Option.some_ne_none node
              cases plain : node.target? with
              | none =>
                  rw [leg_name held plain]
                  exact ih onward
              | some target =>
                  have link : world (place ++ [part]) = some (.link target) := by
                    apply linkAt_eq_some.mp
                    rw [linkAt, held]
                    exact plain
                  rw [leg, link]
                  dsimp only
                  split
                  · exact there
                  · exact onward

def Ends (world : World κ (Target κ) α) : Outcome κ → Prop
  | .found _ place => world place ≠ none
  | .stuck walk => world walk.place ≠ none ∧ Halted world walk.place walk.rest
  | .looped => True

theorem resolve_ends (tree : world.Tree) (follow : Bool) (links : Nat) {place : List κ}
    (rest : List (Segment κ)) (there : world place ≠ none) :
    Ends world (world.resolve follow links place rest) := by
  induction links generalizing place rest with
  | zero =>
      have ends := tree.leg_there follow rest there
      rw [resolve]
      cases reached : world.leg follow place rest with
      | found stop =>
          rw [reached] at ends
          exact ends
      | stuck stop left =>
          rw [reached] at ends
          exact ends
      | link stop target left => exact True.intro
  | succ links ih =>
      have ends := tree.leg_there follow rest there
      rw [resolve]
      cases reached : world.leg follow place rest with
      | found stop =>
          rw [reached] at ends
          exact ends
      | stuck stop left =>
          rw [reached] at ends
          exact ends
      | link stop target left =>
          rw [reached] at ends
          exact ih _ (tree.start_there target ends)

end Tree

end World

end Onelf.Lib
