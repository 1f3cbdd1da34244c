import Onelf.Lib.PathWalk

/-! The way from one place to another: up as far as the two lie apart, and down again. -/

namespace Onelf.Lib

variable {κ σ α : Type}

/-- Two lists without what they begin with alike. -/
def apart [DecidableEq σ] : List σ → List σ → List σ × List σ
  | first :: left, other :: right =>
      if first = other then apart left right else (first :: left, other :: right)
  | left, right => (left, right)

theorem apart_shared [DecidableEq σ] (left right : List σ) :
    ∃ shared, left = shared ++ (apart left right).1 ∧ right = shared ++ (apart left right).2 := by
  induction left generalizing right with
  | nil => exact ⟨[], by simp [apart], by simp [apart]⟩
  | cons first left ih =>
      cases right with
      | nil => exact ⟨[], rfl, rfl⟩
      | cons other right =>
          rw [apart]
          split
          · next same =>
              obtain ⟨shared, first', second⟩ := ih right
              refine ⟨first :: shared, ?_, ?_⟩
              · rw [List.cons_append, ← first']
              · rw [List.cons_append, ← second, same]
          · exact ⟨[], rfl, rfl⟩

/-- A path to `target` for a place below the same directory. -/
def wayTo [DecidableEq κ] (place : List κ) (target : List (Segment κ)) : List (Segment κ) :=
  let parts := apart (place.map Segment.name) target
  List.replicate parts.1.length .up ++ parts.2

theorem wayTo_shared [DecidableEq κ] (place : List κ) (target : List (Segment κ)) :
    ∃ shared above rest, place = shared ++ above ∧ target = shared.map .name ++ rest ∧
      wayTo place target = List.replicate above.length .up ++ rest := by
  obtain ⟨lead, whole, other⟩ := apart_shared (place.map Segment.name) target
  obtain ⟨shared, above, split, shared_eq, above_eq⟩ := List.map_eq_append_iff.mp whole
  refine ⟨shared, above, (apart (place.map Segment.name) target).2, split, ?_, ?_⟩
  · rw [shared_eq]
    exact other
  · rw [wayTo, ← above_eq, List.length_map]

namespace World

variable {world : World κ (Target κ) α}

theorem isDir_eq_true {place : List κ} : world.isDir place = true ↔ world place = some .dir := by
  rw [isDir]
  split <;> simp_all

theorem Tree.above (tree : world.Tree) {place names : List κ}
    (stands : world (place ++ names) = some .dir) : world place = some .dir := by
  cases names with
  | nil => rwa [List.append_nil] at stands
  | cons part names =>
      refine tree.dir_above ?_ (List.cons_ne_nil part names)
      rw [stands]
      exact Option.some_ne_none _

/-- Up out of directories that are no links. -/
theorem leg_ups (tree : world.Tree) (follow : Bool) {place above : List κ}
    (stands : world (place ++ above) = some .dir) (rest : List (Segment κ)) :
    world.leg follow (place ++ above) (List.replicate above.length .up ++ rest) =
      world.leg follow place rest := by
  induction above using List.reverseRecOn with
  | nil =>
      rw [List.append_nil]
      rfl
  | append_singleton above part ih =>
      rw [← List.append_assoc] at stands
      rw [List.length_append, List.length_singleton, List.replicate_succ, List.cons_append,
        ← List.append_assoc, leg, if_pos (isDir_eq_true.mpr stands), List.dropLast_concat]
      exact ih (tree.above stands)

/-- Down into directories that are no links. -/
theorem leg_down (tree : world.Tree) (follow : Bool) {place names : List κ}
    (stands : world (place ++ names) = some .dir) (rest : List (Segment κ)) :
    world.leg follow place (names.map .name ++ rest) = world.leg follow (place ++ names) rest := by
  induction names generalizing place with
  | nil =>
      rw [List.append_nil]
      rfl
  | cons part names ih =>
      have split : place ++ part :: names = place ++ [part] ++ names :=
        (List.append_assoc place [part] names).symm
      rw [split] at stands ⊢
      rw [List.map_cons, List.cons_append, leg_name (tree.above stands) rfl]
      exact ih stands

/-- The way to a path leads where the path leads. -/
theorem leg_wayTo [DecidableEq κ] (tree : world.Tree) (follow : Bool) {base place : List κ}
    (stands : world (base ++ place) = some .dir) (target : List (Segment κ)) :
    world.leg follow (base ++ place) (wayTo place target) = world.leg follow base target := by
  obtain ⟨shared, above, rest, split, other, way⟩ := wayTo_shared place target
  rw [split, ← List.append_assoc] at stands
  rw [way, other, split, ← List.append_assoc, leg_ups tree follow stands,
    leg_down tree follow (tree.above stands)]

end World

/-! ### Dots left out -/

/-- The same segments with some of those left out that stay where they are. -/
inductive Thinned : List (Segment κ) → List (Segment κ) → Prop
  | nil : Thinned [] []
  | keep {rest fewer : List (Segment κ)} (segment : Segment κ) : Thinned rest fewer →
      Thinned (segment :: rest) (segment :: fewer)
  | here {rest fewer : List (Segment κ)} : Thinned rest fewer → Thinned (.here :: rest) fewer

theorem Thinned.append {rest fewer : List (Segment κ)} (thinned : Thinned rest fewer)
    (lead : List (Segment κ)) : Thinned (lead ++ rest) (lead ++ fewer) := by
  induction lead with
  | nil => exact thinned
  | cons segment lead ih => exact .keep segment ih

namespace World

variable {world : World κ (Target κ) α}

/-- What a leg comes to when dots are left out. -/
def LegThinned : Leg κ → Leg κ → Prop
  | .found stop, leg => leg = .found stop
  | .stuck _ _, _ => True
  | .link stop target left, leg => ∃ fewer, leg = .link stop target fewer ∧ Thinned left fewer

/-- A walk that gets somewhere gets there without the dots. -/
theorem leg_thinned {rest fewer : List (Segment κ)} (thinned : Thinned rest fewer)
    (place : List κ) : LegThinned (world.leg true place rest) (world.leg true place fewer) := by
  induction thinned generalizing place with
  | nil => exact rfl
  | @keep rest fewer segment inner ih =>
      cases segment with
      | here =>
          rw [leg, leg]
          split
          · exact ih place
          · exact trivial
      | up =>
          rw [leg, leg]
          split
          · exact ih place.dropLast
          · exact trivial
      | name part =>
          rw [leg, leg]
          cases world (place ++ [part]) with
          | none => exact trivial
          | some node =>
              cases node with
              | dir => exact ih _
              | file => exact ih _
              | link target => exact ⟨fewer, rfl, inner⟩
  | @here rest fewer inner ih =>
      rw [leg]
      split
      · exact ih place
      · exact trivial

theorem resolve_thinned {links left : Nat} {place stop : List κ} {rest fewer : List (Segment κ)}
    (thinned : Thinned rest fewer)
    (found : world.resolve true links place rest = .found left stop) :
    world.resolve true links place fewer = .found left stop := by
  induction links generalizing place rest fewer with
  | zero =>
      have step := @leg_thinned _ _ world _ _ thinned place
      rw [resolve] at found
      cases walked : world.leg true place rest with
      | found other =>
          rw [walked] at found step
          rw [resolve, step]
          exact found
      | stuck other left => simp [walked] at found
      | link other target left => simp [walked] at found
  | succ links ih =>
      have step := @leg_thinned _ _ world _ _ thinned place
      rw [resolve] at found
      cases walked : world.leg true place rest with
      | found other =>
          rw [walked] at found step
          rw [resolve, step]
          exact found
      | stuck other left => simp [walked] at found
      | link other target left =>
          rw [walked] at found step
          obtain ⟨left', met, inner⟩ := step
          rw [resolve, met]
          exact ih (inner.append target.segments) found

end World

end Onelf.Lib
