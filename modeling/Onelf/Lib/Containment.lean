import Onelf.Lib.Confined

/-! When no resolution that begins in a directory leaves it. -/

namespace Onelf.Lib

variable {κ α β : Type}

namespace World

/-- No resolution of names from `base`, through at most `links` links, stands outside of it. -/
def Contained (world : World κ (Target κ) α) (links : Nat) (base : List κ) : Prop :=
  ∀ (names : List κ) (walk : Walk κ), world.Reaches ⟨links, base, names.map .name⟩ walk →
    base <+: walk.place

/-- No `..` of a link's target is taken at the root. -/
def Inside (inner : World κ (Target κ) β) (links : Nat) : Prop :=
  ∀ dir name target before after, inner (dir ++ [name]) = some (.link target) →
    target.segments = before ++ .up :: after →
    ∀ left, inner.resolve true links dir before ≠ .found left []

/-- The tree below `base`, the contents of its files left out. -/
def Below (world : World κ (Target κ) α) (base : List κ) (inner : World κ (Target κ) β) : Prop :=
  ∀ rel, (world (base ++ rel)).map Node.bare = (inner rel).map Node.bare

variable {world : World κ (Target κ) α} {inner : World κ (Target κ) β} {base : List κ}

theorem Below.isDir (below : Below world base inner) (rel : List κ) :
    world.isDir (base ++ rel) = inner.isDir rel := by
  have same := below rel
  rw [World.isDir, World.isDir]
  cases outer : world (base ++ rel) with
  | none =>
      rw [outer, Option.map_none, eq_comm, Option.map_eq_none_iff] at same
      rw [same]
  | some node =>
      rw [outer, Option.map_some, eq_comm, Option.map_eq_some_iff] at same
      obtain ⟨other, held, bare⟩ := same
      rw [held]
      cases node <;> cases other <;> first | rfl | cases bare

theorem Below.plain (below : Below world base inner) {rel : List κ} :
    (∃ node, world (base ++ rel) = some node ∧ node.target? = none) ↔
      ∃ node, inner rel = some node ∧ node.target? = none := by
  have same := below rel
  constructor
  · rintro ⟨node, held, plain⟩
    rw [held, Option.map_some, eq_comm, Option.map_eq_some_iff] at same
    obtain ⟨other, held, bare⟩ := same
    exact ⟨other, held, by rw [← Node.target_bare, bare, Node.target_bare, plain]⟩
  · rintro ⟨node, held, plain⟩
    rw [held, Option.map_some, Option.map_eq_some_iff] at same
    obtain ⟨other, held, bare⟩ := same
    exact ⟨other, held, by rw [← Node.target_bare, bare, Node.target_bare, plain]⟩

theorem Below.link (below : Below world base inner) {rel : List κ} {target : Target κ} :
    world (base ++ rel) = some (.link target) ↔ inner rel = some (.link target) := by
  have same := congrArg (fun node => node.bind Node.target?) (below rel)
  have outer : ((world (base ++ rel)).map Node.bare).bind Node.target? =
      world.linkAt (base ++ rel) := by
    rw [linkAt]
    cases world (base ++ rel) with
    | none => rfl
    | some node => exact Node.target_bare node
  have within : ((inner rel).map Node.bare).bind Node.target? = inner.linkAt rel := by
    rw [linkAt]
    cases inner rel with
    | none => rfl
    | some node => exact Node.target_bare node
  rw [← linkAt_eq_some, ← linkAt_eq_some, ← outer, ← within]
  exact iff_of_eq (congrArg (· = some target) same)

/-- A component owed to a link: what comes before it in a target leads here. -/
def Owed (inner : World κ (Target κ) β) (links : Nat) (place : List κ) (left : Nat)
    (before : List (Segment κ)) : Prop :=
  ∃ dir name target first after more, inner (dir ++ [name]) = some (.link target) ∧
    target.segments = first ++ .up :: after ∧ left ≤ more ∧
    inner.Reaches ⟨links, dir, first⟩ ⟨more, place, before⟩

/-- Where a walk from `base` stands, and that each `..` it has still to take is owed to a link. -/
structure Held (inner : World κ (Target κ) β) (links : Nat) (base : List κ) (walk : Walk κ) :
    Prop where
  few : walk.links ≤ links + 1
  within : ∃ place, walk.place = base ++ place ∧
    ∀ before after, walk.rest = before ++ .up :: after → Owed inner links place walk.links before

theorem Owed.step {links : Nat} {place next : List κ} {left : Nat}
    {before onward : List (Segment κ)} (owed : Owed inner links place left before)
    (step : ∀ more, inner.Step ⟨more, place, before⟩ ⟨more, next, onward⟩) :
    Owed inner links next left onward := by
  obtain ⟨dir, name, target, first, after, more, link, parts, enough, reaches⟩ := owed
  exact ⟨dir, name, target, first, after, more, link, parts, enough,
    Relation.ReflTransGen.tail reaches (step more)⟩

theorem held_step {links : Nat} (below : Below world base inner) (inside : inner.Inside links)
    (relative : ∀ rel target, inner rel = some (.link target) → target.absolute = false)
    {walk next : Walk κ} (held : Held inner links base walk) (step : world.Step walk next) :
    Held inner links base next := by
  obtain ⟨few, place, stands, owed⟩ := held
  cases step with
  | here dir =>
      refine ⟨few, place, stands, fun before after rest => ?_⟩
      dsimp only at stands rest owed
      rw [stands, below.isDir] at dir
      exact (owed (.here :: before) after (congrArg (List.cons _) rest)).step fun more => Step.here dir
  | up dir =>
      dsimp only at stands owed
      rw [stands, below.isDir] at dir
      have here := owed [] _ rfl
      obtain ⟨dir', name, target, first, after, more, link, parts, _, reaches⟩ := here
      have away : place ≠ [] := by
        intro top
        rw [top] at reaches
        exact inside dir' name target first after link parts more (resolve_eq_found_iff.mpr reaches)
      refine ⟨few, place.dropLast, ?_, fun before after rest => ?_⟩
      · dsimp only
        rw [stands, List.dropLast_append_of_ne_nil away]
      · exact (owed (.up :: before) after (congrArg (List.cons _) rest)).step fun more => Step.up dir
  | @name _ _ part rest node found plain =>
      dsimp only at stands owed
      rw [stands, List.append_assoc] at found
      obtain ⟨other, found', plain'⟩ := below.plain.mp ⟨node, found, plain⟩
      refine ⟨few, place ++ [part], ?_, fun before after rest => ?_⟩
      · dsimp only
        rw [stands, List.append_assoc]
      · exact (owed (.name part :: before) after (congrArg (List.cons _) rest)).step fun more =>
          Step.name found' plain'
  | @link left _ part rest target found =>
      dsimp only at stands owed few
      rw [stands, List.append_assoc] at found
      have found' := below.link.mp found
      refine ⟨by dsimp only; omega, place, ?_, fun before after split_eq => ?_⟩
      · dsimp only
        rw [Target.start, relative _ target found', stands]
        rfl
      · dsimp only at split_eq ⊢
        rcases List.append_eq_append_iff.mp split_eq with ⟨more, before_eq, rest_eq⟩ |
          ⟨more, target_eq, after_eq⟩
        · -- A `..` that was pending before this link was met.
          obtain ⟨dir, name, other, first, last, links', link, parts, enough, reaches⟩ :=
            owed (.name part :: more) after (by rw [rest_eq]; rfl)
          cases links' with
          | zero => omega
          | succ links' =>
              refine ⟨dir, name, other, first, last, links', link, parts, by omega, ?_⟩
              have onward := Relation.ReflTransGen.tail reaches (Step.link found')
              rw [Target.start, relative _ target found'] at onward
              rw [before_eq]
              exact onward
        · cases more with
          | nil =>
              rw [List.nil_append] at after_eq
              obtain ⟨dir, name, other, first, last, links', link, parts, enough, reaches⟩ :=
                owed [.name part] after (by rw [← after_eq]; rfl)
              cases links' with
              | zero => omega
              | succ links' =>
                  refine ⟨dir, name, other, first, last, links', link, parts, by omega, ?_⟩
                  have onward := Relation.ReflTransGen.tail reaches (Step.link found')
                  rw [Target.start, relative _ target found', List.append_nil, target_eq,
                    List.append_nil] at onward
                  exact onward
          | cons first more =>
              rw [List.cons_append, List.cons.injEq] at after_eq
              rw [← after_eq.1] at target_eq
              exact ⟨place, part, target, before, more, links, found', target_eq, by omega,
                Relation.ReflTransGen.refl⟩

theorem contained_of_inside {links : Nat} (below : Below world base inner)
    (inside : inner.Inside links)
    (relative : ∀ rel target, inner rel = some (.link target) → target.absolute = false) :
    world.Contained (links + 1) base := by
  intro names walk reaches
  have held : Held inner links base walk := by
    induction reaches with
    | refl =>
        refine ⟨Nat.le_refl _, [], (List.append_nil base).symm, fun before after rest => ?_⟩
        have member : (.up : Segment κ) ∈ names.map Segment.name := by
          dsimp only at rest
          rw [rest]
          exact List.mem_append_right _ List.mem_cons_self
        obtain ⟨_, _, same⟩ := List.mem_map.mp member
        cases same
    | tail _ step ih => exact held_step below inside relative ih step
  obtain ⟨place, stands, _⟩ := held.within
  rw [stands]
  exact List.prefix_append base place

/-- A walk over the inner tree is made over the outer one too, until it leaves `base`. -/
theorem reaches_below (below : Below world base inner) (rooted : base ≠ [])
    (relative : ∀ rel target, inner rel = some (.link target) → target.absolute = false)
    (pending : List (Segment κ)) {walk next : Walk κ} (reaches : inner.Reaches walk next) :
    world.Reaches ⟨walk.links, base ++ walk.place, walk.rest ++ pending⟩
        ⟨next.links, base ++ next.place, next.rest ++ pending⟩ ∨
      ∃ gone, world.Reaches ⟨walk.links, base ++ walk.place, walk.rest ++ pending⟩ gone ∧
        ¬ base <+: gone.place := by
  induction reaches with
  | refl => exact Or.inl Relation.ReflTransGen.refl
  | tail _ step ih =>
      rcases ih with so_far | gone
      · cases step with
        | here dir =>
            rw [← below.isDir] at dir
            exact Or.inl (Relation.ReflTransGen.tail so_far (Step.here dir))
        | @up links place rest dir =>
            rw [← below.isDir] at dir
            have onward := Relation.ReflTransGen.tail so_far (Step.up dir)
            cases place with
            | nil =>
                right
                refine ⟨_, onward, fun inside => ?_⟩
                have length := inside.length_le
                have some := List.length_pos_iff.mpr rooted
                dsimp only at length
                rw [List.append_nil, List.length_dropLast] at length
                omega
            | cons first place =>
                left
                rwa [List.dropLast_append_of_ne_nil (List.cons_ne_nil first place)] at onward
        | @name links place part rest node found plain =>
            left
            obtain ⟨other, found', plain'⟩ := below.plain.mpr ⟨node, found, plain⟩
            rw [← List.append_assoc] at found'
            have onward := Relation.ReflTransGen.tail so_far (Step.name found' plain')
            rwa [List.append_assoc] at onward
        | @link links place part rest target found =>
            left
            have found' := below.link.mpr found
            rw [← List.append_assoc] at found'
            have onward := Relation.ReflTransGen.tail so_far (Step.link found')
            rw [Target.start, relative _ target found] at onward
            rw [Target.start, relative _ target found, List.append_assoc]
            exact onward
      · exact Or.inr gone

/-- A walk over the names of a directory of the inner tree comes to it. -/
theorem reaches_dir (tree : inner.Tree) (links : Nat) (pending : List (Segment κ))
    {names : List κ} (dir : inner names = some .dir) :
    inner.Reaches ⟨links, [], names.map .name ++ pending⟩ ⟨links, names, pending⟩ := by
  induction names using List.reverseRecOn generalizing pending with
  | nil => exact Relation.ReflTransGen.refl
  | append_singleton names name ih =>
      have there : inner (names ++ [name]) ≠ none := by
        rw [dir]
        exact Option.some_ne_none _
      have above := ih (.name name :: pending) (tree.parents names name there)
      rw [List.map_append, List.append_assoc]
      exact Relation.ReflTransGen.tail above (Step.name dir rfl)

theorem inside_of_contained {links : Nat} (below : Below world base inner) (rooted : base ≠ [])
    (tree : inner.Tree)
    (relative : ∀ rel target, inner rel = some (.link target) → target.absolute = false)
    (contained : world.Contained (links + 1) base) : inner.Inside links := by
  intro dir name target before after link parts left found
  have there : inner (dir ++ [name]) ≠ none := by
    rw [link]
    exact Option.some_ne_none _
  have entered : inner.Reaches ⟨links + 1, [], (dir ++ [name]).map .name⟩
      ⟨links, dir, before ++ .up :: after⟩ := by
    have walked := reaches_dir tree (links + 1) [.name name] (tree.parents dir name there)
    have onward := Relation.ReflTransGen.tail walked (Step.link link)
    rw [Target.start, relative _ target link, parts, List.append_nil] at onward
    rw [List.map_append]
    exact onward
  have inner_up : inner.isDir [] = true := by
    rw [isDir, tree.root]
  have outer_up : world.isDir base = true := by
    rw [← List.append_nil base, below.isDir, inner_up]
  -- The walk over the part before the `..`, and the `..` taken at the root.
  have escapes : ∃ gone, world.Reaches ⟨links, base ++ dir, before ++ .up :: after⟩ gone ∧
      ¬ base <+: gone.place := by
    rcases reaches_below below rooted relative (.up :: after)
      (resolve_eq_found_iff.mp found) with stays | gone
    · refine ⟨_, Relation.ReflTransGen.tail stays (Step.up ?_), fun within => ?_⟩
      · rw [List.append_nil]
        exact outer_up
      · have length := within.length_le
        have some := List.length_pos_iff.mpr rooted
        dsimp only at length
        rw [List.append_nil, List.length_dropLast] at length
        omega
    · exact gone
  rcases reaches_below below rooted relative [] entered with stays | ⟨gone, reaches, outside⟩
  · obtain ⟨gone, reaches, outside⟩ := escapes
    apply outside
    apply contained (dir ++ [name]) gone
    simp only [List.append_nil] at stays
    exact stays.trans reaches
  · apply outside
    apply contained (dir ++ [name]) gone
    simp only [List.append_nil] at reaches
    exact reaches

/-- Where every link is relative, no resolution leaves a directory exactly where no link's `..` is
taken at its root; the root of all directories is never left. -/
theorem contained_iff {links : Nat} (below : Below world base inner) (tree : inner.Tree)
    (relative : ∀ rel target, inner rel = some (.link target) → target.absolute = false) :
    world.Contained (links + 1) base ↔ base = [] ∨ inner.Inside links := by
  constructor
  · intro contained
    by_cases rooted : base = []
    · exact Or.inl rooted
    · exact Or.inr (inside_of_contained below rooted tree relative contained)
  · rintro (top | inside)
    · intro names walk _
      rw [top]
      exact List.nil_prefix
    · exact contained_of_inside below inside relative

end World

end Onelf.Lib
