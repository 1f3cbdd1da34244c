import Onelf.Sysroot.Path

/-! Where a candidate below an admitted root leads (`resolve_within` of `candidates.rs`). -/

namespace Onelf.Cli.Bundle.Candidates

open Onelf.Lib Onelf.Sysroot Onelf.Sysroot.Rootfs

/-- Why a candidate is no hit. -/
inductive MissReason where
  | absent
  | outsideRoot
  deriving DecidableEq

variable {α : Type} (rootfs : Rootfs α)

/-- What an absolute target names below the root; a prefix goes by components. -/
def inside (target : Bytes) : Option (List Component) :=
  (components target).dropPrefix? (.root :: rootfs.root.map .normal)

/-- The loop, with the links it may still follow. -/
def within : Nat → List Bytes → List (Segment Bytes) → Except MissReason (List Bytes)
  | 0, out, pending =>
      match rootfs.pass true out pending with
      | .done out => .ok out
      | .link _ _ _ => .error .outsideRoot
  | links + 1, out, pending =>
      match rootfs.pass true out pending with
      | .done out => .ok out
      | .link out target pending =>
          if target.head? = some 47 then
            match inside rootfs target with
            | none => .error .outsideRoot
            | some below => within links [] (below.filterMap Component.segment? ++ pending)
          else within links out (queue pending target)

def resolveWithin (rel : Bytes) : Except MissReason (List Bytes) :=
  (within rootfs maxLinks [] (queue [] rel)).map (rootfs.root ++ ·)

/-! ### The kernel beside it -/

/-- The kernel's resolution of `rel` joined to the root. -/
def kernel (rel : Bytes) : Outcome Bytes :=
  rootfs.disk.world.resolve true maxLinks [] (rootfs.root.map .name ++ (Target.ofText rel).segments)

/-- A component the kernel takes from one location inside the root to another; an absolute link may
name the root again, and `/` is its own parent. Places are those below the root. -/
inductive Step : Walk Bytes → Walk Bytes → Prop
  | here {links : Nat} {place : List Bytes} {rest : List (Segment Bytes)} :
      rootfs.world.isDir place = true →
      Step ⟨links, place, .here :: rest⟩ ⟨links, place, rest⟩
  | up {links : Nat} {place : List Bytes} {rest : List (Segment Bytes)} :
      rootfs.world.isDir place = true → place ≠ [] →
      Step ⟨links, place, .up :: rest⟩ ⟨links, place.dropLast, rest⟩
  | top {links : Nat} {rest : List (Segment Bytes)} : rootfs.root = [] →
      Step ⟨links, [], .up :: rest⟩ ⟨links, [], rest⟩
  | name {links : Nat} {place : List Bytes} {part : Bytes} {rest : List (Segment Bytes)}
      {node : Node (Target Bytes) α} :
      rootfs.world (place ++ [part]) = some node → node.target? = none →
      Step ⟨links, place, .name part :: rest⟩ ⟨links, place ++ [part], rest⟩
  | link {links : Nat} {place : List Bytes} {part : Bytes} {rest : List (Segment Bytes)}
      {target : Target Bytes} :
      rootfs.world (place ++ [part]) = some (.link target) → target.absolute = false →
      Step ⟨links + 1, place, .name part :: rest⟩ ⟨links, place, target.segments ++ rest⟩
  | again {links : Nat} {place : List Bytes} {part : Bytes} {rest lead below : List (Segment Bytes)}
      {target : Target Bytes} :
      rootfs.world (place ++ [part]) = some (.link target) → target.absolute = true →
      target.segments = lead ++ below → strip lead = rootfs.root.map .name →
      Step ⟨links + 1, place, .name part :: rest⟩ ⟨links, [], below ++ rest⟩

/-- The walk a candidate begins. -/
def start (rel : Bytes) : Walk Bytes := ⟨maxLinks, [], (Target.ofText rel).segments⟩

/-- The kernel comes to a location below the root, through none outside it. -/
def Arrives (rel : Bytes) (place : List Bytes) : Prop :=
  ∃ links, Relation.ReflTransGen (Step rootfs) (start rel) ⟨links, place, []⟩

/-! ### Where the kernel goes no further -/

/-- The walk read on where the kernel climbs above the root or stops: the `..` dropped at the root,
a missing component dropped together with the `..` that answers it, a `..` or a dot after a file
taken as written. -/
inductive ReadOn : Walk Bytes → Walk Bytes → Prop
  | climbs {links : Nat} {rest : List (Segment Bytes)} :
      ReadOn ⟨links, [], .up :: rest⟩ ⟨links, [], rest⟩
  | halts {walk next : Walk Bytes} : World.Tree.Halted rootfs.world walk.place walk.rest →
      readOn walk = some next → ReadOn walk next

/-- Reading on wherever it takes. -/
def Mended : Walk Bytes → Walk Bytes → Prop :=
  Relation.ReflTransGen fun walk next => Step rootfs walk next ∨ ReadOn rootfs walk next

/-- The next component is a link that leaves the root or is one too many. -/
def Leaves (walk : Walk Bytes) : Prop :=
  ∃ part rest target, walk.rest = .name part :: rest ∧
    rootfs.world (walk.place ++ [part]) = some (.link target) ∧
      (walk.links = 0 ∨ target.absolute = true ∧
        ¬rootfs.root.map Segment.name <+: strip target.segments)

/-! ### The promise -/

/-- What the function promises of a candidate. -/
structure Agrees (rel : Bytes) : Prop where
  found : ∀ place, Arrives rootfs rel place →
    (∃ links, kernel rootfs rel = .found links (rootfs.root ++ place)) ∧
      resolveWithin rootfs rel = .ok (rootfs.root ++ place)
  refused : ∀ links place, kernel rootfs rel = .found links place → ¬rootfs.root <+: place →
    resolveWithin rootfs rel = .error .outsideRoot
  absent : (∀ links place, kernel rootfs rel ≠ .found links place) →
    ∀ path, resolveWithin rootfs rel = .ok path → rootfs.disk path = none
  confined : ∀ path, resolveWithin rootfs rel = .ok path → rootfs.root <+: path

/-- Where the kernel leaves the root or fails, reading on comes to no location that exists; and
where it ends outside, to a link that leaves. -/
structure Guarded (rel : Bytes) : Prop where
  outside : ∀ links place, kernel rootfs rel = .found links place → ¬rootfs.root <+: place →
    ∃ walk, Mended rootfs (start rel) walk ∧ Leaves rootfs walk
  nowhere : (∀ links place, kernel rootfs rel ≠ .found links place) →
    ∀ links place, ¬Mended rootfs (start rel) ⟨links, place, []⟩

variable {rootfs}

/-! ### A target below the root -/

theorem components_absolute {target : Bytes} (absolute : target.head? = some 47) :
    components target = .root :: (target.splitOn 47).filterMap componentOf := by
  rw [components, if_pos absolute]
  rfl

theorem segment_of_part {part : Bytes} {component : Component}
    (read : componentOf part = some component) :
    (∃ name, component = .normal name) ∨ component = .parent := by
  rw [componentOf] at read
  split_ifs at read
  · exact Or.inr (Option.some.inj read).symm
  · exact Or.inl ⟨part, (Option.some.inj read).symm⟩

theorem names_of_segments {names : List Bytes} {parts : List Bytes} {rest : List (Segment Bytes)}
    (same : (parts.filterMap componentOf).filterMap Component.segment? =
      names.map .name ++ rest) :
    ∃ below, parts.filterMap componentOf = names.map .normal ++ below ∧
      below.filterMap Component.segment? = rest := by
  have plain : ∀ component ∈ parts.filterMap componentOf,
      (∃ name, component = .normal name) ∨ component = .parent := by
    intro component member
    obtain ⟨part, -, read⟩ := List.mem_filterMap.mp member
    exact segment_of_part read
  revert plain same
  generalize parts.filterMap componentOf = comps
  intro same plain
  induction names generalizing comps with
  | nil => exact ⟨comps, rfl, same⟩
  | cons name names ih =>
      cases comps with
      | nil => cases same
      | cons component comps =>
          rw [List.forall_mem_cons] at plain
          rcases plain.1 with ⟨other, rfl⟩ | rfl
          · have first : Component.segment? (.normal other) = some (.name other) := rfl
            rw [List.filterMap_cons_some first, List.map_cons, List.cons_append,
              List.cons.injEq] at same
            obtain ⟨below, parts, rest⟩ := ih comps same.2 plain.2
            refine ⟨below, ?_, rest⟩
            rw [parts, List.map_cons, List.cons_append, Segment.name.inj same.1]
          · have first : Component.segment? .parent = some .up := rfl
            rw [List.filterMap_cons_some first, List.map_cons, List.cons_append,
              List.cons.injEq] at same
            cases same.1

theorem inside_eq_some {text : Bytes} (absolute : text.head? = some 47)
    {rest : List (Segment Bytes)}
    (same : strip (Target.ofText text).segments = rootfs.root.map .name ++ rest) :
    ∃ below, inside rootfs text = some below ∧ below.filterMap Component.segment? = rest := by
  rw [strip_ofText, components_absolute absolute, List.filterMap_cons_none rfl] at same
  obtain ⟨below, parts, left⟩ := names_of_segments same
  refine ⟨below, ?_, left⟩
  rw [inside, components_absolute absolute, parts, ← List.cons_append,
    List.dropPrefix?_eq_some_iff]
  exact ⟨_, rfl, beq_self_eq_true _⟩

theorem inside_eq_none {text : Bytes}
    (leaves : ¬rootfs.root.map Segment.name <+: strip (Target.ofText text).segments) :
    inside rootfs text = none := by
  cases found : inside rootfs text with
  | none => rfl
  | some below =>
      exfalso
      apply leaves
      rw [inside, List.dropPrefix?_eq_some_iff] at found
      obtain ⟨lead, same, matched⟩ := found
      rw [strip_ofText, same, eq_of_beq matched, List.cons_append, List.filterMap_cons_none rfl,
        List.filterMap_append, List.filterMap_map]
      have names : rootfs.root.filterMap (Component.segment? ∘ Component.normal) =
          rootfs.root.map Segment.name := by
        rw [← List.filterMap_eq_map]
        rfl
      rw [names]
      exact List.prefix_append _ _

/-! ### The loop -/

/-- The loop from where a walk stands. -/
def onward (rootfs : Rootfs α) (walk : Walk Bytes) : Except MissReason (List Bytes) :=
  within rootfs walk.links walk.place (strip walk.rest)

theorem within_of_pass {links : Nat} {place other : List Bytes}
    {pending left : List (Segment Bytes)}
    (same : rootfs.pass true place pending = rootfs.pass true other left) :
    within rootfs links place pending = within rootfs links other left := by
  cases links with
  | zero => rw [within, within, same]
  | succ links => rw [within, within, same]

theorem pass_link {place : List Bytes} {part : Bytes} {target : Target Bytes}
    {rest : List (Segment Bytes)} (clean : rootfs.Clean place)
    (held : rootfs.world (place ++ [part]) = some (.link target)) :
    ∃ text, rootfs.pass true place (.name part :: rest) = .link place text rest ∧
      Target.ofText text = target := by
  have link : rootfs.world.linkAt (place ++ [part]) = some target := World.linkAt_eq_some.mpr held
  rw [world_linkAt, Option.map_eq_some_iff] at link
  obtain ⟨text, lies, read⟩ := link
  refine ⟨text, ?_, read⟩
  rw [pass_name clean (by rw [Bool.not_true, Bool.and_false]), lies]

/-- A walk the loop is at. -/
structure Standing (rootfs : Rootfs α) (walk : Walk Bytes) : Prop where
  clean : rootfs.Clean walk.place
  there : rootfs.world walk.place ≠ none

theorem standing_start (rel : Bytes) : Standing rootfs (start rel) :=
  ⟨clean_nil, by rw [start, rootfs.world_tree.root]; exact Option.some_ne_none _⟩

theorem onward_of_step {walk next : Walk Bytes} (standing : Standing rootfs walk)
    (step : Step rootfs walk next) : onward rootfs walk = onward rootfs next ∧
      Standing rootfs next := by
  obtain ⟨clean, there⟩ := standing
  cases step with
  | here dir => exact ⟨rfl, clean, there⟩
  | up dir below =>
      exact ⟨within_of_pass rfl, clean.dropLast, rootfs.world_tree.dropLast_there there⟩
  | top => exact ⟨within_of_pass rfl, clean, there⟩
  | @name links place part rest node held plain =>
      have bare : rootfs.world.linkAt (place ++ [part]) = none := by
        rw [World.linkAt, held]
        exact plain
      have stands : rootfs.world (place ++ [part]) ≠ none := by
        rw [held]
        exact Option.some_ne_none _
      refine ⟨within_of_pass ?_, clean.push bare, stands⟩
      rw [world_linkAt, Option.map_eq_none_iff] at bare
      rw [strip, pass_name clean (by rw [Bool.not_true, Bool.and_false]), bare]
  | @link links place part rest target held relative =>
      obtain ⟨text, met, read⟩ := @pass_link α rootfs place part target (strip rest) clean held
      refine ⟨?_, clean, there⟩
      have other : ¬text.head? = some 47 := by
        rw [← read, Target.ofText] at relative
        simpa using relative
      rw [onward, onward, strip, within, met]
      dsimp only
      rw [if_neg other, queue_ofText, read]
  | @again links place part rest lead below target held absolute cut root =>
      obtain ⟨text, met, read⟩ := @pass_link α rootfs place part target (strip rest) clean held
      refine ⟨?_, clean_nil, ?_⟩
      · have whole : text.head? = some 47 := by
          rw [← read, Target.ofText] at absolute
          simpa using absolute
        have parts : strip (Target.ofText text).segments =
            rootfs.root.map .name ++ strip below := by
          rw [read, cut, strip_append, root]
        obtain ⟨comps, found, left⟩ := inside_eq_some whole parts
        rw [onward, onward, strip, within, met]
        dsimp only
        rw [if_pos whole, found]
        dsimp only
        rw [left, ← strip_append]
      · dsimp only
        rw [rootfs.world_tree.root]
        exact Option.some_ne_none _

theorem onward_of_readOn {walk next : Walk Bytes} (standing : Standing rootfs walk)
    (reads : ReadOn rootfs walk next) : onward rootfs walk = onward rootfs next ∧
      Standing rootfs next := by
  cases reads with
  | climbs => exact ⟨within_of_pass rfl, standing.clean, standing.there⟩
  | halts halted reads =>
      obtain ⟨same, clean, there, links, -⟩ :=
        pass_of_readOn ⟨standing.clean, standing.there, halted⟩ reads
      refine ⟨?_, clean, there⟩
      rw [onward, onward, links]
      exact within_of_pass same

theorem onward_of_mended {walk last : Walk Bytes} (standing : Standing rootfs walk)
    (mended : Mended rootfs walk last) : onward rootfs walk = onward rootfs last ∧
      Standing rootfs last := by
  induction mended with
  | refl => exact ⟨rfl, standing⟩
  | tail _ step ih =>
      rcases step with step | reads
      · obtain ⟨same, stands⟩ := onward_of_step ih.2 step
        exact ⟨ih.1.trans same, stands⟩
      · obtain ⟨same, stands⟩ := onward_of_readOn ih.2 reads
        exact ⟨ih.1.trans same, stands⟩

/-! ### Every run ends -/

/-- A walk in which nothing is left, or nothing that leads anywhere, or only out of the root. -/
def Over (rootfs : Rootfs α) (walk : Walk Bytes) : Prop :=
  walk.rest = [] ∨
    (World.Tree.Halted rootfs.world walk.place walk.rest ∧ readOn walk = none) ∨
      Leaves rootfs walk

theorem strip_split {segments lead rest : List (Segment Bytes)}
    (same : strip segments = lead ++ rest) :
    ∃ first below, segments = first ++ below ∧ strip first = lead ∧ strip below = rest := by
  induction segments generalizing lead with
  | nil =>
      obtain ⟨rfl, rfl⟩ := List.append_eq_nil_iff.mp same.symm
      exact ⟨[], [], rfl, rfl, rfl⟩
  | cons segment segments ih =>
      cases lead with
      | nil => exact ⟨[], segment :: segments, rfl, rfl, same⟩
      | cons head lead =>
          cases segment with
          | here =>
              obtain ⟨first, below, parts, front, back⟩ := ih same
              exact ⟨.here :: first, below, by rw [parts]; rfl, front, back⟩
          | up =>
              rw [strip, List.cons_append, List.cons.injEq] at same
              obtain ⟨first, below, parts, front, back⟩ := ih same.2
              exact ⟨.up :: first, below, by rw [parts]; rfl, by rw [strip, front, same.1], back⟩
          | name part =>
              rw [strip, List.cons_append, List.cons.injEq] at same
              obtain ⟨first, below, parts, front, back⟩ := ih same.2
              exact ⟨.name part :: first, below, by rw [parts]; rfl, by rw [strip, front, same.1],
                back⟩

/-- A walk is over or goes on to one with fewer links, or as many and less to take. -/
theorem over_or_next {walk : Walk Bytes} (standing : Standing rootfs walk) :
    Over rootfs walk ∨ ∃ next, (Step rootfs walk next ∨ ReadOn rootfs walk next) ∧
      (next.links < walk.links ∨
        next.links = walk.links ∧ next.rest.length < walk.rest.length) := by
  have mended {walk : Walk Bytes} (standing : Standing rootfs walk)
      (halted : World.Tree.Halted rootfs.world walk.place walk.rest) :
      Over rootfs walk ∨ ∃ next, (Step rootfs walk next ∨ ReadOn rootfs walk next) ∧
        (next.links < walk.links ∨
          next.links = walk.links ∧ next.rest.length < walk.rest.length) := by
    cases reads : readOn walk with
    | none => exact Or.inl (Or.inr (Or.inl ⟨halted, reads⟩))
    | some next =>
        obtain ⟨-, -, -, links, shorter⟩ :=
          @pass_of_readOn α rootfs true walk next ⟨standing.clean, standing.there, halted⟩ reads
        exact Or.inr ⟨next, Or.inr (.halts halted reads), Or.inr ⟨links, shorter⟩⟩
  obtain ⟨links, place, rest⟩ := walk
  cases rest with
  | nil => exact Or.inl (Or.inl rfl)
  | cons segment rest =>
      cases segment with
      | here =>
          cases dir : rootfs.world.isDir place with
          | true => exact Or.inr ⟨_, Or.inl (.here dir), Or.inr ⟨rfl, Nat.lt_succ_self _⟩⟩
          | false => exact mended standing dir
      | up =>
          cases dir : rootfs.world.isDir place with
          | true =>
              by_cases top : place = []
              · subst top
                exact Or.inr ⟨_, Or.inr .climbs, Or.inr ⟨rfl, Nat.lt_succ_self _⟩⟩
              · exact Or.inr ⟨_, Or.inl (.up dir top), Or.inr ⟨rfl, Nat.lt_succ_self _⟩⟩
          | false => exact mended standing dir
      | name part =>
          cases held : rootfs.world (place ++ [part]) with
          | none => exact mended standing held
          | some node =>
              cases node with
              | dir => exact Or.inr ⟨_, Or.inl (.name held rfl), Or.inr ⟨rfl, Nat.lt_succ_self _⟩⟩
              | file content =>
                  exact Or.inr ⟨_, Or.inl (.name held rfl), Or.inr ⟨rfl, Nat.lt_succ_self _⟩⟩
              | link target =>
                  cases links with
                  | zero =>
                      exact Or.inl (Or.inr (Or.inr ⟨part, rest, target, rfl, held, Or.inl rfl⟩))
                  | succ links =>
                      cases absolute : target.absolute with
                      | false =>
                          exact Or.inr
                            ⟨_, Or.inl (.link held absolute), Or.inl (Nat.lt_succ_self _)⟩
                      | true =>
                          by_cases again : rootfs.root.map Segment.name <+: strip target.segments
                          · obtain ⟨tail, same⟩ := again
                            obtain ⟨lead, below, cut, root, -⟩ := strip_split same.symm
                            exact Or.inr ⟨_, Or.inl (.again held absolute cut root),
                              Or.inl (Nat.lt_succ_self _)⟩
                          · exact Or.inl (Or.inr (Or.inr
                              ⟨part, rest, target, rfl, held, Or.inr ⟨absolute, again⟩⟩))

theorem mended_over {walk : Walk Bytes} (standing : Standing rootfs walk) :
    ∃ last, Mended rootfs walk last ∧ Over rootfs last := by
  rcases over_or_next standing with ended | ⟨next, goes, smaller⟩
  · exact ⟨walk, Relation.ReflTransGen.refl, ended⟩
  · have stands : Standing rootfs next := by
      rcases goes with step | reads
      · exact (onward_of_step standing step).2
      · exact (onward_of_readOn standing reads).2
    obtain ⟨last, mended, ended⟩ := mended_over stands
    exact ⟨last, Relation.ReflTransGen.head goes mended, ended⟩
termination_by (walk.links, walk.rest.length)
decreasing_by
  rcases smaller with fewer | ⟨equal, shorter⟩
  · left
    exact fewer
  · rw [Prod.lex_def]
    exact Or.inr ⟨equal, shorter⟩

theorem onward_done (links : Nat) (place : List Bytes) :
    onward rootfs ⟨links, place, []⟩ = .ok place := by
  cases links <;> rfl

theorem onward_lost {walk : Walk Bytes} (standing : Standing rootfs walk)
    (halted : World.Tree.Halted rootfs.world walk.place walk.rest) (ends : readOn walk = none) :
    ∃ out, onward rootfs walk = .ok out ∧ rootfs.world out = none := by
  obtain ⟨out, done, gone⟩ :=
    @pass_of_unanswered α rootfs true walk ⟨standing.clean, standing.there, halted⟩ ends
  refine ⟨out, ?_, gone⟩
  obtain ⟨links, place, rest⟩ := walk
  dsimp only at done
  rw [onward]
  cases links with
  | zero => rw [within, done]
  | succ links => rw [within, done]

theorem onward_leaves {walk : Walk Bytes} (standing : Standing rootfs walk)
    (leaves : Leaves rootfs walk) : onward rootfs walk = .error .outsideRoot := by
  obtain ⟨part, rest, target, shape, held, out⟩ := leaves
  obtain ⟨links, place, all⟩ := walk
  dsimp only at shape held out
  subst shape
  obtain ⟨text, met, read⟩ := @pass_link α rootfs place part target (strip rest) standing.clean held
  rw [onward, strip]
  cases links with
  | zero => rw [within, met]
  | succ links =>
      obtain ⟨absolute, leaves⟩ := out.resolve_left (Nat.succ_ne_zero links)
      have whole : text.head? = some 47 := by
        rw [← read, Target.ofText] at absolute
        simpa using absolute
      rw [← read] at leaves
      rw [within, met]
      dsimp only
      rw [if_pos whole, inside_eq_none leaves]

theorem resolveWithin_eq (rel : Bytes) :
    resolveWithin rootfs rel = (onward rootfs (start rel)).map (rootfs.root ++ ·) := by
  have queued : queue [] rel = strip (Target.ofText rel).segments := by
    have same := queue_ofText rel []
    rwa [List.append_nil] at same
  rw [resolveWithin, queued]
  rfl


/-! ### The kernel along the walk -/

/-- Where the kernel's resolution of `rel` stands in terms of a walk below the root. -/
def below (rootfs : Rootfs α) (walk : Walk Bytes) : Outcome Bytes :=
  rootfs.disk.world.resolve true walk.links (rootfs.root ++ walk.place) walk.rest

theorem resolve_lead {world : World Bytes (Target Bytes) α} {links : Nat}
    {place names : List Bytes} {lead more : List (Segment Bytes)}
    (named : strip lead = names.map .name)
    (dirs : ∀ before after, names = before ++ after → world (place ++ before) = some .dir) :
    world.resolve true links place (lead ++ more) =
      world.resolve true links (place ++ names) more := by
  have here : world place = some .dir := by
    have first := dirs [] names rfl
    rwa [List.append_nil] at first
  induction lead generalizing place names with
  | nil =>
      rw [List.map_eq_nil_iff.mp named.symm, List.append_nil]
      rfl
  | cons segment lead ih =>
      cases segment with
      | here =>
          have dir : world.isDir place = true := by rw [World.isDir, here]
          exact (World.resolve_of_step (World.Step.here dir)).trans (ih named dirs here)
      | up =>
          cases names with
          | nil => cases named
          | cons name names => cases named
      | name part =>
          cases names with
          | nil => cases named
          | cons name names =>
              rw [strip, List.map_cons, List.cons.injEq] at named
              cases named.1
              have next := dirs [part] names rfl
              rw [List.append_cons]
              refine (World.resolve_of_step (World.Step.name next rfl)).trans (ih named.2 ?_ next)
              intro before after same
              rw [← List.append_cons]
              exact dirs (part :: before) after (by rw [same]; rfl)

theorem root_dirs {before after : List Bytes} (same : rootfs.root = before ++ after) :
    rootfs.disk.world before = some .dir := by
  have tree := Disk.world_tree rootfs.tree
  have rooted : rootfs.disk.world rootfs.root = some .dir := Disk.world_eq_dir.mpr rootfs.rooted
  rw [same] at rooted
  by_cases whole : after = []
  · rw [whole, List.append_nil] at rooted
    exact rooted
  · exact tree.dir_above (by rw [rooted]; exact Option.some_ne_none _) whole

theorem kernel_eq (rel : Bytes) : kernel rootfs rel = below rootfs (start rel) := by
  rw [kernel, below, start, List.append_nil]
  have named : strip (rootfs.root.map Segment.name) = rootfs.root.map Segment.name :=
    strip_names _
  exact resolve_lead named fun before after same => root_dirs same

theorem below_of_step {walk next : Walk Bytes} (step : Step rootfs walk next) :
    below rootfs walk = below rootfs next := by
  cases step with
  | @here links place rest dir =>
      change rootfs.disk.world.isDir (rootfs.root ++ place) = true at dir
      have taken : below rootfs ⟨links, place, .here :: rest⟩ =
          rootfs.disk.world.resolve true links (rootfs.root ++ place) rest :=
        World.resolve_of_step (World.Step.here dir)
      exact taken
  | @up links place rest dir inside =>
      change rootfs.disk.world.isDir (rootfs.root ++ place) = true at dir
      have kept : (rootfs.root ++ place).dropLast = rootfs.root ++ place.dropLast :=
        List.dropLast_append_of_ne_nil inside
      have taken : below rootfs ⟨links, place, .up :: rest⟩ =
          rootfs.disk.world.resolve true links (rootfs.root ++ place).dropLast rest :=
        World.resolve_of_step (World.Step.up dir)
      rw [taken, kept]
      rfl
  | @top links rest whole =>
      have dir : rootfs.disk.world.isDir (rootfs.root ++ []) = true := by
        rw [List.append_nil, World.isDir, root_dirs (List.append_nil _).symm]
      have taken : below rootfs ⟨links, [], .up :: rest⟩ =
          rootfs.disk.world.resolve true links (rootfs.root ++ []).dropLast rest :=
        World.resolve_of_step (World.Step.up dir)
      rw [taken, below, whole]
      rfl
  | @name links place part rest node held plain =>
      rw [Rootfs.world, ← List.append_assoc] at held
      have taken : below rootfs ⟨links, place, .name part :: rest⟩ =
          rootfs.disk.world.resolve true links (rootfs.root ++ place ++ [part]) rest :=
        World.resolve_of_step (World.Step.name held plain)
      rw [taken, below, List.append_assoc]
  | @link links place part rest target held relative =>
      rw [Rootfs.world, ← List.append_assoc] at held
      have taken : below rootfs ⟨links + 1, place, .name part :: rest⟩ =
          rootfs.disk.world.resolve true links (target.start (rootfs.root ++ place))
            (target.segments ++ rest) :=
        World.resolve_of_step (World.Step.link held)
      rw [taken, Target.start, relative]
      rfl
  | @again links place part rest lead inner target held absolute cut root =>
      rw [Rootfs.world, ← List.append_assoc] at held
      have taken : below rootfs ⟨links + 1, place, .name part :: rest⟩ =
          rootfs.disk.world.resolve true links (target.start (rootfs.root ++ place))
            (target.segments ++ rest) :=
        World.resolve_of_step (World.Step.link held)
      rw [taken, Target.start, if_pos absolute, cut, List.append_assoc, below, List.append_nil]
      exact resolve_lead root fun before after same => root_dirs same

theorem kernel_of_arrives {rel : Bytes} {place : List Bytes} (arrives : Arrives rootfs rel place) :
    (∃ links, kernel rootfs rel = .found links (rootfs.root ++ place)) ∧
      resolveWithin rootfs rel = .ok (rootfs.root ++ place) := by
  obtain ⟨links, run⟩ := arrives
  have kept : below rootfs (start rel) = below rootfs ⟨links, place, []⟩ := by
    generalize start rel = walk at run
    induction run using Relation.ReflTransGen.head_induction_on with
    | refl => rfl
    | head step _ ih => exact (below_of_step step).trans ih
  have mended : Mended rootfs (start rel) ⟨links, place, []⟩ :=
    Relation.ReflTransGen.mono (fun _ _ => Or.inl) _ _ run
  refine ⟨⟨links, ?_⟩, ?_⟩
  · rw [kernel_eq, kept, below]
    cases links <;> rfl
  · rw [resolveWithin_eq, (onward_of_mended (standing_start rel) mended).1, onward_done]
    rfl

/-! ### The result -/

/-- A candidate's resolution agrees with the kernel's exactly where reading on past the root or past
what leads nowhere comes to nothing. -/
theorem agrees_iff (rootfs : Rootfs α) (rel : Bytes) : Agrees rootfs rel ↔ Guarded rootfs rel := by
  have standing : Standing rootfs (start rel) := standing_start rel
  constructor
  · intro agrees
    constructor
    · intro links place found outside
      have refused := agrees.refused links place found outside
      obtain ⟨last, mended, ended⟩ := mended_over standing
      obtain ⟨same, stands⟩ := onward_of_mended standing mended
      rw [resolveWithin_eq, same] at refused
      rcases ended with done | ⟨halted, ends⟩ | leaves
      · obtain ⟨links, place, rest⟩ := last
        dsimp only at done
        rw [done, onward_done] at refused
        cases refused
      · obtain ⟨out, result, -⟩ := onward_lost stands halted ends
        rw [result] at refused
        cases refused
      · exact ⟨last, mended, leaves⟩
    · intro fails links place mended
      obtain ⟨same, stands⟩ := onward_of_mended standing mended
      have result : resolveWithin rootfs rel = .ok (rootfs.root ++ place) := by
        rw [resolveWithin_eq, same, onward_done]
        rfl
      exact stands.there (Disk.world_eq_none.mpr (agrees.absent fails _ result))
  · intro guarded
    constructor
    · exact fun place arrives => kernel_of_arrives arrives
    · intro links place found outside
      obtain ⟨walk, mended, leaves⟩ := guarded.outside links place found outside
      obtain ⟨same, stands⟩ := onward_of_mended standing mended
      rw [resolveWithin_eq, same, onward_leaves stands leaves]
      rfl
    · intro fails path result
      obtain ⟨last, mended, ended⟩ := mended_over standing
      obtain ⟨same, stands⟩ := onward_of_mended standing mended
      rw [resolveWithin_eq, same] at result
      rcases ended with done | ⟨halted, ends⟩ | leaves
      · obtain ⟨links, place, rest⟩ := last
        dsimp only at done
        subst done
        exact absurd mended (guarded.nowhere fails links place)
      · obtain ⟨out, lost, gone⟩ := onward_lost stands halted ends
        rw [lost] at result
        rw [← Except.ok.inj result]
        exact Disk.world_eq_none.mp gone
      · rw [onward_leaves stands leaves] at result
        cases result
    · intro path result
      rw [resolveWithin] at result
      cases inner : within rootfs maxLinks [] (queue [] rel) with
      | error reason =>
          rw [inner] at result
          cases result
      | ok out =>
          rw [inner] at result
          rw [← Except.ok.inj result]
          exact List.prefix_append _ _

/-- A root beside a file, with a relative link that climbs to it. -/
def climbDisk : Disk Unit := fun place =>
  if place = [] ∨ place = [utf8 "r"] then some .dir
  else if place = [utf8 "x"] then some (.file ())
  else if place = [utf8 "r", utf8 "a"] then some (.link (utf8 "../x"))
  else none

theorem climbDisk_tree : climbDisk.Tree where
  root := rfl
  parents place part there := by
    rw [climbDisk] at there
    split at there
    · next known =>
        rcases known with nothing | below
        · exact absurd nothing (by simp)
        · rw [(List.append_eq_singleton_iff.mp below).resolve_right (by simp) |>.1]
          rfl
    · split at there
      · next below =>
          rw [(List.append_eq_singleton_iff.mp below).resolve_right (by simp) |>.1]
          rfl
      · split at there
        · next below =>
            have inner : place ++ [part] = [utf8 "r"] ++ [utf8 "a"] := below
            rw [List.append_inj_left' inner rfl]
            rfl
        · exact absurd rfl there

def climbRoot : Rootfs Unit := ⟨climbDisk, [utf8 "r"], climbDisk_tree, rfl⟩

/-- `r/a` leads to `x` beside the root, and a path inside the root is given for it. -/
theorem resolveWithin_climbs : ¬Agrees climbRoot (utf8 "a") := by
  intro agrees
  have found : kernel climbRoot (utf8 "a") = .found 39 [utf8 "x"] := by
    rfl
  have outside : ¬climbRoot.root <+: [utf8 "x"] := by
    rw [show climbRoot.root = [utf8 "r"] from rfl]
    decide
  have refused := agrees.refused 39 [utf8 "x"] found outside
  have result : resolveWithin climbRoot (utf8 "a") = .ok [utf8 "r", utf8 "x"] := by
    rfl
  rw [result] at refused
  cases refused

end Onelf.Cli.Bundle.Candidates
