import Onelf.Lib.PathText

/-! Paths read inside a sysroot as if it were the root file system (`path.rs`). -/

namespace Onelf.Sysroot

open Onelf.Lib

/-- More links than this on one path is taken for a loop, as the kernel does. -/
def maxLinks : Nat := 40

/-- A directory of a disk, read as a root file system. -/
structure Rootfs (α : Type) where
  disk : Disk α
  root : List Bytes
  tree : disk.Tree
  rooted : disk root = some .dir

/-- The components of `path`, taken before what is pending. -/
def queue (pending : List (Segment Bytes)) (path : Bytes) : List (Segment Bytes) :=
  (components path).filterMap Component.segment? ++ pending

/-- What the loop over the pending components comes to: its end, or a link. -/
inductive Pass where
  | done (out : List Bytes)
  | link (out : List Bytes) (target : Bytes) (pending : List (Segment Bytes))

namespace Rootfs

variable {α : Type} (rootfs : Rootfs α)

/-- `read_link` of `out` joined to the root, as the kernel of the disk resolves it. -/
def readLink (out : List Bytes) : Option Bytes :=
  match rootfs.disk.world.resolve false maxLinks [] ((rootfs.root ++ out).map .name) with
  | .found _ place => rootfs.disk.linkAt place
  | _ => none

/-- The components popped up to the next link; a dot is never pending. -/
def pass (followLast : Bool) : List Bytes → List (Segment Bytes) → Pass
  | out, [] => .done out
  | out, .here :: pending => pass followLast out pending
  | out, .up :: pending => pass followLast out.dropLast pending
  | out, .name part :: pending =>
      if pending.isEmpty && !followLast then .done (out ++ [part])
      else match rootfs.readLink (out ++ [part]) with
        | none => pass followLast (out ++ [part]) pending
        | some target => .link out target pending

/-- The loop, with the links it may still follow; `none` where there are too many. -/
def resolveFrom (followLast : Bool) : Nat → List Bytes → List (Segment Bytes) → Option (List Bytes)
  | 0, out, pending =>
      match rootfs.pass followLast out pending with
      | .done out => some out
      | .link _ _ _ => none
  | links + 1, out, pending =>
      match rootfs.pass followLast out pending with
      | .done out => some out
      | .link out target pending =>
          resolveFrom followLast links (if target.head? = some 47 then [] else out)
            (queue pending target)

def resolve (rel : Bytes) (followLast : Bool) : Option (List Bytes) :=
  (rootfs.resolveFrom followLast maxLinks [] (queue [] rel)).map (rootfs.root ++ ·)

/-- `rel` inside the root with every symlink followed in sysroot terms. -/
def inRoot (rel : Bytes) : Option (List Bytes) := rootfs.resolve rel true

/-- As `inRoot`, with the last component left as it is. -/
def entryInRoot (rel : Bytes) : Option (List Bytes) := rootfs.resolve rel false

/-! ### The tree as it looks from inside -/

/-- What lies below the root, as a kernel with that root sees it. -/
def world : World Bytes (Target Bytes) α := fun place => rootfs.disk.world (rootfs.root ++ place)

variable {rootfs}

theorem world_linkAt (place : List Bytes) :
    rootfs.world.linkAt place = (rootfs.disk.linkAt (rootfs.root ++ place)).map Target.ofText :=
  Disk.world_linkAt _

theorem world_tree : rootfs.world.Tree where
  root := by
    rw [world, List.append_nil]
    exact Disk.world_eq_dir.mpr rootfs.rooted
  parents place part there := by
    have tree := Disk.world_tree rootfs.tree
    rw [world, ← List.append_assoc] at there
    exact tree.parents _ part there

/-- No link lies on the way to a place, nor at it. -/
def Clean (rootfs : Rootfs α) (place : List Bytes) : Prop :=
  ∀ before after, place = before ++ after → rootfs.world.linkAt before = none

theorem clean_nil : rootfs.Clean [] := by
  intro before after same
  rw [(List.append_eq_nil_iff.mp same.symm).1, World.linkAt, rootfs.world_tree.root]
  rfl

theorem Clean.dropLast {place : List Bytes} (clean : rootfs.Clean place) :
    rootfs.Clean place.dropLast := by
  intro before after same
  cases place using List.reverseRecOn with
  | nil => exact clean before after same
  | append_singleton place part =>
      rw [List.dropLast_concat] at same
      exact clean before (after ++ [part]) (by rw [same, List.append_assoc])

theorem Clean.push {place : List Bytes} {part : Bytes} (clean : rootfs.Clean place)
    (plain : rootfs.world.linkAt (place ++ [part]) = none) : rootfs.Clean (place ++ [part]) := by
  intro before after same
  cases after using List.reverseRecOn with
  | nil =>
      rw [List.append_nil] at same
      rw [← same]
      exact plain
  | append_singleton after last =>
      rw [← List.append_assoc] at same
      exact clean before after (List.append_inj_left' same rfl)

theorem Clean.start {place : List Bytes} (clean : rootfs.Clean place) (target : Target Bytes) :
    rootfs.Clean (target.start place) := by
  rw [Target.start]
  split
  · exact clean_nil
  · exact clean

/-- A place with no link above it is read on the disk where it lies. -/
theorem readLink_eq {place : List Bytes} {part : Bytes} (clean : rootfs.Clean place) :
    rootfs.readLink (place ++ [part]) =
      rootfs.disk.linkAt (rootfs.root ++ (place ++ [part])) := by
  have tree := Disk.world_tree rootfs.tree
  have clear : rootfs.disk.world.Clear false [] (rootfs.root ++ (place ++ [part])) := by
    intro before name after same more
    have proper : before ++ [name] <+: rootfs.root ++ place := by
      have whole : (before ++ [name]) ++ after = (rootfs.root ++ place) ++ [part] := by
        rw [List.append_assoc, List.append_assoc, same]
        rfl
      cases after using List.reverseRecOn with
      | nil => exact absurd rfl (more.resolve_left Bool.false_ne_true)
      | append_singleton after last =>
          rw [← List.append_assoc] at whole
          exact ⟨after, List.append_inj_left' whole rfl⟩
    rw [List.nil_append]
    rcases List.prefix_or_prefix_of_prefix proper (List.prefix_append rootfs.root place) with
      above | below
    · obtain ⟨rest, rest_eq⟩ := above
      have dir : rootfs.disk.world (before ++ [name]) = some .dir := by
        cases rest with
        | nil =>
            rw [← List.append_nil (before ++ [name]), rest_eq]
            exact Disk.world_eq_dir.mpr rootfs.rooted
        | cons next rest =>
            apply tree.dir_above _ (List.cons_ne_nil next rest)
            rw [rest_eq, Disk.world_eq_dir.mpr rootfs.rooted]
            exact Option.some_ne_none _
      rw [World.linkAt, dir]
      rfl
    · obtain ⟨inner, inner_eq⟩ := below
      rw [← inner_eq] at proper ⊢
      obtain ⟨rest, rest_eq⟩ := proper
      rw [List.append_assoc] at rest_eq
      exact clean inner rest (List.append_cancel_left rest_eq).symm
  rw [readLink]
  rcases World.leg_names clear with ⟨found, _⟩ | ⟨before, name, after, same, absent, stuck⟩
  · rw [World.resolve_of_found maxLinks found, List.nil_append]
  · have none : rootfs.disk (rootfs.root ++ (place ++ [part])) = none := by
      rw [same, ← Disk.world_eq_none]
      have further := tree.absent_below absent after
      rwa [List.nil_append, List.append_assoc] at further
    rw [World.resolve_of_stuck maxLinks stuck, World.linkAt_of_absent none]

/-! ### The loop beside the kernel -/

theorem leg_of_strip_nil {world : World Bytes (Target Bytes) α} {follow : Bool}
    {place : List Bytes} {rest : List (Segment Bytes)} (nothing : strip rest = []) :
    world.leg follow place rest = .found place ∨
      ∃ left, strip left = [] ∧ world.leg follow place rest = .stuck place left := by
  induction rest with
  | nil => exact Or.inl rfl
  | cons segment rest ih =>
      cases segment with
      | here =>
          rw [World.leg]
          split
          · exact ih nothing
          · exact Or.inr ⟨.here :: rest, nothing, rfl⟩
      | up => cases nothing
      | name part => cases nothing

/-- What the loop comes to where a leg of the kernel's walk ends so. -/
def Mirrors (rootfs : Rootfs α) (follow : Bool) (place : List Bytes)
    (pending : List (Segment Bytes)) : World.Leg Bytes → Prop
  | .found stop => rootfs.pass follow place pending = .done stop
  | .stuck stop left =>
      rootfs.pass follow place pending = rootfs.pass follow stop (strip left) ∧ rootfs.Clean stop
  | .link stop target left =>
      ∃ text, rootfs.pass follow place pending = .link stop text (strip left) ∧
        Target.ofText text = target ∧ rootfs.Clean stop

theorem mirrors_of_pass {follow : Bool} {place other : List Bytes}
    {pending left : List (Segment Bytes)} {leg : World.Leg Bytes}
    (same : rootfs.pass follow place pending = rootfs.pass follow other left)
    (mirrors : rootfs.Mirrors follow other left leg) :
    rootfs.Mirrors follow place pending leg := by
  cases leg with
  | found stop => exact same.trans mirrors
  | stuck stop rest => exact ⟨same.trans mirrors.1, mirrors.2⟩
  | link stop target rest =>
      obtain ⟨text, met, read, clean⟩ := mirrors
      exact ⟨text, same.trans met, read, clean⟩

theorem pass_name {follow : Bool} {place : List Bytes} {part : Bytes}
    {pending : List (Segment Bytes)} (clean : rootfs.Clean place)
    (more : (pending.isEmpty && !follow) = false) :
    rootfs.pass follow place (.name part :: pending) =
      match rootfs.disk.linkAt (rootfs.root ++ (place ++ [part])) with
      | none => rootfs.pass follow (place ++ [part]) pending
      | some target => .link place target pending := by
  rw [pass, if_neg (by rw [more]; exact Bool.false_ne_true), readLink_eq clean]

/-- The loop goes where the kernel goes, as far as the next link. -/
theorem pass_mirrors (follow : Bool) {place : List Bytes} (rest : List (Segment Bytes))
    (clean : rootfs.Clean place) :
    rootfs.Mirrors follow place (strip rest) (rootfs.world.leg follow place rest) := by
  induction rest generalizing place with
  | nil => exact rfl
  | cons segment rest ih =>
      cases segment with
      | here =>
          rw [World.leg, strip]
          split
          · exact ih clean
          · exact ⟨rfl, clean⟩
      | up =>
          rw [World.leg, strip]
          split
          · exact mirrors_of_pass rfl (ih clean.dropLast)
          · exact ⟨rfl, clean⟩
      | name part =>
          rw [strip]
          cases held : rootfs.world (place ++ [part]) with
          | none =>
              rw [World.leg, held]
              exact ⟨rfl, clean⟩
          | some node =>
              cases plain : node.target? with
              | some target =>
                  have link : rootfs.world.linkAt (place ++ [part]) = some target := by
                    rw [World.linkAt, held]
                    exact plain
                  rw [world_linkAt, Option.map_eq_some_iff] at link
                  obtain ⟨text, lies, read⟩ := link
                  have node_eq : node = .link target := by
                    cases node <;> simp_all [Node.target?]
                  rw [World.leg, held, node_eq]
                  by_cases more : ((strip rest).isEmpty && !follow) = false
                  · have through : (follow || !(strip rest).isEmpty) = true := by
                      revert more
                      cases (strip rest).isEmpty <;> cases follow <;> decide
                    simp only [through, if_true]
                    refine ⟨text, ?_, read, clean⟩
                    rw [pass_name clean more, lies]
                  · have stops : (follow || !(strip rest).isEmpty) = false := by
                      revert more
                      cases (strip rest).isEmpty <;> cases follow <;> decide
                    rw [Bool.not_eq_false] at more
                    simp only [stops, Bool.false_eq_true, if_false]
                    rw [Mirrors, pass, if_pos more]
              | none =>
                  have bare : rootfs.world.linkAt (place ++ [part]) = none := by
                    rw [World.linkAt, held]
                    exact plain
                  rw [World.leg_name held plain]
                  by_cases more : ((strip rest).isEmpty && !follow) = false
                  · apply mirrors_of_pass _ (ih (clean.push bare))
                    rw [rootfs.world_linkAt, Option.map_eq_none_iff] at bare
                    rw [pass_name clean more, bare]
                  · rw [Bool.not_eq_false, Bool.and_eq_true, List.isEmpty_iff] at more
                    have done : rootfs.pass follow place (.name part :: strip rest) =
                        .done (place ++ [part]) := by
                      rw [pass, if_pos (by rw [more.1, List.isEmpty_nil, more.2]; rfl)]
                    rcases leg_of_strip_nil more.1 with found | ⟨left, nothing, stuck⟩
                    · rw [found]
                      exact done
                    · rw [stuck, Mirrors, done, nothing]
                      exact ⟨rfl, clean.push bare⟩

theorem queue_ofText (text : Bytes) (rest : List (Segment Bytes)) :
    queue (strip rest) text = strip ((Target.ofText text).segments ++ rest) := by
  rw [queue, strip_append, strip_ofText]

theorem start_ofText (text : Bytes) (place : List Bytes) :
    (Target.ofText text).start place = if text.head? = some 47 then [] else place := by
  rw [Target.start, Target.ofText]
  simp only [decide_eq_true_eq]

/-- What the loop comes to where the kernel's walk ends so. -/
def Follows (rootfs : Rootfs α) (follow : Bool) (result : Option (List Bytes)) :
    Outcome Bytes → Prop
  | .found _ stop => result = some stop
  | .stuck walk =>
      result = rootfs.resolveFrom follow walk.links walk.place (strip walk.rest) ∧
        rootfs.Clean walk.place
  | .looped => result = none

theorem resolveFrom_of_pass {follow : Bool} {links : Nat} {place other : List Bytes}
    {pending left : List (Segment Bytes)}
    (same : rootfs.pass follow place pending = rootfs.pass follow other left) :
    rootfs.resolveFrom follow links place pending = rootfs.resolveFrom follow links other left := by
  cases links with
  | zero => rw [resolveFrom, resolveFrom, same]
  | succ links => rw [resolveFrom, resolveFrom, same]

theorem resolveFrom_follows (follow : Bool) (links : Nat) {place : List Bytes}
    (rest : List (Segment Bytes)) (clean : rootfs.Clean place) :
    rootfs.Follows follow (rootfs.resolveFrom follow links place (strip rest))
      (rootfs.world.resolve follow links place rest) := by
  induction links generalizing place rest with
  | zero =>
      have mirrors := pass_mirrors follow rest clean
      cases reached : rootfs.world.leg follow place rest with
      | found stop =>
          rw [reached] at mirrors
          rw [World.resolve_of_found 0 reached, Follows, resolveFrom, mirrors]
      | stuck stop left =>
          rw [reached] at mirrors
          rw [World.resolve_of_stuck 0 reached]
          exact ⟨resolveFrom_of_pass mirrors.1, mirrors.2⟩
      | link stop target left =>
          rw [reached] at mirrors
          obtain ⟨text, met, _, _⟩ := mirrors
          rw [World.resolve, reached, Follows, resolveFrom, met]
  | succ links ih =>
      have mirrors := pass_mirrors follow rest clean
      cases reached : rootfs.world.leg follow place rest with
      | found stop =>
          rw [reached] at mirrors
          rw [World.resolve_of_found _ reached, Follows, resolveFrom, mirrors]
      | stuck stop left =>
          rw [reached] at mirrors
          rw [World.resolve_of_stuck _ reached]
          exact ⟨resolveFrom_of_pass mirrors.1, mirrors.2⟩
      | link stop target left =>
          rw [reached] at mirrors
          obtain ⟨text, met, read, onward⟩ := mirrors
          have tail := ih ((Target.ofText text).segments ++ left)
            (onward.start (Target.ofText text))
          rw [← queue_ofText, start_ofText] at tail
          rw [World.resolve, reached, resolveFrom, met, ← read]
          dsimp only
          rw [start_ofText]
          exact tail

/-! ### Past a component that leads nowhere -/

/-- What is left after the `..` that answers a component, `depth` more components below it. -/
def answered : Nat → List (Segment Bytes) → Option (List (Segment Bytes))
  | _, [] => none
  | depth, .here :: rest => answered depth rest
  | 0, .up :: rest => some rest
  | depth + 1, .up :: rest => answered depth rest
  | depth, .name _ :: rest => answered (depth + 1) rest

/-- The walk that reads on where one stopped: a dot or a `..` taken as written, a component that is
missing dropped together with the `..` that answers it. -/
def readOn (walk : Walk Bytes) : Option (Walk Bytes) :=
  match walk.rest with
  | [] => none
  | .here :: rest => some ⟨walk.links, walk.place, rest⟩
  | .up :: rest => some ⟨walk.links, walk.place.dropLast, rest⟩
  | .name _ :: rest => (answered 0 rest).map fun rest => ⟨walk.links, walk.place, rest⟩

/-- Reading on, as often as it takes, from where a walk stopped comes to something that exists. -/
inductive Revived (rootfs : Rootfs α) (follow : Bool) : Walk Bytes → Prop
  | found {walk next : Walk Bytes} {links : Nat} {place : List Bytes} :
      readOn walk = some next →
      rootfs.world.resolve follow next.links next.place next.rest = .found links place →
      Revived rootfs follow walk
  | again {walk next last : Walk Bytes} : readOn walk = some next →
      rootfs.world.resolve follow next.links next.place next.rest = .stuck last →
      Revived rootfs follow last → Revived rootfs follow walk

theorem answered_of_strip_nil {depth : Nat} {rest : List (Segment Bytes)}
    (nothing : strip rest = []) : answered depth rest = none := by
  induction rest with
  | nil => rfl
  | cons segment rest ih =>
      cases segment with
      | here =>
          rw [answered]
          exact ih nothing
      | up => cases nothing
      | name part => cases nothing

theorem length_answered {depth : Nat} {rest left : List (Segment Bytes)}
    (found : answered depth rest = some left) : left.length < rest.length := by
  induction rest generalizing depth with
  | nil => cases found
  | cons segment rest ih =>
      rw [List.length_cons]
      cases segment with
      | here =>
          rw [answered] at found
          exact Nat.lt_succ_of_lt (ih found)
      | up =>
          cases depth with
          | zero =>
              rw [answered, Option.some.injEq] at found
              rw [found]
              exact Nat.lt_succ_self _
          | succ depth =>
              rw [answered] at found
              exact Nat.lt_succ_of_lt (ih found)
      | name part =>
          rw [answered] at found
          exact Nat.lt_succ_of_lt (ih found)

theorem clean_below_missing {place : List Bytes} {part : Bytes} (clean : rootfs.Clean place)
    (missing : rootfs.world (place ++ [part]) = none) (names : List Bytes) :
    rootfs.Clean (place ++ part :: names) := by
  induction names using List.reverseRecOn with
  | nil => exact clean.push (World.linkAt_of_absent missing)
  | append_singleton names name ih =>
      have gone := rootfs.world_tree.absent_below missing (names ++ [name])
      rw [List.append_assoc, List.singleton_append] at gone
      have bare : rootfs.world.linkAt (place ++ part :: names ++ [name]) = none := by
        rw [List.append_assoc, List.cons_append]
        exact World.linkAt_of_absent gone
      have longer := ih.push bare
      rwa [List.append_assoc, List.cons_append] at longer

/-- Below a missing component the loop pushes and pops, until the component itself is popped. -/
theorem pass_missing (follow : Bool) {place : List Bytes} {part : Bytes}
    (rest : List (Segment Bytes)) (clean : rootfs.Clean place)
    (missing : rootfs.world (place ++ [part]) = none) (names : List Bytes) :
    (∀ left, answered names.length rest = some left →
      rootfs.pass follow (place ++ part :: names) (strip rest) =
        rootfs.pass follow place (strip left)) ∧
    (answered names.length rest = none → ∃ more,
      rootfs.pass follow (place ++ part :: names) (strip rest) = .done (place ++ part :: more)) := by
  induction rest generalizing names with
  | nil => exact ⟨fun left found => (by cases found), fun _ => ⟨names, rfl⟩⟩
  | cons segment rest ih =>
      cases segment with
      | here =>
          rw [answered, strip]
          exact ih names
      | up =>
          rw [strip, pass]
          cases names using List.reverseRecOn with
          | nil =>
              rw [List.length_nil, answered, List.dropLast_concat]
              refine ⟨fun left found => ?_, fun none => (by cases none)⟩
              rw [Option.some.inj found]
          | append_singleton names name =>
              rw [List.length_append, List.length_singleton, answered, ← List.cons_append,
                ← List.append_assoc, List.dropLast_concat]
              exact ih names
      | name other =>
          rw [strip, answered]
          by_cases more : ((strip rest).isEmpty && !follow) = false
          · have gone : rootfs.disk.linkAt (rootfs.root ++ (place ++ part :: names ++ [other])) =
                none := by
              have below := rootfs.world_tree.absent_below missing (names ++ [other])
              have bare := World.linkAt_of_absent below
              rw [world_linkAt, Option.map_eq_none_iff] at bare
              rw [← bare]
              simp
            rw [pass_name (clean_below_missing clean missing names) more, gone]
            have longer := ih (names ++ [other])
            rw [List.length_append, List.length_singleton] at longer
            rw [List.append_assoc, List.cons_append]
            exact longer
          · rw [Bool.not_eq_false] at more
            have empty := List.isEmpty_iff.mp ((Bool.and_eq_true _ _).mp more).1
            rw [answered_of_strip_nil empty]
            refine ⟨fun left found => (by cases found), fun _ => ⟨names ++ [other], ?_⟩⟩
            rw [pass, if_pos more, List.append_assoc]
            rfl

/-- A walk that has stopped where the loop also stands. -/
structure Stopped (rootfs : Rootfs α) (walk : Walk Bytes) : Prop where
  clean : rootfs.Clean walk.place
  there : rootfs.world walk.place ≠ none
  halted : World.Tree.Halted rootfs.world walk.place walk.rest

/-- The loop from where a walk stands. -/
def goOn (rootfs : Rootfs α) (follow : Bool) (walk : Walk Bytes) : Option (List Bytes) :=
  rootfs.resolveFrom follow walk.links walk.place (strip walk.rest)

/-- Reading on changes nothing for the loop. -/
theorem pass_of_readOn {follow : Bool} {walk next : Walk Bytes} (stopped : rootfs.Stopped walk)
    (reads : readOn walk = some next) :
    rootfs.pass follow walk.place (strip walk.rest) = rootfs.pass follow next.place (strip next.rest) ∧
      rootfs.Clean next.place ∧ rootfs.world next.place ≠ none ∧ next.links = walk.links ∧
        next.rest.length < walk.rest.length := by
  obtain ⟨links, place, rest⟩ := walk
  obtain ⟨clean, there, halted⟩ := stopped
  cases rest with
  | nil => cases reads
  | cons segment rest =>
      cases segment with
      | here =>
          cases Option.some.inj reads
          exact ⟨rfl, clean, there, rfl, Nat.lt_succ_self _⟩
      | up =>
          cases Option.some.inj reads
          exact ⟨rfl, clean.dropLast, rootfs.world_tree.dropLast_there there, rfl,
            Nat.lt_succ_self _⟩
      | name part =>
          obtain ⟨left, found, same⟩ := Option.map_eq_some_iff.mp reads
          rw [← same]
          refine ⟨?_, clean, there, rfl, Nat.lt_succ_of_lt (length_answered found)⟩
          rw [← (pass_missing follow rest clean halted []).1 left found, strip]
          -- The push of the missing component itself.
          by_cases more : ((strip rest).isEmpty && !follow) = false
          · have bare := World.linkAt_of_absent halted
            rw [world_linkAt, Option.map_eq_none_iff] at bare
            rw [pass_name clean more, bare]
          · rw [Bool.not_eq_false, Bool.and_eq_true, List.isEmpty_iff] at more
            rw [answered_of_strip_nil more.1] at found
            cases found

/-- Where nothing is left to read on to, the loop is done where nothing exists. -/
theorem pass_of_unanswered {follow : Bool} {walk : Walk Bytes} (stopped : rootfs.Stopped walk)
    (ends : readOn walk = none) :
    ∃ out, rootfs.pass follow walk.place (strip walk.rest) = .done out ∧
      rootfs.world out = none := by
  obtain ⟨links, place, rest⟩ := walk
  obtain ⟨clean, there, halted⟩ := stopped
  cases rest with
  | nil => exact absurd halted not_false
  | cons segment rest =>
      cases segment with
      | here => cases ends
      | up => cases ends
      | name part =>
          have unanswered : answered 0 rest = none := Option.map_eq_none_iff.mp ends
          obtain ⟨more, done⟩ : ∃ more,
              rootfs.pass follow place (.name part :: strip rest) = .done (place ++ part :: more) := by
            by_cases onward : ((strip rest).isEmpty && !follow) = false
            · obtain ⟨more, done⟩ := (pass_missing follow rest clean halted []).2 unanswered
              refine ⟨more, ?_⟩
              have bare := World.linkAt_of_absent halted
              rw [world_linkAt, Option.map_eq_none_iff] at bare
              rw [pass_name clean onward, bare]
              exact done
            · rw [Bool.not_eq_false] at onward
              exact ⟨[], by rw [pass, if_pos onward]⟩
          have gone := rootfs.world_tree.absent_below halted more
          rw [List.append_assoc] at gone
          exact ⟨place ++ part :: more, done, gone⟩

theorem goOn_of_readOn {follow : Bool} {walk next : Walk Bytes} (stopped : rootfs.Stopped walk)
    (reads : readOn walk = some next) :
    rootfs.goOn follow walk = rootfs.goOn follow next ∧ rootfs.Clean next.place ∧
      rootfs.world next.place ≠ none ∧ next.links = walk.links ∧
        next.rest.length < walk.rest.length := by
  obtain ⟨same, rest⟩ := @pass_of_readOn α rootfs follow walk next stopped reads
  refine ⟨?_, rest⟩
  rw [goOn, goOn, rest.2.2.1]
  exact resolveFrom_of_pass same

theorem goOn_of_unanswered {follow : Bool} {walk : Walk Bytes} (stopped : rootfs.Stopped walk)
    (ends : readOn walk = none) {out : List Bytes} (result : rootfs.goOn follow walk = some out) :
    rootfs.world out = none := by
  obtain ⟨stop, done, gone⟩ := @pass_of_unanswered α rootfs follow walk stopped ends
  obtain ⟨links, place, rest⟩ := walk
  dsimp only at done
  rw [goOn] at result
  cases links with
  | zero =>
      rw [resolveFrom, done, Option.some.injEq] at result
      rwa [← result]
  | succ links =>
      rw [resolveFrom, done, Option.some.injEq] at result
      rwa [← result]

theorem stopped_of_resolve {follow : Bool} {links : Nat} {place : List Bytes}
    {rest : List (Segment Bytes)} {walk : Walk Bytes} (clean : rootfs.Clean place)
    (there : rootfs.world place ≠ none)
    (stuck : rootfs.world.resolve follow links place rest = .stuck walk) :
    rootfs.Stopped walk ∧
      rootfs.resolveFrom follow links place (strip rest) = rootfs.goOn follow walk := by
  have follows := resolveFrom_follows follow links rest clean
  have ends := rootfs.world_tree.resolve_ends follow links rest there
  rw [stuck] at follows ends
  exact ⟨⟨follows.2, ends.1, ends.2⟩, follows.1⟩

theorem revived_of_goOn {follow : Bool} {walk : Walk Bytes} (stopped : rootfs.Stopped walk)
    {out : List Bytes} (result : rootfs.goOn follow walk = some out)
    (there : rootfs.world out ≠ none) : rootfs.Revived follow walk := by
  cases reads : readOn walk with
  | none => exact absurd (goOn_of_unanswered stopped reads result) there
  | some next =>
      obtain ⟨same, clean, stands, links, shorter⟩ := goOn_of_readOn stopped reads
      cases reached : rootfs.world.resolve follow next.links next.place next.rest with
      | found left place => exact Revived.found reads reached
      | looped =>
          have follows := resolveFrom_follows follow next.links next.rest clean
          rw [reached] at follows
          rw [same, goOn, follows] at result
          cases result
      | stuck last =>
          obtain ⟨again, same'⟩ := stopped_of_resolve clean stands reached
          have fewer := World.left_of_stuck reached
          rw [same, goOn, same'] at result
          exact Revived.again reads reached (revived_of_goOn again result there)
termination_by (walk.links, walk.rest.length)
decreasing_by
  rcases fewer with fewer | ⟨equal, length⟩
  · left
    omega
  · rw [Prod.lex_def]
    right
    exact ⟨by dsimp only; omega, by dsimp only; omega⟩

theorem goOn_of_revived {follow : Bool} {walk : Walk Bytes} (stopped : rootfs.Stopped walk)
    (revived : rootfs.Revived follow walk) :
    ∃ out, rootfs.goOn follow walk = some out ∧ rootfs.world out ≠ none := by
  induction revived with
  | @found walk next links place reads reached =>
      obtain ⟨same, clean, stands, _, _⟩ := goOn_of_readOn stopped reads
      have follows := resolveFrom_follows follow next.links next.rest clean
      have ends := rootfs.world_tree.resolve_ends follow next.links next.rest stands
      rw [reached] at follows ends
      exact ⟨_, same.trans follows, ends⟩
  | again reads reached _ ih =>
      obtain ⟨same, clean, stands, _, _⟩ := goOn_of_readOn stopped reads
      obtain ⟨again, same'⟩ := stopped_of_resolve clean stands reached
      obtain ⟨out, result, there⟩ := ih again
      exact ⟨out, same.trans (same'.trans result), there⟩

/-! ### The result -/

theorem pass_clean {follow : Bool} {place : List Bytes} (pending : List (Segment Bytes))
    (clean : rootfs.Clean place) :
    (∀ out, rootfs.pass follow place pending = .done out → ∀ before after, out = before ++ after →
      follow = true ∨ after ≠ [] → rootfs.world.linkAt before = none) ∧
    ∀ out target left, rootfs.pass follow place pending = .link out target left →
      rootfs.Clean out := by
  induction pending generalizing place with
  | nil =>
      refine ⟨fun out done before after same _ => ?_, fun out target left met => (by cases met)⟩
      cases done
      exact clean before after same
  | cons segment pending ih =>
      cases segment with
      | here => exact ih clean
      | up => exact ih clean.dropLast
      | name part =>
          by_cases more : (pending.isEmpty && !follow) = false
          · rw [pass_name clean more]
            cases lies : rootfs.disk.linkAt (rootfs.root ++ (place ++ [part])) with
            | none =>
                refine ih (clean.push ?_)
                rw [world_linkAt, lies]
                rfl
            | some target =>
                refine ⟨fun out done => (by cases done), fun out target left met => ?_⟩
                cases met
                exact clean
          · rw [Bool.not_eq_false] at more
            rw [pass, if_pos more]
            refine ⟨fun out done before after same last => ?_, fun out target left met =>
              (by cases met)⟩
            cases done
            rw [Bool.and_eq_true, Bool.not_eq_true'] at more
            rcases last with follows | below
            · rw [follows] at more
              cases more.2
            · cases after using List.reverseRecOn with
              | nil => exact absurd rfl below
              | append_singleton after last =>
                  rw [← List.append_assoc] at same
                  exact clean before after (List.append_inj_left' same rfl)

theorem resolveFrom_clean {follow : Bool} {links : Nat} {place out : List Bytes}
    {pending : List (Segment Bytes)} (clean : rootfs.Clean place)
    (result : rootfs.resolveFrom follow links place pending = some out) (before after : List Bytes)
    (same : out = before ++ after) (last : follow = true ∨ after ≠ []) :
    rootfs.world.linkAt before = none := by
  induction links generalizing place pending with
  | zero =>
      rw [resolveFrom] at result
      cases passed : rootfs.pass follow place pending with
      | done stop =>
          rw [passed] at result
          rw [Option.some.inj result] at passed
          exact (pass_clean pending clean).1 out passed before after same last
      | link stop target left =>
          rw [passed] at result
          cases result
  | succ links ih =>
      rw [resolveFrom] at result
      cases passed : rootfs.pass follow place pending with
      | done stop =>
          rw [passed] at result
          rw [Option.some.inj result] at passed
          exact (pass_clean pending clean).1 out passed before after same last
      | link stop target left =>
          rw [passed] at result
          have onward := (pass_clean pending clean).2 stop target left passed
          dsimp only at result
          rw [← start_ofText] at result
          exact ih (onward.start (Target.ofText target)) result

/-- A name that leads one directory down. -/
def Proper (name : Bytes) : Prop := name ≠ [] ∧ name ≠ [46] ∧ name ≠ [46, 46] ∧ 47 ∉ name

theorem proper_of_queue {pending : List (Segment Bytes)} {path : Bytes}
    (proper : ∀ name, .name name ∈ pending → Proper name) {name : Bytes}
    (member : .name name ∈ queue pending path) : Proper name := by
  rw [queue, List.mem_append, List.mem_filterMap] at member
  rcases member with ⟨component, inside, same⟩ | before
  · cases component with
    | normal other =>
        cases same
        rw [components, List.mem_append, List.mem_filterMap] at inside
        rcases inside with first | ⟨part, cut, read⟩
        · split at first
          · cases List.mem_singleton.mp first
          · split at first
            · cases List.mem_singleton.mp first
            · cases first
        · rw [componentOf] at read
          split at read
          · cases read
          · next something =>
              split at read
              · cases read
              · next below =>
                  cases read
                  exact ⟨(not_or.mp something).1, (not_or.mp something).2, below,
                    not_mem_of_mem_splitOn cut⟩
    | root => cases same
    | current => cases same
    | parent => cases same
  · exact proper name before

theorem pass_proper {follow : Bool} {place : List Bytes} {pending : List (Segment Bytes)}
    (placed : ∀ name ∈ place, Proper name) (queued : ∀ name, .name name ∈ pending → Proper name) :
    (∀ out, rootfs.pass follow place pending = .done out → ∀ name ∈ out, Proper name) ∧
    ∀ out target left, rootfs.pass follow place pending = .link out target left →
      (∀ name ∈ out, Proper name) ∧ ∀ name, .name name ∈ left → Proper name := by
  induction pending generalizing place with
  | nil =>
      refine ⟨fun out done => ?_, fun out target left met => (by cases met)⟩
      cases done
      exact placed
  | cons segment pending ih =>
      have later : ∀ name, .name name ∈ pending → Proper name :=
        fun name member => queued name (List.mem_cons_of_mem _ member)
      cases segment with
      | here => exact ih placed later
      | up => exact ih (fun name member => placed name (List.mem_of_mem_dropLast member)) later
      | name part =>
          have pushed : ∀ name ∈ place ++ [part], Proper name := by
            intro name member
            rcases List.mem_append.mp member with before | last
            · exact placed name before
            · rw [List.mem_singleton.mp last]
              exact queued part List.mem_cons_self
          rw [pass]
          split
          · refine ⟨fun out done => ?_, fun out target left met => (by cases met)⟩
            cases done
            exact pushed
          · split
            · exact ih pushed later
            · refine ⟨fun out done => (by cases done), fun out target left met => ?_⟩
              cases met
              exact ⟨placed, later⟩

theorem resolveFrom_proper {follow : Bool} {links : Nat} {place out : List Bytes}
    {pending : List (Segment Bytes)} (placed : ∀ name ∈ place, Proper name)
    (queued : ∀ name, .name name ∈ pending → Proper name)
    (result : rootfs.resolveFrom follow links place pending = some out) :
    ∀ name ∈ out, Proper name := by
  induction links generalizing place pending with
  | zero =>
      rw [resolveFrom] at result
      cases passed : rootfs.pass follow place pending with
      | done stop =>
          rw [passed] at result
          rw [Option.some.inj result] at passed
          exact (pass_proper placed queued).1 out passed
      | link stop target left =>
          rw [passed] at result
          cases result
  | succ links ih =>
      rw [resolveFrom] at result
      cases passed : rootfs.pass follow place pending with
      | done stop =>
          rw [passed] at result
          rw [Option.some.inj result] at passed
          exact (pass_proper placed queued).1 out passed
      | link stop target left =>
          rw [passed] at result
          obtain ⟨stays, waits⟩ := (pass_proper placed queued).2 stop target left passed
          refine ih ?_ (fun name member => proper_of_queue waits member) result
          split
          · exact fun name member => absurd member List.not_mem_nil
          · exact stays

/-- The kernel's resolution of `rel` with the root as its root directory. -/
def chroot (rootfs : Rootfs α) (rel : Bytes) (follow : Bool) : Outcome Bytes :=
  rootfs.world.resolve follow maxLinks [] (Target.ofText rel).segments

/-- What a resolution promises its callers. -/
structure Faithful (rootfs : Rootfs α) (rel : Bytes) (follow : Bool)
    (result : Option (List Bytes)) : Prop where
  found : ∀ links place, rootfs.chroot rel follow = .found links place →
    result = some (rootfs.root ++ place)
  absent : ∀ walk, rootfs.chroot rel follow = .stuck walk → ∀ path, result = some path →
    rootfs.disk path = none
  inside : ∀ path, result = some path → ∃ out, path = rootfs.root ++ out ∧
    (∀ name ∈ out, Proper name) ∧
    ∀ before after, out = before ++ after → follow = true ∨ after ≠ [] →
      rootfs.disk.linkAt (rootfs.root ++ before) = none

theorem resolve_faithful_iff (rel : Bytes) (follow : Bool) :
    rootfs.Faithful rel follow (rootfs.resolve rel follow) ↔
      ∀ walk, rootfs.chroot rel follow = .stuck walk → ¬ rootfs.Revived follow walk := by
  have there : rootfs.world [] ≠ none := by
    rw [rootfs.world_tree.root]
    exact Option.some_ne_none _
  have queued : queue [] rel = strip (Target.ofText rel).segments := by
    rw [queue, List.append_nil, strip_ofText]
  constructor
  · intro faithful walk stuck revived
    obtain ⟨stopped, same⟩ := stopped_of_resolve clean_nil there stuck
    obtain ⟨out, result, lies⟩ := goOn_of_revived stopped revived
    have path : rootfs.resolve rel follow = some (rootfs.root ++ out) := by
      rw [resolve, queued, same, result]
      rfl
    exact lies (Disk.world_eq_none.mpr (faithful.absent walk stuck _ path))
  · intro lost
    constructor
    · intro links place found
      have follows := resolveFrom_follows follow maxLinks (Target.ofText rel).segments
        rootfs.clean_nil
      rw [chroot] at found
      rw [found] at follows
      rw [resolve, queued, follows]
      rfl
    · intro walk stuck path result
      obtain ⟨stopped, same⟩ := stopped_of_resolve clean_nil there stuck
      rw [resolve, queued, same, Option.map_eq_some_iff] at result
      obtain ⟨out, result, path_eq⟩ := result
      rw [← path_eq]
      by_contra lies
      exact lost walk stuck
        (revived_of_goOn stopped result fun absent => lies (Disk.world_eq_none.mp absent))
    · intro path result
      rw [resolve, Option.map_eq_some_iff] at result
      obtain ⟨out, result, path_eq⟩ := result
      refine ⟨out, path_eq.symm, ?_, fun before after same last => ?_⟩
      · exact resolveFrom_proper (fun name member => absurd member List.not_mem_nil)
          (fun name member => proper_of_queue (fun name none => absurd none List.not_mem_nil)
            member) result
      · have bare := resolveFrom_clean rootfs.clean_nil result before after same last
        rwa [world_linkAt, Option.map_eq_none_iff] at bare

/-- Both resolutions agree with a kernel rooted at the sysroot exactly where reading on past what
leads nowhere comes to nothing. -/
theorem inRoot_faithful_iff (rootfs : Rootfs α) (rel : Bytes) :
    (rootfs.Faithful rel true (rootfs.inRoot rel) ↔
      ∀ walk, rootfs.chroot rel true = .stuck walk → ¬ rootfs.Revived true walk) ∧
    (rootfs.Faithful rel false (rootfs.entryInRoot rel) ↔
      ∀ walk, rootfs.chroot rel false = .stuck walk → ¬ rootfs.Revived false walk) :=
  ⟨resolve_faithful_iff rel true, resolve_faithful_iff rel false⟩

/-- A disk with `etc/passwd` and nothing else. -/
def passwdDisk : Disk Unit := fun place =>
  if place = [] ∨ place = [utf8 "etc"] then some .dir
  else if place = [utf8 "etc", utf8 "passwd"] then some (.file ())
  else none

theorem passwdDisk_tree : passwdDisk.Tree where
  root := rfl
  parents place part there := by
    have known : place ++ [part] = [] ∨ place ++ [part] = [utf8 "etc"] ∨
        place ++ [part] = [utf8 "etc"] ++ [utf8 "passwd"] := by
      by_contra other
      obtain ⟨nothing, first, second⟩ := not_or.mp other |>.imp_right not_or.mp
      apply there
      rw [passwdDisk, if_neg (not_or.mpr ⟨nothing, first⟩)]
      exact if_neg second
    rcases known with nothing | first | second
    · simp at nothing
    · rw [(List.append_eq_singleton_iff.mp first).resolve_right (by simp) |>.1]
      rfl
    · rw [List.append_inj_left' second rfl]
      rfl

def passwdRoot : Rootfs Unit := ⟨passwdDisk, [], passwdDisk_tree, rfl⟩

/-- `missing/../etc/passwd` is not there and resolves to a file that is. -/
theorem inRoot_unfaithful :
    ¬ passwdRoot.Faithful (utf8 "missing/../etc/passwd") true
      (passwdRoot.inRoot (utf8 "missing/../etc/passwd")) := by
  intro faithful
  have stuck : passwdRoot.chroot (utf8 "missing/../etc/passwd") true =
      .stuck ⟨40, [], [.name (utf8 "missing"), .up, .name (utf8 "etc"), .name (utf8 "passwd")]⟩ := by
    rfl
  have result : passwdRoot.inRoot (utf8 "missing/../etc/passwd") =
      some [utf8 "etc", utf8 "passwd"] := by
    rfl
  have lies := faithful.absent _ stuck _ result
  cases lies

end Rootfs

end Onelf.Sysroot
