import Onelf.Cli.Bundle.RunPath

/-! What the entries of a rewritten run path lead to, and when that is all the original named. -/

namespace Onelf.Cli.Bundle.RunPath

open Onelf.Lib

/-! ### Lists without repeats -/

section
variable {β : Type} [BEq β] [LawfulBEq β]

theorem eraseDups_subset {first more : List β} (held : more ⊆ first) :
    (first ++ more).eraseDups = first.eraseDups := by
  have none : more.removeAll first = [] := by
    rw [List.removeAll, List.filter_eq_nil_iff]
    intro member within
    simp [held within]
  rw [List.eraseDups_append, none, List.eraseDups_nil, List.append_nil]

theorem eraseDups_drop {first : List β} {member : β} (held : member ∈ first) (more : List β) :
    (first ++ member :: more).eraseDups = (first ++ more).eraseDups := by
  have same : (member :: more).removeAll first = more.removeAll first := by
    rw [List.removeAll, List.removeAll, List.filter_cons_of_neg]
    simp [held]
  rw [List.eraseDups_append, List.eraseDups_append, same]

end

theorem splitOn_join (entries : List Bytes) (some : entries ≠ []) :
    ([58].intercalate entries).splitOn 58 = entries.flatMap (List.splitOn 58) := by
  induction entries with
  | nil => exact absurd rfl some
  | cons entry entries ih =>
      cases entries with
      | nil => rw [List.intercalate_singleton, List.flatMap_singleton]
      | cons next entries =>
          rw [List.intercalate_cons_cons, List.append_assoc, List.flatMap_cons,
            ← ih (List.cons_ne_nil next entries)]
          exact List.splitOn_append_cons_self entry _

/-! ### Where paths lead -/

section
variable {α : Type} {disk : Disk α}

theorem leads_of_leg {path other : Path}
    (same : disk.world.leg true [] path = disk.world.leg true [] other) :
    leads disk path = leads disk other := by
  rw [leads, leads, World.resolve_of_leg same]

theorem leads_below (tree : disk.Tree) {place : List Bytes} (stands : disk place = some .dir)
    (path : Path) : disk.world.leg true [] (place.map .name ++ path) = disk.world.leg true place path :=
  @World.leg_down _ _ _ (Disk.world_tree tree) true [] place (Disk.world_eq_dir.mpr stands) path

theorem leads_place (tree : disk.Tree) {place : List Bytes} (stands : disk place = some .dir) :
    leads disk (place.map .name) = some place := by
  have dir : disk.world.isDir place = true := World.isDir_eq_true.mpr (Disk.world_eq_dir.mpr stands)
  have leg : disk.world.leg true [] (place.map .name) = .found place := by
    rw [← List.append_nil (place.map _), leads_below tree stands, World.leg]
  rw [leads, World.resolve_of_found kernelLinks leg]
  exact if_pos dir

end

namespace Object

variable {α : Type} (object : Object α) (lib : LibDir)

theorem root_stands : object.disk object.root = some .dir := by
  have tree := Disk.world_tree object.tree
  exact Disk.world_eq_dir.mp (tree.above (Disk.world_eq_dir.mpr object.stands))

theorem origin_eq : object.origin = object.rootPath ++ object.above.map .name :=
  List.map_append

/-- Up to the bundle's directory, and on. -/
theorem leads_up (path : Path) :
    leads object.disk (object.origin ++ (List.replicate object.above.length .up ++ path)) =
      leads object.disk (object.rootPath ++ path) := by
  apply leads_of_leg
  rw [origin, rootPath, leads_below object.tree object.stands,
    leads_below object.tree object.root_stands]
  exact World.leg_ups (Disk.world_tree object.tree) true
    (Disk.world_eq_dir.mpr object.stands) path

theorem leads_wayTo (path : Path) :
    leads object.disk (object.origin ++ wayTo object.above path) =
      leads object.disk (object.rootPath ++ path) := by
  apply leads_of_leg
  rw [origin, rootPath, leads_below object.tree object.stands,
    leads_below object.tree object.root_stands]
  exact World.leg_wayTo (Disk.world_tree object.tree) true
    (Disk.world_eq_dir.mpr object.stands) path

/-! ### Entries -/

theorem dirs_join (entries : List Bytes) (some : entries ≠ []) :
    object.dirs ([58].intercalate entries) = entries.flatMap object.dirs := by
  rw [dirs, splitOn_join entries some, List.filterMap_flatMap]
  rfl

theorem dirs_entry {entry : Bytes} (whole : 58 ∉ entry) : object.dirs entry =
    ((expandRunpathEntry object.origin entry).bind (leads object.disk)).toList := by
  rw [dirs, List.splitOn_eq_singleton whole]
  cases led : (expandRunpathEntry object.origin entry).bind (leads object.disk) with
  | none => exact List.filterMap_cons_none led
  | some place => exact List.filterMap_cons_some led

theorem not_mem_originEntry (up : Nat) {rest : Bytes} (whole : 58 ∉ rest) :
    58 ∉ originEntry up rest := by
  have lead : 58 ∉ utf8 "$ORIGIN" := by decide +kernel
  have above : 58 ∉ (List.replicate up (utf8 "/..")).flatten := by
    intro member
    obtain ⟨part, within, inside⟩ := List.mem_flatten.mp member
    have one : 58 ∉ utf8 "/.." := by decide +kernel
    rw [List.eq_of_mem_replicate within] at inside
    exact one inside
  rw [originEntry, List.mem_append, List.mem_append, not_or, not_or]
  exact ⟨⟨lead, above⟩, whole⟩

theorem dirs_originRunpath :
    object.dirs (originRunpath object.above.length lib.path.bytes) = (object.library lib).toList := by
  have slash : utf8 "/" = [47] := by decide +kernel
  have whole : 58 ∉ utf8 "/" ++ lib.path.bytes := by
    rw [slash, List.singleton_append, List.mem_cons, not_or]
    exact ⟨by decide, lib.whole⟩
  rw [originRunpath, object.dirs_entry (not_mem_originEntry _ whole),
    expand_originEntry object.origin _ (.inr ⟨lib.path.bytes, by rw [slash]; rfl⟩), Option.bind_some,
    object.leads_up, slash, List.singleton_append, parts_slash]
  rfl

theorem dirs_originRunpathFor : object.dirs (object.originRunpathFor lib) = object.leading lib := by
  rw [originRunpathFor, leading]
  split
  · have split : utf8 "$ORIGIN:" = utf8 "$ORIGIN" ++ [58] := by decide +kernel
    have alone : utf8 "$ORIGIN" = originEntry 0 [] := by decide +kernel
    have here : object.dirs (utf8 "$ORIGIN") = [object.root ++ object.above] := by
      rw [alone, object.dirs_entry (not_mem_originEntry 0 List.not_mem_nil),
        expand_originEntry object.origin 0 (.inl rfl), List.replicate_zero, List.nil_append, parts_nil,
        List.append_nil, Option.bind_some, origin, leads_place object.tree object.stands]
      rfl
    have both : object.dirs (utf8 "$ORIGIN" ++ 58 :: originRunpath object.above.length
        lib.path.bytes) = object.dirs (utf8 "$ORIGIN") ++
          object.dirs (originRunpath object.above.length lib.path.bytes) := by
      rw [dirs, List.splitOn_append_cons_self, List.filterMap_append]
      rfl
    rw [split, List.append_assoc, List.singleton_append, both, here, object.dirs_originRunpath]
  · exact object.dirs_originRunpath lib

end Object

/-! ### Directories mapped into the tree -/

/-- A component that its text spells. -/
def Spelled : Segment Bytes → Prop
  | .name part => part ≠ [] ∧ part ≠ [46] ∧ part ≠ [46, 46] ∧ 47 ∉ part ∧ 58 ∉ part
  | .up => True
  | .here => False

theorem spelled_parts {text : Bytes} (whole : 58 ∉ text) : ∀ segment ∈ parts text, Spelled segment := by
  have sorted (pieces : List Bytes) (proper : ∀ piece ∈ pieces, 47 ∉ piece ∧ 58 ∉ piece) :
      ∀ segment ∈ strip (pieces.map segmentOf), Spelled segment := by
    induction pieces with
    | nil => exact fun segment member => absurd member List.not_mem_nil
    | cons piece pieces ih =>
        obtain ⟨here, others⟩ := List.forall_mem_cons.mp proper
        have rest := ih others
        rw [List.map_cons, segmentOf]
        split_ifs with dot above
        · exact rest
        · exact List.forall_mem_cons.mpr ⟨trivial, rest⟩
        · obtain ⟨full, other⟩ := not_or.mp dot
          exact List.forall_mem_cons.mpr ⟨⟨full, other, above, here.1, here.2⟩, rest⟩
  refine sorted (text.splitOn 47) fun piece member => ⟨not_mem_of_mem_splitOn member, ?_⟩
  intro colon
  have whole' : [47].intercalate (text.splitOn 47) = text := List.intercalate_splitOn 47
  exact whole (whole' ▸ mem_intercalate_of_mem 47 member colon)

theorem segmentOf_segmentText {segment : Segment Bytes} (spelled : Spelled segment) :
    segmentOf (segmentText segment) = segment := by
  cases segment with
  | name part =>
      rw [segmentText, segmentOf, if_neg (not_or.mpr ⟨spelled.1, spelled.2.1⟩), if_neg spelled.2.2.1]
  | up => rfl
  | here => cases spelled

theorem segmentText_whole {segment : Segment Bytes} (spelled : Spelled segment) :
    47 ∉ segmentText segment ∧ 58 ∉ segmentText segment := by
  cases segment with
  | name part => exact ⟨spelled.2.2.2.1, spelled.2.2.2.2⟩
  | up => decide
  | here => cases spelled

theorem strip_spelled {path : Path} (spelled : ∀ segment ∈ path, Spelled segment) :
    strip path = path := by
  induction path with
  | nil => rfl
  | cons segment path ih =>
      obtain ⟨here, rest⟩ := List.forall_mem_cons.mp spelled
      cases segment with
      | name part => rw [strip, ih rest]
      | up => rw [strip, ih rest]
      | here => cases here

/-- Components joined into a text are read back. -/
theorem parts_joinPath {path : Path} (spelled : ∀ segment ∈ path, Spelled segment) :
    parts (joinPath (path.map segmentText)) = path := by
  cases path with
  | nil => rfl
  | cons segment path =>
      have whole : (joinPath ((segment :: path).map segmentText)).splitOn 47 =
          (segment :: path).map segmentText := by
        refine List.splitOn_intercalate 47 (fun text member => ?_) (List.cons_ne_nil _ _)
        obtain ⟨segment, within, same⟩ := List.mem_map.mp member
        exact same ▸ (segmentText_whole (spelled segment within)).1
      have back : ((segment :: path).map segmentText).map segmentOf = segment :: path := by
        rw [List.map_map, @List.map_congr_left _ _ _ _ id, List.map_id]
        exact fun segment within => segmentOf_segmentText (spelled segment within)
      rw [parts, Target.ofText, whole, back, strip_spelled spelled]

namespace Object

variable {α : Type} (object : Object α) (lib : LibDir)

theorem mappings_spelled {entry : Bytes} (whole : 58 ∉ entry) {target : Path}
    (mapped : target ∈ object.mappings entry) :
    ∀ segment ∈ target.drop object.rootPath.length, Spelled segment := by
  have rel : 58 ∉ trimSlashes entry := fun member => whole ((List.dropWhile_suffix _).mem member)
  have flat : 58 ∉ (stripPrefix (utf8 "usr/") (trimSlashes entry)).getD (trimSlashes entry) := by
    cases found : stripPrefix (utf8 "usr/") (trimSlashes entry) with
    | none => exact rel
    | some rest =>
        intro member
        apply rel
        rw [stripPrefix_eq_some.mp found]
        exact List.mem_append_right _ member
  have joined (text : Bytes) (whole : 58 ∉ text) :
      ∀ segment ∈ (join object.rootPath text).drop object.rootPath.length, Spelled segment := by
    intro segment member
    rw [join] at member
    split at member
    · exact spelled_parts whole segment (List.mem_of_mem_drop member)
    · rw [List.drop_left] at member
      exact spelled_parts whole segment member
  rcases List.mem_pair.mp mapped with rfl | rfl
  · exact joined _ rel
  · exact joined _ flat

theorem runPathDirsInTree_spelled {target : Path} (found : target ∈ object.runPathDirsInTree) :
    ∀ segment ∈ target.drop object.rootPath.length, Spelled segment := by
  obtain ⟨entry, listed, mapped⟩ := List.mem_flatMap.mp (List.mem_filter.mp found).1
  obtain ⟨runpath, -, piece⟩ := List.mem_flatMap.mp (List.mem_filter.mp listed).1
  exact object.mappings_spelled (not_mem_of_mem_splitOn piece) mapped

/-- The entry for a directory in the tree leads to it. -/
theorem dirs_originRelative {target : Path} {entry : Bytes}
    (made : originRelative object.origin target object.rootPath = some entry)
    (spelled : ∀ segment ∈ target.drop object.rootPath.length, Spelled segment) :
    object.rootPath <+: target ∧ 58 ∉ entry ∧ (∃ text, entry = utf8 "$ORIGIN" ++ text) ∧
      object.dirs entry = (leads object.disk target).toList := by
  rw [originRelative] at made
  split at made
  · next inside =>
      obtain ⟨rest, split⟩ := inside.2
      rw [Option.some.injEq, origin_eq, List.drop_left, ← split, List.drop_left] at made
      rw [← split, List.drop_left] at spelled
      have tail : ∀ segment ∈ (apart (object.above.map Segment.name) rest).2, Spelled segment := by
        obtain ⟨shared, -, whole⟩ := apart_shared (object.above.map Segment.name) rest
        intro segment member
        rw [whole] at spelled
        exact spelled segment (List.mem_append_right _ member)
      generalize text_eq : (if (apart (object.above.map Segment.name) rest).2 = [] then []
        else utf8 "/" ++ joinPath ((apart (object.above.map Segment.name) rest).2.map
          segmentText)) = text at made
      have slash : utf8 "/" = [47] := by decide +kernel
      have opens : text = [] ∨ ∃ more, text = 47 :: more := by
        rw [← text_eq, slash]
        split
        · exact .inl rfl
        · exact .inr ⟨_, rfl⟩
      have read : parts text = (apart (object.above.map Segment.name) rest).2 := by
        rw [← text_eq, slash]
        split
        · next none => exact none.symm
        · rw [List.singleton_append, parts_slash, parts_joinPath tail]
      have whole : 58 ∉ text := by
        rw [← text_eq, slash]
        split
        · exact List.not_mem_nil
        · rw [List.singleton_append, List.mem_cons, not_or]
          refine ⟨by decide, not_mem_joinPath (by decide) fun part within => ?_⟩
          obtain ⟨segment, among, same⟩ := List.mem_map.mp within
          exact same ▸ (segmentText_whole (tail segment among)).2
      rw [← made]
      refine ⟨inside.2, not_mem_originEntry _ whole, ⟨_, List.append_assoc _ _ _⟩, ?_⟩
      rw [object.dirs_entry (not_mem_originEntry _ whole), expand_originEntry object.origin _ opens,
        Option.bind_some, read, ← split]
      exact congrArg _ (object.leads_wayTo rest)
  · cases made

theorem originRelative_isSome {target : Path} :
    (originRelative object.origin target object.rootPath).isSome = true ↔
      object.rootPath <+: target := by
  have own : object.rootPath <+: object.origin := ⟨_, object.origin_eq.symm⟩
  rw [originRelative]
  split
  · next inside => exact iff_of_true rfl inside.2
  · next outside => exact iff_of_false Bool.false_ne_true fun inside => outside ⟨own, inside⟩

/-- The entries name the directories they began with and those that are pushed, each where it comes
first. -/
theorem dirs_pushDirs (targets : List Path) (entries : List Bytes)
    (spelled : ∀ target ∈ targets,
      ∀ segment ∈ target.drop object.rootPath.length, Spelled segment) :
    ((targets.foldl object.pushDir entries).flatMap object.dirs).eraseDups =
      (entries.flatMap object.dirs ++
        (targets.filter (object.rootPath <+: ·)).filterMap (leads object.disk)).eraseDups := by
  induction targets generalizing entries with
  | nil => rw [List.foldl_nil, List.filter_nil, List.filterMap_nil, List.append_nil]
  | cons target targets ih =>
      obtain ⟨here, rest⟩ := List.forall_mem_cons.mp spelled
      rw [List.foldl_cons, ih _ rest, pushDir]
      cases made : originRelative object.origin target object.rootPath with
      | none =>
          have outside : ¬object.rootPath <+: target := by
            rw [← object.originRelative_isSome, made]
            exact Bool.false_ne_true
          rw [List.filter_cons_of_neg (by rw [decide_eq_true_eq]; exact outside)]
      | some entry =>
          obtain ⟨inside, whole, -, led⟩ := object.dirs_originRelative made here
          rw [List.filter_cons_of_pos (by rw [decide_eq_true_eq]; exact inside)]
          dsimp only
          cases found : leads object.disk target with
          | none =>
              rw [found] at led
              rw [List.filterMap_cons_none found]
              split
              · rfl
              · rw [List.flatMap_append, List.flatMap_singleton, led]
                simp
          | some place =>
              rw [found] at led
              rw [List.filterMap_cons_some found]
              split
              · next there =>
                  obtain ⟨part, among, piece⟩ := List.any_eq_true.mp there
                  have held : place ∈ entries.flatMap object.dirs := by
                    rw [object.dirs_entry whole] at led
                    refine List.mem_flatMap.mpr ⟨part, among, List.mem_filterMap.mpr ⟨entry, ?_, ?_⟩⟩
                    · exact List.contains_iff_mem.mp piece
                    · exact Option.mem_toList.mp (led ▸ List.mem_singleton_self place)
                  exact (eraseDups_drop held _).symm
              · rw [List.flatMap_append, List.flatMap_singleton, led, List.append_assoc]
                rfl

end Object

namespace Object

variable {α : Type} (object : Object α) (lib : LibDir)

theorem pushDir_ne_nil {entries : List Bytes} (some : entries ≠ []) (target : Path) :
    object.pushDir entries target ≠ [] := by
  rw [pushDir]
  split
  · split
    · exact some
    · exact List.append_ne_nil_of_left_ne_nil some _
  · exact some

theorem treeRunpathParts_ne_nil : object.treeRunpathParts lib ≠ [] := by
  have kept (targets : List Path) (entries : List Bytes) (some : entries ≠ []) :
      targets.foldl object.pushDir entries ≠ [] := by
    induction targets generalizing entries with
    | nil => exact some
    | cons target targets ih => exact ih _ (object.pushDir_ne_nil some target)
  exact kept _ _ (List.cons_ne_nil _ _)

/-- What a rewritten run path names: the leading directories and those mapped into the tree. -/
theorem dirs_treeRunpath : (object.dirs (object.treeRunpath lib)).eraseDups =
    (object.leading lib ++ object.mapped).eraseDups := by
  rw [treeRunpath, object.dirs_join _ (object.treeRunpathParts_ne_nil lib), treeRunpathParts,
    object.dirs_pushDirs _ _ fun target found => object.runPathDirsInTree_spelled found,
    List.flatMap_singleton, dirs_originRunpathFor]
  rfl

/-- Every entry that is written names the object's directory. -/
theorem splitOn_treeRunpath : ∀ entry ∈ (object.treeRunpath lib).splitOn 58,
    isAbsolute entry = false := by
  have dollar {entry : Bytes} (lead : ∃ text, entry = utf8 "$ORIGIN" ++ text) :
      isAbsolute entry = false := by
    obtain ⟨text, rfl⟩ := lead
    have first : utf8 "$ORIGIN" = 36 :: utf8 "ORIGIN" := by decide +kernel
    rw [isAbsolute, first]
    rfl
  have pieces (targets : List Path) (entries : List Bytes)
      (spelled : ∀ target ∈ targets,
        ∀ segment ∈ target.drop object.rootPath.length, Spelled segment)
      (before : ∀ part ∈ entries, ∀ entry ∈ part.splitOn 58, isAbsolute entry = false) :
      ∀ part ∈ targets.foldl object.pushDir entries, ∀ entry ∈ part.splitOn 58,
        isAbsolute entry = false := by
    induction targets generalizing entries with
    | nil => exact before
    | cons target targets ih =>
        obtain ⟨here, rest⟩ := List.forall_mem_cons.mp spelled
        refine ih _ rest ?_
        rw [pushDir]
        cases made : originRelative object.origin target object.rootPath with
        | none => exact before
        | some entry =>
            obtain ⟨-, whole, lead, -⟩ := object.dirs_originRelative made here
            dsimp only
            split
            · exact before
            · intro part member
              rcases List.mem_append.mp member with old | new
              · exact before part old
              · rw [List.mem_singleton.mp new, List.splitOn_eq_singleton whole]
                intro piece same
                exact List.mem_singleton.mp same ▸ dollar lead
  have first : ∀ entry ∈ (object.originRunpathFor lib).splitOn 58, isAbsolute entry = false := by
    have slash : 58 ∉ utf8 "/" ++ lib.path.bytes := by
      have one : utf8 "/" = [47] := by decide +kernel
      rw [one, List.singleton_append, List.mem_cons, not_or]
      exact ⟨by decide, lib.whole⟩
    have lead : ∃ text, originRunpath object.above.length lib.path.bytes = utf8 "$ORIGIN" ++ text :=
      ⟨_, List.append_assoc _ _ _⟩
    have whole : (originRunpath object.above.length lib.path.bytes).splitOn 58 =
        [originRunpath object.above.length lib.path.bytes] :=
      List.splitOn_eq_singleton (not_mem_originEntry _ slash)
    rw [originRunpathFor]
    split
    · have split : utf8 "$ORIGIN:" = utf8 "$ORIGIN" ++ [58] := by decide +kernel
      have alone : (utf8 "$ORIGIN").splitOn 58 = [utf8 "$ORIGIN"] := by decide +kernel
      rw [split, List.append_assoc, List.singleton_append, List.splitOn_append_cons_self, alone, whole]
      intro entry member
      rcases List.mem_cons.mp member with same | later
      · exact same ▸ dollar ⟨[], (List.append_nil _).symm⟩
      · exact List.mem_singleton.mp later ▸ dollar lead
    · rw [whole]
      intro entry member
      exact List.mem_singleton.mp member ▸ dollar lead
  have all := pieces object.runPathDirsInTree [object.originRunpathFor lib]
    (fun target found => object.runPathDirsInTree_spelled found)
    (List.forall_mem_singleton.mpr first)
  intro entry member
  rw [treeRunpath, splitOn_join _ (object.treeRunpathParts_ne_nil lib)] at member
  obtain ⟨part, within, piece⟩ := List.mem_flatMap.mp member
  exact all part within entry piece

/-- The second time the leading directories are all that is found. -/
theorem dirs_finalized :
    object.dirs ((object.finalized lib).treeRunpath lib) = object.leading lib := by
  have none : (object.finalized lib).runPathDirsInTree = [] := by
    have entries : (object.finalized lib).parseRpathsRaw = (object.treeRunpath lib).splitOn 58 :=
      List.flatMap_singleton _ _
    have relative : ((object.finalized lib).parseRpathsRaw.filter isAbsolute) = [] := by
      rw [entries, List.filter_eq_nil_iff]
      intro entry member
      rw [object.splitOn_treeRunpath lib entry member]
      exact Bool.false_ne_true
    rw [runPathDirsInTree, relative]
    rfl
  have alone : (object.finalized lib).treeRunpath lib = object.originRunpathFor lib := by
    rw [treeRunpath, treeRunpathParts, none, List.foldl_nil, List.intercalate_singleton]
    rfl
  rw [alone, object.dirs_originRunpathFor]

/-! ### What a run path must keep -/

/-- A rewritten run path names the bundle's own directories: inside the bundle, first the leading
ones and then all that the original named, and when it is rewritten once more the same. -/
structure Keeps : Prop where
  inside : ∀ place ∈ object.dirs (object.treeRunpath lib), object.root <+: place
  order : (object.dirs (object.treeRunpath lib)).eraseDups =
    (object.leading lib ++ object.named).eraseDups
  again : ∀ place, place ∈ object.dirs ((object.finalized lib).treeRunpath lib) ↔
    place ∈ object.dirs (object.treeRunpath lib)

/-- The library directory lies in the bundle, and the original run path leads nowhere but to the
leading directories. -/
structure LeadsNowhereElse : Prop where
  library : ∀ place ∈ object.library lib, object.root <+: place
  named : object.named ⊆ object.leading lib
  mapped : object.mapped ⊆ object.leading lib

/-- A run path keeps what it should exactly where there is nothing to keep: entries below `$ORIGIN`
are dropped, those that were mapped into the tree as well as soon as they are written that way. -/
theorem treeRunpath_keeps_iff : object.Keeps lib ↔ object.LeadsNowhereElse lib := by
  have members (place : List Bytes) : place ∈ object.dirs (object.treeRunpath lib) ↔
      place ∈ object.leading lib ∨ place ∈ object.mapped := by
    rw [← List.mem_eraseDups, object.dirs_treeRunpath lib, List.mem_eraseDups, List.mem_append]
  constructor
  · intro keeps
    have back (place : List Bytes) (here : place ∈ object.dirs (object.treeRunpath lib)) :
        place ∈ object.leading lib := by
      rw [← object.dirs_finalized lib]
      exact (keeps.again place).mpr here
    refine ⟨fun place led => ?_, fun place named => back place ?_, fun place mapped => back place ?_⟩
    · exact keeps.inside place ((members place).mpr (.inl (List.mem_append_right _
        (Option.mem_toList.mpr led))))
    · rw [← List.mem_eraseDups, keeps.order, List.mem_eraseDups]
      exact List.mem_append_right _ named
    · exact (members place).mpr (.inr mapped)
  · intro nowhere
    have only (place : List Bytes) : place ∈ object.dirs (object.treeRunpath lib) ↔
        place ∈ object.leading lib := by
      rw [members]
      exact or_iff_left_of_imp fun mapped => nowhere.mapped mapped
    refine ⟨fun place here => ?_, ?_, fun place => ?_⟩
    · rcases List.mem_append.mp ((only place).mp here) with own | led
      · split at own
        · exact List.mem_singleton.mp own ▸ List.prefix_append _ _
        · cases own
      · exact nowhere.library place (Option.mem_toList.mp led)
    · rw [object.dirs_treeRunpath lib, eraseDups_subset nowhere.mapped,
        eraseDups_subset nowhere.named]
    · rw [object.dirs_finalized lib, only]

end Object

/-! ### A directory of plugins -/

def pluginDirs : List (List Bytes) :=
  [[], [utf8 "tree"], [utf8 "tree", utf8 "bin"], [utf8 "tree", utf8 "lib"],
    [utf8 "tree", utf8 "lib", utf8 "plugins"]]

def pluginDisk : Disk Unit := fun place => if place ∈ pluginDirs then some .dir else none

theorem pluginDisk_tree : pluginDisk.Tree where
  root := if_pos (by decide +kernel)
  parents place part there := by
    have closed : ∀ held ∈ pluginDirs, held.dropLast ∈ pluginDirs := by decide +kernel
    have listed : place ++ [part] ∈ pluginDirs := by
      by_contra absent
      exact there (if_neg absent)
    have above := closed _ listed
    rw [List.dropLast_concat] at above
    exact if_pos above

/-- A program that finds its plugins below the library directory. -/
def pluginApp : Object Unit where
  disk := pluginDisk
  tree := pluginDisk_tree
  root := [utf8 "tree"]
  above := [utf8 "bin"]
  stands := if_pos (by decide +kernel)
  runpaths := [utf8 "$ORIGIN/../lib:$ORIGIN/../lib/plugins"]

def plainLib : LibDir := ⟨⟨utf8 "lib", by decide +kernel⟩, by decide +kernel, by decide +kernel⟩

/-- The directory of the plugins is gone from the run path. -/
theorem pluginApp_loses : ¬∀ (α : Type) (object : Object α) (lib : LibDir), object.Keeps lib := by
  intro keeps
  have order := (keeps Unit pluginApp plainLib).order
  have written : (pluginApp.dirs (pluginApp.treeRunpath plainLib)).eraseDups =
      [[utf8 "tree", utf8 "lib"]] := by decide +kernel
  have original : (pluginApp.leading plainLib ++ pluginApp.named).eraseDups =
      [[utf8 "tree", utf8 "lib"], [utf8 "tree", utf8 "lib", utf8 "plugins"]] := by decide +kernel
  rw [written, original] at order
  cases order


end Onelf.Cli.Bundle.RunPath
