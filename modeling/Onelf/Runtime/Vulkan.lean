import Onelf.Lib.FirstChoice
import Onelf.Lib.Path
import Onelf.Lib.Str

/-! One ICD file per driver for the Vulkan loader (`env.rs`, `resolve.rs`). -/

namespace Onelf.Runtime.Vulkan

open Onelf.Lib

/-- A path by its components, which is what comparing two paths compares. -/
abbrev Path := List Component

/-- What can be read: the names a directory holds, none where it cannot be opened, and the text of
a file. -/
structure Directories where
  names : Path → List Bytes
  once : ∀ dir, (names dir).Nodup
  text : Path → Option Str

/-! ### The driver a file names -/

def libraryKey : Str := "\"library_path\"".toList

/-- What follows the first occurrence of `needle`. -/
def afterFirst (needle : Str) : Str → Option Str
  | [] => if needle = [] then some [] else none
  | c :: text =>
      match (c :: text).dropPrefix? needle with
      | some rest => some rest
      | none => afterFirst needle text

/-- The string value of the first `"library_path"` key. -/
def jsonLibraryPath (text : Str) : Option Str := do
  let rest ← afterFirst libraryKey text
  let rest ← Str.stripPrefix ':' (rest.dropWhile Str.isWhitespace)
  let rest ← Str.stripPrefix '"' (rest.dropWhile Str.isWhitespace)
  let (value, _) ← Str.splitOnce '"' rest
  some value

def driverOf (text : Str) : Option Bytes :=
  (jsonLibraryPath text).bind fun library => fileName (Str.encodeUtf8 library)

/-! ### The files of the directories -/

def jsonExtension : Bytes := utf8 ".json"

/-- A name that is all extension has none. -/
def isJson (name : Bytes) : Bool := jsonExtension.isSuffixOf name && name ≠ jsonExtension

structure IcdFile where
  path : Path
  driver : Option Bytes

section

variable (dirs : Directories)

def icdFile (path : Path) : IcdFile := ⟨path, (dirs.text path).bind driverOf⟩

/-- The paths of a directory's ICD files, sorted. -/
def icdPaths (dir : Path) : List Path :=
  (((dirs.names dir).filter isJson).insertionSort (· ≤ ·)).map fun name => dir ++ [.normal name]

/-- The files of the directories not seen yet, and the directories seen then. -/
def icdFiles (seen : List Path) : List Path → List IcdFile × List Path
  | [] => ([], seen)
  | dir :: rest =>
      if seen.contains dir then icdFiles seen rest
      else ((icdPaths dirs dir).map (icdFile dirs) ++ (icdFiles (seen ++ [dir]) rest).1,
        (icdFiles (seen ++ [dir]) rest).2)

/-! ### The merge -/

structure Merge where
  ours : List IcdFile
  keptTheirs : List Path
  dropped : Bool

variable (chosen : Bytes → Bool)

def names (files : List IcdFile) (driver : Bytes) : Bool :=
  files.any fun file => file.driver = some driver

/-- One outside file is judged against what is left of the packaged ones. -/
def mergeOne (merge : Merge) (file : IcdFile) : Merge :=
  match file.driver.filter (names merge.ours) with
  | none => { merge with keptTheirs := merge.keptTheirs ++ [file.path] }
  | some driver =>
      if chosen driver then { merge with dropped := true }
      else ⟨merge.ours.filter fun ours => ours.driver ≠ some driver,
        merge.keptTheirs ++ [file.path], true⟩

/-- The ICD files to name in `VK_DRIVER_FILES`, or `none` where the loader is better left to its own
search. -/
def vulkanDriverFiles (packaged outside : List Path) (hostLoader : Bool) : Option (List Path) :=
  let ours := icdFiles dirs [] packaged
  let theirs := icdFiles dirs ours.2 outside
  let merge := theirs.1.foldl (mergeOne chosen) ⟨ours.1, [], false⟩
  let files := merge.ours.map IcdFile.path ++ merge.keptTheirs
  if files.isEmpty || (hostLoader && !merge.dropped) then none else some files

end

/-! ### What the merge leaves -/

section

variable (chosen : Bytes → Bool)

/-- A packaged file stays where no outside file names its driver or the packaged copy is chosen. -/
def stays (theirs : List IcdFile) (file : IcdFile) : Bool :=
  file.driver.all fun driver => !names theirs driver || chosen driver

/-- An outside file is shown where no packaged file names its driver or the packaged copy is not
chosen. -/
def shown (ours : List IcdFile) (file : IcdFile) : Bool :=
  file.driver.all fun driver => !names ours driver || !chosen driver

theorem names_append (files others : List IcdFile) (driver : Bytes) :
    names (files ++ others) driver = (names files driver || names others driver) :=
  List.any_append

theorem names_singleton (file : IcdFile) (driver : Bytes) :
    names [file] driver = decide (file.driver = some driver) := Bool.or_false _

/-- What has happened after some of the outside files. -/
def merged (ours theirs : List IcdFile) : Merge :=
  ⟨ours.filter (stays chosen theirs), (theirs.filter (shown chosen ours)).map IcdFile.path,
    theirs.any fun file => file.driver.any (names ours)⟩

theorem names_eq_true {files : List IcdFile} {driver : Bytes} :
    names files driver = true ↔ ∃ file ∈ files, file.driver = some driver := by
  simp [names]

/-- The packaged files still name a driver unless an outside file has taken it over. -/
theorem names_stays (ours theirs : List IcdFile) (driver : Bytes) :
    names (ours.filter (stays chosen theirs)) driver =
      (names ours driver && (!names theirs driver || chosen driver)) := by
  rw [Bool.eq_iff_iff, Bool.and_eq_true, names_eq_true, names_eq_true]
  constructor
  · rintro ⟨file, member, named⟩
    rcases List.mem_filter.mp member with ⟨member, left⟩
    rw [stays, named, Option.all_some] at left
    exact ⟨⟨file, member, named⟩, left⟩
  · rintro ⟨⟨file, member, named⟩, left⟩
    refine ⟨file, List.mem_filter.mpr ⟨member, ?_⟩, named⟩
    rw [stays, named, Option.all_some]
    exact left

theorem stays_append (theirs : List IcdFile) (file ours : IcdFile) :
    stays chosen (theirs ++ [file]) ours = (stays chosen theirs ours &&
      ours.driver.all fun driver => file.driver ≠ some driver || chosen driver) := by
  rw [stays, stays]
  cases ours.driver with
  | none => rfl
  | some driver =>
      simp only [Option.all_some, names_append, names_singleton]
      by_cases same : file.driver = some driver
      · simp only [same, ne_eq, not_true_eq_false, decide_false, decide_true, Bool.false_or]
        cases chosen driver with
        | true => simp
        | false => simp
      · simp [same]

/-- A file whose driver nobody takes over leaves the packaged files as they are. -/
theorem filter_stays_append {ours theirs : List IcdFile} {file : IcdFile}
    (unmoved : ∀ driver, file.driver = some driver →
      names (ours.filter (stays chosen theirs)) driver = true → chosen driver = true) :
    ours.filter (stays chosen (theirs ++ [file])) = ours.filter (stays chosen theirs) := by
  apply List.filter_congr
  intro mine member
  rw [stays_append]
  by_cases left : stays chosen theirs mine
  · rw [left, Bool.true_and]
    cases named : mine.driver with
    | none => rfl
    | some driver =>
        rw [Option.all_some, Bool.or_eq_true, decide_eq_true_eq]
        by_cases same : file.driver = some driver
        · right
          apply unmoved driver same
          exact names_eq_true.mpr ⟨mine, List.mem_filter.mpr ⟨member, left⟩, named⟩
        · exact Or.inl same
  · rw [Bool.not_eq_true] at left
    rw [left, Bool.false_and]

/-- A driver taken over takes its packaged files away. -/
theorem filter_taken {ours theirs : List IcdFile} {file : IcdFile} {driver : Bytes}
    (named : file.driver = some driver) (taken : chosen driver = false) :
    (ours.filter (stays chosen theirs)).filter (fun mine => mine.driver ≠ some driver) =
      ours.filter (stays chosen (theirs ++ [file])) := by
  rw [List.filter_filter]
  apply List.filter_congr
  intro mine _
  rw [stays_append, Bool.and_comm, named]
  congr 1
  cases mine.driver with
  | none => rfl
  | some other =>
      rw [Option.all_some]
      by_cases same : other = driver
      · simp [same, taken]
      · simp [same, Ne.symm same]

theorem mergeOne_merged (ours theirs : List IcdFile) (file : IcdFile) :
    mergeOne chosen (merged chosen ours theirs) file = merged chosen ours (theirs ++ [file]) := by
  rw [mergeOne, merged, merged, List.filter_append, List.map_append, List.any_append]
  cases named : file.driver with
  | none =>
      have shows : [file].filter (shown chosen ours) = [file] := by simp [shown, named]
      have same : ours.filter (stays chosen (theirs ++ [file])) = ours.filter (stays chosen theirs) :=
        filter_stays_append chosen (by simp [named])
      simp [named, shows, same]
  | some driver =>
      have left := names_stays chosen ours theirs driver
      have own : [file].any (fun file => file.driver.any (names ours)) = names ours driver := by
        simp [named]
      rw [own]
      cases held : names (ours.filter (stays chosen theirs)) driver with
      | true =>
          rw [held, eq_comm, Bool.and_eq_true] at left
          rw [Option.filter_some_pos held, left.1, Bool.or_true]
          cases picked : chosen driver with
          | true =>
              have hides : [file].filter (shown chosen ours) = [] := by
                simp [shown, named, left.1, picked]
              have same : ours.filter (stays chosen (theirs ++ [file])) =
                  ours.filter (stays chosen theirs) := by
                apply filter_stays_append chosen
                intro other same _
                rw [named, Option.some.injEq] at same
                exact same ▸ picked
              simp [picked, hides, same]
          | false =>
              have shows : [file].filter (shown chosen ours) = [file] := by
                simp [shown, named, picked]
              have taken := @filter_taken chosen ours theirs file driver named picked
              simp only [picked, Bool.false_eq_true, if_false, shows, taken, List.map_cons,
                List.map_nil]
      | false =>
          rw [held] at left
          have same : ours.filter (stays chosen (theirs ++ [file])) =
              ours.filter (stays chosen theirs) := by
            apply filter_stays_append chosen
            intro other same others
            rw [named, Option.some.injEq] at same
            rw [← same, held] at others
            cases others
          have shows : [file].filter (shown chosen ours) = [file] := by
            rw [List.filter_cons_of_pos, List.filter_nil]
            rw [shown, named, Option.all_some]
            cases ownName : names ours driver with
            | false => rfl
            | true =>
                rw [ownName, Bool.true_and, eq_comm, Bool.or_eq_false_iff] at left
                rw [left.2]
                rfl
          have before : (theirs.any (fun file => file.driver.any (names ours)) || names ours driver) =
              theirs.any fun file => file.driver.any (names ours) := by
            cases ownName : names ours driver with
            | false => rw [Bool.or_false]
            | true =>
                rw [ownName, Bool.true_and, eq_comm, Bool.or_eq_false_iff, Bool.not_eq_false',
                  names_eq_true] at left
                rcases left.1 with ⟨earlier, member, also⟩
                rw [Bool.or_true, eq_comm, List.any_eq_true]
                exact ⟨earlier, member, by rw [also, Option.any_some, ownName]⟩
          rw [Option.filter_some_neg (by simp [held]), before]
          simp [shows, same]

theorem foldl_mergeOne (ours theirs later : List IcdFile) :
    later.foldl (mergeOne chosen) (merged chosen ours theirs) =
      merged chosen ours (theirs ++ later) := by
  induction later generalizing theirs with
  | nil => rw [List.foldl_nil, List.append_nil]
  | cons file later ih =>
      rw [List.foldl_cons, mergeOne_merged, ih, List.append_assoc, List.singleton_append]

end

/-! ### Which files are looked at -/

section

variable (dirs : Directories)

theorem icdFiles_cons (seen : List Path) (dir : Path) (rest : List Path) :
    icdFiles dirs seen (dir :: rest) = if seen.contains dir then icdFiles dirs seen rest
      else ((icdPaths dirs dir).map (icdFile dirs) ++ (icdFiles dirs (seen ++ [dir]) rest).1,
        (icdFiles dirs (seen ++ [dir]) rest).2) := rfl

theorem mem_seen (seen list : List Path) (dir : Path) :
    dir ∈ (icdFiles dirs seen list).2 ↔ dir ∈ seen ∨ dir ∈ list := by
  induction list generalizing seen with
  | nil => simp [icdFiles]
  | cons first rest ih =>
      rw [icdFiles_cons, List.mem_cons]
      by_cases known : seen.contains first
      · rw [if_pos known, ih]
        rw [List.contains_iff_mem] at known
        constructor
        · exact Or.imp_right Or.inr
        · rintro (earlier | same | later)
          · exact Or.inl earlier
          · exact Or.inl (same ▸ known)
          · exact Or.inr later
      · rw [if_neg known, ih, List.mem_append, List.mem_singleton, or_assoc]

/-- Every directory not seen before is read once, where it first comes. -/
theorem icdFiles_eq (seen list : List Path) : (icdFiles dirs seen list).1 =
    ((eachOnce (list.filter fun dir => !seen.contains dir)).flatMap (icdPaths dirs)).map
      (icdFile dirs) := by
  induction list generalizing seen with
  | nil => rfl
  | cons first rest ih =>
      rw [icdFiles_cons]
      by_cases known : seen.contains first
      · rw [if_pos known, ih, List.filter_cons_of_neg (by rw [known]; decide)]
      · rw [Bool.not_eq_true] at known
        have others : (rest.filter fun dir => !(seen ++ [first]).contains dir) =
            (rest.filter fun dir => !seen.contains dir).filter fun dir => dir ≠ first := by
          rw [List.filter_filter]
          apply List.filter_congr
          intro dir _
          simp [Bool.and_comm]
        rw [if_neg (by rw [known]; exact Bool.false_ne_true), ih, others,
          List.filter_cons_of_pos (by rw [known]; rfl), eachOnce_cons, List.flatMap_cons,
          List.map_append]

def driverAt (path : Path) : Option Bytes := (dirs.text path).bind driverOf

/-- The files of the directories in search order, each directory where it first comes. -/
def searchOrder (list : List Path) : List Path := (eachOnce list).flatMap (icdPaths dirs)

/-- The outside directories that are not packaged ones as well. -/
def rest (packaged outside : List Path) : List Path :=
  outside.filter fun dir => !packaged.contains dir

/-- A file one of the directories lists. -/
def Listed (list : List Path) (path : Path) : Prop :=
  ∃ dir ∈ list, ∃ name ∈ dirs.names dir, isJson name = true ∧ path = dir ++ [.normal name]

def Named (list : List Path) (driver : Bytes) : Prop :=
  ∃ path, Listed dirs list path ∧ driverAt dirs path = some driver

/-- The files of one side, less those the other side describes a driver for. -/
def kept (chosen : Bytes → Bool) (packaged outside : List Path) : List Path × List Path :=
  let ours := (searchOrder dirs packaged).map (icdFile dirs)
  let theirs := (searchOrder dirs (rest packaged outside)).map (icdFile dirs)
  ((searchOrder dirs packaged).filter fun path => stays chosen theirs (icdFile dirs path),
    (searchOrder dirs (rest packaged outside)).filter fun path =>
      shown chosen ours (icdFile dirs path))

theorem mem_icdPaths {dir path : Path} : path ∈ icdPaths dirs dir ↔
    ∃ name ∈ dirs.names dir, isJson name = true ∧ path = dir ++ [.normal name] := by
  simp only [icdPaths, List.mem_map, List.mem_insertionSort, List.mem_filter, and_assoc, eq_comm]

theorem mem_searchOrder {list : List Path} {path : Path} :
    path ∈ searchOrder dirs list ↔ Listed dirs list path := by
  simp only [searchOrder, List.mem_flatMap, mem_eachOnce, mem_icdPaths, Listed]

theorem searchOrder_nodup (list : List Path) : (searchOrder dirs list).Nodup := by
  rw [searchOrder, List.nodup_flatMap]
  constructor
  · intro dir _
    rw [icdPaths]
    apply List.Nodup.map
    · intro name other same
      exact Component.normal.inj (List.singleton_inj.mp (List.append_cancel_left same))
    · exact (List.perm_insertionSort _ _).nodup_iff.mpr ((dirs.once dir).filter _)
  · apply (eachOnce_nodup list).imp
    intro dir other apart path here there
    rcases (mem_icdPaths dirs).mp here with ⟨name, _, _, same⟩
    rcases (mem_icdPaths dirs).mp there with ⟨_, _, _, also⟩
    exact apart (List.append_inj_left' (same.symm.trans also) rfl)

theorem rest_apart {packaged outside : List Path} {path : Path}
    (here : Listed dirs packaged path) : ¬ Listed dirs (rest packaged outside) path := by
  rintro ⟨dir, member, name, _, _, same⟩
  rcases here with ⟨other, packed, name, _, _, also⟩
  have one : other = dir := List.append_inj_left' (also.symm.trans same) rfl
  rw [rest, List.mem_filter] at member
  simp [← one, packed] at member

theorem names_searchOrder {list : List Path} {driver : Bytes} :
    names ((searchOrder dirs list).map (icdFile dirs)) driver = true ↔ Named dirs list driver := by
  rw [names_eq_true]
  constructor
  · rintro ⟨file, member, named⟩
    rcases List.mem_map.mp member with ⟨path, inside, same⟩
    exact ⟨path, (mem_searchOrder dirs).mp inside, by rw [← same] at named; exact named⟩
  · rintro ⟨path, listed, named⟩
    exact ⟨icdFile dirs path, List.mem_map_of_mem ((mem_searchOrder dirs).mpr listed), named⟩

theorem icdFiles_packaged (packaged : List Path) :
    (icdFiles dirs [] packaged).1 = (searchOrder dirs packaged).map (icdFile dirs) := by
  have all : packaged.filter (fun dir => !([] : List Path).contains dir) = packaged :=
    List.filter_eq_self.mpr fun _ _ => rfl
  rw [icdFiles_eq, all, searchOrder]

theorem icdFiles_outside (packaged outside : List Path) :
    (icdFiles dirs (icdFiles dirs [] packaged).2 outside).1 =
      (searchOrder dirs (rest packaged outside)).map (icdFile dirs) := by
  have same : outside.filter (fun dir => !(icdFiles dirs [] packaged).2.contains dir) =
      rest packaged outside := by
    apply List.filter_congr
    intro dir _
    have seen := mem_seen dirs [] packaged dir
    simp only [List.not_mem_nil, false_or] at seen
    rw [Bool.eq_iff_iff, Bool.not_eq_true', Bool.not_eq_true', List.contains_eq_mem,
      List.contains_eq_mem, decide_eq_false_iff_not, decide_eq_false_iff_not, seen]
  rw [icdFiles_eq, same, searchOrder]

theorem map_path_filter (keep : IcdFile → Bool) (paths : List Path) :
    ((paths.map (icdFile dirs)).filter keep).map IcdFile.path =
      paths.filter fun path => keep (icdFile dirs path) := by
  rw [List.filter_map, List.map_map]
  exact List.map_id _

theorem vulkanDriverFiles_eq (chosen : Bytes → Bool) (packaged outside : List Path)
    (hostLoader : Bool) : vulkanDriverFiles dirs chosen packaged outside hostLoader =
      if ((kept dirs chosen packaged outside).1 ++ (kept dirs chosen packaged outside).2).isEmpty ||
        (hostLoader && !((searchOrder dirs (rest packaged outside)).any fun path =>
          (driverAt dirs path).any (names ((searchOrder dirs packaged).map (icdFile dirs)))))
      then none
      else some ((kept dirs chosen packaged outside).1 ++ (kept dirs chosen packaged outside).2) := by
  have start (ours : List IcdFile) : (⟨ours, [], false⟩ : Merge) = merged chosen ours [] := by
    have all : ours.filter (stays chosen []) = ours := by
      apply List.filter_eq_self.mpr
      intro file _
      rw [stays]
      cases file.driver with
      | none => rfl
      | some driver => rfl
    rw [merged, all]
    rfl
  have whole (ours theirs : List IcdFile) :
      theirs.foldl (mergeOne chosen) ⟨ours, [], false⟩ = merged chosen ours theirs := by
    rw [start, foldl_mergeOne, List.nil_append]
  simp only [vulkanDriverFiles, icdFiles_packaged, icdFiles_outside, whole]
  simp only [merged, map_path_filter, List.any_map, kept]
  rfl

/-- What the merge leaves of the two sides. -/
structure Merged (chosen : Bytes → Bool) (packaged outside files : List Path) : Prop where
  /-- A driver named on both sides is named from the chosen one only. -/
  oneSide : ∀ driver, Named dirs packaged driver → Named dirs outside driver →
    ∀ path ∈ files, driverAt dirs path = some driver →
      Listed dirs (if chosen driver then packaged else outside) path
  /-- That side loses none of its files. -/
  wholeSide : ∀ driver, Named dirs packaged driver → Named dirs outside driver →
    ∀ path, Listed dirs (if chosen driver then packaged else outside) path →
      driverAt dirs path = some driver → path ∈ files
  /-- Neither does any file whose driver is not named on both. -/
  others : ∀ path, Listed dirs packaged path ∨ Listed dirs outside path →
    (∀ driver, driverAt dirs path = some driver →
      ¬ (Named dirs packaged driver ∧ Named dirs outside driver)) → path ∈ files
  once : files.Nodup
  ordered : ∃ first second, files = first ++ second ∧
    first.Sublist (searchOrder dirs packaged) ∧ second.Sublist (searchOrder dirs outside)

variable {dirs}

theorem stays_iff {chosen : Bytes → Bool} {list : List Path} {path : Path} :
    stays chosen ((searchOrder dirs list).map (icdFile dirs)) (icdFile dirs path) = true ↔
      ∀ driver, driverAt dirs path = some driver → Named dirs list driver →
        chosen driver = true := by
  rw [stays, Option.all_eq_true]
  apply forall_congr'
  intro driver
  apply forall_congr'
  intro _
  rw [Bool.or_eq_true, Bool.not_eq_true', ← Bool.not_eq_true, names_searchOrder, imp_iff_not_or]

theorem shown_iff {chosen : Bytes → Bool} {list : List Path} {path : Path} :
    shown chosen ((searchOrder dirs list).map (icdFile dirs)) (icdFile dirs path) = true ↔
      ∀ driver, driverAt dirs path = some driver → Named dirs list driver →
        chosen driver = false := by
  rw [shown, Option.all_eq_true]
  apply forall_congr'
  intro driver
  apply forall_congr'
  intro _
  rw [Bool.or_eq_true, Bool.not_eq_true', ← Bool.not_eq_true, names_searchOrder, imp_iff_not_or,
    Bool.not_eq_true']

variable {chosen : Bytes → Bool} {packaged outside : List Path}

theorem mem_kept {path : Path} :
    path ∈ (kept dirs chosen packaged outside).1 ++ (kept dirs chosen packaged outside).2 ↔
      (Listed dirs packaged path ∧ ∀ driver, driverAt dirs path = some driver →
        Named dirs (rest packaged outside) driver → chosen driver = true) ∨
      (Listed dirs (rest packaged outside) path ∧ ∀ driver, driverAt dirs path = some driver →
        Named dirs packaged driver → chosen driver = false) := by
  simp only [kept, List.mem_append, List.mem_filter, mem_searchOrder, stays_iff, shown_iff]

theorem kept_merged : Merged dirs chosen packaged (rest packaged outside)
    ((kept dirs chosen packaged outside).1 ++ (kept dirs chosen packaged outside).2) where
  oneSide := by
    intro driver ours theirs path member named
    rcases mem_kept.mp member with ⟨listed, left⟩ | ⟨listed, left⟩
    · rw [left driver named theirs, if_pos rfl]
      exact listed
    · rw [left driver named ours]
      exact listed
  wholeSide := by
    intro driver ours theirs path listed named
    apply mem_kept.mpr
    cases picked : chosen driver with
    | true =>
        rw [picked, if_pos rfl] at listed
        left
        refine ⟨listed, ?_⟩
        intro other also _
        rw [named, Option.some.injEq] at also
        exact also ▸ picked
    | false =>
        rw [picked] at listed
        right
        refine ⟨listed, ?_⟩
        intro other also _
        rw [named, Option.some.injEq] at also
        exact also ▸ picked
  others := by
    intro path listed apart
    apply mem_kept.mpr
    rcases listed with ours | theirs
    · left
      refine ⟨ours, ?_⟩
      intro driver named outside
      exact absurd ⟨⟨path, ours, named⟩, outside⟩ (apart driver named)
    · right
      refine ⟨theirs, ?_⟩
      intro driver named packaged
      exact absurd ⟨packaged, ⟨path, theirs, named⟩⟩ (apart driver named)
  once := by
    apply List.nodup_append.mpr
    refine ⟨(searchOrder_nodup dirs packaged).filter _, (searchOrder_nodup dirs _).filter _, ?_⟩
    intro path ours other theirs same
    have here := (mem_searchOrder dirs).mp (List.mem_filter.mp ours).1
    have there := (mem_searchOrder dirs).mp (List.mem_filter.mp theirs).1
    exact rest_apart dirs here (same ▸ there)
  ordered := ⟨_, _, rfl, List.filter_sublist, List.filter_sublist⟩

theorem listed_outside {path : Path} (listed : Listed dirs outside path) :
    Listed dirs packaged path ∨ Listed dirs (rest packaged outside) path := by
  rcases listed with ⟨dir, member, held⟩
  by_cases packed : dir ∈ packaged
  · exact Or.inl ⟨dir, packed, held⟩
  · exact Or.inr ⟨dir, List.mem_filter.mpr ⟨member, by simpa using packed⟩, held⟩

/-- Nothing is left only where there is nothing: a file goes for the sake of one that stays. -/
theorem not_listed_of_kept_nil
    (none : (kept dirs chosen packaged outside).1 ++ (kept dirs chosen packaged outside).2 = [])
    (path : Path) : ¬ Listed dirs packaged path ∧ ¬ Listed dirs (rest packaged outside) path := by
  have left := @kept_merged dirs chosen packaged outside
  rw [none] at left
  have nowhere : ¬ (Listed dirs packaged path ∨ Listed dirs (rest packaged outside) path) := by
    intro listed
    by_cases both : ∃ driver, driverAt dirs path = some driver ∧
        Named dirs packaged driver ∧ Named dirs (rest packaged outside) driver
    · rcases both with ⟨driver, _, ours, theirs⟩
      have shown : Named dirs (if chosen driver then packaged else rest packaged outside) driver := by
        split
        · exact ours
        · exact theirs
      rcases shown with ⟨other, there, named⟩
      exact absurd (left.wholeSide driver ours theirs other there named) List.not_mem_nil
    · have member := left.others path listed fun driver named also => both ⟨driver, named, also⟩
      exact absurd member List.not_mem_nil
  exact not_or.mp nowhere

end

/-- Each driver is left to one side and none is lost, a directory of both lists counting as a
packaged one. -/
theorem vulkanDriverFiles_merges (dirs : Directories) (chosen : Bytes → Bool)
    (packaged outside : List Path) (hostLoader : Bool) :
    (∀ files, vulkanDriverFiles dirs chosen packaged outside hostLoader = some files →
      Merged dirs chosen packaged (rest packaged outside) files) ∧
    (vulkanDriverFiles dirs chosen packaged outside hostLoader = none →
      (∀ path, ¬ Listed dirs packaged path ∧ ¬ Listed dirs outside path) ∨
      hostLoader = true ∧ ∀ driver,
        ¬ (Named dirs packaged driver ∧ Named dirs (rest packaged outside) driver)) := by
  rw [vulkanDriverFiles_eq]
  constructor
  · intro files found
    rw [Option.ite_none_left_eq_some, Option.some.injEq] at found
    rw [← found.2]
    exact kept_merged
  · intro left
    split at left
    · next either =>
        rw [Bool.or_eq_true, List.isEmpty_iff, Bool.and_eq_true, Bool.not_eq_true'] at either
        rcases either with none | ⟨host, undropped⟩
        · left
          intro path
          have nowhere := not_listed_of_kept_nil none path
          refine ⟨nowhere.1, ?_⟩
          intro listed
          rcases listed_outside listed with packed | outside
          · exact nowhere.1 packed
          · exact nowhere.2 outside
        · right
          refine ⟨host, ?_⟩
          rintro driver ⟨ours, path, listed, named⟩
          have kept := List.any_eq_false.mp undropped path ((mem_searchOrder dirs).mpr listed)
          rw [named, Option.any_some] at kept
          exact kept ((names_searchOrder dirs).mpr ours)
    · cases left

/-! ### A driver both sides describe -/

def icdDir (root : String) : Path := [.root, .normal (utf8 root), .normal (utf8 "icd.d")]

def icdText : Str := "\x7b\"ICD\": \x7b\"library_path\": \"/usr/lib/libvulkan_radeon.so\"\x7d\x7d".toList

/-- Every directory holds a description of one driver. -/
def radeonDirs : Directories where
  names := fun _ => [utf8 "radeon.json"]
  once := fun _ => List.nodup_singleton _
  text := fun _ => some icdText

def radeon : Bytes := utf8 "libvulkan_radeon.so"

/-- The package and the host describe it, and the package's copy is chosen; and no directories have
no files. -/
theorem vulkanDriverFiles_radeon :
    Merged radeonDirs (fun _ => true) [icdDir "pkg"] (rest [icdDir "pkg"] [icdDir "usr"])
      [icdDir "pkg" ++ [.normal (utf8 "radeon.json")]] ∧
    ((∀ path, ¬ Listed radeonDirs [] path ∧ ¬ Listed radeonDirs [] path) ∨
      true = true ∧ ∀ driver, ¬ (Named radeonDirs [] driver ∧ Named radeonDirs (rest [] []) driver)) :=
  ⟨(vulkanDriverFiles_merges radeonDirs (fun _ => true) [icdDir "pkg"] [icdDir "usr"] true).1 _
      (by decide +kernel),
    (vulkanDriverFiles_merges radeonDirs (fun _ => true) [] [] true).2 (by decide +kernel)⟩

theorem driverOf_icdText : driverOf icdText = some radeon := by decide +kernel

/-- A directory of both lists is read as a packaged one, so that the driver it describes as another
packaged directory does stays with both, although the packaged copy is not chosen. -/
theorem vulkanDriverFiles_shared :
    vulkanDriverFiles radeonDirs (fun _ => false) [icdDir "pkg", icdDir "set"] [icdDir "set"] false =
        some [icdDir "pkg" ++ [.normal (utf8 "radeon.json")],
          icdDir "set" ++ [.normal (utf8 "radeon.json")]] ∧
      Named radeonDirs [icdDir "pkg", icdDir "set"] radeon ∧ Named radeonDirs [icdDir "set"] radeon ∧
      driverAt radeonDirs (icdDir "pkg" ++ [.normal (utf8 "radeon.json")]) = some radeon ∧
      ¬ Listed radeonDirs [icdDir "set"] (icdDir "pkg" ++ [.normal (utf8 "radeon.json")]) := by
  have described (root : String) (list : List Path) (member : icdDir root ∈ list) :
      Named radeonDirs list radeon :=
    ⟨_, ⟨icdDir root, member, utf8 "radeon.json", List.mem_singleton_self _, by decide +kernel, rfl⟩,
      driverOf_icdText⟩
  refine ⟨by decide +kernel, described "pkg" _ List.mem_cons_self,
    described "set" _ List.mem_cons_self, driverOf_icdText, ?_⟩
  rintro ⟨dir, member, name, _, _, same⟩
  have here : icdDir "pkg" = dir := List.append_inj_left' same rfl
  rw [List.mem_singleton, ← here] at member
  exact absurd member (by decide +kernel)

end Onelf.Runtime.Vulkan
