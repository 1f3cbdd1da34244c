import Onelf.Lib.Path
import Onelf.Lib.PathWalk

/-! Path texts as a kernel and as `std::path` read them. -/

namespace Onelf.Lib

/-- One part between slashes: an empty one and a dot stay where they are. -/
def segmentOf (part : Bytes) : Segment Bytes :=
  if part = [] ∨ part = [46] then .here
  else if part = [46, 46] then .up
  else .name part

/-- A path text as the kernel reads it. -/
def Target.ofText (text : Bytes) : Target Bytes :=
  ⟨text.head? = some 47, (text.splitOn 47).map segmentOf⟩

/-- The segment a normal component or a `..` stands for. -/
def Component.segment? : Component → Option (Segment Bytes)
  | .normal name => some (.name name)
  | .parent => some .up
  | _ => none

theorem strip_segments (parts : List Bytes) :
    strip (parts.map segmentOf) = (parts.filterMap componentOf).filterMap Component.segment? := by
  induction parts with
  | nil => rfl
  | cons part parts ih =>
      rw [List.map_cons, segmentOf]
      by_cases nothing : part = [] ∨ part = [46]
      · rw [if_pos nothing, strip, ih, List.filterMap_cons_none (by rw [componentOf, if_pos nothing])]
      · rw [if_neg nothing]
        by_cases above : part = [46, 46]
        · rw [if_pos above, strip, ih, List.filterMap_cons_some (by
            rw [componentOf, if_neg nothing, if_pos above])]
          rfl
        · rw [if_neg above, strip, ih, List.filterMap_cons_some (by
            rw [componentOf, if_neg nothing, if_neg above])]
          rfl

/-- What `components` keeps of a path are the segments that name something. -/
theorem strip_ofText (text : Bytes) :
    strip (Target.ofText text).segments = (components text).filterMap Component.segment? := by
  rw [Target.ofText, components, List.filterMap_append, strip_segments]
  split
  · rfl
  · split <;> rfl

/-- A file system: what lies at each place, links with their texts. -/
abbrev Disk (α : Type) : Type := World Bytes Bytes α

/-- The links of a disk as the kernel reads them. -/
def Disk.world {α : Type} (disk : Disk α) : World Bytes (Target Bytes) α := fun place =>
  match disk place with
  | none => none
  | some .dir => some .dir
  | some (.file content) => some (.file content)
  | some (.link text) => some (.link (Target.ofText text))

namespace Disk

variable {α : Type} {disk : Disk α}

theorem world_eq_none {place : List Bytes} : disk.world place = none ↔ disk place = none := by
  rw [world]
  split <;> simp_all

theorem world_eq_dir {place : List Bytes} :
    disk.world place = some .dir ↔ disk place = some .dir := by
  rw [world]
  split <;> simp_all

theorem world_linkAt (place : List Bytes) :
    disk.world.linkAt place = (disk.linkAt place).map Target.ofText := by
  rw [World.linkAt, World.linkAt, world]
  split <;> simp_all [Node.target?]

theorem world_tree (tree : disk.Tree) : disk.world.Tree where
  root := world_eq_dir.mpr tree.root
  parents place part there := by
    rw [world_eq_dir]
    exact tree.parents place part fun absent => there (world_eq_none.mpr absent)

end Disk

end Onelf.Lib
