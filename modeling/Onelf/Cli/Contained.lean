import Onelf.Cli.Extract
import Onelf.Lib.Containment

/-! When no path of an extracted tree leads out of it. -/

namespace Onelf.Cli.Extract

open Onelf.Lib
open Onelf.Runtime.Extract

theorem shows_below {base : List Bytes} {tree : Disk Unit} {system : FileSystem}
    (shows : Shows base tree system) : World.Below system.disk.world base tree.world := by
  intro rel
  have same := shows rel
  rw [Disk.world, Disk.world, ← same]
  cases system.disk (base ++ rel) with
  | none => rfl
  | some node => cases node <;> rfl

/-- The resolutions a link's target is judged by: all that remains of a kernel's limit after the
link itself. -/
def StaysInside (tree : Disk Unit) : Prop := tree.world.Inside (kernelLinks - 1)

theorem contained_of_ensures {target : EmptyTarget} (shared : Bool) {proc : FileProc Unit}
    {tree : Disk Unit} {manifest : Format.Manifest} {keep : List Bytes → Bool}
    (ensures : Proc.Ensures
      (Leaves target.base target.system.disk shared Format.Manifest.emptyTree) proc
      (fun _ system => Leaves target.base target.system.disk shared tree system ∧
        Format.Manifest.Grown manifest keep tree)
      (Confined target.base target.system.disk shared)) {last : FileSystem}
    (ran : Proc.exec proc target.system = (.ok (), last)) :
    last.disk.world.Contained kernelLinks target.base ↔
      target.base = [] ∨ StaysInside tree := by
  have left := ensures target.system (target.leaves shared)
  rw [ran] at left
  obtain ⟨⟨_, shows⟩, grown⟩ := left
  apply World.contained_iff (shows_below shows) (Disk.world_tree grown.whole)
  intro rel target link
  have text : tree.world.linkAt rel = (World.linkAt tree rel).map Target.ofText :=
    Disk.world_linkAt rel
  rw [World.linkAt_eq_some.mpr link, eq_comm, Option.map_eq_some_iff] at text
  obtain ⟨text, held, read⟩ := text
  rw [← read]
  exact Format.symlinkTargetWithinRoot_relative (grown.within rel text held)

/-- No path of an extracted tree leads out of it exactly where no link of the tree the entries
describe has a `..` that is taken at its root. -/
theorem extraction_contained_iff (package : Accepted) (target : EmptyTarget)
    (keep : List Bytes → Bool) (writer : Writer) (modes : Modes) :
    (∀ last, Proc.exec (extractMatching target.base package.source keep) target.system =
        (.ok (), last) →
      (last.disk.world.Contained kernelLinks target.base ↔ target.base = [] ∨
        StaysInside (package.source.manifest.extractedTree keep package.source.extent))) ∧
    (∀ last, Proc.exec (extractToCas target.base package.source writer) target.system =
        (.ok (), last) →
      (last.disk.world.Contained kernelLinks target.base ↔ target.base = [] ∨
        StaysInside (package.source.manifest.extractedTree (fun _ => true)
          package.source.extent))) ∧
    (∀ last, Proc.exec (extractAll target.base package.source modes) target.system =
        (.ok (), last) →
      (last.disk.world.Contained kernelLinks target.base ↔ target.base = [] ∨
        StaysInside (package.source.manifest.extractedTree named package.source.extent))) :=
  ⟨fun _ ran => contained_of_ensures false (extractMatching_ensures package.valid) ran,
    fun _ ran => contained_of_ensures true (extractToCas_ensures package.valid) ran,
    fun _ ran => contained_of_ensures false (extractAll_ensures package.valid) ran⟩

/-! ### Two links that lead out together -/

/-- `a/b/c` leads to the root of the tree, and `m` to what lies above `a/b/c`. -/
def chainManifest : Format.Manifest where
  header := ⟨3, 4, 24, 0, 0, 0, 0, Format.zeroDigest, Format.zeroDigest, Format.zeroDigest⟩
  entrypoints := []
  entries :=
    [⟨.dir, Format.u32Max, 1, 0o755, 0, 0, Format.zeroDigest, [], 0⟩,
      ⟨.dir, 0, 3, 0o755, 0, 0, Format.zeroDigest, [], 0⟩,
      ⟨.symlink, 1, 5, 0o777, 0, 0, Format.zeroDigest, [], 9⟩,
      ⟨.symlink, Format.u32Max, 7, 0o777, 0, 0, Format.zeroDigest, [], 15⟩]
  libDirOffsets := []
  stringTable := utf8 "\x00a\x00b\x00c\x00m\x00../..\x00a/b/c/..\x00"

theorem chainManifest_accepted : Format.Manifest.deserialize
    (Format.bodyBytes chainManifest) = .ok chainManifest := by
  decide +kernel

def chainPackage : Accepted where
  source := ⟨chainManifest, none, fun _ => none⟩
  data := Format.bodyBytes chainManifest
  accepted := chainManifest_accepted

def emptyDisk : Disk Stored := fun place =>
  if place = [] ∨ place = [utf8 "out"] then some .dir else none

theorem emptyDisk_below (names : List Bytes) (below : names ≠ []) :
    emptyDisk ([utf8 "out"] ++ names) = none := by
  cases names with
  | nil => exact absurd rfl below
  | cons name names => exact if_neg (by simp)

def emptyTarget : EmptyTarget where
  base := [utf8 "out"]
  system := ⟨emptyDisk, fun _ _ => none, []⟩
  rooted := rfl
  empty := emptyDisk_below
  quiet := rfl

/-- The disk the package is extracted to. -/
def chainExtracted : FileSystem :=
  (Proc.exec (extractMatching emptyTarget.base chainPackage.source fun _ => true)
    emptyTarget.system).2

theorem chain_extracts :
    Proc.exec (extractMatching emptyTarget.base chainPackage.source fun _ => true)
      emptyTarget.system = (.ok (), chainExtracted) := by
  have ok : (Proc.exec (extractMatching emptyTarget.base chainPackage.source fun _ => true)
      emptyTarget.system).1 = .ok () := by
    decide +kernel
  rw [chainExtracted, ← ok]

theorem chain_contained_iff :
    chainExtracted.disk.world.Contained kernelLinks emptyTarget.base ↔ emptyTarget.base = [] ∨
      StaysInside (chainManifest.extractedTree (fun _ => true) none) :=
  (extraction_contained_iff chainPackage emptyTarget (fun _ => true)
    ⟨fun _ _ => false, 0, fun _ => 0⟩ ⟨false, fun _ => 0⟩).1 chainExtracted chain_extracts

/-- The package is accepted and extracted, and `out/m` leads above `out`. -/
theorem extraction_escapes :
    Proc.exec (extractMatching emptyTarget.base chainPackage.source fun _ => true)
        emptyTarget.system = (.ok (), chainExtracted) ∧
      ¬ chainExtracted.disk.world.Contained kernelLinks emptyTarget.base := by
  refine ⟨chain_extracts, fun contained => ?_⟩
  rcases (contained_of_ensures false (extractMatching_ensures chainPackage.valid)
    chain_extracts).mp contained with top | inside
  · cases top
  · exact inside [] (utf8 "m") (Target.ofText (utf8 "a/b/c/.."))
      [.name (utf8 "a"), .name (utf8 "b"), .name (utf8 "c")] [] rfl rfl 38 rfl

end Onelf.Cli.Extract
