import Mathlib.Data.Finset.Basic
import Onelf.Lib.Path
import Onelf.Lib.SortedMap

/-! The tiers that take files out of a closure (`prune.rs`). -/

namespace Onelf.Sysroot

open Onelf.Lib

/-! ### Paths relative to the root -/

def baseName (rel : Bytes) : Bytes := (rel.splitOn 47).getLastD []

/-- The directory of a file that is in one. -/
def dirOf (rel : Bytes) : Option Bytes :=
  if 47 ∈ rel then some (joinPath (rel.splitOn 47).dropLast) else none

theorem baseName_of_whole {rel : Bytes} (whole : 47 ∉ rel) : baseName rel = rel := by
  rw [baseName, List.splitOn_eq_singleton whole]
  rfl

theorem baseName_whole (rel : Bytes) : 47 ∉ baseName rel := by
  rw [baseName, List.getLastD_eq_getLast?, List.getLast?_eq_some_getLast (List.splitOn_ne_nil 47 rel)]
  exact not_mem_of_mem_splitOn (List.getLast_mem _)

/-! ### Tiers -/

/-- Soname prefixes the host is expected to provide. -/
structure PlatformLine where
  prefixes : List Bytes

def PlatformLine.matchesPath (line : PlatformLine) (rel : Bytes) : Bool :=
  line.prefixes.any fun lead => lead <+: baseName rel

/-- Glob patterns over paths, as the `glob` crate matches them. -/
structure Policy where
  matchesPath : Bytes → Bool

/-- Paths a test run opened, and the directories they lie in. -/
structure Trace where
  opened : List Bytes
  openedDirs : List Bytes

def Trace.fromPaths (paths : List Bytes) : Trace :=
  let opened := paths.map (·.dropWhile (· = 47))
  ⟨opened, opened.filterMap dirOf⟩

def libDirs : List Bytes :=
  [utf8 "usr/lib", utf8 "usr/lib64", utf8 "usr/lib32", utf8 "usr/lib/x86_64-linux-gnu",
    utf8 "usr/lib/aarch64-linux-gnu", utf8 "usr/lib/i386-linux-gnu",
    utf8 "usr/lib/arm-linux-gnueabihf", utf8 "lib", utf8 "lib64", utf8 "lib32",
    utf8 "lib/x86_64-linux-gnu", utf8 "lib/aarch64-linux-gnu", utf8 "lib/i386-linux-gnu",
    utf8 "lib/arm-linux-gnueabihf"]

def isFlatSystemDir (dir : Bytes) : Bool :=
  [utf8 "usr/bin", utf8 "usr/sbin", utf8 "bin", utf8 "sbin"].contains dir || libDirs.contains dir

/-- It was opened, or a file beside it was; beside it counts for nothing in a flat directory. -/
def Trace.keeps (trace : Trace) (rel : Bytes) : Bool :=
  trace.opened.contains rel ||
    (dirOf rel).any fun dir => !isFlatSystemDir dir && trace.openedDirs.contains dir

/-- The names of a directory, the last one first, up to the topmost that belongs to its package. -/
def topmost (initDirs : List Bytes) : List Bytes → List Bytes
  | [] => []
  | name :: above =>
      if above ≠ [] ∧ initDirs.contains (joinPath above.reverse) then topmost initDirs above
      else name :: above

/-- The topmost directory of the Python package a file belongs to. -/
def packageRoot (initDirs : List Bytes) (rel : Bytes) : Option Bytes :=
  (dirOf rel).bind fun dir =>
    if initDirs.contains dir then some (joinPath (topmost initDirs (dir.splitOn 47).reverse).reverse)
    else none

/-- What pruning kept and why the rest went. -/
structure Pruned where
  kept : List Bytes
  hostProvided : List Bytes
  removedPlatform : Nat
  removedPolicy : Nat
  removedTrace : Nat

/-- What a closure is pruned by. -/
structure Tiers where
  files : List Bytes
  platform : Option PlatformLine
  policy : Option Policy
  trace : Option Trace
  keep : Option Policy

namespace Tiers

variable (tiers : Tiers)

def sorted : List Bytes := sortDedup tiers.files

/-- The directories that hold an `__init__.py`. -/
def initDirs : List Bytes :=
  tiers.sorted.filterMap fun rel =>
    (stripPrefix (utf8 "/__init__.py").reverse rel.reverse).map List.reverse

/-- The Python packages the run opened anything in. -/
def openedPackages : List Bytes :=
  (tiers.trace.map fun trace => trace.opened.filterMap (packageRoot tiers.initDirs)).getD []

def hosted (rel : Bytes) : Bool := tiers.platform.any fun line => line.matchesPath rel

def refused (rel : Bytes) : Bool := tiers.policy.any fun policy => policy.matchesPath rel

/-- Whether the trace leaves a file in for a name. A name keeps every file so named, and a path that
one file. -/
def survives (keepNames : Finset Bytes) (rel : Bytes) : Bool :=
  tiers.trace.all fun trace =>
    trace.keeps rel || baseName rel ∈ keepNames || rel ∈ keepNames ||
      (tiers.keep.any fun keep => keep.matchesPath rel) ||
      (packageRoot tiers.initDirs rel).any tiers.openedPackages.contains

def pruneOne (keepNames : Finset Bytes) (out : Pruned) (rel : Bytes) : Pruned :=
  if tiers.hosted rel then
    { out with
      removedPlatform := out.removedPlatform + 1
      hostProvided := out.hostProvided ++ [baseName rel] }
  else if tiers.refused rel then { out with removedPolicy := out.removedPolicy + 1 }
  else if tiers.survives keepNames rel then { out with kept := out.kept ++ [rel] }
  else { out with removedTrace := out.removedTrace + 1 }

def prune (keepNames : Finset Bytes) : Pruned :=
  let out := tiers.sorted.foldl (tiers.pruneOne keepNames) ⟨[], [], 0, 0, 0⟩
  { out with hostProvided := sortDedup out.hostProvided }

/-! ### What is kept -/

/-- Neither the platform line nor the policy removes it. -/
def Admitted (rel : Bytes) : Prop :=
  rel ∈ tiers.files ∧ tiers.hosted rel = false ∧ tiers.refused rel = false

/-- The trace, its rules or the globs keep it, whatever names are kept. -/
def OnItsOwn (rel : Bytes) : Prop :=
  tiers.Admitted rel ∧ tiers.survives ∅ rel = true

variable {tiers} {keepNames : Finset Bytes} {rel : Bytes}

theorem survives_iff : tiers.survives keepNames rel = true ↔
    tiers.survives ∅ rel = true ∨ baseName rel ∈ keepNames ∨ rel ∈ keepNames := by
  rw [survives, survives]
  cases tiers.trace with
  | none => simp
  | some trace =>
      simp only [Option.all_some, Bool.or_eq_true, decide_eq_true_eq, Finset.notMem_empty, or_false]
      tauto

theorem mem_foldl_pruneOne (files : List Bytes) (out : Pruned) :
    rel ∈ (files.foldl (tiers.pruneOne keepNames) out).kept ↔ rel ∈ out.kept ∨
      rel ∈ files ∧ tiers.hosted rel = false ∧ tiers.refused rel = false ∧
        tiers.survives keepNames rel = true := by
  induction files generalizing out with
  | nil => simp
  | cons file files ih =>
      rw [List.foldl_cons, ih, List.mem_cons, pruneOne]
      split_ifs with hosted refused survives
      · constructor
        · tauto
        · rintro (held | ⟨rfl | later, left⟩)
          · exact .inl held
          · rw [hosted] at left
            cases left.1
          · exact .inr ⟨later, left⟩
      · constructor
        · tauto
        · rintro (held | ⟨rfl | later, left⟩)
          · exact .inl held
          · rw [refused] at left
            cases left.2.1
          · exact .inr ⟨later, left⟩
      · rw [Bool.not_eq_true] at hosted refused
        rw [List.mem_append, List.mem_singleton]
        constructor
        · rintro ((held | rfl) | left)
          · exact .inl held
          · exact .inr ⟨.inl rfl, hosted, refused, survives⟩
          · exact .inr ⟨.inr left.1, left.2⟩
        · tauto
      · constructor
        · tauto
        · rintro (held | ⟨rfl | later, left⟩)
          · exact .inl held
          · exact absurd left.2.2 survives
          · exact .inr ⟨later, left⟩

theorem mem_prune : rel ∈ (tiers.prune keepNames).kept ↔
    tiers.OnItsOwn rel ∨ tiers.Admitted rel ∧ (baseName rel ∈ keepNames ∨ rel ∈ keepNames) := by
  have all : rel ∈ (tiers.prune keepNames).kept ↔
      tiers.Admitted rel ∧ tiers.survives keepNames rel = true := by
    rw [prune, mem_foldl_pruneOne, sorted, mem_sortDedup, Admitted]
    simp only [List.not_mem_nil, false_or, and_assoc]
  rw [all, survives_iff, OnItsOwn]
  tauto

end Tiers

end Onelf.Sysroot
