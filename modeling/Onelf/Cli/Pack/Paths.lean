import Onelf.Cli.Pack.Entries

/-! The paths of a packed manifest: which entries stand where they were collected. -/

namespace Onelf.Cli.Pack

open Onelf.Lib hiding Holds
open Onelf.Format

/-- A path below the root, of names a path can have. -/
def ProperPath (path : RelPath) : Prop := path ≠ [] ∧ ∀ name ∈ path, isSafeComponent name = true

/-- What is above an item, and is an item at all, comes before it. -/
def ParentsFirst (items : List Item) : Prop :=
  ∀ (index : Nat) (item : Item), items[index]? = some item → ∀ other ∈ items,
    other.relPath = item.relPath.dropLast →
      ∃ earlier ∈ items.take index, earlier.relPath = item.relPath.dropLast

theorem ProperPath.last {path : RelPath} (proper : ProperPath path) :
    path.getLastD [] ∈ path ∧ isSafeComponent (path.getLastD []) = true := by
  have member : path.getLastD [] ∈ path := by
    rw [List.getLastD_eq_getLast?, List.getLast?_eq_some_getLast proper.1]
    exact List.getLast_mem proper.1
  exact ⟨member, proper.2 _ member⟩

theorem ProperPath.split {path : RelPath} (proper : ProperPath path) :
    path = path.dropLast ++ [path.getLastD []] := by
  rw [List.getLastD_eq_getLast?, List.getLast?_eq_some_getLast proper.1, Option.getD_some,
    List.dropLast_append_getLast]

theorem HoldsText.getString {manifest : Manifest} {offset : Nat} {bytes : Bytes}
    (held : HoldsText manifest.stringTable offset bytes) :
    manifest.getString offset = cutNul bytes := by
  rcases held with ⟨text, same, held⟩
  rw [← same] at held ⊢
  exact Manifest.getString_of_holds held

section
variable {manifest : Manifest} {items : List Item}

theorem Listed.getString_name (listed : Listed manifest.stringTable manifest.entries items)
    (proper : ∀ item ∈ items, ProperPath item.relPath) {index : Nat} {item : Item}
    (found : items[index]? = some item) {entry : Entry}
    (there : manifest.entries[index + 1]? = some entry) :
    manifest.getString entry.name = item.relPath.getLastD [] := by
  rcases listed.entered index item found with ⟨other, here, entered⟩
  rw [there] at here
  cases here
  have plain := (isSafeComponent_iff.mp
    (proper item (List.mem_of_getElem? found)).last.2).2.2.2.2
  rw [entered.name.getString, cutNul_of_not_mem plain]

theorem Listed.root_name (listed : Listed manifest.stringTable manifest.entries items) :
    manifest.getString 0 = [] :=
  listed.rootName.getString

theorem parent_le (items : List Item) (index : Nat) (path : RelPath) :
    (lastIndex (items.take index) path).getD 0 ≤ index := by
  cases found : lastIndex (items.take index) path with
  | none => exact Nat.zero_le index
  | some parent => exact (lastIndex_le found).trans (List.length_take_le index items)

theorem Listed.ordered (listed : Listed manifest.stringTable manifest.entries items) :
    manifest.Ordered := by
  intro index entry found
  cases index with
  | zero =>
      rw [listed.root] at found
      cases found
      exact Or.inl rfl
  | succ index =>
      have inside := (List.getElem?_eq_some_iff.mp found).1
      rw [listed.length] at inside
      have place : index < items.length := by omega
      rcases listed.entered index _ (List.getElem?_eq_getElem place) with ⟨other, here, entered⟩
      rw [found] at here
      cases here
      rw [entered.parent]
      exact Or.inr (Nat.lt_succ_of_le (parent_le items index _))

theorem Listed.parts_root (listed : Listed manifest.stringTable manifest.entries items) :
    manifest.parts 0 = [] :=
  Manifest.parts_of_unnamed listed.root listed.root_name

/-- An item's path is that of the entry above it and its own name. -/
theorem Listed.parts_item (listed : Listed manifest.stringTable manifest.entries items)
    (proper : ∀ item ∈ items, ProperPath item.relPath) (few : items.length + 1 < 2 ^ 32)
    {index : Nat} {item : Item} (found : items[index]? = some item) :
    manifest.parts (index + 1) =
      manifest.parts ((lastIndex (items.take index) item.relPath.dropLast).getD 0) ++
        [item.relPath.getLastD []] := by
  rcases listed.entered index item found with ⟨entry, there, entered⟩
  have name := listed.getString_name proper found there
  have safe := isSafeComponent_iff.mp (proper item (List.mem_of_getElem? found)).last.2
  have below : entry.parent ≠ u32Max := by
    have least := parent_le items index item.relPath.dropLast
    have inside := (List.getElem?_eq_some_iff.mp found).1
    rw [entered.parent, u32Max]
    omega
  rw [Manifest.parts_child listed.ordered there (name ▸ safe.1) below, name, entered.parent]

/-- Every name on the way to an entry is the last name of an item. -/
theorem Listed.mem_parts (listed : Listed manifest.stringTable manifest.entries items)
    (proper : ∀ item ∈ items, ProperPath item.relPath) {index : Nat} {name : Bytes}
    (member : name ∈ manifest.parts index) :
    ∃ item ∈ items, item.relPath.getLastD [] = name := by
  rcases Manifest.mem_entryParts member with ⟨named, place, entry, found, same⟩
  cases place with
  | zero =>
      rw [listed.root] at found
      cases found
      exact absurd (same.symm.trans listed.root_name) named
  | succ place =>
      have inside := (List.getElem?_eq_some_iff.mp found).1
      rw [listed.length] at inside
      have item := List.getElem?_eq_getElem (by omega : place < items.length)
      exact ⟨_, List.mem_of_getElem? item, (listed.getString_name proper item found).symm.trans same⟩

theorem Listed.parts_safe (listed : Listed manifest.stringTable manifest.entries items)
    (proper : ∀ item ∈ items, ProperPath item.relPath) (index : Nat) :
    ∀ name ∈ manifest.parts index, isSafeComponent name = true := by
  intro name member
  rcases listed.mem_parts proper member with ⟨item, within, same⟩
  exact same ▸ (proper item within).last.2

end

end Onelf.Cli.Pack
