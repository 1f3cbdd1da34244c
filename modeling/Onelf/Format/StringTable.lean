import Mathlib.Data.List.TakeWhile
import Onelf.Format.Manifest

/-! The string table a packer builds (`StringTableBuilder` of `manifest.rs`). -/

namespace Onelf.Format

open Onelf.Lib

structure StringTableBuilder where
  data : Bytes
  index : SortedMap Text Nat

namespace StringTableBuilder

def new : StringTableBuilder := ⟨[], SortedMap.empty⟩

/-- The table with `text` in it, and the text's offset; an offset is a `u32`. -/
def add (builder : StringTableBuilder) (text : Text) : StringTableBuilder × Nat :=
  match builder.index.get? text with
  | some offset => (builder, offset)
  | none =>
      (⟨builder.data ++ (text.bytes ++ [0]),
        builder.index.insert text (builder.data.length % 2 ^ 32)⟩, builder.data.length % 2 ^ 32)

/-- `text` stands at `offset`, ended by NUL. -/
def Holds (data : Bytes) (offset : Nat) (text : Bytes) : Prop :=
  ∃ lead tail, data = lead ++ (text ++ 0 :: tail) ∧ lead.length = offset

/-- Every string the builder has given an offset stands there. -/
def Sound (builder : StringTableBuilder) : Prop :=
  ∀ text offset, builder.index.get? text = some offset → Holds builder.data offset text.bytes

theorem Holds.append {data : Bytes} {offset : Nat} {text : Bytes} (held : Holds data offset text)
    (more : Bytes) : Holds (data ++ more) offset text := by
  rcases held with ⟨lead, tail, split, length⟩
  exact ⟨lead, tail ++ more, by rw [split]; simp, length⟩

theorem Holds.lt {data : Bytes} {offset : Nat} {text : Bytes} (held : Holds data offset text) :
    offset < data.length := by
  rcases held with ⟨lead, tail, split, length⟩
  rw [split, List.length_append, List.length_append, List.length_cons]
  omega

theorem new_sound : new.Sound := by
  intro text offset found
  rw [new, SortedMap.get?_empty] at found
  cases found

/-- The table only grows. -/
theorem add_data (builder : StringTableBuilder) (text : Text) :
    ∃ more, (builder.add text).1.data = builder.data ++ more := by
  rw [add]
  cases builder.index.get? text with
  | some offset => exact ⟨[], (List.append_nil _).symm⟩
  | none => exact ⟨text.bytes ++ [0], rfl⟩

/-- While the table fits its width a string is found where it was put, and so are the others. -/
theorem Sound.add {builder : StringTableBuilder} (sound : builder.Sound) (text : Text)
    (fits : (builder.add text).1.data.length < 2 ^ 32) :
    (builder.add text).1.Sound ∧
      Holds (builder.add text).1.data (builder.add text).2 text.bytes := by
  rw [StringTableBuilder.add] at fits ⊢
  cases found : builder.index.get? text with
  | some offset => exact ⟨sound, sound text offset found⟩
  | none =>
      rw [found] at fits
      have small : builder.data.length < 2 ^ 32 := by
        rw [List.length_append] at fits
        omega
      have here : Holds (builder.data ++ (text.bytes ++ [0])) builder.data.length text.bytes :=
        ⟨builder.data, [], rfl, rfl⟩
      simp only [Nat.mod_eq_of_lt small]
      refine ⟨fun other offset placed => ?_, here⟩
      change (builder.index.insert text builder.data.length).get? other = some offset at placed
      rw [SortedMap.get?_insert] at placed
      split at placed
      · next same =>
          rw [← same, ← Option.some.inj placed]
          exact here
      · exact (sound other offset placed).append _

/-- What adding to a builder keeps: what stood there, and while it fits that it is sound. -/
structure Grows (builder later : StringTableBuilder) : Prop where
  data : ∃ more, later.data = builder.data ++ more
  sound : later.data.length < 2 ^ 32 → builder.Sound → later.Sound

theorem Grows.refl (builder : StringTableBuilder) : builder.Grows builder :=
  ⟨⟨[], (List.append_nil _).symm⟩, fun _ sound => sound⟩

theorem Grows.small {builder later : StringTableBuilder} (grows : builder.Grows later)
    (small : later.data.length < 2 ^ 32) : builder.data.length < 2 ^ 32 := by
  rcases grows.data with ⟨more, data⟩
  rw [data, List.length_append] at small
  omega

theorem Grows.holds {builder later : StringTableBuilder} (grows : builder.Grows later)
    {offset : Nat} {text : Bytes} (held : Holds builder.data offset text) :
    Holds later.data offset text := by
  rcases grows.data with ⟨more, data⟩
  rw [data]
  exact held.append more

theorem Grows.trans {builder later last : StringTableBuilder} (first : builder.Grows later)
    (second : later.Grows last) : builder.Grows last := by
  rcases first.data with ⟨more, data⟩
  rcases second.data with ⟨further, grown⟩
  refine ⟨⟨more ++ further, ?_⟩, fun small sound => second.sound small (first.sound
    (second.small small) sound)⟩
  rw [grown, data, List.append_assoc]

theorem Grows.add (builder : StringTableBuilder) (text : Text) :
    builder.Grows (builder.add text).1 :=
  ⟨builder.add_data text, fun small sound => (sound.add text small).1⟩

def addAll (builder : StringTableBuilder) (texts : List Text) : StringTableBuilder :=
  texts.foldl (fun builder text => (builder.add text).1) builder

theorem addAll_cons (builder : StringTableBuilder) (text : Text) (texts : List Text) :
    builder.addAll (text :: texts) = (builder.add text).1.addAll texts := rfl

theorem addAll_append (builder : StringTableBuilder) (texts others : List Text) :
    builder.addAll (texts ++ others) = (builder.addAll texts).addAll others :=
  List.foldl_append

end StringTableBuilder

/-! ### Reading a string back -/

/-- What is left of a string that ends at its first NUL. -/
def cutNul (text : Bytes) : Bytes := text.takeWhile (· ≠ 0)

theorem cutNul_append (text tail : Bytes) : cutNul (text ++ 0 :: tail) = cutNul text := by
  induction text with
  | nil => rfl
  | cons byte text ih =>
      by_cases nul : byte = 0
      · simp [cutNul, nul]
      · have kept (rest : Bytes) : cutNul (byte :: rest) = byte :: cutNul rest := by
          simp [cutNul, nul]
        rw [List.cons_append, kept, kept, ih]

theorem cutNul_of_not_mem {text : Bytes} (plain : 0 ∉ text) : cutNul text = text := by
  apply List.takeWhile_eq_self_iff.mpr
  intro byte member
  exact decide_eq_true fun nul => plain (nul ▸ member)

theorem cutNul_valid (text : Text) : validUtf8 (cutNul text.bytes) = true := by
  by_cases held : 0 ∈ text.bytes
  · rcases List.eq_append_cons_of_mem held with ⟨lead, tail, split, plain⟩
    have valid := text.valid
    rw [split, validUtf8_split (by decide)] at valid
    rw [split, cutNul_append, cutNul_of_not_mem plain]
    exact valid.1
  · rw [cutNul_of_not_mem held]
    exact text.valid

/-- A string the table holds is read back up to its first NUL. -/
theorem Manifest.getString_of_holds {manifest : Manifest} {offset : Nat} {text : Text}
    (held : StringTableBuilder.Holds manifest.stringTable offset text.bytes) :
    manifest.getString offset = cutNul text.bytes := by
  rcases held with ⟨lead, tail, split, length⟩
  have read : (manifest.stringTable.drop offset).takeWhile (· ≠ 0) = cutNul text.bytes := by
    rw [split, ← length, List.drop_left]
    exact cutNul_append text.bytes tail
  rw [Manifest.getString]
  simp only [read, cutNul_valid, if_true]

end Onelf.Format
