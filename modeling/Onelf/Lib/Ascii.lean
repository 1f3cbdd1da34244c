import Onelf.Lib.Str
import Onelf.Lib.Text

/-! ASCII text: its characters are its bytes. -/

namespace Onelf.Lib

def charOf (byte : UInt8) : Char := Char.ofNat byte.toNat

def chars (bytes : Bytes) : Str := bytes.map charOf

theorem chars_eq_nil {bytes : Bytes} : chars bytes = [] ↔ bytes = [] := List.map_eq_nil_iff

theorem chars_append (left right : Bytes) : chars (left ++ right) = chars left ++ chars right :=
  List.map_append

@[simp] theorem toNat_charOf (byte : UInt8) : (charOf byte).toNat = byte.toNat := by
  have small : byte.toNat < 256 := byte.toNat_lt
  have valid : byte.toNat.isValidChar := Or.inl (by omega)
  rw [charOf, Char.ofNat, dif_pos valid]
  rfl

theorem charOf_eq_iff {byte other : UInt8} : charOf byte = charOf other ↔ byte = other := by
  constructor
  · intro same
    have numbers := congrArg Char.toNat same
    rw [toNat_charOf, toNat_charOf] at numbers
    exact UInt8.toNat_inj.mp numbers
  · intro same
    rw [same]

theorem utf8EncodeChar_charOf {byte : UInt8} (ascii : byte < 0x80) :
    String.utf8EncodeChar (charOf byte) = [byte] := by
  have small : byte.toNat < 128 := ascii
  have value : (charOf byte).val.toNat = byte.toNat := toNat_charOf byte
  rw [String.utf8EncodeChar, value, if_pos (by omega)]
  rw [UInt8.ofNat_toNat]

theorem encodeUtf8_chars {bytes : Bytes} (ascii : ∀ byte ∈ bytes, byte < 0x80) :
    Str.encodeUtf8 (chars bytes) = bytes := by
  induction bytes with
  | nil => rfl
  | cons byte bytes ih =>
      rw [List.forall_mem_cons] at ascii
      have rest := ih ascii.2
      rw [Str.encodeUtf8] at rest ⊢
      rw [chars, List.map_cons, List.flatMap_cons, utf8EncodeChar_charOf ascii.1]
      exact congrArg (byte :: ·) rest

theorem fromUtf8Lossy_ascii {bytes : Bytes} (ascii : ∀ byte ∈ bytes, byte < 0x80) :
    Str.fromUtf8Lossy bytes = chars bytes := by
  calc Str.fromUtf8Lossy bytes
      = Str.fromUtf8Lossy (Str.encodeUtf8 (chars bytes)) := by rw [encodeUtf8_chars ascii]
    _ = chars bytes := Str.fromUtf8Lossy_encodeUtf8 _

theorem splitOnce_chars (sep : UInt8) (bytes : Bytes) :
    Str.splitOnce (charOf sep) (chars bytes) =
      (splitOnce sep bytes).map fun (left, right) => (chars left, chars right) := by
  induction bytes with
  | nil => rfl
  | cons byte bytes ih =>
      rw [chars, List.map_cons, Str.splitOnce, splitOnce]
      by_cases same : byte = sep
      · rw [if_pos (congrArg charOf same), if_pos same]
        rfl
      · rw [if_neg fun equal => same (charOf_eq_iff.mp equal), if_neg same]
        rw [chars] at ih
        rw [ih, Option.map_map, Option.map_map]
        rfl

/-- Both ends trimmed of the bytes whose characters are whitespace. -/
theorem trim_chars {blank : UInt8 → Bool} {bytes : Bytes}
    (agrees : ∀ byte ∈ bytes, Str.isWhitespace (charOf byte) = blank byte) :
    Str.trim (chars bytes) = chars ((bytes.dropWhile blank).rdropWhile blank) := by
  have front {bytes : Bytes} (agrees : ∀ byte ∈ bytes, Str.isWhitespace (charOf byte) = blank byte) :
      (chars bytes).dropWhile Str.isWhitespace = chars (bytes.dropWhile blank) := by
    induction bytes with
    | nil => rfl
    | cons byte bytes ih =>
        rw [List.forall_mem_cons] at agrees
        rw [chars, List.map_cons, List.dropWhile_cons, List.dropWhile_cons, agrees.1]
        split
        · exact ih agrees.2
        · rfl
  have kept : ∀ byte ∈ (bytes.dropWhile blank).reverse,
      Str.isWhitespace (charOf byte) = blank byte := by
    intro byte member
    exact agrees byte ((List.dropWhile_sublist blank).subset (List.mem_reverse.mp member))
  have back := front kept
  rw [chars, List.map_reverse] at back
  rw [Str.trim, front agrees, List.rdropWhile, List.rdropWhile, chars, back, chars, chars,
    List.map_reverse]

/-! ### Text around an ASCII byte -/

theorem encodeUtf8_append (left right : Str) :
    Str.encodeUtf8 (left ++ right) = Str.encodeUtf8 left ++ Str.encodeUtf8 right :=
  List.flatMap_append

/-- A byte below 128 is a character of its own. -/
theorem eq_charOf {c : Char} {byte : UInt8} (ascii : byte < 0x80)
    (member : byte ∈ String.utf8EncodeChar c) : c = charOf byte := by
  have small : byte.toNat < 128 := ascii
  have high {n : Nat} (above : 128 ≤ n) (below : n < 256) : byte ≠ UInt8.ofNat n := by
    intro same
    rw [same, Str.toNat_ofNat below] at small
    omega
  have bound : c.val.toNat < 1114112 := by
    rcases c.valid with low | ⟨-, up⟩
    · exact lt_trans low (by decide)
    · exact up
  rw [String.utf8EncodeChar] at member
  split at member
  · next single =>
      have low : c.val.toNat < 256 := by omega
      apply Char.ext
      apply UInt32.toNat_inj.mp
      have value : (charOf byte).val.toNat = byte.toNat := toNat_charOf byte
      rw [value, List.mem_singleton.mp member, Str.toNat_ofNat low]
  · split at member
    · simp only [List.mem_cons, List.not_mem_nil, or_false] at member
      rcases member with same | same
      · exact absurd same (high (by omega) (by omega))
      · exact absurd same (high (by omega) (by omega))
    · split at member
      · simp only [List.mem_cons, List.not_mem_nil, or_false] at member
        rcases member with same | same | same
        · exact absurd same (high (by omega) (by omega))
        · exact absurd same (high (by omega) (by omega))
        · exact absurd same (high (by omega) (by omega))
      · simp only [List.mem_cons, List.not_mem_nil, or_false] at member
        rcases member with same | same | same | same
        · exact absurd same (high (by omega) (by omega))
        · exact absurd same (high (by omega) (by omega))
        · exact absurd same (high (by omega) (by omega))
        · exact absurd same (high (by omega) (by omega))

theorem mem_encodeUtf8 {text : Str} {byte : UInt8} (ascii : byte < 0x80) :
    byte ∈ Str.encodeUtf8 text ↔ charOf byte ∈ text := by
  rw [Str.encodeUtf8, List.mem_flatMap]
  constructor
  · rintro ⟨c, inside, member⟩
    rwa [← eq_charOf ascii member]
  · intro inside
    refine ⟨_, inside, ?_⟩
    rw [utf8EncodeChar_charOf ascii]
    exact List.mem_singleton_self byte

/-- Text splits at an ASCII byte into text on both sides. -/
theorem encodeUtf8_split {text : Str} {left right : Bytes} {byte : UInt8} (ascii : byte < 0x80)
    (same : Str.encodeUtf8 text = left ++ byte :: right) :
    ∃ front back, text = front ++ charOf byte :: back ∧ Str.encodeUtf8 front = left ∧
      Str.encodeUtf8 back = right := by
  induction text generalizing left with
  | nil => simp [Str.encodeUtf8] at same
  | cons c text ih =>
      rw [Str.encodeUtf8, List.flatMap_cons] at same
      rcases List.append_eq_append_iff.mp same with ⟨more, head, tail⟩ | ⟨more, head, tail⟩
      · obtain ⟨front, back, parts, first, second⟩ := ih tail
        refine ⟨c :: front, back, by rw [parts, List.cons_append], ?_, second⟩
        rw [head, ← first]
        rfl
      · cases more with
        | nil =>
            have rest : Str.encodeUtf8 text = [] ++ byte :: right := tail.symm
            obtain ⟨front, back, parts, first, second⟩ := ih rest
            refine ⟨c :: front, back, by rw [parts, List.cons_append], ?_, second⟩
            rw [List.append_nil] at head
            rw [← head, ← List.append_nil (String.utf8EncodeChar c), ← first]
            rfl
        | cons other more =>
            rw [List.cons_append, List.cons.injEq] at tail
            have own : c = charOf byte := eq_charOf ascii (by rw [head, tail.1]; simp)
            have alone := utf8EncodeChar_charOf ascii
            rw [own, alone] at head
            rcases List.append_eq_singleton_iff.mp head.symm with ⟨empty, rest⟩ | ⟨_, rest⟩
            · rw [List.cons.injEq] at rest
              refine ⟨[], text, by rw [own, List.nil_append], by rw [empty]; rfl, ?_⟩
              rw [tail.2, rest.2]
              rfl
            · cases rest

/-! ### A trailing blank -/

theorem trim_append {c : Char} (blank : Str.isWhitespace c = true) (text : Str) :
    Str.trim (text ++ [c]) = Str.trim text := by
  rw [Str.trim, Str.trim, List.dropWhile_append]
  split
  · next all =>
      rw [List.isEmpty_iff.mp all]
      simp [blank]
  · rw [List.rdropWhile_concat_pos _ _ _ blank]

theorem trim_dropReturn (line : Str) : Str.trim (Str.dropReturn line) = Str.trim line := by
  rw [Str.dropReturn]
  split
  · next ends =>
      rcases List.getLast?_eq_some_iff.mp ends with ⟨front, same⟩
      rw [same, List.dropLast_concat, trim_append (by decide)]
  · rfl

end Onelf.Lib
