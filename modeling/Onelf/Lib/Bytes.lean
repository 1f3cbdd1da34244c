import Mathlib.Data.List.Lex
import Mathlib.Data.List.Sort
import Mathlib.Data.Prod.Lex
import Mathlib.Order.WithBot
import Mathlib.Tactic.Ring

/-! Byte strings: order, little-endian integers and slices. -/

namespace Onelf.Lib

abbrev Bytes := List UInt8

instance byteLinearOrder : LinearOrder UInt8 where
  le_refl a := Nat.le_refl a.toNat
  le_trans _ _ _ := Nat.le_trans
  lt_iff_le_not_ge a b := by
    rw [UInt8.lt_iff_toNat_lt, UInt8.le_iff_toNat_le, UInt8.le_iff_toNat_le]
    omega
  le_antisymm _ _ first second := UInt8.toNat_inj.mp (Nat.le_antisymm first second)
  le_total a b := Nat.le_total a.toNat b.toNat
  toDecidableLE := inferInstance

/-- The bytes of an ASCII or UTF-8 source literal. -/
def utf8 (text : String) : Bytes := text.toByteArray.data.toList

def leBytes : Nat → Nat → Bytes
  | 0, _ => []
  | width + 1, n => UInt8.ofNat (n % 256) :: leBytes width (n / 256)

def ofLeBytes (bytes : Bytes) : Nat :=
  bytes.foldr (fun byte high => byte.toNat + 256 * high) 0

@[simp] theorem ofLeBytes_nil : ofLeBytes [] = 0 := rfl

@[simp] theorem ofLeBytes_cons (byte : UInt8) (bytes : Bytes) :
    ofLeBytes (byte :: bytes) = byte.toNat + 256 * ofLeBytes bytes := rfl

@[simp] theorem length_leBytes (width n : Nat) : (leBytes width n).length = width := by
  induction width generalizing n with
  | zero => rfl
  | succ width ih => simp [leBytes, ih]

theorem ofLeBytes_leBytes (width n : Nat) (fits : n < 256 ^ width) :
    ofLeBytes (leBytes width n) = n := by
  induction width generalizing n with
  | zero => simp_all [leBytes]
  | succ width ih =>
      have high : n / 256 < 256 ^ width := by
        rw [Nat.div_lt_iff_lt_mul (by decide)]
        simpa [Nat.pow_succ] using fits
      have low : (UInt8.ofNat (n % 256)).toNat = n % 256 :=
        UInt8.toNat_ofNat_of_lt' (Nat.mod_lt n (by decide))
      rw [leBytes, ofLeBytes_cons, ih (n / 256) high, low]
      exact Nat.mod_add_div n 256

theorem ofLeBytes_lt (bytes : Bytes) : ofLeBytes bytes < 256 ^ bytes.length := by
  induction bytes with
  | nil => simp
  | cons byte bytes ih =>
      have low := byte.toNat_lt
      rw [ofLeBytes_cons, List.length_cons, Nat.pow_succ]
      omega

theorem leBytes_ofLeBytes (bytes : Bytes) : leBytes bytes.length (ofLeBytes bytes) = bytes := by
  induction bytes with
  | nil => rfl
  | cons byte bytes ih =>
      have low := byte.toNat_lt
      have digit : (byte.toNat + 256 * ofLeBytes bytes) % 256 = byte.toNat := by omega
      have rest : (byte.toNat + 256 * ofLeBytes bytes) / 256 = ofLeBytes bytes := by omega
      simp [leBytes, digit, rest, ih]

/-- The `len` bytes of `bytes` from `start`; shorter where `bytes` ends first. -/
def slice (bytes : Bytes) (start len : Nat) : Bytes := (bytes.drop start).take len

theorem length_slice {bytes : Bytes} {start len : Nat} (inside : start + len ≤ bytes.length) :
    (slice bytes start len).length = len := by
  simp only [slice, List.length_take, List.length_drop]
  omega

theorem getElem?_slice (bytes : Bytes) (start len i : Nat) :
    (slice bytes start len)[i]? = if i < len then bytes[start + i]? else none := by
  simp only [slice, List.getElem?_take, List.getElem?_drop]

/-- A full 32-byte hash. -/
@[ext] structure Digest where
  bytes : Bytes
  size : bytes.length = 32
  deriving DecidableEq

instance : LinearOrder Digest := LinearOrder.lift' Digest.bytes fun _ _ => Digest.ext

end Onelf.Lib
