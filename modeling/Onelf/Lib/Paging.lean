import Onelf.Lib.Bytes

/-! Memory in pages: file and anonymous mappings, protection and stores. -/

namespace Onelf.Lib

/-! ### Pages -/

section Rounding

variable {page a b : Nat}

/-- `a & !(page - 1)`, for a page size that is a power of two. -/
def roundDown (page a : Nat) : Nat := a / page * page

/-- `(a + page - 1) & !(page - 1)`. -/
def roundUp (page a : Nat) : Nat := roundDown page (a + page - 1)

theorem roundDown_le : roundDown page a ≤ a := Nat.div_mul_le_self a page

theorem lt_roundDown_add (paged : 0 < page) : a < roundDown page a + page :=
  Nat.lt_div_mul_add paged

theorem roundDown_add_mod (page a : Nat) : roundDown page a + a % page = a :=
  Nat.div_add_mod' a page

theorem sub_mod_eq_roundDown : a - a % page = roundDown page a := by
  have split := roundDown_add_mod page a
  omega

theorem dvd_roundDown : page ∣ roundDown page a := Dvd.intro_left _ rfl

theorem roundDown_mono (below : a ≤ b) : roundDown page a ≤ roundDown page b :=
  Nat.mul_le_mul_right page (Nat.div_le_div_right below)

theorem roundDown_add (paged : 0 < page) (aligned : page ∣ a) :
    roundDown page (a + b) = a + roundDown page b := by
  obtain ⟨k, rfl⟩ := aligned
  rw [roundDown, roundDown, Nat.mul_add_div paged, Nat.add_mul, Nat.mul_comm k]

theorem roundDown_of_dvd (aligned : page ∣ a) : roundDown page a = a :=
  Nat.div_mul_cancel aligned

theorem le_roundDown (aligned : page ∣ a) (below : a ≤ b) : a ≤ roundDown page b := by
  rw [← roundDown_of_dvd aligned]
  exact roundDown_mono below

/-- All of a page rounds to where it starts. -/
theorem roundDown_eq (paged : 0 < page) (from_start : roundDown page a ≤ b)
    (before : b < roundDown page a + page) : roundDown page b = roundDown page a := by
  obtain ⟨rest, rfl⟩ := Nat.exists_eq_add_of_le from_start
  have short : rest / page = 0 := Nat.div_eq_of_lt (by omega)
  have inside : roundDown page rest = 0 := by rw [roundDown, short, Nat.zero_mul]
  rw [roundDown_add paged dvd_roundDown, inside, Nat.add_zero]

theorem le_roundUp (paged : 0 < page) : a ≤ roundUp page a := by
  have after := lt_roundDown_add (a := a + page - 1) paged
  rw [roundUp]
  omega

theorem roundUp_lt (paged : 0 < page) : roundUp page a < a + page := by
  have before : roundDown page (a + page - 1) ≤ a + page - 1 := roundDown_le
  rw [roundUp]
  omega

theorem dvd_roundUp : page ∣ roundUp page a := dvd_roundDown

theorem roundUp_mono (below : a ≤ b) : roundUp page a ≤ roundUp page b :=
  roundDown_mono (by omega)

theorem roundUp_add (paged : 0 < page) (aligned : page ∣ a) :
    roundUp page (a + b) = a + roundUp page b := by
  have shifted : a + b + page - 1 = a + (b + page - 1) := by omega
  rw [roundUp, shifted, roundDown_add paged aligned, roundUp]

theorem roundUp_of_dvd (paged : 0 < page) (aligned : page ∣ a) : roundUp page a = a := by
  have none : roundUp page 0 = 0 := by
    rw [roundUp, roundDown, Nat.zero_add, Nat.div_eq_of_lt (by omega), Nat.zero_mul]
  simpa [none] using roundUp_add (b := 0) paged aligned

/-- Off a page boundary the page starts one page before it ends. -/
theorem roundUp_eq (paged : 0 < page) (off : ¬page ∣ a) :
    roundUp page a = roundDown page a + page := by
  have split := roundDown_add_mod page a
  have positive : 0 < a % page := Nat.pos_of_ne_zero fun zero => off (Nat.dvd_of_mod_eq_zero zero)
  have shifted : a + page - 1 = roundDown page a + page + (a % page - 1) := by omega
  have rest : roundDown page (a % page - 1) = 0 := by
    have short := Nat.mod_lt a paged
    rw [roundDown, Nat.div_eq_of_lt (by omega), Nat.zero_mul]
  rw [roundUp, shifted, roundDown_add paged (Nat.dvd_add dvd_roundDown (Nat.dvd_refl page)), rest,
    Nat.add_zero]

end Rounding

/-! ### Memory -/

structure Prot where
  read : Bool
  write : Bool
  exec : Bool
  deriving DecidableEq

/-- A mapped byte. There is none to touch in a page past the end of the file behind it. -/
structure Cell where
  prot : Prot
  byte : Option UInt8
  deriving DecidableEq

/-- An address space, and whether every store so far went to a writable page. -/
structure Space where
  cell : Nat → Option Cell
  clean : Bool

/-- What a mapping shows of `pos` in a file: zeros fill the file's last page. -/
def fileByte (page : Nat) (file : Bytes) (pos : Nat) : Option UInt8 :=
  if roundDown page pos < file.length then some (file.getD pos 0) else none

namespace Space

def byteAt (t : Space) (a : Nat) : Option UInt8 := (t.cell a).bind Cell.byte

def protAt (t : Space) (a : Nat) : Option Prot := (t.cell a).map Cell.prot

/-- The pages of `len` bytes from `start`, which is the start of a page. -/
def Covers (page start len a : Nat) : Prop := start ≤ a ∧ a < start + roundUp page len

instance (page start len a : Nat) : Decidable (Covers page start len a) :=
  inferInstanceAs (Decidable (_ ∧ _))

def mapFile (page start len : Nat) (prot : Prot) (file : Bytes) (off : Nat) (t : Space) : Space :=
  { t with
    cell := fun a =>
      if Covers page start len a then some ⟨prot, fileByte page file (off + (a - start))⟩
      else t.cell a }

def mapAnonymous (page start len : Nat) (prot : Prot) (t : Space) : Space :=
  { t with cell := fun a => if Covers page start len a then some ⟨prot, some 0⟩ else t.cell a }

def protect (page start len : Nat) (prot : Prot) (t : Space) : Space :=
  { t with
    cell := fun a =>
      if Covers page start len a then (t.cell a).map fun cell => { cell with prot := prot }
      else t.cell a }

/-- A store to `a` does not fault. -/
def Storable (t : Space) (a : Nat) : Prop :=
  ∃ cell ∈ t.cell a, cell.prot.write = true ∧ cell.byte.isSome = true

instance (t : Space) (a : Nat) : Decidable (t.Storable a) :=
  inferInstanceAs (Decidable (∃ cell ∈ t.cell a, _))

def store (a : Nat) (byte : UInt8) (t : Space) : Space :=
  if t.Storable a then
    { t with
      cell := fun b =>
        if b = a then (t.cell b).map fun cell => { cell with byte := some byte } else t.cell b }
  else { t with clean := false }

/-- Zeros stored into `len` bytes from `start` on. -/
def zero : Nat → Nat → Space → Space
  | _, 0, t => t
  | start, len + 1, t => zero (start + 1) len (t.store start 0)

section

variable {page start len a b off : Nat} {prot : Prot} {file : Bytes} {byte : UInt8} {t : Space}

theorem covers_iff : Covers page start len a ↔ start ≤ a ∧ a < start + roundUp page len := Iff.rfl

@[simp] theorem mapFile_clean : (t.mapFile page start len prot file off).clean = t.clean := rfl

@[simp] theorem mapAnonymous_clean : (t.mapAnonymous page start len prot).clean = t.clean := rfl

@[simp] theorem protect_clean : (t.protect page start len prot).clean = t.clean := rfl

theorem mapFile_covered (covered : Covers page start len a) :
    (t.mapFile page start len prot file off).cell a =
      some ⟨prot, fileByte page file (off + (a - start))⟩ := if_pos covered

theorem mapFile_apart (apart : ¬Covers page start len a) :
    (t.mapFile page start len prot file off).cell a = t.cell a := if_neg apart

theorem mapAnonymous_covered (covered : Covers page start len a) :
    (t.mapAnonymous page start len prot).cell a = some ⟨prot, some 0⟩ := if_pos covered

theorem mapAnonymous_apart (apart : ¬Covers page start len a) :
    (t.mapAnonymous page start len prot).cell a = t.cell a := if_neg apart

theorem protect_covered (covered : Covers page start len a) :
    (t.protect page start len prot).cell a =
      (t.cell a).map fun cell => { cell with prot := prot } := if_pos covered

theorem protect_apart (apart : ¬Covers page start len a) :
    (t.protect page start len prot).cell a = t.cell a := if_neg apart

theorem storable_of_cell {cell : Cell} (found : t.cell a = some cell) :
    t.Storable a ↔ cell.prot.write = true ∧ cell.byte.isSome = true := by
  simp [Storable, found]

theorem store_cell :
    (t.store a byte).cell b =
      if b = a ∧ t.Storable a then (t.cell b).map fun cell => { cell with byte := some byte }
      else t.cell b := by
  by_cases storable : t.Storable a <;> by_cases same : b = a <;> simp [store, storable, same]

/-- Stores change no protection. -/
theorem storable_store : (t.store a byte).Storable b ↔ t.Storable b := by
  by_cases here : b = a ∧ t.Storable a
  · obtain ⟨rfl, cell, found, writable, backed⟩ := here
    have stored : (t.store b byte).cell b = some { cell with byte := some byte } := by
      rw [store_cell, if_pos ⟨rfl, cell, found, writable, backed⟩, Option.mem_def.mp found,
        Option.map_some]
    rw [storable_of_cell stored, storable_of_cell found]
    simp [backed]
  · have kept : (t.store a byte).cell b = t.cell b := by rw [store_cell, if_neg here]
    rw [Storable, Storable, kept]

theorem store_clean : (t.store a byte).clean = true ↔ t.clean = true ∧ t.Storable a := by
  by_cases storable : t.Storable a <;> simp [store, storable]

theorem zero_cell :
    (t.zero start len).cell a =
      if (start ≤ a ∧ a < start + len) ∧ t.Storable a then
        (t.cell a).map fun cell => { cell with byte := some 0 }
      else t.cell a := by
  induction len generalizing start t with
  | zero => rw [zero, if_neg (by omega)]
  | succ len ih =>
      rw [zero, ih]
      simp only [storable_store, store_cell]
      by_cases storable : t.Storable a
      · by_cases here : a = start
        · subst here
          rw [if_neg (by omega), if_pos ⟨rfl, storable⟩, if_pos ⟨⟨Nat.le_refl a, by omega⟩, storable⟩]
        · have other : ¬(a = start ∧ t.Storable start) := fun both => here both.1
          by_cases inside : start + 1 ≤ a ∧ a < start + 1 + len
          · rw [if_pos ⟨inside, storable⟩, if_neg other, if_pos ⟨by omega, storable⟩]
          · rw [if_neg fun both => inside both.1, if_neg other, if_neg (by omega)]
      · have never : ¬(a = start ∧ t.Storable start) := by
          rintro ⟨rfl, found⟩
          exact storable found
        rw [if_neg fun both => storable both.2, if_neg never, if_neg fun both => storable both.2]

theorem zero_clean :
    (t.zero start len).clean = true ↔
      t.clean = true ∧ ∀ a, start ≤ a → a < start + len → t.Storable a := by
  induction len generalizing start t with
  | zero =>
      simp only [zero]
      exact ⟨fun clean => ⟨clean, fun a _ _ => by omega⟩, fun clean => clean.1⟩
  | succ len ih =>
      rw [zero, ih, store_clean]
      simp only [storable_store]
      constructor
      · rintro ⟨⟨clean, first⟩, rest⟩
        refine ⟨clean, fun a after before => ?_⟩
        by_cases here : a = start
        · exact here ▸ first
        · exact rest a (by omega) (by omega)
      · rintro ⟨clean, all⟩
        exact ⟨⟨clean, all start (by omega) (by omega)⟩, fun a _ _ => all a (by omega) (by omega)⟩

end

end Space

/-! ### The kernel's answers -/

/-- What the kernel says to the calls that map memory, for pages of `page` bytes in an address
space of `limit` bytes: where it places a mapping, or that it refuses. It maps no empty length, and
nothing into the last page, whose addresses are its error codes. -/
structure Kernel (page limit : Nat) where
  reserve : Nat → Option Nat
  fixed : Nat → Nat → Bool
  protects : Nat → Nat → Bool
  power : page.isPowerOfTwo
  placed : ∀ {len start}, reserve len = some start →
    0 < len ∧ page ∣ start ∧ start + roundUp page len + page ≤ limit

namespace Kernel

variable {page limit : Nat}

theorem paged (kernel : Kernel page limit) : 0 < page := Nat.pos_of_isPowerOfTwo kernel.power

variable (kernel : Kernel page limit)

/-- `mmap` of a file with `MAP_FIXED`. -/
def mapFile (start len : Nat) (prot : Prot) (file : Bytes) (off : Nat) (t : Space) : Option Space :=
  if kernel.fixed start len then some (t.mapFile page start len prot file off) else none

/-- `mmap` with `MAP_FIXED | MAP_ANONYMOUS`. -/
def mapAnonymous (start len : Nat) (prot : Prot) (t : Space) : Option Space :=
  if kernel.fixed start len then some (t.mapAnonymous page start len prot) else none

variable {kernel} {start len off : Nat} {prot : Prot} {file : Bytes} {t after : Space}

theorem mapFile_eq_some (mapped : kernel.mapFile start len prot file off t = some after) :
    after = t.mapFile page start len prot file off := by
  rw [mapFile, Option.ite_none_right_eq_some] at mapped
  exact (Option.some.inj mapped.2).symm

theorem mapAnonymous_eq_some (mapped : kernel.mapAnonymous start len prot t = some after) :
    after = t.mapAnonymous page start len prot := by
  rw [mapAnonymous, Option.ite_none_right_eq_some] at mapped
  exact (Option.some.inj mapped.2).symm

end Kernel

end Onelf.Lib
