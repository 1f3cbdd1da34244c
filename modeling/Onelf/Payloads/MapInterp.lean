import Onelf.Cli.Bundle.Elf
import Onelf.Lib.Segments

/-! The interpreter as the bootstrap maps it (`bootstrap.rs`), in either width. -/

namespace Onelf.Payloads.Interp

open Onelf.Lib Onelf.Cli.Bundle

/-! ### The headers -/

/-- The values of a word of the target. -/
def wordLimit (width : Width) : Nat := 256 ^ width.addr

def pfX : Nat := 1
def pfW : Nat := 2
def pfR : Nat := 4

def pflags (flags : Nat) : Prot :=
  { read := flags &&& pfR != 0
    write := flags &&& pfW != 0
    exec := flags &&& pfX != 0 }

def phdrSegment (header : ProgramHeader) : LoadSegment :=
  { offset := header.offset
    vaddr := header.vaddr
    filesz := header.filesz
    memsz := header.memsz
    prot := pflags header.flags }

/-- Up to `len` bytes from `pos` on; no offset is negative. -/
def pread (file : Bytes) (len pos : Nat) : Option Bytes :=
  if pos < 2 ^ 63 then some (slice file pos len) else none

/-- The program headers of the file whose ELF header is `ehdr`. -/
def interpHeaders (width : Width) (file ehdr : Bytes) : Option (List ProgramHeader) :=
  let phnum := fieldAt ehdr width.phnumAt 2
  let phsz := phnum * width.phdrSize
  if 32 < phnum then none
  else
    match pread file phsz (fieldAt ehdr width.phoffAt width.addr) with
    | none => none
    | some table =>
        if table.length = phsz then
          some ((rows table 0 width.phdrSize phnum).map (ProgramHeader.read width))
        else none

/-- Where the last segment ends. -/
def vmax (limit : Nat) (loads : List ProgramHeader) : Nat :=
  loads.foldl (fun vmax p => if vmax < p.vend % limit then p.vend % limit else vmax) 0

/-! ### Mapping it -/

section

variable {page limit : Nat}

/-- What follows the mapping of a segment's bytes: `va` is where its first page stands. -/
def mapRest (kernel : Kernel page limit) (p : ProgramHeader) (va mis : Nat) (t : Space) :
    Option Space :=
  if p.memsz ≤ p.filesz then some t
  else
    let fe := (va + mis + p.filesz) % limit
    let pe := roundDown page ((fe + (page - 1)) % limit)
    let me := (va + mis + p.memsz) % limit
    let mapped :=
      if pe < me then kernel.mapAnonymous pe (me - pe) (pflags p.flags) t else some t
    if (pflags p.flags).write then mapped.map (Space.zero fe ((pe + limit - fe) % limit))
    else mapped

/-- A segment after the first, once `base` is fixed. -/
def mapNext (kernel : Kernel page limit) (file : Bytes) (base : Nat) (p : ProgramHeader)
    (t : Space) : Option Space :=
  let mis := p.offset % page
  let va := (base + p.vaddr + limit - mis) % limit
  let mapped :=
    if p.filesz ≠ 0 then
      kernel.mapFile va ((p.filesz + mis) % limit) (pflags p.flags) file (p.offset - mis) t
    else some t
  mapped.bind (mapRest kernel p va mis)

/-- What the loop carries. -/
structure Mapped where
  base : Nat
  fixed : Bool
  space : Space

/-- The first segment is mapped over the whole span, wherever the kernel places it. -/
def mapSegment (kernel : Kernel page limit) (file : Bytes) (vmax : Nat) (m : Mapped)
    (p : ProgramHeader) : Option Mapped :=
  if m.fixed then (mapNext kernel file m.base p m.space).map fun t => { m with space := t }
  else
    let mis := p.offset % page
    let va := (m.base + p.vaddr + limit - mis) % limit
    let len := (vmax + limit - va) % limit
    match kernel.reserve len with
    | none => none
    | some start =>
        let t := m.space.mapFile page start len (pflags p.flags) file (p.offset - mis)
        (mapRest kernel p start mis t).map fun t => ⟨(m.base + limit - va + start) % limit, true, t⟩

end

/-- `map_interp`: none where it dies. -/
def mapInterp {page : Nat} {width : Width} (kernel : Kernel page (wordLimit width))
    (file ehdr : Bytes) (memory : Nat → Option Cell) : Option Mapped :=
  match interpHeaders width file ehdr with
  | none => none
  | some headers =>
      let loads := headers.filter ProgramHeader.isLoad
      loads.foldlM (mapSegment kernel file (vmax (wordLimit width) loads))
        ⟨0, false, ⟨memory, true⟩⟩

/-! ### When a segment comes out right -/

/-- Whose mapping shows in the page where the bytes of `s` from the file end: one without any is
left on the mapping of the whole span. -/
def holder (first s : LoadSegment) : LoadSegment := if s.filesz = 0 then first else s

/-- Past the bytes of `s` the page they end in, where `under` is mapped, comes out as the header
says. It is cleared where the segment can be written; elsewhere the file has to hold zeros there. -/
def Cleared (page : Nat) (file : Bytes) (under s : LoadSegment) : Prop :=
  under.prot = s.prot ∧ roundDown page (under.filePos page s.fileEnd) < file.length ∧
    (s.prot.write = true ∨ ∀ v, s.fileEnd ≤ v → v < s.vend → v < roundUp page s.fileEnd →
      file.getD (under.filePos page v) 0 = 0)

def Mappable (page : Nat) (file : Bytes) (first s : LoadSegment) : Prop :=
  s.InFile file ∧
    (s.memsz ≤ s.filesz ∨ page ∣ s.fileEnd ∨ Cleared page file (holder first s) s)

/-! ### One segment -/

section

variable {page limit : Nat} {kernel : Kernel page limit} {p : ProgramHeader} {t after : Space}
  {va mis fe me : Nat}

/-- The fresh pages are mapped before any store. -/
theorem mapRest_eq (starts : va + mis + p.filesz = fe) (ends : va + mis + p.memsz = me)
    (full : fe < me) (room : me + page ≤ limit) (mapped : mapRest kernel p va mis t = some after) :
    ∃ between : Space,
      (∀ a, between.cell a =
        if roundUp page fe ≤ a ∧ a < roundUp page me then some ⟨pflags p.flags, some 0⟩
        else t.cell a) ∧
      between.clean = t.clean ∧
      after =
        if (pflags p.flags).write then between.zero fe (roundUp page fe - fe) else between := by
  have paged := kernel.paged
  have above : fe ≤ roundUp page fe := le_roundUp paged
  have short : roundUp page fe < fe + page := roundUp_lt paged
  have peFits : roundDown page ((fe + (page - 1)) % limit) = roundUp page fe := by
    rw [Nat.mod_eq_of_lt (by omega), roundUp, Nat.add_sub_assoc paged]
  have lenFits : (roundUp page fe + limit - fe) % limit = roundUp page fe - fe := by
    rw [Nat.sub_add_comm above, Nat.add_mod_right, Nat.mod_eq_of_lt (by omega)]
  rw [mapRest, if_neg (by omega)] at mapped
  simp only [starts, ends, Nat.mod_eq_of_lt (show fe < limit by omega),
    Nat.mod_eq_of_lt (show me < limit by omega), peFits, lenFits] at mapped
  obtain ⟨between, made, final⟩ : ∃ between,
      (if roundUp page fe < me then
        kernel.mapAnonymous (roundUp page fe) (me - roundUp page fe) (pflags p.flags) t
      else some t) = some between ∧
      after =
        if (pflags p.flags).write then between.zero fe (roundUp page fe - fe) else between := by
    split at mapped
    · rename_i writable
      obtain ⟨between, made, final⟩ := Option.map_eq_some_iff.mp mapped
      exact ⟨between, made, by rw [if_pos writable, final]⟩
    · rename_i locked
      exact ⟨after, mapped, by rw [if_neg locked]⟩
  refine ⟨between, fun a => ?_, ?_, final⟩
  · split at made
    · rename_i beyond
      have stop : roundUp page fe + roundUp page (me - roundUp page fe) = roundUp page me := by
        rw [← roundUp_add paged dvd_roundUp, Nat.add_sub_cancel' (by omega)]
      rw [Kernel.mapAnonymous_eq_some made]
      split
      · rename_i covered
        exact Space.mapAnonymous_covered (by rw [Space.covers_iff, stop]; exact covered)
      · rename_i outside
        exact Space.mapAnonymous_apart (by rw [Space.covers_iff, stop]; exact outside)
    · rename_i inside
      have last : roundUp page me ≤ roundUp page (roundUp page fe) :=
        roundUp_mono (Nat.le_of_not_lt inside)
      rw [roundUp_of_dvd paged dvd_roundUp] at last
      rw [if_neg (by omega), Option.some.inj made]
  · split at made
    · rw [Kernel.mapAnonymous_eq_some made, Space.mapAnonymous_clean]
    · rw [Option.some.inj made]

/-- The bss pages are fresh, and the tail before them is cleared where stores to it go through. -/
theorem mapRest_cell (starts : va + mis + p.filesz = fe) (ends : va + mis + p.memsz = me)
    (full : fe < me) (room : me + page ≤ limit) (mapped : mapRest kernel p va mis t = some after)
    (a : Nat) :
    after.cell a =
      if roundUp page fe ≤ a ∧ a < roundUp page me then some ⟨pflags p.flags, some 0⟩
      else if (pflags p.flags).write = true ∧ (fe ≤ a ∧ a < roundUp page fe) ∧ t.Storable a then
        (t.cell a).map fun cell => { cell with byte := some 0 }
      else t.cell a := by
  obtain ⟨between, cells, -, rfl⟩ := mapRest_eq starts ends full room mapped
  have tail : fe + (roundUp page fe - fe) = roundUp page fe :=
    Nat.add_sub_cancel' (le_roundUp kernel.paged)
  by_cases writable : (pflags p.flags).write = true
  · rw [if_pos writable, Space.zero_cell, tail, cells]
    by_cases fresh : roundUp page fe ≤ a ∧ a < roundUp page me
    · rw [if_pos fresh, if_neg (by omega), if_pos fresh]
    · have same : between.Storable a ↔ t.Storable a := by
        rw [Space.Storable, Space.Storable, cells, if_neg fresh]
      rw [if_neg fresh, if_neg fresh]
      simp only [same, writable, true_and]
  · rw [if_neg writable, cells]
    simp [writable]

theorem mapRest_clean (starts : va + mis + p.filesz = fe) (ends : va + mis + p.memsz = me)
    (full : fe < me) (room : me + page ≤ limit)
    (mapped : mapRest kernel p va mis t = some after) :
    after.clean = true ↔ t.clean = true ∧
      ((pflags p.flags).write = true → ∀ a, fe ≤ a → a < roundUp page fe → t.Storable a) := by
  obtain ⟨between, cells, clean, rfl⟩ := mapRest_eq starts ends full room mapped
  have tail : fe + (roundUp page fe - fe) = roundUp page fe :=
    Nat.add_sub_cancel' (le_roundUp kernel.paged)
  by_cases writable : (pflags p.flags).write = true
  · have same : ∀ a, a < roundUp page fe → (between.Storable a ↔ t.Storable a) := fun a before => by
      rw [Space.Storable, Space.Storable, cells, if_neg (by omega)]
    rw [if_pos writable, Space.zero_clean, tail, clean]
    constructor
    · rintro ⟨cleared, all⟩
      exact ⟨cleared, fun _ a after before => (same a before).mp (all a after before)⟩
    · rintro ⟨cleared, all⟩
      exact ⟨cleared, fun a after before => (same a before).mpr (all writable a after before)⟩
  · rw [if_neg writable, clean]
    simp [writable]

end

section

variable {page limit start low : Nat} {kernel : Kernel page limit} {file : Bytes}
  {p : ProgramHeader} {under : LoadSegment} {t after : Space} {v : Nat}

theorem laidAt_fileEnd (seated : (phdrSegment p).Seated page limit start low) :
    laidAt start low (roundDown page p.vaddr) + p.offset % page + p.filesz =
      laidAt start low (phdrSegment p).fileEnd := by
  have split := roundDown_add_mod page p.vaddr
  have above : low ≤ roundDown page p.vaddr := seated.above
  have congruent : p.offset % page = p.vaddr % page := seated.congruent
  simp only [laidAt, LoadSegment.fileEnd, phdrSegment]
  omega

theorem laidAt_vend (seated : (phdrSegment p).Seated page limit start low) :
    laidAt start low (roundDown page p.vaddr) + p.offset % page + p.memsz =
      laidAt start low (phdrSegment p).vend := by
  have split := roundDown_add_mod page p.vaddr
  have above : low ≤ roundDown page p.vaddr := seated.above
  have congruent : p.offset % page = p.vaddr % page := seated.congruent
  simp only [laidAt, LoadSegment.vend, phdrSegment]
  omega

/-- A segment with memory past its bytes, over pages that show a mapping of `under`. -/
structure Over (page limit start low : Nat) (file : Bytes) (under : LoadSegment) (p : ProgramHeader)
    (t : Space) : Prop where
  seated : (phdrSegment p).Seated page limit start low
  own : p.filesz ≠ 0 → under = phdrSegment p
  below : roundDown page under.vaddr ≤ roundDown page p.vaddr
  held : ∀ v, (phdrSegment p).Owns page v → v < roundUp page (phdrSegment p).fileEnd →
    t.cell (laidAt start low v) = some (under.fileCell page file v)

namespace Over

theorem low_le (atop : Over page limit start low file under p t)
    (owned : (phdrSegment p).Owns page v) : low ≤ v :=
  Nat.le_trans atop.seated.above owned.2.1

/-- The cells of the segment once its rest is mapped. -/
theorem cell_laidAt (atop : Over page limit start low file under p t) (full : p.filesz < p.memsz)
    (mapped : mapRest kernel p (laidAt start low (roundDown page p.vaddr)) (p.offset % page) t =
      some after) (owned : (phdrSegment p).Owns page v) :
    after.cell (laidAt start low v) =
      if roundUp page (phdrSegment p).fileEnd ≤ v then some ⟨pflags p.flags, some 0⟩
      else if (pflags p.flags).write = true ∧ (phdrSegment p).fileEnd ≤ v ∧
          t.Storable (laidAt start low v) then some ⟨under.prot, some 0⟩
      else some (under.fileCell page file v) := by
  have paged := kernel.paged
  have reached := atop.low_le owned
  have startUp : roundUp page (laidAt start low (phdrSegment p).fileEnd) =
      laidAt start low (roundUp page (phdrSegment p).fileEnd) :=
    atop.seated.roundUp_add paged p.filesz
  have endUp : roundUp page (laidAt start low (phdrSegment p).vend) =
      laidAt start low (roundUp page (phdrSegment p).vend) :=
    atop.seated.roundUp_add paged p.memsz
  have longer : (phdrSegment p).fileEnd < (phdrSegment p).vend := Nat.add_lt_add_left full p.vaddr
  rw [mapRest_cell (laidAt_fileEnd atop.seated) (laidAt_vend atop.seated)
    ((laidAt_lt (atop.seated.low_le_add p.filesz)).mpr longer)
    (atop.seated.vend_room paged (Nat.ne_zero_of_lt full)) mapped, startUp, endUp]
  simp only [laidAt_le reached, laidAt_lt reached]
  by_cases fresh : roundUp page (phdrSegment p).fileEnd ≤ v
  · exact (if_pos ⟨fresh, owned.2.2⟩).trans (if_pos fresh).symm
  · have before : v < roundUp page (phdrSegment p).fileEnd := Nat.lt_of_not_le fresh
    simp only [fresh, before, false_and, and_true, if_false, atop.held v owned before,
      Option.map_some]
    rfl

theorem clean_laidAt (atop : Over page limit start low file under p t) (full : p.filesz < p.memsz)
    (mapped : mapRest kernel p (laidAt start low (roundDown page p.vaddr)) (p.offset % page) t =
      some after) :
    after.clean = true ↔ t.clean = true ∧ ((pflags p.flags).write = true → ∀ v,
      (phdrSegment p).fileEnd ≤ v → v < roundUp page (phdrSegment p).fileEnd →
        t.Storable (laidAt start low v)) := by
  have paged := kernel.paged
  have base : low ≤ (phdrSegment p).fileEnd := atop.seated.low_le_add p.filesz
  have startUp : roundUp page (laidAt start low (phdrSegment p).fileEnd) =
      laidAt start low (roundUp page (phdrSegment p).fileEnd) :=
    atop.seated.roundUp_add paged p.filesz
  have longer : (phdrSegment p).fileEnd < (phdrSegment p).vend := Nat.add_lt_add_left full p.vaddr
  rw [mapRest_clean (laidAt_fileEnd atop.seated) (laidAt_vend atop.seated)
    ((laidAt_lt base).mpr longer) (atop.seated.vend_room paged (Nat.ne_zero_of_lt full)) mapped,
    startUp]
  constructor
  · rintro ⟨clean, all⟩
    refine ⟨clean, fun writable v after before => all writable _ ?_ ?_⟩
    · exact (laidAt_le (Nat.le_trans base after)).mpr after
    · exact (laidAt_lt (Nat.le_trans base after)).mpr before
  · rintro ⟨clean, all⟩
    refine ⟨clean, fun writable a after before => ?_⟩
    have found := all writable (low + (a - start))
    simp only [laidAt, Nat.add_sub_cancel_left] at after before found
    rw [Nat.add_sub_cancel' (by omega)] at found
    exact found (by omega) (by omega)

/-- The page the bytes end in is behind the file as a whole, or past its end. -/
theorem backed_iff (atop : Over page limit start low file under p t) (paged : 0 < page)
    (off : ¬page ∣ (phdrSegment p).fileEnd) (after : (phdrSegment p).fileEnd ≤ v)
    (before : v < roundUp page (phdrSegment p).fileEnd) :
    roundDown page (under.filePos page v) < file.length ↔
      roundDown page (under.filePos page (phdrSegment p).fileEnd) < file.length := by
  have below : roundDown page under.vaddr ≤ (phdrSegment p).fileEnd :=
    Nat.le_trans atop.below (Nat.le_trans roundDown_le (Nat.le_add_right _ _))
  have same : roundDown page v = roundDown page (phdrSegment p).fileEnd :=
    roundDown_eq paged (Nat.le_trans roundDown_le after) (by rwa [roundUp_eq paged off] at before)
  rw [LoadSegment.roundDown_filePos paged (Nat.le_trans below after),
    LoadSegment.roundDown_filePos paged below, same]

theorem storable_iff (atop : Over page limit start low file under p t)
    (owned : (phdrSegment p).Owns page v) (before : v < roundUp page (phdrSegment p).fileEnd) :
    t.Storable (laidAt start low v) ↔
      under.prot.write = true ∧ roundDown page (under.filePos page v) < file.length := by
  rw [Space.storable_of_cell (atop.held v owned before), LoadSegment.fileCell, fileByte]
  by_cases backed : roundDown page (under.filePos page v) < file.length <;> simp [backed]

end Over

end

section

variable {page limit start low : Nat} {kernel : Kernel page limit} {file : Bytes}
  {p : ProgramHeader} {under : LoadSegment} {t after : Space} {v : Nat}

namespace Over

/-- Where the rest leaves the bytes of the file alone, they are the segment's own. -/
theorem described_bytes (atop : Over page limit start low file under p t) (paged : 0 < page)
    (inFile : (phdrSegment p).InFile file)
    (kept : ∀ v, (phdrSegment p).Owns page v → v < (phdrSegment p).fileEnd →
      after.cell (laidAt start low v) = t.cell (laidAt start low v)) :
    ∀ i < p.filesz, ∃ byte, file[p.offset + i]? = some byte ∧
      after.byteAt (laidAt start low (p.vaddr + i)) = some byte := by
  intro i inside
  have within : p.filesz ≤ p.memsz := atop.seated.within
  have owned : (phdrSegment p).Owns page (p.vaddr + i) :=
    LoadSegment.owns_add paged (Nat.lt_of_lt_of_le inside within)
  have short : p.vaddr + i < (phdrSegment p).fileEnd := Nat.add_lt_add_left inside p.vaddr
  obtain ⟨byte, found, shown⟩ :=
    LoadSegment.fileCell_inFile atop.seated.congruent inFile (s := phdrSegment p) inside
  refine ⟨byte, found, ?_⟩
  rw [Space.byteAt, kept _ owned short,
    atop.held _ owned (Nat.lt_of_lt_of_le short (le_roundUp paged)), atop.own (by omega)]
  exact congrArg (fun cell => (some cell).bind Cell.byte) shown

/-- In the page the bytes end in there is what was under it, or a zero stored over that. -/
theorem cell_tail (atop : Over page limit start low file under p t) (full : p.filesz < p.memsz)
    (mapped : mapRest kernel p (laidAt start low (roundDown page p.vaddr)) (p.offset % page) t =
      some after) (owned : (phdrSegment p).Owns page v)
    (before : v < roundUp page (phdrSegment p).fileEnd) :
    ∃ cell, after.cell (laidAt start low v) = some cell ∧ cell.prot = under.prot ∧
      ((pflags p.flags).write = false ∨ v < (phdrSegment p).fileEnd →
        cell = under.fileCell page file v) := by
  rw [atop.cell_laidAt full mapped owned, if_neg (Nat.not_le_of_lt before)]
  split
  · rename_i stored
    refine ⟨_, rfl, rfl, ?_⟩
    rintro (locked | early)
    · rw [stored.1] at locked
      contradiction
    · exact absurd early (Nat.not_lt_of_le stored.2.1)
  · exact ⟨_, rfl, rfl, fun _ => rfl⟩

theorem cleared_of_described (atop : Over page limit start low file under p t)
    (full : p.filesz < p.memsz)
    (mapped : mapRest kernel p (laidAt start low (roundDown page p.vaddr)) (p.offset % page) t =
      some after) (clean : after.clean = true)
    (described : (phdrSegment p).Described page file (laidAt start low) after)
    (off : ¬page ∣ (phdrSegment p).fileEnd) : Cleared page file under (phdrSegment p) := by
  have paged := kernel.paged
  have owned : (phdrSegment p).Owns page (phdrSegment p).fileEnd := LoadSegment.owns_add paged full
  have inPage : (phdrSegment p).fileEnd < roundUp page (phdrSegment p).fileEnd := by
    rw [roundUp_eq paged off]
    exact lt_roundDown_add paged
  have same : under.prot = (phdrSegment p).prot := by
    obtain ⟨cell, found, prot, -⟩ := atop.cell_tail full mapped owned inPage
    have guarded := described.guarded _ owned
    rw [Space.protAt, found, Option.map_some, prot] at guarded
    exact Option.some.inj guarded
  -- a segment that cannot be written keeps what the file shows, so that has to be zeros
  have shown : (pflags p.flags).write = false → ∀ v, (phdrSegment p).fileEnd ≤ v →
      v < (phdrSegment p).vend → v < roundUp page (phdrSegment p).fileEnd →
        fileByte page file (under.filePos page v) = some 0 := by
    intro locked v past before early
    obtain ⟨i, rfl⟩ : ∃ i, v = p.vaddr + i := Nat.exists_eq_add_of_le
      (Nat.le_trans (Nat.le_add_right p.vaddr p.filesz) past)
    have inside : i < p.memsz := Nat.lt_of_add_lt_add_left before
    obtain ⟨cell, found, -, kept⟩ :=
      atop.cell_tail full mapped (LoadSegment.owns_add paged inside) early
    have zero := described.zeros i (Nat.le_of_add_le_add_left past) inside
    have found : after.cell (laidAt start low ((phdrSegment p).vaddr + i)) = some cell := found
    rw [Space.byteAt, found, Option.bind_some, kept (.inl locked)] at zero
    exact zero
  cases writable : (pflags p.flags).write with
  | true =>
      have storable :=
        ((atop.clean_laidAt full mapped).mp clean).2 writable _ (Nat.le_refl _) inPage
      exact ⟨same, ((atop.storable_iff owned inPage).mp storable).2, .inl writable⟩
  | false =>
      refine ⟨same, ?_, .inr fun v after before early => ?_⟩
      · have zero := shown writable _ (Nat.le_refl _) (Nat.add_lt_add_left full p.vaddr) inPage
        rw [fileByte, Option.ite_none_right_eq_some] at zero
        exact zero.1
      · have zero := shown writable v after before early
        rw [fileByte, Option.ite_none_right_eq_some] at zero
        exact Option.some.inj zero.2

/-- The tail of a page that comes out: it can be stored to or it needs no store. -/
theorem described_of_cleared (atop : Over page limit start low file under p t)
    (full : p.filesz < p.memsz)
    (mapped : mapRest kernel p (laidAt start low (roundDown page p.vaddr)) (p.offset % page) t =
      some after) (clean : t.clean = true) (inFile : (phdrSegment p).InFile file)
    (sound : page ∣ (phdrSegment p).fileEnd ∨ Cleared page file under (phdrSegment p)) :
    after.clean = true ∧ (phdrSegment p).Described page file (laidAt start low) after := by
  have paged := kernel.paged
  have owns : ∀ v, (phdrSegment p).fileEnd ≤ v → v < roundUp page (phdrSegment p).fileEnd →
      (phdrSegment p).Owns page v := fun v after before =>
    ⟨Nat.ne_zero_of_lt full,
      Nat.le_trans (Nat.le_trans roundDown_le (Nat.le_add_right p.vaddr p.filesz)) after,
      Nat.lt_of_lt_of_le before (LoadSegment.roundUp_fileEnd_le atop.seated.within)⟩
  -- past the bytes only a page they end inside of is left
  have tail : ∀ v, (phdrSegment p).fileEnd ≤ v → v < roundUp page (phdrSegment p).fileEnd →
      Cleared page file under (phdrSegment p) ∧
        roundDown page (under.filePos page v) < file.length := by
    intro v after before
    have off : ¬page ∣ (phdrSegment p).fileEnd := fun aligned => by
      rw [roundUp_of_dvd paged aligned] at before
      omega
    have cleared := sound.resolve_left off
    exact ⟨cleared, (atop.backed_iff paged off after before).mpr cleared.2.1⟩
  have same : ∀ v, (phdrSegment p).Owns page v → v < roundUp page (phdrSegment p).fileEnd →
      under.prot = (phdrSegment p).prot := by
    intro v owned before
    by_cases empty : p.filesz = 0
    · have ends : (phdrSegment p).fileEnd = p.vaddr := by
        rw [LoadSegment.fileEnd, phdrSegment, empty, Nat.add_zero]
      have off : ¬page ∣ (phdrSegment p).fileEnd := fun aligned => by
        have reached : roundDown page p.vaddr ≤ v := owned.2.1
        rw [roundUp_of_dvd paged aligned] at before
        rw [ends] at aligned before
        rw [roundDown_of_dvd aligned] at reached
        omega
      exact (sound.resolve_left off).1
    · rw [atop.own empty]
  constructor
  · rw [atop.clean_laidAt full mapped]
    refine ⟨clean, fun writable v after before => ?_⟩
    have found := tail v after before
    rw [atop.storable_iff (owns v after before) before, found.1.1]
    exact ⟨writable, found.2⟩
  · constructor
    · refine atop.described_bytes paged inFile fun v owned early => ?_
      have before := Nat.lt_of_lt_of_le early (le_roundUp paged)
      obtain ⟨cell, found, -, kept⟩ := atop.cell_tail full mapped owned before
      rw [found, kept (.inr early), atop.held v owned before]
    · intro i past inside
      have owned : (phdrSegment p).Owns page (p.vaddr + i) := LoadSegment.owns_add paged inside
      have after : (phdrSegment p).fileEnd ≤ p.vaddr + i := Nat.add_le_add_left past p.vaddr
      rw [Space.byteAt]
      refine (congrArg (Option.bind · Cell.byte) (atop.cell_laidAt full mapped owned)).trans ?_
      by_cases fresh : roundUp page (phdrSegment p).fileEnd ≤ p.vaddr + i
      · rw [if_pos fresh]
        rfl
      · have before := Nat.lt_of_not_le fresh
        obtain ⟨cleared, backed⟩ := tail _ after before
        rw [if_neg fresh]
        split
        · rfl
        · rename_i unstored
          have locked : (pflags p.flags).write ≠ true := fun writable => by
            refine unstored ⟨writable, after, (atop.storable_iff owned before).mpr ⟨?_, backed⟩⟩
            rw [cleared.1]
            exact writable
          have zero := (cleared.2.2.resolve_left locked) _ after
            (Nat.add_lt_add_left inside p.vaddr) before
          show fileByte page file (under.filePos page (p.vaddr + i)) = some 0
          rw [fileByte, if_pos backed, zero]
    · intro v owned
      by_cases fresh : roundUp page (phdrSegment p).fileEnd ≤ v
      · rw [Space.protAt, atop.cell_laidAt full mapped owned, if_pos fresh]
        rfl
      · have before := Nat.lt_of_not_le fresh
        obtain ⟨cell, found, prot, -⟩ := atop.cell_tail full mapped owned before
        rw [Space.protAt, found, Option.map_some, prot, same v owned before]

/-- What mapping the rest of a segment leaves is what its header says, exactly when the page its
bytes end in comes out. -/
theorem settled (atop : Over page limit start low file under p t)
    (mapped : mapRest kernel p (laidAt start low (roundDown page p.vaddr)) (p.offset % page) t =
      some after) :
    (after.clean = true ∧ (phdrSegment p).Described page file (laidAt start low) after) ↔
      (t.clean = true ∧ (phdrSegment p).InFile file ∧
        (p.memsz ≤ p.filesz ∨ page ∣ (phdrSegment p).fileEnd ∨
          Cleared page file under (phdrSegment p))) := by
  have paged := kernel.paged
  have within : p.filesz ≤ p.memsz := atop.seated.within
  by_cases full : p.filesz < p.memsz
  · constructor
    · rintro ⟨clean, described⟩
      refine ⟨((atop.clean_laidAt full mapped).mp clean).1, described.inFile, .inr ?_⟩
      by_cases aligned : page ∣ (phdrSegment p).fileEnd
      · exact .inl aligned
      · exact .inr (atop.cleared_of_described full mapped clean described aligned)
    · rintro ⟨clean, inFile, sound⟩
      exact atop.described_of_cleared full mapped clean inFile
        (sound.resolve_left (Nat.not_le_of_lt full))
  · have whole : p.memsz ≤ p.filesz := Nat.le_of_not_lt full
    rw [mapRest, if_pos whole] at mapped
    obtain rfl := Option.some.inj mapped
    constructor
    · rintro ⟨clean, described⟩
      exact ⟨clean, described.inFile, .inl whole⟩
    · rintro ⟨clean, inFile, -⟩
      refine ⟨clean, atop.described_bytes paged inFile fun _ _ _ => rfl, fun i past inside => ?_,
        fun v owned => ?_⟩
      · exact absurd inside (Nat.not_lt_of_le (Nat.le_trans whole past))
      · have some_bytes : p.filesz ≠ 0 := fun none => owned.1 (by
          have : p.memsz = 0 := by omega
          exact this)
        have same : (phdrSegment p).vend = (phdrSegment p).fileEnd := by
          rw [LoadSegment.vend, LoadSegment.fileEnd]
          exact congrArg (p.vaddr + ·) (Nat.le_antisymm whole within)
        rw [Space.protAt, atop.held v owned (same ▸ owned.2.2), atop.own some_bytes]
        rfl

end Over

end

section

variable {page limit start low base : Nat} {kernel : Kernel page limit} {file : Bytes}
  {p : ProgramHeader} {under first : LoadSegment} {t after : Space} {a v : Nat}

/-- The cell `under` has at an address of memory laid out from `low` on. -/
def shownAt (page start low : Nat) (file : Bytes) (under : LoadSegment) (a : Nat) : Cell :=
  under.fileCell page file (low + (a - start))

theorem shownAt_laidAt (above : low ≤ v) :
    shownAt page start low file under (laidAt start low v) = under.fileCell page file v := by
  rw [shownAt, laidAt, Nat.add_sub_cancel_left, Nat.add_sub_cancel' above]

/-- Outside the pages of the segment nothing changes. -/
theorem mapRest_frame (seated : (phdrSegment p).Seated page limit start low)
    (mapped : mapRest kernel p (laidAt start low (roundDown page p.vaddr)) (p.offset % page) t =
      some after) (outside : a ∉ (phdrSegment p).region page (laidAt start low)) :
    after.cell a = t.cell a := by
  by_cases full : p.filesz < p.memsz
  · have paged := kernel.paged
    have startUp : roundUp page (laidAt start low (phdrSegment p).fileEnd) =
        laidAt start low (roundUp page (phdrSegment p).fileEnd) :=
      seated.roundUp_add paged p.filesz
    have endUp : roundUp page (laidAt start low (phdrSegment p).vend) =
        laidAt start low (roundUp page (phdrSegment p).vend) :=
      seated.roundUp_add paged p.memsz
    have longer : (phdrSegment p).fileEnd < (phdrSegment p).vend := Nat.add_lt_add_left full p.vaddr
    have lowest : laidAt start low (roundDown page p.vaddr) ≤
        laidAt start low (phdrSegment p).fileEnd :=
      (laidAt_le (seated.low_le_add p.filesz)).mpr
        (Nat.le_trans roundDown_le (Nat.le_add_right p.vaddr p.filesz))
    have middle : laidAt start low (phdrSegment p).fileEnd ≤
        roundUp page (laidAt start low (phdrSegment p).fileEnd) := le_roundUp paged
    have highest : roundUp page (laidAt start low (phdrSegment p).fileEnd) ≤
        roundUp page (laidAt start low (phdrSegment p).vend) :=
      roundUp_mono ((laidAt_le (seated.low_le_add p.memsz)).mpr (Nat.le_of_lt longer))
    have away : ¬(laidAt start low (roundDown page p.vaddr) ≤ a ∧
        a < roundUp page (laidAt start low (phdrSegment p).vend)) := fun inside =>
      outside (seated.mem_region (Nat.ne_zero_of_lt full) inside.1 (endUp ▸ inside.2))
    rw [mapRest_cell (laidAt_fileEnd seated) (laidAt_vend seated)
      ((laidAt_lt (seated.low_le_add p.filesz)).mpr longer)
      (seated.vend_room paged (Nat.ne_zero_of_lt full)) mapped, if_neg (by omega),
      if_neg (by omega)]
  · rw [mapRest, if_pos (Nat.le_of_not_lt full)] at mapped
    rw [Option.some.inj mapped]

end

section

variable {page limit start low base : Nat} {kernel : Kernel page limit} {file : Bytes}
  {p : ProgramHeader} {under first : LoadSegment} {t after : Space} {a v : Nat}

/-- The step for a segment's rest settles its pages. -/
theorem mapRest_settles (kernel : Kernel page limit) (file : Bytes) (under : LoadSegment)
    (seated : (phdrSegment p).Seated page limit start low)
    (own : p.filesz ≠ 0 → under = phdrSegment p)
    (below : roundDown page under.vaddr ≤ roundDown page p.vaddr) :
    Settles ((phdrSegment p).region page (laidAt start low)) (shownAt page start low file under)
      ((phdrSegment p).Described page file (laidAt start low))
      ((phdrSegment p).InFile file ∧ (p.memsz ≤ p.filesz ∨ page ∣ (phdrSegment p).fileEnd ∨
        Cleared page file under (phdrSegment p)))
      (mapRest kernel p (laidAt start low (roundDown page p.vaddr)) (p.offset % page)) where
  frame mapped a outside := mapRest_frame seated mapped outside
  settled mapped fresh := by
    refine Over.settled ⟨seated, own, below, fun v owned _ => ?_⟩ mapped
    rw [fresh _ ⟨v, owned, rfl⟩,
      shownAt_laidAt (Nat.le_trans seated.above owned.2.1)]
  locally same described :=
    described.congr kernel.paged seated.within fun v owned => same _ ⟨v, owned, rfl⟩

/-- Where the words of the code point once the image is placed. -/
def Based (limit start low base : Nat) : Prop :=
  ∀ v, low ≤ v → laidAt start low v < limit → (base + v) % limit = laidAt start low v

theorem mapNext_eq (based : Based limit start low base)
    (seated : (phdrSegment p).Seated page limit start low) (paged : 0 < page)
    (some_pages : p.memsz ≠ 0) :
    mapNext kernel file base p t =
      (if p.filesz ≠ 0 then
        kernel.mapFile (laidAt start low (roundDown page p.vaddr)) (p.filesz + p.offset % page)
          (pflags p.flags) file (roundDown page p.offset) t
      else some t).bind
        (mapRest kernel p (laidAt start low (roundDown page p.vaddr)) (p.offset % page)) := by
  have congruent : p.offset % page = p.vaddr % page := seated.congruent
  have split := roundDown_add_mod page p.vaddr
  have room := seated.vend_room paged some_pages
  have above : low ≤ roundDown page p.vaddr := seated.above
  have within : p.filesz ≤ p.memsz := seated.within
  have fits :
      laidAt start low (roundDown page p.vaddr) + p.offset % page + p.memsz + page ≤ limit := by
    rw [laidAt_vend seated]
    exact room
  have start_eq : (base + p.vaddr + limit - p.offset % page) % limit =
      laidAt start low (roundDown page p.vaddr) := by
    have moved : base + p.vaddr + limit - p.offset % page =
        base + roundDown page p.vaddr + limit := by omega
    rw [moved, Nat.add_mod_right, based _ above (by omega)]
  have len_eq : (p.filesz + p.offset % page) % limit = p.filesz + p.offset % page :=
    Nat.mod_eq_of_lt (by omega)
  simp only [mapNext, start_eq, len_eq, sub_mod_eq_roundDown]

/-- A segment without bytes in the file is not mapped, so the page it starts inside of is left as
the first mapping has it. -/
theorem mapNext_of_filesz (based : Based limit start low base)
    (seated : (phdrSegment p).Seated page limit start low) (paged : 0 < page) (empty : p.filesz = 0) :
    mapNext kernel file base p =
      mapRest kernel p (laidAt start low (roundDown page p.vaddr)) (p.offset % page) := by
  funext t
  by_cases full : p.memsz = 0
  · have none : p.memsz ≤ p.filesz := by omega
    simp only [mapNext, mapRest, if_pos none, if_neg (not_not_intro empty), Option.bind_some]
  · rw [mapNext_eq based seated paged full, if_neg (not_not_intro empty), Option.bind_some]

theorem mapNext_of_filesz_ne (based : Based limit start low base)
    (seated : (phdrSegment p).Seated page limit start low) (paged : 0 < page)
    (some_bytes : p.filesz ≠ 0)
    (mapped : mapNext kernel file base p t = some after) :
    mapRest kernel p (laidAt start low (roundDown page p.vaddr)) (p.offset % page)
      (t.mapFile page (laidAt start low (roundDown page p.vaddr)) (p.filesz + p.offset % page)
        (pflags p.flags) file (roundDown page p.offset)) = some after := by
  have within : p.filesz ≤ p.memsz := seated.within
  rw [mapNext_eq based seated paged (by omega), if_pos some_bytes] at mapped
  obtain ⟨between, shown, rest⟩ := Option.bind_eq_some_iff.mp mapped
  rwa [Kernel.mapFile_eq_some shown] at rest

theorem mapNext_settles (kernel : Kernel page limit) (file : Bytes) (first : LoadSegment)
    (based : Based limit start low base) (seated : (phdrSegment p).Seated page limit start low)
    (below : roundDown page first.vaddr ≤ roundDown page p.vaddr) :
    Settles ((phdrSegment p).region page (laidAt start low)) (shownAt page start low file first)
      ((phdrSegment p).Described page file (laidAt start low))
      (Mappable page file first (phdrSegment p)) (mapNext kernel file base p) := by
  have paged := kernel.paged
  have within : p.filesz ≤ p.memsz := seated.within
  by_cases empty : p.filesz = 0
  · have holds : holder first (phdrSegment p) = first := if_pos empty
    rw [mapNext_of_filesz based seated paged empty, Mappable, holds]
    exact mapRest_settles kernel file first seated (absurd empty) below
  · have full : p.memsz ≠ 0 := by omega
    have holds : holder first (phdrSegment p) = phdrSegment p := if_neg empty
    rw [Mappable, holds]
    refine ⟨fun mapped a outside => ?_, fun mapped fresh => ?_, fun same described => ?_⟩
    · rw [mapRest_frame seated (mapNext_of_filesz_ne based seated paged empty mapped) outside]
      exact seated.mapFile_frame paged full outside _
    · have rest := mapNext_of_filesz_ne based seated paged empty mapped
      exact Iff.trans (Over.settled ⟨seated, fun _ => rfl, Nat.le_refl _, fun v owned before =>
        seated.mapFile_shown paged owned before⟩ rest) Iff.rfl
    · exact described.congr paged within fun v owned => same _ ⟨v, owned, rfl⟩

end

section

variable {page limit start low base : Nat} {kernel : Kernel page limit} {file : Bytes}
  {p first : ProgramHeader} {loads : List ProgramHeader} {t after : Space} {m : Mapped}

/-! ### The loop -/

theorem vmax_step (limit : Nat) (loads : List ProgramHeader) (highest : Nat) :
    highest ≤ loads.foldl (fun vmax p => if vmax < p.vend % limit then p.vend % limit else vmax)
      highest ∧ ∀ p ∈ loads, p.vend % limit ≤
        loads.foldl (fun vmax p => if vmax < p.vend % limit then p.vend % limit else vmax)
          highest := by
  induction loads generalizing highest with
  | nil => exact ⟨Nat.le_refl _, fun p found => absurd found List.not_mem_nil⟩
  | cons p loads ih =>
      obtain ⟨low, high⟩ := ih (if highest < p.vend % limit then p.vend % limit else highest)
      rw [List.foldl_cons]
      have here : highest ≤ (if highest < p.vend % limit then p.vend % limit else highest) ∧
          p.vend % limit ≤ (if highest < p.vend % limit then p.vend % limit else highest) := by
        split <;> omega
      refine ⟨Nat.le_trans here.1 low, fun q found => ?_⟩
      obtain rfl | later := List.mem_cons.mp found
      · exact Nat.le_trans here.2 low
      · exact high q later

theorem le_vmax (found : p ∈ loads) (inside : p.vend < limit) : p.vend ≤ vmax limit loads := by
  have bound := (vmax_step limit loads 0).2 p found
  rwa [Nat.mod_eq_of_lt inside] at bound

theorem vmax_lt (positive : 0 < limit) (loads : List ProgramHeader) : vmax limit loads < limit := by
  have every : ∀ highest < limit, loads.foldl
      (fun vmax p => if vmax < p.vend % limit then p.vend % limit else vmax) highest < limit := by
    induction loads with
    | nil => exact fun highest below => below
    | cons p loads ih =>
        intro highest below
        rw [List.foldl_cons]
        refine ih _ ?_
        split
        · exact Nat.mod_lt _ positive
        · exact below
  exact every 0 positive

/-- Once the base is fixed the loop only maps. -/
theorem foldlM_fixed (loads : List ProgramHeader) (t : Space) (vmax : Nat) :
    loads.foldlM (mapSegment kernel file vmax) ⟨base, true, t⟩ =
      (loads.foldlM (fun t p => mapNext kernel file base p t) t).map fun t => ⟨base, true, t⟩ := by
  induction loads generalizing t with
  | nil => rfl
  | cons p loads ih =>
      rw [List.foldlM_cons, List.foldlM_cons, mapSegment, if_pos rfl]
      cases mapNext kernel file base p t with
      | none => rfl
      | some t => exact ih t

theorem based_of_start (lowFits : low < limit) :
    Based limit start low ((0 + limit - low + start) % limit) := by
  intro v above fits
  have moved : 0 + limit - low + start + v = laidAt start low v + limit := by
    rw [laidAt]
    omega
  rw [Nat.mod_add_mod, moved, Nat.add_mod_right, Nat.mod_eq_of_lt fits]

/-- What a run over a first segment and the rest has done. -/
theorem mapSegment_first {vmax : Nat} (above : first.vend ≤ vmax) (below : vmax < limit)
    (congruent : first.offset % page = first.vaddr % page)
    (mapped : (first :: loads).foldlM (mapSegment kernel file vmax) ⟨0, false, t⟩ = some m) :
    ∃ start, kernel.reserve (vmax - roundDown page first.vaddr) = some start ∧
      m.base = (0 + limit - roundDown page first.vaddr + start) % limit ∧
      (mapRest kernel first start (first.offset % page)
        (t.mapFile page start (vmax - roundDown page first.vaddr) (pflags first.flags) file
          (roundDown page first.offset))).bind
        (fun t => loads.foldlM (fun t p => mapNext kernel file m.base p t) t) = some m.space := by
  have split := roundDown_add_mod page first.vaddr
  have vend : first.vend = first.vaddr + first.memsz := rfl
  have va : (0 + first.vaddr + limit - first.offset % page) % limit =
      roundDown page first.vaddr := by
    have moved : 0 + first.vaddr + limit - first.offset % page =
        roundDown page first.vaddr + limit := by omega
    rw [moved, Nat.add_mod_right, Nat.mod_eq_of_lt (by omega)]
  have len : (vmax + limit - roundDown page first.vaddr) % limit =
      vmax - roundDown page first.vaddr := by
    have moved : vmax + limit - roundDown page first.vaddr =
        vmax - roundDown page first.vaddr + limit := by omega
    rw [moved, Nat.add_mod_right, Nat.mod_eq_of_lt (by omega)]
  rw [List.foldlM_cons, mapSegment, if_neg Bool.false_ne_true] at mapped
  simp only [va, len, sub_mod_eq_roundDown] at mapped
  cases reserved : kernel.reserve (vmax - roundDown page first.vaddr) with
  | none =>
      rw [reserved] at mapped
      cases mapped
  | some start =>
      simp only [reserved] at mapped
      obtain ⟨between, began, rest⟩ := Option.bind_eq_some_iff.mp mapped
      obtain ⟨t, laid, rfl⟩ := Option.map_eq_some_iff.mp began
      rw [foldlM_fixed] at rest
      obtain ⟨final, done, rfl⟩ := Option.map_eq_some_iff.mp rest
      exact ⟨start, rfl, rfl, by rw [laid, Option.bind_some, done]⟩

end

section

variable {page limit start : Nat} {kernel : Kernel page limit} {file : Bytes}
  {p first : ProgramHeader} {loads : List ProgramHeader} {t : Space} {m : Mapped}
  {memory : Nat → Option Cell}

theorem seated_of_layout (laid : Layout page limit ((first :: loads).map phdrSegment))
    (placed :
      kernel.reserve (vmax limit (first :: loads) - roundDown page first.vaddr) = some start)
    (found : p ∈ first :: loads) :
    (phdrSegment p).Seated page limit start (roundDown page first.vaddr) := by
  have paged := kernel.paged
  obtain ⟨-, aligned, room⟩ := kernel.placed placed
  have mem : phdrSegment p ∈ (first :: loads).map phdrSegment := List.mem_map_of_mem found
  have ascending : first.vaddr ≤ p.vaddr := by
    obtain rfl | later := List.mem_cons.mp found
    · exact Nat.le_refl _
    · exact (List.pairwise_cons.mp laid.ascending).1 _ (List.mem_map_of_mem later)
  have last : p.vend ≤ vmax limit (first :: loads) := le_vmax found (laid.inside _ mem)
  refine ⟨aligned, dvd_roundDown, roundDown_mono ascending, fun _ => ?_, laid.congruent _ mem,
    laid.within _ mem⟩
  have low : roundDown page first.vaddr ≤ vmax limit (first :: loads) :=
    Nat.le_trans roundDown_le (Nat.le_trans ascending (Nat.le_trans (Nat.le_add_right _ _) last))
  have top : roundUp page (vmax limit (first :: loads)) = roundDown page first.vaddr +
      roundUp page (vmax limit (first :: loads) - roundDown page first.vaddr) := by
    rw [← roundUp_add paged dvd_roundDown, Nat.add_sub_cancel' low]
  have ends : roundUp page (phdrSegment p).vend ≤ roundUp page (vmax limit (first :: loads)) :=
    roundUp_mono last
  rw [laidAt]
  omega

/-- The mapping of the whole span shows the first segment's file position everywhere. -/
theorem span_shown (laid : Layout page limit ((first :: loads).map phdrSegment))
    (placed :
      kernel.reserve (vmax limit (first :: loads) - roundDown page first.vaddr) = some start)
    (found : p ∈ first :: loads) {a : Nat}
    (inside : a ∈ (phdrSegment p).region page (laidAt start (roundDown page first.vaddr))) :
    (t.mapFile page start (vmax limit (first :: loads) - roundDown page first.vaddr)
      (pflags first.flags) file (roundDown page first.offset)).cell a =
        some (shownAt page start (roundDown page first.vaddr) file (phdrSegment first) a) := by
  have paged := kernel.paged
  obtain ⟨v, owned, rfl⟩ := inside
  have seated := seated_of_layout laid placed found
  have reached : roundDown page first.vaddr ≤ v := Nat.le_trans seated.above owned.2.1
  have mem : phdrSegment p ∈ (first :: loads).map phdrSegment := List.mem_map_of_mem found
  have last : p.vend ≤ vmax limit (first :: loads) := le_vmax found (laid.inside _ mem)
  have low : roundDown page first.vaddr ≤ vmax limit (first :: loads) :=
    Nat.le_trans (Nat.le_trans (seated.low_le_add p.memsz) (Nat.le_refl p.vend)) last
  have top : roundUp page (vmax limit (first :: loads)) = roundDown page first.vaddr +
      roundUp page (vmax limit (first :: loads) - roundDown page first.vaddr) := by
    rw [← roundUp_add paged dvd_roundDown, Nat.add_sub_cancel' low]
  have before : v < roundUp page (vmax limit (first :: loads)) :=
    Nat.lt_of_lt_of_le owned.2.2 (roundUp_mono last)
  have covered : Space.Covers page start (vmax limit (first :: loads) - roundDown page first.vaddr)
      (laidAt start (roundDown page first.vaddr) v) := by
    rw [Space.covers_iff, laidAt]
    omega
  rw [Space.mapFile_covered covered, shownAt_laidAt reached, LoadSegment.fileCell, laidAt,
    Nat.add_sub_cancel_left]
  rfl

/-- The segments of a layout stand apart in memory. -/
theorem regions_apart (laid : Layout page limit ((first :: loads).map phdrSegment))
    (placed :
      kernel.reserve (vmax limit (first :: loads) - roundDown page first.vaddr) = some start) :
    (first :: loads).Pairwise fun p q =>
      Disjoint ((phdrSegment p).region page (laidAt start (roundDown page first.vaddr)))
        ((phdrSegment q).region page (laidAt start (roundDown page first.vaddr))) := by
  refine (List.pairwise_map.mp laid.apart).imp_of_mem fun {p q} here there apart => ?_
  exact LoadSegment.disjoint_region (seated_of_layout laid placed here).above
    (seated_of_layout laid placed there).above apart

/-- The run over the segments, the first of which is mapped over the whole span, settles them. -/
theorem mapSegments_settle (file : Bytes)
    (laid : Layout page limit ((first :: loads).map phdrSegment))
    (placed :
      kernel.reserve (vmax limit (first :: loads) - roundDown page first.vaddr) = some start)
    {base : Nat} (based : Based limit start (roundDown page first.vaddr) base) :
    Settles
      ((phdrSegment first).region page (laidAt start (roundDown page first.vaddr)) ∪
        {a | ∃ p ∈ loads,
          a ∈ (phdrSegment p).region page (laidAt start (roundDown page first.vaddr))})
      (shownAt page start (roundDown page first.vaddr) file (phdrSegment first))
      (fun t =>
        (phdrSegment first).Described page file (laidAt start (roundDown page first.vaddr)) t ∧
          ∀ p ∈ loads,
            (phdrSegment p).Described page file (laidAt start (roundDown page first.vaddr)) t)
      (Mappable page file (phdrSegment first) (phdrSegment first) ∧
        ∀ p ∈ loads, Mappable page file (phdrSegment first) (phdrSegment p))
      (fun t => (mapRest kernel first start (first.offset % page) t).bind
        fun t => loads.foldlM (fun t p => mapNext kernel file base p t) t) := by
  have seated : ∀ p ∈ first :: loads, _ := fun p found => seated_of_layout laid placed found
  have apart := List.pairwise_cons.mp (regions_apart laid placed)
  have begins : laidAt start (roundDown page first.vaddr) (roundDown page first.vaddr) = start := by
    rw [laidAt, Nat.sub_self, Nat.add_zero]
  have one := mapRest_settles kernel file (phdrSegment first)
    (seated first List.mem_cons_self) (fun _ => rfl) (Nat.le_refl _)
  rw [begins] at one
  have own : holder (phdrSegment first) (phdrSegment first) = phdrSegment first := ite_self _
  have many := Settles.each loads (fun p found => mapNext_settles kernel file (phdrSegment first)
    based (seated p (List.mem_cons_of_mem first found))
      (seated p (List.mem_cons_of_mem first found)).above) apart.2
  rw [Mappable, own]
  refine one.andThen many (Set.disjoint_left.mpr ?_)
  rintro a mine ⟨p, found, yours⟩
  exact Set.disjoint_left.mp (apart.1 p found) mine yours

/-- The loop maps what the headers say exactly when every segment can be. -/
theorem mapSegments_iff (laid : Layout page limit (loads.map phdrSegment))
    (mapped : loads.foldlM (mapSegment kernel file (vmax limit loads)) ⟨0, false, ⟨memory, true⟩⟩ =
      some m) :
    LoadSegment.Describes page file (fun v => (m.base + v) % limit) (loads.map phdrSegment) m.space ↔
      ∀ first ∈ (loads.map phdrSegment).head?, ∀ s ∈ loads.map phdrSegment,
        Mappable page file first s := by
  cases loads with
  | nil =>
      obtain rfl := Option.some.inj mapped
      simp [LoadSegment.Describes]
  | cons first loads =>
      have paged := kernel.paged
      have head : phdrSegment first ∈ (first :: loads).map phdrSegment := List.mem_cons_self
      have inside : first.vend < limit := laid.inside _ head
      have lowFits : roundDown page first.vaddr < limit :=
        Nat.lt_of_le_of_lt (Nat.le_trans roundDown_le (Nat.le_add_right _ _)) inside
      obtain ⟨start, placed, base, run⟩ := mapSegment_first
        (le_vmax List.mem_cons_self inside) (vmax_lt (by omega) _) (laid.congruent _ head) mapped
      have based : Based limit start (roundDown page first.vaddr) m.base :=
        base ▸ based_of_start lowFits
      have seated : ∀ p ∈ first :: loads, _ := fun p found => seated_of_layout laid placed found
      -- the base the loop returns puts every segment where it was laid
      have same : ∀ p ∈ first :: loads,
          ((phdrSegment p).Described page file (fun v => (m.base + v) % limit) m.space ↔
            (phdrSegment p).Described page file (laidAt start (roundDown page first.vaddr))
              m.space) := by
        intro p found
        have fits : ∀ v, (phdrSegment p).Owns page v →
            (m.base + v) % limit = laidAt start (roundDown page first.vaddr) v := by
          intro v owned
          have room := (seated p found).room owned.1
          have reached : roundDown page first.vaddr ≤ v :=
            Nat.le_trans (seated p found).above owned.2.1
          have before : laidAt start (roundDown page first.vaddr) v <
              laidAt start (roundDown page first.vaddr) (roundUp page (phdrSegment p).vend) :=
            (laidAt_lt reached).mpr owned.2.2
          exact based v reached (by omega)
        constructor
        · exact LoadSegment.Described.congr paged (seated p found).within fun v owned => by
            rw [fits v owned]
        · exact LoadSegment.Described.congr paged (seated p found).within fun v owned => by
            rw [fits v owned]
      have settled := (mapSegments_settle file laid placed based).settled run
        fun a found => by
          obtain mine | ⟨p, later, yours⟩ := found
          · exact span_shown laid placed List.mem_cons_self mine
          · exact span_shown laid placed (List.mem_cons_of_mem first later) yours
      simp only [Space.mapFile_clean, true_and] at settled
      rw [LoadSegment.Describes, List.forall_mem_map, forall₂_congr same, List.forall_mem_cons]
      simpa using settled

/-- The loadable segments among the program headers. -/
def segmentsOf (headers : List ProgramHeader) : List LoadSegment :=
  (headers.filter ProgramHeader.isLoad).map phdrSegment

theorem mapInterp_iff {width : Width} {kernel : Kernel page (wordLimit width)} {ehdr : Bytes}
    {headers : List ProgramHeader} (read : interpHeaders width file ehdr = some headers)
    (laid : Layout page (wordLimit width) (segmentsOf headers))
    (mapped : mapInterp kernel file ehdr memory = some m) :
    LoadSegment.Describes page file (fun v => (m.base + v) % wordLimit width) (segmentsOf headers)
        m.space ↔
      ∀ first ∈ (segmentsOf headers).head?, ∀ s ∈ segmentsOf headers,
        Mappable page file first s := by
  simp only [mapInterp, read] at mapped
  exact mapSegments_iff laid mapped

end

end Onelf.Payloads.Interp
