import Onelf.Cli.Bundle.Injected
import Onelf.Payloads.MapInterp
import Onelf.Runtime.Ulexec.Stack

/-! The loader as the userland exec maps it (`ulexec.rs`), beside the bootstrap's two mappers. -/

namespace Onelf.Runtime.Ulexec

open Onelf.Lib Onelf.Cli.Bundle Onelf.Payloads.Interp

/-! ### Loading -/

def readWrite : Prot := ⟨true, true, false⟩

/-- `prot | ProtFlags::WRITE`. -/
def Prot.orWrite (prot : Prot) : Prot := { prot with write := true }

def protOf (flags : Nat) : Prot :=
  { read := flags &&& 0b100 != 0
    write := flags &&& 0b010 != 0
    exec := flags &&& 0b001 != 0 }

section

variable {page limit : Nat}

/-- A segment mapped over the reservation. What `mprotect` answers is not looked at. -/
def loadSegment (kernel : Kernel page limit) (file : Bytes) (base : Nat) (t : Space)
    (ph : ProgramHeader) : Option Space :=
  let filesz := ph.filesz % limit
  if filesz = 0 then some t
  else
    let prot := protOf ph.flags
    let unaligned := (base + ph.vaddr % limit) % limit
    let addr := roundDown page unaligned
    let align := unaligned - addr
    let fileEnd := (addr + align + filesz) % limit
    let tail := (roundDown page ((fileEnd + page - 1) % limit) + limit - fileEnd) % limit
    let kept := roundDown page ((align + filesz + page - 1) % limit)
    (kernel.mapFile addr ((filesz + align) % limit) (Prot.orWrite prot) file
      ((ph.offset % limit + limit - align) % limit) t).map fun t =>
        let t := t.zero fileEnd tail
        if prot.write = false ∧ kernel.protects addr kept = true then t.protect page addr kept prot
        else t

/-- The sum is one of `u64`s. -/
def total (limit : Nat) (loads : List ProgramHeader) : Nat :=
  (loads.map fun h => h.vend % 2 ^ 64 % limit).max?.getD 0

end

structure Loading (width : Width) where
  base : Nat
  space : Space
  loaded : Loaded width.addr

instance (width : Width) : NeZero (256 ^ width.addr) :=
  ⟨Nat.ne_of_gt (Nat.pow_pos (by decide))⟩

/-- `load` of a file that reads as `bytes`, which `parse` reads as an ELF file; none where it
panics. Memory holds what was read. -/
def load {page : Nat} {width : Width} (kernel : Kernel page (wordLimit width))
    (parse : Bytes → Option Elf) (bytes : Bytes) (memory : Nat → Option Cell) :
    Option (Loading width) :=
  let limit := wordLimit width
  if limit ≤ bytes.length then none
  else
    match parse bytes with
    | none => none
    | some elf =>
        let loads := elf.programHeaders.filter ProgramHeader.isLoad
        match loads.head? with
        | none => none
        | some first =>
            if first.vaddr ≠ 0 then none
            else
              let len := roundDown page ((total limit loads + page - 1) % limit)
              match kernel.reserve len with
              | none => none
              | some base =>
                  let space := Space.mapAnonymous page base len readWrite ⟨memory, true⟩
                  (loads.foldlM (loadSegment kernel bytes base) space).map fun space =>
                    { base
                      space
                      loaded :=
                        { entry := Fin.ofNat _ (base + elf.entry)
                          phoff := Fin.ofNat _ (base + elf.phoff)
                          phnum := Fin.ofNat _ elf.programHeaders.length
                          phent := Fin.ofNat _ elf.phentsize } }

/-! ### When a segment comes out right -/

/-- Pages past the bytes of `s` are those of the reservation, and a protection without writing is
one the kernel grants once the tail is cleared. -/
def Loadable {page limit : Nat} (kernel : Kernel page limit) (file : Bytes) (base : Nat)
    (s : LoadSegment) : Prop :=
  s.InFile file ∧
    (s.memsz = 0 ∨ s.prot = readWrite ∨
      s.filesz ≠ 0 ∧ roundUp page s.vend ≤ roundUp page s.fileEnd) ∧
    (s.filesz = 0 ∨ s.prot.write = true ∨
      kernel.protects (base + roundDown page s.vaddr) (roundUp page (s.vaddr % page + s.filesz)) =
        true)

section

variable {page limit base : Nat} {kernel : Kernel page limit} {file : Bytes} {p : ProgramHeader}
  {t after : Space} {a v : Nat}

/-- What a segment's pages allow once it is loaded. -/
def keptProt (kernel : Kernel page limit) (base : Nat) (s : LoadSegment) : Prot :=
  if s.prot.write = false ∧
      kernel.protects (base + roundDown page s.vaddr)
        (roundUp page (s.vaddr % page + s.filesz)) = true then s.prot
  else Prot.orWrite s.prot

theorem keptProt_eq_iff {s : LoadSegment} :
    keptProt kernel base s = s.prot ↔ s.prot.write = true ∨
      kernel.protects (base + roundDown page s.vaddr)
        (roundUp page (s.vaddr % page + s.filesz)) = true := by
  rw [keptProt]
  cases writable : s.prot.write with
  | true =>
      have same : Prot.orWrite s.prot = s.prot := by
        rw [Prot.orWrite, ← writable]
      simp [same]
  | false =>
      have other : Prot.orWrite s.prot ≠ s.prot := fun same => by
        rw [← same] at writable
        cases writable
      by_cases granted : kernel.protects (base + roundDown page s.vaddr)
          (roundUp page (s.vaddr % page + s.filesz)) = true <;> simp [granted, other]

/-- The segment over the reservation: mapped with the write bit, cleared past its bytes, and
protected again. -/
def overlaid (kernel : Kernel page limit) (file : Bytes) (base off : Nat) (s : LoadSegment)
    (t : Space) : Space :=
  let addr := laidAt base 0 (roundDown page s.vaddr)
  let fileEnd := laidAt base 0 s.fileEnd
  let t := (t.mapFile page addr (s.filesz + s.vaddr % page) (Prot.orWrite s.prot) file off).zero
    fileEnd (roundUp page fileEnd - fileEnd)
  if s.prot.write = false ∧
      kernel.protects (base + roundDown page s.vaddr)
        (roundUp page (s.vaddr % page + s.filesz)) = true then
    t.protect page addr (roundUp page (s.vaddr % page + s.filesz)) s.prot
  else t

theorem covers_roundUp (paged : 0 < page) (start len a : Nat) :
    Space.Covers page start (roundUp page len) a ↔ Space.Covers page start len a := by
  rw [Space.covers_iff, Space.covers_iff, roundUp_of_dvd paged dvd_roundUp]

theorem loadSegment_eq_some (seated : (phdrSegment p).Seated page limit base 0)
    (some_bytes : p.filesz ≠ 0) (loaded : loadSegment kernel file base t p = some after) :
    ∃ off, (p.offset < limit → off = roundDown page p.offset) ∧
      after = overlaid kernel file base off (phdrSegment p) t := by
  have paged := kernel.paged
  have within : p.filesz ≤ p.memsz := seated.within
  have congruent : p.offset % page = p.vaddr % page := seated.congruent
  have split := roundDown_add_mod page p.vaddr
  have room : base + (p.vaddr + p.memsz) + page ≤ limit := seated.vend_room paged (by
    show p.memsz ≠ 0
    omega)
  have fileszFits : p.filesz % limit = p.filesz := Nat.mod_eq_of_lt (by omega)
  have unaligned : (base + p.vaddr % limit) % limit = base + p.vaddr := by
    rw [Nat.mod_eq_of_lt (show p.vaddr < limit by omega), Nat.mod_eq_of_lt (by omega)]
  have addr : roundDown page (base + p.vaddr) = base + roundDown page p.vaddr :=
    roundDown_add paged seated.aligned
  have align : base + p.vaddr - (base + roundDown page p.vaddr) = p.vaddr % page := by omega
  have ends : (base + roundDown page p.vaddr + p.vaddr % page + p.filesz) % limit =
      base + (p.vaddr + p.filesz) := by
    rw [Nat.mod_eq_of_lt (by omega)]
    omega
  have above : base + (p.vaddr + p.filesz) ≤ roundUp page (base + (p.vaddr + p.filesz)) :=
    le_roundUp paged
  have short : roundUp page (base + (p.vaddr + p.filesz)) < base + (p.vaddr + p.filesz) + page :=
    roundUp_lt paged
  have tail : (roundDown page ((base + (p.vaddr + p.filesz) + page - 1) % limit) + limit -
      (base + (p.vaddr + p.filesz))) % limit =
        roundUp page (base + (p.vaddr + p.filesz)) - (base + (p.vaddr + p.filesz)) := by
    rw [Nat.mod_eq_of_lt (show base + (p.vaddr + p.filesz) + page - 1 < limit by omega), ← roundUp,
      Nat.sub_add_comm above, Nat.add_mod_right, Nat.mod_eq_of_lt (by omega)]
  have kept : roundDown page ((p.vaddr % page + p.filesz + page - 1) % limit) =
      roundUp page (p.vaddr % page + p.filesz) := by
    rw [Nat.mod_eq_of_lt (by omega), roundUp]
  have len : (p.filesz + p.vaddr % page) % limit = p.filesz + p.vaddr % page :=
    Nat.mod_eq_of_lt (by omega)
  refine ⟨(p.offset % limit + limit - p.vaddr % page) % limit, fun small => ?_, ?_⟩
  · have start := roundDown_add_mod page p.offset
    have moved : p.offset + limit - p.vaddr % page = roundDown page p.offset + limit := by omega
    rw [Nat.mod_eq_of_lt small, moved, Nat.add_mod_right, Nat.mod_eq_of_lt (by omega)]
  · simp only [loadSegment, fileszFits, if_neg some_bytes, unaligned, addr, align, ends, tail, kept,
      len] at loaded
    obtain ⟨between, mapped, rfl⟩ := Option.map_eq_some_iff.mp loaded
    rw [Kernel.mapFile_eq_some mapped]
    rfl

/-! ### One segment -/

variable {off : Nat} {s : LoadSegment}

theorem overlaid_prot_start (seated : s.Seated page limit base 0) (paged : 0 < page) :
    Space.Covers page (laidAt base 0 (roundDown page s.vaddr))
      (roundUp page (s.vaddr % page + s.filesz)) a ↔
        laidAt base 0 (roundDown page s.vaddr) ≤ a ∧
          a < laidAt base 0 (roundUp page s.fileEnd) := by
  rw [covers_roundUp paged, Nat.add_comm (s.vaddr % page), ← seated.congruent,
    seated.covers_iff paged]

/-- Outside the pages of the segment nothing changes. -/
theorem overlaid_frame (seated : s.Seated page limit base 0) (some_bytes : s.filesz ≠ 0)
    (outside : a ∉ s.region page (laidAt base 0)) :
    (overlaid kernel file base off s t).cell a = t.cell a := by
  have paged := kernel.paged
  have within := seated.within
  have full : s.memsz ≠ 0 := by omega
  have up : roundUp page (laidAt base 0 s.fileEnd) = laidAt base 0 (roundUp page s.fileEnd) :=
    seated.roundUp_add paged s.filesz
  have last : laidAt base 0 (roundUp page s.fileEnd) ≤ laidAt base 0 (roundUp page s.vend) :=
    (laidAt_le (Nat.zero_le _)).mpr (LoadSegment.roundUp_fileEnd_le within)
  have first : laidAt base 0 (roundDown page s.vaddr) ≤ laidAt base 0 s.fileEnd :=
    (laidAt_le (Nat.zero_le _)).mpr (Nat.le_trans roundDown_le (Nat.le_add_right _ _))
  have above : laidAt base 0 s.fileEnd ≤ roundUp page (laidAt base 0 s.fileEnd) := le_roundUp paged
  have away : ¬(laidAt base 0 (roundDown page s.vaddr) ≤ a ∧
      a < laidAt base 0 (roundUp page s.fileEnd)) := fun inside =>
    outside (seated.mem_region full inside.1 (Nat.lt_of_lt_of_le inside.2 last))
  have cleared : ((t.mapFile page (laidAt base 0 (roundDown page s.vaddr))
      (s.filesz + s.vaddr % page) (Prot.orWrite s.prot) file off).zero (laidAt base 0 s.fileEnd)
        (roundUp page (laidAt base 0 s.fileEnd) - laidAt base 0 s.fileEnd)).cell a = t.cell a := by
    rw [Space.zero_cell, if_neg (by omega), ← seated.congruent,
      seated.mapFile_frame paged full outside]
  rw [overlaid]
  split
  · rw [Space.protect_apart fun covered => away ((overlaid_prot_start seated paged).mp covered),
      cleared]
  · exact cleared

/-- What the pages of the segment hold: its bytes and zeros where it was mapped, and what was there
beyond. -/
theorem overlaid_cell (seated : s.Seated page limit base 0) (paged : 0 < page)
    (owned : s.Owns page v) (aligned : off = roundDown page s.offset) :
    (overlaid kernel file base off s t).cell (laidAt base 0 v) =
      if v < roundUp page s.fileEnd then
        some ⟨keptProt kernel base s,
          (fileByte page file (s.filePos page v)).map fun byte => if s.fileEnd ≤ v then 0 else byte⟩
      else t.cell (laidAt base 0 v) := by
  subst aligned
  have up : roundUp page (laidAt base 0 s.fileEnd) = laidAt base 0 (roundUp page s.fileEnd) :=
    seated.roundUp_add paged s.filesz
  have above : laidAt base 0 s.fileEnd ≤ roundUp page (laidAt base 0 s.fileEnd) := le_roundUp paged
  have reached : laidAt base 0 (roundDown page s.vaddr) ≤ laidAt base 0 v :=
    (laidAt_le (Nat.zero_le v)).mpr owned.2.1
  have covered : Space.Covers page (laidAt base 0 (roundDown page s.vaddr))
      (roundUp page (s.vaddr % page + s.filesz)) (laidAt base 0 v) ↔
        v < roundUp page s.fileEnd := by
    rw [overlaid_prot_start seated paged, laidAt_lt (Nat.zero_le v)]
    exact and_iff_right reached
  have cleared : ((t.mapFile page (laidAt base 0 (roundDown page s.vaddr))
      (s.filesz + s.vaddr % page) (Prot.orWrite s.prot) file (roundDown page s.offset)).zero
        (laidAt base 0 s.fileEnd)
          (roundUp page (laidAt base 0 s.fileEnd) - laidAt base 0 s.fileEnd)).cell
            (laidAt base 0 v) =
      if v < roundUp page s.fileEnd then
        some ⟨Prot.orWrite s.prot,
          (fileByte page file (s.filePos page v)).map fun byte => if s.fileEnd ≤ v then 0 else byte⟩
      else t.cell (laidAt base 0 v) := by
    rw [Space.zero_cell, Nat.add_sub_cancel' above, up, ← seated.congruent]
    simp only [laidAt_le (Nat.zero_le v), laidAt_lt (Nat.zero_le v)]
    by_cases before : v < roundUp page s.fileEnd
    · have shown : (t.mapFile page (laidAt base 0 (roundDown page s.vaddr))
          (s.filesz + s.offset % page) (Prot.orWrite s.prot) file
            (roundDown page s.offset)).cell (laidAt base 0 v) = _ :=
        seated.mapFile_shown paged owned before
      simp only [if_pos before, Space.storable_of_cell shown, shown]
      cases found : fileByte page file (s.filePos page v) with
      | none => simp
      | some byte => by_cases past : s.fileEnd ≤ v <;> simp [past, before, Prot.orWrite]
    · rw [if_neg before, if_neg (fun stored => before stored.1.2)]
      exact Space.mapFile_apart fun inside =>
        before ((laidAt_lt (Nat.zero_le v)).mp ((seated.covers_iff paged).mp inside).2)
  rw [overlaid, keptProt]
  split
  · by_cases before : v < roundUp page s.fileEnd
    · rw [Space.protect_covered (covered.mpr before), cleared, if_pos before, if_pos before]
      rfl
    · rw [Space.protect_apart fun inside => before (covered.mp inside), cleared, if_neg before,
        if_neg before]
  · exact cleared

theorem overlaid_stores : (overlaid kernel file base off s t).clean =
    ((t.mapFile page (laidAt base 0 (roundDown page s.vaddr)) (s.filesz + s.vaddr % page)
      (Prot.orWrite s.prot) file off).zero (laidAt base 0 s.fileEnd)
        (roundUp page (laidAt base 0 s.fileEnd) - laidAt base 0 s.fileEnd)).clean := by
  rw [overlaid]
  split <;> rfl

theorem clean_of_overlaid (clean : (overlaid kernel file base off s t).clean = true) :
    t.clean = true := by
  rw [overlaid_stores, Space.zero_clean, Space.mapFile_clean] at clean
  exact clean.1

/-- The page the bytes of the file end in has some of them, so it can be stored to. -/
theorem overlaid_clean (seated : s.Seated page limit base 0) (paged : 0 < page)
    (some_bytes : s.filesz ≠ 0) (inFile : s.InFile file) (aligned : off = roundDown page s.offset)
    (clean : t.clean = true) : (overlaid kernel file base off s t).clean = true := by
  subst aligned
  have within := seated.within
  have up : roundUp page (laidAt base 0 s.fileEnd) = laidAt base 0 (roundUp page s.fileEnd) :=
    seated.roundUp_add paged s.filesz
  have above : laidAt base 0 s.fileEnd ≤ roundUp page (laidAt base 0 s.fileEnd) := le_roundUp paged
  rw [overlaid_stores, Space.zero_clean, Nat.add_sub_cancel' above, up, Space.mapFile_clean]
  refine ⟨clean, fun a past before => ?_⟩
  obtain ⟨v, rfl⟩ : ∃ v, a = laidAt base 0 v := ⟨a - base, by
    simp only [laidAt] at past ⊢
    omega⟩
  have past := (laidAt_le (Nat.zero_le v)).mp past
  have before := (laidAt_lt (Nat.zero_le v)).mp before
  have owned : s.Owns page v :=
    ⟨by omega, Nat.le_trans (Nat.le_trans roundDown_le (Nat.le_add_right _ _)) past,
      Nat.lt_of_lt_of_le before (LoadSegment.roundUp_fileEnd_le within)⟩
  have backed := LoadSegment.filePos_backed paged seated.congruent some_bytes inFile past before
  have shown : (t.mapFile page (laidAt base 0 (roundDown page s.vaddr))
      (s.filesz + s.offset % page) (Prot.orWrite s.prot) file
        (roundDown page s.offset)).cell (laidAt base 0 v) = _ :=
    seated.mapFile_shown paged owned before
  rw [← seated.congruent, Space.storable_of_cell shown, fileByte, if_pos backed]
  exact ⟨rfl, rfl⟩

end


section

variable {page limit base off : Nat} {kernel : Kernel page limit} {file : Bytes}
  {p : ProgramHeader} {s : LoadSegment} {t after : Space}

/-- A segment without bytes in the file is left on the reservation. -/
theorem described_reserved (paged : 0 < page) (empty : s.filesz = 0)
    (fresh : ∀ v, s.Owns page v → t.cell (laidAt base 0 v) = some ⟨readWrite, some 0⟩) :
    s.Described page file (laidAt base 0) t ↔ Loadable kernel file base s := by
  constructor
  · intro described
    refine ⟨.inl empty, ?_, .inl empty⟩
    by_cases none : s.memsz = 0
    · exact .inl none
    · have owned : s.Owns page (s.vaddr + 0) := LoadSegment.owns_add paged (Nat.pos_of_ne_zero none)
      have guarded := described.guarded _ owned
      rw [Space.protAt, fresh _ owned] at guarded
      exact .inr (.inl (Option.some.inj guarded).symm)
  · rintro ⟨-, sound, -⟩
    refine ⟨fun i inside => by omega, fun i _ inside => ?_, fun v owned => ?_⟩
    · rw [Space.byteAt, fresh _ (LoadSegment.owns_add paged inside)]
      rfl
    · obtain none | same | ⟨some_bytes, -⟩ := sound
      · exact absurd none owned.1
      · rw [Space.protAt, fresh v owned, same]
        rfl
      · exact absurd empty some_bytes

/-- One with bytes comes out when the pages past them and the protection do. -/
theorem described_overlaid (seated : s.Seated page limit base 0) (paged : 0 < page)
    (some_bytes : s.filesz ≠ 0) (inFile : s.InFile file) (aligned : off = roundDown page s.offset)
    (fresh : ∀ v, s.Owns page v → t.cell (laidAt base 0 v) = some ⟨readWrite, some 0⟩) :
    s.Described page file (laidAt base 0) (overlaid kernel file base off s t) ↔
      Loadable kernel file base s := by
  have within := seated.within
  have full : s.memsz ≠ 0 := by omega
  constructor
  · intro described
    refine ⟨inFile, .inr ?_, .inr ?_⟩
    · by_cases beyond : roundUp page s.vend ≤ roundUp page s.fileEnd
      · exact .inr ⟨some_bytes, beyond⟩
      · have start : roundDown page s.vaddr ≤ roundUp page s.fileEnd :=
          Nat.le_trans roundDown_le (Nat.le_trans (Nat.le_add_right _ _) (le_roundUp paged))
        have owned : s.Owns page (roundUp page s.fileEnd) := ⟨full, start, Nat.lt_of_not_le beyond⟩
        have guarded := described.guarded _ owned
        rw [Space.protAt, overlaid_cell seated paged owned aligned, if_neg (Nat.lt_irrefl _),
          fresh _ owned] at guarded
        exact .inl (Option.some.inj guarded).symm
    · have owned : s.Owns page (s.vaddr + 0) := LoadSegment.owns_add paged (Nat.pos_of_ne_zero full)
      have before : s.vaddr + 0 < roundUp page s.fileEnd :=
        Nat.lt_of_lt_of_le (Nat.add_lt_add_left (Nat.pos_of_ne_zero some_bytes) s.vaddr)
          (le_roundUp paged)
      have guarded := described.guarded _ owned
      rw [Space.protAt, overlaid_cell seated paged owned aligned, if_pos before] at guarded
      exact keptProt_eq_iff.mp (Option.some.inj guarded)
  · rintro ⟨-, sound, granted⟩
    have kept : keptProt kernel base s = s.prot :=
      keptProt_eq_iff.mpr (granted.resolve_left some_bytes)
    refine ⟨fun i inside => ?_, fun i past inside => ?_, fun v owned => ?_⟩
    · have owned : s.Owns page (s.vaddr + i) :=
        LoadSegment.owns_add paged (Nat.lt_of_lt_of_le inside within)
      have early : s.vaddr + i < s.fileEnd := Nat.add_lt_add_left inside s.vaddr
      obtain ⟨byte, found, shown⟩ := LoadSegment.fileCell_inFile seated.congruent inFile inside
      have shows : fileByte page file (s.filePos page (s.vaddr + i)) = some byte :=
        congrArg Cell.byte shown
      refine ⟨byte, found, ?_⟩
      rw [Space.byteAt, overlaid_cell seated paged owned aligned,
        if_pos (Nat.lt_of_lt_of_le early (le_roundUp paged)), shows]
      simp [Nat.not_le_of_lt early]
    · have owned : s.Owns page (s.vaddr + i) := LoadSegment.owns_add paged inside
      have late : s.fileEnd ≤ s.vaddr + i := Nat.add_le_add_left past s.vaddr
      rw [Space.byteAt, overlaid_cell seated paged owned aligned]
      by_cases before : s.vaddr + i < roundUp page s.fileEnd
      · have backed :=
          LoadSegment.filePos_backed paged seated.congruent some_bytes inFile late before
        rw [if_pos before, fileByte, if_pos backed]
        simp [late]
      · rw [if_neg before, fresh _ owned]
        rfl
    · rw [Space.protAt, overlaid_cell seated paged owned aligned]
      by_cases before : v < roundUp page s.fileEnd
      · rw [if_pos before, ← kept]
        rfl
      · rw [if_neg before, fresh v owned]
        obtain none | same | ⟨-, beyond⟩ := sound
        · exact absurd none full
        · rw [same]
          rfl
        · exact absurd (Nat.lt_of_lt_of_le owned.2.2 beyond) before

/-- A turn of the loop settles the pages of its segment. -/
theorem loadSegment_settles (kernel : Kernel page limit) (short : file.length < limit)
    (seated : (phdrSegment p).Seated page limit base 0) :
    Settles ((phdrSegment p).region page (laidAt base 0)) (fun _ => ⟨readWrite, some 0⟩)
      ((phdrSegment p).Described page file (laidAt base 0)) (Loadable kernel file base (phdrSegment p))
      (fun t => loadSegment kernel file base t p) := by
  have paged := kernel.paged
  have locally : ∀ {t after : Space},
      (∀ a ∈ (phdrSegment p).region page (laidAt base 0), after.cell a = t.cell a) →
      (phdrSegment p).Described page file (laidAt base 0) t →
        (phdrSegment p).Described page file (laidAt base 0) after := fun same described =>
    described.congr paged seated.within fun v owned => same _ ⟨v, owned, rfl⟩
  by_cases empty : p.filesz = 0
  · have skipped : ∀ t, loadSegment kernel file base t p = some t := fun t => by
      simp only [loadSegment, empty, Nat.zero_mod, if_true]
    refine ⟨fun loaded a _ => ?_, fun loaded fresh => ?_, locally⟩
    · rw [skipped] at loaded
      rw [Option.some.inj loaded]
    · rw [skipped] at loaded
      obtain rfl := Option.some.inj loaded
      rw [described_reserved paged empty fun v owned => fresh _ ⟨v, owned, rfl⟩]
  · refine ⟨fun loaded a outside => ?_, fun loaded fresh => ?_, locally⟩
    · obtain ⟨off, -, rfl⟩ := loadSegment_eq_some seated empty loaded
      exact overlaid_frame seated empty outside
    · obtain ⟨off, near, rfl⟩ := loadSegment_eq_some seated empty loaded
      have reserved := fun v owned => fresh _ ⟨v, owned, rfl⟩
      by_cases inFile : (phdrSegment p).InFile file
      · have fits : p.offset + p.filesz ≤ file.length := inFile.resolve_left empty
        have aligned := near (by omega)
        rw [described_overlaid seated paged empty inFile aligned reserved]
        constructor
        · rintro ⟨clean, sound⟩
          exact ⟨clean_of_overlaid clean, sound⟩
        · rintro ⟨clean, sound⟩
          exact ⟨overlaid_clean seated paged empty inFile aligned clean, sound⟩
      · constructor
        · rintro ⟨-, described⟩
          exact absurd described.inFile inFile
        · rintro ⟨-, sound⟩
          exact absurd sound.1 inFile

end


section

variable {page limit base : Nat} {kernel : Kernel page limit} {file : Bytes}
  {p : ProgramHeader} {loads : List ProgramHeader} {t after : Space}

theorem le_total (wide : limit ≤ 2 ^ 64) (found : p ∈ loads) (inside : p.vend < limit) :
    p.vend ≤ total limit loads := by
  have member : p.vend ∈ loads.map fun h => h.vend % 2 ^ 64 % limit := by
    refine List.mem_map.mpr ⟨p, found, ?_⟩
    rw [Nat.mod_eq_of_lt (Nat.lt_of_lt_of_le inside wide), Nat.mod_eq_of_lt inside]
  rw [total]
  cases highest : (loads.map fun h => h.vend % 2 ^ 64 % limit).max? with
  | none =>
      rw [List.max?_eq_none_iff.mp highest] at member
      cases member
  | some top => exact (List.max?_eq_some_iff.mp highest).2 _ member

theorem total_lt (positive : 0 < limit) (loads : List ProgramHeader) :
    total limit loads < limit := by
  rw [total]
  cases highest : (loads.map fun h => h.vend % 2 ^ 64 % limit).max? with
  | none => exact positive
  | some top =>
      obtain ⟨p, -, rfl⟩ := List.mem_map.mp (List.max?_eq_some_iff.mp highest).1
      exact Nat.mod_lt _ positive

/-- A reservation of a length that wrapped around would be empty. -/
theorem reserved_whole {high : Nat} (below : high < limit)
    (placed : kernel.reserve (roundDown page ((high + page - 1) % limit)) = some base) :
    page ∣ base ∧ base + roundUp page high + page ≤ limit ∧
      roundDown page ((high + page - 1) % limit) = roundUp page high := by
  have paged := kernel.paged
  obtain ⟨positive, aligned, room⟩ := kernel.placed placed
  by_cases fits : high + page - 1 < limit
  · rw [Nat.mod_eq_of_lt fits, ← roundUp] at room
    rw [roundUp_of_dvd paged dvd_roundUp] at room
    exact ⟨aligned, room, by rw [Nat.mod_eq_of_lt fits, roundUp]⟩
  · have low : (high + page - 1) % limit < page := by
      rw [Nat.mod_eq_sub_mod (Nat.le_of_not_lt fits)]
      exact Nat.lt_of_le_of_lt (Nat.mod_le _ _) (by omega)
    rw [roundDown, Nat.div_eq_of_lt low, Nat.zero_mul] at positive
    omega

theorem loadSegments_iff (laid : Layout page limit (loads.map phdrSegment)) (wide : limit ≤ 2 ^ 64)
    (short : file.length < limit) {memory : Nat → Option Cell}
    (placed : kernel.reserve (roundDown page ((total limit loads + page - 1) % limit)) = some base)
    (loaded : loads.foldlM (loadSegment kernel file base) (Space.mapAnonymous page base
      (roundDown page ((total limit loads + page - 1) % limit)) readWrite ⟨memory, true⟩) =
        some after) :
    LoadSegment.Describes page file (fun v => base + v) (loads.map phdrSegment) after ↔
      ∀ s ∈ loads.map phdrSegment, Loadable kernel file base s := by
  have paged := kernel.paged
  have below : total limit loads < limit := total_lt (by omega) loads
  obtain ⟨aligned, room, len⟩ := reserved_whole below placed
  have seated : ∀ p ∈ loads, (phdrSegment p).Seated page limit base 0 := by
    intro p found
    have mem : phdrSegment p ∈ loads.map phdrSegment := List.mem_map_of_mem found
    have last : roundUp page p.vend ≤ roundUp page (total limit loads) :=
      roundUp_mono (le_total wide found (laid.inside _ mem))
    refine ⟨aligned, Nat.dvd_zero page, Nat.zero_le _, fun _ => ?_, laid.congruent _ mem,
      laid.within _ mem⟩
    show base + roundUp page p.vend + page ≤ limit
    omega
  have apart : loads.Pairwise fun p q =>
      Disjoint ((phdrSegment p).region page (laidAt base 0))
        ((phdrSegment q).region page (laidAt base 0)) :=
    (List.pairwise_map.mp laid.apart).imp fun apart =>
      LoadSegment.disjoint_region (Nat.zero_le _) (Nat.zero_le _) apart
  have each := Settles.each loads (fun p found => loadSegment_settles kernel short (seated p found))
    apart
  have settled := each.settled loaded fun a found => by
    obtain ⟨p, member, v, owned, rfl⟩ := found
    have mem : phdrSegment p ∈ loads.map phdrSegment := List.mem_map_of_mem member
    have last : roundUp page p.vend ≤ roundUp page (total limit loads) :=
      roundUp_mono (le_total wide member (laid.inside _ mem))
    have before : v < roundUp page p.vend := owned.2.2
    refine Space.mapAnonymous_covered ?_
    rw [len, covers_roundUp paged, Space.covers_iff]
    show base ≤ base + v ∧ base + v < base + roundUp page (total limit loads)
    omega
  rw [LoadSegment.Describes, List.forall_mem_map, List.forall_mem_map]
  rw [Space.mapAnonymous_clean] at settled
  exact settled.trans (and_iff_right rfl)

theorem wordLimit_le (width : Width) : wordLimit width ≤ 2 ^ 64 := by
  cases width <;> decide

theorem load_iff {width : Width} {kernel : Kernel page (wordLimit width)}
    {parse : Bytes → Option Elf} {elf : Elf} {memory : Nat → Option Cell} {out : Loading width}
    (parsed : parse file = some elf)
    (laid : Layout page (wordLimit width) (segmentsOf elf.programHeaders))
    (loaded : load kernel parse file memory = some out) :
    LoadSegment.Describes page file (fun v => out.base + v) (segmentsOf elf.programHeaders)
        out.space ↔
      ∀ s ∈ segmentsOf elf.programHeaders, Loadable kernel file out.base s := by
  simp only [load, parsed] at loaded
  split at loaded
  · cases loaded
  · rename_i short
    cases begins : (elf.programHeaders.filter ProgramHeader.isLoad).head? with
    | none =>
        rw [begins] at loaded
        cases loaded
    | some first =>
        simp only [begins] at loaded
        split at loaded
        · cases loaded
        · cases placed : kernel.reserve (roundDown page ((total (wordLimit width)
              (elf.programHeaders.filter ProgramHeader.isLoad) + page - 1) % wordLimit width)) with
          | none =>
              rw [placed] at loaded
              cases loaded
          | some base =>
              simp only [placed] at loaded
              obtain ⟨after, mapped, rfl⟩ := Option.map_eq_some_iff.mp loaded
              exact loadSegments_iff laid (wordLimit_le width) (Nat.lt_of_not_le short) placed
                mapped

end

/-! ### The mappers -/

/-- The mappers build what the headers describe exactly when every segment comes out: in the
bootstrap, whatever its width, that is up to the page where the bytes of the file end, and in the
userland exec up to the protection of what is not mapped from the file. -/
theorem mappers_describe_iff {page : Nat} {width : Width} (kernel : Kernel page (wordLimit width))
    (file : Bytes) (memory : Nat → Option Cell) :
    (∀ ehdr headers m, interpHeaders width file ehdr = some headers →
      Layout page (wordLimit width) (segmentsOf headers) →
      mapInterp kernel file ehdr memory = some m →
      (LoadSegment.Describes page file (fun v => (m.base + v) % wordLimit width)
          (segmentsOf headers) m.space ↔
        ∀ first ∈ (segmentsOf headers).head?, ∀ s ∈ segmentsOf headers,
          Mappable page file first s)) ∧
    (∀ parse elf out, parse file = some elf →
      Layout page (wordLimit width) (segmentsOf elf.programHeaders) →
      load kernel parse file memory = some out →
      (LoadSegment.Describes page file (fun v => out.base + v) (segmentsOf elf.programHeaders)
          out.space ↔
        ∀ s ∈ segmentsOf elf.programHeaders, Loadable kernel file out.base s)) := by
  constructor
  · intro ehdr headers m read laid mapped
    exact mapInterp_iff read laid mapped
  · intro parse elf out parsed laid loaded
    exact load_iff parsed laid loaded


/-- A kernel with room at one place. -/
def roomyReserve (len : Nat) : Option Nat :=
  if 0 < len ∧ len ≤ 2 ^ 20 then some 0x7f0000000000 else none

theorem roomy_power : (4096).isPowerOfTwo := ⟨12, rfl⟩

theorem roomy_placed {len start : Nat} (placed : roomyReserve len = some start) :
    0 < len ∧ 4096 ∣ start ∧ start + roundUp 4096 len + 4096 ≤ wordLimit .wide := by
  rw [roomyReserve, Option.ite_none_right_eq_some] at placed
  obtain ⟨⟨positive, small⟩, here⟩ := placed
  obtain rfl := Option.some.inj here
  have short : roundUp 4096 len < len + 4096 := roundUp_lt (by decide)
  have room : wordLimit .wide = 2 ^ 64 := by decide
  refine ⟨positive, by decide, ?_⟩
  omega

def roomyKernel : Kernel 4096 (wordLimit .wide) where
  reserve := roomyReserve
  fixed _ _ := true
  protects _ _ := true
  power := roomy_power
  placed := roomy_placed

def textLoad : ProgramHeader := ⟨ptLoad, 4, 0, 0, 0, 176, 176, 0x1000⟩
def dataLoad : ProgramHeader := ⟨ptLoad, 6, 176, 0x10b0, 0x10b0, 16, 64, 0x1000⟩
def bssLoad : ProgramHeader := ⟨ptLoad, 6, 8, 0x2008, 0x2008, 0, 0x100, 0x1000⟩

/-- The image of two segments, and what the second one holds in the file. -/
def twoSegments (second : ProgramHeader) (data : Bytes) : Bytes :=
  wideImage 0 [textLoad, second] ++ data

def nowhere (_ : Nat) : Option Cell := none

theorem two_laid {second : ProgramHeader} (after : 4096 ≤ second.vaddr)
    (congruent : second.offset % 4096 = second.vaddr % 4096) (within : second.filesz ≤ second.memsz)
    (inside : second.vend < wordLimit .wide) :
    Layout 4096 (wordLimit .wide) ([textLoad, second].map phdrSegment) where
  ascending := by simp [phdrSegment, textLoad]
  apart := by
    have low : 4096 ≤ roundDown 4096 second.vaddr := le_roundDown (by decide) after
    have high : roundUp 4096 (phdrSegment textLoad).vend = 4096 := by decide
    simp only [List.map_cons, List.map_nil, List.pairwise_cons, List.mem_singleton]
    refine ⟨fun s same v mine yours => ?_, by simp⟩
    subst same
    have stop := mine.2.2
    have start : roundDown 4096 second.vaddr ≤ v := yours.2.1
    omega
  congruent := by
    simp only [List.map_cons, List.map_nil, List.mem_cons, List.not_mem_nil, or_false]
    rintro s (rfl | rfl)
    · rfl
    · exact congruent
  within := by
    simp only [List.map_cons, List.map_nil, List.mem_cons, List.not_mem_nil, or_false]
    rintro s (rfl | rfl)
    · exact Nat.le_refl _
    · exact within
  inside := by
    simp only [List.map_cons, List.map_nil, List.mem_cons, List.not_mem_nil, or_false]
    rintro s (rfl | rfl)
    · decide
    · exact inside

/-- A writable segment that is all bss and starts inside a page is cleared on the mapping of the
whole span, which is the first segment's and not writable. -/
theorem bss_inside_page_misbuilt :
    ¬∀ {page : Nat} {width : Width} (kernel : Kernel page (wordLimit width)) (file : Bytes)
      (memory : Nat → Option Cell) (ehdr : Bytes) (headers : List ProgramHeader) (m : Mapped),
      interpHeaders width file ehdr = some headers →
      Layout page (wordLimit width) (segmentsOf headers) →
      mapInterp kernel file ehdr memory = some m →
      LoadSegment.Describes page file (fun v => (m.base + v) % wordLimit width)
        (segmentsOf headers) m.space := by
  intro builds
  have read : interpHeaders .wide (twoSegments bssLoad []) (slice (twoSegments bssLoad []) 0 64) =
      some [textLoad, bssLoad] := by decide +kernel
  have laid : Layout 4096 (wordLimit .wide) (segmentsOf [textLoad, bssLoad]) :=
    two_laid (by decide) (by decide) (by decide) (by decide)
  obtain ⟨m, mapped⟩ : ∃ m, mapInterp roomyKernel (twoSegments bssLoad [])
      (slice (twoSegments bssLoad []) 0 64) nowhere = some m :=
    Option.isSome_iff_exists.mp (by decide +kernel)
  have described := builds roomyKernel _ nowhere _ _ m read laid mapped
  have sound := (mapInterp_iff read laid mapped).mp described (phdrSegment textLoad) rfl
    (phdrSegment bssLoad) (by decide)
  obtain whole | aligned | cleared := sound.2
  · exact absurd whole (by decide)
  · exact absurd aligned (by decide)
  · exact absurd cleared.1 (by decide)

/-- A loader with text, and data that ends inside the page it shares with its bss. -/
theorem mappers_describe_data :
    ∃ m out, mapInterp roomyKernel (twoSegments dataLoad (List.replicate 16 7))
        (slice (twoSegments dataLoad (List.replicate 16 7)) 0 64) nowhere = some m ∧
      load roomyKernel (fun bytes => some (Elf.read .wide bytes []))
        (twoSegments dataLoad (List.replicate 16 7)) nowhere = some out ∧
      LoadSegment.Describes 4096 (twoSegments dataLoad (List.replicate 16 7))
        (fun v => (m.base + v) % wordLimit .wide) (segmentsOf [textLoad, dataLoad]) m.space ∧
      LoadSegment.Describes 4096 (twoSegments dataLoad (List.replicate 16 7))
        (fun v => out.base + v) (segmentsOf [textLoad, dataLoad]) out.space := by
  have read : interpHeaders .wide (twoSegments dataLoad (List.replicate 16 7))
      (slice (twoSegments dataLoad (List.replicate 16 7)) 0 64) = some [textLoad, dataLoad] := by
    decide +kernel
  have parsed : (Elf.read .wide (twoSegments dataLoad (List.replicate 16 7)) []).programHeaders =
      [textLoad, dataLoad] := by decide +kernel
  have laid : Layout 4096 (wordLimit .wide) (segmentsOf [textLoad, dataLoad]) :=
    two_laid (by decide) (by decide) (by decide) (by decide)
  obtain ⟨m, mapped⟩ : ∃ m, mapInterp roomyKernel (twoSegments dataLoad (List.replicate 16 7))
      (slice (twoSegments dataLoad (List.replicate 16 7)) 0 64) nowhere = some m :=
    Option.isSome_iff_exists.mp (by decide +kernel)
  obtain ⟨out, loaded⟩ : ∃ out, load roomyKernel (fun bytes => some (Elf.read .wide bytes []))
      (twoSegments dataLoad (List.replicate 16 7)) nowhere = some out :=
    Option.isSome_iff_exists.mp (by decide +kernel)
  have each := mappers_describe_iff roomyKernel (twoSegments dataLoad (List.replicate 16 7)) nowhere
  have size : (twoSegments dataLoad (List.replicate 16 7)).length = 192 := by decide +kernel
  refine ⟨m, out, mapped, loaded, (each.1 _ _ m read laid mapped).mpr ?_, ?_⟩
  · intro first begins s found
    obtain rfl := Option.some.inj begins
    simp only [segmentsOf, List.mem_map, List.mem_filter, List.mem_cons, List.not_mem_nil, or_false]
      at found
    obtain ⟨p, ⟨rfl | rfl, -⟩, rfl⟩ := found
    · exact ⟨.inr (by rw [size]; decide), .inl (by decide)⟩
    · exact ⟨.inr (by rw [size]; decide), .inr (.inr ⟨rfl, by rw [size]; decide, .inl rfl⟩)⟩
  · have described := (each.2 _ _ out rfl (parsed ▸ laid) loaded).mpr
    rw [parsed] at described
    refine described fun s found => ?_
    simp only [segmentsOf, List.mem_map, List.mem_filter, List.mem_cons, List.not_mem_nil, or_false]
      at found
    obtain ⟨p, ⟨rfl | rfl, -⟩, rfl⟩ := found
    · exact ⟨.inr (by rw [size]; decide), .inr (.inr ⟨by decide, by decide⟩), .inr (.inr rfl)⟩
    · exact ⟨.inr (by rw [size]; decide), .inr (.inl rfl), .inr (.inl rfl)⟩


end Onelf.Runtime.Ulexec
