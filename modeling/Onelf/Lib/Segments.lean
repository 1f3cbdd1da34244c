import Onelf.Lib.Paging
import Mathlib.Data.Set.Lattice
import Mathlib.Order.CompletePartialOrder

/-! What the loadable segments of a file say about memory, and steps that lay out one each. -/

namespace Onelf.Lib

/-! ### Segments -/

structure LoadSegment where
  offset : Nat
  vaddr : Nat
  filesz : Nat
  memsz : Nat
  prot : Prot
  deriving DecidableEq

namespace LoadSegment

variable (page : Nat) (file : Bytes) (place : Nat → Nat)

def fileEnd (s : LoadSegment) : Nat := s.vaddr + s.filesz

def vend (s : LoadSegment) : Nat := s.vaddr + s.memsz

/-- `v` lies in a page of the segment. -/
def Owns (s : LoadSegment) (v : Nat) : Prop :=
  s.memsz ≠ 0 ∧ roundDown page s.vaddr ≤ v ∧ v < roundUp page s.vend

/-- The file has the bytes the segment takes from it. -/
def InFile (s : LoadSegment) : Prop := s.filesz = 0 ∨ s.offset + s.filesz ≤ file.length

/-- Where in the file a mapping of the segment's pages takes `v` from. -/
def filePos (s : LoadSegment) (v : Nat) : Nat :=
  roundDown page s.offset + (v - roundDown page s.vaddr)

/-- What a mapping of the segment's pages holds at `v`. -/
def fileCell (s : LoadSegment) (v : Nat) : Cell := ⟨s.prot, fileByte page file (s.filePos page v)⟩

/-- The segment as its header describes it: its bytes, zeros after them, and its protection on its
pages. `place` says where memory has what the file calls `v`. -/
structure Described (s : LoadSegment) (t : Space) : Prop where
  bytes : ∀ i < s.filesz,
    ∃ byte, file[s.offset + i]? = some byte ∧ t.byteAt (place (s.vaddr + i)) = some byte
  zeros : ∀ i, s.filesz ≤ i → i < s.memsz → t.byteAt (place (s.vaddr + i)) = some 0
  guarded : ∀ v, s.Owns page v → t.protAt (place v) = some s.prot

/-- No store went astray, and every segment is as its header describes it. -/
def Describes (segments : List LoadSegment) (t : Space) : Prop :=
  t.clean = true ∧ ∀ s ∈ segments, s.Described page file place t

/-- Where memory has the pages of the segment. -/
def region (s : LoadSegment) : Set Nat := {a | ∃ v, s.Owns page v ∧ place v = a}

end LoadSegment

/-- Memory laid out from `low` on, the lowest page being at `start`. -/
def laidAt (start low v : Nat) : Nat := start + (v - low)

theorem laidAt_le {start low v w : Nat} (above : low ≤ w) :
    laidAt start low v ≤ laidAt start low w ↔ v ≤ w := by
  rw [laidAt, laidAt]
  omega

theorem laidAt_lt {start low v w : Nat} (above : low ≤ v) :
    laidAt start low v < laidAt start low w ↔ v < w := by
  rw [laidAt, laidAt]
  omega

theorem roundUp_laidAt {page start low v : Nat} (paged : 0 < page) (aligned : page ∣ start)
    (lowered : page ∣ low) (above : low ≤ v) :
    roundUp page (laidAt start low v) = laidAt start low (roundUp page v) := by
  obtain ⟨rest, rfl⟩ := Nat.exists_eq_add_of_le above
  rw [laidAt, laidAt, Nat.add_sub_cancel_left, roundUp_add paged aligned, roundUp_add paged lowered,
    Nat.add_sub_cancel_left]

/-- The segment has its place in memory laid out from `low` on, short of the last page. -/
structure LoadSegment.Seated (page limit start low : Nat) (s : LoadSegment) : Prop where
  aligned : page ∣ start
  lowered : page ∣ low
  above : low ≤ roundDown page s.vaddr
  room : s.memsz ≠ 0 → laidAt start low (roundUp page s.vend) + page ≤ limit
  congruent : s.offset % page = s.vaddr % page
  within : s.filesz ≤ s.memsz

/-- The loadable segments of a file, which lie in an address space of `limit` bytes. -/
structure Layout (page limit : Nat) (segments : List LoadSegment) : Prop where
  ascending : segments.Pairwise fun s t => s.vaddr ≤ t.vaddr
  apart : segments.Pairwise fun s t => ∀ v, s.Owns page v → ¬t.Owns page v
  congruent : ∀ s ∈ segments, s.offset % page = s.vaddr % page
  within : ∀ s ∈ segments, s.filesz ≤ s.memsz
  inside : ∀ s ∈ segments, s.vend < limit

namespace LoadSegment

variable {page : Nat} {file : Bytes} {place other : Nat → Nat} {s : LoadSegment} {t after : Space}
  {i v : Nat}

instance : Decidable (s.Owns page v) := inferInstanceAs (Decidable (_ ∧ _ ∧ _))

theorem owns_add (paged : 0 < page) (inside : i < s.memsz) : s.Owns page (s.vaddr + i) := by
  have start : roundDown page s.vaddr ≤ s.vaddr := roundDown_le
  have stop : s.vend ≤ roundUp page s.vend := le_roundUp paged
  rw [vend] at stop
  refine ⟨by omega, by omega, ?_⟩
  rw [vend]
  omega

theorem roundUp_fileEnd_le (within : s.filesz ≤ s.memsz) :
    roundUp page s.fileEnd ≤ roundUp page s.vend :=
  roundUp_mono (Nat.add_le_add_left within s.vaddr)

/-- Only what the segment's pages hold matters. -/
theorem Described.congr (paged : 0 < page) (within : s.filesz ≤ s.memsz)
    (same : ∀ v, s.Owns page v → after.cell (other v) = t.cell (place v))
    (described : s.Described page file place t) : s.Described page file other after where
  bytes i inside := by
    obtain ⟨byte, found, held⟩ := described.bytes i inside
    refine ⟨byte, found, ?_⟩
    rw [Space.byteAt, same _ (owns_add paged (by omega)), ← held, Space.byteAt]
  zeros i past inside := by
    rw [Space.byteAt, same _ (owns_add paged inside), ← described.zeros i past inside, Space.byteAt]
  guarded v owned := by
    rw [Space.protAt, same v owned, ← described.guarded v owned, Space.protAt]

theorem Described.inFile (described : s.Described page file place t) : s.InFile file := by
  by_cases empty : s.filesz = 0
  · exact .inl empty
  · right
    obtain ⟨byte, found, _⟩ := described.bytes (s.filesz - 1) (by omega)
    have inside := (List.getElem?_eq_some_iff.mp found).1
    omega

theorem filePos_add (congruent : s.offset % page = s.vaddr % page) :
    s.filePos page (s.vaddr + i) = s.offset + i := by
  have low := roundDown_add_mod page s.vaddr
  have high := roundDown_add_mod page s.offset
  rw [filePos]
  omega

/-- Inside the file a mapping of the segment holds its bytes. -/
theorem fileCell_inFile (congruent : s.offset % page = s.vaddr % page) (inFile : s.InFile file)
    (inside : i < s.filesz) :
    ∃ byte, file[s.offset + i]? = some byte ∧
      s.fileCell page file (s.vaddr + i) = ⟨s.prot, some byte⟩ := by
  have short : s.offset + i < file.length := by
    rcases inFile with empty | fits <;> omega
  have backed : roundDown page (s.offset + i) < file.length :=
    Nat.lt_of_le_of_lt roundDown_le short
  refine ⟨file.getD (s.offset + i) 0, ?_, ?_⟩
  · rw [List.getD_eq_getElem?_getD, List.getElem?_eq_getElem short, Option.getD_some]
  · rw [fileCell, filePos_add congruent, fileByte, if_pos backed]

/-- The bytes of one page of a mapping are backed together. -/
theorem roundDown_filePos (paged : 0 < page) (after : roundDown page s.vaddr ≤ v) :
    roundDown page (s.filePos page v) =
      roundDown page s.offset + (roundDown page v - roundDown page s.vaddr) := by
  obtain ⟨rest, rfl⟩ := Nat.exists_eq_add_of_le after
  rw [filePos, roundDown_add paged dvd_roundDown, roundDown_add paged dvd_roundDown,
    Nat.add_sub_cancel_left, Nat.add_sub_cancel_left]

/-- The page the bytes of a segment end in has the last of them behind it. -/
theorem filePos_backed (paged : 0 < page) (congruent : s.offset % page = s.vaddr % page)
    (some_bytes : s.filesz ≠ 0) (inFile : s.InFile file) (past : s.fileEnd ≤ v)
    (before : v < roundUp page s.fileEnd) : roundDown page (s.filePos page v) < file.length := by
  have fits := inFile.resolve_left some_bytes
  have off : ¬page ∣ s.fileEnd := fun whole => by
    rw [roundUp_of_dvd paged whole] at before
    omega
  have last : s.fileEnd = s.vaddr + (s.filesz - 1) + 1 := by
    rw [fileEnd]
    omega
  -- off a page boundary the last byte is in the page that the bytes end in
  have low : roundDown page s.fileEnd ≤ s.vaddr + (s.filesz - 1) := by
    have split := roundDown_add_mod page s.fileEnd
    have positive : s.fileEnd % page ≠ 0 := fun zero => off (Nat.dvd_of_mod_eq_zero zero)
    omega
  rw [roundUp_eq paged off] at before
  have here : roundDown page v = roundDown page s.fileEnd :=
    roundDown_eq paged (Nat.le_trans roundDown_le past) before
  have there : roundDown page (s.vaddr + (s.filesz - 1)) = roundDown page s.fileEnd :=
    roundDown_eq paged low (by omega)
  have start : roundDown page s.vaddr ≤ s.vaddr + (s.filesz - 1) :=
    Nat.le_trans roundDown_le (Nat.le_add_right _ _)
  have same := roundDown_filePos paged start
  rw [there, ← here, ← roundDown_filePos paged (by omega), filePos_add congruent] at same
  have below : roundDown page (s.offset + (s.filesz - 1)) ≤ s.offset + (s.filesz - 1) :=
    roundDown_le
  omega

namespace Seated

variable {limit start low a : Nat}

theorem low_le_add (seated : s.Seated page limit start low) (i : Nat) : low ≤ s.vaddr + i :=
  Nat.le_trans seated.above (Nat.le_trans roundDown_le (Nat.le_add_right s.vaddr i))

theorem roundUp_add (seated : s.Seated page limit start low) (paged : 0 < page) (i : Nat) :
    roundUp page (laidAt start low (s.vaddr + i)) = laidAt start low (roundUp page (s.vaddr + i)) :=
  roundUp_laidAt paged seated.aligned seated.lowered (seated.low_le_add i)

theorem vend_room (seated : s.Seated page limit start low) (paged : 0 < page)
    (full : s.memsz ≠ 0) : laidAt start low s.vend + page ≤ limit := by
  have above : s.vend ≤ roundUp page s.vend := le_roundUp paged
  have placed : laidAt start low s.vend ≤ laidAt start low (roundUp page s.vend) :=
    (laidAt_le (Nat.le_trans (seated.low_le_add s.memsz) above)).mpr above
  exact Nat.le_trans (Nat.add_le_add_right placed page) (seated.room full)

theorem mem_region (seated : s.Seated page limit start low) (full : s.memsz ≠ 0)
    (reached : laidAt start low (roundDown page s.vaddr) ≤ a)
    (before : a < laidAt start low (roundUp page s.vend)) :
    a ∈ s.region page (laidAt start low) := by
  have above := seated.above
  rw [laidAt] at reached before
  refine ⟨low + (a - start), ⟨full, by omega, by omega⟩, ?_⟩
  rw [laidAt]
  omega

theorem covers_iff (seated : s.Seated page limit start low) (paged : 0 < page) :
    Space.Covers page (laidAt start low (roundDown page s.vaddr)) (s.filesz + s.offset % page) a ↔
      laidAt start low (roundDown page s.vaddr) ≤ a ∧
        a < laidAt start low (roundUp page s.fileEnd) := by
  have aligned : page ∣ laidAt start low (roundDown page s.vaddr) :=
    Nat.dvd_add seated.aligned (Nat.dvd_sub dvd_roundDown seated.lowered)
  have above := seated.above
  have congruent := seated.congruent
  have split := roundDown_add_mod page s.vaddr
  have stop : laidAt start low (roundDown page s.vaddr) + (s.filesz + s.offset % page) =
      laidAt start low s.fileEnd := by
    rw [laidAt, laidAt, fileEnd]
    omega
  have up : roundUp page (laidAt start low s.fileEnd) = laidAt start low (roundUp page s.fileEnd) :=
    seated.roundUp_add paged s.filesz
  rw [Space.covers_iff, ← Onelf.Lib.roundUp_add paged aligned, stop, up]

variable {prot : Prot}

/-- What a mapping of the segment's bytes shows on its pages. -/
theorem mapFile_shown (seated : s.Seated page limit start low) (paged : 0 < page)
    (owned : s.Owns page v) (before : v < roundUp page s.fileEnd) :
    (t.mapFile page (laidAt start low (roundDown page s.vaddr)) (s.filesz + s.offset % page) prot
      file (roundDown page s.offset)).cell (laidAt start low v) =
        some ⟨prot, fileByte page file (s.filePos page v)⟩ := by
  have above : low ≤ v := Nat.le_trans seated.above owned.2.1
  have reached := owned.2.1
  have lowest := seated.above
  have covered := (seated.covers_iff paged).mpr
    ⟨(laidAt_le above).mpr owned.2.1, (laidAt_lt above).mpr before⟩
  have pos : roundDown page s.offset +
      (laidAt start low v - laidAt start low (roundDown page s.vaddr)) = s.filePos page v := by
    rw [filePos, laidAt, laidAt]
    omega
  rw [Space.mapFile_covered covered, pos]

theorem mapFile_frame (seated : s.Seated page limit start low) (paged : 0 < page)
    (full : s.memsz ≠ 0) (outside : a ∉ s.region page (laidAt start low))
    (off : Nat) :
    (t.mapFile page (laidAt start low (roundDown page s.vaddr)) (s.filesz + s.offset % page) prot
      file off).cell a = t.cell a := by
  refine Space.mapFile_apart fun covered => ?_
  obtain ⟨reached, before⟩ := (seated.covers_iff paged).mp covered
  have last : laidAt start low (roundUp page s.fileEnd) ≤ laidAt start low (roundUp page s.vend) :=
    (laidAt_le (Nat.le_trans (seated.low_le_add s.memsz) (le_roundUp paged))).mpr
      (roundUp_fileEnd_le seated.within)
  exact outside (seated.mem_region full reached (Nat.lt_of_lt_of_le before last))

end Seated

/-- Segments that share no page have no address in common. -/
theorem disjoint_region {start low : Nat} {s u : LoadSegment}
    (above : low ≤ roundDown page s.vaddr) (atop : low ≤ roundDown page u.vaddr)
    (apart : ∀ v, s.Owns page v → ¬u.Owns page v) :
    Disjoint (s.region page (laidAt start low)) (u.region page (laidAt start low)) := by
  rw [Set.disjoint_left]
  rintro a ⟨v, mine, rfl⟩ ⟨w, yours, same⟩
  have reached := mine.2.1
  have attained := yours.2.1
  have equal : w = v := by
    rw [laidAt, laidAt] at same
    omega
  exact apart v mine (equal ▸ yours)

end LoadSegment

/-! ### Steps that settle a region -/

/-- `step` settles the addresses `own`: it leaves the others as they are, and where it found `under`
on its own, `made` holds after stores that all went well exactly under the condition `sound`. What
is `made` depends on its own addresses alone. -/
structure Settles (own : Set Nat) (under : Nat → Cell) (made : Space → Prop) (sound : Prop)
    (step : Space → Option Space) : Prop where
  frame : ∀ {t after}, step t = some after → ∀ a ∉ own, after.cell a = t.cell a
  settled : ∀ {t after}, step t = some after → (∀ a ∈ own, t.cell a = some (under a)) →
    ((after.clean = true ∧ made after) ↔ (t.clean = true ∧ sound))
  locally : ∀ {t after : Space}, (∀ a ∈ own, after.cell a = t.cell a) → made t → made after

namespace Settles

variable {own other : Set Nat} {under : Nat → Cell} {made done : Space → Prop} {sound fine : Prop}
  {step next : Space → Option Space}

theorem nothing : Settles ∅ under (fun _ => True) True some where
  frame stepped a _ := by rw [Option.some.inj stepped]
  settled stepped _ := by rw [Option.some.inj stepped]
  locally _ _ := trivial

/-- Steps on regions that do not meet do not disturb each other. -/
theorem andThen (first : Settles own under made sound step)
    (second : Settles other under done fine next) (apart : Disjoint own other) :
    Settles (own ∪ other) under (fun t => made t ∧ done t) (sound ∧ fine)
      (fun t => (step t).bind next) where
  frame {t after} stepped a outside := by
    obtain ⟨between, start, finish⟩ := Option.bind_eq_some_iff.mp stepped
    rw [second.frame finish a fun found => outside (.inr found),
      first.frame start a fun found => outside (.inl found)]
  settled {t after} stepped fresh := by
    obtain ⟨between, start, finish⟩ := Option.bind_eq_some_iff.mp stepped
    have kept : ∀ a ∈ own, after.cell a = between.cell a := fun a found =>
      second.frame finish a (Set.disjoint_left.mp apart found)
    have untouched : ∀ a ∈ other, between.cell a = some (under a) := fun a found => by
      rw [first.frame start a (Set.disjoint_right.mp apart found), fresh a (.inr found)]
    have begun := first.settled start fun a found => fresh a (.inl found)
    have ended := second.settled finish untouched
    have same : made after ↔ made between :=
      ⟨first.locally fun a found => (kept a found).symm, first.locally kept⟩
    constructor
    · rintro ⟨clean, was, is⟩
      have fine := ended.mp ⟨clean, is⟩
      have sound := begun.mp ⟨fine.1, same.mp was⟩
      exact ⟨sound.1, sound.2, fine.2⟩
    · rintro ⟨clean, sound, fine⟩
      have was := begun.mpr ⟨clean, sound⟩
      have is := ended.mpr ⟨was.1, fine⟩
      exact ⟨is.1, same.mpr was.2, is.2⟩
  locally same both :=
    ⟨first.locally (fun a found => same a (.inl found)) both.1,
      second.locally (fun a found => same a (.inr found)) both.2⟩

/-- A run over a list settles all the regions. -/
theorem each {ι : Type} {own : ι → Set Nat} {made : ι → Space → Prop} {sound : ι → Prop}
    {step : ι → Space → Option Space} (items : List ι)
    (settles : ∀ i ∈ items, Settles (own i) under (made i) (sound i) (step i))
    (apart : items.Pairwise fun i j => Disjoint (own i) (own j)) :
    Settles {a | ∃ i ∈ items, a ∈ own i} under (fun t => ∀ i ∈ items, made i t)
      (∀ i ∈ items, sound i) (fun t => items.foldlM (fun t i => step i t) t) := by
  induction items with
  | nil =>
      have none : Settles ∅ under (fun _ => True) True some := nothing
      simpa [Set.ofPred_false] using none
  | cons i items ih =>
      rw [List.pairwise_cons] at apart
      have rest := ih (fun j found => settles j (List.mem_cons_of_mem i found)) apart.2
      have separate : Disjoint (own i) {a | ∃ j ∈ items, a ∈ own j} := by
        rw [Set.disjoint_left]
        rintro a mine ⟨j, found, yours⟩
        exact Set.disjoint_left.mp (apart.1 j found) mine yours
      have both := (settles i List.mem_cons_self).andThen rest separate
      have union : own i ∪ {a | ∃ j ∈ items, a ∈ own j} = {a | ∃ j ∈ i :: items, a ∈ own j} := by
        ext a
        simp
      simpa [union, List.foldlM_cons] using both

end Settles

end Onelf.Lib
