import Onelf.Cli.Bundle.Elf

/-! What an injection writes, and when a loader and the reader find it. -/

namespace Onelf.Cli.Bundle

open Onelf.Lib

/-! ### Headers -/

/-- What the fields of the width hold of a header. -/
def ProgramHeader.cut (width : Width) (header : ProgramHeader) : ProgramHeader :=
  { type := header.type % 2 ^ 32
    flags := header.flags % 2 ^ 32
    offset := header.offset % 256 ^ width.addr
    vaddr := header.vaddr % 256 ^ width.addr
    paddr := header.paddr % 256 ^ width.addr
    filesz := header.filesz % 256 ^ width.addr
    memsz := header.memsz % 256 ^ width.addr
    align := header.align % 256 ^ width.addr }

theorem ProgramHeader.length_write (width : Width) (header : ProgramHeader) :
    (header.write width).length = width.phdrSize := by
  cases width <;> simp [ProgramHeader.write, Width.phdrSize]

theorem fieldAt_leBytes_append (width n : Nat) (rest : Bytes) :
    fieldAt (leBytes width n ++ rest) 0 width = n % 256 ^ width := by
  have size := length_leBytes width n
  rw [fieldAt, slice_append_left (by omega)]
  have all := slice_all (leBytes width n)
  rw [size] at all
  rw [all, ofLeBytes_leBytes_mod]

theorem fieldAt_skip (width n : Nat) (rest : Bytes) {start : Nat} (later : width ≤ start)
    (len : Nat) : fieldAt (leBytes width n ++ rest) start len = fieldAt rest (start - width) len := by
  have size := length_leBytes width n
  have skipped := slice_append_right (leBytes width n) rest (start - width) len
  rw [size, Nat.add_sub_of_le later] at skipped
  rw [fieldAt, skipped, fieldAt]

theorem ProgramHeader.read_write (width : Width) (header : ProgramHeader) :
    ProgramHeader.read width (header.write width) = header.cut width := by
  have last (len n : Nat) : fieldAt (leBytes len n) 0 len = n % 256 ^ len := by
    have field := fieldAt_leBytes_append len n []
    rwa [List.append_nil] at field
  cases width <;>
    simp [ProgramHeader.write, ProgramHeader.read, ProgramHeader.cut, Width.addr,
      fieldAt_leBytes_append, fieldAt_skip, last]

/-! ### Programs -/

/-- A file with a table of rows of the fixed size, inside the file and apart from the ELF header. -/
structure Executable where
  bytes : Bytes
  width : Width
  classed : Width.ofClass (fieldAt bytes 4 1) = some width
  rowSize : fieldAt bytes width.phentsizeAt 2 = width.phdrSize
  apart : width.headerSize ≤ fieldAt bytes width.phoffAt width.addr
  inside : fieldAt bytes width.phoffAt width.addr +
    fieldAt bytes width.phnumAt 2 * width.phdrSize ≤ bytes.length

namespace Executable
variable (program : Executable)

def elf (names : List (Option Bytes)) : Elf := Elf.read program.width program.bytes names

def phoff : Nat := fieldAt program.bytes program.width.phoffAt program.width.addr

def phnum : Nat := fieldAt program.bytes program.width.phnumAt 2

def tableEnd : Nat := program.phoff + program.phnum * program.width.phdrSize

def machine : Nat := fieldAt program.bytes 18 2

def entry : Nat := fieldAt program.bytes entryAt program.width.addr

def table : List Bytes := rows program.bytes program.phoff program.width.phdrSize program.phnum

def headers : List ProgramHeader := program.table.map (ProgramHeader.read program.width)

def loads : List ProgramHeader := program.headers.filter ProgramHeader.isLoad

def page : Nat := bootstrapPageAlign (program.machine == emAArch64)

def newVaddr : Nat := alignVaddr (highestVend program.headers) program.page

def site (names : List (Option Bytes)) (idx : Nat) : Site := ⟨program.width, program.elf names, idx⟩

/-- The bytes an injection may rewrite. -/
def Rewritable (i : Nat) : Prop :=
  (program.phoff ≤ i ∧ i < program.tableEnd) ∨
    (entryAt ≤ i ∧ i < entryAt + program.width.addr)

end Executable

theorem interpSite_eq_some {program : Executable} {sections : Sections} {site : Site}
    (found : interpSite sections program.bytes = .ok (some site)) :
    ∃ names idx, site = program.site names idx ∧
      program.headers.findIdx? ProgramHeader.isInterp = some idx := by
  rw [interpSite] at found
  split at found
  · cases found
  · split at found
    · cases found
    · next elf parsed =>
        rw [Elf.parse, program.classed, Option.map_eq_some_iff] at parsed
        obtain ⟨names, _, rfl⟩ := parsed
        have classed : Width.ofClass (Elf.read program.width program.bytes names).identClass =
          some program.width := program.classed
        rw [classed] at found
        dsimp only at found
        split at found
        · cases found
        · split at found
          · cases found
          · split at found
            · cases found
            · split at found
              · cases found
              · next idx interp =>
                  cases found
                  exact ⟨names, idx, rfl, interp⟩

/-! ### Writing the file -/

theorem overwrite_eq_ok {file bytes out : Bytes} {pos : Nat} :
    overwrite file bytes pos = .ok out ↔
      pos + bytes.length ≤ file.length ∧ writeAt file bytes pos = out := by
  rw [overwrite]
  split
  · next inside =>
      simp [inside]
  · next outside =>
      simp [outside]

theorem readRange_eq_ok {file out : Bytes} {pos len : Nat} :
    readRange file pos len = .ok out ↔ pos + len ≤ file.length ∧ slice file pos len = out := by
  rw [readRange]
  split
  · next inside =>
      simp [inside]
  · next outside =>
      simp [outside]

theorem bind_eq_ok {α β : Type} {first : Except Failure α} {next : α → Except Failure β}
    {result : β} :
    (do let value ← first; next value) = .ok result ↔
      ∃ value, first = .ok value ∧ next value = .ok result := by
  cases first with
  | error reason =>
      simp [bind, Except.bind]
  | ok value =>
      simp [bind, Except.bind]

/-- `modified` has `table` for its rows, and is `base` elsewhere. -/
structure Retabled (program : Executable) (base modified : Bytes) (table : List Bytes) : Prop where
  length : modified.length = base.length
  rows : rows modified program.phoff program.width.phdrSize program.phnum = table
  elsewhere : ∀ i, i < program.phoff ∨ program.tableEnd ≤ i → modified[i]? = base[i]?

namespace Retabled
variable {program : Executable} {base modified : Bytes} {table : List Bytes}

theorem field (held : Retabled program base modified table) {start len : Nat}
    (apart : start + len ≤ program.phoff ∨ program.tableEnd ≤ start) :
    slice modified start len = slice base start len := by
  apply List.ext_getElem?
  intro i
  rw [getElem?_slice, getElem?_slice]
  by_cases short : i < len
  · rw [if_pos short, if_pos short, held.elsewhere _ (by omega)]
  · rw [if_neg short, if_neg short]

theorem overwrite (held : Retabled program base modified table)
    (inside : program.tableEnd ≤ base.length) {bytes next : Bytes} {i : Nat}
    (row : i < program.phnum) (whole : bytes.length = program.width.phdrSize)
    (done : Bundle.overwrite modified bytes (program.phoff + i * program.width.phdrSize) =
      .ok next) : Retabled program base next (table.set i bytes) := by
  obtain ⟨fits, rfl⟩ := overwrite_eq_ok.mp done
  have length := held.length
  have place := row_inside program.width.phdrSize row
  have ends : program.tableEnd = program.phoff + program.phnum * program.width.phdrSize := rfl
  constructor
  · rw [length_writeAt fits, length]
  · rw [rows_writeAt (by omega) row whole, held.rows]
  · intro i apart
    rw [getElem?_writeAt (by omega), if_neg (by omega)]
    exact held.elsewhere i apart

end Retabled

/-- Exchanging the first row of `PT_INTERP`, once overwritten, with the last one. -/
theorem swapLast_retabled {program : Executable} {names : List (Option Bytes)} {idx : Nat}
    {base modified out : Bytes} {entry : Bytes} (inside : program.tableEnd ≤ base.length)
    (row : idx < program.phnum) (whole : entry.length = program.width.phdrSize)
    {table : List Bytes} (size : table.length = program.phnum)
    (phnum : fieldAt base program.width.phnumAt 2 = program.phnum)
    (held : Retabled program base modified (table.set idx entry))
    (done : (program.site names idx).swapLast modified = .ok out) :
    Retabled program base out (moveLast table idx entry) := by
  have header : program.width.phnumAt + 2 ≤ program.phoff := by
    refine Nat.le_trans ?_ program.apart
    cases program.width <;> decide
  have count : fieldAt modified program.width.phnumAt 2 = program.phnum := by
    rw [← phnum, fieldAt, held.field (Or.inl header), fieldAt]
  have place (i : Nat) : (program.site names idx).rowAt i =
      program.phoff + i * program.width.phdrSize := by
    rw [← program.rowSize]
    rfl
  have positive : 0 < program.width.phdrSize := by cases program.width <;> decide
  have rowOf (i : Nat) (short : i < program.phnum) :
      (table.set idx entry)[i]? = some (slice modified
        (program.phoff + i * program.width.phdrSize) program.width.phdrSize) := by
    rw [← held.rows, getElem?_rows, if_pos short]
  rw [Site.swapLast, place, place] at done
  change (do
    let last := program.phoff +
      (fieldAt modified program.width.phnumAt 2 - 1) * program.width.phdrSize
    if program.phoff + idx * program.width.phdrSize = last then Except.ok modified
    else do
      let tmp ← readRange modified (program.phoff + idx * program.width.phdrSize)
        (fieldAt program.bytes program.width.phentsizeAt 2)
      let modified ← overwrite modified (← readRange modified last
        (fieldAt program.bytes program.width.phentsizeAt 2))
        (program.phoff + idx * program.width.phdrSize)
      overwrite modified tmp last) = .ok out at done
  rw [count, program.rowSize] at done
  dsimp only at done
  by_cases ends : idx + 1 = program.phnum
  · have same : program.phnum - 1 = idx := by omega
    rw [same, if_pos rfl] at done
    cases done
    rw [moveLast_of_end (by omega)]
    exact held
  · have other : program.phoff + idx * program.width.phdrSize ≠
        program.phoff + (program.phnum - 1) * program.width.phdrSize := by
      intro same
      have equal := Nat.eq_of_mul_eq_mul_right positive (Nat.add_left_cancel same)
      omega
    rw [if_neg other] at done
    obtain ⟨tmp, tmpRead, done⟩ := bind_eq_ok.mp done
    obtain ⟨lastRow, lastRead, done⟩ := bind_eq_ok.mp done
    obtain ⟨swapped, first, second⟩ := bind_eq_ok.mp done
    obtain ⟨_, rfl⟩ := readRange_eq_ok.mp tmpRead
    obtain ⟨fits, rfl⟩ := readRange_eq_ok.mp lastRead
    have moved : entry = slice modified
        (program.phoff + idx * program.width.phdrSize) program.width.phdrSize := by
      have here := rowOf idx row
      rw [List.getElem?_set_self (by omega)] at here
      exact Option.some.inj here
    have final := rowOf (program.phnum - 1) (by omega)
    rw [List.getElem?_set_ne (by omega)] at final
    rw [← moved] at second
    have one := held.overwrite inside row (length_slice fits) first
    have two := one.overwrite inside (Nat.sub_lt (by omega) Nat.one_pos) whole second
    rw [List.set_set] at two
    rw [moveLast_of_lt (by omega) (by rw [size]; exact final), size]
    exact two

/-! ### The blob -/

theorem overwrite_drop {file bytes out : Bytes} {pos : Nat} (done : overwrite file bytes pos = .ok out)
    {tail : Nat} (before : pos + bytes.length ≤ tail) :
    out.length = file.length ∧ out.drop tail = file.drop tail := by
  obtain ⟨fits, rfl⟩ := overwrite_eq_ok.mp done
  refine ⟨length_writeAt fits, ?_⟩
  apply List.ext_getElem?
  intro i
  rw [List.getElem?_drop, List.getElem?_drop, getElem?_writeAt (by omega), if_neg (by omega)]

/-- The patched instruction lies before the twentieth byte. -/
theorem patchTrampoline_drop {machine metadata : Nat} {blob out : Bytes}
    (done : patchTrampoline machine blob metadata = .ok out) {tail : Nat} (before : 20 ≤ tail) :
    out.length = blob.length ∧ out.drop tail = blob.drop tail := by
  rw [patchTrampoline] at done
  split at done
  · refine overwrite_drop done ?_
    rw [length_leBytes, x86_64MetadataLeaDispOffset]
    omega
  · split at done
    · rw [patchAarch64Adr] at done
      split at done
      · cases done
      · obtain ⟨insn, _, done⟩ := bind_eq_ok.mp done
        refine overwrite_drop done ?_
        rw [length_leBytes, aarch64MetadataAdrOffset]
        omega
    · refine overwrite_drop done ?_
      rw [length_leBytes, i686MetadataAddDispOffset]
      omega

theorem padTo_length {unit : Nat} (positive : 0 < unit) (bytes : Bytes) :
    unit ∣ (padTo unit bytes).length ∧ bytes.length ≤ (padTo unit bytes).length ∧
      (padTo unit bytes).length < bytes.length + unit := by
  have size : (padTo unit bytes).length =
      bytes.length + (unit - bytes.length % unit) % unit := by
    rw [padTo, List.length_append, List.length_replicate]
  have short := Nat.mod_lt (unit - bytes.length % unit) positive
  refine ⟨?_, by omega, by omega⟩
  have low := Nat.mod_lt bytes.length positive
  rw [size, Nat.dvd_iff_mod_eq_zero]
  calc
    (bytes.length + (unit - bytes.length % unit) % unit) % unit
      = (bytes.length % unit + (unit - bytes.length % unit)) % unit := by
        rw [Nat.add_mod_mod, Nat.mod_add_mod]
    _ = unit % unit := by rw [Nat.add_sub_of_le (Nat.le_of_lt low)]
    _ = 0 := Nat.mod_self unit

theorem long_metadata (bootstrap : Bootstrap) : 20 ≤ metadataOffset bootstrap.code := by
  have padded := (padTo_length (by decide : 0 < 8) bootstrap.code).2.1
  have long := bootstrap.long
  rw [metadataOffset]
  omega

/-- A blob ends with the delta, the length of the path, the path and a NUL. -/
theorem blob_eq {site : Site} {bootstrap : Bootstrap} {rel out : Bytes}
    (done : site.blob bootstrap.code rel = .ok out) :
    ∃ code, code.length = metadataOffset bootstrap.code ∧
      out = code ++ leBytes site.width.addr (site.elf.entry + 2 ^ 64 - site.newVaddr) ++
        (leBytes 2 rel.length ++ rel) ++ [0] := by
  obtain ⟨length, rest⟩ := patchTrampoline_drop done (long_metadata bootstrap)
  refine ⟨out.take (metadataOffset bootstrap.code), ?_, ?_⟩
  · rw [List.length_take, length]
    simp only [blobOf, List.length_append, metadataOffset]
    omega
  · conv => lhs; rw [← List.take_append_drop (metadataOffset bootstrap.code) out, rest]
    simp only [blobOf, List.append_assoc, List.append_cancel_left_eq]
    exact List.drop_left' rfl

/-! ### The file written -/

/-- The header that takes the place of `PT_INTERP`. -/
def Executable.segment (program : Executable) (blob : Bytes) : ProgramHeader :=
  (program.site [] 0).segment (padTo program.page program.bytes).length blob.length

/-- What an injection leaves. -/
structure Written (program : Executable) (idx : Nat) (blob out : Bytes) : Prop where
  headers : ∀ names, (Elf.read program.width out names).programHeaders =
    moveLast program.headers idx ((program.segment blob).cut program.width)
  entry : ∀ names, (Elf.read program.width out names).entry =
    program.newVaddr % 256 ^ program.width.addr
  length : out.length = (padTo program.page program.bytes).length + blob.length
  elsewhere : ∀ i, ¬ program.Rewritable i →
    out[i]? = (padTo program.page program.bytes ++ blob)[i]?

theorem Executable.header_before (program : Executable) :
    entryAt + program.width.addr ≤ program.width.phoffAt ∧
      program.width.phoffAt + program.width.addr ≤ program.phoff ∧
      program.width.phnumAt + 2 ≤ program.phoff ∧
      entryAt + program.width.addr ≤ program.width.phnumAt := by
  have apart : program.width.headerSize ≤ program.phoff := program.apart
  cases width : program.width <;> rw [width] at apart <;>
    simp only [Width.headerSize, Width.phoffAt, Width.phnumAt, Width.addr, entryAt] at apart ⊢ <;>
    omega

theorem Executable.interp_row {program : Executable} {idx : Nat}
    (found : program.headers.findIdx? ProgramHeader.isInterp = some idx) : idx < program.phnum := by
  have short := (List.findIdx?_eq_some_iff_getElem.mp found).1
  rwa [Executable.headers, List.length_map, Executable.table, length_rows] at short

theorem page_pos (program : Executable) : 0 < program.page := by
  rw [Executable.page, bootstrapPageAlign]
  split <;> decide

theorem inject_written {program : Executable} {names : List (Option Bytes)} {idx : Nat}
    {code rel out : Bytes}
    (found : program.headers.findIdx? ProgramHeader.isInterp = some idx)
    (done : (program.site names idx).inject code program.bytes rel = .ok out) :
    ∃ blob, (program.site names idx).blob code rel = .ok blob ∧ Written program idx blob out := by
  have row := Executable.interp_row found
  obtain ⟨blob, carried, done⟩ := bind_eq_ok.mp done
  obtain ⟨first, overwritten, done⟩ := bind_eq_ok.mp done
  obtain ⟨second, swapped, done⟩ := bind_eq_ok.mp done
  refine ⟨blob, carried, ?_⟩
  have padded := (padTo_length (page_pos program) program.bytes).2.1
  have inside : program.tableEnd ≤ program.bytes.length := program.inside
  have header := program.header_before
  have fieldOf {start len : Nat} (within : start + len ≤ program.bytes.length) :
      slice (padTo program.page program.bytes ++ blob) start len =
        slice program.bytes start len := by
    rw [padTo, List.append_assoc, slice_append_left within]
  have baseTable : rows (padTo program.page program.bytes ++ blob) program.phoff
      program.width.phdrSize program.phnum = program.table := by
    rw [padTo, List.append_assoc, rows_append inside]
    rfl
  have length : program.tableEnd ≤ (padTo program.page program.bytes ++ blob).length := by
    rw [List.length_append]
    omega
  have unchanged : Retabled program (padTo program.page program.bytes ++ blob)
      (padTo program.page program.bytes ++ blob) program.table := ⟨rfl, baseTable, fun i _ => rfl⟩
  have place : (program.site names idx).rowAt idx =
      program.phoff + idx * program.width.phdrSize := by
    rw [← program.rowSize]
    rfl
  have whole := ProgramHeader.length_write program.width (program.segment blob)
  rw [show (program.site names idx).phdrIdx = idx from rfl, place] at overwritten
  have one := unchanged.overwrite length row whole overwritten
  have size : program.table.length = program.phnum := length_rows _ _ _ _
  have tableEnd : program.phoff ≤ program.tableEnd := Nat.le_add_right _ _
  have count : fieldAt (padTo program.page program.bytes ++ blob) program.width.phnumAt 2 =
      program.phnum := by
    rw [fieldAt, fieldOf (by omega)]
    rfl
  have two := swapLast_retabled length row whole size count one swapped
  obtain ⟨fits, rfl⟩ := overwrite_eq_ok.mp done
  have entrySize := length_leBytes program.width.addr program.newVaddr
  change entryAt + (leBytes program.width.addr program.newVaddr).length ≤ second.length at fits
  change Written program idx blob
    (writeAt second (leBytes program.width.addr program.newVaddr) entryAt)
  have headerField {start len : Nat} (after : entryAt + program.width.addr ≤ start)
      (before : start + len ≤ program.phoff) :
      fieldAt (writeAt second (leBytes program.width.addr program.newVaddr) entryAt) start len =
        fieldAt program.bytes start len := by
    rw [fieldAt, slice_writeAt_apart (by omega) (by omega), two.field (Or.inl before),
      fieldOf (by omega), fieldAt]
  have phoff : fieldAt (writeAt second (leBytes program.width.addr program.newVaddr) entryAt)
      program.width.phoffAt program.width.addr = program.phoff :=
    headerField header.1 header.2.1
  have phnum : fieldAt (writeAt second (leBytes program.width.addr program.newVaddr) entryAt)
      program.width.phnumAt 2 = program.phnum :=
    headerField header.2.2.2 header.2.2.1
  constructor
  · intro names
    rw [Elf.read, phoff, phnum, rows_writeAt_apart (by omega) (by omega), two.rows, map_moveLast,
      ProgramHeader.read_write]
    rfl
  · intro names
    have self := slice_writeAt_self fits
    rw [entrySize] at self
    rw [Elf.read]
    dsimp only
    rw [fieldAt, self, ofLeBytes_leBytes_mod]
  · rw [length_writeAt fits, two.length, List.length_append]
  · intro i outside
    rw [Executable.Rewritable] at outside
    rw [getElem?_writeAt (by omega), if_neg (by omega)]
    exact two.elsewhere i (by omega)

/-! ### Addresses -/

theorem page_dvd (program : Executable) : program.page ∣ 2 ^ 32 ∧ program.page ∣ 2 ^ 64 := by
  rw [Executable.page, bootstrapPageAlign]
  split <;> decide

theorem page_dvd_addr (program : Executable) : program.page ∣ 256 ^ program.width.addr := by
  have powers := page_dvd program
  cases program.width with
  | narrow => exact powers.1
  | wide => exact powers.2

theorem page_small (program : Executable) : program.page < 256 ^ program.width.addr := by
  have short : program.page < 2 ^ 32 := by
    rw [Executable.page, bootstrapPageAlign]
    split <;> decide
  refine Nat.lt_of_lt_of_le short ?_
  cases program.width <;> decide

theorem addr_le (width : Width) : 256 ^ width.addr ≤ 2 ^ 64 := by
  cases width <;> decide

/-- A multiple of a divisor of a bound that lies below it has room for one more. -/
theorem add_le_of_dvd {unit n bound : Nat} (multiple : unit ∣ n) (whole : unit ∣ bound)
    (below : n < bound) : n + unit ≤ bound := by
  obtain ⟨k, rfl⟩ := multiple
  obtain ⟨m, rfl⟩ := whole
  have fewer : k + 1 ≤ m := Nat.lt_of_mul_lt_mul_left below
  calc
    unit * k + unit = unit * (k + 1) := (Nat.mul_succ unit k).symm
    _ ≤ unit * m := Nat.mul_le_mul_left unit fewer

theorem dvd_alignVaddr (highest page : Nat) : page ∣ alignVaddr highest page :=
  Nat.dvd_mul_left page _

theorem alignVaddr_spec {highest page : Nat} (positive : 0 < page)
    (room : highest + page ≤ 2 ^ 64) :
    highest ≤ alignVaddr highest page ∧ alignVaddr highest page < highest + page := by
  have small : (highest + page - 1) % 2 ^ 64 = highest + page - 1 := Nat.mod_eq_of_lt (by omega)
  have split := Nat.div_add_mod' (highest + page - 1) page
  have short := Nat.mod_lt (highest + page - 1) positive
  rw [alignVaddr, small]
  omega

theorem highestVend_le {headers : List ProgramHeader} {bound : Nat} :
    highestVend headers ≤ bound ↔
      ∀ header ∈ headers.filter ProgramHeader.isLoad, header.vend % 2 ^ 64 ≤ bound := by
  rw [highestVend]
  generalize headers.filter ProgramHeader.isLoad = loads
  cases highest : (loads.map fun header => header.vend % 2 ^ 64).max? with
  | none =>
      rw [List.max?_eq_none_iff, List.map_eq_nil_iff] at highest
      simp [highest]
  | some value =>
      obtain ⟨member, above⟩ := List.max?_eq_some_iff.mp highest
      rw [Option.getD_some]
      constructor
      · intro below header loaded
        exact Nat.le_trans (above _ (List.mem_map_of_mem loaded)) below
      · intro all
        obtain ⟨header, loaded, rfl⟩ := List.mem_map.mp member
        exact all header loaded

namespace Executable
variable (program : Executable)

/-- Every loaded segment, rounded up to a page, ends below the last address. -/
def Room : Prop := ∀ old ∈ program.loads, old.vend + program.page ≤ 256 ^ program.width.addr

/-- An empty loaded segment that begins on a page does not end the image. -/
def Bare : Prop :=
  ∀ old ∈ program.loads, old.memsz = 0 → program.page ∣ old.vaddr →
    ∃ other ∈ program.loads, old.vaddr < other.vend

end Executable

theorem newVaddr_spec {program : Executable} (room : program.Room) :
    program.newVaddr < 256 ^ program.width.addr ∧
      (∀ old ∈ program.loads, old.vend ≤ program.newVaddr) ∧
      ∀ place, program.page ∣ place → (∀ old ∈ program.loads, old.vend ≤ place) →
        program.newVaddr ≤ place := by
  have positive := page_pos program
  have small := page_small program
  have words := addr_le program.width
  have unwrapped (old : ProgramHeader) (member : old ∈ program.loads) :
      old.vend % 2 ^ 64 = old.vend := by
    have bound := room old member
    exact Nat.mod_eq_of_lt (by omega)
  have highest : highestVend program.headers ≤ 256 ^ program.width.addr - program.page := by
    apply highestVend_le.mpr
    intro old member
    rw [unwrapped old member]
    have bound := room old member
    omega
  have aligned := alignVaddr_spec positive (Nat.le_trans (by omega) words :
    highestVend program.headers + program.page ≤ 2 ^ 64)
  have lowest (place : Nat) (multiple : program.page ∣ place)
      (above : highestVend program.headers ≤ place) : program.newVaddr ≤ place := by
    by_contra beyond
    have apart := add_le_of_dvd multiple (dvd_alignVaddr (highestVend program.headers) program.page)
      (by rw [Executable.newVaddr] at beyond; omega)
    omega
  refine ⟨?_, ?_, ?_⟩
  · have top : program.page ∣ 256 ^ program.width.addr - program.page :=
      Nat.dvd_sub (page_dvd_addr program) (Nat.dvd_refl _)
    have below := lowest _ top highest
    omega
  · intro old member
    have below := highestVend_le.mp aligned.1 old member
    rwa [unwrapped old member] at below
  · intro place multiple above
    apply lowest place multiple
    apply highestVend_le.mpr
    intro old member
    rw [unwrapped old member]
    exact above old member

/-- The address of a header that was cut to its width is past all segments exactly where there is
room for it and no empty segment already begins there. -/
theorem past_memory_iff (program : Executable) :
    (∀ old ∈ program.loads, old.vaddr < program.newVaddr % 256 ^ program.width.addr ∧
      old.vend ≤ program.newVaddr % 256 ^ program.width.addr) ↔ program.Room ∧ program.Bare := by
  have multiple : program.page ∣ program.newVaddr % 256 ^ program.width.addr :=
    (Nat.dvd_mod_iff (page_dvd_addr program)).mpr (dvd_alignVaddr _ _)
  have positive : 0 < 256 ^ program.width.addr := Nat.pow_pos (by decide)
  constructor
  · intro past
    have room : program.Room := by
      intro old member
      have top := add_le_of_dvd multiple (page_dvd_addr program)
        (Nat.mod_lt program.newVaddr positive)
      have below := (past old member).2
      omega
    refine ⟨room, ?_⟩
    intro old member empty aligned
    by_contra alone
    push Not at alone
    obtain ⟨small, _, lowest⟩ := newVaddr_spec room
    have below := lowest old.vaddr aligned alone
    have above := (past old member).1
    rw [Nat.mod_eq_of_lt small] at above
    omega
  · rintro ⟨room, bare⟩ old member
    obtain ⟨small, above, _⟩ := newVaddr_spec room
    rw [Nat.mod_eq_of_lt small] at multiple ⊢
    refine ⟨?_, above old member⟩
    by_contra beyond
    have ends := above old member
    have sum : old.vend = old.vaddr + old.memsz := rfl
    have begins : old.vaddr = program.newVaddr := by omega
    obtain ⟨other, loaded, later⟩ := bare old member (by omega) (begins ▸ multiple)
    have bound := above other loaded
    omega

/-! ### The reader -/

/-- The last `len` bytes of a path are themselves a loader's path with their length before them,
the length of the whole path included. -/
def Shadowed (rel : Bytes) (len : Nat) : Prop :=
  fieldAt (leBytes 2 rel.length ++ rel) (rel.length - len) 2 = len ∧
    validUtf8 (rel.drop (rel.length - len)) = true ∧
      namesLoader (rel.drop (rel.length - len)) = true

instance (rel : Bytes) (len : Nat) : Decidable (Shadowed rel len) :=
  inferInstanceAs (Decidable (_ ∧ _ ∧ _))

/-- A path that is found again behind its length. -/
structure Recoverable (rel : Bytes) : Prop where
  some : 0 < rel.length
  limit : rel.length ≤ 4096
  bare : (0 : UInt8) ∉ rel
  loader : namesLoader rel = true
  alone : ∀ len, 0 < len → len < rel.length → ¬ Shadowed rel len

theorem recordedAt_append (front : Bytes) {tail : Bytes} {len : Nat}
    (short : len + 2 ≤ tail.length) : recordedAt (front ++ tail) len = recordedAt tail len := by
  have place : (front ++ tail).length - len - 2 = front.length + (tail.length - len - 2) := by
    rw [List.length_append]
    omega
  have path : (front ++ tail).drop ((front ++ tail).length - len) =
      tail.drop (tail.length - len) := by
    rw [List.drop_append, List.drop_eq_nil_of_le (by rw [List.length_append]; omega),
      List.nil_append, List.length_append]
    congr 1
    omega
  rw [recordedAt, recordedAt, path, place, fieldAt, slice_append_right, fieldAt]

theorem recordedAt_eq_some {body : Bytes} {len : Nat} {text : Text} :
    recordedAt body len = some text ↔
      fieldAt body (body.length - len - 2) 2 = len ∧
        (0 : UInt8) ∉ body.drop (body.length - len) ∧
        text.bytes = body.drop (body.length - len) ∧ namesLoader text.bytes = true := by
  rw [recordedAt]
  split
  · next refused =>
      constructor
      · intro impossible
        cases impossible
      · rintro ⟨size, bare, _⟩
        rcases refused with other | found
        · exact absurd size other
        · exact absurd (List.contains_iff_mem.mp found) bare
  · next accepted =>
      push Not at accepted
      have bare : (0 : UInt8) ∉ body.drop (body.length - len) := fun member =>
        accepted.2 (List.contains_iff_mem.mpr member)
      rw [Option.filter_eq_some_iff, fromUtf8_eq_some]
      constructor
      · rintro ⟨same, named⟩
        exact ⟨accepted.1, bare, same, named⟩
      · rintro ⟨_, _, same, named⟩
        exact ⟨same, named⟩

/-- Behind the length of a path without NULs only its ends can be misread. -/
theorem recordedAt_shadowed {rel : Bytes} (bare : (0 : UInt8) ∉ rel) {len : Nat}
    (short : len < rel.length) :
    recordedAt (leBytes 2 rel.length ++ rel) len = none ↔ ¬ Shadowed rel len := by
  have length : (leBytes 2 rel.length ++ rel).length = rel.length + 2 := by
    rw [List.length_append, length_leBytes]
    omega
  have path : (leBytes 2 rel.length ++ rel).drop
      ((leBytes 2 rel.length ++ rel).length - len) = rel.drop (rel.length - len) := by
    rw [length, List.drop_append, List.drop_eq_nil_of_le (by rw [length_leBytes]; omega),
      List.nil_append, length_leBytes]
    congr 1
    omega
  have place : (leBytes 2 rel.length ++ rel).length - len - 2 = rel.length - len := by omega
  rw [Option.eq_none_iff_forall_ne_some, ← not_exists, not_iff_not]
  simp only [recordedAt_eq_some, path, place]
  constructor
  · rintro ⟨text, size, _, same, named⟩
    exact ⟨size, same ▸ text.valid, same ▸ named⟩
  · rintro ⟨size, valid, named⟩
    exact ⟨⟨_, valid⟩, size, fun member => bare (List.mem_of_mem_drop member), rfl, named⟩

/-- A path is read back from the end of a body exactly where it can be told from everything else
its end might be. -/
theorem recordedPath_iff (front : Bytes) (rel : Text) :
    recordedPath (front ++ (leBytes 2 rel.bytes.length ++ rel.bytes)) = some rel ↔
      Recoverable rel.bytes := by
  have tail : (leBytes 2 rel.bytes.length ++ rel.bytes).length = rel.bytes.length + 2 := by
    rw [List.length_append, length_leBytes]
    omega
  have length : (front ++ (leBytes 2 rel.bytes.length ++ rel.bytes)).length =
      front.length + (rel.bytes.length + 2) := by
    rw [List.length_append, tail]
  have reads {len : Nat} (short : len ≤ rel.bytes.length) :
      recordedAt (front ++ (leBytes 2 rel.bytes.length ++ rel.bytes)) len =
        recordedAt (leBytes 2 rel.bytes.length ++ rel.bytes) len :=
    recordedAt_append front (by omega)
  have all : (leBytes 2 rel.bytes.length ++ rel.bytes).drop
      ((leBytes 2 rel.bytes.length ++ rel.bytes).length - rel.bytes.length) = rel.bytes := by
    rw [tail, Nat.add_sub_cancel_left]
    exact List.drop_left' (length_leBytes 2 _)
  have size : fieldAt (leBytes 2 rel.bytes.length ++ rel.bytes)
      ((leBytes 2 rel.bytes.length ++ rel.bytes).length - rel.bytes.length - 2) 2 =
        rel.bytes.length % 2 ^ 16 := by
    rw [tail, Nat.add_sub_cancel_left, Nat.sub_self, fieldAt_leBytes_append]
    rfl
  rw [recordedPath, findSome?_range'_eq_some]
  constructor
  · rintro ⟨len, positive, below, found, before⟩
    have short : len ≤ (front ++ (leBytes 2 rel.bytes.length ++ rel.bytes)).length := by omega
    have path := (recordedAt_eq_some.mp found).2.2.1
    have same : rel.bytes.length = len := by
      have count := congrArg List.length path
      rw [List.length_drop] at count
      omega
    rw [← same] at found positive below before
    rw [reads (Nat.le_refl _)] at found
    obtain ⟨_, bare, _, named⟩ := recordedAt_eq_some.mp found
    rw [all] at bare
    refine ⟨by omega, by omega, bare, named, fun len some less => ?_⟩
    rw [← recordedAt_shadowed bare less, ← reads (Nat.le_of_lt less)]
    exact before len (by omega) less
  · intro recoverable
    have positive := recoverable.some
    have limit := recoverable.limit
    refine ⟨rel.bytes.length, by omega, by omega, ?_, ?_⟩
    · rw [reads (Nat.le_refl _), recordedAt_eq_some, all, size]
      exact ⟨Nat.mod_eq_of_lt (by omega), recoverable.bare, rfl, recoverable.loader⟩
    · intro len some less
      rw [reads (Nat.le_of_lt less), recordedAt_shadowed recoverable.bare less]
      exact recoverable.alone len some less

/-! ### Injections -/

theorem injectRelativeInterp_eq_some {sections : Sections} {bootstrapBlob : Nat → Option Bootstrap}
    {program : Executable} {rel : Text} {out : Bytes} {bootstrap : Bootstrap}
    (built : bootstrapBlob program.machine = some bootstrap)
    (done : injectRelativeInterp sections bootstrapBlob program.bytes rel = .ok (some out)) :
    ∃ names idx, program.headers.findIdx? ProgramHeader.isInterp = some idx ∧
      (program.site names idx).inject bootstrap.code program.bytes rel.bytes = .ok out := by
  obtain ⟨found, sited, done⟩ := bind_eq_ok.mp done
  cases found with
  | none => cases done
  | some site =>
      obtain ⟨names, idx, rfl, interp⟩ := interpSite_eq_some sited
      have machine : (program.site names idx).elf.machine = program.machine := rfl
      dsimp only at done
      rw [machine, built] at done
      obtain ⟨image, written, same⟩ := bind_eq_ok.mp done
      cases same
      exact ⟨names, idx, interp, written⟩

namespace Executable
variable (program : Executable)

/-- The headers after the first `PT_INTERP`. -/
def afterInterp : List ProgramHeader :=
  program.headers.drop (program.headers.findIdx ProgramHeader.isInterp + 1)

/-- Where the last header is a `PT_LOAD`, every `PT_LOAD` after `PT_INTERP` is like it. -/
def Ordered : Prop :=
  ∀ last ∈ program.headers.getLast?, last.isLoad = true →
    ∀ row ∈ program.afterInterp, row.isLoad = true → row = last

end Executable

theorem loads_moved_iff {program : Executable} {idx : Nat} (blob : Bytes)
    (found : program.headers.findIdx? ProgramHeader.isInterp = some idx) :
    (moveLast program.headers idx ((program.segment blob).cut program.width)).filter
        ProgramHeader.isLoad =
      program.loads ++ [(program.segment blob).cut program.width] ↔ program.Ordered := by
  obtain ⟨short, interp, _⟩ := List.findIdx?_eq_some_iff_getElem.mp found
  have place : program.headers.findIdx ProgramHeader.isInterp = idx := by
    rw [List.findIdx_eq_getD_findIdx?, found, Option.getD_some]
  have here := List.getElem?_eq_getElem short
  have dropped : program.headers[idx].isLoad = false := by
    rw [ProgramHeader.isInterp, beq_iff_eq] at interp
    rw [ProgramHeader.isLoad, interp]
    rfl
  rw [Executable.loads, filter_moveLast_iff here dropped rfl, Executable.Ordered,
    Executable.afterInterp, place]

/-- The segment that carries the bootstrap of a rewritten program. -/
structure Carried (program : Executable) (bootstrap : Bootstrap) (out : Bytes)
    (segment : ProgramHeader) : Prop where
  covers : segment.offset + segment.filesz = out.length ∧ segment.memsz = segment.filesz
  pastFile : program.bytes.length ≤ segment.offset
  pastMemory : ∀ old ∈ program.loads, old.vaddr < segment.vaddr ∧ old.vend ≤ segment.vaddr
  congruent : segment.offset % segment.align = segment.vaddr % segment.align
  entered : fieldAt out entryAt program.width.addr = segment.vaddr
  returns : (fieldAt out (segment.offset + metadataOffset bootstrap.code) program.width.addr +
    segment.vaddr) % 256 ^ program.width.addr = program.entry

/-- A rewritten program that loads as before and enters its bootstrap, whose path is read back. -/
structure Faithful (program : Executable) (bootstrap : Bootstrap) (rel : Text) (out : Bytes) :
    Prop where
  frame : ∀ i < program.bytes.length, ¬ program.Rewritable i → out[i]? = program.bytes[i]?
  segments : ∃ segment,
    (Elf.read program.width out []).programHeaders.filter ProgramHeader.isLoad =
        program.loads ++ [segment] ∧
      Carried program bootstrap out segment
  recovered : ∀ names, injectedInterp out (Elf.read program.width out names) = some rel

/-- What an injection asks of a program and of a path. -/
structure Injectable (program : Executable) (rel : Text) : Prop where
  ordered : program.Ordered
  room : program.Room
  bare : program.Bare
  short : program.bytes.length + program.page ≤ 256 ^ program.width.addr
  recoverable : Recoverable rel.bytes

theorem recordedPath_length {body : Bytes} {text : Text} (found : recordedPath body = some text) :
    text.bytes.length ≤ 4096 := by
  obtain ⟨len, _, below, here, _⟩ := findSome?_range'_eq_some.mp found
  have path := congrArg List.length (recordedAt_eq_some.mp here).2.2.1
  rw [List.length_drop] at path
  omega

theorem injectedInterp_length {data : Bytes} {elf : Elf} {text : Text}
    (found : injectedInterp data elf = some text) : text.bytes.length ≤ 4096 := by
  obtain ⟨segment, _, found⟩ := Option.bind_eq_some_iff.mp found
  split at found
  · split at found
    · exact recordedPath_length found
    · cases found
  · cases found

theorem padded_short_iff (program : Executable) :
    program.bytes.length ≤
        (padTo program.page program.bytes).length % 256 ^ program.width.addr ↔
      program.bytes.length + program.page ≤ 256 ^ program.width.addr := by
  obtain ⟨multiple, above, below⟩ := padTo_length (page_pos program) program.bytes
  constructor
  · intro reached
    have bound := Nat.mod_lt (padTo program.page program.bytes).length
      (Nat.pow_pos (by decide) : 0 < 256 ^ program.width.addr)
    have aligned := (Nat.dvd_mod_iff (page_dvd_addr program)).mpr multiple
    have top := add_le_of_dvd aligned (page_dvd_addr program) bound
    omega
  · intro short
    rw [Nat.mod_eq_of_lt (by omega)]
    exact above

section Written
variable {program : Executable} {idx : Nat} {blob out : Bytes}

theorem Written.slice (written : Written program idx blob out) (start len : Nat) :
    slice out ((padTo program.page program.bytes).length + start) len = slice blob start len := by
  have padded := (padTo_length (page_pos program) program.bytes).2.1
  have inside : program.tableEnd ≤ program.bytes.length := program.inside
  have header := program.header_before
  have tableEnd : program.phoff ≤ program.tableEnd := Nat.le_add_right _ _
  rw [← slice_append_right (padTo program.page program.bytes) blob start len]
  apply List.ext_getElem?
  intro i
  rw [getElem?_slice, getElem?_slice]
  by_cases short : i < len
  · rw [if_pos short, if_pos short]
    apply written.elsewhere
    rw [Executable.Rewritable]
    omega
  · rw [if_neg short, if_neg short]

theorem Written.frame (written : Written program idx blob out) :
    ∀ i < program.bytes.length, ¬ program.Rewritable i → out[i]? = program.bytes[i]? := by
  intro i within outside
  rw [written.elsewhere i outside, padTo, List.append_assoc, List.getElem?_append_left within]

theorem newVaddr_le (program : Executable) : program.newVaddr ≤ 2 ^ 64 := by
  rw [Executable.newVaddr, alignVaddr]
  exact Nat.le_trans (Nat.div_mul_le_self _ _) (Nat.le_of_lt (Nat.mod_lt _ (by decide)))

theorem entry_lt (program : Executable) : program.entry < 256 ^ program.width.addr := by
  have bound := ofLeBytes_lt (Lib.slice program.bytes entryAt program.width.addr)
  refine Nat.lt_of_lt_of_le bound (Nat.pow_le_pow_right (by decide) ?_)
  rw [Lib.slice, List.length_take]
  exact Nat.min_le_left _ _

/-- The stored delta leads from the new entry to the old one. -/
theorem delta_returns (program : Executable) :
    ((program.entry + 2 ^ 64 - program.newVaddr) % 256 ^ program.width.addr +
      program.newVaddr % 256 ^ program.width.addr) % 256 ^ program.width.addr =
        program.entry := by
  have whole : 256 ^ program.width.addr ∣ 2 ^ 64 := by cases program.width <;> decide
  have above := newVaddr_le program
  calc
    _ = (program.entry + 2 ^ 64 - program.newVaddr + program.newVaddr) %
        256 ^ program.width.addr := (Nat.add_mod _ _ _).symm
    _ = (program.entry + 2 ^ 64) % 256 ^ program.width.addr := by
        rw [Nat.sub_add_cancel (by omega)]
    _ = program.entry % 256 ^ program.width.addr := by
        rw [Nat.add_mod, Nat.mod_eq_zero_of_dvd whole, Nat.add_zero, Nat.mod_mod]
    _ = program.entry := Nat.mod_eq_of_lt (entry_lt program)

theorem Written.carried (written : Written program idx blob out) {bootstrap : Bootstrap}
    {code rest : Bytes} (codeLength : code.length = metadataOffset bootstrap.code)
    (ends : blob = code ++ leBytes program.width.addr
      (program.entry + 2 ^ 64 - program.newVaddr) ++ rest)
    (fits : blob.length < 256 ^ program.width.addr)
    (short : program.bytes.length + program.page ≤ 256 ^ program.width.addr)
    (past : ∀ old ∈ program.loads, old.vaddr < program.newVaddr % 256 ^ program.width.addr ∧
      old.vend ≤ program.newVaddr % 256 ^ program.width.addr) :
    Carried program bootstrap out ((program.segment blob).cut program.width) := by
  obtain ⟨multiple, _, padded⟩ := padTo_length (page_pos program) program.bytes
  have offset : ((program.segment blob).cut program.width).offset =
      (padTo program.page program.bytes).length := Nat.mod_eq_of_lt (by
        change (padTo program.page program.bytes).length < _
        omega)
  have filesz : ((program.segment blob).cut program.width).filesz = blob.length :=
    Nat.mod_eq_of_lt fits
  have align : ((program.segment blob).cut program.width).align = program.page :=
    Nat.mod_eq_of_lt (page_small program)
  have vaddr : program.page ∣ ((program.segment blob).cut program.width).vaddr :=
    (Nat.dvd_mod_iff (page_dvd_addr program)).mpr (dvd_alignVaddr _ _)
  constructor
  · rw [offset, filesz]
    exact ⟨written.length.symm, filesz⟩
  · exact (padded_short_iff program).mpr short
  · exact past
  · rw [align, offset, Nat.mod_eq_zero_of_dvd multiple, Nat.mod_eq_zero_of_dvd vaddr]
  · exact written.entry []
  · have delta : fieldAt out ((padTo program.page program.bytes).length +
        metadataOffset bootstrap.code) program.width.addr =
        (program.entry + 2 ^ 64 - program.newVaddr) % 256 ^ program.width.addr := by
      rw [fieldAt, written.slice, ends, List.append_assoc, ← codeLength]
      have skipped := slice_append_right code (leBytes program.width.addr
        (program.entry + 2 ^ 64 - program.newVaddr) ++ rest) 0 program.width.addr
      rw [Nat.add_zero] at skipped
      rw [skipped]
      exact fieldAt_leBytes_append _ _ rest
    rw [offset, delta]
    exact delta_returns program

/-- The reader finds the segment by the entry and reads the end of the blob. -/
theorem Written.injectedInterp (written : Written program idx blob out) {body : Bytes}
    (ends : blob = body ++ [0]) (fits : blob.length < 256 ^ program.width.addr)
    (short : program.bytes.length + program.page ≤ 256 ^ program.width.addr)
    (loads : (moveLast program.headers idx ((program.segment blob).cut program.width)).filter
      ProgramHeader.isLoad = program.loads ++ [(program.segment blob).cut program.width])
    (past : ∀ old ∈ program.loads,
      old.vaddr < program.newVaddr % 256 ^ program.width.addr)
    (names : List (Option Bytes)) :
    injectedInterp out (Elf.read program.width out names) = recordedPath body := by
  have found : (Elf.read program.width out names).programHeaders.find?
      (fun header => header.isLoad &&
        header.vaddr == (Elf.read program.width out names).entry) =
      some ((program.segment blob).cut program.width) := by
    rw [written.headers, written.entry]
    have filtered : (program.loads ++ [(program.segment blob).cut program.width]).find?
        (fun header => header.vaddr == program.newVaddr % 256 ^ program.width.addr) =
        _ := loads ▸ List.find?_filter
    simp only [Bool.decide_and, Bool.decide_eq_true] at filtered
    have none : program.loads.find? (fun header =>
        header.vaddr == program.newVaddr % 256 ^ program.width.addr) = none := by
      rw [List.find?_eq_none]
      intro old member same
      have below := past old member
      rw [beq_iff_eq] at same
      omega
    rw [← filtered, List.find?_append, none, Option.none_or]
    exact List.find?_cons_of_pos (beq_self_eq_true _)
  have padded := (padTo_length (page_pos program) program.bytes).2.2
  have offset : ((program.segment blob).cut program.width).offset =
      (padTo program.page program.bytes).length := Nat.mod_eq_of_lt (by
        change (padTo program.page program.bytes).length < _
        omega)
  have filesz : ((program.segment blob).cut program.width).filesz = blob.length :=
    Nat.mod_eq_of_lt fits
  have content : Lib.slice out (padTo program.page program.bytes).length blob.length = blob := by
    have all := written.slice 0 blob.length
    rwa [Nat.add_zero, slice_all] at all
  rw [Bundle.injectedInterp, found, Option.bind_some, offset, filesz, content,
    if_pos (Nat.le_of_eq written.length.symm), ends, List.getLast?_concat, List.dropLast_concat]
  rfl

end Written

/-- What the injection writes loads as before, enters its bootstrap and is read back exactly where
the program and the path are fit for it. -/
theorem injection_faithful_iff (sections : Sections) (bootstrapBlob : Nat → Option Bootstrap)
    (program : Executable) (rel : Text) {bootstrap : Bootstrap}
    (built : bootstrapBlob program.machine = some bootstrap) {out : Bytes}
    (done : injectRelativeInterp sections bootstrapBlob program.bytes rel = .ok (some out)) :
    Faithful program bootstrap rel out ↔ Injectable program rel := by
  obtain ⟨names, idx, interp, injected⟩ := injectRelativeInterp_eq_some built done
  obtain ⟨blob, carried, written⟩ := inject_written interp injected
  obtain ⟨code, codeLength, ends⟩ := blob_eq carried
  have moved := (loads_moved_iff blob interp)
  have small : blob.length < metadataOffset bootstrap.code + rel.bytes.length + 16 := by
    have narrow : program.width.addr ≤ 8 := by cases program.width <;> decide
    have site : (program.site names idx).width.addr = program.width.addr := rfl
    have length := congrArg List.length ends
    simp only [List.length_append, length_leBytes, List.length_singleton, codeLength, site]
      at length
    omega
  have codeSmall := (padTo_length (by decide : 0 < 8) bootstrap.code).2.2
  have codeShort := bootstrap.short
  have words : 2 ^ 32 ≤ 256 ^ program.width.addr := by cases program.width <;> decide
  have fits (limit : rel.bytes.length ≤ 4096) : blob.length < 256 ^ program.width.addr := by
    rw [metadataOffset] at small
    omega
  constructor
  · intro faithful
    obtain ⟨segment, loads, carries⟩ := faithful.segments
    rw [written.headers] at loads
    have last : segment = (program.segment blob).cut program.width := by
      obtain ⟨others, concat⟩ := moveLast_concat
        (List.findIdx?_eq_some_iff_getElem.mp interp).1
        ((program.segment blob).cut program.width)
      rw [concat, List.filter_append] at loads
      exact (List.cons.inj (List.append_inj_right' loads rfl)).1.symm
    subst last
    have past := (past_memory_iff program).mp carries.pastMemory
    have short := (padded_short_iff program).mp carries.pastFile
    have recovered := faithful.recovered []
    have limit := injectedInterp_length recovered
    rw [written.injectedInterp ends (fits limit) short loads
      (fun old member => (carries.pastMemory old member).1), recordedPath_iff] at recovered
    exact ⟨moved.mp loads, past.1, past.2, short, recovered⟩
  · intro injectable
    have loads := moved.mpr injectable.ordered
    have past := (past_memory_iff program).mpr ⟨injectable.room, injectable.bare⟩
    have fit := fits injectable.recoverable.limit
    have short := injectable.short
    refine ⟨written.frame, ⟨_, (written.headers []).symm ▸ loads, ?_⟩, ?_⟩
    · rw [List.append_assoc] at ends
      exact written.carried codeLength ends fit short past
    · intro names
      rw [written.injectedInterp ends fit short loads (fun old member => (past old member).1),
        recordedPath_iff]
      exact injectable.recoverable

/-! ### Two programs -/

def wideIdent : Bytes := [0x7f, 0x45, 0x4c, 0x46, 2, 1, 1, 0, 0, 0, 0, 0, 0, 0, 0, 0]

/-- A little-endian x86-64 file that is its ELF header and its program headers. -/
def wideImage (entry : Nat) (headers : List ProgramHeader) : Bytes :=
  wideIdent ++ (leBytes 2 3 ++ (leBytes 2 emX86_64 ++ (leBytes 4 1 ++ (leBytes 8 entry ++
    (leBytes 8 64 ++ (leBytes 8 0 ++ (leBytes 4 0 ++ (leBytes 2 64 ++ (leBytes 2 56 ++
      (leBytes 2 headers.length ++ (leBytes 2 64 ++ (leBytes 2 0 ++ (leBytes 2 0 ++
        headers.flatMap (ProgramHeader.write .wide))))))))))))))

def interpHeader : ProgramHeader := ⟨ptInterp, 4, 0, 0, 0, 28, 28, 1⟩
def lowLoad : ProgramHeader := ⟨ptLoad, 5, 0, 0, 0, 232, 232, 0x1000⟩
def highLoad : ProgramHeader := ⟨ptLoad, 6, 0, 0x1000, 0x1000, 16, 32, 0x1000⟩
def noteHeader : ProgramHeader := ⟨4, 4, 0, 0, 0, 16, 16, 4⟩

/-- The trampoline up to the call of the bootstrap. -/
def trampoline : Bytes :=
  [0x48, 0x89, 0xe5, 0x48, 0x83, 0xe4, 0xf0, 0x48, 0x89, 0xef, 0x48, 0x8d, 0x35, 0, 0, 0, 0,
    0x48, 0x89, 0xd3]

theorem trampoline_long : 20 ≤ trampoline.length := by decide

theorem trampoline_short : trampoline.length < 2 ^ 31 := by decide

def wideBootstrap : Bootstrap := ⟨trampoline, trampoline_long, trampoline_short⟩

def onlyWide (machine : Nat) : Option Bootstrap :=
  if machine = emX86_64 then some wideBootstrap else none

theorem loaderPath_valid : validUtf8 (utf8 "../lib/ld-linux-x86-64.so.2") = true := by decide +kernel

def loaderPath : Text := ⟨utf8 "../lib/ld-linux-x86-64.so.2", loaderPath_valid⟩

theorem fieldAt_ident (rest : Bytes) {start : Nat} (later : 16 ≤ start) (len : Nat) :
    fieldAt (wideIdent ++ rest) start len = fieldAt rest (start - 16) len := by
  have skipped := slice_append_right wideIdent rest (start - 16) len
  have size : wideIdent.length = 16 := rfl
  rw [size, Nat.add_sub_of_le later] at skipped
  rw [fieldAt, skipped, fieldAt]

theorem wideImage_class (entry : Nat) (headers : List ProgramHeader) :
    Width.ofClass (fieldAt (wideImage entry headers) 4 1) = some .wide := by
  rw [fieldAt, wideImage, slice_append_left (by decide)]
  rfl

theorem wideImage_fields (entry : Nat) {headers : List ProgramHeader}
    (few : headers.length < 2 ^ 16) :
    fieldAt (wideImage entry headers) 54 2 = 56 ∧ fieldAt (wideImage entry headers) 32 8 = 64 ∧
      fieldAt (wideImage entry headers) 56 2 = headers.length := by
  simp only [wideImage, fieldAt_ident, fieldAt_skip, fieldAt_leBytes_append, Nat.reduceLeDiff,
    Nat.reduceSub]
  exact ⟨rfl, rfl, Nat.mod_eq_of_lt few⟩

theorem wideImage_length (entry : Nat) (headers : List ProgramHeader) :
    (wideImage entry headers).length = 64 + headers.length * 56 := by
  have rows : (headers.flatMap (ProgramHeader.write .wide)).length = headers.length * 56 := by
    induction headers with
    | nil => rfl
    | cons header headers ih =>
        rw [List.flatMap_cons, List.length_append, ih, ProgramHeader.length_write,
          List.length_cons, Nat.succ_mul, Nat.add_comm]
        rfl
  have ident : wideIdent.length = 16 := rfl
  simp only [wideImage, List.length_append, length_leBytes, rows, ident]
  omega

theorem wideImage_inside (entry : Nat) {headers : List ProgramHeader}
    (few : headers.length < 2 ^ 16) :
    fieldAt (wideImage entry headers) Width.wide.phoffAt Width.wide.addr +
        fieldAt (wideImage entry headers) Width.wide.phnumAt 2 * Width.wide.phdrSize ≤
      (wideImage entry headers).length := by
  obtain ⟨_, phoff, phnum⟩ := wideImage_fields entry few
  simp only [Width.phoffAt, Width.addr, Width.phnumAt, Width.phdrSize]
  rw [phoff, phnum, wideImage_length]

theorem wideImage_apart (entry : Nat) {headers : List ProgramHeader}
    (few : headers.length < 2 ^ 16) : Width.wide.headerSize ≤
      fieldAt (wideImage entry headers) Width.wide.phoffAt Width.wide.addr := by
  simp only [Width.phoffAt, Width.addr, Width.headerSize]
  rw [(wideImage_fields entry few).2.1]

def wideProgram (entry : Nat) (headers : List ProgramHeader) (few : headers.length < 2 ^ 16) :
    Executable where
  bytes := wideImage entry headers
  width := .wide
  classed := wideImage_class entry headers
  rowSize := (wideImage_fields entry few).1
  apart := wideImage_apart entry few
  inside := wideImage_inside entry few

theorem two_loads : [interpHeader, lowLoad, highLoad].length < 2 ^ 16 := by decide

/-- A program whose last header is a `PT_LOAD`. -/
def loadsLast : Executable := wideProgram 0x40 [interpHeader, lowLoad, highLoad] two_loads

theorem two_loads_note : [interpHeader, lowLoad, highLoad, noteHeader].length < 2 ^ 16 := by decide

def notesLast : Executable :=
  wideProgram 0x40 [interpHeader, lowLoad, highLoad, noteHeader] two_loads_note

/-- A file without sections. -/
def noSections : Sections := fun _ => some []

/-- The file an injection of the loader's path leaves. -/
def injectedOf (program : Executable) : Bytes :=
  ((injectRelativeInterp noSections onlyWide program.bytes loaderPath).toOption.bind id).getD []

theorem injectedOf_spec {program : Executable}
    (succeeds : ((injectRelativeInterp noSections onlyWide program.bytes loaderPath).toOption.bind
      id).isSome = true) :
    injectRelativeInterp noSections onlyWide program.bytes loaderPath =
      .ok (some (injectedOf program)) := by
  rw [injectedOf]
  cases ran : injectRelativeInterp noSections onlyWide program.bytes loaderPath with
  | error reason =>
      rw [ran] at succeeds
      cases succeeds
  | ok result =>
      cases result with
      | none =>
          rw [ran] at succeeds
          cases succeeds
      | some out => rfl

/-- The last of two loaded segments comes first. -/
theorem injection_reorders :
    injectRelativeInterp noSections onlyWide loadsLast.bytes loaderPath =
        .ok (some (injectedOf loadsLast)) ∧
      ¬ Faithful loadsLast wideBootstrap loaderPath (injectedOf loadsLast) := by
  refine ⟨injectedOf_spec (by decide +kernel), ?_⟩
  rintro ⟨_, ⟨segment, loads, _⟩, _⟩
  have first : ((Elf.read loadsLast.width (injectedOf loadsLast) []).programHeaders.filter
      ProgramHeader.isLoad).head? = some highLoad := by decide +kernel
  have original : loadsLast.loads = [lowLoad, highLoad] := by decide +kernel
  rw [loads, original] at first
  cases first

theorem notesLast_injectable : Injectable notesLast loaderPath := by
  have loads : notesLast.loads = [lowLoad, highLoad] := by decide +kernel
  have page : notesLast.page = 0x1000 := by decide +kernel
  have width : notesLast.width = .wide := rfl
  refine ⟨?_, ?_, ?_, ?_, ?_⟩
  · intro last ends load
    have final : notesLast.headers.getLast? = some noteHeader := by decide +kernel
    rw [final] at ends
    cases ends
    cases load
  · rw [Executable.Room, loads, page, width]
    decide
  · rw [Executable.Bare, loads, page]
    decide
  · rw [page, width]
    decide +kernel
  · refine ⟨by decide +kernel, by decide +kernel, by decide +kernel, by decide +kernel, ?_⟩
    have alone : ∀ len < loaderPath.bytes.length, 0 < len → ¬ Shadowed loaderPath.bytes len := by
      decide +kernel
    exact fun len some less => alone len less some

theorem notesLast_faithful :
    Faithful notesLast wideBootstrap loaderPath (injectedOf notesLast) :=
  (injection_faithful_iff noSections onlyWide notesLast loaderPath rfl
    (injectedOf_spec (by decide +kernel))).mpr notesLast_injectable

end Onelf.Cli.Bundle
