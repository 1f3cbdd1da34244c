import Onelf.Lib.Path
import Onelf.Lib.Rows
import Onelf.Lib.Utf8

/-! ELF files as the bundler reads and rewrites them (`bundle/elf.rs`, `payload.rs`): headers, the
injected bootstrap and its reader. -/

namespace Onelf.Cli.Bundle

open Onelf.Lib

/-! ### Headers -/

inductive Width where
  | narrow
  | wide
  deriving DecidableEq

namespace Width

/-- `e_ident[EI_CLASS]`. -/
def ofClass : Nat → Option Width
  | 1 => some narrow
  | 2 => some wide
  | _ => none

def addr : Width → Nat
  | narrow => 4
  | wide => 8

def headerSize : Width → Nat
  | narrow => 52
  | wide => 64

def phoffAt : Width → Nat
  | narrow => 28
  | wide => 32

def phentsizeAt : Width → Nat
  | narrow => 42
  | wide => 54

def phnumAt : Width → Nat
  | narrow => 44
  | wide => 56

def phdrSize : Width → Nat
  | narrow => 32
  | wide => 56

end Width

def entryAt : Nat := 24

/-- A little-endian field. -/
def fieldAt (bytes : Bytes) (start len : Nat) : Nat := ofLeBytes (slice bytes start len)

@[ext] structure ProgramHeader where
  type : Nat
  flags : Nat
  offset : Nat
  vaddr : Nat
  paddr : Nat
  filesz : Nat
  memsz : Nat
  align : Nat
  deriving DecidableEq

def ptLoad : Nat := 1
def ptInterp : Nat := 3

namespace ProgramHeader

def isLoad (header : ProgramHeader) : Bool := header.type == ptLoad

def isInterp (header : ProgramHeader) : Bool := header.type == ptInterp

def vend (header : ProgramHeader) : Nat := header.vaddr + header.memsz

/-- `p_flags` sits after `p_memsz` in the narrow form. -/
def read : Width → Bytes → ProgramHeader
  | .wide, row =>
      { type := fieldAt row 0 4
        flags := fieldAt row 4 4
        offset := fieldAt row 8 8
        vaddr := fieldAt row 16 8
        paddr := fieldAt row 24 8
        filesz := fieldAt row 32 8
        memsz := fieldAt row 40 8
        align := fieldAt row 48 8 }
  | .narrow, row =>
      { type := fieldAt row 0 4
        offset := fieldAt row 4 4
        vaddr := fieldAt row 8 4
        paddr := fieldAt row 12 4
        filesz := fieldAt row 16 4
        memsz := fieldAt row 20 4
        flags := fieldAt row 24 4
        align := fieldAt row 28 4 }

def write : Width → ProgramHeader → Bytes
  | .wide, header =>
      leBytes 4 header.type ++ leBytes 4 header.flags ++ leBytes 8 header.offset ++
        leBytes 8 header.vaddr ++ leBytes 8 header.paddr ++ leBytes 8 header.filesz ++
          leBytes 8 header.memsz ++ leBytes 8 header.align
  | .narrow, header =>
      leBytes 4 header.type ++ leBytes 4 header.offset ++ leBytes 4 header.vaddr ++
        leBytes 4 header.paddr ++ leBytes 4 header.filesz ++ leBytes 4 header.memsz ++
          leBytes 4 header.flags ++ leBytes 4 header.align

end ProgramHeader

/-- The names goblin gives the sections of a file, or `none` where it refuses the file. -/
abbrev Sections := Bytes → Option (List (Option Bytes))

/-- The parts of `goblin::elf::Elf` that are used here. -/
structure Elf where
  identData : Nat
  identClass : Nat
  machine : Nat
  entry : Nat
  phoff : Nat
  phentsize : Nat
  programHeaders : List ProgramHeader
  sectionNames : List (Option Bytes)

namespace Elf

/-- The fields as they stand in a little-endian file; the callers leave any other alone. The rows
are read at their own size, whatever `e_phentsize` says. -/
def read (width : Width) (data : Bytes) (names : List (Option Bytes)) : Elf :=
  { identData := fieldAt data 5 1
    identClass := fieldAt data 4 1
    machine := fieldAt data 18 2
    entry := fieldAt data entryAt width.addr
    phoff := fieldAt data width.phoffAt width.addr
    phentsize := fieldAt data width.phentsizeAt 2
    programHeaders :=
      (rows data (fieldAt data width.phoffAt width.addr) width.phdrSize
        (fieldAt data width.phnumAt 2)).map (ProgramHeader.read width)
    sectionNames := names }

/-- `goblin::elf::Elf::parse`. -/
def parse (sections : Sections) (data : Bytes) : Option Elf :=
  match Width.ofClass (fieldAt data 4 1) with
  | none => none
  | some width => (sections data).map (read width data)

end Elf

/-! ### Embedded payloads -/

def bunTrailer : Bytes := utf8 "\n---- Bun! ----\n"

def hasSelfExtractTrailer (data : Bytes) : Bool :=
  bunTrailer.isSuffixOf data ||
    (bunTrailer.length + 8 ≤ data.length &&
      slice data (data.length - bunTrailer.length - 8) bunTrailer.length == bunTrailer)

def hasBunSection (sections : Sections) (data : Bytes) : Bool :=
  match Elf.parse sections data with
  | none => false
  | some elf => elf.sectionNames.any (· == some (utf8 ".bun"))

def hasEmbeddedPayload (sections : Sections) (data : Bytes) : Bool :=
  hasSelfExtractTrailer data || hasBunSection sections data

/-! ### The bootstrap -/

def em386 : Nat := 3
def emX86_64 : Nat := 62
def emAArch64 : Nat := 183

/-- The flat binary of one machine. It is long enough for the instruction that is patched, and its
length fits the `i32` of a displacement. -/
structure Bootstrap where
  code : Bytes
  long : 20 ≤ code.length
  short : code.length < 2 ^ 31

inductive Failure where
  | invalidData
  | panic
  deriving DecidableEq

/-- `copy_from_slice` into a range of `file`, which panics outside it. -/
def overwrite (file bytes : Bytes) (pos : Nat) : Except Failure Bytes :=
  if pos + bytes.length ≤ file.length then .ok (writeAt file bytes pos) else .error .panic

def readRange (file : Bytes) (pos len : Nat) : Except Failure Bytes :=
  if pos + len ≤ file.length then .ok (slice file pos len) else .error .panic

def bootstrapPageAlign (isAArch64 : Bool) : Nat := if isAArch64 then 0x10000 else 0x1000

/-- Zeros pushed until the length is a multiple of `unit`. -/
def padTo (unit : Nat) (bytes : Bytes) : Bytes :=
  bytes ++ List.replicate ((unit - bytes.length % unit) % unit) 0

def metadataOffset (code : Bytes) : Nat := (padTo 8 code).length

def x86_64MetadataLeaDispOffset : Nat := 0x0d
def x86_64MetadataLeaRip : Nat := 0x11
def i686MetadataAddPc : Nat := 0x0c
def i686MetadataAddDispOffset : Nat := 0x0f
def aarch64MetadataAdrOffset : Nat := 0x10

/-- The lower bound of the immediate needs no check: no offset lies that far before the code. -/
def patchAarch64Adr (blob : Bytes) (target : Nat) : Except Failure Bytes :=
  if 1048575 + aarch64MetadataAdrOffset < target then .error .panic
  else do
    let off := (target + 2 ^ 32 - aarch64MetadataAdrOffset) % 2 ^ 32
    let immlo := off &&& 0x3
    let immhi := (off >>> 2) &&& 0x7ffff
    let insn := ofLeBytes (← readRange blob aarch64MetadataAdrOffset 4)
    overwrite blob (leBytes 4 ((insn &&& 0x9f00001f) ||| (immlo <<< 29) ||| (immhi <<< 5)))
      aarch64MetadataAdrOffset

def patchTrampoline (machine : Nat) (blob : Bytes) (metadata : Nat) : Except Failure Bytes :=
  if machine = emX86_64 then
    overwrite blob (leBytes 4 (metadata + 2 ^ 32 - x86_64MetadataLeaRip))
      x86_64MetadataLeaDispOffset
  else if machine = emAArch64 then patchAarch64Adr blob metadata
  else
    overwrite blob (leBytes 4 (metadata + 2 ^ 32 - i686MetadataAddPc)) i686MetadataAddDispOffset

/-- `[code] [padding] [entry_delta] [path_len u16] [path NUL]`. -/
def blobOf (width : Width) (code : Bytes) (origEntry newVaddr : Nat) (rel : Bytes) : Bytes :=
  padTo 8 code ++ leBytes width.addr (origEntry + 2 ^ 64 - newVaddr) ++ leBytes 2 rel.length ++
    rel ++ [0]

/-- The ends of the loaded segments are `u64` sums. -/
def highestVend (headers : List ProgramHeader) : Nat :=
  ((headers.filter ProgramHeader.isLoad).map fun header => header.vend % 2 ^ 64).max?.getD 0

/-- The first page boundary from `highest` on, in `u64` arithmetic. -/
def alignVaddr (highest page : Nat) : Nat := (highest + page - 1) % 2 ^ 64 / page * page

/-! ### Injection -/

/-- What the checks of an injection find: the width, the headers and the row of `PT_INTERP`. -/
structure Site where
  width : Width
  elf : Elf
  phdrIdx : Nat

def interpSite (sections : Sections) (data : Bytes) : Except Failure (Option Site) :=
  if hasEmbeddedPayload sections data then .ok none
  else
    match Elf.parse sections data with
    | none => .error .invalidData
    | some elf =>
        if elf.identData ≠ 1 then .ok none
        else
          match Width.ofClass elf.identClass with
          | none => .ok none
          | some width =>
              if elf.machine ≠ emX86_64 ∧ elf.machine ≠ emAArch64 ∧ elf.machine ≠ em386 then .ok none
              else if elf.machine = em386 ↔ width = .wide then .ok none
              else
                match elf.programHeaders.findIdx? ProgramHeader.isInterp with
                | none => .ok none
                | some phdrIdx => .ok (some ⟨width, elf, phdrIdx⟩)

namespace Site
variable (site : Site)

def page : Nat := bootstrapPageAlign (site.elf.machine == emAArch64)

def newVaddr : Nat := alignVaddr (highestVend site.elf.programHeaders) site.page

def blob (code rel : Bytes) : Except Failure Bytes :=
  patchTrampoline site.elf.machine (blobOf site.width code site.elf.entry site.newVaddr rel)
    (metadataOffset code)

/-- The header that replaces `PT_INTERP`: readable and executable. -/
def segment (fileOffset blobLen : Nat) : ProgramHeader :=
  { type := ptLoad
    flags := 5
    offset := fileOffset
    vaddr := site.newVaddr
    paddr := site.newVaddr
    filesz := blobLen
    memsz := blobLen
    align := site.page }

def rowAt (idx : Nat) : Nat := site.elf.phoff + idx * site.elf.phentsize

/-- Exchanges the row of `PT_INTERP` with the last one. -/
def swapLast (modified : Bytes) : Except Failure Bytes := do
  let last := site.rowAt (fieldAt modified site.width.phnumAt 2 - 1)
  if site.rowAt site.phdrIdx = last then .ok modified
  else do
    let tmp ← readRange modified (site.rowAt site.phdrIdx) site.elf.phentsize
    let modified ← overwrite modified (← readRange modified last site.elf.phentsize)
      (site.rowAt site.phdrIdx)
    overwrite modified tmp last

def inject (code data rel : Bytes) : Except Failure Bytes := do
  let blob ← site.blob code rel
  let padded := padTo site.page data
  let modified ← overwrite (padded ++ blob)
    ((site.segment padded.length blob.length).write site.width) (site.rowAt site.phdrIdx)
  let modified ← site.swapLast modified
  overwrite modified (leBytes site.width.addr site.newVaddr) entryAt

end Site

/-- `Ok(true)` leaves the new contents of the file, `Ok(false)` leaves the file alone. -/
def injectRelativeInterp (sections : Sections) (bootstrapBlob : Nat → Option Bootstrap)
    (data : Bytes) (rel : Text) : Except Failure (Option Bytes) := do
  match ← interpSite sections data with
  | none => .ok none
  | some site =>
      match bootstrapBlob site.elf.machine with
      | none => .ok none
      | some bootstrap => return some (← site.inject bootstrap.code data rel.bytes)

/-! ### The reader -/

def isDynamicLoader (soname : Bytes) : Bool :=
  (utf8 "ld-linux").isPrefixOf soname || (utf8 "ld-musl-").isPrefixOf soname ||
    soname == utf8 "ld.so"

/-- The file name of `path` is text and names a loader. -/
def namesLoader (path : Bytes) : Bool :=
  (fileName path).any fun name => validUtf8 name && isDynamicLoader name

/-- The last `len` bytes of `body`, where they are a path recorded with its length before it. -/
def recordedAt (body : Bytes) (len : Nat) : Option Text :=
  let start := body.length - len
  let path := body.drop start
  if fieldAt body (start - 2) 2 ≠ len ∨ path.contains 0 then none
  else (fromUtf8 path).filter fun text => namesLoader text.bytes

def recordedPath (body : Bytes) : Option Text :=
  (List.range' 1 (min (body.length - 2) 4096)).findSome? (recordedAt body)

/-- No range inside a file overflows a `usize`. -/
def injectedInterp (data : Bytes) (elf : Elf) : Option Text :=
  (elf.programHeaders.find? fun header => header.isLoad && header.vaddr == elf.entry).bind
    fun segment =>
      if segment.offset + segment.filesz ≤ data.length then
        match (slice data segment.offset segment.filesz).getLast? with
        | some 0 => recordedPath (slice data segment.offset segment.filesz).dropLast
        | _ => none
      else none

end Onelf.Cli.Bundle
