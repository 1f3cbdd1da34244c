import Onelf.Runtime.Fuse.Rows

/-! Answers as the kernel reads them: entries, attributes and the rows of a listing. -/

namespace Onelf.Runtime.FuseTree

open Onelf.Lib

/-- One entry of a listing as the kernel reads it. -/
structure Dirent where
  /-- With READDIRPLUS the inode and the attributes that follow it. -/
  entry : Option (Nat × Bytes)
  ino : Nat
  off : Nat
  typ : Nat
  name : Bytes

def attrSize : Nat := 88

/-- A `FuseEntryOut`: the inode and its attributes. -/
def readEntryOut : Get (Nat × Bytes) := do
  let nodeid ← Get.number 8
  let _ ← Get.take 32
  let attr ← Get.take attrSize
  pure (nodeid, attr)

/-- A `FuseAttrOut`: the attributes. -/
def readAttrOut : Get Bytes := do
  let _ ← Get.take 16
  Get.take attrSize

def readEntry (plus : Bool) : Get (Option (Nat × Bytes)) :=
  if plus then do
    let entry ← readEntryOut
    pure (some entry)
  else pure none

/-- What pads a row with a name of so many bytes. -/
def padding (plus : Bool) (nameLen : Nat) : Nat :=
  dentSize plus nameLen - ((if plus then entryOutSize else 0) + direntBaseSize + nameLen)

def readFields (plus : Bool) (entry : Option (Nat × Bytes)) : Get Dirent := do
  let ino ← Get.number 8
  let off ← Get.number 8
  let nameLen ← Get.number 4
  let typ ← Get.number 4
  let name ← Get.take nameLen
  let _ ← Get.take (padding plus nameLen)
  pure ⟨entry, ino, off, typ, name⟩

def readDirent (plus : Bool) : Get Dirent := do
  let entry ← readEntry plus
  readFields plus entry

def readDirents (plus : Bool) (payload : Bytes) : List Dirent :=
  Get.records (readDirent plus) payload.length payload

theorem length_attr (attr : FuseAttr) : attr.bytes.length = attrSize := by
  simp only [FuseAttr.bytes, List.length_append, length_leBytes]
  rfl

theorem readEntryOut_takes {attr : FuseAttr} (fits : attr.ino < 256 ^ 8) :
    readEntryOut.Takes (entryOut attr) (attr.ino, attr.bytes) := by
  let middle := leBytes 8 0 ++ leBytes 8 entryTimeout ++ leBytes 8 attrTimeout ++ leBytes 4 0 ++
    leBytes 4 0
  have length : middle.length = 32 := by
    simp only [middle, List.length_append, length_leBytes]
  have read : readEntryOut.Takes (leBytes 8 attr.ino ++ (middle ++ (attr.bytes ++ [])))
      (attr.ino, attr.bytes) :=
    (Get.number_takes fits).bind ((Get.take_takes length).bind
      ((Get.take_takes (length_attr attr)).bind (Get.pure_takes _)))
  simpa only [entryOut, middle, List.append_assoc, List.append_nil] using read

theorem readAttrOut_takes (attr : FuseAttr) : readAttrOut.Takes (attrOut attr) attr.bytes := by
  have lead : (leBytes 8 attrTimeout ++ leBytes 4 0 ++ leBytes 4 0).length = 16 := by
    simp only [List.length_append, length_leBytes]
  exact (Get.take_takes lead).bind (Get.take_takes (length_attr attr))

/-- What the kernel reads of a row. -/
def dirent (plus : Bool) (placed : Nat × Tree.Row) : Dirent where
  entry :=
    if plus then some (match placed.2.attr with
      | some attr => (attr.ino, attr.bytes)
      | none => (0, List.replicate attrSize 0))
    else none
  ino := placed.2.ino
  off := placed.1 + 1
  typ := placed.2.typ
  name := placed.2.name

/-- Fields that fit their widths. -/
structure RowFits (placed : Nat × Tree.Row) : Prop where
  ino : placed.2.ino < 256 ^ 8
  attr : ∀ attr, placed.2.attr = some attr → attr.ino < 256 ^ 8
  off : placed.1 + 1 < 256 ^ 8
  name : placed.2.name.length < 256 ^ 4
  typ : placed.2.typ < 256 ^ 4

theorem readZeroed_takes :
    readEntryOut.Takes (List.replicate entryOutSize 0) (0, List.replicate attrSize 0) := by
  have zeros : (List.replicate entryOutSize 0 : Bytes) =
      leBytes 8 0 ++ (List.replicate 32 0 ++ (List.replicate attrSize 0 ++ [])) := by decide
  rw [zeros]
  exact (Get.number_takes (by decide)).bind ((Get.take_takes (List.length_replicate)).bind
    ((Get.take_takes List.length_replicate).bind (Get.pure_takes _)))

theorem dentSize_le (plus : Bool) (nameLen : Nat) :
    (if plus then entryOutSize else 0) + direntBaseSize + nameLen ≤ dentSize plus nameLen := by
  rw [dentSize]
  cases plus with
  | true => exact le_roundUp (by decide)
  | false =>
      rw [if_neg (by decide), if_neg (by decide), Nat.zero_add]
      exact le_roundUp (by decide)

/-- A row's bytes, part by part. -/
theorem rowBytes_eq (plus : Bool) (i : Nat) (row : Tree.Row) :
    Tree.rowBytes plus (i, row) =
      (if plus then (match row.attr with
        | some attr => entryOut attr
        | none => List.replicate entryOutSize 0) else []) ++
      (leBytes 8 row.ino ++ (leBytes 8 (i + 1) ++ (leBytes 4 row.name.length ++
        (leBytes 4 row.typ ++ (row.name ++
          (List.replicate (padding plus row.name.length) 0 ++ [])))))) := by
  cases held : row.attr <;>
    simp only [Tree.rowBytes, padding, held, List.append_assoc, List.append_nil]

/-- A row is read back as it was written, and no further. -/
theorem readDirent_takes (plus : Bool) {placed : Nat × Tree.Row} (fits : RowFits placed) :
    (readDirent plus).Takes (Tree.rowBytes plus placed) (dirent plus placed) := by
  obtain ⟨i, row⟩ := placed
  have entry : (readEntry plus).Takes (if plus then (match row.attr with
      | some attr => entryOut attr
      | none => List.replicate entryOutSize 0) else []) (dirent plus (i, row)).entry := by
    rw [dirent]
    cases plus with
    | false => exact Get.pure_takes none
    | true =>
        simp only [if_true]
        cases held : row.attr with
        | none =>
            have read : (readEntry true).Takes (List.replicate entryOutSize 0 ++ [])
                (some (0, List.replicate attrSize 0)) := readZeroed_takes.bind (Get.pure_takes _)
            rwa [List.append_nil] at read
        | some attr =>
            have read : (readEntry true).Takes (entryOut attr ++ [])
                (some (attr.ino, attr.bytes)) :=
              (readEntryOut_takes (fits.attr attr held)).bind (Get.pure_takes _)
            rwa [List.append_nil] at read
  rw [rowBytes_eq]
  exact entry.bind ((Get.number_takes fits.ino).bind ((Get.number_takes fits.off).bind
    ((Get.number_takes fits.name).bind ((Get.number_takes fits.typ).bind
      ((Get.take_takes rfl).bind ((Get.take_takes List.length_replicate).bind
        (Get.pure_takes _)))))))

theorem length_rowBytes (plus : Bool) (placed : Nat × Tree.Row) :
    (Tree.rowBytes plus placed).length = dentSize plus placed.2.name.length := by
  obtain ⟨i, row⟩ := placed
  have bound := dentSize_le plus row.name.length
  have entry : (match row.attr with
      | some attr => entryOut attr
      | none => List.replicate entryOutSize 0).length = entryOutSize := by
    cases row.attr with
    | none => exact List.length_replicate
    | some attr =>
        simp only [entryOut, List.length_append, length_leBytes, length_attr]
        rfl
  have base : direntBaseSize = 24 := rfl
  rw [rowBytes_eq]
  cases plus with
  | true =>
      simp only [if_true, List.length_append, length_leBytes, List.length_replicate, entry,
        List.length_nil, padding] at *
      omega
  | false =>
      simp only [Bool.false_eq_true, if_false, List.length_append, length_leBytes,
        List.length_replicate, List.length_nil, padding] at *
      omega

/-- A page is read back as the rows it was made of. -/
theorem readDirents_flatMap (plus : Bool) {rows : List (Nat × Tree.Row)}
    (fits : ∀ placed ∈ rows, RowFits placed) :
    readDirents plus (rows.flatMap (Tree.rowBytes plus)) = rows.map (dirent plus) := by
  refine Get.records_flatMap (fun placed member => readDirent_takes plus (fits placed member)) ?_ ?_
  · cases plus <;> rfl
  · rw [List.length_flatMap]
    have total := List.length_le_sum_of_one_le
      (rows.map fun placed => (Tree.rowBytes plus placed).length) fun size member => by
        obtain ⟨placed, _, rfl⟩ := List.mem_map.mp member
        have bound := dentSize_le plus placed.2.name.length
        have base : direntBaseSize = 24 := rfl
        rw [length_rowBytes]
        omega
    rwa [List.length_map] at total

end Onelf.Runtime.FuseTree
