import Onelf.Format.Metadata.Wire

/-! The OSET file: the declared pins and the sets each entrypoint selects
(`runtime_metadata.rs`). -/

namespace Onelf.Format.Metadata

open Onelf.Lib
open Onelf.Lib.Codec (Reads Writes)

/-- An entrypoint's complete named-set selection, including explicit empty lists. -/
@[ext] structure EntrypointSelection where
  name : Text
  sets : List RuleId
  deriving DecidableEq

/-- A canonical declared-pin table and complete name-to-selection mapping. -/
@[ext] structure EntrypointSets where
  pins : List SetPin
  entrypoints : List EntrypointSelection
  deriving DecidableEq

/-! ### Validation -/

def validateEntrypointName (name : Bytes) : Except MetadataError Unit :=
  refuseIf (name.isEmpty ∨ name.length > maxIdBytes ∨ name.contains 0)
    (.text "entrypoint name: requires 1..=128 UTF-8 bytes without NUL")

def validatePinName (pin : SetPin) : Except MetadataError Unit :=
  discard (liftRule (RuleId.setName pin.name.bytes))

/-- The set references of one selection, against the names of the pin table. -/
def validateSelection (pins : List RuleId) (entry : EntrypointSelection) :
    Except MetadataError Unit :=
  eachUnique
    (fun name => refuseIf (name ∉ pins) (.text "selection: unknown declared set name"))
    (fun _ => .ok ()) id (fun _ => .text "selection: duplicate set reference") [] entry.sets

namespace EntrypointSets

def countEntry (used : Nat) (entry : EntrypointSelection) : Except MetadataError Nat :=
  addBudget used entry.sets.length

def recordCount (sets : EntrypointSets) : Except MetadataError Nat := do
  let used ← addBudget 0 sets.pins.length
  let used ← addBudget used sets.entrypoints.length
  sets.entrypoints.foldlM countEntry used

def validate (sets : EntrypointSets) : Except MetadataError Unit := do
  let _ ← sets.recordCount
  eachUnique validatePinName (fun _ => .ok ()) SetPin.name
    (fun _ => .text "pin table: duplicate set name or conflicting pins") [] sets.pins
  eachUnique (fun entry => validateEntrypointName entry.name.bytes)
    (validateSelection (sets.pins.map SetPin.name)) EntrypointSelection.name
    (fun _ => .text "selection table: duplicate entrypoint name") [] sets.entrypoints

/-! ### Encoding -/

def sortSets (entry : EntrypointSelection) : EntrypointSelection :=
  { entry with sets := sortByKey id entry.sets }

/-- The tables in the order the encoding gives them. -/
def sorted (sets : EntrypointSets) : EntrypointSets :=
  ⟨sortByKey SetPin.name sets.pins, (sortByKey EntrypointSelection.name sets.entrypoints).map sortSets⟩

end EntrypointSets

def writeSelection (entry : EntrypointSelection) : Write Unit :=
  Write.record 2 do
    Write.string entry.name.bytes
    Write.count entry.sets.length
    entry.sets.forM fun set => Write.string set.bytes

namespace EntrypointSets

def encode (sets : EntrypointSets) : Except MetadataError Bytes := do
  sets.validate
  let records ← sets.recordCount
  encodeFile (utf8 "OSET") records do
    Write.count sets.sorted.pins.length
    sets.sorted.pins.forM (writePin 1)
    Write.count sets.sorted.entrypoints.length
    sets.sorted.entrypoints.forM writeSelection

end EntrypointSets

/-! ### Decoding -/

def readEntrypointName : Read Text := do
  let name ← Read.string maxIdBytes
  Codec.check ((validateEntrypointName name.bytes).map fun _ => name)

def readSelectionRecord : Read EntrypointSelection :=
  Read.record 2 do
    let name ← readEntrypointName
    let sets ← Read.counted 5 readId
    pure ⟨name, sets⟩

def readSelection : Read EntrypointSelection := do
  let entry ← readSelectionRecord
  Codec.check (if outOfOrder entry.sets then
      .error (.text "selection: noncanonical set-name order")
    else .ok entry)

def readTables : Read EntrypointSets := do
  let pins ← Read.counted 42 (readPin 1)
  let entrypoints ← Read.counted 14 readSelection
  pure ⟨pins, entrypoints⟩

namespace EntrypointSets

def decode (bytes : Bytes) : Except MetadataError EntrypointSets := do
  let value ← decodeFile (utf8 "OSET") readTables bytes
  value.validate
  if outOfOrder (value.pins.map SetPin.name) ||
      outOfOrder (value.entrypoints.map EntrypointSelection.name) then
    .error (.text "selection table: noncanonical name order")
  else .ok value

end EntrypointSets

/-! ### What the tables carry -/

def selectionBytes (entry : EntrypointSelection) : Bytes :=
  Codec.frame 2 (stringBytes entry.name.bytes ++
    Codec.countedBytes (fun set => stringBytes set.bytes) entry.sets)

def tablesBytes (sets : EntrypointSets) : Bytes :=
  Codec.countedBytes (pinBytes 1) sets.pins ++ Codec.countedBytes selectionBytes sets.entrypoints

def tablesRecords (sets : EntrypointSets) : Nat :=
  sets.pins.length + (sets.entrypoints.length +
    (sets.entrypoints.map fun entry => entry.sets.length).sum)

theorem validateEntrypointName_eq_ok {name : Bytes} :
    validateEntrypointName name = .ok () ↔
      0 < name.length ∧ name.length ≤ maxIdBytes ∧ (0 : UInt8) ∉ name := by
  rw [validateEntrypointName, refuseIf_eq_ok]
  simp [List.length_pos_iff]

theorem readEntrypointName_reads :
    Reads readEntrypointName (fun name => stringBytes name.bytes) (fun _ => 0)
      fun name => validateEntrypointName name.bytes = .ok () := by
  apply (Codec.Reads.checked id (fun name => validateEntrypointName name.bytes = .ok ())
    (string_reads (by decide)) _).congr
  · intro name
    rfl
  · intro name
    rfl
  · intro name
    simp only [id, validateEntrypointName_eq_ok]
    tauto
  · intro text name _
    cases verdict : validateEntrypointName text.bytes with
    | error reason =>
        refine ⟨nofun, ?_⟩
        intro both
        rw [both.1, id, both.2] at verdict
        cases verdict
    | ok nothing =>
        simp only [Except.map, Except.ok.injEq, id]
        constructor
        · intro same
          exact ⟨same, same ▸ verdict⟩
        · intro both
          exact both.1

/-- What `readSelection` accepts of one entry. -/
def SelectionAdmitted (entry : EntrypointSelection) : Prop :=
  validateEntrypointName entry.name.bytes = .ok () ∧ entry.sets.Pairwise (· < ·)

theorem ids_reads :
    Reads (Read.counted 5 readId) (Codec.countedBytes fun id => stringBytes id.bytes)
      List.length fun _ => True := by
  apply (counted_reads 5 readId_reads (by decide) fun id => _).congr
  · intro ids
    rfl
  · simp
  · simp
  · intro id
    have long := id.length_pos
    rw [length_stringBytes]
    omega

theorem readSelectionRecord_reads :
    Reads readSelectionRecord selectionBytes (fun entry => entry.sets.length)
      fun entry => validateEntrypointName entry.name.bytes = .ok () := by
  apply (record_reads (Codec.Reads.start EntrypointSelection.name readEntrypointName_reads
    fun name _ => Codec.Reads.field EntrypointSelection.sets ids_reads fun sets _ =>
      Codec.Reads.done _)).congr
  · simp [selectionBytes]
  · simp
  · simp
  · intro name _ sets _ entry
    simp [EntrypointSelection.ext_iff]

theorem readSelection_reads :
    Reads readSelection selectionBytes (fun entry => entry.sets.length) SelectionAdmitted := by
  apply (Codec.Reads.checked id (fun entry => entry.sets.Pairwise (· < ·))
    readSelectionRecord_reads _).congr
  · intro entry
    rfl
  · intro entry
    rfl
  · intro entry
    rfl
  · intro entry result _
    rw [← outOfOrder_eq_false]
    split
    · next disordered =>
        refine ⟨nofun, ?_⟩
        intro both
        rw [both.1] at disordered
        exact absurd (disordered.symm.trans both.2) (by decide)
    · next ordered =>
        rw [Except.ok.injEq]
        constructor
        · intro same
          subst same
          exact ⟨rfl, by simpa using ordered⟩
        · intro both
          exact both.1

theorem readTables_reads :
    Reads readTables tablesBytes tablesRecords
      fun sets => ∀ entry ∈ sets.entrypoints, SelectionAdmitted entry := by
  have pins := counted_reads 42 (readPin_reads 1) (by decide) fun pin => by
    have long := pin.name.length_pos
    rw [pinBytes, Codec.length_frame, List.length_append, length_stringBytes, pin.hash.size]
    omega
  have entries : Reads (Read.counted 14 readSelection) (Codec.countedBytes selectionBytes)
      (fun entries => entries.length + (entries.map fun entry => entry.sets.length).sum)
      fun entries => ∀ entry ∈ entries, SelectionAdmitted entry :=
    readSelection_reads.counted (by decide) (by decide) fun entry admitted => by
      have long := (validateEntrypointName_eq_ok.mp admitted.1).1
      rw [selectionBytes, Codec.length_frame, List.length_append, length_stringBytes,
        Codec.countedBytes, List.length_append, length_leBytes]
      omega
  apply (Codec.Reads.start EntrypointSets.pins pins fun pins _ =>
    Codec.Reads.field EntrypointSets.entrypoints entries fun entrypoints _ =>
      Codec.Reads.done _).congr
  · simp [tablesBytes]
  · simp [tablesRecords]
  · simp
  · intro pins _ entrypoints _ sets
    simp [EntrypointSets.ext_iff]

/-! ### Writing the tables -/

theorem selection_writes {entry : EntrypointSelection}
    (named : validateEntrypointName entry.name.bytes = .ok ())
    (few : entry.sets.length ≤ maxRecords) :
    Writes (writeSelection entry) (selectionBytes entry) := by
  have short := (validateEntrypointName_eq_ok.mp named).2.1
  exact record_writes 2 ((string_writes (lt_of_le_of_lt short (by decide))).andThen
    (counted_writes entry.sets few fun set _ => id_writes set))

theorem tables_writes {sets : EntrypointSets} (few : tablesRecords sets ≤ maxRecords)
    (named : ∀ entry ∈ sets.entrypoints, validateEntrypointName entry.name.bytes = .ok ()) :
    Writes (do
        Write.count sets.pins.length
        sets.pins.forM (writePin 1)
        Write.count sets.entrypoints.length
        sets.entrypoints.forM writeSelection)
      (tablesBytes sets) := by
  rw [tablesRecords] at few
  have pins := counted_writes sets.pins (by omega) fun pin _ => writePin_writes 1 pin
  have entries := counted_writes sets.entrypoints (by omega) fun entry member =>
    selection_writes (named entry member) (by
      have most := List.le_sum_of_mem
        (List.mem_map_of_mem (f := fun entry : EntrypointSelection => entry.sets.length) member)
      omega)
  have both := pins.andThen entries
  simpa [tablesBytes] using both

/-! ### Both directions of the file -/

namespace EntrypointSets

theorem countEntry_adds (entry : EntrypointSelection) :
    Adds maxRecords (fun used => countEntry used entry) entry.sets.length :=
  addBudget_adds _

theorem recordCount_eq_ok {sets : EntrypointSets} {records : Nat} :
    sets.recordCount = .ok records ↔ records = tablesRecords sets ∧ records ≤ maxRecords := by
  have counts := (addBudget_adds sets.pins.length).andThen
    ((addBudget_adds sets.entrypoints.length).andThen
      (Adds.foldlM countEntry_adds sets.entrypoints))
  have total := counts 0 (Nat.zero_le _) records
  rwa [Nat.zero_add] at total

/-- What `validate` accepts. -/
structure Valid (sets : EntrypointSets) : Prop where
  few : tablesRecords sets ≤ maxRecords
  pinNames : ∀ pin ∈ sets.pins, validatePinName pin = .ok ()
  pinsDistinct : (sets.pins.map SetPin.name).Nodup
  names : ∀ entry ∈ sets.entrypoints, validateEntrypointName entry.name.bytes = .ok ()
  declared : ∀ entry ∈ sets.entrypoints, ∀ set ∈ entry.sets, set ∈ sets.pins.map SetPin.name
  setsDistinct : ∀ entry ∈ sets.entrypoints, entry.sets.Nodup
  namesDistinct : (sets.entrypoints.map EntrypointSelection.name).Nodup

theorem validateSelection_eq_ok {pins : List RuleId} {entry : EntrypointSelection} :
    validateSelection pins entry = .ok () ↔
      (∀ set ∈ entry.sets, set ∈ pins) ∧ entry.sets.Nodup := by
  rw [validateSelection, eachUnique_eq_ok]
  simp [refuseIf_eq_ok]

theorem validate_eq_ok {sets : EntrypointSets} : sets.validate = .ok () ↔ sets.Valid := by
  simp only [validate, Except.andThen_eq_ok, recordCount_eq_ok, eachUnique_eq_ok,
    validateSelection_eq_ok]
  constructor
  · intro accepted
    rcases accepted with ⟨_, ⟨rfl, few⟩, _, pins, entries, -, namesDistinct⟩
    rcases eachUnique_eq_ok.mp pins with ⟨pinNames, -, pinsDistinct⟩
    exact ⟨few, fun pin member => (pinNames pin member).1, pinsDistinct,
      fun entry member => (entries entry member).1,
      fun entry member => (entries entry member).2.1,
      fun entry member => (entries entry member).2.2, namesDistinct⟩
  · intro valid
    have pins : eachUnique validatePinName (fun _ => .ok ()) SetPin.name
        (fun _ => .text "pin table: duplicate set name or conflicting pins") [] sets.pins = .ok () :=
      eachUnique_eq_ok.mpr ⟨fun pin member => ⟨valid.pinNames pin member, rfl⟩,
        fun _ _ => List.not_mem_nil, valid.pinsDistinct⟩
    exact ⟨_, ⟨rfl, valid.few⟩, (), pins,
      fun entry member => ⟨valid.names entry member, valid.declared entry member,
        valid.setsDistinct entry member⟩,
      fun _ _ => List.not_mem_nil, valid.namesDistinct⟩

theorem sorted_pins_perm (sets : EntrypointSets) : sets.sorted.pins.Perm sets.pins :=
  sortByKey_perm SetPin.name sets.pins

theorem sorted_entrypoints_perm (sets : EntrypointSets) :
    sets.sorted.entrypoints.Perm (sets.entrypoints.map sortSets) :=
  (sortByKey_perm EntrypointSelection.name sets.entrypoints).map sortSets

/-- Every entry of the sorted table is an entry of the table with its sets sorted. -/
theorem mem_sorted_entrypoints {sets : EntrypointSets} {entry : EntrypointSelection}
    (member : entry ∈ sets.sorted.entrypoints) :
    ∃ original ∈ sets.entrypoints, sortSets original = entry :=
  List.mem_map.mp (sets.sorted_entrypoints_perm.mem_iff.mp member)

theorem tablesRecords_sorted (sets : EntrypointSets) :
    tablesRecords sets.sorted = tablesRecords sets := by
  have pins := sets.sorted_pins_perm.length_eq
  have entries := sets.sorted_entrypoints_perm
  have number := entries.length_eq
  have total := (entries.map fun entry : EntrypointSelection => entry.sets.length).sum_eq
  have same : (sets.entrypoints.map sortSets).map (fun entry => entry.sets.length) =
      sets.entrypoints.map fun entry => entry.sets.length := by
    rw [List.map_map]
    apply List.map_congr_left
    intro entry _
    exact (sortByKey_perm id entry.sets).length_eq
  rw [List.length_map] at number
  rw [same] at total
  rw [tablesRecords, tablesRecords, pins, number, total]

theorem map_name_sorted (sets : EntrypointSets) :
    sets.sorted.entrypoints.map EntrypointSelection.name =
      (sortByKey EntrypointSelection.name sets.entrypoints).map EntrypointSelection.name := by
  rw [sorted, List.map_map]
  rfl

theorem Valid.sorted {sets : EntrypointSets} (valid : sets.Valid) : sets.sorted.Valid := by
  have pins := sets.sorted_pins_perm
  constructor
  · rw [tablesRecords_sorted]
    exact valid.few
  · intro pin member
    exact valid.pinNames pin (pins.mem_iff.mp member)
  · exact (pins.map _).nodup_iff.mpr valid.pinsDistinct
  · intro entry member
    rcases mem_sorted_entrypoints member with ⟨original, inside, same⟩
    subst same
    exact valid.names original inside
  · intro entry member set selected
    rcases mem_sorted_entrypoints member with ⟨original, inside, same⟩
    subst same
    have known := (sortByKey_perm id original.sets).mem_iff.mp selected
    exact (pins.map SetPin.name).mem_iff.mpr (valid.declared original inside set known)
  · intro entry member
    rcases mem_sorted_entrypoints member with ⟨original, inside, same⟩
    subst same
    exact (sortByKey_perm id original.sets).nodup_iff.mpr (valid.setsDistinct original inside)
  · rw [map_name_sorted]
    exact ((sortByKey_perm _ _).map _).nodup_iff.mpr valid.namesDistinct

/-- Every order the decoder checks. -/
structure Ascending (sets : EntrypointSets) : Prop where
  pins : (sets.pins.map SetPin.name).Pairwise (· < ·)
  names : (sets.entrypoints.map EntrypointSelection.name).Pairwise (· < ·)
  sets : ∀ entry ∈ sets.entrypoints, entry.sets.Pairwise (· < ·)

theorem sorted_ascending {sets : EntrypointSets} (valid : sets.Valid) : sets.sorted.Ascending := by
  constructor
  · exact sortByKey_sorted valid.pinsDistinct
  · rw [map_name_sorted]
    exact sortByKey_sorted valid.namesDistinct
  · intro entry member
    rcases mem_sorted_entrypoints member with ⟨original, inside, same⟩
    subst same
    have distinct : (original.sets.map id).Nodup := by
      rw [List.map_id]
      exact valid.setsDistinct original inside
    have ascending := sortByKey_sorted distinct
    rwa [List.map_id] at ascending

theorem sorted_of_ascending {sets : EntrypointSets} (ascending : sets.Ascending) :
    sets.sorted = sets := by
  have entries : sets.entrypoints.map sortSets = sets.entrypoints := by
    conv_rhs => rw [← List.map_id sets.entrypoints]
    apply List.map_congr_left
    intro entry member
    have whole : (entry.sets.map id).Pairwise (· < ·) := by
      rw [List.map_id]
      exact ascending.sets entry member
    exact EntrypointSelection.ext rfl (sortByKey_of_sorted whole)
  apply EntrypointSets.ext
  · exact sortByKey_of_sorted ascending.pins
  · rw [sorted, sortByKey_of_sorted ascending.names, entries]

/-- The one file a value has. -/
def file (sets : EntrypointSets) : Bytes :=
  fileBytes (utf8 "OSET") (tablesRecords sets) (tablesBytes sets)

theorem encode_eq_ok {sets : EntrypointSets} {bytes : Bytes} :
    sets.encode = .ok bytes ↔
      sets.Valid ∧ bytes.length ≤ maxMetadataBytes ∧ bytes = sets.sorted.file := by
  have magic : (utf8 "OSET").length = 4 := by decide
  simp only [encode, Except.andThen_eq_ok, recordCount_eq_ok]
  constructor
  · intro encoded
    rcases encoded with ⟨_, validated, _, ⟨rfl, few⟩, written⟩
    have valid := validate_eq_ok.mp validated
    have writes := tables_writes valid.sorted.few valid.sorted.names
    rcases (encodeFile_eq_ok magic few writes).mp written with ⟨fits, same⟩
    exact ⟨valid, fits, by rw [same, file, tablesRecords_sorted]⟩
  · intro shape
    rcases shape with ⟨valid, fits, same⟩
    refine ⟨(), validate_eq_ok.mpr valid, _, ⟨rfl, valid.few⟩, ?_⟩
    rw [encodeFile_eq_ok magic valid.few (tables_writes valid.sorted.few valid.sorted.names),
      ← tablesRecords_sorted]
    exact ⟨fits, same⟩

theorem decode_eq_ok {sets : EntrypointSets} {bytes : Bytes} :
    decode bytes = .ok sets ↔
      sets.Valid ∧ sets.Ascending ∧ bytes.length ≤ maxMetadataBytes ∧ bytes = sets.file := by
  have magic : (utf8 "OSET").length = 4 := by decide
  simp only [decode, Except.andThen_eq_ok, decodeFile_eq_ok magic readTables_reads]
  constructor
  · intro decoded
    rcases decoded with ⟨value, ⟨admitted, few, fits, same⟩, _, validated, ordered⟩
    split at ordered
    · cases ordered
    · next ascending =>
        cases ordered
        rw [Bool.or_eq_true, not_or, Bool.not_eq_true, Bool.not_eq_true, outOfOrder_eq_false,
          outOfOrder_eq_false] at ascending
        exact ⟨validate_eq_ok.mp validated,
          ⟨ascending.1, ascending.2, fun entry member => (admitted entry member).2⟩, fits, same⟩
  · intro shape
    rcases shape with ⟨valid, ascending, fits, same⟩
    refine ⟨sets, ⟨fun entry member => ⟨valid.names entry member, ascending.sets entry member⟩,
      valid.few, fits, same⟩, (), validate_eq_ok.mpr valid, ?_⟩
    rw [if_neg]
    rw [Bool.or_eq_true, not_or, Bool.not_eq_true, Bool.not_eq_true, outOfOrder_eq_false,
      outOfOrder_eq_false]
    exact ⟨ascending.pins, ascending.names⟩

/-- Every encoded table decodes to itself in canonical order, and every accepted file is the
encoding of what it decodes to. -/
theorem tables_codec_bijective :
    (∀ (sets : EntrypointSets) (bytes : Bytes), sets.encode = .ok bytes →
      decode bytes = .ok sets.sorted) ∧
    (∀ (bytes : Bytes) (sets : EntrypointSets), decode bytes = .ok sets →
      sets.encode = .ok bytes) := by
  constructor
  · intro sets bytes encoded
    rcases encode_eq_ok.mp encoded with ⟨valid, fits, same⟩
    exact decode_eq_ok.mpr ⟨valid.sorted, sorted_ascending valid, fits, same⟩
  · intro bytes sets decoded
    rcases decode_eq_ok.mp decoded with ⟨valid, ascending, fits, same⟩
    exact encode_eq_ok.mpr ⟨valid, fits, by rw [sorted_of_ascending ascending, same]⟩

/-- A viewer that takes both declared sets and a daemon that takes none. -/
def viewerSets : EntrypointSets :=
  ⟨[⟨⟨utf8 "qt", by decide⟩, ⟨List.replicate 32 9, by decide⟩⟩,
      ⟨⟨utf8 "gtk", by decide⟩, ⟨List.replicate 32 7, by decide⟩⟩],
    [⟨⟨utf8 "viewer", by decide⟩, [⟨utf8 "qt", by decide⟩, ⟨utf8 "gtk", by decide⟩]⟩,
      ⟨⟨utf8 "daemon", by decide⟩, []⟩]⟩

theorem tables_codec_bijective_of_viewerSets :
    decode viewerSets.sorted.file = .ok viewerSets.sorted ∧
      viewerSets.sorted.encode = .ok viewerSets.sorted.file :=
  ⟨tables_codec_bijective.1 viewerSets viewerSets.sorted.file (by decide +kernel),
    tables_codec_bijective.2 viewerSets.sorted.file viewerSets.sorted (by decide +kernel)⟩

end EntrypointSets

end Onelf.Format.Metadata
