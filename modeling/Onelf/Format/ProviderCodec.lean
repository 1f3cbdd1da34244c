import Onelf.Format.ProviderIndex

/-! The provider index's bytes: both directions of its codec and what decoding holds on to
(`provider_index.rs`). -/

namespace Onelf.Format.ProviderIndex

open Onelf.Lib
open Onelf.Lib.Codec (Reads Writes Source Output stringBytes)

/-! ### The bytes of an index -/

def nameBytes (tag : UInt8) (name : Text) : Bytes := Codec.frame tag (stringBytes name.bytes)

theorem length_nameBytes (tag : UInt8) (name : Text) :
    (nameBytes tag name).length = name.bytes.length + 9 := by
  rw [nameBytes, Codec.length_frame, Codec.length_stringBytes]
  omega

def exportsBytes (exports : List Text) : Bytes := exports.flatMap (nameBytes 2)

/-- The one file an index has. -/
def file (index : ProviderIndex) : Bytes :=
  Codec.headed (utf8 "OPRV") version (index.exports.length + 1)
    (nameBytes 1 index.set ++ exportsBytes index.exports)

/-- What a record's name is held to while it is read. -/
def Short (name : Text) : Prop := 0 < name.bytes.length ∧ name.bytes.length ≤ maxIdBytes

theorem ExportName.short {name : Text} (admitted : ExportName name) : Short name :=
  ⟨List.length_pos_iff.mpr admitted.1, admitted.2.1⟩

theorem Valid.short_set {index : ProviderIndex} (valid : index.Valid) : Short index.set := by
  obtain ⟨id, named⟩ := valid.set
  rw [Short, ← (RuleId.setName_eq_ok.mp named).1]
  exact ⟨id.length_pos, id.length_le⟩

/-! ### Writing -/

theorem writeRecord_writes (tag : UInt8) {name : Text} (short : Short name) :
    Writes (writeRecord tag name.bytes) (nameBytes tag name) := by
  have fits : name.bytes.length < 256 ^ 4 := lt_of_le_of_lt short.2 (by decide)
  exact ((Codec.writeU32_writes fits).andThen (Codec.append_writes tooLarge _)).record (by decide)

theorem writeHeader_writes {records : Nat} (few : records ≤ maxRecords) :
    Writes (writeHeader records) (Codec.openHeader (utf8 "OPRV") version records) :=
  (Codec.append_writes _ _).andThen ((Codec.append_writes _ _).andThen
    ((Codec.append_writes _ _).andThen ((Codec.writeU32_writes (by decide)).andThen
      (Codec.writeU32_writes (lt_of_le_of_lt few (by decide))))))

theorem writeFile_writes {index : ProviderIndex} (valid : index.Valid) :
    Writes index.writeFile (Codec.openHeader (utf8 "OPRV") version (index.exports.length + 1) ++
      (nameBytes 1 index.set ++ exportsBytes index.exports)) := by
  apply (writeHeader_writes valid.few).andThen
  apply (writeRecord_writes 1 valid.short_set).andThen
  exact Codec.Writes.forEach fun name member =>
    writeRecord_writes 2 (valid.names name member).short

theorem length_file (index : ProviderIndex) : index.file.length =
    16 + (nameBytes 1 index.set ++ exportsBytes index.exports).length :=
  Codec.length_headed (by decide) _ _ _

theorem encode_eq_ok {index : ProviderIndex} {bytes : Bytes} :
    index.encode = .ok bytes ↔
      index.Valid ∧ bytes.length ≤ maxIndexBytes ∧ bytes = index.file := by
  have magic : (utf8 "OPRV").length = 4 := by decide
  rw [encode, Except.followed_eq_ok, validate_eq_ok]
  refine and_congr_right fun valid => ?_
  rw [Except.andThen_eq_ok]
  have patched {output : Output maxIndexBytes}
      (written : index.writeFile ⟨[], Nat.zero_le _⟩ = .ok ((), output)) :
      index.file.length ≤ maxIndexBytes ∧ finishFile output.bytes = .ok index.file := by
    have content := (writeFile_writes valid _ _).mp written
    have bound := output.bounded
    rw [List.nil_append] at content
    rw [content, Codec.length_openHeader magic, ← length_file] at bound
    have payload : output.bytes.length - headerBytes =
        (nameBytes 1 index.set ++ exportsBytes index.exports).length := by
      rw [content, Codec.length_openHeader magic, headerBytes, Nat.add_sub_cancel_left]
    have fits : output.bytes.length - headerBytes < 256 ^ 4 := by
      rw [length_file] at bound
      have small : maxIndexBytes < 256 ^ 4 := by decide
      omega
    rw [finishFile, if_pos fits, payload, content, Codec.overwrite_openHeader magic]
    exact ⟨bound, rfl⟩
  constructor
  · rintro ⟨⟨_, output⟩, written, finished⟩
    obtain ⟨bound, closed⟩ := patched written
    rw [closed] at finished
    cases finished
    exact ⟨bound, rfl⟩
  · rintro ⟨bound, rfl⟩
    have room : (Codec.openHeader (utf8 "OPRV") version (index.exports.length + 1) ++
        (nameBytes 1 index.set ++ exportsBytes index.exports)).length ≤ maxIndexBytes := by
      rw [Codec.length_openHeader magic, ← length_file]
      exact bound
    have written := (writeFile_writes valid ⟨[], Nat.zero_le _⟩ ⟨_, room⟩).mpr rfl
    exact ⟨_, written, (patched written).2⟩

/-! ### Reading a record -/

theorem readString_reads :
    Reads readString (fun name => stringBytes name.bytes) (fun _ => 0) Short :=
  Codec.string_reads (by decide)

/-- What one record adds to what the records before it had. -/
inductive Adds (found : Found) : UInt8 → Text → Found → Prop where
  | identity {name : Text} (first : found.set = none) :
      Adds found 1 name { found with set := some name }
  | name {name : Text} (later : found.set ≠ none) :
      Adds found 2 name { found with exports := found.exports ++ [name] }

theorem readField_eq_ok {found next : Found} {tag : UInt8} {source after : Source maxIndexBytes 0} :
    readField found tag source = .ok (next, after) ↔
      ∃ name, Adds found tag name next ∧ readString source = .ok (name, after) := by
  rw [readField]
  constructor
  · intro read
    split at read
    · next same =>
        simp only [Codec.bind_eq_ok, Codec.ensure_eq_ok, Codec.pure_eq_ok] at read
        obtain ⟨_, _, ⟨first, rfl⟩, name, _, text, rfl, rfl⟩ := read
        exact ⟨name, same ▸ .identity first, text⟩
    · split at read
      · next same =>
          simp only [Codec.bind_eq_ok, Codec.ensure_eq_ok, Codec.pure_eq_ok] at read
          obtain ⟨_, _, ⟨later, rfl⟩, name, _, text, rfl, rfl⟩ := read
          exact ⟨name, same ▸ .name later, text⟩
      · rw [Codec.check_eq_ok] at read
        cases read.1
  · rintro ⟨name, adds, text⟩
    cases adds with
    | identity first =>
        rw [if_pos rfl]
        simp only [Codec.bind_eq_ok, Codec.ensure_eq_ok, Codec.pure_eq_ok]
        exact ⟨(), source, ⟨first, rfl⟩, name, after, text, rfl, rfl⟩
    | name later =>
        rw [if_neg (by decide), if_pos rfl]
        simp only [Codec.bind_eq_ok, Codec.ensure_eq_ok, Codec.pure_eq_ok]
        exact ⟨(), source, ⟨later, rfl⟩, name, after, text, rfl, rfl⟩

theorem used_eq_zero (source : Source maxIndexBytes 0) : source.used = 0 :=
  Nat.le_zero.mp source.within

theorem readRecord_eq_ok {found next : Found} {source after : Source maxIndexBytes 0} :
    readRecord found source = .ok (next, after) ↔
      ∃ tag name, Adds found tag name next ∧ Short name ∧
        source.rest = nameBytes tag name ++ after.rest := by
  simp only [readRecord, Codec.bind_eq_ok, Codec.u32_reads _ _ _ _, Codec.ensure_eq_ok,
    Codec.narrow_eq_ok, Codec.take_reads _ _ _ _ _, Codec.finish_eq_ok, Codec.restore_eq_ok,
    Codec.pure_eq_ok, readField_eq_ok, readString_reads _ _ _, id]
  constructor
  · rintro ⟨count, first, ⟨_, ahead, _⟩, _, _, ⟨_, rfl⟩, outer, inner, ⟨sized, split, _⟩, lead,
      body, ⟨one, tagged, _⟩, _, last, ⟨name, adds, short, text, _⟩, _, _, ⟨none, rfl⟩, _, _,
      ⟨back, _⟩, rfl, rfl⟩
    obtain ⟨tag, rfl⟩ := List.length_eq_one_iff.mp one
    refine ⟨tag, name, adds, short, ?_⟩
    have inside : inner.rest = tag :: stringBytes name.bytes := by
      rw [tagged, text, none, List.append_nil, List.singleton_append]
    rw [ahead, split, back, ← sized, inside, nameBytes, Codec.frame, List.append_assoc,
      List.length_cons]
  · rintro ⟨tag, name, adds, short, ahead⟩
    have small := source.small
    rw [ahead, List.length_append, length_nameBytes] at small
    have bounded : maxIndexBytes < 256 ^ 4 := by decide
    have length := Codec.length_stringBytes name.bytes
    rw [nameBytes, Codec.frame, List.append_assoc, List.cons_append] at ahead
    let first : Source maxIndexBytes 0 :=
      ⟨tag :: stringBytes name.bytes ++ after.rest, 0, by simp; omega, Nat.zero_le _⟩
    let inner : Source maxIndexBytes 0 :=
      ⟨tag :: stringBytes name.bytes, 0, by simp; omega, Nat.zero_le _⟩
    let body : Source maxIndexBytes 0 := ⟨stringBytes name.bytes, 0, by omega, Nat.zero_le _⟩
    let last : Source maxIndexBytes 0 := ⟨[], 0, Nat.zero_le _, Nat.zero_le _⟩
    have spent := used_eq_zero source
    have kept := used_eq_zero after
    exact ⟨(stringBytes name.bytes).length + 1, first, ⟨by omega, ahead, by rw [spent]⟩, (), first,
      ⟨by omega, rfl⟩, ⟨after.rest, after.small⟩, inner, ⟨rfl, rfl, rfl⟩, [tag], body,
      ⟨rfl, rfl, rfl⟩, next, last, ⟨name, adds, short, by simp [body, last], rfl⟩, (), last,
      ⟨rfl, rfl⟩, (), after, ⟨rfl, kept⟩, rfl, rfl⟩

/-! ### Reading the records -/

theorem readRecords_named {set : Text} (records : Nat) {exports : List Text} {next : Found}
    {source after : Source maxIndexBytes 0} :
    readRecords records ⟨some set, exports⟩ source = .ok (next, after) ↔
      ∃ more, more.length = records ∧ (∀ name ∈ more, Short name) ∧
        next = ⟨some set, exports ++ more⟩ ∧ source.rest = exportsBytes more ++ after.rest := by
  induction records generalizing exports source with
  | zero =>
      rw [readRecords, Codec.pure_eq_ok]
      constructor
      · rintro ⟨rfl, rfl⟩
        exact ⟨[], rfl, by simp, by simp, rfl⟩
      · rintro ⟨more, none, _, rfl, ahead⟩
        rw [List.length_eq_zero_iff.mp none] at ahead ⊢
        rw [List.append_nil]
        exact ⟨rfl, Source.ext ahead.symm (by rw [used_eq_zero, used_eq_zero])⟩
  | succ records ih =>
      simp only [readRecords, Codec.bind_eq_ok, readRecord_eq_ok]
      constructor
      · rintro ⟨first, middle, ⟨tag, name, adds, short, ahead⟩, rest⟩
        cases adds with
        | identity first => cases first
        | name later =>
            obtain ⟨more, length, all, rfl, behind⟩ := ih.mp rest
            refine ⟨name :: more, by rw [List.length_cons, length],
              List.forall_mem_cons.mpr ⟨short, all⟩, by simp, ?_⟩
            rw [ahead, behind, exportsBytes, exportsBytes, List.flatMap_cons, List.append_assoc]
      · rintro ⟨more, length, all, rfl, ahead⟩
        cases more with
        | nil => cases length
        | cons name more =>
            obtain ⟨short, others⟩ := List.forall_mem_cons.mp all
            rw [exportsBytes, List.flatMap_cons, List.append_assoc] at ahead
            have small := source.small
            rw [ahead, List.length_append] at small
            let middle : Source maxIndexBytes 0 :=
              ⟨more.flatMap (nameBytes 2) ++ after.rest, 0, by omega, Nat.zero_le _⟩
            refine ⟨⟨some set, exports ++ [name]⟩, middle, ⟨2, name, ?_, short, ahead⟩, ?_⟩
            · exact @Adds.name ⟨some set, exports⟩ name (Option.some_ne_none set)
            · exact ih.mpr ⟨more, by simpa using length, others, by simp, rfl⟩

/-- What the records so far had, as they stand in the file. -/
def Found.bytes (found : Found) : Bytes :=
  match found.set with
  | none => []
  | some set => nameBytes 1 set ++ exportsBytes found.exports

/-- From the start, a run of records gives what they hold and nothing that was not read. -/
theorem readRecords_eq_ok (records : Nat) {next : Found} {source after : Source maxIndexBytes 0} :
    readRecords records ⟨none, []⟩ source = .ok (next, after) ↔
      (records = 0 ∧ next = ⟨none, []⟩ ∨
        ∃ set, next.set = some set ∧ Short set ∧ next.exports.length + 1 = records ∧
          ∀ name ∈ next.exports, Short name) ∧
      source.rest = next.bytes ++ after.rest := by
  cases records with
  | zero =>
      rw [readRecords, Codec.pure_eq_ok]
      constructor
      · rintro ⟨rfl, rfl⟩
        exact ⟨Or.inl ⟨rfl, rfl⟩, rfl⟩
      · rintro ⟨⟨_, rfl⟩ | ⟨set, _, _, length, _⟩, ahead⟩
        · exact ⟨rfl, Source.ext ahead.symm (by rw [used_eq_zero, used_eq_zero])⟩
        · cases length
  | succ records =>
      simp only [readRecords, Codec.bind_eq_ok, readRecord_eq_ok]
      constructor
      · rintro ⟨first, middle, ⟨tag, name, adds, short, ahead⟩, rest⟩
        cases adds with
        | identity first =>
            obtain ⟨more, length, all, rfl, behind⟩ := (readRecords_named records).mp rest
            refine ⟨Or.inr ⟨name, rfl, short, by simp [length], by simpa using all⟩, ?_⟩
            rw [ahead, behind, Found.bytes, List.nil_append, List.append_assoc]
        | name later => exact absurd rfl later
      · rintro ⟨⟨none, _⟩ | ⟨set, named, short, length, all⟩, ahead⟩
        · cases none
        · obtain ⟨_, exports⟩ := next
          subst named
          change source.rest = nameBytes 1 set ++ exportsBytes exports ++ after.rest at ahead
          rw [List.append_assoc] at ahead
          have small := source.small
          rw [ahead, List.length_append] at small
          let middle : Source maxIndexBytes 0 :=
            ⟨exportsBytes exports ++ after.rest, 0, by omega, Nat.zero_le _⟩
          refine ⟨⟨some set, []⟩, middle, ⟨1, set, ?_, short, ahead⟩, ?_⟩
          · exact @Adds.identity ⟨none, []⟩ set rfl
          · exact (readRecords_named records).mpr
              ⟨exports, by simpa using length, all, by simp, rfl⟩

theorem readHeader_eq_ok {records : Nat} {source next : Source maxIndexBytes 0} :
    readHeader source = .ok (records, next) ↔
      records ≤ maxRecords ∧ next.used = source.used ∧
        source.rest = Codec.headed (utf8 "OPRV") version records next.rest :=
  Codec.header_eq_ok (by decide) (by decide) (by decide) (by decide)

theorem decode_eq_ok {index : ProviderIndex} {bytes : Bytes} :
    decode bytes = .ok index ↔
      index.Valid ∧ bytes.length ≤ maxIndexBytes ∧ bytes = index.file := by
  rw [decode]
  split
  · next fits =>
      simp only [Except.andThen_eq_ok, readFile]
      constructor
      · rintro ⟨⟨found, last⟩, read, set, required, _, validated, same⟩
        simp only [Codec.bind_eq_ok, Codec.finish_eq_ok, Codec.pure_eq_ok, readHeader_eq_ok,
          readRecords_eq_ok] at read
        obtain ⟨records, body, ⟨_, _, ahead⟩, _, _, ⟨shape, behind⟩, _, _, ⟨none, rfl⟩, rfl, rfl⟩ :=
          read
        cases same
        refine ⟨validate_eq_ok.mp validated, fits, ?_⟩
        rcases shape with ⟨_, rfl⟩ | ⟨name, named, _, length, _⟩
        · cases required
        · rw [requireSet.eq_def, named] at required
          cases required
          simp only [none, List.append_nil, Found.bytes, named] at behind
          change bytes = _ at ahead
          rw [ahead, behind, ← length, file]
      · rintro ⟨valid, -, rfl⟩
        have room := fits
        rw [length_file] at room
        let body : Source maxIndexBytes 0 :=
          ⟨nameBytes 1 index.set ++ exportsBytes index.exports, 0, by omega, Nat.zero_le _⟩
        let last : Source maxIndexBytes 0 := ⟨[], 0, Nat.zero_le _, Nat.zero_le _⟩
        refine ⟨(⟨some index.set, index.exports⟩, last), ?_, index.set, rfl, (),
          validate_eq_ok.mpr valid, rfl⟩
        simp only [Codec.bind_eq_ok, Codec.finish_eq_ok, Codec.pure_eq_ok, readHeader_eq_ok,
          readRecords_eq_ok]
        exact ⟨index.exports.length + 1, body, ⟨valid.few, rfl, rfl⟩, _, last,
          ⟨Or.inr ⟨index.set, rfl, valid.short_set, rfl,
            fun name member => (valid.names name member).short⟩, by simp [body, last, Found.bytes]⟩,
          (), last, ⟨rfl, rfl⟩, rfl, rfl⟩
  · next long => simp [long]

/-! ### Both directions, and what is held on the way -/

def Found.held (found : Found) : List Text := found.set.toList ++ found.exports

theorem length_exportsBytes (exports : List Text) :
    (exportsBytes exports).length = (exports.map fun name => name.bytes.length + 9).sum := by
  induction exports with
  | nil => rfl
  | cons name exports ih =>
      rw [exportsBytes, List.flatMap_cons, List.length_append, ← exportsBytes, ih,
        length_nameBytes, List.map_cons, List.sum_cons]

/-- After any number of records, each name held has been read with its own record. -/
theorem held_of_readRecords {records : Nat} {next : Found} {source after : Source maxIndexBytes 0}
    (read : readRecords records ⟨none, []⟩ source = .ok (next, after)) :
    source.rest = next.bytes ++ after.rest ∧
      next.bytes.length = (next.held.map fun name => name.bytes.length + 9).sum := by
  obtain ⟨shape, ahead⟩ := (readRecords_eq_ok records).mp read
  refine ⟨ahead, ?_⟩
  rcases shape with ⟨_, rfl⟩ | ⟨set, named, _, _, _⟩
  · rfl
  · rw [Found.bytes, Found.held, named]
    simp only [List.length_append, length_nameBytes, length_exportsBytes, Option.toList_some,
      List.cons_append, List.nil_append, List.map_cons, List.sum_cons]

/-- Every index built and encoded decodes to itself, every accepted file is the encoding of what it
decodes to, and whatever the record count says, the names held after any number of records fill the
bytes read so far. -/
theorem provider_codec_bijective :
    (∀ (set : Text) (exports : List Text) (index : ProviderIndex) (bytes : Bytes),
      new set exports = .ok index → index.encode = .ok bytes → decode bytes = .ok index) ∧
    (∀ (bytes : Bytes) (index : ProviderIndex), decode bytes = .ok index →
      index.encode = .ok bytes) ∧
    ∀ (source body next : Source maxIndexBytes 0) (declared records : Nat) (found : Found),
      readHeader source = .ok (declared, body) →
        readRecords records ⟨none, []⟩ body = .ok (found, next) →
          ∃ front, source.rest = front ++ next.rest ∧
            front.length = 16 + (found.held.map fun name => name.bytes.length + 9).sum := by
  refine ⟨?_, ?_, ?_⟩
  · intro set exports index bytes _ encoded
    exact decode_eq_ok.mpr (encode_eq_ok.mp encoded)
  · intro bytes index decoded
    exact encode_eq_ok.mpr (decode_eq_ok.mp decoded)
  · intro source body next declared records found opened read
    obtain ⟨_, _, ahead⟩ := readHeader_eq_ok.mp opened
    obtain ⟨behind, length⟩ := held_of_readRecords read
    have magic : (utf8 "OPRV").length = 4 := by decide
    have front := Codec.length_headed magic version declared body.rest
    refine ⟨source.rest.take (16 + found.bytes.length), ?_, ?_⟩
    · have left : source.rest.drop (16 + found.bytes.length) = next.rest := by
        rw [ahead, Codec.headed, behind, ← List.append_assoc]
        apply List.drop_left'
        simp only [List.length_append, magic, length_leBytes, List.length_cons, List.length_nil]
      rw [← left, List.take_append_drop]
    · rw [List.length_take, ahead, front, behind, List.length_append, length]
      omega

theorem provider_codec_bijective_gtk :
    decode gtkIndex.file = .ok gtkIndex ∧ gtkIndex.encode = .ok gtkIndex.file :=
  ⟨provider_codec_bijective.1 gtkIndex.set gtkIndex.exports gtkIndex gtkIndex.file
    (by decide +kernel) (by decide +kernel),
    provider_codec_bijective.2.1 gtkIndex.file gtkIndex (by decide +kernel)⟩

end Onelf.Format.ProviderIndex
