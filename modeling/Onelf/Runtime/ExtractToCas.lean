import Onelf.Runtime.Extract

/-! Extraction through the content store, whose blobs are linked below the directory
(`extract_to_cas` of `cache.rs`). -/

namespace Onelf.Runtime.Extract

open Onelf.Lib

/-- The lowercase hex of `bytes`. -/
def hex (bytes : Bytes) : Bytes :=
  bytes.flatMap fun byte => [hexDigit (byte.toNat / 16), hexDigit (byte.toNat % 16)]

/-- Three octal digits. -/
def octal (mode : Nat) : Bytes :=
  [UInt8.ofNat (48 + mode / 64 % 8), UInt8.ofNat (48 + mode / 8 % 8), UInt8.ofNat (48 + mode % 8)]

/-- What a process brings to the content store: how it hashes, its number and the next of its
temporary names. -/
structure Writer where
  hashesTo : Bytes → Digest → Bool
  pid : Nat
  sequence : Nat → Nat

def shardName (hash : Digest) : Bytes := (hex hash.bytes).take 2

def blobName (hash : Digest) (mode : Nat) : Bytes := hex hash.bytes ++ utf8 "-" ++ octal mode

def tempName (writer : Writer) (hash : Digest) (index : Nat) : Bytes :=
  utf8 "." ++ hex hash.bytes ++ utf8 "." ++ decimal writer.pid ++ utf8 "." ++
    decimal (writer.sequence index) ++ utf8 ".tmp"

/-- The write of a blob: its shard, a temporary file and the rename. -/
def FileSystem.keepBlob (system : FileSystem) (shard temp name : Bytes) (blob : Stored) :
    FileSystem where
  disk := system.disk
  store := fun other file => if other = shard ∧ file = name then some blob else system.store other file
  effects := system.effects ++ [.store [shard], .store [shard, temp], .store [shard, name]]

variable (base : List Bytes) (source : Source) (writer : Writer)

/-- The blob of a file entry, written where the store has none that hashes to its content. -/
def provideBlob (entry : Format.Entry × Nat) : FileProc Stored := do
  let system ← get
  match (system.store (shardName entry.1.contentHash)
      (blobName entry.1.contentHash (entry.1.mode &&& 0o777))).filter fun blob =>
        writer.hashesTo blob.bytes entry.1.contentHash with
  | some blob => pure blob
  | none => do
      let data ← readEntry source entry.1
      modify fun system => FileSystem.keepBlob system (shardName entry.1.contentHash)
        (tempName writer entry.1.contentHash entry.2)
        (blobName entry.1.contentHash (entry.1.mode &&& 0o777)) ⟨data, entry.1.mode &&& 0o777⟩
      pure ⟨data, entry.1.mode &&& 0o777⟩

def linkBlob (entry : Format.Entry × Nat) : FileProc Unit := do
  let rel ← entryPath source.manifest entry.2
  let blob ← provideBlob source writer entry
  createDirAll base rel.dropLast
  replaceEntry base .hardLink rel (.file blob)

/-- `extract_to_cas`: directories, then blobs and links to them, then symlinks. -/
def extractToCas : FileProc Unit := do
  (source.manifest.numbered .dir).forM (extractDir base source fun _ => true)
  (source.manifest.fileOrder source.extent).forM (linkBlob base source writer)
  (source.manifest.numbered .symlink).forM (extractLink base source fun _ => true)

/-! ### Names in the store -/

theorem hex_isLowerHex (bytes : Bytes) : ∀ digit ∈ hex bytes, isLowerHex digit = true := by
  intro digit member
  obtain ⟨byte, _, here⟩ := List.mem_flatMap.mp member
  have bound : byte.toNat < 256 := byte.toNat_lt
  rcases List.mem_cons.mp here with high | rest
  · rw [high]
    exact isLowerHex_hexDigit (by omega)
  · rw [List.mem_singleton.mp rest]
    exact isLowerHex_hexDigit (by omega)

theorem length_hex (bytes : Bytes) : (hex bytes).length = 2 * bytes.length := by
  induction bytes with
  | nil => rfl
  | cons byte bytes ih =>
      rw [hex, List.flatMap_cons, List.length_append, List.length_cons]
      rw [hex] at ih
      rw [ih]
      simp only [List.length_cons, List.length_nil]
      omega

/-- A byte that may stand in a name. -/
def NameByte (byte : UInt8) : Prop := byte ≠ 47 ∧ byte ≠ 0

instance (byte : UInt8) : Decidable (NameByte byte) :=
  inferInstanceAs (Decidable (byte ≠ 47 ∧ byte ≠ 0))

theorem nameByte_of_isDigit {byte : UInt8} (digit : isDigit byte = true) : NameByte byte := by
  constructor <;> intro same <;> rw [same] at digit <;> cases digit

theorem nameByte_of_isLowerHex {byte : UInt8} (digit : isLowerHex byte = true) : NameByte byte := by
  constructor <;> intro same <;> rw [same] at digit <;> cases digit

theorem nameByte_octal (mode : Nat) : ∀ byte ∈ octal mode, NameByte byte := by
  have digit (n : Nat) : NameByte (UInt8.ofNat (48 + n % 8)) := by
    have low : n % 8 < 8 := Nat.mod_lt n (by decide)
    constructor <;> intro same <;> have value := congrArg UInt8.toNat same <;>
      rw [UInt8.toNat_ofNat_of_lt' (by change 48 + n % 8 < 256; omega)] at value <;>
      simp at value <;> omega
  intro byte member
  simp only [octal, List.mem_cons, List.not_mem_nil, or_false] at member
  rcases member with same | same | same <;> rw [same] <;> exact digit _

/-- A name of three bytes or more that may stand in one is a name of its own. -/
theorem safe_of_nameBytes {name : Bytes} (bytes : ∀ byte ∈ name, NameByte byte)
    (long : 2 < name.length) : isSafeComponent name = true := by
  apply isSafeComponent_iff.mpr
  refine ⟨?_, ?_, ?_, fun slash => (bytes 47 slash).1 rfl, fun nul => (bytes 0 nul).2 rfl⟩ <;>
    intro same <;> rw [same] at long <;> simp at long

theorem shardName_safe (hash : Digest) : isSafeComponent (shardName hash) = true := by
  have digits : ∀ byte ∈ shardName hash, isLowerHex byte = true :=
    fun byte member => hex_isLowerHex _ byte (List.mem_of_mem_take member)
  have length : (shardName hash).length = 2 := by
    rw [shardName, List.length_take, length_hex, hash.size]
    rfl
  apply isSafeComponent_iff.mpr
  refine ⟨?_, ?_, ?_, ?_, ?_⟩
  · intro same
    rw [same] at length
    cases length
  · intro same
    rw [same] at length
    cases length
  · intro same
    have dot := digits 46 (by rw [same]; exact List.mem_cons_self)
    cases dot
  · exact fun slash => (nameByte_of_isLowerHex (digits 47 slash)).1 rfl
  · exact fun nul => (nameByte_of_isLowerHex (digits 0 nul)).2 rfl

theorem blobName_safe (hash : Digest) (mode : Nat) : isSafeComponent (blobName hash mode) = true := by
  apply safe_of_nameBytes
  · intro byte member
    rw [blobName, List.mem_append, List.mem_append] at member
    rcases member with (digits | dash) | digits
    · exact nameByte_of_isLowerHex (hex_isLowerHex _ byte digits)
    · have plain : ∀ byte ∈ utf8 "-", NameByte byte := by decide +kernel
      exact plain byte dash
    · exact nameByte_octal mode byte digits
  · rw [blobName, List.length_append, List.length_append, length_hex, hash.size]
    omega

theorem tempName_safe (hash : Digest) (index : Nat) :
    isSafeComponent (tempName writer hash index) = true := by
  apply safe_of_nameBytes
  · have dot : ∀ byte ∈ utf8 ".", NameByte byte := by decide +kernel
    have tail : ∀ byte ∈ utf8 ".tmp", NameByte byte := by decide +kernel
    have number (n : Nat) : ∀ byte ∈ decimal n, NameByte byte :=
      fun byte member => nameByte_of_isDigit (decimal_isDigit n byte member)
    intro byte member
    simp only [tempName, List.mem_append] at member
    rcases member with (((((first | digits) | second) | pid) | third) | sequence) | last
    · exact dot byte first
    · exact nameByte_of_isLowerHex (hex_isLowerHex _ byte digits)
    · exact dot byte second
    · exact number _ byte pid
    · exact dot byte third
    · exact number _ byte sequence
    · exact tail byte last
  · simp only [tempName, List.length_append, length_hex, hash.size]
    omega

/-! ### The passes -/

variable {base source writer} {start : Disk Stored} {tree : Disk Unit}

theorem confined_keepBlob {system : FileSystem} (confined : Confined base start true system)
    {shard temp name : Bytes} (blob : Stored) (first : isSafeComponent shard = true)
    (second : isSafeComponent temp = true) (third : isSafeComponent name = true) :
    Confined base start true (FileSystem.keepBlob system shard temp name blob) where
  outside := confined.outside
  below act place followed member := by
    rw [FileSystem.keepBlob, List.mem_append] at member
    rcases member with before | here
    · exact confined.below act place followed before
    · simp at here
  stored path member := by
    rw [FileSystem.keepBlob, List.mem_append] at member
    rcases member with before | here
    · exact confined.stored path before
    · simp only [List.mem_cons, Effect.store.injEq, List.not_mem_nil, or_false] at here
      rcases here with same | same | same <;> rw [same]
      · simp [first]
      · simp [first, second]
      · simp [first, third]

theorem provideBlob_ensures {entry : Format.Entry × Nat} :
    Proc.Ensures (Leaves base start true tree) (provideBlob source writer entry)
      (fun _ => Leaves base start true tree) (Confined base start true) := by
  intro system ⟨confined, shows⟩
  rw [provideBlob, exec_get]
  cases (system.store (shardName entry.1.contentHash)
      (blobName entry.1.contentHash (entry.1.mode &&& 0o777))).filter fun blob =>
        writer.hashesTo blob.bytes entry.1.contentHash with
  | some blob => exact ⟨confined, shows⟩
  | none =>
      dsimp only
      rw [readEntry]
      cases source.read entry.1 with
      | none => exact confined
      | some data =>
          exact ⟨confined_keepBlob confined _ (shardName_safe _) (tempName_safe _ _ _)
            (blobName_safe _ _), shows⟩

theorem linkBlob_ensures {entry : Format.Entry × Nat}
    (plain : Format.Manifest.Plain source.manifest (fun _ => true) tree) :
    Proc.Ensures (Leaves base start true tree) (linkBlob base source writer entry)
      (fun _ system =>
        Leaves base start true (source.manifest.withFile (fun _ => true) tree entry) system ∧
        Format.Manifest.Plain source.manifest (fun _ => true)
          (source.manifest.withFile (fun _ => true) tree entry))
      (Confined base start true) := by
  rw [linkBlob]
  refine Proc.Ensures.bind (entryPath_ensures fun system holds => holds.1) fun rel =>
    ensures_of_fact fun validated => ?_
  rw [Format.Manifest.withFile, Format.Manifest.pathOf_eq validated, if_pos rfl]
  have clear := plain.grown.clear validated
  refine Proc.Ensures.bind provideBlob_ensures fun blob =>
    Proc.Ensures.bind (createParent_ensures plain.whole.root clear) fun _ =>
      (replaced_ensures clear).weaken (fun _ holds => holds) ?_ (fun _ holds => holds)
  rintro _ system ⟨leaves, named, vacant⟩
  exact ⟨leaves, plain.withEntry named vacant⟩

theorem extractToCas_ensures (valid : source.manifest.Valid) :
    Proc.Ensures (Leaves base start true Format.Manifest.emptyTree) (extractToCas base source writer)
      (fun _ system =>
        Leaves base start true (source.manifest.extractedTree (fun _ => true) source.extent) system ∧
        Format.Manifest.Grown source.manifest (fun _ => true)
          (source.manifest.extractedTree (fun _ => true) source.extent))
      (Confined base start true) :=
  (dirPass_ensures fun _ _ rooted bare => extractDir_ensures rooted bare).bind fun _ =>
    (filePass_ensures fun _ _ plain => linkBlob_ensures plain).bind fun _ =>
      linkPass_ensures fun _ _ grown => extractLink_ensures valid grown

end Onelf.Runtime.Extract
