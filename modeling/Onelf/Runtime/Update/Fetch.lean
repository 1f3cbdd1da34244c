import Mathlib.Logic.Function.Basic
import Onelf.Cli.Artifact
import Onelf.Runtime.Update.Delta

/-! Fetching an update beside the running binary and verifying it (`fetch_verified` of
`update/mod.rs`). -/

namespace Onelf.Runtime.Update

open Onelf.Lib
open Onelf.Cli (Readers ArtifactError readFooterAndManifest openCodec packageData runtimeManifest)

/-! ### Verification -/

/-- The signature crate: a key and a signature read from their bytes, and the check itself. -/
structure Ed25519 where
  PublicKey : Type
  Signature : Type
  publicKey : Bytes → Option PublicKey
  signature : Bytes → Option Signature
  verify : PublicKey → Bytes → Signature → Bool

def verifyDetached (ed25519 : Ed25519) (pubkey message signature : Bytes) : Bool :=
  match ed25519.publicKey pubkey, ed25519.signature signature with
  | some key, some sig => ed25519.verify key message sig
  | _, _ => false

/-- `chunks(32)`, with room for as many chunks as there are bytes. -/
def chunks : Nat → Bytes → List Bytes
  | 0, _ => []
  | fuel + 1, bytes =>
      if bytes = [] then [] else bytes.take 32 :: chunks fuel (bytes.drop 32)

/-- The keys a package trusts; a trailing run shorter than a key is passed over. -/
def keyring (bytes : Bytes) : List Bytes :=
  (chunks bytes.length bytes).filter fun key => key.length = 32

/-- Why a staged file is not taken. -/
inductive Rejection where
  /-- The file could not be read, or mapped. -/
  | unreadable
  | empty
  | signature (keys : Nat)
  | package (reason : ArtifactError)
  | version (version : Nat)
  | runtimeHash
  | payload
  | contentHash
  deriving DecidableEq

def verifyUpdateSignature (ed25519 : Ed25519) (staged signature keyringBytes : Bytes) :
    Except Rejection Unit := do
  refuseIf (staged = []) .empty
  let keys := keyring keyringBytes
  refuseIf (¬ keys.any fun key => verifyDetached ed25519 key staged signature)
    (.signature keys.length)

/-- The blocks of one file, each held to its own hash, against the hash of the whole. -/
def verifyEntry (crates : Crates) (pkg : PackageData) (entry : Entry) : Except Rejection Unit :=
  if entry.kind ≠ .file then .ok ()
  else
    match entry.blocks.mapM (readPayloadEntry crates pkg) with
    | none => .error .payload
    | some blocks => refuseIf (crates.blake3 blocks.flatten ≠ entry.contentHash) .contentHash

def verifyUnsigned (readers : Readers) (staged : Bytes) : Except Rejection Unit := do
  let opened ← (readFooterAndManifest readers staged).mapError .package
  let codec ← (openCodec readers staged opened.1).mapError .package
  refuseIf (opened.2.header.version < 3) (.version opened.2.header.version)
  refuseIf (readers.crates.blake3 (staged.take opened.1.manifestOffset) ≠
    opened.2.header.prefixHash) .runtimeHash
  let pkg := packageData staged opened.1 opened.2 codec
  pkg.manifest.entries.forM (verifyEntry readers.crates pkg)

/-! ### The staging file -/

/-- The directory the update is staged in, and what its files hold. -/
structure Disk where
  names : Bytes → Option Nat
  content : Nat → Bytes
  /-- The inode the next new file gets. -/
  next : Nat

namespace Disk

/-- `claim_staging`: a new file under a name nothing has. -/
def claim (disk : Disk) (path : Bytes) : Option (Nat × Disk) :=
  match disk.names path with
  | some _ => none
  | none =>
      some (disk.next,
        { names := Function.update disk.names path (some disk.next)
          content := Function.update disk.content disk.next []
          next := disk.next + 1 })

def write (disk : Disk) (file : Nat) (bytes : Bytes) : Disk :=
  { disk with content := Function.update disk.content file bytes }

def remove (disk : Disk) (path : Bytes) : Disk :=
  { disk with names := Function.update disk.names path none }

end Disk

/-- What a download gives at a position. -/
inductive Read where
  | byte (byte : UInt8)
  | ended
  | failed

/-- What a run meets, of the source it fetches from and of the system. -/
structure Session where
  /-- `fetch_signature`. -/
  signature : Option Bytes
  stagedPath : Option Bytes
  /-- Whether the system lets the staging file be made. -/
  creates : Bool
  /-- `delta::assemble`: what it leaves in the staging file, and how much it reused when it
  succeeds. -/
  assemble : RemotePackage → Bytes → Bytes × Option Nat
  /-- Whether the assembled file, and the downloaded one, can be read back. -/
  readsAssembled : Bool
  readsDownloaded : Bool
  size : Option Nat
  /-- `fetch_whole`. -/
  whole : Option (Nat → Read)
  truncates : Bool
  seeks : Bool
  /-- How many bytes of a download the disk takes. -/
  room : Nat
  /-- The device the staging file is on, unless its metadata cannot be had. -/
  device : Option Nat

/-- What `io::copy` takes of a download, `limit` bytes at most, and whether it got there without an
error. -/
def received (reader : Nat → Read) : Nat → Nat → Bytes × Bool
  | _, 0 => ([], true)
  | pos, limit + 1 =>
      match reader pos with
      | .ended => ([], true)
      | .failed => ([], false)
      | .byte byte =>
          let rest := received reader (pos + 1) limit
          (byte :: rest.1, rest.2)

/-- What the file holds after `copy_into`, and whether it held the whole of a body no longer than
`limit`. -/
def copyInto (session : Session) (reader : Nat → Read) (file : Bytes) (limit : Nat) :
    Bytes × Bool :=
  if session.truncates = false then (file, false)
  else if session.seeks = false then (setLen file 0, false)
  else
    let copied := received reader 0 (saturatingAdd limit 1)
    (writeAt (setLen file 0) (copied.1.take session.room) 0,
      copied.2 && copied.1.length ≤ session.room && copied.1.length ≤ limit)

/-- The full download into the staging file. -/
def download (session : Session) (file : Bytes) : Bytes × Bool :=
  match session.size, session.whole with
  | some size, some reader => copyInto session reader file size
  | _, _ => (file, false)

/-- The verified update: its name, the file verified and that file's identity. -/
structure StagedUpdate where
  path : Bytes
  file : Nat
  identity : Nat × Nat
  deriving DecidableEq

section
variable (ed25519 : Ed25519) (readers : Readers) (session : Session)

/-- The closure `verify`, over a file that can be read or not. -/
def verify (signed : Option (Bytes × Bytes)) (reads : Bool) (staged : Bytes) :
    Except Rejection Unit := do
  refuseIf (reads = false) .unreadable
  match signed with
  | some (keys, sig) => verifyUpdateSignature ed25519 staged sig keys
  | none => verifyUnsigned readers staged

def pinVerified (path : Bytes) (file : Nat) (disk : Disk) : Except Nat StagedUpdate × Disk :=
  match session.device with
  | some device => (.ok ⟨path, file, (device, file)⟩, disk)
  | none => (.error 2, disk.remove path)

/-- The download in full into the file already claimed, and its verification. -/
def fetchWhole (signed : Option (Bytes × Bytes)) (path : Bytes) (file : Nat) (disk : Disk) :
    Except Nat StagedUpdate × Disk :=
  let downloaded := download session (disk.content file)
  let written := disk.write file downloaded.1
  if downloaded.2 = false then (.error 2, written.remove path)
  else
    match verify ed25519 readers signed session.readsDownloaded (written.content file) with
    | .error _ => (.error 2, written.remove path)
    | .ok () => pinVerified session path file written

/-- The delta attempt where there is a probed release, and the full download behind it. -/
def fetchInto (signed : Option (Bytes × Bytes)) (unsigned : Bool) (remote : Option RemotePackage)
    (path : Bytes) (file : Nat) (disk : Disk) : Except Nat StagedUpdate × Disk :=
  match remote with
  | none => fetchWhole ed25519 readers session signed path file disk
  | some remote =>
      let assembled := session.assemble remote (disk.content file)
      let written := disk.write file assembled.1
      match assembled.2 with
      | none => fetchWhole ed25519 readers session signed path file written
      | some reused =>
          match verify ed25519 readers signed session.readsAssembled (written.content file) with
          | .ok () => pinVerified session path file written
          | .error _ =>
              if 0 < reused ∨ unsigned then
                fetchWhole ed25519 readers session signed path file written
              else (.error 2, written.remove path)

/-- The signature is fetched first, and only where there are keys to hold it to. -/
def fetchSigned (pubkey : Option Bytes) : Option (Option (Bytes × Bytes)) :=
  match pubkey with
  | none => some none
  | some keys => session.signature.map fun sig => some (keys, sig)

def fetchVerified (pubkey : Option Bytes) (remote : Option RemotePackage) (disk : Disk) :
    Except Nat StagedUpdate × Disk :=
  match fetchSigned session pubkey, session.stagedPath with
  | some signed, some path =>
      match if session.creates then disk.claim path else none with
      | none => (.error 2, disk)
      | some (file, claimed) =>
          fetchInto ed25519 readers session signed pubkey.isNone remote path file claimed
  | _, _ => (.error 2, disk)

end

/-! ### What a run leaves behind -/

theorem mem_chunks {fuel : Nat} {bytes key : Bytes} (enough : bytes.length ≤ fuel) :
    key ∈ chunks fuel bytes ↔
      ∃ i, 32 * i < bytes.length ∧ key = slice bytes (32 * i) 32 := by
  induction fuel generalizing bytes with
  | zero =>
      have empty : bytes = [] := List.eq_nil_of_length_eq_zero (Nat.le_zero.mp enough)
      simp [chunks, empty]
  | succ fuel ih =>
      by_cases empty : bytes = []
      · simp [chunks, empty]
      · have positive : 0 < bytes.length := List.length_pos_of_ne_nil empty
        have shorter : (bytes.drop 32).length ≤ fuel := by
          rw [List.length_drop]
          omega
        rw [chunks, if_neg empty, List.mem_cons, ih shorter]
        constructor
        · intro either
          rcases either with first | ⟨i, inside, same⟩
          · exact ⟨0, positive, first⟩
          · refine ⟨i + 1, ?_, ?_⟩
            · rw [List.length_drop] at inside
              omega
            · rw [same, slice, slice, List.drop_drop, Nat.mul_succ, Nat.add_comm 32]
        · rintro ⟨i, inside, same⟩
          cases i with
          | zero => exact Or.inl same
          | succ i =>
              refine Or.inr ⟨i, ?_, ?_⟩
              · rw [List.length_drop]
                omega
              · rw [same, slice, slice, List.drop_drop, Nat.mul_succ, Nat.add_comm 32]

/-- The keys are the whole 32-byte runs of the embedded bytes. -/
theorem mem_keyring {bytes key : Bytes} :
    key ∈ keyring bytes ↔ ∃ i, 32 * i + 32 ≤ bytes.length ∧ key = slice bytes (32 * i) 32 := by
  rw [keyring, List.mem_filter, mem_chunks (le_refl _), decide_eq_true_iff]
  constructor
  · rintro ⟨⟨i, _, same⟩, sized⟩
    refine ⟨i, ?_, same⟩
    rw [same, slice, List.length_take, List.length_drop] at sized
    omega
  · rintro ⟨i, inside, same⟩
    refine ⟨⟨i, by omega, same⟩, ?_⟩
    rw [same]
    exact length_slice inside

section
variable (ed25519 : Ed25519) (readers : Readers) (session : Session)

/-- Some embedded key, 32 bytes long, signed the content. -/
def SignedByKey (keys sig content : Bytes) : Prop :=
  ∃ i key signature, 32 * i + 32 ≤ keys.length ∧
    ed25519.publicKey (slice keys (32 * i) 32) = some key ∧
      ed25519.signature sig = some signature ∧ ed25519.verify key content signature = true

/-- What a staged file has to pass, signed or unsigned. -/
def Accepts : Option (Bytes × Bytes) → Bytes → Prop
  | some (keys, sig), content => SignedByKey ed25519 keys sig content
  | none, content => verifyUnsigned readers content = .ok ()

/-- The verifier of the policy, with the signature the source gave. -/
def Accepted (pubkey : Option Bytes) (content : Bytes) : Prop :=
  ∃ signed, fetchSigned session pubkey = some signed ∧ Accepts ed25519 readers signed content

/-- How a run over a claimed file may end. -/
def Ends (signed : Option (Bytes × Bytes)) (path : Bytes) (file : Nat) (disk : Disk) :
    Except Nat StagedUpdate × Disk → Prop
  | (.ok staged, after) =>
      staged.path = path ∧ staged.file = file ∧ after.names = disk.names ∧
        Accepts ed25519 readers signed (after.content file)
  | (.error _, after) => after.names = Function.update disk.names path none

end

variable {ed25519 : Ed25519} {readers : Readers} {session : Session}

theorem signedByKey_of_verified {staged sig keys : Bytes}
    (verified : verifyUpdateSignature ed25519 staged sig keys = .ok ()) :
    SignedByKey ed25519 keys sig staged := by
  rcases Except.followed_eq_ok.mp verified with ⟨_, checked⟩
  have signed := not_not.mp (refuseIf_eq_ok.mp checked)
  rcases List.any_eq_true.mp signed with ⟨bytes, member, passes⟩
  rcases mem_keyring.mp member with ⟨i, inside, same⟩
  rw [same, verifyDetached] at passes
  split at passes
  · next key signature read parsed => exact ⟨i, key, signature, inside, read, parsed, passes⟩
  · cases passes

theorem accepts_of_verify {signed : Option (Bytes × Bytes)} {reads : Bool} {staged : Bytes}
    (verified : verify ed25519 readers signed reads staged = .ok ()) :
    Accepts ed25519 readers signed staged := by
  rcases Except.followed_eq_ok.mp verified with ⟨_, checked⟩
  cases signed with
  | none => exact checked
  | some signed => exact signedByKey_of_verified checked

theorem pinVerified_ends {signed : Option (Bytes × Bytes)} {path : Bytes} {file : Nat}
    {disk : Disk} (accepted : Accepts ed25519 readers signed (disk.content file)) :
    Ends ed25519 readers signed path file disk (pinVerified session path file disk) := by
  rw [pinVerified]
  cases session.device with
  | some device => exact ⟨rfl, rfl, rfl, accepted⟩
  | none => rfl

theorem fetchWhole_ends (signed : Option (Bytes × Bytes)) (path : Bytes) (file : Nat)
    (disk : Disk) :
    Ends ed25519 readers signed path file disk
      (fetchWhole ed25519 readers session signed path file disk) := by
  simp only [fetchWhole]
  split
  · rfl
  · split
    · rfl
    · next verified =>
        exact pinVerified_ends (accepts_of_verify verified)

theorem fetchInto_ends (signed : Option (Bytes × Bytes)) (unsigned : Bool)
    (remote : Option RemotePackage) (path : Bytes) (file : Nat) (disk : Disk) :
    Ends ed25519 readers signed path file disk
      (fetchInto ed25519 readers session signed unsigned remote path file disk) := by
  cases remote with
  | none => exact fetchWhole_ends signed path file disk
  | some remote =>
      simp only [fetchInto]
      split
      · exact fetchWhole_ends signed path file _
      · split
        · next verified => exact pinVerified_ends (accepts_of_verify verified)
        · split
          · exact fetchWhole_ends signed path file _
          · rfl

theorem Disk.claim_eq_some {disk claimed : Disk} {path : Bytes} {file : Nat}
    (made : disk.claim path = some (file, claimed)) :
    disk.names path = none ∧ claimed.names = Function.update disk.names path (some file) := by
  rw [Disk.claim] at made
  cases held : disk.names path with
  | some other => simp [held] at made
  | none =>
      simp only [held, Option.some.injEq, Prod.mk.injEq] at made
      rw [← made.1, ← made.2]
      exact ⟨rfl, rfl⟩

/-- A run is over with the verified content under its name, or with the names there were. -/
def Settled (ed25519 : Ed25519) (readers : Readers) (session : Session) (pubkey : Option Bytes)
    (disk : Disk) : Except Nat StagedUpdate × Disk → Prop
  | (.ok staged, after) =>
      Accepted ed25519 readers session pubkey (after.content staged.file) ∧
        disk.names staged.path = none ∧
          after.names = Function.update disk.names staged.path (some staged.file)
  | (.error _, after) => after.names = disk.names

theorem Ends.settled {signed : Option (Bytes × Bytes)} {path : Bytes} {file : Nat}
    {disk claimed : Disk} {pubkey : Option Bytes} {result : Except Nat StagedUpdate × Disk}
    (ends : Ends ed25519 readers signed path file claimed result)
    (fetched : fetchSigned session pubkey = some signed)
    (made : disk.claim path = some (file, claimed)) :
    Settled ed25519 readers session pubkey disk result := by
  rcases Disk.claim_eq_some made with ⟨free, entered⟩
  rcases result with ⟨outcome, after⟩
  cases outcome with
  | ok staged =>
      rcases ends with ⟨samePath, sameFile, names, accepted⟩
      rw [← samePath] at free entered
      rw [← sameFile] at accepted entered
      exact ⟨⟨signed, fetched, accepted⟩, free, names.trans entered⟩
  | error code =>
      have removed : after.names = Function.update claimed.names path none := ends
      show after.names = disk.names
      calc
        after.names = Function.update (Function.update disk.names path (some file)) path none := by
          rw [removed, entered]
        _ = Function.update disk.names path none := Function.update_idem _ _ _
        _ = disk.names := by rw [← free, Function.update_eq_self]

end Onelf.Runtime.Update
