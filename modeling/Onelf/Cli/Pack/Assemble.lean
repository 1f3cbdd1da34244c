import Onelf.Cli.Pack.Payload

/-! The manifest of a package and the file it stands in, from the options and the directory
(`pack.rs`). -/

namespace Onelf.Cli.Pack

open Onelf.Lib Onelf.Format
open Onelf.Runtime (Block EntryKind)

def asU16 (n : Nat) : Nat := n % 2 ^ 16
def asU32 (n : Nat) : Nat := n % 2 ^ 32

section
variable (opts : PackOptions) (host : Host)

/-! ### Options that are refused -/

/-- One or more public keys, none twice and none the second half of a secret key. -/
def checkUpdateKey (key : Bytes) : Bool :=
  let keys := runsOf 32 key.length key
  !key.isEmpty && key.length % 32 = 0 &&
    ((keys.zip keys.tail).all fun pair => host.publicKeyOf pair.1 ≠ pair.2) && keys.Nodup

def maxBlockSizeOf : Payload → Nat
  | .blocks => maxBlockSize
  | .stipple => maxStippleBlockSize

def isPowerOfTwo (n : Nat) : Bool := 2 ^ n.log2 = n

def optionsAccepted : Bool :=
  minBlockSize ≤ opts.blockSize && opts.blockSize ≤ maxBlockSizeOf opts.payload &&
    host.runtimeAccepted &&
    (opts.payload ≠ .stipple || isPowerOfTwo opts.blockSize && !opts.useDict) &&
    (opts.updateUrl.all fun url => utf8 "https://" <+: url.bytes) &&
    opts.updateKey.all (checkUpdateKey host) &&
    (!opts.updateUnsigned || opts.updateUrl.isSome && opts.updateKey.isNone) &&
    (opts.updateKey.isNone || opts.updateUrl.isSome) &&
    (opts.updateRevision.isNone || opts.updateUrl.isSome)

/-! ### Library directories -/

/-- The directory of a shared object, unless it is the root or none of a package's own. -/
def libDirOf (entry : Walked) : Option Text :=
  let name := entry.path.getLastD []
  let dir := lossyText (joinPath entry.path.dropLast)
  if entry.node matches .file _ && validUtf8 name && utf8 ".so" <:+: name && !dir.bytes.isEmpty &&
      ([utf8 ".onelf", utf8 "share/", utf8 "bin/", utf8 "etc/"].all fun lead =>
        !lead.isPrefixOf dir.bytes) then some dir
  else none

def pushNew (dirs : List Text) (dir : Text) : List Text :=
  if dirs.contains dir then dirs else dirs ++ [dir]

def autoDetectLibDirs (tree : Tree) : List Text := (tree.entries.filterMap libDirOf).foldl pushNew []

def autoText : Text := ⟨utf8 "auto", by decide +kernel⟩

/-- Where glvnd's library and another stand side by side, the other's directories go. -/
def checkLibglConflicts (libDirs : List Text) : List Text :=
  let glvnd := libDirs.filter fun dir => host.libGl dir.bytes = some true
  let legacy := libDirs.filter fun dir => host.libGl dir.bytes = some false
  if !glvnd.isEmpty && !legacy.isEmpty then libDirs.filter fun dir => !legacy.contains dir
  else libDirs

def resolveLibDirs (tree : Tree) : List Text :=
  checkLibglConflicts host
    (if opts.libDirs.contains autoText then
      (autoDetectLibDirs tree).foldl pushNew (opts.libDirs.filter (· ≠ autoText))
    else opts.libDirs)

/-! ### Entries -/

/-- What gets an entry. -/
structure Item where
  relPath : RelPath
  kind : EntryKind
  mode : UInt32
  mtimeSecs : UInt64
  contentHash : Digest
  blocks : List Block
  target : Option Bytes

def dirItem (dir : CollectedDir) : Item where
  relPath := dir.relPath
  kind := .dir
  mode := dir.mode
  mtimeSecs := dir.mtimeSecs
  contentHash := zeroDigest
  blocks := []
  target := none

def fileItem (file : CompressedFile) : Item where
  relPath := file.relPath
  kind := .file
  mode := file.mode
  mtimeSecs := file.mtimeSecs
  contentHash := file.contentHash
  blocks := file.blocks
  target := none

def symlinkItem (symlink : CollectedSymlink) : Item where
  relPath := symlink.relPath
  kind := .symlink
  mode := symlink.mode
  mtimeSecs := symlink.mtimeSecs
  contentHash := zeroDigest
  blocks := []
  target := some symlink.target

/-- Directories by depth, so parents come first. -/
def sortedDirs (dirs : List CollectedDir) : List CollectedDir :=
  sortByKey (fun dir => dir.relPath.length) dirs

def itemsOf (collected : Collected) (files : List CompressedFile) : List Item :=
  (sortedDirs collected.dirs).map dirItem ++ files.map fileItem ++
    collected.symlinks.map symlinkItem

structure Table where
  strings : StringTableBuilder
  entries : List Entry
  pathToIndex : SortedMap RelPath Nat

def rootEntry (name : Nat) : Entry where
  kind := .dir
  parent := u32Max
  name := name
  mode := 0o755
  mtimeSecs := 0
  mtimeNsec := 0
  contentHash := zeroDigest
  blocks := []
  symlinkTarget := 0

/-- What the command's last part is called where the options name no package. -/
def packageName : Text :=
  opts.name.getD (((opts.command.bytes.splitOn 47).getLast?.bind fromUtf8).getD
    ⟨utf8 "app", by decide +kernel⟩)

/-- The table with its root, and the package name's offset. -/
def startTable : Option (Table × Nat) :=
  let root := StringTableBuilder.new.add emptyText
  let named := root.1.add (packageName opts)
  if named.2 < 2 ^ 16 then
    some (⟨named.1, [rootEntry root.2], SortedMap.empty.insert [] 0⟩, named.2)
  else none

def addTarget (strings : StringTableBuilder) : Option Bytes → Option (StringTableBuilder × Nat)
  | none => some (strings, 0)
  | some target => (fromUtf8 target).map strings.add

/-- The root stands in for a parent that has no entry. -/
def addEntry (table : Table) (item : Item) : Option Table := do
  let name ← fromUtf8 (item.relPath.getLastD [])
  let named := table.strings.add name
  let target ← addTarget named.1 item.target
  let entry : Entry :=
    { kind := item.kind
      parent := (table.pathToIndex.get? item.relPath.dropLast).getD 0
      name := named.2
      mode := item.mode.toNat
      mtimeSecs := item.mtimeSecs.toNat
      mtimeNsec := 0
      contentHash := item.contentHash
      blocks := item.blocks
      symlinkTarget := target.2 }
  some ⟨target.1, table.entries ++ [entry],
    table.pathToIndex.insert item.relPath (asU32 table.entries.length)⟩

/-! ### Entrypoints -/

def defaultDecl : Option Declared :=
  opts.defaultEntrypoint.bind fun name => opts.entrypoints.find? fun row => row.name = name

/-- The command's own name names the default where none is chosen. -/
def defaultName : Text :=
  opts.defaultEntrypoint.getD
    (((packageRelative opts.command.bytes).getLast?.bind fun last => last.name?.bind fromUtf8).getD
      ⟨utf8 "main", by decide +kernel⟩)

def defaultRow : Declared where
  name := defaultName opts
  path := ((defaultDecl opts).map Declared.path).getD opts.command
  args := ((defaultDecl opts).map Declared.args).getD []

/-- The declared entrypoints that the default is not. -/
def otherRows : List Declared :=
  opts.entrypoints.filter fun row => opts.defaultEntrypoint ≠ some row.name

/-- The entrypoint table, default first. -/
def tableRows : List Declared := defaultRow opts :: otherRows opts

def finalEntrypointNames : List Text := (tableRows opts).map Declared.name

def relPathOf (path : Bytes) : Option RelPath :=
  (packageRelative path).mapM fun component => match component with
    | .normal name => some name
    | _ => none

def Table.indexOf (table : Table) (path : Text) : Option Nat :=
  (relPathOf path.bytes).bind table.pathToIndex.get?

def argSeparator : UInt8 := 0x1f

def joinArgs (args : List Text) : Text := joinText argSeparator (by decide) args

def addArgs (strings : StringTableBuilder) (emptyArgs : Nat) (args : List Text) :
    StringTableBuilder × Nat :=
  if args.isEmpty then (strings, emptyArgs) else strings.add (joinArgs args)

def addEntrypoint (table : Table) (emptyArgs : Nat)
    (added : StringTableBuilder × List EntryPoint) (row : Declared) :
    Option (StringTableBuilder × List EntryPoint) := do
  let target ← table.indexOf row.path
  let named := added.1.add row.name
  let args := addArgs named.1 emptyArgs row.args
  some (args.1, added.2 ++ [⟨named.2, target, args.2, opts.workingDir, 0⟩])

def addEntrypoints (table : Table) (flags : UInt8) :
    Option (StringTableBuilder × List EntryPoint) := do
  let _ ← table.indexOf opts.command
  let named := table.strings.add (defaultName opts)
  let empty := named.1.add emptyText
  let target ← table.indexOf (defaultRow opts).path
  let args := addArgs empty.1 empty.2 (defaultRow opts).args
  (otherRows opts).foldlM (addEntrypoint opts table empty.2)
    (args.1, [⟨named.2, target, args.2, opts.workingDir, flags⟩])

/-- A target that needs a library of the package's own cannot run from memory. -/
def memfdFlag (files : List CollectedFile) : Option UInt8 :=
  match opts.memfd with
  | some false => some 0
  | requested =>
      let content := (files.find? fun file =>
        relPathOf (defaultRow opts).path.bytes = some file.relPath).map CollectedFile.content
      if requested = some true && content.any host.needsBundledLib then none
      else if requested = some true || content.any host.hasNoDeps then some memfdEligible
      else some 0

def addLibDirs (strings : StringTableBuilder) : List Text → StringTableBuilder × List Nat
  | [] => (strings, [])
  | dir :: dirs =>
      let added := strings.add dir
      let rest := addLibDirs added.1 dirs
      (rest.1, added.2 :: rest.2)

/-! ### The container -/

/-- The signature goes into the padding of the ELF header. -/
def patchRuntime (runtime : Bytes) : Bytes :=
  if runtime.length ≥ 16 then runtime.take 9 ++ (utf8 "ONELF" ++ [0]) ++ runtime.drop 15
  else runtime

/-- The checksum of a current manifest leaves the footer's hash out. -/
def manifestChecksum (manifest : Bytes) : Bytes :=
  host.xxh32 (Codec.overwrite manifest 82 zeroDigest.bytes)

def hostLibsPolicy (files : List CollectedFile) : HostLibsPolicy :=
  match opts.hostLibs with
  | .always => .always
  | .never => .never
  | .auto => if host.needsHostLibs files then .auto else .never

def footerFlags (dict : Option Bytes) (files : List CollectedFile) : List Flag :=
  (if dict.isSome then [.hasDict] else []) ++
    (if opts.memfd = some true then [.memfdHint] else []) ++
    (match opts.payload with
      | .blocks => if opts.noCompress then [.stored] else []
      | .stipple => [.stipplePayload]) ++
    (if opts.updateUrl.isSome && !opts.embedUpdater then [.externalUpdater] else []) ++
    policyFlags (hostLibsPolicy opts host files) ++
    (if opts.cache || opts.preferCache then [.cacheRequested] else []) ++
    (if opts.preferCache then [.cachePreferred] else [])

/-- The footer with the fields that the compressed manifest fixes still zero. -/
def draftFooter (dict : Option Bytes) (files : List CollectedFile) (payloadSize : Nat)
    (checksum : Bytes) : Footer where
  formatVersion := footerFormatVersion
  flags := flagBits (footerFlags opts host dict files)
  manifestOffset := host.runtime.length
  manifestCompressed := 0
  manifestOriginal := 0
  payloadOffset := 0
  payloadSize := payloadSize
  dictOffset := 0
  dictSize := asU32 (dict.elim 0 List.length)
  manifestChecksum := checksum

def finishFooter (draft : Footer) (dict : Option Bytes) (manifest compressed : Bytes) : Footer where
  formatVersion := draft.formatVersion
  flags := draft.flags
  manifestOffset := draft.manifestOffset
  manifestCompressed := compressed.length
  manifestOriginal := manifest.length
  payloadOffset := draft.manifestOffset + compressed.length
  payloadSize := draft.payloadSize
  dictOffset :=
    if dict.isSome then draft.manifestOffset + compressed.length + draft.payloadSize else 0
  dictSize := draft.dictSize
  manifestChecksum := draft.manifestChecksum

/-! ### Packing -/

/-- The collected paths. -/
def Collected.paths (collected : Collected) : List RelPath :=
  collected.files.map CollectedFile.relPath ++ collected.dirs.map CollectedDir.relPath ++
    collected.symlinks.map CollectedSymlink.relPath

def isWalked (collected : Collected) (path : Text) : Bool :=
  (relPathOf path.bytes).any fun path => collected.paths.contains path

/-- No name is declared twice, the default is one of them and every path is in the tree. -/
def entrypointsAccepted (collected : Collected) : Bool :=
  (opts.entrypoints.map Declared.name).Nodup &&
    (opts.defaultEntrypoint.all fun name => opts.entrypoints.any fun row => row.name = name) &&
    isWalked collected opts.command && opts.entrypoints.all fun row => isWalked collected row.path

/-- The output cannot be renamed over a directory. -/
def outputIsDir (tree : Tree) : Bool :=
  tree.output = some [] ||
    tree.entries.any fun entry => tree.output = some entry.path && entry.node matches .dir

/-- The manifest before its own identity and the footer's hash are in it. -/
def manifestOf (libDirs : List Text) (collected : Collected) (files : List CompressedFile) :
    Option Manifest := do
  let started ← startTable opts
  let table ← (itemsOf collected files).foldlM addEntry started.1
  let flags ← memfdFlag opts host collected.files
  let entrypoints ← addEntrypoints opts table flags
  let dirs := addLibDirs entrypoints.1 libDirs
  let header : ManifestHeader :=
    { version := manifestVersion
      entryCount := asU32 table.entries.length
      stringTableSize := asU32 dirs.1.data.length
      entrypointCount := asU16 entrypoints.2.length
      defaultEntrypoint := 0
      libDirCount := asU16 dirs.2.length
      nameOffset := started.2
      packageId := zeroDigest
      prefixHash := host.blake3 (patchRuntime host.runtime)
      footerHash := zeroDigest }
  some ⟨header, entrypoints.2, table.entries, dirs.2, dirs.1.data⟩

structure Packed where
  manifest : Manifest
  /-- The manifest as it is written, with the two hashes in it. -/
  manifestBytes : Bytes
  output : Bytes

def pack (tree : Tree) : Option Packed := do
  guard (optionsAccepted opts host)
  let walked := collect opts host tree
  guard (collision walked).isNone
  let collected := injectAll opts host walked
  guard (entrypointsAccepted opts collected)
  let payloaded ← writePayload opts host collected.files
  let manifest ← manifestOf opts host (resolveLibDirs opts host tree) collected payloaded.files
  let packageId := host.blake3 manifest.serialize
  let identified := Codec.overwrite manifest.serialize 18 packageId.bytes
  let dict := dictionary opts host collected.files
  let draft := draftFooter opts host dict collected.files payloaded.payloadSize
    (manifestChecksum host identified)
  let manifestBytes := Codec.overwrite identified 82 (structureHash host.blake3 draft).bytes
  let compressed ← host.compressManifest manifestBytes
  guard (!outputIsDir tree)
  some ⟨manifest, manifestBytes, patchRuntime host.runtime ++ compressed ++ payloaded.payload ++
    dict.getD [] ++ footerBytes (finishFooter draft dict manifestBytes compressed)⟩

end

end Onelf.Cli.Pack
