import Mathlib.Data.List.Infix
import Onelf.Format.Footer
import Onelf.Format.StringTable

/-! What a pack collects of a directory, and what it injects (`pack.rs`). -/

namespace Onelf.Cli.Pack

open Onelf.Lib Onelf.Format

/-- A relative path, by its names. -/
abbrev RelPath := List Bytes

inductive Payload where
  | blocks
  | stipple
  deriving DecidableEq

inductive HostLibs where
  | auto
  | always
  | never
  deriving DecidableEq

/-- An entrypoint as it is declared. -/
structure Declared where
  name : Text
  path : Text
  args : List Text

structure PackOptions where
  command : Text
  name : Option Text
  entrypoints : List Declared
  defaultEntrypoint : Option Text
  libDirs : List Text
  blockSize : Nat
  payload : Payload
  useDict : Bool
  noCompress : Bool
  memfd : Option Bool
  workingDir : WorkingDir
  hostLibs : HostLibs
  cache : Bool
  preferCache : Bool
  updateUrl : Option Text
  embedUpdater : Bool
  updateKey : Option Bytes
  updateRevision : Option Nat
  updateUnsigned : Bool
  exclude : List Text
  packageInfo : Option Text
  mtime : Option UInt64
  env : List (Text × Text)
  paths : List (Text × Text)
  preload : List Text
  needsSetuid : Bool
  profile : List (Text × Nat)
  providerIndex : Option Bytes
  runtimeRules : Option Bytes
  entrypointSets : Option Bytes

/-! ### The directory -/

inductive Node where
  | dir
  | file (content : Bytes)
  | symlink (target : Bytes)
  /-- A kind a package has no entry for. -/
  | special
  deriving DecidableEq

def Node.target : Node → Option Bytes
  | .symlink target => some target
  | _ => none

structure Walked where
  path : RelPath
  node : Node
  mode : UInt32
  mtime : UInt64

/-- A directory as a walk lists it: each path once, under a directory that is listed too. -/
structure Tree where
  entries : List Walked
  /-- Where the output lies, if that is inside the directory. -/
  output : Option RelPath
  distinct : (entries.map Walked.path).Nodup
  named : ∀ entry ∈ entries, entry.path ≠ [] ∧ ∀ name ∈ entry.path, isSafeComponent name = true
  parents : ∀ entry ∈ entries, entry.path.dropLast = [] ∨
    ∃ parent ∈ entries, parent.path = entry.path.dropLast ∧ parent.node = .dir
  targets : ∀ entry ∈ entries, ∀ target ∈ entry.node.target, 0 ∉ target

structure CollectedDir where
  relPath : RelPath
  mode : UInt32
  mtimeSecs : UInt64

structure CollectedFile where
  relPath : RelPath
  content : Bytes
  mode : UInt32
  mtimeSecs : UInt64

structure CollectedSymlink where
  relPath : RelPath
  target : Bytes
  mode : UInt32
  mtimeSecs : UInt64

structure Collected where
  dirs : List CollectedDir
  files : List CollectedFile
  symlinks : List CollectedSymlink

/-- What a pack takes from outside its sources: the crates it links, the tools it runs and the host
it runs on. -/
structure Host where
  blake3 : Bytes → Digest
  xxh32 : Bytes → Bytes
  /-- One block compressed, against a dictionary where there is one. -/
  compress : Option Bytes → Bytes → Option Bytes
  trainDictionary : List Bytes → Nat → Option Bytes
  compressManifest : Bytes → Option Bytes
  /-- The image built of the files, and each path's inode in it and the slices it reads back in. -/
  stippleImage : List (RelPath × Bytes) → Option (Bytes × (RelPath → UInt32 × List Bytes))
  /-- What `glib-compile-schemas` made of the schema sources. -/
  compiledSchemas : Option Bytes
  ptInterp : Bytes → Option Bytes
  needsBundledLib : Bytes → Bool
  hasNoDeps : Bytes → Bool
  needsHostLibs : List CollectedFile → Bool
  /-- Whether the `libGL.so.1` of a library directory is glvnd's; `none` where there is none. -/
  libGl : Bytes → Option Bool
  publicKeyOf : Bytes → Bytes
  sourceDateEpoch : Option UInt64
  /-- The runtime supports what the package carries, and the carried selections match it. -/
  runtimeAccepted : Bool
  runtime : Bytes

section
variable (opts : PackOptions) (host : Host)

/-! ### Walking -/

def getMtime (raw : UInt64) : UInt64 :=
  match opts.mtime with
  | some pin => pin
  | none => match host.sourceDateEpoch with
    | some epoch => min raw epoch
    | none => raw

/-- A name that a pack's own scratch files have. -/
def isScratchName (name : Bytes) : Bool := utf8 ".tmp" <:+ name && utf8 ".onelf-" <:+: name

def matchesPattern (name pattern : Bytes) : Bool :=
  match stripPrefix (utf8 "*.") pattern with
  | some extension => utf8 "." ++ extension <:+ name
  | none => name = pattern

/-- A pattern counts on each component of the path. -/
def excluded (path : RelPath) : Bool :=
  path.any fun name => opts.exclude.any fun pattern => matchesPattern (lossy name) pattern.bytes

def onelfDir : Bytes := utf8 ".onelf"

/-- The packer's own bookkeeping of a sysroot build. -/
def generatedFile : RelPath := [onelfDir, utf8 "generated"]

/-- The file is itself a package, such as an earlier output. -/
def isOnelfPackage (content : Bytes) : Bool :=
  content.length ≥ Runtime.footerSize && slice content 0 4 = [127, 69, 76, 70] &&
    slice content 9 6 = utf8 "ONELF" ++ [0] && content.drop (content.length - 8) = footerEndMagic

/-- Whether the walk passes an entry on; what lies below a directory it does not is passed on all
the same. -/
def kept (output : Option RelPath) (path : RelPath) : Bool :=
  output ≠ some path && path ≠ generatedFile &&
    !isScratchName (lossy (path.getLastD [])) && !excluded opts path

def collectEntry (output : Option RelPath) (collected : Collected) (entry : Walked) : Collected :=
  if kept opts output entry.path then
    match entry.node with
    | .dir => { collected with dirs := collected.dirs ++
        [⟨entry.path, entry.mode, getMtime opts host entry.mtime⟩] }
    | .file content =>
        if isOnelfPackage content then collected
        else { collected with files := collected.files ++
          [⟨entry.path, content, entry.mode, getMtime opts host entry.mtime⟩] }
    | .symlink target => { collected with symlinks := collected.symlinks ++
        [⟨entry.path, target, entry.mode, getMtime opts host entry.mtime⟩] }
    | .special => collected
  else collected

def collect (tree : Tree) : Collected :=
  tree.entries.foldl (collectEntry opts host tree.output) ⟨[], [], []⟩

/-! ### The reserved directory -/

/-- The files below the reserved directory that a tree may bring. -/
def broughtFiles : List RelPath :=
  [[onelfDir, utf8 "provenance.toml"], [onelfDir, utf8 "platform"], [onelfDir, utf8 "sets"],
    [onelfDir, utf8 "sonames"], [onelfDir, utf8 "paths"]]

def isReserved (path : RelPath) : Bool :=
  [onelfDir] <+: path && path ≠ [onelfDir] && ¬[onelfDir, utf8 "icons"] <+: path &&
    ¬[onelfDir, utf8 "desktop"] <+: path && !broughtFiles.contains path

def collision (collected : Collected) : Option RelPath :=
  (collected.files.map CollectedFile.relPath ++ collected.dirs.map CollectedDir.relPath ++
    collected.symlinks.map CollectedSymlink.relPath).find? isReserved

/-! ### Injecting -/

def injectMtime : UInt64 := opts.mtime.getD 0

/-- Adds `.onelf/<name>`, and the directory once. -/
def injectOnelfFile (name content : Bytes) (collected : Collected) : Collected where
  dirs := collected.dirs ++
    if collected.dirs.any fun dir => dir.relPath = [onelfDir] then []
    else [⟨[onelfDir], 0o755, injectMtime opts⟩]
  files := collected.files ++ [⟨[onelfDir, name], content, 0o644, injectMtime opts⟩]
  symlinks := collected.symlinks

def injectOption (name : Bytes) (content : Option Bytes) (collected : Collected) : Collected :=
  match content with
  | some content => injectOnelfFile opts name content collected
  | none => collected

/-- The records the options carry as they are. -/
def carriedRecords : List (Bytes × Option Bytes) :=
  [(utf8 "update-url", opts.updateUrl.map Text.bytes),
    (utf8 "update-revision", opts.updateRevision.map decimal),
    (utf8 "update-key", opts.updateKey),
    (utf8 "update-unsigned", if opts.updateUnsigned then some (utf8 "true") else none),
    (utf8 "package-info.toml", opts.packageInfo.map Text.bytes),
    (utf8 "providers", opts.providerIndex),
    (utf8 "runtime-rules", opts.runtimeRules),
    (utf8 "entrypoint-sets", opts.entrypointSets)]

def schemasDir : RelPath := [utf8 "share", utf8 "glib-2.0", utf8 "schemas"]
def compiledSchema : RelPath := schemasDir ++ [utf8 "gschemas.compiled"]

def isSchemaSource (path : RelPath) : Bool :=
  path.dropLast = schemasDir && utf8 ".xml" <:+ path.getLastD [] && (path.getLastD []).length > 4

/-- Whether the compiler is run: the sources are shipped and their compiled blob is not. -/
def needsSchemas (collected : Collected) : Bool :=
  (collected.dirs.any fun dir => dir.relPath = schemasDir) &&
    (!collected.files.any fun file => file.relPath = compiledSchema) &&
      collected.files.any fun file => isSchemaSource file.relPath

def compileGsettingsSchemas (collected : Collected) : Collected :=
  if needsSchemas collected then
    match host.compiledSchemas with
    | some (byte :: blob) => { collected with files := collected.files ++
        [⟨compiledSchema, byte :: blob, 0o644, injectMtime opts⟩] }
    | _ => collected
  else collected

/-- The path the default entrypoint launches, as it is written. -/
def defaultEntrypointPath : Bytes :=
  match opts.defaultEntrypoint.bind fun name =>
    opts.entrypoints.find? fun declared => declared.name = name with
  | some declared => declared.path.bytes
  | none => opts.command.bytes

/-- The package's own copy of the interpreter the default entrypoint names. -/
def bundledInterp (collected : Collected) : Option Bytes := do
  let target ← collected.files.find? fun file =>
    file.relPath.map Component.normal = components (defaultEntrypointPath opts)
  let interp ← host.ptInterp target.content
  let name ← Lib.fileName interp
  let path ← ((collected.files.map CollectedFile.relPath).find? fun path =>
      path.getLast? = some name).or
    ((collected.symlinks.map CollectedSymlink.relPath).find? fun path => path.getLast? = some name)
  some (lossy (joinPath path))

/-- The package's own `bin` comes first unless the recipe sets the search path itself. -/
def envLines : List Bytes :=
  (if opts.env.any fun setting => setting.1.bytes = utf8 "PATH" then []
    else [utf8 "PATH=$\x7bONELF_DIR\x7d/bin:$\x7bPATH:-/usr/bin:/bin\x7d"]) ++
    opts.env.map fun setting => setting.1.bytes ++ utf8 "=" ++ setting.2.bytes

def joined (lines : List Bytes) : Bytes := [lineFeed].intercalate lines

def packageRelative (path : Bytes) : List Component := (components path).filter (· ≠ .current)

def sliceSize : Nat := 64 * 1024

/-- The size of the file at `path`, the last one collected there. -/
def sizeAt (files : List CollectedFile) (path : List Component) : Option Nat :=
  ((files.reverse.find? fun file => file.relPath.map Component.normal = path)).map fun file =>
    file.content.length

def nameOf : Component → Bytes
  | .normal name => name
  | _ => []

/-- The blocks a profile names, by path and index, each once. -/
def prefetchBlocks (files : List CollectedFile) (blockSize : Nat) :
    List (Bytes × Nat) → List (Text × Nat) → List (Bytes × Nat)
  | seen, [] => seen
  | seen, (path, offset) :: profile =>
      let rel := joinPath ((packageRelative path.bytes).map nameOf)
      if ((sizeAt files (packageRelative path.bytes)).any fun size => offset < size) &&
          validUtf8 rel && !seen.contains (rel, offset / blockSize) then
        prefetchBlocks files blockSize (seen ++ [(rel, offset / blockSize)]) profile
      else prefetchBlocks files blockSize seen profile

def prefetchLines (collected : Collected) : List Bytes :=
  (prefetchBlocks collected.files
    (match opts.payload with
      | .blocks => opts.blockSize
      | .stipple => sliceSize) [] opts.profile).map fun block =>
    block.1 ++ utf8 "\t" ++ decimal block.2

/-- A record that is written where it has lines. -/
def whereAny (lines : List Bytes) : Option Bytes :=
  if lines.isEmpty then none else some (joined lines)

/-- Everything injected, in order; what a later record says may depend on the files before it. -/
def injectAll (collected : Collected) : Collected :=
  let collected := (carriedRecords opts).foldl
    (fun collected record => injectOption opts record.1 record.2 collected) collected
  let collected := compileGsettingsSchemas opts host collected
  let collected := injectOption opts (utf8 "interp") (bundledInterp opts host collected) collected
  let collected := injectOnelfFile opts (utf8 "env") (joined (envLines opts)) collected
  let collected := injectOption opts (utf8 "paths")
    (whereAny (opts.paths.map fun overlay => overlay.1.bytes ++ utf8 "\t" ++ overlay.2.bytes))
    collected
  let collected := injectOption opts (utf8 "preload") (whereAny (opts.preload.map Text.bytes))
    collected
  let collected := injectOption opts (utf8 "needs-setuid")
    (if opts.needsSetuid then some [] else none) collected
  injectOption opts (utf8 "prefetch") (whereAny (prefetchLines opts collected)) collected

end

end Onelf.Cli.Pack
