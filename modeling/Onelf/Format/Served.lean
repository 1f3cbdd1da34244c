import Mathlib.Data.List.Find
import Onelf.Format.LoaderCache
import Onelf.Format.Resolve
import Onelf.Lib.Path
import Onelf.Lib.Str

/-! Which launches a recorded decision is served to (`resolve.rs`): the host the resolver reads, the
stamps a record is kept under, and the checks before one is taken. -/

namespace Onelf.Format.Served

open Onelf.Lib
open Onelf.Format.LoaderCache (TargetArch cachePaths)

/-! ### The host -/

inductive Body where
  | file (bytes : Bytes)
  | dir (names : List Bytes)
  | other
  deriving DecidableEq

def Body.isFile : Body → Bool
  | .file _ => true
  | _ => false

/-- What a path leads to. -/
structure Object where
  metadata : Metadata
  body : Body
  kind : metadata.isFile = body.isFile
  nsec : 0 ≤ metadata.mtimeNsec ∧ metadata.mtimeNsec < 1000000000

/-- A host at one moment: what its paths lead to, links followed, and where its links point. -/
structure Host where
  look : Bytes → Option Object
  readLink : Bytes → Option Bytes

/-- What the object readers find in a file's bytes. -/
structure Readers where
  versions : Bytes → Option VersionSet
  needed : Bytes → Option (List Bytes)
  interp : Bytes → Option Bytes
  target : TargetArch

namespace Host
variable (host : Host)

def files : Files := fun path => (host.look path).map Object.metadata

def body (path : Bytes) : Option Body := (host.look path).map Object.body

/-- `fs::read` -/
def read (path : Bytes) : Option Bytes :=
  match host.body path with
  | some (.file bytes) => some bytes
  | _ => none

/-- `fs::read_dir` -/
def readDir (path : Bytes) : Option (List Bytes) :=
  match host.body path with
  | some (.dir names) => some names
  | _ => none

def isDir (path : Bytes) : Bool := (host.readDir path).isSome

def regular (path : Bytes) : Bool := (host.body path).any Body.isFile

/-- The files as the resolver reads them. -/
def tree (readers : Readers) : Tree where
  readDir := host.readDir
  readLink := host.readLink
  regular := host.regular
  readVersions path := (host.read path).bind readers.versions
  readNeeded path := (host.read path).bind readers.needed
  readInterp path := (host.read path).bind readers.interp

end Host

/-- One launch: what it weighs, where it looks on the host, and its store. -/
structure Launch extends Request where
  ldCache : Bytes
  icdDirs : List Bytes
  extraRoot : Option Bytes
  store : Bytes

/-! ### The host's libraries -/

def glBuildIcdDirs : List Bytes := [utf8 "share/vulkan/icd.d", utf8 "share/glvnd/egl_vendor.d"]

def glBuildSeeds : List Bytes :=
  [utf8 "libGLX_", utf8 "libEGL_", utf8 "libgallium", utf8 "libdril", utf8 "libvulkan_",
    utf8 "libVkLayer_"]

/-- A file name with a stem before the dot and `extension` after it. -/
def hasExtension (extension name : Bytes) : Bool :=
  (46 :: extension).isSuffixOf name && decide (extension.length + 1 < name.length)

/-- What follows the first occurrence of `pattern`. -/
def afterText (pattern : Str) : Str → Option Str
  | [] => none
  | c :: text =>
      if pattern.isPrefixOf (c :: text) then some ((c :: text).drop pattern.length)
      else afterText pattern text

/-- The string value of the first `"library_path"` key. -/
def jsonLibraryPath (text : Str) : Option Str := do
  let rest ← afterText "\"library_path\"".toList text
  let rest ← Str.stripPrefix ':' (rest.dropWhile Str.isWhitespace)
  let rest ← Str.stripPrefix '"' (rest.dropWhile Str.isWhitespace)
  (Str.splitOnce '"' rest).map Prod.fst

/-- `fs::read_to_string` -/
def readToString (host : Host) (path : Bytes) : Option Str :=
  ((host.read path).filter validUtf8).map Str.fromUtf8Lossy

/-- `str::rsplit_once` at a slash. -/
def rsplitSlash (path : Bytes) : Option (Bytes × Bytes) :=
  (splitOnce 47 path.reverse).map fun (name, dir) => (dir.reverse, name.reverse)

section
variable (readers : Readers) (host : Host)

/-- The paths the loader cache at `cache` lists. -/
def cacheList (cache : Bytes) : List Bytes :=
  match host.read cache with
  | none => []
  | some data => (cachePaths readers.target data).toOption.getD []

def cachePathsIn (cache : Bytes) : List (Bytes × Bytes) :=
  (cacheList readers host cache).filterMap fun path =>
    (rsplitSlash path).bind fun (_, name) => if name.isEmpty then none else some (name, path)

/-- The directories of the cache's paths, each once. -/
def listedDirs (cache : Bytes) : List Bytes :=
  (cacheList readers host cache).foldl (fun dirs path =>
    match rsplitSlash path with
    | none => dirs
    | some (dir, _) => if dir.isEmpty || dirs.contains dir then dirs else dirs ++ [dir]) []

def cacheDirsIn (cache : Bytes) : List Bytes := (listedDirs readers host cache).filter host.isDir

/-- The `dri` directories beside the host's library directories. -/
def moduleDirs (cache : Bytes) : List Bytes :=
  ((cacheDirsIn readers host cache).map fun dir => joinPath dir (utf8 "dri")).filter host.isDir

/-- The description files of `dirs`, each with its directory. -/
def descriptions (dirs : List Bytes) : List (Bytes × Bytes) :=
  dirs.flatMap fun dir => (((host.readDir dir).getD []).filter (hasExtension (utf8 "json"))).map
    fun name => (dir, joinPath dir name)

/-- The `library_path` of a description file. -/
def describedPath (path : Bytes) : Option Bytes :=
  (readToString host path).bind fun text => (jsonLibraryPath text).map Str.encodeUtf8

/-- Where a value with a slash in it leads. -/
def valuePath (dir value : Bytes) : Bytes := if isAbsolute value then value else joinPath dir value

/-- The driver one description file names, if it is there. -/
def describedLib (bareNames : SortedMap Bytes Bytes) (description : Bytes × Bytes) :
    Option Bytes :=
  (describedPath host description.2).bind fun value =>
    if !value.contains 47 then bareNames.get? value
    else if host.regular (valuePath description.1 value) then
      some (valuePath description.1 value)
    else none

/-- `icd_library_paths_in` -/
def icdLibraryPathsIn (dirs : List Bytes) (bareNames : SortedMap Bytes Bytes) : List Bytes :=
  (descriptions host dirs).filterMap (describedLib host bareNames)

/-- The modules of the `dri` directories. -/
def modulePaths (cache : Bytes) : List Bytes :=
  (moduleDirs readers host cache).flatMap fun dir =>
    (((host.readDir dir).getD []).filter (hasExtension (utf8 "so"))).map (joinPath dir)

/-- The description directories of a GL build. -/
def buildIcdDirs (root : Bytes) : List Bytes :=
  glBuildIcdDirs.map fun dir => lossy (joinPath root dir)

/-- What a GL build brings: its libraries, and those that seed the walk. -/
def loadBuild : Option Bytes → SortedMap Bytes Bytes × List Bytes
  | none => (SortedMap.empty, [])
  | some root =>
      let libs := bundledLibs (host.tree readers) root glBuildLibDirs
      (libs, (libs.entries.filter fun entry => startsWithAny glBuildSeeds entry.1).map Prod.snd ++
        icdLibraryPathsIn host (buildIcdDirs root) libs)

/-- A driver found through a description file is known under its file name. -/
def addDescribed (libs : SortedMap Bytes Bytes) (path : Bytes) : SortedMap Bytes Bytes :=
  match (fileName path).filter validUtf8 with
  | some name => libs.orInsert name path
  | none => libs

/-- `HostIndex::load` -/
def load (launch : Launch) : HostIndex :=
  let build := loadBuild readers host launch.extraRoot
  let libs := orInsertAll build.1 (cachePathsIn readers host launch.ldCache)
  let icdLibs := build.2 ++ icdLibraryPathsIn host launch.icdDirs libs
  { libs := icdLibs.foldl addDescribed libs
    icdLibs := icdLibs
    moduleNeeds := sortDedup ((modulePaths readers host launch.ldCache).flatMap fun path =>
      ((host.tree readers).readNeeded path).getD []) }

/-! ### What of the host is read -/

/-- The description directories that are looked into. -/
def descriptionDirs (launch : Launch) : List Bytes :=
  launch.icdDirs ++ (launch.extraRoot.map buildIcdDirs).getD []

/-- The drivers description files name by a path. -/
def describedPaths (dirs : List Bytes) : List Bytes :=
  (descriptions host dirs).filterMap fun description =>
    ((describedPath host description.2).filter fun value => value.contains 47).map
      (valuePath description.1)

def buildDirs (launch : Launch) : List Bytes :=
  (launch.extraRoot.map fun root => glBuildLibDirs.map (joinPath root)).getD []

/-- What stands in a GL build's library directories. -/
def buildEntries (launch : Launch) : List Bytes :=
  (buildDirs launch).flatMap fun dir => ((host.readDir dir).getD []).map (joinPath dir)

/-- The libraries of the index. -/
def libraries (launch : Launch) : List Bytes :=
  (load readers host launch).libs.entries.map Prod.snd

/-- The loader that the host's libc names. -/
def namedLoader (launch : Launch) : List Bytes :=
  (((load readers host launch).libs.get? libc).bind fun path =>
    (host.tree readers).readInterp path).toList

/-- Every path of the host whose content a decision depends on, beside the loader cache, its
directories and the loader. -/
def consulted (launch : Launch) : List Bytes :=
  descriptionDirs launch ++ (descriptions host (descriptionDirs launch)).map Prod.snd ++
    describedPaths host (descriptionDirs launch) ++ modulePaths readers host launch.ldCache ++
    buildDirs launch ++ buildEntries host launch ++ libraries readers host launch

/-! ### The stamps -/

def unitSeparator : UInt8 := 31

/-- Nanoseconds since 1970; an earlier time counts as that. -/
def stampTime (metadata : Metadata) : Nat :=
  (metadata.mtime * 1000000000 + metadata.mtimeNsec).toNat

def stampValue (path : Bytes) : Bytes :=
  match host.files path with
  | some metadata =>
      utf8 "=" ++ decimal metadata.len ++ utf8 ":" ++ decimal (stampTime metadata)
  | none => utf8 "=missing"

def stamp (path : Bytes) : Bytes := unitSeparator :: (lossy path ++ stampValue host path)

/-- The directories that are stamped whatever the loader cache says. -/
def fixedDirs (launch : Launch) : List Bytes :=
  launch.icdDirs ++ match launch.extraRoot with
    | none => []
    | some root => (glBuildLibDirs ++ glBuildIcdDirs).map (joinPath root)

def stampedPaths (launch : Launch) : List Bytes :=
  launch.ldCache :: (cacheDirsIn readers host launch.ldCache ++
    moduleDirs readers host launch.ldCache ++ fixedDirs launch)

def HostLibsPolicy.text : HostLibsPolicy → Bytes
  | .never => utf8 "never"
  | .auto => utf8 "auto"
  | .always => utf8 "always"

/-- What a fingerprint begins with, whatever the host. -/
def fingerprintLead (launch : Launch) : Bytes :=
  utf8 "onelf-resolve-1 " ++ HostLibsPolicy.text launch.policy ++
    if launch.hostLibc then [] else utf8 " bundled-libc"

def fingerprint (launch : Launch) : Bytes :=
  fingerprintLead launch ++ (stampedPaths readers host launch).flatMap (stamp host)

/-! ### A record that is served -/

/-- 64-bit FNV-1a. -/
def mix (hash : UInt64) (byte : UInt8) : UInt64 :=
  (hash ^^^ byte.toUInt64) * 0x00000100000001b3

def hex64 (word : UInt64) : Bytes := hexPrefix (leBytes 8 word.toNat).reverse

def farmDir (store fingerprint : Bytes) (winners : Winners) : Bytes :=
  let first := fingerprint.foldl mix 0xcbf29ce484222325
  let second := winners.entries.foldl
    (fun hash entry => mix ((entry.1 ++ lossy entry.2).foldl mix hash) unitSeparator)
    0xcbf29ce484222325
  joinPath store (utf8 "farm-" ++ hex64 first ++ utf8 "-" ++ hex64 second)

/-- The farm, when every link names the file the decision chose and the file still exists. -/
def farmChecked (store fingerprint : Bytes) (winners : Winners) : Option Bytes :=
  let farm := farmDir store fingerprint winners
  if winners.entries.all fun entry =>
      (host.readLink (joinPath farm entry.1)).any (fun target =>
        components target = components entry.2) && host.regular entry.2
  then some farm else none

def recordMaxBytes : Nat := 1024 * 1024

/-- The record's text, read only when it is a small regular file holding text. -/
def readRecordBounded (path : Bytes) : Option Bytes :=
  if (host.files path).any fun metadata => metadata.isFile && metadata.len ≤ recordMaxBytes then
    (host.read path).filter validUtf8
  else none

/-- `load_selection` over the record at `path`. -/
def loadSelection (path : Bytes) (identity : SelectionIdentity) (fingerprint store : Bytes) :
    Option (Resolution × Winners) :=
  (readRecordBounded host path).bind fun text =>
    (parseDecision host.files text selectionRecordHeader identity.identityLines fingerprint).bind
      fun (resolution, winners) =>
        if winners.entries.isEmpty then some (resolution, winners)
        else (farmChecked host store fingerprint winners).map fun farm =>
          ({ resolution with farm := some farm }, winners)

/-- Where a selection's record lies. -/
def recordPath (launch : Launch) (identity : SelectionIdentity) : Bytes :=
  joinPath (joinPath launch.store (selectionDirPrefix ++ identity.key)) (utf8 "decision")

/-- What `resolve_selected` serves from a record, if it serves one. -/
def served (launch : Launch) (identity : SelectionIdentity) : Option (Resolution × Winners) :=
  if launch.policy = .never || (load readers host launch).libs.entries.isEmpty then none
  else loadSelection host (recordPath launch identity) identity (fingerprint readers host launch)
    launch.store

/-- What is decided afresh. -/
def decided (launch : Launch) : Decision :=
  decideOn (host.tree readers) launch.toRequest (load readers host launch)

/-- What `materialized` makes of a fresh decision: nothing is taken where its farm is not built. -/
def materialized (built : Bool) (decision : Decision) : Resolution :=
  if built then ⟨none, decision.hostInterp, decision.incomparable⟩ else Resolution.empty

/-- The record a fresh decision leaves. -/
def recorded (built : Bool) (launch : Launch) (identity : SelectionIdentity) : Bytes :=
  recordSelection host.files identity (fingerprint readers host launch)
    (materialized built (decided readers host launch)) (decided readers host launch).winners

end

/-! ### Hosts that read the same -/

section
variable {readers : Readers} {first second : Host}

/-- The path leads to the same content. -/
def Alike (first second : Host) (path : Bytes) : Prop := first.body path = second.body path

theorem Alike.read {path : Bytes} (alike : Alike first second path) :
    first.read path = second.read path := by rw [Host.read, Host.read, alike]

/-- A path where the resolver finds the same: a directory's names, or what it reads of a file. -/
structure Found (readers : Readers) (first second : Host) (path : Bytes) : Prop where
  readDir : first.readDir path = second.readDir path
  regular : first.regular path = second.regular path
  described : describedPath first path = describedPath second path
  versions : (first.read path).bind readers.versions = (second.read path).bind readers.versions
  needed : (first.read path).bind readers.needed = (second.read path).bind readers.needed
  interp : (first.read path).bind readers.interp = (second.read path).bind readers.interp

theorem Alike.found {path : Bytes} (alike : Alike first second path) :
    Found readers first second path where
  readDir := by rw [Host.readDir, Host.readDir, alike]
  regular := by rw [Host.regular, Host.regular, alike]
  described := by rw [describedPath, describedPath, readToString, readToString, alike.read]
  versions := by rw [alike.read]
  needed := by rw [alike.read]
  interp := by rw [alike.read]

/-- A library directory and its entries read the same. -/
structure DirAlike (readers : Readers) (first second : Host) (dir : Bytes) : Prop where
  listing : Found readers first second dir
  entry : ∀ name ∈ (first.readDir dir).getD [], Found readers first second (joinPath dir name) ∧
    first.readLink (joinPath dir name) = second.readLink (joinPath dir name)

theorem libsIn_congr {dir : Bytes} (alike : DirAlike readers first second dir) :
    libsIn (first.tree readers) dir = libsIn (second.tree readers) dir := by
  rw [libsIn, libsIn]
  dsimp only [Host.tree]
  rw [← alike.listing.readDir]
  apply List.filterMap_congr
  intro name member
  obtain ⟨same, link⟩ := alike.entry name member
  exact if_congr (by rw [link, same.regular]) rfl rfl

theorem bundledLibs_congr {root : Bytes} {dirs : List Bytes}
    (alike : ∀ dir ∈ dirs, DirAlike readers first second (joinPath root dir)) :
    bundledLibs (first.tree readers) root dirs = bundledLibs (second.tree readers) root dirs := by
  rw [bundledLibs, bundledLibs]
  apply List.foldl_ext
  intro libs dir member
  rw [libsIn_congr (alike dir member)]

theorem descriptions_congr {dirs : List Bytes}
    (alike : ∀ dir ∈ dirs, Found readers first second dir) :
    descriptions first dirs = descriptions second dirs := by
  rw [descriptions, descriptions]
  apply List.flatMap_congr
  intro dir member
  rw [(alike dir member).readDir]

/-- The description files of `dirs` read the same, and so do the drivers they name. -/
structure Described (readers : Readers) (first second : Host) (dirs : List Bytes) : Prop where
  listings : ∀ dir ∈ dirs, Found readers first second dir
  files : ∀ description ∈ descriptions first dirs, Found readers first second description.2
  libs : ∀ path ∈ describedPaths first dirs, Found readers first second path

theorem icdLibraryPathsIn_congr {dirs : List Bytes}
    (described : Described readers first second dirs)
    (bareNames : SortedMap Bytes Bytes) :
    icdLibraryPathsIn first dirs bareNames = icdLibraryPathsIn second dirs bareNames := by
  rw [icdLibraryPathsIn, icdLibraryPathsIn, ← descriptions_congr described.listings]
  apply List.filterMap_congr
  intro description member
  have value := (described.files description member).described
  rw [describedLib, describedLib, ← value]
  cases named : describedPath first description.2 with
  | none => rfl
  | some text =>
      rw [Option.bind_some, Option.bind_some]
      cases slashed : text.contains 47 with
      | false => rfl
      | true =>
          have listed : valuePath description.1 text ∈ describedPaths first dirs := by
            refine List.mem_filterMap.mpr ⟨description, member, ?_⟩
            rw [named, Option.filter_some, slashed]
            rfl
          rw [(described.libs _ listed).regular]

theorem cacheList_congr {cache : Bytes} (alike : Alike first second cache) :
    cacheList readers first cache = cacheList readers second cache := by
  rw [cacheList, cacheList, alike.read]

theorem cachePathsIn_congr {cache : Bytes} (alike : Alike first second cache) :
    cachePathsIn readers first cache = cachePathsIn readers second cache := by
  rw [cachePathsIn, cachePathsIn, cacheList_congr alike]

theorem listedDirs_congr {cache : Bytes} (alike : Alike first second cache) :
    listedDirs readers first cache = listedDirs readers second cache := by
  rw [listedDirs, listedDirs, cacheList_congr alike]

/-- The driver modules of the host read the same. -/
structure ModulesAlike (readers : Readers) (first second : Host) (cache : Bytes) : Prop where
  same : moduleDirs readers first cache = moduleDirs readers second cache
  dirs : ∀ dir ∈ moduleDirs readers first cache, Found readers first second dir
  files : ∀ path ∈ modulePaths readers first cache, Found readers first second path

theorem modulePaths_congr {cache : Bytes} (alike : ModulesAlike readers first second cache) :
    modulePaths readers first cache = modulePaths readers second cache := by
  rw [modulePaths, modulePaths, ← alike.same]
  apply List.flatMap_congr
  intro dir member
  rw [(alike.dirs dir member).readDir]

theorem loadBuild_congr {extraRoot : Option Bytes}
    (libs : ∀ root ∈ extraRoot, ∀ dir ∈ glBuildLibDirs,
      DirAlike readers first second (joinPath root dir))
    (described : ∀ root ∈ extraRoot, Described readers first second (buildIcdDirs root)) :
    loadBuild readers first extraRoot = loadBuild readers second extraRoot := by
  cases extraRoot with
  | none => rfl
  | some root =>
      rw [loadBuild, loadBuild, bundledLibs_congr (libs root rfl)]
      simp only [icdLibraryPathsIn_congr (described root rfl)]

end

/-- All that a decision reads of the host reads the same. -/
structure ReadsAlike (readers : Readers) (launch : Launch) (first second : Host) : Prop where
  cache : Alike first second launch.ldCache
  modules : ModulesAlike readers first second launch.ldCache
  consulted : ∀ path ∈ consulted readers first launch, Found readers first second path
  links : ∀ path ∈ buildEntries first launch, first.readLink path = second.readLink path
  loader : ∀ path ∈ namedLoader readers first launch, first.regular path = second.regular path

section
variable {readers : Readers} {launch : Launch} {first second : Host}

theorem mem_consulted {path : Bytes} : path ∈ consulted readers first launch ↔
    path ∈ descriptionDirs launch ∨
    path ∈ (descriptions first (descriptionDirs launch)).map Prod.snd ∨
    path ∈ describedPaths first (descriptionDirs launch) ∨
    path ∈ modulePaths readers first launch.ldCache ∨ path ∈ buildDirs launch ∨
    path ∈ buildEntries first launch ∨ path ∈ libraries readers first launch := by
  simp only [consulted, List.mem_append, or_assoc]

theorem Described.of_subset {dirs more : List Bytes}
    (described : Described readers first second more)
    (subset : dirs ⊆ more) : Described readers first second dirs where
  listings dir member := described.listings dir (subset member)
  files description member := by
    apply described.files description
    obtain ⟨dir, listed, found⟩ := List.mem_flatMap.mp member
    exact List.mem_flatMap.mpr ⟨dir, subset listed, found⟩
  libs path member := by
    apply described.libs path
    obtain ⟨description, listed, found⟩ := List.mem_filterMap.mp member
    obtain ⟨dir, inside, there⟩ := List.mem_flatMap.mp listed
    exact List.mem_filterMap.mpr ⟨description, List.mem_flatMap.mpr ⟨dir, subset inside, there⟩,
      found⟩

theorem ReadsAlike.described (alike : ReadsAlike readers launch first second) :
    Described readers first second (descriptionDirs launch) where
  listings dir member := alike.consulted dir (mem_consulted.mpr (Or.inl member))
  files _ member := alike.consulted _
    (mem_consulted.mpr (Or.inr (Or.inl (List.mem_map_of_mem member))))
  libs path member := alike.consulted path (mem_consulted.mpr (Or.inr (Or.inr (Or.inl member))))

theorem ReadsAlike.buildDir (alike : ReadsAlike readers launch first second) {root : Bytes}
    (extra : root ∈ launch.extraRoot) {dir : Bytes} (member : dir ∈ glBuildLibDirs) :
    DirAlike readers first second (joinPath root dir) := by
  have listed : joinPath root dir ∈ buildDirs launch := by
    rw [buildDirs, Option.mem_def.mp extra]
    exact List.mem_map_of_mem member
  have inside : ∀ name ∈ (first.readDir (joinPath root dir)).getD [],
      joinPath (joinPath root dir) name ∈ buildEntries first launch := fun name there =>
    List.mem_flatMap.mpr ⟨_, listed, List.mem_map_of_mem there⟩
  constructor
  · exact alike.consulted _ (mem_consulted.mpr (by simp [listed]))
  · intro name there
    have entry := inside name there
    exact ⟨alike.consulted _ (mem_consulted.mpr (by simp [entry])), alike.links _ entry⟩

/-- The index is the same. -/
theorem load_congr (alike : ReadsAlike readers launch first second) :
    load readers first launch = load readers second launch := by
  have build : loadBuild readers first launch.extraRoot =
      loadBuild readers second launch.extraRoot := by
    apply loadBuild_congr
    · intro root extra dir member
      exact alike.buildDir extra member
    · intro root extra
      apply alike.described.of_subset
      rw [descriptionDirs, Option.mem_def.mp extra]
      exact List.subset_append_right _ _
  have cached : cachePathsIn readers first launch.ldCache =
      cachePathsIn readers second launch.ldCache := cachePathsIn_congr alike.cache
  have host : Described readers first second launch.icdDirs :=
    alike.described.of_subset (List.subset_append_left _ _)
  have modules : (modulePaths readers first launch.ldCache).flatMap
        (fun path => ((first.tree readers).readNeeded path).getD []) =
      (modulePaths readers second launch.ldCache).flatMap
        fun path => ((second.tree readers).readNeeded path).getD [] := by
    rw [← modulePaths_congr alike.modules]
    apply List.flatMap_congr
    intro path member
    simp only [Host.tree, (alike.modules.files path member).needed]
  simp only [load, build, cached, icdLibraryPathsIn_congr host, modules]

end

/-! ### The decision -/

/-- The package and its sets are the same. -/
structure PackageAlike (readers : Readers) (launch : Launch) (first second : Host) : Prop where
  own : ∀ dir ∈ launch.libDirs, DirAlike readers first second (joinPath launch.pkgRoot dir)
  sets : ∀ root ∈ launch.setRoots, ∀ dir ∈ glBuildLibDirs,
    DirAlike readers first second (joinPath root dir)
  libs : ∀ entry ∈ (carried (first.tree readers) launch.toRequest).entries,
    Found readers first second entry.2

section
variable {readers : Readers} {launch : Launch} {first second : Host}

theorem carried_congr (package : PackageAlike readers launch first second) :
    carried (first.tree readers) launch.toRequest =
      carried (second.tree readers) launch.toRequest := by
  rw [carried, carried, bundledLibs_congr package.own]
  apply List.foldl_ext
  intro libs root member
  rw [bundledLibs_congr (package.sets root member)]

theorem versions_congr {path : Bytes} (found : Found readers first second path) :
    versions (first.tree readers) path = versions (second.tree readers) path := by
  simp only [versions, Host.tree, found.versions]

theorem mem_libraries {name path : Bytes}
    (found : (load readers first launch).libs.get? name = some path) :
    path ∈ libraries readers first launch :=
  List.mem_map_of_mem ((SortedMap.mem_entries_iff _ name path).mpr found)

theorem ReadsAlike.library (alike : ReadsAlike readers launch first second) {path : Bytes}
    (member : path ∈ libraries readers first launch) : Found readers first second path :=
  alike.consulted path (mem_consulted.mpr (by simp [member]))

theorem needs_congr (alike : ReadsAlike readers launch first second) (name : Bytes) :
    (load readers first launch).needs (first.tree readers) name =
      (load readers first launch).needs (second.tree readers) name := by
  rw [HostIndex.needs, HostIndex.needs]
  cases found : (load readers first launch).libs.get? name with
  | none => rfl
  | some path =>
      have same := (alike.library (mem_libraries found)).needed
      simp only [Option.bind_some, Host.tree, same]

theorem driverClosure_congr (alike : ReadsAlike readers launch first second) :
    (load readers first launch).driverClosure (first.tree readers) =
      (load readers first launch).driverClosure (second.tree readers) := by
  have same : (load readers first launch).needs (first.tree readers) =
      (load readers first launch).needs (second.tree readers) := funext (needs_congr alike)
  rw [HostIndex.driverClosure, HostIndex.driverClosure, same]

theorem loaderFor_congr (alike : ReadsAlike readers launch first second) {path : Bytes}
    (found : (load readers first launch).libs.get? libc = some path) :
    (load readers first launch).loaderFor (first.tree readers) path =
      (load readers first launch).loaderFor (second.tree readers) path := by
  have read := (alike.library (mem_libraries found)).interp
  have named : ((first.tree readers).readInterp path).filter (first.tree readers).regular =
      ((second.tree readers).readInterp path).filter (second.tree readers).regular := by
    have interp : (first.tree readers).readInterp path = (second.tree readers).readInterp path := by
      simp only [Host.tree, read]
    rw [← interp]
    cases loader : (first.tree readers).readInterp path with
    | none => rfl
    | some loaderPath =>
        have listed : loaderPath ∈ namedLoader readers first launch := by
          rw [namedLoader, found, Option.bind_some, loader]
          exact List.mem_singleton_self _
        have same := alike.loader loaderPath listed
        simp only [Option.filter_some, Host.tree, same]
  have others : (load readers first launch).libs.entries.find?
        (fun entry => isLoaderName entry.1 && (first.tree readers).regular entry.2) =
      (load readers first launch).libs.entries.find?
        fun entry => isLoaderName entry.1 && (second.tree readers).regular entry.2 := by
    apply List.find?_congr
    intro entry member
    simp only [Host.tree, (alike.library (List.mem_map_of_mem member)).regular]
  rw [HostIndex.loaderFor, HostIndex.loaderFor, named, others]

theorem decideLibc_congr (alike : ReadsAlike readers launch first second)
    (package : PackageAlike readers launch first second) :
    decideLibc (first.tree readers) launch.toRequest
        (carried (first.tree readers) launch.toRequest) (load readers first launch) =
      decideLibc (second.tree readers) launch.toRequest
        (carried (first.tree readers) launch.toRequest) (load readers first launch) := by
  rw [decideLibc.eq_def, decideLibc.eq_def]
  cases launch.hostLibc with
  | false => rfl
  | true =>
      cases bundled : (carried (first.tree readers) launch.toRequest).get? libc with
      | none => rfl
      | some bundledLibc =>
          cases found : (load readers first launch).libs.get? libc with
          | none => rfl
          | some hostLibc =>
              have own := @versions_congr readers first second _
                (package.libs (libc, bundledLibc) ((SortedMap.mem_entries_iff _ _ _).mpr bundled))
              have theirs := @versions_congr readers first second _
                (alike.library (mem_libraries found))
              dsimp only at own theirs
              simp only [own, theirs, loaderFor_congr alike found]

theorem weigh_congr (alike : ReadsAlike readers launch first second)
    (package : PackageAlike readers launch first second) (decision : Decision) (name : Bytes) :
    weigh (first.tree readers) (carried (first.tree readers) launch.toRequest)
        (load readers first launch) decision name =
      weigh (second.tree readers) (carried (first.tree readers) launch.toRequest)
        (load readers first launch) decision name := by
  rw [weigh, weigh]
  cases found : (load readers first launch).libs.get? name with
  | none => rfl
  | some hostPath =>
      cases bundled : (carried (first.tree readers) launch.toRequest).get? name with
      | none => rfl
      | some bundledPath =>
          have own := @versions_congr readers first second _
            (package.libs (name, bundledPath) ((SortedMap.mem_entries_iff _ _ _).mpr bundled))
          have theirs := @versions_congr readers first second _
            (alike.library (mem_libraries found))
          dsimp only at own theirs
          simp only [Option.elim_some, Option.map_some, own, theirs]

/-- Hosts that read the same are decided the same. -/
theorem decided_congr (alike : ReadsAlike readers launch first second)
    (package : PackageAlike readers launch first second) :
    decided readers first launch = decided readers second launch := by
  have names : candidates (first.tree readers) launch.toRequest
        (carried (first.tree readers) launch.toRequest) (load readers first launch) =
      candidates (second.tree readers) launch.toRequest
        (carried (first.tree readers) launch.toRequest) (load readers first launch) := by
    rw [candidates, candidates, driverClosure_congr alike]
  simp only [decided, ← load_congr alike, decideOn, ← carried_congr package, names,
    decideLibc_congr alike package]
  apply List.foldl_ext
  intro decision name _
  exact weigh_congr alike package decision name

end

/-! ### What the stamps tell -/

def Body.sameKind : Body → Body → Bool
  | .file _, .file _ => true
  | .dir _, .dir _ => true
  | .other, .other => true
  | _, _ => false

/-- A file whose content differs also differs in size or time, and a directory whose entries differ
in time. -/
structure Told (first second : Host) : Prop where
  files : ∀ path before after, first.look path = some before → second.look path = some after →
    ∀ bytes bytes', before.body = .file bytes → after.body = .file bytes' → bytes ≠ bytes' →
      before.metadata.len ≠ after.metadata.len ∨
        (before.metadata.mtime, before.metadata.mtimeNsec) ≠
          (after.metadata.mtime, after.metadata.mtimeNsec)
  dirs : ∀ path before after, first.look path = some before → second.look path = some after →
    ∀ names names', before.body = .dir names → after.body = .dir names' → names ≠ names' →
      (before.metadata.mtime, before.metadata.mtimeNsec) ≠
        (after.metadata.mtime, after.metadata.mtimeNsec)

/-- The path leads to something of the same kind, if it leads anywhere. -/
def SameKind (first second : Host) (path : Bytes) : Prop :=
  ∀ before after, first.look path = some before → second.look path = some after →
    before.body.sameKind after.body = true

section
variable {first second : Host}

theorem Told.alike (told : Told first second) {path : Bytes} {before after : Object}
    (was : first.look path = some before) (is : second.look path = some after)
    (kind : before.body.sameKind after.body = true)
    (len : before.metadata.len = after.metadata.len)
    (mtime : before.metadata.mtime = after.metadata.mtime)
    (nsec : before.metadata.mtimeNsec = after.metadata.mtimeNsec) : Alike first second path := by
  have time : (before.metadata.mtime, before.metadata.mtimeNsec) =
      (after.metadata.mtime, after.metadata.mtimeNsec) := by rw [mtime, nsec]
  rw [Alike, Host.body, Host.body, was, is, Option.map_some, Option.map_some, Option.some.injEq]
  cases content : before.body with
  | file bytes =>
      cases content' : after.body with
      | file bytes' =>
          by_contra differ
          rcases told.files path before after was is bytes bytes' content content'
            (fun same => differ (congrArg Body.file same)) with other | other
          · exact other len
          · exact other time
      | dir names | other => simp [content, content', Body.sameKind] at kind
  | dir names =>
      cases content' : after.body with
      | dir names' =>
          by_contra differ
          exact told.dirs path before after was is names names' content content'
            (fun same => differ (congrArg Body.dir same)) time
      | file bytes | other => simp [content, content', Body.sameKind] at kind
  | other =>
      cases content' : after.body with
      | other => rfl
      | file bytes | dir names => simp [content, content', Body.sameKind] at kind

theorem alike_of_missing {path : Bytes} (was : first.look path = none)
    (is : second.look path = none) : Alike first second path := by
  rw [Alike, Host.body, Host.body, was, is]

/-- What a stamp is unambiguous about: paths whose times are not before 1970. -/
def Timed (host : Host) (path : Bytes) : Prop :=
  ∀ object, host.look path = some object → 0 ≤ object.metadata.mtime

theorem stampTime_inj {before after : Object} (epoch : 0 ≤ before.metadata.mtime)
    (epoch' : 0 ≤ after.metadata.mtime)
    (same : stampTime before.metadata = stampTime after.metadata) :
    before.metadata.mtime = after.metadata.mtime ∧
      before.metadata.mtimeNsec = after.metadata.mtimeNsec := by
  have low := before.nsec
  have low' := after.nsec
  simp only [stampTime] at same
  omega

theorem stampValue_some {path : Bytes} {object : Object} (found : first.look path = some object) :
    stampValue first path =
      61 :: (decimal object.metadata.len ++ 58 :: decimal (stampTime object.metadata)) := by
  rw [stampValue, Host.files, found]
  simp only [Option.map_some, List.append_assoc]
  rfl

theorem stampValue_none {path : Bytes} (missing : first.look path = none) :
    stampValue first path = 61 :: utf8 "missing" := by
  rw [stampValue, Host.files, missing]
  rfl

/-- Text that can stand in a fingerprint without breaking it. -/
def Unsplit (text : Bytes) : Prop :=
  ∀ byte ∈ text, byte ≠ unitSeparator ∧ byte ≠ lineFeed ∧ byte ≠ carriageReturn

instance (text : Bytes) : Decidable (Unsplit text) := List.decidableBAll _ _

/-- The stamp without its sign: no sign, separator or line end stands in it. -/
theorem stampValue_eq (host : Host) (path : Bytes) : ∃ value, stampValue host path = 61 :: value ∧
    ∀ byte ∈ value, byte ≠ 61 ∧ byte ≠ unitSeparator ∧ byte ≠ lineFeed ∧ byte ≠ carriageReturn := by
  have digits : ∀ n, ∀ byte ∈ decimal n,
      byte ≠ 61 ∧ byte ≠ unitSeparator ∧ byte ≠ lineFeed ∧ byte ≠ carriageReturn := by
    intro n byte member
    have digit := decimal_isDigit n byte member
    refine ⟨?_, ?_, ?_, ?_⟩ <;> rintro rfl <;> exact absurd digit (by decide)
  cases found : host.look path with
  | none =>
      have sign : (61 : UInt8) ∉ utf8 "missing" := by decide
      have plain : Unsplit (utf8 "missing") := by decide
      exact ⟨_, stampValue_none found, fun byte member =>
        ⟨fun equal => sign (equal ▸ member), plain byte member⟩⟩
  | some object =>
      refine ⟨_, stampValue_some found, fun byte member => ?_⟩
      rcases List.mem_append.mp member with left | right
      · exact digits _ byte left
      · rcases List.mem_cons.mp right with rfl | right
        · decide
        · exact digits _ byte right

/-- Equal stamps, equal content. -/
theorem alike_of_stamp (told : Told first second) {path : Bytes}
    (same : stampValue first path = stampValue second path) (kind : SameKind first second path)
    (timed : Timed first path) (timed' : Timed second path) : Alike first second path := by
  have sign : ∀ n rest, (decimal n ++ rest).head? ≠ (utf8 "missing").head? := by
    intro n rest
    obtain ⟨digit, more, split, isDigit⟩ := decimal_cons n
    rw [split]
    intro equal
    have letter : some digit = some 109 := equal
    rw [Option.some.inj letter] at isDigit
    exact absurd isDigit (by decide)
  cases was : first.look path with
  | none =>
      cases is : second.look path with
      | none => exact alike_of_missing was is
      | some after =>
          rw [stampValue_none was, stampValue_some is] at same
          exact absurd (congrArg List.head? (List.cons.inj same).2).symm (sign _ _)
  | some before =>
      cases is : second.look path with
      | none =>
          rw [stampValue_some was, stampValue_none is] at same
          exact absurd (congrArg List.head? (List.cons.inj same).2) (sign _ _)
      | some after =>
          rw [stampValue_some was, stampValue_some is] at same
          obtain ⟨len, rest⟩ := decimal_append_inj (by decide) (List.cons.inj same).2
          obtain ⟨mtime, nsec⟩ := stampTime_inj (timed before was) (timed' after is)
            (decimal_injective rest)
          exact told.alike was is (kind before after was is) len mtime nsec

end

/-! ### Equal fingerprints -/

/-- A part without a separator ends where the next one begins. -/
theorem takeWhile_part {sep : UInt8} {part : Bytes} (absent : sep ∉ part) (parts : List Bytes) :
    (part ++ parts.flatMap (sep :: ·)).takeWhile (· ≠ sep) = part := by
  have kept : ∀ byte ∈ part, decide (byte ≠ sep) = true := fun byte member =>
    decide_eq_true fun equal => absent (equal ▸ member)
  rw [List.takeWhile_append_of_pos kept]
  cases parts with
  | nil => exact List.append_nil part
  | cons next parts =>
      rw [List.flatMap_cons, List.cons_append, List.takeWhile_cons_of_neg (by simp),
        List.append_nil]

theorem part_inj {sep : UInt8} {part part' : Bytes} (absent : sep ∉ part) (absent' : sep ∉ part')
    {parts parts' : List Bytes}
    (same : part ++ parts.flatMap (sep :: ·) = part' ++ parts'.flatMap (sep :: ·)) :
    part = part' ∧ parts.flatMap (sep :: ·) = parts'.flatMap (sep :: ·) := by
  have heads := congrArg (List.takeWhile (· ≠ sep)) same
  rw [takeWhile_part absent, takeWhile_part absent'] at heads
  rw [heads] at same
  exact ⟨heads, List.append_cancel_left same⟩

/-- Parts that hold no separator are told from what the separator begins them with. -/
theorem flatMap_cons_inj {sep : UInt8} {left right : List Bytes} (whole : ∀ part ∈ left, sep ∉ part)
    (whole' : ∀ part ∈ right, sep ∉ part)
    (same : left.flatMap (sep :: ·) = right.flatMap (sep :: ·)) : left = right := by
  induction left generalizing right with
  | nil =>
      cases right with
      | nil => rfl
      | cons part right => cases same
  | cons part left ih =>
      cases right with
      | nil => cases same
      | cons part' right =>
          rw [List.forall_mem_cons] at whole whole'
          rw [List.flatMap_cons, List.flatMap_cons, List.cons_append, List.cons_append,
            List.cons.injEq] at same
          obtain ⟨heads, tails⟩ := part_inj whole.1 whole'.1 same.2
          rw [heads, ih whole.2 whole'.2 tails]

section
variable {readers : Readers} {launch : Launch} {first second : Host}

/-- A stamp without its separator. -/
def segment (host : Host) (path : Bytes) : Bytes := lossy path ++ stampValue host path

theorem flatMap_stamp (host : Host) (paths : List Bytes) :
    paths.flatMap (stamp host) = (paths.map (segment host)).flatMap (unitSeparator :: ·) := by
  rw [List.flatMap_map]
  rfl

/-- What stands before the last sign. -/
def segmentPath (text : Bytes) : Bytes := ((text.reverse.dropWhile (· ≠ 61)).drop 1).reverse

theorem segmentPath_segment (host : Host) (path : Bytes) :
    segmentPath (segment host path) = lossy path := by
  obtain ⟨value, same, plain⟩ := stampValue_eq host path
  have skipped : ∀ byte ∈ value.reverse, decide (byte ≠ 61) = true := fun byte member =>
    decide_eq_true (plain byte (List.mem_reverse.mp member)).1
  rw [segmentPath, segment, same, List.reverse_append, List.reverse_cons, List.append_assoc,
    List.dropWhile_append_of_pos skipped, List.singleton_append,
    List.dropWhile_cons_of_neg (by simp), List.drop_one, List.tail_cons, List.reverse_reverse]

/-- A path whose text can be stamped. -/
def Stampable (path : Bytes) : Prop := Unsplit (lossy path)

instance (path : Bytes) : Decidable (Stampable path) := inferInstanceAs (Decidable (Unsplit _))

theorem segment_whole (host : Host) {path : Bytes} (stampable : Stampable path) :
    unitSeparator ∉ segment host path := by
  obtain ⟨value, same, plain⟩ := stampValue_eq host path
  rw [segment, same, List.mem_append, not_or, List.mem_cons, not_or]
  exact ⟨fun member => (stampable _ member).1 rfl, by decide,
    fun member => (plain _ member).2.1 rfl⟩

theorem cacheList_text {host : Host} {cache path : Bytes}
    (member : path ∈ cacheList readers host cache) : validUtf8 path = true := by
  rw [cacheList] at member
  split at member
  · cases member
  · next data _ =>
      obtain ⟨entries, read, inside⟩ := LoaderCache.cacheEntries_paths data
      have paths : cachePaths readers.target data =
          .ok (LoaderCache.preferred readers.target entries) := LoaderCache.cachePaths_eq read
      rw [paths] at member
      obtain ⟨entry, listed, rfl⟩ := LoaderCache.mem_preferred member
      exact (inside entry listed).2.1

theorem rsplitSlash_eq_some {path dir name : Bytes} (split : rsplitSlash path = some (dir, name)) :
    path = dir ++ 47 :: name := by
  rw [rsplitSlash, Option.map_eq_some_iff] at split
  obtain ⟨⟨name', dir'⟩, found, same⟩ := split
  obtain ⟨rfl, rfl⟩ := Prod.mk.inj same
  have whole := (splitOnce_eq_some.mp found).2
  rw [← List.reverse_reverse path, whole, List.reverse_append, List.reverse_cons,
    List.append_assoc, List.singleton_append]

theorem listedDirs_text {host : Host} {cache dir : Bytes}
    (member : dir ∈ listedDirs readers host cache) : validUtf8 dir = true := by
  have kept : ∀ paths : List Bytes, (∀ path ∈ paths, validUtf8 path = true) →
      ∀ dirs : List Bytes, (∀ dir ∈ dirs, validUtf8 dir = true) →
        ∀ dir ∈ paths.foldl (fun dirs path =>
          match rsplitSlash path with
          | none => dirs
          | some (dir, _) => if dir.isEmpty || dirs.contains dir then dirs else dirs ++ [dir]) dirs,
          validUtf8 dir = true := by
    intro paths
    induction paths with
    | nil => exact fun _ dirs every => every
    | cons path paths ih =>
        intro texts dirs every
        rw [List.forall_mem_cons] at texts
        rw [List.foldl_cons]
        apply ih texts.2
        cases split : rsplitSlash path with
        | none => exact every
        | some parts =>
            have text := texts.1
            rw [rsplitSlash_eq_some split, validUtf8_split (by decide)] at text
            dsimp only
            split
            · exact every
            · intro other inside
              rcases List.mem_append.mp inside with earlier | last
              · exact every other earlier
              · rw [List.mem_singleton.mp last]
                exact text.1
  exact kept _ (fun path listed => cacheList_text listed) [] nofun dir member

theorem moduleDirs_text {host : Host} {cache dir : Bytes}
    (member : dir ∈ moduleDirs readers host cache) : validUtf8 dir = true := by
  obtain ⟨parent, listed, rfl⟩ := List.mem_map.mp (List.mem_filter.mp member).1
  have text := listedDirs_text (List.mem_filter.mp listed).1
  rw [joinPath]
  have dri : validUtf8 (utf8 "dri") = true := by decide
  have slash : validUtf8 (utf8 "/") = true := by decide
  split
  · exact dri
  · split
    · exact validUtf8_append text dri
    · exact validUtf8_append (validUtf8_append text slash) dri

end

/-! ### What equal fingerprints tell -/

section
variable {readers : Readers} {launch : Launch} {first second : Host}

/-- The directories of the loader cache and their `dri` directories. -/
def cacheDirs (readers : Readers) (host : Host) (cache : Bytes) : List Bytes :=
  cacheDirsIn readers host cache ++ moduleDirs readers host cache

theorem mem_cacheDirsIn {host : Host} {cache path : Bytes} :
    path ∈ cacheDirsIn readers host cache ↔
      path ∈ listedDirs readers host cache ∧ host.isDir path = true := List.mem_filter

theorem isDir_of_mem_cacheDirs {host : Host} {cache path : Bytes}
    (member : path ∈ cacheDirs readers host cache) : host.isDir path = true := by
  rcases List.mem_append.mp member with listed | module
  · exact (mem_cacheDirsIn.mp listed).2
  · exact (List.mem_filter.mp module).2

theorem cacheDirs_text {host : Host} {cache path : Bytes}
    (member : path ∈ cacheDirs readers host cache) : lossy path = path := by
  apply lossy_of_validUtf8
  rcases List.mem_append.mp member with listed | module
  · exact listedDirs_text (mem_cacheDirsIn.mp listed).1
  · exact moduleDirs_text module

theorem map_lossy_cacheDirs (host : Host) (cache : Bytes) :
    (cacheDirs readers host cache).map lossy = cacheDirs readers host cache := by
  rw [List.map_congr_left fun path member => cacheDirs_text member, List.map_id']

theorem stampable_cacheDirs {host : Host} {cache : Bytes}
    (stampable : ∀ path ∈ listedDirs readers host cache, Stampable path) {path : Bytes}
    (member : path ∈ cacheDirs readers host cache) : Stampable path := by
  rcases List.mem_append.mp member with listed | module
  · exact stampable path (mem_cacheDirsIn.mp listed).1
  · have own := cacheDirs_text member
    obtain ⟨dir, inside, rfl⟩ := List.mem_map.mp (List.mem_filter.mp module).1
    have listed := (mem_cacheDirsIn.mp inside).1
    have text := lossy_of_validUtf8 (listedDirs_text listed)
    have dirs := stampable dir listed
    have dri : Unsplit (utf8 "dri") := by decide
    have slash : Unsplit (utf8 "/") := by decide
    rw [Stampable, text] at dirs
    rw [Stampable, own, joinPath]
    intro byte found
    split at found
    · exact dri byte found
    · split at found
      · rcases List.mem_append.mp found with left | right
        · exact dirs byte left
        · exact dri byte right
      · rcases List.mem_append.mp found with left | right
        · rcases List.mem_append.mp left with left | middle
          · exact dirs byte left
          · exact slash byte middle
        · exact dri byte right

/-- Two hosts with the same listed directories whose stamped ones are the same agree on which of
them there are. -/
theorem cacheDirs_split {cache : Bytes}
    (listed : listedDirs readers first cache = listedDirs readers second cache)
    (same : cacheDirs readers first cache = cacheDirs readers second cache) :
    cacheDirsIn readers first cache = cacheDirsIn readers second cache ∧
      moduleDirs readers first cache = moduleDirs readers second cache := by
  have there : cacheDirsIn readers first cache = cacheDirsIn readers second cache := by
    rw [cacheDirsIn, cacheDirsIn, ← listed]
    apply List.filter_congr
    intro dir member
    rw [Bool.eq_iff_iff]
    constructor
    · intro isDir
      have inside : dir ∈ cacheDirs readers first cache :=
        List.mem_append_left _ (mem_cacheDirsIn.mpr ⟨member, isDir⟩)
      exact isDir_of_mem_cacheDirs (same ▸ inside)
    · intro isDir
      have inside : dir ∈ cacheDirs readers second cache :=
        List.mem_append_left _ (mem_cacheDirsIn.mpr ⟨listed ▸ member, isDir⟩)
      exact isDir_of_mem_cacheDirs (same ▸ inside)
  refine ⟨there, ?_⟩
  rw [cacheDirs, cacheDirs, there] at same
  exact List.append_cancel_left same

/-- The paths that are stamped can stand in a fingerprint. -/
def AllStampable (readers : Readers) (launch : Launch) (host : Host) : Prop :=
  ∀ path ∈ launch.ldCache :: (listedDirs readers host launch.ldCache ++ fixedDirs launch),
    Stampable path

theorem stampedPaths_eq (host : Host) : stampedPaths readers host launch =
    launch.ldCache :: (cacheDirs readers host launch.ldCache ++ fixedDirs launch) := rfl

theorem AllStampable.stamped {host : Host} (every : AllStampable readers launch host) {path : Bytes}
    (member : path ∈ stampedPaths readers host launch) : Stampable path := by
  rw [stampedPaths_eq] at member
  rcases List.mem_cons.mp member with rfl | later
  · exact every _ List.mem_cons_self
  · rcases List.mem_append.mp later with dir | fixed
    · exact stampable_cacheDirs (fun other listed => every other
        (List.mem_cons_of_mem _ (List.mem_append_left _ listed))) dir
    · exact every path (List.mem_cons_of_mem _ (List.mem_append_right _ fixed))

/-- What the stamps have to be unambiguous about. -/
structure Unambiguous (readers : Readers) (launch : Launch) (first second : Host) : Prop where
  stampable : AllStampable readers launch first
  kinds : ∀ path ∈ stampedPaths readers first launch, SameKind first second path
  timed : ∀ path ∈ stampedPaths readers first launch, Timed first path ∧ Timed second path

/-- Under equal fingerprints the same paths are stamped, and each leads to the same content. -/
theorem stamped_alike (told : Told first second) (clear : Unambiguous readers launch first second)
    (same : fingerprint readers first launch = fingerprint readers second launch) :
    moduleDirs readers first launch.ldCache = moduleDirs readers second launch.ldCache ∧
      ∀ path ∈ stampedPaths readers first launch, Alike first second path := by
  have alike : ∀ path ∈ stampedPaths readers first launch,
      segment first path = segment second path → Alike first second path := by
    intro path member equal
    exact alike_of_stamp told (List.append_cancel_left equal) (clear.kinds path member)
      (clear.timed path member).1 (clear.timed path member).2
  have stamps := List.append_cancel_left same
  rw [flatMap_stamp, flatMap_stamp, stampedPaths_eq, stampedPaths_eq, List.map_cons, List.map_cons,
    List.flatMap_cons, List.flatMap_cons, List.cons_append, List.cons_append,
    List.cons.injEq] at stamps
  have own := clear.stampable launch.ldCache List.mem_cons_self
  obtain ⟨cacheSegment, rest⟩ :=
    part_inj (segment_whole first own) (segment_whole second own) stamps.2
  have cache := alike launch.ldCache List.mem_cons_self cacheSegment
  have listed : listedDirs readers first launch.ldCache =
      listedDirs readers second launch.ldCache := listedDirs_congr cache
  have every : AllStampable readers launch second := by
    rw [AllStampable, ← listed]
    exact clear.stampable
  -- The segments agree one by one, and so do the paths they begin with.
  have segments := flatMap_cons_inj
    (fun part member => by
      obtain ⟨path, inside, rfl⟩ := List.mem_map.mp member
      exact segment_whole first (clear.stampable.stamped (List.mem_cons_of_mem _ inside)))
    (fun part member => by
      obtain ⟨path, inside, rfl⟩ := List.mem_map.mp member
      exact segment_whole second (every.stamped (List.mem_cons_of_mem _ inside))) rest
  have paths := congrArg (List.map segmentPath) segments
  simp only [List.map_map, Function.comp_def, segmentPath_segment, List.map_append,
    map_lossy_cacheDirs] at paths
  have dirs := cacheDirs_split listed (List.append_cancel_right paths)
  refine ⟨dirs.2, fun path member => ?_⟩
  rw [stampedPaths_eq] at member
  rcases List.mem_cons.mp member with rfl | later
  · exact cache
  · rw [cacheDirs, cacheDirs, ← dirs.1, ← dirs.2, ← cacheDirs, List.map_inj_left] at segments
    exact alike path (List.mem_cons_of_mem _ later) (segments path later)

theorem fingerprint_plain {host : Host} (every : AllStampable readers launch host) :
    PlainLine (fingerprint readers host launch) := by
  have lead : Unsplit (fingerprintLead launch) := by
    rw [fingerprintLead]
    cases launch.policy <;> cases launch.hostLibc <;> decide
  have whole : ∀ byte ∈ fingerprint readers host launch,
      byte ≠ lineFeed ∧ byte ≠ carriageReturn := by
    intro byte member
    rcases List.mem_append.mp member with left | right
    · exact (lead byte left).2
    · obtain ⟨path, listed, inside⟩ := List.mem_flatMap.mp right
      rcases List.mem_cons.mp inside with rfl | inside
      · decide
      · rcases List.mem_append.mp inside with text | value
        · exact (every.stamped listed byte text).2
        · obtain ⟨rest, same, plain⟩ := stampValue_eq host path
          rw [same] at value
          rcases List.mem_cons.mp value with rfl | value
          · decide
          · exact (plain byte value).2.2
  exact plainLine_of_not_mem (fun feed => (whole _ feed).1 rfl) fun back => (whole _ back).2 rfl

end

/-! ### What a served record tells -/

section
variable {before after : Files} {first second : Host}

theorem signedDecimal_append_inj {m n : Int} {left right : Bytes}
    (same : signedDecimal m ++ 58 :: left = signedDecimal n ++ 58 :: right) :
    m = n ∧ left = right := by
  have minus : ∀ k rest rest', decimal k ++ rest ≠ utf8 "-" ++ rest' := by
    intro k rest rest' equal
    obtain ⟨digit, more, split, isDigit⟩ := decimal_cons k
    rw [split] at equal
    rw [(List.cons.inj equal).1] at isDigit
    exact absurd isDigit (by decide)
  cases m with
  | ofNat m =>
      cases n with
      | ofNat n =>
          obtain ⟨rfl, rest⟩ := decimal_append_inj (by decide) same
          exact ⟨rfl, rest⟩
      | negSucc n =>
          rw [signedDecimal, signedDecimal, List.append_assoc] at same
          exact absurd same (minus _ _ _)
  | negSucc m =>
      cases n with
      | ofNat n =>
          rw [signedDecimal, signedDecimal, List.append_assoc] at same
          exact absurd same.symm (minus _ _ _)
      | negSucc n =>
          rw [signedDecimal, signedDecimal, List.append_assoc, List.append_assoc] at same
          obtain ⟨equal, rest⟩ := decimal_append_inj (by decide) (List.append_cancel_left same)
          exact ⟨congrArg Int.negSucc (Nat.succ.inj equal), rest⟩

theorem statLine_some {files : Files} {path : Bytes} {metadata : Metadata}
    (found : files path = some metadata) : statLine files path =
      decimal metadata.len ++ 58 :: (decimal metadata.ino ++ 58 :: (signedDecimal metadata.mtime ++
        58 :: (signedDecimal metadata.mtimeNsec ++ 58 :: (signedDecimal metadata.ctime ++
          58 :: signedDecimal metadata.ctimeNsec)))) := by
  rw [statLine, found]
  simp only [List.append_assoc]
  rfl

theorem statLine_none {files : Files} {path : Bytes} (missing : files path = none) :
    statLine files path = utf8 "missing" := by rw [statLine, missing]

theorem statLine_ne_missing {files : Files} {path : Bytes} {metadata : Metadata}
    (found : files path = some metadata) : statLine files path ≠ utf8 "missing" := by
  obtain ⟨digit, more, split, isDigit⟩ := decimal_cons metadata.len
  rw [statLine_some found, split]
  intro equal
  rw [(List.cons.inj equal).1] at isDigit
  exact absurd isDigit (by decide)

/-- Equal stat lines, equal content. -/
theorem alike_of_statLine (told : Told first second) {path : Bytes}
    (same : statLine second.files path = statLine first.files path)
    (kind : SameKind first second path) : Alike first second path := by
  have seen : ∀ {host : Host} {object}, host.look path = some object →
      host.files path = some object.metadata := fun found => by rw [Host.files, found]; rfl
  have unseen : ∀ {host : Host}, host.look path = none → host.files path = none :=
    fun missing => by rw [Host.files, missing]; rfl
  cases was : first.look path with
  | none =>
      cases is : second.look path with
      | none => exact alike_of_missing was is
      | some now =>
          rw [statLine_none (unseen was)] at same
          exact absurd same (statLine_ne_missing (seen is))
  | some object =>
      cases is : second.look path with
      | none =>
          rw [statLine_none (unseen is)] at same
          exact absurd same.symm (statLine_ne_missing (seen was))
      | some now =>
          rw [statLine_some (seen was), statLine_some (seen is)] at same
          obtain ⟨len, rest⟩ := decimal_append_inj (by decide) same
          obtain ⟨-, rest⟩ := decimal_append_inj (by decide) rest
          obtain ⟨mtime, rest⟩ := signedDecimal_append_inj rest
          exact told.alike was is (kind object now was is) len.symm mtime.symm
            (signedDecimal_append_inj rest).1.symm

theorem readLine_statEntry {entry : Bytes × Bytes} (name : Unbroken entry.1)
    {state : Resolution × Winners} (held : state.2.get? entry.1 = some entry.2) :
    readLine after state (statEntryLine before entry) =
      if statLine after entry.2 = statLine before entry.2 then some state else none := by
  rw [statEntryLine, List.append_assoc, List.append_assoc, readLine_stat_rest,
    ← List.append_assoc, splitOnce_tab name]
  simp only [Option.bind_some, held]

/-- Stat lines are read only where each winner still has its own. -/
theorem foldlM_statLines_eq_some {entries : List (Bytes × Bytes)} {state : Resolution × Winners}
    (names : ∀ entry ∈ entries, Unbroken entry.1)
    (held : ∀ entry ∈ entries, state.2.get? entry.1 = some entry.2) {last : Resolution × Winners}
    (read : (entries.map (statEntryLine before)).foldlM (readLine after) state = some last) :
    last = state ∧ ∀ entry ∈ entries, statLine after entry.2 = statLine before entry.2 := by
  induction entries with
  | nil => exact ⟨(Option.some.inj read).symm, nofun⟩
  | cons entry entries ih =>
      rw [List.forall_mem_cons] at names held
      rw [List.map_cons, List.foldlM_cons, readLine_statEntry names.1 held.1,
        Option.bind_eq_bind, Option.bind_eq_some_iff] at read
      obtain ⟨state', taken, rest⟩ := read
      obtain ⟨same, next⟩ := Option.ite_none_right_eq_some.mp taken
      cases next
      obtain ⟨kept, others⟩ := ih names.2 held.2 rest
      exact ⟨kept, List.forall_mem_cons.mpr ⟨same, others⟩⟩

theorem foldlM_interpLine {interp : Option Bytes} (displayed : ∀ path ∈ interp, Displayed path)
    {last : Resolution × Winners}
    (read : (interp.toList.map interpLine).foldlM (readLine after)
      (Resolution.empty, SortedMap.empty) = some last) :
    last = (⟨none, interp, []⟩, SortedMap.empty) := by
  cases interp with
  | none => exact (Option.some.inj read).symm
  | some path =>
      simp only [Option.toList_some, List.map_cons, List.map_nil, List.foldlM_cons,
        List.foldlM_nil] at read
      rw [interpLine, (displayed path rfl).lossy, readLine_interp_rest, Option.bind_eq_bind,
        Option.bind_eq_some_iff] at read
      obtain ⟨state, taken, rest⟩ := read
      obtain ⟨-, next⟩ := Option.ite_none_right_eq_some.mp taken
      cases next
      exact (Option.some.inj rest).symm

/-- Decision lines that can be read give the decision back, and each winner still has its stat
line. -/
theorem foldlM_decisionLines_eq_some {resolution : Resolution} {winners : Winners}
    (recordable : Recordable resolution winners) {last : Resolution × Winners}
    (read : (decisionLines before resolution winners).foldlM (readLine after)
      (Resolution.empty, SortedMap.empty) = some last) :
    last = (⟨none, resolution.hostInterp, resolution.incomparable⟩, winners) ∧
      ∀ entry ∈ winners.entries, statLine after entry.2 = statLine before entry.2 := by
  simp only [decisionLines, List.foldlM_append, Option.bind_eq_bind,
    Option.bind_eq_some_iff] at read
  obtain ⟨state, interp, state', hosts, state'', stats, names⟩ := read
  rw [foldlM_interpLine recordable.interp interp, foldlM_hostLines recordable.winners,
    SortedMap.insertAll_entries] at hosts
  cases hosts
  have held : ∀ entry ∈ winners.entries, winners.get? entry.1 = some entry.2 :=
    fun entry member => (SortedMap.mem_entries_iff winners entry.1 entry.2).mp member
  obtain ⟨rfl, same⟩ := foldlM_statLines_eq_some
    (fun entry member => (recordable.winners entry member).1) held stats
  rw [foldlM_incomparableLines, List.nil_append] at names
  exact ⟨(Option.some.inj names).symm, same⟩

end

section
variable {readers : Readers} {launch : Launch} {identity : SelectionIdentity} {first second : Host}

/-- What is served is what the record gives, and each of its winners is there. -/
theorem served_eq_some {resolution : Resolution} {winners : Winners} {text : Bytes}
    (written : second.read (recordPath launch identity) = some text)
    (taken : served readers second launch identity = some (resolution, winners)) :
    (∃ parsed : Resolution, parseDecision second.files text selectionRecordHeader
        identity.identityLines (fingerprint readers second launch) = some (parsed, winners) ∧
      resolution.hostInterp = parsed.hostInterp ∧
      resolution.incomparable = parsed.incomparable) ∧
    ∀ entry ∈ winners.entries, second.regular entry.2 = true := by
  rw [served] at taken
  obtain ⟨-, loaded⟩ := Option.ite_none_left_eq_some.mp taken
  rw [loadSelection, Option.bind_eq_some_iff] at loaded
  obtain ⟨record, bounded, loaded⟩ := loaded
  rw [readRecordBounded] at bounded
  obtain ⟨-, kept⟩ := Option.ite_none_right_eq_some.mp bounded
  rw [written, Option.filter_eq_some_iff] at kept
  cases kept.1
  obtain ⟨⟨parsed, winners'⟩, read, checked⟩ := Option.bind_eq_some_iff.mp loaded
  dsimp only at checked
  split at checked
  · next empty =>
      cases checked
      refine ⟨⟨resolution, read, rfl, rfl⟩, fun entry member => ?_⟩
      rw [List.isEmpty_iff.mp empty] at member
      cases member
  · obtain ⟨farm, checks, same⟩ := Option.map_eq_some_iff.mp checked
    cases same
    refine ⟨⟨parsed, read, rfl, rfl⟩, fun entry member => ?_⟩
    rw [farmChecked] at checks
    have every := (Option.ite_none_right_eq_some.mp checks).1
    exact (Bool.and_eq_true_iff.mp (List.all_eq_true.mp every entry member)).2

theorem loaderFor_regular {tree : Tree} {host : HostIndex} {hostLibc interp : Bytes}
    (chosen : host.loaderFor tree hostLibc = some interp) : tree.regular interp = true := by
  rw [HostIndex.loaderFor] at chosen
  split at chosen
  · next loader named =>
      cases chosen
      exact (Option.filter_eq_some_iff.mp named).2
  · obtain ⟨entry, found, rfl⟩ := Option.map_eq_some_iff.mp chosen
    have both := List.find?_some found
    exact (Bool.and_eq_true_iff.mp both).2

/-- The loader of a decision is a file of the host. -/
theorem decided_hostInterp {interp : Bytes}
    (chosen : (decided readers first launch).hostInterp = some interp) :
    first.regular interp = true := by
  rw [decided, decideOn_hostInterp, libcWinner] at chosen
  obtain ⟨-, named⟩ := Option.ite_none_right_eq_some.mp chosen
  obtain ⟨bundledLibc, -, named⟩ := Option.bind_eq_some_iff.mp named
  obtain ⟨hostLibc, -, named⟩ := Option.bind_eq_some_iff.mp named
  exact @loaderFor_regular (first.tree readers) _ _ _ (Option.ite_none_right_eq_some.mp named).2

/-- What of a decision its record and the stamps cover. -/
structure Covered (readers : Readers) (launch : Launch) (first second : Host) (built : Bool) :
    Prop where
  clear : Unambiguous readers launch first second
  /-- The farm was built, or the record has nothing to leave out. -/
  farm : built = true ∨ (decided readers first launch).hostInterp = none ∧
    (decided readers first launch).incomparable = []
  text : Recordable (materialized true (decided readers first launch))
    (decided readers first launch).winners
  kinds : ∀ entry ∈ (decided readers first launch).winners.entries, SameKind first second entry.2
  /-- What has no stamp and is no winner is found as it was. -/
  found : ∀ path ∈ consulted readers first launch, path ∉ stampedPaths readers first launch →
    (∀ entry ∈ (decided readers first launch).winners.entries, entry.2 ≠ path) →
      Found readers first second path
  links : ∀ path ∈ buildEntries first launch, first.readLink path = second.readLink path
  loader : ∀ path ∈ namedLoader readers first launch,
    (decided readers first launch).hostInterp ≠ some path →
      first.regular path = second.regular path

/-- A loader that is read back from the record is a file. -/
theorem foldlM_decisionLines_loader {before after : Files} {resolution : Resolution}
    {winners : Winners} (recordable : Recordable resolution winners) {last : Resolution × Winners}
    (read : (decisionLines before resolution winners).foldlM (readLine after)
      (Resolution.empty, SortedMap.empty) = some last) :
    ∀ path ∈ resolution.hostInterp, isFile after path = true := by
  intro path chosen
  have shown := recordable.interp path chosen
  rw [decisionLines, Option.mem_def.mp chosen, Option.toList_some, List.map_cons, List.map_nil,
    List.cons_append, List.nil_append, List.foldlM_cons, interpLine, shown.lossy,
    readLine_interp_rest, Option.bind_eq_bind, Option.bind_eq_some_iff] at read
  obtain ⟨state, taken, -⟩ := read
  exact (Option.ite_none_right_eq_some.mp taken).1

theorem isFile_files (host : Host) (path : Bytes) :
    isFile host.files path = host.regular path := by
  rw [isFile, Host.files, Host.regular, Host.body]
  cases host.look path with
  | none => rfl
  | some object => exact object.kind

/-- A served record is the decision it was written with, under the host's own fingerprint, and the
winners it lists have the stat lines they had. -/
theorem served_recorded (covered : AllStampable readers launch first)
    (text : Recordable (materialized true (decided readers first launch))
      (decided readers first launch).winners)
    (written : second.read (recordPath launch identity) =
      some (recorded readers first true launch identity))
    {resolution : Resolution} {winners : Winners}
    (taken : served readers second launch identity = some (resolution, winners)) :
    winners = (decided readers first launch).winners ∧
    resolution.hostInterp = (decided readers first launch).hostInterp ∧
    resolution.incomparable = (decided readers first launch).incomparable ∧
    fingerprint readers first launch = fingerprint readers second launch ∧
    (∀ entry ∈ winners.entries,
      statLine second.files entry.2 = statLine first.files entry.2) ∧
    ∀ path ∈ (decided readers first launch).hostInterp, second.regular path = true := by
  obtain ⟨⟨parsed, read, interp, incomparable⟩, -⟩ := served_eq_some written taken
  obtain ⟨rest, split, folded⟩ := parseDecision_eq_some.mp read
  rw [recorded, lines_recordSelection _ identity (fingerprint_plain covered),
    lines_unlines (decisionLines_plain text), List.cons_append, List.cons_append] at split
  obtain ⟨-, prints, rfl⟩ := identity_of_same_lines (List.cons.inj split).2
  obtain ⟨same, stats⟩ := foldlM_decisionLines_eq_some text folded
  obtain ⟨rfl, rfl⟩ := Prod.mk.inj same
  refine ⟨rfl, interp, incomparable, prints, stats, fun path chosen => ?_⟩
  rw [← isFile_files]
  exact foldlM_decisionLines_loader text folded path chosen

theorem Covered.materialized {built : Bool} (covered : Covered readers launch first second built) :
    materialized built (decided readers first launch) =
      materialized true (decided readers first launch) := by
  rcases covered.farm with rfl | ⟨interp, incomparable⟩
  · rfl
  · cases built with
    | true => rfl
    | false => simp [Served.materialized, Resolution.empty, interp, incomparable]

end

/-! ### A host library rewritten in place -/

/-- An old cache of one library. -/
def shelfCache : Bytes :=
  LoaderCache.cacheMagicOld ++ [0] ++ leBytes 4 1 ++
    (leBytes 4 0x0303 ++ leBytes 4 0 ++ leBytes 4 0) ++ utf8 "/l/z.so" ++ [0]

/-- Every byte of an object names one of its versions. -/
def letterReaders : Readers where
  versions bytes := some (bytes.map fun byte => [byte]).toFinset
  needed _ := none
  interp _ := none
  target := .x86_64

def shelfLaunch : Launch where
  pkgRoot := utf8 "/p"
  libDirs := [utf8 "lib"]
  policy := .always
  setRoots := []
  hostLibc := false
  ldCache := utf8 "/c"
  icdDirs := []
  extraRoot := none
  store := utf8 "/s"

def plainFile (mtime : Nat) (bytes : Bytes) : Object where
  metadata := ⟨true, bytes.length, 1, mtime, 0, mtime, 0⟩
  body := .file bytes
  kind := rfl
  nsec := by simp

def plainDir (names : List Bytes) : Object where
  metadata := ⟨false, 40, 2, 3, 0, 3, 0⟩
  body := .dir names
  kind := rfl
  nsec := by decide

/-- The package's files and the host's, its library and the record apart. -/
def shelfFiles (path : Bytes) : Option Object :=
  if path = utf8 "/c" then some (plainFile 5 shelfCache)
  else if path = utf8 "/l" then some (plainDir [utf8 "z.so"])
  else if path = utf8 "/p/lib" then some (plainDir [utf8 "z.so"])
  else if path = utf8 "/p/lib/z.so" then some (plainFile 6 (utf8 "AB"))
  else none

def shelfRecord : Bytes := recordPath shelfLaunch noPins

/-- The host with `library` in it, a record in its store and a link farm. -/
def shelf (library : Object) (record : Option Object) (farm : Bytes → Option Bytes) : Host where
  look path :=
    if path = shelfRecord then record
    else if path = utf8 "/l/z.so" then some library
    else shelfFiles path
  readLink := farm

section
variable {mtime mtime' : Nat} {bytes bytes' : Bytes} {record : Option Object}
  {farm farm' : Bytes → Option Bytes}

theorem told_shelf (told : bytes = bytes' ∨ bytes.length ≠ bytes'.length) :
    Told (shelf (plainFile mtime bytes) none farm)
      (shelf (plainFile mtime' bytes') record farm') := by
  have same : ∀ path before after,
      (shelf (plainFile mtime bytes) none farm).look path = some before →
      (shelf (plainFile mtime' bytes') record farm').look path = some after →
        before = after ∨ before = plainFile mtime bytes ∧ after = plainFile mtime' bytes' := by
    intro path before after was is
    simp only [shelf] at was is
    split at was
    · cases was
    · next other =>
        rw [if_neg other] at is
        split at was
        · next library =>
            rw [if_pos library] at is
            cases was
            cases is
            exact Or.inr ⟨rfl, rfl⟩
        · next elsewhere =>
            rw [if_neg elsewhere, was] at is
            exact Or.inl (Option.some.inj is)
  constructor
  · intro path before after was is old new wasFile isFile differ
    rcases same path before after was is with rfl | ⟨rfl, rfl⟩
    · rw [wasFile] at isFile
      cases isFile
      exact absurd rfl differ
    · cases wasFile
      cases isFile
      exact Or.inl (told.resolve_left differ)
  · intro path before after was is old new wasDir isDir differ
    rcases same path before after was is with rfl | ⟨rfl, rfl⟩
    · rw [wasDir] at isDir
      cases isDir
      exact absurd rfl differ
    · cases wasDir

theorem alike_shelf {library library' : Object} {path : Bytes} (other : path ≠ shelfRecord)
    (elsewhere : path ≠ utf8 "/l/z.so") :
    Alike (shelf library none farm) (shelf library' record farm') path := by
  simp only [Alike, Host.body, shelf, if_neg other, if_neg elsewhere]

theorem package_shelf {library library' : Object}
    (link : farm (utf8 "/p/lib/z.so") = farm' (utf8 "/p/lib/z.so"))
    (holds : (carried ((shelf library none farm).tree letterReaders)
      shelfLaunch.toRequest).entries = [(utf8 "z.so", utf8 "/p/lib/z.so")]) :
    PackageAlike letterReaders shelfLaunch (shelf library none farm)
      (shelf library' record farm') where
  own := by
    intro dir member
    cases List.mem_singleton.mp member
    refine ⟨(alike_shelf (by decide +kernel) (by decide +kernel)).found, fun name listed => ?_⟩
    cases List.mem_singleton.mp listed
    exact ⟨(alike_shelf (by decide +kernel) (by decide +kernel)).found, link⟩
  sets := nofun
  libs := by
    rw [holds]
    intro entry member
    cases List.mem_singleton.mp member
    exact (alike_shelf (by decide +kernel) (by decide +kernel)).found

end

def noLinks (_ : Bytes) : Option Bytes := none

/-- The host as it was decided on: its library knows less than the package's. -/
def olderShelf : Host := shelf (plainFile 7 (utf8 "A")) none noLinks

def olderRecord : Bytes := recorded letterReaders olderShelf true shelfLaunch noPins

/-- The library has been rewritten, and its directory has not. -/
def newerShelf : Host := shelf (plainFile 8 (utf8 "ABC")) (some (plainFile 9 olderRecord)) noLinks

/-- A host whose library knows more than the package's. -/
def richShelf : Host := shelf (plainFile 7 (utf8 "ABC")) none noLinks

def richWinners : Winners := ⟨[(utf8 "z.so", utf8 "/l/z.so")], by decide⟩

def richFarm : Bytes :=
  farmDir (utf8 "/s") (fingerprint letterReaders richShelf shelfLaunch) richWinners

def richLinks (path : Bytes) : Option Bytes :=
  if path = joinPath richFarm (utf8 "z.so") then some (utf8 "/l/z.so") else none

def richRecord : Bytes := recorded letterReaders richShelf true shelfLaunch noPins

/-- The same host at the next launch. -/
def laterShelf : Host :=
  shelf (plainFile 7 (utf8 "ABC")) (some (plainFile 9 richRecord)) richLinks

theorem decided_rich : (decided letterReaders richShelf shelfLaunch).winners = richWinners ∧
    (decided letterReaders richShelf shelfLaunch).hostInterp = none ∧
    (decided letterReaders richShelf shelfLaunch).incomparable = [] := by decide +kernel

theorem look_later (path : Bytes) :
    richShelf.look path = none ∨ laterShelf.look path = richShelf.look path := by
  by_cases record : path = shelfRecord
  · rw [record]
    exact Or.inl rfl
  · simp only [laterShelf, richShelf, shelf, if_neg record, or_true]

theorem Body.sameKind_self (body : Body) : body.sameKind body = true := by cases body <;> rfl

theorem rich_kind (path : Bytes) : SameKind richShelf laterShelf path := by
  intro before after was is
  rcases look_later path with missing | same
  · rw [missing] at was
    cases was
  · rw [same, was] at is
    cases is
    exact Body.sameKind_self _

theorem shelf_timed {mtime mtime' : Nat} {bytes bytes' : Bytes} {farm : Bytes → Option Bytes}
    {record : Option Object} (timed : ∀ object ∈ record, object = plainFile mtime' bytes')
    (path : Bytes) : Timed (shelf (plainFile mtime bytes) record farm) path := by
  intro object found
  simp only [shelf, shelfFiles] at found
  have file : ∀ m b, 0 ≤ (plainFile m b).metadata.mtime := fun m _ => Int.natCast_nonneg m
  split_ifs at found
  · rw [timed object found]
    exact file _ _
  all_goals first
    | (cases found; first | exact file _ _ | decide)

theorem rich_timed (path : Bytes) : Timed richShelf path ∧ Timed laterShelf path := by
  constructor
  · exact @shelf_timed 7 0 (utf8 "ABC") [] noLinks none (by simp) path
  · apply @shelf_timed 7 9 (utf8 "ABC") richRecord richLinks (some (plainFile 9 richRecord))
    intro object held
    exact (Option.some.inj held).symm

theorem clear_rich : Unambiguous letterReaders shelfLaunch richShelf laterShelf where
  stampable := by
    have listed : shelfLaunch.ldCache :: (listedDirs letterReaders richShelf shelfLaunch.ldCache ++
        fixedDirs shelfLaunch) = [utf8 "/c", utf8 "/l"] := by decide +kernel
    rw [AllStampable, listed]
    decide +kernel
  kinds path _ := rich_kind path
  timed path _ := rich_timed path

theorem covered_rich : Covered letterReaders shelfLaunch richShelf laterShelf true where
  clear := clear_rich
  farm := Or.inl rfl
  text := by
    obtain ⟨winners, interp, incomparable⟩ := decided_rich
    refine ⟨?_, ?_, ?_⟩
    · simp [materialized, interp]
    · rw [winners]
      decide +kernel
    · simp [materialized, incomparable]
  kinds entry _ := rich_kind entry.2
  found := by
    have all : consulted letterReaders richShelf shelfLaunch = [utf8 "/l/z.so"] := by
      decide +kernel
    rw [all, decided_rich.1]
    intro path member _ other
    cases List.mem_singleton.mp member
    exact absurd rfl (other _ List.mem_cons_self)
  links := by
    have none : buildEntries richShelf shelfLaunch = [] := rfl
    rw [none]
    exact nofun
  loader := by
    have none : namedLoader letterReaders richShelf shelfLaunch = [] := by decide +kernel
    rw [none]
    exact nofun

end Onelf.Format.Served
