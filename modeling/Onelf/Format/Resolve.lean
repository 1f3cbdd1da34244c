import Mathlib.Data.Finset.Basic
import Onelf.Format.Decision
import Onelf.Lib.Worklist

/-! What one launch takes from the host, decided afresh (`resolve.rs`). -/

namespace Onelf.Format

open Onelf.Lib

inductive HostLibsPolicy where
  | never
  | auto
  | always
  deriving DecidableEq

/-! ### Version sets -/

/-- Versions defined by an object, excluding its base object-name version. -/
abbrev VersionSet := Finset Bytes

inductive Choice where
  | host
  | bundle
  | incomparable
  deriving DecidableEq

/-- Order version sets. Equal sets, including empty sets, choose the bundle. -/
def compare (bundle host : VersionSet) : Choice :=
  if host ⊆ bundle then .bundle
  else if bundle ⊆ host then .host
  else .incomparable

/-! ### The libraries a tree carries -/

/-- The files as the resolver reads them: directory listings, links, and what the object readers
find in each file, `none` where they fail. -/
structure Tree where
  readDir : Bytes → Option (List Bytes)
  readLink : Bytes → Option Bytes
  regular : Bytes → Bool
  readVersions : Bytes → Option VersionSet
  readNeeded : Bytes → Option (List Bytes)
  readInterp : Bytes → Option Bytes

def isAbsolute (path : Bytes) : Bool := (utf8 "/").isPrefixOf path

/-- `Path::join`. -/
def joinPath (path tail : Bytes) : Bytes :=
  if isAbsolute tail then tail
  else if path.isEmpty || path.getLast? = some 47 then path ++ tail
  else path ++ utf8 "/" ++ tail

def containsText (needle text : Bytes) : Bool := text.tails.any fun rest => needle.isPrefixOf rest

/-- Every shared object directly in `dir`, by file name; a symlink to an absolute path is not one
of them. -/
def libsIn (tree : Tree) (dir : Bytes) : List (Bytes × Bytes) :=
  ((tree.readDir dir).getD []).filterMap fun name =>
    let path := joinPath dir name
    let placed := (tree.readLink path).any isAbsolute
    if validUtf8 name && containsText (utf8 ".so") name && !placed && tree.regular path then
      some (name, path)
    else none

/-- `entry(name).or_insert(path)` over a list of libraries. -/
def orInsertAll (libs : SortedMap Bytes Bytes) (more : List (Bytes × Bytes)) :
    SortedMap Bytes Bytes :=
  more.foldl (fun libs entry => libs.orInsert entry.1 entry.2) libs

def bundledLibs (tree : Tree) (pkgRoot : Bytes) (libDirs : List Bytes) : SortedMap Bytes Bytes :=
  libDirs.foldl (fun libs dir => orInsertAll libs (libsIn tree (joinPath pkgRoot dir)))
    SortedMap.empty

/-- A library that cannot be read is treated as defining nothing. -/
def versions (tree : Tree) (path : Bytes) : VersionSet := (tree.readVersions path).getD ∅

def startsWithAny (leads : List Bytes) (name : Bytes) : Bool :=
  leads.any fun lead => lead.isPrefixOf name

def glBuildLibDirs : List Bytes := [utf8 "lib", utf8 "lib64"]

def libc : Bytes := utf8 "libc.so.6"

/-- The glibc family: everything that must come from the same build as the loader. -/
def libcFamily : List Bytes :=
  [utf8 "libc.so", utf8 "libm.so", utf8 "libpthread.so", utf8 "libdl.so", utf8 "librt.so",
    utf8 "libresolv.so", utf8 "libutil.so", utf8 "libanl.so", utf8 "libnss_",
    utf8 "libBrokenLocale.so", utf8 "libmvec.so", utf8 "libc_malloc_debug.so",
    utf8 "libthread_db.so", utf8 "ld-linux"]

def isLibcFamily (soname : Bytes) : Bool := startsWithAny libcFamily soname

def isLoaderName (soname : Bytes) : Bool := (utf8 "ld-linux").isPrefixOf soname

def driverFamilies : List Bytes :=
  [utf8 "libGL.so", utf8 "libGLX.so", utf8 "libEGL.so", utf8 "libGLdispatch.so",
    utf8 "libOpenGL.so", utf8 "libGLESv2.so", utf8 "libvulkan.so", utf8 "libcuda.so",
    utf8 "libnvidia", utf8 "libnvoptix", utf8 "libamdhip64", utf8 "libze_loader",
    utf8 "libva.so", utf8 "libva-drm.so", utf8 "libva-x11.so", utf8 "libva-wayland.so",
    utf8 "libva-glx.so", utf8 "libOpenCL.so", utf8 "libdrm", utf8 "libgbm.so"]

def isDriverFamily (soname : Bytes) : Bool := startsWithAny driverFamilies soname

/-- Host libraries that glvnd opens by a name nothing else names. -/
def hostSeeds : List Bytes := [utf8 "libGLX_"]

/-! ### The host's libraries -/

/-- The host's libraries by soname, the drivers its description files name, and what its driver
modules need. -/
structure HostIndex where
  libs : SortedMap Bytes Bytes
  icdLibs : List Bytes
  moduleNeeds : List Bytes

/-- `Path::file_name`, where the last component is one. -/
def fileName (path : Bytes) : Option Bytes :=
  match (path.splitOn 47).reverse.dropWhile (fun part => part = [] || part = utf8 ".") with
  | name :: _ => if name = utf8 ".." then none else some name
  | [] => none

/-- The loader the host's libc was built with, or failing that any loader the cache names. -/
def HostIndex.loaderFor (tree : Tree) (host : HostIndex) (hostLibc : Bytes) : Option Bytes :=
  match (tree.readInterp hostLibc).filter tree.regular with
  | some interp => some interp
  | none =>
      (host.libs.entries.find? fun entry => isLoaderName entry.1 && tree.regular entry.2).map
        Prod.snd

/-- What the host's copy of a library needs. -/
def HostIndex.needs (tree : Tree) (host : HostIndex) (name : Bytes) : List Bytes :=
  ((host.libs.get? name).bind tree.readNeeded).getD []

/-- Where the closure walk starts. -/
def HostIndex.seeds (host : HostIndex) : List Bytes :=
  host.libs.keys.filter (fun name => isDriverFamily name || startsWithAny hostSeeds name) ++
    host.icdLibs.filterMap (fun path => (fileName path).filter validUtf8) ++ host.moduleNeeds

/-- Every soname reachable through `DT_NEEDED` from the seeds. -/
def HostIndex.driverClosure (tree : Tree) (host : HostIndex) : List Bytes :=
  walk (host.needs tree) (pending (host.needs tree) host.libs.keys [] host.seeds) [] host.seeds

/-! ### The decision -/

/-- One launch's inputs. -/
structure Request where
  pkgRoot : Bytes
  libDirs : List Bytes
  policy : HostLibsPolicy
  setRoots : List Bytes
  hostLibc : Bool

structure Decision where
  compared : List (Bytes × Option Choice)
  winners : Winners
  hostInterp : Option Bytes
  incomparable : List Bytes
  farm : Option Bytes

/-- `Decision::default`. -/
def Decision.empty : Decision := ⟨[], SortedMap.empty, none, [], none⟩

/-- The libraries of the bundle, and those of the sets that the bundle lacks. -/
def carried (tree : Tree) (req : Request) : SortedMap Bytes Bytes :=
  req.setRoots.foldl
    (fun libs root => orInsertAll libs (bundledLibs tree root glBuildLibDirs).entries)
    (bundledLibs tree req.pkgRoot req.libDirs)

/-- The host's stand-in for one family member, where there is one. -/
def familyCopy (host : HostIndex) (interp name : Bytes) : Option Bytes :=
  if isLoaderName name then some interp else host.libs.get? name

/-- The loop over the bundled family once the host's libc has won. -/
def moveFamily (host : HostIndex) (interp : Bytes) (names : List Bytes) (winners : Winners) :
    Winners :=
  names.foldl (fun winners name =>
    (familyCopy host interp name).elim winners fun path => winners.insert name path) winners

/-- The loader and libc, compared first and as a unit. -/
def decideLibc (tree : Tree) (req : Request) (bundled : SortedMap Bytes Bytes) (host : HostIndex) :
    Decision :=
  match req.hostLibc, bundled.get? libc, host.libs.get? libc with
  | true, some bundledLibc, some hostLibc =>
      let choice := compare (versions tree bundledLibc) (versions tree hostLibc)
      let decision := { Decision.empty with compared := [(libc, some choice)] }
      match choice with
      | .host =>
          match host.loaderFor tree hostLibc with
          | some interp =>
              { decision with
                winners := moveFamily host interp (bundled.keys.filter isLibcFamily)
                  decision.winners
                hostInterp := some interp }
          | none => decision
      | .incomparable => { decision with incomparable := [libc] }
      | .bundle => decision
  | _, _, _ => Decision.empty

/-- The choice made for one soname the host has; one the bundle lacks can only come from there. -/
def Decision.settle (decision : Decision) (name hostPath : Bytes) (choice : Option Choice) :
    Decision :=
  let compared := decision.compared ++ [(name, choice)]
  match choice.getD .host with
  | .host =>
      { decision with
        compared := compared
        winners := decision.winners.insert name hostPath }
  | .incomparable =>
      { decision with
        compared := compared
        incomparable := decision.incomparable ++ [name] }
  | .bundle => { decision with compared := compared }

/-- One candidate of the driver closure. -/
def weigh (tree : Tree) (bundled : SortedMap Bytes Bytes) (host : HostIndex) (decision : Decision)
    (name : Bytes) : Decision :=
  if isLibcFamily name then decision
  else (host.libs.get? name).elim decision fun hostPath =>
    decision.settle name hostPath ((bundled.get? name).map fun bundledPath =>
      compare (versions tree bundledPath) (versions tree hostPath))

def candidates (tree : Tree) (req : Request) (bundled : SortedMap Bytes Bytes) (host : HostIndex) :
    List Bytes :=
  sortDedup (host.driverClosure tree ++ if req.policy = .always then bundled.keys else [])

def decideOn (tree : Tree) (req : Request) (host : HostIndex) : Decision :=
  let bundled := carried tree req
  (candidates tree req bundled host).foldl (weigh tree bundled host)
    (decideLibc tree req bundled host)

/-! ### The glibc family moves as a whole -/

theorem get?_moveFamily (host : HostIndex) (interp : Bytes) (names : List Bytes) (winners : Winners)
    (name : Bytes) :
    (moveFamily host interp names winners).get? name =
      if name ∈ names then (familyCopy host interp name).or (winners.get? name)
      else winners.get? name := by
  induction names generalizing winners with
  | nil => simp [moveFamily]
  | cons first names ih =>
      rw [moveFamily, List.foldl_cons, ← moveFamily, ih]
      cases copy : familyCopy host interp first with
      | none =>
          by_cases here : name = first
          · simp [here, copy]
          · simp [here]
      | some path =>
          rw [Option.elim_some, SortedMap.get?_insert]
          by_cases here : first = name
          · simp [← here, copy]
          · simp [here, Ne.symm here]

theorem settle_hostInterp (decision : Decision) (name hostPath : Bytes) (choice : Option Choice) :
    (decision.settle name hostPath choice).hostInterp = decision.hostInterp := by
  simp only [Decision.settle]
  split <;> rfl

theorem settle_other (decision : Decision) {name member : Bytes} (other : name ≠ member)
    (hostPath : Bytes) (choice : Option Choice) :
    (decision.settle name hostPath choice).winners.get? member =
      decision.winners.get? member := by
  simp only [Decision.settle]
  split
  · simp [SortedMap.get?_insert, other]
  · rfl
  · rfl

theorem weigh_hostInterp (tree : Tree) (bundled : SortedMap Bytes Bytes) (host : HostIndex)
    (decision : Decision) (name : Bytes) :
    (weigh tree bundled host decision name).hostInterp = decision.hostInterp := by
  rw [weigh]
  split
  · rfl
  · cases host.libs.get? name with
    | none => rfl
    | some hostPath => exact settle_hostInterp decision name hostPath _

/-- The candidate loop leaves the family alone. -/
theorem weigh_family (tree : Tree) (bundled : SortedMap Bytes Bytes) (host : HostIndex)
    (decision : Decision) (name : Bytes) {member : Bytes} (family : isLibcFamily member = true) :
    (weigh tree bundled host decision name).winners.get? member =
      decision.winners.get? member := by
  rw [weigh]
  split
  · rfl
  · next outside =>
      have other : name ≠ member := by
        intro same
        rw [same] at outside
        exact outside family
      cases host.libs.get? name with
      | none => rfl
      | some hostPath => exact settle_other decision other hostPath _

theorem foldl_weigh_hostInterp (tree : Tree) (bundled : SortedMap Bytes Bytes) (host : HostIndex)
    (names : List Bytes) (decision : Decision) :
    (names.foldl (weigh tree bundled host) decision).hostInterp = decision.hostInterp := by
  induction names generalizing decision with
  | nil => rfl
  | cons name names ih => rw [List.foldl_cons, ih, weigh_hostInterp]

theorem foldl_weigh_family (tree : Tree) (bundled : SortedMap Bytes Bytes) (host : HostIndex)
    (names : List Bytes) (decision : Decision) {member : Bytes}
    (family : isLibcFamily member = true) :
    (names.foldl (weigh tree bundled host) decision).winners.get? member =
      decision.winners.get? member := by
  induction names generalizing decision with
  | nil => rfl
  | cons name names ih =>
      rw [List.foldl_cons, ih]
      exact weigh_family tree bundled host decision name family

/-- The host's libc wins and its loader is found: the loader the launch then runs under. -/
def libcWinner (tree : Tree) (req : Request) (host : HostIndex) : Option Bytes :=
  if req.hostLibc then
    ((carried tree req).get? libc).bind fun bundledLibc =>
      (host.libs.get? libc).bind fun hostLibc =>
        if compare (versions tree bundledLibc) (versions tree hostLibc) = .host then
          host.loaderFor tree hostLibc
        else none
  else none

theorem decideLibc_eq (tree : Tree) (req : Request) (host : HostIndex) :
    (decideLibc tree req (carried tree req) host).hostInterp = libcWinner tree req host ∧
      (decideLibc tree req (carried tree req) host).winners =
        (libcWinner tree req host).elim SortedMap.empty fun interp =>
          moveFamily host interp ((carried tree req).keys.filter isLibcFamily) SortedMap.empty := by
  rw [decideLibc.eq_def, libcWinner]
  cases shadows : req.hostLibc with
  | false => exact ⟨rfl, rfl⟩
  | true =>
      cases bundledLibc : (carried tree req).get? libc with
      | none => exact ⟨rfl, rfl⟩
      | some bundledPath =>
          cases hostLibc : host.libs.get? libc with
          | none => exact ⟨rfl, rfl⟩
          | some hostPath =>
              cases choice : compare (versions tree bundledPath) (versions tree hostPath) with
              | bundle => simp [choice, Decision.empty]
              | incomparable => simp [choice, Decision.empty]
              | host =>
                  cases interp : host.loaderFor tree hostPath with
                  | none => simp [choice, interp, Decision.empty]
                  | some loader => simp [choice, interp, Decision.empty]

theorem decideOn_hostInterp (tree : Tree) (req : Request) (host : HostIndex) :
    (decideOn tree req host).hostInterp = libcWinner tree req host := by
  rw [decideOn, foldl_weigh_hostInterp]
  exact (decideLibc_eq tree req host).1

/-- What the decision holds for a member of the family. -/
theorem decideOn_family (tree : Tree) (req : Request) (host : HostIndex) {member : Bytes}
    (family : isLibcFamily member = true) :
    (decideOn tree req host).winners.get? member =
      (libcWinner tree req host).bind fun interp =>
        if member ∈ (carried tree req).keys then familyCopy host interp member else none := by
  rw [decideOn, foldl_weigh_family _ _ _ _ _ family, (decideLibc_eq tree req host).2]
  cases libcWinner tree req host with
  | none => rfl
  | some interp =>
      rw [Option.elim_some, get?_moveFamily]
      simp [family]

/-- The host's glibc and everything carried of its family go together: under the host's loader
every carried member has its host copy, and under the bundle's none has. -/
def FamilyMoves (tree : Tree) (req : Request) (host : HostIndex) (decision : Decision) : Prop :=
  (∀ interp, decision.hostInterp = some interp →
    ∀ name ∈ (carried tree req).keys, isLibcFamily name = true →
      ∃ path, decision.winners.get? name = some path ∧
        if isLoaderName name then path = interp else host.libs.get? name = some path) ∧
  (decision.hostInterp = none → ∀ name ∈ decision.winners.keys, isLibcFamily name = false)

/-- The family moves as a whole exactly when the host has a copy of every member carried, or the
host's libc does not win. -/
theorem decideOn_moves_family_iff (tree : Tree) (req : Request) (host : HostIndex) :
    FamilyMoves tree req host (decideOn tree req host) ↔
      libcWinner tree req host = none ∨
        ∀ name ∈ (carried tree req).keys, isLibcFamily name = true → isLoaderName name = false →
          name ∈ host.libs.keys := by
  rw [FamilyMoves, decideOn_hostInterp]
  cases winner : libcWinner tree req host with
  | none =>
      simp only [reduceCtorEq, false_imp_iff, implies_true, true_and, true_or, iff_true,
        forall_const]
      intro name chosen
      apply Bool.eq_false_iff.mpr
      intro family
      rw [SortedMap.mem_keys_iff, decideOn_family tree req host family, winner] at chosen
      cases chosen
  | some interp =>
      simp only [reduceCtorEq, false_imp_iff, and_true, false_or, Option.some.injEq]
      constructor
      · intro moved name member family plain
        rcases moved interp rfl name member family with ⟨path, _, copied⟩
        rw [plain, if_neg Bool.false_ne_true] at copied
        rw [SortedMap.mem_keys_iff, copied]
        rfl
      · intro hosted interp' same name member family
        rw [decideOn_family tree req host family, winner, ← same]
        simp only [Option.bind_some, if_pos member, familyCopy]
        cases loader : isLoaderName name with
        | true => exact ⟨interp, rfl, rfl⟩
        | false =>
            have copy := hosted name member family loader
            rw [SortedMap.mem_keys_iff, Option.isSome_iff_exists] at copy
            rcases copy with ⟨path, held⟩
            exact ⟨path, held, held⟩

/-- A package with a name-service module the host no longer ships. -/
def nisTree : Tree where
  readDir dir :=
    if dir = utf8 "/p/lib" then
      some [utf8 "libc.so.6", utf8 "ld-linux-x86-64.so.2", utf8 "libnss_nis.so.2"]
    else none
  readLink _ := none
  regular _ := true
  readVersions path :=
    if path = utf8 "/p/lib/libc.so.6" then some {utf8 "GLIBC_2.2.5"}
    else if path = utf8 "/usr/lib/libc.so.6" then some {utf8 "GLIBC_2.2.5", utf8 "GLIBC_2.34"}
    else none
  readNeeded _ := none
  readInterp path :=
    if path = utf8 "/usr/lib/libc.so.6" then some (utf8 "/usr/lib/ld-linux-x86-64.so.2") else none

def nisRequest : Request where
  pkgRoot := utf8 "/p"
  libDirs := [utf8 "lib"]
  policy := .auto
  setRoots := []
  hostLibc := true

def nisHost : HostIndex where
  libs := ⟨[(utf8 "ld-linux-x86-64.so.2", utf8 "/usr/lib/ld-linux-x86-64.so.2"),
    (utf8 "libc.so.6", utf8 "/usr/lib/libc.so.6")], by decide +kernel⟩
  icdLibs := []
  moduleNeeds := []

/-- The bundled module stays in use under the host's loader. -/
theorem nis_module_left_behind : ¬ FamilyMoves nisTree nisRequest nisHost
    (decideOn nisTree nisRequest nisHost) := by
  intro moves
  have wins : (decideOn nisTree nisRequest nisHost).hostInterp =
      some (utf8 "/usr/lib/ld-linux-x86-64.so.2") := by decide +kernel
  have bundled : utf8 "libnss_nis.so.2" ∈ (carried nisTree nisRequest).keys := by decide +kernel
  have missing : (decideOn nisTree nisRequest nisHost).winners.get? (utf8 "libnss_nis.so.2") =
      none := by decide +kernel
  rcases moves.1 _ wins _ bundled (by decide +kernel) with ⟨path, held, _⟩
  rw [missing] at held
  cases held

end Onelf.Format
