import Onelf.Format.Desktop.Patch

/-! Desktop integration by the runtime's flags and by `onelf integrate`
(`onelf-rt/src/integrate.rs`, `onelf/src/integrate.rs`). -/

namespace Onelf.Cli.Integrate

open Onelf.Lib
open Onelf.Format.Desktop (patchDesktopFile execCommand entryHeader iconKey)

/-! ### A package -/

inductive IconExt where
  | svg
  | png
  deriving DecidableEq

def IconExt.text : IconExt → Str
  | svg => ".svg".toList
  | png => ".png".toList

structure ThemeIcon where
  size : Str
  ext : IconExt
  data : Bytes
  deriving DecidableEq

/-- A file that a package may have for an entrypoint. -/
inductive Resource where
  | absent
  | unreadable
  | present (bytes : Bytes)
  deriving DecidableEq

/-- What integration reads of a package. `desktop` is the desktop file an entrypoint resolves to and
`iconSet` what the package carries for icon names and an entrypoint, `none` where a read fails. -/
structure Package where
  name : Str
  entrypoints : List Str
  defaultEntrypoint : Nat
  /-- The entrypoint has a desktop file of its own. -/
  ownDesktop : Str → Bool
  desktop : Str → Resource
  iconSet : List Str → Str → Option (List ThemeIcon)

namespace Package
variable (pkg : Package) (epName : Str)

/-- The package's name, or the entrypoint's when the package has none. -/
def packageName : Str := if pkg.name = [] then epName else pkg.name

def menuEntrypoints : List Str :=
  (pkg.entrypoints.eraseIdx pkg.defaultEntrypoint).filter pkg.ownDesktop

end Package

/-! ### Names -/

def sanitizeChar (c : Char) : Char :=
  if c.isAlphanum || c = '-' || c = '_' then c else '-'

def sanitize (text : Str) : Str := text.map sanitizeChar

def lead : Str := "onelf-".toList

def isDefault (pkg : Package) (epName : Str) : Bool :=
  pkg.entrypoints[pkg.defaultEntrypoint]? = some epName

/-- `integration_name` of the runtime, which knows the default entrypoint by its name. -/
def runtimeName (pkg : Package) (epName : Str) : Str :=
  if isDefault pkg epName then lead ++ sanitize (pkg.packageName epName)
  else lead ++ sanitize (pkg.packageName epName) ++ '-' :: sanitize epName

/-- The entrypoint is not the package's default, by its place. -/
def secondary (pkg : Package) (epName : Str) : Bool :=
  pkg.entrypoints.idxOf? epName ≠ some pkg.defaultEntrypoint

def integrationName (pkgName : Str) : Option Str → Str
  | some ep => lead ++ sanitize pkgName ++ '-' :: sanitize ep
  | none => lead ++ sanitize pkgName

/-- `integration_name` of the command line. -/
def cliName (pkg : Package) (epName : Str) : Str :=
  integrationName (pkg.packageName epName) (if secondary pkg epName then some epName else none)

inductive Tool where
  | runtime
  | cli
  deriving DecidableEq

def Tool.nameOf : Tool → Package → Str → Str
  | runtime => runtimeName
  | cli => cliName

/-! ### The data home -/

/-- A file under the data home: in `applications`, or in `icons/hicolor/<size>/apps`. -/
inductive Place where
  | application (file : Str)
  | icon (size file : Str)
  deriving DecidableEq

abbrev Home := Place → Option Bytes

def desktopFile (name : Str) : Str := name ++ ".desktop".toList

def iconFile (name : Str) (ext : IconExt) : Str := name ++ ext.text

def write (home : Home) (place : Place) (data : Bytes) : Home := fun other =>
  if other = place then some data else home other

section
variable (linked : Str → Bool)

/-- Every size directory is gone through but those that are symbolic links (`linked`). -/
def removeIcons (home : Home) (name : Str) : Home
  | .application file => home (.application file)
  | .icon size file =>
      if linked size = false ∧ (file = iconFile name .svg ∨ file = iconFile name .png) then none
      else home (.icon size file)

def unintegrateOne (home : Home) (name : Str) : Home :=
  let left : Home := fun place =>
    if place = .application (desktopFile name) then none else home place
  removeIcons linked left name

def installIcon (name : Str) (home : Home) (icon : ThemeIcon) : Home :=
  write home (.icon icon.size (iconFile name icon.ext)) icon.data

/-! ### What is installed -/

def bracketed (line : Str) : Bool := line.head? == some '[' && line.getLast? == some ']'

/-- The `Icon=` of the entry group, when it names a theme icon. -/
def entryIconFrom : Bool → List Str → Option Str
  | _, [] => none
  | inEntry, line :: lines =>
      if bracketed (Str.trim line) then entryIconFrom (Str.trim line == entryHeader) lines
      else if inEntry && iconKey.isPrefixOf line then
        let value := Str.trim (line.drop iconKey.length)
        if value ≠ [] ∧ '/' ∉ value then some value else none
      else entryIconFrom inEntry lines

def entryIcon (content : Str) : Option Str := entryIconFrom false (Str.lines content)

def generateDesktopFile (name execPath : Str) (entrypoint iconName : Option Str) : Str :=
  ['\n'].intercalate (["[Desktop Entry]".toList, "Type=Application".toList, "Name=".toList ++ name,
    "Exec=".toList ++ execCommand execPath entrypoint,
    "TryExec=".toList ++ Format.Desktop.stringValue execPath] ++
    (iconName.map fun icon => "Icon=".toList ++ icon).toList ++ ["Terminal=false".toList, []])

/-- How a package is reached: the path in `Exec=` and the name of the file there. -/
structure Binary where
  execPath : Str
  fileName : Option Str
  deriving DecidableEq

/-- The entrypoint `Exec=` has to name, as the runtime finds it. -/
def runtimeExecEntrypoint (pkg : Package) (binary : Binary) (epName : Str) : Option Str :=
  let launched := (binary.fileName.filter fun name => pkg.entrypoints.contains name).or
    pkg.entrypoints[pkg.defaultEntrypoint]?
  if launched ≠ some epName then some epName else none

/-- The entrypoint `Exec=` has to name, as the command line finds it. -/
def cliExecEntrypoint (pkg : Package) (binary : Binary) (epName : Str) : Option Str :=
  let launched := (binary.fileName.bind fun name => pkg.entrypoints.idxOf? name).getD
    pkg.defaultEntrypoint
  if pkg.entrypoints.idxOf? epName ≠ some launched then some epName else none

def iconNames (pkg : Package) (epName : Str) (desktop : Option Str) : List Str :=
  (desktop.bind entryIcon).toList ++ [epName, pkg.packageName epName]

/-- The desktop file as the runtime reads it; text that is not UTF-8 reads as none at all. -/
def runtimeDesktop (pkg : Package) (epName : Str) : Option Str :=
  match pkg.desktop epName with
  | .absent => none
  | .unreadable => none
  | .present bytes => some (if validUtf8 bytes then Str.fromUtf8Lossy bytes else [])

def runtimeIcons (pkg : Package) (epName : Str) : List ThemeIcon :=
  (pkg.iconSet (iconNames pkg epName (runtimeDesktop pkg epName)) epName).getD []

/-- The desktop file as the command line reads it. -/
def bundledDesktop (pkg : Package) (epName : Str) : Option (Option Str) :=
  match pkg.desktop epName with
  | .absent => some none
  | .unreadable => none
  | .present bytes => if validUtf8 bytes then some (some (Str.fromUtf8Lossy bytes)) else none

/-- What the command line installs, or `none` where a read fails. -/
def cliResources (pkg : Package) (epName : Str) : Option (Option Str × List ThemeIcon) :=
  (bundledDesktop pkg epName).bind fun desktop =>
    (pkg.iconSet (iconNames pkg epName desktop) epName).map fun icons => (desktop, icons)

/-- The text of the installed desktop file. -/
def desktopText (pkg : Package) (epName execPath : Str) (entrypoint iconName : Option Str) :
    Option Str → Str
  | some text => patchDesktopFile text execPath entrypoint iconName
  | none => generateDesktopFile (pkg.packageName epName) execPath entrypoint iconName

/-- Icons and then the desktop file. -/
def install (home : Home) (pkg : Package) (epName name execPath : Str) (entrypoint : Option Str)
    (desktop : Option Str) (icons : List ThemeIcon) : Home :=
  write (icons.foldl (installIcon name) home) (.application (desktopFile name))
    (Str.encodeUtf8 (desktopText pkg epName execPath entrypoint
      (if icons = [] then none else some name) desktop))

def runtimeIntegrateOne (pkg : Package) (binary : Binary) (home : Home) (epName : Str) : Home :=
  install (removeIcons linked home (runtimeName pkg epName)) pkg epName (runtimeName pkg epName)
    binary.execPath (runtimeExecEntrypoint pkg binary epName) (runtimeDesktop pkg epName)
    (runtimeIcons pkg epName)

/-- The command line stops at a read that fails, with the stale icons removed. -/
def cliIntegrateOne (pkg : Package) (binary : Binary) (home : Home) (epName : Str) :
    Except Home Home :=
  match cliResources pkg epName with
  | none => .error (removeIcons linked home (cliName pkg epName))
  | some (desktop, icons) =>
      .ok (install (removeIcons linked home (cliName pkg epName)) pkg epName (cliName pkg epName)
        binary.execPath (cliExecEntrypoint pkg binary epName) desktop icons)

/-! ### Calls -/

inductive Action where
  | integrate
  | unintegrate
  deriving DecidableEq

/-- A call that selected an entrypoint of its package; any other fails before it changes a file. -/
structure Call where
  tool : Tool
  action : Action
  package : Package
  binary : Binary
  selected : Str
  known : selected ∈ package.entrypoints

/-- The entrypoints that come with the default one. -/
def Call.others (call : Call) : List Str :=
  match call.action, call.tool with
  | .integrate, _ => call.package.menuEntrypoints
  | .unintegrate, .runtime => call.package.entrypoints.filter (· ≠ call.selected)
  | .unintegrate, .cli => call.package.entrypoints.eraseIdx call.package.defaultEntrypoint

/-- The selected entrypoint stands for the whole package. -/
def Call.whole (call : Call) : Bool :=
  match call.tool with
  | .runtime => isDefault call.package call.selected
  | .cli => !secondary call.package call.selected

/-- The entrypoints a call covers, in order. -/
def Call.targets (call : Call) : List Str :=
  call.selected :: if call.whole then call.others else []

def Call.perform (call : Call) (home : Home) : Home :=
  match call.action, call.tool with
  | .integrate, .runtime =>
      call.targets.foldl (runtimeIntegrateOne linked call.package call.binary) home
  | .integrate, .cli =>
      match call.targets.foldlM (cliIntegrateOne linked call.package call.binary) home with
      | .ok final => final
      | .error stopped => stopped
  | .unintegrate, tool =>
      call.targets.foldl
        (fun home epName => unintegrateOne linked home (tool.nameOf call.package epName)) home

def run (home : Home) (calls : List Call) : Home :=
  calls.foldl (fun home call => call.perform linked home) home

end

/-! ### Whose files they are -/

/-- A file that carries the derived name `name`. -/
def OwnPlace (name : Str) : Place → Prop
  | .application file => file = desktopFile name
  | .icon _ file => file = iconFile name .svg ∨ file = iconFile name .png

theorem iconFile_injective {left right : Str} {first second : IconExt}
    (same : iconFile left first = iconFile right second) : left = right := by
  have sizes : first.text.length = second.text.length := by
    cases first <;> cases second <;> rfl
  exact (List.append_inj' same sizes).1

theorem OwnPlace.unique {left right : Str} {place : Place} (first : OwnPlace left place)
    (second : OwnPlace right place) : left = right := by
  cases place with
  | application file => exact List.append_cancel_right (first.symm.trans second)
  | icon size file =>
      rcases first with here | here
      · rcases second with there | there
        · exact iconFile_injective (here.symm.trans there)
        · exact iconFile_injective (here.symm.trans there)
      · rcases second with there | there
        · exact iconFile_injective (here.symm.trans there)
        · exact iconFile_injective (here.symm.trans there)

theorem ownPlace_iconFile (name size : Str) (ext : IconExt) :
    OwnPlace name (.icon size (iconFile name ext)) := by
  cases ext with
  | svg => exact Or.inl rfl
  | png => exact Or.inr rfl

theorem ownPlace_desktopFile (name : Str) : OwnPlace name (.application (desktopFile name)) := rfl

/-- No symbolic link stands for the size directory of the file. -/
def Reachable (linked : Str → Bool) : Place → Prop
  | .application _ => True
  | .icon size _ => linked size = false

section
variable (linked : Str → Bool)

/-! ### What a call leaves alone -/

theorem removeIcons_other (home : Home) {name : Str} {place : Place}
    (other : ¬ OwnPlace name place) : removeIcons linked home name place = home place := by
  cases place with
  | application file => rfl
  | icon size file => exact if_neg fun both => other both.2

theorem write_other (home : Home) {place written : Place} (other : place ≠ written) (data : Bytes) :
    write home written data place = home place := if_neg other

theorem unintegrateOne_other (home : Home) {name : Str} {place : Place}
    (other : ¬ OwnPlace name place) : unintegrateOne linked home name place = home place := by
  rw [unintegrateOne, removeIcons_other linked _ other, if_neg]
  rintro rfl
  exact other (ownPlace_desktopFile name)

theorem foldl_installIcon_other {name : Str} {place : Place} (other : ¬ OwnPlace name place)
    (icons : List ThemeIcon) (home : Home) :
    icons.foldl (installIcon name) home place = home place := by
  induction icons generalizing home with
  | nil => rfl
  | cons icon icons ih =>
      rw [List.foldl_cons, ih, installIcon, write_other]
      rintro rfl
      exact other (ownPlace_iconFile name icon.size icon.ext)

theorem install_other (home : Home) (pkg : Package) (epName : Str) {name : Str} {place : Place}
    (other : ¬ OwnPlace name place) (execPath : Str) (entrypoint desktop : Option Str)
    (icons : List ThemeIcon) :
    install home pkg epName name execPath entrypoint desktop icons place = home place := by
  rw [install, write_other, foldl_installIcon_other other]
  rintro rfl
  exact other (ownPlace_desktopFile name)

theorem runtimeIntegrateOne_other (pkg : Package) (binary : Binary) (home : Home) {epName : Str}
    {place : Place} (other : ¬ OwnPlace (runtimeName pkg epName) place) :
    runtimeIntegrateOne linked pkg binary home epName place = home place := by
  rw [runtimeIntegrateOne, install_other _ _ _ other, removeIcons_other linked _ other]

/-- The home that a step of the command line leaves, whether or not it stops there. -/
def settled : Except Home Home → Home
  | .ok final => final
  | .error stopped => stopped

theorem cliIntegrateOne_other (pkg : Package) (binary : Binary) (home : Home) {epName : Str}
    {place : Place} (other : ¬ OwnPlace (cliName pkg epName) place) :
    settled (cliIntegrateOne linked pkg binary home epName) place = home place := by
  rw [cliIntegrateOne]
  split
  · exact removeIcons_other linked home other
  · exact (install_other _ _ _ other _ _ _ _).trans (removeIcons_other linked home other)

/-- Steps that leave a place alone leave it alone together. -/
theorem foldl_other {step : Home → Str → Home} {names : List Str} {place : Place}
    (each : ∀ name ∈ names, ∀ home : Home, step home name place = home place) (home : Home) :
    names.foldl step home place = home place := by
  induction names generalizing home with
  | nil => rfl
  | cons name names ih =>
      rw [List.forall_mem_cons] at each
      rw [List.foldl_cons, ih each.2, each.1]

theorem foldlM_other {step : Home → Str → Except Home Home} {names : List Str} {place : Place}
    (each : ∀ name ∈ names, ∀ home : Home, settled (step home name) place = home place)
    (home : Home) :
    settled (names.foldlM step home) place = home place := by
  induction names generalizing home with
  | nil => rfl
  | cons name names ih =>
      rw [List.forall_mem_cons] at each
      have here := each.1 home
      rw [List.foldlM_cons]
      cases result : step home name with
      | error stopped =>
          rw [result] at here
          exact here
      | ok next =>
          rw [result] at here
          exact (ih each.2 next).trans here

theorem perform_eq_settled (call : Call) (home : Home) (integrates : call.action = .integrate)
    (cli : call.tool = .cli) : call.perform linked home =
      settled (call.targets.foldlM (cliIntegrateOne linked call.package call.binary) home) := by
  rw [Call.perform, integrates, cli]
  cases call.targets.foldlM (cliIntegrateOne linked call.package call.binary) home with
  | ok final => rfl
  | error stopped => rfl

/-- A call touches only files of the names it covers. -/
theorem perform_other {call : Call} {place : Place}
    (other : ∀ ep ∈ call.targets, ¬ OwnPlace (call.tool.nameOf call.package ep) place)
    (home : Home) : call.perform linked home place = home place := by
  cases action : call.action with
  | unintegrate =>
      rw [Call.perform, action]
      exact foldl_other (fun ep member home =>
        unintegrateOne_other linked home (other ep member)) home
  | integrate =>
      cases tool : call.tool with
      | runtime =>
          rw [tool] at other
          rw [Call.perform, action, tool]
          exact foldl_other (fun ep member home =>
            runtimeIntegrateOne_other linked call.package call.binary home (other ep member)) home
      | cli =>
          rw [tool] at other
          rw [perform_eq_settled linked call home action tool]
          exact foldlM_other (fun ep member home =>
            cliIntegrateOne_other linked call.package call.binary home (other ep member)) home

/-! ### What a removal clears -/

theorem unintegrateOne_own (home : Home) {name : Str} {place : Place} (own : OwnPlace name place)
    (reachable : Reachable linked place) : unintegrateOne linked home name place = none := by
  cases place with
  | application file =>
      rw [unintegrateOne, removeIcons]
      exact if_pos (congrArg Place.application own)
  | icon size file => exact if_pos ⟨reachable, own⟩

theorem unintegrateOne_none {home : Home} {place : Place} (gone : home place = none) (name : Str) :
    unintegrateOne linked home name place = none := by
  cases place with
  | application file =>
      rw [unintegrateOne, removeIcons]
      split
      · rfl
      · exact gone
  | icon size file =>
      rw [unintegrateOne, removeIcons]
      split
      · rfl
      · rw [if_neg nofun]
        exact gone

theorem foldl_unintegrateOne {nameOf : Str → Str} {ep : Str} {place : Place} {names : List Str}
    (member : ep ∈ names) (own : OwnPlace (nameOf ep) place) (reachable : Reachable linked place)
    (home : Home) :
    names.foldl (fun home epName => unintegrateOne linked home (nameOf epName)) home place =
      none := by
  rcases List.append_of_mem member with ⟨before, after, rfl⟩
  have stays : ∀ later : List Str, ∀ home : Home, home place = none →
      later.foldl (fun home epName => unintegrateOne linked home (nameOf epName)) home place =
        none := by
    intro later
    induction later with
    | nil => exact fun home gone => gone
    | cons name later ih =>
        intro home gone
        exact ih _ (unintegrateOne_none linked gone _)
  rw [List.foldl_append, List.foldl_cons]
  exact stays after _ (unintegrateOne_own linked _ own reachable)

theorem perform_clears {call : Call} (removes : call.action = .unintegrate) {ep : Str}
    {place : Place} (covered : ep ∈ call.targets)
    (own : OwnPlace (call.tool.nameOf call.package ep) place)
    (reachable : Reachable linked place) (home : Home) : call.perform linked home place = none := by
  rw [Call.perform, removes]
  exact foldl_unintegrateOne linked covered own reachable home

end

/-! ### Both tools' names -/

theorem secondary_eq {pkg : Package} (unique : pkg.entrypoints.Nodup) (epName : Str) :
    secondary pkg epName = !isDefault pkg epName := by
  have first : pkg.entrypoints.idxOf? epName = some pkg.defaultEntrypoint ↔
      pkg.entrypoints[pkg.defaultEntrypoint]? = some epName := by
    rw [List.idxOf?_eq_some_iff, List.getElem?_eq_some_iff]
    constructor
    · rintro ⟨inside, here, -⟩
      exact ⟨inside, here⟩
    · rintro ⟨inside, here⟩
      refine ⟨inside, here, fun j earlier => ?_⟩
      intro same
      have repeated := (List.Nodup.getElem_inj_iff unique).mp (same.trans here.symm)
      omega
  rw [secondary, isDefault, Bool.eq_iff_iff, Bool.not_eq_true', decide_eq_true_iff,
    decide_eq_false_iff_not, ne_eq, first]

theorem cliName_eq {pkg : Package} (unique : pkg.entrypoints.Nodup) (epName : Str) :
    cliName pkg epName = runtimeName pkg epName := by
  rw [cliName, runtimeName, secondary_eq unique]
  cases isDefault pkg epName with
  | true => rfl
  | false => rfl

theorem nameOf_eq {pkg : Package} (unique : pkg.entrypoints.Nodup) (tool : Tool) (epName : Str) :
    tool.nameOf pkg epName = runtimeName pkg epName := by
  cases tool with
  | runtime => rfl
  | cli => exact cliName_eq unique epName

theorem Call.mem_of_targets {call : Call} {ep : Str} (member : ep ∈ call.targets) :
    ep ∈ call.package.entrypoints := by
  rcases List.mem_cons.mp member with rfl | other
  · exact call.known
  · split at other
    · rw [Call.others] at other
      split at other
      · exact List.mem_of_mem_eraseIdx (List.mem_filter.mp other).1
      · exact (List.mem_filter.mp other).1
      · exact List.mem_of_mem_eraseIdx other
    · cases other

/-! ### Integration keeps to its own files -/

/-- No two entrypoints share their names and their packages' names. -/
structure Distinct (packages : List Package) : Prop where
  entrypoints : ∀ pkg ∈ packages, pkg.entrypoints.Nodup
  pairs : ∀ pkg ∈ packages, ∀ other ∈ packages, ∀ ep ∈ pkg.entrypoints, ep ∈ other.entrypoints →
    pkg.name = other.name → pkg = other

def Call.Covers (call : Call) (pkgName ep : Str) : Prop :=
  call.package.name = pkgName ∧ ep ∈ call.targets

/-- The icons that a tool installs for an entrypoint. -/
def Tool.icons (tool : Tool) (pkg : Package) (ep : Str) : List ThemeIcon :=
  match tool with
  | .runtime => runtimeIcons pkg ep
  | .cli => ((cliResources pkg ep).map Prod.snd).getD []

/-- The files that a call of the tool installs for an entrypoint. -/
def Tool.installs (tool : Tool) (pkg : Package) (ep : Str) : List Place :=
  .application (desktopFile (tool.nameOf pkg ep)) ::
    (tool.icons pkg ep).map fun icon => .icon icon.size (iconFile (tool.nameOf pkg ep) icon.ext)

structure Upheld (linked : Str → Bool) (packages : List Package) : Prop where
  frame : ∀ home calls, (∀ call ∈ calls, call.package ∈ packages) →
    ∀ pkg ∈ packages, ∀ ep ∈ pkg.entrypoints, (∀ call ∈ calls, ¬ call.Covers pkg.name ep) →
      ∀ place, OwnPlace (runtimeName pkg ep) place → run linked home calls place = home place
  names : ∀ pkg ∈ packages, ∀ ep ∈ pkg.entrypoints, cliName pkg ep = runtimeName pkg ep
  cleared : ∀ home (first : Call) (middle : List Call) (last : Call),
    first.package ∈ packages → last.package ∈ packages →
    first.action = .integrate → last.action = .unintegrate →
      ∀ pkg ∈ packages, ∀ ep, first.Covers pkg.name ep → last.Covers pkg.name ep →
        ∀ place ∈ first.tool.installs first.package ep,
          run linked home (first :: middle ++ [last]) place = none

/-- No two entrypoints derive one name for their files. -/
def Apart (packages : List Package) : Prop :=
  ∀ pkg ∈ packages, ∀ ep ∈ pkg.entrypoints, ∀ other ∈ packages, ∀ ep' ∈ other.entrypoints,
    runtimeName pkg ep = runtimeName other ep' → pkg.name = other.name ∧ ep = ep'

/-- No icon is installed through a size directory that is a symbolic link. -/
def Unlinked (linked : Str → Bool) (packages : List Package) : Prop :=
  ∀ pkg ∈ packages, ∀ ep ∈ pkg.entrypoints, ∀ tool : Tool, ∀ icon ∈ tool.icons pkg ep,
    linked icon.size = false

section
variable {linked : Str → Bool} {packages : List Package}

theorem run_other (distinct : Distinct packages) (apart : Apart packages) {calls : List Call}
    (known : ∀ call ∈ calls, call.package ∈ packages) {pkg : Package} (listed : pkg ∈ packages)
    {ep : Str} (member : ep ∈ pkg.entrypoints)
    (uncovered : ∀ call ∈ calls, ¬ call.Covers pkg.name ep)
    {place : Place} (own : OwnPlace (runtimeName pkg ep) place) (home : Home) :
    run linked home calls place = home place := by
  induction calls generalizing home with
  | nil => rfl
  | cons call calls ih =>
      rw [List.forall_mem_cons] at known uncovered
      have here : call.perform linked home place = home place := by
        apply perform_other
        intro target covered theirs
        rw [nameOf_eq (distinct.entrypoints _ known.1)] at theirs
        have same := apart pkg listed ep member call.package known.1 target
          (Call.mem_of_targets covered) (own.unique theirs)
        apply uncovered.1
        rw [same.1, same.2]
        exact ⟨rfl, covered⟩
      have later := ih known.2 uncovered.2 (call.perform linked home)
      exact later.trans here

theorem run_cleared (unlinked : Unlinked linked packages) (distinct : Distinct packages)
    (home : Home) {first last : Call} (middle : List Call) (known : first.package ∈ packages)
    (ours : last.package ∈ packages) (removes : last.action = .unintegrate) {pkgName ep : Str}
    (covers : first.Covers pkgName ep) (clears : last.Covers pkgName ep) {place : Place}
    (installed : place ∈ first.tool.installs first.package ep) :
    run linked home (first :: middle ++ [last]) place = none := by
  have member := Call.mem_of_targets covers.2
  have same : first.package = last.package :=
    distinct.pairs _ known _ ours ep member (Call.mem_of_targets clears.2)
      (covers.1.trans clears.1.symm)
  have unique := distinct.entrypoints _ known
  have own : OwnPlace (runtimeName first.package ep) place := by
    rw [Tool.installs, nameOf_eq unique] at installed
    rcases List.mem_cons.mp installed with rfl | icon
    · exact ownPlace_desktopFile _
    · rcases List.mem_map.mp icon with ⟨source, -, rfl⟩
      exact ownPlace_iconFile _ _ _
  have reachable : Reachable linked place := by
    rw [Tool.installs] at installed
    rcases List.mem_cons.mp installed with rfl | icon
    · exact trivial
    · rcases List.mem_map.mp icon with ⟨source, listed, rfl⟩
      exact unlinked _ known ep member _ source listed
  rw [run, List.foldl_append, List.foldl_cons, List.foldl_nil]
  apply perform_clears linked removes clears.2 _ reachable
  rw [nameOf_eq (same ▸ unique), ← same]
  exact own

/-! ### Where it does not -/

def removal (pkg : Package) (ep : Str) (known : ep ∈ pkg.entrypoints) : Call where
  tool := .runtime
  action := .unintegrate
  package := pkg
  binary := ⟨[], none⟩
  selected := ep
  known := known

/-- Where two entrypoints derive one name, removing the one's files must be a call for the other. -/
theorem covers_of_same (upheld : Upheld linked packages) {pkg other : Package} {ep ep' : Str}
    (listed : pkg ∈ packages) (member : ep ∈ pkg.entrypoints) (also_listed : other ∈ packages)
    (also_member : ep' ∈ other.entrypoints) (same : runtimeName pkg ep = runtimeName other ep') :
    (removal other ep' also_member).Covers pkg.name ep := by
  by_contra uncovered
  have kept := upheld.frame (fun _ => some []) [removal other ep' also_member]
    (by simpa [removal] using also_listed) pkg listed ep member (by simpa using uncovered)
    (.application (desktopFile (runtimeName pkg ep))) rfl
  have cleared : (removal other ep' also_member).perform linked (fun _ => some [])
      (.application (desktopFile (runtimeName pkg ep))) = none := by
    have reachable : Reachable linked (.application (desktopFile (runtimeName pkg ep))) := trivial
    apply perform_clears linked rfl List.mem_cons_self _ reachable
    rw [same]
    exact ownPlace_desktopFile _
  have final : (removal other ep' also_member).perform linked (fun _ => some [])
      (.application (desktopFile (runtimeName pkg ep))) = some [] := kept
  rw [cleared] at final
  cases final

theorem isDefault_of_covers {pkg : Package} {ep : Str} {known : ep ∈ pkg.entrypoints}
    {pkgName ep' : Str} (covers : (removal pkg ep known).Covers pkgName ep') (differ : ep' ≠ ep) :
    isDefault pkg ep = true := by
  rcases List.mem_cons.mp covers.2 with same | other
  · exact absurd same differ
  · split at other
    · next whole => exact whole
    · cases other

theorem apart_of_upheld (distinct : Distinct packages) (upheld : Upheld linked packages) :
    Apart packages := by
  intro pkg listed ep member other also_listed ep' also_member same
  have first := covers_of_same upheld listed member also_listed also_member same
  have second := covers_of_same upheld also_listed also_member listed member same.symm
  refine ⟨first.1.symm, ?_⟩
  by_contra differ
  have theirs := isDefault_of_covers first differ
  have ours := isDefault_of_covers second (Ne.symm differ)
  have shared : ep ∈ other.entrypoints := Call.mem_of_targets first.2
  have one := distinct.pairs pkg listed other also_listed ep member shared first.1.symm
  rw [isDefault, decide_eq_true_iff] at ours theirs
  rw [one, theirs] at ours
  exact differ (Option.some.inj ours).symm

/-! ### An icon behind a link stays -/

/-- A step that leaves a place filled where it was filled. -/
def Stays (place : Place) (home next : Home) : Prop := home place ≠ none → next place ≠ none

theorem stays_write (place written : Place) (home : Home) (data : Bytes) :
    Stays place home (write home written data) := by
  intro filled
  rw [write]
  split
  · exact Option.some_ne_none _
  · exact filled

theorem stays_removeIcons {size : Str} (link : linked size = true) (file : Str) (home : Home)
    (name : Str) : Stays (.icon size file) home (removeIcons linked home name) := by
  intro filled
  rw [removeIcons, if_neg]
  · exact filled
  · rw [link]
    exact fun both => Bool.noConfusion both.1

theorem stays_unintegrateOne {size : Str} (link : linked size = true) (file : Str) (home : Home)
    (name : Str) : Stays (.icon size file) home (unintegrateOne linked home name) := by
  intro filled
  apply stays_removeIcons link
  exact filled

theorem stays_installIcons (place : Place) (name : Str) (icons : List ThemeIcon) (home : Home) :
    Stays place home (icons.foldl (installIcon name) home) := by
  induction icons generalizing home with
  | nil => exact id
  | cons icon icons ih =>
      intro filled
      exact ih _ (stays_write place _ home icon.data filled)

theorem filled_installIcons {name : Str} {icon : ThemeIcon} {icons : List ThemeIcon}
    (member : icon ∈ icons) (home : Home) :
    icons.foldl (installIcon name) home (.icon icon.size (iconFile name icon.ext)) ≠ none := by
  rcases List.append_of_mem member with ⟨before, after, rfl⟩
  rw [List.foldl_append, List.foldl_cons]
  apply stays_installIcons
  rw [installIcon, write, if_pos rfl]
  exact Option.some_ne_none _

theorem filled_install (home : Home) (pkg : Package) (ep : Str) {name : Str} (execPath : Str)
    (entrypoint desktop : Option Str) {icons : List ThemeIcon} {icon : ThemeIcon}
    (member : icon ∈ icons) : install home pkg ep name execPath entrypoint desktop icons
      (.icon icon.size (iconFile name icon.ext)) ≠ none :=
  stays_write _ _ _ _ (filled_installIcons member home)

theorem stays_install (place : Place) (home : Home) (pkg : Package) (ep name execPath : Str)
    (entrypoint desktop : Option Str) (icons : List ThemeIcon) :
    Stays place home (install home pkg ep name execPath entrypoint desktop icons) := by
  intro filled
  exact stays_write _ _ _ _ (stays_installIcons place name icons home filled)

theorem stays_foldl {step : Home → Str → Home} {place : Place}
    (each : ∀ home name, Stays place home (step home name)) (names : List Str) (home : Home) :
    Stays place home (names.foldl step home) := by
  induction names generalizing home with
  | nil => exact id
  | cons name names ih =>
      intro filled
      exact ih _ (each home name filled)

theorem stays_foldlM {step : Home → Str → Except Home Home} {place : Place}
    (each : ∀ home name, Stays place home (settled (step home name))) (names : List Str)
    (home : Home) :
    Stays place home (settled (names.foldlM step home)) := by
  induction names generalizing home with
  | nil => exact id
  | cons name names ih =>
      intro filled
      have here := each home name filled
      rw [List.foldlM_cons]
      cases result : step home name with
      | error stopped =>
          rw [result] at here
          exact here
      | ok next =>
          rw [result] at here
          exact ih next here

theorem stays_runtimeIntegrateOne {size : Str} (link : linked size = true) (file : Str)
    (pkg : Package) (binary : Binary) (home : Home) (ep : Str) :
    Stays (.icon size file) home (runtimeIntegrateOne linked pkg binary home ep) := by
  intro filled
  exact stays_install _ _ _ _ _ _ _ _ _ (stays_removeIcons link file home _ filled)

theorem stays_cliIntegrateOne {size : Str} (link : linked size = true) (file : Str)
    (pkg : Package) (binary : Binary) (home : Home) (ep : Str) :
    Stays (.icon size file) home (settled (cliIntegrateOne linked pkg binary home ep)) := by
  intro filled
  have left := stays_removeIcons link file home (cliName pkg ep) filled
  rw [cliIntegrateOne]
  split
  · exact left
  · exact stays_install _ _ _ _ _ _ _ _ _ left

def installation (tool : Tool) (pkg : Package) (ep : Str) (known : ep ∈ pkg.entrypoints) :
    Call where
  tool := tool
  action := .integrate
  package := pkg
  binary := ⟨[], none⟩
  selected := ep
  known := known

theorem filled_installation {tool : Tool} {pkg : Package} {ep : Str} (known : ep ∈ pkg.entrypoints)
    {icon : ThemeIcon} (member : icon ∈ tool.icons pkg ep) (link : linked icon.size = true)
    (home : Home) : (installation tool pkg ep known).perform linked home
      (.icon icon.size (iconFile (tool.nameOf pkg ep) icon.ext)) ≠ none := by
  cases tool with
  | runtime =>
      have first : runtimeIntegrateOne linked pkg ⟨[], none⟩ home ep
          (.icon icon.size (iconFile (runtimeName pkg ep) icon.ext)) ≠ none :=
        filled_install _ _ _ _ _ _ member
      rw [Call.perform, Call.targets]
      exact stays_foldl (fun home name => stays_runtimeIntegrateOne link _ pkg _ home name) _
        (runtimeIntegrateOne linked pkg ⟨[], none⟩ home ep) first
  | cli =>
      rw [perform_eq_settled linked _ home rfl rfl, Call.targets, List.foldlM_cons]
      cases read : cliResources pkg ep with
      | none =>
          rw [Tool.icons, read] at member
          cases member
      | some resources =>
          rcases resources with ⟨desktop, icons⟩
          rw [Tool.icons, read] at member
          have done : cliIntegrateOne linked pkg ⟨[], none⟩ home ep = .ok
              (install (removeIcons linked home (cliName pkg ep)) pkg ep (cliName pkg ep) []
                (cliExecEntrypoint pkg ⟨[], none⟩ ep) desktop icons) := by
            rw [cliIntegrateOne, read]
          have first : cliIntegrateOne linked (installation .cli pkg ep known).package
              (installation .cli pkg ep known).binary home
                (installation .cli pkg ep known).selected = _ := done
          rw [first]
          apply stays_foldlM fun home name => stays_cliIntegrateOne link _ pkg _ home name
          exact filled_install _ _ _ _ _ _ member

theorem unlinked_of_upheld (upheld : Upheld linked packages) : Unlinked linked packages := by
  intro pkg listed ep member tool icon installed
  by_contra link
  rw [Bool.not_eq_false] at link
  have gone := upheld.cleared (fun _ => none) (installation tool pkg ep member) []
    (removal pkg ep member) listed listed rfl rfl pkg listed ep ⟨rfl, List.mem_cons_self⟩
    ⟨rfl, List.mem_cons_self⟩ (.icon icon.size (iconFile (tool.nameOf pkg ep) icon.ext))
    (List.mem_cons_of_mem _ (List.mem_map_of_mem installed))
  have filled := filled_installation member installed link (fun _ => none)
  have stays : (removal pkg ep member).perform linked
      ((installation tool pkg ep member).perform linked fun _ => none)
      (.icon icon.size (iconFile (tool.nameOf pkg ep) icon.ext)) ≠ none :=
    stays_foldl (fun home name => stays_unintegrateOne link _ home _) _ _ filled
  exact stays gone

/-- Integration keeps to an entrypoint's own files exactly where no two entrypoints derive one name
and no icon goes through a linked size directory. -/
theorem upheld_iff (linked : Str → Bool) (packages : List Package) (distinct : Distinct packages) :
    Upheld linked packages ↔ Apart packages ∧ Unlinked linked packages := by
  constructor
  · intro upheld
    exact ⟨apart_of_upheld distinct upheld, unlinked_of_upheld upheld⟩
  · rintro ⟨apart, unlinked⟩
    refine ⟨?_, ?_, ?_⟩
    · intro home calls known pkg listed ep member uncovered place own
      exact run_other distinct apart known listed member uncovered own home
    · intro pkg listed ep member
      exact cliName_eq (distinct.entrypoints pkg listed) ep
    · intro home first middle last known ours integrates removes pkg listed ep covers clears place
        installed
      exact run_cleared unlinked distinct home middle known ours removes covers clears installed

end

/-! ### Two packages -/

def plain (name : Str) (entrypoints : List Str) : Package where
  name := name
  entrypoints := entrypoints
  defaultEntrypoint := 0
  ownDesktop := fun _ => true
  desktop := fun _ => .absent
  iconSet := fun _ _ => some [⟨"scalable".toList, .svg, [60]⟩]

def viewer : Package := plain "a".toList ["m".toList, "b".toList]
def player : Package := plain "c".toList ["z".toList]

theorem distinct_pair (name : Str) (differ : name ≠ "a".toList) :
    Distinct [viewer, plain name ["z".toList]] where
  entrypoints := by
    intro pkg listed
    rcases List.mem_pair.mp listed with rfl | rfl
    · decide
    · exact List.nodup_singleton _
  pairs := by
    intro pkg listed other listed' ep member member' same
    rcases List.mem_pair.mp listed with rfl | rfl
    · rcases List.mem_pair.mp listed' with rfl | rfl
      · rfl
      · exact absurd same.symm differ
    · rcases List.mem_pair.mp listed' with rfl | rfl
      · exact absurd same differ
      · rfl

theorem upheld_pair : Upheld (fun _ => false) [viewer, player] := by
  apply (upheld_iff _ _ (distinct_pair "c".toList (by decide))).mpr
  constructor
  · rw [Apart]
    decide +kernel
  · intro pkg listed ep member tool icon installed
    rfl

/-- The file of the entrypoint `b` of `a` and that of the package `a-b` have one name. -/
def shadowing : Package := plain "a-b".toList ["z".toList]

def shadowingRemoval : Call := removal shadowing "z".toList (by decide)

/-- Removing the one package's files takes the other's, though no call covers it. -/
theorem integration_collides :
    Distinct [viewer, shadowing] ∧ ¬ shadowingRemoval.Covers viewer.name "b".toList ∧
      (installation .runtime viewer "b".toList (by decide)).perform (fun _ => false) (fun _ => none)
        (.application (desktopFile (runtimeName viewer "b".toList))) ≠ none ∧
      run (fun _ => false) (fun _ => none)
        [installation .runtime viewer "b".toList (by decide), shadowingRemoval]
        (.application (desktopFile (runtimeName viewer "b".toList))) = none := by
  refine ⟨distinct_pair "a-b".toList (by decide), ?_, ?_, ?_⟩
  · intro covers
    exact absurd covers.1 (by decide)
  · decide +kernel
  · decide +kernel

end Onelf.Cli.Integrate
