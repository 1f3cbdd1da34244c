import Onelf.Cli.Pack.Loads
import Onelf.Runtime.Multicall

/-! What a launch of a packed entrypoint runs. -/

namespace Onelf.Cli.Pack

open Onelf.Lib hiding Holds
open Onelf.Format hiding joinPath
open Onelf.Runtime.Multicall (Launch Joinable extraArgs extraArgs_eq_iff resolveEntrypoint pick
  basename)

/-- The launch runs the entry at the declared path with the declared arguments before its own. -/
def RunsDeclared (manifest : Manifest) (declared : Declared) (launch : Launch) : Prop :=
  ∃ entrypoint passed, launch.run manifest = some (entrypoint, passed) ∧
    components (manifest.entryPath entrypoint.targetEntry) = packageRelative declared.path.bytes ∧
    passed = declared.args.map Text.bytes ++ launch.args.drop 1

/-- The row a name is found at: the first that has it up to a NUL, or else the default's. -/
def answering (opts : PackOptions) (name : Bytes) : Declared :=
  ((tableRows opts).find? fun row => cutNul row.name.bytes = name).getD (defaultRow opts)

/-- The row found for a launch has the path and the arguments of the declared one, and these are
arguments that one string can hold. -/
structure Answered (opts : PackOptions) (declared : Declared) (launch : Launch) : Prop where
  path : ∃ rel, relPathOf (answering opts (launch.sought declared.name.bytes)).path.bytes =
    some rel ∧ (landing rel).map .normal = packageRelative declared.path.bytes
  args : cutNul (joinArgs (answering opts (launch.sought declared.name.bytes)).args).bytes =
    (joinArgs declared.args).bytes
  joinable : Joinable (declared.args.map Text.bytes)

/-- Every count of a manifest is one it has room for. -/
structure Counted (opts : PackOptions) (host : Host) (tree : Tree) : Prop where
  blocks : BlocksCounted opts host tree
  rows : (tableRows opts).length < 2 ^ 16
  libDirs : (resolveLibDirs opts host tree).length < 2 ^ 16

section
variable {opts : PackOptions} {host : Host} {tree : Tree}

theorem answering_mem (name : Bytes) : answering opts name ∈ tableRows opts := by
  rw [answering]
  cases found : (tableRows opts).find? fun row => cutNul row.name.bytes = name with
  | none => exact List.mem_cons_self
  | some row => exact List.mem_of_find?_eq_some found

/-- A declared name is in the table. -/
theorem declared_named {declared : Declared} (member : declared ∈ opts.entrypoints) :
    ∃ row ∈ tableRows opts, row.name = declared.name := by
  by_cases default : opts.defaultEntrypoint = some declared.name
  · refine ⟨defaultRow opts, List.mem_cons_self, ?_⟩
    rw [defaultRow, defaultName, default]
    rfl
  · refine ⟨declared, List.mem_cons_of_mem _ (List.mem_filter.mpr ⟨member, ?_⟩), rfl⟩
    exact decide_eq_true default

/-- What the loader reads of a package is the manifest it was written from. -/
theorem pack_reads {packed : Packed} {manifest : Manifest}
    (addressable : Addressable opts host tree) (counted : Counted opts host tree)
    (ran : pack opts host tree = some packed)
    (read : Manifest.deserialize packed.manifestBytes = .ok manifest) :
    ∃ packageId footerHash, manifest = packed.manifest.sealed packageId footerHash := by
  rcases pack_from ran with ⟨_, origin⟩
  rcases origin.bytes with ⟨packageId, footerHash, bytes⟩
  rcases pack_packs ran addressable with ⟨payloaded, payload, packs⟩
  have fits := packs.fits_sealed (counted.blocks payloaded payload) counted.rows counted.libDirs
    packageId footerHash
  have whole := Manifest.deserialize_bodyBytes fits []
  rw [List.append_nil, ← bytes, read] at whole
  cases checked : validate (packed.manifest.sealed packageId footerHash) with
  | error reason =>
      rw [checked] at whole
      cases whole
  | ok nothing =>
      rw [checked] at whole
      exact ⟨packageId, footerHash, Except.ok.inj whole⟩

variable {manifest : Manifest} {files : List CompressedFile}

theorem Packs.names (packs : Packs opts host tree manifest files) (packageId footerHash : Digest) :
    ((manifest.sealed packageId footerHash).entrypoints.map fun entrypoint =>
        (manifest.sealed packageId footerHash).getString entrypoint.name) =
      (tableRows opts).map fun row => cutNul row.name.bytes := by
  have each : _ ↔ ∀ row ∈ tableRows opts, True := paired_map_eq_iff packs.assembled.pointed
    fun row _ entrypoint pointed => iff_true_intro (Manifest.getString_of_holds pointed.name)
  exact each.mpr fun _ _ => trivial

/-- The entrypoint a launch runs is that of the row found for it. -/
theorem Packs.run (packs : Packs opts host tree manifest files) (packageId footerHash : Digest)
    {declared : Declared} (member : declared ∈ opts.entrypoints) {launch : Launch}
    (asks : launch.AsksFor declared.name.bytes) :
    ∃ entrypoint, Pointed manifest.stringTable (itemsOf (shipped opts host tree) files)
        (answering opts (launch.sought declared.name.bytes)) entrypoint ∧
      launch.run (manifest.sealed packageId footerHash) = some (entrypoint,
        extraArgs (cutNul (joinArgs (answering opts
          (launch.sought declared.name.bytes)).args).bytes) ++ launch.args.drop 1) := by
  have named : declared.name.bytes ∈ (tableRows opts).map fun row => cutNul row.name.bytes := by
    rcases declared_named member with ⟨row, within, same⟩
    refine List.mem_map.mpr ⟨row, within, ?_⟩
    rw [same, cutNul_of_not_mem asks.plain]
  have place : resolveEntrypoint (manifest.sealed packageId footerHash) launch.argv0
      launch.requested launch.exported = ((tableRows opts).findIdx? fun row =>
        cutNul row.name.bytes = launch.sought declared.name.bytes).getD 0 := by
    have default : (manifest.sealed packageId footerHash).header.defaultEntrypoint = 0 :=
      packs.assembled.defaultEntrypoint
    rw [resolveEntrypoint, packs.names, asks.picked named, List.findIdx?_map, default]
    rfl
  rcases paired_getElem? packs.assembled.pointed (getElem?_findIdx?_getD (defaultRow opts)
    (otherRows opts) fun row => cutNul row.name.bytes = launch.sought declared.name.bytes) with
    ⟨entrypoint, there, pointed⟩
  refine ⟨entrypoint, pointed, ?_⟩
  have runs : (manifest.sealed packageId footerHash).entrypoints = manifest.entrypoints := rfl
  have args := Manifest.getString_of_holds pointed.args
  rw [Launch.run, place, runs, tableRows, there, Option.map_some, getString_sealed, args]
  rfl

/-- A launch that asks for a declared entrypoint runs it exactly where the row found for it is
alike and its arguments can be told apart again. -/
theorem pack_launches_iff (addressable : Addressable opts host tree)
    (counted : Counted opts host tree) {packed : Packed} (ran : pack opts host tree = some packed)
    {manifest : Manifest} (read : Manifest.deserialize packed.manifestBytes = .ok manifest)
    {declared : Declared} (member : declared ∈ opts.entrypoints) {launch : Launch}
    (asks : launch.AsksFor declared.name.bytes) :
    RunsDeclared manifest declared launch ↔ Answered opts declared launch := by
  rcases pack_reads addressable counted ran read with ⟨packageId, footerHash, same⟩
  rcases pack_packs ran addressable with ⟨payloaded, _, packs⟩
  rcases packs.run packageId footerHash member asks with ⟨entrypoint, pointed, runs⟩
  rcases packs.leads (answering_mem _) pointed with ⟨_, rel, split, _, leads⟩
  rw [same, RunsDeclared, runs]
  simp only [entryPath_sealed]
  constructor
  · intro declares
    rcases declares with ⟨chosen, passed, run, path, args⟩
    cases run
    rw [List.append_left_inj, extraArgs_eq_iff] at args
    exact ⟨⟨rel, split, leads.symm.trans path⟩, args.1, args.2⟩
  · intro answered
    rcases answered.path with ⟨again, once, lands⟩
    rw [split, Option.some.injEq] at once
    refine ⟨entrypoint, _, rfl, leads.trans (once ▸ lands), ?_⟩
    rw [List.append_left_inj, extraArgs_eq_iff]
    exact ⟨answered.args, answered.joinable⟩

end

/-! ### A declared entrypoint with the command's own name -/

def twinTree : Tree where
  entries := [plainEntry ["app"] (.file [1]), plainEntry ["tool"] (.file [2])]
  output := none
  distinct := by decide +kernel
  named := by decide +kernel
  parents := by decide +kernel
  targets := by decide +kernel

def twinOptions : PackOptions :=
  { plainOptions with entrypoints := [⟨lossyText (utf8 "app"), lossyText (utf8 "tool"), []⟩] }

def twinHost : Host :=
  plainHost 0x56bb21a4cdb0ac9b11189e6e2691d5bb8c40133d4fbc9fe192c07120eae28933
    0xa8356983e95e7312bbcab04475baeaec81d221f4c98b1e4eac01405ceac23613 0x31cbad8f

/-- A process started with its name requested. -/
def requesting (name : String) (plain : 0 ∉ utf8 name) : Launch where
  args := []
  requested := some (utf8 name)
  exported := none
  plainArgs := fun _ member => absurd member List.not_mem_nil
  plainRequest := by
    intro other same
    cases same
    exact plain

theorem twin_counted : Counted twinOptions twinHost twinTree :=
  ⟨blocksCounted_of_all (by decide +kernel), by decide +kernel, by decide +kernel⟩

/-- The declared name runs the command and not what was declared. -/
theorem pack_launches_other : ¬∀ (opts : PackOptions) (host : Host) (tree : Tree) (packed : Packed)
    (manifest : Manifest) (declared : Declared) (launch : Launch), Addressable opts host tree →
      Counted opts host tree → pack opts host tree = some packed →
        Manifest.deserialize packed.manifestBytes = .ok manifest → declared ∈ opts.entrypoints →
          launch.AsksFor declared.name.bytes → RunsDeclared manifest declared launch := by
  intro runs
  have packs : (pack twinOptions twinHost twinTree).isSome = true := by decide +kernel
  rcases Option.isSome_iff_exists.mp packs with ⟨packed, ran⟩
  have read : (pack twinOptions twinHost twinTree).all (fun packed =>
      (Manifest.deserialize packed.manifestBytes).toOption.any fun manifest =>
        ((requesting "app" (by decide +kernel)).run manifest).all fun chosen =>
          components (manifest.entryPath chosen.1.targetEntry) ≠ packageRelative (utf8 "tool")) =
      true := by decide +kernel
  rw [ran, Option.all_some, Option.any_eq_true] at read
  rcases read with ⟨manifest, accepted, chosen⟩
  have declares := runs twinOptions twinHost twinTree packed manifest
    ⟨lossyText (utf8 "app"), lossyText (utf8 "tool"), []⟩ (requesting "app" (by decide +kernel))
    ⟨by decide +kernel, by decide +kernel⟩ twin_counted ran (ok_of_toOption accepted)
    List.mem_cons_self (Or.inl (by decide +kernel))
  rcases declares with ⟨entrypoint, passed, run, path, _⟩
  rw [run, Option.all_some, decide_eq_true_eq] at chosen
  exact chosen (path.trans (by decide +kernel))

def runOptions : PackOptions :=
  { plainOptions with
    entrypoints := [⟨lossyText (utf8 "run"), lossyText (utf8 "app"), [lossyText (utf8 "-v")]⟩] }

def runHost : Host :=
  plainHost 0x2f61627ded1baa5e2ecb2c216479dabd3fa6b0ee91f5ed69c34331bbe822d454
    0x48e6ee02989a54bb0b20623016a3f34d563c4281deffd27dd67d893b81b86ca2 0xbd59b568

theorem runOptions_packed : (pack runOptions runHost plainTree).isSome = true := by decide +kernel

theorem runOptions_read : (Manifest.deserialize
    ((pack runOptions runHost plainTree).get runOptions_packed).manifestBytes).toOption.isSome =
      true := by decide +kernel

theorem runOptions_counted : Counted runOptions runHost plainTree :=
  ⟨blocksCounted_of_all (by decide +kernel), by decide +kernel, by decide +kernel⟩

theorem pack_launches_run :
    RunsDeclared ((Manifest.deserialize ((pack runOptions runHost plainTree).get
        runOptions_packed).manifestBytes).toOption.get runOptions_read)
        ⟨lossyText (utf8 "run"), lossyText (utf8 "app"), [lossyText (utf8 "-v")]⟩
        (requesting "run" (by decide +kernel)) ↔
      Answered runOptions
        ⟨lossyText (utf8 "run"), lossyText (utf8 "app"), [lossyText (utf8 "-v")]⟩
        (requesting "run" (by decide +kernel)) :=
  pack_launches_iff ⟨by decide +kernel, by decide +kernel⟩ runOptions_counted
    (Option.some_get runOptions_packed).symm
    (ok_of_toOption (Option.some_get runOptions_read).symm) List.mem_cons_self
    (Or.inl (by decide +kernel))

end Onelf.Cli.Pack
