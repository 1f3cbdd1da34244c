import Onelf.Format.Resolve

/-! What the libraries taken from the host need of the host (`resolve.rs`). -/

namespace Onelf.Format

open Onelf.Lib

/-! ### The closure walk -/

/-- Named by a seed, or needed by the host's copy of such a name. -/
inductive Reached (tree : Tree) (host : HostIndex) : Bytes → Prop where
  | seed {name : Bytes} (start : name ∈ host.seeds) : Reached tree host name
  | need {name next : Bytes} (before : Reached tree host name)
      (needed : next ∈ host.needs tree name) : Reached tree host next

theorem needs_of_absent (tree : Tree) (host : HostIndex) (name : Bytes) :
    name ∈ host.libs.keys ∨ host.needs tree name = [] := by
  rw [SortedMap.mem_keys_iff, HostIndex.needs]
  cases host.libs.get? name with
  | none => exact Or.inr rfl
  | some path => exact Or.inl rfl

/-- The walk has fuel enough to visit all that is reached, and visits nothing else. -/
theorem mem_driverClosure {tree : Tree} {host : HostIndex} {name : Bytes} :
    name ∈ host.driverClosure tree ↔ Reached tree host name := by
  have closed := walk_closed (needs_of_absent tree host)
    (pending (host.needs tree) host.libs.keys [] host.seeds) [] host.seeds
    (fun value absent => absurd absent List.not_mem_nil) (Nat.le_refl _)
  have sound : ∀ value ∈ host.driverClosure tree, Reached tree host value := by
    apply walk_sound
    · intro value before next needed
      exact before.need needed
    · intro value start
      exact Reached.seed (start.resolve_left List.not_mem_nil)
  constructor
  · exact sound name
  · intro reached
    induction reached with
    | seed start => exact closed.1 _ (Or.inr start)
    | need before needed ih => exact closed.2 _ ih _ needed

/-! ### The candidates' winners -/

/-- The host's copy of a soname, where it is the one weighed to win. -/
def hostWinner (tree : Tree) (bundled : SortedMap Bytes Bytes) (host : HostIndex) (name : Bytes) :
    Option Bytes :=
  (host.libs.get? name).filter fun hostPath =>
    decide (((bundled.get? name).map fun bundledPath =>
      compare (versions tree bundledPath) (versions tree hostPath)).getD .host = .host)

theorem settle_winner (decision : Decision) (name hostPath : Bytes) (choice : Option Choice) :
    (decision.settle name hostPath choice).winners.get? name =
      if choice.getD .host = .host then some hostPath else decision.winners.get? name := by
  simp only [Decision.settle]
  split
  · next won => rw [won, if_pos rfl, SortedMap.get?_insert, if_pos rfl]
  · next lost => rw [lost, if_neg (by decide)]
  · next lost => rw [lost, if_neg (by decide)]

/-- Weighing one name changes what is held for that name only. -/
theorem weigh_winners (tree : Tree) (bundled : SortedMap Bytes Bytes) (host : HostIndex)
    (decision : Decision) {name : Bytes} (plain : isLibcFamily name = false) (member : Bytes) :
    (weigh tree bundled host decision name).winners.get? member =
      if name = member then (hostWinner tree bundled host name).or (decision.winners.get? member)
      else decision.winners.get? member := by
  rw [weigh, plain, if_neg Bool.false_ne_true, hostWinner]
  cases host.libs.get? name with
  | none => simp
  | some hostPath =>
      rw [Option.elim_some]
      by_cases here : name = member
      · rw [← here, settle_winner, if_pos rfl, Option.filter_some]
        split
        · next won => rw [if_pos (decide_eq_true won), Option.some_or]
        · next lost => rw [if_neg (by rwa [decide_eq_true_iff]), Option.none_or]
      · rw [settle_other decision here, if_neg here]

theorem foldl_weigh_winners (tree : Tree) (bundled : SortedMap Bytes Bytes) (host : HostIndex)
    (names : List Bytes) (decision : Decision) {member : Bytes}
    (plain : isLibcFamily member = false) :
    (names.foldl (weigh tree bundled host) decision).winners.get? member =
      if member ∈ names then
        (hostWinner tree bundled host member).or (decision.winners.get? member)
      else decision.winners.get? member := by
  induction names generalizing decision with
  | nil => simp
  | cons name names ih =>
      rw [List.foldl_cons, ih]
      by_cases here : name = member
      · rw [here, weigh_winners tree bundled host decision plain, if_pos rfl]
        cases hostWinner tree bundled host member with
        | none => simp
        | some path => simp
      · have kept : (weigh tree bundled host decision name).winners.get? member =
            decision.winners.get? member := by
          cases family : isLibcFamily name with
          | true => rw [weigh, family, if_pos rfl]
          | false => rw [weigh_winners tree bundled host decision family, if_neg here]
        rw [kept]
        simp only [List.mem_cons, Ne.symm here, false_or]

/-- Reached by the walk, or bundled where everything bundled is weighed. -/
def Weighed (tree : Tree) (req : Request) (host : HostIndex) (name : Bytes) : Prop :=
  Reached tree host name ∨ req.policy = .always ∧ name ∈ (carried tree req).keys

theorem mem_candidates {tree : Tree} {req : Request} {host : HostIndex} {name : Bytes} :
    name ∈ candidates tree req (carried tree req) host ↔ Weighed tree req host name := by
  rw [candidates, mem_sortDedup, List.mem_append, mem_driverClosure, Weighed]
  by_cases always : req.policy = .always
  · rw [if_pos always, and_iff_right always]
  · rw [if_neg always, iff_false_intro always, false_and]
    simp

/-- What the decision holds for a name outside the family. -/
theorem decideOn_plain {tree : Tree} {req : Request} {host : HostIndex} {name path : Bytes}
    (plain : isLibcFamily name = false) :
    (decideOn tree req host).winners.get? name = some path ↔
      Weighed tree req host name ∧ hostWinner tree (carried tree req) host name = some path := by
  have start : (decideLibc tree req (carried tree req) host).winners.get? name = none := by
    rw [(decideLibc_eq tree req host).2]
    cases libcWinner tree req host with
    | none => rfl
    | some interp =>
        rw [Option.elim_some, get?_moveFamily, if_neg (by simp [plain])]
        rfl
  rw [decideOn, foldl_weigh_winners _ _ _ _ _ plain, start, Option.or_none, mem_candidates.symm]
  split
  · next weighed => rw [and_iff_right weighed]
  · next left => simp [left]

/-! ### What the winners need -/

/-- What one host object names is carried, of the glibc family, unknown to the host, or reached by
the walk. -/
def Provided (tree : Tree) (req : Request) (host : HostIndex) (path : Bytes) : Prop :=
  ∀ needed ∈ (tree.readNeeded path).getD [],
    needed ∈ (carried tree req).keys ∨ isLibcFamily needed = true ∨ needed ∉ host.libs.keys ∨
      Reached tree host needed

/-- What every library taken from the host names is carried, taken as well, of the glibc family, or
unknown to the host. -/
def Accompanied (tree : Tree) (req : Request) (host : HostIndex) (decision : Decision) : Prop :=
  ∀ soname path, decision.winners.get? soname = some path →
    ∀ needed ∈ (tree.readNeeded path).getD [],
      needed ∈ (carried tree req).keys ∨ needed ∈ decision.winners.keys ∨
        isLibcFamily needed = true ∨ needed ∉ host.libs.keys

/-- The winners the walk does not come by have no needs of their own beyond it: a bundled library
under `always`, and the members of the glibc family. -/
structure NeedsMet (tree : Tree) (req : Request) (host : HostIndex) : Prop where
  bundled : req.policy = .always → ∀ name, isLibcFamily name = false → ¬Reached tree host name →
    ∀ bundledPath hostPath, (carried tree req).get? name = some bundledPath →
      host.libs.get? name = some hostPath →
        compare (versions tree bundledPath) (versions tree hostPath) = .host →
          Provided tree req host hostPath
  family : ∀ interp, libcWinner tree req host = some interp → ∀ name ∈ (carried tree req).keys,
    isLibcFamily name = true → ∀ path, familyCopy host interp name = some path →
      Provided tree req host path

theorem hostWinner_of_not_carried {tree : Tree} {bundled : SortedMap Bytes Bytes}
    {host : HostIndex} {name : Bytes} (lacks : name ∉ bundled.keys) :
    hostWinner tree bundled host name = host.libs.get? name := by
  rw [SortedMap.mem_keys_iff, Option.not_isSome_iff_eq_none] at lacks
  rw [hostWinner, lacks]
  cases host.libs.get? name with
  | none => rfl
  | some path => rfl

theorem hostWinner_eq_some {tree : Tree} {bundled : SortedMap Bytes Bytes} {host : HostIndex}
    {name bundledPath path : Bytes} (carries : bundled.get? name = some bundledPath) :
    hostWinner tree bundled host name = some path ↔
      host.libs.get? name = some path ∧
        compare (versions tree bundledPath) (versions tree path) = .host := by
  rw [hostWinner, Option.filter_eq_some_iff, carries]
  simp

/-- What neither the tree carries nor the family covers is taken exactly when the walk comes by. -/
theorem taken_iff_reached {tree : Tree} {req : Request} {host : HostIndex} {name : Bytes}
    (plain : isLibcFamily name = false) (lacks : name ∉ (carried tree req).keys)
    (hosted : name ∈ host.libs.keys) :
    name ∈ (decideOn tree req host).winners.keys ↔ Reached tree host name := by
  rw [SortedMap.mem_keys_iff, Option.isSome_iff_exists] at hosted ⊢
  obtain ⟨path, copy⟩ := hosted
  constructor
  · intro taken
    obtain ⟨chosen, held⟩ := taken
    exact ((decideOn_plain plain).mp held).1.resolve_right fun bundled => lacks bundled.2
  · intro reached
    refine ⟨path, (decideOn_plain plain).mpr ⟨Or.inl reached, ?_⟩⟩
    rw [hostWinner_of_not_carried lacks, copy]

theorem accompanied_of_provided {tree : Tree} {req : Request} {host : HostIndex} :
    Accompanied tree req host (decideOn tree req host) ↔
      ∀ soname path, (decideOn tree req host).winners.get? soname = some path →
        Provided tree req host path := by
  refine forall₃_congr fun soname path chosen => forall₂_congr fun needed names => ?_
  by_cases carries : needed ∈ (carried tree req).keys
  · exact iff_of_true (Or.inl carries) (Or.inl carries)
  · cases family : isLibcFamily needed with
    | true => simp
    | false =>
        by_cases hosted : needed ∈ host.libs.keys
        · rw [taken_iff_reached family carries hosted]
          simp [carries, hosted]
        · simp [hosted]

/-- What a name reached by the walk needs is reached. -/
theorem provided_of_reached {tree : Tree} {req : Request} {host : HostIndex} {name path : Bytes}
    (reached : Reached tree host name) (hosted : host.libs.get? name = some path) :
    Provided tree req host path := by
  intro needed names
  have need : needed ∈ host.needs tree name := by
    rw [HostIndex.needs, hosted]
    exact names
  exact Or.inr (Or.inr (Or.inr (reached.need need)))

/-- Libraries taken from the host come with what they need exactly when those the walk does not
come by need nothing beyond it. -/
theorem decideOn_accompanied_iff (tree : Tree) (req : Request) (host : HostIndex) :
    Accompanied tree req host (decideOn tree req host) ↔ NeedsMet tree req host := by
  rw [accompanied_of_provided]
  constructor
  · intro provided
    constructor
    · intro always name plain _ bundledPath hostPath carries hosted newer
      apply provided name hostPath
      have member : name ∈ (carried tree req).keys := by
        rw [SortedMap.mem_keys_iff, carries]
        rfl
      exact (decideOn_plain plain).mpr
        ⟨Or.inr ⟨always, member⟩, (hostWinner_eq_some carries).mpr ⟨hosted, newer⟩⟩
    · intro interp wins name member family path copied
      apply provided name path
      rw [decideOn_family tree req host family, wins, Option.bind_some, if_pos member]
      exact copied
  · intro met soname path chosen
    cases family : isLibcFamily soname with
    | true =>
        rw [decideOn_family tree req host family, Option.bind_eq_some_iff] at chosen
        obtain ⟨interp, wins, copied⟩ := chosen
        split at copied
        · next member => exact met.family interp wins soname member family path copied
        · cases copied
    | false =>
        obtain ⟨weighed, won⟩ := (decideOn_plain family).mp chosen
        have hosted : host.libs.get? soname = some path := by
          rw [hostWinner, Option.filter_eq_some_iff] at won
          exact won.1
        by_cases reached : Reached tree host soname
        · exact provided_of_reached reached hosted
        · obtain ⟨always, member⟩ := weighed.resolve_left reached
          rw [SortedMap.mem_keys_iff, Option.isSome_iff_exists] at member
          obtain ⟨bundledPath, carries⟩ := member
          exact met.bundled always soname family reached bundledPath path carries hosted
            ((hostWinner_eq_some carries).mp won).2

/-- A package that carries an old libfoo; the host's newer one needs a libbar the package lacks. -/
def fooTree : Tree where
  readDir dir := if dir = utf8 "/p/lib" then some [utf8 "libfoo.so.1"] else none
  readLink _ := none
  regular _ := true
  readVersions path :=
    if path = utf8 "/usr/lib/libfoo.so.1" then some {utf8 "FOO_1"} else none
  readNeeded path :=
    if path = utf8 "/usr/lib/libfoo.so.1" then some [utf8 "libbar.so.2"] else none
  readInterp _ := none

def fooRequest : Request where
  pkgRoot := utf8 "/p"
  libDirs := [utf8 "lib"]
  policy := .always
  setRoots := []
  hostLibc := true

def fooHost : HostIndex where
  libs := ⟨[(utf8 "libbar.so.2", utf8 "/usr/lib/libbar.so.2"),
    (utf8 "libfoo.so.1", utf8 "/usr/lib/libfoo.so.1")], by decide +kernel⟩
  icdLibs := []
  moduleNeeds := []

/-- The host's libfoo is taken and its libbar is not. -/
theorem libbar_left_behind : ¬ Accompanied fooTree fooRequest fooHost
    (decideOn fooTree fooRequest fooHost) := by
  intro accompanied
  have taken : (decideOn fooTree fooRequest fooHost).winners.get? (utf8 "libfoo.so.1") =
      some (utf8 "/usr/lib/libfoo.so.1") := by decide +kernel
  rcases accompanied _ _ taken (utf8 "libbar.so.2") (by decide +kernel) with
    carries | alongside | family | unknown
  · exact absurd carries (by decide +kernel)
  · exact absurd alongside (by decide +kernel)
  · exact absurd family (by decide +kernel)
  · exact absurd unknown (by decide +kernel)

end Onelf.Format
