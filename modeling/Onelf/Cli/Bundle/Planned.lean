import Onelf.Cli.Bundle.Plan

/-! Sequences of requests to a destination plan, in whatever order they come. -/

namespace Onelf.Cli.Bundle.Plan

open Onelf.Lib Ledger

variable {host : Host}

theorem step_follows (plan : DestinationPlan) (request : Request) :
    (claimOf host request = none ∧ step host plan request = plan) ∨
      ∃ claim, claimOf host request = some claim ∧
        Follows plan (step host plan request) claim := by
  have copied (rel src : Bytes) (origin : Str) (refresh : Bool)
      (performed : perform host plan request = admitSource host plan rel src origin refresh)
      (claims : claimOf host request = (plannedOf host src).toOption.map fun planned =>
        sourceClaim host rel planned.1 planned.2 origin refresh) :
      (claimOf host request = none ∧ step host plan request = plan) ∨
        ∃ claim, claimOf host request = some claim ∧
          Follows plan (step host plan request) claim := by
    rw [claims, step, performed]
    rcases @admitSource_follows host plan rel src origin refresh with
      ⟨reason, fails, read⟩ | ⟨source, planned, read, ⟨reason, fails, follows⟩ |
        ⟨decision, next, done, follows⟩⟩
    · rw [fails, read]
      exact Or.inl ⟨rfl, rfl⟩
    · rw [fails, read]
      exact Or.inr ⟨_, rfl, follows⟩
    · rw [done, read]
      exact Or.inr ⟨_, rfl, follows⟩
  cases request with
  | file rel hash origin existing =>
      exact Or.inr ⟨_, rfl, admit_follows plan rel .file hash origin existing (by decide)⟩
  | link rel target origin existing =>
      exact Or.inr ⟨_, rfl, admit_follows plan rel .link (host.linkHash target) origin existing
        (by decide)⟩
  | carried rel src origin => exact copied rel src origin false rfl rfl
  | refreshed rel src origin => exact copied rel src origin true rfl rfl

/-- Findings stay. -/
theorem findings_foldl (requests : List Request) {plan : DestinationPlan}
    (found : plan.findings ≠ []) : (requests.foldl (step host) plan).findings ≠ [] := by
  induction requests generalizing plan with
  | nil => exact found
  | cons request requests ih =>
      apply ih
      rcases @step_follows host plan request with
        ⟨-, same⟩ | ⟨claim, -, ⟨same, -⟩ | ⟨⟨finding, more⟩, -⟩⟩
      · rwa [same]
      · rwa [same]
      · rw [more]
        exact List.append_ne_nil_of_right_ne_nil _ (List.cons_ne_nil _ _)

/-- A plan takes requests as a table takes their claims. -/
theorem foldl_step (requests : List Request) {plan : DestinationPlan}
    (silent : plan.findings = []) :
    match Claims.takeAll plan.held (requests.filterMap (claimOf host)) with
    | some table => (requests.foldl (step host) plan).findings = [] ∧
        (requests.foldl (step host) plan).held = table
    | none => (requests.foldl (step host) plan).findings ≠ [] := by
  induction requests generalizing plan with
  | nil => exact ⟨silent, rfl⟩
  | cons request requests ih =>
      rw [List.foldl_cons]
      rcases @step_follows host plan request with
        ⟨idle, same⟩ | ⟨claim, claims, ⟨same, taken⟩ | ⟨⟨finding, more⟩, conflict⟩⟩
      · rw [List.filterMap_cons_none idle, same]
        exact ih silent
      · rw [List.filterMap_cons_some claims, Claims.takeAll, List.foldlM_cons, taken]
        exact ih (same.trans silent)
      · rw [List.filterMap_cons_some claims, Claims.takeAll, List.foldlM_cons, conflict]
        apply findings_foldl
        rw [more]
        exact List.append_ne_nil_of_right_ne_nil _ (List.cons_ne_nil _ _)

/-- What the requests of a sequence claim. -/
def claimsOf (host : Host) (requests : List Request) : List (Claims.Claim Bytes Digest) :=
  requests.filterMap (claimOf host)

theorem held_begun : begun.held = Claims.vacant := rfl

theorem run_spec (requests : List Request) :
    (∃ table, Claims.takeAll Claims.vacant (claimsOf host requests) = some table ∧
      (run host requests).findings = [] ∧ (run host requests).held = table) ∨
    (Claims.takeAll Claims.vacant (claimsOf host requests) = none ∧
      (run host requests).findings ≠ []) := by
  have spec := @foldl_step host requests begun rfl
  rw [held_begun] at spec
  rw [claimsOf]
  cases taken : Claims.takeAll Claims.vacant (requests.filterMap (claimOf host)) with
  | none =>
      rw [taken] at spec
      exact Or.inr ⟨rfl, spec⟩
  | some table =>
      rw [taken] at spec
      exact Or.inl ⟨table, rfl, spec⟩

theorem hasFindings_eq_true_iff {requests : List Request} :
    (run host requests).hasFindings = true ↔
      Claims.takeAll Claims.vacant (claimsOf host requests) = none := by
  rw [DestinationPlan.hasFindings, Bool.not_eq_true', List.isEmpty_eq_false_iff]
  rcases @run_spec host requests with ⟨table, taken, silent, -⟩ | ⟨conflict, found⟩
  · rw [taken, silent]
    exact iff_of_false (fun found => found rfl) (Option.some_ne_none table)
  · exact iff_of_true found conflict

/-- An order of claims is that of the requests that make them. -/
theorem exists_perm_filterMap {α β : Type} {give : α → Option β} {chosen : List β}
    {values : List α} (same : chosen.Perm (values.filterMap give)) :
    ∃ others : List α, others.Perm values ∧ others.filterMap give = chosen := by
  induction chosen generalizing values with
  | nil => exact ⟨values, List.Perm.refl values, List.nil_perm.mp same⟩
  | cons first rest ih =>
      obtain ⟨value, member, given⟩ :=
        List.mem_filterMap.mp (same.mem_iff.mp List.mem_cons_self)
      obtain ⟨front, back, rfl⟩ := List.append_of_mem member
      have moved : (front ++ value :: back).Perm (value :: (front ++ back)) := List.perm_middle
      have left := same.trans (moved.filterMap give)
      rw [List.filterMap_cons_some given, List.perm_cons] at left
      obtain ⟨others, perm, gives⟩ := ih left
      exact ⟨value :: others, (perm.cons value).trans moved.symm,
        by rw [List.filterMap_cons_some given, gives]⟩

/-! ### The promise -/

/-- What a plan of a sequence of requests promises. -/
structure CarriedOut (host : Host) (requests : List Request) : Prop where
  /-- No planned file or link lies below another. -/
  level : (run host requests).hasFindings = false → ∀ place other one below,
    (run host requests).entries.get? place = some one →
      (run host requests).entries.get? other = some below → Claims.Above place other →
        one.kind = .dir ∨ below.kind = .dir
  /-- What is planned at a path is what each request for it asked, but for links that gave way to a
  file. -/
  agrees : (run host requests).hasFindings = false → ∀ request ∈ requests, ∀ claim,
    claimOf host request = some claim → claim.verdict ≠ .unknown →
      ∃ entry, (run host requests).entries.get? claim.place = some entry ∧
        (claim.content = (entry.kind, entry.hash) ∨
          claim.content.1 = .link ∧ entry.kind = .file)
  order : ∀ others, others.Perm requests →
    (run host others).hasFindings = (run host requests).hasFindings

theorem claimsOf_perm {requests others : List Request} (same : others.Perm requests) :
    (claimsOf host others).Perm (claimsOf host requests) := same.filterMap _

theorem hasFindings_eq_false_iff {requests : List Request} :
    (run host requests).hasFindings = false ↔
      Claims.takeAll Claims.vacant (claimsOf host requests) = some (run host requests).held := by
  rw [← Bool.not_eq_true, hasFindings_eq_true_iff]
  rcases @run_spec host requests with ⟨table, taken, -, rfl⟩ | ⟨conflict, -⟩
  · exact iff_of_true (by rw [taken]; exact Option.some_ne_none _) taken
  · refine iff_of_false (not_not_intro conflict) fun taken => ?_
    rw [conflict] at taken
    cases taken

theorem DestinationPlan.held_eq_some_iff {plan : DestinationPlan} {place : List Bytes}
    {content : Claims.Content Digest} : plan.held place = some content ↔
      ∃ entry, plan.entries.get? place = some entry ∧ (entry.kind, entry.hash) = content := by
  rw [held, Option.map_eq_some_iff]

/-- A copied resource is never a link. -/
theorem yields_iff {claim : Claims.Claim Bytes Digest} {content : Claims.Content Digest} :
    Claims.Yields claim content ↔ claim.content.1 = .link ∧ content.1 = .file := by
  constructor
  · exact And.right
  · intro both
    refine ⟨?_, both⟩
    by_contra unchecked
    exact claim.copied (Bool.eq_false_iff.mpr unchecked) both.1

theorem carriedOut_iff_steady {requests : List Request} :
    CarriedOut host requests ↔ Claims.Steady (claimsOf host requests) := by
  constructor
  · intro carried
    constructor
    · intro table taken place other held below here there above
      have own : (run host requests).hasFindings = false ∧ (run host requests).held = table := by
        rcases @run_spec host requests with ⟨table', taken', silent, same⟩ | ⟨conflict, -⟩
        · rw [taken, Option.some.injEq] at taken'
          rw [DestinationPlan.hasFindings, silent]
          exact ⟨rfl, same.trans taken'.symm⟩
        · rw [taken] at conflict
          cases conflict
      rw [← own.2] at here there
      obtain ⟨one, found, rfl⟩ := DestinationPlan.held_eq_some_iff.mp here
      obtain ⟨two, found', rfl⟩ := DestinationPlan.held_eq_some_iff.mp there
      exact carried.level own.1 place other one two found found' above
    · intro table taken claim member known
      obtain ⟨request, asked, claims⟩ := List.mem_filterMap.mp member
      have silent : (run host requests).hasFindings = false := by
        rw [← Bool.not_eq_true, hasFindings_eq_true_iff, taken]
        exact Option.some_ne_none _
      have same := hasFindings_eq_false_iff.mp silent
      rw [taken, Option.some.injEq] at same
      obtain ⟨entry, found, fits⟩ := carried.agrees silent request asked claim claims known
      refine ⟨(entry.kind, entry.hash), ?_, fits.imp_right yields_iff.mpr⟩
      rw [same]
      exact DestinationPlan.held_eq_some found
    · intro others same
      obtain ⟨requests', perm, rfl⟩ := exists_perm_filterMap same
      have order := carried.order requests' perm
      rw [Bool.eq_iff_iff, hasFindings_eq_true_iff, hasFindings_eq_true_iff] at order
      exact order
  · intro steady
    constructor
    · intro silent place other one below found found' above
      exact steady.level _ (hasFindings_eq_false_iff.mp silent) place other _ _
        (DestinationPlan.held_eq_some found) (DestinationPlan.held_eq_some found') above
    · intro silent request asked claim claims known
      obtain ⟨held, there, fits⟩ := steady.agrees _ (hasFindings_eq_false_iff.mp silent) claim
        (List.mem_filterMap.mpr ⟨request, asked, claims⟩) known
      obtain ⟨entry, found, rfl⟩ := DestinationPlan.held_eq_some_iff.mp there
      exact ⟨entry, found, fits.imp_right yields_iff.mp⟩
    · intro others same
      rw [Bool.eq_iff_iff, hasFindings_eq_true_iff, hasFindings_eq_true_iff]
      exact steady.order _ (claimsOf_perm same)

/-- A plan can be carried out, and the order of its requests does not matter, exactly where either
no order is without a finding or no order has one and no file is copied below another. -/
theorem carriedOut_iff (host : Host) (requests : List Request) :
    CarriedOut host requests ↔ ¬Claims.Carries (claimsOf host requests) ∨
      Claims.Harmless (claimsOf host requests) :=
  carriedOut_iff_steady.trans (Claims.steady_iff _)

/-- An empty AppDir and two files to copy. -/
def bareHost : Host where
  blake3 _ := noDigest []
  appdir := bareDir none
  ledger := []
  listing _ := TreeHash.flat [] List.nodup_nil (List.forall_mem_nil _)
  source _ := some (.file [])

def nestedCopies : List Request :=
  [.carried (utf8 "a") (utf8 "one") "one".toList,
    .carried (utf8 "a/b") (utf8 "two") "two".toList]

/-- A file is planned below another file, and no finding stands. -/
theorem nestedCopies_not_carriedOut : ¬CarriedOut bareHost nestedCopies := by
  intro carried
  have silent : (run bareHost nestedCopies).hasFindings = false := by rfl
  have level := carried.level silent [utf8 "a"] [utf8 "a", utf8 "b"]
    ⟨.file, noDigest [], ["one".toList], 0, .write⟩ ⟨.file, noDigest [], ["two".toList], 0, .write⟩
    (by rfl) (by rfl) ⟨⟨[utf8 "b"], rfl⟩, by decide⟩
  rcases level with same | same
  · cases same
  · cases same

end Onelf.Cli.Bundle.Plan
