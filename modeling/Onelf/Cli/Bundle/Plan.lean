import Mathlib.Data.List.Infix
import Onelf.Cli.Bundle.Ledger
import Onelf.Cli.Bundle.TreeHash
import Onelf.Lib.Claims

/-! The destinations a bundling walk plans to write (`plan.rs`). -/

namespace Onelf.Cli.Bundle.Plan

open Onelf.Lib Ledger

abbrev PlannedKind : Type := Claims.Kind

/-- How a destination's existing content is judged. -/
inductive Existing where
  | skipOnAny
  | overwrite
  deriving DecidableEq

/-- What is done with an admitted destination. -/
inductive Admission where
  | write
  | skip
  | rejected
  deriving DecidableEq

inductive GeneratedConflict where
  | edited (recorded actual : Digest)
  | unproven (actual : Digest)
  deriving DecidableEq

inductive Disposition where
  | absent
  | dispose
  | excuse
  | conflict (why : GeneratedConflict)
  deriving DecidableEq

/-- Why planning stops a build. -/
inductive PlanFinding where
  | conflictingContent (dest : Bytes) (first second : Str) (firstHash secondHash : Digest)
  | kindClash (dest : Bytes) (first second : Str)
  | overlap (file under : List Bytes)
  | publisherCollision (dest : Bytes) (source : Str) (existingKind : PlannedKind)
      (existing planned : Digest)
  | escape (dest : Bytes) (source : Str)
  | throughLink (dest : Bytes) (link : List Bytes) (source : Str)
  | generated (path : Bytes) (refreshable : Bool) (why : GeneratedConflict)
  deriving DecidableEq

structure PlannedDest where
  kind : PlannedKind
  hash : Digest
  origins : List Str
  extraOrigins : Nat
  decision : Admission
  deriving DecidableEq

/-- The origins a destination records before it counts the rest. -/
def shownOrigins : Nat := 4

structure DestinationPlan where
  entries : SortedMap (List Bytes) PlannedDest
  findings : List PlanFinding

def begun : DestinationPlan := ⟨SortedMap.empty, []⟩

def DestinationPlan.hasFindings (plan : DestinationPlan) : Bool := !plan.findings.isEmpty

def DestinationPlan.find (plan : DestinationPlan) (finding : PlanFinding) : DestinationPlan :=
  { plan with findings := plan.findings ++ [finding] }

/-- What a copied resource is. -/
inductive Source where
  | dir (tree : TreeHash.SourceTree)
  | file (bytes : Bytes)

/-- Why an admission fails. -/
inductive PlanError where
  | unreadable
  | unplanned (bound : TreeHash.Unplanned)
  | special
  deriving DecidableEq

/-- What planning reads: the AppDir, the ledger of its generated files, what its directories hold
and the sources. -/
structure Host where
  blake3 : Bytes → Digest
  appdir : AppDir
  ledger : List GeneratedEntry
  listing : Bytes → TreeHash.SourceTree
  source : Bytes → Option Source

/-! ### Paths -/

/-- The names of a plain path. -/
def names (rel : Bytes) : List Bytes := (components rel).filterMap Component.name?

def isPlainRel (rel : Bytes) : Bool :=
  !rel.isEmpty && (components rel).all fun component => component.name?.isSome

namespace Host

variable (host : Host)

/-- Where `rel` joined to the AppDir leads; a slash at its end goes through a link. -/
def walk (follow : Bool) (rel : Bytes) : Outcome Bytes :=
  let segments := (Target.ofText rel).segments
  host.appdir.disk.world.resolve (follow || segments.getLast? = some .here) Ledger.maxLinks []
    (host.appdir.root.map .name ++ segments)

/-- `symlink_metadata`. -/
def lstat (rel : Bytes) : Option (Node Bytes Held) :=
  match host.walk false rel with
  | .found _ place => host.appdir.disk place
  | _ => none

/-- `exists`. -/
def present (rel : Bytes) : Bool :=
  match host.walk true rel with
  | .found _ place => (host.appdir.disk place).isSome
  | _ => false

/-- The first directory above a path that is a link. -/
def symlinkedAncestor : List (List Bytes) → Option (List Bytes)
  | [] => none
  | ancestor :: rest =>
      match host.lstat (joinPath ancestor) with
      | some (.link _) => some ancestor
      | some _ => symlinkedAncestor rest
      | none => none

def fileHash (bytes : Bytes) : Digest := host.blake3 (utf8 "file " ++ bytes)

def linkHash (target : Bytes) : Digest := host.blake3 (utf8 "link " ++ target)

def treeHash (tree : TreeHash.SourceTree) : Except PlanError Digest :=
  (TreeHash.treeHash host.blake3 tree).mapError .unplanned

/-- The ledger's entry of a path; of several the last counts. -/
def recorded (rel : Bytes) : Option GeneratedEntry :=
  host.ledger.reverse.find? fun entry => Str.encodeUtf8 entry.path = lossy rel

end Host

/-- Whether a formerly generated path is still what the build wrote. -/
def decideGeneratedDisposal (entry : GeneratedEntry) (actual : Option Digest) : Disposition :=
  match entry.hash, actual with
  | _, none => .absent
  | none, some actual => .conflict (.unproven actual)
  | some recorded, some actual =>
      if recorded = actual then .dispose
      else if entry.pending then .excuse
      else .conflict (.edited recorded actual)

/-! ### Admissions -/

namespace DestinationPlan

variable (plan : DestinationPlan)

/-- The first planned file or link above a path, from the nearest up. -/
def fileAbove (rel : List Bytes) : Option (List Bytes) :=
  rel.inits.dropLast.reverse.find? fun ancestor =>
    match plan.entries.get? ancestor with
    | some prev => !(prev.kind == .dir)
    | none => false

/-- The next planned path, if it lies below `rel`. -/
def nextBelow (rel : List Bytes) : Option (List Bytes) :=
  ((plan.entries.keys.filter (rel < ·)).takeWhile rel.isPrefixOf).head?

/-- Whether a path can hold a file or link beside what is planned. -/
def checkNesting (rel : List Bytes) (kind : PlannedKind) : Bool × DestinationPlan :=
  if kind = .dir then (true, plan)
  else
    match plan.fileAbove rel with
    | some ancestor => (false, plan.find (.overlap ancestor rel))
    | none =>
        match plan.nextBelow rel with
        | some under => (false, plan.find (.overlap rel under))
        | none => (true, plan)

def noteOrigin (rel : List Bytes) (origin : Str) : DestinationPlan :=
  match plan.entries.get? rel with
  | none => plan
  | some entry =>
      { plan with
        entries := plan.entries.insert rel
          (if entry.origins.length < shownOrigins then
            { entry with origins := entry.origins ++ [origin] }
          else { entry with extraOrigins := entry.extraOrigins + 1 }) }

def recordClash (rel : Bytes) (prev : PlannedDest) (origin : Str) (kind : PlannedKind)
    (hash : Digest) : DestinationPlan :=
  let first := prev.origins.head?.getD "a planned resource".toList
  if prev.kind ≠ kind then plan.find (.kindClash rel first origin)
  else plan.find (.conflictingContent rel first origin prev.hash hash)

def enter (rel : List Bytes) (dest : PlannedDest) : DestinationPlan :=
  { plan with entries := plan.entries.insert rel dest }

end DestinationPlan

variable (host : Host)

/-- A path outside the tree, or one whose ancestors lead through a link. -/
def misplaced (rel : Bytes) (origin : Str) : Option PlanFinding :=
  if !isPlainRel rel then some (.escape rel origin)
  else (host.symlinkedAncestor (names rel).inits.tail.dropLast).map fun link =>
    .throughLink rel link origin

/-- The admission path files and links share. -/
def admitDest (plan : DestinationPlan) (rel : Bytes) (kind : PlannedKind) (hash : Digest)
    (origin : Str) (existing : Existing) : Admission × DestinationPlan :=
  match misplaced host rel origin with
  | some finding => (.rejected, plan.find finding)
  | none =>
      match plan.entries.get? (names rel) with
      | some prev =>
          if prev.kind = .link ∧ kind = .file then
            (.write, (plan.enter (names rel)
              ⟨kind, hash, prev.origins, prev.extraOrigins, .write⟩).noteOrigin (names rel) origin)
          else if prev.kind = .file ∧ kind = .link then (prev.decision, plan)
          else if prev.hash = hash ∧ prev.kind = kind then
            (prev.decision, plan.noteOrigin (names rel) origin)
          else (.rejected, plan.recordClash rel prev origin kind hash)
      | none =>
          match plan.checkNesting (names rel) kind with
          | (false, plan) => (.rejected, plan)
          | (true, plan) =>
              let decision : Admission :=
                match existing with
                | .skipOnAny => if host.present rel then .skip else .write
                | .overwrite => .write
              (decision, plan.enter (names rel) ⟨kind, hash, [origin], 0, decision⟩)

/-- What becomes of other content where a copy is to go. -/
def judgeCarried (plan : DestinationPlan) (rel : Bytes) (existingKind : PlannedKind)
    (actual planned : Digest) (origin : Str) (refresh : Bool) : Admission × DestinationPlan :=
  match if existingKind = .file then host.recorded rel else none with
  | some entry =>
      match decideGeneratedDisposal entry (some actual) with
      | .dispose | .excuse => (if refresh then .write else .skip, plan)
      | .absent => (.write, plan)
      | .conflict why => (.rejected, plan.find (.generated (lossy rel) true why))
  | none =>
      (.rejected, plan.find (.publisherCollision rel origin existingKind actual planned))

/-- The kind and hash of what is no directory or of a directory that lies where a file is to go. -/
def existingContent (rel : Bytes) : Node Bytes Held → Except PlanError (PlannedKind × Digest)
  | .dir => (host.treeHash (host.listing rel)).map (.dir, ·)
  | .link target => .ok (.link, host.linkHash target)
  | .file (.regular bytes) => .ok (.file, host.fileHash bytes)
  | .file .special => .error .special

def isDir : Node Bytes Held → Bool
  | .dir => true
  | _ => false

/-- What is done with a copy's destination that nothing has planned. -/
def judgeExisting (plan : DestinationPlan) (rel : Bytes) (kind : PlannedKind) (planned : Digest)
    (origin : Str) (refresh : Bool) : Except PlanError (Admission × DestinationPlan) :=
  match host.lstat rel with
  | none => .ok (.write, plan)
  | some node =>
      if isDir node ∧ kind = .dir then .ok (.skip, plan)
      else
        match existingContent host rel node with
        | .error reason => .error reason
        | .ok (existingKind, actual) =>
            if actual = planned ∧ existingKind = kind then .ok (.skip, plan)
            else .ok (judgeCarried host plan rel existingKind actual planned origin refresh)

def Source.kind : Source → PlannedKind
  | .dir _ => .dir
  | .file _ => .file

def sourceHash : Source → Except PlanError Digest
  | .dir tree => host.treeHash tree
  | .file bytes => .ok (host.fileHash bytes)

/-- The kind and hash of what is copied. -/
def plannedOf (src : Bytes) : Except PlanError (Source × Digest) :=
  match host.source src with
  | none => .error .unreadable
  | some source => (sourceHash host source).map (source, ·)

/-- The admission path of what is copied. -/
def admitSource (plan : DestinationPlan) (rel src : Bytes) (origin : Str) (refresh : Bool) :
    Except PlanError (Admission × DestinationPlan) :=
  match plannedOf host src with
  | .error reason => .error reason
  | .ok (source, planned) =>
      match misplaced host rel origin with
      | some finding => .ok (.rejected, plan.find finding)
      | none =>
          match plan.entries.get? (names rel) with
          | some prev =>
              if prev.hash = planned ∧ prev.kind = source.kind then
                .ok (prev.decision, plan.noteOrigin (names rel) origin)
              else .ok (.rejected, plan.recordClash rel prev origin source.kind planned)
          | none =>
              match judgeExisting host plan rel source.kind planned origin refresh with
              | .error reason => .error reason
              | .ok (decision, plan) =>
                  if decision = .rejected then .ok (decision, plan)
                  else .ok (decision,
                    plan.enter (names rel) ⟨source.kind, planned, [origin], 0, decision⟩)

/-! ### Sequences -/

inductive Request where
  | file (rel : Bytes) (hash : Digest) (origin : Str) (existing : Existing)
  | link (rel target : Bytes) (origin : Str) (existing : Existing)
  | carried (rel src : Bytes) (origin : Str)
  | refreshed (rel src : Bytes) (origin : Str)

def perform (plan : DestinationPlan) : Request → Except PlanError (Admission × DestinationPlan)
  | .file rel hash origin existing => .ok (admitDest host plan rel .file hash origin existing)
  | .link rel target origin existing =>
      .ok (admitDest host plan rel .link (host.linkHash target) origin existing)
  | .carried rel src origin => admitSource host plan rel src origin false
  | .refreshed rel src origin => admitSource host plan rel src origin true

/-- One request; one that fails leaves the plan as it is. -/
def step (plan : DestinationPlan) (request : Request) : DestinationPlan :=
  match perform host plan request with
  | .ok (_, plan) => plan
  | .error _ => plan

def run (requests : List Request) : DestinationPlan := requests.foldl (step host) begun

/-! ### What a request claims -/

/-- What judging a copy's destination alone comes to. -/
def verdict (rel : Bytes) (kind : PlannedKind) (planned : Digest) (origin : Str) (refresh : Bool) :
    Claims.Verdict :=
  match judgeExisting host begun rel kind planned origin refresh with
  | .error _ => .unknown
  | .ok (.rejected, _) => .denied
  | .ok _ => .allowed

def admitClaim (rel : Bytes) (kind : PlannedKind) (hash : Digest) (origin : Str)
    (whole : kind ≠ .dir) : Claims.Claim Bytes Digest where
  place := names rel
  content := (kind, hash)
  checked := true
  barred := (misplaced host rel origin).isSome
  verdict := .allowed
  plain _ := whole
  copied none := by cases none
  sure _ := rfl

def sourceClaim (rel : Bytes) (source : Source) (planned : Digest) (origin : Str)
    (refresh : Bool) : Claims.Claim Bytes Digest where
  place := names rel
  content := (source.kind, planned)
  checked := false
  barred := (misplaced host rel origin).isSome
  verdict := verdict host rel source.kind planned origin refresh
  plain none := by cases none
  copied _ := by cases source <;> exact fun same => by cases same
  sure none := by cases none

/-- What a request claims; nothing if its source cannot be read. -/
def claimOf : Request → Option (Claims.Claim Bytes Digest)
  | .file rel hash origin _ => some (admitClaim host rel .file hash origin (by decide))
  | .link rel target origin _ =>
      some (admitClaim host rel .link (host.linkHash target) origin (by decide))
  | .carried rel src origin =>
      (plannedOf host src).toOption.map fun planned =>
        sourceClaim host rel planned.1 planned.2 origin false
  | .refreshed rel src origin =>
      (plannedOf host src).toOption.map fun planned =>
        sourceClaim host rel planned.1 planned.2 origin true

/-! ### Nesting -/

theorem mem_inits_dropLast {place rel : List Bytes} :
    place ∈ rel.inits.dropLast ↔ Claims.Above place rel := by
  cases rel using List.reverseRecOn with
  | nil =>
      rw [Claims.Above]
      simp
  | append_singleton rel part =>
      have whole : (rel ++ [part]).inits.dropLast = rel.inits := by
        rw [List.inits_append]
        simp
      rw [whole, List.mem_inits, Claims.Above, List.prefix_concat_iff]
      constructor
      · intro lead
        refine ⟨Or.inr lead, fun same => ?_⟩
        have longer := lead.length_le
        rw [same, List.length_append] at longer
        exact absurd longer (by simp)
      · rintro ⟨same | lead, differ⟩
        · exact absurd same differ
        · exact lead

/-- What lies between a path and one below it lies below it as well. -/
theorem prefix_of_between {rel next below : List Bytes} (lead : rel <+: below) (after : rel < next)
    (until' : next ≤ below) : rel <+: next := by
  induction rel generalizing next below with
  | nil => exact List.nil_prefix
  | cons part rel ih =>
      obtain ⟨rest, rfl⟩ := lead
      cases next with
      | nil => exact absurd after (by simp)
      | cons other next =>
          rw [List.cons_append, ← not_lt, List.cons_lt_cons_iff, not_or, not_and] at until'
          rcases List.cons_lt_cons_iff.mp after with less | ⟨same, less⟩
          · exact absurd less until'.1
          · subst same
            exact (List.prefix_cons_inj part).mpr
              (ih (List.prefix_append rel rest) less (not_lt.mp (until'.2 rfl)))

theorem lt_of_above {rel below : List Bytes} (above : Claims.Above rel below) : rel < below := by
  obtain ⟨⟨rest, rfl⟩, differ⟩ := above
  cases rest with
  | nil => exact absurd (List.append_nil rel).symm differ
  | cons part rest =>
      clear differ
      induction rel with
      | nil => exact List.nil_lt_cons part rest
      | cons first rel ih => exact List.cons_lt_cons_iff.mpr (Or.inr ⟨rfl, ih⟩)

namespace DestinationPlan

/-- What the plan holds at each path. -/
def held (plan : DestinationPlan) : Claims.Table Bytes Digest := fun place =>
  (plan.entries.get? place).map fun dest => (dest.kind, dest.hash)

variable {plan : DestinationPlan}

theorem held_eq_some {place : List Bytes} {prev : PlannedDest}
    (found : plan.entries.get? place = some prev) :
    plan.held place = some (prev.kind, prev.hash) := by rw [held, found, Option.map_some]

theorem held_eq_none {place : List Bytes} (absent : plan.entries.get? place = none) :
    plan.held place = none := by rw [held, absent, Option.map_none]

theorem fileAbove_eq_none_iff {rel : List Bytes} : plan.fileAbove rel = none ↔
    ¬∃ other content, Claims.Above other rel ∧ plan.held other = some content ∧
      content.1 ≠ .dir := by
  rw [fileAbove, List.find?_eq_none]
  constructor
  · rintro none ⟨other, content, above, found, kind⟩
    have fails := none other (List.mem_reverse.mpr (mem_inits_dropLast.mpr above))
    rw [held, Option.map_eq_some_iff] at found
    obtain ⟨prev, found, rfl⟩ := found
    rw [found] at fails
    exact fails (by simpa using kind)
  · intro none other member found
    apply none
    cases there : plan.entries.get? other with
    | none =>
        rw [there] at found
        cases found
    | some prev =>
        rw [there] at found
        exact ⟨other, _, mem_inits_dropLast.mp (List.mem_reverse.mp member), held_eq_some there,
          by simpa using found⟩

theorem nextBelow_eq_none_iff {rel : List Bytes} : plan.nextBelow rel = none ↔
    ¬∃ other, Claims.Above rel other ∧ plan.held other ≠ none := by
  have keyed (other : List Bytes) : other ∈ plan.entries.keys ↔ plan.held other ≠ none := by
    rw [SortedMap.mem_keys_iff, held, Ne, Option.map_eq_none_iff, ← Ne, Option.isSome_iff_ne_none]
  have sorted : (plan.entries.keys.filter (rel < ·)).Pairwise (· < ·) :=
    plan.entries.keys_sorted.filter _
  rw [nextBelow, List.head?_eq_none_iff]
  cases later : plan.entries.keys.filter (rel < ·) with
  | nil =>
      refine iff_of_true rfl ?_
      rintro ⟨other, above, there⟩
      have member : other ∈ plan.entries.keys.filter (rel < ·) :=
        List.mem_filter.mpr ⟨(keyed other).mpr there, decide_eq_true (lt_of_above above)⟩
      rw [later] at member
      cases member
  | cons next rest =>
      have first : next ∈ plan.entries.keys.filter (rel < ·) := by
        rw [later]
        exact List.mem_cons_self
      obtain ⟨key, after⟩ := List.mem_filter.mp first
      rw [decide_eq_true_eq] at after
      rw [later, List.pairwise_cons] at sorted
      by_cases lead : rel <+: next
      · rw [List.takeWhile_cons_of_pos (List.isPrefixOf_iff_prefix.mpr lead)]
        refine iff_of_false (List.cons_ne_nil _ _) (not_not_intro ?_)
        exact ⟨next, ⟨lead, ne_of_lt after⟩, (keyed next).mp key⟩
      · rw [List.takeWhile_cons_of_neg (fun same => lead (List.isPrefixOf_iff_prefix.mp same))]
        refine iff_of_true rfl ?_
        rintro ⟨other, above, there⟩
        have member : other ∈ plan.entries.keys.filter (rel < ·) :=
          List.mem_filter.mpr ⟨(keyed other).mpr there, decide_eq_true (lt_of_above above)⟩
        rw [later] at member
        apply lead
        rcases List.mem_cons.mp member with same | beyond
        · rw [← same]
          exact above.1
        · exact prefix_of_between above.1 after (le_of_lt (sorted.1 other beyond))

/-- A file or link is checked against what is planned above and below it. -/
theorem checkNesting_spec {rel : List Bytes} {kind : PlannedKind} (whole : kind ≠ .dir) :
    (¬Claims.Nested plan.held rel ∧ plan.checkNesting rel kind = (true, plan)) ∨
      (Claims.Nested plan.held rel ∧
        ∃ finding, plan.checkNesting rel kind = (false, plan.find finding)) := by
  rw [checkNesting, if_neg whole]
  cases above : plan.fileAbove rel with
  | some ancestor =>
      refine Or.inr ⟨Or.inl ?_, _, rfl⟩
      by_contra none
      rw [fileAbove_eq_none_iff.mpr none] at above
      cases above
  | none =>
      dsimp only
      cases below : plan.nextBelow rel with
      | some under =>
          refine Or.inr ⟨Or.inr ?_, _, rfl⟩
          by_contra none
          rw [nextBelow_eq_none_iff.mpr none] at below
          cases below
      | none =>
          refine Or.inl ⟨?_, rfl⟩
          rintro (file | under)
          · exact fileAbove_eq_none_iff.mp above file
          · exact nextBelow_eq_none_iff.mp below under

theorem held_enter (rel : List Bytes) (dest : PlannedDest) :
    (plan.enter rel dest).held = Claims.enter plan.held rel (dest.kind, dest.hash) := by
  funext place
  rw [held, enter, SortedMap.get?_insert]
  by_cases same : rel = place
  · rw [if_pos same, same, Claims.enter_self, Option.map_some]
  · rw [if_neg same, Claims.enter_of_ne (Ne.symm same), held]

theorem held_noteOrigin (rel : List Bytes) (origin : Str) :
    (plan.noteOrigin rel origin).held = plan.held := by
  funext place
  rw [noteOrigin]
  cases there : plan.entries.get? rel with
  | none => rfl
  | some entry =>
      dsimp only
      rw [held, held, SortedMap.get?_insert]
      by_cases same : rel = place
      · rw [if_pos same, ← same, there]
        split <;> rfl
      · rw [if_neg same]

theorem findings_noteOrigin (rel : List Bytes) (origin : Str) :
    (plan.noteOrigin rel origin).findings = plan.findings := by
  rw [noteOrigin]
  split <;> rfl

theorem recordClash_spec (rel : Bytes) (prev : PlannedDest) (origin : Str) (kind : PlannedKind)
    (hash : Digest) :
    ∃ finding, plan.recordClash rel prev origin kind hash = plan.find finding := by
  rw [recordClash]
  split
  · exact ⟨_, rfl⟩
  · exact ⟨_, rfl⟩

end DestinationPlan

/-! ### One request -/

/-- A request that a plan takes as its claim is taken, or that becomes a finding where the claim
conflicts. -/
def Follows (plan next : DestinationPlan) (claim : Claims.Claim Bytes Digest) : Prop :=
  (next.findings = plan.findings ∧ Claims.take plan.held claim = some next.held) ∨
    ((∃ finding, next.findings = plan.findings ++ [finding]) ∧
      Claims.take plan.held claim = none)

section
variable {host} {plan next : DestinationPlan} {claim : Claims.Claim Bytes Digest}

theorem follows_of_takes (findings : next.findings = plan.findings) (free : claim.barred = false)
    (takes : Claims.Takes plan.held claim next.held) : Follows plan next claim :=
  Or.inl ⟨findings, Claims.take_eq_some_iff.mpr ⟨free, takes⟩⟩

theorem follows_of_find {finding : PlanFinding} (found : next = plan.find finding)
    (never : claim.barred = false → ∀ table, ¬Claims.Takes plan.held claim table) :
    Follows plan next claim := by
  refine Or.inr ⟨⟨finding, by rw [found]; rfl⟩, ?_⟩
  cases taken : Claims.take plan.held claim with
  | none => rfl
  | some table =>
      obtain ⟨free, takes⟩ := Claims.take_eq_some_iff.mp taken
      exact absurd takes (never free table)

/-- A claim that neither fits what is planned at its path nor replaces it. -/
theorem never_of_held {content : Claims.Content Digest}
    (there : plan.held claim.place = some content) (differs : claim.content ≠ content)
    (stays : ¬Claims.Yields claim content)
    (keeps : ¬(claim.checked = true ∧ claim.content.1 = .file ∧ content.1 = .link))
    (table : Claims.Table Bytes Digest) : ¬Claims.Takes plan.held claim table := by
  intro takes
  cases takes with
  | kept here fits =>
      rw [there, Option.some.injEq] at here
      exact fits.elim (here ▸ differs) (here ▸ stays)
  | replaced here checked file link =>
      rw [there, Option.some.injEq] at here
      exact keeps ⟨checked, file, here ▸ link⟩
  | passed absent =>
      rw [there] at absent
      cases absent
  | entered absent =>
      rw [there] at absent
      cases absent

theorem never_of_absent (absent : plan.held claim.place = none)
    (known : claim.verdict ≠ .unknown)
    (conflicts : claim.verdict = .allowed →
      ¬(claim.checked = true → ¬Claims.Nested plan.held claim.place))
    (table : Claims.Table Bytes Digest) : ¬Claims.Takes plan.held claim table := by
  intro takes
  cases takes with
  | kept here fits =>
      rw [absent] at here
      cases here
  | replaced here checked file link =>
      rw [absent] at here
      cases here
  | passed _ unknown => exact known unknown
  | entered _ allowed apart => exact conflicts allowed apart

theorem admit_follows (plan : DestinationPlan) (rel : Bytes) (kind : PlannedKind) (hash : Digest)
    (origin : Str) (existing : Existing) (whole : kind ≠ .dir) :
    Follows plan (admitDest host plan rel kind hash origin existing).2
      (admitClaim host rel kind hash origin whole) := by
  rw [admitDest.eq_def]
  cases out : misplaced host rel origin with
  | some finding =>
      refine follows_of_find rfl fun free => ?_
      rw [admitClaim, out] at free
      cases free
  | none =>
      have free : (admitClaim host rel kind hash origin whole).barred = false := by
        rw [admitClaim, out]
        rfl
      dsimp only
      cases there : plan.entries.get? (names rel) with
      | some prev =>
          have held := DestinationPlan.held_eq_some there
          dsimp only
          split
          · next gives =>
              refine follows_of_takes ?_ free ?_
              · rw [DestinationPlan.findings_noteOrigin]
                rfl
              · have step := @Claims.Takes.replaced Bytes Digest plan.held
                  (admitClaim host rel kind hash origin whole) _ held rfl gives.2 gives.1
                rw [DestinationPlan.held_noteOrigin, DestinationPlan.held_enter]
                exact step
          · next keeps =>
              split
              · next yields =>
                  exact follows_of_takes rfl free
                    (Claims.Takes.kept held (Or.inr ⟨rfl, yields.2, yields.1⟩))
              · next stays =>
                  split
                  · next same =>
                      refine follows_of_takes (DestinationPlan.findings_noteOrigin _ _) free ?_
                      rw [DestinationPlan.held_noteOrigin]
                      exact Claims.Takes.kept held (Or.inl (by rw [same.1, same.2]; rfl))
                  · next differs =>
                      obtain ⟨finding, found⟩ :=
                        @DestinationPlan.recordClash_spec plan rel prev origin kind hash
                      refine follows_of_find found fun _ => never_of_held held ?_ ?_ ?_
                      · intro same
                        have parts := Prod.mk.inj same
                        exact differs ⟨parts.2.symm, parts.1.symm⟩
                      · exact fun yields => stays ⟨yields.2.2, yields.2.1⟩
                      · exact fun gives => keeps ⟨gives.2.2, gives.2.1⟩
      | none =>
          have absent := DestinationPlan.held_eq_none there
          dsimp only
          rcases @DestinationPlan.checkNesting_spec plan (names rel) kind whole with
            ⟨apart, checked⟩ | ⟨nested, finding, checked⟩
          · rw [checked]
            have step := @Claims.Takes.entered Bytes Digest plan.held
              (admitClaim host rel kind hash origin whole) absent rfl fun _ => apart
            refine follows_of_takes rfl free ?_
            dsimp only
            rw [DestinationPlan.held_enter]
            exact step
          · rw [checked]
            refine follows_of_find rfl fun _ => never_of_absent absent ?_ ?_
            · exact fun unknown => by cases unknown
            · exact fun _ apart => apart rfl nested

/-- Judging existing content leaves the plan as it is or adds a finding, whatever the plan. -/
theorem judgeCarried_cases (host : Host) (rel : Bytes) (existingKind : PlannedKind)
    (actual planned : Digest) (origin : Str) (refresh : Bool) :
    (∃ finding, ∀ plan, judgeCarried host plan rel existingKind actual planned origin refresh =
        (.rejected, plan.find finding)) ∨
      ∃ decision, decision ≠ .rejected ∧
        ∀ plan, judgeCarried host plan rel existingKind actual planned origin refresh =
          (decision, plan) := by
  have taken : (if refresh then Admission.write else .skip) ≠ .rejected := by
    cases refresh <;> decide
  cases found : if existingKind = .file then host.recorded rel else none with
  | none => exact Or.inl ⟨_, fun plan => by rw [judgeCarried, found]⟩
  | some entry =>
      have judged (plan : DestinationPlan) :
          judgeCarried host plan rel existingKind actual planned origin refresh =
            match decideGeneratedDisposal entry (some actual) with
            | .dispose | .excuse => (if refresh then .write else .skip, plan)
            | .absent => (.write, plan)
            | .conflict why => (.rejected, plan.find (.generated (lossy rel) true why)) := by
        rw [judgeCarried, found]
      cases why : decideGeneratedDisposal entry (some actual) with
      | absent => exact Or.inr ⟨.write, by decide, fun plan => by rw [judged, why]⟩
      | conflict reason => exact Or.inl ⟨_, fun plan => by rw [judged, why]⟩
      | dispose => exact Or.inr ⟨_, taken, fun plan => by rw [judged, why]⟩
      | excuse => exact Or.inr ⟨_, taken, fun plan => by rw [judged, why]⟩

theorem judgeExisting_cases (host : Host) (rel : Bytes) (kind : PlannedKind) (planned : Digest)
    (origin : Str) (refresh : Bool) :
    (∃ reason, ∀ plan, judgeExisting host plan rel kind planned origin refresh = .error reason) ∨
      (∃ finding, ∀ plan, judgeExisting host plan rel kind planned origin refresh =
        .ok (.rejected, plan.find finding)) ∨
      ∃ decision, decision ≠ .rejected ∧
        ∀ plan, judgeExisting host plan rel kind planned origin refresh = .ok (decision, plan) := by
  cases there : host.lstat rel with
  | none => exact Or.inr (Or.inr ⟨.write, by decide, fun plan => by rw [judgeExisting, there]⟩)
  | some node =>
      by_cases dirs : isDir node = true ∧ kind = .dir
      · exact Or.inr (Or.inr ⟨.skip, by decide, fun plan => by
          rw [judgeExisting, there]
          exact if_pos dirs⟩)
      · cases read : existingContent host rel node with
        | error reason => exact Or.inl ⟨reason, fun plan => by
            rw [judgeExisting, there]
            dsimp only
            rw [if_neg dirs, read]⟩
        | ok existing =>
            by_cases same : existing.2 = planned ∧ existing.1 = kind
            · exact Or.inr (Or.inr ⟨.skip, by decide, fun plan => by
                rw [judgeExisting, there]
                dsimp only
                rw [if_neg dirs, read]
                exact if_pos same⟩)
            · have judged (plan : DestinationPlan) :
                  judgeExisting host plan rel kind planned origin refresh =
                    .ok (judgeCarried host plan rel existing.1 existing.2 planned origin
                      refresh) := by
                rw [judgeExisting, there]
                dsimp only
                rw [if_neg dirs, read]
                exact if_neg same
              rcases judgeCarried_cases host rel existing.1 existing.2 planned origin refresh with
                ⟨finding, found⟩ | ⟨decision, taken, kept⟩
              · exact Or.inr (Or.inl ⟨finding, fun plan => by rw [judged, found]⟩)
              · exact Or.inr (Or.inr ⟨decision, taken, fun plan => by rw [judged, kept]⟩)

theorem admitSource_follows (plan : DestinationPlan) (rel src : Bytes) (origin : Str)
    (refresh : Bool) :
    (∃ reason, admitSource host plan rel src origin refresh = .error reason ∧
      plannedOf host src = .error reason) ∨
      ∃ source planned, plannedOf host src = .ok (source, planned) ∧
        ((∃ reason, admitSource host plan rel src origin refresh = .error reason ∧
          Follows plan plan (sourceClaim host rel source planned origin refresh)) ∨
        ∃ decision next, admitSource host plan rel src origin refresh = .ok (decision, next) ∧
          Follows plan next (sourceClaim host rel source planned origin refresh)) := by
  cases read : plannedOf host src with
  | error reason => exact Or.inl ⟨reason, by rw [admitSource, read], rfl⟩
  | ok content =>
      obtain ⟨source, planned⟩ := content
      refine Or.inr ⟨source, planned, rfl, ?_⟩
      rw [admitSource, read]
      dsimp only
      cases out : misplaced host rel origin with
      | some finding =>
          refine Or.inr ⟨_, _, rfl, follows_of_find rfl fun free => ?_⟩
          rw [sourceClaim, out] at free
          cases free
      | none =>
          have free : (sourceClaim host rel source planned origin refresh).barred = false := by
            rw [sourceClaim, out]
            rfl
          dsimp only
          cases there : plan.entries.get? (names rel) with
          | some prev =>
              have held := DestinationPlan.held_eq_some there
              dsimp only
              split
              · next same =>
                  refine Or.inr ⟨_, _, rfl,
                    follows_of_takes (DestinationPlan.findings_noteOrigin _ _) free ?_⟩
                  rw [DestinationPlan.held_noteOrigin]
                  exact Claims.Takes.kept held (Or.inl (by rw [same.1, same.2]; rfl))
              · next differs =>
                  obtain ⟨finding, found⟩ := @DestinationPlan.recordClash_spec plan rel
                    prev origin source.kind planned
                  refine Or.inr ⟨_, _, rfl,
                    follows_of_find found fun _ => never_of_held held ?_ ?_ ?_⟩
                  · intro same
                    have parts := Prod.mk.inj same
                    exact differs ⟨parts.2.symm, parts.1.symm⟩
                  · exact fun yields => Bool.false_ne_true yields.1
                  · exact fun gives => Bool.false_ne_true gives.1
          | none =>
              have absent := DestinationPlan.held_eq_none there
              dsimp only
              have result : verdict host rel source.kind planned origin refresh =
                  (sourceClaim host rel source planned origin refresh).verdict := rfl
              rcases judgeExisting_cases host rel source.kind planned origin refresh with
                ⟨reason, fails⟩ | ⟨finding, found⟩ | ⟨decision, taken, kept⟩
              · rw [verdict, fails] at result
                rw [fails]
                exact Or.inl ⟨reason, rfl,
                  follows_of_takes rfl free (Claims.Takes.passed absent result.symm)⟩
              · have denied : verdict host rel source.kind planned origin refresh = .denied := by
                  rw [verdict, found]
                rw [found]
                dsimp only
                rw [if_pos rfl]
                refine Or.inr ⟨_, _, rfl, follows_of_find rfl fun _ =>
                  never_of_absent absent ?_ ?_⟩
                · rw [← result, denied]
                  decide
                · rw [← result, denied]
                  exact fun allowed => by cases allowed
              · have allowed : verdict host rel source.kind planned origin refresh = .allowed := by
                  rw [verdict, kept]
                  cases decision with
                  | write => rfl
                  | skip => rfl
                  | rejected => exact absurd rfl taken
                rw [kept]
                dsimp only
                rw [if_neg taken]
                have step := @Claims.Takes.entered Bytes Digest plan.held
                  (sourceClaim host rel source planned origin refresh) absent allowed
                  fun checked => absurd checked Bool.false_ne_true
                refine Or.inr ⟨_, _, rfl, follows_of_takes rfl free ?_⟩
                rw [DestinationPlan.held_enter]
                exact step

end

end Onelf.Cli.Bundle.Plan
