import Onelf.Format.Verdef

/-! Which sections' version chains are read, and what is read off them. -/

namespace Onelf.Format.Versions

open Onelf.Lib

/-- A header and its auxiliary entries, by their offsets. -/
structure Link where
  header : Nat
  auxes : List Nat
  deriving DecidableEq

section
variable {η α σ : Type} (form : ChainForm η α σ) (bytes : Bytes)

def ChainForm.entryAt (pos : Nat) : Bytes := slice bytes pos form.headerLen
def ChainForm.auxAt (pos : Nat) : Bytes := slice bytes pos form.auxLen

/-! ### Following the links -/

/-- The auxiliary entries that the links lead through from one of them. -/
inductive AuxesFollow : Nat → List Nat → Prop where
  | last {aux : Nat} : u32At (form.auxAt bytes aux) form.auxNextField = 0 → AuxesFollow aux [aux]
  | more {aux : Nat} {rest : List Nat} :
      AuxesFollow (aux + u32At (form.auxAt bytes aux) form.auxNextField) rest →
        AuxesFollow aux (aux :: rest)

/-- A header's entries are as many as it counts, reached through its link. -/
structure Link.Reaches (link : Link) : Prop where
  count : link.auxes.length = u16At (form.entryAt bytes link.header) form.countField
  follow : AuxesFollow form bytes
    (link.header + u32At (form.entryAt bytes link.header) form.auxField) link.auxes

/-- The chain that the links lead through from a header. -/
inductive Follows : Nat → List Link → Prop where
  | last {link : Link} : link.Reaches form bytes →
      u32At (form.entryAt bytes link.header) form.nextField = 0 → Follows link.header [link]
  | more {link : Link} {rest : List Link} : link.Reaches form bytes →
      u32At (form.entryAt bytes link.header) form.nextField ≠ 0 →
        Follows (link.header + u32At (form.entryAt bytes link.header) form.nextField) rest →
          Follows link.header (link :: rest)

/-! ### Where records may lie -/

/-- No auxiliary entry overlaps a header. -/
def Clear (headerLen auxLen : Nat) (chain : List Link) : Prop :=
  ∀ link ∈ chain, ∀ aux ∈ link.auxes, ∀ other ∈ chain,
    aux + auxLen ≤ other.header ∨ other.header + headerLen ≤ aux

/-- Every record lies in the section, headers ascend and keep apart, and no auxiliary entry overlaps a
header. -/
structure Placed (chain : List Link) : Prop where
  headersInside : ∀ link ∈ chain, link.header + form.headerLen ≤ bytes.length
  auxesInside : ∀ link ∈ chain, ∀ aux ∈ link.auxes, aux + form.auxLen ≤ bytes.length
  headersApart : chain.Pairwise fun link later => link.header + form.headerLen ≤ later.header
  clear : Clear form.headerLen form.auxLen chain

/-- The auxiliary entries of one header ascend and keep apart. -/
def AuxesApart (chain : List Link) : Prop :=
  ∀ link ∈ chain, link.auxes.Pairwise fun aux later => aux + form.auxLen ≤ later

structure WithinLimits (chain : List Link) : Prop where
  headers : chain.length ≤ maxRecords
  auxes : (chain.map fun link => link.auxes.length).sum ≤ maxRecords

/-- A chain that the links lead through from the start of the section. -/
structure ChainIn (chain : List Link) : Prop where
  follows : Follows form bytes 0 chain
  placed : Placed form bytes chain
  apart : AuxesApart form chain
  limits : WithinLimits chain

/-! ### What is read -/

/-- What the records say, their links left out. -/
def recordsOf (chain : List Link) : List (η × List α) :=
  chain.map fun link => (form.headerFields (form.entryAt bytes link.header),
    link.auxes.map fun aux => form.auxFields (form.auxAt bytes aux))

def collectAuxes (header : η) : Nat → List α → σ → Except ChainError σ
  | _, [], out => .ok out
  | i, aux :: rest, out => do
      let out ← form.collect header i aux out
      collectAuxes header (i + 1) rest out

def collectRecords : List (η × List α) → σ → Except ChainError σ
  | [], out => .ok out
  | (header, auxes) :: rest, out => do
      let out ← form.enter header out
      let out ← collectAuxes form header 0 auxes out
      collectRecords rest out

variable {form bytes}

/-! ### The placement check -/

/-- Among ascending headers the search finds the one that an entry could overlap. -/
theorem checkAuxPlacement_eq_ok {headers auxes : List Nat} {headerLen auxLen : Nat}
    (ascending : headers.Pairwise (· < ·)) :
    checkAuxPlacement headers headerLen auxes auxLen = .ok () ↔
      ∀ aux ∈ auxes, ∀ header ∈ headers, aux + auxLen ≤ header ∨ header + headerLen ≤ aux := by
  rw [checkAuxPlacement, Except.forM_eq_ok]
  apply forall₂_congr
  intro aux _
  have stops : ∀ first second, first < second → decide (second + headerLen ≤ aux) = true →
      decide (first + headerLen ≤ aux) = true := by
    intro first second below held
    rw [decide_eq_true_eq] at held ⊢
    omega
  rw [refuseIf_eq_ok, getElem?_partitionPoint ascending stops]
  cases found : headers.find? fun header => !decide (header + headerLen ≤ aux) with
  | none =>
      have before := List.find?_eq_none.mp found
      refine iff_of_true (by simp) ?_
      intro header member
      have held := before header member
      rw [Bool.not_eq_true, Bool.not_eq_false', decide_eq_true_eq] at held
      exact Or.inr held
  | some first =>
      rcases List.find?_eq_some_iff_append.mp found with ⟨behind, left, right, split, passed⟩
      rw [Bool.not_eq_true', decide_eq_false_iff_not] at behind
      rw [Option.any_some, decide_eq_true_eq, not_lt]
      constructor
      · intro apart header member
        rw [split, List.mem_append, List.mem_cons] at member
        rcases member with earlier | same | later
        · have held := passed header earlier
          rw [Bool.not_not, decide_eq_true_eq] at held
          exact Or.inr held
        · rw [same]
          exact Or.inl apart
        · rw [split, List.pairwise_append, List.pairwise_cons] at ascending
          have below := ascending.2.1.1 header later
          exact Or.inl (by omega)
      · intro apart
        have member : first ∈ headers := by
          rw [split]
          exact List.mem_append_right _ List.mem_cons_self
        exact (apart first member).resolve_right behind

/-! ### The entries of one header -/

theorem ok_bind {ε β γ : Type} (value : β) (next : β → Except ε γ) :
    (Except.ok value >>= next) = next value := rfl

theorem error_bind {ε β γ : Type} (reason : ε) (next : β → Except ε γ) :
    (Except.error reason >>= next) = .error reason := rfl

theorem AuxesFollow.starts {pos : Nat} {auxes : List Nat} (follow : AuxesFollow form bytes pos auxes) :
    ∃ rest, auxes = pos :: rest := by
  cases follow with
  | last => exact ⟨[], rfl⟩
  | more => exact ⟨_, rfl⟩

theorem record_eq_ok {bytes data : Bytes} {pos len : Nat} :
    record bytes pos len = .ok data ↔ pos + len ≤ bytes.length ∧ slice bytes pos len = data := by
  rw [record]
  split
  · next inside => simp [inside]
  · next outside => simp [outside]

theorem advance_eq_ok {pos delta minimum next : Nat} :
    advance pos delta minimum = .ok next ↔ minimum ≤ delta ∧ pos + delta = next := by
  rw [advance]
  split
  · next short => simp [Nat.not_le.mpr short]
  · next long => simp [Nat.not_lt.mp long]

/-- Entries that keep apart inside the section are read one after the other. -/
theorem auxLoop_follow {header : η} {auxes : List Nat} {pos : Nat}
    (follow : AuxesFollow form bytes pos auxes)
    (inside : ∀ aux ∈ auxes, aux + form.auxLen ≤ bytes.length)
    (apart : auxes.Pairwise fun aux later => aux + form.auxLen ≤ later) (i : Nat) (seen : List Nat)
    (out : σ) :
    auxLoop form bytes header auxes.length i pos seen out =
      (collectAuxes form header i (auxes.map fun aux => form.auxFields (form.auxAt bytes aux)) out).map
        fun out => (seen ++ auxes, out) := by
  induction follow generalizing i seen out with
  | @last aux ends =>
      have read : record bytes aux form.auxLen = .ok (form.auxAt bytes aux) :=
        record_eq_ok.mpr ⟨inside aux List.mem_cons_self, rfl⟩
      have ended : refuseIf (u32At (form.auxAt bytes aux) form.auxNextField ≠ 0)
          ChainError.auxChain = .ok () := refuseIf_eq_ok.mpr (not_not_intro ends)
      rw [List.length_singleton, auxLoop, read, ok_bind, List.map_singleton, collectAuxes]
      cases form.collect header i (form.auxFields (form.auxAt bytes aux)) out with
      | error reason => rfl
      | ok out =>
          rw [ok_bind, ok_bind, if_pos rfl, ended]
          rfl
  | @more aux rest follow ih =>
      rcases follow.starts with ⟨tail, starts⟩
      have several : rest.length ≠ 0 := by
        rw [starts]
        exact Nat.succ_ne_zero _
      rw [List.forall_mem_cons] at inside
      rw [List.pairwise_cons] at apart
      have gap : form.auxLen ≤ u32At (form.auxAt bytes aux) form.auxNextField := by
        have next := apart.1 _ (starts ▸ List.mem_cons_self)
        omega
      have read : record bytes aux form.auxLen = .ok (form.auxAt bytes aux) :=
        record_eq_ok.mpr ⟨inside.1, rfl⟩
      rw [List.length_cons, auxLoop, read, ok_bind, List.map_cons, collectAuxes]
      cases form.collect header i (form.auxFields (form.auxAt bytes aux)) out with
      | error reason => rfl
      | ok out =>
          rw [ok_bind, ok_bind, if_neg several, advance_eq_ok.mpr ⟨gap, rfl⟩, ok_bind,
            ih inside.2 apart.2, List.append_assoc]
          rfl

/-- What the loop read lies where the links lead, inside the section and apart. -/
theorem auxLoop_sound {header : η} {left i pos : Nat} {seen seen' : List Nat} {out out' : σ}
    (some : left ≠ 0) (ran : auxLoop form bytes header left i pos seen out = .ok (seen', out')) :
    ∃ auxes, AuxesFollow form bytes pos auxes ∧ auxes.length = left ∧ seen' = seen ++ auxes ∧
      (∀ aux ∈ auxes, pos ≤ aux ∧ aux + form.auxLen ≤ bytes.length) ∧
        (auxes.Pairwise fun aux later => aux + form.auxLen ≤ later) ∧
          collectAuxes form header i (auxes.map fun aux => form.auxFields (form.auxAt bytes aux)) out =
            .ok out' := by
  induction left generalizing i pos seen out with
  | zero => exact absurd rfl some
  | succ left ih =>
      rw [auxLoop] at ran
      rcases Except.andThen_eq_ok.mp ran with ⟨aux, read, ran⟩
      rcases Except.andThen_eq_ok.mp ran with ⟨middle, collected, ran⟩
      rcases record_eq_ok.mp read with ⟨inside, same⟩
      rw [← same] at collected ran
      split at ran
      · next final =>
          rcases Except.followed_eq_ok.mp ran with ⟨ends, done⟩
          rcases Prod.mk.inj (Except.ok.inj done) with ⟨listed, result⟩
          refine ⟨[pos], .last (not_not.mp (refuseIf_eq_ok.mp ends)), ?_, listed.symm, ?_,
            List.pairwise_singleton _ _, ?_⟩
          · rw [final]
            rfl
          · intro other member
            rw [List.mem_singleton.mp member]
            exact ⟨le_refl _, inside⟩
          · rw [← result, List.map_singleton, collectAuxes]
            exact Except.andThen_eq_ok.mpr ⟨middle, collected, rfl⟩
      · next several =>
          rcases Except.andThen_eq_ok.mp ran with ⟨next, stepped, ran⟩
          rcases advance_eq_ok.mp stepped with ⟨gap, reached⟩
          rcases ih several ran with ⟨auxes, follow, length, listed, within, apart, rest⟩
          rw [← reached] at follow within
          refine ⟨pos :: auxes, .more follow, congrArg (· + 1) length, ?_, ?_, ?_, ?_⟩
          · rw [listed, List.append_assoc]
            rfl
          · rw [List.forall_mem_cons]
            refine ⟨⟨le_refl _, inside⟩, ?_⟩
            intro other member
            have held := within other member
            exact ⟨by omega, held.2⟩
          · rw [List.pairwise_cons]
            refine ⟨?_, apart⟩
            intro other member
            have held := (within other member).1
            have delta : form.auxLen ≤
                u32At (slice bytes pos form.auxLen) form.auxNextField := gap
            have above : pos + u32At (slice bytes pos form.auxLen) form.auxNextField ≤ other := held
            omega
          · rw [List.map_cons, collectAuxes]
            exact Except.andThen_eq_ok.mpr ⟨middle, collected, rest⟩

/-! ### The headers -/

theorem Follows.starts {pos : Nat} {chain : List Link} (follow : Follows form bytes pos chain) :
    ∃ link rest, chain = link :: rest ∧ link.header = pos := by
  cases follow with
  | last => exact ⟨_, [], rfl, rfl⟩
  | more => exact ⟨_, _, rfl, rfl⟩

/-- One turn of the loop over a header whose entries lie behind it and keep apart. -/
theorem headerLoop_link {link : Link} {fuel count total : Nat} {headers auxes : List Nat} {out : σ}
    (reaches : link.Reaches form bytes) (inside : link.header + form.headerLen ≤ bytes.length)
    (within : ∀ aux ∈ link.auxes, aux + form.auxLen ≤ bytes.length)
    (apart : link.auxes.Pairwise fun aux later => aux + form.auxLen ≤ later)
    (behind : ∀ aux ∈ link.auxes, link.header + form.headerLen ≤ aux)
    (fits : total + link.auxes.length ≤ maxRecords) :
    headerLoop form bytes (fuel + 1) count link.header total headers auxes out =
      (form.enter (form.headerFields (form.entryAt bytes link.header)) out >>= fun out =>
        collectAuxes form (form.headerFields (form.entryAt bytes link.header)) 0
            (link.auxes.map fun aux => form.auxFields (form.auxAt bytes aux)) out >>= fun out =>
          if u32At (form.entryAt bytes link.header) form.nextField = 0 then
            checkAuxPlacement (headers ++ [link.header]) form.headerLen (auxes ++ link.auxes)
                form.auxLen >>= fun _ => .ok (out, count + 1)
          else
            advance link.header (u32At (form.entryAt bytes link.header) form.nextField)
                form.headerLen >>= fun next =>
              headerLoop form bytes fuel (count + 1) next (total + link.auxes.length)
                (headers ++ [link.header]) (auxes ++ link.auxes) out) := by
  have read : record bytes link.header form.headerLen = .ok (form.entryAt bytes link.header) :=
    record_eq_ok.mpr ⟨inside, rfl⟩
  rcases reaches.follow.starts with ⟨rest, starts⟩
  have some : link.auxes.length ≠ 0 := by
    rw [starts]
    exact Nat.succ_ne_zero _
  have gap : form.headerLen ≤ u32At (form.entryAt bytes link.header) form.auxField := by
    have first := behind _ (starts ▸ List.mem_cons_self)
    omega
  have counted : refuseIf (link.auxes.length = 0 ∨ total + link.auxes.length > maxRecords)
      ChainError.auxCount = .ok () := by
    rw [refuseIf_eq_ok, not_or, not_lt]
    exact ⟨some, fits⟩
  rw [headerLoop, read, ok_bind, ← reaches.count]
  apply congrArg (form.enter (form.headerFields (form.entryAt bytes link.header)) out >>= ·)
  funext out
  rw [counted, ok_bind, advance_eq_ok.mpr ⟨gap, rfl⟩, ok_bind,
    auxLoop_follow reaches.follow within apart]
  cases collectAuxes form (form.headerFields (form.entryAt bytes link.header)) 0
      (link.auxes.map fun aux => form.auxFields (form.auxAt bytes aux)) out with
  | error reason => rfl
  | ok out => rfl

/-- A chain whose records keep apart is read to its end. -/
theorem headerLoop_follow {chain : List Link} {pos : Nat} (follow : Follows form bytes pos chain)
    (inside : ∀ link ∈ chain, link.header + form.headerLen ≤ bytes.length)
    (within : ∀ link ∈ chain, ∀ aux ∈ link.auxes, aux + form.auxLen ≤ bytes.length)
    (headersApart : chain.Pairwise fun link later => link.header + form.headerLen ≤ later.header)
    (auxesApart : AuxesApart form chain)
    (behind : ∀ link ∈ chain, ∀ aux ∈ link.auxes, link.header + form.headerLen ≤ aux)
    {fuel count total : Nat} {headers auxes : List Nat} {out : σ} (enough : chain.length ≤ fuel)
    (fits : total + (chain.map fun link => link.auxes.length).sum ≤ maxRecords)
    (checked : checkAuxPlacement (headers ++ chain.map Link.header) form.headerLen
      (auxes ++ chain.flatMap Link.auxes) form.auxLen = .ok ()) :
    headerLoop form bytes fuel count pos total headers auxes out =
      (collectRecords form (recordsOf form bytes chain) out).map
        fun out => (out, count + chain.length) := by
  induction follow generalizing fuel count total headers auxes out with
  | @last link reaches ends =>
      cases fuel with
      | zero => exact absurd enough (Nat.not_succ_le_zero _)
      | succ fuel =>
          rw [List.map_singleton, List.flatMap_singleton] at checked
          rw [List.map_singleton, List.sum_singleton] at fits
          rw [headerLoop_link reaches (inside _ List.mem_cons_self) (within _ List.mem_cons_self)
            (auxesApart _ List.mem_cons_self) (behind _ List.mem_cons_self) fits,
            recordsOf, List.map_singleton, collectRecords]
          cases form.enter (form.headerFields (form.entryAt bytes link.header)) out with
          | error reason => rfl
          | ok out =>
              rw [ok_bind, ok_bind]
              cases collectAuxes form (form.headerFields (form.entryAt bytes link.header)) 0
                  (link.auxes.map fun aux => form.auxFields (form.auxAt bytes aux)) out with
              | error reason => rfl
              | ok out =>
                  rw [ok_bind, ok_bind, if_pos ends, checked]
                  rfl
  | @more link rest reaches goes follow ih =>
      cases fuel with
      | zero => exact absurd enough (Nat.not_succ_le_zero _)
      | succ fuel =>
          rcases follow.starts with ⟨second, behindIt, starts, reached⟩
          rw [List.forall_mem_cons] at inside within behind
          rw [AuxesApart, List.forall_mem_cons] at auxesApart
          rw [List.pairwise_cons] at headersApart
          have gap : form.headerLen ≤ u32At (form.entryAt bytes link.header) form.nextField := by
            have next := headersApart.1 second (starts ▸ List.mem_cons_self)
            omega
          rw [List.map_cons, List.sum_cons] at fits
          rw [List.map_cons, List.flatMap_cons, ← List.singleton_append, ← List.append_assoc,
            ← List.append_assoc] at checked
          have first : total + link.auxes.length ≤ maxRecords := by omega
          have later : total + link.auxes.length +
              (rest.map fun link => link.auxes.length).sum ≤ maxRecords := by omega
          rw [headerLoop_link reaches inside.1 within.1 auxesApart.1 behind.1 first, recordsOf,
            List.map_cons, collectRecords]
          cases form.enter (form.headerFields (form.entryAt bytes link.header)) out with
          | error reason => rfl
          | ok out =>
              rw [ok_bind, ok_bind]
              cases collectAuxes form (form.headerFields (form.entryAt bytes link.header)) 0
                  (link.auxes.map fun aux => form.auxFields (form.auxAt bytes aux)) out with
              | error reason => rfl
              | ok out =>
                  rw [ok_bind, ok_bind, if_neg goes, advance_eq_ok.mpr ⟨gap, rfl⟩, ok_bind,
                    ih inside.2 within.2 headersApart.2 auxesApart.2 behind.2
                      (Nat.succ_le_succ_iff.mp enough) later checked,
                    List.length_cons, Nat.add_assoc, Nat.add_comm 1]
                  rfl

/-- What the loop read to the end is the chain that the links lead through. -/
theorem headerLoop_sound {fuel count pos total n : Nat} {headers auxes : List Nat} {out out' : σ}
    (ran : headerLoop form bytes fuel count pos total headers auxes out = .ok (out', n)) :
    ∃ chain, Follows form bytes pos chain ∧
      (∀ link ∈ chain, pos ≤ link.header ∧ link.header + form.headerLen ≤ bytes.length) ∧
      (∀ link ∈ chain, ∀ aux ∈ link.auxes, aux + form.auxLen ≤ bytes.length) ∧
      (chain.Pairwise fun link later => link.header + form.headerLen ≤ later.header) ∧
      AuxesApart form chain ∧ chain.length ≤ fuel ∧
      total + (chain.map fun link => link.auxes.length).sum ≤ maxRecords ∧
      checkAuxPlacement (headers ++ chain.map Link.header) form.headerLen
        (auxes ++ chain.flatMap Link.auxes) form.auxLen = .ok () ∧
      collectRecords form (recordsOf form bytes chain) out = .ok out' ∧
      n = count + chain.length := by
  induction fuel generalizing count pos total headers auxes out with
  | zero => cases ran
  | succ fuel ih =>
      rw [headerLoop] at ran
      rcases Except.andThen_eq_ok.mp ran with ⟨entry, read, ran⟩
      rcases Except.andThen_eq_ok.mp ran with ⟨entered, enters, ran⟩
      rcases Except.followed_eq_ok.mp ran with ⟨counted, ran⟩
      rcases Except.andThen_eq_ok.mp ran with ⟨auxAt, stepped, ran⟩
      rcases Except.andThen_eq_ok.mp ran with ⟨⟨seen, collected⟩, looped, ran⟩
      rcases record_eq_ok.mp read with ⟨inside, same⟩
      rw [← same] at enters counted stepped looped ran
      rw [refuseIf_eq_ok, not_or, not_lt] at counted
      rcases advance_eq_ok.mp stepped with ⟨-, reached⟩
      rcases auxLoop_sound counted.1 looped with ⟨own, follow, length, listed, held, apart, collects⟩
      rw [← reached] at follow
      have reaches : Link.Reaches form bytes ⟨pos, own⟩ := ⟨length, follow⟩
      have within : ∀ aux ∈ own, aux + form.auxLen ≤ bytes.length :=
        fun aux member => (held aux member).2
      dsimp only at ran
      rw [listed] at ran
      have taken : collectRecords form (recordsOf form bytes [⟨pos, own⟩]) out = .ok collected := by
        rw [recordsOf, List.map_singleton, collectRecords]
        exact Except.andThen_eq_ok.mpr ⟨entered, enters,
          Except.andThen_eq_ok.mpr ⟨collected, collects, rfl⟩⟩
      split at ran
      · next ends =>
          rcases Except.followed_eq_ok.mp ran with ⟨checked, done⟩
          rcases Prod.mk.inj (Except.ok.inj done) with ⟨result, number⟩
          refine ⟨[⟨pos, own⟩], .last reaches ends, ?_, ?_, List.pairwise_singleton _ _, ?_,
            Nat.succ_le_succ (Nat.zero_le _), ?_, ?_, ?_, number.symm⟩
          · rw [List.forall_mem_singleton]
            exact ⟨le_refl _, inside⟩
          · rw [List.forall_mem_singleton]
            exact within
          · rw [AuxesApart, List.forall_mem_singleton]
            exact apart
          · rw [List.map_singleton, List.sum_singleton, length]
            exact counted.2
          · rw [List.map_singleton, List.flatMap_singleton]
            exact checked
          · rw [← result]
            exact taken
      · next goes =>
          rcases Except.andThen_eq_ok.mp ran with ⟨next, moved, ran⟩
          rcases advance_eq_ok.mp moved with ⟨gap, reached⟩
          rcases ih ran with ⟨chain, follows, bounds, auxes', headersApart, auxesApart, enough, fits,
            checked, collects', number⟩
          rw [← reached] at follows bounds
          refine ⟨⟨pos, own⟩ :: chain, .more reaches goes follows, ?_, ?_, ?_, ?_,
            Nat.succ_le_succ enough, ?_, ?_, ?_, ?_⟩
          · rw [List.forall_mem_cons]
            refine ⟨⟨le_refl _, inside⟩, ?_⟩
            intro link member
            have bound := bounds link member
            exact ⟨by omega, bound.2⟩
          · rw [List.forall_mem_cons]
            exact ⟨within, auxes'⟩
          · rw [List.pairwise_cons]
            refine ⟨?_, headersApart⟩
            intro link member
            have above := (bounds link member).1
            have delta : form.headerLen ≤ u32At (slice bytes pos form.headerLen) form.nextField := gap
            dsimp only
            omega
          · rw [AuxesApart, List.forall_mem_cons]
            exact ⟨apart, auxesApart⟩
          · rw [List.map_cons, List.sum_cons, length]
            omega
          · rw [List.map_cons, List.flatMap_cons, ← List.singleton_append, ← List.append_assoc,
              ← List.append_assoc]
            exact checked
          · rw [recordsOf, List.map_cons, collectRecords]
            refine Except.andThen_eq_ok.mpr ⟨entered, enters, Except.andThen_eq_ok.mpr ⟨collected, ?_,
              collects'⟩⟩
            exact collects
          · rw [number, List.length_cons]
            omega

/-! ### The section -/

theorem AuxesFollow.above {pos : Nat} {auxes : List Nat} (follow : AuxesFollow form bytes pos auxes)
    (apart : auxes.Pairwise fun aux later => aux + form.auxLen ≤ later) : ∀ aux ∈ auxes, pos ≤ aux := by
  rcases follow.starts with ⟨rest, starts⟩
  rw [starts, List.pairwise_cons] at apart
  rw [starts, List.forall_mem_cons]
  refine ⟨le_refl _, ?_⟩
  intro aux member
  exact le_trans (Nat.le_add_right _ _) (apart.1 aux member)

theorem Follows.reaches {pos : Nat} {chain : List Link} (follow : Follows form bytes pos chain) :
    ∀ link ∈ chain, link.Reaches form bytes := by
  induction follow with
  | last reaches =>
      rw [List.forall_mem_singleton]
      exact reaches
  | more reaches goes follow ih =>
      rw [List.forall_mem_cons]
      exact ⟨reaches, ih⟩

theorem checked_iff_clear (positive : 0 < form.headerLen) {chain : List Link}
    (apart : chain.Pairwise fun link later => link.header + form.headerLen ≤ later.header) :
    checkAuxPlacement (chain.map Link.header) form.headerLen (chain.flatMap Link.auxes)
      form.auxLen = .ok () ↔ Clear form.headerLen form.auxLen chain := by
  have ascending : (chain.map Link.header).Pairwise (· < ·) := by
    rw [List.pairwise_map]
    apply apart.imp
    intro link later held
    omega
  rw [checkAuxPlacement_eq_ok ascending, Clear]
  constructor
  · intro clear link member aux inside other behind
    exact clear aux (List.mem_flatMap.mpr ⟨link, member, inside⟩) other.header
      (List.mem_map_of_mem behind)
  · intro clear aux member header behind
    rcases List.mem_flatMap.mp member with ⟨link, listed, inside⟩
    rcases List.mem_map.mp behind with ⟨other, found, same⟩
    rw [← same]
    exact clear link listed aux inside other found

/-- A chain in a section is read to its end. -/
theorem parseChain_of_chainIn (positive : 0 < form.headerLen) (some : 0 < form.auxLen)
    {chain : List Link} (held : ChainIn form bytes chain) (start : σ) :
    parseChain form bytes start =
      (collectRecords form (recordsOf form bytes chain) start).map
        fun out => (out, chain.length) := by
  have placed := held.placed
  have behind : ∀ link ∈ chain, ∀ aux ∈ link.auxes, link.header + form.headerLen ≤ aux := by
    intro link member aux inside
    have above := (held.follows.reaches link member).follow.above (held.apart link member) aux inside
    rcases placed.clear link member aux inside link member with before | after
    · omega
    · exact after
  have nonempty : bytes ≠ [] := by
    intro empty
    rcases held.follows.starts with ⟨link, rest, starts, -⟩
    have inside := placed.headersInside link (starts ▸ List.mem_cons_self)
    rw [empty, List.length_nil] at inside
    omega
  rw [parseChain, if_neg nonempty, headerLoop_follow held.follows placed.headersInside
    placed.auxesInside placed.headersApart held.apart behind held.limits.headers
    (by rw [Nat.zero_add]; exact held.limits.auxes)]
  · rw [Nat.zero_add]
  · exact (checked_iff_clear positive placed.headersApart).mpr placed.clear

theorem parseChain_eq_ok (positive : 0 < form.headerLen) (some : 0 < form.auxLen) {start out : σ}
    {n : Nat} :
    parseChain form bytes start = .ok (out, n) ↔ (bytes = [] ∧ out = start ∧ n = 0) ∨
      ∃ chain, ChainIn form bytes chain ∧
        collectRecords form (recordsOf form bytes chain) start = .ok out ∧ n = chain.length := by
  constructor
  · intro ran
    rw [parseChain] at ran
    split at ran
    · next empty =>
        rcases Prod.mk.inj (Except.ok.inj ran) with ⟨same, none⟩
        exact Or.inl ⟨empty, same.symm, none.symm⟩
    · rcases headerLoop_sound ran with ⟨chain, follows, bounds, within, headersApart, apart, enough,
        fits, checked, collects, number⟩
      have clear := (checked_iff_clear positive headersApart).mp checked
      refine Or.inr ⟨chain, ⟨follows, ⟨?_, within, headersApart, clear⟩, apart, ⟨enough, ?_⟩⟩,
        collects, ?_⟩
      · intro link member
        exact (bounds link member).2
      · rw [Nat.zero_add] at fits
        exact fits
      · rw [number, Nat.zero_add]
  · intro held
    rcases held with ⟨empty, same, none⟩ | ⟨chain, held, collects, number⟩
    · rw [parseChain, if_pos empty, same, none]
    · rw [parseChain_of_chainIn positive some held, collects, number]
      rfl

/-- The same records laid elsewhere are read alike. -/
theorem parseChain_relaid (positive : 0 < form.headerLen) (some : 0 < form.auxLen) {bytes' : Bytes}
    {chain chain' : List Link} (held : ChainIn form bytes chain) (held' : ChainIn form bytes' chain')
    (same : recordsOf form bytes chain = recordsOf form bytes' chain') (start : σ) :
    parseChain form bytes start = parseChain form bytes' start := by
  have length : chain.length = chain'.length := by
    have lengths := congrArg List.length same
    rw [recordsOf, recordsOf, List.length_map, List.length_map] at lengths
    exact lengths
  rw [parseChain_of_chainIn positive some held, parseChain_of_chainIn positive some held', same,
    length]

end

/-! ### Layouts -/

/-- Each header's entries stand between it and the next header. -/
def Interleaved (headerLen auxLen : Nat) (chain : List Link) : Prop :=
  (∀ link ∈ chain, ∀ aux ∈ link.auxes, link.header + headerLen ≤ aux) ∧
    chain.Pairwise fun link later => ∀ aux ∈ link.auxes, aux + auxLen ≤ later.header

/-- Every entry stands behind every header. -/
def HeadersFirst (headerLen : Nat) (chain : List Link) : Prop :=
  ∀ link ∈ chain, ∀ aux ∈ link.auxes, ∀ other ∈ chain, other.header + headerLen ≤ aux

theorem clear_of_layout {headerLen auxLen : Nat} {chain : List Link}
    (apart : chain.Pairwise fun link later => link.header + headerLen ≤ later.header)
    (laid : Interleaved headerLen auxLen chain ∨ HeadersFirst headerLen chain) :
    Clear headerLen auxLen chain := by
  rcases laid with ⟨behind, between⟩ | first
  · intro link member aux inside other found
    rcases List.append_of_mem member with ⟨before, after, split⟩
    rw [split, List.pairwise_append, List.pairwise_cons] at between apart
    rw [split, List.mem_append, List.mem_cons] at found
    rcases found with earlier | same | later
    · have gap := apart.2.2 other earlier link List.mem_cons_self
      have own := behind link member aux inside
      exact Or.inr (by omega)
    · rw [same]
      exact Or.inr (behind link member aux inside)
    · exact Or.inl (between.2.1.1 other later aux inside)
  · intro link member aux inside other found
    exact Or.inr (first link member aux inside other found)

end Onelf.Format.Versions
