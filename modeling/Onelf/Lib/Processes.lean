import Mathlib.Data.List.Perm.Basic

/-! Processes that take turns over one shared state. -/

namespace Onelf.Lib

variable {σ π α : Type}

/-- A shared state and the local states of the processes. -/
structure System (σ π : Type) where
  shared : σ
  procs : List π

/-- What one move of a process leaves, and the processes it started. -/
structure Turn (σ π : Type) where
  shared : σ
  proc : π
  spawned : List π

/-- What a process does next, where the others stand as they do. -/
abbrev Program (σ π α : Type) := σ → List π → π → α → Option (Turn σ π)

namespace System

/-- One process moves. -/
def move (program : Program σ π α) (system : System σ π) (index : Nat) (action : α) :
    Option (System σ π) := do
  let proc ← system.procs[index]?
  let turn ← program system.shared (system.procs.eraseIdx index) proc action
  some ⟨turn.shared, system.procs.set index turn.proc ++ turn.spawned⟩

/-- Moves in any order. -/
def run (program : Program σ π α) (system : System σ π) (moves : List (Nat × α)) :
    Option (System σ π) :=
  moves.foldlM (fun system move => system.move program move.1 move.2) system

/-- A condition on the moves of a run, each seen before it is made. -/
def Meets (program : Program σ π α) (good : σ → List π → π → α → Prop) :
    System σ π → List (Nat × α) → Prop
  | _, [] => True
  | system, (index, action) :: moves =>
      (∀ proc ∈ system.procs[index]?,
        good system.shared (system.procs.eraseIdx index) proc action) ∧
          ∀ next ∈ system.move program index action, next.Meets program good moves

instance decidableMeets (program : Program σ π α) (good : σ → List π → π → α → Prop)
    [∀ shared others proc action, Decidable (good shared others proc action)] :
    ∀ (system : System σ π) (moves : List (Nat × α)), Decidable (system.Meets program good moves)
  | _, [] => isTrue trivial
  | system, (index, action) :: moves =>
      have := fun next => decidableMeets program good next moves
      inferInstanceAs (Decidable ((∀ proc ∈ system.procs[index]?,
        good system.shared (system.procs.eraseIdx index) proc action) ∧
          ∀ next ∈ system.move program index action, next.Meets program good moves))

end System

/-- What holds of the shared state, of each process and between any two. -/
structure Coherent (common : σ → Prop) (own : σ → π → Prop) (apart : π → π → Prop)
    (system : System σ π) : Prop where
  common : common system.shared
  own : ∀ proc ∈ system.procs, own system.shared proc
  apart : system.procs.Pairwise apart

/-- A move keeps what holds: of the process that moves, of the others where it leaves them, and of
those it starts. -/
structure Keeps (program : Program σ π α) (good : σ → List π → π → α → Prop) (common : σ → Prop)
    (own : σ → π → Prop) (apart : π → π → Prop) : Prop where
  symm : ∀ proc other, apart proc other → apart other proc
  step : ∀ shared others proc action turn, common shared → own shared proc →
    (∀ other ∈ others, own shared other ∧ apart proc other) → good shared others proc action →
      program shared others proc action = some turn →
        common turn.shared ∧ own turn.shared turn.proc ∧
          (∀ other ∈ others, own turn.shared other ∧ apart turn.proc other) ∧
          (∀ child ∈ turn.spawned, own turn.shared child ∧ apart turn.proc child ∧
            ∀ other ∈ others, apart other child) ∧ turn.spawned.Pairwise apart

section
variable {program : Program σ π α} {good : σ → List π → π → α → Prop} {common : σ → Prop}
  {own : σ → π → Prop} {apart : π → π → Prop} {system next : System σ π} {index : Nat} {action : α}

theorem System.move_eq_some :
    system.move program index action = some next ↔ ∃ proc turn, system.procs[index]? = some proc ∧
      program system.shared (system.procs.eraseIdx index) proc action = some turn ∧
        next = ⟨turn.shared, system.procs.set index turn.proc ++ turn.spawned⟩ := by
  simp only [System.move, Option.bind_eq_bind, Option.bind_eq_some_iff, Option.some.injEq]
  constructor
  · intro moved
    rcases moved with ⟨proc, found, turn, ran, rfl⟩
    exact ⟨proc, turn, found, ran, rfl⟩
  · intro moved
    rcases moved with ⟨proc, turn, found, ran, rfl⟩
    exact ⟨proc, found, turn, ran, rfl⟩

/-- The processes are the one that moves and the others. -/
theorem System.perm_beside {proc : π} (found : system.procs[index]? = some proc) :
    (proc :: system.procs.eraseIdx index).Perm system.procs := by
  rcases List.getElem?_eq_some_iff.mp found with ⟨inside, same⟩
  exact same ▸ List.getElem_cons_eraseIdx_perm inside

/-- What holds of the process that moves and of the others. -/
theorem Coherent.beside {proc : π} (held : Coherent common own apart system)
    (symm : ∀ proc other, apart proc other → apart other proc)
    (found : system.procs[index]? = some proc) :
    own system.shared proc ∧
      (∀ other ∈ system.procs.eraseIdx index, own system.shared other ∧ apart proc other) ∧
        (system.procs.eraseIdx index).Pairwise apart := by
  have split := system.perm_beside found
  have pairs := (split.pairwise_iff fun {first second} => symm first second).mpr held.apart
  rcases List.pairwise_cons.mp pairs with ⟨against, among⟩
  refine ⟨held.own proc (split.subset List.mem_cons_self), ?_, among⟩
  intro other member
  exact ⟨held.own other (split.subset (List.mem_cons_of_mem _ member)), against other member⟩

theorem Keeps.move (keeps : Keeps program good common own apart)
    (held : Coherent common own apart system)
    (fits : ∀ proc ∈ system.procs[index]?,
      good system.shared (system.procs.eraseIdx index) proc action)
    (moved : system.move program index action = some next) : Coherent common own apart next := by
  rcases System.move_eq_some.mp moved with ⟨proc, turn, found, ran, rfl⟩
  rcases List.getElem?_eq_some_iff.mp found with ⟨inside, _⟩
  have replaced : (turn.proc :: system.procs.eraseIdx index).Perm
      (system.procs.set index turn.proc) := (List.set_perm_cons_eraseIdx inside turn.proc).symm
  rcases held.beside keeps.symm found with ⟨mine, others, among⟩
  rcases keeps.step _ _ _ _ _ held.common mine others (fits proc found) ran with
    ⟨shared, self, rest, born, siblings⟩
  constructor
  · exact shared
  · intro other member
    rcases List.mem_append.mp member with old | child
    · rcases List.mem_cons.mp (replaced.symm.subset old) with here | there
      · exact here ▸ self
      · exact (rest other there).1
    · exact (born other child).1
  · refine List.pairwise_append.mpr ⟨?_, siblings, ?_⟩
    · refine (replaced.pairwise_iff fun {first second} => keeps.symm first second).mp ?_
      exact List.pairwise_cons.mpr ⟨fun other member => (rest other member).2, among⟩
    · intro other old child new
      rcases List.mem_cons.mp (replaced.symm.subset old) with here | there
      · exact here ▸ (born child new).2.1
      · exact (born child new).2.2 other there

/-- What every move of a run keeps holds at its end. -/
theorem Keeps.run (keeps : Keeps program good common own apart) {moves : List (Nat × α)}
    (held : Coherent common own apart system) (meets : system.Meets program good moves)
    (ran : system.run program moves = some next) : Coherent common own apart next := by
  induction moves generalizing system with
  | nil =>
      cases ran
      exact held
  | cons move moves ih =>
      rw [System.run, List.foldlM_cons, Option.bind_eq_bind, Option.bind_eq_some_iff] at ran
      rcases ran with ⟨middle, moved, ran⟩
      exact ih (keeps.move held meets.1 moved) (meets.2 middle moved) ran

theorem System.Meets.mono {good' : σ → List π → π → α → Prop}
    (weaker : ∀ shared others proc action, good shared others proc action →
      good' shared others proc action) {moves : List (Nat × α)}
    (meets : system.Meets program good moves) : system.Meets program good' moves := by
  induction moves generalizing system with
  | nil => trivial
  | cons move moves ih =>
      exact ⟨fun proc found => weaker _ _ _ _ (meets.1 proc found),
        fun next moved => ih (meets.2 next moved)⟩

/-- More is kept where what is kept already says enough of each move. -/
theorem Keeps.extend {good' : σ → List π → π → α → Prop} {common' : σ → Prop}
    {own' : σ → π → Prop} {apart' : π → π → Prop} (keeps : Keeps program good common own apart)
    (symm : ∀ proc other, apart' proc other → apart' other proc)
    (step : ∀ shared others proc action turn, common shared → common' shared → own shared proc →
      own' shared proc →
      (∀ other ∈ others, (own shared other ∧ own' shared other) ∧
        (apart proc other ∧ apart' proc other)) →
      good' shared others proc action → program shared others proc action = some turn →
        common' turn.shared ∧ own' turn.shared turn.proc ∧
          (∀ other ∈ others, own' turn.shared other ∧ apart' turn.proc other) ∧
          (∀ child ∈ turn.spawned, own' turn.shared child ∧ apart' turn.proc child ∧
            ∀ other ∈ others, apart' other child) ∧ turn.spawned.Pairwise apart') :
    Keeps program
      (fun shared others proc action =>
        good shared others proc action ∧ good' shared others proc action)
      (fun shared => common shared ∧ common' shared)
      (fun shared proc => own shared proc ∧ own' shared proc)
      (fun proc other => apart proc other ∧ apart' proc other) where
  symm proc other both := ⟨keeps.symm proc other both.1, symm proc other both.2⟩
  step := by
    intro shared others proc action turn commons owns beside goods ran
    have first := keeps.step shared others proc action turn commons.1 owns.1
      (fun other member => ⟨(beside other member).1.1, (beside other member).2.1⟩) goods.1 ran
    have second := step shared others proc action turn commons.1 commons.2 owns.1 owns.2 beside
      goods.2 ran
    rcases first with ⟨shared₁, self₁, rest₁, born₁, siblings₁⟩
    rcases second with ⟨shared₂, self₂, rest₂, born₂, siblings₂⟩
    refine ⟨⟨shared₁, shared₂⟩, ⟨self₁, self₂⟩, ?_, ?_, siblings₁.and siblings₂⟩
    · intro other member
      rcases rest₁ other member with ⟨own₁, apart₁⟩
      rcases rest₂ other member with ⟨own₂, apart₂⟩
      exact ⟨⟨own₁, own₂⟩, apart₁, apart₂⟩
    · intro child new
      rcases born₁ child new with ⟨own₁, apart₁, others₁⟩
      rcases born₂ child new with ⟨own₂, apart₂, others₂⟩
      exact ⟨⟨own₁, own₂⟩, ⟨apart₁, apart₂⟩,
        fun other member => ⟨others₁ other member, others₂ other member⟩⟩

end

end Onelf.Lib
