import Onelf.Lib.Flock

/-! What locks guard: of a file that nobody has alone, an invariant of its own holds. -/

namespace Onelf.Lib

variable {σ π α κ : Type}

/-- Of a file that no process has alone, its invariant holds. -/
def Rests (held : π → List (Claim κ)) (rest : κ → σ → Prop) (shared : σ) (procs : List π) : Prop :=
  ∀ file, (∀ proc ∈ procs, ⟨file, .exclusive⟩ ∉ held proc) → rest file shared

namespace Rests

variable {held : π → List (Claim κ)} {rest : κ → σ → Prop} {shared after : σ} {proc later : π}
  {others procs : List π} {file : κ}

theorem perm {ordered : List π} (rests : Rests held rest shared procs)
    (same : procs.Perm ordered) : Rests held rest shared ordered :=
  fun file free => rests file fun proc member => free proc (same.subset member)

/-- Who is granted a file alone finds its invariant. -/
theorem granted [DecidableEq κ] (rests : Rests held rest shared (proc :: others))
    (granted : grantable held others ⟨file, .exclusive⟩ = true)
    (free : ⟨file, .exclusive⟩ ∉ held proc) : rest file shared := by
  refine rests file fun other member => ?_
  rcases List.mem_cons.mp member with here | there
  · exact here ▸ free
  · intro taken
    have apart := List.all_eq_true.mp (List.all_eq_true.mp granted other there) _ taken
    simp [Claim.conflicts] at apart

/-- A process leaves the invariant of what it does not have alone, and restores it where it lets a
file go. -/
theorem turn (rests : Rests held rest shared (proc :: others))
    (kept : ∀ file, ⟨file, .exclusive⟩ ∉ held proc → rest file shared → rest file after)
    (released : ∀ file, ⟨file, .exclusive⟩ ∈ held proc → ⟨file, .exclusive⟩ ∉ held later →
      rest file after) : Rests held rest after (later :: others) := by
  intro file free
  rcases List.forall_mem_cons.mp free with ⟨mine, theirs⟩
  by_cases had : ⟨file, .exclusive⟩ ∈ held proc
  · exact released file had mine
  · exact kept file had (rests file (List.forall_mem_cons.mpr ⟨had, theirs⟩))

end Rests

/-- A move keeps what holds of each process and between their locks, and the invariants of the files
nobody has alone. -/
structure Guards [DecidableEq κ] (program : Program σ π α) (good : σ → List π → π → α → Prop)
    (held : π → List (Claim κ)) (rest : κ → σ → Prop) (own : σ → π → Prop) : Prop where
  keeps : Keeps program
    (fun shared others proc action =>
      good shared others proc action ∧ Rests held rest shared (proc :: others))
    (fun _ => True) own fun proc other => Compatible (held proc) (held other)
  rests : ∀ shared others proc action turn, own shared proc →
    Rests held rest shared (proc :: others) → good shared others proc action →
      program shared others proc action = some turn →
        Rests held rest turn.shared (turn.proc :: (others ++ turn.spawned))

section
variable [DecidableEq κ] {program : Program σ π α} {good : σ → List π → π → α → Prop}
  {held : π → List (Claim κ)} {rest : κ → σ → Prop} {own : σ → π → Prop}
  {system next : System σ π}

/-- What holds of processes whose locks guard the shared state. -/
structure Guarded (held : π → List (Claim κ)) (rest : κ → σ → Prop) (own : σ → π → Prop)
    (system : System σ π) : Prop where
  coherent : Coherent (fun _ => True) own
    (fun proc other => Compatible (held proc) (held other)) system
  rests : Rests held rest system.shared system.procs

theorem Guards.move (guards : Guards program good held rest own) {index : Nat} {action : α}
    (guarded : Guarded held rest own system)
    (fits : ∀ proc ∈ system.procs[index]?,
      good system.shared (system.procs.eraseIdx index) proc action)
    (moved : system.move program index action = some next) : Guarded held rest own next := by
  have beside : ∀ proc ∈ system.procs[index]?,
      Rests held rest system.shared (proc :: system.procs.eraseIdx index) :=
    fun proc found => guarded.rests.perm (system.perm_beside found).symm
  constructor
  · exact guards.keeps.move guarded.coherent
      (fun proc found => ⟨fits proc found, beside proc found⟩) moved
  · rcases System.move_eq_some.mp moved with ⟨proc, turn, found, ran, rfl⟩
    rcases List.getElem?_eq_some_iff.mp found with ⟨inside, _⟩
    have own := guarded.coherent.own proc (List.mem_of_getElem? found)
    have rests := guards.rests _ _ _ _ _ own (beside proc found) (fits proc found) ran
    refine rests.perm ?_
    rw [← List.cons_append]
    exact (List.set_perm_cons_eraseIdx inside turn.proc).symm.append_right turn.spawned

/-- What every move of a run keeps holds at its end. -/
theorem Guards.run (guards : Guards program good held rest own) {moves : List (Nat × α)}
    (guarded : Guarded held rest own system) (meets : system.Meets program good moves)
    (ran : system.run program moves = some next) : Guarded held rest own next := by
  induction moves generalizing system with
  | nil =>
      cases ran
      exact guarded
  | cons move moves ih =>
      rw [System.run, List.foldlM_cons, Option.bind_eq_bind, Option.bind_eq_some_iff] at ran
      rcases ran with ⟨middle, moved, ran⟩
      exact ih (guards.move guarded meets.1 moved) (meets.2 middle moved) ran

end

end Onelf.Lib
