import Onelf.Lib.Processes

/-! Advisory locks on files, held by whole processes. -/

namespace Onelf.Lib

inductive LockMode where
  | shared
  | exclusive
  deriving DecidableEq

/-- A lock that is held, or asked for. -/
structure Claim (κ : Type) where
  file : κ
  mode : LockMode
  deriving DecidableEq

variable {κ π : Type} [DecidableEq κ]

def Claim.conflicts (claim other : Claim κ) : Bool :=
  claim.file = other.file && (claim.mode = .exclusive || other.mode = .exclusive)

/-- What is held by two processes goes together. -/
def Compatible (claims others : List (Claim κ)) : Prop :=
  ∀ claim ∈ claims, ∀ other ∈ others, claim.conflicts other = false

/-- The lock can be had beside what the others hold. -/
def grantable (held : π → List (Claim κ)) (others : List π) (claim : Claim κ) : Bool :=
  others.all fun other => (held other).all fun taken => !claim.conflicts taken

theorem Claim.conflicts_comm (claim other : Claim κ) :
    claim.conflicts other = other.conflicts claim := by
  rw [conflicts, conflicts, Bool.or_comm, decide_eq_decide.mpr eq_comm]

theorem Compatible.symm {claims others : List (Claim κ)} (compatible : Compatible claims others) :
    Compatible others claims := by
  intro other also claim member
  rw [Claim.conflicts_comm]
  exact compatible claim member other also

/-- Locks can always be let go. -/
theorem Compatible.fewer {claims less others : List (Claim κ)}
    (compatible : Compatible claims others) (fewer : less ⊆ claims) : Compatible less others :=
  fun claim member => compatible claim (fewer member)

/-- A lock that was granted goes with what the others hold. -/
theorem Compatible.granted {held : π → List (Claim κ)} {others : List π} {other : π}
    {claims more : List (Claim κ)} {claim : Claim κ} (compatible : Compatible claims (held other))
    (granted : grantable held others claim = true) (member : other ∈ others)
    (more_le : more ⊆ claim :: claims) : Compatible more (held other) := by
  intro taken within theirs also
  rcases List.mem_cons.mp (more_le within) with new | old
  · have apart := List.all_eq_true.mp (List.all_eq_true.mp granted other member) theirs also
    rw [new]
    simpa using apart
  · exact compatible taken old theirs also

/-- An exclusive lock is nobody else's. -/
theorem Compatible.exclusive {claims others : List (Claim κ)} {file : κ} {mode : LockMode}
    (compatible : Compatible claims others) (mine : ⟨file, .exclusive⟩ ∈ claims)
    (theirs : ⟨file, mode⟩ ∈ others) : False := by
  have apart := compatible _ mine _ theirs
  simp [Claim.conflicts] at apart

end Onelf.Lib
