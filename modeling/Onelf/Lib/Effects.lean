import Mathlib.Control.Monad.Basic

/-! Procedures that change a state and may fail half way, and what they leave either way. -/

namespace Onelf.Lib

/-- A procedure over a state that it keeps when it fails. -/
abbrev Proc (ε σ α : Type) : Type := ExceptT ε (StateM σ) α

namespace Proc

variable {ε σ α β : Type}

/-- What a procedure returns and leaves. -/
def exec (proc : Proc ε σ α) (state : σ) : Except ε α × σ := StateT.run (ExceptT.run proc) state

theorem exec_bind (first : Proc ε σ α) (second : α → Proc ε σ β) (state : σ) :
    exec (first >>= second) state =
      match exec first state with
      | (.ok value, after) => exec (second value) after
      | (.error reason, after) => (.error reason, after) := by
  change (ExceptT.bindCont second (exec first state).1) (exec first state).2 = _
  cases h : exec first state with
  | mk result after => cases result <;> rfl

/-- Begun in `before`, a procedure leaves `after` of what it returns, or `broken` where it fails. -/
def Ensures (before : σ → Prop) (proc : Proc ε σ α) (after : α → σ → Prop) (broken : σ → Prop) :
    Prop :=
  ∀ state, before state → match exec proc state with
    | (.ok value, next) => after value next
    | (.error _, next) => broken next

variable {before middle : σ → Prop} {broken : σ → Prop} {after : α → σ → Prop}

theorem Ensures.ret {value : α} (holds : ∀ state, before state → after value state) :
    Ensures before (pure value : Proc ε σ α) after broken := holds

theorem Ensures.fail {reason : ε} (holds : ∀ state, before state → broken state) :
    Ensures before (throw reason : Proc ε σ α) after broken := holds

theorem Ensures.bind {first : Proc ε σ β} {second : β → Proc ε σ α} {between : β → σ → Prop}
    (left : Ensures before first between broken)
    (right : ∀ value, Ensures (between value) (second value) after broken) :
    Ensures before (first >>= second) after broken := by
  intro state begins
  have ran := left state begins
  rw [exec_bind]
  cases result : exec first state with
  | mk outcome next =>
      rw [result] at ran
      cases outcome with
      | ok value => exact right value next ran
      | error reason => exact ran

theorem Ensures.weaken {proc : Proc ε σ α} {begins : σ → Prop} {ends : α → σ → Prop}
    {fails : σ → Prop} (ensures : Ensures begins proc ends fails)
    (first : ∀ state, before state → begins state)
    (last : ∀ value state, ends value state → after value state)
    (stop : ∀ state, fails state → broken state) : Ensures before proc after broken := by
  intro state begun
  have ran := ensures state (first state begun)
  cases result : exec proc state with
  | mk outcome next =>
      rw [result] at ran
      cases outcome with
      | ok value => exact last value next ran
      | error reason => exact stop next ran

/-- A loop keeps what each of its rounds keeps, told of the values it has passed. -/
theorem Ensures.loop (holds : List β → σ → Prop) {body : β → Proc ε σ Unit} {values : List β}
    (round : ∀ past value rest, values = past ++ value :: rest →
      Ensures (holds past) (body value) (fun _ => holds (past ++ [value])) broken) :
    Ensures (holds []) (values.forM body) (fun _ => holds values) broken := by
  have tail : ∀ past rest, values = past ++ rest →
      Ensures (holds past) (rest.forM body) (fun _ => holds values) broken := by
    intro past rest whole
    induction rest generalizing past with
    | nil =>
        rw [List.append_nil] at whole
        rw [whole]
        exact Ensures.ret fun state begun => begun
    | cons value rest ih =>
        rw [List.forM]
        apply Ensures.bind (round past value rest whole)
        intro _
        exact ih (past ++ [value]) (by rw [whole, List.append_assoc]; rfl)
  exact tail [] values rfl

end Proc

end Onelf.Lib
