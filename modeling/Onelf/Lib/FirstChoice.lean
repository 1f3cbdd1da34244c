import Mathlib.Data.List.Nodup

/-! Rows of choices answered one after another, none of them by what another row has taken. -/

namespace Onelf.Lib

section FirstChoice

variable {α : Type} [DecidableEq α]

/-- Every value once, where it first comes. -/
def eachOnce (values : List α) : List α := values.eraseDups

/-- The first choice of a row that is not taken. -/
def freshChoice (taken row : List α) : Option α := row.find? fun choice => choice ∉ taken

/-- A row gives its first fresh choice. -/
def takeFresh (taken : List α) : List (List α) → List α
  | [] => taken
  | row :: rows =>
      match freshChoice taken row with
      | none => takeFresh taken rows
      | some choice => takeFresh (taken ++ [choice]) rows

/-- A row gives the first of its choices, and nothing where that is taken. -/
def takeFirst (taken : List α) : List (List α) → List α
  | [] => taken
  | row :: rows =>
      match row.head? with
      | none => takeFirst taken rows
      | some first => if first ∈ taken then takeFirst taken rows
          else takeFirst (taken ++ [first]) rows

/-- Where the first choice of a row is taken already, the fresh one after it is owed: the rows that
follow have to come to the owed ones as their first choices, in that order and before any other. -/
def Settled (taken owed : List α) : List (List α) → Prop
  | [] => owed = []
  | [] :: rows => Settled taken owed rows
  | (first :: others) :: rows =>
      if first ∈ taken then
        Settled taken (owed ++ (freshChoice (taken ++ owed) others).toList) rows
      else match owed with
        | [] => Settled (taken ++ [first]) [] rows
        | next :: later => first = next ∧ Settled (taken ++ [first])
            (later ++ (freshChoice (taken ++ next :: later) others).toList) rows

theorem eachOnce_cons (first : α) (values : List α) :
    eachOnce (first :: values) = first :: eachOnce (values.filter fun other => other ≠ first) := by
  rw [eachOnce, List.eraseDups_cons, eachOnce]
  congr 2
  apply List.filter_congr
  intro other _
  rw [beq_eq_decide, decide_not]

theorem mem_eachOnce {values : List α} {value : α} : value ∈ eachOnce values ↔ value ∈ values :=
  List.mem_eraseDups

theorem eachOnce_nodup (values : List α) : (eachOnce values).Nodup := by
  induction size : values.length using Nat.strongRecOn generalizing values with
  | _ n ih =>
      cases values with
      | nil => exact List.nodup_nil
      | cons first values =>
          have fewer : (values.filter fun other => other ≠ first).length < n := by
            rw [← size, List.length_cons]
            exact Nat.lt_succ_of_le (List.length_filter_le _ _)
          rw [eachOnce_cons, List.nodup_cons, mem_eachOnce]
          refine ⟨?_, ih _ fewer _ rfl⟩
          simp

theorem takeFresh_cons (taken row : List α) (rows : List (List α)) :
    takeFresh taken (row :: rows) =
      takeFresh (taken ++ (freshChoice taken row).toList) rows := by
  rw [takeFresh]
  cases freshChoice taken row with
  | none => rw [Option.toList_none, List.append_nil]
  | some choice => rfl

theorem takeFresh_extends (taken : List α) (rows : List (List α)) :
    taken <+: takeFresh taken rows := by
  induction rows generalizing taken with
  | nil => exact List.prefix_rfl
  | cons row rows ih =>
      rw [takeFresh_cons]
      exact (List.prefix_append taken _).trans (ih _)

theorem takeFirst_cons (taken : List α) (first : α) (others : List α) (rows : List (List α)) :
    takeFirst taken ((first :: others) :: rows) =
      if first ∈ taken then takeFirst taken rows else takeFirst (taken ++ [first]) rows := rfl

theorem takeFirst_extends (taken : List α) (rows : List (List α)) :
    taken <+: takeFirst taken rows := by
  induction rows generalizing taken with
  | nil => exact List.prefix_rfl
  | cons row rows ih =>
      cases row with
      | nil => exact ih taken
      | cons first others =>
          rw [takeFirst_cons]
          by_cases known : first ∈ taken
          · rw [if_pos known]
            exact ih taken
          · rw [if_neg known]
            exact (List.prefix_append taken _).trans (ih _)

theorem takeFirst_eq_append (taken : List α) (rows : List (List α)) :
    takeFirst taken rows =
      taken ++ ((rows.filterMap List.head?).filter fun first => first ∉ taken).eraseDups := by
  induction rows generalizing taken with
  | nil => simp [takeFirst]
  | cons row rows ih =>
      cases row with
      | nil => exact ih taken
      | cons first others =>
          rw [takeFirst_cons, List.filterMap_cons_some List.head?_cons]
          by_cases known : first ∈ taken
          · rw [if_pos known, List.filter_cons_of_neg (by simp [known])]
            exact ih taken
          · rw [if_neg known, List.filter_cons_of_pos (by simp [known]), List.eraseDups_cons, ih,
              List.append_assoc, List.singleton_append, List.filter_filter]
            congr 3
            apply List.filter_congr
            intro other _
            simp [beq_eq_decide, Bool.and_comm]

/-- Answering each row by its first choice lists the first choices, each once and where it first
comes. -/
theorem takeFirst_nil (rows : List (List α)) :
    takeFirst [] rows = eachOnce (rows.filterMap List.head?) := by
  rw [takeFirst_eq_append, List.nil_append, eachOnce]
  congr 1
  exact List.filter_eq_self.mpr fun first _ => by simp

theorem freshChoice_passes {avoided others : List α} {first : α} (member : first ∈ avoided) :
    freshChoice avoided (first :: others) = freshChoice avoided others :=
  List.find?_cons_of_neg (by simpa using member)

theorem not_mem_of_freshChoice {avoided row : List α} {choice : α}
    (picked : choice ∈ (freshChoice avoided row).toList) : choice ∉ avoided := by
  have outside := List.find?_some (Option.mem_toList.mp picked)
  exact of_decide_eq_true outside

/-- What a row picks afresh is owed besides what is owed already. -/
theorem nodup_picked {taken owed : List α} (fresh : (taken ++ owed).Nodup) (row : List α) :
    (taken ++ (owed ++ (freshChoice (taken ++ owed) row).toList)).Nodup := by
  rw [← List.append_assoc]
  apply List.nodup_append.mpr ⟨fresh, ?_, ?_⟩
  · cases freshChoice (taken ++ owed) row with
    | none => exact List.nodup_nil
    | some choice => exact List.nodup_singleton choice
  · intro choice known other picked same
    exact not_mem_of_freshChoice picked (same ▸ known)

/-- The two lists differ for good where the one owes `next` and the other has `first`. -/
theorem takeFresh_apart {taken : List α} {next first : α} (apart : next ≠ first) (later : List α)
    (rows others : List (List α)) :
    takeFresh (taken ++ next :: later) rows ≠ takeFirst (taken ++ [first]) others := by
  intro equal
  rcases takeFresh_extends (taken ++ next :: later) rows with ⟨more, ahead⟩
  rcases takeFirst_extends (taken ++ [first]) others with ⟨rest, behind⟩
  rw [equal, ← behind] at ahead
  simp only [List.append_assoc, List.append_cancel_left_eq] at ahead
  exact apart (List.cons.inj ahead).1

/-- What is owed is what the one answering runs ahead of the other by: they end with one list
exactly where everything owed is settled. -/
theorem takeFresh_eq_takeFirst_iff {taken owed : List α} (fresh : (taken ++ owed).Nodup)
    (rows : List (List α)) :
    takeFresh (taken ++ owed) rows = takeFirst taken rows ↔ Settled taken owed rows := by
  induction rows generalizing taken owed with
  | nil => simp [takeFresh, takeFirst, Settled]
  | cons row rows ih =>
      cases row with
      | nil => exact ih fresh
      | cons first others =>
          rw [takeFresh_cons, takeFirst_cons]
          by_cases known : first ∈ taken
          · simp only [Settled, if_pos known]
            rw [freshChoice_passes (List.mem_append_left _ known), List.append_assoc]
            exact ih (nodup_picked fresh others)
          · rw [if_neg known]
            simp only [Settled, if_neg known]
            cases owed with
            | nil =>
                rw [List.append_nil, freshChoice, List.find?_cons_of_pos (by simpa using known),
                  Option.toList_some]
                have next := @ih (taken ++ [first]) []
                rw [List.append_nil] at next fresh
                apply next
                apply List.nodup_append.mpr ⟨fresh, List.nodup_singleton first, ?_⟩
                intro choice member other here same
                rw [List.mem_singleton] at here
                exact known (here ▸ same ▸ member)
            | cons next later =>
                by_cases same : first = next
                · have here : taken ++ next :: later = taken ++ [next] ++ later := by
                    rw [List.append_assoc, List.singleton_append]
                  rw [same, freshChoice_passes (by simp), here, List.append_assoc _ later]
                  rw [here] at fresh
                  rw [ih (nodup_picked fresh others)]
                  simp
                · constructor
                  · intro equal
                    rw [List.append_assoc, List.cons_append] at equal
                    exact absurd equal (takeFresh_apart (Ne.symm same) _ rows rows)
                  · intro settled
                    exact absurd settled.1 same

theorem takeFresh_eq_eachOnce_iff (rows : List (List α)) :
    takeFresh [] rows = eachOnce (rows.filterMap List.head?) ↔ Settled [] [] rows := by
  rw [← takeFirst_nil]
  exact @takeFresh_eq_takeFirst_iff _ _ [] [] List.nodup_nil rows

end FirstChoice

end Onelf.Lib
