import Onelf.Lib.Image

/-! Fields and tables of fixed-size rows at fixed places of a file's bytes. -/

namespace Onelf.Lib

/-! ### Slices -/

theorem slice_append_left {left right : Bytes} {start len : Nat}
    (inside : start + len ≤ left.length) : slice (left ++ right) start len = slice left start len := by
  rw [slice, slice, List.drop_append_of_le_length (by omega),
    List.take_append_of_le_length (by rw [List.length_drop]; omega)]

theorem slice_append_right (left right : Bytes) (start len : Nat) :
    slice (left ++ right) (left.length + start) len = slice right start len := by
  rw [slice, slice, List.drop_length_add_append]

theorem slice_all (bytes : Bytes) : slice bytes 0 bytes.length = bytes := by
  rw [slice, List.drop_zero, List.take_length]

theorem slice_writeAt_self {file bytes : Bytes} {pos : Nat}
    (inside : pos + bytes.length ≤ file.length) :
    slice (writeAt file bytes pos) pos bytes.length = bytes := by
  apply List.ext_getElem?
  intro i
  rw [getElem?_slice, getElem?_writeAt (by omega)]
  by_cases short : i < bytes.length
  · rw [if_pos short, if_pos (by omega), Nat.add_sub_cancel_left]
  · rw [if_neg short, List.getElem?_eq_none (by omega)]

theorem slice_writeAt_apart {file bytes : Bytes} {pos start len : Nat} (inside : pos ≤ file.length)
    (apart : start + len ≤ pos ∨ pos + bytes.length ≤ start) :
    slice (writeAt file bytes pos) start len = slice file start len := by
  apply List.ext_getElem?
  intro i
  rw [getElem?_slice, getElem?_slice]
  by_cases short : i < len
  · rw [if_pos short, if_pos short, getElem?_writeAt inside, if_neg (by omega)]
  · rw [if_neg short, if_neg short]

/-- A little-endian field holds what was written to it, less what did not fit. -/
theorem ofLeBytes_leBytes_mod (width n : Nat) : ofLeBytes (leBytes width n) = n % 256 ^ width := by
  induction width generalizing n with
  | zero => simp [leBytes, Nat.mod_one]
  | succ width ih =>
      have low : (UInt8.ofNat (n % 256)).toNat = n % 256 :=
        UInt8.toNat_ofNat_of_lt' (Nat.mod_lt n (by decide))
      rw [leBytes, ofLeBytes_cons, ih, low, Nat.pow_succ, Nat.mul_comm (256 ^ width) 256,
        Nat.mod_mul]

/-! ### Tables -/

/-- The `count` rows of `size` bytes from `start`. -/
def rows (file : Bytes) (start size count : Nat) : List Bytes :=
  (List.range count).map fun i => slice file (start + i * size) size

@[simp] theorem length_rows (file : Bytes) (start size count : Nat) :
    (rows file start size count).length = count := by
  rw [rows, List.length_map, List.length_range]

theorem getElem?_rows (file : Bytes) (start size count i : Nat) :
    (rows file start size count)[i]? =
      if i < count then some (slice file (start + i * size) size) else none := by
  rw [rows, List.getElem?_map]
  by_cases short : i < count
  · rw [if_pos short, List.getElem?_range short, Option.map_some]
  · rw [if_neg short, List.getElem?_eq_none (by rw [List.length_range]; omega), Option.map_none]

/-- A row lies inside its table. -/
theorem row_inside (size : Nat) {count i : Nat} (row : i < count) :
    i * size + size ≤ count * size := by
  have next : (i + 1) * size ≤ count * size := Nat.mul_le_mul_right size row
  rwa [Nat.succ_mul] at next

theorem rows_append {left right : Bytes} {start size count : Nat}
    (inside : start + count * size ≤ left.length) :
    rows (left ++ right) start size count = rows left start size count := by
  apply List.map_congr_left
  intro i member
  have row := row_inside size (List.mem_range.mp member)
  exact slice_append_left (by omega)

theorem rows_writeAt_apart {file bytes : Bytes} {pos start size count : Nat}
    (inside : pos ≤ file.length)
    (apart : start + count * size ≤ pos ∨ pos + bytes.length ≤ start) :
    rows (writeAt file bytes pos) start size count = rows file start size count := by
  apply List.map_congr_left
  intro i member
  have row := row_inside size (List.mem_range.mp member)
  exact slice_writeAt_apart inside (by omega)

/-- Writing a row where it stands replaces it and no other. -/
theorem rows_writeAt {file bytes : Bytes} {start size count i : Nat}
    (inside : start + count * size ≤ file.length) (row : i < count) (whole : bytes.length = size) :
    rows (writeAt file bytes (start + i * size)) start size count =
      (rows file start size count).set i bytes := by
  have place := row_inside size row
  apply List.ext_getElem?
  intro j
  rw [List.getElem?_set, getElem?_rows, length_rows, getElem?_rows]
  by_cases same : i = j
  · rw [if_pos same, ← same, if_pos row, if_pos row]
    have self : slice (writeAt file bytes (start + i * size)) (start + i * size) bytes.length =
        bytes := slice_writeAt_self (by omega)
    rw [whole] at self
    rw [self]
  · rw [if_neg same]
    by_cases short : j < count
    · rw [if_pos short, if_pos short]
      have apart : j * size + size ≤ i * size ∨ i * size + size ≤ j * size := by
        rcases Nat.lt_or_gt_of_ne same with before | after
        · exact Or.inr (row_inside size before)
        · exact Or.inl (row_inside size after)
      rw [slice_writeAt_apart (by omega) (by omega)]
    · rw [if_neg short, if_neg short]

/-! ### A row moved to the end -/

section
variable {α : Type}

/-- `entry` written over the row at `i`, and that row and the last one exchanged. -/
def moveLast (table : List α) (i : Nat) (entry : α) : List α :=
  match (table.drop (i + 1)).getLast? with
  | none => table.set i entry
  | some last => (table.set i last).set (table.length - 1) entry

theorem moveLast_end (before : List α) (old entry : α) :
    moveLast (before ++ [old]) before.length entry = before ++ [entry] := by
  simp [moveLast]

theorem moveLast_swap (before middle : List α) (old last entry : α) :
    moveLast (before ++ old :: (middle ++ [last])) before.length entry =
      before ++ last :: (middle ++ [entry]) := by
  simp [moveLast, List.drop_append]

theorem cons_eq_concat {x : α} {list : List α} : x :: list = list ++ [x] ↔ ∀ y ∈ list, y = x := by
  induction list with
  | nil => simp
  | cons y list ih =>
      rw [List.cons_append, List.cons.injEq, List.forall_mem_cons]
      constructor
      · rintro ⟨rfl, rest⟩
        exact ⟨rfl, ih.mp rest⟩
      · rintro ⟨rfl, rest⟩
        exact ⟨rfl, ih.mpr rest⟩

theorem moveLast_of_end {table : List α} {i : Nat} (ends : i + 1 = table.length) (entry : α) :
    moveLast table i entry = table.set i entry := by
  rw [moveLast, List.drop_eq_nil_of_le (by omega), List.getLast?_nil]

theorem moveLast_of_lt {table : List α} {i : Nat} {last : α} (more : i + 1 < table.length)
    (ends : table[table.length - 1]? = some last) (entry : α) :
    moveLast table i entry = (table.set i last).set (table.length - 1) entry := by
  have final : (table.drop (i + 1)).getLast? = some last := by
    rw [List.getLast?_drop, if_neg (by omega), List.getLast?_eq_getElem?, ends]
  rw [moveLast, final]

theorem map_moveLast {β : Type} (f : α → β) (table : List α) (i : Nat) (entry : α) :
    (moveLast table i entry).map f = moveLast (table.map f) i (f entry) := by
  rw [moveLast, moveLast, ← List.map_drop, List.getLast?_map]
  cases (table.drop (i + 1)).getLast? with
  | none => exact List.map_set
  | some last =>
      rw [Option.map_some, List.length_map, List.map_set, List.map_set]

/-- The moved row comes last. -/
theorem moveLast_concat {table : List α} {i : Nat} (row : i < table.length) (entry : α) :
    ∃ others, moveLast table i entry = others ++ [entry] := by
  rcases Nat.eq_or_lt_of_le (Nat.succ_le_of_lt row) with ends | more
  · rw [moveLast_of_end ends]
    refine ⟨table.take i, ?_⟩
    rw [List.set_eq_take_append_cons_drop, if_pos row, List.drop_eq_nil_of_le (by omega)]
  · have inside : table.length - 1 < table.length := by omega
    rw [moveLast_of_lt more (List.getElem?_eq_getElem inside)]
    refine ⟨(table.set i table[table.length - 1]).take (table.length - 1), ?_⟩
    rw [List.set_eq_take_append_cons_drop, if_pos (by rw [List.length_set]; omega),
      List.drop_eq_nil_of_le (by rw [List.length_set]; omega)]

/-- Of the rows that `keep` keeps, the moved one comes last, and the others stay in order exactly
where the row it changed places with is not kept or equals every kept one it went past. -/
theorem filter_moveLast_iff {keep : α → Bool} {table : List α} {i : Nat} {old entry : α}
    (found : table[i]? = some old) (dropped : keep old = false) (kept : keep entry = true) :
    (moveLast table i entry).filter keep = table.filter keep ++ [entry] ↔
      ∀ last ∈ table.getLast?, keep last = true →
        ∀ row ∈ table.drop (i + 1), keep row = true → row = last := by
  obtain ⟨short, here⟩ := List.getElem?_eq_some_iff.mp found
  have split : table = table.take i ++ old :: table.drop (i + 1) := by
    rw [← here, ← List.drop_eq_getElem_cons short, List.take_append_drop]
  have count : (table.take i).length = i := by
    rw [List.length_take]
    omega
  generalize table.take i = before at split count
  generalize table.drop (i + 1) = after at split
  subst split count
  rcases after.eq_nil_or_concat' with rfl | ⟨middle, last, rfl⟩
  · rw [moveLast_end]
    simp [List.filter_append, kept, dropped]
  · rw [moveLast_swap]
    have ends : (before ++ old :: (middle ++ [last])).getLast? = some last := by
      rw [← List.cons_append, ← List.append_assoc, List.getLast?_concat]
    rw [ends]
    simp only [Option.mem_some_iff, forall_eq', List.filter_append, List.filter_cons, dropped, kept,
      Bool.false_eq_true, if_false, if_true, List.filter_nil, List.append_assoc,
      List.append_cancel_left_eq]
    cases keeps : keep last with
    | false => simp
    | true =>
        have shown : last :: (middle.filter keep ++ [entry]) =
            middle.filter keep ++ ([last] ++ [entry]) ↔
            last :: middle.filter keep = middle.filter keep ++ [last] := by
          rw [← List.append_assoc, ← List.cons_append, List.append_cancel_right_eq]
        rw [if_pos rfl, if_pos rfl, shown, cons_eq_concat]
        simp only [List.mem_filter, List.mem_append, List.mem_singleton, forall_const]
        constructor
        · rintro all row (member | rfl) good
          · exact all row ⟨member, good⟩
          · rfl
        · exact fun all row member => all row (Or.inl member.1) member.2

end

/-! ### Searching upwards -/

/-- The first success from `start` on. -/
theorem findSome?_range'_eq_some {α : Type} {f : Nat → Option α} {start count : Nat} {found : α} :
    (List.range' start count).findSome? f = some found ↔
      ∃ i, start ≤ i ∧ i < start + count ∧ f i = some found ∧
        ∀ j, start ≤ j → j < i → f j = none := by
  induction count generalizing start with
  | zero =>
      constructor
      · intro impossible
        cases impossible
      · rintro ⟨i, low, high, _⟩
        omega
  | succ count ih =>
      rw [List.range'_succ, List.findSome?_cons]
      cases here : f start with
      | some value =>
          constructor
          · intro same
            refine ⟨start, Nat.le_refl start, by omega, ?_, fun j low high => by omega⟩
            rw [here, ← same]
          · rintro ⟨i, low, _, held, before⟩
            rcases Nat.eq_or_lt_of_le low with rfl | later
            · rw [here] at held
              exact held
            · have none := before start (Nat.le_refl start) later
              rw [here] at none
              cases none
      | none =>
          rw [ih]
          constructor
          · rintro ⟨i, after, high, held, before⟩
            refine ⟨i, by omega, by omega, held, fun j low above => ?_⟩
            rcases Nat.eq_or_lt_of_le low with rfl | later
            · exact here
            · exact before j later above
          · rintro ⟨i, low, high, held, before⟩
            have other : i ≠ start := by
              rintro rfl
              rw [here] at held
              cases held
            exact ⟨i, by omega, by omega, held, fun j low high => before j (by omega) high⟩

end Onelf.Lib
