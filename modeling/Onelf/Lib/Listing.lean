import Onelf.Lib.Bytes

/-! Listings read in pages: records in bytes one after another, pages filled up to a size, and
readers of a listing that grows between their pages. -/

namespace Onelf.Lib

/-! ### Fields and records -/

/-- Reads from the front of the bytes and leaves the rest. -/
abbrev Get := StateT Bytes Option

namespace Get

def take (count : Nat) : Get Bytes := fun bytes =>
  if count ≤ bytes.length then some (bytes.take count, bytes.drop count) else none

def number (width : Nat) : Get Nat := do
  let bytes ← take width
  pure (ofLeBytes bytes)

/-- `reader` takes `bytes` off the front, whatever follows them, and returns `value`. -/
def Takes {α : Type} (reader : Get α) (bytes : Bytes) (value : α) : Prop :=
  ∀ rest, reader (bytes ++ rest) = some (value, rest)

theorem take_takes {count : Nat} {bytes : Bytes} (length : bytes.length = count) :
    Takes (take count) bytes bytes := by
  intro rest
  rw [take, if_pos (by rw [List.length_append]; omega), List.take_left' length,
    List.drop_left' length]

theorem Takes.bind {α β : Type} {reader : Get α} {next : α → Get β} {bytes more : Bytes}
    {value : α} {result : β} (first : reader.Takes bytes value)
    (second : (next value).Takes more result) : (reader >>= next).Takes (bytes ++ more) result := by
  intro rest
  rw [List.append_assoc]
  change (reader (bytes ++ (more ++ rest))).bind (fun pair => next pair.1 pair.2) = _
  rw [first, Option.bind_some, second]

theorem pure_takes {α : Type} (value : α) : Takes (pure value : Get α) [] value := fun _ => rfl

theorem number_takes {width n : Nat} (fits : n < 256 ^ width) :
    Takes (number width) (leBytes width n) n := by
  have read : Takes (number width) (leBytes width n ++ []) (ofLeBytes (leBytes width n)) :=
    (take_takes (length_leBytes width n)).bind (pure_takes _)
  rwa [List.append_nil, ofLeBytes_leBytes width n fits] at read

/-- Record after record, until none is left whole. -/
def records {α : Type} (reader : Get α) : Nat → Bytes → List α
  | 0, _ => []
  | fuel + 1, bytes =>
      match reader bytes with
      | none => []
      | some (value, rest) => value :: records reader fuel rest

theorem records_flatMap {α β : Type} {reader : Get β} {render : α → Bytes} {back : α → β}
    {values : List α} (each : ∀ value ∈ values, reader.Takes (render value) (back value))
    (stops : reader [] = none) {fuel : Nat} (enough : values.length ≤ fuel) :
    records reader fuel (values.flatMap render) = values.map back := by
  induction values generalizing fuel with
  | nil =>
      cases fuel with
      | zero => rfl
      | succ fuel =>
          rw [List.flatMap_nil, records, stops]
          rfl
  | cons value values ih =>
      rw [List.forall_mem_cons] at each
      cases fuel with
      | zero => cases enough
      | succ fuel =>
          have rest := ih each.2 (Nat.le_of_succ_le_succ enough)
          rw [List.flatMap_cons, records, each.1]
          change back value :: records reader fuel (values.flatMap render) = _
          rw [rest, List.map_cons]

end Get

/-! ### Pages -/

section Pages

variable {α : Type} (size : α → Nat) (room : Nat)

/-- The rows that fit in `room` behind the first `used`, up to the first that does not. -/
def fill : Nat → List α → List α
  | _, [] => []
  | used, row :: rows =>
      if used + size row > room then [] else row :: fill (used + size row) rows

theorem fill_isPrefix (used : Nat) (rows : List α) : fill size room used rows <+: rows := by
  induction rows generalizing used with
  | nil => exact List.nil_prefix
  | cons row rows ih =>
      rw [fill]
      split
      · exact List.nil_prefix
      · exact (List.prefix_cons_inj row).mpr (ih _)

/-- A page is empty only where nothing is left, once any row fits in it. -/
theorem fill_eq_nil {rows : List α} (fits : ∀ row ∈ rows, size row ≤ room) :
    fill size room 0 rows = [] ↔ rows = [] := by
  cases rows with
  | nil => exact iff_of_true rfl rfl
  | cons row rows =>
      have first := fits row List.mem_cons_self
      rw [fill, if_neg (by omega)]
      exact iff_of_false (List.cons_ne_nil _ _) (List.cons_ne_nil _ _)

end Pages

/-- The rows from a place on are those at the places from there on. -/
theorem filterMap_getElem? {α : Type} (listing : List α) (start : Nat) :
    (List.range' start (listing.length - start)).filterMap (fun i => listing[i]?) =
      listing.drop start := by
  induction left : listing.length - start generalizing start with
  | zero => rw [List.drop_eq_nil_of_le (by omega), List.range'_zero, List.filterMap_nil]
  | succ count ih =>
      have inside : start < listing.length := by omega
      rw [List.range'_succ, List.filterMap_cons_some (List.getElem?_eq_getElem inside),
        ih (start + 1) (by omega), ← List.drop_eq_getElem_cons inside]

/-! ### Readers -/

/-- How far a reader of a listing is, and the labels it has been given. -/
structure PageReader (β : Type) where
  offset : Nat
  labels : List β

namespace PageReader

variable {β : Type}

def start : PageReader β := ⟨0, []⟩

def advance (reading : PageReader β) (page : List β) : PageReader β :=
  ⟨reading.offset + page.length, reading.labels ++ page⟩

/-- What the reader was given is the listing up to where it is. -/
def Follows (reading : PageReader β) (listing : List β) : Prop :=
  reading.offset ≤ listing.length ∧ reading.labels = listing.take reading.offset

variable {reading : PageReader β} {listing later : List β}

theorem start_follows (listing : List β) : start.Follows listing :=
  ⟨Nat.zero_le _, (List.take_zero).symm⟩

theorem Follows.isPrefix (follows : reading.Follows listing) : reading.labels <+: listing := by
  rw [follows.2]
  exact List.take_prefix _ _

/-- A listing that only grows at its end is still followed. -/
theorem Follows.grow (follows : reading.Follows listing) (grows : listing <+: later) :
    reading.Follows later := by
  rcases grows with ⟨more, rfl⟩
  refine ⟨?_, ?_⟩
  · rw [List.length_append]
    exact follows.1.trans (Nat.le_add_right _ _)
  · rw [List.take_append_of_le_length follows.1]
    exact follows.2

theorem Follows.advance (follows : reading.Follows listing) {page : List β}
    (next : page <+: listing.drop reading.offset) : (reading.advance page).Follows listing := by
  rcases next with ⟨rest, split⟩
  have whole : listing = reading.labels ++ (page ++ rest) := by
    rw [follows.2, split, List.take_append_drop]
  have far : reading.labels.length = reading.offset := by
    rw [follows.2, List.length_take]
    exact Nat.min_eq_left follows.1
  refine ⟨?_, ?_⟩
  · rw [whole, PageReader.advance]
    simp only [List.length_append]
    omega
  · change reading.labels ++ page = listing.take (reading.offset + page.length)
    rw [whole, ← List.append_assoc]
    exact (List.take_left' (by rw [List.length_append, far])).symm

/-- A reader with nothing left in front of it has been given the whole listing. -/
theorem Follows.whole_iff (follows : reading.Follows listing) :
    listing.drop reading.offset = [] ↔ reading.labels = listing := by
  rw [List.drop_eq_nil_iff, follows.2]
  constructor
  · exact List.take_of_length_le
  · intro whole
    have length := congrArg List.length whole
    rw [List.length_take] at length
    omega

end PageReader

end Onelf.Lib
