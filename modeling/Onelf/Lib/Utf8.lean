import Onelf.Lib.Bytes

/-! UTF-8 as a byte automaton: validity and lossy display. -/

namespace Onelf.Lib

/-- What the bytes read so far still owe. -/
inductive Utf8State where
  | start
  | last
  | two
  | three
  | afterE0
  | afterED
  | afterF0
  | afterF4
  deriving DecidableEq

namespace Utf8State

def within (low high byte : UInt8) (next : Utf8State) : Option Utf8State :=
  if low ≤ byte && byte ≤ high then some next else none

def lead (byte : UInt8) : Option Utf8State :=
  if byte < 0x80 then some start
  else if byte < 0xC2 then none
  else if byte ≤ 0xDF then some last
  else if byte = 0xE0 then some afterE0
  else if byte = 0xED then some afterED
  else if byte ≤ 0xEF then some two
  else if byte = 0xF0 then some afterF0
  else if byte ≤ 0xF3 then some three
  else if byte = 0xF4 then some afterF4
  else none

def step : Utf8State → UInt8 → Option Utf8State
  | start, byte => lead byte
  | last, byte => within 0x80 0xBF byte start
  | two, byte => within 0x80 0xBF byte last
  | three, byte => within 0x80 0xBF byte two
  | afterE0, byte => within 0xA0 0xBF byte last
  | afterED, byte => within 0x80 0x9F byte last
  | afterF0, byte => within 0x90 0xBF byte two
  | afterF4, byte => within 0x80 0x8F byte two

def run (state : Utf8State) (bytes : Bytes) : Option Utf8State := bytes.foldlM step state

theorem run_append (state : Utf8State) (left right : Bytes) :
    state.run (left ++ right) = (state.run left).bind fun next => next.run right :=
  List.foldlM_append

@[simp] theorem run_nil (state : Utf8State) : state.run [] = some state := rfl

@[simp] theorem run_cons (state : Utf8State) (byte : UInt8) (bytes : Bytes) :
    state.run (byte :: bytes) = (state.step byte).bind fun next => next.run bytes := rfl

theorem within_ascii {low high byte : UInt8} {next : Utf8State} (ascii : byte < 0x80)
    (above : 0x80 ≤ low) : within low high byte next = none := by
  have below : ¬ low ≤ byte := not_le.mpr (lt_of_lt_of_le ascii above)
  simp [within, below]

/-- An ASCII byte only ever stands between characters. -/
theorem step_ascii {state : Utf8State} {byte : UInt8} (ascii : byte < 0x80) :
    state.step byte = if state = start then some start else none := by
  cases state with
  | start => simp [step, lead, ascii]
  | last => exact within_ascii ascii (by decide)
  | two => exact within_ascii ascii (by decide)
  | three => exact within_ascii ascii (by decide)
  | afterE0 => exact within_ascii ascii (by decide)
  | afterED => exact within_ascii ascii (by decide)
  | afterF0 => exact within_ascii ascii (by decide)
  | afterF4 => exact within_ascii ascii (by decide)

end Utf8State

/-- `std::str::from_utf8` accepts `bytes`. -/
def validUtf8 (bytes : Bytes) : Bool := Utf8State.start.run bytes = some .start

theorem validUtf8_iff {bytes : Bytes} :
    validUtf8 bytes = true ↔ Utf8State.start.run bytes = some .start := by
  simp [validUtf8]

theorem validUtf8_append {left right : Bytes} (first : validUtf8 left) (second : validUtf8 right) :
    validUtf8 (left ++ right) := by
  rw [validUtf8_iff] at *
  rw [Utf8State.run_append, first]
  exact second

/-- Text splits at an ASCII separator into text on both sides. -/
theorem validUtf8_split {left right : Bytes} {sep : UInt8} (ascii : sep < 0x80) :
    validUtf8 (left ++ sep :: right) = true ↔ validUtf8 left = true ∧ validUtf8 right = true := by
  simp only [validUtf8_iff, Utf8State.run_append, Utf8State.run_cons, Utf8State.step_ascii ascii]
  cases Utf8State.start.run left with
  | none => simp
  | some state => by_cases same : state = .start <;> simp [same]

theorem validUtf8_of_ascii {bytes : Bytes} (ascii : ∀ byte ∈ bytes, byte < 0x80) :
    validUtf8 bytes := by
  rw [validUtf8_iff]
  induction bytes with
  | nil => rfl
  | cons byte bytes ih =>
      rw [Utf8State.run_cons, Utf8State.step_ascii (ascii byte List.mem_cons_self)]
      exact ih fun other member => ascii other (List.mem_cons_of_mem _ member)

theorem validUtf8_intercalate {sep : UInt8} (ascii : sep < 0x80) {parts : List Bytes} :
    validUtf8 ([sep].intercalate parts) = true ↔ ∀ part ∈ parts, validUtf8 part = true := by
  induction parts with
  | nil => simp [validUtf8]
  | cons first rest ih =>
      cases rest with
      | nil => simp
      | cons second rest =>
          rw [List.intercalate_cons_cons, List.append_assoc, List.singleton_append,
            validUtf8_split ascii, ih]
          exact (List.forall_mem_cons (p := fun part => validUtf8 part = true)).symm

/-- Rust's `String`: bytes that are UTF-8. -/
@[ext] structure Text where
  bytes : Bytes
  valid : validUtf8 bytes = true
  deriving DecidableEq

/-- `std::str::from_utf8`. -/
def fromUtf8 (bytes : Bytes) : Option Text :=
  if valid : validUtf8 bytes = true then some ⟨bytes, valid⟩ else none

theorem fromUtf8_eq_some {bytes : Bytes} {text : Text} :
    fromUtf8 bytes = some text ↔ text.bytes = bytes := by
  rw [fromUtf8]
  split
  · rw [Option.some.injEq, Text.ext_iff, eq_comm]
  · next invalid =>
      refine ⟨nofun, ?_⟩
      rintro rfl
      exact absurd text.valid invalid

def emptyText : Text := ⟨[], rfl⟩

/-- `join` with an ASCII separator. -/
def joinText (sep : UInt8) (ascii : sep < 0x80) (parts : List Text) : Text where
  bytes := [sep].intercalate (parts.map Text.bytes)
  valid := by
    rw [validUtf8_intercalate ascii]
    intro part member
    rcases List.mem_map.mp member with ⟨text, _, same⟩
    exact same ▸ text.valid

instance : LinearOrder Text := LinearOrder.lift' Text.bytes fun _ _ => Text.ext

/-- U+FFFD. -/
def replacement : Bytes := [0xEF, 0xBF, 0xBD]

/-- The display of `bytes`, with `held` the start of an unfinished character. Each maximal
ill-formed piece shows as one replacement character. -/
def lossyFrom (state : Utf8State) (held : Bytes) : Bytes → Bytes
  | [] => if held.isEmpty then [] else replacement
  | byte :: bytes =>
      match state.step byte with
      | some .start => held ++ byte :: lossyFrom .start [] bytes
      | some next => lossyFrom next (held ++ [byte]) bytes
      | none =>
          if held.isEmpty then replacement ++ lossyFrom .start [] bytes
          else replacement ++
            match Utf8State.lead byte with
            | some .start => byte :: lossyFrom .start [] bytes
            | some next => lossyFrom next [byte] bytes
            | none => replacement ++ lossyFrom .start [] bytes

/-- `Path::display` and `OsStr::to_string_lossy`. -/
def lossy (bytes : Bytes) : Bytes := lossyFrom .start [] bytes

theorem lossyFrom_valid {state : Utf8State} {held bytes : Bytes}
    (fresh : state = .start → held = []) (whole : state.run bytes = some .start) :
    lossyFrom state held bytes = held ++ bytes := by
  induction bytes generalizing state held with
  | nil =>
      have none : held = [] := fresh (Option.some.inj whole)
      simp [lossyFrom, none]
  | cons byte bytes ih =>
      rw [Utf8State.run_cons] at whole
      obtain ⟨next, stepped, rest⟩ := Option.bind_eq_some_iff.mp whole
      simp only [lossyFrom, stepped]
      split
      · next heq =>
          rw [Option.some.inj heq] at rest
          rw [ih (fun _ => rfl) rest, List.nil_append]
      · next other heq =>
          have unfinished : next ≠ .start := fun back =>
            other ((Option.some.inj heq).symm.trans back)
          rw [← Option.some.inj heq, ih (fun back => absurd back unfinished) rest,
            List.append_assoc]
          rfl
      · next heq => cases heq

/-- Whatever the bytes, their display is UTF-8. -/
theorem validUtf8_lossyFrom {state : Utf8State} {held : Bytes} (bytes : Bytes)
    (reached : Utf8State.start.run held = some state) :
    validUtf8 (lossyFrom state held bytes) = true := by
  induction bytes generalizing state held with
  | nil =>
      rw [lossyFrom]
      split
      · rfl
      · rfl
  | cons byte bytes ih =>
      have further {next : Utf8State} (stepped : state.step byte = some next) :
          Utf8State.start.run (held ++ [byte]) = some next := by
        rw [Utf8State.run_append, reached, Option.bind_some, Utf8State.run_cons, stepped]
        rfl
      have begun {next : Utf8State} (led : Utf8State.lead byte = some next) :
          Utf8State.start.run [byte] = some next := by
        rw [Utf8State.run_cons, Utf8State.step, led]
        rfl
      have again : validUtf8 (lossyFrom .start [] bytes) = true := ih rfl
      have shown : validUtf8 replacement = true := rfl
      have instead := validUtf8_append shown again
      rw [lossyFrom]
      split
      · next stepped =>
          rw [← List.singleton_append, ← List.append_assoc]
          exact validUtf8_append (validUtf8_iff.mpr (further stepped)) again
      · next stepped => exact ih (further stepped)
      · split
        · exact instead
        · apply validUtf8_append shown
          split
          · next led =>
              rw [← List.singleton_append]
              exact validUtf8_append (validUtf8_iff.mpr (begun led)) again
          · next led => exact ih (begun led)
          · exact instead

theorem validUtf8_lossy (bytes : Bytes) : validUtf8 (lossy bytes) = true :=
  validUtf8_lossyFrom bytes rfl

theorem lossy_of_validUtf8 {bytes : Bytes} (valid : validUtf8 bytes) : lossy bytes = bytes :=
  lossyFrom_valid (fun _ => rfl) (validUtf8_iff.mp valid)

def lossyText (bytes : Bytes) : Text := ⟨lossy bytes, validUtf8_lossy bytes⟩

end Onelf.Lib
