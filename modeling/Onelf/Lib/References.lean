import Onelf.Lib.Text
import Onelf.Lib.Utf8

/-! `${NAME}` and `${NAME:-word}` references in a text: a text is a run of letters and closed
references, and what is read off it from the left is read piece by piece. -/

namespace Onelf.Lib

def dollar : UInt8 := 36
def openBrace : UInt8 := 123
def closeBrace : UInt8 := 125

theorem splitOnce_eq_none {sep : UInt8} {text : Bytes} : splitOnce sep text = none ↔ sep ∉ text := by
  induction text with
  | nil => simp [splitOnce]
  | cons byte text ih =>
      rw [splitOnce, List.mem_cons, not_or]
      split
      · next same => simp [same]
      · next other => simp [Ne.symm other, ih]

/-- `text` begins a reference, closed or not. -/
def Opens (text : Bytes) : Prop := [dollar, openBrace] <+: text

instance (text : Bytes) : Decidable (Opens text) :=
  inferInstanceAs (Decidable ([dollar, openBrace] <+: text))

/-- What lies between the braces of the closed reference at the front. -/
def reference (text : Bytes) : Option Bytes :=
  if Opens text then (splitOnce closeBrace (text.drop 2)).map Prod.fst else none

/-- The text of a reference. -/
def referenceText (token : Bytes) : Bytes := dollar :: openBrace :: (token ++ [closeBrace])

theorem reference_append {token : Bytes} (closed : closeBrace ∉ token) (rest : Bytes) :
    reference (referenceText token ++ rest) = some token := by
  have opens : Opens (referenceText token ++ rest) := ⟨token ++ [closeBrace] ++ rest, rfl⟩
  have inner : (referenceText token ++ rest).drop 2 = token ++ closeBrace :: rest :=
    List.append_assoc token [closeBrace] rest
  rw [reference, if_pos opens, inner, splitOnce_append closed]
  rfl

theorem reference_eq_some {text token : Bytes} (found : reference text = some token) :
    closeBrace ∉ token ∧ ∃ rest, text = referenceText token ++ rest := by
  rw [reference] at found
  split at found
  · next opens =>
      rcases opens with ⟨inner, same⟩
      rw [← same] at found
      rcases Option.map_eq_some_iff.mp found with ⟨⟨token', rest⟩, split, first⟩
      rw [← first]
      have parts := splitOnce_eq_some.mp split
      have whole : inner = token' ++ closeBrace :: rest := parts.2
      refine ⟨parts.1, rest, ?_⟩
      rw [← same, whole, referenceText]
      simp
  · cases found

/-- Where no reference is closed at the front, either none opens there or nothing closes it. -/
theorem reference_eq_none {text : Bytes} (missing : reference text = none) (opens : Opens text) :
    splitOnce closeBrace (text.drop 2) = none := by
  rw [reference, if_pos opens] at missing
  exact Option.map_eq_none_iff.mp missing

/-- A text is empty, or begins with a closed reference, or with a byte that begins none. -/
theorem references_induction {motive : Bytes → Prop} (nil : motive [])
    (token : ∀ token rest, closeBrace ∉ token → motive rest → motive (referenceText token ++ rest))
    (letter : ∀ byte rest, reference (byte :: rest) = none → motive rest → motive (byte :: rest))
    (text : Bytes) : motive text := by
  induction n : text.length using Nat.strong_induction_on generalizing text with
  | h n ih =>
      cases text with
      | nil => exact nil
      | cons byte rest =>
          cases found : reference (byte :: rest) with
          | none =>
              refine letter byte rest found (ih rest.length ?_ rest rfl)
              rw [← n]
              exact Nat.lt_succ_self _
          | some inner =>
              rcases reference_eq_some found with ⟨closed, after, same⟩
              rw [same]
              refine token inner after closed (ih after.length ?_ after rfl)
              rw [← n, same, List.length_append]
              exact Nat.lt_add_of_pos_left (Nat.succ_pos _)

/-! ### The word after a name -/

/-- `split_once(":-")`: a reference's name and the word it falls back on. -/
def splitDefault : Bytes → Bytes × Option Bytes
  | [] => ([], none)
  | byte :: token =>
      if [58, 45] <+: byte :: token then ([], some (token.drop 1))
      else (byte :: (splitDefault token).1, (splitDefault token).2)

theorem mem_splitDefault {token : Bytes} {byte : UInt8}
    (member : byte ∈ (splitDefault token).1 ∨ byte ∈ (splitDefault token).2.getD []) :
    byte ∈ token := by
  induction token with
  | nil =>
      rcases member with member | member
      · cases member
      · cases member
  | cons first token ih =>
      rw [splitDefault] at member
      split at member
      · rcases member with member | member
        · cases member
        · exact List.mem_cons_of_mem _ (List.mem_of_mem_drop member)
      · rcases member with member | member
        · rcases List.mem_cons.mp member with same | member
          · rw [same]
            exact List.mem_cons_self
          · exact List.mem_cons_of_mem _ (ih (Or.inl member))
        · exact List.mem_cons_of_mem _ (ih (Or.inr member))

/-- A word stands behind the name and its `:-`. -/
theorem splitDefault_word {token word : Bytes} (found : (splitDefault token).2 = some word) :
    token = (splitDefault token).1 ++ 58 :: 45 :: word := by
  induction token with
  | nil => cases found
  | cons byte token ih =>
      rw [splitDefault] at found ⊢
      split at found
      · next mark =>
          rcases mark with ⟨rest, same⟩
          rw [if_pos ⟨rest, same⟩]
          rcases List.cons.inj same with ⟨first, second⟩
          rw [← second] at found ⊢
          rw [← first, ← Option.some.inj found]
          rfl
      · next bare =>
          rw [if_neg bare]
          exact congrArg (byte :: ·) (ih found)

/-! ### Reading piece by piece -/

section
variable {α : Type} (give : Bytes → List α) (keep : UInt8 → List α)

/-- What `give` makes of each closed reference, from the left, and `keep` of each byte outside one;
`skip` bytes belong to a reference already given. -/
def scanFrom : Nat → Bytes → List α
  | _, [] => []
  | skip + 1, _ :: rest => scanFrom skip rest
  | 0, byte :: rest =>
      match reference (byte :: rest) with
      | some token => give token ++ scanFrom (token.length + 2) rest
      | none => keep byte ++ scanFrom 0 rest

def scan (text : Bytes) : List α := scanFrom give keep 0 text

theorem scanFrom_eq (skip : Nat) (text : Bytes) :
    scanFrom give keep skip text = scan give keep (text.drop skip) := by
  induction text generalizing skip with
  | nil =>
      rw [List.drop_nil]
      cases skip with
      | zero => rfl
      | succ skip => rfl
  | cons byte text ih =>
      cases skip with
      | zero => rfl
      | succ skip => exact ih skip

@[simp] theorem scan_nil : scan give keep [] = [] := rfl

theorem scan_reference {token : Bytes} (closed : closeBrace ∉ token) (rest : Bytes) :
    scan give keep (referenceText token ++ rest) = give token ++ scan give keep rest := by
  have found := reference_append closed rest
  have behind : (openBrace :: (token ++ [closeBrace]) ++ rest).drop (token.length + 2) = rest :=
    List.drop_left' (by simp)
  rw [referenceText, List.cons_append] at found ⊢
  rw [scan, scanFrom, found]
  calc give token ++ scanFrom give keep (token.length + 2) _
      = give token ++ scan give keep (List.drop (token.length + 2) _) := by rw [scanFrom_eq]
    _ = give token ++ scan give keep rest := by rw [behind]

theorem scan_letter {byte : UInt8} {rest : Bytes} (bare : reference (byte :: rest) = none) :
    scan give keep (byte :: rest) = keep byte ++ scan give keep rest := by
  rw [scan, scanFrom, bare]
  rfl

end

/-- The tokens of the closed references of a text. -/
def tokens (text : Bytes) : List Bytes := scan (fun token => [token]) (fun _ => []) text

/-- The names that the closed references of a text give. -/
def names (text : Bytes) : List Bytes := (tokens text).map fun token => (splitDefault token).1

/-- Only what is given for the tokens of a text counts. -/
theorem scan_congr {α : Type} {give give' : Bytes → List α} {keep : UInt8 → List α} {text : Bytes}
    (same : ∀ token ∈ tokens text, give token = give' token) :
    scan give keep text = scan give' keep text := by
  induction text using references_induction with
  | nil => rfl
  | token token rest closed ih =>
      have listed : tokens (referenceText token ++ rest) = token :: tokens rest :=
        scan_reference _ _ closed rest
      rw [listed, List.forall_mem_cons] at same
      rw [scan_reference give keep closed, scan_reference give' keep closed, same.1, ih same.2]
  | letter byte rest bare ih =>
      have listed : tokens (byte :: rest) = tokens rest := scan_letter _ _ bare
      rw [listed] at same
      rw [scan_letter give keep bare, scan_letter give' keep bare, ih same]

/-- Nothing is closed where no brace closes. -/
theorem tokens_unclosed {text : Bytes} (unclosed : closeBrace ∉ text) : tokens text = [] := by
  induction text using references_induction with
  | nil => rfl
  | token token rest closed ih =>
      have member : closeBrace ∈ referenceText token ++ rest := by simp [referenceText]
      exact absurd member unclosed
  | letter byte rest bare ih =>
      have listed : tokens (byte :: rest) = tokens rest := scan_letter _ _ bare
      rw [listed]
      exact ih fun member => unclosed (List.mem_cons_of_mem _ member)

/-- A reference begins and ends between characters. -/
theorem run_referenceText {state : Utf8State} {token rest : Bytes} {final : Utf8State}
    (ran : state.run (referenceText token ++ rest) = some final) :
    state = .start ∧ validUtf8 token = true ∧ Utf8State.start.run rest = some final := by
  have whole : referenceText token ++ rest =
      dollar :: openBrace :: (token ++ closeBrace :: rest) := by simp [referenceText]
  rw [whole, Utf8State.run_cons, Utf8State.step_ascii (by decide)] at ran
  by_cases between : state = .start
  · rw [if_pos between, Option.bind_some, Utf8State.run_cons, Utf8State.step_ascii (by decide),
      if_pos rfl, Option.bind_some, Utf8State.run_append] at ran
    rcases Option.bind_eq_some_iff.mp ran with ⟨next, inner, behind⟩
    rw [Utf8State.run_cons, Utf8State.step_ascii (by decide)] at behind
    by_cases ended : next = .start
    · rw [ended] at inner
      rw [if_pos ended, Option.bind_some] at behind
      exact ⟨between, validUtf8_iff.mpr inner, behind⟩
    · rw [if_neg ended] at behind
      cases behind
  · rw [if_neg between] at ran
    cases ran

theorem run_scan {give : Bytes → Bytes} {text : Bytes} {state final : Utf8State}
    (ran : state.run text = some final)
    (gives : ∀ token ∈ tokens text, validUtf8 token = true → validUtf8 (give token) = true) :
    state.run (scan give (fun byte => [byte]) text) = some final := by
  induction text using references_induction generalizing state with
  | nil => exact ran
  | token token rest closed ih =>
      have listed : tokens (referenceText token ++ rest) = token :: tokens rest :=
        scan_reference _ _ closed rest
      rw [listed, List.forall_mem_cons] at gives
      rcases run_referenceText ran with ⟨between, valid, behind⟩
      rw [scan_reference _ _ closed, Utf8State.run_append, between,
        validUtf8_iff.mp (gives.1 valid)]
      exact ih behind gives.2
  | letter byte rest bare ih =>
      have listed : tokens (byte :: rest) = tokens rest := scan_letter _ _ bare
      rw [listed] at gives
      rw [Utf8State.run_cons] at ran
      rcases Option.bind_eq_some_iff.mp ran with ⟨next, step, behind⟩
      rw [scan_letter _ _ bare, List.singleton_append, Utf8State.run_cons, step]
      exact ih behind gives

/-- What is scanned off UTF-8 is UTF-8 when what is given for its tokens is. -/
theorem scan_valid {give : Bytes → Bytes} {text : Bytes} (valid : validUtf8 text = true)
    (gives : ∀ token ∈ tokens text, validUtf8 token = true → validUtf8 (give token) = true) :
    validUtf8 (scan give (fun byte => [byte]) text) = true :=
  validUtf8_iff.mpr (run_scan (validUtf8_iff.mp valid) gives)

/-- What is scanned off a text keeps what every token and every byte outside one brings along. -/
theorem scan_induction {α : Type} {motive : List α → Prop} {give : Bytes → List α}
    {keep : UInt8 → List α} {text : Bytes} (nil : motive [])
    (append : ∀ left right, motive left → motive right → motive (left ++ right))
    (gives : ∀ token ∈ tokens text, (∀ byte ∈ token, byte ∈ text) → motive (give token))
    (keeps : ∀ byte ∈ text, motive (keep byte)) : motive (scan give keep text) := by
  induction text using references_induction with
  | nil => exact nil
  | token token rest closed ih =>
      rw [scan_reference give keep closed]
      have listed : tokens (referenceText token ++ rest) = token :: tokens rest :=
        scan_reference _ _ closed rest
      rw [listed] at gives
      have inside : ∀ byte ∈ rest, byte ∈ referenceText token ++ rest :=
        fun byte member => List.mem_append_right _ member
      refine append _ _ (gives token List.mem_cons_self ?_) (ih ?_ ?_)
      · intro byte member
        exact List.mem_append_left _
          (List.mem_cons_of_mem _ (List.mem_cons_of_mem _ (List.mem_append_left _ member)))
      · intro other member within
        exact gives other (List.mem_cons_of_mem _ member) fun byte held => inside byte (within byte held)
      · intro byte member
        exact keeps byte (inside byte member)
  | letter byte rest bare ih =>
      rw [scan_letter give keep bare]
      have listed : tokens (byte :: rest) = tokens rest := scan_letter _ _ bare
      rw [listed] at gives
      refine append _ _ (keeps byte List.mem_cons_self) (ih ?_ ?_)
      · intro other member within
        exact gives other member fun held inside => List.mem_cons_of_mem _ (within held inside)
      · intro other member
        exact keeps other (List.mem_cons_of_mem _ member)

end Onelf.Lib
