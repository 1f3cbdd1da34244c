import Onelf.Payloads.RuntimeEnv
import Onelf.Runtime.ViewEnv

/-! The constructor reads back what the runtime wrote into a view. -/

namespace Onelf.Payloads

open Onelf.Lib Onelf.Runtime

/-! ### Steps of the cursor -/

theorem Cursor.bind_of_ok {α β : Type} {first : Cursor α} {after : α → Cursor β}
    {text rest : Bytes} {result : α} (read : first text = (.ok result, rest)) :
    (first >>= after) text = after result rest := by
  change (match first text with
    | (outcome, left) => ExceptT.bindCont after outcome left) = _
  rw [read]
  rfl

theorem Cursor.bind_of_error {α β : Type} {first : Cursor α} {after : α → Cursor β}
    {text rest : Bytes} {reason : Reject} (failed : first text = (.error reason, rest)) :
    (first >>= after) text = (.error reason, rest) := by
  change (match first text with
    | (outcome, left) => ExceptT.bindCont after outcome left) = _
  rw [failed]
  rfl

theorem Cursor.get_eq (rest : Bytes) : (get : Cursor Bytes) rest = (.ok rest, rest) := rfl

theorem Cursor.bind_eq_ok {α β : Type} {first : Cursor α} {after : α → Cursor β}
    {text rest : Bytes} {result : β} (read : (first >>= after) text = (.ok result, rest)) :
    ∃ middle left, first text = (.ok middle, left) ∧ after middle left = (.ok result, rest) := by
  cases outcome : first text with
  | mk verdict left =>
      cases verdict with
      | error reason =>
          rw [bind_of_error outcome] at read
          cases read
      | ok middle =>
          rw [bind_of_ok outcome] at read
          exact ⟨middle, left, rfl, read⟩

/-! ### Reading the parts of an entry -/

theorem Cursor.digitsFrom_digits {cap : Nat} {above : Reject} {digits : Bytes} (n count : Nat)
    {mark : UInt8} (rest : Bytes) (every : ∀ digit ∈ digits, isDigit digit)
    (ends : isDigit mark = false) (fits : digits.foldl pushDigit n ≤ cap) :
    digitsFrom cap above n count (digits ++ mark :: rest) =
      (.ok (digits.foldl pushDigit n, count + digits.length), mark :: rest) := by
  induction digits generalizing n count with
  | nil =>
      rw [List.nil_append, digitsFrom, if_neg (by rw [ends]; exact Bool.false_ne_true)]
      rfl
  | cons digit digits ih =>
      have within : pushDigit n digit ≤ cap :=
        Nat.le_trans (le_foldl_pushDigit digits (pushDigit n digit)) fits
      have later := ih (pushDigit n digit) (count + 1)
        (fun other member => every other (List.mem_cons_of_mem digit member)) fits
      rw [List.cons_append, digitsFrom, if_pos (every digit List.mem_cons_self),
        if_neg (Nat.not_lt.mpr within)]
      rw [List.foldl_cons, List.length_cons, Nat.add_comm digits.length 1, ← Nat.add_assoc]
      exact later

theorem Cursor.number_decimal {cap n : Nat} (missing above : Reject) (fits : n ≤ cap)
    {mark : UInt8} (ends : isDigit mark = false) (rest : Bytes) :
    number cap missing above (decimal n ++ mark :: rest) = (.ok n, mark :: rest) := by
  have value : (decimal n).foldl pushDigit 0 = n := decimalValue_decimal n
  have read : digitsFrom cap above 0 0 (decimal n ++ mark :: rest) = _ :=
    digitsFrom_digits 0 0 rest (decimal_isDigit n) ends (by rw [value]; exact fits)
  have counted : (decimal n).length ≠ 0 := fun empty =>
    decimal_ne_nil n (List.eq_nil_of_length_eq_zero empty)
  rw [value, Nat.zero_add] at read
  rw [number, bind_of_ok read, if_neg counted]
  rfl

theorem Cursor.expect_self (want : UInt8) (rest : Bytes) :
    expect want (want :: rest) = (.ok (), rest) := by
  rw [expect, if_pos rfl]

theorem Cursor.skip_cons (byte : UInt8) (rest : Bytes) : skip (byte :: rest) = (.ok (), rest) := rfl

theorem Cursor.nameFrom_append {bytes : Bytes} (start rest : Bytes) (undivided : 61 ∉ bytes)
    (terminated : 0 ∉ bytes) :
    nameFrom start (bytes ++ 61 :: rest) = (.ok (start ++ bytes), 61 :: rest) := by
  induction bytes generalizing start with
  | nil => simp [nameFrom]
  | cons byte bytes ih =>
      have plain := not_or.mp (List.mem_cons.not.mp undivided)
      have nonzero := not_or.mp (List.mem_cons.not.mp terminated)
      rw [List.cons_append, nameFrom, if_neg (Ne.symm plain.1), if_neg (Ne.symm nonzero.1),
        ih (start ++ [byte]) plain.2 nonzero.2, List.append_assoc, List.singleton_append]

theorem Cursor.name_append {bytes : Bytes} (rest : Bytes) (named : bytes ≠ [])
    (short : bytes.length ≤ maxNameBytes) (undivided : 61 ∉ bytes) (terminated : 0 ∉ bytes) :
    name (bytes ++ 61 :: rest) = (.ok bytes, 61 :: rest) := by
  have read := nameFrom_append [] rest undivided terminated
  rw [List.nil_append] at read
  rw [name, bind_of_ok read, if_neg]
  · rfl
  · simp [named, Nat.not_lt.mpr short]

theorem Cursor.value_append {bytes : Bytes} (rest : Bytes)
    (short : bytes.length ≤ maxValueBytes) (terminated : 0 ∉ bytes) :
    value (decimal bytes.length ++ 58 :: (bytes ++ rest)) = (.ok bytes, rest) := by
  have length := number_decimal .truncated .valueCap short (by decide : isDigit 58 = false)
    (bytes ++ rest)
  rw [value, bind_of_ok length, bind_of_ok (expect_self 58 (bytes ++ rest)), raw,
    if_neg (by simp), List.take_left, if_neg (by simpa using terminated), List.drop_left]

/-! ### Reading an entry, a scalar, a record -/

/-- What the constructor makes of an entry the runtime wrote. -/
def readEntry (entry : ViewEnvEntry) : ViewEntry :=
  ⟨entry.name, entry.value,
    match entry.policy with
    | .preserve => .preserve
    | .replace => .replace,
    entry.leftSet⟩

theorem fits_iff {name value : Bytes} : fitsViewEnv name value = true ↔
    name ≠ [] ∧ name.length ≤ maxNameBytes ∧ 0 ∉ name ∧ 61 ∉ name ∧
      value.length ≤ maxValueBytes ∧ 0 ∉ value := by
  -- The two crates declare the caps apart, with equal values.
  change _ ↔ name ≠ [] ∧ name.length ≤ maxViewEnvName ∧ 0 ∉ name ∧ 61 ∉ name ∧
    value.length ≤ maxViewEnvValue ∧ 0 ∉ value
  simp [fitsViewEnv, and_assoc]

theorem fitsScalar_iff {bytes : Bytes} :
    fitsScalar bytes = true ↔ bytes.length ≤ maxValueBytes ∧ 0 ∉ bytes := by
  change _ ↔ bytes.length ≤ maxViewEnvValue ∧ 0 ∉ bytes
  simp [fitsScalar]

theorem Cursor.policy_mark (inheritance : Inheritance) (rest : Bytes) :
    policy (policyMark inheritance ++ rest) = (.ok (match inheritance with
      | .preserve => .preserve
      | .replace => .replace), rest) := by
  cases inheritance with
  | preserve => rfl
  | replace => rfl

theorem Cursor.applied_mark (leftSet : Bool) (rest : Bytes) :
    applied ((if leftSet then utf8 "+" else utf8 "-") ++ rest) = (.ok leftSet, rest) := by
  cases leftSet with
  | false => rfl
  | true => rfl

/-- A terminator with its line end. -/
theorem Cursor.terminator {α : Type} (result : α) (rest : Bytes) :
    (do expect 59; lineEnd; pure result : Cursor α) (utf8 ";\n" ++ rest) = (.ok result, rest) :=
  rfl

theorem Cursor.entry_entryBytes {written : ViewEnvEntry}
    (fits : fitsViewEnv written.name written.value = true) (rest : Bytes) :
    entry (entryBytes written ++ rest) = (.ok (readEntry written), rest) := by
  rcases fits_iff.mp fits with ⟨named, short, terminated, undivided, small, whole⟩
  have split : entryBytes written ++ rest = written.name ++ 61 :: (policyMark written.policy ++
      (decimal written.value.length ++ 58 :: (written.value ++
        ((if written.leftSet then utf8 "+" else utf8 "-") ++ (utf8 ";\n" ++ rest))))) := by
    simp only [entryBytes, List.append_assoc]
    rfl
  rw [split, entry, bind_of_ok (name_append _ named short undivided terminated),
    bind_of_ok (skip_cons _ _), bind_of_ok (policy_mark _ _),
    bind_of_ok (value_append _ small whole), bind_of_ok (applied_mark _ _)]
  exact terminator _ rest

theorem Cursor.repeatEntry_flatMap {entries : List ViewEnvEntry}
    (fits : ∀ entry ∈ entries, fitsViewEnv entry.name entry.value = true) (rest : Bytes) :
    repeatEntry entries.length (entries.flatMap entryBytes ++ rest) = (.ok (), rest) := by
  induction entries with
  | nil => rfl
  | cons written entries ih =>
      have here := entry_entryBytes (fits written List.mem_cons_self)
        (entries.flatMap entryBytes ++ rest)
      rw [List.length_cons, List.flatMap_cons, List.append_assoc, repeatEntry, bind_of_ok here]
      exact ih fun other member => fits other (List.mem_cons_of_mem written member)

theorem entriesFrom_flatMap {entries : List ViewEnvEntry}
    (fits : ∀ entry ∈ entries, fitsViewEnv entry.name entry.value = true) (rest : Bytes) :
    entriesFrom entries.length (entries.flatMap entryBytes ++ rest) = entries.map readEntry := by
  induction entries with
  | nil => rfl
  | cons written entries ih =>
      have here := Cursor.entry_entryBytes (fits written List.mem_cons_self)
        (entries.flatMap entryBytes ++ rest)
      rw [List.length_cons, List.flatMap_cons, List.append_assoc, entriesFrom, here, List.map_cons]
      exact congrArg _ (ih fun other member => fits other (List.mem_cons_of_mem written member))

theorem Cursor.scalar_scalarBytes {tag : UInt8} {written : Option Bytes}
    (fits : ∀ bytes ∈ written, fitsScalar bytes = true) {rest : Bytes}
    (other : written = none → rest.head? ≠ some tag) :
    scalar tag (scalarBytes tag written ++ rest) = (.ok written, rest) := by
  cases written with
  | none => exact if_neg (other rfl)
  | some bytes =>
      rcases fitsScalar_iff.mp (fits bytes rfl) with ⟨small, whole⟩
      have split : scalarBytes tag (some bytes) ++ rest =
          tag :: (decimal bytes.length ++ 58 :: (bytes ++ (utf8 ";\n" ++ rest))) := by
        simp only [scalarBytes, List.append_assoc]
        rfl
      rw [split, scalar, List.head?_cons, if_pos rfl, scalarBody,
        bind_of_ok (skip_cons _ _), bind_of_ok (value_append _ small whole)]
      exact terminator _ rest

theorem parse_header (rest : Bytes) :
    Decoded.parse (runtimeEnvHeader ++ rest) = (parseBody rest).1 := by
  rw [Decoded.parse, stripPrefix_append]

/-- The whole record, read back. -/
theorem parse_recordBytes {entries : List ViewEnvEntry} (roots hostRecord : Option Bytes)
    (few : entries.length ≤ maxEntries)
    (fits : ∀ entry ∈ entries, fitsViewEnv entry.name entry.value = true) :
    ∃ decoded, Decoded.parse (recordBytes entries roots hostRecord) = .ok decoded ∧
      decoded.entries = entries.map readEntry ∧ decoded.roots = roots.filter fitsScalar ∧
      decoded.hostRecord = hostRecord.filter fitsScalar := by
  have held (written : Option Bytes) :
      ∀ bytes ∈ written.filter fitsScalar, fitsScalar bytes = true := fun bytes member =>
    (Option.mem_filter_iff.mp member).2
  have last : Cursor.scalar 72 (scalarBytes 72 (hostRecord.filter fitsScalar) ++ []) =
      (.ok (hostRecord.filter fitsScalar), []) :=
    Cursor.scalar_scalarBytes (held hostRecord) fun _ => by simp
  have first : Cursor.scalar 82 (scalarBytes 82 (roots.filter fitsScalar) ++
      scalarBytes 72 (hostRecord.filter fitsScalar)) =
        (.ok (roots.filter fitsScalar), scalarBytes 72 (hostRecord.filter fitsScalar)) := by
    refine Cursor.scalar_scalarBytes (held roots) fun _ => ?_
    cases hostRecord.filter fitsScalar with
    | none => simp [scalarBytes]
    | some bytes => simp [scalarBytes]
  have count : Cursor.number maxEntries .entryCount .entryCount (decimal entries.length ++
      10 :: (entries.flatMap entryBytes ++ (scalarBytes 82 (roots.filter fitsScalar) ++
        scalarBytes 72 (hostRecord.filter fitsScalar)))) = _ :=
    Cursor.number_decimal .entryCount .entryCount few (by decide) _
  rw [List.append_nil] at last
  refine ⟨⟨entries.flatMap entryBytes ++ (scalarBytes 82 (roots.filter fitsScalar) ++
    scalarBytes 72 (hostRecord.filter fitsScalar)), entries.length, roots.filter fitsScalar,
    hostRecord.filter fitsScalar⟩, ?_, entriesFrom_flatMap fits _, rfl, rfl⟩
  change Decoded.parse (runtimeEnvHeader ++ (decimal entries.length ++
    10 :: (entries.flatMap entryBytes ++ (scalarBytes 82 (roots.filter fitsScalar) ++
      scalarBytes 72 (hostRecord.filter fitsScalar))))) = _
  rw [parse_header]
  rw [parseBody, Cursor.bind_of_ok count, Cursor.bind_of_ok (Cursor.expect_self 10 _),
    Cursor.bind_of_ok (Cursor.get_eq _), Cursor.bind_of_ok (Cursor.repeatEntry_flatMap fits _),
    Cursor.bind_of_ok first, Cursor.bind_of_ok last, Cursor.bind_of_ok (Cursor.get_eq _)]
  rfl

/-! ### What an accepted record yields -/

theorem length_entriesFrom {count : Nat} {text rest : Bytes}
    (read : Cursor.repeatEntry count text = (.ok (), rest)) :
    (entriesFrom count text).length = count := by
  induction count generalizing text with
  | zero => rfl
  | succ count ih =>
      rcases Cursor.bind_eq_ok read with ⟨entry, left, first, others⟩
      rw [entriesFrom, first]
      exact congrArg (· + 1) (ih others)

/-- No entry of an accepted record is dropped. -/
theorem length_entries {buf : Bytes} {decoded : Decoded} (parsed : Decoded.parse buf = .ok decoded) :
    decoded.entries.length = decoded.entryCount := by
  rw [Decoded.parse] at parsed
  split at parsed
  · next rest stripped =>
      have whole : parseBody rest = (.ok decoded, (parseBody rest).2) := Prod.ext parsed rfl
      rcases Cursor.bind_eq_ok whole with ⟨count, _, _, body⟩
      rcases Cursor.bind_eq_ok body with ⟨_, _, _, body⟩
      rcases Cursor.bind_eq_ok body with ⟨text, left, got, body⟩
      rcases Cursor.bind_eq_ok body with ⟨_, _, entries, body⟩
      rcases Cursor.bind_eq_ok body with ⟨roots, _, _, body⟩
      rcases Cursor.bind_eq_ok body with ⟨hostRecord, _, _, body⟩
      rcases Cursor.bind_eq_ok body with ⟨tail, _, _, body⟩
      rw [Cursor.get_eq] at got
      rcases Prod.mk.inj got with ⟨sameText, sameLeft⟩
      split at body
      · cases body
      · have same := Except.ok.inj (Prod.mk.inj body).1
        rw [← same]
        rw [← sameLeft, Except.ok.inj sameText] at entries
        exact length_entriesFrom entries
  · cases parsed

/-! ### Applying leaves what is set -/

theorem applyEntry_of_set {env : Env} {entry : ViewEntry} {name value : Bytes}
    (present : env name = some value) : applyEntry env entry name = some value := by
  rw [applyEntry]
  split
  · exact present
  · next missing =>
      split
      · exact present
      · have other : name ≠ entry.name := by
          intro same
          rw [← same, present] at missing
          exact missing rfl
        rw [setenv, if_neg other]
        exact present

theorem restore_of_set {env : Env} {restored name value : Bytes} {scalar : Option Bytes}
    (present : env name = some value) : restore env restored scalar name = some value := by
  cases scalar with
  | none => exact present
  | some bytes =>
      rw [restore]
      split
      · exact present
      · next missing =>
          have other : name ≠ restored := by
            intro same
            rw [← same, present] at missing
            simp at missing
          rw [setenv, if_neg other]
          exact present

theorem foldl_applyEntry_of_set {entries : List ViewEntry} {env : Env} {name value : Bytes}
    (present : env name = some value) : entries.foldl applyEntry env name = some value := by
  induction entries generalizing env with
  | nil => exact present
  | cons entry entries ih => exact ih (applyEntry_of_set present)

theorem apply_of_set {buf : Bytes} {env after : Env} {name value : Bytes}
    (applied : apply buf env = .ok after) (present : env name = some value) :
    after name = some value := by
  rcases Except.andThen_eq_ok.mp applied with ⟨decoded, _, done⟩
  rw [← Except.ok.inj done]
  exact restore_of_set (restore_of_set (foldl_applyEntry_of_set present))

/-! ### The round trip -/

def policyOf : Inheritance → Policy
  | .preserve => .preserve
  | .replace => .replace

/-- The mapped aliases a launch promises: the first mapping of each name, where it fits. -/
def promisedAliases (now : SortedMap Bytes Bytes) (assignments : List PathAssignment) :
    List ViewEntry :=
  ((firsts Prod.fst (aliases assignments)).filter fun mapping =>
    fitsViewEnv mapping.1 mapping.2.value).map fun mapping =>
      ⟨mapping.1, mapping.2.value, policyOf mapping.2.inheritance, (now.get? mapping.1).isSome⟩

/-- Whether a setting of the launch is one of the other changed variables it promises. -/
def isPromised (base : SortedMap Bytes Bytes) (assignments : List PathAssignment)
    (setting : Bytes × Bytes) : Bool :=
  base.get? setting.1 ≠ some setting.2 && setting.1 ≠ hostEnvVar && setting.1 ≠ rootsVar &&
    (assignments.all fun assignment => !assignment.vars.contains setting.1) &&
      fitsViewEnv setting.1 setting.2

theorem isPromised_iff {base : SortedMap Bytes Bytes} {assignments : List PathAssignment}
    {setting : Bytes × Bytes} : isPromised base assignments setting = true ↔
      base.get? setting.1 ≠ some setting.2 ∧ setting.1 ≠ hostEnvVar ∧ setting.1 ≠ rootsVar ∧
        (∀ assignment ∈ assignments, setting.1 ∉ assignment.vars) ∧
          fitsViewEnv setting.1 setting.2 = true := by
  simp only [isPromised, Bool.and_eq_true, decide_eq_true_eq, List.all_eq_true, Bool.not_eq_true',
    List.contains_eq_mem, decide_eq_false_iff_not, and_assoc]

def promisedChanges (base now : SortedMap Bytes Bytes) (assignments : List PathAssignment) :
    List ViewEntry :=
  (now.entries.filter (isPromised base assignments)).map fun setting =>
    ⟨setting.1, setting.2, .replace, true⟩

theorem mem_aliases {assignments : List PathAssignment} {name : Bytes} :
    name ∈ (aliases assignments).map Prod.fst ↔
      ∃ assignment ∈ assignments, name ∈ assignment.vars := by
  simp [aliases, List.mem_flatMap]

theorem map_filterMap_of {α β γ : Type} {keep : α → Bool} {make : α → γ} {first : α → Option β}
    {second : β → γ}
    (same : ∀ item, (first item).map second = if keep item then some (make item) else none)
    (items : List α) : (items.filterMap first).map second = (items.filter keep).map make := by
  rw [List.map_filterMap]
  induction items with
  | nil => rfl
  | cons item items ih =>
      have here := same item
      cases kept : keep item with
      | true =>
          rw [kept, if_pos rfl] at here
          simp only [List.filterMap_cons, here]
          rw [List.filter_cons_of_pos kept, List.map_cons, ih]
      | false =>
          rw [kept, if_neg Bool.false_ne_true] at here
          simp only [List.filterMap_cons, here]
          rw [List.filter_cons_of_neg (by simp [kept]), ih]

theorem map_readEntry (base now : SortedMap Bytes Bytes) (assignments : List PathAssignment) :
    (viewEnvEntries base now assignments).map readEntry =
      promisedAliases now assignments ++ promisedChanges base now assignments := by
  rw [viewEnvEntries, List.map_append, unseen_nil]
  refine congrArg₂ (· ++ ·) (map_filterMap_of (fun mapping => ?_) _)
    (map_filterMap_of (fun setting => ?_) _)
  · rw [mappedEntry]
    split
    · rfl
    · rfl
  · rw [changedEntry]
    have unmapped : ((aliases assignments).map Prod.fst).contains setting.1 = true ↔
        ¬∀ assignment ∈ assignments, setting.1 ∉ assignment.vars := by
      rw [List.contains_iff_mem, mem_aliases]
      simp
    split
    · next passed =>
        rw [if_neg]
        · rfl
        · simp only [Bool.or_eq_true, decide_eq_true_eq, unmapped] at passed
          rw [isPromised_iff]
          tauto
    · next kept =>
        simp only [Bool.or_eq_true, decide_eq_true_eq, unmapped] at kept
        split
        · next fits =>
            rw [if_pos]
            · rfl
            · rw [isPromised_iff]
              tauto
        · next unfit =>
            rw [if_neg]
            · rfl
            · rw [isPromised_iff]
              tauto

/-- The input a launch writes is what the constructor reads: entries, scalars and all. What it
accepts it yields in full, and what is set it leaves. -/
theorem view_env_reads_back :
    (∀ base now assignments b, encodeViewEnv base now assignments = .ok b →
      b.length ≤ maxRecordBytes ∧ ∃ decoded, Decoded.parse b = .ok decoded ∧
        decoded.entries =
          promisedAliases now assignments ++ promisedChanges base now assignments ∧
        decoded.roots = (now.get? rootsVar).filter fitsScalar ∧
        decoded.hostRecord = (now.get? hostEnvVar).filter fitsScalar) ∧
      (∀ buf decoded, Decoded.parse buf = .ok decoded →
        decoded.entries.length = decoded.entryCount) ∧
      ∀ buf env after name value, apply buf env = .ok after → env name = some value →
        after name = some value := by
  refine ⟨fun base now assignments b encoded => ?_, fun buf decoded => length_entries,
    fun buf env after name value => apply_of_set⟩
  rcases encodeViewEnv_eq_ok encoded with ⟨whole, few, bounded⟩
  rcases parse_recordBytes (now.get? rootsVar) (now.get? hostEnvVar) few
    fun entry listed => viewEnvEntries_fit listed with ⟨decoded, accepted, entries, roots, hostRecord⟩
  rw [map_readEntry] at entries
  rw [← whole] at accepted
  exact ⟨bounded, decoded, accepted, entries, roots, hostRecord⟩

/-! ### The golden record -/

def goldenBase : SortedMap Bytes Bytes :=
  (SortedMap.empty.insert (utf8 "MAPPED_KEEP") (utf8 "/caller/plugins")).insert
    (utf8 "CHANGED") (utf8 "old")

def goldenNow : SortedMap Bytes Bytes :=
  SortedMap.empty.insertAll [(utf8 "MAPPED_KEEP", utf8 "/caller/plugins"),
    (utf8 "MAPPED_LINE", utf8 "/view/a\n/view/b"), (utf8 "CHANGED", utf8 "new"),
    (rootsVar, utf8 "/view:/set"), (hostEnvVar, utf8 "CHANGED=0123456789abcdef3:old;")]

def goldenAssignments : List PathAssignment :=
  [⟨[utf8 "MAPPED_KEEP"], utf8 "/view/plugins", .preserve⟩,
    ⟨[utf8 "MAPPED_LINE"], utf8 "/view/a\n/view/b", .replace⟩,
    ⟨[utf8 "MAPPED_NONE"], utf8 "/view/none", .preserve⟩]

def goldenRecord : Bytes :=
  utf8 "ONELF-RUNTIME-ENV 1 4\nMAPPED_KEEP=.13:/view/plugins+;\n" ++
    utf8 "MAPPED_LINE=!15:/view/a\n/view/b+;\nMAPPED_NONE=.10:/view/none-;\n" ++
    utf8 "CHANGED=!3:new+;\nR10:/view:/set;\nH30:CHANGED=0123456789abcdef3:old;;\n"

theorem golden_record_reads_back : ∃ decoded, Decoded.parse goldenRecord = .ok decoded ∧
    decoded.entries = [⟨utf8 "MAPPED_KEEP", utf8 "/view/plugins", .preserve, true⟩,
      ⟨utf8 "MAPPED_LINE", utf8 "/view/a\n/view/b", .replace, true⟩,
      ⟨utf8 "MAPPED_NONE", utf8 "/view/none", .preserve, false⟩,
      ⟨utf8 "CHANGED", utf8 "new", .replace, true⟩] := by
  have written : encodeViewEnv goldenBase goldenNow goldenAssignments = .ok goldenRecord := by
    decide +kernel
  rcases (view_env_reads_back.1 _ _ _ _ written).2 with ⟨decoded, accepted, entries, _⟩
  have promised : promisedAliases goldenNow goldenAssignments ++
      promisedChanges goldenBase goldenNow goldenAssignments =
        [⟨utf8 "MAPPED_KEEP", utf8 "/view/plugins", .preserve, true⟩,
          ⟨utf8 "MAPPED_LINE", utf8 "/view/a\n/view/b", .replace, true⟩,
          ⟨utf8 "MAPPED_NONE", utf8 "/view/none", .preserve, false⟩,
          ⟨utf8 "CHANGED", utf8 "new", .replace, true⟩] := by decide +kernel
  exact ⟨decoded, accepted, entries.trans promised⟩

end Onelf.Payloads
