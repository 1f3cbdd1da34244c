import Onelf.Cli.Build.Metadata
import Onelf.Lib.Ascii

/-! The pins a build records for its launches: the GL build's record and the set table
(`bundle/sysroot.rs`, `platform.rs`, `sets.rs`). -/

namespace Onelf.Cli.Build

open Onelf.Lib Onelf.Format Onelf.Runtime.Sets

/-! ### The pin a package carries -/

/-- Why no pin is resolved. -/
inductive PinError where
  | label (label : Str)
  | hash (hash : Str)
  | url (url : Str)
  | missing (what : String)
  | half
  deriving DecidableEq

def checkLabel (label : Str) : Except PinError Unit :=
  refuseIf (label = [] ∨ '/' ∈ label ∨ label.head? = some '.') (.label label)

def checkHash (hash : Str) : Except PinError Unit := refuseIf (isDigest hash = false) (.hash hash)

/-- `platform::check_url`. -/
def requireUrl (url : Str) : Except PinError Unit := refuseIf (checkUrl url = false) (.url url)

/-- The strings the TOML of a sysroot's platform file holds. -/
structure PlatformFile where
  label : Option Str
  /-- `url` and `blake3`, where there is a `[gl]`. -/
  gl : Option (Option Str × Option Str)

def orMissing {α : Type} (what : String) : Option α → Except PinError α
  | some value => .ok value
  | none => .error (.missing what)

/-- `platform::parse`. -/
def parsePlatform (file : PlatformFile) : Except PinError Pin := do
  let label ← orMissing "no label" file.label
  checkLabel (Str.trim label)
  let gl ← orMissing "no [gl] table" file.gl
  let url ← orMissing "no gl.url" gl.1
  let blake3 ← orMissing "no gl.blake3" gl.2
  checkHash (Str.lowercase blake3)
  requireUrl url
  .ok ⟨Str.trim label, url, Str.lowercase blake3⟩

/-- `platform::read`, where the file can be read and parsed. -/
def readPlatform : Option PlatformFile → Except PinError (Option Pin)
  | none => .ok none
  | some file => (parsePlatform file).map some

/-- What a recipe says of the GL build. -/
structure PinOptions where
  platform : Str
  platformUrl : Option Str
  platformHash : Option Str

def pinOfParts (label url blake3 : Str) : Except PinError (Option Pin) := do
  checkLabel label
  requireUrl url
  checkHash blake3
  .ok (some ⟨label, url, blake3⟩)

def resolvePin (opts : PinOptions) (file : Option PlatformFile) :
    Except PinError (Option Pin) := do
  let fromSysroot ← readPlatform file
  match opts.platformUrl.or (fromSysroot.map Pin.url),
      (opts.platformHash.map Str.lowercase).or (fromSysroot.map Pin.blake3) with
  | some url, some blake3 => pinOfParts ((fromSysroot.map Pin.label).getD opts.platform) url blake3
  | _, _ =>
      if opts.platformUrl.isSome || opts.platformHash.isSome then .error .half else .ok none

def pinWithoutRoot (url hash : Option Str) : Except PinError (Option Pin) :=
  match url, hash with
  | some url, some hash => do
      checkLabel "sysroot".toList
      requireUrl url
      checkHash hash
      .ok (some ⟨"sysroot".toList, url, Str.lowercase hash⟩)
  | _, _ => if url.isSome || hash.isSome then .error .half else .ok none

/-- A pin some build resolves. -/
def ResolvedPin (pin : Pin) : Prop :=
  (∃ opts file, resolvePin opts file = .ok (some pin)) ∨
    ∃ url hash, pinWithoutRoot url hash = .ok (some pin)

/-! ### The record -/

def pinLines (pin : Pin) : List Str :=
  ["label = ".toList ++ tomlString pin.label, "url = ".toList ++ tomlString pin.url,
    "blake3 = ".toList ++ tomlString pin.blake3]

def renderPin (pin : Pin) : Str := (pinLines pin).flatMap fun line => line ++ ['\n']

/-- What `parse_pin` holds at a line of the record. -/
structure PinReading where
  label : Option Str
  url : Option Str
  blake3 : Option Str

def readPinLine (reading : PinReading) (line : Str) : Option PinReading :=
  match Str.splitOnce '=' line with
  | none => some reading
  | some (key, value) => do
      let value ← unquote (Str.trim value)
      if Str.trim key = "label".toList then some { reading with label := some value }
      else if Str.trim key = "url".toList then some { reading with url := some value }
      else if Str.trim key = "blake3".toList then
        some { reading with blake3 := some (Str.lowercase value) }
      else some reading

def parsePin (text : Str) : Option Pin := do
  let reading ← (Str.lines text).foldlM readPinLine ⟨none, none, none⟩
  let label ← reading.label
  let url ← reading.url
  let blake3 ← reading.blake3
  checkedPin label url blake3

/-! ### What a resolved pin is -/

/-- What both ways to a pin check of it. -/
structure CheckedPin (pin : Pin) : Prop where
  label : pin.label ≠ [] ∧ '/' ∉ pin.label ∧ pin.label.head? ≠ some '.'
  blake3 : isDigest pin.blake3 = true
  lower : Str.lowercase pin.blake3 = pin.blake3

theorem checkLabel_eq_ok {label : Str} :
    checkLabel label = .ok () ↔ label ≠ [] ∧ '/' ∉ label ∧ label.head? ≠ some '.' := by
  rw [checkLabel, refuseIf_eq_ok]
  simp only [not_or, ne_eq]

theorem checkHash_eq_ok {hash : Str} : checkHash hash = .ok () ↔ isDigest hash = true := by
  rw [checkHash, refuseIf_eq_ok, Bool.not_eq_false]

theorem lowercase_lowercase (text : Str) :
    Str.lowercase (Str.lowercase text) = Str.lowercase text := by
  rw [Str.lowercase, Str.lowercase, List.map_map]
  apply List.map_congr_left
  intro c _
  apply Char.toNat_inj.mp
  rw [Function.comp_apply, Str.toNat_toLower, Str.toNat_toLower]
  split_ifs <;> omega

theorem readPlatform_lower {file : Option PlatformFile} {pin : Pin}
    (read : readPlatform file = .ok (some pin)) : Str.lowercase pin.blake3 = pin.blake3 := by
  cases file with
  | none => cases read
  | some file =>
      rw [readPlatform] at read
      cases parsed : parsePlatform file with
      | error reason =>
          rw [parsed] at read
          cases read
      | ok found =>
          rw [parsed] at read
          cases read
          simp only [parsePlatform, Except.andThen_eq_ok] at parsed
          obtain ⟨label, _, _, _, gl, _, url, _, blake3, _, _, _, _, _, same⟩ := parsed
          cases same
          exact lowercase_lowercase blake3

theorem checkedPin_of_resolved {pin : Pin} (resolved : ResolvedPin pin) : CheckedPin pin := by
  rcases resolved with ⟨opts, file, found⟩ | ⟨url, hash, found⟩
  · rw [resolvePin, Except.andThen_eq_ok] at found
    obtain ⟨fromSysroot, read, found⟩ := found
    split at found
    · next url blake3 _ hash =>
        simp only [pinOfParts, Except.followed_eq_ok, checkLabel_eq_ok, checkHash_eq_ok] at found
        obtain ⟨label, _, digest, same⟩ := found
        cases same
        refine ⟨label, digest, ?_⟩
        rcases Option.or_eq_some_iff.mp hash with stated | ⟨_, recorded⟩
        · obtain ⟨text, _, same⟩ := Option.map_eq_some_iff.mp stated
          rw [← same]
          exact lowercase_lowercase text
        · obtain ⟨known, there, same⟩ := Option.map_eq_some_iff.mp recorded
          have lower : Str.lowercase known.blake3 = known.blake3 := readPlatform_lower (there ▸ read)
          exact same ▸ lower
    · split at found <;> cases found
  · rw [pinWithoutRoot.eq_def] at found
    split at found
    · next url hash =>
        simp only [Except.followed_eq_ok, checkLabel_eq_ok, checkHash_eq_ok] at found
        obtain ⟨label, _, digest, same⟩ := found
        cases same
        exact ⟨label, (isDigest_lowercase hash).trans digest, lowercase_lowercase hash⟩
    · split at found <;> cases found

/-! ### What is read back -/

theorem readPinLine_value {lead : Str} (plain : '=' ∉ lead) (reading : PinReading) (value : Str) :
    readPinLine reading (lead ++ '=' :: ' ' :: tomlString value) =
      if Str.trim lead = "label".toList then some { reading with label := some (shown value) }
      else if Str.trim lead = "url".toList then some { reading with url := some (shown value) }
      else if Str.trim lead = "blake3".toList then
        some { reading with blake3 := some (Str.lowercase (shown value)) }
      else some reading := by
  have trimmed : Str.trim (' ' :: tomlString value) = tomlString value :=
    trim_tomlString value
  rw [readPinLine, Str.splitOnce_append plain]
  simp only [trimmed, unquote_tomlString]
  rfl

/-- The record gives the three values back with their control characters escaped. -/
theorem parsePin_renderPin (pin : Pin) : parsePin (renderPin pin) =
    checkedPin (shown pin.label) (shown pin.url) (Str.lowercase (shown pin.blake3)) := by
  have reads : ∀ line ∈ pinLines pin, ReadsLine line := by
    intro line member
    simp only [pinLines, List.mem_cons, List.not_mem_nil, or_false] at member
    rcases member with same | same | same
    · exact same ▸ tomlString_line (by decide) pin.label
    · exact same ▸ tomlString_line (by decide) pin.url
    · exact same ▸ tomlString_line (by decide) pin.blake3
  have label (reading : PinReading) : readPinLine reading ("label = ".toList ++ tomlString pin.label)
      = some { reading with label := some (shown pin.label) } :=
    (@readPinLine_value "label ".toList (by decide) reading pin.label).trans
      (if_pos (by decide))
  have url (reading : PinReading) : readPinLine reading ("url = ".toList ++ tomlString pin.url) =
      some { reading with url := some (shown pin.url) } :=
    (@readPinLine_value "url ".toList (by decide) reading pin.url).trans
      ((if_neg (by decide)).trans (if_pos (by decide)))
  have blake3 (reading : PinReading) :
      readPinLine reading ("blake3 = ".toList ++ tomlString pin.blake3) =
        some { reading with blake3 := some (Str.lowercase (shown pin.blake3)) } :=
    (@readPinLine_value "blake3 ".toList (by decide) reading pin.blake3).trans
      ((if_neg (by decide)).trans ((if_neg (by decide)).trans (if_pos (by decide))))
  rw [parsePin, renderPin, lines_of_readsLine reads, pinLines]
  simp only [List.foldlM_cons, List.foldlM_nil, label, url, blake3]
  rfl

theorem parsePin_renderPin_iff {pin : Pin} (checked : CheckedPin pin) :
    parsePin (renderPin pin) = some pin ↔
      (∀ c ∈ pin.label, Str.isControl c = false) ∧ ∀ c ∈ pin.url, Str.isControl c = false := by
  have hash := shown_eq_self_iff.mpr (isControl_of_isDigest checked.blake3)
  rw [parsePin_renderPin, hash, checked.lower, checkedPin_eq_some, ← shown_eq_self_iff,
    ← shown_eq_self_iff]
  constructor
  · intro read
    have same := read.2.2.2.2
    exact ⟨(congrArg Pin.label same).symm, (congrArg Pin.url same).symm⟩
  · intro plain
    rw [plain.1, plain.2]
    exact ⟨checked.label.1, checked.label.2.1, checked.label.2.2, checked.blake3, rfl⟩

/-! ### Set names -/

/-- A name the set-name rule accepts is its bytes, each a letter, a digit, `-` or `_`. -/
theorem chars_of_setName {name : Str} {id : RuleId}
    (named : RuleId.setName (Str.encodeUtf8 name) = .ok id) :
    name = chars id.bytes ∧ ∀ byte ∈ id.bytes, isAlphanumeric byte ∨ byte = 95 ∨ byte = 45 := by
  obtain ⟨same, plain⟩ := RuleId.setName_eq_ok.mp named
  have every := (RuleId.check_eq_ok.mp id.checked).2.2
  rw [List.all_eq_true] at every
  constructor
  · apply Str.encodeUtf8_injective
    rw [encodeUtf8_chars fun byte member => RuleId.isIdByte_ascii (every byte member), same]
  · intro byte member
    have letter := every byte member
    simp only [RuleId.isIdByte, Bool.or_eq_true, beq_iff_eq] at letter
    rcases letter with ((alphanumeric | dot) | low) | dash
    · exact Or.inl alphanumeric
    · rw [same, dot] at member
      exact absurd member plain
    · exact Or.inr (Or.inl low)
    · exact Or.inr (Or.inr dash)

/-- No such character is whitespace, a slash or a dot. -/
theorem charOf_plain {byte : UInt8} (letter : isAlphanumeric byte ∨ byte = 95 ∨ byte = 45) :
    Str.isWhitespace (charOf byte) = false ∧ charOf byte ≠ '/' ∧ charOf byte ≠ '.' ∧
      charOf byte ≠ '\n' := by
  have range : 48 ≤ byte.toNat ∧ byte.toNat ≤ 57 ∨ 65 ≤ byte.toNat ∧ byte.toNat ≤ 90 ∨
      97 ≤ byte.toNat ∧ byte.toNat ≤ 122 ∨ byte.toNat = 95 ∨ byte.toNat = 45 := by
    rcases letter with alphanumeric | rfl | rfl
    · simp only [isAlphanumeric, isDigit, isAlphabetic, Bool.or_eq_true, Bool.and_eq_true,
        decide_eq_true_eq, UInt8.le_iff_toNat_le] at alphanumeric
      rcases alphanumeric with digit | upper | lower
      · exact Or.inl digit
      · exact Or.inr (Or.inl upper)
      · exact Or.inr (Or.inr (Or.inl lower))
    · decide
    · decide
  have other (c : Char) (apart : c.toNat ≠ byte.toNat) : charOf byte ≠ c := by
    intro same
    exact apart (by rw [← same, toNat_charOf])
  refine ⟨?_, other _ ?_, other _ ?_, other _ ?_⟩
  · simp only [Str.isWhitespace, toNat_charOf, Bool.or_eq_false_iff, Bool.and_eq_false_iff,
      decide_eq_false_iff_not, beq_eq_false_iff_ne]
    omega
  · change 47 ≠ _
    omega
  · change 46 ≠ _
    omega
  · change 10 ≠ _
    omega

theorem readable_of_setName {name : Str} {id : RuleId}
    (named : RuleId.setName (Str.encodeUtf8 name) = .ok id) : Readable name := by
  obtain ⟨same, letters⟩ := chars_of_setName named
  have plain : ∀ c ∈ name, Str.isWhitespace c = false ∧ c ≠ '/' ∧ c ≠ '.' ∧ c ≠ '\n' := by
    rw [same]
    intro c member
    obtain ⟨byte, inside, rfl⟩ := List.mem_map.mp member
    exact charOf_plain (letters byte inside)
  constructor
  · intro member
    exact (plain _ member).2.2.2 rfl
  · constructor
    · intro c first
      exact (plain c (List.mem_of_mem_head? first)).1
    · intro c last
      exact (plain c (List.mem_of_mem_getLast? last)).1
  · rw [same]
    exact fun empty => id.ne_nil (chars_eq_nil.mp empty)
  · intro member
    exact (plain _ member).2.1 rfl
  · intro first
    exact (plain '.' (List.mem_of_mem_head? first)).2.2.1 rfl

/-! ### The pins a launch reads -/

theorem checkSet_recorded {set : SharedSet} (checked : checkSet set = .ok ()) :
    Readable set.name ∧ isDigest set.blake3 = true := by
  simp only [checkSet, Except.followed_eq_ok, refuseIf_eq_ok] at checked
  obtain ⟨named, _, _, digest⟩ := checked
  obtain ⟨id, accepted⟩ := Option.ne_none_iff_exists'.mp named
  refine ⟨@readable_of_setName _ id ?_, by simpa using digest⟩
  cases verdict : RuleId.setName (Str.encodeUtf8 set.name) with
  | error reason =>
      rw [verdict] at accepted
      cases accepted
  | ok found =>
      rw [verdict] at accepted
      cases accepted
      rfl

/-- Sets that pass their checks are read back with the escapes of their URLs left in. -/
theorem parse_of_checked {sets : List SharedSet} (closures : List (Str × List Str))
    (checked : sets.forM checkSet = .ok ()) :
    parse (renderSets sets closures) = sets.map shownPin := by
  rw [Except.forM_eq_ok] at checked
  have back : ∀ set ∈ sets, readBack set = some (shownPin set) := by
    intro set member
    obtain ⟨readable, digest⟩ := checkSet_recorded (checked set member)
    have hash := shown_eq_self_iff.mpr (isControl_of_isDigest digest)
    rw [readBack, Str.trim_of_trimmed readable.trimmed, hash]
    exact checkedPin_eq_some.mpr ⟨readable.nonempty, readable.noSlash, readable.visible,
      (isDigest_lowercase _).trans digest, rfl⟩
  rw [parse_renderSets closures fun set member =>
    (checkSet_recorded (checked set member)).1.oneLine, List.filterMap_congr back]
  exact congrFun List.filterMap_eq_map sets

/-- A resolved pin comes back exactly when neither its label nor its URL has a control character,
and the sets of a table exactly when no URL of theirs has one. -/
theorem recorded_pins_iff (pin : Pin) (sets : List SharedSet) (closures : List (Str × List Str)) :
    (ResolvedPin pin → (parsePin (renderPin pin) = some pin ↔
      (∀ c ∈ pin.label, Str.isControl c = false) ∧ ∀ c ∈ pin.url, Str.isControl c = false)) ∧
    (sets.forM checkSet = .ok () → (parse (renderSets sets closures) = sets.map pinOf ↔
      ∀ set ∈ sets, ∀ c ∈ set.url, Str.isControl c = false)) := by
  constructor
  · intro resolved
    exact parsePin_renderPin_iff (checkedPin_of_resolved resolved)
  · intro checked
    rw [parse_of_checked closures checked, List.map_inj_left]
    exact forall₂_congr fun set _ => shownPin_eq_iff

def nilHash : Str := List.replicate 64 '0'

/-- A URL with quotes and backslashes, under a recipe's own pin. -/
def quotedPin : Pin := ⟨"sysroot".toList, "file:///b\\\"\\x".toList, nilHash⟩

def quotedSet : SharedSet := ⟨"gtk-4".toList, ["a]".toList], quotedPin.url, nilHash⟩

theorem quotedSet_checked : [quotedSet].forM checkSet = .ok () := by
  rw [Except.forM_eq_ok]
  intro set member
  rw [List.mem_singleton.mp member]
  simp only [checkSet, Except.followed_eq_ok, refuseIf_eq_ok]
  decide +kernel

theorem recorded_pins_quoted :
    parsePin (renderPin quotedPin) = some quotedPin ∧
      parse (renderSets [quotedSet] [("gtk-4".toList, ["b\"".toList])]) = [pinOf quotedSet] := by
  have plain : ∀ c ∈ quotedPin.url, Str.isControl c = false :=
    List.all_iff_forall_prop.mp (by decide)
  have label : ∀ c ∈ quotedPin.label, Str.isControl c = false :=
    List.all_iff_forall_prop.mp (by decide)
  have both := recorded_pins_iff quotedPin [quotedSet] [("gtk-4".toList, ["b\"".toList])]
  constructor
  · refine (both.1 (Or.inr ⟨some quotedPin.url, some nilHash, ?_⟩)).mpr ⟨label, plain⟩
    decide +kernel
  · refine (both.2 quotedSet_checked).mpr ?_
    intro set member
    rw [List.mem_singleton.mp member]
    exact plain

/-- The same URL with a tab in it comes back with the tab's escape. -/
theorem tabbed_pin_garbled : ¬∀ pin, ResolvedPin pin → parsePin (renderPin pin) = some pin := by
  intro back
  have resolved : resolvePin ⟨"p".toList, some "https://a\tb".toList, some nilHash⟩ none =
      .ok (some ⟨"p".toList, "https://a\tb".toList, nilHash⟩) := by decide +kernel
  have read := back _ (Or.inl ⟨_, _, resolved⟩)
  exact absurd read (by decide +kernel)

end Onelf.Cli.Build
