import Mathlib.Algebra.BigOperators.Group.Finset.Basic
import Onelf.Lib.Ascii
import Onelf.Lib.Checks
import Onelf.Lib.PathText
import Onelf.Runtime.ExtractToCas
import Onelf.Runtime.Sets

/-! The ledger of generated files (`sysroot.rs`). -/

namespace Onelf.Cli.Bundle.Ledger

open Onelf.Lib

/-! ### The AppDir -/

/-- What a file holds; a socket, a pipe or a device is special. -/
inductive Held where
  | regular (bytes : Bytes)
  | special

/-- The file system, the directory of it that is the AppDir, and what the ledger's file holds. -/
structure AppDir where
  disk : Disk Held
  root : List Bytes
  ledger : Option Bytes

inductive LedgerError where
  | notText
  | tooLarge
  | malformed (line why : Str)
  | unreachable (path : Str)
  | special (path : Str)
  deriving DecidableEq

/-- One entry of the ledger. -/
structure GeneratedEntry where
  path : Str
  hash : Option Digest
  pending : Bool
  deriving DecidableEq

/-- More links than this on one path is a loop. -/
def maxLinks : Nat := 40

namespace AppDir

variable (appdir : AppDir)

/-- Where `path`, joined to the AppDir, leads; its last component is a link that is not followed,
unless a slash comes after it. -/
def walk (follow : Bool) (path : Str) : Outcome Bytes :=
  let segments := (Target.ofText (Str.encodeUtf8 path)).segments
  appdir.disk.world.resolve (follow || segments.getLast? = some .here) maxLinks []
    (appdir.root.map .name ++ segments)

/-- `symlink_metadata`: nothing where a name is missing. -/
def lstat (path : Str) : Except LedgerError (Option (Node Bytes Held)) :=
  match appdir.walk false path with
  | .found _ place => .ok (appdir.disk place)
  | .stuck stop =>
      if appdir.disk.world.isDir stop.place then .ok none else .error (.unreachable path)
  | .looped => .error (.unreachable path)

/-- The hash of what a path holds, under a tag for its kind. -/
def hashEntry (blake3 : Bytes → Digest) (path : Str) : Except LedgerError (Option Digest) := do
  match ← appdir.lstat path with
  | none => .ok none
  | some (.link target) => .ok (some (blake3 (utf8 "link " ++ target)))
  | some .dir => .ok (some (blake3 (utf8 "dir")))
  | some (.file (.regular bytes)) => .ok (some (blake3 (utf8 "file " ++ bytes)))
  | some (.file .special) => .error (.special path)

/-- Whether what a path leads to begins as an ELF object does. -/
def isElf (path : Str) : Bool :=
  match appdir.walk true path with
  | .found _ place =>
      match appdir.disk place with
      | some (.file (.regular bytes)) => bytes.take 4 = [0x7f] ++ utf8 "ELF"
      | _ => false
  | _ => false

end AppDir

/-! ### Reading -/

/-- First line of the versioned ledger. -/
def header : Str := "generated-v2".toList

/-- The largest ledger read whole. -/
def limit : Nat := 8 * 1024 * 1024

/-- Whether a line names a plain path inside the AppDir. -/
def insideAppdir (line : Str) : Bool :=
  !line.isEmpty &&
    (components (Str.encodeUtf8 line)).all fun component => component matches .normal _

/-- The digits of a hash line and whether its entry is pending. -/
def hashLine : Str → Option (Str × Bool)
  | '#' :: '~' :: hex => some (hex, true)
  | '#' :: hex => some (hex, false)
  | _ => none

def parseHashed : List GeneratedEntry → Option Nat → List Str →
    Except LedgerError (List GeneratedEntry)
  | entries, _, [] => .ok entries
  | entries, awaiting, line :: lines =>
      match hashLine line with
      | none =>
          if insideAppdir line then
            parseHashed (entries ++ [⟨line, none, false⟩]) (some entries.length) lines
          else parseHashed entries none lines
      | some (hex, pending) =>
          match awaiting.bind fun index => (entries[index]?).map (index, ·) with
          | none => .error (.malformed line "a hash line with no path above it".toList)
          | some (index, owner) =>
              if owner.hash.isSome then
                .error (.malformed line "a second hash for one path".toList)
              else
                match Runtime.Sets.hexDigest (Str.lowercase hex) with
                | none =>
                    .error (.malformed line ("not a blake3 digest for ".toList ++ owner.path))
                | some hash =>
                    parseHashed (entries.set index ⟨owner.path, some hash, pending⟩) none lines

/-- The ledger's entries; one without the header is a list of paths. -/
def parseLedger (text : Str) : Except LedgerError (List GeneratedEntry) :=
  match (Str.lines text).filter (· ≠ []) with
  | [] => .ok []
  | first :: lines =>
      if first = header then parseHashed [] none lines
      else .ok (((first :: lines).filter insideAppdir).map (⟨·, none, false⟩))

/-- `read_generated`: at most one byte over the limit is read. -/
def readGenerated : Option Bytes → Except LedgerError (List GeneratedEntry)
  | none => .ok []
  | some bytes =>
      let text := bytes.take (limit + 1)
      if !validUtf8 text then .error .notText
      else if text.length > limit then .error .tooLarge
      else parseLedger (Str.fromUtf8Lossy text)

/-! ### Writing -/

/-- The hex digits of a hash. -/
def toHex (hash : Digest) : Str := chars (Runtime.Extract.hex hash.bytes)

/-- An entry's lines. -/
def entryText (entry : GeneratedEntry) : Str :=
  entry.path ++ '\n' :: match entry.hash with
    | none => []
    | some hash => '#' :: (if entry.pending then ['~'] else []) ++ toHex hash ++ ['\n']

/-- What `write_generated` leaves in the ledger's file. -/
def writeGenerated (entries : List GeneratedEntry) : Bytes :=
  Str.encodeUtf8 (header ++ '\n' :: entries.flatMap entryText)

/-- `record_generated`: what the ledger's file holds after it. -/
def recordGenerated (blake3 : Bytes → Digest) (appdir : AppDir) (paths : List Str) :
    Except LedgerError Bytes := do
  let previous ← readGenerated appdir.ledger
  let merged := SortedMap.empty.insertAll (previous.map fun entry => (entry.path, entry))
  let merged ← (paths.filter insideAppdir).foldlM (fun merged path => do
    let hash ← appdir.hashEntry blake3 path
    .ok (merged.insert path ⟨path, hash, appdir.isElf path⟩)) merged
  .ok (writeGenerated (merged.entries.map Prod.snd))

/-- `attest_generated`. -/
def attestGenerated (blake3 : Bytes → Digest) (appdir : AppDir) : Except LedgerError Bytes := do
  let previous ← readGenerated appdir.ledger
  let entries ← previous.mapM fun entry => do
    let hash ← appdir.hashEntry blake3 entry.path
    .ok (⟨entry.path, hash, false⟩ : GeneratedEntry)
  .ok (writeGenerated entries)

/-! ### Hex -/

theorem hexDigit_char : ∀ n < 16, Str.hexValue (charOf (hexDigit n)) = some n ∧
    (charOf (hexDigit n)).toLower = charOf (hexDigit n) ∧ charOf (hexDigit n) ≠ '\n' ∧
      charOf (hexDigit n) ≠ '\r' ∧ charOf (hexDigit n) ≠ '~' := by decide

theorem hex_cons (byte : UInt8) (bytes : Bytes) :
    chars (Runtime.Extract.hex (byte :: bytes)) =
      charOf (hexDigit (byte.toNat / 16)) :: charOf (hexDigit (byte.toNat % 16)) ::
        chars (Runtime.Extract.hex bytes) := rfl

theorem high_lt (byte : UInt8) : byte.toNat / 16 < 16 := by
  have small : byte.toNat < 256 := byte.toNat_lt
  omega

theorem low_lt (byte : UInt8) : byte.toNat % 16 < 16 := Nat.mod_lt _ (by decide)

theorem hexBytes_hex (bytes : Bytes) :
    Runtime.Sets.hexBytes (chars (Runtime.Extract.hex bytes)) = some bytes := by
  induction bytes with
  | nil => rfl
  | cons byte bytes ih =>
      have pair : Runtime.Sets.hexPair (charOf (hexDigit (byte.toNat / 16)))
          (charOf (hexDigit (byte.toNat % 16))) = some byte := by
        have whole : UInt8.ofNat (byte.toNat / 16 * 16 + byte.toNat % 16) = byte := by
          rw [Nat.div_add_mod', UInt8.ofNat_toNat]
        rw [Runtime.Sets.hexPair, (hexDigit_char _ (high_lt byte)).1,
          (hexDigit_char _ (low_lt byte)).1]
        exact congrArg some whole
      rw [hex_cons, Runtime.Sets.hexBytes, ih, pair]
      rfl

theorem length_hex (bytes : Bytes) : (Runtime.Extract.hex bytes).length = 2 * bytes.length := by
  induction bytes with
  | nil => rfl
  | cons byte bytes ih =>
      have parts : (Runtime.Extract.hex (byte :: bytes)).length =
          (Runtime.Extract.hex bytes).length + 2 := by
        rw [Runtime.Extract.hex, Runtime.Extract.hex, List.flatMap_cons, List.length_append,
          Nat.add_comm]
        rfl
      rw [parts, ih, List.length_cons]
      omega

theorem forall_mem_hex {holds : Char → Prop} (each : ∀ n < 16, holds (charOf (hexDigit n)))
    (bytes : Bytes) : ∀ c ∈ chars (Runtime.Extract.hex bytes), holds c := by
  induction bytes with
  | nil => exact fun _ member => absurd member List.not_mem_nil
  | cons byte bytes ih =>
      rw [hex_cons, List.forall_mem_cons, List.forall_mem_cons]
      exact ⟨each _ (high_lt byte), each _ (low_lt byte), ih⟩

theorem length_toHex (hash : Digest) : (toHex hash).length = 64 := by
  rw [toHex, chars, List.length_map, length_hex, hash.size]

theorem hexDigest_toHex (hash : Digest) :
    Runtime.Sets.hexDigest (Str.lowercase (toHex hash)) = some hash := by
  have same : Str.lowercase (toHex hash) = toHex hash := by
    rw [Str.lowercase]
    refine (List.map_congr_left ?_).trans (List.map_id _)
    exact forall_mem_hex (fun n small => (hexDigit_char n small).2.1) hash.bytes
  rw [same, Runtime.Sets.hexDigest, if_pos (length_toHex hash), toHex, hexBytes_hex]
  exact dif_pos hash.size

theorem toHex_plain (hash : Digest) : ∀ c ∈ toHex hash, c ≠ '\n' ∧ c ≠ '\r' ∧ c ≠ '~' :=
  forall_mem_hex (fun n small => (hexDigit_char n small).2.2) _

/-! ### An object is there -/

section
variable {world : World Bytes (Target Bytes) Held}

/-- Where the last component is not followed the walk is the same, or ends at a link. -/
theorem leg_unfollowed (place : List Bytes) (rest : List (Segment Bytes)) :
    world.leg false place rest = world.leg true place rest ∨
      ∃ stop target, world.leg false place rest = .found stop ∧
        world stop = some (.link target) := by
  induction rest generalizing place with
  | nil => exact Or.inl rfl
  | cons segment rest ih =>
      cases segment with
      | here =>
          rw [World.leg, World.leg]
          split_ifs
          · exact ih place
          · exact Or.inl rfl
      | up =>
          rw [World.leg, World.leg]
          split_ifs
          · exact ih place.dropLast
          · exact Or.inl rfl
      | name part =>
          rw [World.leg, World.leg]
          cases held : world (place ++ [part]) with
          | none => exact Or.inl rfl
          | some node =>
              cases node with
              | link target =>
                  by_cases last : (strip rest).isEmpty = true
                  · exact Or.inr ⟨place ++ [part], target, by simp [last], held⟩
                  · exact Or.inl (by simp [last])
              | dir => exact ih _
              | file content => exact ih _

theorem resolve_unfollowed {links left : Nat} {place stop : List Bytes}
    {rest : List (Segment Bytes)} (found : world.resolve true links place rest = .found left stop) :
    world.resolve false links place rest = .found left stop ∨
      ∃ left stop target, world.resolve false links place rest = .found left stop ∧
        world stop = some (.link target) := by
  induction links generalizing place rest with
  | zero =>
      rw [World.resolve] at found ⊢
      rcases @leg_unfollowed world place rest with same | ⟨stop, target, same, held⟩
      · rw [same]
        exact Or.inl found
      · rw [same]
        exact Or.inr ⟨0, stop, target, rfl, held⟩
  | succ links ih =>
      rw [World.resolve] at found ⊢
      rcases @leg_unfollowed world place rest with same | ⟨stop, target, same, held⟩
      · rw [same]
        cases reached : world.leg true place rest with
        | found stop =>
            rw [reached] at found
            exact Or.inl found
        | stuck stop rest =>
            rw [reached] at found
            cases found
        | link stop target rest =>
            rw [reached] at found
            exact ih found
      · rw [same]
        exact Or.inr ⟨links + 1, stop, target, rfl, held⟩

end

variable {blake3 : Bytes → Digest} {appdir : AppDir}

theorem hashEntry_of_isElf {path : Str} {hash : Option Digest} (elf : appdir.isElf path = true)
    (hashed : appdir.hashEntry blake3 path = .ok hash) : hash.isSome = true := by
  obtain ⟨left, place, found, file⟩ : ∃ left place, appdir.walk true path = .found left place ∧
      appdir.disk place ≠ none := by
    rw [AppDir.isElf] at elf
    split at elf
    · next left place found =>
        refine ⟨left, place, found, fun none => ?_⟩
        rw [none] at elf
        cases elf
    · cases elf
  have there : ∃ node, appdir.lstat path = .ok (some node) := by
    have met : ∃ left stop, appdir.walk false path = .found left stop ∧
        appdir.disk stop ≠ none := by
      by_cases trailing : (Target.ofText (Str.encodeUtf8 path)).segments.getLast? = some .here
      · refine ⟨left, place, ?_, file⟩
        rw [← found, AppDir.walk, AppDir.walk]
        simp only [trailing, decide_true, Bool.or_true]
      · rw [AppDir.walk] at found ⊢
        simp only [trailing, decide_false, Bool.or_false] at found ⊢
        rcases resolve_unfollowed found with same | ⟨left, stop, target, same, held⟩
        · exact ⟨left, place, same, file⟩
        · refine ⟨left, stop, same, fun none => ?_⟩
          rw [Disk.world_eq_none.mpr none] at held
          cases held
    obtain ⟨left, stop, reached, held⟩ := met
    obtain ⟨node, held⟩ := Option.ne_none_iff_exists'.mp held
    exact ⟨node, by rw [AppDir.lstat, reached, ← held]⟩
  obtain ⟨node, there⟩ := there
  rw [AppDir.hashEntry, there] at hashed
  cases node with
  | link target =>
      cases hashed
      rfl
  | dir =>
      cases hashed
      rfl
  | file content =>
      cases content with
      | regular bytes =>
          cases hashed
          rfl
      | special => cases hashed

/-! ### Lines -/

/-- A path whose line is read as it was written. -/
structure Legible (path : Str) : Prop where
  whole : '\n' ∉ path
  plain : path.head? ≠ some '#'
  kept : path.getLast? ≠ some '\r'

theorem hashLine_plain {line : Str} : hashLine line = none ↔ line.head? ≠ some '#' := by
  cases line with
  | nil => simp [hashLine]
  | cons c line =>
      by_cases hash : c = '#'
      · subst hash
        cases line with
        | nil => simp [hashLine]
        | cons next line =>
            by_cases mark : next = '~'
            · simp [hashLine, mark]
            · simp [hashLine, mark]
      · simp [hashLine, hash]

/-- The lines of an entry, without the ends of line. -/
def entryLines (entry : GeneratedEntry) : List Str :=
  entry.path :: match entry.hash with
    | none => []
    | some hash => ['#' :: (if entry.pending then ['~'] else []) ++ toHex hash]

theorem entryText_eq (entry : GeneratedEntry) :
    entryText entry = (entryLines entry).flatMap fun line => line ++ ['\n'] := by
  rw [entryText, entryLines]
  cases entry.hash with
  | none => simp
  | some hash => simp

theorem hashLine_written (pending : Bool) (hash : Digest) :
    hashLine ('#' :: (if pending then ['~'] else []) ++ toHex hash) =
      some (toHex hash, pending) := by
  cases pending with
  | true => rfl
  | false =>
      cases digits : toHex hash with
      | nil => rfl
      | cons c rest =>
          have first : c ∈ toHex hash := by
            rw [digits]
            exact List.mem_cons_self
          have other : c ≠ '~' := (toHex_plain hash c first).2.2
          simp [hashLine, other]

theorem written_kept (pending : Bool) (hash : Digest) :
    Str.dropReturn ('#' :: (if pending then ['~'] else []) ++ toHex hash) =
      '#' :: (if pending then ['~'] else []) ++ toHex hash := by
  have some : toHex hash ≠ [] := by
    intro none
    have long := length_toHex hash
    rw [none] at long
    cases long
  rw [Str.dropReturn, if_neg]
  rw [List.getLast?_append_of_ne_nil _ some]
  intro ends
  exact (toHex_plain hash _ (List.mem_of_getLast? ends)).2.1 rfl

theorem written_whole (pending : Bool) (hash : Digest) :
    '\n' ∉ '#' :: (if pending then ['~'] else []) ++ toHex hash := by
  intro inside
  rw [List.cons_append, List.mem_cons, List.mem_append] at inside
  rcases inside with same | mark | digit
  · cases same
  · cases pending with
    | true => exact absurd mark (by decide)
    | false => exact absurd mark List.not_mem_nil
  · exact (toHex_plain hash _ digit).1 rfl

theorem lines_flatMap {texts : List Str} (whole : ∀ line ∈ texts, '\n' ∉ line) :
    Str.lines (texts.flatMap fun line => line ++ ['\n']) = texts.map Str.dropReturn := by
  induction texts with
  | nil => rfl
  | cons line texts ih =>
      rw [List.forall_mem_cons] at whole
      rw [List.flatMap_cons, List.append_assoc, List.singleton_append, Str.lines_append whole.1,
        ih whole.2, List.map_cons]

/-- A line that names a path of ours. -/
def isPathLine (line : Str) : Bool := (hashLine line).isNone && insideAppdir line

theorem nonempty_of_inside {path : Str} (inside : insideAppdir path = true) : path ≠ [] := by
  rintro rfl
  cases inside

/-- The lines of a written ledger none of whose paths breaks. -/
theorem parseLedger_written {entries : List GeneratedEntry}
    (whole : ∀ entry ∈ entries, '\n' ∉ entry.path) :
    parseLedger (header ++ '\n' :: entries.flatMap entryText) = parseHashed [] none
      (((entries.flatMap entryLines).map Str.dropReturn).filter (· ≠ [])) := by
  have texts : entries.flatMap entryText =
      (entries.flatMap entryLines).flatMap fun line => line ++ ['\n'] := by
    rw [List.flatMap_assoc]
    exact List.flatMap_congr fun entry _ => entryText_eq entry
  have lines : ∀ line ∈ entries.flatMap entryLines, '\n' ∉ line := by
    intro line member
    obtain ⟨entry, held, inside⟩ := List.mem_flatMap.mp member
    rw [entryLines] at inside
    rcases List.mem_cons.mp inside with rfl | later
    · exact whole entry held
    · cases hashed : entry.hash with
      | none =>
          rw [hashed] at later
          cases later
      | some hash =>
          rw [hashed, List.mem_singleton] at later
          rw [later]
          exact written_whole entry.pending hash
  have first : Str.lines (header ++ '\n' :: entries.flatMap entryText) =
      header :: (entries.flatMap entryLines).map Str.dropReturn := by
    rw [Str.lines_append (by decide), texts, lines_flatMap lines]
    rfl
  rw [parseLedger, first, List.filter_cons_of_pos (by decide)]
  exact if_pos rfl

theorem parseHashed_paths {entries after : List GeneratedEntry} {awaiting : Option Nat}
    {lines : List Str} (parsed : parseHashed entries awaiting lines = .ok after) :
    after.map (·.path) = entries.map (·.path) ++ lines.filter isPathLine := by
  induction lines generalizing entries awaiting with
  | nil =>
      rw [parseHashed] at parsed
      cases parsed
      rw [List.filter_nil, List.append_nil]
  | cons line lines ih =>
      rw [parseHashed] at parsed
      split at parsed
      · next plain =>
          split_ifs at parsed with inside
          · rw [ih parsed, List.filter_cons_of_pos (by rw [isPathLine, plain, inside]; rfl),
              List.map_append, List.append_assoc]
            rfl
          · rw [ih parsed, List.filter_cons_of_neg]
            rw [isPathLine, Bool.not_eq_true _ |>.mp inside, Bool.and_false]
            exact Bool.false_ne_true
      · next hex pending marked =>
          have skipped : ¬isPathLine line = true := by
            rw [isPathLine, marked]
            exact Bool.false_ne_true
          rw [List.filter_cons_of_neg skipped]
          split at parsed
          · cases parsed
          · next index owner found =>
              split_ifs at parsed
              split at parsed
              · cases parsed
              · next hash digest =>
                  rw [ih parsed]
                  obtain ⟨place, -, held⟩ := Option.bind_eq_some_iff.mp found
                  obtain ⟨own, there, same⟩ := Option.map_eq_some_iff.mp held
                  cases same
                  obtain ⟨inside, same⟩ := List.getElem?_eq_some_iff.mp there
                  have kept : (entries.map (·.path)).set index owner.path =
                      entries.map (·.path) := by
                    apply List.ext_getElem?
                    intro other
                    rw [List.getElem?_set]
                    split_ifs with here
                    · rw [List.getElem?_map, ← here, there]
                      rfl
                    · next outside =>
                        rw [List.length_map] at outside
                        exact absurd inside outside
                    · rfl
                  rw [List.map_set, kept]

theorem parseHashed_pending {entries after : List GeneratedEntry} {awaiting : Option Nat}
    {lines : List Str} (settled : ∀ entry ∈ entries, entry.hash = none → entry.pending = false)
    (parsed : parseHashed entries awaiting lines = .ok after) :
    ∀ entry ∈ after, entry.hash = none → entry.pending = false := by
  induction lines generalizing entries awaiting with
  | nil =>
      rw [parseHashed] at parsed
      cases parsed
      exact settled
  | cons line lines ih =>
      rw [parseHashed] at parsed
      split at parsed
      · split_ifs at parsed
        · refine ih ?_ parsed
          intro entry member
          rcases List.mem_append.mp member with before | last
          · exact settled entry before
          · rw [List.mem_singleton.mp last]
            exact fun _ => rfl
        · exact ih settled parsed
      · split at parsed
        · cases parsed
        · split_ifs at parsed
          split at parsed
          · cases parsed
          · refine ih ?_ parsed
            intro entry member
            rcases List.mem_or_eq_of_mem_set member with before | rfl
            · exact settled entry before
            · exact fun none => absurd none (Option.some_ne_none _)

/-- Written entries, read line by line. -/
theorem parseHashed_entries {entries : List GeneratedEntry}
    (plain : ∀ entry ∈ entries, insideAppdir entry.path = true ∧ entry.path.head? ≠ some '#' ∧
      (entry.hash = none → entry.pending = false)) (acc : List GeneratedEntry)
    (awaiting : Option Nat) :
    parseHashed acc awaiting (entries.flatMap entryLines) = .ok (acc ++ entries) := by
  induction entries generalizing acc awaiting with
  | nil => rw [List.flatMap_nil, parseHashed, List.append_nil]
  | cons entry entries ih =>
      rw [List.forall_mem_cons] at plain
      obtain ⟨⟨inside, path, settled⟩, others⟩ := plain
      have later := ih others
      rw [List.flatMap_cons, entryLines, List.cons_append, parseHashed,
        hashLine_plain.mpr path]
      dsimp only
      rw [if_pos inside]
      cases hashed : entry.hash with
      | none =>
          have same : (⟨entry.path, none, false⟩ : GeneratedEntry) = entry := by
            rw [← hashed, ← settled hashed]
          rw [List.nil_append, later, same, List.append_assoc, List.singleton_append]
      | some hash =>
          have same : (⟨entry.path, some hash, entry.pending⟩ : GeneratedEntry) = entry := by
            rw [← hashed]
          dsimp only
          rw [List.singleton_append, parseHashed, hashLine_written]
          have awaited : (some acc.length).bind (fun index =>
              ((acc ++ [⟨entry.path, none, false⟩])[index]?).map (index, ·)) =
              some (acc.length, (⟨entry.path, none, false⟩ : GeneratedEntry)) := by
            rw [Option.bind_some, List.getElem?_concat_length]
            rfl
          have placed : (acc ++ [(⟨entry.path, none, false⟩ : GeneratedEntry)]).set acc.length
              ⟨entry.path, some hash, entry.pending⟩ = acc ++ [entry] := by
            rw [same]
            simp
          dsimp only
          rw [awaited]
          dsimp only
          rw [Option.isSome_none, if_neg Bool.false_ne_true, hexDigest_toHex]
          dsimp only
          rw [placed, later, List.append_assoc, List.singleton_append]

/-! ### A written ledger read back -/

/-- How many bytes an entry's lines take. -/
def entrySize (entry : GeneratedEntry) : Nat :=
  (Str.encodeUtf8 entry.path).length + 1 + match entry.hash with
    | none => 0
    | some _ => if entry.pending then 67 else 66

theorem length_entryText (entry : GeneratedEntry) :
    (Str.encodeUtf8 (entryText entry)).length = entrySize entry := by
  have digits (hash : Digest) : (Str.encodeUtf8 (toHex hash)).length = 64 := by
    have ascii : ∀ byte ∈ Runtime.Extract.hex hash.bytes, byte < 0x80 := by
      have digit : ∀ n < 16, hexDigit n < 0x80 := by decide
      intro byte member
      obtain ⟨own, -, pair⟩ := List.mem_flatMap.mp member
      rcases List.mem_cons.mp pair with rfl | last
      · exact digit _ (high_lt own)
      · rw [List.mem_singleton.mp last]
        exact digit _ (low_lt own)
    rw [toHex, encodeUtf8_chars ascii, length_hex, hash.size]
  have feed : (Str.encodeUtf8 ['\n']).length = 1 := rfl
  rw [entrySize, entryText]
  cases entry.hash with
  | none =>
      rw [encodeUtf8_append, List.length_append, feed]
      rfl
  | some hash =>
      have mark : (Str.encodeUtf8 ('\n' :: '#' :: if entry.pending then ['~'] else [])).length =
          if entry.pending then 3 else 2 := by
        cases entry.pending <;> rfl
      have parts : entry.path ++ '\n' :: ('#' :: (if entry.pending then ['~'] else []) ++
          toHex hash ++ ['\n']) = entry.path ++
            (('\n' :: '#' :: if entry.pending then ['~'] else []) ++ (toHex hash ++ ['\n'])) := by
        simp
      dsimp only
      rw [parts, encodeUtf8_append, encodeUtf8_append, encodeUtf8_append, List.length_append,
        List.length_append, List.length_append, mark, digits, feed]
      cases entry.pending <;> rfl

theorem length_writeGenerated (entries : List GeneratedEntry) :
    (writeGenerated entries).length = 13 + (entries.map entrySize).sum := by
  have texts : (Str.encodeUtf8 (entries.flatMap entryText)).length =
      (entries.map entrySize).sum := by
    induction entries with
    | nil => rfl
    | cons entry entries ih =>
        rw [List.flatMap_cons, encodeUtf8_append, List.length_append, length_entryText, ih]
        rfl
  have parts : header ++ '\n' :: entries.flatMap entryText =
      (header ++ ['\n']) ++ entries.flatMap entryText := by
    rw [List.append_assoc, List.singleton_append]
  rw [writeGenerated, parts, encodeUtf8_append, List.length_append, texts]
  rfl

theorem readGenerated_text {text : Str} {after : List GeneratedEntry} :
    readGenerated (some (Str.encodeUtf8 text)) = .ok after ↔
      (Str.encodeUtf8 text).length ≤ limit ∧ parseLedger text = .ok after := by
  rw [readGenerated]
  by_cases small : (Str.encodeUtf8 text).length ≤ limit
  · have whole : (Str.encodeUtf8 text).take (limit + 1) = Str.encodeUtf8 text :=
      List.take_of_length_le (by omega)
    rw [whole, Str.validUtf8_encodeUtf8, if_neg (by decide), if_neg (not_lt.mpr small),
      Str.fromUtf8Lossy_encodeUtf8]
    exact (and_iff_right small).symm
  · have long : ((Str.encodeUtf8 text).take (limit + 1)).length > limit := by
      rw [List.length_take]
      omega
    split_ifs
    · simp [small]
    · simp [small]

/-- Entries a ledger can hold. -/
def Admitted (entries : List GeneratedEntry) : Prop :=
  ∀ entry ∈ entries, insideAppdir entry.path = true ∧ (entry.hash = none → entry.pending = false)

theorem inside_of_read {ledger : Option Bytes} {entries : List GeneratedEntry}
    (read : readGenerated ledger = .ok entries) : Admitted entries := by
  have parsed {text : Str} (parsed : parseLedger text = .ok entries) : Admitted entries := by
    rw [parseLedger] at parsed
    split at parsed
    · cases parsed
      exact fun _ member => absurd member List.not_mem_nil
    · next first lines held =>
        split_ifs at parsed
        · intro entry member
          refine ⟨?_, parseHashed_pending (fun _ none => absurd none List.not_mem_nil) parsed entry
            member⟩
          have listed := @List.mem_map_of_mem _ _ _ _ GeneratedEntry.path member
          rw [parseHashed_paths parsed, List.map_nil, List.nil_append, List.mem_filter, isPathLine,
            Bool.and_eq_true] at listed
          exact listed.2.2
        · cases parsed
          intro entry member
          obtain ⟨path, listed, rfl⟩ := List.mem_map.mp member
          exact ⟨(List.mem_filter.mp listed).2, fun _ => rfl⟩
  cases ledger with
  | none =>
      cases read
      exact fun _ member => absurd member List.not_mem_nil
  | some bytes =>
      rw [readGenerated] at read
      split_ifs at read
      exact parsed read

theorem read_written {entries : List GeneratedEntry} (admitted : Admitted entries)
    (legible : ∀ entry ∈ entries, Legible entry.path)
    (small : 13 + (entries.map entrySize).sum ≤ limit) :
    readGenerated (some (writeGenerated entries)) = .ok entries := by
  rw [← length_writeGenerated] at small
  refine readGenerated_text.mpr ⟨small, ?_⟩
  rw [parseLedger_written fun entry member => (legible entry member).whole]
  have lines : ∀ line ∈ entries.flatMap entryLines, Str.dropReturn line = line ∧ line ≠ [] := by
    intro line member
    obtain ⟨entry, held, inside⟩ := List.mem_flatMap.mp member
    rw [entryLines] at inside
    rcases List.mem_cons.mp inside with rfl | later
    · exact ⟨if_neg (legible entry held).kept, nonempty_of_inside (admitted entry held).1⟩
    · cases hashed : entry.hash with
      | none =>
          rw [hashed] at later
          cases later
      | some hash =>
          rw [hashed, List.mem_singleton] at later
          rw [later]
          exact ⟨written_kept entry.pending hash, by simp⟩
  rw [List.map_congr_left fun line member => (lines line member).1, List.map_id',
    List.filter_eq_self.mpr fun line member => by simpa using (lines line member).2]
  exact parseHashed_entries (fun entry member => ⟨(admitted entry member).1,
    (legible entry member).plain, (admitted entry member).2⟩) [] none

/-- A written path is read back only where its line is. -/
theorem legible_of_read {entries after : List GeneratedEntry}
    (read : readGenerated (some (writeGenerated entries)) = .ok after)
    (kept : ∀ entry ∈ entries, entry.path ∈ after.map (·.path)) :
    (∀ entry ∈ entries, Legible entry.path) ∧ 13 + (entries.map entrySize).sum ≤ limit := by
  obtain ⟨small, parsed⟩ := readGenerated_text.mp read
  have text : (writeGenerated entries).length ≤ limit := small
  rw [length_writeGenerated] at text
  refine ⟨?_, text⟩
  have shape : ∀ entry ∈ entries, '\n' ∉ entry.path ∧ entry.path.head? ≠ some '#' := by
    intro entry member
    have first : Str.lines (header ++ '\n' :: entries.flatMap entryText) =
        header :: Str.lines (entries.flatMap entryText) := by
      rw [Str.lines_append (by decide)]
      rfl
    rw [parseLedger, first, List.filter_cons_of_pos (by decide)] at parsed
    have listed := kept entry member
    rw [parseHashed_paths ((if_pos rfl).symm.trans parsed), List.map_nil, List.nil_append,
      List.mem_filter, List.mem_filter, isPathLine, Bool.and_eq_true, Option.isNone_iff_eq_none]
      at listed
    exact ⟨Str.lines_whole listed.1.1, hashLine_plain.mp listed.2.1⟩
  rw [parseLedger_written fun entry member => (shape entry member).1] at parsed
  -- a path that ends in a carriage return is the line of one that ends in one more
  have longer {entry : GeneratedEntry} (member : entry ∈ entries)
      (ends : entry.path.getLast? = some '\r') : ∃ other ∈ entries,
        other.path.getLast? = some '\r' ∧ entry.path.length < other.path.length := by
    have listed := kept entry member
    rw [parseHashed_paths parsed, List.map_nil, List.nil_append, List.mem_filter,
      List.mem_filter] at listed
    obtain ⟨line, held, same⟩ := List.mem_map.mp listed.1.1
    obtain ⟨other, inside, written⟩ := List.mem_flatMap.mp held
    rw [entryLines] at written
    rcases List.mem_cons.mp written with rfl | later
    · rw [Str.dropReturn] at same
      split_ifs at same with returned
      · obtain ⟨front, shape⟩ := List.getLast?_eq_some_iff.mp returned
        refine ⟨other, inside, returned, ?_⟩
        rw [← same, shape, List.dropLast_concat, List.length_append, List.length_singleton]
        exact Nat.lt_succ_self _
      · rw [same] at returned
        exact absurd ends returned
    · exfalso
      cases hashed : other.hash with
      | none =>
          rw [hashed] at later
          cases later
      | some hash =>
          rw [hashed, List.mem_singleton] at later
          rw [later, written_kept] at same
          apply (shape entry member).2
          rw [← same]
          rfl
  have unbounded (bound : Nat) {entry : GeneratedEntry} (member : entry ∈ entries)
      (ends : entry.path.getLast? = some '\r') : ∃ other ∈ entries, bound ≤ other.path.length := by
    have grown : ∃ other ∈ entries, other.path.getLast? = some '\r' ∧
        bound ≤ other.path.length := by
      induction bound with
      | zero => exact ⟨entry, member, ends, Nat.zero_le _⟩
      | succ bound ih =>
          obtain ⟨other, held, last, long⟩ := ih
          obtain ⟨next, inside, tail, more⟩ := longer held last
          exact ⟨next, inside, tail, by omega⟩
    obtain ⟨other, held, -, long⟩ := grown
    exact ⟨other, held, long⟩
  intro entry member
  refine ⟨(shape entry member).1, (shape entry member).2, fun ends => ?_⟩
  obtain ⟨other, held, long⟩ :=
    unbounded ((entries.map (·.path.length)).sum + 1) member ends
  have listed : other.path.length ∈ entries.map (·.path.length) :=
    List.mem_map.mpr ⟨other, held, rfl⟩
  have most := List.single_le_sum (fun n _ => Nat.zero_le n) _ listed
  omega

/-! ### Merging -/

/-- The entry a path is recorded with. -/
def newEntry (blake3 : Bytes → Digest) (appdir : AppDir) (path : Str) : GeneratedEntry :=
  ⟨path, (appdir.hashEntry blake3 path).toOption.join, appdir.isElf path⟩

/-- The paths the ledger has to hold. -/
def recordedPaths (previous : List GeneratedEntry) (paths : List Str) : Finset Str :=
  (previous.map (·.path) ++ paths.filter insideAppdir).toFinset

/-- What the ledger has to hold for one of them. -/
def expected (blake3 : Bytes → Digest) (appdir : AppDir) (previous : List GeneratedEntry)
    (paths : List Str) (path : Str) : GeneratedEntry :=
  if paths.contains path then newEntry blake3 appdir path
  else (previous.find? (·.path = path)).getD ⟨path, none, false⟩

theorem get?_insertAll_some {entries : List (Str × GeneratedEntry)} {path : Str}
    (map : SortedMap Str GeneratedEntry) (named : ∃ entry ∈ entries, entry.1 = path) :
    ∃ entry ∈ entries, entry.1 = path ∧ (map.insertAll entries).get? path = some entry.2 := by
  induction entries generalizing map with
  | nil => obtain ⟨_, member, -⟩ := named; cases member
  | cons first entries ih =>
      rw [SortedMap.insertAll_cons]
      by_cases later : ∃ entry ∈ entries, entry.1 = path
      · obtain ⟨entry, member, same, held⟩ := ih (map.insert first.1 first.2) later
        exact ⟨entry, List.mem_cons_of_mem _ member, same, held⟩
      · obtain ⟨entry, member, same⟩ := named
        have here : entry = first := by
          rcases List.mem_cons.mp member with here | inside
          · exact here
          · exact absurd ⟨entry, inside, same⟩ later
        refine ⟨first, List.mem_cons_self, here ▸ same, ?_⟩
        rw [SortedMap.get?_insertAll_of_absent fun other inside own => later ⟨other, inside, own⟩,
          SortedMap.get?_insert, if_pos (here ▸ same)]

/-- Paths named anew, one after another. -/
theorem get?_record {paths : List Str} {map merged : SortedMap Str GeneratedEntry}
    (ran : paths.foldlM (fun merged path => do
      let hash ← appdir.hashEntry blake3 path
      .ok (merged.insert path ⟨path, hash, appdir.isElf path⟩)) map = .ok merged) (path : Str) :
    merged.get? path =
        (if path ∈ paths then some (newEntry blake3 appdir path) else map.get? path) ∧
      (path ∈ paths → ∃ hash, appdir.hashEntry blake3 path = .ok hash) := by
  induction paths generalizing map with
  | nil =>
      cases ran
      simp
  | cons first paths ih =>
      rw [List.foldlM_cons] at ran
      cases hashed : appdir.hashEntry blake3 first with
      | error e =>
          rw [hashed] at ran
          cases ran
      | ok hash =>
          rw [hashed] at ran
          obtain ⟨held, settled⟩ := ih ran
          have own : newEntry blake3 appdir first = ⟨first, hash, appdir.isElf first⟩ := by
            rw [newEntry, hashed]
            rfl
          constructor
          · rw [held, SortedMap.get?_insert]
            by_cases later : path ∈ paths
            · rw [if_pos later, if_pos (List.mem_cons_of_mem _ later)]
            · by_cases here : first = path
              · rw [if_neg later, if_pos here, if_pos (here ▸ List.mem_cons_self), ← here, own]
              · rw [if_neg later, if_neg here, if_neg]
                rw [List.mem_cons, not_or]
                exact ⟨Ne.symm here, later⟩
          · intro member
            rcases List.mem_cons.mp member with rfl | later
            · exact ⟨hash, hashed⟩
            · exact settled later

/-- Entries of one path that is not named again are one entry. -/
def Agreeing (previous : List GeneratedEntry) (paths : List Str) : Prop :=
  ∀ entry ∈ previous, ∀ other ∈ previous, entry.path = other.path → entry.path ∉ paths →
    entry = other

variable {previous : List GeneratedEntry} {paths : List Str}

theorem mem_recordedPaths {path : Str} : path ∈ recordedPaths previous paths ↔
    (∃ entry ∈ previous, entry.path = path) ∨ path ∈ paths ∧ insideAppdir path = true := by
  rw [recordedPaths, List.mem_toFinset, List.mem_append, List.mem_map, List.mem_filter]

theorem expected_path (path : Str) :
    (expected blake3 appdir previous paths path).path = path := by
  rw [expected]
  split_ifs
  · rfl
  · cases found : previous.find? (·.path = path) with
    | none => rfl
    | some entry => simpa using List.find?_some found

theorem expected_named {path : Str} (named : path ∈ paths) :
    expected blake3 appdir previous paths path = newEntry blake3 appdir path := by
  rw [expected, if_pos (List.contains_iff_mem.mpr named)]

theorem expected_previous (agreeing : Agreeing previous paths) {entry : GeneratedEntry}
    (member : entry ∈ previous) (fresh : entry.path ∉ paths) :
    expected blake3 appdir previous paths entry.path = entry := by
  rw [expected, if_neg fun named => fresh (List.contains_iff_mem.mp named)]
  cases found : previous.find? (·.path = entry.path) with
  | none => exact absurd (List.find?_eq_none.mp found entry member) (by simp)
  | some other =>
      have same : other.path = entry.path := by simpa using List.find?_some found
      exact agreeing other (List.mem_of_find?_eq_some found) entry member same (same ▸ fresh)

/-- What is written is what every path has to be held with. -/
theorem recordGenerated_eq_ok (read : readGenerated appdir.ledger = .ok previous)
    (agreeing : Agreeing previous paths) {written : Bytes}
    (ran : recordGenerated blake3 appdir paths = .ok written) :
    (∀ path ∈ paths, insideAppdir path = true → ∃ hash, appdir.hashEntry blake3 path = .ok hash) ∧
    ∃ keys : List Str, keys.Nodup ∧ keys.toFinset = recordedPaths previous paths ∧
      written = writeGenerated (keys.map (expected blake3 appdir previous paths)) := by
  have inside := inside_of_read read
  rw [recordGenerated, read] at ran
  obtain ⟨_, same, ran⟩ := Except.andThen_eq_ok.mp ran
  cases same
  obtain ⟨merged, folded, same⟩ := Except.andThen_eq_ok.mp ran
  cases same
  have held {path : Str} {entry : GeneratedEntry} (found : merged.get? path = some entry) :
      path ∈ recordedPaths previous paths ∧
        entry = expected blake3 appdir previous paths path := by
    rw [(get?_record folded path).1] at found
    split_ifs at found with named
    · have member := List.mem_filter.mp named
      refine ⟨mem_recordedPaths.mpr (Or.inr member), ?_⟩
      rw [expected_named member.1]
      exact (Option.some.inj found).symm
    · by_cases earlier : ∃ own ∈ previous.map (fun entry => (entry.path, entry)), own.1 = path
      · obtain ⟨own, member, label, kept⟩ := get?_insertAll_some SortedMap.empty earlier
        obtain ⟨old, listed, rfl⟩ := List.mem_map.mp member
        rw [kept, Option.some.injEq] at found
        have fresh : old.path ∉ paths := fun again =>
          named (label ▸ List.mem_filter.mpr ⟨again, (inside old listed).1⟩)
        rw [← label, ← found]
        exact ⟨mem_recordedPaths.mpr (Or.inl ⟨old, listed, rfl⟩),
          (expected_previous agreeing listed fresh).symm⟩
      · rw [SortedMap.get?_insertAll_of_absent fun own member label => earlier ⟨own, member, label⟩]
          at found
        cases found
  have reached {path : Str} (named : path ∈ recordedPaths previous paths) :
      path ∈ merged.keys := by
    rw [SortedMap.mem_keys_iff, (get?_record folded path).1]
    split_ifs with again
    · rfl
    · rcases mem_recordedPaths.mp named with ⟨old, listed, label⟩ | member
      · have earlier : ∃ own ∈ previous.map (fun entry => (entry.path, entry)), own.1 = path :=
          ⟨_, List.mem_map_of_mem listed, label⟩
        obtain ⟨own, -, -, kept⟩ := get?_insertAll_some SortedMap.empty earlier
        rw [kept]
        rfl
      · exact absurd (List.mem_filter.mpr member) again
  refine ⟨fun path member own => (get?_record folded path).2 (List.mem_filter.mpr ⟨member, own⟩),
    merged.keys, nodup_of_sorted merged.keys_sorted, ?_, ?_⟩
  · ext path
    rw [List.mem_toFinset]
    constructor
    · intro member
      obtain ⟨entry, found⟩ := Option.isSome_iff_exists.mp ((merged.mem_keys_iff path).mp member)
      exact (held found).1
    · exact reached
  · rw [SortedMap.keys, List.map_map]
    congr 1
    apply List.map_congr_left
    rintro ⟨path, entry⟩ member
    exact (held ((merged.mem_entries_iff path entry).mp member)).2

theorem attestGenerated_eq_ok (read : readGenerated appdir.ledger = .ok previous) {written : Bytes}
    (ran : attestGenerated blake3 appdir = .ok written) :
    written = writeGenerated (previous.map fun entry =>
      ⟨entry.path, (appdir.hashEntry blake3 entry.path).toOption.join, false⟩) := by
  rw [attestGenerated, read] at ran
  obtain ⟨_, same, ran⟩ := Except.andThen_eq_ok.mp ran
  cases same
  obtain ⟨entries, mapped, same⟩ := Except.andThen_eq_ok.mp ran
  cases same
  have paired := Except.mapM_eq_ok.mp mapped
  congr 1
  rw [← List.forall₂_eq_eq_eq, List.forall₂_map_right_iff]
  refine (List.Forall₂.flip paired).imp ?_
  intro entry old ran
  obtain ⟨hash, hashed, same⟩ := Except.andThen_eq_ok.mp ran
  rw [hashed]
  exact (Except.ok.inj same).symm

/-! ### What comes back -/

/-- Read back, each recorded path has its one entry and no other previous entry has changed. -/
def Recorded (blake3 : Bytes → Digest) (appdir : AppDir) (previous : List GeneratedEntry)
    (paths : List Str) (written : Bytes) : Prop :=
  ∃ after, readGenerated (some written) = .ok after ∧
    (∀ path ∈ paths, insideAppdir path = true → ∀ hash, appdir.hashEntry blake3 path = .ok hash →
      after.filter (·.path = path) = [⟨path, hash, appdir.isElf path⟩]) ∧
    (∀ entry ∈ previous, entry.path ∉ paths → after.filter (·.path = entry.path) = [entry]) ∧
    ∀ entry ∈ after, entry.path ∈ paths ∨ entry ∈ previous

/-- Read back, the paths are the same and none is pending. -/
def Attested (previous : List GeneratedEntry) (written : Bytes) : Prop :=
  ∃ after, readGenerated (some written) = .ok after ∧
    after.map (·.path) = previous.map (·.path) ∧ ∀ entry ∈ after, entry.pending = false

theorem filter_map_expected {keys : List Str} (distinct : keys.Nodup) {path : Str}
    (member : path ∈ keys) :
    (keys.map (expected blake3 appdir previous paths)).filter (·.path = path) =
      [expected blake3 appdir previous paths path] := by
  have alone : keys.filter (· = path) = [path] := by
    rw [List.filter_eq, List.count_eq_one_of_mem distinct member]
    rfl
  have same : ((fun entry : GeneratedEntry => decide (entry.path = path)) ∘
      expected blake3 appdir previous paths) = fun key => decide (key = path) := by
    funext key
    exact congrArg (fun own => decide (own = path)) (expected_path key)
  rw [List.filter_map, same, alone, List.map_singleton]

theorem isElf_hashed {path : Str} {hash : Option Digest}
    (hashed : appdir.hashEntry blake3 path = .ok hash) :
    (newEntry blake3 appdir path).hash = none → (newEntry blake3 appdir path).pending = false := by
  intro none
  rw [newEntry, hashed] at none
  cases elf : appdir.isElf path with
  | false => exact elf
  | true =>
      have some := hashEntry_of_isElf elf hashed
      rw [show hash = Option.none from none] at some
      cases some

theorem admitted_expected (read : readGenerated appdir.ledger = .ok previous)
    (agreeing : Agreeing previous paths)
    (hashed : ∀ path ∈ paths, insideAppdir path = true →
      ∃ hash, appdir.hashEntry blake3 path = .ok hash) {keys : List Str}
    (named : keys.toFinset = recordedPaths previous paths) :
    Admitted (keys.map (expected blake3 appdir previous paths)) := by
  intro entry member
  obtain ⟨path, listed, rfl⟩ := List.mem_map.mp member
  have inside := inside_of_read read
  rw [expected_path]
  rw [← List.mem_toFinset, named, mem_recordedPaths] at listed
  by_cases again : path ∈ paths
  · have own : insideAppdir path = true := by
      rcases listed with ⟨old, held, rfl⟩ | member
      · exact (inside old held).1
      · exact member.2
    obtain ⟨hash, found⟩ := hashed path again own
    rw [expected_named again]
    exact ⟨own, isElf_hashed found⟩
  · rcases listed with ⟨old, held, rfl⟩ | member
    · rw [expected_previous agreeing held again]
      exact inside old held
    · exact absurd member.1 again

/-- When the ledger holds what was recorded. -/
structure ReadsBack (blake3 : Bytes → Digest) (appdir : AppDir) (previous : List GeneratedEntry)
    (paths : List Str) : Prop where
  legible : ∀ path ∈ recordedPaths previous paths, Legible path
  agreeing : Agreeing previous paths
  small : 13 + ∑ path ∈ recordedPaths previous paths,
    entrySize (expected blake3 appdir previous paths path) ≤ limit

theorem recorded_iff (read : readGenerated appdir.ledger = .ok previous) {written : Bytes}
    (ran : recordGenerated blake3 appdir paths = .ok written) :
    Recorded blake3 appdir previous paths written ↔ ReadsBack blake3 appdir previous paths := by
  have size {keys : List Str} (distinct : keys.Nodup)
      (named : keys.toFinset = recordedPaths previous paths) :
      ((keys.map (expected blake3 appdir previous paths)).map entrySize).sum =
        ∑ path ∈ recordedPaths previous paths,
          entrySize (expected blake3 appdir previous paths path) := by
    rw [← named, List.sum_toFinset _ distinct, List.map_map]
    rfl
  constructor
  · rintro ⟨after, back, new, old, -⟩
    have agreeing : Agreeing previous paths := by
      intro entry member other held same fresh
      have first := old entry member fresh
      have second := old other held (same ▸ fresh)
      rw [← same, first] at second
      exact List.singleton_inj.mp second
    obtain ⟨hashed, keys, distinct, named, rfl⟩ := recordGenerated_eq_ok read agreeing ran
    have kept : ∀ entry ∈ keys.map (expected blake3 appdir previous paths),
        entry.path ∈ after.map (·.path) := by
      intro entry member
      obtain ⟨path, listed, rfl⟩ := List.mem_map.mp member
      rw [expected_path]
      have found {own : GeneratedEntry} (alone : after.filter (·.path = path) = [own]) :
          path ∈ after.map (·.path) := by
        have inside : own ∈ after.filter (·.path = path) := by
          rw [alone]
          exact List.mem_singleton_self own
        obtain ⟨there, label⟩ := List.mem_filter.mp inside
        exact List.mem_map.mpr ⟨own, there, of_decide_eq_true label⟩
      rw [← List.mem_toFinset, named, mem_recordedPaths] at listed
      by_cases again : path ∈ paths ∧ insideAppdir path = true
      · obtain ⟨hash, held⟩ := hashed path again.1 again.2
        exact found (new path again.1 again.2 hash held)
      · obtain ⟨entry, held, rfl⟩ := listed.resolve_right again
        refine found (old entry held fun more => again ⟨more, ?_⟩)
        exact (inside_of_read read entry held).1
    obtain ⟨legible, small⟩ := legible_of_read back kept
    refine ⟨fun path member => ?_, agreeing, size distinct named ▸ small⟩
    rw [← named, List.mem_toFinset] at member
    have own := legible _ (List.mem_map_of_mem member)
    rwa [expected_path] at own
  · rintro ⟨legible, agreeing, small⟩
    obtain ⟨hashed, keys, distinct, named, rfl⟩ := recordGenerated_eq_ok read agreeing ran
    have listed {path : Str} (member : path ∈ recordedPaths previous paths) : path ∈ keys := by
      rwa [← named, List.mem_toFinset] at member
    refine ⟨_, read_written (admitted_expected read agreeing hashed named) ?_
      ((size distinct named).symm ▸ small), ?_, ?_, ?_⟩
    · intro entry member
      obtain ⟨path, held, rfl⟩ := List.mem_map.mp member
      rw [expected_path]
      exact legible path (named ▸ List.mem_toFinset.mpr held)
    · intro path member inside hash held
      rw [filter_map_expected distinct (listed (mem_recordedPaths.mpr (Or.inr ⟨member, inside⟩))),
        expected_named member, newEntry, held]
      rfl
    · intro entry member fresh
      rw [filter_map_expected distinct
        (listed (mem_recordedPaths.mpr (Or.inl ⟨entry, member, rfl⟩))),
        expected_previous agreeing member fresh]
    · intro entry member
      obtain ⟨path, held, rfl⟩ := List.mem_map.mp member
      rw [expected_path]
      by_cases again : path ∈ paths
      · exact Or.inl again
      · rw [← List.mem_toFinset, named, mem_recordedPaths] at held
        obtain ⟨old, there, rfl⟩ := held.resolve_right fun more => again more.1
        rw [expected_previous agreeing there again]
        exact Or.inr there

/-- When the ledger holds what was attested. -/
structure AttestReadsBack (blake3 : Bytes → Digest) (appdir : AppDir)
    (previous : List GeneratedEntry) : Prop where
  legible : ∀ entry ∈ previous, Legible entry.path
  small : 13 + (previous.map fun entry => entrySize
    ⟨entry.path, (appdir.hashEntry blake3 entry.path).toOption.join, false⟩).sum ≤ limit

theorem attested_iff (read : readGenerated appdir.ledger = .ok previous) {written : Bytes}
    (ran : attestGenerated blake3 appdir = .ok written) :
    Attested previous written ↔ AttestReadsBack blake3 appdir previous := by
  rw [attestGenerated_eq_ok read ran]
  have paths : (previous.map fun entry => (⟨entry.path,
      (appdir.hashEntry blake3 entry.path).toOption.join, false⟩ : GeneratedEntry)).map (·.path) =
        previous.map (·.path) := by
    rw [List.map_map]
    rfl
  constructor
  · rintro ⟨after, back, same, -⟩
    obtain ⟨legible, small⟩ := legible_of_read back (by
      intro entry member
      rw [same, ← paths]
      exact List.mem_map_of_mem member)
    rw [List.map_map] at small
    refine ⟨fun entry member => ?_, small⟩
    exact legible ⟨entry.path, _, false⟩ (List.mem_map.mpr ⟨entry, member, rfl⟩)
  · rintro ⟨legible, small⟩
    refine ⟨_, read_written ?_ ?_ (by rw [List.map_map]; exact small), paths, ?_⟩
    · intro entry member
      obtain ⟨old, held, rfl⟩ := List.mem_map.mp member
      exact ⟨(inside_of_read read old held).1, fun _ => rfl⟩
    · intro entry member
      obtain ⟨old, held, rfl⟩ := List.mem_map.mp member
      exact legible old held
    · intro entry member
      obtain ⟨old, held, rfl⟩ := List.mem_map.mp member
      rfl

/-- The ledger reads back what was recorded exactly when every path's line does, no path had two
entries that differ, and the ledger stays within its limit; and so for what was attested. -/
theorem ledger_reads_back_iff (blake3 : Bytes → Digest) (appdir : AppDir)
    (previous : List GeneratedEntry) (paths : List Str)
    (read : readGenerated appdir.ledger = .ok previous) :
    (∀ written, recordGenerated blake3 appdir paths = .ok written →
      (Recorded blake3 appdir previous paths written ↔ ReadsBack blake3 appdir previous paths)) ∧
    ∀ written, attestGenerated blake3 appdir = .ok written →
      (Attested previous written ↔ AttestReadsBack blake3 appdir previous) :=
  ⟨fun _ ran => recorded_iff read ran, fun _ ran => attested_iff read ran⟩

/-! ### A path that begins as a hash line does -/

/-- An AppDir that holds nothing. -/
def bareDir (ledger : Option Bytes) : AppDir where
  disk place := if place = [] ∨ place = [utf8 "app"] then some .dir else none
  root := [utf8 "app"]
  ledger := ledger

def noDigest (_ : Bytes) : Digest := Format.zeroDigest

def bareLedger : Str := "generated-v2\nlib/b.so\n".toList

def bareEntry (path : String) : GeneratedEntry := ⟨path.toList, none, false⟩

theorem bareLedger_read : readGenerated (bareDir (some (Str.encodeUtf8 bareLedger))).ledger =
    .ok [bareEntry "lib/b.so"] :=
  readGenerated_text.mpr ⟨by decide, by decide⟩

theorem ledger_reads_back_bare :
    Recorded noDigest (bareDir (some (Str.encodeUtf8 bareLedger))) [bareEntry "lib/b.so"]
        ["lib/a.so".toList] (writeGenerated [bareEntry "lib/a.so", bareEntry "lib/b.so"]) ∧
      Attested [bareEntry "lib/b.so"] (writeGenerated [bareEntry "lib/b.so"]) := by
  obtain ⟨recorded, attested⟩ := ledger_reads_back_iff noDigest
    (bareDir (some (Str.encodeUtf8 bareLedger))) [bareEntry "lib/b.so"] ["lib/a.so".toList]
    bareLedger_read
  constructor
  · refine (recorded _ ?_).mpr ⟨?_, ?_, ?_⟩
    · rw [recordGenerated, bareLedger_read]
      rfl
    · intro path member
      rcases mem_recordedPaths.mp member with ⟨entry, held, rfl⟩ | ⟨held, -⟩
      · rw [List.mem_singleton.mp held]
        exact ⟨by decide, by decide, by decide⟩
      · rw [List.mem_singleton.mp held]
        exact ⟨by decide, by decide, by decide⟩
    · intro entry first other second _ _
      rw [List.mem_singleton.mp first, List.mem_singleton.mp second]
    · decide
  · refine (attested _ ?_).mpr ⟨?_, by decide⟩
    · rw [attestGenerated, bareLedger_read]
      rfl
    · intro entry member
      rw [List.mem_singleton.mp member]
      exact ⟨by decide, by decide, by decide⟩

/-- A file named `#a` is recorded, and the ledger is then malformed. -/
theorem hash_path_malformed : ∃ written,
    recordGenerated noDigest (bareDir none) ["#a".toList] = .ok written ∧
      ¬Recorded noDigest (bareDir none) [] ["#a".toList] written := by
  refine ⟨writeGenerated [bareEntry "#a"], rfl, ?_⟩
  rintro ⟨after, back, -⟩
  have parsed := (readGenerated_text.mp back).2
  have refused : parseLedger (header ++ '\n' :: [bareEntry "#a"].flatMap entryText) =
      .error (.malformed "#a".toList "a hash line with no path above it".toList) := by decide
  rw [refused] at parsed
  cases parsed

end Onelf.Cli.Bundle.Ledger
