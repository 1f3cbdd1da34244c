import Mathlib.Data.List.Flatten
import Onelf.Cli.Bundle.Traced
import Onelf.Lib.Pieces
import Onelf.Lib.Relative
import Onelf.Sysroot.Path

/-! A module cache made to name the bundle's own modules (`bundle/sysroot.rs`). -/

namespace Onelf.Cli.Bundle.ModuleCache

open Onelf.Lib
open Onelf.Sysroot (Rootfs maxLinks)

/-! ### Paths -/

/-- `PathBuf::push` -/
def push (path part : Bytes) : Bytes :=
  if part.head? = some 47 then part
  else if path = [] ∨ path.getLast? = some 47 then path ++ part
  else path ++ 47 :: part

def componentText : Component → Bytes
  | .root => utf8 "/"
  | .current => utf8 "."
  | .parent => utf8 ".."
  | .normal name => name

/-- `target` expressed relative to the directory `dir`, both relative to the same root. -/
def relativePath (dir target : List Component) : Bytes :=
  let parts := apart dir target
  let out := (List.replicate parts.1.length (utf8 "..") ++ parts.2.map componentText).foldl push []
  if out = [] then utf8 "." else out

/-- Where the tree has what a sysroot keeps at `absolute`. -/
def mapped (absolute : Str) : Bytes := appdirPath (Str.encodeUtf8 (absolute.dropWhile (· = '/')))

/-- A tree on a disk, and the directory of it a cache stands in. -/
structure Site (α : Type) where
  rootfs : Rootfs α
  dir : List Bytes
  stands : rootfs.world dir = some .dir

namespace Site

variable {α : Type} (site : Site α)

/-- Where `path`, joined to the tree, leads; an absolute one leaves the tree. -/
def follow (path : Bytes) : Outcome Bytes :=
  site.rootfs.disk.world.resolve true maxLinks []
    (if path.head? = some 47 then (Target.ofText path).segments
      else site.rootfs.root.map .name ++ (Target.ofText path).segments)

/-- `Path::is_file` of `path` joined to the tree. -/
def isFile (path : Bytes) : Bool :=
  match site.follow path with
  | .found _ place =>
      match site.rootfs.disk place with
      | some (.file _) => true
      | _ => false
  | _ => false

/-- The path `absolute` names, as the cache should spell it, when the tree holds that file. -/
def relativeInTree (absolute : Str) : Option Str :=
  if site.isFile (mapped absolute) then
    some (Str.fromUtf8Lossy (relativePath (site.dir.map .normal) (components (mapped absolute))))
  else none

end Site

/-! ### Lines -/

/-- What stands before the first path in quotes, its quote included, and what follows. -/
def findPath : Str → Option (Str × Str)
  | '"' :: '/' :: rest => some (['"'], '/' :: rest)
  | c :: rest => (findPath rest).map fun (before, after) => (c :: before, after)
  | [] => none

/-- The loop of `relocate_paths`, `n` times at most. -/
def relocatePathsFrom (respell : Str → Option Str) : Nat → Str → Str
  | 0, rest => rest
  | n + 1, rest =>
      match findPath rest with
      | none => rest
      | some (before, after) =>
          if '"' ∈ after then
            let path := after.takeWhile (· ≠ '"')
            before ++ (respell path).getD path ++
              relocatePathsFrom respell n (after.dropWhile (· ≠ '"'))
          else before ++ after

/-- `line` with every quoted absolute path that has another spelling rewritten. -/
def relocatePaths (respell : Str → Option Str) (line : Str) : Str :=
  relocatePathsFrom respell line.length line

def trimEnd (text : Str) : Str := text.rdropWhile Str.isWhitespace

/-- The path of a line that holds only a quoted absolute path. -/
def modulePath (body : Str) : Option Str :=
  ((Str.stripPrefix '"' body).bind (Str.stripSuffix '"')).filter fun path =>
    path.head? = some '/' && !path.contains '"'

/-- The loop over the lines; a module that is not there takes its lines up to a blank one along. -/
def relocateLines (respell : Str → Option Str) : Bool → List Str → Str
  | _, [] => []
  | dropping, line :: lines =>
      let body := trimEnd line
      if dropping then relocateLines respell (!body.isEmpty) lines
      else
        match modulePath body with
        | some path =>
            match respell path with
            | some relative =>
                '"' :: relative ++ '"' :: line.drop body.length ++
                  relocateLines respell false lines
            | none => relocateLines respell true lines
        | none => relocatePaths respell line ++ relocateLines respell false lines

/-- `relocate_cache`: the text the cache then holds. -/
def Site.relocateCache {α : Type} (site : Site α) (text : Str) : Str :=
  relocateLines site.relativeInTree false (splitInclusive '\n' text)

/-! ### The loop over one line -/

section
variable {respell : Str → Option Str}

/-- What stands in place of a quoted piece. -/
def spelled (respell : Str → Option Str) (piece : Str) : Str :=
  if piece.head? = some '/' then (respell piece).getD piece else piece

theorem findPath_cons {c : Char} (other : c ≠ '"') (rest : Str) :
    findPath (c :: rest) = (findPath rest).map fun (before, after) => (c :: before, after) := by
  rw [findPath]
  intro _ same
  exact absurd same other

theorem findPath_quote {more : Str} (other : more.head? ≠ some '/') :
    findPath ('"' :: more) =
      (findPath more).map fun (before, after) => ('"' :: before, after) := by
  rw [findPath]
  intro rest _ same
  rw [same] at other
  exact absurd rfl other

theorem findPath_eq_none {text : Str} (absent : '"' ∉ text) : findPath text = none := by
  induction text with
  | nil => rfl
  | cons c text ih =>
      rw [List.mem_cons, not_or] at absent
      rw [findPath_cons (Ne.symm absent.1), ih absent.2]
      rfl

theorem findPath_path {piece : Str} (absent : '"' ∉ piece) (rest : Str) :
    findPath (piece ++ '"' :: '/' :: rest) = some (piece ++ ['"'], '/' :: rest) := by
  induction piece with
  | nil => rfl
  | cons c piece ih =>
      rw [List.mem_cons, not_or] at absent
      rw [List.cons_append, findPath_cons (Ne.symm absent.1), ih absent.2]
      rfl

theorem findPath_other {piece more : Str} (absent : '"' ∉ piece) (other : more.head? ≠ some '/') :
    findPath (piece ++ '"' :: more) =
      (findPath more).map fun (before, after) => (piece ++ '"' :: before, after) := by
  induction piece with
  | nil => exact findPath_quote other
  | cons c piece ih =>
      rw [List.mem_cons, not_or] at absent
      rw [List.cons_append, findPath_cons (Ne.symm absent.1), ih absent.2, Option.map_map]
      rfl

theorem relocatePathsFrom_none {text : Str} (absent : '"' ∉ text) (n : Nat) :
    relocatePathsFrom respell n text = text := by
  cases n with
  | zero => rfl
  | succ n => rw [relocatePathsFrom, findPath_eq_none absent]

theorem relocatePathsFrom_other {piece more : Str} (absent : '"' ∉ piece)
    (other : more.head? ≠ some '/') (n : Nat) :
    relocatePathsFrom respell n (piece ++ '"' :: more) =
      piece ++ '"' :: relocatePathsFrom respell n more := by
  cases n with
  | zero => rfl
  | succ n =>
      rw [relocatePathsFrom, relocatePathsFrom, findPath_other absent other]
      cases findPath more with
      | none => rfl
      | some parts =>
          simp only [Option.map_some]
          split <;> simp

theorem takeWhile_quote {path : Str} (absent : '"' ∉ path) (rest : Str) :
    (path ++ '"' :: rest).takeWhile (· ≠ '"') = path ∧
      (path ++ '"' :: rest).dropWhile (· ≠ '"') = '"' :: rest := by
  have passed : ∀ c ∈ path, decide (c ≠ '"') = true := fun c member =>
    decide_eq_true fun equal => absent (equal ▸ member)
  constructor
  · rw [List.takeWhile_append_of_pos passed, List.takeWhile_cons_of_neg (by simp), List.append_nil]
  · rw [List.dropWhile_append_of_pos passed, List.dropWhile_cons_of_neg (by simp)]

/-- With enough turns the loop rewrites what stands between two quotes. -/
theorem relocatePathsFrom_eq (n : Nat) (text : Str) (enough : text.length ≤ n) :
    relocatePathsFrom respell n text = mapBetween '"' (spelled respell) text := by
  induction n generalizing text with
  | zero =>
      rw [List.eq_nil_of_length_eq_zero (Nat.le_zero.mp enough)]
      rfl
  | succ n ih =>
      induction text using @pieces_induction Char '"' _ with
      | last text absent => rw [relocatePathsFrom_none absent, mapBetween_last absent]
      | append piece more absent inside =>
          have shorter : more.length ≤ n := by
            rw [List.length_append, List.length_cons] at enough
            omega
          rw [mapBetween_append absent]
          cases slash : decide (more.head? = some '/') with
          | false =>
              have other := of_decide_eq_false slash
              rw [relocatePathsFrom_other absent other, inside (by omega),
                mapAfter_eq_mapBetween]
              intro first rest _ split
              rw [spelled, if_neg]
              intro begins
              rw [split] at other
              cases first with
              | nil => cases begins
              | cons c first => exact other begins
          | true =>
              obtain ⟨rest, split⟩ := List.head?_eq_some_iff.mp (of_decide_eq_true slash)
              rw [split, relocatePathsFrom, findPath_path absent]
              by_cases closed : '"' ∈ '/' :: rest
              · obtain ⟨path, tail, cut, whole⟩ := List.eq_append_cons_of_mem closed
                obtain ⟨taken, dropped⟩ := takeWhile_quote whole tail
                have begins : path.head? = some '/' := by
                  cases path with
                  | nil => cases (List.cons.inj cut).1
                  | cons c path => rw [(List.cons.inj cut).1]; rfl
                have left : ('"' :: tail).length ≤ n := by
                  have length := congrArg List.length cut
                  rw [split] at shorter
                  rw [List.length_append] at length
                  cases path with
                  | nil => cases begins
                  | cons c path => simp only [List.length_cons] at *; omega
                have further := ih _ left
                rw [← List.nil_append ('"' :: tail), mapBetween_append List.not_mem_nil,
                  List.nil_append, List.nil_append] at further
                simp only [if_pos closed]
                rw [cut, taken, dropped, further, mapAfter_append whole, spelled, if_pos begins]
                simp
              · simp only [if_neg closed]
                rw [mapAfter_last closed, List.append_assoc, List.singleton_append]

end

/-! ### The end of a line -/

theorem trimEnd_append (text : Str) {blank : Str} (white : ∀ c ∈ blank, Str.isWhitespace c = true) :
    trimEnd (text ++ blank) = trimEnd text := by
  induction blank using List.reverseRecOn with
  | nil => rw [List.append_nil]
  | append_singleton blank c ih =>
      rw [← List.append_assoc, trimEnd, List.rdropWhile_concat_pos _ _ _ (white c (by simp))]
      exact ih fun other member => white other (List.mem_append_left _ member)

theorem trimEnd_concat (text : Str) {c : Char} (dark : Str.isWhitespace c = false) :
    trimEnd (text ++ [c]) = text ++ [c] := by
  rw [trimEnd, List.rdropWhile_concat_neg _ _ _ (by simp [dark])]

theorem trimEnd_split (text : Str) :
    ∃ blank, text = trimEnd text ++ blank ∧ ∀ c ∈ blank, Str.isWhitespace c = true := by
  induction text using List.reverseRecOn with
  | nil => exact ⟨[], rfl, nofun⟩
  | append_singleton text c ih =>
      cases white : Str.isWhitespace c with
      | false => exact ⟨[], by rw [trimEnd_concat text white, List.append_nil], nofun⟩
      | true =>
          obtain ⟨blank, split, whites⟩ := ih
          refine ⟨blank ++ [c], ?_, ?_⟩
          · rw [trimEnd_append text (by simpa using white), ← List.append_assoc, ← split]
          · intro other member
            rcases List.mem_append.mp member with inside | last
            · exact whites other inside
            · rw [List.mem_singleton.mp last, white]

/-- What trimming takes off. -/
def trailing (line : Str) : Str := line.drop (trimEnd line).length

theorem trimEnd_trailing (line : Str) :
    line = trimEnd line ++ trailing line ∧ ∀ c ∈ trailing line, Str.isWhitespace c = true := by
  obtain ⟨blank, split, white⟩ := trimEnd_split line
  have same : trailing line = blank := calc
    trailing line = (trimEnd line ++ blank).drop (trimEnd line).length := by rw [trailing, ← split]
    _ = blank := List.drop_left
  rw [same]
  exact ⟨split, white⟩

theorem modulePath_eq_some {body path : Str} : modulePath body = some path ↔
    body = '"' :: (path ++ ['"']) ∧ path.head? = some '/' ∧ '"' ∉ path := by
  rw [modulePath, Option.filter_eq_some_iff, Bool.and_eq_true, decide_eq_true_eq]
  have absent : (!path.contains '"') = true ↔ '"' ∉ path := by simp
  rw [absent]
  refine and_congr_left fun _ => ?_
  constructor
  · intro stripped
    obtain ⟨rest, first, last⟩ := Option.bind_eq_some_iff.mp stripped
    cases body with
    | nil => cases first
    | cons c body =>
        obtain ⟨same, next⟩ := Option.ite_none_right_eq_some.mp first
        cases next
        obtain ⟨ends, next⟩ := Option.ite_none_right_eq_some.mp last
        cases next
        obtain ⟨front, rfl⟩ := List.getLast?_eq_some_iff.mp ends
        rw [same, List.dropLast_concat]
  · intro same
    rw [same, Str.stripPrefix_cons, Option.bind_some, Str.stripSuffix_append]

/-! ### Stanzas -/

/-- The module a line opens a stanza for. -/
def opens (line : Str) : Option Str := modulePath (trimEnd line)

/-- Lines that open no stanza, and stanzas: a line that opens it, more lines and a blank one. -/
inductive Block where
  | loose (line : Str)
  | stanza (opening : Str) (inside : List Str) (closing : Str)

namespace Block

def lines : Block → List Str
  | loose line => [line]
  | stanza opening inside closing => opening :: (inside ++ [closing])

def module? : Block → Option Str
  | loose _ => none
  | stanza opening _ _ => opens opening

def Laid : Block → Prop
  | loose line => opens line = none
  | stanza opening inside closing => (opens opening).isSome = true ∧
      (∀ line ∈ inside, opens line = none ∧ trimEnd line ≠ []) ∧ trimEnd closing = []

instance : (block : Block) → Decidable block.Laid
  | loose _ => inferInstanceAs (Decidable (_ = _))
  | stanza _ _ _ => inferInstanceAs (Decidable (_ ∧ _ ∧ _))

/-- The block is left in. -/
def keeps (respell : Str → Option Str) (block : Block) : Bool :=
  block.module?.all fun path => (respell path).isSome

end Block

/-- A cache as gdk-pixbuf and GTK lay it out. -/
structure Layout (text : Str) (blocks : List Block) : Prop where
  lines : splitInclusive '\n' text = blocks.flatMap Block.lines
  laid : ∀ block ∈ blocks, block.Laid

/-- One line that is left in. -/
def relocateLine (respell : Str → Option Str) (line : Str) : Str :=
  match opens line with
  | some path => '"' :: (respell path).getD path ++ '"' :: trailing line
  | none => relocatePaths respell line

section
variable {respell : Str → Option Str}

theorem relocateLines_plain {lines : List Str} (plain : ∀ line ∈ lines, opens line = none)
    (rest : List Str) : relocateLines respell false (lines ++ rest) =
      (lines.map (relocateLine respell)).flatten ++ relocateLines respell false rest := by
  induction lines with
  | nil => rfl
  | cons line lines ih =>
      rw [List.forall_mem_cons] at plain
      have none : modulePath (trimEnd line) = none := plain.1
      rw [List.cons_append, relocateLines, none, ih plain.2, List.map_cons, List.flatten_cons,
        relocateLine, plain.1, List.append_assoc]
      rfl

theorem relocateLines_dropped {inside : List Str} (visible : ∀ line ∈ inside, trimEnd line ≠ [])
    {closing : Str} (blank : trimEnd closing = []) (rest : List Str) :
    relocateLines respell true (inside ++ closing :: rest) = relocateLines respell false rest := by
  induction inside with
  | nil =>
      rw [List.nil_append, relocateLines, blank]
      rfl
  | cons line inside ih =>
      rw [List.forall_mem_cons] at visible
      have dark : (trimEnd line).isEmpty = false := by simpa using visible.1
      rw [List.cons_append, relocateLines, dark]
      exact ih visible.2

theorem opens_blank {line : Str} (blank : trimEnd line = []) : opens line = none := by
  rw [opens, blank]
  rfl

theorem relocateLines_opening {line path : Str} (names : opens line = some path)
    (lines : List Str) : relocateLines respell false (line :: lines) =
      match respell path with
      | some relative =>
          '"' :: relative ++ '"' :: trailing line ++ relocateLines respell false lines
      | none => relocateLines respell true lines := by
  have named : modulePath (trimEnd line) = some path := names
  rw [relocateLines, named]
  rfl

theorem relocateLines_block {block : Block} (laid : block.Laid) (rest : List Str) :
    relocateLines respell false (block.lines ++ rest) =
      (if block.keeps respell then (block.lines.map (relocateLine respell)).flatten else []) ++
        relocateLines respell false rest := by
  cases block with
  | loose line => exact relocateLines_plain (List.forall_mem_singleton.mpr laid) rest
  | stanza opening inside closing =>
      obtain ⟨opened, plain, blank⟩ := laid
      obtain ⟨path, names⟩ := Option.isSome_iff_exists.mp opened
      have body : ∀ line ∈ inside ++ [closing], opens line = none := by
        intro line member
        rcases List.mem_append.mp member with inner | last
        · exact (plain line inner).1
        · rw [List.mem_singleton.mp last]
          exact opens_blank blank
      rw [Block.lines, List.cons_append, relocateLines_opening names]
      cases found : respell path with
      | none =>
          have dropped : (Block.stanza opening inside closing).keeps respell = false := by
            simp [Block.keeps, Block.module?, names, found]
          rw [dropped, List.append_assoc]
          exact relocateLines_dropped (fun line member => (plain line member).2) blank rest
      | some relative =>
          have kept : (Block.stanza opening inside closing).keeps respell = true := by
            simp [Block.keeps, Block.module?, names, found]
          have line : relocateLine respell opening =
              '"' :: relative ++ '"' :: trailing opening := by
            rw [relocateLine, names]
            simp [found]
          rw [kept, if_pos rfl, List.map_cons, List.flatten_cons, line,
            List.append_assoc ('"' :: relative ++ _), ← relocateLines_plain body]

/-- The lines of the blocks that are left in, each rewritten. -/
def keptLines (respell : Str → Option Str) (blocks : List Block) : List Str :=
  ((blocks.filter (Block.keeps respell)).flatMap Block.lines).map (relocateLine respell)

theorem relocateLines_blocks {blocks : List Block} (laid : ∀ block ∈ blocks, block.Laid) :
    relocateLines respell false (blocks.flatMap Block.lines) =
      (keptLines respell blocks).flatten := by
  induction blocks with
  | nil => rfl
  | cons block blocks ih =>
      rw [List.forall_mem_cons] at laid
      rw [List.flatMap_cons, relocateLines_block laid.1, ih laid.2, keptLines, keptLines,
        List.filter_cons]
      split <;> simp

end

/-! ### What is rewritten once is not rewritten again -/

/-- The quoted absolute paths of a line. -/
def quoted (line : Str) : List Str :=
  (piecesBetween '"' line).filter fun piece => piece.head? = some '/'

def Block.paths (block : Block) : List Str := block.lines.flatMap quoted

/-- The new spelling brings no quote and no line end in. -/
def Plain (respell : Str → Option Str) : Prop :=
  ∀ path relative, respell path = some relative →
    ('"' ∉ path → '"' ∉ relative) ∧ ('\n' ∉ path → '\n' ∉ relative)

/-- The new spelling of the path, if it has one, is not absolute. -/
def Unrooted (respell : Str → Option Str) (path : Str) : Prop :=
  ∀ relative, respell path = some relative → relative.head? ≠ some '/'

section
variable {respell : Str → Option Str}

theorem spelled_spelled {piece : Str} (unrooted : Unrooted respell piece) :
    spelled respell (spelled respell piece) = spelled respell piece := by
  by_cases slash : piece.head? = some '/'
  · cases found : respell piece with
    | none =>
        have same : spelled respell piece = piece := by simp [spelled, found]
        rw [same, same]
    | some relative =>
        have same : spelled respell piece = relative := by simp [spelled, slash, found]
        rw [same, spelled, if_neg (unrooted relative found)]
  · have same : spelled respell piece = piece := if_neg slash
    rw [same, same]

theorem not_mem_spelled {c : Char} {piece : Str} (absent : c ∉ piece)
    (plain : ∀ relative, respell piece = some relative → c ∉ relative) :
    c ∉ spelled respell piece := by
  rw [spelled]
  split
  · cases found : respell piece with
    | none => exact absent
    | some relative => exact plain relative found
  · exact absent

theorem mem_quoted {line path : Str} :
    path ∈ quoted line ↔ path ∈ piecesBetween '"' line ∧ path.head? = some '/' := by
  rw [quoted, List.mem_filter, decide_eq_true_eq]

theorem relocatePaths_eq (line : Str) :
    relocatePaths respell line = mapBetween '"' (spelled respell) line :=
  relocatePathsFrom_eq _ line le_rfl

theorem relocatePaths_settled (plain : Plain respell) {line : Str}
    (unrooted : ∀ path ∈ quoted line, Unrooted respell path) :
    relocatePaths respell (relocatePaths respell line) = relocatePaths respell line := by
  rw [relocatePaths_eq, relocatePaths_eq]
  apply mapBetween_mapBetween
  intro piece member
  have whole := not_mem_of_mem_piecesBetween member
  refine ⟨not_mem_spelled whole fun relative found => (plain _ _ found).1 whole, ?_⟩
  by_cases slash : piece.head? = some '/'
  · exact spelled_spelled (unrooted piece (mem_quoted.mpr ⟨member, slash⟩))
  · have same : spelled respell piece = piece := if_neg slash
    rw [same, same]

theorem opens_eq_some {line path : Str} (names : opens line = some path) :
    line = '"' :: (path ++ '"' :: trailing line) ∧ path.head? = some '/' ∧ '"' ∉ path := by
  obtain ⟨body, slash, whole⟩ := modulePath_eq_some.mp names
  refine ⟨?_, slash, whole⟩
  calc
    line = trimEnd line ++ trailing line := (trimEnd_trailing line).1
    _ = '"' :: (path ++ '"' :: trailing line) := by rw [body]; simp

theorem quote_not_mem {blank : Str} (white : ∀ c ∈ blank, Str.isWhitespace c = true) :
    '"' ∉ blank := fun member => absurd (white _ member) (by decide)

/-- A line that holds one quoted text. -/
theorem trimEnd_quoted (path : Str) {blank : Str}
    (white : ∀ c ∈ blank, Str.isWhitespace c = true) :
    trimEnd ('"' :: (path ++ '"' :: blank)) = '"' :: (path ++ ['"']) := by
  have split : '"' :: (path ++ '"' :: blank) = ('"' :: path ++ ['"']) ++ blank := by simp
  rw [split, trimEnd_append _ white, trimEnd_concat _ (by decide)]
  rfl

theorem mapBetween_quoted {f : Str → Str} {path blank : Str} (whole : '"' ∉ path)
    (white : '"' ∉ blank) :
    mapBetween '"' f ('"' :: (path ++ '"' :: blank)) = '"' :: (f path ++ '"' :: blank) := by
  have begins := @mapBetween_append Char '"' f _ [] List.not_mem_nil (path ++ '"' :: blank)
  rw [List.nil_append, List.nil_append] at begins
  rw [begins, mapAfter_append whole, mapAfter_last white]

theorem quoted_opening {line path : Str} (names : opens line = some path) :
    quoted line = [path] := by
  obtain ⟨split, slash, whole⟩ := opens_eq_some names
  have white := quote_not_mem (trimEnd_trailing line).2
  have begins := @piecesBetween_append Char '"' _ [] List.not_mem_nil (path ++ '"' :: trailing line)
  rw [List.nil_append] at begins
  rw [quoted, split, begins, piecesBefore_append whole, piecesBefore_last white]
  simp [slash]

/-- Text that is alike up to a quote and after it. -/
theorem quote_inj {path other left right : Str} (whole : '"' ∉ path) (also : '"' ∉ other)
    (same : path ++ '"' :: left = other ++ '"' :: right) : path = other ∧ left = right := by
  have heads : path = other := calc
    path = (path ++ '"' :: left).takeWhile (· ≠ '"') := (takeWhile_quote whole left).1.symm
    _ = (other ++ '"' :: right).takeWhile (· ≠ '"') := by rw [same]
    _ = other := (takeWhile_quote also right).1
  rw [heads] at same
  exact ⟨heads, (List.cons.inj (List.append_cancel_left same)).2⟩

theorem mapAfter_eq_of_not_mem {f : Str → Str} {text : Str}
    (absent : '"' ∉ mapAfter '"' f text) : mapAfter '"' f text = text := by
  by_cases inside : '"' ∈ text
  · obtain ⟨piece, rest, split, whole⟩ := List.eq_append_cons_of_mem inside
    rw [split, mapAfter_append whole] at absent
    simp at absent
  · exact mapAfter_last inside

/-- A line that comes to hold one quoted absolute path held it before. -/
theorem opens_relocatePaths (plain : Plain respell) {line : Str} (closed : opens line = none)
    (unrooted : ∀ path ∈ quoted line, Unrooted respell path) :
    opens (relocatePaths respell line) = none := by
  by_contra opened
  obtain ⟨path, names⟩ := Option.ne_none_iff_exists'.mp opened
  obtain ⟨split, slash, whole⟩ := opens_eq_some names
  have white := quote_not_mem (trimEnd_trailing (relocatePaths respell line)).2
  suffices same : relocatePaths respell line = line by
    rw [same, closed] at names
    cases names
  generalize trailing (relocatePaths respell line) = blank at split white
  rw [relocatePaths_eq] at split ⊢
  by_cases inside : '"' ∈ line
  · obtain ⟨first, rest, cut, absent⟩ := List.eq_append_cons_of_mem inside
    rw [cut, mapBetween_append absent] at split ⊢
    have begins := quote_inj absent List.not_mem_nil split
    rw [begins.2]
    by_cases more : '"' ∈ rest
    · obtain ⟨piece, tail, part, clean⟩ := List.eq_append_cons_of_mem more
      have found : piece ∈ piecesBetween '"' line := by
        rw [cut, part, piecesBetween_append absent, piecesBefore_append clean]
        exact List.mem_cons_self
      have spelledClean : '"' ∉ spelled respell piece :=
        not_mem_spelled clean fun relative held => (plain _ _ held).1 clean
      rw [part, mapAfter_append clean] at begins
      obtain ⟨same, rest_eq⟩ := quote_inj spelledClean whole begins.2
      have kept : spelled respell piece = piece := by
        by_cases rooted : piece.head? = some '/'
        · cases held : respell piece with
          | none => simp [spelled, held]
          | some relative =>
              have other := unrooted piece (mem_quoted.mpr ⟨found, rooted⟩) relative held
              have here : spelled respell piece = relative := by simp [spelled, rooted, held]
              rw [← here, same] at other
              exact absurd slash other
        · exact if_neg rooted
      have tailKept : mapAfter '"' (spelled respell) tail = tail :=
        mapAfter_eq_of_not_mem (by rwa [rest_eq])
      rw [part, ← same, kept, ← rest_eq, tailKept]
    · rw [← begins.2, mapAfter_last more]
  · exact mapBetween_last inside

theorem relocateLine_opening {line path relative : Str} (names : opens line = some path)
    (held : respell path = some relative) :
    relocateLine respell line = '"' :: (relative ++ '"' :: trailing line) := by
  rw [relocateLine, names]
  simp [held]

/-- A rewritten line opens no stanza and holds nothing to rewrite. -/
theorem relocateLine_settled (plain : Plain respell) {line : Str}
    (unrooted : ∀ path ∈ quoted line, Unrooted respell path)
    (held : ∀ path, opens line = some path → (respell path).isSome = true) :
    opens (relocateLine respell line) = none ∧
      relocatePaths respell (relocateLine respell line) = relocateLine respell line := by
  cases names : opens line with
  | none =>
      have same : relocateLine respell line = relocatePaths respell line := by
        rw [relocateLine, names]
      rw [same]
      exact ⟨opens_relocatePaths plain names unrooted, relocatePaths_settled plain unrooted⟩
  | some path =>
      obtain ⟨relative, found⟩ := Option.isSome_iff_exists.mp (held path names)
      obtain ⟨-, -, whole⟩ := opens_eq_some names
      have white := (trimEnd_trailing line).2
      have listed : path ∈ quoted line := by
        rw [quoted_opening names]
        exact List.mem_singleton_self path
      have other : relative.head? ≠ some '/' := unrooted path listed relative found
      rw [relocateLine_opening names found]
      constructor
      · rw [opens, trimEnd_quoted relative white]
        by_contra opened
        obtain ⟨inner, named⟩ := Option.ne_none_iff_exists'.mp opened
        obtain ⟨body, slash, -⟩ := modulePath_eq_some.mp named
        rw [← List.append_cancel_right (List.cons.inj body).2] at slash
        exact other slash
      · rw [relocatePaths_eq, mapBetween_quoted ((plain path relative found).1 whole)
          (quote_not_mem white), spelled, if_neg other]

theorem relocateLines_settled {lines : List Str} (plain : ∀ line ∈ lines, opens line = none)
    (settled : ∀ line ∈ lines, relocatePaths respell line = line) :
    relocateLines respell false lines = lines.flatten := by
  have whole := @relocateLines_plain respell _ plain []
  rw [List.append_nil, relocateLines, List.append_nil] at whole
  rw [whole]
  congr 1
  calc
    lines.map (relocateLine respell) = lines.map id := by
      apply List.map_congr_left
      intro line member
      rw [relocateLine, plain line member]
      exact settled line member
    _ = lines := List.map_id lines

end

/-! ### The lines of the cache that is written -/

section
variable {respell : Str → Option Str}

theorem trimEnd_feed (body : Str) : trimEnd (body ++ ['\n']) = trimEnd body :=
  trimEnd_append body (List.forall_mem_singleton.mpr (by decide))

theorem trailing_feed (body : Str) : trailing (body ++ ['\n']) = trailing body ++ ['\n'] := by
  have short : (trimEnd body).length ≤ body.length := by
    have split := congrArg List.length (trimEnd_trailing body).1
    rw [List.length_append] at split
    omega
  rw [trailing, trimEnd_feed, List.drop_append_of_le_length short, trailing]

theorem relocateLine_feed (body : Str) :
    relocateLine respell (body ++ ['\n']) = relocateLine respell body ++ ['\n'] := by
  have same : opens (body ++ ['\n']) = opens body := by rw [opens, trimEnd_feed, opens]
  rw [relocateLine, relocateLine, same]
  cases opens body with
  | none =>
      simp only [relocatePaths_eq]
      exact mapBetween_tail (by decide) body
  | some path =>
      simp only [trailing_feed]
      simp

theorem feed_not_mem_relocateLine (plain : Plain respell) {body : Str} (whole : '\n' ∉ body) :
    '\n' ∉ relocateLine respell body := by
  cases names : opens body with
  | none =>
      rw [relocateLine, names]
      simp only [relocatePaths_eq]
      intro member
      rcases mem_mapBetween member with kept | ⟨piece, found, inside⟩
      · exact whole kept
      · have absent : '\n' ∉ piece := fun member => whole (mem_of_mem_piecesBetween found member)
        exact not_mem_spelled absent (fun relative held => (plain _ _ held).2 absent) inside
  | some path =>
      obtain ⟨split, slash, -⟩ := opens_eq_some names
      rw [split] at whole
      simp only [List.mem_cons, List.mem_append, not_or] at whole
      obtain ⟨-, absent, -, rest⟩ := whole
      have spelledAbsent : '\n' ∉ spelled respell path :=
        not_mem_spelled absent fun relative held => (plain _ _ held).2 absent
      rw [spelled, if_pos slash] at spelledAbsent
      rw [relocateLine, names]
      simp [spelledAbsent, rest]

theorem relocateLine_ne_nil {body : Str} (some : body ≠ []) : relocateLine respell body ≠ [] := by
  cases names : opens body with
  | none =>
      rw [relocateLine, names]
      simp only [relocatePaths_eq]
      exact mapBetween_ne_nil some
  | some path =>
      rw [relocateLine, names]
      exact List.cons_ne_nil _ _

/-- The lines that are written are the lines of what is written. -/
theorem ruled_keptLines (plain : Plain respell) {text : Str} {blocks : List Block}
    (layout : Layout text blocks) : Ruled '\n' (keptLines respell blocks) := by
  have ruled := @ruled_splitInclusive Char '\n' _ text
  rw [layout.lines] at ruled
  have sub : ((blocks.filter (Block.keeps respell)).flatMap Block.lines).Sublist
      (blocks.flatMap Block.lines) := List.filter_sublist.flatMap _
  apply (ruled.sublist sub).map
  · intro body whole _
    exact ⟨_, feed_not_mem_relocateLine plain whole, relocateLine_feed body⟩
  · intro body _ whole some
    exact ⟨feed_not_mem_relocateLine plain whole, relocateLine_ne_nil some⟩

theorem relocateLines_layout {text : Str} {blocks : List Block} (layout : Layout text blocks) :
    relocateLines respell false (splitInclusive '\n' text) =
      (keptLines respell blocks).flatten := by
  rw [layout.lines, relocateLines_blocks layout.laid]

theorem opens_mem_lines {block : Block} (laid : block.Laid) {line path : Str}
    (member : line ∈ block.lines) (names : opens line = some path) :
    block.module? = some path := by
  cases block with
  | loose other =>
      have closed : opens other = none := laid
      rw [List.mem_singleton.mp member, closed] at names
      cases names
  | stanza opening inside closing =>
      obtain ⟨-, plain, blank⟩ := laid
      rcases List.mem_cons.mp member with rfl | later
      · exact names
      · rcases List.mem_append.mp later with inner | last
        · rw [(plain line inner).1] at names
          cases names
        · rw [List.mem_singleton.mp last, opens_blank blank] at names
          cases names

theorem keptLines_settled (plain : Plain respell) {text : Str} {blocks : List Block}
    (layout : Layout text blocks)
    (unrooted : ∀ block ∈ blocks, block.keeps respell = true →
      ∀ path ∈ block.paths, Unrooted respell path) :
    ∀ line ∈ keptLines respell blocks, opens line = none ∧ relocatePaths respell line = line := by
  intro line member
  obtain ⟨old, inside, rfl⟩ := List.mem_map.mp member
  obtain ⟨block, listed, held⟩ := List.mem_flatMap.mp inside
  obtain ⟨present, kept⟩ := List.mem_filter.mp listed
  apply relocateLine_settled plain
  · intro path found
    exact unrooted block present kept path (List.mem_flatMap.mpr ⟨old, held, found⟩)
  · intro path names
    have module := opens_mem_lines (layout.laid block present) held names
    rw [Block.keeps, module] at kept
    exact kept

/-- A cache that was rewritten is left as it is. -/
theorem relocateLines_twice (plain : Plain respell) {text : Str} {blocks : List Block}
    (layout : Layout text blocks)
    (unrooted : ∀ block ∈ blocks, block.keeps respell = true →
      ∀ path ∈ block.paths, Unrooted respell path) :
    relocateLines respell false
        (splitInclusive '\n' (relocateLines respell false (splitInclusive '\n' text))) =
      relocateLines respell false (splitInclusive '\n' text) := by
  have settled := keptLines_settled plain layout unrooted
  rw [relocateLines_layout layout, (ruled_keptLines plain layout).splitInclusive_flatten]
  exact relocateLines_settled (fun line member => (settled line member).1)
    fun line member => (settled line member).2

end

/-! ### The spelling as text -/

/-- What a component comes to on a walk. -/
def place : Component → Segment Bytes
  | .root => .here
  | .current => .here
  | .parent => .up
  | .normal name => .name name

theorem isText_push {path part : Bytes} (left : IsText path) (right : IsText part) :
    IsText (push path part) := by
  rw [push]
  split
  · exact right
  · split
    · exact left.append right
    · exact left.append (IsText.append ⟨['/'], rfl⟩ right)

theorem isText_foldl_push {parts : List Bytes} (each : ∀ part ∈ parts, IsText part) {path : Bytes}
    (text : IsText path) : IsText (parts.foldl push path) :=
  List.foldlRecOn parts push text fun _ held part member => isText_push held (each part member)

theorem mem_push {byte : UInt8} {path part : Bytes} (other : byte ≠ 47)
    (member : byte ∈ push path part) : byte ∈ path ∨ byte ∈ part := by
  rw [push] at member
  split at member
  · exact Or.inr member
  · split at member
    · exact List.mem_append.mp member
    · rcases List.mem_append.mp member with left | right
      · exact Or.inl left
      · exact Or.inr ((List.mem_cons.mp right).resolve_left other)

theorem mem_foldl_push {byte : UInt8} (other : byte ≠ 47) {parts : List Bytes} {path : Bytes}
    (member : byte ∈ parts.foldl push path) : byte ∈ path ∨ ∃ part ∈ parts, byte ∈ part := by
  revert member
  refine List.foldlRecOn (motive := fun walked => byte ∈ walked → _) parts push Or.inl ?_
  intro walked early part listed member
  rcases mem_push other member with first | own
  · exact early first
  · exact Or.inr ⟨part, listed, own⟩

/-- The components a spelling is made of, each as text. -/
def spelling (dir : List Bytes) (path : Bytes) : List Bytes :=
  let parts := apart (dir.map Component.normal) (components path)
  List.replicate parts.1.length (utf8 "..") ++ parts.2.map componentText

theorem relativePath_eq (dir : List Bytes) (path : Bytes) :
    relativePath (dir.map .normal) (components path) =
      if (spelling dir path).foldl push [] = [] then utf8 "."
      else (spelling dir path).foldl push [] := rfl

theorem mem_spelling {dir : List Bytes} {path part : Bytes} (member : part ∈ spelling dir path) :
    part = utf8 ".." ∨ ∃ component ∈ components path, part = componentText component := by
  rcases List.mem_append.mp member with up | down
  · exact Or.inl (List.eq_of_mem_replicate up)
  · obtain ⟨component, inside, rfl⟩ := List.mem_map.mp down
    obtain ⟨shared, -, whole⟩ := apart_shared (dir.map Component.normal) (components path)
    refine Or.inr ⟨component, ?_, rfl⟩
    rw [whole]
    exact List.mem_append_right _ inside

theorem mem_components {path : Bytes} {component : Component}
    (member : component ∈ components path) : component = .root ∧ path.head? = some 47 ∨
      component = .current ∨ componentText component ∈ path.splitOn 47 ∧
        componentOf (componentText component) = some component := by
  rw [components, List.mem_append] at member
  rcases member with lead | named
  · split at lead
    · next slash => exact Or.inl ⟨List.mem_singleton.mp lead, slash⟩
    · split at lead
      · exact Or.inr (Or.inl (List.mem_singleton.mp lead))
      · cases lead
  · obtain ⟨part, inside, found⟩ := List.mem_filterMap.mp named
    refine Or.inr (Or.inr ?_)
    have own := found
    rw [componentOf] at found
    split at found
    · cases found
    · split at found
      · next up =>
          cases found
          rw [up] at inside own
          exact ⟨inside, own⟩
      · cases found
        exact ⟨inside, own⟩

theorem isText_spelling {dir : List Bytes} {path : Bytes} (text : IsText path) :
    ∀ part ∈ spelling dir path, IsText part := by
  intro part member
  rcases mem_spelling member with rfl | ⟨component, inside, rfl⟩
  · exact ⟨['.', '.'], rfl⟩
  · rcases mem_components inside with ⟨rfl, -⟩ | rfl | ⟨named, -⟩
    · exact ⟨['/'], rfl⟩
    · exact ⟨['.'], rfl⟩
    · obtain ⟨text, rfl⟩ := text
      exact isText_splitOn text _ named

theorem isText_relativePath (dir : List Bytes) {path : Bytes} (text : IsText path) :
    IsText (relativePath (dir.map .normal) (components path)) := by
  rw [relativePath_eq]
  split
  · exact ⟨['.'], rfl⟩
  · exact isText_foldl_push (isText_spelling text) ⟨[], rfl⟩

theorem mem_relativePath {byte : UInt8} (other : byte ≠ 47) (dot : byte ≠ 46) {dir : List Bytes}
    {path : Bytes} (member : byte ∈ relativePath (dir.map .normal) (components path)) :
    byte ∈ path := by
  rw [relativePath_eq] at member
  split at member
  · exact absurd (List.mem_singleton.mp member) dot
  · obtain ⟨part, listed, inside⟩ := (mem_foldl_push other member).resolve_left List.not_mem_nil
    rcases mem_spelling listed with rfl | ⟨component, held, rfl⟩
    · rcases List.mem_cons.mp inside with first | second
      · exact absurd first dot
      · exact absurd (List.mem_singleton.mp second) dot
    · rcases mem_components held with ⟨rfl, -⟩ | rfl | ⟨named, -⟩
      · exact absurd (List.mem_singleton.mp inside) other
      · exact absurd (List.mem_singleton.mp inside) dot
      · have whole := mem_intercalate_of_mem 47 named inside
        rwa [List.intercalate_splitOn] at whole

/-! ### The spelling as a way -/

/-- Parts that are pushed one behind the other. -/
def Pushable (part : Bytes) : Prop := part ≠ [] ∧ (47 : UInt8) ∉ part

theorem Pushable.head {part : Bytes} (pushable : Pushable part) : part.head? ≠ some 47 :=
  fun slash => pushable.2 (List.mem_of_head? slash)

theorem Pushable.last {part : Bytes} (pushable : Pushable part) : part.getLast? ≠ some 47 :=
  fun slash => pushable.2 (List.mem_of_getLast? slash)

theorem foldl_push {path : Bytes} (visible : path ≠ []) (last : path.getLast? ≠ some 47)
    {parts : List Bytes} (plain : ∀ part ∈ parts, Pushable part) :
    parts.foldl push path = path ++ parts.flatMap (47 :: ·) := by
  induction parts generalizing path with
  | nil => exact (List.append_nil path).symm
  | cons part parts ih =>
      rw [List.forall_mem_cons] at plain
      have pushed : push path part = path ++ 47 :: part := by
        rw [push, if_neg plain.1.head, if_neg (not_or.mpr ⟨visible, last⟩)]
      have further : (path ++ 47 :: part).getLast? ≠ some 47 := by
        rw [List.getLast?_append_of_ne_nil _ (List.cons_ne_nil _ _),
          List.getLast?_cons_of_ne_nil plain.1.1]
        exact plain.1.last
      rw [List.foldl_cons, pushed, ih (by simp) further plain.2, List.flatMap_cons,
        List.append_assoc, List.cons_append]

theorem joinPath_cons (part : Bytes) (parts : List Bytes) :
    joinPath (part :: parts) = part ++ parts.flatMap (47 :: ·) := by
  induction parts generalizing part with
  | nil => rw [joinPath, List.intercalate_singleton, List.flatMap_nil, List.append_nil]
  | cons next parts ih =>
      rw [joinPath, List.intercalate_cons_cons, ← joinPath, ih, List.flatMap_cons,
        List.append_assoc]
      rfl

theorem foldl_push_nil {parts : List Bytes} (plain : ∀ part ∈ parts, Pushable part) :
    parts.foldl push [] = joinPath parts := by
  cases parts with
  | nil => rfl
  | cons part parts =>
      rw [List.forall_mem_cons] at plain
      have pushed : push [] part = part := by
        rw [push, if_neg plain.1.head, if_pos (Or.inl rfl)]
        rfl
      rw [List.foldl_cons, pushed, foldl_push plain.1.1 plain.1.last plain.2, joinPath_cons]

/-- Parts that are joined are the segments of the path. -/
theorem segments_joinPath {parts : List Bytes} (visible : parts ≠ [])
    (plain : ∀ part ∈ parts, Pushable part) :
    (Target.ofText (joinPath parts)).segments = parts.map segmentOf := by
  have whole : ∀ part ∈ parts, 47 ∉ part := fun part member => (plain part member).2
  rw [Target.ofText, joinPath, List.splitOn_intercalate 47 whole visible]

theorem head_joinPath {parts : List Bytes} (plain : ∀ part ∈ parts, Pushable part) :
    (joinPath parts).head? ≠ some 47 := by
  cases parts with
  | nil => exact nofun
  | cons part parts =>
      rw [List.forall_mem_cons] at plain
      rw [joinPath_cons, List.head?_append_of_ne_nil _ plain.1.1]
      exact plain.1.head

/-- No component is the root where the path is relative. -/
theorem pushable_spelling {dir : List Bytes} {path : Bytes} (relative : path.head? ≠ some 47) :
    ∀ part ∈ spelling dir path, Pushable part := by
  intro part member
  rcases mem_spelling member with rfl | ⟨component, inside, rfl⟩
  · exact ⟨by decide, by decide⟩
  · rcases mem_components inside with ⟨-, slash⟩ | rfl | ⟨named, own⟩
    · exact absurd slash relative
    · exact ⟨by decide, by decide⟩
    · refine ⟨fun none => ?_, not_mem_of_mem_splitOn named⟩
      rw [none] at own
      cases own

theorem segmentOf_componentText {path : Bytes} {component : Component}
    (member : component ∈ components path) (relative : path.head? ≠ some 47) :
    segmentOf (componentText component) = place component := by
  rcases mem_components member with ⟨-, slash⟩ | rfl | ⟨-, own⟩
  · exact absurd slash relative
  · rfl
  · rw [componentOf] at own
    split at own
    · cases own
    · next visible =>
        split at own
        · cases own
          rfl
        · next name =>
            rw [segmentOf, if_neg visible, if_neg name, ← Option.some.inj own]
            rfl

theorem apart_place (dir : List Bytes) (path : List Component) :
    apart (dir.map Segment.name) (path.map place) =
      ((apart (dir.map Component.normal) path).1.map place,
        (apart (dir.map Component.normal) path).2.map place) := by
  induction dir generalizing path with
  | nil => simp [apart]
  | cons part dir ih =>
      cases path with
      | nil => simp [apart, place]
      | cons component path =>
          have same : Segment.name part = place component ↔ Component.normal part = component := by
            cases component <;> simp [place]
          simp only [List.map_cons, apart, same]
          split
          · exact ih path
          · simp [place]

/-- The spelling is the way from the cache's directory. -/
theorem map_spelling {dir : List Bytes} {path : Bytes} (relative : path.head? ≠ some 47) :
    (spelling dir path).map segmentOf = wayTo dir ((components path).map place) := by
  have parts : ∀ component ∈ (apart (dir.map Component.normal) (components path)).2,
      segmentOf (componentText component) = place component := by
    intro component member
    obtain ⟨shared, -, whole⟩ := apart_shared (dir.map Component.normal) (components path)
    apply segmentOf_componentText _ relative
    rw [whole]
    exact List.mem_append_right _ member
  rw [spelling, wayTo, apart_place, List.map_append, List.map_replicate, List.map_map,
    List.length_map]
  congr 1
  exact List.map_congr_left parts

theorem thinned_parts (parts : List Bytes) :
    Thinned (parts.map segmentOf) ((parts.filterMap componentOf).map place) := by
  induction parts with
  | nil => exact .nil
  | cons part parts ih =>
      rw [List.map_cons, segmentOf]
      by_cases nothing : part = [] ∨ part = [46]
      · rw [if_pos nothing, List.filterMap_cons_none (by rw [componentOf, if_pos nothing])]
        exact .here ih
      · rw [if_neg nothing]
        by_cases above : part = [46, 46]
        · rw [if_pos above, List.filterMap_cons_some (by
            rw [componentOf, if_neg nothing, if_pos above])]
          exact .keep .up ih
        · rw [if_neg above, List.filterMap_cons_some (by
            rw [componentOf, if_neg nothing, if_neg above])]
          exact .keep (.name part) ih

/-- The components of a path are its segments without some dots. -/
theorem thinned_components {path : Bytes} (relative : path.head? ≠ some 47) :
    Thinned (Target.ofText path).segments ((components path).map place) := by
  rw [Target.ofText, components, if_neg relative]
  split
  · next dot =>
      obtain ⟨rest, split⟩ := List.head?_eq_some_iff.mp dot
      rw [split, List.filterMap_cons_none rfl]
      exact .keep .here (thinned_parts rest)
  · exact thinned_parts _

theorem head_push {path part : Bytes} (rooted : path.head? = some 47) :
    (push path part).head? = some 47 := by
  have visible : path ≠ [] := by
    rintro rfl
    cases rooted
  rw [push]
  split
  · assumption
  · split
    · rw [List.head?_append_of_ne_nil _ visible, rooted]
    · rw [List.head?_append_of_ne_nil _ visible, rooted]

theorem head_foldl_push {parts : List Bytes} {path : Bytes}
    (rooted : path.head? = some 47 ∨ ∃ part ∈ parts, part.head? = some 47) :
    (parts.foldl push path).head? = some 47 := by
  induction parts generalizing path with
  | nil => simpa using rooted
  | cons part parts ih =>
      rw [List.foldl_cons]
      apply ih
      rcases rooted with early | ⟨other, member, slash⟩
      · exact Or.inl (head_push early)
      · rcases List.mem_cons.mp member with rfl | later
        · exact Or.inl (by rw [push, if_pos slash]; exact slash)
        · exact Or.inr ⟨other, later, slash⟩

/-- An absolute path is spelled as it stands, from whatever directory. -/
theorem head_relativePath {dir : List Bytes} {path : Bytes} (rooted : path.head? = some 47) :
    (relativePath (dir.map .normal) (components path)).head? = some 47 := by
  have root : componentText .root ∈ spelling dir path := by
    apply List.mem_append_right
    apply List.mem_map_of_mem
    rw [components, if_pos rooted]
    cases dir with
    | nil => exact List.mem_cons_self
    | cons part dir =>
        rw [List.map_cons, List.singleton_append, apart, if_neg (by simp)]
        exact List.mem_cons_self
  have head := @head_foldl_push (spelling dir path) [] (Or.inr ⟨_, root, rfl⟩)
  rw [relativePath_eq, if_neg]
  · exact head
  · intro none
    rw [none] at head
    cases head

/-! ### Where a spelling leads -/

namespace Site

variable {α : Type} (site : Site α)

/-- Where the tree's own path for what a sysroot keeps at `path` leads. -/
def lookup (path : Str) : Outcome Bytes :=
  site.rootfs.disk.world.resolve true maxLinks site.rootfs.root
    (Target.ofText (mapped path)).segments

/-- The tree holds the file at `path`. -/
def Holds (path : Str) : Prop :=
  ∃ links place content, site.lookup path = .found links (site.rootfs.root ++ place) ∧
    site.rootfs.disk (site.rootfs.root ++ place) = some (.file content)

/-- Resolved from the cache's directory, `relative` names the file the tree holds at `path`. -/
def Names (path relative : Str) : Prop :=
  relative.head? ≠ some '/' ∧
    ∃ links place content, site.lookup path = .found links (site.rootfs.root ++ place) ∧
      site.rootfs.disk (site.rootfs.root ++ place) = some (.file content) ∧
      site.rootfs.disk.world.resolve true maxLinks (site.rootfs.root ++ site.dir)
        (Target.ofText (Str.encodeUtf8 relative)).segments =
          .found links (site.rootfs.root ++ place)

variable {site}

theorem isText_mapped (path : Str) : IsText (mapped path) := isText_appdirPath _

theorem relativeInTree_eq_some {path relative : Str} :
    site.relativeInTree path = some relative ↔ site.isFile (mapped path) = true ∧
      Str.encodeUtf8 relative =
        relativePath (site.dir.map .normal) (components (mapped path)) := by
  obtain ⟨text, same⟩ := isText_relativePath site.dir (isText_mapped path)
  rw [relativeInTree, Option.ite_none_right_eq_some, ← same, Str.fromUtf8Lossy_encodeUtf8,
    Option.some.injEq]
  exact and_congr_right fun _ =>
    ⟨fun equal => by rw [equal], fun equal => (Str.encodeUtf8_injective equal).symm⟩

theorem isSome_relativeInTree (path : Str) :
    (site.relativeInTree path).isSome = site.isFile (mapped path) := by
  rw [relativeInTree]
  cases site.isFile (mapped path) <;> rfl

theorem head_slash {text : Str} :
    (Str.encodeUtf8 text).head? = some 47 ↔ text.head? = some '/' := by
  cases text with
  | nil => simp [Str.encodeUtf8]
  | cons c text =>
      constructor
      · intro slash
        have member : (47 : UInt8) ∈ String.utf8EncodeChar c := by
          have visible := @String.utf8EncodeChar_ne_nil c
          rw [Str.encodeUtf8, List.flatMap_cons, List.head?_append_of_ne_nil _ visible] at slash
          exact List.mem_of_head? slash
        rw [eq_charOf (by decide) member]
        rfl
      · intro slash
        rw [Option.some.inj slash]
        rfl

theorem mem_mapped {path : Str} {byte : UInt8} (member : byte ∈ mapped path) :
    byte ∈ Str.encodeUtf8 path := by
  have shorter : byte ∈ Str.encodeUtf8 (path.dropWhile (· = '/')) := by
    rw [mapped] at member
    by_cases leads : utf8 "usr/" <+: Str.encodeUtf8 (path.dropWhile (· = '/'))
    · obtain ⟨rest, same⟩ := leads
      rw [← same, appdirPath_usr] at member
      rw [← same]
      exact List.mem_append_right _ member
    · rwa [appdirPath_other leads] at member
  rw [Str.encodeUtf8, List.mem_flatMap] at *
  obtain ⟨c, inside, held⟩ := shorter
  exact ⟨c, (List.dropWhile_sublist _).subset inside, held⟩

theorem absent_relative {path relative : Str} {byte : UInt8} (ascii : byte < 0x80)
    (other : byte ≠ 47) (dot : byte ≠ 46) (found : site.relativeInTree path = some relative)
    (absent : charOf byte ∉ path) : charOf byte ∉ relative := by
  intro member
  rw [← mem_encodeUtf8 ascii, (relativeInTree_eq_some.mp found).2] at member
  rw [← mem_encodeUtf8 ascii] at absent
  exact absent (mem_mapped (mem_relativePath other dot member))

theorem plain : Plain site.relativeInTree := by
  intro path relative found
  constructor
  · exact @absent_relative _ site _ _ 34 (by decide) (by decide) (by decide) found
  · exact @absent_relative _ site _ _ 10 (by decide) (by decide) (by decide) found

/-- The new spelling of a path that leaves the tree is absolute as well. -/
theorem head_relative {path relative : Str} (found : site.relativeInTree path = some relative)
    (rooted : (mapped path).head? = some 47) : relative.head? = some '/' := by
  rw [← head_slash, (relativeInTree_eq_some.mp found).2]
  exact head_relativePath rooted

theorem tree (site : Site α) : site.rootfs.disk.world.Tree := Disk.world_tree site.rootfs.tree

theorem follow_eq_lookup {path : Str} (relative : (mapped path).head? ≠ some 47) :
    site.follow (mapped path) = site.lookup path := by
  have stands : site.rootfs.disk.world ([] ++ site.rootfs.root) = some .dir :=
    Disk.world_eq_dir.mpr site.rootfs.rooted
  rw [follow, if_neg relative, lookup]
  exact World.resolve_of_leg (World.leg_down site.tree true stands _)

theorem isFile_of_holds {path : Str} (relative : (mapped path).head? ≠ some 47)
    (holds : site.Holds path) : site.isFile (mapped path) = true := by
  obtain ⟨links, place, content, found, file⟩ := holds
  rw [isFile, follow_eq_lookup relative, found]
  simp only [file]

/-- A spelling that is not absolute names the file the tree holds. -/
theorem names_of_holds {path spelled : Str} (found : site.relativeInTree path = some spelled)
    (relative : (mapped path).head? ≠ some 47) (holds : site.Holds path) :
    site.Names path spelled := by
  obtain ⟨links, place, content, leads, file⟩ := holds
  have text := (relativeInTree_eq_some.mp found).2
  have pushable := @pushable_spelling site.dir _ relative
  have stands : site.rootfs.disk.world (site.rootfs.root ++ site.dir) = some .dir := site.stands
  -- From the cache's directory the way leads where the path leads from the tree.
  have way : site.rootfs.disk.world.resolve true maxLinks (site.rootfs.root ++ site.dir)
      (wayTo site.dir ((components (mapped path)).map ModuleCache.place)) =
        .found links (site.rootfs.root ++ place) := by
    rw [World.resolve_of_leg (World.leg_wayTo site.tree true stands _)]
    exact World.resolve_thinned (thinned_components relative) leads
  have visible : spelling site.dir (mapped path) ≠ [] := by
    intro none
    rw [← map_spelling relative, none, List.map_nil, World.resolve_of_found maxLinks rfl] at way
    rw [Disk.world_eq_dir, (Outcome.found.inj way).2, file] at stands
    cases stands
  have joined : Str.encodeUtf8 spelled = joinPath (spelling site.dir (mapped path)) := by
    rw [text, relativePath_eq, foldl_push_nil pushable, if_neg]
    obtain ⟨part, parts, split⟩ := List.exists_cons_of_ne_nil visible
    rw [split, List.forall_mem_cons] at pushable
    rw [split, joinPath_cons]
    exact List.append_ne_nil_of_left_ne_nil pushable.1.1 _
  refine ⟨?_, links, place, content, leads, file, ?_⟩
  · rw [Ne, ← head_slash, joined]
    exact head_joinPath pushable
  · rw [joined, segments_joinPath visible pushable, map_spelling relative]
    exact way

/-! ### The whole cache -/

/-- A quoted path whose file stands where the tree holds it. -/
def Straight (site : Site α) (path : Str) : Prop :=
  site.isFile (mapped path) = true → (mapped path).head? ≠ some 47 ∧ site.Holds path

/-- The tree holds the module of the block, if it has one. -/
def Held (site : Site α) (block : Block) : Prop :=
  ∀ path, block.module? = some path → site.Holds path

/-- The text that is written names the bundle's own modules. -/
structure Relocated (site : Site α) (text : Str) (blocks : List Block) : Prop where
  output : site.relocateCache text = (keptLines site.relativeInTree blocks).flatten
  kept : ∀ block ∈ blocks, block.keeps site.relativeInTree = true ↔ site.Held block
  names : ∀ block ∈ blocks, block.keeps site.relativeInTree = true → ∀ path ∈ block.paths,
    ∀ relative, site.relativeInTree path = some relative → site.Names path relative
  relative : ∀ line ∈ keptLines site.relativeInTree blocks, opens line = none
  settled : site.relocateCache (site.relocateCache text) = site.relocateCache text

/-- Every module, and every quoted path of what is kept, stands where the tree holds it. -/
structure Regular (site : Site α) (blocks : List Block) : Prop where
  modules : ∀ block ∈ blocks, ∀ path, block.module? = some path →
    site.Straight path ∧ (site.Holds path → site.isFile (mapped path) = true)
  paths : ∀ block ∈ blocks, site.Held block → ∀ path ∈ block.paths, site.Straight path

theorem keeps_iff {block : Block} : block.keeps site.relativeInTree = true ↔
    ∀ path, block.module? = some path → site.isFile (mapped path) = true := by
  rw [Block.keeps]
  cases block.module? with
  | none => simp
  | some path => simp [isSome_relativeInTree]

theorem Regular.keeps_iff {blocks : List Block} (regular : site.Regular blocks) {block : Block}
    (member : block ∈ blocks) : block.keeps site.relativeInTree = true ↔ site.Held block := by
  rw [Site.keeps_iff]
  constructor
  · intro file path names
    exact ((regular.modules block member path names).1 (file path names)).2
  · intro held path names
    exact (regular.modules block member path names).2 (held path names)

theorem module_mem_paths {block : Block} {path : Str} (names : block.module? = some path) :
    path ∈ block.paths := by
  cases block with
  | loose line => cases names
  | stanza opening inside closing =>
      refine List.mem_flatMap.mpr ⟨opening, List.mem_cons_self, ?_⟩
      rw [quoted_opening names]
      exact List.mem_singleton_self path

theorem Regular.relocated {text : Str} {blocks : List Block} (layout : Layout text blocks)
    (regular : site.Regular blocks) : site.Relocated text blocks := by
  have names : ∀ block ∈ blocks, block.keeps site.relativeInTree = true → ∀ path ∈ block.paths,
      ∀ relative, site.relativeInTree path = some relative → site.Names path relative := by
    intro block member kept path inside relative found
    have straight := regular.paths block member ((regular.keeps_iff member).mp kept) path inside
    obtain ⟨tree, holds⟩ := straight (relativeInTree_eq_some.mp found).1
    exact names_of_holds found tree holds
  have unrooted : ∀ block ∈ blocks, block.keeps site.relativeInTree = true →
      ∀ path ∈ block.paths, Unrooted site.relativeInTree path :=
    fun block member kept path inside relative found =>
      (names block member kept path inside relative found).1
  exact {
    output := relocateLines_layout layout
    kept := fun block member => regular.keeps_iff member
    names := names
    relative := fun line member => (keptLines_settled plain layout unrooted line member).1
    settled := relocateLines_twice plain layout unrooted }

theorem Relocated.regular {text : Str} {blocks : List Block}
    (relocated : site.Relocated text blocks) : site.Regular blocks := by
  have straight : ∀ block ∈ blocks, block.keeps site.relativeInTree = true →
      ∀ path ∈ block.paths, site.Straight path := by
    intro block member kept path inside file
    obtain ⟨relative, found⟩ := Option.isSome_iff_exists.mp
      ((isSome_relativeInTree path).trans file)
    obtain ⟨head, links, place, content, leads, held, -⟩ :=
      relocated.names block member kept path inside relative found
    exact ⟨fun rooted => head (head_relative found rooted), links, place, content, leads, held⟩
  constructor
  · intro block member path names
    have only : ∀ other, block.module? = some other → other = path :=
      fun other named => Option.some.inj (named.symm.trans names)
    constructor
    · intro file
      have kept : block.keeps site.relativeInTree = true :=
        keeps_iff.mpr fun other named => only other named ▸ file
      exact straight block member kept path (module_mem_paths names) file
    · intro holds
      have held : site.Held block := fun other named => only other named ▸ holds
      exact keeps_iff.mp ((relocated.kept block member).mpr held) path names
  · intro block member held
    exact straight block member ((relocated.kept block member).mpr held)

end Site

/-! ### A cache beside its module, and a path with a doubled slash -/

def benchDirs : List (List Bytes) := [[], [utf8 "t"], [utf8 "t", utf8 "lib"], [utf8 "lib"]]

def benchFiles : List (List Bytes) :=
  [[utf8 "t", utf8 "lib", utf8 "m.so"], [utf8 "lib", utf8 "host.so"]]

def benchDisk : Disk Unit := fun place =>
  if benchDirs.contains place then some .dir
  else if benchFiles.contains place then some (.file ())
  else none

theorem benchDisk_tree : benchDisk.Tree where
  root := if_pos (by decide +kernel)
  parents place part there := by
    have closed : ∀ held ∈ benchDirs ++ benchFiles, held.dropLast ∈ benchDirs := by decide +kernel
    have listed : place ++ [part] ∈ benchDirs ++ benchFiles := by
      by_contra absent
      rw [List.mem_append, not_or, ← List.contains_iff_mem, ← List.contains_iff_mem] at absent
      exact there (by rw [benchDisk, if_neg absent.1, if_neg absent.2])
    have above := closed _ listed
    rw [List.dropLast_concat] at above
    exact if_pos (List.contains_iff_mem.mpr above)

theorem benchDisk_dir {place : List Bytes} (listed : place ∈ benchDirs) :
    benchDisk place = some .dir := if_pos (List.contains_iff_mem.mpr listed)

theorem benchDisk_file {place : List Bytes} (listed : place ∈ benchFiles) :
    benchDisk place = some (.file ()) := by
  have other : ∀ held ∈ benchFiles, ¬ benchDirs.contains held = true := by decide +kernel
  rw [benchDisk, if_neg (other place listed), if_pos (List.contains_iff_mem.mpr listed)]

/-- The tree `/t` on a host with a library of its own; the cache stands in `lib`. -/
def benchSite : Site Unit where
  rootfs := ⟨benchDisk, [utf8 "t"], benchDisk_tree, @benchDisk_dir [utf8 "t"] (by decide +kernel)⟩
  dir := [utf8 "lib"]
  stands := Disk.world_eq_dir.mpr (@benchDisk_dir [utf8 "t", utf8 "lib"] (by decide +kernel))

def loaderText : Str :=
  "\"/usr/lib/m.so\" \n\"png\" \"/share\"\n\n\"/usr/lib/gone.so\"\n\"gif\"\n\n".toList

def loaderBlocks : List Block :=
  [.stanza "\"/usr/lib/m.so\" \n".toList ["\"png\" \"/share\"\n".toList] "\n".toList,
    .stanza "\"/usr/lib/gone.so\"\n".toList ["\"gif\"\n".toList] "\n".toList]

theorem loader_layout : Layout loaderText loaderBlocks where
  -- The kernel is slow at `String.toList`.
  lines := (congrArg (splitInclusive '\n') String.toList_ofList).trans (by decide +kernel)
  laid := by decide +kernel

def loaderPaths : List Str := ["/usr/lib/m.so".toList, "/usr/lib/gone.so".toList, "/share".toList]

theorem loader_straight : ∀ path ∈ loaderPaths, benchSite.Straight path ∧
    (benchSite.Holds path → benchSite.isFile (mapped path) = true) := by
  have relative : ∀ path ∈ loaderPaths, (mapped path).head? ≠ some 47 := by decide +kernel
  have only : ∀ path ∈ loaderPaths, benchSite.isFile (mapped path) = true →
      path = "/usr/lib/m.so".toList := by decide +kernel
  intro path member
  refine ⟨fun file => ⟨relative path member, ?_⟩, Site.isFile_of_holds (relative path member)⟩
  rw [only path member file]
  exact ⟨maxLinks, [utf8 "lib", utf8 "m.so"], (), rfl,
    @benchDisk_file [utf8 "t", utf8 "lib", utf8 "m.so"] (by decide +kernel)⟩

-- A second slash behind `usr` leaves the path absolute: it is looked up on the host and kept so.
example : benchSite.relocateCache "\"/usr//lib/host.so\"\n\n".toList =
    "\"/lib/host.so\"\n\n".toList :=
  (congrArg benchSite.relocateCache String.toList_ofList).trans (by decide +kernel)

end Onelf.Cli.Bundle.ModuleCache
