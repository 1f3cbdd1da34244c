import Onelf.Cli.Pack.Assemble
import Onelf.Format.EntryPaths

/-! What the tables of a packed manifest hold of the items, entrypoints and library directories they
were made of. -/

namespace Onelf.Cli.Pack

open Onelf.Lib hiding Holds
open Onelf.Format
open Onelf.Format.StringTableBuilder (Holds)
open Onelf.Runtime (Block EntryKind)

/-! ### Where a path was last entered -/

def lastOf : List RelPath → RelPath → Option Nat
  | [], path => if path = [] then some 0 else none
  | last :: earlier, path => if last = path then some (earlier.length + 1) else lastOf earlier path

/-- The entry a path has among the items so far; the root's is 0. -/
def lastIndex (past : List Item) (path : RelPath) : Option Nat :=
  lastOf (past.map Item.relPath).reverse path

theorem lastIndex_nil (path : RelPath) : lastIndex [] path = if path = [] then some 0 else none := rfl

theorem lastIndex_snoc (past : List Item) (item : Item) (path : RelPath) :
    lastIndex (past ++ [item]) path =
      if item.relPath = path then some (past.length + 1) else lastIndex past path := by
  simp [lastIndex, lastOf]

/-- What is entered is the last item with the path. -/
theorem lastIndex_eq_some {past : List Item} {path : RelPath} {index : Nat}
    (found : lastIndex past path = some index) :
    (index = 0 ∧ path = []) ∨ ∃ place item, index = place + 1 ∧ past[place]? = some item ∧
      item.relPath = path ∧ ∀ later other, place < later → past[later]? = some other →
        other.relPath ≠ path := by
  induction past using List.reverseRecOn with
  | nil =>
      rw [lastIndex_nil] at found
      split at found
      · next top => exact Or.inl ⟨(Option.some.inj found).symm, top⟩
      · cases found
  | append_singleton past item ih =>
      rw [lastIndex_snoc] at found
      split at found
      · next same =>
          refine Or.inr ⟨past.length, item, (Option.some.inj found).symm, ?_, same, ?_⟩
          · rw [List.getElem?_concat_length]
          · intro later other after there
            have outside : (past ++ [item]).length ≤ later := by
              rw [List.length_append, List.length_singleton]
              exact after
            rw [List.getElem?_eq_none outside] at there
            cases there
      · next other =>
          rcases ih found with top | ⟨place, first, index, there, path, unique⟩
          · exact Or.inl top
          · have inside : place < past.length := (List.getElem?_eq_some_iff.mp there).1
            refine Or.inr ⟨place, first, index, ?_, path, fun later second after held => ?_⟩
            · rw [List.getElem?_append_left inside]
              exact there
            · by_cases within : later < past.length
              · rw [List.getElem?_append_left within] at held
                exact unique later second after held
              · rw [List.getElem?_append_right (Nat.not_lt.mp within),
                  List.getElem?_singleton] at held
                split at held
                · rw [← Option.some.inj held]
                  exact other
                · cases held

theorem lastIndex_eq_none {past : List Item} {path : RelPath} :
    lastIndex past path = none ↔ path ≠ [] ∧ ∀ item ∈ past, item.relPath ≠ path := by
  induction past using List.reverseRecOn with
  | nil => simp [lastIndex_nil]
  | append_singleton past item ih =>
      rw [lastIndex_snoc]
      by_cases same : item.relPath = path
      · simp [same]
      · rw [if_neg same, ih]
        simp [or_imp, forall_and, same]

theorem lastIndex_le {past : List Item} {path : RelPath} {index : Nat}
    (found : lastIndex past path = some index) : index ≤ past.length := by
  rcases lastIndex_eq_some found with top | ⟨place, item, index, there, _⟩
  · omega
  · have inside : place < past.length := (List.getElem?_eq_some_iff.mp there).1
    omega

/-! ### What entries hold -/

/-- The text of `bytes` stands at `offset`. -/
def HoldsText (data : Bytes) (offset : Nat) (bytes : Bytes) : Prop :=
  ∃ text : Text, text.bytes = bytes ∧ Holds data offset bytes

def Targeted (data : Bytes) (offset : Nat) : Option Bytes → Prop
  | none => offset = 0
  | some target => HoldsText data offset target

theorem HoldsText.grows {strings later : StringTableBuilder} {offset : Nat} {bytes : Bytes}
    (held : HoldsText strings.data offset bytes) (grows : strings.Grows later) :
    HoldsText later.data offset bytes := by
  rcases held with ⟨text, same, held⟩
  exact ⟨text, same, grows.holds held⟩

theorem Targeted.grows {strings later : StringTableBuilder} {offset : Nat} {target : Option Bytes}
    (held : Targeted strings.data offset target) (grows : strings.Grows later) :
    Targeted later.data offset target := by
  cases target with
  | none => exact held
  | some target => exact HoldsText.grows held grows

theorem Targeted.le {data : Bytes} {offset : Nat} {target : Option Bytes}
    (held : Targeted data offset target) : offset ≤ data.length := by
  cases target with
  | none =>
      rw [show offset = 0 from held]
      exact Nat.zero_le _
  | some target =>
      rcases held with ⟨_, _, held⟩
      exact held.lt.le

/-- What an entry holds of the item it was made of, after the items before it. -/
structure Entered (data : Bytes) (past : List Item) (item : Item) (entry : Entry) : Prop where
  kind : entry.kind = item.kind
  mode : entry.mode = item.mode.toNat
  mtimeSecs : entry.mtimeSecs = item.mtimeSecs.toNat
  mtimeNsec : entry.mtimeNsec = 0
  contentHash : entry.contentHash = item.contentHash
  blocks : entry.blocks = item.blocks
  name : HoldsText data entry.name (item.relPath.getLastD [])
  target : Targeted data entry.symlinkTarget item.target
  parent : entry.parent = (lastIndex past item.relPath.dropLast).getD 0

theorem Entered.grows {strings later : StringTableBuilder} {past : List Item} {item : Item}
    {entry : Entry} (entered : Entered strings.data past item entry)
    (grows : strings.Grows later) : Entered later.data past item entry :=
  { entered with
    name := entered.name.grows grows
    target := entered.target.grows grows }

/-- A root and an entry for each item. -/
structure Listed (data : Bytes) (entries : List Entry) (items : List Item) : Prop where
  length : entries.length = items.length + 1
  root : entries[0]? = some (rootEntry 0)
  rootName : HoldsText data 0 []
  entered : ∀ (index : Nat) (item : Item), items[index]? = some item →
    ∃ entry, entries[index + 1]? = some entry ∧ Entered data (items.take index) item entry

theorem Listed.grows {strings later : StringTableBuilder} {entries : List Entry}
    {items : List Item} (listed : Listed strings.data entries items)
    (grows : strings.Grows later) : Listed later.data entries items where
  length := listed.length
  root := listed.root
  rootName := listed.rootName.grows grows
  entered index item found := by
    rcases listed.entered index item found with ⟨entry, there, entered⟩
    exact ⟨entry, there, entered.grows grows⟩

theorem Listed.snoc {data : Bytes} {entries : List Entry} {items : List Item} {item : Item}
    {entry : Entry} (listed : Listed data entries items) (entered : Entered data items item entry) :
    Listed data (entries ++ [entry]) (items ++ [item]) where
  length := by
    simp only [List.length_append, List.length_singleton, listed.length]
  root := by
    rw [List.getElem?_append_left (by rw [listed.length]; omega)]
    exact listed.root
  rootName := listed.rootName
  entered index other found := by
    by_cases within : index < items.length
    · rw [List.getElem?_append_left within] at found
      rcases listed.entered index other found with ⟨held, there, keeps⟩
      refine ⟨held, ?_, ?_⟩
      · rw [List.getElem?_append_left (by rw [listed.length]; omega)]
        exact there
      · rw [List.take_append_of_le_length within.le]
        exact keeps
    · rw [List.getElem?_append_right (Nat.not_lt.mp within), List.getElem?_singleton] at found
      split at found
      · next here =>
          have place : index = items.length := by omega
          rw [← Option.some.inj found, place, ← listed.length, List.getElem?_concat_length,
            List.take_left]
          exact ⟨entry, rfl, entered⟩
      · cases found

/-! ### The table as it grows -/

structure Table.Sound (past : List Item) (table : Table) : Prop where
  strings : table.strings.Sound
  listed : Listed table.strings.data table.entries past
  places : ∀ path, table.pathToIndex.get? path = lastIndex past path

theorem addTarget_grows {strings : StringTableBuilder} {target : Option Bytes}
    {next : StringTableBuilder × Nat} (ran : addTarget strings target = some next) :
    strings.Grows next.1 := by
  cases target with
  | none =>
      cases ran
      exact .refl strings
  | some target =>
      rcases Option.map_eq_some_iff.mp ran with ⟨text, _, added⟩
      rw [← added]
      exact .add strings text

theorem addTarget_targeted {strings : StringTableBuilder} {target : Option Bytes}
    {next : StringTableBuilder × Nat} (sound : strings.Sound)
    (ran : addTarget strings target = some next) (small : next.1.data.length < 2 ^ 32) :
    Targeted next.1.data next.2 target := by
  cases target with
  | none =>
      cases ran
      rfl
  | some target =>
      rcases Option.map_eq_some_iff.mp ran with ⟨text, decoded, added⟩
      have same := fromUtf8_eq_some.mp decoded
      rw [← added] at small ⊢
      exact ⟨text, same, same ▸ (sound.add text small).2⟩

/-- A table holds what was entered while its strings and its entries can be counted. -/
structure Keeping (start : StringTableBuilder) (past : List Item) (table : Table) : Prop where
  grows : start.Grows table.strings
  sound : table.strings.data.length < 2 ^ 32 → past.length + 1 < 2 ^ 32 → table.Sound past

theorem addEntry_keeps {start : StringTableBuilder} (past : List Item) (table : Table)
    (item : Item) (next : Table) (keeping : Keeping start past table)
    (ran : addEntry table item = some next) : Keeping start (past ++ [item]) next := by
  simp only [addEntry, Option.bind_eq_bind, Option.bind_eq_some_iff, Option.some.injEq] at ran
  rcases ran with ⟨name, decoded, target, targeted, built⟩
  rw [← built]
  have same := fromUtf8_eq_some.mp decoded
  have first := StringTableBuilder.Grows.add table.strings name
  have second := addTarget_grows targeted
  have both := first.trans second
  refine ⟨keeping.grows.trans both, fun small few => ?_⟩
  rw [List.length_append, List.length_singleton] at few
  have sound := keeping.sound (both.small small) (by omega)
  have named := sound.strings.add name (second.small small)
  refine ⟨both.sound small sound.strings, (sound.listed.grows both).snoc ?_, fun path => ?_⟩
  · refine ⟨rfl, rfl, rfl, rfl, rfl, rfl, ⟨name, same, ?_⟩,
      addTarget_targeted named.1 targeted small, ?_⟩
    · rw [← same]
      exact second.holds named.2
    · dsimp only
      rw [sound.places]
  · rw [SortedMap.get?_insert, lastIndex_snoc, sound.places, sound.listed.length, asU32,
      Nat.mod_eq_of_lt (by omega)]
    by_cases here : item.relPath = path
    · rw [if_pos here, if_pos here]
    · rw [if_neg here, if_neg here]

theorem startTable_keeping {opts : PackOptions} {started : Table × Nat}
    (ran : startTable opts = some started) :
    Keeping started.1.strings [] started.1 ∧ started.2 < 2 ^ 16 ∧
      (started.1.strings.data.length < 2 ^ 32 → started.2 < started.1.strings.data.length) := by
  simp only [startTable] at ran
  split at ran
  · next small =>
      rw [← Option.some.inj ran]
      dsimp only
      have first := StringTableBuilder.new_sound.add emptyText (by decide)
      have second := StringTableBuilder.Grows.add (StringTableBuilder.new.add emptyText).1
        (packageName opts)
      have named := fun fits => first.1.add (packageName opts) fits
      refine ⟨⟨.refl _, fun fits _ => ⟨(named fits).1, ⟨rfl, rfl, ⟨emptyText, rfl, ?_⟩, ?_⟩, ?_⟩⟩,
        small, fun fits => (named fits).2.lt⟩
      · exact second.holds first.2
      · exact fun index item found => absurd found (by simp)
      · intro path
        rw [SortedMap.get?_insert, lastIndex_nil, SortedMap.get?_empty]
        by_cases top : path = []
        · rw [if_pos top.symm, if_pos top]
        · rw [if_neg (Ne.symm top), if_neg top]
  · cases ran

/-! ### Entrypoints and library directories -/

/-- What an entrypoint holds of its row. -/
structure Pointed (data : Bytes) (items : List Item) (row : Declared) (entrypoint : EntryPoint) :
    Prop where
  name : Holds data entrypoint.name row.name.bytes
  args : Holds data entrypoint.args (joinArgs row.args).bytes
  target : ∃ path, relPathOf row.path.bytes = some path ∧
    lastIndex items path = some entrypoint.targetEntry

theorem Pointed.grows {strings later : StringTableBuilder} {items : List Item} {row : Declared}
    {entrypoint : EntryPoint} (pointed : Pointed strings.data items row entrypoint)
    (grows : strings.Grows later) : Pointed later.data items row entrypoint where
  name := grows.holds pointed.name
  args := grows.holds pointed.args
  target := pointed.target

theorem Table.Sound.indexOf {items : List Item} {table : Table} (sound : table.Sound items)
    {path : Text} {index : Nat} (found : table.indexOf path = some index) :
    ∃ rel, relPathOf path.bytes = some rel ∧ lastIndex items rel = some index := by
  rcases Option.bind_eq_some_iff.mp found with ⟨rel, split, held⟩
  exact ⟨rel, split, sound.places rel ▸ held⟩

theorem addArgs_grows (strings : StringTableBuilder) (emptyArgs : Nat) (args : List Text) :
    strings.Grows (addArgs strings emptyArgs args).1 := by
  rw [addArgs]
  split
  · exact .refl strings
  · exact .add strings _

theorem addArgs_holds {strings : StringTableBuilder} {emptyArgs : Nat} {args : List Text}
    (sound : strings.Sound) (none : Holds strings.data emptyArgs [])
    (small : (addArgs strings emptyArgs args).1.data.length < 2 ^ 32) :
    Holds (addArgs strings emptyArgs args).1.data (addArgs strings emptyArgs args).2
      (joinArgs args).bytes := by
  rw [addArgs] at small ⊢
  cases args with
  | nil => exact none
  | cons first args => exact (sound.add _ small).2

/-- What the entrypoints added so far hold, over the strings of the table. -/
structure Pointing (table : Table) (items : List Item) (emptyArgs : Nat) (rows : List Declared)
    (added : StringTableBuilder × List EntryPoint) : Prop where
  grows : table.strings.Grows added.1
  none : added.1.data.length < 2 ^ 32 → table.strings.Sound → Holds added.1.data emptyArgs []
  pointed : added.1.data.length < 2 ^ 32 → table.Sound items →
    List.Forall₂ (Pointed added.1.data items) rows added.2

theorem addEntrypoint_keeps {opts : PackOptions} {table : Table} {items : List Item}
    {emptyArgs : Nat} (rows : List Declared) (added : StringTableBuilder × List EntryPoint)
    (row : Declared) (next : StringTableBuilder × List EntryPoint)
    (before : Pointing table items emptyArgs rows added)
    (ran : addEntrypoint opts table emptyArgs added row = some next) :
    Pointing table items emptyArgs (rows ++ [row]) next := by
  simp only [addEntrypoint, Option.bind_eq_bind, Option.bind_eq_some_iff, Option.some.injEq] at ran
  rcases ran with ⟨target, found, built⟩
  rw [← built]
  have first := StringTableBuilder.Grows.add added.1 row.name
  have second := addArgs_grows (added.1.add row.name).1 emptyArgs row.args
  have both := first.trans second
  refine ⟨before.grows.trans both, fun small sound => ?_, fun small sound => ?_⟩
  · exact both.holds (before.none (both.small small) sound)
  · have strings := before.grows.sound (both.small small) sound.strings
    have none := first.holds (before.none (both.small small) sound.strings)
    have named := strings.add row.name (second.small small)
    have pointed := before.pointed (both.small small) sound
    refine List.rel_append (pointed.imp fun row entrypoint held => held.grows both)
      (List.Forall₂.cons ?_ List.Forall₂.nil)
    exact ⟨second.holds named.2, addArgs_holds named.1 none small, sound.indexOf found⟩

theorem addEntrypoints_pointing {opts : PackOptions} {table : Table} (items : List Item)
    {flags : UInt8} {added : StringTableBuilder × List EntryPoint}
    (ran : addEntrypoints opts table flags = some added) :
    ∃ emptyArgs, Pointing table items emptyArgs (tableRows opts) added := by
  simp only [addEntrypoints, Option.bind_eq_bind, Option.bind_eq_some_iff] at ran
  rcases ran with ⟨_, _, target, found, ran⟩
  let named := table.strings.add (defaultName opts)
  let empty := named.1.add emptyText
  have first : table.strings.Grows named.1 := .add _ _
  have second : named.1.Grows empty.1 := .add _ _
  have third := addArgs_grows empty.1 empty.2 (defaultRow opts).args
  have begins : Pointing table items empty.2 [defaultRow opts]
      ((addArgs empty.1 empty.2 (defaultRow opts).args).1,
        [⟨named.2, target, (addArgs empty.1 empty.2 (defaultRow opts).args).2, opts.workingDir,
          flags⟩]) := by
    have none (small : empty.1.data.length < 2 ^ 32) (sound : table.strings.Sound) :=
      (first.sound (second.small small) sound).add emptyText small
    refine ⟨(first.trans second).trans third, fun small sound => ?_, fun small sound =>
      List.Forall₂.cons ?_ List.Forall₂.nil⟩
    · exact third.holds (none (third.small small) sound).2
    · have fewer := third.small small
      have empties := none fewer sound.strings
      have name := sound.strings.add (defaultName opts) (second.small fewer)
      exact ⟨third.holds (second.holds name.2), addArgs_holds empties.1 empties.2 small,
        sound.indexOf found⟩
  exact ⟨empty.2, Option.foldlM_keeps addEntrypoint_keeps begins ran⟩

theorem addLibDirs_grows (strings : StringTableBuilder) (dirs : List Text) :
    strings.Grows (addLibDirs strings dirs).1 := by
  induction dirs generalizing strings with
  | nil => exact .refl strings
  | cons dir dirs ih => exact (StringTableBuilder.Grows.add strings dir).trans (ih _)

theorem addLibDirs_holds {strings : StringTableBuilder} (sound : strings.Sound) {dirs : List Text}
    (small : (addLibDirs strings dirs).1.data.length < 2 ^ 32) :
    List.Forall₂ (fun (dir : Text) offset => Holds (addLibDirs strings dirs).1.data offset dir.bytes)
      dirs (addLibDirs strings dirs).2 := by
  induction dirs generalizing strings with
  | nil => exact List.Forall₂.nil
  | cons dir dirs ih =>
      have rest := addLibDirs_grows (strings.add dir).1 dirs
      have held := sound.add dir (rest.small small)
      exact List.Forall₂.cons (rest.holds held.2) (ih held.1 small)

/-! ### The whole manifest -/

/-- What a manifest holds of the items, the rows and the library directories it was made of. -/
structure Assembled (items : List Item) (rows : List Declared) (libDirs : List Text)
    (manifest : Manifest) : Prop where
  version : manifest.header.version = manifestVersion
  entryCount : manifest.header.entryCount = asU32 manifest.entries.length
  stringTableSize : manifest.header.stringTableSize = asU32 manifest.stringTable.length
  entrypointCount : manifest.header.entrypointCount = asU16 manifest.entrypoints.length
  defaultEntrypoint : manifest.header.defaultEntrypoint = 0
  libDirCount : manifest.header.libDirCount = asU16 manifest.libDirOffsets.length
  nameOffset : manifest.header.nameOffset < 2 ^ 16
  named : manifest.header.nameOffset ≤ manifest.stringTable.length
  listed : Listed manifest.stringTable manifest.entries items
  pointed : List.Forall₂ (Pointed manifest.stringTable items) rows manifest.entrypoints
  libDirs : List.Forall₂ (fun (dir : Text) offset => Holds manifest.stringTable offset dir.bytes)
    libDirs manifest.libDirOffsets

theorem manifestOf_assembled {opts : PackOptions} {host : Host} {libDirs : List Text}
    {collected : Collected} {files : List CompressedFile} {manifest : Manifest}
    (ran : manifestOf opts host libDirs collected files = some manifest)
    (small : manifest.stringTable.length < 2 ^ 32)
    (few : (itemsOf collected files).length + 1 < 2 ^ 32) :
    Assembled (itemsOf collected files) (tableRows opts) libDirs manifest := by
  simp only [manifestOf, Option.bind_eq_bind, Option.bind_eq_some_iff, Option.some.injEq] at ran
  rcases ran with ⟨started, starts, table, entered, flags, _, added, adds, built⟩
  rw [← built] at small ⊢
  have begun := startTable_keeping starts
  have keeping := Option.foldlM_keeps addEntry_keeps begun.1 entered
  rcases addEntrypoints_pointing (itemsOf collected files) adds with ⟨emptyArgs, pointing⟩
  have dirs := addLibDirs_grows added.1 libDirs
  have sound := keeping.sound (pointing.grows.small (dirs.small small)) few
  have strings := pointing.grows.sound (dirs.small small) sound.strings
  exact {
    version := rfl
    entryCount := rfl
    stringTableSize := rfl
    entrypointCount := rfl
    defaultEntrypoint := rfl
    libDirCount := rfl
    nameOffset := begun.2.1
    named := by
      have whole := keeping.grows.trans (pointing.grows.trans dirs)
      have start := begun.2.2 (whole.small small)
      rcases whole.data with ⟨more, data⟩
      dsimp only
      rw [data, List.length_append]
      omega
    listed := sound.listed.grows (pointing.grows.trans dirs)
    pointed := (pointing.pointed (dirs.small small) sound).imp fun row entrypoint held =>
      held.grows dirs
    libDirs := addLibDirs_holds strings small }

/-! ### The strings of a package -/

def nameTexts (path : RelPath) : List Text := (fromUtf8 (path.getLastD [])).toList

def Item.texts (item : Item) : List Text :=
  nameTexts item.relPath ++ (item.target.bind fromUtf8).toList

def argTexts (args : List Text) : List Text := if args.isEmpty then [] else [joinArgs args]

/-- Every string a package's table is given, in the order it is. -/
def packedTexts (opts : PackOptions) (collected : Collected) (libDirs : List Text) : List Text :=
  [emptyText, packageName opts] ++
    ((sortedDirs collected.dirs).flatMap (fun dir => nameTexts dir.relPath) ++
      collected.files.flatMap (fun file => nameTexts file.relPath) ++
      collected.symlinks.flatMap fun symlink =>
        nameTexts symlink.relPath ++ (fromUtf8 symlink.target).toList) ++
    ([defaultName opts, emptyText] ++ argTexts (defaultRow opts).args) ++
    (otherRows opts).flatMap (fun row => row.name :: argTexts row.args) ++ libDirs

theorem addEntry_strings {table : Table} {item : Item} {next : Table}
    (ran : addEntry table item = some next) : next.strings = table.strings.addAll item.texts := by
  simp only [addEntry, Option.bind_eq_bind, Option.bind_eq_some_iff, Option.some.injEq] at ran
  rcases ran with ⟨name, decoded, target, targeted, built⟩
  rw [← built, Item.texts, nameTexts, decoded]
  cases aim : item.target with
  | none =>
      rw [aim] at targeted
      cases targeted
      rfl
  | some bytes =>
      rw [aim] at targeted
      rcases Option.map_eq_some_iff.mp targeted with ⟨text, second, added⟩
      rw [← added, Option.bind_some, second]
      rfl

theorem items_strings {items : List Item} {table last : Table}
    (ran : items.foldlM addEntry table = some last) :
    last.strings = table.strings.addAll (items.flatMap Item.texts) := by
  induction items generalizing table with
  | nil =>
      cases ran
      rfl
  | cons item items ih =>
      rw [List.foldlM_cons, Option.bind_eq_bind, Option.bind_eq_some_iff] at ran
      rcases ran with ⟨next, now, later⟩
      rw [ih later, addEntry_strings now, List.flatMap_cons, StringTableBuilder.addAll_append]

theorem addArgs_strings (strings : StringTableBuilder) (emptyArgs : Nat) (args : List Text) :
    (addArgs strings emptyArgs args).1 = strings.addAll (argTexts args) := by
  rw [addArgs, argTexts]
  split
  · rfl
  · rfl

theorem rows_strings {opts : PackOptions} {table : Table} {emptyArgs : Nat} {rows : List Declared}
    {added last : StringTableBuilder × List EntryPoint}
    (ran : rows.foldlM (addEntrypoint opts table emptyArgs) added = some last) :
    last.1 = added.1.addAll (rows.flatMap fun row => row.name :: argTexts row.args) := by
  induction rows generalizing added with
  | nil =>
      cases ran
      rfl
  | cons row rows ih =>
      simp only [List.foldlM_cons, addEntrypoint, Option.bind_eq_bind, Option.bind_eq_some_iff,
        Option.some.injEq] at ran
      rcases ran with ⟨next, ⟨target, found, built⟩, later⟩
      rw [ih later, ← built, List.flatMap_cons, StringTableBuilder.addAll_append,
        StringTableBuilder.addAll_cons, addArgs_strings]

theorem addLibDirs_strings (strings : StringTableBuilder) (dirs : List Text) :
    (addLibDirs strings dirs).1 = strings.addAll dirs := by
  induction dirs generalizing strings with
  | nil => rfl
  | cons dir dirs ih => exact ih (strings.add dir).1

theorem itemsOf_texts {collected : Collected} {files : List CompressedFile}
    (paths : files.map CompressedFile.relPath = collected.files.map CollectedFile.relPath) :
    (itemsOf collected files).flatMap Item.texts =
      (sortedDirs collected.dirs).flatMap (fun dir => nameTexts dir.relPath) ++
        collected.files.flatMap (fun file => nameTexts file.relPath) ++
        collected.symlinks.flatMap fun symlink =>
          nameTexts symlink.relPath ++ (fromUtf8 symlink.target).toList := by
  have files : files.flatMap (fun file => nameTexts file.relPath) =
      collected.files.flatMap fun file => nameTexts file.relPath := by
    rw [← List.flatMap_map, paths, List.flatMap_map]
  rw [itemsOf, List.flatMap_append, List.flatMap_append, List.flatMap_map, List.flatMap_map,
    List.flatMap_map, ← files]
  simp only [Item.texts, dirItem, fileItem, symlinkItem, Option.bind_none, Option.toList_none,
    List.append_nil, Option.bind_some]

/-- The string table is what a builder makes of the strings. -/
theorem manifestOf_stringTable {opts : PackOptions} {host : Host} {libDirs : List Text}
    {collected : Collected} {files : List CompressedFile} {manifest : Manifest}
    (paths : files.map CompressedFile.relPath = collected.files.map CollectedFile.relPath)
    (ran : manifestOf opts host libDirs collected files = some manifest) :
    manifest.stringTable = (StringTableBuilder.new.addAll (packedTexts opts collected libDirs)).data := by
  simp only [manifestOf, Option.bind_eq_bind, Option.bind_eq_some_iff, Option.some.injEq] at ran
  rcases ran with ⟨started, starts, table, entered, flags, _, added, adds, built⟩
  simp only [addEntrypoints, Option.bind_eq_bind, Option.bind_eq_some_iff] at adds
  rcases adds with ⟨_, _, target, _, adds⟩
  have first : started.1.strings = StringTableBuilder.new.addAll [emptyText, packageName opts] := by
    simp only [startTable] at starts
    split at starts
    · rw [← Option.some.inj starts]
      rfl
    · cases starts
  rw [← built]
  simp only [packedTexts, StringTableBuilder.addAll_append, ← first, ← itemsOf_texts paths,
    ← items_strings entered]
  rw [addLibDirs_strings, rows_strings adds, addArgs_strings]
  rfl

end Onelf.Cli.Pack
