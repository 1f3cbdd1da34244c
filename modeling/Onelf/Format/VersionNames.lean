import Onelf.Format.VersionChain

/-! The names that version definitions and requirements give. -/

namespace Onelf.Format.Versions

open Onelf.Lib

/-! ### Definitions -/

abbrev Definition := DefinitionFields × List Nat

/-- Every definition can be read. -/
structure DefinitionsRead (strings : Bytes) (records : List Definition) : Prop where
  format : ∀ record ∈ records, record.1.version = 1
  named : ∀ record ∈ records, ∀ start ∈ record.2, ∃ name, stringAt strings start = .ok name

/-- What a definition defines: its first name, unless it is the object's own. -/
def definedName (strings : Bytes) (record : Definition) : Option Bytes :=
  if record.1.flags &&& verFlgBase = 0 then
    record.2.head?.bind fun start => (stringAt strings start).toOption
  else none

theorem verdef_later {strings : Bytes} {header : DefinitionFields} {i : Nat} (later : i ≠ 0)
    {auxes : List Nat} {out out' : VersionSet} :
    collectAuxes (verdefForm strings) header i auxes out = .ok out' ↔
      (∀ start ∈ auxes, ∃ name, stringAt strings start = .ok name) ∧ out' = out := by
  induction auxes generalizing i with
  | nil =>
      rw [collectAuxes, Except.ok.injEq]
      exact ⟨fun same => ⟨fun _ member => absurd member List.not_mem_nil, same.symm⟩,
        fun held => held.2.symm⟩
  | cons start auxes ih =>
      rw [collectAuxes, List.forall_mem_cons]
      cases named : stringAt strings start with
      | error reason =>
          have failed : (verdefForm strings).collect header i start out = .error reason := by
            dsimp only [verdefForm]
            rw [named]
            rfl
          rw [failed, error_bind]
          simp
      | ok name =>
          have passed : (verdefForm strings).collect header i start out = .ok out := by
            dsimp only [verdefForm]
            rw [named, ok_bind, if_neg fun held => later held.1]
          rw [passed, ok_bind, ih (Nat.succ_ne_zero i)]
          simp

theorem toOption_ok {name : Bytes} {result : Except ChainError Bytes} (read : result = .ok name) :
    result.toOption = some name := by
  rw [read]
  rfl

theorem verdef_auxes {strings : Bytes} {record : Definition} {out out' : VersionSet} :
    collectAuxes (verdefForm strings) record.1 0 record.2 out = .ok out' ↔
      (∀ start ∈ record.2, ∃ name, stringAt strings start = .ok name) ∧
        out' = (definedName strings record).elim out fun name => insert name out := by
  rcases record with ⟨header, auxes⟩
  rw [definedName]
  cases auxes with
  | nil =>
      rw [collectAuxes, Except.ok.injEq, List.head?_nil, Option.bind_none, ite_self]
      exact ⟨fun same => ⟨fun _ member => absurd member List.not_mem_nil, same.symm⟩,
        fun held => held.2.symm⟩
  | cons start auxes =>
      rw [collectAuxes, List.forall_mem_cons, List.head?_cons, Option.bind_some]
      cases named : stringAt strings start with
      | error reason =>
          have failed : (verdefForm strings).collect header 0 start out = .error reason := by
            dsimp only [verdefForm]
            rw [named]
            rfl
          rw [failed, error_bind]
          simp
      | ok name =>
          have passed : (verdefForm strings).collect header 0 start out = .ok
              (if header.flags &&& verFlgBase = 0 then insert name out else out) := by
            dsimp only [verdefForm]
            rw [named, ok_bind]
            by_cases base : header.flags &&& verFlgBase = 0
            · rw [if_pos ⟨rfl, base⟩, if_pos base]
            · rw [if_neg fun held => base held.2, if_neg base]
          rw [passed, ok_bind, verdef_later (Nat.succ_ne_zero 0), toOption_ok rfl]
          by_cases base : header.flags &&& verFlgBase = 0
          · simp [base]
          · simp [base]

theorem mem_defined_cons {strings name : Bytes} {record : Definition} {records : List Definition}
    {out : VersionSet} :
    (name ∈ ((definedName strings record).elim out fun name => insert name out) ∨
        ∃ record ∈ records, definedName strings record = some name) ↔
      name ∈ out ∨ ∃ other ∈ record :: records, definedName strings other = some name := by
  rw [List.exists_mem_cons_iff]
  cases definedName strings record with
  | none => simp
  | some own =>
      rw [Option.elim_some, Finset.mem_insert, Option.some_inj, eq_comm, or_assoc, or_left_comm]

theorem verdef_records {strings : Bytes} {records : List Definition} {out out' : VersionSet} :
    collectRecords (verdefForm strings) records out = .ok out' ↔
      DefinitionsRead strings records ∧ ∀ name, name ∈ out' ↔
        name ∈ out ∨ ∃ record ∈ records, definedName strings record = some name := by
  induction records generalizing out with
  | nil =>
      rw [collectRecords, Except.ok.injEq]
      constructor
      · intro same
        rw [same]
        refine ⟨⟨?_, ?_⟩, ?_⟩
        · intro record member
          cases member
        · intro record member
          cases member
        · simp
      · intro held
        ext name
        rw [held.2 name]
        simp
  | cons record records ih =>
      rw [collectRecords]
      constructor
      · intro ran
        rcases Except.andThen_eq_ok.mp ran with ⟨entered, enters, ran⟩
        rcases Except.andThen_eq_ok.mp ran with ⟨middle, collects, ran⟩
        rcases Except.followed_eq_ok.mp enters with ⟨format, same⟩
        rw [← Except.ok.inj same] at collects
        rcases verdef_auxes.mp collects with ⟨named, gives⟩
        rcases ih.mp ran with ⟨read, members⟩
        refine ⟨⟨?_, ?_⟩, ?_⟩
        · rw [List.forall_mem_cons]
          exact ⟨not_not.mp (refuseIf_eq_ok.mp format), read.format⟩
        · rw [List.forall_mem_cons]
          exact ⟨named, read.named⟩
        · intro name
          rw [members, gives, mem_defined_cons]
      · rintro ⟨⟨format, named⟩, members⟩
        rw [List.forall_mem_cons] at format named
        have enters : (verdefForm strings).enter record.1 out = .ok out :=
          Except.followed_eq_ok.mpr ⟨refuseIf_eq_ok.mpr (not_not_intro format.1), rfl⟩
        refine Except.andThen_eq_ok.mpr ⟨out, enters, Except.andThen_eq_ok.mpr
          ⟨_, verdef_auxes.mpr ⟨named.1, rfl⟩, ih.mpr ⟨⟨format.2, named.2⟩, ?_⟩⟩⟩
        intro name
        rw [members, mem_defined_cons]

/-! ### Requirements -/

abbrev Requirement := RequirementFields × List RequiredFields

/-- Every requirement can be read and names a needed dependency. -/
structure RequirementsRead (strings : Bytes) (needed : List Bytes) (records : List Requirement) :
    Prop where
  format : ∀ record ∈ records, record.1.version = 1
  file : ∀ record ∈ records, ∃ name ∈ needed, stringAt strings record.1.file = .ok name
  named : ∀ record ∈ records, ∀ aux ∈ record.2,
    ∃ name, name ≠ [] ∧ stringAt strings aux.name = .ok name

def requiredVersion (strings : Bytes) (aux : RequiredFields) : Option RequiredVersion :=
  (stringAt strings aux.name).toOption.map fun name => ⟨name, aux.flags⟩

/-- The requirements of a dependency. -/
def requirementsOf (strings dependency : Bytes) (records : List Requirement) : List Requirement :=
  records.filter fun record => stringAt strings record.1.file = .ok dependency

/-- The versions required of a dependency, behind the ones `held` for it; nothing is held for one that
no header names. -/
def requiredOf (strings : Bytes) (records : List Requirement) (dependency : Bytes)
    (held : Option (List RequiredVersion)) : Option (List RequiredVersion) :=
  if requirementsOf strings dependency records = [] then held
  else some (held.getD [] ++ (requirementsOf strings dependency records).flatMap fun record =>
    record.2.filterMap (requiredVersion strings))

theorem requiredOf_cons {strings dependency : Bytes} {record : Requirement}
    {records : List Requirement} {held : Option (List RequiredVersion)} :
    requiredOf strings (record :: records) dependency held =
      requiredOf strings records dependency
        (if stringAt strings record.1.file = .ok dependency then
          some (held.getD [] ++ record.2.filterMap (requiredVersion strings))
        else held) := by
  rw [requiredOf, requiredOf, requirementsOf, requirementsOf]
  by_cases names : stringAt strings record.1.file = .ok dependency
  · rw [List.filter_cons, if_pos (decide_eq_true names), if_pos names,
      if_neg (List.cons_ne_nil _ _), List.flatMap_cons, Option.getD_some, List.append_assoc]
    split
    · next none => rw [none, List.flatMap_nil, List.append_nil]
    · rfl
  · have off : ¬decide (stringAt strings record.1.file = .ok dependency) = true := by
      rw [decide_eq_true_eq]
      exact names
    rw [List.filter_cons, if_neg off, if_neg names]

theorem verneed_auxes {strings : Bytes} {needed : List Bytes} {header : RequirementFields} {i : Nat}
    {auxes : List RequiredFields} {out out' : Collecting} {held : List RequiredVersion}
    (known : out.1.get? out.2 = some held) :
    collectAuxes (verneedForm strings needed) header i auxes out = .ok out' ↔
      (∀ aux ∈ auxes, ∃ name, name ≠ [] ∧ stringAt strings aux.name = .ok name) ∧
        out'.2 = out.2 ∧ ∀ dependency, out'.1.get? dependency =
          if out.2 = dependency then some (held ++ auxes.filterMap (requiredVersion strings))
          else out.1.get? dependency := by
  induction auxes generalizing i out held with
  | nil =>
      rw [collectAuxes, Except.ok.injEq, List.filterMap_nil, List.append_nil]
      constructor
      · intro same
        rw [← same]
        refine ⟨fun _ member => absurd member List.not_mem_nil, rfl, ?_⟩
        intro dependency
        split
        · next own => rw [← own, known]
        · rfl
      · rintro ⟨-, same, gets⟩
        refine Prod.ext (SortedMap.ext_get? ?_) same.symm
        intro dependency
        rw [gets]
        split
        · next own => rw [← own, known]
        · rfl
  | cons aux auxes ih =>
      rw [collectAuxes, List.forall_mem_cons, List.filterMap_cons]
      cases named : stringAt strings aux.name with
      | error reason =>
          have failed : (verneedForm strings needed).collect header i aux out = .error reason := by
            dsimp only [verneedForm]
            rw [named]
            rfl
          rw [failed, error_bind]
          simp
      | ok name =>
          by_cases empty : name = []
          · have failed : (verneedForm strings needed).collect header i aux out =
                .error .emptyName := by
              dsimp only [verneedForm]
              rw [named, ok_bind, refuseIf, if_pos empty]
              rfl
            rw [failed, error_bind]
            simp [empty]
          · have passed : (verneedForm strings needed).collect header i aux out =
                .ok (out.1.insert out.2 (held ++ [⟨name, aux.flags⟩]), out.2) := by
              dsimp only [verneedForm]
              rw [named, ok_bind, refuseIf, if_neg empty, ok_bind, known]
              rfl
            have read : requiredVersion strings aux = some ⟨name, aux.flags⟩ := by
              rw [requiredVersion, named]
              rfl
            have known' : (out.1.insert out.2 (held ++ [⟨name, aux.flags⟩])).get? out.2 =
                some (held ++ [⟨name, aux.flags⟩]) := by
              rw [SortedMap.get?_insert, if_pos rfl]
            rw [passed, ok_bind, ih known', read, List.append_assoc, List.singleton_append]
            apply and_congr
            · simp [empty]
            · apply and_congr Iff.rfl
              apply forall_congr'
              intro dependency
              dsimp only
              rw [SortedMap.get?_insert]
              split
              · rfl
              · rfl

theorem verneed_enter {strings : Bytes} {needed : List Bytes} {header : RequirementFields}
    {out entered : Collecting} :
    (verneedForm strings needed).enter header out = .ok entered ↔
      header.version = 1 ∧ ∃ name ∈ needed, stringAt strings header.file = .ok name ∧
        (out.1.orInsert name [], name) = entered := by
  constructor
  · intro ran
    rcases Except.followed_eq_ok.mp ran with ⟨format, ran⟩
    rcases Except.andThen_eq_ok.mp ran with ⟨name, read, ran⟩
    rcases Except.followed_eq_ok.mp ran with ⟨needs, same⟩
    have member : name ∈ needed := List.contains_iff_mem.mp (not_not.mp (refuseIf_eq_ok.mp needs))
    exact ⟨not_not.mp (refuseIf_eq_ok.mp format), name, member, read, Except.ok.inj same⟩
  · rintro ⟨format, name, needs, read, same⟩
    refine Except.followed_eq_ok.mpr ⟨refuseIf_eq_ok.mpr (not_not_intro format), ?_⟩
    refine Except.andThen_eq_ok.mpr ⟨name, read, ?_⟩
    have held : needed.contains name := List.contains_iff_mem.mpr needs
    exact Except.followed_eq_ok.mpr
      ⟨refuseIf_eq_ok.mpr (not_not_intro held), congrArg Except.ok same⟩

theorem get?_orInsert_self (out : Requirements) (name : Bytes) :
    (out.orInsert name []).get? name = some ((out.get? name).getD []) := by
  rw [SortedMap.get?_orInsert, if_pos rfl]
  cases out.get? name with
  | none => rfl
  | some held => rfl

/-- What a dependency's header leaves for it, and for the others. -/
theorem get?_entered (out : Requirements) (name dependency : Bytes) (auxes : List RequiredVersion) :
    (if name = dependency then some ((out.get? name).getD [] ++ auxes)
      else (out.orInsert name []).get? dependency) =
      if name = dependency then some ((out.get? dependency).getD [] ++ auxes)
      else out.get? dependency := by
  by_cases same : name = dependency
  · rw [if_pos same, if_pos same, same]
  · rw [if_neg same, if_neg same, SortedMap.get?_orInsert, if_neg same, Option.or_none]

theorem verneed_records {strings : Bytes} {needed : List Bytes} {records : List Requirement}
    {out : Collecting} {result : Requirements} :
    (∃ last, collectRecords (verneedForm strings needed) records out = .ok (result, last)) ↔
      RequirementsRead strings needed records ∧ ∀ dependency,
        result.get? dependency = requiredOf strings records dependency (out.1.get? dependency) := by
  induction records generalizing out with
  | nil =>
      constructor
      · rintro ⟨last, ran⟩
        rw [collectRecords] at ran
        rw [Except.ok.inj ran]
        refine ⟨⟨?_, ?_, ?_⟩, fun _ => rfl⟩
        · intro record member
          cases member
        · intro record member
          cases member
        · intro record member
          cases member
      · intro held
        have same : result = out.1 := SortedMap.ext_get? held.2
        refine ⟨out.2, ?_⟩
        rw [collectRecords, same]
  | cons record records ih =>
      constructor
      · rintro ⟨last, ran⟩
        rcases Except.andThen_eq_ok.mp ran with ⟨entered, enters, ran⟩
        rcases Except.andThen_eq_ok.mp ran with ⟨middle, collects, ran⟩
        rcases verneed_enter.mp enters with ⟨format, name, needs, read, same⟩
        rw [← same] at collects
        rcases (verneed_auxes (get?_orInsert_self out.1 name)).mp collects with ⟨named, -, gets⟩
        rcases ih.mp ⟨last, ran⟩ with ⟨reads, members⟩
        refine ⟨⟨?_, ?_, ?_⟩, ?_⟩
        · rw [List.forall_mem_cons]
          exact ⟨format, reads.format⟩
        · rw [List.forall_mem_cons]
          exact ⟨⟨name, needs, read⟩, reads.file⟩
        · rw [List.forall_mem_cons]
          exact ⟨named, reads.named⟩
        · intro dependency
          have own := gets dependency
          dsimp only at own
          rw [get?_entered] at own
          rw [members, own, requiredOf_cons, read]
          simp only [Except.ok.injEq]
      · rintro ⟨⟨format, file, named⟩, members⟩
        rw [List.forall_mem_cons] at format file named
        rcases file.1 with ⟨name, needs, read⟩
        have enters : (verneedForm strings needed).enter record.1 out =
            .ok (out.1.orInsert name [], name) :=
          verneed_enter.mpr ⟨format.1, name, needs, read, rfl⟩
        have collects : collectAuxes (verneedForm strings needed) record.1 0 record.2
            (out.1.orInsert name [], name) = .ok ((out.1.orInsert name []).insert name
              ((out.1.get? name).getD [] ++ record.2.filterMap (requiredVersion strings)), name) := by
          rw [verneed_auxes (get?_orInsert_self out.1 name)]
          refine ⟨named.1, rfl, ?_⟩
          intro dependency
          rw [SortedMap.get?_insert]
          by_cases own : name = dependency
          · rw [if_pos own, if_pos own]
          · rw [if_neg own, if_neg own]
        have rest : ∃ last, collectRecords (verneedForm strings needed) records
            ((out.1.orInsert name []).insert name
              ((out.1.get? name).getD [] ++ record.2.filterMap (requiredVersion strings)), name) =
              .ok (result, last) := by
          rw [ih]
          refine ⟨⟨format.2, file.2, named.2⟩, ?_⟩
          intro dependency
          rw [members, requiredOf_cons, read, SortedMap.get?_insert]
          by_cases own : name = dependency
          · rw [if_pos own, if_pos (congrArg Except.ok own), own]
          · rw [if_neg own, if_neg fun same => own (Except.ok.inj same), SortedMap.get?_orInsert,
              if_neg own, Option.or_none]
        rcases rest with ⟨last, ran⟩
        exact ⟨last, Except.andThen_eq_ok.mpr ⟨_, enters, Except.andThen_eq_ok.mpr
          ⟨_, collects, ran⟩⟩⟩

/-! ### The sections -/

theorem verdef_lengths (strings : Bytes) :
    0 < (verdefForm strings).headerLen ∧ 0 < (verdefForm strings).auxLen :=
  ⟨Nat.succ_pos 19, Nat.succ_pos 7⟩

theorem verneed_lengths (strings : Bytes) (needed : List Bytes) :
    0 < (verneedForm strings needed).headerLen ∧ 0 < (verneedForm strings needed).auxLen :=
  ⟨Nat.succ_pos 15, Nat.succ_pos 15⟩

theorem parseVerdef_eq_ok {defs strings : Bytes} {set : VersionSet} :
    parseVerdef defs strings = .ok set ↔ (defs = [] ∧ set = ∅) ∨
      ∃ chain, ChainIn (verdefForm strings) defs chain ∧
        DefinitionsRead strings (recordsOf (verdefForm strings) defs chain) ∧
        ∀ name, name ∈ set ↔ ∃ record ∈ recordsOf (verdefForm strings) defs chain,
          definedName strings record = some name := by
  have lengths := verdef_lengths strings
  have given : parseVerdef defs strings = .ok set ↔
      ∃ n, parseChain (verdefForm strings) defs ∅ = .ok (set, n) := by
    rw [parseVerdef]
    cases parseChain (verdefForm strings) defs ∅ with
    | error reason => simp [Except.map]
    | ok read => simp [Except.map, Prod.ext_iff]
  rw [given]
  simp only [parseChain_eq_ok lengths.1 lengths.2, verdef_records]
  constructor
  · rintro ⟨n, ⟨empty, same, -⟩ | ⟨chain, held, ⟨read, members⟩, -⟩⟩
    · exact Or.inl ⟨empty, same⟩
    · refine Or.inr ⟨chain, held, read, ?_⟩
      simpa using members
  · rintro (⟨empty, same⟩ | ⟨chain, held, read, members⟩)
    · exact ⟨0, Or.inl ⟨empty, same, rfl⟩⟩
    · refine ⟨chain.length, Or.inr ⟨chain, held, ⟨read, ?_⟩, rfl⟩⟩
      simpa using members

theorem parseVerneed_eq_ok {bytes strings : Bytes} {needed : List Bytes} {result : Requirements}
    {n : Nat} :
    parseVerneed bytes strings needed = .ok (result, n) ↔
      (bytes = [] ∧ result = SortedMap.empty ∧ n = 0) ∨
      ∃ chain, ChainIn (verneedForm strings needed) bytes chain ∧
        RequirementsRead strings needed (recordsOf (verneedForm strings needed) bytes chain) ∧
        (∀ dependency, result.get? dependency =
          requiredOf strings (recordsOf (verneedForm strings needed) bytes chain) dependency none) ∧
        n = chain.length := by
  have lengths := verneed_lengths strings needed
  have given : parseVerneed bytes strings needed = .ok (result, n) ↔ ∃ last,
      parseChain (verneedForm strings needed) bytes (SortedMap.empty, []) =
        .ok ((result, last), n) := by
    rw [parseVerneed]
    cases parseChain (verneedForm strings needed) bytes (SortedMap.empty, []) with
    | error reason => simp [Except.map]
    | ok read =>
        rcases read with ⟨⟨found, last⟩, count⟩
        simp [Except.map]
  rw [given]
  simp only [parseChain_eq_ok lengths.1 lengths.2]
  constructor
  · rintro ⟨last, ⟨empty, same, none⟩ | ⟨chain, held, collects, number⟩⟩
    · exact Or.inl ⟨empty, congrArg Prod.fst same, none⟩
    · rcases verneed_records.mp ⟨last, collects⟩ with ⟨read, gets⟩
      exact Or.inr ⟨chain, held, read, gets, number⟩
  · rintro (⟨empty, same, none⟩ | ⟨chain, held, read, gets, number⟩)
    · exact ⟨[], Or.inl ⟨empty, congrArg (·, []) same, none⟩⟩
    · have collected := (@verneed_records strings needed _ (SortedMap.empty, []) result).mpr
        ⟨read, gets⟩
      rcases collected with ⟨last, collects⟩
      exact ⟨last, Or.inr ⟨chain, held, collects, number⟩⟩

/-- A version section is read exactly when its links lead through records that lie in it and keep
apart, and then to the names at those records, wherever they lie. -/
theorem version_chains_parsed (strings : Bytes) (needed : List Bytes) :
    (∀ (bytes : Bytes) (result : Requirements) (n : Nat),
      parseVerneed bytes strings needed = .ok (result, n) ↔
        (bytes = [] ∧ result = SortedMap.empty ∧ n = 0) ∨
        ∃ chain, ChainIn (verneedForm strings needed) bytes chain ∧
          RequirementsRead strings needed (recordsOf (verneedForm strings needed) bytes chain) ∧
          (∀ dependency, result.get? dependency = requiredOf strings
            (recordsOf (verneedForm strings needed) bytes chain) dependency none) ∧
          n = chain.length) ∧
    (∀ (defs : Bytes) (set : VersionSet),
      parseVerdef defs strings = .ok set ↔ (defs = [] ∧ set = ∅) ∨
        ∃ chain, ChainIn (verdefForm strings) defs chain ∧
          DefinitionsRead strings (recordsOf (verdefForm strings) defs chain) ∧
          ∀ name, name ∈ set ↔ ∃ record ∈ recordsOf (verdefForm strings) defs chain,
            definedName strings record = some name) ∧
    (∀ (bytes bytes' : Bytes) (chain chain' : List Link),
      ChainIn (verneedForm strings needed) bytes chain →
      ChainIn (verneedForm strings needed) bytes' chain' →
      recordsOf (verneedForm strings needed) bytes chain =
        recordsOf (verneedForm strings needed) bytes' chain' →
      parseVerneed bytes strings needed = parseVerneed bytes' strings needed) ∧
    (∀ (defs defs' : Bytes) (chain chain' : List Link),
      ChainIn (verdefForm strings) defs chain → ChainIn (verdefForm strings) defs' chain' →
      recordsOf (verdefForm strings) defs chain = recordsOf (verdefForm strings) defs' chain' →
      parseVerdef defs strings = parseVerdef defs' strings) ∧
    ∀ (headerLen auxLen : Nat) (chain : List Link),
      (chain.Pairwise fun link later => link.header + headerLen ≤ later.header) →
      (Interleaved headerLen auxLen chain ∨ HeadersFirst headerLen chain) →
        Clear headerLen auxLen chain := by
  refine ⟨fun _ _ _ => parseVerneed_eq_ok, fun _ _ => parseVerdef_eq_ok, ?_, ?_, ?_⟩
  · intro bytes bytes' chain chain' held held' same
    have lengths := verneed_lengths strings needed
    have alike := parseChain_relaid lengths.1 lengths.2 held held' same (SortedMap.empty, [])
    rw [parseVerneed, parseVerneed, alike]
  · intro defs defs' chain chain' held held' same
    have lengths := verdef_lengths strings
    have alike := parseChain_relaid lengths.1 lengths.2 held held' same ∅
    rw [parseVerdef, parseVerdef, alike]
  · intro headerLen auxLen chain apart laid
    exact clear_of_layout apart laid

/-! ### Entries of one header over one another -/

/-- A requirement of two versions of `lib`, the second 8 bytes behind the first. -/
def lappedVerneed : Bytes :=
  leBytes 2 1 ++ leBytes 2 2 ++ leBytes 4 1 ++ leBytes 4 16 ++ leBytes 4 0 ++
    (leBytes 4 0 ++ leBytes 2 0 ++ leBytes 2 0 ++ leBytes 4 5 ++ leBytes 4 8) ++
      (leBytes 4 5 ++ leBytes 4 0)

def lappedStrings : Bytes := [0] ++ utf8 "lib" ++ [0] ++ utf8 "V" ++ [0]

/-- Each record is inside and none overlaps the header, and the section is refused. -/
theorem lapped_refused :
    Follows (verneedForm lappedStrings [utf8 "lib"]) lappedVerneed 0 [⟨0, [16, 24]⟩] ∧
      Placed (verneedForm lappedStrings [utf8 "lib"]) lappedVerneed [⟨0, [16, 24]⟩] ∧
      WithinLimits [⟨0, [16, 24]⟩] ∧
      RequirementsRead lappedStrings [utf8 "lib"]
        (recordsOf (verneedForm lappedStrings [utf8 "lib"]) lappedVerneed [⟨0, [16, 24]⟩]) ∧
      parseVerneed lappedVerneed lappedStrings [utf8 "lib"] = .error .cycles := by
  refine ⟨?_, ⟨?_, ?_, List.pairwise_singleton _ _, ?_⟩, ⟨by decide, by decide⟩, ⟨?_, ?_, ?_⟩, ?_⟩
  · apply @Follows.last _ _ _ _ _ ⟨0, [16, 24]⟩
    · refine ⟨by decide +kernel, ?_⟩
      have first : 0 + u32At ((verneedForm lappedStrings [utf8 "lib"]).entryAt lappedVerneed 0) 8 =
          16 := by decide +kernel
      have second : 16 + u32At ((verneedForm lappedStrings [utf8 "lib"]).auxAt lappedVerneed 16) 12 =
          24 := by decide +kernel
      have follow : AuxesFollow (verneedForm lappedStrings [utf8 "lib"]) lappedVerneed 16 [16, 24] := by
        apply AuxesFollow.more
        have final : AuxesFollow (verneedForm lappedStrings [utf8 "lib"]) lappedVerneed 24 [24] :=
          .last (by decide +kernel)
        rw [← second] at final
        exact final
      rw [← first] at follow
      exact follow
    · decide +kernel
  · decide +kernel
  · decide +kernel
  · unfold Clear
    decide +kernel
  · decide +kernel
  · intro record member
    refine ⟨utf8 "lib", List.mem_singleton_self _, ?_⟩
    rw [List.mem_singleton.mp member]
    decide +kernel
  · intro record member
    rw [List.mem_singleton.mp member]
    intro aux inside
    refine ⟨utf8 "V", by decide, ?_⟩
    have read : ∀ aux ∈ (recordsOf (verneedForm lappedStrings [utf8 "lib"]) lappedVerneed
        [⟨0, [16, 24]⟩]).flatMap Prod.snd, stringAt lappedStrings aux.name = .ok (utf8 "V") := by
      decide +kernel
    apply read
    exact List.mem_flatMap.mpr ⟨_, List.mem_singleton_self _, inside⟩
  · decide +kernel

end Onelf.Format.Versions
