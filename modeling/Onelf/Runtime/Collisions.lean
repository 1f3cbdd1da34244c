import Onelf.Lib.Path
import Onelf.Lib.SortedMap
import Onelf.Lib.Unanimity

/-! The names the selected sets export into one loader namespace (`providers.rs`). -/

namespace Onelf.Runtime.Providers

open Onelf.Lib

/-- One inspected object: where it sits in its set's tree and the names it carries in the set's
top-level library directories. -/
structure ObjectFacts where
  rel : List Component
  exports : List Bytes
  sorted : exports.Pairwise (· < ·)

/-- One selected set's inspected objects. -/
structure ProviderFacts where
  label : Bytes
  pin : Bytes
  root : List Component
  objects : List ObjectFacts

/-- `Path::join`: an absolute path stands for itself. -/
def place (root rel : List Component) : List Component :=
  if rel.head? = some .root then rel else root ++ rel

/-- What a path leads to, and the bytes that can be read there. -/
structure Files where
  canonicalize : List Component → Option (List Component)
  read : List Component → Option Bytes

/-- Whether two files hold the same bytes; a path that leads nowhere cannot be opened either, and
what cannot be read is a difference. -/
def sameBytes (files : Files) (a b : List Component) : Bool :=
  match files.canonicalize a, files.canonicalize b with
  | some first, some second =>
      first = second || (files.read first).isSome && files.read first = files.read second
  | _, _ => false

/-- One copy of an exported name; `position` is its set's place among the selected ones. -/
structure Copy where
  position : Nat
  provider : ProviderFacts
  object : ObjectFacts

def Copy.path (copy : Copy) : List Component := place copy.provider.root copy.object.rel

def exporters (providers : List ProviderFacts) : SortedMap Bytes (List Copy) :=
  (providers.zipIdx.flatMap fun placed => placed.1.objects.flatMap fun object =>
    object.exports.map fun name => (name, ⟨placed.2, placed.1, object⟩)).foldl
      SortedMap.push SortedMap.empty

def finding (entrypoint name : Bytes) (first other : Copy) : Bytes :=
  utf8 "entrypoint " ++ entrypoint ++ utf8 ": " ++ name ++ utf8 ": set " ++ first.provider.label ++
    utf8 " (pin " ++ first.provider.pin ++ utf8 ") and set " ++ other.provider.label ++
    utf8 " (pin " ++ other.provider.pin ++ utf8 ") export different copies into one loader namespace"

/-- The findings one name makes: every copy outside the first one's set is compared with it. -/
def nameFindings (files : Files) (entrypoint name : Bytes) : List Copy → List Bytes
  | [] => []
  | first :: rest => rest.filterMap fun other =>
      if other.position = first.position then none
      else if sameBytes files first.path other.path then none
      else some (finding entrypoint name first other)

/-- The findings two selected sets exporting one name with different bytes make. -/
def collisionFindings (files : Files) (entrypoint : Bytes) (providers : List ProviderFacts) :
    List Bytes :=
  (exporters providers).entries.flatMap fun (name, copies) => nameFindings files entrypoint name copies

/-! ### What the findings say of the sets -/

section Findings

variable {files : Files} {entrypoint : Bytes}

/-- The copies of a name a set exports, in the order its objects were read. -/
def copiesOf (provider : ProviderFacts) (name : Bytes) : List (List Component) :=
  (provider.objects.filter fun object => object.exports.contains name).map fun object =>
    place provider.root object.rel

def Same (files : Files) (a b : List Component) : Prop := sameBytes files a b = true

theorem same_iff {a b : List Component} : Same files a b ↔
    ∃ first second, files.canonicalize a = some first ∧ files.canonicalize b = some second ∧
      (first = second ∨ ∃ bytes, files.read first = some bytes ∧ files.read second = some bytes) := by
  rw [Same, sameBytes]
  cases files.canonicalize a with
  | none => simp
  | some first =>
      cases files.canonicalize b with
      | none => simp
      | some second =>
          simp only [Bool.or_eq_true, Bool.and_eq_true, decide_eq_true_eq, Option.some.injEq,
            exists_and_left, exists_eq_left']
          apply or_congr Iff.rfl
          rw [Option.isSome_iff_exists]
          constructor
          · rintro ⟨⟨bytes, read⟩, alike⟩
            exact ⟨bytes, read, alike ▸ read⟩
          · rintro ⟨bytes, read, also⟩
            exact ⟨⟨bytes, read⟩, read.trans also.symm⟩

theorem same_symm (a b : List Component) (same : Same files a b) : Same files b a := by
  rcases same_iff.mp same with ⟨first, second, left, right, alike⟩
  apply same_iff.mpr
  refine ⟨second, first, right, left, ?_⟩
  rcases alike with here | ⟨bytes, read, also⟩
  · exact Or.inl here.symm
  · exact Or.inr ⟨bytes, also, read⟩

theorem same_trans (a b c : List Component) (left : Same files a b) (right : Same files b c) :
    Same files a c := by
  rcases same_iff.mp left with ⟨first, second, atA, atB, alike⟩
  rcases same_iff.mp right with ⟨middle, third, again, atC, also⟩
  have here : middle = second := Option.some.inj (again.symm.trans atB)
  rw [here] at also
  apply same_iff.mpr
  refine ⟨first, third, atA, atC, ?_⟩
  rcases alike with one | ⟨bytes, read, same⟩
  · rw [one]
    exact also
  · rcases also with two | ⟨others, other, last⟩
    · exact Or.inr ⟨bytes, read, two ▸ same⟩
    · have equal : others = bytes := Option.some.inj (other.symm.trans same)
      exact Or.inr ⟨bytes, read, equal ▸ last⟩

/-- The copies of a name as the loop over the sets meets them. -/
def copiesFrom (start : Nat) (providers : List ProviderFacts) (name : Bytes) : List Copy :=
  (providers.zipIdx start).flatMap fun placed =>
    (placed.1.objects.filter fun object => object.exports.contains name).map fun object =>
      ⟨placed.2, placed.1, object⟩

theorem filter_exports (object : ObjectFacts) (name : Bytes) :
    object.exports.filter (fun other => other = name) =
      if object.exports.contains name then [name] else [] := by
  have once : object.exports.Nodup := nodup_of_sorted object.sorted
  rw [List.filter_eq]
  by_cases member : name ∈ object.exports
  · rw [if_pos (List.contains_iff_mem.mpr member), List.count_eq_one_of_mem once member]
    rfl
  · rw [if_neg (mt List.contains_iff_mem.mp member), List.count_eq_zero_of_not_mem member]
    rfl

/-- The entries one object makes under a name. -/
theorem filter_entries {keep : Bytes × Copy → Bool} {name : Bytes}
    (kept : ∀ entry, keep entry = true ↔ entry.1 = name) (position : Nat)
    (provider : ProviderFacts) (object : ObjectFacts) :
    ((object.exports.map fun other => (other, (⟨position, provider, object⟩ : Copy))).filter
      keep).map Prod.snd =
        if object.exports.contains name then [⟨position, provider, object⟩] else [] := by
  rw [List.filter_map, List.map_map]
  have same : object.exports.filter (keep ∘ fun other =>
      (other, (⟨position, provider, object⟩ : Copy))) =
        object.exports.filter fun other => other = name := by
    apply List.filter_congr
    intro other _
    exact Bool.eq_iff_iff.mpr ((kept _).trans decide_eq_true_iff.symm)
  rw [same, filter_exports]
  split
  · rfl
  · rfl

theorem exporters_getD (providers : List ProviderFacts) (name : Bytes) :
    ((exporters providers).get? name).getD [] = copiesFrom 0 providers name := by
  rw [exporters, SortedMap.getD_foldl_push, SortedMap.get?_empty, Option.getD_none, List.nil_append,
    copiesFrom, List.filter_flatMap, List.map_flatMap]
  congr 1
  funext placed
  rw [List.filter_flatMap, List.map_flatMap]
  induction placed.1.objects with
  | nil => rfl
  | cons object objects ih =>
      rw [List.flatMap_cons, ih, @filter_entries _ name]
      swap
      · intro entry
        simp
      rw [List.filter_cons]
      by_cases exported : object.exports.contains name
      · rw [if_pos exported, if_pos exported]
        rfl
      · rw [if_neg exported, if_neg exported]
        rfl

theorem copiesFrom_cons (start : Nat) (provider : ProviderFacts) (providers : List ProviderFacts)
    (name : Bytes) : copiesFrom start (provider :: providers) name =
      ((provider.objects.filter fun object => object.exports.contains name).map fun object =>
        ⟨start, provider, object⟩) ++ copiesFrom (start + 1) providers name := by
  rw [copiesFrom, List.zipIdx_cons, List.flatMap_cons]
  rfl

theorem mem_copiesFrom {start : Nat} {providers : List ProviderFacts} {name : Bytes} {copy : Copy}
    (member : copy ∈ copiesFrom start providers name) :
    start ≤ copy.position ∧ ∃ provider ∈ providers, copy.path ∈ copiesOf provider name := by
  induction providers generalizing start with
  | nil => cases member
  | cons provider providers ih =>
      rw [copiesFrom_cons, List.mem_append, List.mem_map] at member
      rcases member with ⟨object, inside, same⟩ | later
      · rw [← same]
        exact ⟨Nat.le_refl start, provider, List.mem_cons_self, List.mem_map_of_mem inside⟩
      · rcases ih later with ⟨bound, other, inside, held⟩
        exact ⟨Nat.le_of_succ_le bound, other, List.mem_cons_of_mem _ inside, held⟩

theorem path_of_copiesOf (start : Nat) {providers : List ProviderFacts} {name : Bytes}
    {provider : ProviderFacts} (member : provider ∈ providers) {path : List Component}
    (held : path ∈ copiesOf provider name) :
    ∃ copy ∈ copiesFrom start providers name, copy.path = path := by
  induction providers generalizing start with
  | nil => cases member
  | cons first providers ih =>
      rw [copiesFrom_cons]
      rcases List.mem_cons.mp member with same | later
      · rcases List.mem_map.mp (same ▸ held) with ⟨object, inside, placed⟩
        exact ⟨⟨start, first, object⟩, List.mem_append_left _ (List.mem_map_of_mem inside), placed⟩
      · rcases ih (start + 1) later with ⟨copy, inside, placed⟩
        exact ⟨copy, List.mem_append_right _ inside, placed⟩

theorem nameFindings_cons_eq_nil_iff (name : Bytes) (first : Copy) (rest : List Copy) :
    nameFindings files entrypoint name (first :: rest) = [] ↔
      ∀ copy ∈ rest, copy.position ≠ first.position → Same files first.path copy.path := by
  rw [nameFindings, List.filterMap_eq_nil_iff]
  apply forall_congr'
  intro copy
  apply forall_congr'
  intro _
  by_cases here : copy.position = first.position
  · simp [here]
  · by_cases same : sameBytes files first.path copy.path
    · simp [here, Same, same]
    · simp [here, Same, same]

/-- One name makes no finding where the sets are agreed on it. -/
theorem nameFindings_eq_nil_iff (start : Nat) (providers : List ProviderFacts) (name : Bytes) :
    nameFindings files entrypoint name (copiesFrom start providers name) = [] ↔
      AgreedOn copiesOf (Same files) name providers := by
  induction providers generalizing start with
  | nil => exact iff_of_true rfl trivial
  | cons provider providers ih =>
      rw [copiesFrom_cons]
      cases held : provider.objects.filter fun object => object.exports.contains name with
      | nil =>
          have none : copiesOf provider name = [] := by rw [copiesOf, held, List.map_nil]
          rw [List.map_nil, List.nil_append, ih, agreedOn_cons_of_nil none]
      | cons object objects =>
          have some : copiesOf provider name = place provider.root object.rel ::
              objects.map fun object => place provider.root object.rel := by
            rw [copiesOf, held, List.map_cons]
          rw [List.map_cons, List.cons_append, nameFindings_cons_eq_nil_iff,
            agreedOn_cons_of_cons some]
          constructor
          · intro alike other member path copied
            rcases path_of_copiesOf (start + 1) member copied with ⟨copy, inside, placed⟩
            rw [← placed]
            apply alike copy (List.mem_append_right _ inside)
            have later : start + 1 ≤ copy.position := (mem_copiesFrom inside).1
            exact Nat.ne_of_gt later
          · intro alike copy member apart
            rcases List.mem_append.mp member with own | later
            · rcases List.mem_map.mp own with ⟨other, _, same⟩
              exact absurd (by rw [← same]) apart
            · rcases (mem_copiesFrom later).2 with ⟨other, inside, copied⟩
              exact alike other inside copy.path copied

theorem collisionFindings_eq_nil_iff (providers : List ProviderFacts) :
    collisionFindings files entrypoint providers = [] ↔ Agreed copiesOf (Same files) providers := by
  rw [collisionFindings, List.flatMap_eq_nil_iff, Agreed]
  have every := @SortedMap.forall_entries_iff _ _ _ (exporters providers)
    (fun name copies => nameFindings files entrypoint name copies = []) fun _ => rfl
  rw [every]
  apply forall_congr'
  intro name
  rw [exporters_getD]
  exact nameFindings_eq_nil_iff 0 providers name

/-- The copies of a name the set at a position exports. -/
def copiesAt (providers : List ProviderFacts) (position : Fin providers.length) (name : Bytes) :
    List (List Component) := copiesOf (providers.get position) name

/-- Two copies that can be read and hold different bytes. -/
def Differ (files : Files) (a b : List Component) : Prop :=
  ∃ first second, (files.canonicalize a).bind files.read = some first ∧
    (files.canonicalize b).bind files.read = some second ∧ first ≠ second

theorem Differ.not_same {a b : List Component} (differ : Differ files a b) : ¬ Same files a b := by
  intro same
  rcases same_iff.mp same with ⟨atA, atB, a, b, alike⟩
  rcases differ with ⟨first, second, readA, readB, apart⟩
  rw [a, Option.bind_some] at readA
  rw [b, Option.bind_some] at readB
  apply apart
  rcases alike with here | ⟨bytes, one, two⟩
  · rw [here] at readA
    exact Option.some.inj (readA.symm.trans readB)
  · have left : first = bytes := Option.some.inj (readA.symm.trans one)
    exact left.trans (Option.some.inj (two.symm.trans readB))

theorem perm_providers_iff {providers other : List ProviderFacts} : other.Perm providers ↔
    ∃ order : List (Fin providers.length), other = order.map providers.get ∧
      order.Perm (List.finRange providers.length) := by
  have composed := congrFun₂ (List.eq_map_comp_perm providers.get) other
    (List.finRange providers.length)
  rw [List.map_get_finRange] at composed
  exact (iff_of_eq composed).symm

theorem agreed_order_iff {providers : List ProviderFacts} (order : List (Fin providers.length)) :
    collisionFindings files entrypoint (order.map providers.get) = [] ↔
      Agreed (copiesAt providers) (Same files) order :=
  (collisionFindings_eq_nil_iff _).trans (agreed_map providers.get order)

theorem steady_iff (providers : List ProviderFacts) :
    (∀ other : List ProviderFacts, other.Perm providers →
      (collisionFindings files entrypoint other = [] ↔
        collisionFindings files entrypoint providers = [])) ↔
    ∀ order : List (Fin providers.length), order.Perm (List.finRange providers.length) →
      (Agreed (copiesAt providers) (Same files) order ↔
        Agreed (copiesAt providers) (Same files) (List.finRange providers.length)) := by
  have whole := @agreed_order_iff files entrypoint providers (List.finRange providers.length)
  rw [List.map_get_finRange] at whole
  constructor
  · intro steady order perm
    rw [← agreed_order_iff, ← whole]
    exact steady _ (perm_providers_iff.mpr ⟨order, rfl, perm⟩)
  · intro steady other perm
    rcases perm_providers_iff.mp perm with ⟨order, same, perm⟩
    rw [same, agreed_order_iff, whole]
    exact steady order perm

end Findings

/-- The order of the sets makes no difference exactly where no two sets differ in a copy of a name,
or no order passes: some name has no set whose first copy all the others match, or the sets that
have such a copy would have to come before one another in a circle. -/
theorem collisionFindings_steady_iff (files : Files) (entrypoint : Bytes)
    (providers : List ProviderFacts) :
    ((∀ other : List ProviderFacts, other.Perm providers →
        (collisionFindings files entrypoint other = [] ↔
          collisionFindings files entrypoint providers = [])) ∧
      ((∃ i j, i ≠ j ∧ ∃ name, ∃ a ∈ copiesAt providers i name, ∃ b ∈ copiesAt providers j name,
        Differ files a b) → collisionFindings files entrypoint providers ≠ [])) ↔
    Unanimous (copiesAt providers) (Same files) ∨
      (∃ name, (∃ j, copiesAt providers j name ≠ []) ∧
        ∀ i, ¬ Leads (copiesAt providers) (Same files) name i) ∨
      ∃ i, Relation.TransGen (Precedes (copiesAt providers) (Same files)) i i := by
  have every : ∀ i, i ∈ List.finRange providers.length := List.mem_finRange
  have once : (List.finRange providers.length).Nodup := List.nodup_finRange _
  rw [← agreed_perm_iff same_symm same_trans every once, ← @steady_iff files entrypoint]
  refine and_iff_left_of_imp ?_
  rintro steady ⟨i, j, apart, name, a, atA, b, atB, differ⟩ none
  have agreed : ∀ order : List (Fin providers.length),
      order.Perm (List.finRange providers.length) →
        Agreed (copiesAt providers) (Same files) order := by
    intro order perm
    rw [← @agreed_order_iff files entrypoint]
    exact (steady _ (perm_providers_iff.mpr ⟨order, rfl, perm⟩)).mpr none
  exact differ.not_same
    (unanimous_of_agreed same_symm same_trans every agreed i j apart name a atA b atB)

/-! ### A set with two copies of one name -/

def libz : Bytes := utf8 "libz.so.1"

def zlibIn (dir : String) : ObjectFacts :=
  ⟨[.normal (utf8 dir), .normal libz], [libz], List.pairwise_singleton _ libz⟩

def gtkSet : ProviderFacts :=
  ⟨utf8 "gtk", utf8 "a", [.root, .normal (utf8 "gtk")], [zlibIn "lib", zlibIn "lib64"]⟩

def qtSet : ProviderFacts := ⟨utf8 "qt", utf8 "b", [.root, .normal (utf8 "qt")], [zlibIn "lib"]⟩

/-- The copy in the second library directory is another one. -/
def zlibFiles : Files where
  canonicalize := some
  read := fun path => if .normal (utf8 "lib64") ∈ path then some [2] else some [1]

/-- The set with two copies is compared by its first one where it comes first and by both where it
comes second. -/
theorem collisionFindings_swapped :
    [qtSet, gtkSet].Perm [gtkSet, qtSet] ∧
      collisionFindings zlibFiles (utf8 "app") [gtkSet, qtSet] = [] ∧
      collisionFindings zlibFiles (utf8 "app") [qtSet, gtkSet] ≠ [] ∧
      Differ zlibFiles (place gtkSet.root (zlibIn "lib64").rel)
        (place qtSet.root (zlibIn "lib").rel) :=
  ⟨List.Perm.swap gtkSet qtSet [], by decide +kernel, by decide +kernel, [2], [1],
    by decide +kernel, by decide +kernel, by decide⟩

end Onelf.Runtime.Providers
