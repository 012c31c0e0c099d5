import Grafbase.Composition.KindClashes

/-! The values of merged enums.

Which values an enum gets depends on where it is used: the common ones in
inputs, all of them in outputs, and in both only values that agree. They are
enumerated by the ids of their names.
-/

set_option autoImplicit false

namespace Grafbase.Composition
open Foundation List
section Merge
variable (subgraphs : List Subgraph)

/-- The values that `merge_union` inserts: the names of the runs of all values. -/
def unionValues (definitions : List DefinitionWalker) : List String :=
  (groupByRank id (stringId subgraphs) (definitions.flatMap fun definition =>
    definition.enumValues subgraphs)).filterMap
    List.head?

/-- The diagnostics of `merge_enum_definitions` and the values it inserts for the enum. -/
def mergeEnum (first : DefinitionWalker) (definitions : List DefinitionWalker) :
    Checked (Diagnostics × List String) := do
  let diagnostics ← mergeEnumDefinitions subgraphs first definitions
  match enumIsUsedInInput subgraphs first.name, enumIsUsedInReturnPosition subgraphs first.name with
  | true, false => .ok (diagnostics, intersectionValues subgraphs first definitions)
  | false, true => .ok (diagnostics, unionValues subgraphs definitions)
  -- The routine returns as soon as it has pushed its diagnostic.
  | true, true => .ok (diagnostics, if diagnostics.isEmpty then first.enumValues subgraphs else [])
  | false, false => .ok (diagnostics, [])

end Merge

def DefinitionWalker.SameValues (first second : DefinitionWalker) : Prop :=
  ∀ value, value ∈ first.definition.enumValues ↔ value ∈ second.definition.enumValues

/-- The merge ends, with the values and the diagnostics that the positions of the enum ask for. -/
def MergesEnum (subgraphs : List Subgraph) (first : DefinitionWalker) (definitions : List DefinitionWalker) : Prop :=
  ∃ messages values, mergeEnum subgraphs first definitions = .ok (messages, values) ∧
    match enumIsUsedInInput subgraphs first.name, enumIsUsedInReturnPosition subgraphs first.name with
    | true, true =>
      (messages ≠ [] ↔ ∃ one ∈ definitions, ∃ other ∈ definitions, ¬ one.SameValues other) ∧
        (messages = [] → values.Nodup ∧
          ∀ definition ∈ definitions, ∀ value, value ∈ values ↔ value ∈ definition.definition.enumValues)
    | true, false =>
      (messages ≠ [] ↔ ¬ ∃ value, ∀ definition ∈ definitions, value ∈ definition.definition.enumValues) ∧ values.Nodup ∧
        ∀ value, value ∈ values ↔ ∀ definition ∈ definitions, value ∈ definition.definition.enumValues
    | false, true =>
      messages = [] ∧ values.Nodup ∧
        ∀ value, value ∈ values ↔ ∃ definition ∈ definitions, value ∈ definition.definition.enumValues
    | false, false => True

variable {subgraphs : List Subgraph} {first : DefinitionWalker} {value : String} {rest : List DefinitionWalker}
  {walker : DefinitionWalker}

theorem mem_enumValues : value ∈ walker.enumValues subgraphs ↔ value ∈ walker.definition.enumValues :=
  mem_sortByRank

theorem nodup_enumValues (walker : DefinitionWalker) : (walker.enumValues subgraphs).Nodup :=
  (perm_sortByKey _ _).nodup_iff.mpr walker.definition.enumValuesDistinct

theorem Placed.mem_strings (placed : Placed subgraphs walker)
    (member : value ∈ walker.definition.enumValues) : value ∈ (strings subgraphs).items :=
  mem_items_strings placed.1 (walker.subgraph.enumValuesInterned _ placed.2 _ member)

theorem enumValues_eq_iff {other : DefinitionWalker} (placed : Placed subgraphs first) :
    first.enumValues subgraphs = other.enumValues subgraphs ↔ first.SameValues other := by
  refine ⟨fun same value => by rw [← mem_enumValues, same, mem_enumValues], fun same => ?_⟩
  refine List.Perm.eq_of_pairwise (fun one two isOne _ atMost atLeast => ?_) (sorted_sortByRank _) (sorted_sortByRank _)
    ((perm_ext_iff_of_nodup (nodup_enumValues first) (nodup_enumValues other)).mpr fun value => ?_)
  · exact stringId_inj (placed.mem_strings (mem_enumValues.mp isOne)) (Nat.le_antisymm atMost atLeast)
  · rw [mem_enumValues, mem_enumValues, same value]

theorem intersectionValues_nodup (definitions : List DefinitionWalker) :
    (intersectionValues subgraphs first definitions).Nodup := by
  rw [intersectionValues, foldl_filter]
  exact (nodup_enumValues first).filter _

section Union
variable {definitions : List DefinitionWalker} (placed : ∀ definition ∈ definitions, Placed subgraphs definition)
include placed

theorem ranked_enumValues : Ranked id (stringId subgraphs)
    (definitions.flatMap fun definition => definition.enumValues subgraphs) := by
  intro one isOne two _ same
  obtain ⟨definition, member, isOne⟩ := mem_flatMap.mp isOne
  exact stringId_inj ((placed definition member).mem_strings (mem_enumValues.mp isOne)) same

theorem unionValues_nodup : (unionValues subgraphs definitions).Nodup := by
  have separate := pairwise_runs_of_sorted (ranked_enumValues placed).sortByRank (sorted_sortByRank _)
  refine List.Pairwise.filterMap _ (fun one two apart value isHead other isOther => ?_) separate
  exact apart value (mem_of_mem_head? isHead) other (mem_of_mem_head? isOther)

theorem mem_unionValues {value : String} : value ∈ unionValues subgraphs definitions ↔
    ∃ definition ∈ definitions, value ∈ definition.definition.enumValues := by
  have listed : value ∈ unionValues subgraphs definitions ↔
      value ∈ definitions.flatMap fun definition => definition.enumValues subgraphs := by
    simp only [unionValues, mem_filterMap, mem_groupByRank (ranked_enumValues placed)]
    constructor
    · rintro ⟨_, ⟨item, _, rfl⟩, isHead⟩
      exact (mem_filter.mp (mem_of_mem_head? isHead)).1
    · intro member
      refine ⟨_, ⟨value, member, rfl⟩, ?_⟩
      rw [head?_filter]
      cases found : List.find? (fun other => id other = id value)
        (definitions.flatMap fun definition => definition.enumValues subgraphs) with
      | none => exact absurd (find?_eq_none.mp found value member) (by simp)
      | some other => simpa using find?_some found
  rw [listed, mem_flatMap]
  simp only [mem_enumValues]

end Union

/-- Enums are merged as they should be exactly when, for an enum in both positions, the values of the first definition
do not go on in the first definition that has others: the comparison then reads past their end. -/
theorem mergesEnum_iff (subgraphs : List Subgraph) (first : DefinitionWalker) (rest : List DefinitionWalker)
    (placed : ∀ definition ∈ first :: rest, Placed subgraphs definition) : MergesEnum subgraphs first (first :: rest) ↔
      (enumIsUsedInInput subgraphs first.name = true → enumIsUsedInReturnPosition subgraphs first.name = true →
        ∀ front other back, first :: rest = front ++ other :: back →
          (∀ earlier ∈ front, first.enumValues subgraphs = earlier.enumValues subgraphs) →
          first.enumValues subgraphs <+: other.enumValues subgraphs →
          first.enumValues subgraphs = other.enumValues subgraphs) := by
  have same_iff (other : DefinitionWalker) :
      first.enumValues subgraphs = other.enumValues subgraphs ↔ first.SameValues other :=
    enumValues_eq_iff (placed first (by simp))
  unfold MergesEnum mergeEnum mergeEnumDefinitions
  cases enumIsUsedInInput subgraphs first.name <;> cases enumIsUsedInReturnPosition subgraphs first.name
  · exact iff_of_true ⟨[], [], rfl, trivial⟩ (by simp)
  · exact iff_of_true ⟨[], _, rfl, rfl, unionValues_nodup placed, fun _ => mem_unionValues placed⟩ (by simp)
  · exact iff_of_true ⟨_, _, rfl, mergeIntersection_iff, intersectionValues_nodup _, fun _ => mem_intersectionValues⟩
      (by simp)
  simp only [forall_const]
  have ran := @mergeExactlyMatching_eq subgraphs first (first :: rest)
  cases found : (first :: rest).find? fun definition =>
    first.enumValues subgraphs ≠ definition.enumValues subgraphs with
  | none =>
    rw [found] at ran
    have same (other : DefinitionWalker) (member : other ∈ first :: rest) :
        first.enumValues subgraphs = other.enumValues subgraphs := by
      simpa using find?_eq_none.mp found other member
    have sameValues (other : DefinitionWalker) (member : other ∈ first :: rest) :=
      (same_iff other).mp (same other member)
    refine iff_of_true ⟨[], _, by rw [ran]; rfl, ?_, fun _ => ⟨nodup_enumValues first, fun other member value => ?_⟩⟩ ?_
    · refine iff_of_false (by simp) ?_
      rintro ⟨one, isOne, other, isOther, differs⟩
      exact differs fun value => (sameValues one isOne value).symm.trans (sameValues other isOther value)
    · exact mem_enumValues.trans (sameValues other member value)
    · intro front other back split _ _
      exact same other (by simp [split])
  | some other =>
    rw [found] at ran
    dsimp only at ran
    obtain ⟨differs, front, back, split, before⟩ := find?_eq_some_iff_append.mp found
    simp only [decide_not, Bool.not_not, Bool.not_eq_true', decide_eq_true_eq, decide_eq_false_iff_not]
      at differs before
    by_cases continues : first.enumValues subgraphs <+: other.enumValues subgraphs
    · refine iff_of_false ?_ fun condition => differs (condition front other back split before continues)
      rintro ⟨messages, values, merged, _⟩
      rw [ran, if_pos continues] at merged
      cases merged
    · refine iff_of_true ⟨_, _, by rw [ran, if_neg continues]; rfl, iff_of_true (by simp) ?_, by simp⟩ ?_
      · exact ⟨first, by simp, other, by simp [split], fun same => differs ((same_iff other).mpr same)⟩
      · -- Another definition that goes on would have been found before.
        intro front' other' back' split' before' continues'
        by_contra differs'
        have again : (first :: rest).find? (fun definition =>
            first.enumValues subgraphs ≠ definition.enumValues subgraphs) = some other' :=
          find?_eq_some_iff_append.mpr ⟨by simpa using differs', front', back', split', by simpa using before'⟩
        obtain rfl := Option.mem_unique found again
        exact continues continues'

/-- A subgraph with `type Query { paint(color: Color): Color }` and the values of `Color`. -/
def paintSubgraph (name : String) (values : List String) (distinct : values.Nodup) : Subgraph :=
  let color : FieldType := ⟨"Color", false, []⟩
  let paint : Field := ⟨"paint", color, .none, [⟨"color", color, .none, none⟩], false⟩
  let query := objectWith "Query" paint
  let colors : Definition := ⟨"Color", .enum, .none, [], false, [], values, nodup_nil, distinct, by simp, by simp⟩
  ⟨name, [query, colors], some "Query", none, none, [], ["Query", "paint", "Color"] ++ values,
    by simp [query, objectWith, colors], by simp [query, objectWith, colors],
    by simp [query, objectWith, colors, paint],
    by simp +contextual [query, objectWith, colors]⟩

def colorWalker (name : String) (values : List String) (distinct : values.Nodup) : DefinitionWalker :=
  ⟨paintSubgraph name values distinct, ⟨"Color", .enum, .none, [], false, [], values, nodup_nil,
    distinct, by simp, by simp⟩⟩

/-- `RED` in one subgraph, `RED` and `GREEN` in the next one. -/
theorem mergeEnum_aborts_on_extension :
    let subgraphs := [paintSubgraph "walls" ["RED"] (by decide), paintSubgraph "cars" ["RED", "GREEN"] (by decide)]
    let red := colorWalker "walls" ["RED"] (by decide)
    let both := colorWalker "cars" ["RED", "GREEN"] (by decide)
    mergeEnum subgraphs red [red, both] = .error .outOfBounds ∧ ¬ MergesEnum subgraphs red [red, both] := by
  intro subgraphs red both
  have aborts : mergeEnum subgraphs red [red, both] = .error .outOfBounds := by decide +kernel
  refine ⟨aborts, fun merges => ?_⟩
  obtain ⟨messages, values, merged, _⟩ := merges
  cases aborts.symm.trans merged

/-- In the other order the difference is reported. -/
theorem mergesEnum_of_restriction :
    let subgraphs := [paintSubgraph "cars" ["RED", "GREEN"] (by decide), paintSubgraph "walls" ["RED"] (by decide)]
    MergesEnum subgraphs (colorWalker "cars" ["RED", "GREEN"] (by decide))
      [colorWalker "cars" ["RED", "GREEN"] (by decide), colorWalker "walls" ["RED"] (by decide)] := by
  refine (mergesEnum_iff _ _ _ ?_).mpr ?_
  · simp [Placed, colorWalker, paintSubgraph]
  · intro _ _ front other back split _ continues
    have member : other ∈ [colorWalker "cars" ["RED", "GREEN"] (by decide),
      colorWalker "walls" ["RED"] (by decide)] := by
      simp [split]
    rcases mem_pair.mp member with rfl | rfl
    · rfl
    · exact absurd continues.length_le (by decide)

end Grafbase.Composition
