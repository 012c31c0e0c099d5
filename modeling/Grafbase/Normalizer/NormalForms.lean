import Grafbase.Normalizer.Normalize

/-! The normal forms of operations and fragments.

What becomes of a selection does not depend on the fragments that are known;
these only grow by the fragments that the selection spreads.
-/

set_option autoImplicit false

namespace Grafbase.Normalizer
open Foundation List

theorem sortBy_eq_sortByKey {α κ : Type} [LinearOrder κ] {order : α → α → Ordering} {key : α → κ}
    (byKey : ∀ first second, (order first second).isLE ↔ key first ≤ key second) (items : List α) :
    sortBy order items = sortByKey key items := by
  unfold sortBy sortByKey
  congr 1
  funext first second
  exact propext (byKey first second)

def typeConditionKey : Option String → Lex (Nat × String)
  | none => toLex (2, "")
  | some name => toLex (3, name)

def selectionKey : Selection → Lex (Nat × String)
  | .field _ name _ _ _ => toLex (0, name)
  | .fragmentSpread fragmentName _ => toLex (1, fragmentName)
  | .inlineFragment typeCondition _ _ => typeConditionKey typeCondition

def definitionKey : Definition → Lex (Nat × String)
  | .fragment fragment => toLex (0, fragment.name)
  | .operation _ => toLex (1, "")

theorem compare_isLE {first second : String} : (compare first second).isLE ↔ first ≤ second := by
  rw [← Ordering.ne_gt_iff_isLE]
  exact compare_le_iff_le

theorem sortSelection_isLE (first second : Selection) :
    (sortSelection first second).isLE ↔ selectionKey first ≤ selectionKey second := by
  have conditions (first second : Option String) :
      (compareTypeConditions first second).isLE ↔ typeConditionKey first ≤ typeConditionKey second := by
    cases first <;> cases second <;>
      simp [compareTypeConditions, typeConditionKey, Prod.Lex.toLex_le_toLex, compare_isLE]
  have least (rank : Nat) (name : String) (condition : Option String) (low : rank < 2) :
      toLex (rank, name) < typeConditionKey condition := by
    cases condition <;> simp only [typeConditionKey, Prod.Lex.toLex_lt_toLex] <;> omega
  cases first <;> cases second <;>
    simp [sortSelection, selectionKey, Prod.Lex.toLex_le_toLex, compare_isLE, conditions, (least _ _ _ _).le,
      (least _ _ _ _).not_ge]

theorem sortDefinition_isLE (first second : Definition) :
    (sortDefinition first second).isLE ↔ definitionKey first ≤ definitionKey second := by
  cases first <;> cases second <;> simp [sortDefinition, definitionKey, Prod.Lex.toLex_le_toLex, compare_isLE]

mutual
def normalSelection : Selection → Selection
  | .field _ name arguments directives selectionSet =>
    .field none name (normalizeArguments arguments) (normalizeDirectives directives)
      (sortByKey selectionKey (normalItems selectionSet))
  | .fragmentSpread fragmentName directives => .fragmentSpread fragmentName (normalizeDirectives directives)
  | .inlineFragment typeCondition directives selectionSet =>
    .inlineFragment typeCondition (normalizeDirectives directives) (sortByKey selectionKey (normalItems selectionSet))
def normalItems : List Selection → List Selection
  | [] => []
  | selection :: rest => normalSelection selection :: normalItems rest
end

theorem normalItems_eq_map (items : List Selection) : normalItems items = items.map normalSelection := by
  induction items with
  | nil => rfl
  | cons first rest ih => rw [normalItems, ih, map_cons]

def normalSet (items : List Selection) : List Selection := sortByKey selectionKey (items.map normalSelection)

@[simp] theorem normalSelection_field (aliasName : Option String) (name : String) (arguments : List Argument)
    (directives : List Directive) (selectionSet : List Selection) :
    normalSelection (.field aliasName name arguments directives selectionSet) =
      .field none name (normalizeArguments arguments) (normalizeDirectives directives) (normalSet selectionSet) := by
  rw [normalSelection, normalItems_eq_map, normalSet]

@[simp] theorem normalSelection_fragmentSpread (fragmentName : String) (directives : List Directive) :
    normalSelection (.fragmentSpread fragmentName directives) =
      .fragmentSpread fragmentName (normalizeDirectives directives) := by
  rw [normalSelection]

@[simp] theorem normalSelection_inlineFragment (typeCondition : Option String) (directives : List Directive)
    (selectionSet : List Selection) : normalSelection (.inlineFragment typeCondition directives selectionSet) =
      .inlineFragment typeCondition (normalizeDirectives directives) (normalSet selectionSet) := by
  rw [normalSelection, normalItems_eq_map, normalSet]

@[simp] theorem selectionKey_normalSelection (selection : Selection) :
    selectionKey (normalSelection selection) = selectionKey selection := by
  cases selection <;> simp [selectionKey]

def normalOperation : OperationDefinition → OperationDefinition
  | .selectionSet items => .selectionSet (normalSet items)
  | .operation kind name variableDefinitions directives items =>
    .operation kind name (sortByKey VariableDefinition.name variableDefinitions) (normalizeDirectives directives)
      (normalSet items)

def normalFragment (fragment : FragmentDefinition) : FragmentDefinition :=
  { fragment with
    directives := normalizeDirectives fragment.directives
    selectionSet := normalSet fragment.selectionSet }

variable (definitions : List Definition) (used : UsedFragments)

def UsedFragments.record (names : List String) (inOperation : Bool) : UsedFragments :=
  names.foldl (fun used name => used.orInsert name inOperation) used

@[simp] theorem UsedFragments.record_append (names others : List String) (inOperation : Bool) :
    used.record (names ++ others) inOperation = (used.record names inOperation).record others inOperation :=
  foldl_append ..

theorem normalizeItems_eq_of {inOperation : Bool} {items : List Selection}
    (each : ∀ item ∈ items, ∀ used, normalizeSelection inOperation item used =
      (normalSelection item, used.record item.spreads inOperation)) (used : UsedFragments) :
    normalizeItems inOperation items used = (items.map normalSelection, used.record (spreadsOf items) inOperation) := by
  induction items generalizing used with
  | nil => rfl
  | cons first rest ih =>
    obtain ⟨here, later⟩ := forall_mem_cons.mp each
    simp [normalizeItems, here, ih later, spreadsOf, UsedFragments.record_append]

theorem normalizeSelection_eq (inOperation : Bool) (selection : Selection) (used : UsedFragments) :
    normalizeSelection inOperation selection used =
      (normalSelection selection, used.record selection.spreads inOperation) := by
  induction selection generalizing used with
  | field aliasName name arguments directives selectionSet ih =>
    simp [normalizeSelection, normalizeItems_eq_of ih, sortBy_eq_sortByKey sortSelection_isLE, normalSelection_field,
      normalSet, Selection.spreads]
  | fragmentSpread fragmentName directives =>
    rfl
  | inlineFragment typeCondition directives selectionSet ih =>
    simp [normalizeSelection, normalizeItems_eq_of ih, sortBy_eq_sortByKey sortSelection_isLE,
      normalSelection_inlineFragment, normalSet, Selection.spreads]

theorem normalizeSelectionSet_eq (items : List Selection) (used : UsedFragments) (inOperation : Bool) :
    normalizeSelectionSet items used inOperation = (normalSet items, used.record (spreadsOf items) inOperation) := by
  simp [normalizeSelectionSet, normalizeItems_eq_of fun item _ => normalizeSelection_eq inOperation item,
    sortBy_eq_sortByKey sortSelection_isLE, normalSet]

theorem normalizeOperation_eq (operation : OperationDefinition) :
    normalizeOperation used operation = (normalOperation operation, used.record operation.spreads true) := by
  cases operation <;> simp only [normalizeOperation, normalizeSelectionSet_eq, normalOperation] <;> rfl

theorem normalizeFragment_eq (fragment : FragmentDefinition) : normalizeFragment used fragment =
      if used.containsKey fragment.name then (normalFragment fragment, used.record fragment.spreads true)
      else (fragment, used) := by
  unfold normalizeFragment
  cases known : used.containsKey fragment.name with
  | true =>
    simp only [normalizeSelectionSet_eq, if_true]
    rfl
  | false => rfl

/-- The first pass normalizes the operations and enters all their spreads. -/
theorem normalizeOperations_eq :
    operationsOf (normalizeOperations definitions used).1 = (operationsOf definitions).map normalOperation ∧
      fragmentsOf (normalizeOperations definitions used).1 = fragmentsOf definitions ∧
      (normalizeOperations definitions used).2 =
        used.record ((operationsOf definitions).flatMap OperationDefinition.spreads) true := by
  induction definitions generalizing used with
  | nil => exact ⟨rfl, rfl, rfl⟩
  | cons definition rest ih =>
    cases definition with
    | operation operation =>
      obtain ⟨operations, fragments, known⟩ := ih (used.record operation.spreads true)
      simp only [normalizeOperations, normalizeOperation_eq]
      refine ⟨?_, fragments, ?_⟩
      · exact congrArg (normalOperation operation :: ·) operations
      · rw [known, ← UsedFragments.record_append]
        rfl
    | fragment fragment =>
      obtain ⟨operations, fragments, known⟩ := ih used
      exact ⟨operations, congrArg (fragment :: ·) fragments, known⟩

/-- The second pass as it runs over the fragments alone. -/
def visitFragments : List FragmentDefinition → UsedFragments → List FragmentDefinition × UsedFragments
  | [], used => ([], used)
  | fragment :: rest, used =>
    let (fragment, used) := normalizeFragment used fragment
    let (rest, used) := visitFragments rest used
    (fragment :: rest, used)

theorem normalizeFragments_eq :
    operationsOf (normalizeFragments definitions used).1 = operationsOf definitions ∧
      fragmentsOf (normalizeFragments definitions used).1 = (visitFragments (fragmentsOf definitions) used).1 ∧
      (normalizeFragments definitions used).2 = (visitFragments (fragmentsOf definitions) used).2 := by
  induction definitions generalizing used with
  | nil => exact ⟨rfl, rfl, rfl⟩
  | cons definition rest ih =>
    cases definition with
    | operation operation =>
      obtain ⟨operations, fragments, known⟩ := ih used
      exact ⟨congrArg (operation :: ·) operations, fragments, known⟩
    | fragment fragment =>
      obtain ⟨operations, fragments, known⟩ := ih (normalizeFragment used fragment).2
      exact ⟨operations, congrArg ((normalizeFragment used fragment).1 :: ·) fragments, known⟩

theorem filter_definitionKey_fragments (name : String) (definitions : List Definition) :
    definitions.filter (fun definition => definitionKey definition = toLex (0, name)) =
      ((fragmentsOf definitions).filter fun fragment => fragment.name = name).map .fragment := by
  induction definitions with
  | nil => rfl
  | cons definition rest ih =>
    cases definition with
    | operation operation =>
      rw [filter_cons_of_neg (by simp [definitionKey]), ih]
      rfl
    | fragment fragment =>
      have fragments : fragmentsOf (.fragment fragment :: rest) = fragment :: fragmentsOf rest := rfl
      by_cases same : fragment.name = name
      · rw [filter_cons_of_pos (by simpa [definitionKey] using same), ih, fragments,
          filter_cons_of_pos (by simpa using same), map_cons]
      · rw [filter_cons_of_neg (by simpa [definitionKey] using same), ih, fragments,
          filter_cons_of_neg (by simpa using same)]

theorem filter_definitionKey_operations :
    definitions.filter (fun definition => definitionKey definition = toLex (1, "")) =
      (operationsOf definitions).map .operation := by
  induction definitions with
  | nil => rfl
  | cons definition rest ih =>
    cases definition with
    | operation operation =>
      rw [filter_cons_of_pos (by simp [definitionKey]), ih]
      rfl
    | fragment fragment =>
      rw [filter_cons_of_neg (by simp [definitionKey]), ih]
      rfl

/-- A document that defines fragments and then operations. -/
def documentOf (fragments : List FragmentDefinition) (operations : List OperationDefinition) : List Definition :=
  fragments.map .fragment ++ operations.map .operation

section
variable (fragments : List FragmentDefinition) (operations : List OperationDefinition)

@[simp] theorem fragmentsOf_documentOf : fragmentsOf (documentOf fragments operations) = fragments := by
  simp [documentOf, fragmentsOf, filterMap_append, filterMap_map, Function.comp_def, Definition.fragment?]

@[simp] theorem operationsOf_documentOf : operationsOf (documentOf fragments operations) = operations := by
  simp [documentOf, operationsOf, filterMap_append, filterMap_map, Function.comp_def, Definition.operation?]

def assemble (fragments : List FragmentDefinition) (operations : List OperationDefinition) : List Definition :=
  documentOf (sortByKey FragmentDefinition.name fragments) operations

@[simp] theorem fragmentsOf_assemble :
    fragmentsOf (assemble fragments operations) = sortByKey FragmentDefinition.name fragments :=
  fragmentsOf_documentOf ..

@[simp] theorem operationsOf_assemble : operationsOf (assemble fragments operations) = operations :=
  operationsOf_documentOf ..

theorem pairwise_assemble :
    (assemble fragments operations).Pairwise fun first second => definitionKey first ≤ definitionKey second := by
  refine pairwise_append.mpr ⟨?_, ?_, ?_⟩
  · refine pairwise_map.mpr ((pairwise_sortByKey fragments).imp fun order => ?_)
    simpa [definitionKey, Prod.Lex.toLex_le_toLex] using order
  · exact pairwise_map.mpr (pairwise_of_forall fun _ _ => le_refl _)
  · intro first isFragment second isOperation
    obtain ⟨fragment, _, rfl⟩ := mem_map.mp isFragment
    obtain ⟨operation, _, rfl⟩ := mem_map.mp isOperation
    simp [definitionKey, Prod.Lex.toLex_le_toLex]

end

theorem sortBy_sortDefinition :
    sortBy sortDefinition definitions = assemble (fragmentsOf definitions) (operationsOf definitions) := by
  rw [sortBy_eq_sortByKey sortDefinition_isLE]
  refine eq_of_pairwise_of_filter (pairwise_sortByKey definitions) (pairwise_assemble _ _) fun wanted => ?_
  rw [filter_sortByKey]
  -- A key is that of a fragment name, that of operations, or of nothing.
  by_cases ofFragment : ∃ name, wanted = toLex (0, name)
  · obtain ⟨name, rfl⟩ := ofFragment
    rw [filter_definitionKey_fragments, filter_definitionKey_fragments, fragmentsOf_assemble, filter_sortByKey]
  · by_cases ofOperation : wanted = toLex (1, "")
    · subst ofOperation
      rw [filter_definitionKey_operations, filter_definitionKey_operations, operationsOf_assemble]
    · have noKey (definition : Definition) : definitionKey definition ≠ wanted := by
        cases definition with
        | operation operation => exact fun same => ofOperation same.symm
        | fragment fragment => exact fun same => ofFragment ⟨fragment.name, same.symm⟩
      rw [filter_eq_nil_iff.mpr fun definition _ => by simpa using noKey definition,
        filter_eq_nil_iff.mpr fun definition _ => by simpa using noKey definition]

def retainedOperations (document : Document) (operationName : Option String) : List OperationDefinition :=
  operationsOf (retainOperation operationName document)

theorem fragmentsOf_retainOperation (document : Document) (operationName : Option String) :
    fragmentsOf (retainOperation operationName document) = fragmentsOf document.definitions := by
  cases operationName with
  | none => rfl
  | some name =>
    simp only [retainOperation, fragmentsOf, filterMap_filter]
    refine filterMap_congr fun definition _ => ?_
    cases definition with
    | operation operation =>
      split <;> rfl
    | fragment fragment => rfl

end Grafbase.Normalizer
