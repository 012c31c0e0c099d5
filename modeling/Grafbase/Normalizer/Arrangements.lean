import Grafbase.Normalizer.NormalForms

/-! Arrangements of one operation, and when they have the same normal form.

An arrangement permutes the members of selection sets, arguments and
directives, changes aliases that are there, and replaces hard-coded values by
others of their kind. Normal forms are sorted by names only, so they forget
the arrangement if and only if members with the same sort key have the same
normal form.
-/

set_option autoImplicit false

namespace Grafbase.Normalizer
open Foundation
open Rearranged (refl_of sort_normal)

/-- Values that are not hard-coded stay as they are. -/
inductive SameKind : Value → Value → Prop where
  | refl (value : Value) : SameKind value value
  | string (first second : String) : SameKind (.leaf (.string first)) (.leaf (.string second))
  | int (first second : Int) : SameKind (.leaf (.int first)) (.leaf (.int second))
  | float (first second : BitVec 64) : SameKind (.leaf (.float first)) (.leaf (.float second))
  | list (first second : List Value) : SameKind (.list first) (.list second)
  | object (first second : List (String × Value)) : SameKind (.object first) (.object second)

structure SimilarArgument (first second : Argument) : Prop where
  name : first.1 = second.1
  value : SameKind first.2 second.2

structure SimilarDirective (first second : Directive) : Prop where
  name : first.name = second.name
  arguments : Rearranged SimilarArgument first.arguments second.arguments

/-- An alias can be renamed or dropped. -/
def AliasChange (first second : Option String) : Prop := first = none → second = none

inductive SimilarSelection : Selection → Selection → Prop where
  | field {aliasName otherAlias : Option String} {name : String} {arguments otherArguments : List Argument}
      {directives otherDirectives : List Directive} {selectionSet otherSet : List Selection}
      (aliasChange : AliasChange aliasName otherAlias)
        (ofArguments : Rearranged SimilarArgument arguments otherArguments)
      (ofDirectives : Rearranged SimilarDirective directives otherDirectives)
      (below : Rearranged SimilarSelection selectionSet otherSet) :
      SimilarSelection (.field aliasName name arguments directives selectionSet)
        (.field otherAlias name otherArguments otherDirectives otherSet)
  | fragmentSpread {fragmentName : String} {directives otherDirectives : List Directive}
      (ofDirectives : Rearranged SimilarDirective directives otherDirectives) :
      SimilarSelection (.fragmentSpread fragmentName directives) (.fragmentSpread fragmentName otherDirectives)
  | inlineFragment {typeCondition : Option String} {directives otherDirectives : List Directive}
      {selectionSet otherSet : List Selection}
      (ofDirectives : Rearranged SimilarDirective directives otherDirectives)
      (below : Rearranged SimilarSelection selectionSet otherSet) :
      SimilarSelection (.inlineFragment typeCondition directives selectionSet)
        (.inlineFragment typeCondition otherDirectives otherSet)

inductive SimilarOperation : OperationDefinition → OperationDefinition → Prop where
  | selectionSet {items others : List Selection} (below : Rearranged SimilarSelection items others) :
      SimilarOperation (.selectionSet items) (.selectionSet others)
  | operation {kind : OperationKind} {name : Option String}
    {variableDefinitions otherVariables : List VariableDefinition}
      {directives otherDirectives : List Directive} {items others : List Selection}
      (ofVariables : Rearranged Eq variableDefinitions otherVariables)
      (ofDirectives : Rearranged SimilarDirective directives otherDirectives)
      (below : Rearranged SimilarSelection items others) :
      SimilarOperation (.operation kind name variableDefinitions directives items)
        (.operation kind name otherVariables otherDirectives others)

structure SimilarFragment (first second : FragmentDefinition) : Prop where
  name : first.name = second.name
  typeCondition : first.typeCondition = second.typeCondition
  directives : Rearranged SimilarDirective first.directives second.directives
  selectionSet : Rearranged SimilarSelection first.selectionSet second.selectionSet

/-- Fragments may be defined in any order. -/
structure SimilarDocument (first second : Document) : Prop where
  operations : List.Forall₂ SimilarOperation (operationsOf first.definitions) (operationsOf second.definitions)
  fragments : Rearranged SimilarFragment (fragmentsOf first.definitions) (fragmentsOf second.definitions)

theorem SimilarArgument.refl (argument : Argument) : SimilarArgument argument argument := ⟨rfl, .refl _⟩

variable (arguments : List Argument)

theorem sameArguments : Rearranged SimilarArgument arguments arguments :=
  refl_of fun argument _ => .refl argument

theorem SimilarDirective.refl (directive : Directive) : SimilarDirective directive directive :=
  ⟨rfl, sameArguments directive.arguments⟩

variable (directives : List Directive)

theorem sameDirectives : Rearranged SimilarDirective directives directives :=
  refl_of fun directive _ => .refl directive

theorem SimilarSelection.refl (selection : Selection) : SimilarSelection selection selection := by
  induction selection with
  | field aliasName name arguments directives selectionSet ih =>
    exact .field id (sameArguments arguments) (sameDirectives directives) (refl_of ih)
  | fragmentSpread fragmentName directives => exact .fragmentSpread (sameDirectives directives)
  | inlineFragment typeCondition directives selectionSet ih =>
    exact .inlineFragment (sameDirectives directives) (refl_of ih)

theorem sameItems (items : List Selection) : Rearranged SimilarSelection items items :=
  refl_of fun item _ => .refl item

theorem SimilarOperation.refl (operation : OperationDefinition) : SimilarOperation operation operation := by
  cases operation with
  | selectionSet items => exact .selectionSet (sameItems items)
  | operation kind name variableDefinitions directives items =>
    exact .operation (refl_of fun _ _ => rfl) (sameDirectives directives) (sameItems items)

theorem SimilarFragment.refl (fragment : FragmentDefinition) : SimilarFragment fragment fragment :=
  ⟨rfl, rfl, sameDirectives fragment.directives, sameItems fragment.selectionSet⟩

section Arguments

theorem normalizeValue_of_sameKind {first second : Value} (same : SameKind first second) :
    normalizeValue second = normalizeValue first := by
  cases same <;> rfl

def normalArgument (argument : Argument) : Argument := (argument.1, normalizeValue argument.2)

theorem fst_normalArgument (argument : Argument) : (normalArgument argument).1 = argument.1 := rfl

theorem normalizeArguments_eq : normalizeArguments arguments = sortByKey Prod.fst (arguments.map normalArgument) :=
  map_sortByKey normalArgument fst_normalArgument arguments

def normalDirective (directive : Directive) : Directive :=
  { directive with arguments := normalizeArguments directive.arguments }

theorem name_normalDirective (directive : Directive) : (normalDirective directive).name = directive.name := rfl

theorem normalizeDirectives_eq :
    normalizeDirectives directives = sortByKey Directive.name (directives.map normalDirective) :=
  map_sortByKey normalDirective name_normalDirective directives

/-- Arguments of one name have the same normal form. -/
def ArgumentsSettled : Prop :=
  ∀ first ∈ arguments, ∀ second ∈ arguments, first.1 = second.1 → normalArgument first = normalArgument second

theorem normalArgument_of_similar {first second : Argument} (similar : SimilarArgument first second) :
    normalArgument second = normalArgument first := by
  rw [normalArgument, normalArgument, similar.name, normalizeValue_of_sameKind similar.value]

theorem argumentsSettled_iff : (∀ others, Rearranged SimilarArgument arguments others →
      normalizeArguments others = normalizeArguments arguments) ↔ ArgumentsSettled arguments := by
  have keeps (first second : Argument) (similar : SimilarArgument first second) :
      (normalArgument second).1 = (normalArgument first).1 := similar.name.symm
  simp only [normalizeArguments_eq]
  rw [sortByKey_stable_iff SimilarArgument.refl keeps]
  exact and_iff_right fun argument _ other => normalArgument_of_similar

/-- The arguments of each directive are settled, and directives of one name have the same normal form. -/
structure DirectivesSettled : Prop where
  arguments : ∀ directive ∈ directives, ArgumentsSettled directive.arguments
  ties : ∀ first ∈ directives, ∀ second ∈ directives, first.name = second.name →
    normalDirective first = normalDirective second

theorem directiveSettled_iff (directive : Directive) :
    (∀ other, SimilarDirective directive other → normalDirective other = normalDirective directive) ↔
      ArgumentsSettled directive.arguments := by
  rw [← argumentsSettled_iff]
  constructor
  · intro invariant others rearranged
    have same := invariant ⟨directive.name, others⟩ ⟨rfl, rearranged⟩
    exact congrArg Directive.arguments same
  · intro invariant other similar
    rw [normalDirective, normalDirective, invariant other.arguments similar.arguments, similar.name]

theorem directivesSettled_iff : (∀ others, Rearranged SimilarDirective directives others →
      normalizeDirectives others = normalizeDirectives directives) ↔ DirectivesSettled directives := by
  have keeps (first second : Directive) (similar : SimilarDirective first second) :
      (normalDirective second).name = (normalDirective first).name := similar.name.symm
  simp only [normalizeDirectives_eq]
  rw [sortByKey_stable_iff SimilarDirective.refl keeps]
  simp only [directiveSettled_iff]
  exact ⟨fun ⟨arguments, ties⟩ => ⟨arguments, ties⟩, fun settled => ⟨settled.arguments, settled.ties⟩⟩

end Arguments

section Selections

/-- Members of one sort key have the same normal form. -/
def TiesEqual (items : List Selection) : Prop :=
  ∀ first ∈ items, ∀ second ∈ items, selectionKey first = selectionKey second →
    normalSelection first = normalSelection second

inductive SelectionSettled : Selection → Prop where
  | field {aliasName : Option String} {name : String} {arguments : List Argument} {directives : List Directive}
      {selectionSet : List Selection} (ofArguments : ArgumentsSettled arguments)
      (ofDirectives : DirectivesSettled directives) (below : ∀ item ∈ selectionSet, SelectionSettled item)
      (ties : TiesEqual selectionSet) : SelectionSettled (.field aliasName name arguments directives selectionSet)
  | fragmentSpread {fragmentName : String} {directives : List Directive} (ofDirectives : DirectivesSettled directives) :
      SelectionSettled (.fragmentSpread fragmentName directives)
  | inlineFragment {typeCondition : Option String} {directives : List Directive} {selectionSet : List Selection}
      (ofDirectives : DirectivesSettled directives) (below : ∀ item ∈ selectionSet, SelectionSettled item)
      (ties : TiesEqual selectionSet) : SelectionSettled (.inlineFragment typeCondition directives selectionSet)

structure SetSettled (items : List Selection) : Prop where
  below : ∀ item ∈ items, SelectionSettled item
  ties : TiesEqual items

theorem selectionKey_of_similar {first second : Selection} (similar : SimilarSelection first second) :
    selectionKey second = selectionKey first := by
  cases similar <;> rfl

theorem setInvariant_iff {items : List Selection} (each : ∀ item ∈ items,
      (∀ other, SimilarSelection item other → normalSelection other = normalSelection item) ↔ SelectionSettled item) :
    (∀ others, Rearranged SimilarSelection items others → normalSet others = normalSet items) ↔ SetSettled items := by
  have keeps (first second : Selection) (similar : SimilarSelection first second) :
      selectionKey (normalSelection second) = selectionKey (normalSelection first) := by
    simp only [selectionKey_normalSelection, selectionKey_of_similar similar]
  unfold normalSet
  rw [sortByKey_stable_iff SimilarSelection.refl keeps]
  simp only [selectionKey_normalSelection]
  constructor
  · rintro ⟨invariant, ties⟩
    exact ⟨fun item member => (each item member).mp (invariant item member), ties⟩
  · rintro ⟨below, ties⟩
    exact ⟨fun item member => (each item member).mpr (below item member), ties⟩

/-- A selection has one normal form in all arrangements if and only if it is settled. -/
theorem selectionSettled_iff (selection : Selection) :
    (∀ other, SimilarSelection selection other → normalSelection other = normalSelection selection) ↔
      SelectionSettled selection := by
  induction selection with
  | field aliasName name arguments directives selectionSet ih =>
    constructor
    · intro invariant
      -- One part is rearranged at a time.
      have ofArguments : ArgumentsSettled arguments := (argumentsSettled_iff arguments).mp fun others rearranged => by
        have same := invariant _ (.field id rearranged (sameDirectives directives) (sameItems selectionSet))
        simp only [normalSelection_field, Selection.field.injEq] at same
        exact same.2.2.1
      have ofDirectives : DirectivesSettled directives :=
        (directivesSettled_iff directives).mp fun others rearranged => by
        have same := invariant _ (.field id (sameArguments arguments) rearranged (sameItems selectionSet))
        simp only [normalSelection_field, Selection.field.injEq] at same
        exact same.2.2.2.1
      have ofSet : SetSettled selectionSet := (setInvariant_iff ih).mp fun others rearranged => by
        have same := invariant _ (.field id (sameArguments arguments) (sameDirectives directives) rearranged)
        simp only [normalSelection_field, Selection.field.injEq] at same
        exact same.2.2.2.2
      exact .field ofArguments ofDirectives ofSet.below ofSet.ties
    · rintro (⟨ofArguments, ofDirectives, below, ties⟩) other similar
      cases similar with
      | field aliasChange rearrangedArguments rearrangedDirectives rearrangedSet =>
        rw [normalSelection_field, normalSelection_field,
          (argumentsSettled_iff arguments).mpr ofArguments _ rearrangedArguments,
          (directivesSettled_iff directives).mpr ofDirectives _ rearrangedDirectives,
          (setInvariant_iff ih).mpr ⟨below, ties⟩ _ rearrangedSet]
  | fragmentSpread fragmentName directives =>
    constructor
    · intro invariant
      refine .fragmentSpread ((directivesSettled_iff directives).mp fun others rearranged => ?_)
      have same := invariant _ (.fragmentSpread rearranged)
      simp only [normalSelection_fragmentSpread, Selection.fragmentSpread.injEq] at same
      exact same.2
    · rintro (_ | ⟨ofDirectives⟩) other similar
      cases similar with
      | fragmentSpread rearranged =>
        rw [normalSelection_fragmentSpread, normalSelection_fragmentSpread,
          (directivesSettled_iff directives).mpr ofDirectives _ rearranged]
  | inlineFragment typeCondition directives selectionSet ih =>
    constructor
    · intro invariant
      have ofDirectives : DirectivesSettled directives :=
        (directivesSettled_iff directives).mp fun others rearranged => by
        have same := invariant _ (.inlineFragment rearranged (sameItems selectionSet))
        simp only [normalSelection_inlineFragment, Selection.inlineFragment.injEq] at same
        exact same.2.1
      have ofSet : SetSettled selectionSet := (setInvariant_iff ih).mp fun others rearranged => by
        have same := invariant _ (.inlineFragment (sameDirectives directives) rearranged)
        simp only [normalSelection_inlineFragment, Selection.inlineFragment.injEq] at same
        exact same.2.2
      exact .inlineFragment ofDirectives ofSet.below ofSet.ties
    · intro settled other similar
      cases settled with
      | inlineFragment ofDirectives below ties =>
        cases similar with
        | inlineFragment rearrangedDirectives rearrangedSet =>
          rw [normalSelection_inlineFragment, normalSelection_inlineFragment,
            (directivesSettled_iff directives).mpr ofDirectives _ rearrangedDirectives,
            (setInvariant_iff ih).mpr ⟨below, ties⟩ _ rearrangedSet]

theorem setSettled_iff (items : List Selection) :
    (∀ others, Rearranged SimilarSelection items others → normalSet others = normalSet items) ↔ SetSettled items :=
  setInvariant_iff fun item _ => selectionSettled_iff item

end Selections

section Definitions

def OperationSettled : OperationDefinition → Prop
  | .selectionSet items => SetSettled items
  | .operation _ _ variableDefinitions directives items =>
    (∀ first ∈ variableDefinitions, ∀ second ∈ variableDefinitions, first.name = second.name → first = second) ∧
      DirectivesSettled directives ∧ SetSettled items

theorem variablesSettled_iff (variableDefinitions : List VariableDefinition) :
    (∀ others, Rearranged Eq variableDefinitions others →
      sortByKey VariableDefinition.name others = sortByKey VariableDefinition.name variableDefinitions) ↔
      ∀ first ∈ variableDefinitions, ∀ second ∈ variableDefinitions, first.name = second.name → first = second := by
  have keeps (first second : VariableDefinition) (same : first = second) :
    (id second).name = (id first).name := by rw [same]
  have stable := sortByKey_stable_iff (fun _ => rfl) keeps variableDefinitions
  simp only [List.map_id] at stable
  rw [stable]
  exact and_iff_right fun _ _ _ same => same.symm

theorem operationSettled_iff (operation : OperationDefinition) :
    (∀ other, SimilarOperation operation other → normalOperation other = normalOperation operation) ↔
      OperationSettled operation := by
  cases operation with
  | selectionSet items =>
    constructor
    · intro invariant
      refine (setSettled_iff items).mp fun others rearranged => ?_
      exact OperationDefinition.selectionSet.inj (invariant _ (.selectionSet rearranged))
    · intro settled other similar
      cases similar with
      | selectionSet rearranged =>
        rw [normalOperation, normalOperation, (setSettled_iff items).mpr settled _ rearranged]
  | operation kind name variableDefinitions directives items =>
    constructor
    · intro invariant
      refine ⟨(variablesSettled_iff _).mp fun others rearranged => ?_,
        (directivesSettled_iff _).mp fun others rearranged => ?_, (setSettled_iff _).mp fun others rearranged => ?_⟩
      · have same := invariant _ (.operation rearranged (sameDirectives directives) (sameItems items))
        exact (OperationDefinition.operation.inj same).2.2.1
      · have same := invariant _ (.operation (refl_of fun _ _ => rfl) rearranged (sameItems items))
        exact (OperationDefinition.operation.inj same).2.2.2.1
      · have same := invariant _ (.operation (refl_of fun _ _ => rfl) (sameDirectives directives) rearranged)
        exact (OperationDefinition.operation.inj same).2.2.2.2
    · rintro ⟨ofVariables, ofDirectives, ofItems⟩ other similar
      cases similar with
      | operation rearrangedVariables rearrangedDirectives rearrangedItems =>
        rw [normalOperation, normalOperation, (variablesSettled_iff _).mpr ofVariables _ rearrangedVariables,
          (directivesSettled_iff _).mpr ofDirectives _ rearrangedDirectives,
          (setSettled_iff _).mpr ofItems _ rearrangedItems]

structure FragmentSettled (fragment : FragmentDefinition) : Prop where
  directives : DirectivesSettled fragment.directives
  selectionSet : SetSettled fragment.selectionSet

theorem fragmentSettled_iff (fragment : FragmentDefinition) :
    (∀ other, SimilarFragment fragment other → normalFragment other = normalFragment fragment) ↔
      FragmentSettled fragment := by
  constructor
  · intro invariant
    refine ⟨(directivesSettled_iff _).mp fun others rearranged => ?_, (setSettled_iff _).mp fun others rearranged => ?_⟩
    · have same := invariant { fragment with directives := others }
        ⟨rfl, rfl, rearranged, sameItems fragment.selectionSet⟩
      exact congrArg FragmentDefinition.directives same
    · have same := invariant { fragment with selectionSet := others }
        ⟨rfl, rfl, sameDirectives fragment.directives, rearranged⟩
      exact congrArg FragmentDefinition.selectionSet same
  · rintro ⟨ofDirectives, ofItems⟩ other similar
    rw [normalFragment, normalFragment, similar.name, similar.typeCondition,
      (directivesSettled_iff _).mpr ofDirectives _ similar.directives,
      (setSettled_iff _).mpr ofItems _ similar.selectionSet]

end Definitions

section Normal

theorem sameKind_normalizeValue (value : Value) : SameKind value (normalizeValue value) := by
  cases value with
  | leaf leaf =>
    cases leaf with
    | string text => exact .string ..
    | int number => exact .int ..
    | float bits => exact .float ..
    | _ => exact .refl _
  | list items => exact .list ..
  | object fields => exact .object ..

theorem rearranged_normalizeArguments : Rearranged SimilarArgument arguments (normalizeArguments arguments) := by
  rw [normalizeArguments_eq]
  exact sort_normal fst_normalArgument fun argument _ => ⟨rfl, sameKind_normalizeValue argument.2⟩

theorem rearranged_normalizeDirectives : Rearranged SimilarDirective directives (normalizeDirectives directives) := by
  rw [normalizeDirectives_eq]
  exact sort_normal name_normalDirective fun directive _ => ⟨rfl, rearranged_normalizeArguments directive.arguments⟩

theorem similar_normalSelection (selection : Selection) : SimilarSelection selection (normalSelection selection) := by
  induction selection with
  | field aliasName name arguments directives selectionSet ih =>
    rw [normalSelection_field]
    exact .field (fun _ => rfl) (rearranged_normalizeArguments arguments) (rearranged_normalizeDirectives directives)
      (sort_normal selectionKey_normalSelection ih)
  | fragmentSpread fragmentName directives =>
    exact .fragmentSpread (rearranged_normalizeDirectives directives)
  | inlineFragment typeCondition directives selectionSet ih =>
    rw [normalSelection_inlineFragment]
    exact .inlineFragment (rearranged_normalizeDirectives directives)
      (sort_normal selectionKey_normalSelection ih)

theorem rearranged_normalSet (items : List Selection) : Rearranged SimilarSelection items (normalSet items) :=
  sort_normal selectionKey_normalSelection fun item _ => similar_normalSelection item

theorem similar_normalFragment (fragment : FragmentDefinition) : SimilarFragment fragment (normalFragment fragment) :=
  ⟨rfl, rfl, rearranged_normalizeDirectives fragment.directives, rearranged_normalSet fragment.selectionSet⟩

theorem similar_normalOperation (operation : OperationDefinition) :
    SimilarOperation operation (normalOperation operation) := by
  cases operation with
  | selectionSet items => exact .selectionSet (rearranged_normalSet items)
  | operation kind name variableDefinitions directives items =>
    refine .operation (.of_perm (fun _ => rfl) (perm_sortByKey _ _).symm) (rearranged_normalizeDirectives directives)
      (rearranged_normalSet items)

theorem normalizeValue_idem (value : Value) : normalizeValue (normalizeValue value) = normalizeValue value :=
  normalizeValue_of_sameKind (sameKind_normalizeValue value)

theorem normalizeArguments_idem :
    normalizeArguments (normalizeArguments arguments) = normalizeArguments arguments := by
  simp only [normalizeArguments_eq]
  refine sortByKey_map_idem fst_normalArgument fun argument _ => ?_
  rw [normalArgument, normalArgument, normalizeValue_idem]

theorem normalizeDirectives_idem :
    normalizeDirectives (normalizeDirectives directives) = normalizeDirectives directives := by
  simp only [normalizeDirectives_eq]
  refine sortByKey_map_idem name_normalDirective fun directive _ => ?_
  rw [normalDirective, normalDirective, normalizeArguments_idem]

theorem normalSelection_idem (selection : Selection) :
    normalSelection (normalSelection selection) = normalSelection selection := by
  induction selection with
  | field aliasName name arguments directives selectionSet ih =>
    simp only [normalSelection_field, normalizeArguments_idem, normalizeDirectives_idem]
    rw [normalSet, normalSet, sortByKey_map_idem selectionKey_normalSelection ih]
  | fragmentSpread fragmentName directives => simp only [normalSelection_fragmentSpread, normalizeDirectives_idem]
  | inlineFragment typeCondition directives selectionSet ih =>
    simp only [normalSelection_inlineFragment, normalizeDirectives_idem]
    rw [normalSet, normalSet, sortByKey_map_idem selectionKey_normalSelection ih]

theorem normalSet_idem (items : List Selection) : normalSet (normalSet items) = normalSet items :=
  sortByKey_map_idem selectionKey_normalSelection fun item _ => normalSelection_idem item

@[simp] theorem normalFragment_idem (fragment : FragmentDefinition) :
    normalFragment (normalFragment fragment) = normalFragment fragment := by
  simp only [normalFragment, normalizeDirectives_idem, normalSet_idem]

@[simp] theorem normalOperation_idem (operation : OperationDefinition) :
    normalOperation (normalOperation operation) = normalOperation operation := by
  cases operation <;> simp only [normalOperation, normalizeDirectives_idem, normalSet_idem, sortByKey_sortByKey]

end Normal

section Spreads
variable {items : List Selection} {name : String}

theorem mem_spreadsOf : name ∈ spreadsOf items ↔ ∃ item ∈ items, name ∈ item.spreads := by
  rw [spreadsOf_eq_flatMap, List.mem_flatMap]

theorem mem_spreads_of_similar {selection other : Selection} (similar : SimilarSelection selection other) :
    name ∈ selection.spreads ↔ name ∈ other.spreads := by
  induction selection generalizing other with
  | field aliasName fieldName arguments directives selectionSet ih =>
    cases similar with
    | field aliasChange ofArguments ofDirectives below =>
      simp only [Selection.spreads, mem_spreadsOf]
      exact below.exists_iff fun item member other similar => ih item member similar
  | fragmentSpread fragmentName directives =>
    cases similar with
    | fragmentSpread ofDirectives => rfl
  | inlineFragment typeCondition directives selectionSet ih =>
    cases similar with
    | inlineFragment ofDirectives below =>
      simp only [Selection.spreads, mem_spreadsOf]
      exact below.exists_iff fun item member other similar => ih item member similar

theorem mem_spreadsOf_of_rearranged {others : List Selection} (rearranged : Rearranged SimilarSelection items others) :
    name ∈ spreadsOf items ↔ name ∈ spreadsOf others := by
  simp only [mem_spreadsOf]
  exact rearranged.exists_iff fun item _ other similar => mem_spreads_of_similar similar

theorem SimilarFragment.mem_spreads {first second : FragmentDefinition} (similar : SimilarFragment first second) :
    name ∈ first.spreads ↔ name ∈ second.spreads :=
  mem_spreadsOf_of_rearranged similar.selectionSet

theorem SimilarOperation.mem_spreads {first second : OperationDefinition} (similar : SimilarOperation first second) :
    name ∈ first.spreads ↔ name ∈ second.spreads := by
  cases similar with
  | selectionSet below
  | operation ofVariables ofDirectives below => exact mem_spreadsOf_of_rearranged below

end Spreads
end Grafbase.Normalizer
