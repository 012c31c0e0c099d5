import Grafbase.Normalizer.UsedFragments

/-! Which hard-coded values and field aliases survive.

A normal form has none. A fragment that is kept without having been followed
stays as it was written.
-/

set_option autoImplicit false

namespace Grafbase.Normalizer
open Foundation List

/-- Values that tell nothing about the request: placeholders, variables, booleans, enums and null. -/
def isPlaceholder : Value → Bool
  | .leaf (.string text) => text = ""
  | .leaf (.int number) => number = 0
  | .leaf (.float bits) => bits = 0
  | .list items => items.isEmpty
  | .object fields => fields.isEmpty
  | .leaf (.variable _) => true
  | .leaf (.boolean _) => true
  | .leaf .null => true
  | .leaf (.enum _) => true

def ArgumentsScrubbed (arguments : List Argument) : Prop := ∀ argument ∈ arguments, isPlaceholder argument.2

def DirectivesScrubbed (directives : List Directive) : Prop :=
  ∀ directive ∈ directives, ArgumentsScrubbed directive.arguments

inductive SelectionScrubbed : Selection → Prop where
  | field {name : String} {arguments : List Argument} {directives : List Directive} {selectionSet : List Selection}
      (scrubbedArguments : ArgumentsScrubbed arguments) (scrubbedDirectives : DirectivesScrubbed directives)
      (below : ∀ item ∈ selectionSet, SelectionScrubbed item) :
      SelectionScrubbed (.field none name arguments directives selectionSet)
  | fragmentSpread {fragmentName : String} {directives : List Directive}
      (scrubbedDirectives : DirectivesScrubbed directives) :
      SelectionScrubbed (.fragmentSpread fragmentName directives)
  | inlineFragment {typeCondition : Option String} {directives : List Directive} {selectionSet : List Selection}
      (scrubbedDirectives : DirectivesScrubbed directives) (below : ∀ item ∈ selectionSet, SelectionScrubbed item) :
      SelectionScrubbed (.inlineFragment typeCondition directives selectionSet)

def SetScrubbed (items : List Selection) : Prop := ∀ item ∈ items, SelectionScrubbed item

def OperationScrubbed : OperationDefinition → Prop
  | .selectionSet items => SetScrubbed items
  | .operation _ _ _ directives items => DirectivesScrubbed directives ∧ SetScrubbed items

def FragmentScrubbed (fragment : FragmentDefinition) : Prop :=
  DirectivesScrubbed fragment.directives ∧ SetScrubbed fragment.selectionSet

def Scrubbed (document : Document) : Prop :=
  (∀ operation ∈ operationsOf document.definitions, OperationScrubbed operation) ∧
    ∀ fragment ∈ fragments document, FragmentScrubbed fragment

theorem isPlaceholder_normalizeValue (value : Value) : isPlaceholder (normalizeValue value) := by
  cases value with
  | leaf leaf => cases leaf <;> rfl
  | list items => rfl
  | object fields => rfl

theorem argumentsScrubbed_normalizeArguments (arguments : List Argument) :
    ArgumentsScrubbed (normalizeArguments arguments) := by
  intro argument member
  obtain ⟨original, _, rfl⟩ := mem_map.mp member
  exact isPlaceholder_normalizeValue original.2

theorem directivesScrubbed_normalizeDirectives (directives : List Directive) :
    DirectivesScrubbed (normalizeDirectives directives) := by
  intro directive member
  obtain ⟨original, _, rfl⟩ := mem_map.mp member
  exact argumentsScrubbed_normalizeArguments original.arguments

theorem setScrubbed_normalSet_of {items : List Selection}
    (each : ∀ item ∈ items, SelectionScrubbed (normalSelection item)) : SetScrubbed (normalSet items) := by
  intro item member
  obtain ⟨original, isOriginal, rfl⟩ := mem_map.mp (mem_sortByKey.mp member)
  exact each original isOriginal

theorem selectionScrubbed_normalSelection (selection : Selection) : SelectionScrubbed (normalSelection selection) := by
  induction selection with
  | field aliasName name arguments directives selectionSet ih =>
    rw [normalSelection_field]
    exact .field (argumentsScrubbed_normalizeArguments arguments) (directivesScrubbed_normalizeDirectives directives)
      (setScrubbed_normalSet_of ih)
  | fragmentSpread fragmentName directives =>
    exact .fragmentSpread (directivesScrubbed_normalizeDirectives directives)
  | inlineFragment typeCondition directives selectionSet ih =>
    rw [normalSelection_inlineFragment]
    exact .inlineFragment (directivesScrubbed_normalizeDirectives directives) (setScrubbed_normalSet_of ih)

theorem setScrubbed_normalSet (items : List Selection) : SetScrubbed (normalSet items) :=
  setScrubbed_normalSet_of fun item _ => selectionScrubbed_normalSelection item

theorem operationScrubbed_normalOperation (operation : OperationDefinition) :
    OperationScrubbed (normalOperation operation) := by
  cases operation with
  | selectionSet items => exact setScrubbed_normalSet items
  | operation kind name variableDefinitions directives items =>
    exact ⟨directivesScrubbed_normalizeDirectives directives, setScrubbed_normalSet items⟩

theorem fragmentScrubbed_normalFragment (fragment : FragmentDefinition) : FragmentScrubbed (normalFragment fragment) :=
  ⟨directivesScrubbed_normalizeDirectives fragment.directives, setScrubbed_normalSet fragment.selectionSet⟩

/-- The result is scrubbed if and only if the fragments that are kept without having been followed were so before. -/
theorem scrubbed_iff (document : Document) (operationName : Option String) :
    Scrubbed (normalizeDocument document operationName) ↔
      ∀ index fragment, (fragments document)[index]? = some fragment →
        Known (Direct document operationName) (fragments document) fragment.name →
        ¬ Followed (Direct document operationName) (fragments document) index → FragmentScrubbed fragment := by
  obtain ⟨results, visited, isKept, kept, same⟩ := normalizeDocument_spec document operationName
  have mem_fragments (fragment : FragmentDefinition) : fragment ∈ fragments (normalizeDocument document operationName) ↔
      fragment ∈ results ∧ isKept fragment := by
    rw [same, fragments, fragmentsOf_assemble, mem_sortByKey, mem_filter]
  constructor
  · rintro ⟨_, scrubbed⟩ index fragment found known skipped
    refine scrubbed fragment ((mem_fragments fragment).mpr ⟨?_, (kept fragment).mpr known⟩)
    exact mem_of_getElem? (visited.skipped index fragment found skipped)
  · intro skippedScrubbed
    refine ⟨fun operation member => ?_, fun result member => ?_⟩
    · rw [same, operationsOf_assemble] at member
      obtain ⟨original, _, rfl⟩ := mem_map.mp member
      exact operationScrubbed_normalOperation original
    · obtain ⟨inResults, keepsResult⟩ := (mem_fragments result).mp member
      obtain ⟨index, isResult⟩ := mem_iff_getElem?.mp inResults
      -- The result stands where the fragment stood from which it comes.
      have sameName : ((fragments document)[index]?).map FragmentDefinition.name = some result.name := by
        rw [← getElem?_map, ← visited.names, getElem?_map, isResult, Option.map_some]
      obtain ⟨fragment, found, named⟩ := Option.map_eq_some_iff.mp sameName
      by_cases followed : Followed (Direct document operationName) (fragments document) index
      · rw [Option.mem_unique isResult (visited.followed index fragment found followed)]
        exact fragmentScrubbed_normalFragment fragment
      · have unchanged := Option.mem_unique isResult (visited.skipped index fragment found followed)
        rw [unchanged] at keepsResult ⊢
        exact skippedScrubbed index fragment found ((kept fragment).mp keepsResult) followed

/-- The document `{ ...A } fragment B on T { z: x(id: "secret") } fragment A on T { ...B }`. -/
def literalBeforeUse : Document where
  definitions := [
    .operation (.selectionSet [.fragmentSpread "A" []]),
    .fragment ⟨"B", "T", [], [.field (some "z") "x" [("id", .leaf (.string "secret"))] [] []]⟩,
    .fragment ⟨"A", "T", [], [.fragmentSpread "B" []]⟩]

theorem not_scrubbed_literalBeforeUse : ¬ Scrubbed (normalizeDocument literalBeforeUse none) := by
  rintro ⟨_, scrubbed⟩
  obtain ⟨_, set⟩ := scrubbed _ (mem_cons_of_mem _ (mem_cons_self ..))
  cases set _ (mem_cons_self ..)

end Grafbase.Normalizer
