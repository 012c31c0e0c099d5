import Grafbase.Foundation.Literal
import Grafbase.Foundation.Entries
import Grafbase.Foundation.StableSort
import Mathlib.Data.Prod.Lex
import Mathlib.Data.String.Basic

/-! Executable documents and their normalization.

Positions are left out. The fields of an object value stand in the order of
their names, each name once.

Operations are normalized first, then the fragments that are known to be used
when they are reached. The fragments known to be used at the end are kept.
-/

set_option autoImplicit false

namespace Grafbase.Normalizer
open Foundation

/-- A floating point number is given by its bits. -/
inductive ValueLeaf where
  | variable (name : String)
  | int (number : Int)
  | float (bits : BitVec 64)
  | string (text : String)
  | boolean (value : Bool)
  | null
  | enum (name : String)

abbrev Value := Literal String ValueLeaf

abbrev Argument := String × Value

structure Directive where
  name : String
  arguments : List Argument

inductive Selection where
  | field (aliasName : Option String) (name : String) (arguments : List Argument) (directives : List Directive)
      (selectionSet : List Selection)
  | fragmentSpread (fragmentName : String) (directives : List Directive)
  | inlineFragment (typeCondition : Option String) (directives : List Directive) (selectionSet : List Selection)

/-- Selections by the selections below them. -/
@[induction_eliminator]
theorem Selection.induct {motive : Selection → Prop}
    (field : ∀ aliasName name arguments directives selectionSet, (∀ item ∈ selectionSet, motive item) →
      motive (.field aliasName name arguments directives selectionSet))
    (fragmentSpread : ∀ fragmentName directives, motive (.fragmentSpread fragmentName directives))
    (inlineFragment : ∀ typeCondition directives selectionSet, (∀ item ∈ selectionSet, motive item) →
      motive (.inlineFragment typeCondition directives selectionSet)) (selection : Selection) : motive selection :=
  @Selection.rec motive (fun items => ∀ item ∈ items, motive item) field fragmentSpread inlineFragment (by simp)
    (by simp_all) selection

inductive VariableType where
  | named (name : String)
  | list (inner : VariableType)
  | nonNull (inner : VariableType)

structure VariableDefinition where
  name : String
  varType : VariableType
  defaultValue : Option Value

inductive OperationKind where
  | query | mutation | subscription

/-- An operation is a bare selection set or one with a keyword. -/
inductive OperationDefinition where
  | selectionSet (items : List Selection)
  | operation (kind : OperationKind) (name : Option String) (variableDefinitions : List VariableDefinition)
      (directives : List Directive) (items : List Selection)

structure FragmentDefinition where
  name : String
  typeCondition : String
  directives : List Directive
  selectionSet : List Selection

inductive Definition where
  | operation (operation : OperationDefinition)
  | fragment (fragment : FragmentDefinition)

structure Document where
  definitions : List Definition

def Definition.operation? : Definition → Option OperationDefinition
  | .operation body => some body
  | .fragment _ => none

def Definition.fragment? : Definition → Option FragmentDefinition
  | .operation _ => none
  | .fragment body => some body

def operationsOf (definitions : List Definition) : List OperationDefinition :=
  definitions.filterMap Definition.operation?

def fragmentsOf (definitions : List Definition) : List FragmentDefinition := definitions.filterMap Definition.fragment?

mutual
def Selection.spreads : Selection → List String
  | .field _ _ _ _ selectionSet => spreadsOf selectionSet
  | .fragmentSpread fragmentName _ => [fragmentName]
  | .inlineFragment _ _ selectionSet => spreadsOf selectionSet
def spreadsOf : List Selection → List String
  | [] => []
  | selection :: rest => selection.spreads ++ spreadsOf rest
end

theorem spreadsOf_eq_flatMap (items : List Selection) : spreadsOf items = items.flatMap Selection.spreads := by
  induction items with
  | nil => rfl
  | cons first rest ih => rw [spreadsOf, ih, List.flatMap_cons]

def OperationDefinition.items : OperationDefinition → List Selection
  | selectionSet items | operation _ _ _ _ items => items

def OperationDefinition.spreads (operation : OperationDefinition) : List String := spreadsOf operation.items

def FragmentDefinition.spreads (fragment : FragmentDefinition) : List String := spreadsOf fragment.selectionSet

/-- The hard-coded kinds of values are replaced, the others stay. -/
def normalizeValue : Value → Value
  | .leaf (.string _) => .leaf (.string "")
  | .leaf (.float _) => .leaf (.float 0)
  | .leaf (.int _) => .leaf (.int 0)
  | .list _ => .list []
  | .object _ => .object []
  | value => value

def normalizeArguments (arguments : List Argument) : List Argument :=
  (sortByKey Prod.fst arguments).map fun argument => (argument.1, normalizeValue argument.2)

def normalizeDirectives (directives : List Directive) : List Directive :=
  (sortByKey Directive.name directives).map fun directive =>
    { directive with arguments := normalizeArguments directive.arguments }

def compareTypeConditions : Option String → Option String → Ordering
  | none, none => .eq
  | none, some _ => .lt
  | some _, none => .gt
  | some first, some second => compare first second

/-- Fields, then spreads, then inline fragments. -/
def sortSelection : Selection → Selection → Ordering
  | .field _ first _ _ _, .field _ second _ _ _ => compare first second
  | .field .., .fragmentSpread .. => .lt
  | .field .., .inlineFragment .. => .lt
  | .fragmentSpread .., .field .. => .gt
  | .fragmentSpread first _, .fragmentSpread second _ => compare first second
  | .fragmentSpread .., .inlineFragment .. => .lt
  | .inlineFragment .., .field .. => .gt
  | .inlineFragment .., .fragmentSpread .. => .gt
  | .inlineFragment first _ _, .inlineFragment second _ _ => compareTypeConditions first second

def sortBy {α : Type} (order : α → α → Ordering) (items : List α) : List α :=
  items.insertionSort fun first second => (order first second).isLE

abbrev UsedFragments := List (String × Bool)

variable (used : UsedFragments)

/-- An entry that exists is not changed. -/
def UsedFragments.orInsert (name : String) (inOperation : Bool) : UsedFragments :=
  upsert name inOperation id used

def UsedFragments.containsKey (name : String) : Bool := (used.lookup name).isSome

mutual
def normalizeSelection (inOperation : Bool) : Selection → UsedFragments → Selection × UsedFragments
  | .field _ name arguments directives selectionSet, used =>
    let (items, used) := normalizeItems inOperation selectionSet used
    (.field none name (normalizeArguments arguments) (normalizeDirectives directives)
      (sortBy sortSelection items), used)
  | .fragmentSpread fragmentName directives, used =>
    (.fragmentSpread fragmentName (normalizeDirectives directives), used.orInsert fragmentName inOperation)
  | .inlineFragment typeCondition directives selectionSet, used =>
    let (items, used) := normalizeItems inOperation selectionSet used
    (.inlineFragment typeCondition (normalizeDirectives directives) (sortBy sortSelection items), used)
def normalizeItems (inOperation : Bool) : List Selection → UsedFragments → List Selection × UsedFragments
  | [], used => ([], used)
  | selection :: rest, used =>
    let (selection, used) := normalizeSelection inOperation selection used
    let (rest, used) := normalizeItems inOperation rest used
    (selection :: rest, used)
end

def normalizeSelectionSet (items : List Selection) (used : UsedFragments) (inOperation : Bool) :
    List Selection × UsedFragments :=
  let (items, used) := normalizeItems inOperation items used
  (sortBy sortSelection items, used)

def normalizeOperation : OperationDefinition → OperationDefinition × UsedFragments
  | .selectionSet items =>
    let (items, used) := normalizeSelectionSet items used true
    (.selectionSet items, used)
  | .operation kind name variableDefinitions directives items =>
    let (items, used) := normalizeSelectionSet items used true
    (.operation kind name (sortByKey VariableDefinition.name variableDefinitions)
      (normalizeDirectives directives) items,
      used)

def normalizeOperations : List Definition → UsedFragments → List Definition × UsedFragments
  | [], used => ([], used)
  | .operation operation :: rest, used =>
    let (operation, used) := normalizeOperation used operation
    let (rest, used) := normalizeOperations rest used
    (.operation operation :: rest, used)
  | .fragment fragment :: rest, used =>
    let (rest, used) := normalizeOperations rest used
    (.fragment fragment :: rest, used)

/-- A fragment that is not known to be used yet is skipped. -/
def normalizeFragment (fragment : FragmentDefinition) : FragmentDefinition × UsedFragments :=
  let inOperation := used.containsKey fragment.name
  if inOperation then
    let (items, used) := normalizeSelectionSet fragment.selectionSet used inOperation
    ({ fragment with directives := normalizeDirectives fragment.directives, selectionSet := items }, used)
  else (fragment, used)

def normalizeFragments : List Definition → UsedFragments → List Definition × UsedFragments
  | [], used => ([], used)
  | .operation operation :: rest, used =>
    let (rest, used) := normalizeFragments rest used
    (.operation operation :: rest, used)
  | .fragment fragment :: rest, used =>
    let (fragment, used) := normalizeFragment used fragment
    let (rest, used) := normalizeFragments rest used
    (.fragment fragment :: rest, used)

/-- Bare selection sets and fragments are not selected by name. -/
def isRetained (operationName : String) : Definition → Bool
  | .operation (.operation _ name _ _ _) => name = some operationName
  | _ => true

def isUsed : Definition → Bool
  | .fragment fragment => (used.lookup fragment.name).getD false
  | _ => true

def sortDefinition : Definition → Definition → Ordering
  | .operation _, .fragment _ => .gt
  | .fragment _, .operation _ => .lt
  | .fragment first, .fragment second => compare first.name second.name
  | .operation _, .operation _ => .eq

def retainOperation (operationName : Option String) (document : Document) : List Definition :=
  match operationName with
  | some name => document.definitions.filter (isRetained name)
  | none => document.definitions

def normalizeDocument (document : Document) (operationName : Option String) : Document :=
  let (definitions, used) := normalizeOperations (retainOperation operationName document) []
  let (definitions, used) := normalizeFragments definitions used
  ⟨sortBy sortDefinition (definitions.filter (isUsed used))⟩

inductive NormalizeError (ε : Type) where
  | parse (error : ε)
  /-- The text "the normalized query is empty (meaning we couldn't find an operation with the given name)". -/
  | empty

/-- The parser and the printer are not part of the crate. -/
def normalize {τ ε : Type} (parseQuery : τ → Except ε Document) (toText : Document → τ) (sourceText : τ)
    (operationName : Option String) : Except (NormalizeError ε) τ :=
  match parseQuery sourceText with
  | .error error => .error (.parse error)
  | .ok document =>
    let normalized := normalizeDocument document operationName
    if normalized.definitions.isEmpty then .error .empty else .ok (toText normalized)

end Grafbase.Normalizer
