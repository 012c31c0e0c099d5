import Grafbase.Foundation.Entries
import Grafbase.PartialCaching.Document

/-! The parts of a query that are fetched and stored apart.

A subset of a query keeps some of its selections and fragments, and displays
them as a query of its own. The text is given as the tokens it consists of,
blanks and line ends included.
-/

set_option autoImplicit false

namespace Grafbase.PartialCaching
open Foundation

structure Partition where
  selections : IndexSet SelectionId
  fragments : IndexSet FragmentDefinitionId

/-- The operation is kept as the definition its identifier stands for; variables are numbered within it. -/
structure QuerySubset where
  operation : OperationDefinition
  partition : Partition
  variableIds : IndexSet VariableDefinitionId

def QuerySubset.variableDefinitions (subset : QuerySubset) : List VariableDefinition :=
  subset.variableIds.items.filterMap (subset.operation.variableDefinitions[·]?)

def QuerySubset.fragmentDefinitions (subset : QuerySubset) (document : ExecutableDocument) : List FragmentDefinition :=
  subset.partition.fragments.items.filterMap (document.fragments[·]?)

structure CachingPlan where
  document : ExecutableDocument
  cachePartitions : List (CacheControl × QuerySubset)
  nocachePartition : QuerySubset

inductive Token where
  | punctuator (text : String)
  | name (text : String)
  | leaf (value : ValueLeaf)
  | blank (text : String)
  deriving DecidableEq

def colon : Token := .punctuator ":"

def space : Token := .blank " "

def lineEnd : Token := .blank "\n"

def indentation (level : Nat) : List Token := List.replicate level (.blank "  ")

def commaSeparated (pieces : List (List Token)) : List Token := List.intercalate [.punctuator ",", space] pieces

mutual
def valueTokens : Value → List Token
  | .leaf value => [.leaf value]
  | .list items => .punctuator "[" :: commaSeparated (itemTokens items) ++ [.punctuator "]"]
  | .object fields => .punctuator "\x7b" :: commaSeparated (fieldTokens fields) ++ [.punctuator "\x7d"]
def itemTokens : List Value → List (List Token)
  | [] => []
  | item :: rest => valueTokens item :: itemTokens rest
def fieldTokens : List (String × Value) → List (List Token)
  | [] => []
  | (key, value) :: rest => (.name key :: colon :: space :: valueTokens value) :: fieldTokens rest
end

def Argument.tokens (argument : Argument) : List Token :=
  .name argument.name :: colon :: space :: valueTokens argument.value

def argumentsTokens (arguments : List Argument) : List Token :=
  if arguments.isEmpty then []
  else .punctuator "(" :: commaSeparated (arguments.map Argument.tokens) ++ [.punctuator ")"]

def Directive.tokens (directive : Directive) : List Token :=
  space :: .punctuator "@" :: .name directive.name :: argumentsTokens directive.arguments

def directivesTokens (directives : List Directive) : List Token := directives.flatMap Directive.tokens

def VariableType.tokens : VariableType → List Token
  | named name => [.name name]
  | list inner => .punctuator "[" :: inner.tokens ++ [.punctuator "]"]
  | nonNull inner => inner.tokens ++ [.punctuator "!"]

def defaultTokens : Option Value → List Token
  | some value => space :: .punctuator "=" :: space :: valueTokens value
  | none => []

def VariableDefinition.tokens (definition : VariableDefinition) : List Token :=
  .leaf (.variable definition.name) :: colon :: space :: definition.type.tokens ++
    defaultTokens definition.defaultValue ++ directivesTokens definition.directives

/-- A set that already asks for `__typename` under that name gets no second one. -/
def requiresSyntheticTypename : List Selection → Bool → Bool
  | [], result => result
  | .field none "__typename" _ _ :: _, _ => false
  | .field _ _ _ _ :: rest, result => requiresSyntheticTypename rest result
  | .inlineFragment _ _ :: rest, _ => requiresSyntheticTypename rest true
  | .fragmentSpread _ _ :: rest, _ => requiresSyntheticTypename rest true

section Display
variable (visible : IndexSet SelectionId)

def shownMembers (selections : Selections) : List Selection := (selections.members.filter (·.1 ∈ visible)).map Prod.snd

/-- A selection set around the display of its selections; nothing at all when none is shown. -/
def braced (level : Nat) (selections : Selections) (body : List Token) : List Token :=
  if (shownMembers visible selections).isEmpty then []
  else
    [.punctuator "\x7b", lineEnd] ++
      (if requiresSyntheticTypename (shownMembers visible selections) false
        then indentation (level + 1) ++ [.name "__typename", lineEnd] else []) ++
      body ++ indentation level ++ [.punctuator "\x7d"]

def fieldHeadTokens (otherName : Option String) (name : String) (arguments : List Argument)
    (directives : List Directive) : List Token :=
  (match otherName with
    | some other => [.name other, colon, space]
    | none => []) ++
  .name name :: argumentsTokens arguments ++ directivesTokens directives

def conditionTokens : Option String → List Token
  | some onType => [space, .name "on", space, .name onType]
  | none => []

def selectionTokens (level : Nat) : Selections → List Token
  | .nil => []
  | .field id otherName name arguments directives selectionSet rest =>
    (if id ∈ visible then
      indentation level ++ fieldHeadTokens otherName name arguments directives ++
        (if selectionSet.isEmpty then [] else [space]) ++
        braced visible level selectionSet (selectionTokens (level + 1) selectionSet) ++ [lineEnd]
    else []) ++ selectionTokens level rest
  | .inlineFragment id typeCondition directives selectionSet rest =>
    (if id ∈ visible then
      indentation level ++ .punctuator "..." ::
        conditionTokens typeCondition ++ directivesTokens directives ++ space ::
        braced visible level selectionSet (selectionTokens (level + 1) selectionSet) ++ [lineEnd]
    else []) ++ selectionTokens level rest
  | .fragmentSpread id fragmentName directives rest =>
    (if id ∈ visible then
      indentation level ++ .punctuator "..." :: space :: .name fragmentName :: directivesTokens directives ++ [lineEnd]
    else []) ++ selectionTokens level rest

def selectionSetTokens (selections : Selections) : List Token :=
  braced visible 0 selections (selectionTokens visible 1 selections)

def FragmentDefinition.tokens (fragment : FragmentDefinition) : List Token :=
  [lineEnd, .name "fragment", space, .name fragment.name, space, .name "on", space, .name fragment.typeCondition] ++
    directivesTokens fragment.directives ++ space :: selectionSetTokens visible fragment.selectionSet ++ [lineEnd]

end Display

def variablesTokens (definitions : List VariableDefinition) : List Token :=
  if definitions.isEmpty then []
  else .punctuator "(" :: commaSeparated (definitions.map VariableDefinition.tokens) ++ [.punctuator ")"]

/-- The text after the declarations. -/
def QuerySubset.bodyTokens (document : ExecutableDocument) (subset : QuerySubset) : List Token :=
  directivesTokens subset.operation.directives ++
    space :: selectionSetTokens subset.partition.selections subset.operation.selectionSet ++ lineEnd ::
    (subset.fragmentDefinitions document).flatMap (FragmentDefinition.tokens subset.partition.selections)

def QuerySubset.display (document : ExecutableDocument) (subset : QuerySubset) : List Token :=
  .name "query" :: variablesTokens subset.variableDefinitions ++ subset.bodyTokens document

end Grafbase.PartialCaching
