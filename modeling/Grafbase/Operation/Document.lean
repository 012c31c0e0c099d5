import Grafbase.Response.Ingest

/-! Parsed operations and the part of the schema that binding looks at. -/

set_option autoImplicit false

namespace Grafbase.Operation
open Foundation Response

structure Location where
  line : Nat
  column : Nat
  deriving DecidableEq

/-- Values of arguments. Directives of interest only take Booleans; other literals keep their text. -/
inductive Value where
  | boolean (value : Bool)
  | variable (name : String)
  | other (text : String)

structure Directive where
  name : String
  location : Location
  arguments : List (String × Value)

inductive Selection where
  | field (location : Location) (responseName : Option String) (name : String) (arguments : List (String × Value))
      (directives : List Directive) (selectionSet : List Selection)
  | fragmentSpread (location : Location) (name : String) (directives : List Directive)
  | inlineFragment (location : Location) (typeCondition : Option String) (directives : List Directive)
      (selectionSet : List Selection)

structure Fragment where
  name : String
  location : Location
  typeCondition : String
  selectionSet : List Selection

/-- One occurrence of a field in a selection set after spreading fragments, with the directives of
the fragment spreads and inline fragments around it. -/
structure Occurrence where
  location : Location
  arguments : List (String × Value)
  directives : List Directive
  enclosing : List Directive
  selectionSet : List Selection

abbrev FieldDefinitionId := Nat
abbrev ScalarDefinitionId := Nat
abbrev EnumDefinitionId := Nat
abbrev UnionDefinitionId := Nat
abbrev InterfaceDefinitionId := Nat
abbrev InputObjectDefinitionId := Nat
abbrev AuthorizedDirectiveId := Nat
abbrev RequiresScopesDirectiveId := Nat
abbrev VariableDefinitionId := Nat
abbrev FieldId := Nat
abbrev FieldShapeId := Nat

inductive DefinitionId where
  | scalar (id : ScalarDefinitionId)
  | enum (id : EnumDefinitionId)
  | inputObject (id : InputObjectDefinitionId)
  | object (id : ObjectDefinitionId)
  | interface (id : InterfaceDefinitionId)
  | union (id : UnionDefinitionId)
  deriving DecidableEq

inductive SelectionSetType where
  | object (id : ObjectDefinitionId)
  | interface (id : InterfaceDefinitionId)
  | union (id : UnionDefinitionId)
  deriving DecidableEq

def SelectionSetType.maybeFrom : DefinitionId → Option SelectionSetType
  | .object id => some (.object id)
  | .interface id => some (.interface id)
  | .union id => some (.union id)
  | _ => none

def SelectionSetType.toDefinitionId : SelectionSetType → DefinitionId
  | .object id => .object id
  | .interface id => .interface id
  | .union id => .union id

inductive EntityDefinitionId where
  | object (id : ObjectDefinitionId)
  | interface (id : InterfaceDefinitionId)

/-- The derived order: objects before interfaces, then by id. -/
def EntityDefinitionId.rank : EntityDefinitionId → Nat × Nat
  | .object id => (0, id)
  | .interface id => (1, id)

inductive TypeSystemDirective where
  | authenticated
  | requiresScopes (id : RequiresScopesDirectiveId)
  | authorized (id : AuthorizedDirectiveId) (hasFields hasNode : Bool)
  | other

inductive QueryInputValue where
  | boolean (value : Bool)
  | variable (id : VariableDefinitionId)
  | other (text : String)

/-- `BindError`, or the panic that ends binding. -/
inductive BindError where
  | unknownType (name : String) (location : Location)
  | unknownField (container name : String) (location : Location)
  | unknownFragment (name : String) (location : Location)
  | unionHaveNoFields (name type : String) (location : Location)
  | cannotHaveSelectionSet (name : String) (location : Location)
  | leafMustBeAScalarOrEnum (name type : String) (location : Location)
  | invalidTypeConditionTargetType (name : String) (location : Location)
  | disjointTypeCondition (parent name : String) (location : Location)
  | missingDirectiveArgument (name directive : String) (location : Location)
  | tooManyFields (location : Location)
  | invalidArguments (field : String) (location : Location)
  | unknownVariable (name : String) (location : Location)
  | incorrectVariableType (name : String) (location : Location)
  | incorrectScalarValue (location : Location)
  /-- Fragments nest deeper than the bound of the model; the source rejects cycles beforehand. -/
  | fragmentCycle
  | abort (panic : Panic)

structure Schema where
  objectFieldByName : ObjectDefinitionId → String → Option FieldDefinitionId
  interfaceFieldByName : InterfaceDefinitionId → String → Option FieldDefinitionId
  definitionByName : String → Option DefinitionId
  definitionName : DefinitionId → String
  fieldName : FieldDefinitionId → String
  fieldType : FieldDefinitionId → DefinitionId
  parentEntityId : FieldDefinitionId → EntityDefinitionId
  interfacePossibleTypeIds : InterfaceDefinitionId → List ObjectDefinitionId
  unionPossibleTypeIds : UnionDefinitionId → List ObjectDefinitionId
  fieldDirectives : FieldDefinitionId → List TypeSystemDirective
  definitionDirectives : DefinitionId → List TypeSystemDirective
  /-- Coercion of field arguments, one value per argument that has one. -/
  coerceArguments : FieldDefinitionId → List (String × Value) → Option (List QueryInputValue)

structure VariableDefinition where
  name : String
  /-- `is_compatible_with(Boolean!)` -/
  isBoolean : Bool

end Grafbase.Operation
