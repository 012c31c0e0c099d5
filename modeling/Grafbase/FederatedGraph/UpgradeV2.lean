import Grafbase.FederatedGraph.Upgrade

/-! The conversion of federated graphs from version 2 to version 3.

Version 2 lists the fields of objects and interfaces as pairs of an owner and a
field. Version 3 keeps a range of the table of fields for each, and two fields
more for the query type, which are inserted where its own begin.
-/

set_option autoImplicit false

namespace Grafbase.FederatedGraph
open Foundation

abbrev TypeId := Nat

structure FieldTypeV2 where
  kind : Definition
  innerIsRequired : Bool
  /-- From the innermost to the outermost. -/
  listWrappers : List ListWrapping

structure FieldV2 where
  name : StringId
  fieldTypeId : TypeId
  arguments : Span := ⟨0, 0⟩
  resolvableIn : List SubgraphId := []
  provides : List (FieldProvides FieldSet) := []
  requires : List (FieldRequires FieldSet) := []
  overrides : List Override := []
  composedDirectives : Span := ⟨0, 0⟩
  description : Option StringId := none

structure ObjectV2 where
  name : StringId
  implementsInterfaces : List InterfaceId := []
  keys : List (Key FieldSet) := []
  composedDirectives : Span := ⟨0, 0⟩
  description : Option StringId := none

structure InterfaceV2 where
  name : StringId
  implementsInterfaces : List InterfaceId := []
  keys : List (Key FieldSet) := []
  composedDirectives : Span := ⟨0, 0⟩
  description : Option StringId := none

structure InputValueDefinitionV2 where
  name : StringId
  typeId : TypeId
  directives : Span := ⟨0, 0⟩
  description : Option StringId := none

inductive DirectiveV2 where
  | inaccessible
  | deprecated (reason : Option StringId)
  | other (name : StringId) (arguments : List (StringId × ValueV3))

end FederatedGraph

open FederatedGraph in
structure FederatedGraphV2 where
  subgraphs : List Subgraph := []
  rootOperationTypes : RootOperationTypes
  objects : List ObjectV2
  objectFields : List (ObjectId × FieldId)
  interfaces : List InterfaceV2 := []
  interfaceFields : List (InterfaceId × FieldId) := []
  fields : List FieldV2
  enums : List EnumV3 := []
  unions : List Union := []
  scalars : List ScalarV3 := []
  inputObjects : List InputObject := []
  enumValues : List EnumValueV3 := []
  inputValueDefinitions : List InputValueDefinitionV2 := []
  strings : List String
  fieldTypes : List FieldTypeV2
  directives : List DirectiveV2 := []

namespace FederatedGraph
open Foundation

def wrapOnce (wrapping : Wrapping) : ListWrapping → Checked Wrapping
  | .requiredList => wrapping.wrappedByRequiredList
  | .nullableList => wrapping.wrappedByNullableList

def convertTypeV2 (type : FieldTypeV2) : Checked TypeRef := do
  let wrapping ← type.listWrappers.foldlM wrapOnce (Wrapping.new type.innerIsRequired)
  .ok { wrapping, definition := type.kind }

def convertFieldV2 (fieldTypes : List FieldTypeV2) (field : FieldV2) : Checked (Field FieldSet) := do
  let type ← convertTypeV2 (← indexed fieldTypes field.fieldTypeId)
  .ok {
    name := field.name
    type
    arguments := field.arguments
    resolvableIn := field.resolvableIn
    provides := field.provides
    requires := field.requires
    overrides := field.overrides
    composedDirectives := field.composedDirectives
    description := field.description }

def convertInputValueDefinitionV2 (fieldTypes : List FieldTypeV2) (definition : InputValueDefinitionV2) :
    Checked (InputValueDefinition ValueV3) := do
  let type ← convertTypeV2 (← indexed fieldTypes definition.typeId)
  .ok {
    name := definition.name
    type
    directives := definition.directives
    description := definition.description
    default := none }

def convertDirectiveV2 : DirectiveV2 → Directive ValueV3
  | .inaccessible => .inaccessible
  | .deprecated reason => .deprecated reason
  | .other name arguments => .other name arguments

def extendRange (entry : Option Fields) (field : FieldId) : Fields :=
  match entry with
  | none => { start := field, stop := field + 1 }
  | some fields => { fields with stop := field + 1 }

/-- One round of the loops over `object_fields` and `interface_fields`. -/
def addToRange (ranges : List (Option Fields)) (pair : Nat × FieldId) : Checked (List (Option Fields)) := do
  let entry ← indexed ranges pair.1
  assigned ranges pair.1 (some (extendRange entry pair.2))

def fieldRanges (owners : Nat) (pairs : List (Nat × FieldId)) : Checked (List (Option Fields)) :=
  pairs.foldlM addToRange (List.replicate owners none)

def internString (strings : List String) (needle : String) : StringId × List String :=
  match strings.findIdx? (· == needle) with
  | some id => (id, strings)
  | none => (strings.length, strings ++ [needle])

def correctFieldset (originalStart : Nat) : FieldSet → FieldSet
  | .nil => .nil
  | .item field arguments subselection rest =>
    .item (if field ≥ originalStart then field + 2 else field) arguments (correctFieldset originalStart subselection)
      (correctFieldset originalStart rest)

def correctKeys (originalStart : Nat) (keys : List (Key FieldSet)) : List (Key FieldSet) :=
  keys.map fun key => { key with fields := correctFieldset originalStart key.fields }

def correctField (originalStart : Nat) (field : Field FieldSet) : Field FieldSet :=
  { field with
    provides := field.provides.map fun provides =>
      { provides with fields := correctFieldset originalStart provides.fields }
    requires := field.requires.map fun requires =>
      { requires with fields := correctFieldset originalStart requires.fields } }

/-- The field reserved for `__schema` or `__type`. -/
def reservedField (query : ObjectId) (name : StringId) : Field FieldSet where
  name := name
  type := { wrapping := Wrapping.new false, definition := .object query }

/-- `fields.splice(start..start, inserted)` -/
def spliced {α : Type} (items : List α) (start : Nat) (inserted : List α) : Checked (List α) :=
  if start ≤ items.length then .ok (items.take start ++ inserted ++ items.drop start) else .error .outOfBounds

def convertObjectV2 (originalStart : Nat) (object : ObjectV2) (fields : Option Fields) : ObjectV3 where
  name := object.name
  implementsInterfaces := object.implementsInterfaces
  keys := correctKeys originalStart object.keys
  composedDirectives := object.composedDirectives
  fields := fields.getD ⟨0, 0⟩
  description := object.description

def convertInterfaceV2 (originalStart : Nat) (interface : InterfaceV2) (fields : Option Fields) : InterfaceV3 where
  name := interface.name
  implementsInterfaces := interface.implementsInterfaces
  keys := correctKeys originalStart interface.keys
  composedDirectives := interface.composedDirectives
  fields := fields.getD ⟨0, 0⟩
  description := interface.description

/-- The record made at the end. The lists of ranges have an entry for every object and every interface. -/
def assembleV3 (graph : FederatedGraphV2) (originalStart : Nat) (fields : List (Field FieldSet))
    (inputValueDefinitions : List (InputValueDefinition ValueV3)) (objectFields interfaceFields : List (Option Fields))
    (strings : List String) : FederatedGraphV3 where
  subgraphs := graph.subgraphs
  rootOperationTypes := graph.rootOperationTypes
  objects := List.zipWith (convertObjectV2 originalStart) graph.objects objectFields
  interfaces := List.zipWith (convertInterfaceV2 originalStart) graph.interfaces interfaceFields
  fields := fields.map (correctField originalStart)
  enums := graph.enums
  unions := graph.unions
  scalars := graph.scalars
  inputObjects := graph.inputObjects
  enumValues := graph.enumValues
  inputValueDefinitions := inputValueDefinitions
  strings := strings
  directives := graph.directives.map convertDirectiveV2

def fromV2 (graph : FederatedGraphV2) : Checked FederatedGraphV3 := do
  let fields ← graph.fields.mapM (convertFieldV2 graph.fieldTypes)
  let inputValueDefinitions ← graph.inputValueDefinitions.mapM (convertInputValueDefinitionV2 graph.fieldTypes)
  let objectFields ← fieldRanges graph.objects.length graph.objectFields
  let interfaceFields ← fieldRanges graph.interfaces.length graph.interfaceFields
  let schema := internString graph.strings "__schema"
  let type := internString schema.2 "__type"
  let query := graph.rootOperationTypes.query
  match ← indexed objectFields query with
  | none => .error (.expect "Query to have fields")
  | some queryFields =>
    let objectFields ← assigned objectFields query (some { queryFields with stop := queryFields.stop + 2 })
    let fields ← spliced fields queryFields.start [reservedField query schema.1, reservedField query type.1]
    .ok (assembleV3 graph queryFields.start fields inputValueDefinitions objectFields interfaceFields type.2)

end FederatedGraph
end Grafbase
