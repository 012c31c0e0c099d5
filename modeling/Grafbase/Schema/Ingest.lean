import Grafbase.Schema.RequiredFields

/-! The definitions of a federated graph as definitions of the schema.

Objects, interfaces, unions and input objects keep their ids. Scalars and enums
are numbered in the order of their type definitions, and fields, input values
and enum values move down past those that are inaccessible.
-/

set_option autoImplicit false

namespace Grafbase.Schema
open Foundation
open FederatedGraph (Value Span SelectionSet)

inductive BuildError where
  | requiredFieldArgumentCoercion (location : String) (error : InputValueError)
  | defaultValueCoercion (name : String) (error : InputValueError)

abbrev Building := Except (Failure BuildError)

def spanned {α : Type} (items : List α) (span : Span) : Checked (List α) :=
  if span.start + span.len ≤ items.length then .ok ((items.drop span.start).take span.len) else .error .outOfBounds

def isInaccessible (federated : FederatedGraph) (directives : Span) : Checked Bool := do
  return (← spanned federated.directives directives).any fun
    | .inaccessible => true
    | _ => false

section Ids

/-- The map that leaves out the inaccessible items. -/
def skipInaccessible {α : Type} (federated : FederatedGraph) (directives : α → Span) (items : List α) : Checked IdMap :=
  items.zipIdx.foldlM (fun map entry => do
    if ← isInaccessible federated (directives entry.1) then map.skip entry.2 else return map) {}

def IdMaps.new (federated : FederatedGraph) : Checked IdMaps := do
  return {
    field := ← skipInaccessible federated (·.composedDirectives) federated.fields
    inputValue := ← skipInaccessible federated (·.directives) federated.inputValueDefinitions
    scalarIds := federated.iterScalars
    enumIds := federated.iterEnums }

def IdMaps.convertScalarId (idmaps : IdMaps) (id : FederatedGraph.TypeDefinitionId) : Checked ScalarDefinitionId :=
  match binarySearch idmaps.scalarIds id with
  | .ok index => .ok index
  | .error _ => .error (.expect "Failed to convert scalar id")

def IdMaps.convertEnumId (idmaps : IdMaps) (id : FederatedGraph.TypeDefinitionId) : Checked EnumDefinitionId :=
  match binarySearch idmaps.enumIds id with
  | .ok index => .ok index
  | .error _ => .error (.expect "Failed to convert enum id")

def IdMap.entries {α : Type} (map : IdMap) (items : List α) : Checked (List (α × Nat)) := do
  let entries ← items.zipIdx.mapM fun entry => return if ← map.contains entry.2 then some entry else none
  return entries.reduceOption

end Ids

section Ingest
variable (ctx : BuildContext) (federated : FederatedGraph)

def convertDefinition : FederatedGraph.Definition → Checked DefinitionId
  | .scalar id => .scalar <$> ctx.idmaps.convertScalarId id
  | .object id => .ok (.object id)
  | .interface id => .ok (.interface id)
  | .union id => .ok (.union id)
  | .enum id => .enum <$> ctx.idmaps.convertEnumId id
  | .inputObject id => .ok (.inputObject id)

def convertType (type : FederatedGraph.TypeRef) : Checked TypeRecord := do
  return { definitionId := ← convertDefinition ctx type.definition, wrapping := type.wrapping }

def ingestEnumValues : Checked (IdMap × List EnumValueRecord) := do
  let enumValues ← skipInaccessible federated (·.composedDirectives) federated.enumValues
  return (enumValues, (← enumValues.entries federated.enumValues).map fun entry => { nameId := entry.1.value })

def ingestEnums : Checked (List EnumDefinitionRecord) :=
  federated.iterEnums.mapM fun id => do
    let definition ← indexed federated.typeDefinitions id
    return { nameId := definition.name, valueIds := ← ctx.idmaps.enumValues.getRange (federated.enumValueRange id) }

def ingestScalars : Checked (List ScalarDefinitionRecord) :=
  federated.iterScalars.mapM fun id => do
    let definition ← indexed federated.typeDefinitions id
    return { nameId := definition.name, ty := .fromScalarName (← string ctx definition.name) }

/-- Input objects are looked up in the map of the input values. -/
def ingestInputObjects : Checked (List InputObjectDefinitionRecord) := do
  (← ctx.idmaps.inputValue.entries federated.inputObjects).mapM fun entry =>
    return { nameId := entry.1.name, inputFieldIds := ← ctx.idmaps.inputValue.getRange entry.1.fields }

/-- Coerces and stores default values once all input values are known. -/
def coerceDefaults (graph : Graph) :
    List (Nat × Value) → SchemaInputValues → Building (List (Nat × SchemaInputValueId) × SchemaInputValues)
  | [], values => .ok ([], values)
  | (index, value) :: rest, values => do
      let definition ← orPanic (indexed graph.inputValueDefinitions index)
      match (coerce ctx graph definition.tyRecord value).run values with
      | .error (.panicked panic) => .error (.panicked panic)
      | .error (.failed error) => do
          let name ← orPanic (string ctx definition.nameId)
          .error (.failed (.defaultValueCoercion name error))
      | .ok ⟨(id, values), _⟩ =>
        let (ids, values) ← coerceDefaults graph rest values
        return ((index, id) :: ids, values)

def convertInputValue (definition : FederatedGraph.InputValueDefinition Value) :
    Checked InputValueDefinitionRecord := do
  return { nameId := definition.name, tyRecord := ← convertType ctx definition.type }

def setDefault (definitions : List InputValueDefinitionRecord) (default : Nat × SchemaInputValueId) :
    List InputValueDefinitionRecord :=
  definitions.modify default.1 fun definition => { definition with defaultValueId := some default.2 }

def ingestInputValues (graph : Graph) : Building Graph := do
  let entries ← orPanic (ctx.idmaps.inputValue.entries federated.inputValueDefinitions)
  let inputValueDefinitions ← orPanic (entries.mapM fun entry => convertInputValue ctx entry.1)
  let defaultValues := entries.zipIdx.filterMap fun (entry, index) => entry.1.default.map (index, ·)
  let graph := { graph with inputValueDefinitions }
  let (defaults, inputValues) ←
    coerceDefaults ctx { graph with inputValues := {} } defaultValues graph.inputValues
  return { graph with inputValueDefinitions := defaults.foldl setDefault inputValueDefinitions, inputValues }

def ingestUnions : Checked (List UnionDefinitionRecord) :=
  federated.unions.mapM fun union => do
    let members ← union.members.filterM fun id => do
      let object ← indexed federated.objects id
      let definition ← indexed federated.typeDefinitions object.typeDefinitionId
      return !(← isInaccessible federated definition.directives)
    return { nameId := union.name, possibleTypeIds := members }

/-- The entity that each field belongs to, as far as its fields are known. -/
def assignParents (parents : List (Option Nat)) (fields : IdRange) (id : Nat) : Checked (List (Option Nat)) :=
  fields.toList.foldlM (fun parents field => assigned parents field (some id)) parents

def fieldRange (fields : FederatedGraph.Fields) : Checked IdRange :=
  ctx.idmaps.field.getRange ⟨fields.start, fields.stop - fields.start⟩

def ingestObjects : Checked (List ObjectDefinitionRecord × List (Option ObjectDefinitionId)) := do
  let parents ← federated.objects.zipIdx.foldlM
    (fun parents entry => do assignParents parents (← fieldRange ctx entry.1.fields) entry.2)
    (List.replicate federated.fields.length none)
  let objects ← federated.objects.mapM fun object => do
    let definition ← indexed federated.typeDefinitions object.typeDefinitionId
    return {
      nameId := definition.name
      interfaceIds := object.implementsInterfaces
      fieldIds := ← fieldRange ctx object.fields : ObjectDefinitionRecord }
  return (objects, parents)

def ingestInterfaces (objects : List ObjectDefinitionRecord) :
    Checked (List InterfaceDefinitionRecord × List (Option InterfaceDefinitionId)) := do
  let parents ← federated.interfaces.zipIdx.foldlM
    (fun parents entry => do assignParents parents (← fieldRange ctx entry.1.fields) entry.2)
    (List.replicate federated.fields.length none)
  let interfaces ← federated.interfaces.mapM fun interface => do
    let definition ← indexed federated.typeDefinitions interface.typeDefinitionId
    return {
      nameId := definition.name
      interfaceIds := interface.implementsInterfaces
      fieldIds := ← fieldRange ctx interface.fields : InterfaceDefinitionRecord }
  let implementations := objects.zipIdx.flatMap fun (object, objectId) => object.interfaceIds.map (·, objectId)
  let interfaces ← implementations.foldlM (fun interfaces (interfaceId, objectId) => do
    let interface ← indexed interfaces interfaceId
    assigned interfaces interfaceId { interface with possibleTypeIds := interface.possibleTypeIds ++ [objectId] })
    interfaces
  return (interfaces, parents)

/-- The parent of a field, which is an object if it is one of an object. -/
def parentEntity (objectParents : List (Option ObjectDefinitionId))
    (interfaceParents : List (Option InterfaceDefinitionId)) (id : FieldDefinitionId) : Checked EntityDefinitionId := do
  match ← indexed objectParents id with
  | some objectId => return .object objectId
  | none =>
    match ← indexed interfaceParents id with
    | some interfaceId => return .interface interfaceId
    | none => .error .unreachable

def ingestFields (objectParents : List (Option ObjectDefinitionId))
    (interfaceParents : List (Option InterfaceDefinitionId)) : Checked (List FieldDefinitionRecord) := do
  (← ctx.idmaps.field.entries federated.fields).zipIdx.mapM fun (entry, id) => do
    let parentEntityId ← parentEntity objectParents interfaceParents id
    return {
      nameId := entry.1.name
      parentEntityId
      tyRecord := ← convertType ctx entry.1.type
      argumentIds := ← ctx.idmaps.inputValue.getRange entry.1.arguments }

end Ingest
end Grafbase.Schema
