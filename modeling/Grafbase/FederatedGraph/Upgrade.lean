import Grafbase.FederatedGraph.Graph

/-! The conversion of federated graphs from version 3 to version 4.

Objects, interfaces, scalars and enums become type definitions, in this order.
-/

set_option autoImplicit false

namespace Grafbase.FederatedGraph
open Foundation

/-- Values of version 1, which field sets still use in version 3, without lists and objects. -/
inductive ValueLeafV1 where
  | string (id : StringId)
  | int (value : Int64)
  | float (text : StringId)
  | boolean (value : Bool)
  | enumValue (id : StringId)

abbrev ValueV1 := Literal StringId ValueLeafV1

inductive ValueLeafV3 where
  | null
  | string (id : StringId)
  | int (value : Int64)
  | float (value : Float)
  | boolean (value : Bool)
  | enumValue (id : StringId)

abbrev ValueV3 := Literal StringId ValueLeafV3

inductive FieldSet where
  | nil
  | item (field : FieldId) (arguments : List (InputValueDefinitionId × ValueV1)) (subselection rest : FieldSet)

structure ObjectV3 where
  name : StringId
  implementsInterfaces : List InterfaceId := []
  keys : List (Key FieldSet) := []
  composedDirectives : Span := ⟨0, 0⟩
  fields : Fields
  description : Option StringId := none

structure InterfaceV3 where
  name : StringId
  implementsInterfaces : List InterfaceId := []
  keys : List (Key FieldSet) := []
  composedDirectives : Span := ⟨0, 0⟩
  fields : Fields
  description : Option StringId := none

structure ScalarV3 where
  name : StringId
  composedDirectives : Span := ⟨0, 0⟩
  description : Option StringId := none

structure EnumV3 where
  name : StringId
  values : Span
  composedDirectives : Span := ⟨0, 0⟩
  description : Option StringId := none

structure EnumValueV3 where
  value : StringId
  composedDirectives : Span := ⟨0, 0⟩
  description : Option StringId := none

end FederatedGraph

open FederatedGraph in
structure FederatedGraphV3 where
  subgraphs : List Subgraph := []
  rootOperationTypes : RootOperationTypes
  objects : List ObjectV3
  interfaces : List InterfaceV3 := []
  fields : List (FederatedGraph.Field FieldSet)
  enums : List EnumV3 := []
  unions : List Union := []
  scalars : List ScalarV3 := []
  inputObjects : List InputObject := []
  enumValues : List EnumValueV3 := []
  inputValueDefinitions : List (InputValueDefinition ValueV3) := []
  strings : List String
  directives : List (Directive ValueV3) := []
  authorizedDirectives : List (AuthorizedDirective FieldSet ValueV3) := []
  fieldAuthorizedDirectives : List (FieldId × AuthorizedDirectiveId) := []
  objectAuthorizedDirectives : List (ObjectId × AuthorizedDirectiveId) := []
  interfaceAuthorizedDirectives : List (InterfaceId × AuthorizedDirectiveId) := []

namespace FederatedGraph
open Foundation
section Values

/-- The conversion of a leaf from version 1, whose floats are parsed from one of the strings. -/
def ValueLeafV3.fromV1 (parse : String → Option Float) (strings : List String) : ValueLeafV1 → Checked ValueLeafV3
  | .string id => .ok (.string id)
  | .int value => .ok (.int value)
  | .float text => do
      match parse (← indexed strings text) with
      | some value => .ok (.float value)
      | none => .error (.expect "called Result::unwrap on an Err value")
  | .boolean value => .ok (.boolean value)
  | .enumValue id => .ok (.enumValue id)

def ValueLeaf.fromV3 : ValueLeafV3 → ValueLeaf
  | .null => .null
  | .string id => .string id
  | .int value => .int value
  | .float value => .float value
  | .boolean value => .boolean value
  | .enumValue id => .string id

def valueFromV1 (parse : String → Option Float) (strings : List String) (value : ValueV1) : Checked ValueV3 :=
  value.mapM (ValueLeafV3.fromV1 parse strings)

def valueFromV3 (value : ValueV3) : Value := value.map ValueLeaf.fromV3

end Values

section Conversion
variable (parse : String → Option Float)

/-- Arguments are converted with no strings at hand. -/
def convertArguments (arguments : List (InputValueDefinitionId × ValueV1)) :
    Checked (List (InputValueDefinitionId × Value)) :=
  arguments.mapM fun (id, value) => return (id, valueFromV3 (← valueFromV1 parse [] value))

def fieldSetToSelectionSet : FieldSet → Checked SelectionSet
  | .nil => .ok .nil
  | .item field arguments subselection rest => do
      let arguments ← convertArguments parse arguments
      let subselection ← fieldSetToSelectionSet subselection
      let rest ← fieldSetToSelectionSet rest
      .ok (.field field arguments subselection rest)

def convertKeys (keys : List (Key FieldSet)) : Checked (List (Key SelectionSet)) :=
  keys.mapM fun key => return { key with fields := ← fieldSetToSelectionSet parse key.fields }

variable (graph : FederatedGraphV3)

def typeDefinitionsFrom : List TypeDefinitionRecord :=
  (graph.objects.map fun object => ⟨object.name, object.description, object.composedDirectives, .object⟩) ++
  (graph.interfaces.map fun interface =>
    ⟨interface.name, interface.description, interface.composedDirectives, .interface⟩) ++
  (graph.scalars.map fun scalar => ⟨scalar.name, scalar.description, scalar.composedDirectives, .scalar⟩) ++
  (graph.enums.map fun enum => ⟨enum.name, enum.description, enum.composedDirectives, .enum⟩)

def firstScalar : Nat := graph.objects.length + graph.interfaces.length

def firstEnum : Nat := graph.objects.length + graph.interfaces.length + graph.scalars.length

/-- The entries are inserted next to the type definitions, but none for an enum. Unions and input objects are not
visited at all. -/
def definitionsMap : List (Definition × Definition) :=
  ((List.range graph.objects.length).map fun id => (.object id, .object id)) ++
  ((List.range graph.interfaces.length).map fun id => (.interface id, .interface id)) ++
  ((List.range graph.scalars.length).map fun id => (.scalar id, .scalar (firstScalar graph + id)))

def convertType (type : TypeRef) : TypeRef where
  wrapping := type.wrapping
  definition := (((definitionsMap graph).find? (·.1 = type.definition)).map Prod.snd).getD (.scalar 0)

def convertEnumValues (enum : EnumV3) (enumId : TypeDefinitionId) : Checked (List EnumValueRecord) := do
  if graph.enumValues.length < enum.values.start + enum.values.len then .error .outOfBounds
  else
    .ok (((graph.enumValues.drop enum.values.start).take enum.values.len).map fun value =>
      { enumId, value := value.value, composedDirectives := value.composedDirectives,
        description := value.description })

def convertField (field : Field FieldSet) : Checked (Field SelectionSet) := do
  let provides ← field.provides.mapM fun provides =>
    return { provides with fields := ← fieldSetToSelectionSet parse provides.fields }
  let requires ← field.requires.mapM fun requires =>
    return { requires with fields := ← fieldSetToSelectionSet parse requires.fields }
  .ok { field with type := convertType graph field.type, provides, requires }

def convertInputValueDefinition (definition : InputValueDefinition ValueV3) : InputValueDefinition Value :=
  { definition with type := convertType graph definition.type, default := definition.default.map valueFromV3 }

def convertDirective : Directive ValueV3 → Directive Value
  | .authenticated => .authenticated
  | .deprecated reason => .deprecated reason
  | .inaccessible => .inaccessible
  | .policy policies => .policy policies
  | .requiresScopes scopes => .requiresScopes scopes
  | .other name arguments => .other name (arguments.map fun (key, value) => (key, valueFromV3 value))

def convertAuthorizedDirective (directive : AuthorizedDirective FieldSet ValueV3) :
    Checked (AuthorizedDirective SelectionSet Value) := do
  let fields ← directive.fields.mapM (fieldSetToSelectionSet parse)
  let node ← directive.node.mapM (fieldSetToSelectionSet parse)
  .ok { fields, node, arguments := directive.arguments, metadata := directive.metadata.map valueFromV3 }

def fromV3 : Checked FederatedGraph := do
  let enumValues ← (graph.enums.zipIdx (firstEnum graph)).mapM fun (enum, id) => convertEnumValues graph enum id
  let objects ← graph.objects.zipIdx.mapM fun (object, id) => return {
    typeDefinitionId := id
    implementsInterfaces := object.implementsInterfaces
    joinImplements := []
    keys := ← convertKeys parse object.keys
    fields := object.fields : Object }
  let interfaces ← (graph.interfaces.zipIdx graph.objects.length).mapM fun (interface, id) => return {
    typeDefinitionId := id
    implementsInterfaces := interface.implementsInterfaces
    keys := ← convertKeys parse interface.keys
    fields := interface.fields
    joinImplements := [] : Interface }
  let fields ← graph.fields.mapM (convertField parse graph)
  let authorizedDirectives ← graph.authorizedDirectives.mapM (convertAuthorizedDirective parse)
  .ok {
    subgraphs := graph.subgraphs
    rootOperationTypes := graph.rootOperationTypes
    typeDefinitions := typeDefinitionsFrom graph
    objects, interfaces, fields
    unions := graph.unions
    inputObjects := graph.inputObjects
    enumValues := enumValues.flatten
    inputValueDefinitions := graph.inputValueDefinitions.map (convertInputValueDefinition graph)
    strings := graph.strings
    directives := graph.directives.map convertDirective
    authorizedDirectives
    fieldAuthorizedDirectives := graph.fieldAuthorizedDirectives
    objectAuthorizedDirectives := graph.objectAuthorizedDirectives
    interfaceAuthorizedDirectives := graph.interfaceAuthorizedDirectives }

end Conversion
end FederatedGraph
end Grafbase
