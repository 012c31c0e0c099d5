import Grafbase.Foundation.Literal
import Grafbase.Wrapping

/-! Federated graphs.

The records that versions 3 and 4 have in common take what differs between
them as parameters: `ν` is the type of values and `σ` the type of field sets.
-/

set_option autoImplicit false

namespace Grafbase.FederatedGraph
open Foundation

abbrev StringId := Nat
abbrev SubgraphId := Nat
abbrev TypeDefinitionId := Nat
abbrev ObjectId := Nat
abbrev InterfaceId := Nat
abbrev UnionId := Nat
abbrev InputObjectId := Nat
abbrev FieldId := Nat
abbrev InputValueDefinitionId := Nat
abbrev EnumValueId := Nat
abbrev AuthorizedDirectiveId := Nat

/-- A start and a length in a table. -/
structure Span where
  start : Nat
  len : Nat

/-- A start and an exclusive end in the table of fields. -/
structure Fields where
  start : FieldId
  stop : FieldId

/-- Scalars and enums have tables of their own in version 3 and are type definitions in version 4. -/
inductive Definition where
  | scalar (id : Nat)
  | object (id : ObjectId)
  | interface (id : InterfaceId)
  | union (id : UnionId)
  | enum (id : Nat)
  | inputObject (id : InputObjectId)
  deriving DecidableEq

inductive TypeDefinitionKind where
  | object
  | interface
  | enum
  | union
  | scalar
  | inputObject
  deriving DecidableEq

structure TypeRef where
  wrapping : Wrapping
  definition : Definition

structure Subgraph where
  name : StringId
  url : StringId

structure RootOperationTypes where
  query : ObjectId
  mutation : Option ObjectId := none
  subscription : Option ObjectId := none

structure Key (σ : Type) where
  subgraphId : SubgraphId
  fields : σ
  isInterfaceObject : Bool
  resolvable : Bool

structure FieldProvides (σ : Type) where
  subgraphId : SubgraphId
  fields : σ

structure FieldRequires (σ : Type) where
  subgraphId : SubgraphId
  fields : σ

inductive OverrideSource where
  | subgraph (id : SubgraphId)
  | missing (name : StringId)

inductive OverrideLabel where
  | percent (percent : UInt8)
  | unknown

structure Override where
  graph : SubgraphId
  source : OverrideSource
  label : OverrideLabel

structure Field (σ : Type) where
  name : StringId
  type : TypeRef
  arguments : Span := ⟨0, 0⟩
  resolvableIn : List SubgraphId := []
  provides : List (FieldProvides σ) := []
  requires : List (FieldRequires σ) := []
  overrides : List Override := []
  composedDirectives : Span := ⟨0, 0⟩
  description : Option StringId := none

structure Union where
  name : StringId
  members : List ObjectId
  joinMembers : List (SubgraphId × ObjectId) := []
  composedDirectives : Span := ⟨0, 0⟩
  description : Option StringId := none

structure InputObject where
  name : StringId
  fields : Span
  composedDirectives : Span := ⟨0, 0⟩
  description : Option StringId := none

structure InputValueDefinition (ν : Type) where
  name : StringId
  type : TypeRef
  directives : Span := ⟨0, 0⟩
  description : Option StringId := none
  default : Option ν := none

inductive Directive (ν : Type) where
  | authenticated
  | deprecated (reason : Option StringId)
  | inaccessible
  | policy (policies : List (List StringId))
  | requiresScopes (scopes : List (List StringId))
  | other (name : StringId) (arguments : List (StringId × ν))

inductive InputValueDefinitionSet where
  | nil
  | item (inputValueDefinition : InputValueDefinitionId) (subselection rest : InputValueDefinitionSet)

structure AuthorizedDirective (σ ν : Type) where
  fields : Option σ
  node : Option σ
  arguments : Option InputValueDefinitionSet
  metadata : Option ν

/-- Values of version 4 without lists and objects. -/
inductive ValueLeaf where
  | null
  | string (id : StringId)
  | int (value : Int64)
  | float (value : Float)
  | boolean (value : Bool)
  | unboundEnumValue (id : StringId)
  | enumValue (id : EnumValueId)

abbrev Value := Literal StringId ValueLeaf

/-- The selections of a key, of `@provides`, of `@requires` or of `@authorized`, with their arguments. -/
inductive Selections (ν : Type) where
  | nil
  | field (field : FieldId) (arguments : List (InputValueDefinitionId × ν)) (subselection rest : Selections ν)
  | inlineFragment (on : Definition) (subselection rest : Selections ν)

namespace Selections
variable {ν μ : Type}

def isEmpty : Selections ν → Bool
  | .nil => true
  | _ => false

def map (change : ν → μ) : Selections ν → Selections μ
  | .nil => .nil
  | .field id arguments subselection rest =>
    .field id (arguments.map fun (argument, value) => (argument, change value)) (subselection.map change)
      (rest.map change)
  | .inlineFragment on subselection rest => .inlineFragment on (subselection.map change) (rest.map change)

end Selections

abbrev SelectionSet := Selections Value

structure TypeDefinitionRecord where
  name : StringId
  description : Option StringId := none
  directives : Span := ⟨0, 0⟩
  kind : TypeDefinitionKind

structure Object where
  typeDefinitionId : TypeDefinitionId
  implementsInterfaces : List InterfaceId := []
  joinImplements : List (SubgraphId × InterfaceId) := []
  keys : List (Key SelectionSet) := []
  fields : Fields

structure Interface where
  typeDefinitionId : TypeDefinitionId
  implementsInterfaces : List InterfaceId := []
  keys : List (Key SelectionSet) := []
  fields : Fields
  joinImplements : List (SubgraphId × InterfaceId) := []

structure EnumValueRecord where
  enumId : TypeDefinitionId
  value : StringId
  composedDirectives : Span := ⟨0, 0⟩
  description : Option StringId := none

end FederatedGraph

open FederatedGraph in
/-- The latest version, version 4. -/
structure FederatedGraph where
  subgraphs : List Subgraph := []
  rootOperationTypes : RootOperationTypes
  typeDefinitions : List TypeDefinitionRecord
  objects : List Object
  interfaces : List Interface := []
  fields : List (FederatedGraph.Field SelectionSet)
  unions : List Union := []
  inputObjects : List InputObject := []
  enumValues : List EnumValueRecord := []
  inputValueDefinitions : List (InputValueDefinition Value) := []
  strings : List String
  directives : List (Directive Value) := []
  authorizedDirectives : List (AuthorizedDirective SelectionSet Value) := []
  fieldAuthorizedDirectives : List (FieldId × AuthorizedDirectiveId) := []
  objectAuthorizedDirectives : List (ObjectId × AuthorizedDirectiveId) := []
  interfaceAuthorizedDirectives : List (InterfaceId × AuthorizedDirectiveId) := []

namespace FederatedGraph
open Foundation
variable (graph : FederatedGraph)

def iterKind (kind : TypeDefinitionKind) : List TypeDefinitionId :=
  (List.range graph.typeDefinitions.length).filter fun id =>
    (graph.typeDefinitions[id]?).any fun definition => definition.kind = kind

def iterScalars : List TypeDefinitionId := graph.iterKind .scalar
def iterEnums : List TypeDefinitionId := graph.iterKind .enum

/-- The values of an enum are next to each other, and enums are in the order of their ids. -/
def iterEnumValues (enumId : TypeDefinitionId) : List EnumValueRecord :=
  (graph.enumValues.drop (partitionPoint (fun value => value.enumId < enumId) graph.enumValues)).takeWhile
    fun value => value.enumId = enumId

def enumValueRange (enumId : TypeDefinitionId) : Span :=
  match graph.iterEnumValues enumId with
  | [] => ⟨0, 0⟩
  | _ :: rest => ⟨partitionPoint (fun value => value.enumId < enumId) graph.enumValues, rest.length + 1⟩

def describe : Definition → Option (TypeDefinitionKind × StringId)
  | .scalar id => record .scalar id
  | .object id => (graph.objects[id]?).bind fun object => record .object object.typeDefinitionId
  | .interface id => (graph.interfaces[id]?).bind fun interface => record .interface interface.typeDefinitionId
  | .union id => (graph.unions[id]?).map fun union => (.union, union.name)
  | .enum id => record .enum id
  | .inputObject id => (graph.inputObjects[id]?).map fun inputObject => (.inputObject, inputObject.name)
where
  record (kind : TypeDefinitionKind) (id : TypeDefinitionId) : Option (TypeDefinitionKind × StringId) :=
    ((graph.typeDefinitions[id]?).filter fun definition => definition.kind = kind).map fun definition =>
      (kind, definition.name)

/-- Constants with the names of enum values in place of their ids. -/
inductive Constant where
  | null
  | string (id : StringId)
  | int (value : Int64)
  | float (value : Float)
  | boolean (value : Bool)
  | enum (name : StringId)

def denoteLeaf : ValueLeaf → Option Constant
  | .null => some .null
  | .string id => some (.string id)
  | .int value => some (.int value)
  | .float value => some (.float value)
  | .boolean value => some (.boolean value)
  | .unboundEnumValue id => some (.enum id)
  | .enumValue id => (graph.enumValues[id]?).map fun value => .enum value.value

/-- What a value means, where names are known by their ids. -/
def denote (value : Value) : Literal StringId (Option Constant) := value.map graph.denoteLeaf

end FederatedGraph
end Grafbase
