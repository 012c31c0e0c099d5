import Grafbase.FederatedGraph.Upgrade

/-! What a federated graph says, whatever its version.

Definitions are known by their kind and name, and constants by what they
denote. The upgrade to version 4 keeps the meaning of exactly those graphs that
stay clear of what the conversion does not carry over.
-/

set_option autoImplicit false

namespace Grafbase.FederatedGraph
open Foundation

abbrev Constants := Literal StringId (Option Constant)

structure FieldMeaning where
  name : StringId
  wrapping : Wrapping
  definition : Option (TypeDefinitionKind × StringId)
  provides : List (FieldProvides (Selections Constants))
  requires : List (FieldRequires (Selections Constants))

structure InputValueMeaning where
  name : StringId
  wrapping : Wrapping
  definition : Option (TypeDefinitionKind × StringId)
  default : Option Constants

structure EnumMeaning where
  name : Option StringId
  values : List StringId

@[ext]
structure Meaning where
  fields : List FieldMeaning
  inputValues : List InputValueMeaning
  enums : List EnumMeaning
  objectKeys : List (List (Key (Selections Constants)))
  interfaceKeys : List (List (Key (Selections Constants)))
  directives : List (Directive Constants)
  authorizedDirectives : List (AuthorizedDirective (Selections Constants) Constants)

section Maps
variable {σ τ ν μ : Type}

def Key.map (change : σ → τ) (key : Key σ) : Key τ := { key with fields := change key.fields }
def FieldProvides.map (change : σ → τ) (provides : FieldProvides σ) : FieldProvides τ :=
  { provides with fields := change provides.fields }
def FieldRequires.map (change : σ → τ) (requires : FieldRequires σ) : FieldRequires τ :=
  { requires with fields := change requires.fields }

def Directive.map (change : ν → μ) : Directive ν → Directive μ
  | .authenticated => .authenticated
  | .deprecated reason => .deprecated reason
  | .inaccessible => .inaccessible
  | .policy policies => .policy policies
  | .requiresScopes scopes => .requiresScopes scopes
  | .other name arguments => .other name (arguments.map fun (key, value) => (key, change value))

def AuthorizedDirective.map (select : σ → τ) (change : ν → μ) (directive : AuthorizedDirective σ ν) :
    AuthorizedDirective τ μ where
  fields := directive.fields.map select
  node := directive.node.map select
  arguments := directive.arguments
  metadata := directive.metadata.map change

end Maps

def meaning (graph : FederatedGraph) : Meaning where
  fields := graph.fields.map fun field => {
    name := field.name
    wrapping := field.type.wrapping
    definition := graph.describe field.type.definition
    provides := field.provides.map (·.map (·.map graph.denote))
    requires := field.requires.map (·.map (·.map graph.denote)) }
  inputValues := graph.inputValueDefinitions.map fun definition => {
    name := definition.name
    wrapping := definition.type.wrapping
    definition := graph.describe definition.type.definition
    default := definition.default.map graph.denote }
  enums := graph.iterEnums.map fun id => {
    name := (graph.typeDefinitions[id]?).map (·.name)
    values := (graph.iterEnumValues id).map (·.value) }
  objectKeys := graph.objects.map fun object => object.keys.map (·.map (·.map graph.denote))
  interfaceKeys := graph.interfaces.map fun interface => interface.keys.map (·.map (·.map graph.denote))
  directives := graph.directives.map (·.map graph.denote)
  authorizedDirectives := graph.authorizedDirectives.map (·.map (·.map graph.denote) graph.denote)

section Version3

def FieldSet.selections {μ : Type} (change : ValueV1 → μ) : FieldSet → Selections μ
  | .nil => .nil
  | .item field arguments subselection rest =>
    .field field (arguments.map fun (id, value) => (id, change value)) (subselection.selections change)
      (rest.selections change)

def FieldSet.values : FieldSet → List ValueV1
  | .nil => []
  | .item _ arguments subselection rest => arguments.map Prod.snd ++ (subselection.values ++ rest.values)

def denoteLeafV3 : ValueLeafV3 → Option Constant
  | .null => some .null
  | .string id => some (.string id)
  | .int value => some (.int value)
  | .float value => some (.float value)
  | .boolean value => some (.boolean value)
  | .enumValue id => some (.enum id)

def denoteV3 (value : ValueV3) : Constants := value.map denoteLeafV3

variable (parse : String → Option Float) (graph : FederatedGraphV3)

def denoteLeafV1 : ValueLeafV1 → Option Constant
  | .string id => some (.string id)
  | .int value => some (.int value)
  | .float text => ((graph.strings[text]?).bind parse).map .float
  | .boolean value => some (.boolean value)
  | .enumValue id => some (.enum id)

def denoteV1 (value : ValueV1) : Constants := value.map (denoteLeafV1 parse graph)

def describeV3 : Definition → Option (TypeDefinitionKind × StringId)
  | .scalar id => (graph.scalars[id]?).map fun scalar => (.scalar, scalar.name)
  | .object id => (graph.objects[id]?).map fun object => (.object, object.name)
  | .interface id => (graph.interfaces[id]?).map fun interface => (.interface, interface.name)
  | .union id => (graph.unions[id]?).map fun union => (.union, union.name)
  | .enum id => (graph.enums[id]?).map fun enum => (.enum, enum.name)
  | .inputObject id => (graph.inputObjects[id]?).map fun inputObject => (.inputObject, inputObject.name)

def meaningV3 : Meaning where
  fields := graph.fields.map fun field => {
    name := field.name
    wrapping := field.type.wrapping
    definition := describeV3 graph field.type.definition
    provides := field.provides.map (·.map (·.selections (denoteV1 parse graph)))
    requires := field.requires.map (·.map (·.selections (denoteV1 parse graph))) }
  inputValues := graph.inputValueDefinitions.map fun definition => {
    name := definition.name
    wrapping := definition.type.wrapping
    definition := describeV3 graph definition.type.definition
    default := definition.default.map denoteV3 }
  enums := graph.enums.map fun enum => {
    name := some enum.name
    values := ((graph.enumValues.drop enum.values.start).take enum.values.len).map (·.value) }
  objectKeys := graph.objects.map fun object => object.keys.map (·.map (·.selections (denoteV1 parse graph)))
  interfaceKeys := graph.interfaces.map fun interface =>
    interface.keys.map (·.map (·.selections (denoteV1 parse graph)))
  directives := graph.directives.map (·.map denoteV3)
  authorizedDirectives := graph.authorizedDirectives.map
    (·.map (·.selections (denoteV1 parse graph)) denoteV3)

/-- The field sets of keys, of `@provides`, of `@requires` and of `@authorized`. -/
def fieldSets : List FieldSet :=
  (graph.objects.flatMap fun object => object.keys.map (·.fields)) ++
  (graph.interfaces.flatMap fun interface => interface.keys.map (·.fields)) ++
  (graph.fields.flatMap fun field => field.provides.map (·.fields) ++ field.requires.map (·.fields)) ++
  (graph.authorizedDirectives.flatMap fun directive => directive.fields.toList ++ directive.node.toList)

def Directive.values {ν : Type} : Directive ν → List ν
  | .other _ arguments => arguments.map Prod.snd
  | _ => []

def constants : List ValueV3 :=
  (graph.inputValueDefinitions.flatMap fun definition => definition.default.toList) ++
  graph.directives.flatMap Directive.values ++
  (graph.authorizedDirectives.flatMap fun directive => directive.metadata.toList)

def Definition.kind : Definition → TypeDefinitionKind
  | .scalar _ => .scalar
  | .object _ => .object
  | .interface _ => .interface
  | .union _ => .union
  | .enum _ => .enum
  | .inputObject _ => .inputObject

/-- The ids that are followed to find out what a graph means. -/
structure ValidIds : Prop where
  fieldTypes : ∀ field ∈ graph.fields, (describeV3 graph field.type.definition).isSome
  inputTypes : ∀ definition ∈ graph.inputValueDefinitions, (describeV3 graph definition.type.definition).isSome
  enumValues : ∀ enum ∈ graph.enums, enum.values.start + enum.values.len ≤ graph.enumValues.length

def ValueLeafV1.isFloat : ValueLeafV1 → Bool
  | .float _ => true
  | _ => false

def ValueLeafV1.isEnumValue : ValueLeafV1 → Bool
  | .enumValue _ => true
  | _ => false

def ValueLeafV3.isEnumValue : ValueLeafV3 → Bool
  | .enumValue _ => true
  | _ => false

/-- The kinds of definitions that the upgrade finds again. -/
def Definition.IsMapped (definition : Definition) : Prop :=
  definition.kind = .scalar ∨ definition.kind = .object ∨ definition.kind = .interface

/-- Arguments in field sets have to do without floats and enum values, and all other values without enum values. -/
structure Upgradable : Prop where
  fieldTypes : ∀ field ∈ graph.fields, field.type.definition.IsMapped
  inputTypes : ∀ definition ∈ graph.inputValueDefinitions, definition.type.definition.IsMapped
  arguments : ∀ set ∈ fieldSets graph, ∀ value ∈ set.values, ∀ leaf ∈ value.leaves, ¬ leaf.isFloat ∧ ¬ leaf.isEnumValue
  constants : ∀ value ∈ constants graph, ∀ leaf ∈ value.leaves, ¬ leaf.isEnumValue

end Version3
end Grafbase.FederatedGraph
