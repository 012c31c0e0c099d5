import Grafbase.Schema.Ingest
import Grafbase.Schema.Introspection

/-! The schema of a federated graph.

The definitions are ingested first. The field sets that they require can only be
converted once all fields and arguments are known, and introspection comes last.
-/

set_option autoImplicit false

namespace Grafbase.Schema
open Foundation

/-- The place in the schema that requires fields. -/
inductive SchemaLocation where
  | type (name : StringId)
  | field (ty name : StringId)

def SchemaLocation.toString (ctx : BuildContext) : SchemaLocation → Checked String
  | .type name => string ctx name
  | .field ty name => return (← string ctx ty) ++ "." ++ (← string ctx name)

open FederatedGraph (SelectionSet)
variable (ctx : BuildContext) (federated : FederatedGraph)

/-- The field sets of the `@authorized` directives of a field or an object, for which the mapping is sorted. -/
def authorizedSets (mapping : List (Nat × FederatedGraph.AuthorizedDirectiveId)) (id : Nat) :
    Checked (List SelectionSet) := do
  let directives ← (mapping.filter fun entry => entry.1 = id).mapM fun entry =>
    indexed federated.authorizedDirectives entry.2
  return directives.flatMap fun directive => directive.fields.toList ++ directive.node.toList

def keySets (keys : List (FederatedGraph.Key SelectionSet)) : List SelectionSet :=
  (keys.filter fun key => key.resolvable && !key.fields.isEmpty).map (·.fields)

def entityName (graph : Graph) : EntityDefinitionId → Checked StringId
  | .object id => return (← indexed graph.objectDefinitions id).nameId
  | .interface id => return (← indexed graph.interfaceDefinitions id).nameId

/-- The field sets to convert, in the order in which they are met. -/
def requiredFieldSets (graph : Graph) : Checked (List (SchemaLocation × SelectionSet)) := do
  let ofObjects ← (federated.objects.zip graph.objectDefinitions).zipIdx.mapM fun ((object, record), id) => do
    let authorized ← authorizedSets federated federated.objectAuthorizedDirectives id
    return (authorized ++ keySets object.keys).map (SchemaLocation.type record.nameId, ·)
  let ofInterfaces := (federated.interfaces.zip graph.interfaceDefinitions).map fun (interface, record) =>
    (keySets interface.keys).map (SchemaLocation.type record.nameId, ·)
  let fields := (← ctx.idmaps.field.entries federated.fields).zip graph.fieldDefinitions
  let ofFields ← fields.mapM fun ((field, id), record) => do
    let authorized ← authorizedSets federated federated.fieldAuthorizedDirectives id
    let required := (field.requires.filter fun requires => !requires.fields.isEmpty).map (·.fields)
    let location := SchemaLocation.field (← entityName graph record.parentEntityId) record.nameId
    return (authorized ++ required).map (location, ·)
  return ofObjects.flatten ++ ofInterfaces.flatten ++ ofFields.flatten

def interned (strings : List String) : List String :=
  strings.foldl (fun known string => if string ∈ known then known else known ++ [string]) []

def ingestConfig : Building (BuildContext × Graph) := do
  let idmaps ← orPanic (IdMaps.new federated)
  let (enumValues, enumValueDefinitions) ← orPanic (ingestEnumValues federated)
  let ctx := { strings := interned federated.strings, idmaps := { idmaps with enumValues } }
  let enumDefinitions ← orPanic (ingestEnums ctx federated)
  let scalarDefinitions ← orPanic (ingestScalars ctx federated)
  let inputObjectDefinitions ← orPanic (ingestInputObjects ctx federated)
  let graph ← ingestInputValues ctx federated {
    enumValueDefinitions, enumDefinitions, scalarDefinitions, inputObjectDefinitions }
  let unionDefinitions ← orPanic (ingestUnions federated)
  let (objectDefinitions, objectParents) ← orPanic (ingestObjects ctx federated)
  let (interfaceDefinitions, interfaceParents) ← orPanic (ingestInterfaces ctx federated objectDefinitions)
  let fieldDefinitions ← orPanic (ingestFields ctx federated objectParents interfaceParents)
  return (ctx, { graph with unionDefinitions, objectDefinitions, interfaceDefinitions, fieldDefinitions })

def requiredFieldError {α : Type} : Except (Failure (String × InputValueError)) α → Building α
  | .ok value => .ok value
  | .error (.panicked panic) => .error (.panicked panic)
  | .error (.failed (location, error)) => .error (.failed (.requiredFieldArgumentCoercion location error))

def sortPossibleTypes (graph : Graph) : Graph where
  __ := graph
  interfaceDefinitions := graph.interfaceDefinitions.map fun interface =>
    { interface with possibleTypeIds := interface.possibleTypeIds.insertionSort (· ≤ ·) }
  unionDefinitions := graph.unionDefinitions.map fun union =>
    { union with possibleTypeIds := union.possibleTypeIds.insertionSort (· ≤ ·) }

def build (byKey : UnstableSort) : Building Built := do
  let (ctx, graph) ← ingestConfig federated
  let buffer ← orPanic (requiredFieldSets ctx federated graph)
  let graph ← requiredFieldError (tryInsertInto ctx graph (·.toString ctx) byKey buffer)
  let built ← orPanic (createFieldsAndInsertThem ctx.strings graph federated.rootOperationTypes.query)
  return { built with graph := sortPossibleTypes built.graph }

end Grafbase.Schema
