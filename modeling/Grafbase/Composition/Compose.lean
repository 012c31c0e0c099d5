import Grafbase.Composition.Objects

/-! Merging the definitions of one name.

The merge routine is chosen from the first definition of the group. Slices of
enum values are compared by indexing the first one, which aborts when it is
too short.
-/

set_option autoImplicit false

namespace Grafbase.Composition
open Foundation
variable (subgraphs : List Subgraph) (first : DefinitionWalker) (definitions : List DefinitionWalker)

/-! ## Interfaces -/

def checkImplementers (interfaceName : String) (fieldNames : List String) : Diagnostics :=
  (implementersForInterface subgraphs interfaceName).flatMap fun implementerName =>
    fieldNames.filterMap fun fieldName =>
    if (subgraphs.filterMap fun subgraph => subgraph.definitionByName implementerName).any
        fun definition => (definition.findField fieldName).isSome then none
    else some ("The `" ++ interfaceName ++ "." ++ fieldName ++ "` field is not implemented by `" ++ implementerName ++
      "`, but it should be.")

/-- One round of the loop of `merge_interface_definitions`, over the fields of one name. -/
def mergeInterfaceField (fields : List FieldWalker) : Diagnostics :=
  match fields with
  | [] => []
  | field :: _ =>
    (if fields.any fun field => field.directives.shareable then
      ["The field " ++ first.name ++ "." ++ field.name ++
        " is marked as shareable but this is not allowed on interfaces."]
    else []) ++ (composeOutputFieldTypes fields).2

def mergeInterfaceDefinitions : Diagnostics :=
  let groups := fieldGroups subgraphs definitions
  groups.flatMap (mergeInterfaceField first) ++
    checkImplementers subgraphs first.name (groups.filterMap fun fields => fields.head?.map FieldWalker.name)

/-! ## Entity interfaces -/

/-- The checks that apply when more than one subgraph defines the interface. -/
def checkInterfaces (interfaceName : String) (interfaces : List DefinitionWalker) : Diagnostics :=
  let implementersOf (interface : DefinitionWalker) :=
    (interface.subgraph.interfaceImplementers subgraphs interfaceName).map DefinitionWalker.name
  let allImplementers := sortByRank id (stringId subgraphs) (interfaces.flatMap implementersOf).dedup
  interfaces.flatMap fun interface =>
    let missing := allImplementers.filter fun name => name ∉ implementersOf interface
    (if missing ≠ [] then
      ["[" ++ interface.subgraphName ++ "]: Interface type \"" ++ interfaceName ++
        "\" has a resolvable key in subgraph \"" ++
        interface.subgraphName ++
        "\" but that subgraph is missing some of the supergraph implementation types of \"" ++ interfaceName ++
        "\". Subgraph \"" ++ interface.subgraphName ++ "\" should define types " ++ ", ".intercalate missing ++ "."]
    else []) ++
    if interface.directives.interfaceObject then
      ["[" ++ interface.subgraphName ++ "] The @interfaceObject directive is not valid on interfaces (on `" ++
        interfaceName ++ "`)."]
    else []

/-- What is checked of an object type beside the entity interface, its fields apart. -/
def checkInterfaceObject (interfaceDef : DefinitionWalker) (expectedKey : Key) (definition : DefinitionWalker) :
    Diagnostics :=
  (if !definition.directives.interfaceObject then
    ["`" ++ definition.name ++ "` is an entity interface but the object type `" ++ definition.name ++
      "` is missing the @interfaceObject directive in the `" ++ definition.subgraphName ++ "` subgraph."]
  else []) ++
  match definition.definition.keys.head? with
  | none => ["The object type `" ++ first.name ++ "` is annotated with @interfaceObject but missing a key in the `" ++
      definition.subgraphName ++ "` subgraph."]
  | some key =>
    if key.selectionSet == expectedKey.selectionSet then []
    else ["[" ++ definition.subgraphName ++ "] The object type `" ++ definition.name ++
      "` is annotated with @interfaceObject but has a different key than the entity interface `" ++
      interfaceDef.name ++ "`."]

/-- The loop over the object types. A field whose name is already taken is not looked at. -/
def checkInterfaceObjects (first interfaceDef : DefinitionWalker) (expectedKey : Key) :
    List String → List DefinitionWalker → Diagnostics
  | _, [] => []
  | taken, definition :: rest =>
    let added := (definition.fields subgraphs).filter fun field => field.name ∉ taken
    checkInterfaceObject first interfaceDef expectedKey definition ++
      added.flatMap (fun field => collectOverrides [field]) ++
      checkInterfaceObjects first interfaceDef expectedKey (taken ++ added.map FieldWalker.name) rest

def checkImplementerKey (expectedKey : Key) (object : DefinitionWalker) : Diagnostics :=
  match object.definition.keys.head? with
  | some key =>
    if key.selectionSet == expectedKey.selectionSet then []
    else ["[" ++ object.subgraphName ++ "] The object type `" ++ object.name ++ "` implements the entity interface `" ++
      first.name ++ "` but does not have the same key. The key must match exactly."]
  | none => ["[" ++ object.subgraphName ++ "] The object type `" ++ object.name ++
      "` is annotated with @interfaceObject but missing a key."]

def mergeEntityInterfaceDefinitions : Diagnostics :=
  let interfaces := definitions.filter fun definition => definition.kind = .interface
  match interfaces with
  | [] => ["The entity interface `" ++ first.name ++ "` is not defined as an interface in any subgraph."]
  | interfaceDef :: others =>
    (if others.isEmpty then [] else checkInterfaces subgraphs first.name interfaces) ++
      match interfaceDef.definition.keys.head? with
      | none => ["The entity interface `" ++ first.name ++ "` is missing a key in the `" ++ interfaceDef.subgraphName ++
          "` subgraph."]
      | some expectedKey =>
        checkInterfaceObjects subgraphs first interfaceDef expectedKey
            (interfaceDef.definition.fields.map Field.name)
            (definitions.filter fun definition => definition.kind = .object) ++
          (interfaceDef.subgraph.interfaceImplementers subgraphs first.name).flatMap
            (checkImplementerKey first expectedKey)

/-! ## Enums -/

def allDefinitions : List DefinitionWalker :=
  subgraphs.flatMap fun subgraph => subgraph.definitions.map fun definition => ⟨subgraph, definition⟩

def enumIsUsedInInput (enumName : String) : Bool :=
  (allDefinitions subgraphs).any fun definition =>
    definition.definition.fields.any fun field =>
      field.arguments.any (fun argument => argument.type.name = enumName) ||
        (definition.kind = .inputObject && field.type.name = enumName)

def enumIsUsedInReturnPosition (enumName : String) : Bool :=
  (allDefinitions subgraphs).any fun definition =>
    (definition.kind = .object || definition.kind = .interface) &&
      definition.definition.fields.any fun field => field.type.name = enumName

/-- The values that `merge_intersection` inserts. -/
def intersectionValues : List String :=
  definitions.foldl
    (fun intersection definition => intersection.filter fun value => value ∈ definition.definition.enumValues)
    (first.enumValues subgraphs)

def mergeIntersection : Diagnostics :=
  if (intersectionValues subgraphs first definitions).isEmpty then
    ["Values for enum " ++ first.name ++ " are empty (intersection)"]
  else []

/-- `is_slice_match` from a position on. -/
def isSliceMatch (slice : List String) : Nat → List String → Checked Bool
  | index, [] => .ok (index = slice.length)
  | index, item :: rest =>
    match slice[index]? with
    | none => .error .outOfBounds
    | some expected => if expected ≠ item then .ok false else isSliceMatch slice (index + 1) rest

/-- The loop of `merge_exactly_matching`, which stops at the first definition that differs. -/
def mergeExactlyMatching : List DefinitionWalker → Checked Diagnostics
  | [] => .ok []
  | definition :: rest => do
      if ← isSliceMatch (first.enumValues subgraphs) 0 (definition.enumValues subgraphs) then
        mergeExactlyMatching rest
      else .ok ["The enum " ++ first.name ++ " should match exactly in all subgraphs, but it does not"]

def mergeEnumDefinitions : Checked Diagnostics :=
  match enumIsUsedInInput subgraphs first.name, enumIsUsedInReturnPosition subgraphs first.name with
  | true, false => .ok (mergeIntersection subgraphs first definitions)
  -- The union of the values, or nothing at all for an enum that is not used.
  | false, true => .ok []
  | true, true => mergeExactlyMatching subgraphs first definitions
  | false, false => .ok []

/-! ## Input objects -/

/-- One round of the loop of `merge_input_object_definitions`, over the fields of one name. -/
def mergeInputField (fields : List FieldWalker) : Diagnostics :=
  match fields with
  | [] => []
  | field :: _ =>
    let inIntersection := (first.findField field.name).isSome &&
      (definitions.drop 1).all fun definition => (definition.findField field.name).isSome
    if !inIntersection then
      match fields.find? fun field => field.type.isRequired with
      | some requiredField => ["The " ++ first.name ++ "." ++ requiredField.name ++
          " field is not defined in all subgraphs, but it is required in " ++ requiredField.subgraphName]
      | none => []
    else (composeInputFieldTypes fields).2

def mergeInputObjectDefinitions : Diagnostics :=
  (fieldGroups subgraphs definitions).flatMap (mergeInputField first definitions)

/-! ## All definitions -/

/-- Whether the definitions are merged as those of an entity interface. -/
def isEntityInterface : Bool :=
  first.directives.interfaceObject || (first.kind = .interface && !first.definition.keys.isEmpty)

/-- The closure of `compose_subgraphs`: what is pushed for the definitions of one name. -/
def composeGroup (definitions : List DefinitionWalker) : Checked Diagnostics :=
  match definitions with
  | [] => .ok []
  | first :: _ =>
    if isEntityInterface first then .ok (mergeEntityInterfaceDefinitions subgraphs first definitions)
    else
      match first.kind with
      | .object => .ok (mergeObjectDefinitions subgraphs first definitions)
      | .union => .ok []
      | .inputObject => .ok (mergeInputObjectDefinitions subgraphs first definitions)
      | .interface => .ok (mergeInterfaceDefinitions subgraphs first definitions)
      | .scalar => .ok []
      | .enum => mergeEnumDefinitions subgraphs first definitions

/-- `iter_definition_groups`: the definitions by name and subgraph, root types left out. -/
def definitionGroups : List (List DefinitionWalker) :=
  (groupByRank DefinitionWalker.name (stringId subgraphs) (allDefinitions subgraphs)).map fun group =>
    group.filter fun definition => !definition.subgraph.isRootType definition.name

def mergeRoot (roots : List DefinitionWalker) : Diagnostics := composeFieldGroups subgraphs false roots

def mergeRootFields : Diagnostics :=
  let rootTypes (root : Subgraph → Option String) := subgraphs.filterMap fun subgraph =>
    (root subgraph).bind subgraph.definitionByName
  let queryTypes := rootTypes Subgraph.queryType
  if queryTypes.isEmpty then ["The root `Query` object is not defined in any subgraph."]
  else mergeRoot subgraphs queryTypes ++ mergeRoot subgraphs (rootTypes Subgraph.mutationType) ++
    mergeRoot subgraphs (rootTypes Subgraph.subscriptionType)

def composeSubgraphs : Checked Diagnostics := do
  let groups ← (definitionGroups subgraphs).mapM (composeGroup subgraphs)
  return groups.flatten ++ mergeRootFields subgraphs

end Grafbase.Composition
