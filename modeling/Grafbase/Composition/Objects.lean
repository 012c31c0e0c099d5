import Grafbase.Composition.Subgraphs

/-! Merging the fields of objects that several subgraphs define.

The types of a field are folded in the order of the subgraphs. A conflict is
reported between the first site and the one that could not be composed with
what the sites before it came to. Every function returns the fatal diagnostics
it pushes, in order.
-/

set_option autoImplicit false

namespace Grafbase.Composition
open Foundation

/-- Messages of fatal diagnostics, oldest first. Composition pushes no others. -/
abbrev Diagnostics := List String

section
variable {site : Type} (typeOf : site → FieldType) (composeFn : FieldType → FieldType → Option FieldType)

/-- The closure of the `try_fold` in `compose_field_types` and `compose_argument_types`, over the sites of one field
or argument. -/
def composeStep (accumulated : site × FieldType) (b : site) : Except (site × site) (site × FieldType) :=
  match composeFn accumulated.2 (typeOf b) with
  | some type => .ok (accumulated.1, type)
  | none => .error (accumulated.1, b)

def composeTypes (first : site) (rest : List site) : Except (site × site) (site × FieldType) :=
  rest.foldlM (composeStep typeOf composeFn) (first, typeOf first)

end

def composeFieldTypes (composeFn : FieldType → FieldType → Option FieldType) :
    List FieldWalker → Option FieldType × Diagnostics
  | [] => (none, [])
  | first :: rest =>
    match composeTypes FieldWalker.type composeFn first rest with
    | .ok (_, type) => (some type, [])
    | .error (a, b) => (none, ["The " ++ first.parentDefinition.definition.name ++ "." ++ first.name ++
        " field has conflicting types in different subgraphs: " ++ a.type.display ++ " in " ++ a.subgraphName ++
        " but " ++ b.type.display ++ " in " ++ b.subgraphName])

def composeInputFieldTypes (fields : List FieldWalker) : Option FieldType × Diagnostics :=
  composeFieldTypes FieldType.composeForInput fields

def composeOutputFieldTypes (fields : List FieldWalker) : Option FieldType × Diagnostics :=
  composeFieldTypes FieldType.composeForOutput fields

def composeArgumentTypes (parentDefinitionName fieldName : String) :
    List FieldArgumentWalker → Option FieldType × Diagnostics
  | [] => (none, [])
  | first :: rest =>
    match composeTypes FieldArgumentWalker.type FieldType.composeForInput first rest with
    | .ok (_, type) => (some type, [])
    | .error (a, b) => (none, ["The " ++ parentDefinitionName ++ "." ++ fieldName ++ "(" ++ a.name ++
        ":) argument has conflicting types in different subgraphs: " ++ a.type.display ++ " in " ++ a.subgraphName ++
        " but " ++ b.type.display ++ " in " ++ b.subgraphName])

variable (subgraphs : List Subgraph)

/-- `for_each_field_group`: the fields of the definitions by name. -/
def fieldGroups (definitions : List DefinitionWalker) : List (List FieldWalker) :=
  groupByRank FieldWalker.name (stringId subgraphs) (definitions.flatMap fun definition => definition.fields subgraphs)

/-- Every default that differs from the first one is reported. -/
def composeFieldArgumentDefaults (arguments : List FieldArgumentWalker) : Diagnostics :=
  match arguments.filter fun argument => argument.argument.default.isSome with
  | [] => []
  | other :: rest => rest.filterMap fun argument =>
    if argument.argument.default == other.argument.default then none
    else some ("The argument " ++ argument.field.parentDefinition.name ++ "." ++ argument.field.name ++ "." ++
      argument.name ++ " has incompatible defaults in subgraphs \"" ++ other.subgraphName ++ "\" and \"" ++
      argument.subgraphName ++ "\"")

def requiredArgumentNotInIntersectionError (fields : List FieldWalker) (requiredArg : FieldArgumentWalker)
    (parentDefinitionName fieldName argumentName : String) : String :=
  "The argument `" ++ parentDefinitionName ++ "." ++ fieldName ++ "(" ++ argumentName ++ ":)` is required in " ++
    requiredArg.subgraphName ++ " but missing in " ++
    ", ".intercalate ((fields.filter fun field => (field.argumentByName argumentName).isNone).map
      FieldWalker.subgraphName) ++ "."

/-- One round of the loop of `merge_field_arguments`, over the arguments of one name. -/
def mergeFieldArgument (first : FieldWalker) (fields : List FieldWalker) (arguments : List FieldArgumentWalker) :
    Diagnostics :=
  match arguments with
  | [] => []
  | argument :: _ =>
    let argumentName := argument.name
    let parentDefinitionName := first.parentDefinition.name
    let inIntersection := (first.argumentByName argumentName).isSome &&
      (fields.drop 1).all fun field => (field.argumentByName argumentName).isSome
    composeFieldArgumentDefaults arguments ++
      if !inIntersection then
        match arguments.find? fun argument => argument.type.isRequired with
        | some required =>
          [requiredArgumentNotInIntersectionError fields required parentDefinitionName first.name argumentName]
        | none => []
      else
        match composeArgumentTypes parentDefinitionName first.name arguments with
        | (none, conflict) => conflict
        | (some _, _) =>
          let typeIsInaccessible := arguments.any fun argument =>
            (argument.type.definition argument.field.parentDefinition.subgraph).elim false
              fun definition => definition.directives.inaccessible
          if typeIsInaccessible && !arguments.any fun argument => argument.directives.inaccessible then
            ["The argument `" ++ parentDefinitionName ++ "." ++ first.name ++ "(" ++ argumentName ++
              ":)` is of an @inaccessible type, but is itself not marked as @inaccessible."]
          else []

def mergeFieldArguments (first : FieldWalker) (fields : List FieldWalker) : Diagnostics :=
  (groupByRank FieldArgumentWalker.name (stringId subgraphs)
    (fields.flatMap fun field => field.arguments subgraphs)).flatMap
    (mergeFieldArgument first fields)

def collectOverrides (fields : List FieldWalker) : Diagnostics :=
  fields.flatMap fun field =>
    match field.directives.overrideDirective with
    | none => []
    | some override =>
      if override.source = field.subgraphName then
        ["Source and destination subgraphs \"" ++ override.source ++ "\" are the same for overridden field \"" ++
          field.parentDefinition.name ++ "." ++ field.name ++ "\""]
      else
        match fields.find? fun other => other.subgraphName = override.source with
        | some overrideSource =>
          if overrideSource.directives.overrideDirective.isSome then
            ["Field \"" ++ overrideSource.parentDefinition.name ++ "." ++ overrideSource.name ++ "\" on subgraph \"" ++
              overrideSource.subgraphName ++ "\" is also marked with directive @override in subgraph \"" ++
              field.subgraphName ++ "\". Only one @override directive is allowed per field."]
          else []
        | none => []

def composeObjectFields (objectIsShareable : Bool) (first : FieldWalker) (fields : List FieldWalker) : Diagnostics :=
  let owners := fields.filter fun field => !(field.directives.shareable || field.directives.external ||
    field.isPartOfKey || field.directives.overrideDirective.isSome)
  let name := first.parentDefinition.name ++ "." ++ first.name
  (if !objectIsShareable && owners.length > 1 then
    ["The field `" ++ first.name ++ "` on `" ++ first.parentDefinition.name ++ "` is defined in two subgraphs (`" ++
      first.subgraphName ++ "` and `" ++ (fields[1]?.elim "" FieldWalker.subgraphName) ++ "`)."]
  else []) ++
  (if fields.any fun field => !field.directives.inaccessible &&
      (field.type.definition field.parentDefinition.subgraph).elim false
        fun definition => definition.directives.inaccessible then
    ["The field `" ++ name ++
      "` is of an @inaccessible type, but is itself not marked as @inaccessible in subgraphs " ++
      ", ".intercalate ((fields.filter fun field => !field.directives.inaccessible).map FieldWalker.subgraphName)]
  else []) ++
  mergeFieldArguments subgraphs first fields ++ collectOverrides fields ++ (composeOutputFieldTypes fields).2

def validateShareableObjectFieldsMatch (definitions : List DefinitionWalker) : Diagnostics :=
  let allFields := definitions.flatMap fun definition => definition.fields subgraphs
  let inaccessibleFields := (allFields.filter fun field => field.directives.inaccessible).map FieldWalker.name
  let expected := (sortByRank id (stringId subgraphs) (allFields.map FieldWalker.name).dedup).filter
    fun name => name ∉ inaccessibleFields
  definitions.flatMap fun definition => expected.filterMap fun name =>
    if (definition.findField name).isNone then
      some ("[" ++ definition.subgraphName ++ "] The shareable object `" ++ definition.name ++ "` is missing the `" ++
        name ++ "` field defined in other subgraphs.")
    else none

def composeFieldGroups (objectIsShareable : Bool) (definitions : List DefinitionWalker) : Diagnostics :=
  (fieldGroups subgraphs definitions).flatMap fun fields =>
    match fields with
    | [] => []
    | first :: _ => composeObjectFields subgraphs objectIsShareable first fields

def mergeObjectDefinitions (first : DefinitionWalker) (definitions : List DefinitionWalker) : Diagnostics :=
  let isShareable := definitions.any fun definition => definition.directives.shareable
  match definitions.find? fun definition => definition.kind ≠ .object with
  | some incompatible =>
    ["Cannot merge " ++ first.kind.debug ++ " with " ++ incompatible.kind.debug ++ " (`" ++ first.name ++ "` in `" ++
      first.subgraphName ++ "` and `" ++ incompatible.subgraphName ++ "`)"]
  | none =>
    (if definitions.any fun definition => definition.isEntity != first.isEntity then
      ["The `" ++ first.name ++ "` object is an entity in subgraphs " ++
        ", ".intercalate ((definitions.filter fun definition => definition.isEntity).map
          DefinitionWalker.subgraphName) ++
        " but not in subgraphs " ++
        ", ".intercalate ((definitions.filter fun definition => !definition.isEntity).map
          DefinitionWalker.subgraphName) ++ "."]
    else []) ++
    (if isShareable then validateShareableObjectFieldsMatch subgraphs definitions else []) ++
    composeFieldGroups subgraphs isShareable definitions

end Grafbase.Composition
