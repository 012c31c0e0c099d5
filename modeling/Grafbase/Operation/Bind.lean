import Grafbase.Operation.Document

/-! Binding an operation to the schema.

Selections are merged by response key and field definition. Each occurrence of a
field with `@skip` or `@include`, its own or those of the fragments around it,
contributes a modifier rule. Rules are shared by all fields that have an equal
one.

The maps of the source do not say in which order they are iterated; here it is
the order of insertion. It decides on the ids of fields and selection sets and,
if there are several errors, on the one that is returned.
-/

set_option autoImplicit false

namespace Grafbase.Operation
open Foundation Response

abbrev QueryInputValueId := Nat
abbrev SelectionSetId := Nat

structure IdRange where
  start : Nat
  stop : Nat
  deriving DecidableEq

inductive QueryModifierRule where
  | authenticated
  | requiresScopes (id : RequiresScopesDirectiveId)
  | authorizedField (directiveId : AuthorizedDirectiveId) (definitionId : FieldDefinitionId) (argumentIds : IdRange)
  | authorizedDefinition (directiveId : AuthorizedDirectiveId) (definitionId : DefinitionId)
  | skipInclude (skipInputValueIds includeInputValueIds : List QueryInputValueId)
  deriving DecidableEq

inductive ResponseModifierRule where
  | authorizedParentEdge (directiveId : AuthorizedDirectiveId) (definitionId : FieldDefinitionId)
  | authorizedEdgeChild (directiveId : AuthorizedDirectiveId) (definitionId : FieldDefinitionId)
  deriving DecidableEq

structure TypeNameField where
  typeCondition : SelectionSetType
  boundResponseKey : BoundResponseKey
  location : Location
  parentSelectionSetId : SelectionSetId

structure QueryField where
  boundResponseKey : BoundResponseKey
  location : Location
  definitionId : FieldDefinitionId
  argumentIds : IdRange
  selectionSetId : Option SelectionSetId
  parentSelectionSetId : SelectionSetId

structure ExtraField where
  edge : ResponseEdge
  definitionId : FieldDefinitionId
  selectionSetId : Option SelectionSetId
  argumentIds : IdRange
  petitionerLocation : Location
  parentSelectionSetId : SelectionSetId

inductive Field where
  | typeName (field : TypeNameField)
  | query (field : QueryField)
  | extra (field : ExtraField)

namespace Field

def queryPosition : Field → Nat
  | .typeName field => field.boundResponseKey.position
  | .query field => field.boundResponseKey.position
  -- Not a position, but unique.
  | .extra field => field.edge.bits.toNat

def responseEdge : Field → ResponseEdge
  | .typeName field => ⟨field.boundResponseKey.bits⟩
  | .query field => ⟨field.boundResponseKey.bits⟩
  | .extra field => field.edge

def location : Field → Location
  | .typeName field => field.location
  | .query field => field.location
  | .extra field => field.petitionerLocation

def selectionSetId : Field → Option SelectionSetId
  | .typeName _ => none
  | .query field => field.selectionSetId
  | .extra field => field.selectionSetId

def definitionId : Field → Option FieldDefinitionId
  | .typeName _ => none
  | .query field => some field.definitionId
  | .extra field => some field.definitionId

def argumentIds : Field → IdRange
  | .typeName _ => ⟨0, 0⟩
  | .query field => field.argumentIds
  | .extra field => field.argumentIds

def parentSelectionSetId : Field → SelectionSetId
  | .typeName field => field.parentSelectionSetId
  | .query field => field.parentSelectionSetId
  | .extra field => field.parentSelectionSetId

end Field

structure Binder where
  responseKeys : List String := []
  fieldArguments : List QueryInputValueId := []
  fields : List Field := []
  selectionSets : List (List FieldId) := []
  inputValues : List QueryInputValue := []
  queryModifiers : List (QueryModifierRule × List FieldId) := []
  responseModifiers : List (ResponseModifierRule × List FieldId) := []
  /-- The occurrences merged into each query field; kept here for reference only. -/
  occurrences : List (FieldId × List Occurrence) := []

structure BindContext where
  schema : Schema
  variableDefinitions : List VariableDefinition
  fragments : List Fragment

structure ExecutableDirectives where
  skipInputValueIds : List QueryInputValueId := []
  includeInputValueIds : List QueryInputValueId := []

def ExecutableDirectives.extend (directives parent : ExecutableDirectives) : ExecutableDirectives where
  skipInputValueIds := directives.skipInputValueIds ++ parent.skipInputValueIds
  includeInputValueIds := directives.includeInputValueIds ++ parent.includeInputValueIds

structure FieldEntry where
  queryPosition : Nat
  occurrences : List Occurrence
  rules : List QueryModifierRule

structure SelectionSetBinder where
  binder : Binder
  nextQueryPosition : Nat := 0
  fields : List ((ResponseKey × FieldDefinitionId) × FieldEntry) := []
  typenameFields : List (ResponseKey × List (SelectionSetType × (Nat × Location))) := []

variable (binder : Binder)

namespace Binder

/-- The interner has no ids beyond `MAX_RESPONSE_KEY`. -/
def getOrIntern (key : String) : Except BindError (ResponseKey × Binder) :=
  match binder.responseKeys.findIdx? (· = key) with
  | some index => .ok (⟨BitVec.ofNat 32 index⟩, binder)
  | none =>
    if binder.responseKeys.length ≤ maxResponseKey.toNat then
      .ok (⟨BitVec.ofNat 32 binder.responseKeys.length⟩,
        { binder with responseKeys := binder.responseKeys ++ [key] })
    else .error (.abort (.expect "Failed to get or intern string"))

def pushValue (value : QueryInputValue) : QueryInputValueId × Binder :=
  (binder.inputValues.length, { binder with inputValues := binder.inputValues ++ [value] })

def registerFieldImpactedByQueryModifier (rule : QueryModifierRule) (fieldId : FieldId) : Binder :=
  { binder with queryModifiers := upsert rule [] (· ++ [fieldId]) binder.queryModifiers }

def registerFieldImpactedByResponseModifier (rule : ResponseModifierRule) (fieldId : FieldId) : Binder :=
  { binder with responseModifiers := upsert rule [] (· ++ [fieldId]) binder.responseModifiers }

end Binder

/-- A condition of type `Boolean!`: a literal or a variable of that type. -/
def coerceCondition (ctx : BindContext) (location : Location) : Value → Except BindError QueryInputValue
  | .boolean value => .ok (.boolean value)
  | .variable name =>
    match ctx.variableDefinitions.findIdx? (·.name = name) with
    | none => .error (.unknownVariable name location)
    | some id =>
      match ctx.variableDefinitions[id]? with
      | some definition =>
        if definition.isBoolean then .ok (.variable id) else .error (.incorrectVariableType name location)
      | none => .error (.unknownVariable name location)
  | .other _ => .error (.incorrectScalarValue location)

def bindExecutableDirectives (ctx : BindContext) :
    List Directive → Binder → Except BindError (ExecutableDirectives × Binder)
  | [], binder => .ok ({}, binder)
  | directive :: rest, binder =>
    if directive.name = "skip" ∨ directive.name = "include" then
      match directive.arguments.head? with
      | none => .error (.missingDirectiveArgument directive.name directive.name directive.location)
      | some (_, value) => do
          let value ← coerceCondition ctx directive.location value
          let (id, binder) := binder.pushValue value
          let (directives, binder) ← bindExecutableDirectives ctx rest binder
          if directive.name = "skip" then
            .ok ({ directives with skipInputValueIds := id :: directives.skipInputValueIds }, binder)
          else .ok ({ directives with includeInputValueIds := id :: directives.includeInputValueIds }, binder)
    else bindExecutableDirectives ctx rest binder

def getPossibleTypes (schema : Schema) : SelectionSetType → List ObjectDefinitionId
  | .object id => [id]
  | .interface id => schema.interfacePossibleTypeIds id
  | .union id => schema.unionPossibleTypeIds id

/-- The merge walk over two sorted lists that stops at the first common id. -/
def haveCommonType : List ObjectDefinitionId → List ObjectDefinitionId → Bool
  | [], _ => false
  | _ :: _, [] => false
  | first :: firsts, second :: seconds =>
    match compare first second with
    | .lt => haveCommonType firsts (second :: seconds)
    | .eq => true
    | .gt => haveCommonType (first :: firsts) seconds
termination_by firsts seconds => firsts.length + seconds.length

def bindSelectionSetType (ctx : BindContext) (parent : SelectionSetType) (name : String) (location : Location) :
    Except BindError SelectionSetType :=
  match ctx.schema.definitionByName name with
  | none => .error (.unknownType name location)
  | some definition =>
    match SelectionSetType.maybeFrom definition with
    | none => .error (.invalidTypeConditionTargetType name location)
    | some type =>
      if haveCommonType (getPossibleTypes ctx.schema parent) (getPossibleTypes ctx.schema type) then .ok type
      else .error (.disjointTypeCondition (ctx.schema.definitionName parent.toDefinitionId) name location)

section Register
variable (ctx : BindContext)

def fieldDefinition (parent : SelectionSetType) (name : String) (location : Location) :
    Except BindError FieldDefinitionId :=
  let unknown := Except.error (.unknownField (ctx.schema.definitionName parent.toDefinitionId) name location)
  match parent with
  | .object id => (ctx.schema.objectFieldByName id name).elim unknown .ok
  | .interface id => (ctx.schema.interfaceFieldByName id name).elim unknown .ok
  | .union id => .error (.unionHaveNoFields name (ctx.schema.definitionName (.union id)) location)

def ExecutableDirectives.rules (directives : ExecutableDirectives) : List QueryModifierRule :=
  if directives.skipInputValueIds.isEmpty && directives.includeInputValueIds.isEmpty then []
  else [.skipInclude directives.skipInputValueIds directives.includeInputValueIds]

/-- Directives come as ids, with the source text they were bound from. -/
structure Enclosing where
  directives : List Directive := []
  bound : ExecutableDirectives := {}

def registerField (parent : SelectionSetType) (enclosing : Enclosing) (location : Location)
    (responseName : Option String) (name : String) (arguments : List (String × Value)) (directives : List Directive)
    (selectionSet : List Selection) (state : SelectionSetBinder) : Except BindError SelectionSetBinder := do
  let (responseKey, binder) ← state.binder.getOrIntern (responseName.getD name)
  let queryPosition := state.nextQueryPosition
  let state := { state with binder, nextQueryPosition := queryPosition + 1 }
  if name = "__typename" then
    -- `or_insert` keeps the first field with this type condition.
    let byType := upsert parent (queryPosition, location) id
    .ok { state with typenameFields := upsert responseKey [] byType state.typenameFields }
  else
    let definitionId ← fieldDefinition ctx parent name location
    let (bound, binder) ← bindExecutableDirectives ctx directives state.binder
    let bound := bound.extend enclosing.bound
    let occurrence := ⟨location, arguments, directives, enclosing.directives, selectionSet⟩
    .ok { state with
      binder
      fields := upsert (responseKey, definitionId) ⟨queryPosition, [], []⟩ (fun entry => { entry with
        occurrences := entry.occurrences ++ [occurrence]
        rules := entry.rules ++ bound.rules }) state.fields }

def registerFragment (registerSelectionSetFields : SelectionSetType → List Selection → Enclosing →
      SelectionSetBinder → Except BindError SelectionSetBinder)
    (type : SelectionSetType) (enclosing : Enclosing) (directives : List Directive) (selectionSet : List Selection)
    (state : SelectionSetBinder) : Except BindError SelectionSetBinder := do
  let (bound, binder) ← bindExecutableDirectives ctx directives state.binder
  registerSelectionSetFields type selectionSet
    ⟨directives ++ enclosing.directives, bound.extend enclosing.bound⟩ { state with binder }

def registerSelection (registerSelectionSetFields : SelectionSetType → List Selection → Enclosing →
      SelectionSetBinder → Except BindError SelectionSetBinder)
    (parent : SelectionSetType) (enclosing : Enclosing) (state : SelectionSetBinder) :
    Selection → Except BindError SelectionSetBinder
  | .field location responseName name arguments directives selectionSet =>
    registerField ctx parent enclosing location responseName name arguments directives selectionSet state
  | .fragmentSpread location name directives =>
    match ctx.fragments.find? (·.name = name) with
    | none => .error (.unknownFragment name location)
    | some fragment => do
        let type ← bindSelectionSetType ctx parent fragment.typeCondition fragment.location
        registerFragment ctx registerSelectionSetFields type enclosing directives fragment.selectionSet state
  | .inlineFragment location typeCondition directives selectionSet => do
      let type ← match typeCondition with
        | some name => bindSelectionSetType ctx parent name location
        | none => .ok parent
      registerFragment ctx registerSelectionSetFields type enclosing directives selectionSet state

def registerSelectionSetFields : Nat → SelectionSetType → List Selection → Enclosing →
    SelectionSetBinder → Except BindError SelectionSetBinder
  | 0, _, _, _, _ => .error .fragmentCycle
  | depth + 1, parent, selectionSet, enclosing, state =>
    selectionSet.foldlM (registerSelection ctx (registerSelectionSetFields depth) parent enclosing) state

end Register

section Generate
variable (ctx : BindContext)

def Binder.generateModifiersForTypeSystemDirectives (fieldId : FieldId) (argumentIds : IdRange)
    (definitionId : FieldDefinitionId) : Except BindError Binder := do
  let binder ← (ctx.schema.fieldDirectives definitionId).foldlM (fun (binder : Binder) directive =>
    match directive with
    | .authenticated => .ok (binder.registerFieldImpactedByQueryModifier .authenticated fieldId)
    | .requiresScopes id => .ok (binder.registerFieldImpactedByQueryModifier (.requiresScopes id) fieldId)
    | .authorized _ true true => .error (.abort .unreachable)
    | .authorized id true false =>
      .ok (binder.registerFieldImpactedByResponseModifier (.authorizedParentEdge id definitionId) fieldId)
    | .authorized id false true =>
      .ok (binder.registerFieldImpactedByResponseModifier (.authorizedEdgeChild id definitionId) fieldId)
    | .authorized id false false =>
      .ok (binder.registerFieldImpactedByQueryModifier (.authorizedField id definitionId argumentIds) fieldId)
    | .other => .ok binder) binder
  let type := ctx.schema.fieldType definitionId
  (ctx.schema.definitionDirectives type).foldlM (fun (binder : Binder) directive =>
    match directive with
    | .authenticated => .ok (binder.registerFieldImpactedByQueryModifier .authenticated fieldId)
    | .requiresScopes id => .ok (binder.registerFieldImpactedByQueryModifier (.requiresScopes id) fieldId)
    | .authorized id _ _ =>
      .ok (binder.registerFieldImpactedByQueryModifier (.authorizedDefinition id type) fieldId)
    | .other => .ok binder) binder

def Binder.generateAdditionalModifiers (fieldId : FieldId) (rules : List QueryModifierRule) : Binder :=
  rules.foldl (fun binder rule => binder.registerFieldImpactedByQueryModifier rule fieldId) binder

def Binder.bindFieldArguments (definitionId : FieldDefinitionId) (location : Location)
    (arguments : List (String × Value)) : Except BindError (IdRange × Binder) :=
  match ctx.schema.coerceArguments definitionId arguments with
  | none => .error (.invalidArguments (ctx.schema.fieldName definitionId) location)
  | some values =>
    let start := binder.fieldArguments.length
    let binder := values.foldl (fun binder value =>
      let (id, binder) := binder.pushValue value
      { binder with fieldArguments := binder.fieldArguments ++ [id] }) binder
    .ok (⟨start, binder.fieldArguments.length⟩, binder)

/-- The first occurrence on the lowest line, as `min_by_key` picks it. -/
def firstOccurrence : List Occurrence → Option Occurrence
  | [] => none
  | first :: rest => some (rest.foldl (fun best occurrence =>
    if occurrence.location.line < best.location.line then occurrence else best) first)

def Binder.pushField (field : Field) : FieldId × Binder :=
  (binder.fields.length, { binder with fields := binder.fields ++ [field] })

/-- Leaves are told from the parsed selections, which are not bound for scalars and enums. -/
def checkSelectionSet (definitionId : FieldDefinitionId) (occurrence : Occurrence) : Except BindError Unit :=
  let type := ctx.schema.fieldType definitionId
  let name := ctx.schema.fieldName definitionId
  match SelectionSetType.maybeFrom type with
  | none =>
    if occurrence.selectionSet.isEmpty then .ok () else .error (.cannotHaveSelectionSet name occurrence.location)
  | some _ =>
    if occurrence.selectionSet.isEmpty then
      .error (.leafMustBeAScalarOrEnum name (ctx.schema.definitionName type) occurrence.location)
    else .ok ()

def Binder.bindField (parentSelectionSetId : SelectionSetId) (boundResponseKey : BoundResponseKey)
    (definitionId : FieldDefinitionId) (occurrence : Occurrence) (selectionSetId : Option SelectionSetId)
    (entry : FieldEntry) : Except BindError (FieldId × Binder) := do
  checkSelectionSet ctx definitionId occurrence
  let fieldId := binder.fields.length
  let (argumentIds, binder) ← binder.bindFieldArguments ctx definitionId occurrence.location occurrence.arguments
  let (_, binder) := binder.pushField (.query
    ⟨boundResponseKey, occurrence.location, definitionId, argumentIds, selectionSetId, parentSelectionSetId⟩)
  let binder ← binder.generateModifiersForTypeSystemDirectives ctx fieldId argumentIds definitionId
  let binder := binder.generateAdditionalModifiers fieldId entry.rules
  .ok (fieldId, { binder with occurrences := binder.occurrences ++ [(fieldId, entry.occurrences)] })

def bindFieldSelectionSet (bindMergedSelectionSets : SelectionSetType → List (List Selection) → Binder →
      Except BindError (SelectionSetId × Binder))
    (definitionId : FieldDefinitionId) (occurrences : List Occurrence) (binder : Binder) :
    Except BindError (Option SelectionSetId × Binder) :=
  match SelectionSetType.maybeFrom (ctx.schema.fieldType definitionId) with
  | none => .ok (none, binder)
  | some type => do
      let (selectionSetId, binder) ← bindMergedSelectionSets type (occurrences.map (·.selectionSet)) binder
      .ok (some selectionSetId, binder)

def bindQueryField
    (bindMergedSelectionSets : SelectionSetType → List (List Selection) → Binder →
      Except BindError (SelectionSetId × Binder))
    (id : SelectionSetId) (state : List FieldId × Binder)
    (field : (ResponseKey × FieldDefinitionId) × FieldEntry) : Except BindError (List FieldId × Binder) := do
  let (fieldIds, binder) := state
  let ((responseKey, definitionId), entry) := field
  match firstOccurrence entry.occurrences with
  | none => .error (.abort (.expect "At least one occurrence"))
  | some occurrence =>
    match responseKey.withPosition entry.queryPosition with
    | none => .error (.tooManyFields occurrence.location)
    | some boundResponseKey =>
      let (selectionSetId, binder) ←
        bindFieldSelectionSet ctx bindMergedSelectionSets definitionId entry.occurrences binder
      let (fieldId, binder) ← binder.bindField ctx id boundResponseKey definitionId occurrence selectionSetId entry
      .ok (fieldIds ++ [fieldId], binder)

def bindTypenameField (id : SelectionSetId) (responseKey : ResponseKey) (state : List FieldId × Binder)
    (field : SelectionSetType × (Nat × Location)) : Except BindError (List FieldId × Binder) :=
  let (fieldIds, binder) := state
  let (typeCondition, queryPosition, location) := field
  match responseKey.withPosition queryPosition with
  | none => .error (.tooManyFields location)
  | some boundResponseKey =>
    let (fieldId, binder) := binder.pushField (.typeName ⟨typeCondition, boundResponseKey, location, id⟩)
    .ok (fieldIds ++ [fieldId], binder)

/-- A typename for the type of the whole selection set is enough if it comes first. -/
def bindTypenameFields (type : SelectionSetType) (id : SelectionSetId) (state : List FieldId × Binder)
    (group : ResponseKey × List (SelectionSetType × (Nat × Location))) : Except BindError (List FieldId × Binder) :=
  let (responseKey, fields) := group
  match fields.find? (·.1 = type) with
  | some general =>
    if fields.all (general.2.1 ≤ ·.2.1) then bindTypenameField id responseKey state general
    else fields.foldlM (bindTypenameField id responseKey) state
  | none => fields.foldlM (bindTypenameField id responseKey) state

def Field.sortKey (schema : Schema) (field : Field) : Nat × Nat × Nat :=
  match field.definitionId with
  | none => (0, 0, field.queryPosition)
  | some definition =>
    let (kind, entity) := (schema.parentEntityId definition).rank
    (kind + 1, entity, field.queryPosition)

def compareKeys (first second : Nat × Nat × Nat) : Ordering :=
  (compare first.1 second.1).then ((compare first.2.1 second.2.1).then (compare first.2.2 second.2.2))

def fieldLe (schema : Schema) (binder : Binder) (first second : FieldId) : Bool :=
  let key (id : FieldId) : Nat × Nat × Nat := (binder.fields[id]?).elim (0, 0, 0) (·.sortKey schema)
  compareKeys (key first) (key second) != .gt

def bindMergedSelectionSets : Nat → SelectionSetType → List (List Selection) → Binder →
    Except BindError (SelectionSetId × Binder)
  | 0, _, _, _ => .error .fragmentCycle
  | depth + 1, type, mergedSelectionSets, binder => do
      let state ← mergedSelectionSets.foldlM (fun state selectionSet =>
        registerSelectionSetFields ctx (depth + 1) type selectionSet {} state) { binder : SelectionSetBinder }
      let id := state.binder.selectionSets.length
      let binder := { state.binder with selectionSets := state.binder.selectionSets ++ [[]] }
      let output ← state.fields.foldlM (bindQueryField ctx (bindMergedSelectionSets depth) id) ([], binder)
      let (fieldIds, binder) ← state.typenameFields.foldlM (bindTypenameFields type id) output
      let fieldIds := fieldIds.mergeSort (fieldLe ctx.schema binder)
      .ok (id, { binder with selectionSets := binder.selectionSets.set id fieldIds })

end Generate

structure QueryModifier where
  rule : QueryModifierRule
  impactedFields : List FieldId
  deriving DecidableEq

structure ResponseModifier where
  rule : ResponseModifierRule
  impactedFields : List FieldId

structure BoundOperation where
  rootSelectionSetId : SelectionSetId
  rootQueryModifierIds : List Nat
  selectionSets : List (List FieldId)
  fieldArguments : List QueryInputValueId
  responseKeys : List String
  fields : List Field
  queryInputValues : List QueryInputValue
  queryModifiers : List QueryModifier
  responseModifiers : List ResponseModifier
  /-- The occurrences merged into each query field; kept here for reference only. -/
  occurrences : List (FieldId × List Occurrence)

/-- The id of a rule of the root object, which impacts no field by itself. -/
def Binder.pushRootObjectQueryModifier (rule : QueryModifierRule) : Nat × Binder :=
  match binder.queryModifiers.findIdx? (·.1 = rule) with
  | some id => (id, binder)
  | none => (binder.queryModifiers.length, { binder with queryModifiers := binder.queryModifiers ++ [(rule, [])] })

def Binder.generateModifiersForRootObject (ctx : BindContext) (rootObjectId : ObjectDefinitionId) (binder : Binder) :
    List Nat × Binder :=
  (ctx.schema.definitionDirectives (.object rootObjectId)).foldl (fun (ids, binder) directive =>
    let push (rule : QueryModifierRule) :=
      let (id, binder) := binder.pushRootObjectQueryModifier rule
      (ids ++ [id], binder)
    match directive with
    | .authenticated => push .authenticated
    | .requiresScopes id => push (.requiresScopes id)
    | .authorized id _ _ => push (.authorizedDefinition id (.object rootObjectId))
    | .other => (ids, binder)) ([], binder)

def bindOperation (ctx : BindContext) (depth : Nat) (rootObjectId : ObjectDefinitionId)
    (selectionSet : List Selection) : Except BindError BoundOperation := do
  let (rootSelectionSetId, binder) ← bindMergedSelectionSets ctx depth (.object rootObjectId) [selectionSet] {}
  let (rootQueryModifierIds, binder) := binder.generateModifiersForRootObject ctx rootObjectId
  .ok {
    rootSelectionSetId
    rootQueryModifierIds
    selectionSets := binder.selectionSets
    fieldArguments := binder.fieldArguments
    responseKeys := binder.responseKeys
    fields := binder.fields
    queryInputValues := binder.inputValues
    queryModifiers := binder.queryModifiers.map fun modifier => ⟨modifier.1, modifier.2⟩
    responseModifiers := binder.responseModifiers.map fun modifier => ⟨modifier.1, modifier.2⟩
    occurrences := binder.occurrences }

end Grafbase.Operation
