import Grafbase.Schema.Graph

/-! The introspection fields and their types.

They are added after everything else. A schema under construction carries along
that it only adds to the one it started from.
-/

set_option autoImplicit false

namespace Grafbase.Schema
open Foundation List

/-- Nothing is lost, and the objects that are new have only fields that are new. -/
structure Extends (base graph : Graph) : Prop where
  objects : base.objectDefinitions <+: graph.objectDefinitions
  interfaces : base.interfaceDefinitions = graph.interfaceDefinitions
  unions : base.unionDefinitions = graph.unionDefinitions
  scalars : base.scalarDefinitions <+: graph.scalarDefinitions
  enums : base.enumDefinitions <+: graph.enumDefinitions
  enumValues : base.enumValueDefinitions <+: graph.enumValueDefinitions
  inputObjects : base.inputObjectDefinitions = graph.inputObjectDefinitions
  inputValues : base.inputValueDefinitions <+: graph.inputValueDefinitions
  fields : base.fieldDefinitions <+: graph.fieldDefinitions
  newObjects : ∀ id object, base.objectDefinitions.length ≤ id → graph.objectDefinitions[id]? = some object →
    object.fieldIds = ⟨0, 0⟩ ∨ base.fieldDefinitions.length ≤ object.fieldIds.start

theorem Extends.refl (base : Graph) : Extends base base where
  objects := prefix_refl _
  interfaces := rfl
  unions := rfl
  scalars := prefix_refl _
  enums := prefix_refl _
  enumValues := prefix_refl _
  inputObjects := rfl
  inputValues := prefix_refl _
  fields := prefix_refl _
  newObjects id object new found := by
    rw [getElem?_eq_none new] at found
    cases found

theorem prefix_set {α : Type} {front items : List α} {index : Nat} {item : α} (isPrefix : front <+: items)
    (beyond : front.length ≤ index) : front <+: items.set index item := by
  obtain ⟨added, rfl⟩ := isPrefix
  rw [set_append_right _ _ beyond]
  exact prefix_append _ _

namespace Extends
variable {base graph : Graph}

section
variable (grown : Extends base graph)
include grown

theorem pushObject (nameId : StringId) :
    Extends base { graph with objectDefinitions := graph.objectDefinitions ++ [{ nameId, fieldIds := ⟨0, 0⟩ }] } where
  __ := grown
  objects := grown.objects.trans (prefix_append _ _)
  newObjects id object new found := by
    rcases Nat.lt_or_ge id graph.objectDefinitions.length with before | after
    · rw [getElem?_append_left before] at found
      exact grown.newObjects id object new found
    · rw [getElem?_append_right after] at found
      obtain rfl := mem_singleton.mp (mem_of_getElem? found)
      exact .inl rfl

theorem setFieldIds {id : ObjectDefinitionId} (object : ObjectDefinitionRecord)
    (fieldIds : IdRange) (new : base.objectDefinitions.length ≤ id)
    (newFields : base.fieldDefinitions.length ≤ fieldIds.start) :
    Extends base { graph with objectDefinitions := graph.objectDefinitions.set id { object with fieldIds } } where
  __ := grown
  objects := prefix_set grown.objects new
  newObjects other found isNew atOther := by
    rcases eq_or_ne id other with rfl | ne
    · rw [getElem?_set_self'] at atOther
      obtain ⟨_, _, rfl⟩ := Option.map_eq_some_iff.mp atOther
      exact .inr newFields
    · rw [getElem?_set_ne ne] at atOther
      exact grown.newObjects other found isNew atOther

theorem setField {id : FieldDefinitionId} (field : FieldDefinitionRecord)
    (new : base.fieldDefinitions.length ≤ id) :
    Extends base { graph with fieldDefinitions := graph.fieldDefinitions.set id field } where
  __ := grown
  fields := prefix_set grown.fields new

theorem pushField (field : FieldDefinitionRecord) :
    Extends base { graph with fieldDefinitions := graph.fieldDefinitions ++ [field] } where
  __ := grown
  fields := grown.fields.trans (prefix_append _ _)

theorem pushInputValue (definition : InputValueDefinitionRecord) :
    Extends base { graph with inputValueDefinitions := graph.inputValueDefinitions ++ [definition] } where
  __ := grown
  inputValues := grown.inputValues.trans (prefix_append _ _)

theorem pushScalar (scalar : ScalarDefinitionRecord) :
    Extends base { graph with scalarDefinitions := graph.scalarDefinitions ++ [scalar] } where
  __ := grown
  scalars := grown.scalars.trans (prefix_append _ _)

theorem pushEnum (definition : EnumDefinitionRecord) :
    Extends base { graph with enumDefinitions := graph.enumDefinitions ++ [definition] } where
  __ := grown
  enums := grown.enums.trans (prefix_append _ _)

theorem pushEnumValue (value : EnumValueRecord) :
    Extends base { graph with enumValueDefinitions := graph.enumValueDefinitions ++ [value] } where
  __ := grown
  enumValues := grown.enumValues.trans (prefix_append _ _)

theorem withInputValues (inputValues : SchemaInputValues) : Extends base { graph with inputValues } where
  __ := grown

end
end Extends

/-- The strings and the tables of a schema that grows. -/
structure Growing (names : List String) (base : Graph) where
  strings : List String
  graph : Graph
  named : names <+: strings
  grown : Extends base graph

abbrev NewObjectId (base : Graph) := { id : ObjectDefinitionId // base.objectDefinitions.length ≤ id }

def positionOf (strings : List String) (name : String) : List StringId → Checked (Option Nat)
  | [] => .ok none
  | nameId :: rest => do
      if (← indexed strings nameId) = name then return some 0
      return (← positionOf strings name rest).map (· + 1)

def fieldsOf (graph : Graph) (range : IdRange) : Checked (List FieldDefinitionRecord) :=
  if range.stop ≤ graph.fieldDefinitions.length then .ok (range.slice graph.fieldDefinitions) else .error .outOfBounds

def fieldNamed (strings : List String) (graph : Graph) (range : IdRange) (name : String) :
    Checked (Option FieldDefinitionId) := do
  let position ← positionOf strings name ((← fieldsOf graph range).map (·.nameId))
  return position.map (range.start + ·)

theorem fieldNamed_bounds {strings : List String} {graph : Graph} {range : IdRange} {name : String}
    {id : Nat} (found : fieldNamed strings graph range name = .ok (some id)) : range.start ≤ id ∧ id < range.stop := by
  have positions (ids : List StringId) (position : Nat) (found : positionOf strings name ids = .ok (some position)) :
      position < ids.length := by
    induction ids generalizing position with
    | nil => cases found
    | cons id rest ih =>
      obtain ⟨text, _, found⟩ := bind_eq_ok.mp found
      split at found
      · cases found
        simp
      · obtain ⟨later, laterFound, isPosition⟩ := bind_eq_ok.mp found
        obtain ⟨before, rfl, rfl⟩ := Option.map_eq_some_iff.mp (Except.ok.inj isPosition)
        have := ih before laterFound
        simpa using this
  obtain ⟨fields, isFields, found⟩ := bind_eq_ok.mp found
  obtain ⟨position, isPosition, found⟩ := bind_eq_ok.mp found
  obtain ⟨within, rfl, rfl⟩ := Option.map_eq_some_iff.mp (Except.ok.inj found)
  have bound := positions _ within isPosition
  unfold fieldsOf at isFields
  split at isFields
  · cases isFields
    simp only [IdRange.slice, length_map, length_take, length_drop] at bound
    exact ⟨Nat.le_add_right _ _, by omega⟩
  · cases isFields

section Operations
variable {names : List String} {base : Graph}

abbrev Introspecting (names : List String) (base : Graph) := StateT (Growing names base) Checked

def getOrIntern (name : String) : Introspecting names base StringId := do
  let state ← get
  if name ∈ state.strings then return state.strings.idxOf name
  else
    set { state with
      strings := state.strings ++ [name], named := state.named.trans (prefix_append _ _) : Growing names base }
    return state.strings.length

def pushEnumValue (value : EnumValueRecord) : Introspecting names base Unit :=
  modify fun state => ⟨state.strings, _, state.named, state.grown.pushEnumValue value⟩

def insertEnum (name : String) (values : List String) : Introspecting names base EnumDefinitionId := do
  let start := (← get).graph.enumValueDefinitions.length
  for value in values do
    pushEnumValue ⟨← getOrIntern value⟩
  let stop := (← get).graph.enumValueDefinitions.length
  let valueIds := if values.isEmpty then ⟨0, 0⟩ else ⟨start, stop⟩
  let nameId ← getOrIntern name
  let id := (← get).graph.enumDefinitions.length
  modify fun state => ⟨state.strings, _, state.named, state.grown.pushEnum { nameId, valueIds }⟩
  return id

def insertObject (name : String) : Introspecting names base (NewObjectId base) := do
  let nameId ← getOrIntern name
  let state ← get
  set (⟨state.strings, _, state.named, state.grown.pushObject nameId⟩ : Growing names base)
  return ⟨state.graph.objectDefinitions.length, state.grown.objects.length_le⟩

def insertObjectFields (objectId : NewObjectId base) (fields : List (String × TypeRecord)) :
    Introspecting names base Unit := do
  let before ← get
  for (name, tyRecord) in fields do
    let nameId ← getOrIntern name
    let field := { nameId, tyRecord, parentEntityId := .object objectId, argumentIds := ⟨0, 0⟩ }
    modify fun state => ⟨state.strings, _, state.named, state.grown.pushField field⟩
  let after ← get
  let object ← indexed after.graph.objectDefinitions objectId
  let fieldIds := ⟨before.graph.fieldDefinitions.length, after.graph.fieldDefinitions.length⟩
  set (⟨after.strings, _, after.named,
    after.grown.setFieldIds object fieldIds objectId.2 before.grown.fields.length_le⟩ : Growing names base)

def insertInputValue (name : String) (tyRecord : TypeRecord) (defaultValueId : Option SchemaInputValueId) :
    Introspecting names base Unit := do
  let nameId ← getOrIntern name
  modify fun state => ⟨state.strings, _, state.named, state.grown.pushInputValue { nameId, tyRecord, defaultValueId }⟩

/-- Fields of the objects that were added were added. -/
def newFieldNamed (state : Growing names base) (objectId : NewObjectId base) (name : String) :
    Checked { id : FieldDefinitionId // base.fieldDefinitions.length ≤ id } :=
  match isObject : state.graph.objectDefinitions[objectId.1]? with
  | none => .error .outOfBounds
  | some object =>
    match isField : fieldNamed state.strings state.graph object.fieldIds name with
    | .error panic => .error panic
    | .ok none => .error (.expect "field to exist")
    | .ok (some id) =>
      .ok ⟨id, by
        obtain ⟨above, below⟩ := fieldNamed_bounds isField
        rcases state.grown.newObjects objectId object objectId.2 isObject with empty | new
        · rw [empty] at below
          exact absurd below (Nat.not_lt_zero _)
        · exact new.trans above⟩

def setFieldArguments (objectId : NewObjectId base) (fieldName : String)
    (arguments : List (String × TypeRecord × Option SchemaInputValueId)) : Introspecting names base Unit := do
  let fieldId ← newFieldNamed (← get) objectId fieldName
  let start := (← get).graph.inputValueDefinitions.length
  for (name, tyRecord, defaultValueId) in arguments do
    insertInputValue name tyRecord defaultValueId
  let state ← get
  let field ← indexed state.graph.fieldDefinitions fieldId
  let argumentIds := ⟨start, state.graph.inputValueDefinitions.length⟩
  set (⟨state.strings, _, state.named, state.grown.setField { field with argumentIds } fieldId.2⟩ : Growing names base)

/-- The type of a scalar, which is added if it is missing. -/
def fieldType (scalarName : String) (scalarType : ScalarType) (wrapping : Wrapping) :
    Introspecting names base TypeRecord := do
  let state ← get
  match ← positionOf state.strings scalarName (state.graph.scalarDefinitions.map (·.nameId)) with
  | some id => return { definitionId := .scalar id, wrapping }
  | none =>
    let nameId ← getOrIntern scalarName
    let id := state.graph.scalarDefinitions.length
    modify fun state => ⟨state.strings, _, state.named, state.grown.pushScalar { nameId, ty := scalarType }⟩
    return { definitionId := .scalar id, wrapping }

def pushInputValue (value : SchemaInputValueRecord) : Introspecting names base SchemaInputValueId := do
  let state ← get
  let values := state.graph.inputValues
  set (⟨state.strings, _, state.named,
    state.grown.withInputValues { values with values := values.values ++ [value] }⟩ : Growing names base)
  return values.values.length

/-- What the introspection fields of the query type need to know. -/
structure IntrospectionTypes where
  schema : ObjectDefinitionId
  type : ObjectDefinitionId
  requiredString : TypeRecord

def insertTypes : Introspecting names base IntrospectionTypes := do
  let nullableString ← fieldType "String" .string .nullable
  let requiredString ← fieldType "String" .string .required
  let requiredBoolean ← fieldType "Boolean" .boolean .required
  let nullableBoolean ← fieldType "Boolean" .boolean .nullable
  let typeKind ← insertEnum "__TypeKind"
    ["SCALAR", "OBJECT", "INTERFACE", "UNION", "ENUM", "INPUT_OBJECT", "LIST", "NON_NULL"]
  let directiveLocation ← insertEnum "__DirectiveLocation"
    ["QUERY", "MUTATION", "SUBSCRIPTION", "FIELD", "FRAGMENT_DEFINITION", "FRAGMENT_SPREAD", "INLINE_FRAGMENT",
      "VARIABLE_DEFINITION", "SCHEMA", "SCALAR", "OBJECT", "FIELD_DEFINITION", "ARGUMENT_DEFINITION", "INTERFACE",
      "UNION", "ENUM", "ENUM_VALUE", "INPUT_OBJECT", "INPUT_FIELD_DEFINITION"]
  let requiredInRequiredList ← Wrapping.required.wrappedByRequiredList
  let requiredInNullableList ← Wrapping.required.wrappedByNullableList
  let enumValue ← insertObject "__EnumValue"
  insertObjectFields enumValue
    [("name", requiredString), ("description", nullableString), ("isDeprecated", requiredBoolean),
      ("deprecationReason", nullableString)]
  let inputValue ← insertObject "__InputValue"
  let args := { definitionId := .object inputValue, wrapping := requiredInRequiredList }
  let field ← insertObject "__Field"
  let directive ← insertObject "__Directive"
  insertObjectFields directive
    [("name", requiredString), ("description", nullableString),
      ("locations", { definitionId := .enum directiveLocation, wrapping := requiredInRequiredList }), ("args", args),
      ("isRepeatable", requiredBoolean)]
  let type ← insertObject "__Type"
  let requiredType := { definitionId := .object type, wrapping := .required }
  let nullableType := { definitionId := .object type, wrapping := .nullable }
  let requiredTypeList := { definitionId := .object type, wrapping := requiredInRequiredList }
  let nullableTypeList := { definitionId := .object type, wrapping := requiredInNullableList }
  insertObjectFields type
    [("kind", { definitionId := .enum typeKind, wrapping := .required }), ("name", nullableString),
      ("description", nullableString),
      ("inputFields", { definitionId := .object inputValue, wrapping := requiredInNullableList }),
      ("specifiedByURL", nullableString),
      ("fields", { definitionId := .object field, wrapping := requiredInNullableList }),
      ("enumValues", { definitionId := .object enumValue, wrapping := requiredInNullableList }),
      ("ofType", nullableType), ("possibleTypes", nullableTypeList), ("interfaces", nullableTypeList)]
  let defaultValue ← pushInputValue (.boolean false)
  setFieldArguments type "fields" [("includeDeprecated", nullableBoolean, some defaultValue)]
  setFieldArguments type "enumValues" [("includeDeprecated", nullableBoolean, some defaultValue)]
  insertObjectFields inputValue
    [("name", requiredString), ("description", nullableString), ("defaultValue", nullableString),
      ("type", requiredType)]
  insertObjectFields field
    [("name", requiredString), ("description", nullableString), ("args", args), ("isDeprecated", requiredBoolean),
      ("deprecationReason", nullableString), ("type", requiredType)]
  let schema ← insertObject "__Schema"
  insertObjectFields schema
    [("description", nullableString), ("types", requiredTypeList), ("queryType", requiredType),
      ("mutationType", nullableType), ("subscriptionType", nullableType),
      ("directives", { definitionId := .object directive, wrapping := requiredInRequiredList })]
  return { schema, type, requiredString }

end Operations

/-- A schema and the ids of its introspection fields. -/
structure Built where
  strings : List String
  graph : Graph
  metaFields : List FieldDefinitionId

/-- Adds the introspection types and gives the two reserved fields of the query type their types. -/
def createFieldsAndInsertThem (strings : List String) (graph : Graph) (queryId : ObjectDefinitionId) :
    Checked Built := do
  let (types, state) ← insertTypes.run ⟨strings, graph, prefix_refl _, .refl graph⟩
  let query ← indexed state.graph.objectDefinitions queryId
  let schemaField ← fieldNamed state.strings state.graph query.fieldIds "__schema"
  let typeField ← fieldNamed state.strings state.graph query.fieldIds "__type"
  match schemaField, typeField with
  | some schemaFieldId, some typeFieldId =>
    let (_, state) ← (insertInputValue "name" types.requiredString none).run state
    let argumentIds := ⟨state.graph.inputValueDefinitions.length - 1, state.graph.inputValueDefinitions.length⟩
    let fields := state.graph.fieldDefinitions
    let fields := fields.modify schemaFieldId fun field =>
      { field with tyRecord := { definitionId := .object types.schema, wrapping := .required } }
    let fields := fields.modify typeFieldId fun field =>
      { field with tyRecord := { definitionId := .object types.type, wrapping := .nullable }, argumentIds }
    return {
      strings := state.strings
      graph := { state.graph with fieldDefinitions := fields }
      metaFields := [typeFieldId, schemaFieldId] }
  | _, _ => .error (.expect "Invariant broken: missing Query.__type or Query.__schema")

end Grafbase.Schema
