import Grafbase.Schema.Build

/-! What the schema keeps of a federated graph.

Definitions are compared by their kinds and names. The two introspection fields
of the query type are only reserved in the federated graph, so that nothing is
said about their types and arguments.
-/

set_option autoImplicit false

namespace Grafbase.Schema
open Foundation List
open FederatedGraph (Value Span SelectionSet TypeDefinitionKind TypeDefinitionRecord Fields FieldId)
section Statement
variable (federated : FederatedGraph) (built : Built)

def inaccessible (directives : Span) : Bool :=
  ((federated.directives.drop directives.start).take directives.len).any fun
    | .inaccessible => true
    | _ => false

def accessible {α : Type} (directives : α → Span) (items : List α) (span : Span) : List (α × Nat) :=
  (((items.drop span.start).take span.len).zipIdx span.start).filter fun entry =>
    !inaccessible federated (directives entry.1)

def federatedName (definition : FederatedGraph.Definition) : Option (TypeDefinitionKind × String) := do
  let (kind, name) ← federated.describe definition
  return (kind, ← federated.strings[name]?)

def describe (graph : Graph) : DefinitionId → Option (TypeDefinitionKind × StringId)
  | .scalar id => (graph.scalarDefinitions[id]?).map fun definition => (.scalar, definition.nameId)
  | .object id => (graph.objectDefinitions[id]?).map fun definition => (.object, definition.nameId)
  | .interface id => (graph.interfaceDefinitions[id]?).map fun definition => (.interface, definition.nameId)
  | .union id => (graph.unionDefinitions[id]?).map fun definition => (.union, definition.nameId)
  | .enum id => (graph.enumDefinitions[id]?).map fun definition => (.enum, definition.nameId)
  | .inputObject id => (graph.inputObjectDefinitions[id]?).map fun definition => (.inputObject, definition.nameId)

def builtName (definition : DefinitionId) : Option (TypeDefinitionKind × String) := do
  let (kind, name) ← describe built.graph definition
  return (kind, ← built.strings[name]?)

def SameName (name : FederatedGraph.StringId) (nameId : StringId) : Prop :=
  ∃ text, federated.strings[name]? = some text ∧ built.strings[nameId]? = some text

def SameDefinition (definition : FederatedGraph.Definition) (definitionId : DefinitionId) : Prop :=
  ∃ described, federatedName federated definition = some described ∧ builtName built definitionId = some described

def SameType (type : FederatedGraph.TypeRef) (record : TypeRecord) : Prop :=
  record.wrapping = type.wrapping ∧ SameDefinition federated built type.definition record.definitionId

/-- An argument or input field. -/
def InputValuePreserved (entry : FederatedGraph.InputValueDefinition Value × Nat)
    (id : InputValueDefinitionId) : Prop :=
  ∃ record, built.graph.inputValueDefinitions[id]? = some record ∧
    SameName federated built entry.1.name record.nameId ∧ SameType federated built entry.1.type record.tyRecord

def EnumValuePreserved (entry : FederatedGraph.EnumValueRecord × Nat) (id : EnumValueId) : Prop :=
  ∃ record, built.graph.enumValueDefinitions[id]? = some record ∧ SameName federated built entry.1.value record.nameId

def HasField (id : FieldId) : FederatedGraph.Definition → Prop
  | .object objectId => ∃ object, federated.objects[objectId]? = some object ∧ object.fields.start ≤ id ∧
    id < object.fields.stop
  | .interface interfaceId =>
    ∃ interface, federated.interfaces[interfaceId]? = some interface ∧ interface.fields.start ≤ id ∧
      id < interface.fields.stop
  | _ => False

def EntityDefinitionId.definitionId : EntityDefinitionId → DefinitionId
  | .object id => .object id
  | .interface id => .interface id

def FieldPreserved (entry : FederatedGraph.Field SelectionSet × FieldId) (id : FieldDefinitionId) : Prop :=
  ∃ record, built.graph.fieldDefinitions[id]? = some record ∧
    SameName federated built entry.1.name record.nameId ∧
    (∃ parent, HasField federated entry.2 parent ∧ SameDefinition federated built parent
      record.parentEntityId.definitionId) ∧
    (id ∉ built.metaFields → SameType federated built entry.1.type record.tyRecord ∧
      List.Forall₂ (InputValuePreserved federated built)
        (accessible federated (·.directives) federated.inputValueDefinitions entry.1.arguments)
          record.argumentIds.toList)

def accessibleFields (fields : Fields) : List (FederatedGraph.Field SelectionSet × FieldId) :=
  accessible federated (·.composedDirectives) federated.fields ⟨fields.start, fields.stop - fields.start⟩

/-- Every definition is there with its accessible parts in order, whose types are the same. -/
structure Preserved : Prop where
  scalars : ∀ definition ∈ federated.typeDefinitions, definition.kind = .scalar →
    ∃ record ∈ built.graph.scalarDefinitions, SameName federated built definition.name record.nameId
  enums : ∀ id definition, federated.typeDefinitions[id]? = some definition → definition.kind = .enum →
    ∃ record ∈ built.graph.enumDefinitions, SameName federated built definition.name record.nameId ∧
      List.Forall₂ (EnumValuePreserved federated built)
        (federated.enumValues.zipIdx.filter fun entry =>
          entry.1.enumId = id && !inaccessible federated entry.1.composedDirectives) record.valueIds.toList
  objects : ∀ object ∈ federated.objects, ∀ definition,
    federated.typeDefinitions[object.typeDefinitionId]? = some definition →
    ∃ record ∈ built.graph.objectDefinitions, SameName federated built definition.name record.nameId ∧
      List.Forall₂ (FieldPreserved federated built) (accessibleFields federated object.fields) record.fieldIds.toList
  interfaces : ∀ interface ∈ federated.interfaces, ∀ definition,
    federated.typeDefinitions[interface.typeDefinitionId]? = some definition →
    ∃ record ∈ built.graph.interfaceDefinitions, SameName federated built definition.name record.nameId ∧
      List.Forall₂ (FieldPreserved federated built) (accessibleFields federated interface.fields) record.fieldIds.toList
  unions : ∀ union ∈ federated.unions,
    ∃ record ∈ built.graph.unionDefinitions, SameName federated built union.name record.nameId
  inputObjects : ∀ inputObject ∈ federated.inputObjects,
    ∃ record ∈ built.graph.inputObjectDefinitions, SameName federated built inputObject.name record.nameId ∧
      List.Forall₂ (InputValuePreserved federated built)
        (accessible federated (·.directives) federated.inputValueDefinitions inputObject.fields)
        record.inputFieldIds.toList

/-- A federated graph whose ids can be followed and whose strings are deduplicated. -/
structure Valid : Prop where
  strings : federated.strings.Nodup
  typeNames : ∀ definition ∈ federated.typeDefinitions, definition.name < federated.strings.length
  unionNames : ∀ union ∈ federated.unions, union.name < federated.strings.length
  inputObjectNames : ∀ inputObject ∈ federated.inputObjects, inputObject.name < federated.strings.length
  fieldNames : ∀ field ∈ federated.fields, field.name < federated.strings.length
  inputValueNames : ∀ definition ∈ federated.inputValueDefinitions, definition.name < federated.strings.length
  enumValueNames : ∀ value ∈ federated.enumValues, value.value < federated.strings.length
  fieldTypes : ∀ field ∈ federated.fields, (federated.describe field.type.definition).isSome
  inputTypes : ∀ definition ∈ federated.inputValueDefinitions, (federated.describe definition.type.definition).isSome
  objects : ∀ object ∈ federated.objects, object.fields.start ≤ object.fields.stop ∧
    object.fields.stop ≤ federated.fields.length ∧
    ∃ definition, federated.typeDefinitions[object.typeDefinitionId]? = some definition ∧ definition.kind = .object
  interfaces : ∀ interface ∈ federated.interfaces, interface.fields.start ≤ interface.fields.stop ∧
    interface.fields.stop ≤ federated.fields.length ∧
    ∃ definition, federated.typeDefinitions[interface.typeDefinitionId]? = some definition ∧
      definition.kind = .interface
  arguments : ∀ field ∈ federated.fields,
    field.arguments.start + field.arguments.len ≤ federated.inputValueDefinitions.length
  inputFields : ∀ inputObject ∈ federated.inputObjects,
    inputObject.fields.start + inputObject.fields.len ≤ federated.inputValueDefinitions.length
  enumValues : federated.enumValues.Pairwise fun first second => first.enumId ≤ second.enumId

/-- A name is the name of one definition. -/
def UniqueTypeNames : Prop :=
  ∀ first second kind otherKind name, federated.describe first = some (kind, name) →
    federated.describe second = some (otherKind, name) → first = second

/-- No input value that has the id of an input object is inaccessible. -/
def InputObjectsKept : Prop :=
  ∀ id < federated.inputObjects.length, ∀ definition, federated.inputValueDefinitions[id]? = some definition →
    inaccessible federated definition.directives = false

end Statement

section Maps
variable {federated : FederatedGraph}

theorem isInaccessible_eq_ok {directives : Span} {result : Bool}
    (ran : isInaccessible federated directives = .ok result) : inaccessible federated directives = result := by
  obtain ⟨items, isSpanned, isResult⟩ := bind_eq_ok.mp ran
  obtain ⟨_, rfl⟩ := ite_eq_ok.mp isSpanned
  cases isResult
  rfl

variable {map : IdMap} {id : Nat} {α : Type} {directives : α → Span} {items : List α}

theorem IdMap.skip_eq_ok {after : IdMap} (ran : map.skip id = .ok after) :
    after.skippedIds = map.skippedIds ++ [id] := by
  have spec := map.skip_spec id
  split at spec
  · obtain ⟨_, isAfter, same⟩ := spec
    cases ran.symm.trans isAfter
    exact same
  · cases ran.symm.trans spec

/-- A map that leaves out the inaccessible ones of some items. -/
def Skips (federated : FederatedGraph) (directives : α → Span) (items : List α) (map : IdMap) : Prop :=
  ∀ id, ¬ map.Keeps id ↔ ∃ item, items[id]? = some item ∧ inaccessible federated (directives item) = true

theorem skipInaccessible_skips
    (ran : skipInaccessible federated directives items = .ok map) : Skips federated directives items map := by
  have all (items : List α) (start : Nat) (before : IdMap)
      (ran : (items.zipIdx start).foldlM (fun map entry => do
        if ← isInaccessible federated (directives entry.1) then map.skip entry.2 else return map) before = .ok map) :
      map.skippedIds = before.skippedIds ++
        ((items.zipIdx start).filter fun entry => inaccessible federated (directives entry.1)).map (·.2) := by
    induction items generalizing start before with
    | nil =>
      cases ran
      simp
    | cons item rest ih =>
      obtain ⟨middle, stepped, ran⟩ := bind_eq_ok.mp ran
      obtain ⟨result, isResult, stepped⟩ := bind_eq_ok.mp stepped
      have same := isInaccessible_eq_ok isResult
      rw [ih (start + 1) middle ran, zipIdx_cons]
      cases result with
      | true => simp [same, IdMap.skip_eq_ok stepped]
      | false =>
        cases stepped
        simp [same]
  intro id
  rw [not_not, all items 0 {} ran]
  simp [Prod.exists, mk_mem_zipIdx_iff_getElem?]

theorem Skips.keeps_iff (skips : Skips federated directives items map) {item : α} (found : items[id]? = some item) :
    map.Keeps id ↔ inaccessible federated (directives item) = false := by
  rw [← not_iff_not, skips id, found]
  simp

theorem IdMap.entries_eq_ok {entries : List (α × Nat)} (ran : map.entries items = .ok entries) :
    entries = kept map.Keeps items := by
  obtain ⟨found, isFound, isResult⟩ := bind_eq_ok.mp ran
  cases isResult
  have same : found.map id =
      (items.zipIdx).map (Option.guard fun entry : α × Nat => decide (map.Keeps entry.2)) := by
    refine map_eq_of_mapM isFound ?_
    rintro entry - output stepped
    obtain ⟨contained, isContained, isOutput⟩ := bind_eq_ok.mp stepped
    cases isOutput
    rw [contains_eq_ok isContained, id_eq, Option.guard]
  rw [map_id] at same
  rw [same, reduceOption, filterMap_map]
  exact congrFun filterMap_eq_filter _

theorem getElem?_entries {item : α} {entries : List (α × Nat)} (ran : map.entries items = .ok entries)
    (keeps : map.Keeps id) (found : items[id]? = some item) : entries[map.rank id]? = some (item, id) := by
  rw [IdMap.entries_eq_ok ran]
  exact getElem?_kept keeps found

/-- The accessible items of a span are those of the range that it is mapped to. -/
theorem Skips.accessible
    (skips : Skips federated directives items map) (span : Span) (inside : span.start + span.len ≤ items.length) :
    List.Forall₂ (fun entry target => items[entry.2]? = some entry.1 ∧ map.Keeps entry.2 ∧ map.rank entry.2 = target)
      (accessible federated directives items span) (map.imageRange span).toList := by
  have entry_of {entry : α × Nat} (member : entry ∈ ((items.drop span.start).take span.len).zipIdx span.start) :
      items[entry.2]? = some entry.1 := by
    obtain ⟨after, found⟩ := mem_zipIdx_iff_le_and_getElem?_sub.mp member
    rw [getElem?_take] at found
    split at found
    · rwa [getElem?_drop, Nat.add_sub_cancel' after] at found
    · cases found
  have same : Schema.accessible federated directives items span =
      keptFrom map.Keeps span.start ((items.drop span.start).take span.len) := by
    refine filter_congr fun entry member => ?_
    simp [skips.keeps_iff (entry_of member)]
  have all := map.forall₂_imageRange items span inside
  rw [← same] at all
  refine (forall₂_iff_zip.mpr ⟨all.length_eq, fun {entry target} inZip => ?_⟩)
  have member : entry ∈ Schema.accessible federated directives items span := (of_mem_zip inZip).1
  exact ⟨entry_of (mem_filter.mp member).1, (forall₂_iff_zip.mp all).2 inZip⟩

end Maps

section Ingested
variable (federated : FederatedGraph) (ctx : BuildContext) (graph : Graph)

/-- What the tables hold once all definitions are ingested. -/
structure Ingested : Prop where
  strings : ctx.strings = interned federated.strings
  scalarIds : ctx.idmaps.scalarIds = federated.iterScalars
  enumIds : ctx.idmaps.enumIds = federated.iterEnums
  fieldMap : Skips federated (·.composedDirectives) federated.fields ctx.idmaps.field
  inputValueMap : Skips federated (·.directives) federated.inputValueDefinitions ctx.idmaps.inputValue
  enumValueMap : Skips federated (·.composedDirectives) federated.enumValues ctx.idmaps.enumValues
  scalars : ∀ (index : Nat) (id : Nat), federated.iterScalars[index]? = some id →
    ∃ (definition : TypeDefinitionRecord) (record : ScalarDefinitionRecord),
    federated.typeDefinitions[id]? = some definition ∧ graph.scalarDefinitions[index]? = some record ∧
      record.nameId = definition.name
  enums : ∀ (index : Nat) (id : Nat), federated.iterEnums[index]? = some id →
    ∃ (definition : TypeDefinitionRecord) (record : EnumDefinitionRecord),
    federated.typeDefinitions[id]? = some definition ∧ graph.enumDefinitions[index]? = some record ∧
      record.nameId = definition.name ∧ record.valueIds = ctx.idmaps.enumValues.imageRange (federated.enumValueRange id)
  enumValues : ∀ (id : Nat) value, federated.enumValues[id]? = some value → ctx.idmaps.enumValues.Keeps id →
    graph.enumValueDefinitions[ctx.idmaps.enumValues.rank id]? = some { nameId := value.value }
  inputObjects : graph.inputObjectDefinitions =
    (kept ctx.idmaps.inputValue.Keeps federated.inputObjects).map fun entry =>
      { nameId := entry.1.name, inputFieldIds := ctx.idmaps.inputValue.imageRange entry.1.fields }
  inputValues : ∀ (id : Nat) definition, federated.inputValueDefinitions[id]? = some definition →
    ctx.idmaps.inputValue.Keeps id → ∃ record : InputValueDefinitionRecord,
      graph.inputValueDefinitions[ctx.idmaps.inputValue.rank id]? = some record ∧ record.nameId = definition.name ∧
        convertType ctx definition.type = .ok record.tyRecord
  unions : ∀ (id : Nat) union, federated.unions[id]? = some union →
    ∃ record : UnionDefinitionRecord, graph.unionDefinitions[id]? = some record ∧ record.nameId = union.name
  objects : ∀ (id : Nat) object, federated.objects[id]? = some object →
    ∃ (definition : TypeDefinitionRecord) (record : ObjectDefinitionRecord),
    federated.typeDefinitions[object.typeDefinitionId]? = some definition ∧
      graph.objectDefinitions[id]? = some record ∧ record.nameId = definition.name ∧
      fieldRange ctx object.fields = .ok record.fieldIds
  interfaces : ∀ (id : Nat) interface, federated.interfaces[id]? = some interface →
    ∃ (definition : TypeDefinitionRecord) (record : InterfaceDefinitionRecord),
    federated.typeDefinitions[interface.typeDefinitionId]? = some definition ∧
      graph.interfaceDefinitions[id]? = some record ∧ record.nameId = definition.name ∧
      fieldRange ctx interface.fields = .ok record.fieldIds
  fields : ∀ (id : Nat) field, federated.fields[id]? = some field → ctx.idmaps.field.Keeps id →
    ∃ record : FieldDefinitionRecord,
    graph.fieldDefinitions[ctx.idmaps.field.rank id]? = some record ∧ record.nameId = field.name ∧
      convertType ctx field.type = .ok record.tyRecord ∧
      record.argumentIds = ctx.idmaps.inputValue.imageRange field.arguments ∧
      match record.parentEntityId with
      | .object objectId => HasField federated id (.object objectId)
      | .interface interfaceId => HasField federated id (.interface interfaceId)

variable {federated ctx graph}

theorem mem_fieldRange {fields : Fields} {range : IdRange} {id : Nat} (ran : fieldRange ctx fields = .ok range)
    (ordered : fields.start ≤ fields.stop) (keeps : ctx.idmaps.field.Keeps id)
    (member : ctx.idmaps.field.rank id ∈ range.toList) : fields.start ≤ id ∧ id < fields.stop := by
  rw [← (IdMap.getRange_eq_ok.mp ran).1, IdMap.imageRange, IdRange.toList, mem_range'_1,
    Nat.add_sub_cancel' ordered] at member
  obtain ⟨above, below⟩ := member
  dsimp only at above below
  constructor
  · by_contra before
    have := Nat.count_strict_mono keeps (Nat.lt_of_not_le before)
    exact absurd above (Nat.not_le.mpr this)
  · by_contra after
    have later : ctx.idmaps.field.rank fields.stop ≤ ctx.idmaps.field.rank id :=
      Nat.count_monotone ctx.idmaps.field.Keeps (Nat.le_of_not_lt after)
    omega

theorem assignParents_member {range : IdRange} {owner : Nat} {before after : List (Option Nat)}
    (ran : assignParents before range owner = .ok after) {field : Nat} {parent : Nat}
    (found : after[field]? = some (some parent)) :
    before[field]? = some (some parent) ∨ parent = owner ∧ field ∈ range.toList := by
  refine foldlM_invariant ran (fun parents => parents[field]? = some (some parent) →
    before[field]? = some (some parent) ∨ parent = owner ∧ field ∈ range.toList) .inl
    (fun assignedField member parents next known stepped isParent => ?_) found
  obtain ⟨bound, rfl⟩ := assigned_eq_ok.mp stepped
  rcases eq_or_ne assignedField field with rfl | ne
  · rw [getElem?_set_self bound] at isParent
    obtain rfl := Option.some.inj (Option.some.inj isParent)
    exact .inr ⟨rfl, member⟩
  · rw [getElem?_set_ne ne] at isParent
    exact known isParent

theorem parents_member {α : Type} (ranged : α → Checked IdRange) {owners : List α} {count : Nat}
    {parents : List (Option Nat)}
    (ran : owners.zipIdx.foldlM (fun parents entry => do assignParents parents (← ranged entry.1) entry.2)
      (List.replicate count none) = .ok parents) {field parent : Nat} (found : parents[field]? = some (some parent)) :
    ∃ owner range, owners[parent]? = some owner ∧ ranged owner = .ok range ∧ field ∈ range.toList := by
  refine foldlM_invariant ran (fun parents => ∀ parent, parents[field]? = some (some parent) →
    ∃ owner range, owners[parent]? = some owner ∧ ranged owner = .ok range ∧ field ∈ range.toList)
    (fun parent isParent => ?_) (fun entry member parents next known stepped parent isParent => ?_) parent found
  · rw [getElem?_replicate] at isParent
    split at isParent <;> cases isParent
  · obtain ⟨range, isRange, stepped⟩ := bind_eq_ok.mp stepped
    rcases assignParents_member stepped isParent with before | ⟨rfl, inRange⟩
    · exact known parent before
    · exact ⟨entry.1, range, mem_zipIdx_iff_getElem?.mp member, isRange, inRange⟩

theorem setDefaults_getElem? {definitions : List InputValueDefinitionRecord} {index : Nat}
    {record : InputValueDefinitionRecord} (defaults : List (Nat × SchemaInputValueId))
    (found : definitions[index]? = some record) :
    ∃ defaultValueId, (defaults.foldl setDefault definitions)[index]? = some { record with defaultValueId } := by
  induction defaults generalizing definitions record with
  | nil => exact ⟨record.defaultValueId, found⟩
  | cons default rest ih =>
    have stepped : ∃ defaultValueId, (setDefault definitions default)[index]? =
      some { record with defaultValueId } := by
      rw [setDefault, getElem?_modify, found]
      by_cases same : default.1 = index
      · exact ⟨some default.2, by simp [same]⟩
      · exact ⟨record.defaultValueId, by simp [same]⟩
    obtain ⟨defaultValueId, isStepped⟩ := stepped
    obtain ⟨later, isLater⟩ := ih isStepped
    exact ⟨later, isLater⟩

theorem ingestInterfaces_tables {objects : List ObjectDefinitionRecord} {interfaces : List InterfaceDefinitionRecord}
    {parents : List (Option InterfaceDefinitionId)}
    (ran : ingestInterfaces ctx federated objects = .ok (interfaces, parents)) :
    (∀ (id : Nat) interface, federated.interfaces[id]? = some interface →
      ∃ (definition : TypeDefinitionRecord) (record : InterfaceDefinitionRecord),
        federated.typeDefinitions[interface.typeDefinitionId]? = some definition ∧
          interfaces[id]? = some record ∧ record.nameId = definition.name ∧
          fieldRange ctx interface.fields = .ok record.fieldIds) ∧
      ∀ field parent, parents[field]? = some (some parent) →
        ∃ interface range, federated.interfaces[parent]? = some interface ∧
          fieldRange ctx interface.fields = .ok range ∧ field ∈ range.toList := by
  obtain ⟨assigned, isAssigned, ran⟩ := bind_eq_ok.mp ran
  obtain ⟨records, isRecords, ran⟩ := bind_eq_ok.mp ran
  obtain ⟨implemented, isImplemented, isResult⟩ := bind_eq_ok.mp ran
  cases isResult
  refine ⟨fun id interface found => ?_, fun field parent isParent => parents_member _ isAssigned isParent⟩
  obtain ⟨record, atId, step⟩ := getElem?_of_mapM isRecords found
  obtain ⟨definition, defined, step⟩ := bind_eq_ok.mp step
  obtain ⟨range, isRange, isRecord⟩ := bind_eq_ok.mp step
  cases isRecord
  -- Implementations are added without a change to anything else.
  have kept := foldlM_invariant isImplemented (fun interfaces => ∃ record : InterfaceDefinitionRecord,
    interfaces[id]? = some record ∧ record.nameId = definition.name ∧
      fieldRange ctx interface.fields = .ok record.fieldIds)
    ⟨_, atId, rfl, isRange⟩ (by
      rintro ⟨interfaceId, objectId⟩ _ interfaces next ⟨record, isHere, sameName, sameFields⟩ stepped
      obtain ⟨implementing, isImplementing, stepped⟩ := bind_eq_ok.mp stepped
      obtain ⟨bound, rfl⟩ := assigned_eq_ok.mp stepped
      rcases eq_or_ne interfaceId id with rfl | ne
      · rw [indexed_eq_ok.mp isImplementing] at isHere
        cases isHere
        exact ⟨_, getElem?_set_self bound, sameName, sameFields⟩
      · exact ⟨record, by rwa [getElem?_set_ne ne], sameName, sameFields⟩)
  obtain ⟨record, isHere, sameName, sameFields⟩ := kept
  exact ⟨definition, record, indexed_eq_ok.mp defined, isHere, sameName, sameFields⟩

theorem ingestFields_tables {objectParents : List (Option ObjectDefinitionId)}
    {interfaceParents : List (Option InterfaceDefinitionId)} {fields : List FieldDefinitionRecord}
    (ran : ingestFields ctx federated objectParents interfaceParents = .ok fields) (id : Nat)
    {field : FederatedGraph.Field SelectionSet} (found : federated.fields[id]? = some field)
    (keeps : ctx.idmaps.field.Keeps id) :
    ∃ record : FieldDefinitionRecord, fields[ctx.idmaps.field.rank id]? = some record ∧ record.nameId = field.name ∧
      convertType ctx field.type = .ok record.tyRecord ∧
      record.argumentIds = ctx.idmaps.inputValue.imageRange field.arguments ∧
      parentEntity objectParents interfaceParents (ctx.idmaps.field.rank id) = .ok record.parentEntityId := by
  obtain ⟨entries, isEntries, ran⟩ := bind_eq_ok.mp ran
  have atRank : entries.zipIdx[ctx.idmaps.field.rank id]? = some ((field, id), ctx.idmaps.field.rank id) := by
    rw [getElem?_zipIdx, getElem?_entries isEntries keeps found]
    simp
  obtain ⟨record, isHere, step⟩ := getElem?_of_mapM ran atRank
  obtain ⟨parent, isParent, step⟩ := bind_eq_ok.mp step
  obtain ⟨tyRecord, isType, step⟩ := bind_eq_ok.mp step
  obtain ⟨arguments, isArguments, isRecord⟩ := bind_eq_ok.mp step
  cases isRecord
  exact ⟨_, isHere, rfl, isType, (IdMap.getRange_eq_ok.mp isArguments).1.symm, isParent⟩

theorem ingestConfig_ingested (valid : Valid federated) (ran : ingestConfig federated = .ok (ctx, graph)) :
    Ingested federated ctx graph := by
  obtain ⟨idmaps, isIdmaps, ran⟩ := bind_eq_ok.mp ran
  obtain ⟨⟨enumValueMap, enumValues⟩, isEnumValues, ran⟩ := bind_eq_ok.mp ran
  obtain ⟨enums, isEnums, ran⟩ := bind_eq_ok.mp ran
  obtain ⟨scalars, isScalars, ran⟩ := bind_eq_ok.mp ran
  obtain ⟨inputObjects, isInputObjects, ran⟩ := bind_eq_ok.mp ran
  obtain ⟨withInputs, inputsRan, ran⟩ := bind_eq_ok.mp ran
  obtain ⟨unions, isUnions, ran⟩ := bind_eq_ok.mp ran
  obtain ⟨⟨objects, objectParents⟩, isObjects, ran⟩ := bind_eq_ok.mp ran
  obtain ⟨⟨interfaces, interfaceParents⟩, isInterfaces, ran⟩ := bind_eq_ok.mp ran
  obtain ⟨fields, isFields, isResult⟩ := bind_eq_ok.mp ran
  cases isResult
  obtain ⟨fieldMap, isFieldMap, isIdmaps⟩ := bind_eq_ok.mp (orPanic_eq_ok.mp isIdmaps)
  obtain ⟨inputValueMap, isInputValueMap, isIdmaps⟩ := bind_eq_ok.mp isIdmaps
  cases isIdmaps
  obtain ⟨skipped, isSkipped, isEnumValues⟩ := bind_eq_ok.mp (orPanic_eq_ok.mp isEnumValues)
  obtain ⟨valueEntries, areValues, isEnumValues⟩ := bind_eq_ok.mp isEnumValues
  cases isEnumValues
  obtain ⟨objectEntries, areObjects, isInputObjects⟩ := bind_eq_ok.mp (orPanic_eq_ok.mp isInputObjects)
  obtain ⟨inputEntries, areInputs, inputsRan⟩ := bind_eq_ok.mp inputsRan
  obtain ⟨converted, isConverted, inputsRan⟩ := bind_eq_ok.mp inputsRan
  obtain ⟨⟨defaults, inputValues⟩, _, isResult⟩ := bind_eq_ok.mp inputsRan
  cases isResult
  obtain ⟨assigned, isAssigned, isObjects⟩ := bind_eq_ok.mp (orPanic_eq_ok.mp isObjects)
  obtain ⟨objectRecords, isRecords, isResult⟩ := bind_eq_ok.mp isObjects
  cases isResult
  obtain ⟨interfaceTables, interfaceMembers⟩ := ingestInterfaces_tables (orPanic_eq_ok.mp isInterfaces)
  exact {
    strings := rfl
    scalarIds := rfl
    enumIds := rfl
    fieldMap := skipInaccessible_skips isFieldMap
    inputValueMap := skipInaccessible_skips isInputValueMap
    enumValueMap := skipInaccessible_skips isSkipped
    scalars := fun index id found => by
      obtain ⟨record, atIndex, step⟩ := getElem?_of_mapM (orPanic_eq_ok.mp isScalars) found
      obtain ⟨definition, defined, step⟩ := bind_eq_ok.mp step
      obtain ⟨name, _, isRecord⟩ := bind_eq_ok.mp step
      cases isRecord
      exact ⟨definition, _, indexed_eq_ok.mp defined, atIndex, rfl⟩
    enums := fun index id found => by
      obtain ⟨record, atIndex, step⟩ := getElem?_of_mapM (orPanic_eq_ok.mp isEnums) found
      obtain ⟨definition, defined, step⟩ := bind_eq_ok.mp step
      obtain ⟨range, isRange, isRecord⟩ := bind_eq_ok.mp step
      cases isRecord
      exact ⟨definition, _, indexed_eq_ok.mp defined, atIndex, rfl, (IdMap.getRange_eq_ok.mp isRange).1.symm⟩
    enumValues := fun id value found keeps => by
      rw [getElem?_map, getElem?_entries areValues keeps found]
      rfl
    inputObjects := by
      rw [← IdMap.entries_eq_ok areObjects, ← List.map_id inputObjects]
      refine map_eq_of_mapM isInputObjects fun entry _ record step => ?_
      obtain ⟨range, isRange, isRecord⟩ := bind_eq_ok.mp step
      cases isRecord
      rw [(IdMap.getRange_eq_ok.mp isRange).1, id_eq]
    inputValues := fun id definition found keeps => by
      obtain ⟨record, atRank, step⟩ :=
        getElem?_of_mapM (orPanic_eq_ok.mp isConverted) (getElem?_entries (orPanic_eq_ok.mp areInputs) keeps found)
      obtain ⟨tyRecord, isType, isRecord⟩ := bind_eq_ok.mp step
      cases isRecord
      obtain ⟨defaultValueId, isSet⟩ := setDefaults_getElem? defaults atRank
      exact ⟨_, isSet, rfl, isType⟩
    unions := fun id union found => by
      obtain ⟨record, atId, step⟩ := getElem?_of_mapM (orPanic_eq_ok.mp isUnions) found
      obtain ⟨members, _, isRecord⟩ := bind_eq_ok.mp step
      cases isRecord
      exact ⟨_, atId, rfl⟩
    objects := fun id object found => by
      obtain ⟨record, atId, step⟩ := getElem?_of_mapM isRecords found
      obtain ⟨definition, defined, step⟩ := bind_eq_ok.mp step
      obtain ⟨range, isRange, isRecord⟩ := bind_eq_ok.mp step
      cases isRecord
      exact ⟨definition, _, indexed_eq_ok.mp defined, atId, rfl, isRange⟩
    interfaces := interfaceTables
    fields := fun id field found keeps => by
      obtain ⟨record, atRank, sameName, isType, isArguments, isParent⟩ :=
        ingestFields_tables (orPanic_eq_ok.mp isFields) id found keeps
      refine ⟨record, atRank, sameName, isType, isArguments, ?_⟩
      obtain ⟨objectParent, isObjectParent, isParent⟩ := bind_eq_ok.mp isParent
      cases objectParent with
      | some objectId =>
        rw [← Except.ok.inj isParent]
        obtain ⟨object, range, isObject, isRange, member⟩ :=
          parents_member (fun object : FederatedGraph.Object => fieldRange _ object.fields) isAssigned
            (indexed_eq_ok.mp isObjectParent)
        exact ⟨object, isObject,
          mem_fieldRange isRange (valid.objects object (mem_of_getElem? isObject)).1 keeps member⟩
      | none =>
        obtain ⟨interfaceParent, isInterfaceParent, isParent⟩ := bind_eq_ok.mp isParent
        cases interfaceParent with
        | some interfaceId =>
          rw [← Except.ok.inj isParent]
          obtain ⟨interface, range, isInterface, isRange, member⟩ :=
            interfaceMembers _ _ (indexed_eq_ok.mp isInterfaceParent)
          exact ⟨interface, isInterface,
            mem_fieldRange isRange (valid.interfaces interface (mem_of_getElem? isInterface)).1 keeps member⟩
        | none => cases isParent }

end Ingested

section Finalized

/-- What the last steps of a build leave as it is. -/
structure Carried (strings : List String) (graph : Graph) (built : Built) : Prop where
  strings : strings <+: built.strings
  scalars : graph.scalarDefinitions <+: built.graph.scalarDefinitions
  enums : graph.enumDefinitions <+: built.graph.enumDefinitions
  enumValues : graph.enumValueDefinitions <+: built.graph.enumValueDefinitions
  inputValues : graph.inputValueDefinitions <+: built.graph.inputValueDefinitions
  inputObjects : graph.inputObjectDefinitions = built.graph.inputObjectDefinitions
  objects : graph.objectDefinitions <+: built.graph.objectDefinitions
  unions : ∀ (id : Nat) record, graph.unionDefinitions[id]? = some record → ∃ after : UnionDefinitionRecord,
    built.graph.unionDefinitions[id]? = some after ∧ after.nameId = record.nameId
  interfaces : ∀ (id : Nat) record, graph.interfaceDefinitions[id]? = some record → ∃ after : InterfaceDefinitionRecord,
    built.graph.interfaceDefinitions[id]? = some after ∧ after.nameId = record.nameId ∧ after.fieldIds = record.fieldIds
  fields : ∀ (id : Nat) record, graph.fieldDefinitions[id]? = some record → ∃ after : FieldDefinitionRecord,
    built.graph.fieldDefinitions[id]? = some after ∧ after.nameId = record.nameId ∧
      after.parentEntityId = record.parentEntityId ∧ (id ∉ built.metaFields → after = record)

variable {built : Built}

theorem createFieldsAndInsertThem_carried {strings : List String} {graph : Graph} {queryId : ObjectDefinitionId}
    (ran : createFieldsAndInsertThem strings graph queryId = .ok built) :
    Carried strings graph { built with graph := sortPossibleTypes built.graph } := by
  obtain ⟨⟨types, inserted⟩, _, ran⟩ := bind_eq_ok.mp ran
  obtain ⟨query, _, ran⟩ := bind_eq_ok.mp ran
  obtain ⟨schemaField, _, ran⟩ := bind_eq_ok.mp ran
  obtain ⟨typeField, _, ran⟩ := bind_eq_ok.mp ran
  split at ran
  · next schemaFieldId typeFieldId =>
    obtain ⟨⟨_, state⟩, _, isBuilt⟩ := bind_eq_ok.mp ran
    cases isBuilt
    have grown := state.grown
    exact {
      strings := state.named
      scalars := grown.scalars
      enums := grown.enums
      enumValues := grown.enumValues
      inputValues := grown.inputValues
      inputObjects := grown.inputObjects
      objects := grown.objects
      unions := fun id record found => by
        rw [grown.unions] at found
        refine ⟨{ record with possibleTypeIds := record.possibleTypeIds.insertionSort (· ≤ ·) }, ?_, rfl⟩
        rw [sortPossibleTypes, getElem?_map, found, Option.map_some]
      interfaces := fun id record found => by
        rw [grown.interfaces] at found
        refine ⟨{ record with possibleTypeIds := record.possibleTypeIds.insertionSort (· ≤ ·) }, ?_, rfl, rfl⟩
        rw [sortPossibleTypes, getElem?_map, found, Option.map_some]
      fields := fun id record found => by
        have here := getElem?_of_front grown.fields found
        simp only [sortPossibleTypes, getElem?_modify, here]
        refine ⟨_, rfl, ?_, ?_, fun other => ?_⟩
        · split <;> split <;> rfl
        · split <;> split <;> rfl
        · simp only [mem_cons, not_mem_nil, or_false, not_or] at other
          simp only [if_neg (Ne.symm other.1), if_neg (Ne.symm other.2)] }
  · cases ran

theorem build_ingested {federated : FederatedGraph} {byKey : UnstableSort} (valid : Valid federated)
    (ran : build federated byKey = .ok built) :
    ∃ ctx graph, Ingested federated ctx graph ∧ Carried ctx.strings graph built := by
  obtain ⟨⟨ctx, graph⟩, ingested, ran⟩ := bind_eq_ok.mp ran
  obtain ⟨buffer, _, ran⟩ := bind_eq_ok.mp ran
  obtain ⟨required, isRequired, ran⟩ := bind_eq_ok.mp ran
  obtain ⟨introspected, isIntrospected, isBuilt⟩ := bind_eq_ok.mp ran
  cases isBuilt
  have carried := createFieldsAndInsertThem_carried (orPanic_eq_ok.mp isIntrospected)
  refine ⟨ctx, graph, ingestConfig_ingested valid ingested, ?_⟩
  -- Converting the required field sets adds tables of its own.
  have sameTables : ∃ requiredFields requiredFieldSets inputValues,
      required = { graph with requiredFields, requiredFieldSets, inputValues } := by
    unfold requiredFieldError at isRequired
    split at isRequired
    · next inserted =>
      cases isRequired
      obtain ⟨_, _, isInserted⟩ := bind_eq_ok.mp inserted
      cases isInserted
      exact ⟨_, _, _, rfl⟩
    · cases isRequired
    · cases isRequired
  obtain ⟨_, _, _, rfl⟩ := sameTables
  exact { carried with }

end Finalized

section Preservation
variable {federated : FederatedGraph} {ctx : BuildContext} {graph : Graph} {built : Built}

theorem interned_eq_self {strings : List String} (distinct : strings.Nodup) : interned strings = strings := by
  have all (known : List String) (fresh : (known ++ strings).Nodup) :
      strings.foldl (fun known string => if string ∈ known then known else known ++ [string]) known =
        known ++ strings := by
    induction strings generalizing known with
    | nil => simp
    | cons string rest ih =>
      have new : string ∉ known := fun member =>
        (nodup_append.mp fresh).2.2 string member string mem_cons_self rfl
      rw [foldl_cons, if_neg new, ih (nodup_cons.mp distinct).2 (known ++ [string]) (by simpa using fresh)]
      simp
  exact (all [] (by simpa using distinct)).trans (nil_append _)

variable {definition : FederatedGraph.Definition} {kind : TypeDefinitionKind}

theorem sameDefinition_of_described {definitionId : DefinitionId} {name : Nat}
    (described : federated.describe definition = some (kind, name))
    (isBuilt : describe built.graph definitionId = some (kind, name)) (same : SameName federated built name name) :
    SameDefinition federated built definition definitionId := by
  obtain ⟨text, isText, isBuiltText⟩ := same
  exact ⟨(kind, text), by simp [federatedName, described, isText], by simp [builtName, isBuilt, isBuiltText]⟩

theorem describe_record_eq_some {other : TypeDefinitionKind} {id name : Nat}
    (isDescribed : FederatedGraph.describe.record federated kind id = some (other, name)) :
    ∃ definition, federated.typeDefinitions[id]? = some definition ∧ other = kind ∧ name = definition.name := by
  obtain ⟨definition, isFiltered, same⟩ := Option.map_eq_some_iff.mp isDescribed
  cases same
  exact ⟨definition, (Option.filter_eq_some_iff.mp isFiltered).1, rfl, rfl⟩

theorem inputObjects_of_kept (ingested : Ingested federated ctx graph) (accessible : InputObjectsKept federated) :
    graph.inputObjectDefinitions = federated.inputObjects.map fun inputObject =>
      { nameId := inputObject.name, inputFieldIds := ctx.idmaps.inputValue.imageRange inputObject.fields } := by
  have all : kept ctx.idmaps.inputValue.Keeps federated.inputObjects = federated.inputObjects.zipIdx := by
    refine filter_eq_self.mpr fun entry member => ?_
    rw [decide_eq_true_eq]
    refine not_not.mp fun skipped => ?_
    obtain ⟨definition, found, hidden⟩ := (ingested.inputValueMap entry.2).mp skipped
    have bound := index_lt (List.mem_zipIdx_iff_getElem?.mp member)
    exact Bool.eq_false_iff.mp (accessible entry.2 bound definition found) hidden
  rw [ingested.inputObjects, all]
  conv_rhs => rw [← zipIdx_map_fst 0 federated.inputObjects, map_map]
  rfl

theorem enumValueRange_entries (valid : Valid federated) (id : Nat) :
    let span := federated.enumValueRange id
    span.start + span.len ≤ federated.enumValues.length ∧
      ((federated.enumValues.drop span.start).take span.len).zipIdx span.start =
        federated.enumValues.zipIdx.filter fun entry => entry.1.enumId = id := by
  have bound := partitionPoint_le_length (fun value => decide (value.enumId < id)) federated.enumValues
  have entries : federated.enumValues.zipIdx.filter (fun entry => entry.1.enumId = id) =
      (federated.iterEnumValues id).zipIdx (partitionPoint (fun value => value.enumId < id) federated.enumValues) :=
    (rowsOf_eq valid.enumValues id).symm
  have isPrefix : federated.iterEnumValues id <+:
      federated.enumValues.drop (partitionPoint (fun value => value.enumId < id) federated.enumValues) :=
    takeWhile_prefix _
  rw [entries, FederatedGraph.enumValueRange]
  cases values : federated.iterEnumValues id with
  | nil => simp
  | cons first rest =>
    rw [values] at isPrefix
    have fits := isPrefix.length_le
    rw [length_drop, length_cons] at fits
    dsimp only
    exact ⟨by omega, by rw [← length_cons (a := first), ← prefix_iff_eq_take.mp isPrefix]⟩

theorem mem_iterKind {id : Nat} {definition : TypeDefinitionRecord}
    (found : federated.typeDefinitions[id]? = some definition) (isKind : definition.kind = kind) :
    ∃ index : Nat, (federated.iterKind kind)[index]? = some id := by
  apply mem_iff_getElem?.mp
  refine List.mem_filter.mpr ⟨List.mem_range.mpr (index_lt found), ?_⟩
  simp [found, isKind]

section
variable (valid : Valid federated) (ingested : Ingested federated ctx graph) (carried : Carried ctx.strings graph built)
include valid ingested carried

theorem sameName_of_eq {name nameId : Nat} (same : nameId = name) (bound : name < federated.strings.length) :
    SameName federated built name nameId := by
  subst same
  have isPrefix := carried.strings
  rw [ingested.strings, interned_eq_self valid.strings] at isPrefix
  exact ⟨_, getElem?_eq_getElem bound, getElem?_of_front isPrefix (getElem?_eq_getElem bound)⟩

variable (kept : InputObjectsKept federated)
include kept

theorem convertDefinition_same {definitionId : DefinitionId} (ran : convertDefinition ctx definition = .ok definitionId)
    (exists_ : (federated.describe definition).isSome) : SameDefinition federated built definition definitionId := by
  obtain ⟨⟨kind, name⟩, described⟩ := Option.isSome_iff_exists.mp exists_
  have named {id : Nat} {record : TypeDefinitionRecord}
      (found : federated.typeDefinitions[id]? = some record) : SameName federated built record.name record.name :=
    sameName_of_eq valid ingested carried rfl (valid.typeNames record (mem_of_getElem? found))
  cases definition with
  | scalar id =>
    obtain ⟨index, isIndex, rfl⟩ := map_eq_ok.mp ran
    obtain ⟨found, isFound, rfl, rfl⟩ := describe_record_eq_some described
    unfold IdMaps.convertScalarId at isIndex
    split at isIndex
    · next hit =>
      cases isIndex
      rw [ingested.scalarIds] at hit
      obtain ⟨other, record, isOther, isHere, sameName⟩ :=
        ingested.scalars index id (binarySearch_ok hit)
      cases isFound.symm.trans isOther
      refine sameDefinition_of_described described ?_ (named isFound)
      rw [describe, getElem?_of_front carried.scalars isHere, Option.map_some, sameName]
    · cases isIndex
  | object id =>
    cases ran
    obtain ⟨object, isObject, isRecord⟩ := Option.bind_eq_some_iff.mp described
    obtain ⟨found, isFound, rfl, rfl⟩ := describe_record_eq_some isRecord
    obtain ⟨other, record, isOther, isHere, sameName, _⟩ := ingested.objects id object isObject
    cases isFound.symm.trans isOther
    refine sameDefinition_of_described described ?_ (named isFound)
    rw [describe, getElem?_of_front carried.objects isHere, Option.map_some, sameName]
  | interface id =>
    cases ran
    obtain ⟨interface, isInterface, isRecord⟩ := Option.bind_eq_some_iff.mp described
    obtain ⟨found, isFound, rfl, rfl⟩ := describe_record_eq_some isRecord
    obtain ⟨other, record, isOther, isHere, sameName, _⟩ := ingested.interfaces id interface isInterface
    obtain ⟨after, isAfter, afterName, _⟩ := carried.interfaces id record isHere
    cases isFound.symm.trans isOther
    refine sameDefinition_of_described described ?_ (named isFound)
    rw [describe, isAfter, Option.map_some, afterName, sameName]
  | union id =>
    cases ran
    obtain ⟨union, isUnion, same⟩ := Option.map_eq_some_iff.mp described
    obtain ⟨rfl, rfl⟩ := Prod.mk.inj same
    obtain ⟨record, isHere, sameName⟩ := ingested.unions id union isUnion
    obtain ⟨after, isAfter, afterName⟩ := carried.unions id record isHere
    refine sameDefinition_of_described described ?_
      (sameName_of_eq valid ingested carried rfl (valid.unionNames union (mem_of_getElem? isUnion)))
    rw [describe, isAfter, Option.map_some, afterName, sameName]
  | enum id =>
    obtain ⟨index, isIndex, rfl⟩ := map_eq_ok.mp ran
    obtain ⟨found, isFound, rfl, rfl⟩ := describe_record_eq_some described
    unfold IdMaps.convertEnumId at isIndex
    split at isIndex
    · next hit =>
      cases isIndex
      rw [ingested.enumIds] at hit
      obtain ⟨other, record, isOther, isHere, sameName, _⟩ :=
        ingested.enums index id (binarySearch_ok hit)
      cases isFound.symm.trans isOther
      refine sameDefinition_of_described described ?_ (named isFound)
      rw [describe, getElem?_of_front carried.enums isHere, Option.map_some, sameName]
    · cases isIndex
  | inputObject id =>
    cases ran
    obtain ⟨inputObject, isInputObject, same⟩ := Option.map_eq_some_iff.mp described
    obtain ⟨rfl, rfl⟩ := Prod.mk.inj same
    refine sameDefinition_of_described described ?_
      (sameName_of_eq valid ingested carried rfl (valid.inputObjectNames inputObject (mem_of_getElem? isInputObject)))
    rw [describe, ← carried.inputObjects, inputObjects_of_kept ingested kept, getElem?_map, isInputObject]
    rfl

theorem inputValues_preserved (span : Span)
    (inside : span.start + span.len ≤ federated.inputValueDefinitions.length) :
    List.Forall₂ (InputValuePreserved federated built)
      (accessible federated (·.directives) federated.inputValueDefinitions span)
      (ctx.idmaps.inputValue.imageRange span).toList := by
  refine (ingested.inputValueMap.accessible span inside).imp fun entry target => ?_
  rintro ⟨found, keeps, rfl⟩
  obtain ⟨record, isHere, sameName, isType⟩ := ingested.inputValues entry.2 entry.1 found keeps
  obtain ⟨definitionId, isDefinition, isRecord⟩ := bind_eq_ok.mp isType
  have isRecord := Except.ok.inj isRecord
  have member := mem_of_getElem? found
  refine ⟨record, getElem?_of_front carried.inputValues isHere,
    sameName_of_eq valid ingested carried sameName (valid.inputValueNames entry.1 member), ?_⟩
  rw [← isRecord]
  exact ⟨rfl, convertDefinition_same valid ingested carried kept isDefinition (valid.inputTypes entry.1 member)⟩

theorem fields_preserved {fields : Fields} {range : IdRange} (ran : fieldRange ctx fields = .ok range)
    (ordered : fields.start ≤ fields.stop) (inside : fields.stop ≤ federated.fields.length) :
    List.Forall₂ (FieldPreserved federated built) (accessibleFields federated fields) range.toList := by
  rw [← (IdMap.getRange_eq_ok.mp ran).1]
  have spanInside : fields.start + (fields.stop - fields.start) ≤ federated.fields.length :=
    (Nat.add_sub_cancel' ordered).le.trans inside
  refine (ingested.fieldMap.accessible ⟨fields.start, fields.stop - fields.start⟩ spanInside).imp fun entry target => ?_
  rintro ⟨found, keeps, rfl⟩
  obtain ⟨record, isHere, sameName, isType, isArguments, isParent⟩ := ingested.fields entry.2 entry.1 found keeps
  obtain ⟨after, isAfter, afterName, afterParent, unchanged⟩ := carried.fields _ record isHere
  obtain ⟨definitionId, isDefinition, isRecord⟩ := bind_eq_ok.mp isType
  have isRecord := Except.ok.inj isRecord
  have member := mem_of_getElem? found
  refine ⟨after, isAfter, sameName_of_eq valid ingested carried (afterName.trans sameName)
    (valid.fieldNames entry.1 member), ?_, fun ordinary => ?_⟩
  · rw [afterParent]
    cases entity : record.parentEntityId with
    | object objectId =>
      rw [entity] at isParent
      obtain ⟨object, isObject, _⟩ := id isParent
      obtain ⟨definition, isDefinition, isKind⟩ := (valid.objects object (mem_of_getElem? isObject)).2.2
      refine ⟨.object objectId, isParent, convertDefinition_same valid ingested carried kept rfl ?_⟩
      simp [FederatedGraph.describe, isObject, FederatedGraph.describe.record, isDefinition, isKind]
    | interface interfaceId =>
      rw [entity] at isParent
      obtain ⟨interface, isInterface, _⟩ := id isParent
      obtain ⟨definition, isDefinition, isKind⟩ := (valid.interfaces interface (mem_of_getElem? isInterface)).2.2
      refine ⟨.interface interfaceId, isParent, convertDefinition_same valid ingested carried kept rfl ?_⟩
      simp [FederatedGraph.describe, isInterface, FederatedGraph.describe.record, isDefinition, isKind]
  · obtain rfl := unchanged ordinary
    rw [← isRecord, isArguments]
    exact ⟨⟨rfl, convertDefinition_same valid ingested carried kept isDefinition (valid.fieldTypes entry.1 member)⟩,
      inputValues_preserved valid ingested carried kept _ (valid.arguments entry.1 member)⟩

theorem preserved_of_kept : Preserved federated built where
  scalars definition member isScalar := by
    obtain ⟨id, found⟩ := mem_iff_getElem?.mp member
    obtain ⟨index, atIndex⟩ := mem_iterKind found isScalar
    obtain ⟨other, record, isOther, isHere, sameName⟩ := ingested.scalars index id atIndex
    cases found.symm.trans isOther
    exact ⟨record, mem_of_getElem? (getElem?_of_front carried.scalars isHere),
      sameName_of_eq valid ingested carried sameName (valid.typeNames definition member)⟩
  enums id definition found isEnum := by
    obtain ⟨index, atIndex⟩ := mem_iterKind found isEnum
    obtain ⟨other, record, isOther, isHere, sameName, isRange⟩ := ingested.enums index id atIndex
    cases found.symm.trans isOther
    refine ⟨record, mem_of_getElem? (getElem?_of_front carried.enums isHere),
      sameName_of_eq valid ingested carried sameName (valid.typeNames definition (mem_of_getElem? found)), ?_⟩
    obtain ⟨inside, isSlice⟩ := enumValueRange_entries valid id
    have all := ingested.enumValueMap.accessible (federated.enumValueRange id) inside
    rw [accessible, isSlice, filter_filter, ← isRange] at all
    simp only [Bool.and_comm] at all
    refine all.imp fun entry target => ?_
    rintro ⟨isValue, keeps, rfl⟩
    have isHere := ingested.enumValues entry.2 entry.1 isValue keeps
    exact ⟨_, getElem?_of_front carried.enumValues isHere,
      sameName_of_eq valid ingested carried rfl (valid.enumValueNames entry.1 (mem_of_getElem? isValue))⟩
  objects object member definition found := by
    obtain ⟨id, isObject⟩ := mem_iff_getElem?.mp member
    obtain ⟨other, record, isOther, isHere, sameName, isRange⟩ := ingested.objects id object isObject
    obtain ⟨ordered, inside, _⟩ := valid.objects object member
    cases found.symm.trans isOther
    refine ⟨record, mem_of_getElem? (getElem?_of_front carried.objects isHere),
      sameName_of_eq valid ingested carried sameName (valid.typeNames definition (mem_of_getElem? found)), ?_⟩
    exact fields_preserved valid ingested carried kept isRange ordered inside
  interfaces interface member definition found := by
    obtain ⟨id, isInterface⟩ := mem_iff_getElem?.mp member
    obtain ⟨other, record, isOther, isHere, sameName, isRange⟩ := ingested.interfaces id interface isInterface
    obtain ⟨ordered, inside, _⟩ := valid.interfaces interface member
    obtain ⟨after, isAfter, afterName, afterFields⟩ := carried.interfaces id record isHere
    cases found.symm.trans isOther
    refine ⟨after, mem_of_getElem? isAfter, sameName_of_eq valid ingested carried (afterName.trans sameName)
      (valid.typeNames definition (mem_of_getElem? found)), ?_⟩
    rw [afterFields]
    exact fields_preserved valid ingested carried kept isRange ordered inside
  unions union member := by
    obtain ⟨id, isUnion⟩ := mem_iff_getElem?.mp member
    obtain ⟨record, isHere, sameName⟩ := ingested.unions id union isUnion
    obtain ⟨after, isAfter, afterName⟩ := carried.unions id record isHere
    exact ⟨after, mem_of_getElem? isAfter,
      sameName_of_eq valid ingested carried (afterName.trans sameName) (valid.unionNames union member)⟩
  inputObjects inputObject member := by
    refine ⟨{ nameId := inputObject.name, inputFieldIds := ctx.idmaps.inputValue.imageRange inputObject.fields }, ?_,
      sameName_of_eq valid ingested carried rfl (valid.inputObjectNames inputObject member),
      inputValues_preserved valid ingested carried kept _ (valid.inputFields inputObject member)⟩
    rw [← carried.inputObjects, inputObjects_of_kept ingested kept]
    exact mem_map.mpr ⟨inputObject, member, rfl⟩

omit kept in
theorem kept_of_preserved (unique : UniqueTypeNames federated) (preserved : Preserved federated built) :
    InputObjectsKept federated := by
  intro id bound definition found
  refine Bool.eq_false_iff.mpr fun hidden => ?_
  have isDropped := (ingested.inputValueMap id).mpr ⟨definition, found, hidden⟩
  have isInputObject := getElem?_eq_getElem bound
  obtain ⟨record, isHere, ⟨text, isText, isBuiltText⟩, _⟩ := preserved.inputObjects _ (mem_of_getElem? isInputObject)
  rw [← carried.inputObjects, ingested.inputObjects] at isHere
  obtain ⟨⟨other, otherId⟩, isEntry, rfl⟩ := mem_map.mp isHere
  obtain ⟨member, isKept⟩ := mem_filter.mp isEntry
  have isOther : federated.inputObjects[otherId]? = some other := mk_mem_zipIdx_iff_getElem?.mp member
  -- The record with the name is the one of another input object of the same name.
  obtain ⟨otherText, isOtherText, isBuiltOther⟩ :=
    sameName_of_eq valid ingested carried rfl (valid.inputObjectNames other (mem_of_getElem? isOther))
  obtain rfl := Option.mem_unique isBuiltText isBuiltOther
  have sameName : (federated.inputObjects[id]).name = other.name :=
    (List.getElem?_inj (index_lt isText) valid.strings).mp (isText.trans isOtherText.symm)
  have sameId := unique (.inputObject id) (.inputObject otherId) .inputObject .inputObject other.name
    (by simp [FederatedGraph.describe, isInputObject, sameName]) (by simp [FederatedGraph.describe, isOther])
  obtain rfl := FederatedGraph.Definition.inputObject.inj sameId
  exact isDropped (of_decide_eq_true isKept)

end

/-- The types of a schema are those of the federated graph exactly when no inaccessible input value has the id of an
input object. -/
theorem build_preserves_iff {byKey : UnstableSort} (valid : Valid federated) (unique : UniqueTypeNames federated)
    (ran : build federated byKey = .ok built) : Preserved federated built ↔ InputObjectsKept federated := by
  obtain ⟨ctx, graph, ingested, carried⟩ := build_ingested valid ran
  exact ⟨kept_of_preserved valid ingested carried unique, preserved_of_kept valid ingested carried⟩

section Example

/-- `type Query { find(hidden: String, filter: Filter): String }` and `input Filter { text: String }`, with one
of the input values inaccessible. -/
def searchGraph (hidden : Nat) : FederatedGraph where
  rootOperationTypes := { query := 0 }
  typeDefinitions := [{ name := 0, kind := .object }, { name := 1, kind := .scalar }]
  objects := [{ typeDefinitionId := 0, fields := ⟨0, 3⟩ }]
  fields := [
    { name := 2, type := ⟨.nullable, .scalar 1⟩ },
    { name := 3, type := ⟨.nullable, .scalar 1⟩ },
    { name := 4, type := ⟨.nullable, .scalar 1⟩, arguments := ⟨0, 2⟩ }]
  inputObjects := [{ name := 5, fields := ⟨2, 1⟩ }]
  inputValueDefinitions := [
    { name := 6, type := ⟨.nullable, .scalar 1⟩, directives := ⟨0, if hidden = 0 then 1 else 0⟩ },
    { name := 7, type := ⟨.nullable, .inputObject 0⟩ },
    { name := 8, type := ⟨.nullable, .scalar 1⟩, directives := ⟨0, if hidden = 2 then 1 else 0⟩ }]
  strings := ["Query", "String", "__schema", "__type", "find", "Filter", "hidden", "filter", "text"]
  directives := [.inaccessible]

theorem searchGraph_describe {hidden name : Nat}
    (described : (searchGraph hidden).describe definition = some (kind, name)) :
    definition = .object 0 ∧ name = 0 ∨ definition = .scalar 1 ∧ name = 1 ∨ definition = .inputObject 0 ∧ name = 5 := by
  rcases definition with id | id | id | id | id | id <;>
    rcases id with _ | _ | id <;>
    simp_all [FederatedGraph.describe, FederatedGraph.describe.record, searchGraph]

theorem searchGraph_valid (hidden : Nat) : Valid (searchGraph hidden) := by
  constructor <;> simp [searchGraph, FederatedGraph.describe, FederatedGraph.describe.record]

theorem searchGraph_unique (hidden : Nat) : UniqueTypeNames (searchGraph hidden) := by
  intro first second kind otherKind name isFirst isSecond
  rcases searchGraph_describe isFirst with ⟨rfl, rfl⟩ | ⟨rfl, rfl⟩ | ⟨rfl, rfl⟩ <;>
    rcases searchGraph_describe isSecond with ⟨rfl, same⟩ | ⟨rfl, same⟩ | ⟨rfl, same⟩ <;>
    first | rfl | cases same

/-- With the input field `text` inaccessible. -/
theorem build_preserves_without_field :
    ∃ built, build (searchGraph 2) .insertion = .ok built ∧ Preserved (searchGraph 2) built := by
  have ran : (build (searchGraph 2) .insertion).toOption.map (·.graph.inputObjectDefinitions) =
      some [{ nameId := 5, inputFieldIds := ⟨2, 2⟩ }] := by decide +kernel
  obtain ⟨built, isBuilt, _⟩ := ok_of_map ran
  exact ⟨built, isBuilt, (build_preserves_iff (searchGraph_valid 2) (searchGraph_unique 2) isBuilt).mpr (by
    simp [InputObjectsKept, searchGraph, inaccessible])⟩

/-- With the argument `hidden` inaccessible, the input object goes instead. -/
theorem build_drops_inputObject : ∃ built, build (searchGraph 0) .insertion = .ok built ∧
    built.graph.inputObjectDefinitions = [] ∧ ¬ Preserved (searchGraph 0) built := by
  have ran : (build (searchGraph 0) .insertion).toOption.map (·.graph.inputObjectDefinitions) = some [] := by
    decide +kernel
  obtain ⟨built, isBuilt, isEmpty⟩ := ok_of_map ran
  refine ⟨built, isBuilt, isEmpty, fun preserved => ?_⟩
  obtain ⟨record, isHere, _⟩ := preserved.inputObjects _ (mem_singleton.mpr rfl)
  rw [isEmpty] at isHere
  cases isHere

end Example
end Preservation
end Grafbase.Schema
