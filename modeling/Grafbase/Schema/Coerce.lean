import Grafbase.Schema.Graph

/-! Coercion of constants of the federated graph into input values of the schema.

Values are stored as they are coerced. Nothing that is stored is ever taken
away, which the computations below carry along.
-/

set_option autoImplicit false

namespace Grafbase.Schema
open Foundation List
open FederatedGraph (Value ValueLeaf)

inductive ValueKind where
  | string
  | integer
  | enum
  | float
  | object
  | boolean
  | list
  | null
  deriving DecidableEq

def ValueKind.of : Value → ValueKind
  | .leaf (.string _) => .string
  | .leaf (.int _) => .integer
  | .leaf (.float _) => .float
  | .leaf (.boolean _) => .boolean
  | .leaf .null => .null
  | .list _ => .list
  | .object _ => .object
  | .leaf (.unboundEnumValue _) => .enum
  | .leaf (.enumValue _) => .enum

inductive InputValueError where
  | unexpectedNull (expected path : String)
  | missingList (actual : ValueKind) (expected path : String)
  | missingObject (name : String) (actual : ValueKind) (path : String)
  | incorrectScalarType (actual : ValueKind) (expected path : String)
  | incorrectScalarValue (actual expected path : String)
  | incorrectEnumValueType (enum : String) (actual : ValueKind) (path : String)
  | unknownEnumValue (enum value path : String)
  | unknownInputField (inputObject name path : String)
  | missingRequiredArgument (name : String)
  | inaccessibleEnumValue (path : String)

/-- A computation either aborts the process or returns an error. -/
inductive Failure (ε : Type) where
  | panicked (panic : Panic)
  | failed (error : ε)

inductive ValuePathSegment where
  | field (id : StringId)
  | index (index : Nat)

/-- Computations that store input values, with the number of values only going up. -/
structure Storing (α : Type) where
  run : (before : SchemaInputValues) → Except (Failure InputValueError)
    { after : α × SchemaInputValues // before.values.length ≤ after.2.values.length }

namespace Storing
variable {α β : Type}

instance : Monad Storing where
  pure value := ⟨fun values => .ok ⟨(value, values), Nat.le_refl _⟩⟩
  bind first next := ⟨fun before =>
    match first.run before with
    | .error failure => .error failure
    | .ok ⟨(value, between), grown⟩ =>
      match (next value).run between with
      | .error failure => .error failure
      | .ok ⟨after, grownMore⟩ => .ok ⟨after, grown.trans grownMore⟩⟩

theorem bind_eq_ok {first : Storing α} {next : α → Storing β} {before : SchemaInputValues}
    {result : { after : β × SchemaInputValues // before.values.length ≤ after.2.values.length }}
    (ran : (first >>= next).run before = .ok result) : ∃ middle grown, first.run before = .ok ⟨middle, grown⟩ ∧
      ∃ grownMore, (next middle.1).run middle.2 = .ok ⟨result.1, grownMore⟩ := by
  change (match first.run before with | .error failure => _ | .ok ⟨(value, between), grown⟩ => _) = _ at ran
  split at ran
  · cases ran
  · next value between grown firstRan =>
    refine ⟨(value, between), grown, firstRan, ?_⟩
    split at ran
    · cases ran
    · next after grownMore nextRan =>
      cases ran
      exact ⟨grownMore, nextRan⟩

def fail (error : InputValueError) : Storing α := ⟨fun _ => .error (.failed error)⟩
def panic (panic : Panic) : Storing α := ⟨fun _ => .error (.panicked panic)⟩

/-- A computation that stores nothing and may abort. -/
def checked (result : Checked α) : Storing α where
  run values :=
    match result with
    | .error panic => .error (.panicked panic)
    | .ok value => .ok ⟨(value, values), Nat.le_refl _⟩

def pushValue (value : SchemaInputValueRecord) : Storing SchemaInputValueId where
  run before := .ok ⟨(before.values.length, { before with values := before.values ++ [value] }), by simp⟩

/-- Slots for the items of a list, which have to be next to each other. -/
def reserveList (count : Nat) : Storing IdRange where
  run before := .ok ⟨(⟨before.values.length, before.values.length + count⟩,
    { before with values := before.values ++ replicate count .null }), by simp⟩

def setValue (id : SchemaInputValueId) (value : SchemaInputValueRecord) : Storing Unit where
  run before :=
    if id < before.values.length then .ok ⟨((), { before with values := before.values.set id value }), by simp⟩
    else .error (.panicked .outOfBounds)

def reserveMap (count : Nat) : Storing IdRange where
  run before := .ok ⟨(⟨before.keyValues.length, before.keyValues.length + count⟩,
    { before with keyValues := before.keyValues ++ replicate count (0, .null) }), Nat.le_refl _⟩

def setKeyValue (id : Nat) (entry : StringId × SchemaInputValueRecord) : Storing Unit where
  run before :=
    if id < before.keyValues.length then
      .ok ⟨((), { before with keyValues := before.keyValues.set id entry }), Nat.le_refl _⟩
    else .error (.panicked .outOfBounds)

/-- The order of `Option<&String>`. -/
def keyLe : Option String → Option String → Bool
  | none, _ => true
  | some _, none => false
  | some left, some right => left ≤ right

/-- Maps are sorted by their keys, not by the ids of their keys. -/
def sortMap (strings : List String) (ids : IdRange) : Storing Unit where
  run before :=
    let sorted := (ids.slice before.keyValues).mergeSort fun left right => keyLe strings[left.1]? strings[right.1]?
    .ok ⟨((), { before with
      keyValues := before.keyValues.take ids.start ++ sorted ++ before.keyValues.drop ids.stop }), Nat.le_refl _⟩

def appendInputObject (fields : List (InputValueDefinitionId × SchemaInputValueRecord)) : Storing IdRange where
  run before := .ok ⟨(⟨before.inputFields.length, before.inputFields.length + fields.length⟩,
    { before with inputFields := before.inputFields ++ fields }), Nat.le_refl _⟩

end Storing

open Storing (checked setValue pushValue reserveList)

section Coercer
variable (ctx : BuildContext) (graph : Graph) (path : List ValuePathSegment)

def string (id : StringId) : Checked String := indexed ctx.strings id

def valuePathToString : Checked String := do
  if path.isEmpty then return ""
  let segments ← path.mapM fun
    | .field id => return "." ++ (← string ctx id)
    | .index index => return "." ++ toString index
  return " at path '" ++ String.join segments ++ "'"

def definitionName : DefinitionId → Checked String
  | .scalar id => do string ctx (← indexed graph.scalarDefinitions id).nameId
  | .object id => do string ctx (← indexed graph.objectDefinitions id).nameId
  | .interface id => do string ctx (← indexed graph.interfaceDefinitions id).nameId
  | .union id => do string ctx (← indexed graph.unionDefinitions id).nameId
  | .enum id => do string ctx (← indexed graph.enumDefinitions id).nameId
  | .inputObject id => do string ctx (← indexed graph.inputObjectDefinitions id).nameId

def typeName (ty : TypeRecord) : Checked String := do
  let name ← definitionName ctx graph ty.definitionId
  let required := if ty.wrapping.innerIsRequired then "!" else ""
  let closing := ty.wrapping.listWrappings.map fun list => if list = .requiredList then "]!" else "]"
  return String.join (replicate ty.wrapping.len "[") ++ name ++ required ++ String.join closing

/-- Fails with an error about the value at a path. -/
def failAt {α : Type} (error : String → Checked InputValueError) : Storing α := do
  let path ← checked (valuePathToString ctx path)
  Storing.fail (← checked (error path))

def wrapInLists : Nat → SchemaInputValueRecord → Storing SchemaInputValueRecord
  | 0, value => pure value
  | count + 1, value => do
      let id ← pushValue value
      wrapInLists count (.list ⟨id, id + 1⟩)

mutual
def ingestAsJson (path : List ValuePathSegment) : Value → Storing SchemaInputValueRecord
  | .leaf .null => pure .null
  | .leaf (.string id) => pure (.string id)
  | .leaf (.unboundEnumValue id) => pure (.string id)
  | .leaf (.int value) => pure (.bigInt value)
  | .leaf (.float value) => pure (.float value)
  | .leaf (.boolean value) => pure (.boolean value)
  | .leaf (.enumValue id) => do
      match ← checked (ctx.idmaps.enumValues.get id) with
      | some id => pure (.enumValue id)
      | none => failAt ctx path fun path => .ok (.inaccessibleEnumValue path)
  | .object fields => do
      let ids ← Storing.reserveMap fields.length
      ingestFieldsAsJson path ids.start fields
      Storing.sortMap ctx.strings ids
      pure (.map ids)
  | .list items => do
      let ids ← reserveList items.length
      ingestItemsAsJson path ids.start items
      pure (.list ids)
def ingestFieldsAsJson (path : List ValuePathSegment) (id : Nat) : List (StringId × Value) → Storing Unit
  | [] => pure ()
  | (name, value) :: rest => do
      let record ← ingestAsJson path value
      Storing.setKeyValue id (name, record)
      ingestFieldsAsJson path (id + 1) rest
def ingestItemsAsJson (path : List ValuePathSegment) (id : Nat) : List Value → Storing Unit
  | [] => pure ()
  | item :: rest => do
      let record ← ingestAsJson path item
      setValue id record
      ingestItemsAsJson path (id + 1) rest
end

def incorrectScalarType (scalar : ScalarDefinitionRecord) (value : Value) : Storing SchemaInputValueRecord :=
  failAt ctx path fun path => return .incorrectScalarType (.of value) (← string ctx scalar.nameId) path

def coerceScalar (id : ScalarDefinitionId) (value : Value) : Storing SchemaInputValueRecord := do
  let scalar ← checked (indexed graph.scalarDefinitions id)
  match scalar.ty, value with
  | .string, .leaf (.string id) => pure (.string id)
  | .float, .leaf (.int value) => pure (.float (Float.ofInt value.toInt))
  | .float, .leaf (.float value) => pure (.float value)
  | .int, .leaf (.int value) =>
    if value.toInt32.toInt64 = value then pure (.int value.toInt32)
    else
      failAt ctx path fun path =>
        return .incorrectScalarValue (toString value.toInt) (← string ctx scalar.nameId) path
  | .bigInt, .leaf (.int value) => pure (.bigInt value)
  | .boolean, .leaf (.boolean value) => pure (.boolean value)
  | .json, value => ingestAsJson ctx path value
  | _, value => incorrectScalarType ctx path scalar value

def coerceEnum (id : EnumDefinitionId) (value : Value) : Storing SchemaInputValueRecord := do
  let definition ← checked (indexed graph.enumDefinitions id)
  match value with
  | .leaf (.enumValue id) => do
      match ← checked (ctx.idmaps.enumValues.get id) with
      | some id => pure (.enumValue id)
      | none => failAt ctx path fun path => .ok (.inaccessibleEnumValue path)
  | .leaf (.unboundEnumValue name) => do
      let name ← checked (string ctx name)
      let found ← checked <| definition.valueIds.toList.findM? fun id => do
        return (← string ctx (← indexed graph.enumValueDefinitions id).nameId) = name
      match found with
      | some id => pure (.enumValue id)
      | none =>
        failAt ctx path fun path => return .unknownEnumValue (← string ctx definition.nameId) name path
  | value =>
    failAt ctx path fun path => return .incorrectEnumValueType (← string ctx definition.nameId) (.of value) path

/-- The position and the value of a field of an object, by binary search among the sorted fields. -/
def lookupField (fields : List (StringId × Value)) (name : StringId) : Option (Nat × Value) :=
  let sorted := fields.mergeSort fun left right => left.1 ≤ right.1
  match binarySearchBy (fun field => compare field.1 name) sorted with
  | .ok index => (sorted[index]?).map fun field => (index, field.2)
  | .error _ => none

theorem sizeOf_lookupField {fields : List (StringId × Value)} {name : StringId} {index : Nat} {value : Value}
    (found : lookupField fields name = some (index, value)) : sizeOf value < sizeOf fields := by
  unfold lookupField at found
  dsimp only at found
  split at found
  · obtain ⟨⟨key, held⟩, atIndex, same⟩ := Option.map_eq_some_iff.mp found
    obtain ⟨rfl, rfl⟩ := Prod.mk.inj same
    have member : (key, held) ∈ fields := (mergeSort_perm fields _).mem_iff.mp (mem_of_getElem? atIndex)
    have smaller := sizeOf_lt_of_mem member
    simp only [Prod.mk.sizeOf_spec] at smaller
    change sizeOf held < sizeOf fields
    omega
  · cases found

/-- The first of the sorted fields that was not taken. -/
def unknownField (fields : List (StringId × Value)) (taken : List Nat) : Option StringId :=
  let sorted := fields.mergeSort fun left right => left.1 ≤ right.1
  (sorted.zipIdx.find? fun (_, index) => index ∉ taken).map fun (field, _) => field.1

def unexpectedNull {α : Type} (ty : TypeRecord) : Storing α :=
  failAt ctx path fun path => return .unexpectedNull (← typeName ctx graph ty) path

/-- A null where a list is expected. -/
def coerceNull (ty : TypeRecord) : ListWrapping → Storing SchemaInputValueRecord
  | .requiredList => unexpectedNull ctx graph path ty
  | .nullableList => pure .null

def missingList (ty : TypeRecord) (value : Value) : Storing SchemaInputValueRecord :=
  failAt ctx path fun path => return .missingList (.of value) (← typeName ctx graph ty) path

def missingObject (id : InputObjectDefinitionId) (value : Value) : Storing SchemaInputValueRecord :=
  failAt ctx path fun path => do
    return .missingObject (← string ctx (← indexed graph.inputObjectDefinitions id).nameId) (.of value) path

/-- The input fields of an input object with their ids. -/
def inputFieldsOf (id : InputObjectDefinitionId) :
    Checked (List (InputValueDefinitionRecord × InputValueDefinitionId)) := do
  let inputObject ← indexed graph.inputObjectDefinitions id
  inputObject.inputFieldIds.toList.mapM fun id => return (← indexed graph.inputValueDefinitions id, id)

/-- An input object once its fields are coerced. -/
def storeInputObject (id : InputObjectDefinitionId) (fields : List (StringId × Value))
    (taken : List Nat) (buffer : List (InputValueDefinitionId × SchemaInputValueRecord)) :
    Storing SchemaInputValueRecord := do
  match unknownField fields taken with
  | some name =>
    failAt ctx path fun path => do
      return .unknownInputField (← string ctx (← indexed graph.inputObjectDefinitions id).nameId)
        (← string ctx name) path
  | none =>
    let ids ← Storing.appendInputObject (buffer.mergeSort fun left right => left.1 ≤ right.1)
    pure (.inputObject ids)

mutual
def coerceInputValue (path : List ValuePathSegment) (ty : TypeRecord) (value : Value) :
    Storing SchemaInputValueRecord :=
  if ty.wrapping.isList && !(ValueKind.of value = .list) && !(ValueKind.of value = .null) then do
    let value ← coerceNamedType path ty value
    wrapInLists ty.wrapping.len value
  else coerceList path ty ty.wrapping.popListWrapping value
termination_by (sizeOf value, 3, 0)

def coerceList (path : List ValuePathSegment) (ty : TypeRecord) (popped : Option (ListWrapping × Wrapping))
    (value : Value) : Storing SchemaInputValueRecord :=
  match popped with
  | none => coerceNamedType path ty value
  | some (listWrapping, wrapping) =>
    match value with
    | .list items => do
        let ids ← reserveList items.length
        coerceItems path { ty with wrapping } 0 ids.start items
        pure (.list ids)
    | value =>
      if ValueKind.of value = .null then coerceNull ctx graph path ty listWrapping
      else missingList ctx graph path ty value
termination_by (sizeOf value, 2, 0)

def coerceItems (path : List ValuePathSegment) (ty : TypeRecord) (index : Nat) (id : SchemaInputValueId)
    (items : List Value) : Storing Unit :=
  match items with
  | [] => pure ()
  | item :: rest => do
      let value ← coerceList (path ++ [.index index]) ty ty.wrapping.popListWrapping item
      setValue id value
      coerceItems path ty (index + 1) (id + 1) rest
termination_by (sizeOf items, 0, 0)

def coerceNamedType (path : List ValuePathSegment) (ty : TypeRecord) (value : Value) : Storing SchemaInputValueRecord :=
  if ValueKind.of value = .null then
    if ty.wrapping.isRequired then unexpectedNull ctx graph path ty else pure .null
  else
    match ty.definitionId with
    | .scalar id => coerceScalar ctx graph path id value
    | .enum id => coerceEnum ctx graph path id value
    | .inputObject id => coerceInputObject path id value
    | _ => Storing.panic .unreachable
termination_by (sizeOf value, 1, 0)

def coerceInputObject (path : List ValuePathSegment) (id : InputObjectDefinitionId) (value : Value) :
    Storing SchemaInputValueRecord :=
  match value with
  | .object fields => do
      let inputFields ← checked (inputFieldsOf graph id)
      let (taken, buffer) ← coerceInputFields path fields [] [] inputFields
      storeInputObject ctx graph path id fields taken buffer
  | value => missingObject ctx graph path id value
termination_by (sizeOf value, 0, 0)

def coerceInputFields (path : List ValuePathSegment) (fields : List (StringId × Value)) (taken : List Nat)
    (buffer : List (InputValueDefinitionId × SchemaInputValueRecord))
    (inputFields : List (InputValueDefinitionRecord × InputValueDefinitionId)) :
    Storing (List Nat × List (InputValueDefinitionId × SchemaInputValueRecord)) :=
  match inputFields with
  | [] => pure (taken, buffer)
  | (inputField, id) :: rest =>
    match found : lookupField fields inputField.nameId with
    | some (index, value) =>
      if index ∈ taken then Storing.panic (.expect "called Option::unwrap on a None value")
      else do
        have := sizeOf_lookupField found
        let value ← coerceInputValue (path ++ [.field inputField.nameId]) inputField.tyRecord value
        coerceInputFields path fields (taken ++ [index]) (buffer ++ [(id, value)]) rest
    | none =>
      match inputField.defaultValueId with
      | some defaultValueId => do
          -- The values of the graph itself, which are not those that are being stored.
          let value ← checked (indexed graph.inputValues.values defaultValueId)
          coerceInputFields path fields taken (buffer ++ [(id, value)]) rest
      | none =>
        if inputField.tyRecord.wrapping.isRequired then unexpectedNull ctx graph path inputField.tyRecord
        else coerceInputFields path fields taken buffer rest
termination_by (sizeOf fields, 0, inputFields.length)
end

/-- Coerces a value and stores it. -/
def coerce (ty : TypeRecord) (value : Value) : Storing SchemaInputValueId := do
  let value ← coerceInputValue ctx graph [] ty value
  pushValue value

theorem coerce_fresh {ty : TypeRecord} {value : Value} {before : SchemaInputValues}
    {result : { after : SchemaInputValueId × SchemaInputValues // before.values.length ≤ after.2.values.length }}
    (ran : (coerce ctx graph ty value).run before = .ok result) :
    before.values.length ≤ result.1.1 ∧ result.1.1 < result.1.2.values.length := by
  obtain ⟨⟨record, between⟩, grown, _, _, pushed⟩ := Storing.bind_eq_ok ran
  have isPushed := congrArg Subtype.val (Except.ok.inj pushed)
  rw [← isPushed]
  exact ⟨grown, by simp⟩

end Coercer
end Grafbase.Schema
