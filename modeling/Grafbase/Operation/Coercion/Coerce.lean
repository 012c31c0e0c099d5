import Grafbase.Operation.Coercion.InputTypes

/-! Coercion of the values of an operation.

The values of a request and the values in the operation itself are coerced in
the same way, up to what stands for an enum value and what a variable means.
-/

set_option autoImplicit false

namespace Grafbase.Coercion
open Foundation
open Operation (Location VariableDefinitionId)
open Schema (EnumDefinitionId Failure InputObjectDefinitionId InputValueDefinitionId ScalarDefinitionId
  TypeRecord ValueKind)

/-- Where the two kinds of coercion differ. -/
structure Context (ν ω σ : Type) where
  types : InputTypes
  location : Location
  enumName : ValueLeaf ν → Option String
  variableRef : List ValuePathSegment → ν → TypeRecord → Coercing σ (InputValue ω)

section Values
variable {ν ω σ : Type} (ctx : Context ν ω σ) (path : List ValuePathSegment)

def failAt {α : Type} (error : String → Location → InputValueError) : Coercing σ α :=
  Coercing.fail (error (valuePathToString path) ctx.location)

def unexpectedNull (ty : TypeRecord) : Coercing σ (InputValue ω) :=
  failAt ctx path (.unexpectedNull (ctx.types.typeName ty))

def missingList (ty : TypeRecord) (value : Value ν) : Coercing σ (InputValue ω) := do
  let actual ← Coercing.checked value.kind
  failAt ctx path (.missingList actual (ctx.types.typeName ty))

def missingObject (inputObject : InputObjectDefinition) (value : Value ν) : Coercing σ (InputValue ω) := do
  let actual ← Coercing.checked value.kind
  failAt ctx path (.missingObject inputObject.name actual)

def incorrectScalarType (scalar : ScalarDefinition) (value : Value ν) : Coercing σ (InputValue ω) := do
  let actual ← Coercing.checked value.kind
  failAt ctx path (.incorrectScalarType actual scalar.name)

def coerceNumber {α : Type} (scalar : ScalarDefinition) (number : Number)
    (read : Number → Option α) (make : α → InputValue ω) : Coercing σ (InputValue ω) :=
  match read number with
  | some value => pure (make value)
  | none => failAt ctx path (.incorrectScalarValue number scalar.name)

def jsonNumber (number : Number) : Checked (InputValue ω) :=
  match number.asF64 with
  | some value => .ok (.float value)
  | none =>
    match number.asI64 with
    | some value => .ok (.bigInt value)
    | none =>
      match number.asU64 with
      | some value => .ok (.u64 value)
      | none => .error (.expect "called Option::unwrap on a None value")

mutual
/-- A value of a scalar that is any JSON. -/
def coerceJson (path : List ValuePathSegment) (scalar : ScalarDefinition) : Value ν → Coercing σ (InputValue ω)
  | .leaf .null => pure .null
  | .leaf (.number number) => Coercing.checked (jsonNumber number)
  | .leaf (.string value) => pure (.string value)
  | .leaf (.boolean value) => pure (.boolean value)
  | .list items => return .list (← coerceJsonItems path scalar items)
  | .object fields => return .map (← coerceJsonFields path scalar fields)
  | .leaf (.enum name) => incorrectScalarType ctx path scalar (.leaf (.enum name))
  | .leaf (.variable name) => incorrectScalarType ctx path scalar (.leaf (.variable name))
def coerceJsonItems (path : List ValuePathSegment) (scalar : ScalarDefinition) :
    List (Value ν) → Coercing σ (List (InputValue ω))
  | [] => return []
  | item :: rest => return (← coerceJson path scalar item) :: (← coerceJsonItems path scalar rest)
def coerceJsonFields (path : List ValuePathSegment) (scalar : ScalarDefinition) :
    List (String × Value ν) → Coercing σ (List (String × InputValue ω))
  | [] => return []
  | (name, value) :: rest => return (name, ← coerceJson path scalar value) :: (← coerceJsonFields path scalar rest)
end

def coerceScalar (id : ScalarDefinitionId) (value : Value ν) : Coercing σ (InputValue ω) :=
  let scalar := ctx.types.scalar id
  match scalar.ty, value with
  | .json, value => coerceJson ctx path scalar value
  | .int, .leaf (.number number) => coerceNumber ctx path scalar number Number.asI32 .int
  | .bigInt, .leaf (.number number) => coerceNumber ctx path scalar number Number.asI64 .bigInt
  | .float, .leaf (.number number) => coerceNumber ctx path scalar number Number.asF64 .float
  | .string, .leaf (.string value) => pure (.string value)
  | .boolean, .leaf (.boolean value) => pure (.boolean value)
  | _, .leaf (.variable name) => ctx.variableRef path name ⟨.scalar id, Wrapping.nullable⟩
  | _, value => incorrectScalarType ctx path scalar value

def coerceEnum (id : EnumDefinitionId) (value : Value ν) : Coercing σ (InputValue ω) :=
  let enum := ctx.types.enum id
  let name := match value with
    | .leaf leaf => ctx.enumName leaf
    | _ => none
  match name with
  | some name =>
    match enum.findValueByName name with
    | some id => pure (.enumValue id)
    | none => failAt ctx path (.unknownEnumValue enum.name name)
  | none => do
      let actual ← Coercing.checked value.kind
      failAt ctx path (.incorrectEnumValueType enum.name actual)

def wrapInLists : Nat → InputValue ω → InputValue ω
  | 0, value => value
  | count + 1, value => wrapInLists count (.list [value])

mutual
def coerceInputValue (path : List ValuePathSegment) (ty : TypeRecord) (value : Value ν) : Coercing σ (InputValue ω) :=
  if ty.wrapping.isList && !value.isArray && !value.isNull && !value.isVariable then do
    let value ← coerceNamedType path ty value
    pure (wrapInLists ty.wrapping.len value)
  else coerceWrappedValue path ty ty.wrapping.popListWrapping value
termination_by (sizeOf value, 3, 0)

def coerceWrappedValue (path : List ValuePathSegment) (ty : TypeRecord) (popped : Option (ListWrapping × Wrapping))
    (value : Value ν) : Coercing σ (InputValue ω) :=
  match popped, value with
  | _, .leaf (.variable name) => ctx.variableRef path name ty
  | none, value => coerceNamedType path ty value
  | some (.requiredList, _), .leaf .null => unexpectedNull ctx path ty
  | some (.nullableList, _), .leaf .null => pure .null
  | some (_, wrapping), .list items => return .list (← coerceItems path { ty with wrapping } 0 items)
  | some _, value => missingList ctx path ty value
termination_by (sizeOf value, 2, 0)

def coerceItems (path : List ValuePathSegment) (ty : TypeRecord) (index : Nat) (items : List (Value ν)) :
    Coercing σ (List (InputValue ω)) :=
  match items with
  | [] => return []
  | item :: rest => do
      let value ← coerceWrappedValue (path ++ [.index index]) ty ty.wrapping.popListWrapping item
      return value :: (← coerceItems path ty (index + 1) rest)
termination_by (sizeOf items, 0, 0)

def coerceNamedType (path : List ValuePathSegment) (ty : TypeRecord) (value : Value ν) : Coercing σ (InputValue ω) :=
  match value with
  | .leaf (.variable name) => ctx.variableRef path name ty
  | .leaf .null => if ty.wrapping.isRequired then unexpectedNull ctx path ty else pure .null
  | value =>
    match ty.definitionId with
    | .scalar id => coerceScalar ctx path id value
    | .enum id => coerceEnum ctx path id value
    | .inputObject id => coerceInputObject path id value
    | _ => Coercing.panic .unreachable
termination_by (sizeOf value, 1, 0)

def coerceInputObject (path : List ValuePathSegment) (id : InputObjectDefinitionId) (value : Value ν) :
    Coercing σ (InputValue ω) :=
  match value with
  | .object fields => do
      let inputObject := ctx.types.inputObject id
      let (left, buffer) ← coerceInputFields path fields [] inputObject.inputFields
      match left with
      | [] => pure (.inputObject buffer)
      | (name, _) :: _ => failAt ctx path fun path location => .unknownInputField inputObject.name name location path
  | value => missingObject ctx path (ctx.types.inputObject id) value
termination_by (sizeOf value, 0, 0)

/-- Coerces the fields that are there, and returns those that no input field has taken. -/
def coerceInputFields (path : List ValuePathSegment) (fields : List (String × Value ν))
    (buffer : List (InputValueDefinitionId × InputValue ω)) (inputFields : List InputField) :
    Coercing σ (List (String × Value ν) × List (InputValueDefinitionId × InputValue ω)) :=
  match inputFields with
  | [] => return (fields, buffer)
  | inputField :: rest =>
    match found : fields.lookup inputField.name with
    | none =>
      match inputField.defaultValueId with
      | some id => coerceInputFields path fields (buffer ++ [(inputField.id, .defaultValue id)]) rest
      | none =>
        if inputField.ty.wrapping.isRequired then failAt ctx path (.unexpectedNull (ctx.types.typeName inputField.ty))
        else coerceInputFields path fields buffer rest
    | some value => do
        have := sizeOf_lt_of_lookup found
        have := sizeOf_takeOut_lt found
        let value ← coerceInputValue (path ++ [.field inputField.name]) inputField.ty value
        coerceInputFields path (takeOut inputField.name fields) (buffer ++ [(inputField.id, value)]) rest
termination_by (sizeOf fields, 0, inputFields.length)
end
end Values
end Grafbase.Coercion
