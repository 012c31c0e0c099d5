import Grafbase.Operation.Coercion.Coerce

/-! Variables of an operation: their definitions, their uses and their values. -/

set_option autoImplicit false

namespace Grafbase.Coercion
open Foundation
open Operation (Location VariableDefinitionId)
open Schema (Failure TypeRecord)

structure VariableDefinition where
  name : String
  nameLocation : Location
  defaultValue : Option QueryInputValue
  inUse : Bool
  ty : TypeRecord

/-- Whether a variable can be used where a type is expected. -/
def isCompatibleWith (variableTy ty : TypeRecord) : Bool :=
  decide (variableTy.definitionId = ty.definitionId) &&
    -- A variable that is not a list can be coerced into the proper list wrapping.
    (!variableTy.wrapping.isList || decide (variableTy.wrapping.len = ty.wrapping.len)) &&
    (ty.wrapping.isNullable || variableTy.wrapping.isRequired)

variable (types : InputTypes)

/-- A variable in the operation, which has to be defined with a type that fits. -/
def variableRef (location : Location) (isDefaultValue : Bool) (path : List ValuePathSegment)
    (name : String) (ty : TypeRecord) : Coercing (List VariableDefinition) QueryInputValue := fun definitions =>
  let path := valuePathToString path
  if isDefaultValue then
    .error (.failed (.variableDefaultValueReliesOnAnotherVariable name location path))
  else
    match definitions.findIdx? (·.name = name) with
    | none => .error (.failed (.unknownVariable name location path))
    | some id =>
      match definitions[id]? with
      | none => .error (.panicked .outOfBounds)
      | some definition =>
        if isCompatibleWith definition.ty ty then
          .ok (.variable id, definitions.set id { definition with inUse := true })
        else
          .error (.failed (.incorrectVariableType name (types.typeName definition.ty) (types.typeName ty)
            location path))

/-- Enum values are names in an operation. -/
def queryEnumName : ValueLeaf String → Option String
  | .enum name => some name
  | _ => none

/-- Enum values are also strings in a request. -/
def variableEnumName : ValueLeaf Empty → Option String
  | .enum name => some name
  | .string name => some name
  | _ => none

def QueryValueCoercionContext (location : Location) (isDefaultValue : Bool) :
    Context String VariableDefinitionId (List VariableDefinition) where
  types := types
  location := location
  enumName := queryEnumName
  variableRef := variableRef types location isDefaultValue

def VariableCoercionContext (location : Location) : Context Empty Empty Unit where
  types := types
  location := location
  enumName := variableEnumName
  variableRef := fun _ => nofun

def coerceVariableDefaultValue (location : Location) (ty : TypeRecord) (value : ConstValue) :
    Coercing (List VariableDefinition) QueryInputValue :=
  coerceInputValue (QueryValueCoercionContext types location true) [] ty value.into

def coerceVariable (definition : VariableDefinition) (value : ConstValue) :
    Except (Failure InputValueError) VariableInputValue :=
  Prod.fst <$> coerceInputValue (VariableCoercionContext types definition.nameLocation) [] definition.ty value ()

inductive ParsedType where
  | named (name : String) (nullable : Bool)
  | list (item : ParsedType) (nullable : Bool)

structure ParsedVariableDefinition where
  name : String
  nameLocation : Location
  varType : ParsedType
  typeLocation : Location
  defaultValue : Option ConstValue

inductive BindError where
  | duplicateVariable (name : String) (location : Location)
  | unknownType (name : String) (location : Location)
  | invalidVariableType (name ty : String) (location : Location)
  | invalidInputValue (error : InputValueError)

/-- A computation that can only abort. -/
def orAbort {ε α : Type} : Checked α → Except (Failure ε) α
  | .ok value => .ok value
  | .error panic => .error (.panicked panic)

def convertType (variableName : String) (location : Location) :
    ParsedType → Except (Failure BindError) TypeRecord
  | .named name nullable =>
    match types.definitionByName name with
    | none => .error (.failed (.unknownType name location))
    | some definition =>
      if isInputType definition then .ok ⟨definition, Wrapping.new !nullable⟩
      else .error (.failed (.invalidVariableType variableName (types.definitionName definition) location))
  | .list item nullable => do
      let ty ← convertType variableName location item
      let wrapping ← orAbort (if nullable then ty.wrapping.wrappedByNullableList else ty.wrapping.wrappedByRequiredList)
      return { ty with wrapping }

/-- A variable with a default value cannot be null. -/
def typeWithDefault (ty : TypeRecord) : Option ConstValue → Except (Failure BindError) TypeRecord
  | some value =>
    if value.isNull then return ty
    else if ty.wrapping.isList then
      return { ty with wrapping := ← orAbort ty.wrapping.wrappedByRequiredList }
    else return { ty with wrapping := Wrapping.new true }
  | none => return ty

def coerceDefault (location : Location) (ty : TypeRecord) :
    Option ConstValue → Except (Failure BindError) (Option QueryInputValue)
  | none => return none
  | some value =>
    -- No variable is bound yet when default values are coerced.
    match coerceVariableDefaultValue types location ty value [] with
    | .ok (value, _) => .ok (some value)
    | .error (.failed error) => .error (.failed (.invalidInputValue error))
    | .error (.panicked panic) => .error (.panicked panic)

def bindVariableDefinition (parsed : ParsedVariableDefinition) : Except (Failure BindError) VariableDefinition := do
  let declared ← convertType types parsed.name parsed.typeLocation parsed.varType
  let ty ← typeWithDefault declared parsed.defaultValue
  let defaultValue ← coerceDefault types parsed.nameLocation ty parsed.defaultValue
  return { name := parsed.name, nameLocation := parsed.nameLocation, defaultValue, inUse := false, ty }

def bindVariableDefinitionsFrom (seenNames : List String) :
    List ParsedVariableDefinition → Except (Failure BindError) (List VariableDefinition)
  | [] => return []
  | parsed :: rest => do
      if parsed.name ∈ seenNames then throw (.failed (.duplicateVariable parsed.name parsed.nameLocation))
      let definition ← bindVariableDefinition types parsed
      return definition :: (← bindVariableDefinitionsFrom (parsed.name :: seenNames) rest)

def bindVariableDefinitions (parsed : List ParsedVariableDefinition) :
    Except (Failure BindError) (List VariableDefinition) :=
  bindVariableDefinitionsFrom types [] parsed

inductive VariableError where
  | missingVariable (name : String) (location : Location)
  | invalidValue (name : String) (error : InputValueError)

inductive VariableValue where
  | undefined
  | inputValue (value : VariableInputValue)

/-- What a variable is bound to, given its value in the request. -/
def bindVariable (definition : VariableDefinition) :
    Option ConstValue → Except (Failure VariableError) VariableValue
  | some value =>
    match coerceVariable types definition value with
    | .ok value => .ok (.inputValue value)
    | .error (.failed error) => .error (.failed (.invalidValue definition.name error))
    | .error (.panicked panic) => .error (.panicked panic)
  | none =>
    if definition.defaultValue.isNone && definition.ty.wrapping.isRequired then
      .error (.failed (.missingVariable definition.name definition.nameLocation))
    else .ok .undefined

/-- The value is moved out of the request, which leaves a null. -/
def takeVariable (name : String) (request : List (String × ConstValue)) : List (String × ConstValue) :=
  request.map fun entry => if entry.1 = name then (name, .leaf .null) else entry

/-- The values of all variables and the errors of those without. -/
def bindVariablesLoop :
    List VariableDefinition → List (String × ConstValue) → Checked (List VariableValue × List VariableError)
  | [], _ => return ([], [])
  | definition :: rest, request =>
    match bindVariable types definition (request.lookup definition.name) with
    | .ok value => do
        let (values, errors) ← bindVariablesLoop rest (takeVariable definition.name request)
        return (value :: values, errors)
    | .error (.failed error) => do
        let (values, errors) ← bindVariablesLoop rest (takeVariable definition.name request)
        return (.undefined :: values, error :: errors)
    | .error (.panicked panic) => throw panic

def bindVariables (definitions : List VariableDefinition) (request : List (String × ConstValue)) :
    Except (Failure (List VariableError)) (List VariableValue) := do
  let (values, errors) ← orAbort (bindVariablesLoop types definitions request)
  if errors.isEmpty then return values else throw (.failed errors)

/-- The value of a variable as resolvers see it. -/
inductive VariableValueView where
  | undefined
  | variableInputValue (value : VariableInputValue)
  | defaultValue (value : QueryInputValue)

def asValue (definition : VariableDefinition) : VariableValue → VariableValueView
  | .undefined =>
    match definition.defaultValue with
    | some value => .defaultValue value
    | none => .undefined
  | .inputValue value => .variableInputValue value

end Grafbase.Coercion
