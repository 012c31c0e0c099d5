import Grafbase.Operation.Document
import Grafbase.Schema.Coerce

/-! Input types, input values and the errors of coercing them.

A value of an operation is made of constants and, outside of requests and
default values, of variables. Coerced values live in vectors, with lists and
objects as ranges in them; here they are the trees that the ranges describe.
-/

set_option autoImplicit false

namespace Grafbase.Coercion
open Foundation
open Operation (Location VariableDefinitionId)
open Schema (DefinitionId EnumDefinitionId EnumValueId Failure InputObjectDefinitionId InputValueDefinitionId
  ScalarDefinitionId ScalarType SchemaInputValueId TypeRecord ValueKind)

/-- `serde_json::Number` -/
inductive Number where
  | posInt (value : UInt64)
  | negInt (value : Int64)
  | float (value : Float)

namespace Number

def asI64 : Number → Option Int64
  | posInt value => if value.toNat < 2 ^ 63 then some value.toInt64 else none
  | negInt value => some value
  | float _ => none

def asU64 : Number → Option UInt64
  | posInt value => some value
  | _ => none

def asF64 : Number → Option Float
  | posInt value => some value.toFloat
  | negInt value => some (Float.ofInt value.toInt)
  | float value => some value

/-- `as_i64` followed by `i32::try_from` -/
def asI32 (number : Number) : Option Int32 :=
  number.asI64.bind fun value => if value.toInt32.toInt64 = value then some value.toInt32 else none

end Number

inductive ValueLeaf (ν : Type) where
  | null
  | number (value : Number)
  | string (value : String)
  | boolean (value : Bool)
  | enum (name : String)
  | variable (name : ν)

abbrev Value (ν : Type) := Literal String (ValueLeaf ν)

abbrev ConstValue := Value Empty

namespace Value
variable {ν : Type}

def isNull : Value ν → Bool
  | .leaf .null => true
  | _ => false

def isArray : Value ν → Bool
  | .list _ => true
  | _ => false

def isVariable : Value ν → Bool
  | .leaf (.variable _) => true
  | _ => false

/-- The kind of a value, which variables do not have. -/
def kind : Value ν → Checked ValueKind
  | .leaf .null => .ok .null
  | .leaf (.number (.float _)) => .ok .float
  | .leaf (.number _) => .ok .integer
  | .leaf (.string _) => .ok .string
  | .leaf (.boolean _) => .ok .boolean
  | .leaf (.enum _) => .ok .enum
  | .list _ => .ok .list
  | .object _ => .ok .object
  | .leaf (.variable _) => .error .unreachable

end Value

/-- Constants among the values with variables. -/
def ConstValue.into (value : ConstValue) : Value String :=
  value.map fun
    | .null => .null
    | .number value => .number value
    | .string value => .string value
    | .boolean value => .boolean value
    | .enum name => .enum name

/-- `VariableInputValue` without variables, and `QueryInputValue` with them. -/
inductive InputValue (ω : Type) where
  | null
  | string (value : String)
  | enumValue (id : EnumValueId)
  | int (value : Int32)
  | bigInt (value : Int64)
  | float (value : Float)
  | boolean (value : Bool)
  | inputObject (fields : List (InputValueDefinitionId × InputValue ω))
  | list (items : List (InputValue ω))
  | map (entries : List (String × InputValue ω))
  | u64 (value : UInt64)
  | defaultValue (id : SchemaInputValueId)
  | variable (id : ω)

abbrev VariableInputValue := InputValue Empty
abbrev QueryInputValue := InputValue VariableDefinitionId

structure ScalarDefinition where
  name : String

def ScalarDefinition.ty (scalar : ScalarDefinition) : ScalarType := .fromScalarName scalar.name

structure EnumDefinition where
  name : String
  values : List (String × EnumValueId)

def EnumDefinition.findValueByName (enum : EnumDefinition) (name : String) : Option EnumValueId :=
  (enum.values.find? (·.1 = name)).map Prod.snd

def isInputType : DefinitionId → Bool
  | .enum _ | .scalar _ | .inputObject _ => true
  | _ => false

structure InputField where
  id : InputValueDefinitionId
  name : String
  ty : TypeRecord
  defaultValueId : Option SchemaInputValueId := none

/-- An input object, the fields of which have distinct names and input types. -/
structure InputObjectDefinition where
  name : String
  inputFields : List InputField
  distinct : (inputFields.map InputField.name).Nodup
  inputTypes : ∀ field ∈ inputFields, isInputType field.ty.definitionId

structure InputTypes where
  definitionByName : String → Option DefinitionId
  definitionName : DefinitionId → String
  scalar : ScalarDefinitionId → ScalarDefinition
  enum : EnumDefinitionId → EnumDefinition
  inputObject : InputObjectDefinitionId → InputObjectDefinition

def InputTypes.typeName (types : InputTypes) (ty : TypeRecord) : String :=
  let closing := ty.wrapping.listWrappings.map fun list => if list = .requiredList then "]!" else "]"
  String.join (List.replicate ty.wrapping.len "[") ++ types.definitionName ty.definitionId ++
    (if ty.wrapping.innerIsRequired then "!" else "") ++ String.join closing

inductive ValuePathSegment where
  | field (name : String)
  | index (index : Nat)

def valuePathToString (path : List ValuePathSegment) : String :=
  if path.isEmpty then ""
  else
    let segments := path.map fun
      | .field name => "." ++ name
      | .index index => "." ++ toString index
    " at path '" ++ String.join segments ++ "'"

inductive InputValueError where
  | unexpectedNull (expected path : String) (location : Location)
  | missingList (actual : ValueKind) (expected path : String) (location : Location)
  | missingObject (name : String) (actual : ValueKind) (path : String) (location : Location)
  | incorrectScalarType (actual : ValueKind) (expected path : String) (location : Location)
  | incorrectScalarValue (actual : Number) (expected path : String) (location : Location)
  | incorrectEnumValueType (enum : String) (actual : ValueKind) (path : String) (location : Location)
  | unknownEnumValue (enum value path : String) (location : Location)
  | incorrectVariableType (name variableTy actualTy : String) (location : Location) (path : String)
  | unknownInputField (inputObject name : String) (location : Location) (path : String)
  | unknownVariable (name : String) (location : Location) (path : String)
  | variableDefaultValueReliesOnAnotherVariable (name : String) (location : Location) (path : String)

/-- Coercion with a state, ending in an error of the operation or aborting. -/
abbrev Coercing (σ : Type) := StateT σ (Except (Failure InputValueError))

namespace Coercing
variable {σ α β : Type} {first : Coercing σ α} {next : α → Coercing σ β}

theorem bind_eq_ok {before : σ} {result : β × σ} : (first >>= next) before = .ok result ↔
      ∃ value between, first before = .ok (value, between) ∧ next value between = .ok result := by
  change (first before >>= fun middle => next middle.1 middle.2) = _ ↔ _
  rw [Foundation.bind_eq_ok, Prod.exists]

theorem pure_eq_ok {value : α} {before : σ} {result : α × σ} :
    (pure value : Coercing σ α) before = .ok result ↔ result = (value, before) := by
  change Except.ok (value, before) = _ ↔ _
  rw [Except.ok.injEq]
  exact eq_comm

def fail (error : InputValueError) : Coercing σ α := fun _ => .error (.failed error)
def panic (panic : Panic) : Coercing σ α := fun _ => .error (.panicked panic)

def checked : Checked α → Coercing σ α
  | .ok value => pure value
  | .error panic => Coercing.panic panic

/-- There is neither an error nor a panic. -/
def Accepts (coercion : Coercing σ α) (before : σ) : Prop := ∃ result, coercion before = .ok result

theorem accepts_pure (value : α) (before : σ) : Accepts (pure value : Coercing σ α) before := ⟨(value, before), rfl⟩

theorem not_accepts_fail (error : InputValueError) (before : σ) : ¬ Accepts (fail error : Coercing σ α) before := nofun

theorem accepts_bind {accepted : Prop} (rest : ∀ value between, Accepts (next value) between ↔ accepted) (before : σ) :
    Accepts (first >>= next) before ↔ Accepts first before ∧ accepted := by
  constructor
  · rintro ⟨result, ran⟩
    obtain ⟨value, between, ranFirst, ranNext⟩ := bind_eq_ok.mp ran
    exact ⟨⟨_, ranFirst⟩, (rest value between).mp ⟨_, ranNext⟩⟩
  · rintro ⟨⟨⟨value, between⟩, ranFirst⟩, holds⟩
    obtain ⟨result, ranNext⟩ := (rest value between).mpr holds
    exact ⟨result, bind_eq_ok.mpr ⟨value, between, ranFirst, ranNext⟩⟩

theorem accepts_bind_pure {make : α → β} (before : σ) :
    Accepts (first >>= fun value => pure (make value)) before ↔ Accepts first before := by
  rw [@accepts_bind σ α β _ _ True fun value between => iff_true_intro (accepts_pure (make value) between), and_true]

theorem not_accepts_bind
    (rejects : ∀ value between, ¬ Accepts (next value) between) (before : σ) : ¬ Accepts (first >>= next) before := by
  rw [accepts_bind fun value between => iff_false_intro (rejects value between)]
  exact And.right

end Coercing
end Grafbase.Coercion
