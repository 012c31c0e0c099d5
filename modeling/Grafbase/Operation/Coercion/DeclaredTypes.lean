import Grafbase.Operation.Coercion.Coerced
import Grafbase.Operation.Coercion.Settling
import Grafbase.Operation.Coercion.VariablePositions

/-! Variables and the types they are declared with.

A definition is bound to a packed type, which a default value changes. Values
of a request are then coerced into the type that the definition was bound to.
-/

set_option autoImplicit false

namespace Grafbase.Coercion
open Foundation List
open Operation (Location)
open Schema (Failure TypeRecord)

def declaredType (types : InputTypes) : ParsedType → Option InputType
  | .named name nullable => (types.definitionByName name).map (.named · nullable)
  | .list item nullable => (declaredType types item).map (.list · nullable)

section Types

theorem orAbort_eq_ok {ε α : Type} {result : Checked α} {value : α} :
    (orAbort result : Except (Failure ε) α) = .ok value ↔ result = .ok value := by
  cases result with
  | ok other | error abort => simp [orAbort]

theorem shape_new (definition : Schema.DefinitionId) (isRequired : Bool) :
    shape ⟨definition, Wrapping.new isRequired⟩ = .named definition !isRequired := by
  obtain ⟨lists, inner⟩ := Wrapping.new_spec isRequired
  rw [shape, lists, foldl_nil, inner]

theorem shape_wrappedBy {ty : TypeRecord} {wrapped : Wrapping} {list : ListWrapping}
    (ran : ty.wrapping.wrappedBy list = .ok wrapped) :
    shape { ty with wrapping := wrapped } = .list (shape ty) (decide (list = .nullableList)) := by
  obtain ⟨lists, inner, -⟩ := Wrapping.wrappedBy_eq_ok ran
  rw [shape, lists, foldl_append, foldl_cons, foldl_nil, inner]
  rfl

theorem stop_new (isRequired : Bool) : (Wrapping.new isRequired).stop = 0 := by
  cases isRequired <;> decide

theorem wrappedBy_of_nullable (wrapping : Wrapping) (nullable : Bool) :
    (if nullable then wrapping.wrappedByNullableList else wrapping.wrappedByRequiredList) =
      wrapping.wrappedBy (if nullable then .nullableList else .requiredList) := by
  cases nullable <;> rfl

theorem convertType_spec {types : InputTypes} {variableName : String} {location : Location} {parsed : ParsedType}
    {declared : InputType} (isDeclared : declaredType types parsed = some declared)
    (input : isInputType declared.definition) :
    (declared.depth ≤ 21 → ∃ ty, convertType types variableName location parsed = .ok ty) ∧
    ∀ ty, convertType types variableName location parsed = .ok ty →
      shape ty = declared ∧ ty.wrapping.stop = declared.depth ∧ declared.depth ≤ 21 := by
  induction parsed generalizing declared with
  | named name nullable =>
    obtain ⟨definition, found, rfl⟩ := Option.map_eq_some_iff.mp isDeclared
    have converted : convertType types variableName location (.named name nullable) =
        .ok ⟨definition, Wrapping.new !nullable⟩ := by
      rw [convertType, found]
      exact if_pos input
    refine ⟨fun _ => ⟨_, converted⟩, fun ty ran => ?_⟩
    obtain rfl := Except.ok.inj (converted.symm.trans ran)
    refine ⟨?_, stop_new _, Nat.zero_le _⟩
    rw [shape_new, Bool.not_not]
  | list item nullable ih =>
    obtain ⟨inner, isInner, rfl⟩ := Option.map_eq_some_iff.mp isDeclared
    obtain ⟨converts, spec⟩ := ih isInner input
    constructor
    · intro small
      obtain ⟨ty, ran⟩ := converts (Nat.le_of_succ_le small)
      obtain ⟨-, stop, -⟩ := spec ty ran
      obtain ⟨wrapped, wraps⟩ := (@Wrapping.exists_wrappedBy_iff ty.wrapping
        (if nullable then .nullableList else .requiredList)).mpr (stop ▸ small)
      refine ⟨{ ty with wrapping := wrapped }, ?_⟩
      refine bind_eq_ok.mpr ⟨ty, ran, bind_eq_ok.mpr ⟨wrapped, ?_, rfl⟩⟩
      rw [wrappedBy_of_nullable, orAbort_eq_ok]
      exact wraps
    · intro ty ran
      obtain ⟨ofItem, ranItem, ran⟩ := bind_eq_ok.mp ran
      obtain ⟨wrapped, wraps, isTy⟩ := bind_eq_ok.mp ran
      rw [wrappedBy_of_nullable, orAbort_eq_ok] at wraps
      obtain ⟨shapeItem, stopItem, -⟩ := spec ofItem ranItem
      obtain rfl := Except.ok.inj isTy
      have small := Wrapping.exists_wrappedBy_iff.mp ⟨wrapped, wraps⟩
      obtain ⟨-, -, stop⟩ := Wrapping.wrappedBy_eq_ok wraps
      refine ⟨?_, ?_, ?_⟩
      · rw [shape_wrappedBy wraps, shapeItem]
        cases nullable <;> rfl
      · exact stop.trans (congrArg (· + 1) stopItem)
      · rw [InputType.depth, ← stopItem]
        exact small

end Types

section Defaults
variable {types : InputTypes} {location : Location} {ty : TypeRecord} {value : ConstValue}

theorem isNull_into (value : ConstValue) : value.into.isNull = value.isNull := by
  rcases value with leaf | items | fields
  · cases leaf <;> first | rfl | contradiction
  · rfl
  · rfl

theorem isVariable_into (value : ConstValue) : value.into.isVariable = false := by
  rcases value with leaf | items | fields
  · cases leaf <;> first | rfl | contradiction
  · rfl
  · rfl

theorem rejectsVariables_default (types : InputTypes) (location : Location) :
    RejectsVariables (QueryValueCoercionContext types location true) :=
  ⟨fun _ _ _ _ => nofun, fun _ => rfl⟩

theorem accepts_coerceVariableDefaultValue (input : isInputType ty.definitionId) :
    (coerceVariableDefaultValue types location ty value).Accepts [] ↔
      Valid types queryEnumName false true (shape ty) value.into :=
  (agrees (rejectsVariables_default types location) value.into).2 [] ty [] input

theorem coerceDefault_some_eq_ok {coerced : Option QueryInputValue} :
    coerceDefault types location ty (some value) = .ok coerced ↔
      ∃ default after, coerceVariableDefaultValue types location ty value [] = .ok (default, after) ∧
        coerced = some default := by
  rw [coerceDefault]
  cases coerceVariableDefaultValue types location ty value [] with
  | ok result => simp [Prod.ext_iff, eq_comm]
  | error failure => cases failure <;> simp

theorem coerceInputValue_of_nonNull {ν ω σ : Type} {ctx : Context ν ω σ} {path : List ValuePathSegment}
    {first second : TypeRecord} {value : Value ν} (same : first.definitionId = second.definitionId)
    (flatFirst : (shape first).depth = 0) (flatSecond : (shape second).depth = 0)
    (nonNull : value.isNull = false) (nonVariable : value.isVariable = false) :
    coerceInputValue ctx path first value = coerceInputValue ctx path second value := by
  have plain {ty : TypeRecord} (flat : (shape ty).depth = 0) :
      coerceInputValue ctx path ty value = coerceNamedType ctx path ty value := by
    rw [depth_shape, Wrapping.len_eq, length_eq_zero_iff] at flat
    have empty : ty.wrapping.popListWrapping = none := Wrapping.nextBack_eq_none.mpr flat
    rw [coerceInputValue, if_neg (by simp [isList_eq_false empty]), empty, coerceWrappedValue_named nonVariable]
  rw [plain flatFirst, plain flatSecond, coerceNamedType_plain nonVariable nonNull,
    coerceNamedType_plain nonVariable nonNull, same]

end Defaults

/-- A default value that is not null. -/
def ParsedVariableDefinition.hasDefault (parsed : ParsedVariableDefinition) : Bool :=
  parsed.defaultValue.any fun value => !value.isNull

def boundType (parsed : ParsedVariableDefinition) (declared : TypeRecord) : TypeRecord :=
  if parsed.hasDefault then { declared with wrapping := Wrapping.new true } else declared

section Binding
variable {types : InputTypes} {parsed : ParsedVariableDefinition} {declared : TypeRecord}

theorem bindVariableDefinition_eq_ok {definition : VariableDefinition} :
    bindVariableDefinition types parsed = .ok definition ↔ ∃ declared ty default,
      convertType types parsed.name parsed.typeLocation parsed.varType = .ok declared ∧
      typeWithDefault declared parsed.defaultValue = .ok ty ∧
      coerceDefault types parsed.nameLocation ty parsed.defaultValue = .ok default ∧
      definition = ⟨parsed.name, parsed.nameLocation, default, false, ty⟩ := by
  simp only [bindVariableDefinition, bind_eq_ok, pure, Except.pure, Except.ok.injEq, exists_and_left]
  simp only [eq_comm]

theorem typeWithDefault_flat (flat : parsed.hasDefault → (shape declared).depth = 0) :
    typeWithDefault declared parsed.defaultValue = .ok (boundType parsed declared) := by
  unfold typeWithDefault boundType
  unfold ParsedVariableDefinition.hasDefault at flat ⊢
  split
  · next value isDefault =>
    rw [isDefault] at flat ⊢
    by_cases isNull : value.isNull
    · simp [isNull]
      rfl
    · have notList : declared.wrapping.isList = false := by
        have := flat (by simp [isNull])
        rw [depth_shape, Wrapping.len_eq] at this
        simp [Wrapping.isList_eq, length_eq_zero_iff.mp this]
      simp [isNull, notList]
      rfl
  · next noDefault =>
    rw [noDefault]
    rfl

/-- With a default value, a list becomes a list of lists. -/
theorem shape_typeWithDefault {ty : TypeRecord} (ran : typeWithDefault declared parsed.defaultValue = .ok ty)
    (hasDefault : parsed.hasDefault) (isList : (shape declared).depth ≠ 0) :
      shape ty = .list (shape declared) false := by
  unfold typeWithDefault at ran
  unfold ParsedVariableDefinition.hasDefault at hasDefault
  split at ran
  · next value isDefault =>
    rw [isDefault] at hasDefault
    have nonNull : value.isNull = false := by simpa using hasDefault
    have isListWrapping : declared.wrapping.isList = true := by
      rw [depth_shape, Wrapping.len_eq] at isList
      simpa [Wrapping.isList_eq, length_eq_zero_iff] using isList
    rw [if_neg (by simp [nonNull]), if_pos isListWrapping] at ran
    obtain ⟨wrapped, wraps, isTy⟩ := bind_eq_ok.mp ran
    obtain rfl := Except.ok.inj isTy
    exact shape_wrappedBy (orAbort_eq_ok.mp wraps)
  · next noDefault => simp [noDefault] at hasDefault

theorem shape_boundType : shape (boundType parsed declared) =
    if parsed.hasDefault then .named declared.definitionId false else shape declared := by
  unfold boundType
  split
  · exact shape_new declared.definitionId true
  · rfl

section Flat
variable (flat : parsed.hasDefault → (shape declared).depth = 0)
include flat

theorem valid_boundType_iff {ν : Type} {enumName : ValueLeaf ν → Option String} {integerIds : Bool} {value : Value ν} :
    Valid types enumName integerIds true (shape (boundType parsed declared)) value ↔
      Valid types enumName integerIds true (shape declared) value ∧ (parsed.hasDefault → value.isNull = false) := by
  rw [shape_boundType]
  split
  · next hasDefault =>
    -- The declared type is a named one.
    have isNamed : shape declared = .named declared.definitionId (shape declared).nullable := by
      rw [← definition_shape declared]
      generalize shape declared = ty at flat
      cases ty with
      | named definition nullable => rfl
      | list item nullable => cases flat hasDefault
    rw [isNamed]
    by_cases isNull : value.isNull
    · obtain rfl := Value.eq_null isNull
      refine iff_of_false (fun valid => ?_) fun both => ?_
      · cases valid_null_iff.mp valid
      · cases both.2 hasDefault
    · rw [Bool.not_eq_true] at isNull
      refine Iff.trans ⟨.of_named (by simp [isNull]), .of_named (by simp [isNull])⟩ (and_iff_left fun _ => isNull).symm
  · next noDefault => exact (and_iff_left fun hasDefault => absurd hasDefault noDefault).symm

theorem coerceInputValue_boundType {ν ω σ : Type} {ctx : Context ν ω σ} {path : List ValuePathSegment} {value : Value ν}
    (nonNull : parsed.hasDefault → value.isNull = false) (nonVariable : value.isVariable = false) :
    coerceInputValue ctx path (boundType parsed declared) value = coerceInputValue ctx path declared value := by
  by_cases hasDefault : parsed.hasDefault
  · refine coerceInputValue_of_nonNull ?_ ?_ (flat hasDefault) (nonNull hasDefault) nonVariable
    · rw [boundType, if_pos hasDefault]
    · rw [shape_boundType, if_pos hasDefault, InputType.depth]
  · rw [boundType, if_neg hasDefault]

theorem coerceDefault_boundType {location : Location} :
    coerceDefault types location (boundType parsed declared) parsed.defaultValue =
      coerceDefault types location declared parsed.defaultValue := by
  cases isDefault : parsed.defaultValue with
  | none => rfl
  | some value =>
    have nonNull : parsed.hasDefault → value.into.isNull = false := by
      rw [ParsedVariableDefinition.hasDefault, isDefault, isNull_into]
      simp
    rw [coerceDefault, coerceDefault, coerceVariableDefaultValue, coerceVariableDefaultValue,
      coerceInputValue_boundType flat nonNull (isVariable_into value)]

theorem bindVariableDefinition_flat {definition : VariableDefinition}
    (converted : convertType types parsed.name parsed.typeLocation parsed.varType = .ok declared) :
    bindVariableDefinition types parsed = .ok definition ↔ ∃ default,
      coerceDefault types parsed.nameLocation declared parsed.defaultValue = .ok default ∧
      definition = ⟨parsed.name, parsed.nameLocation, default, false, boundType parsed declared⟩ := by
  rw [bindVariableDefinition_eq_ok]
  constructor
  · rintro ⟨other, ty, default, ran, rewritten, coerced, rfl⟩
    obtain rfl := Except.ok.inj (converted.symm.trans ran)
    obtain rfl := Except.ok.inj ((typeWithDefault_flat flat).symm.trans rewritten)
    exact ⟨default, coerceDefault_boundType flat ▸ coerced, rfl⟩
  · rintro ⟨default, coerced, rfl⟩
    exact ⟨declared, _, default, converted, typeWithDefault_flat flat,
      (coerceDefault_boundType flat).trans coerced, rfl⟩

end Flat

theorem exists_coerceDefault_iff {location : Location} (input : isInputType declared.definitionId) :
    (∃ default, coerceDefault types location declared parsed.defaultValue = .ok default) ↔
      ∀ value, parsed.defaultValue = some value → Valid types queryEnumName false true (shape declared) value.into := by
  cases isDefault : parsed.defaultValue with
  | none => exact iff_of_true ⟨none, rfl⟩ nofun
  | some value =>
    simp only [Option.some.injEq, forall_eq', coerceDefault_some_eq_ok]
    refine Iff.trans ⟨?_, ?_⟩ (@accepts_coerceVariableDefaultValue types location declared value input)
    · rintro ⟨_, default, after, ran, -⟩
      exact ⟨_, ran⟩
    · rintro ⟨⟨default, after⟩, ran⟩
      exact ⟨some default, default, after, ran, rfl⟩

end Binding
end Grafbase.Coercion
