import Grafbase.Operation.Coercion.Validity

/-! Coercion accepts exactly the values of a type.

The statement goes through the values: those of named types from the fields of
an object, those of items from the items of a list, and both make up the values
that a single value may stand for. Variables are left out here.
-/

set_option autoImplicit false

namespace Grafbase.Coercion
open Foundation
open Schema (DefinitionId TypeRecord)
variable {ν : Type} {value : Value ν}

theorem Value.eq_null (isNull : value.isNull = true) : value = .leaf .null := by
  unfold Value.isNull at isNull
  split at isNull
  · rfl
  · cases isNull

theorem Value.exists_variable (isVariable : value.isVariable = true) : ∃ name, value = .leaf (.variable name) := by
  unfold Value.isVariable at isVariable
  split at isVariable
  · exact ⟨_, rfl⟩
  · cases isVariable

theorem Value.exists_list (isArray : value.isArray = true) : ∃ items, value = .list items := by
  unfold Value.isArray at isArray
  split at isArray
  · exact ⟨_, rfl⟩
  · cases isArray

section Acceptance
variable {ω σ : Type} {ctx : Context ν ω σ}

open Coercing
variable {types : InputTypes} {enumName : ValueLeaf ν → Option String} {integerIds : Bool}
  {path : List ValuePathSegment} {fields : List (String × Value ν)}
  {buffer : List (Schema.InputValueDefinitionId × InputValue ω)} {second nullable single : Bool}
  {definition : DefinitionId} {before : σ} {ty : TypeRecord} {inputField : InputField} {rest : List InputField}
  {id : Schema.InputObjectDefinitionId}

/-- For a named type it only matters whether null is a value. -/
theorem Valid.of_named {first loose : Bool} (tighter : value.isNull → loose → nullable)
    (valid : Valid types enumName integerIds first (.named definition loose) value) :
    Valid types enumName integerIds second (.named definition nullable) value := by
  cases valid with
  | null isNullable => exact .null (tighter rfl isNullable)
  | scalar nonNull scalarValue => exact .scalar nonNull scalarValue
  | enum named member nonNull => exact .enum named member nonNull
  | inputObject distinct known given all => exact .inputObject distinct known given all

variable (ctx) in
/-- What is accepted for a type, wherever a single value may not stand for a list. -/
def AgreesAsItem (value : Value ν) : Prop :=
  ∀ path (ty : TypeRecord) before, isInputType ty.definitionId →
    (Accepts (coerceWrappedValue ctx path ty ty.wrapping.popListWrapping value) before ↔
      Valid ctx.types ctx.enumName false false (shape ty) value)

variable (ctx) in
def AgreesAsInput (value : Value ν) : Prop :=
  ∀ path (ty : TypeRecord) before, isInputType ty.definitionId →
    (Accepts (coerceInputValue ctx path ty value) before ↔ Valid ctx.types ctx.enumName false true (shape ty) value)

variable (ctx) in
/-- What is accepted for a named type in place of a value that is not null. -/
def AgreesAsNamed (value : Value ν) : Prop :=
  ∀ path (ty : TypeRecord) before single nullable, isInputType ty.definitionId → value.isNull = false →
    (Accepts (coerceNamedType ctx path ty value) before ↔
      Valid ctx.types ctx.enumName false single (.named ty.definitionId nullable) value)

theorem accepts_coerceItems {index : Nat} {items : List (Value ν)}
    (ty : TypeRecord) (input : isInputType ty.definitionId) (agree : ∀ item ∈ items, AgreesAsItem ctx item) :
    Accepts (coerceItems ctx path ty index items) before ↔
      ∀ item ∈ items, Valid ctx.types ctx.enumName false false (shape ty) item := by
  induction items generalizing index before with
  | nil => exact iff_of_true (by rw [coerceItems]; exact accepts_pure _ before) (by simp)
  | cons item rest ih =>
    have later := fun between => @ih between (index + 1) fun other member => agree other (List.mem_cons_of_mem _ member)
    rw [coerceItems, accepts_bind fun value between => (accepts_bind_pure between).trans (later between),
      agree item (by simp) _ ty before input, List.forall_mem_cons]

variable (ctx) in
/-- Variables are not accepted anywhere, as in the values of a request and in default values. -/
structure RejectsVariables : Prop where
  variableRef : ∀ path name ty before, ¬ Accepts (ctx.variableRef path name ty) before
  enumName : ∀ name, ctx.enumName (.variable name) = none

theorem valid_null_iff {ty : InputType} : Valid types enumName integerIds single ty (.leaf .null) ↔ ty.nullable := by
  refine ⟨fun valid => ?_, .null⟩
  cases valid with
  | null nullable => exact nullable
  | scalar nonNull => cases nonNull
  | enum _ _ nonNull => cases nonNull
  | single nonNull => cases nonNull

theorem coerceWrappedValue_named (nonVariable : value.isVariable = false) :
    coerceWrappedValue ctx path ty none value = coerceNamedType ctx path ty value := by
  rw [coerceWrappedValue]
  rintro name rfl
  cases nonVariable

theorem coerceWrappedValue_missingList {last : ListWrapping × Wrapping}
    (nonVariable : value.isVariable = false) (nonNull : value.isNull = false) (nonList : value.isArray = false) :
    coerceWrappedValue ctx path ty (some last) value = missingList ctx path ty value := by
  unfold coerceWrappedValue
  split <;> simp_all [Value.isVariable, Value.isNull, Value.isArray]

theorem accepts_null :
    Accepts (coerceWrappedValue ctx path ty ty.wrapping.popListWrapping (.leaf .null)) before ↔
      (shape ty).nullable := by
  rw [nullable_shape, Wrapping.isNullable, Wrapping.isRequired]
  cases popped : ty.wrapping.popListWrapping with
  | none =>
    rw [coerceWrappedValue_named rfl, coerceNamedType, Wrapping.isRequired,
      show ty.wrapping.nextBack = none from popped]
    cases ty.wrapping.innerIsRequired with
    | false => exact iff_of_true (accepts_pure _ before) rfl
    | true => exact iff_of_false (not_accepts_fail _ before) (by simp)
  | some last =>
    obtain ⟨list, rest⟩ := last
    rw [show ty.wrapping.nextBack = some (list, rest) from popped]
    cases list with
    | requiredList => exact iff_of_false (by rw [coerceWrappedValue]; exact not_accepts_fail _ before) (by simp)
    | nullableList => exact iff_of_true (by rw [coerceWrappedValue]; exact accepts_pure _ before) (by simp)

theorem valid_single_iff {ty : InputType} (nonNull : value.isNull = false) (nonList : value.isArray = false) :
    Valid types enumName integerIds true ty value ↔
      Valid types enumName integerIds true (.named ty.definition nullable) value := by
  induction ty with
  | named definition other => exact ⟨.of_named (by simp [nonNull]), .of_named (by simp [nonNull])⟩
  | list item other ih =>
    refine Iff.trans ⟨fun valid => ?_, .single nonNull nonList⟩ ih
    cases valid with
    | null => cases nonNull
    | list => cases nonList
    | single _ _ valid => exact valid

theorem valid_plain_iff {ty : InputType} (plain : ty.depth = 0 ∨ value.isArray = true ∨ value.isNull = true) :
    Valid types enumName integerIds true ty value ↔ Valid types enumName integerIds false ty value := by
  cases ty with
  | named definition nullable => exact ⟨.of_named fun _ => id, .of_named fun _ => id⟩
  | list item nullable =>
    rcases plain with flat | isArray | isNull
    · cases flat
    · obtain ⟨items, rfl⟩ := Value.exists_list isArray
      refine ⟨fun valid => ?_, fun | .list all => .list all⟩
      cases valid with
      | list all => exact .list all
      | single _ nonList => cases nonList
    · obtain rfl := Value.eq_null isNull
      exact valid_null_iff.trans valid_null_iff.symm

theorem coerceInputFields_present (found : fields.lookup inputField.name = some value) :
    coerceInputFields ctx path fields buffer (inputField :: rest) = (do
      let value ← coerceInputValue ctx (path ++ [.field inputField.name]) inputField.ty value
      coerceInputFields ctx path (takeOut inputField.name fields) (buffer ++ [(inputField.id, value)]) rest) := by
  rw [coerceInputFields]
  split
  · next absent => cases absent.symm.trans found
  · next held same =>
    obtain rfl := Option.mem_unique same found
    rfl

theorem coerceInputFields_absent
    (absent : fields.lookup inputField.name = none) : coerceInputFields ctx path fields buffer (inputField :: rest) =
      match inputField.defaultValueId with
      | some id => coerceInputFields ctx path fields (buffer ++ [(inputField.id, .defaultValue id)]) rest
      | none =>
        if inputField.ty.wrapping.isRequired then failAt ctx path (.unexpectedNull (ctx.types.typeName inputField.ty))
        else coerceInputFields ctx path fields buffer rest := by
  rw [coerceInputFields]
  split
  · rfl
  · next found => cases absent.symm.trans found

/-- No field is left over exactly when the fields are those of the input object. -/
theorem coerceInputFields_left_eq_nil {inputFields : List InputField}
    (distinct : (inputFields.map InputField.name).Nodup)
    (inputTypes : ∀ field ∈ inputFields, isInputType field.ty.definitionId)
    (agree : ∀ field ∈ fields, AgreesAsInput ctx field.2) :
    (∃ coerced after, coerceInputFields ctx path fields buffer inputFields before = .ok (([], coerced), after)) ↔
      FieldsFit (fun field => Valid ctx.types ctx.enumName false true (shape field.ty)) inputFields fields := by
  induction inputFields generalizing fields buffer before with
  | nil =>
    rw [coerceInputFields, fieldsFit_nil]
    constructor
    · rintro ⟨coerced, after, ran⟩
      exact (Prod.mk.inj (Prod.mk.inj (pure_eq_ok.mp ran)).1).1.symm
    · rintro rfl
      exact ⟨buffer, before, rfl⟩
  | cons inputField rest ih =>
    have distinctRest := (List.nodup_cons.mp distinct).2
    have inputRest := fun field member => inputTypes field (List.mem_cons_of_mem _ member)
    cases found : fields.lookup inputField.name with
    | none =>
      rw [fieldsFit_cons_absent found, coerceInputFields_absent found]
      cases inputField.defaultValueId with
      | some id => simp [ih distinctRest inputRest agree]
      | none =>
        rw [nullable_shape, Wrapping.isNullable]
        cases inputField.ty.wrapping.isRequired with
        | true => simp [failAt, Coercing.fail]
        | false => simp [ih distinctRest inputRest agree]
    | some value =>
      rw [fieldsFit_cons_present distinct found, coerceInputFields_present found]
      have inFields := mem_of_lookup_eq_some found
      have agreeValue := agree _ inFields (path ++ [.field inputField.name]) inputField.ty before
        (inputTypes inputField (by simp))
      have agreeLeft : ∀ field ∈ takeOut inputField.name fields, AgreesAsInput ctx field.2 :=
        fun field member => agree field (mem_of_mem_takeOut member)
      rw [← agreeValue]
      constructor
      · rintro ⟨coerced, after, ran⟩
        obtain ⟨first, between, ranFirst, ranRest⟩ := Coercing.bind_eq_ok.mp ran
        exact ⟨⟨_, ranFirst⟩, (ih distinctRest inputRest agreeLeft).mp ⟨coerced, after, ranRest⟩⟩
      · rintro ⟨⟨⟨first, between⟩, ranFirst⟩, fit⟩
        obtain ⟨coerced, after, ranRest⟩ := (ih distinctRest inputRest agreeLeft).mpr fit
        exact ⟨coerced, after, Coercing.bind_eq_ok.mpr ⟨first, between, ranFirst, ranRest⟩⟩

theorem accepts_coerceInputObject (agree : ∀ field ∈ fields, AgreesAsInput ctx field.2) :
    Accepts (coerceInputObject ctx path id (.object fields)) before ↔
      FieldsFit (fun field => Valid ctx.types ctx.enumName false true (shape field.ty))
        (ctx.types.inputObject id).inputFields fields := by
  rw [← coerceInputFields_left_eq_nil (ctx.types.inputObject id).distinct (ctx.types.inputObject id).inputTypes agree,
    coerceInputObject]
  constructor
  · rintro ⟨result, ran⟩
    obtain ⟨⟨left, coerced⟩, between, ranFields, ranLeft⟩ := Coercing.bind_eq_ok.mp ran
    cases left with
    | nil => exact ⟨coerced, between, ranFields⟩
    | cons field others => cases ranLeft
  · rintro ⟨coerced, after, ran⟩
    exact ⟨(.inputObject coerced, after), Coercing.bind_eq_ok.mpr ⟨_, _, ran, rfl⟩⟩

theorem coerceNamedType_plain
    (nonVariable : value.isVariable = false) (nonNull : value.isNull = false) : coerceNamedType ctx path ty value =
      match ty.definitionId with
      | .scalar id => coerceScalar ctx path id value
      | .enum id => coerceEnum ctx path id value
      | .inputObject id => coerceInputObject ctx path id value
      | _ => Coercing.panic .unreachable := by
  unfold coerceNamedType
  split
  · cases nonVariable
  · cases nonNull
  · rfl

theorem not_accepts_coerceInputObject (other : ∀ fields, value ≠ .object fields) :
    ¬ Accepts (coerceInputObject ctx path id value) before := by
  unfold coerceInputObject
  split
  · next fields => exact absurd rfl (other fields)
  · exact not_accepts_bind (fun _ between => not_accepts_fail _ between) before

variable (rejects : RejectsVariables ctx)
include rejects

theorem RejectsVariables.not_valid {ty : InputType} {name : ν} :
    ¬ Valid ctx.types ctx.enumName integerIds single ty (.leaf (.variable name)) := by
  induction ty generalizing single with
  | named definition nullable =>
    intro valid
    cases valid with
    | scalar _ scalarValue =>
      unfold ScalarValue at scalarValue
      split at scalarValue
      case h_7 => cases scalarValue
      all_goals simp at scalarValue
    | enum named => cases (rejects.enumName name).symm.trans named
  | list item nullable ih =>
    intro valid
    cases valid with
    | single _ _ valid => exact ih valid

theorem agreesAsItem (named : AgreesAsNamed ctx value)
    (items : ∀ list, value = .list list → ∀ item ∈ list, AgreesAsItem ctx item) : AgreesAsItem ctx value := by
  intro path ty before input
  by_cases isNull : value.isNull
  · obtain rfl : value = .leaf .null := Value.eq_null isNull
    exact accepts_null.trans valid_null_iff.symm
  by_cases isVariable : value.isVariable
  · obtain ⟨name, rfl⟩ := Value.exists_variable isVariable
    refine iff_of_false ?_ rejects.not_valid
    rw [coerceWrappedValue]
    exact rejects.variableRef path name ty before
  rw [Bool.not_eq_true] at isNull isVariable
  cases popped : ty.wrapping.popListWrapping with
  | none =>
    rw [shape_of_pop_none popped, coerceWrappedValue_named isVariable]
    exact named path ty before false _ input isNull
  | some last =>
    obtain ⟨list, rest⟩ := last
    rw [shape_of_pop_some popped]
    by_cases isArray : value.isArray
    · obtain ⟨inner, rfl⟩ := Value.exists_list isArray
      rw [coerceWrappedValue, accepts_bind_pure]
      exact (accepts_coerceItems { ty with wrapping := rest } input (items inner rfl)).trans ⟨.list, fun valid => by
        cases valid with | list all => exact all⟩
    · rw [Bool.not_eq_true] at isArray
      rw [coerceWrappedValue_missingList isVariable isNull isArray]
      refine iff_of_false (not_accepts_bind (fun _ between => not_accepts_fail _ between) before) fun valid => ?_
      cases valid with
      | null => cases isNull
      | list => cases isArray

theorem agreesAsInput (named : AgreesAsNamed ctx value) (item : AgreesAsItem ctx value) : AgreesAsInput ctx value := by
  intro path ty before input
  rw [coerceInputValue]
  split
  · next single =>
    simp only [Bool.and_eq_true, Bool.not_eq_true'] at single
    obtain ⟨⟨⟨isList, nonList⟩, nonNull⟩, nonVariable⟩ := single
    rw [accepts_bind_pure, valid_single_iff nonNull nonList, definition_shape]
    exact named path ty before true false input nonNull
  · next plain =>
    rw [item path ty before input]
    by_cases isVariable : value.isVariable
    · obtain ⟨name, rfl⟩ := Value.exists_variable isVariable
      exact iff_of_false rejects.not_valid rejects.not_valid
    · refine (valid_plain_iff ?_).symm
      rw [depth_shape, Wrapping.len_eq]
      by_cases isArray : value.isArray
      · exact .inr (.inl isArray)
      by_cases isNull : value.isNull
      · exact .inr (.inr isNull)
      simpa [Wrapping.isList_eq, isArray, isNull, isVariable] using plain

theorem agreesAsNamed (fields : ∀ list, value = .object list → ∀ field ∈ list, AgreesAsInput ctx field.2) :
    AgreesAsNamed ctx value := by
  intro path ty before single nullable input nonNull
  by_cases isVariable : value.isVariable
  · obtain ⟨name, rfl⟩ := Value.exists_variable isVariable
    refine iff_of_false ?_ rejects.not_valid
    rw [coerceNamedType]
    exact rejects.variableRef path name ty before
  rw [Bool.not_eq_true] at isVariable
  rw [coerceNamedType_plain isVariable nonNull]
  cases isDefinition : ty.definitionId with
  | scalar id =>
    refine (accepts_coerceScalar isVariable).trans (scalarValue_iff.symm.trans ⟨.scalar nonNull, fun valid => ?_⟩)
    cases valid with
    | null => cases nonNull
    | scalar _ scalarValue => exact scalarValue
  | enum id =>
    refine accepts_coerceEnum.trans ⟨?_, fun valid => ?_⟩
    · rintro ⟨leaf, name, rfl, named, member⟩
      exact .enum named member nonNull
    · cases valid with
      | null => cases nonNull
      | enum named member => exact ⟨_, _, rfl, named, member⟩
  | inputObject id =>
    by_cases isObject : ∃ list, value = .object list
    · obtain ⟨list, rfl⟩ := isObject
      refine (accepts_coerceInputObject (fields list rfl)).trans ⟨?_, fun valid => ?_⟩
      · exact fun fit => .inputObject fit.distinct fit.known fit.given fit.all
      · cases valid with
        | inputObject distinct known given all => exact ⟨distinct, known, given, all⟩
    · refine iff_of_false (not_accepts_coerceInputObject fun list same => isObject ⟨list, same⟩) fun valid => ?_
      cases valid with
      | null => cases nonNull
      | inputObject => exact isObject ⟨_, rfl⟩
  | object | interface | union => simp [isDefinition, isInputType] at input

/-- Without variables, what coercion accepts are the values of the type. -/
theorem agrees (value : Value ν) : AgreesAsItem ctx value ∧ AgreesAsInput ctx value := by
  induction value using Literal.induct with
  | leaf leaf =>
    have named : AgreesAsNamed ctx (.leaf leaf) := agreesAsNamed rejects nofun
    have item := agreesAsItem rejects named nofun
    exact ⟨item, agreesAsInput rejects named item⟩
  | list items ih =>
    have named : AgreesAsNamed ctx (.list items) := agreesAsNamed rejects nofun
    have item := agreesAsItem rejects named fun list same => by
      cases same
      exact fun item member => (ih item member).1
    exact ⟨item, agreesAsInput rejects named item⟩
  | object fields ih =>
    have named : AgreesAsNamed ctx (.object fields) := agreesAsNamed rejects fun list same => by
      cases same
      exact fun field member => (ih field member).2
    have item := agreesAsItem rejects named nofun
    exact ⟨item, agreesAsInput rejects named item⟩

end Acceptance
end Grafbase.Coercion
