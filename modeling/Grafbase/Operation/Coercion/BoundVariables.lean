import Grafbase.Operation.Coercion.DeclaredTypes

/-! Variables follow their declared types, and when they do not. -/

set_option autoImplicit false

namespace Grafbase.Coercion
open Foundation List
open Operation (Location)
open Schema (Failure TypeRecord)
variable (types : InputTypes) (parsed : ParsedVariableDefinition)

/-- A definition with a known input type and, if any, a default value of that type. -/
structure WellDeclared (declared : InputType) : Prop where
  declares : declaredType types parsed.varType = some declared
  input : isInputType declared.definition
  default : ∀ value, parsed.defaultValue = some value → Valid types queryEnumName true true declared value.into

/-- What a request may say about a variable. -/
def Acceptable (declared : InputType) (default : Option ConstValue) : Option ConstValue → Prop
  | none => declared.nullable ∨ default.isSome
  | some value => Valid types variableEnumName true true declared value

/-- The value of the request, or else the default value, coerced into the declared type. -/
def SeenAs (declared : InputType) (given : Option ConstValue) (view : VariableValueView) : Prop :=
  match given, parsed.defaultValue with
  | some value, _ => ∃ coerced, Coerced types variableEnumName true declared value coerced ∧
      view = .variableInputValue coerced
  | none, some value => ∃ coerced, Coerced types queryEnumName true declared value.into coerced ∧
      view = .defaultValue coerced
  | none, none => view = .undefined

/-- No integer is written in what the default value and the request give for JSON scalars. -/
structure IntegerFreeRequest (declared : InputType) (given : Option ConstValue) : Prop where
  default : ∀ value, parsed.defaultValue = some value → IntegerFreeJson types declared value.into
  given : ∀ value, given = some value → IntegerFreeJson types declared value

section Request
variable {types parsed} {declared : TypeRecord}
  {default : Option QueryInputValue} {given : Option ConstValue}

/-- The definition that a declaration of a flat type is bound to. -/
abbrev boundDefinition (parsed : ParsedVariableDefinition) (declared : TypeRecord) (default : Option QueryInputValue) :
    VariableDefinition :=
  ⟨parsed.name, parsed.nameLocation, default, false, boundType parsed declared⟩

theorem definitionId_boundType : (boundType parsed declared).definitionId = declared.definitionId := by
  unfold boundType
  split <;> rfl

theorem bindVariable_ne_panicked {definition : VariableDefinition} (input : isInputType definition.ty.definitionId)
    (abort : Panic) : bindVariable types definition given ≠ .error (.panicked abort) := by
  intro ran
  cases given with
  | none =>
    rw [bindVariable] at ran
    split at ran <;> cases ran
  | some value =>
    rw [bindVariable] at ran
    split at ran
    · cases ran
    · cases ran
    · next other inner =>
      cases ran
      exact coerceVariable_ne_panicked input abort inner

variable (flat : parsed.hasDefault → (shape declared).depth = 0) (input : isInputType declared.definitionId)
  (coerced : coerceDefault types parsed.nameLocation declared parsed.defaultValue = .ok default)
include flat input coerced

theorem exists_bindVariable_iff :
    (∃ value, bindVariable types (boundDefinition parsed declared default) given = .ok value) ↔
      match given with
      | none => (shape declared).nullable ∨ parsed.defaultValue.isSome
      | some value => Valid types variableEnumName false true (shape declared) value ∧
          (parsed.hasDefault → value.isNull = false) := by
  cases given with
  | none =>
    have isSome : default.isSome = parsed.defaultValue.isSome := by
      cases isDefault : parsed.defaultValue with
      | none =>
        rw [isDefault] at coerced
        obtain rfl := Except.ok.inj coerced
        rfl
      | some value =>
        rw [isDefault] at coerced
        obtain ⟨_, _, _, rfl⟩ := coerceDefault_some_eq_ok.mp coerced
        rfl
    have nullable : (shape (boundType parsed declared)).nullable =
        (!parsed.hasDefault && (shape declared).nullable) := by
      rw [shape_boundType]
      cases parsed.hasDefault <;> rfl
    have hasDefault : parsed.hasDefault → parsed.defaultValue.isSome := by
      unfold ParsedVariableDefinition.hasDefault
      cases parsed.defaultValue <;> simp
    rw [bindVariable]
    rw [← Bool.not_not (boundType parsed declared).wrapping.isRequired, ← Wrapping.isNullable,
      ← nullable_shape, nullable,
      ← Option.not_isSome, isSome]
    revert hasDefault
    cases parsed.hasDefault <;> cases parsed.defaultValue.isSome <;> cases (shape declared).nullable <;> simp
  | some value =>
    have isInput : isInputType (boundDefinition parsed declared default).ty.definitionId := by
      rw [definitionId_boundType]
      exact input
    refine Iff.trans ⟨?_, ?_⟩ ((coerceVariable_isOk isInput).trans (valid_boundType_iff flat))
    · rintro ⟨bound, ran⟩
      rw [bindVariable] at ran
      split at ran
      · next value inner => exact ⟨value, inner⟩
      · cases ran
      · cases ran
    · rintro ⟨value, ran⟩
      exact ⟨.inputValue value, by rw [bindVariable, ran]⟩

theorem seenAs_of_bindVariable {value : VariableValue}
    (integerFree : IntegerFreeRequest types parsed (shape declared) given)
    (bound : bindVariable types (boundDefinition parsed declared default) given = .ok value) :
    SeenAs types parsed (shape declared) given (asValue (boundDefinition parsed declared default) value) := by
  unfold SeenAs
  cases given with
  | some given =>
    have nonNull := ((exists_bindVariable_iff flat input coerced).mp ⟨value, bound⟩).2
    have nonVariable : given.isVariable = false := by
      rcases given with leaf | items | fields
      · cases leaf <;> first | rfl | contradiction
      · rfl
      · rfl
    rw [bindVariable] at bound
    split at bound
    · next result ran =>
      obtain rfl := Except.ok.inj bound
      obtain ⟨⟨inner, after⟩, ranInner, rfl⟩ := map_eq_ok.mp ran
      refine ⟨inner, ?_, rfl⟩
      rw [coerceInputValue_boundType flat nonNull nonVariable] at ranInner
      exact (coerces (rejectsVariables_request types _) given).2 _ declared _ _ _ (integerFree.given given rfl) ranInner
    · cases bound
    · cases bound
  | none =>
    have isUndefined : value = .undefined := by
      rw [bindVariable] at bound
      split at bound
      · cases bound
      · exact (Except.ok.inj bound).symm
    rw [isUndefined, asValue]
    cases isDefault : parsed.defaultValue with
    | none =>
      rw [isDefault] at coerced
      obtain rfl := Except.ok.inj coerced
      rfl
    | some value =>
      rw [isDefault] at coerced
      obtain ⟨coercedDefault, after, ran, rfl⟩ := coerceDefault_some_eq_ok.mp coerced
      exact ⟨coercedDefault, (coerces (rejectsVariables_default types _) value.into).2 _ declared _ _ _
        (integerFree.default value isDefault) ran, rfl⟩

end Request

section Lists
variable {types} {definitions : List VariableDefinition} {request : List (String × ConstValue)}

theorem bindVariableDefinitionsFrom_eq_ok {seenNames : List String} {parsed : List ParsedVariableDefinition}
    (distinct : (parsed.map ParsedVariableDefinition.name).Nodup)
    (fresh : ∀ declaration ∈ parsed, declaration.name ∉ seenNames) :
    bindVariableDefinitionsFrom types seenNames parsed = .ok definitions ↔
      List.Forall₂ (fun declaration definition => bindVariableDefinition types declaration = .ok definition)
        parsed definitions := by
  induction parsed generalizing seenNames definitions with
  | nil =>
    rw [bindVariableDefinitionsFrom, forall₂_nil_left_iff]
    exact ⟨fun same => (Except.ok.inj same).symm, fun same => same ▸ rfl⟩
  | cons first rest ih =>
    obtain ⟨notLater, distinctRest⟩ := nodup_cons.mp distinct
    have freshRest : ∀ declaration ∈ rest, declaration.name ∉ first.name :: seenNames := by
      intro declaration member seen
      rcases mem_cons.mp seen with same | seen
      · exact notLater (same ▸ mem_map_of_mem member)
      · exact fresh declaration (mem_cons_of_mem _ member) seen
    rw [bindVariableDefinitionsFrom, if_neg (fresh first (by simp)), forall₂_cons_left_iff]
    refine bind_eq_ok.trans ?_
    constructor
    · rintro ⟨definition, bound, ran⟩
      obtain ⟨others, ranRest, same⟩ := bind_eq_ok.mp ran
      exact ⟨definition, others, bound, (ih distinctRest freshRest).mp ranRest, (Except.ok.inj same).symm⟩
    · rintro ⟨definition, others, bound, all, rfl⟩
      exact ⟨definition, bound, bind_eq_ok.mpr ⟨others, (ih distinctRest freshRest).mpr all, rfl⟩⟩

theorem lookup_takeVariable {name other : String} (differs : other ≠ name) :
    (takeVariable name request).lookup other = request.lookup other := by
  induction request with
  | nil => rfl
  | cons entry rest ih =>
    obtain ⟨key, value⟩ := entry
    rw [takeVariable, map_cons, ← takeVariable]
    by_cases same : key = name
    · subst same
      have notKey : (other == key) = false := by simpa using differs
      simp [lookup_cons, notKey, ih]
    · simp only [if_neg same, lookup_cons, ih]

/-- What a variable is bound to does not depend on the other variables, which are taken out of the request. -/
theorem bindVariablesLoop_spec {left : List (String × ConstValue)}
    (same : ∀ definition ∈ definitions, left.lookup definition.name = request.lookup definition.name)
    (distinct : (definitions.map VariableDefinition.name).Nodup)
    (input : ∀ definition ∈ definitions, isInputType definition.ty.definitionId) :
    ∃ values errors, bindVariablesLoop types definitions left = .ok (values, errors) ∧
      List.Forall₂ (fun definition value =>
        bindVariable types definition (request.lookup definition.name) = .ok value ∨
          ∃ error, bindVariable types definition (request.lookup definition.name) = .error (.failed error))
        definitions values ∧ ∀ error, error ∈ errors ↔ ∃ definition ∈ definitions,
        bindVariable types definition (request.lookup definition.name) = .error (.failed error) := by
  induction definitions generalizing left with
  | nil => exact ⟨[], [], rfl, .nil, by simp⟩
  | cons first rest ih =>
    obtain ⟨notLater, distinctRest⟩ := nodup_cons.mp distinct
    obtain ⟨sameFirst, sameRest⟩ := forall_mem_cons.mp same
    obtain ⟨isInput, restInput⟩ := forall_mem_cons.mp input
    have untouched : ∀ definition ∈ rest,
        (takeVariable first.name left).lookup definition.name = request.lookup definition.name := by
      intro definition member
      have differs : definition.name ≠ first.name := fun same => notLater (same ▸ mem_map_of_mem member)
      rw [lookup_takeVariable differs, sameRest definition member]
    obtain ⟨values, errors, ran, later, inLater⟩ := ih untouched distinctRest restInput
    cases ranFirst : bindVariable types first (request.lookup first.name) with
    | ok value =>
      refine ⟨value :: values, errors, ?_, .cons (.inl ranFirst) later, fun error => ?_⟩
      · rw [bindVariablesLoop, sameFirst, ranFirst]
        exact bind_eq_ok.mpr ⟨_, ran, rfl⟩
      · rw [inLater]
        simp [ranFirst]
    | error failure =>
      cases failure with
      | panicked abort => exact absurd ranFirst (bindVariable_ne_panicked isInput abort)
      | failed reported =>
        refine ⟨.undefined :: values, reported :: errors, ?_, .cons (.inr ⟨_, ranFirst⟩) later, fun error => ?_⟩
        · rw [bindVariablesLoop, sameFirst, ranFirst]
          exact bind_eq_ok.mpr ⟨_, ran, rfl⟩
        · rw [mem_cons, inLater]
          simp [ranFirst, eq_comm]

end Lists

def VariableError.name : VariableError → String
  | .missingVariable name _ => name
  | .invalidValue name _ => name

theorem name_of_bindVariable {types : InputTypes} {definition : VariableDefinition} {given : Option ConstValue}
    {error : VariableError} (ran : bindVariable types definition given = .error (.failed error)) :
    error.name = definition.name := by
  cases given with
  | none | some value =>
    rw [bindVariable] at ran
    split at ran <;> cases ran
    rfl

/-- Either all variables are bound, or the errors name those that cannot be bound. -/
theorem bindVariables_spec {types : InputTypes} {definitions : List VariableDefinition}
    {request : List (String × ConstValue)} (distinct : (definitions.map VariableDefinition.name).Nodup)
    (input : ∀ definition ∈ definitions, isInputType definition.ty.definitionId) :
    (∃ values, bindVariables types definitions request = .ok values ∧ List.Forall₂ (fun definition value =>
      bindVariable types definition (request.lookup definition.name) = .ok value) definitions values) ∨
    ∃ errors, bindVariables types definitions request = .error (.failed errors) ∧ ∀ definition ∈ definitions,
      (∃ error ∈ errors, error.name = definition.name) ↔
        ¬ ∃ value, bindVariable types definition (request.lookup definition.name) = .ok value := by
  obtain ⟨values, errors, looped, all, inErrors⟩ :=
    @bindVariablesLoop_spec types definitions request request (fun _ _ => rfl) distinct input
  rw [bindVariables, looped]
  cases errors with
  | nil =>
    refine .inl ⟨values, rfl, forall₂_iff_zip.mpr ⟨all.length_eq, fun member => ?_⟩⟩
    refine (forall₂_zip all member).resolve_right ?_
    rintro ⟨error, failed⟩
    exact absurd ((inErrors error).mpr ⟨_, (of_mem_zip member).1, failed⟩) not_mem_nil
  | cons error others =>
    refine .inr ⟨_, rfl, fun definition member => ⟨?_, fun rejected => ?_⟩⟩
    · rintro ⟨error, inReported, isName⟩ ⟨value, accepted⟩
      obtain ⟨other, inDefinitions, failed⟩ := (inErrors error).mp inReported
      -- Names identify definitions.
      have isOther : other = definition :=
        inj_on_of_nodup_map distinct inDefinitions member ((name_of_bindVariable failed).symm.trans isName)
      rw [isOther, accepted] at failed
      cases failed
    · cases failed : bindVariable types definition (request.lookup definition.name) with
      | ok value => exact absurd ⟨value, failed⟩ rejected
      | error failure =>
        cases failure with
        | panicked abort => exact absurd failed (bindVariable_ne_panicked (input definition member) abort)
        | failed error => exact ⟨error, (inErrors error).mpr ⟨definition, member, failed⟩, name_of_bindVariable failed⟩

/-- The named type and the number of lists are those of the declaration. -/
def KeepsType (definition : VariableDefinition) : Prop :=
  ∃ declared, declaredType types parsed.varType = some declared ∧
    definition.ty.definitionId = declared.definition ∧ definition.ty.wrapping.len = declared.depth

def AcceptableFor (given : Option ConstValue) : Prop :=
  ∃ declared, declaredType types parsed.varType = some declared ∧ Acceptable types declared parsed.defaultValue given

def SeenAsDeclared (given : Option ConstValue) (view : VariableValueView) : Prop :=
  ∃ declared, declaredType types parsed.varType = some declared ∧ SeenAs types parsed declared given view

/-- The outcome of a request: the values of all variables, or the errors of those with an unacceptable value. -/
def HeldToTypes (parsed : List ParsedVariableDefinition) (definitions : List VariableDefinition)
    (request : List (String × ConstValue)) : Prop :=
  match bindVariables types definitions request with
  | .ok values => (∀ declaration ∈ parsed, AcceptableFor types declaration (request.lookup declaration.name)) ∧
      values.length = parsed.length ∧
      ∀ (index : Nat) declaration definition value, parsed[index]? = some declaration →
        definitions[index]? = some definition → values[index]? = some value →
        SeenAsDeclared types declaration (request.lookup declaration.name) (asValue definition value)
  | .error (.failed errors) => ∀ declaration ∈ parsed,
      ((∃ error ∈ errors, error.name = declaration.name) ↔
        ¬ AcceptableFor types declaration (request.lookup declaration.name))
  | .error (.panicked _) => False

/-- All variables are bound to their declared types, and a request is held to the declared types. -/
def FollowsDeclaredTypes (parsed : List ParsedVariableDefinition) (request : List (String × ConstValue)) : Prop :=
  ∃ definitions, bindVariableDefinitions types parsed = .ok definitions ∧
    List.Forall₂ (KeepsType types) parsed definitions ∧ HeldToTypes types parsed definitions request

/-- A declaration and what a request says about it that the binder handles by the rules. -/
structure Regular (declared : InputType)
    (given : Option ConstValue) : Prop where
  depth : declared.depth ≤ 21
  /-- No list type has a default value. -/
  flat : parsed.hasDefault → declared.depth = 0
  /-- No explicit null for a variable with a default value. -/
  nonNull : parsed.hasDefault → declared.nullable → given ≠ some (.leaf .null)
  /-- No integers for identifiers, neither in the default value nor in the request. -/
  stringDefault : ∀ value, parsed.defaultValue = some value → Valid types queryEnumName false true declared value.into
  stringIds : ∀ value, given = some value → Valid types variableEnumName true true declared value →
    Valid types variableEnumName false true declared value

section Follows
variable {types parsed} {declared : InputType} {given : Option ConstValue}
  (declares : WellDeclared types parsed declared)
include declares

/-- The type and the default value of a definition that keeps the declared type. -/
theorem exists_of_keepsType {definition : VariableDefinition}
    (bound : bindVariableDefinition types parsed = .ok definition)
    (keeps : KeepsType types parsed definition) :
    declared.depth ≤ 21 ∧ (parsed.hasDefault → declared.depth = 0) ∧ ∃ ty default,
      convertType types parsed.name parsed.typeLocation parsed.varType = .ok ty ∧ shape ty = declared ∧
      coerceDefault types parsed.nameLocation ty parsed.defaultValue = .ok default ∧
      definition = boundDefinition parsed ty default := by
  obtain ⟨ty, rewritten, default, converted, ranType, -, rfl⟩ := bindVariableDefinition_eq_ok.mp bound
  obtain ⟨rfl, -, small⟩ := (convertType_spec declares.declares declares.input).2 ty converted
  have flat : parsed.hasDefault → (shape ty).depth = 0 := by
    intro hasDefault
    by_contra isList
    -- The list that the default value has added is one too many.
    have deeper := congrArg InputType.depth (shape_typeWithDefault ranType hasDefault isList)
    obtain ⟨other, declaresOther, -, sameDepth⟩ := keeps
    obtain rfl := Option.mem_unique declares.declares declaresOther
    rw [depth_shape rewritten, InputType.depth] at deeper
    dsimp only at sameDepth
    omega
  obtain ⟨default, coerced, isBound⟩ := (bindVariableDefinition_flat flat converted).mp bound
  exact ⟨small, flat, ty, default, converted, rfl, coerced, isBound⟩

theorem exists_bound_of_regular (regular : Regular types parsed declared given) :
    ∃ definition, bindVariableDefinition types parsed = .ok definition ∧ KeepsType types parsed definition := by
  obtain ⟨converts, spec⟩ := @convertType_spec types parsed.name parsed.typeLocation _ _ declares.declares
    declares.input
  obtain ⟨ty, converted⟩ := converts regular.depth
  obtain ⟨rfl, -, -⟩ := spec ty converted
  have input : isInputType ty.definitionId := definition_shape ty ▸ declares.input
  obtain ⟨default, coerced⟩ := (@exists_coerceDefault_iff types parsed ty parsed.nameLocation input).mpr
    regular.stringDefault
  refine ⟨_, (bindVariableDefinition_flat regular.flat converted).mpr ⟨default, coerced, rfl⟩, _,
    declares.declares, ?_, ?_⟩
  · rw [definition_shape]
    exact definitionId_boundType
  · rw [← depth_shape, shape_boundType]
    split
    · next hasDefault => exact (regular.flat hasDefault).symm
    · rfl

/-- The binder agrees with the rules on a request exactly when it is a regular one. -/
theorem accepted_iff_acceptable_iff {ty : TypeRecord} {default : Option QueryInputValue}
    (isDeclared : shape ty = declared)
    (flat : parsed.hasDefault → declared.depth = 0)
    (coerced : coerceDefault types parsed.nameLocation ty parsed.defaultValue = .ok default) :
    ((∃ value, bindVariable types (boundDefinition parsed ty default) given = .ok value) ↔
      AcceptableFor types parsed given) ↔ (parsed.hasDefault → declared.nullable → given ≠ some (.leaf .null)) ∧
      ∀ value, given = some value → Valid types variableEnumName true true declared value →
        Valid types variableEnumName false true declared value := by
  subst isDeclared
  have input : isInputType ty.definitionId := definition_shape ty ▸ declares.input
  have acceptable : AcceptableFor types parsed given ↔ Acceptable types (shape ty) parsed.defaultValue given := by
    constructor
    · rintro ⟨other, declaresOther, holds⟩
      obtain rfl := Option.mem_unique declares.declares declaresOther
      exact holds
    · exact fun holds => ⟨_, declares.declares, holds⟩
  rw [exists_bindVariable_iff flat input coerced, acceptable]
  cases given with
  | none => simp [Acceptable]
  | some value =>
    simp only [Acceptable, Option.some.injEq, forall_eq', ne_eq]
    constructor
    · intro agree
      refine ⟨fun hasDefault nullable isNull => ?_, fun valid => (agree.mpr valid).1⟩
      -- An explicit null is acceptable, but not accepted.
      have nonNull := (agree.mpr (isNull ▸ valid_null_iff.mpr nullable)).2 hasDefault
      rw [isNull] at nonNull
      cases nonNull
    · rintro ⟨nonNull, stringIds⟩
      refine ⟨fun both => both.1.withIntegerIds, fun valid => ⟨stringIds valid, fun hasDefault => ?_⟩⟩
      by_contra isNull
      obtain rfl := Value.eq_null (Bool.not_eq_false _ ▸ isNull)
      exact nonNull hasDefault (valid_null_iff.mp valid) rfl

end Follows

section Operation
variable {types} {parsed : List ParsedVariableDefinition} {definitions : List VariableDefinition}
  {request : List (String × ConstValue)}

theorem bindVariableDefinitions_eq_ok (distinct : (parsed.map ParsedVariableDefinition.name).Nodup) :
    bindVariableDefinitions types parsed = .ok definitions ↔
      List.Forall₂ (fun declaration definition => bindVariableDefinition types declaration = .ok definition)
        parsed definitions :=
  bindVariableDefinitionsFrom_eq_ok distinct (by simp)

theorem isInputType_of_bound (declares : ∀ declaration ∈ parsed, ∃ declared, WellDeclared types declaration declared)
    (keeps : List.Forall₂ (KeepsType types) parsed definitions) :
    ∀ definition ∈ definitions, isInputType definition.ty.definitionId := by
  intro definition member
  obtain ⟨declaration, inParsed, declared, isDeclared, sameDefinition, -⟩ := exists_left_of_forall₂ keeps member
  obtain ⟨other, wellDeclared⟩ := declares declaration inParsed
  obtain rfl := Option.mem_unique wellDeclared.declares isDeclared
  rw [sameDefinition]
  exact wellDeclared.input

variable
  (bound : List.Forall₂ (fun declaration definition => bindVariableDefinition types declaration = .ok definition)
    parsed definitions)
include bound

theorem names_of_bound : definitions.map VariableDefinition.name = parsed.map ParsedVariableDefinition.name := by
  induction bound with
  | nil => rfl
  | cons first _ ih =>
    obtain ⟨_, _, _, _, _, _, rfl⟩ := bindVariableDefinition_eq_ok.mp first
    rw [map_cons, map_cons, ih]

/-- The request is held to the types when the binder and the rules accept the same variables. -/
theorem heldToTypes_iff (distinct : (parsed.map ParsedVariableDefinition.name).Nodup)
    (declares : ∀ declaration ∈ parsed, ∃ declared, WellDeclared types declaration declared)
    (integerFree : ∀ declaration ∈ parsed, ∀ declared, declaredType types declaration.varType = some declared →
      IntegerFreeRequest types declaration declared (request.lookup declaration.name))
    (keeps : List.Forall₂ (KeepsType types) parsed definitions) : HeldToTypes types parsed definitions request ↔
      ∀ (index : Nat) declaration definition, parsed[index]? = some declaration →
        definitions[index]? = some definition →
        ((∃ value, bindVariable types definition (request.lookup declaration.name) = .ok value) ↔
          AcceptableFor types declaration (request.lookup declaration.name)) := by
  have distinctBound : (definitions.map VariableDefinition.name).Nodup := by
    rw [names_of_bound bound]
    exact distinct
  have input := isInputType_of_bound declares keeps
  have sameName {index : Nat} {declaration : ParsedVariableDefinition} {definition : VariableDefinition}
      (atParsed : parsed[index]? = some declaration) (atBound : definitions[index]? = some definition) :
      definition.name = declaration.name := by
    obtain ⟨_, _, _, _, _, _, rfl⟩ := bindVariableDefinition_eq_ok.mp (related_of_forall₂ bound atParsed atBound)
    rfl
  rw [HeldToTypes]
  rcases @bindVariables_spec types definitions request distinctBound input with
    ⟨values, ran, accepted⟩ | ⟨errors, ran, rejected⟩
  · rw [ran]
    have sameLength : values.length = parsed.length := accepted.length_eq.symm.trans bound.length_eq.symm
    constructor
    · rintro ⟨acceptable, -, -⟩ index declaration definition atParsed atBound
      refine iff_of_true ?_ (acceptable declaration (mem_of_getElem? atParsed))
      obtain ⟨value, inValues, ranValue⟩ := exists_right_of_forall₂ accepted (mem_of_getElem? atBound)
      exact ⟨value, sameName atParsed atBound ▸ ranValue⟩
    · intro agree
      have atEach {index : Nat} {declaration : ParsedVariableDefinition}
        (atParsed : parsed[index]? = some declaration) :
          ∃ definition value, definitions[index]? = some definition ∧ values[index]? = some value ∧
            bindVariable types definition (request.lookup declaration.name) = .ok value := by
        obtain ⟨definition, atBound, -⟩ := getElem?_of_forall₂ bound atParsed
        obtain ⟨value, atValue, ranValue⟩ := getElem?_of_forall₂ accepted atBound
        exact ⟨definition, value, atBound, atValue, sameName atParsed atBound ▸ ranValue⟩
      refine ⟨fun declaration member => ?_, sameLength, fun index declaration definition value atParsed atBound
        atValue => ?_⟩
      · obtain ⟨index, atParsed⟩ := mem_iff_getElem?.mp member
        obtain ⟨definition, value, atBound, -, ranValue⟩ := atEach atParsed
        exact (agree index declaration definition atParsed atBound).mp ⟨value, ranValue⟩
      · obtain ⟨declared, wellDeclared⟩ := declares declaration (mem_of_getElem? atParsed)
        obtain ⟨-, flat, ty, default, converted, isDeclared, coerced, rfl⟩ := exists_of_keepsType wellDeclared
          (related_of_forall₂ bound atParsed atBound) (related_of_forall₂ keeps atParsed atBound)
        obtain ⟨_, _, sameBound, sameValue, ranValue⟩ := atEach atParsed
        obtain rfl := Option.mem_unique atBound sameBound
        obtain rfl := Option.mem_unique atValue sameValue
        subst isDeclared
        exact ⟨_, wellDeclared.declares, seenAs_of_bindVariable flat (definition_shape ty ▸ wellDeclared.input) coerced
          (integerFree declaration (mem_of_getElem? atParsed) _ wellDeclared.declares) ranValue⟩
  · rw [ran]
    constructor
    · intro reported index declaration definition atParsed atBound
      rw [← not_iff_not, ← reported declaration (mem_of_getElem? atParsed), ← sameName atParsed atBound,
        rejected definition (mem_of_getElem? atBound)]
    · intro agree declaration member
      obtain ⟨index, atParsed⟩ := mem_iff_getElem?.mp member
      obtain ⟨definition, atBound, -⟩ := getElem?_of_forall₂ bound atParsed
      rw [← agree index declaration definition atParsed atBound, ← sameName atParsed atBound,
        rejected definition (mem_of_getElem? atBound)]

end Operation

/-- The declaration `$ids: [Int]`, with or without a default value. -/
def declareList (default : Option ConstValue) : ParsedVariableDefinition where
  name := "ids"
  nameLocation := ⟨1, 7⟩
  varType := .list (.named "Int" true) true
  typeLocation := ⟨1, 13⟩
  defaultValue := default

theorem declaredType_declareList (default : Option ConstValue) :
    declaredType (oneScalar "Int") (declareList default).varType = some (.list (.named (.scalar 0) true) true) := rfl

/-- The scalars `Int` and `JSON`. -/
def intAndJson : InputTypes :=
  { oneScalar "Int" with
    definitionByName given :=
      if given = "Int" then some (.scalar 0) else if given = "JSON" then some (.scalar 1) else none
    scalar id := if id = 0 then ⟨"Int"⟩ else ⟨"JSON"⟩ }

/-- The declaration `$meta: JSON = "none"`. -/
def declareJson : ParsedVariableDefinition where
  name := "meta"
  nameLocation := ⟨1, 21⟩
  varType := .named "JSON" true
  typeLocation := ⟨1, 27⟩
  defaultValue := some (.leaf (.string "none"))

end Grafbase.Coercion
