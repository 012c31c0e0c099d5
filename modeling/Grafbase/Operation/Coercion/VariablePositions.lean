import Grafbase.Operation.Coercion.Acceptance

/-! Values of variables at the positions where the variables are used.

A variable is checked once against the type of a position. The check looks at
the outermost nullability and at the number of lists. What its values may hold
below that, and which of them are lists themselves, is not looked at.
-/

set_option autoImplicit false

namespace Grafbase.Coercion
open Foundation List
open Operation (Location)
open Schema (DefinitionId ScalarType TypeRecord)

theorem rejectsVariables_request (types : InputTypes) (location : Location) :
    RejectsVariables (VariableCoercionContext types location) :=
  ⟨fun _ => nofun, nofun⟩

theorem coerceVariable_isOk {types : InputTypes} {definition : VariableDefinition} {value : ConstValue}
    (input : isInputType definition.ty.definitionId) :
    (∃ coerced, coerceVariable types definition value = .ok coerced) ↔
      Valid types variableEnumName false true (shape definition.ty) value := by
  have agree := (agrees (rejectsVariables_request types definition.nameLocation) value).2 [] definition.ty () input
  refine Iff.trans ⟨?_, ?_⟩ agree
  · rintro ⟨coerced, ran⟩
    obtain ⟨result, ranInner, -⟩ := map_eq_ok.mp ran
    exact ⟨result, ranInner⟩
  · rintro ⟨result, ran⟩
    exact ⟨result.1, map_eq_ok.mpr ⟨result, ran, rfl⟩⟩

section Types
variable {ν : Type} {types : InputTypes} {enumName : ValueLeaf ν → Option String} {integerIds single : Bool}
  {value : Value ν}

theorem Valid.withIntegerIds {ty : InputType} (valid : Valid types enumName false single ty value) :
    Valid types enumName true single ty value := by
  induction valid with
  | null nullable => exact .null nullable
  | scalar nonNull scalarValue =>
    refine .scalar nonNull ?_
    unfold ScalarValue at scalarValue ⊢
    split at scalarValue
    case h_6 => exact .inl (scalarValue.resolve_right (by simp))
    all_goals exact scalarValue
  | enum named member nonNull => exact .enum named member nonNull
  | inputObject distinct known given _ ih => exact .inputObject distinct known given ih
  | list _ ih => exact .list ih
  | single nonNull nonList _ ih => exact .single nonNull nonList ih

/-- Wherever the second type forbids null, the first one does. -/
def InputType.NoLooser : InputType → InputType → Prop
  | .named _ loose, .named _ nullable => loose → nullable
  | .list looser loose, .list item nullable => (loose → nullable) ∧ looser.NoLooser item
  | _, _ => False

instance InputType.decidableNoLooser : (first second : InputType) → Decidable (first.NoLooser second)
  | .named _ loose, .named _ nullable => inferInstanceAs (Decidable (loose → nullable))
  | .list looser loose, .list item nullable =>
    have := decidableNoLooser looser item
    inferInstanceAs (Decidable ((loose → nullable) ∧ looser.NoLooser item))
  | .named _ _, .list _ _ => isFalse id
  | .list _ _, .named _ _ => isFalse id

variable {first second : InputType}

theorem Valid.of_noLooser (tighter : first.NoLooser second)
    (same : first.definition = second.definition) (valid : Valid types enumName integerIds single first value) :
    Valid types enumName integerIds single second value := by
  induction first generalizing second single value with
  | named definition loose =>
    cases second with
    | list => exact tighter.elim
    | named other nullable =>
      obtain rfl : definition = other := same
      exact valid.of_named fun _ => tighter
  | list looser loose ih =>
    cases second with
    | named => exact tighter.elim
    | list item nullable =>
      obtain ⟨outer, inner⟩ := tighter
      cases valid with
      | null isNullable => exact .null (outer isNullable)
      | list all => exact .list fun value member => ih inner same (all value member)
      | single nonNull nonList valid => exact .single nonNull nonList (ih inner same valid)

/-- Where a type is looser, it has a value that the other one does not have. -/
theorem exists_valid_of_looser (looser : ¬ first.NoLooser second)
    (same : first.depth = second.depth) (types : InputTypes) (enumName : ValueLeaf ν → Option String)
    (integerIds otherIds : Bool) :
    ∃ value, Valid types enumName integerIds false first value ∧
      ¬ Valid types enumName otherIds false second value := by
  induction first generalizing second with
  | named definition loose =>
    cases second with
    | list => cases same
    | named other nullable =>
      have ⟨isLoose, isRequired⟩ := Classical.not_imp.mp looser
      exact ⟨.leaf .null, valid_null_iff.mpr isLoose, fun valid => isRequired (valid_null_iff.mp valid)⟩
  | list item loose ih =>
    cases second with
    | named => cases same
    | list other nullable =>
      by_cases outer : loose → nullable
      · -- The difference is further inside.
        obtain ⟨value, valid, invalid⟩ := ih (fun inner => looser ⟨outer, inner⟩) (Nat.succ.inj same)
        refine ⟨.list [value], .list fun other member => mem_singleton.mp member ▸ valid, fun valid => ?_⟩
        cases valid with
        | list all => exact invalid (all value (by simp))
      · have ⟨isLoose, isRequired⟩ := Classical.not_imp.mp outer
        exact ⟨.leaf .null, valid_null_iff.mpr isLoose, fun valid => isRequired (valid_null_iff.mp valid)⟩

end Types

/-- A scalar with any JSON as values, lists included. -/
def isJson (types : InputTypes) : DefinitionId → Bool
  | .scalar id => decide ((types.scalar id).ty = .json)
  | _ => false

section Json
variable {ν : Type} {types : InputTypes} {enumName : ValueLeaf ν → Option String} {single nullable : Bool}
  {definition : DefinitionId} {value : Value ν}

theorem valid_json_iff (json : isJson types definition = true) (nonNull : value.isNull = false) :
    Valid types enumName false single (.named definition nullable) value ↔ JsonValue value := by
  unfold isJson at json
  split at json
  case h_2 => cases json
  next id =>
    have ofScalar : ScalarValue false (types.scalar id).name value ↔ JsonValue value := by
      refine scalarValue_iff.trans ?_
      rw [show ScalarType.fromScalarName (types.scalar id).name = .json from of_decide_eq_true json]
      exact Iff.rfl
    refine Iff.trans ⟨fun valid => ?_, .scalar nonNull⟩ ofScalar
    cases valid with
    | null => cases nonNull
    | scalar _ scalarValue => exact scalarValue

theorem isJson_of_valid_list {items : List (Value ν)}
    (valid : Valid types enumName false single (.named definition nullable) (.list items)) :
    isJson types definition = true := by
  cases valid with
  | @scalar _ _ id _ _ scalarValue =>
    have represented : RepresentedValue (types.scalar id).ty (.list items) := scalarValue_iff.mp scalarValue
    refine decide_eq_true ?_
    unfold RepresentedValue at represented
    split at represented <;> first | rfl | simp_all

end Json

/-- The values of a variable are values of the position, for a variable that is compatible with it. -/
def SafeUse (types : InputTypes) : InputType → InputType → Prop
  | .named definition _, .list item _ => isJson types definition = false ∨ item = .named definition true
  | .list looser _, .list item _ => looser.NoLooser item
  | _, .named _ _ => True

instance (types : InputTypes) : (used expected : InputType) → Decidable (SafeUse types used expected)
  | .named definition _, .list item _ =>
    inferInstanceAs (Decidable (isJson types definition = false ∨ item = .named definition true))
  | .list looser _, .list item _ => inferInstanceAs (Decidable (looser.NoLooser item))
  | .named _ _, .named _ _ => isTrue trivial
  | .list _ _, .named _ _ => isTrue trivial

theorem isCompatibleWith_iff {variableTy ty : TypeRecord} :
    isCompatibleWith variableTy ty ↔ variableTy.definitionId = ty.definitionId ∧
      ((shape variableTy).depth = 0 ∨ (shape variableTy).depth = (shape ty).depth) ∧
      ((shape variableTy).nullable → (shape ty).nullable) := by
  rw [depth_shape, depth_shape, nullable_shape, nullable_shape, isCompatibleWith, Wrapping.isList_eq, Wrapping.len_eq]
  simp only [Bool.and_eq_true, Bool.or_eq_true, decide_eq_true_eq, Bool.not_not, List.isEmpty_iff,
    length_eq_zero_iff, Wrapping.isNullable, Bool.not_eq_true', and_assoc]
  cases variableTy.wrapping.isRequired <;> simp

section Use
variable {types : InputTypes} {used expected : InputType}

theorem valid_of_safeUse (same : used.definition = expected.definition)
    (depth : used.depth = 0 ∨ used.depth = expected.depth) (nullable : used.nullable → expected.nullable)
    (safe : SafeUse types used expected) {value : ConstValue}
      (valid : Valid types variableEnumName false true used value) :
    Valid types variableEnumName false true expected value := by
  cases used with
  | list looser loose =>
    cases expected with
    | named => exact absurd depth (by simp [InputType.depth])
    | list item other =>
      have tighter : (InputType.list looser loose).NoLooser (.list item other) := ⟨nullable, safe⟩
      exact valid.of_noLooser tighter same
  | named definition loose =>
    cases expected with
    | named other strict =>
      have tighter : (InputType.named definition loose).NoLooser (.named other strict) := nullable
      exact valid.of_noLooser tighter same
    | list item other =>
      by_cases isNull : value.isNull
      · obtain rfl := Value.eq_null isNull
        exact .null (nullable (valid_null_iff.mp valid))
      rw [Bool.not_eq_true] at isNull
      by_cases isArray : value.isArray
      · -- A list of JSON is read as a list of the position.
        obtain ⟨items, rfl⟩ := Value.exists_list isArray
        have json := isJson_of_valid_list valid
        obtain rfl := safe.resolve_left (by simp [json])
        have all : ∀ item ∈ items, JsonValue item := by
          cases (valid_json_iff json isNull).mp valid with
          | list all => exact all
        refine .list fun inner member => ?_
        by_cases innerNull : inner.isNull
        · obtain rfl := Value.eq_null innerNull
          exact .null rfl
        · rw [Bool.not_eq_true] at innerNull
          exact (valid_json_iff json innerNull).mpr (all inner member)
      · rw [Bool.not_eq_true] at isArray
        have ofNamed : Valid types variableEnumName false true
            (.named (InputType.list item other).definition loose) value := by
          rw [← same]
          exact valid
        exact (valid_single_iff isNull isArray).mpr ofNamed

theorem exists_invalid_of_not_safeUse (same : used.definition = expected.definition)
    (depth : used.depth = 0 ∨ used.depth = expected.depth) (unsafeUse : ¬ SafeUse types used expected) :
    ∃ value : ConstValue, Valid types variableEnumName false true used value ∧
      ¬ Valid types variableEnumName true true expected value := by
  cases expected with
  | named => cases used <;> exact absurd trivial unsafeUse
  | list item other =>
    cases used with
    | list looser loose =>
      have innerDepth : looser.depth = item.depth := Nat.succ.inj (depth.resolve_left (by simp [InputType.depth]))
      obtain ⟨value, valid, invalid⟩ := exists_valid_of_looser unsafeUse innerDepth types variableEnumName false true
      refine ⟨.list [value], .list fun other member => mem_singleton.mp member ▸ valid, fun valid => ?_⟩
      cases valid with
      | list all => exact invalid (all value (by simp))
      | single _ nonList => cases nonList
    | named definition loose =>
      obtain ⟨json, notNullable⟩ := not_or.mp unsafeUse
      rw [Bool.not_eq_false] at json
      have ofJson : ∀ items : List ConstValue, JsonValue (.list items) →
          Valid types variableEnumName false true (.named definition loose) (.list items) :=
        fun items isJson => (valid_json_iff json rfl).mpr isJson
      cases item with
      | named inner nullable =>
        -- A null in a list of JSON.
        obtain rfl : definition = inner := same
        obtain rfl : nullable = false := by simpa using notNullable
        refine ⟨.list [.leaf .null], ofJson _ (.list fun _ member => mem_singleton.mp member ▸ .null), fun valid => ?_⟩
        cases valid with
        | list all => cases valid_null_iff.mp (all _ (mem_singleton.mpr rfl))
        | single _ nonList => cases nonList
      | list inner nullable =>
        -- A list of JSON that is not a list of lists.
        refine ⟨.list [.leaf (.boolean true)],
          ofJson _ (.list fun _ member => mem_singleton.mp member ▸ .boolean true), fun valid => ?_⟩
        cases valid with
        | list all => cases all _ (mem_singleton.mpr rfl)
        | single _ nonList => cases nonList

end Use

theorem variableRef_eq_ok {types : InputTypes} {location : Location} {isDefaultValue : Bool}
    {path : List ValuePathSegment} {name : String} {ty : TypeRecord} {definitions after : List VariableDefinition}
    {used : QueryInputValue}
    (ran : variableRef types location isDefaultValue path name ty definitions = .ok (used, after)) :
    ∃ id definition, used = .variable id ∧ definitions[id]? = some definition ∧ isCompatibleWith definition.ty ty := by
  unfold variableRef at ran
  split at ran
  · cases ran
  split at ran
  · cases ran
  next id _ =>
    split at ran
    · cases ran
    next definition found =>
      split at ran
      · next compatible =>
        obtain ⟨isUsed, -⟩ := Prod.mk.inj (Except.ok.inj ran)
        exact ⟨id, definition, isUsed.symm, found, compatible⟩
      · cases ran

/-- The values of a variable are values of every position that it is used at, exactly when it forbids null wherever
the position does, and when a position of lists does not take a variable with lists as its single values. -/
theorem variableRef_safe_iff (types : InputTypes) (location : Location) (isDefaultValue : Bool)
    (path : List ValuePathSegment) (name : String) (ty : TypeRecord) (definitions : List VariableDefinition)
    (input : ∀ definition ∈ definitions, isInputType definition.ty.definitionId) : (∀ id definition after,
      variableRef types location isDefaultValue path name ty definitions = .ok (.variable id, after) →
      definitions[id]? = some definition → ∀ value, (∃ coerced, coerceVariable types definition value = .ok coerced) →
      Valid types variableEnumName true true (shape ty) value) ↔ ∀ id definition after,
      variableRef types location isDefaultValue path name ty definitions = .ok (.variable id, after) →
      definitions[id]? = some definition → SafeUse types (shape definition.ty) (shape ty) := by
  refine forall_congr' fun id => forall_congr' fun definition => forall_congr' fun after =>
    forall_congr' fun ran => forall_congr' fun found => ?_
  obtain ⟨_, other, sameId, otherFound, compatible⟩ := variableRef_eq_ok ran
  cases sameId
  obtain rfl := Option.mem_unique found otherFound
  obtain ⟨sameDefinition, depth, nullable⟩ := isCompatibleWith_iff.mp compatible
  have same : (shape definition.ty).definition = (shape ty).definition := by
    rw [definition_shape, definition_shape, sameDefinition]
  have accepted (value : ConstValue) := @coerceVariable_isOk types definition value
    (input definition (mem_of_getElem? found))
  constructor
  · intro all
    by_contra unsafeUse
    obtain ⟨value, valid, invalid⟩ := exists_invalid_of_not_safeUse same depth unsafeUse
    exact invalid (all value ((accepted value).mpr valid))
  · intro safe value coerced
    exact (valid_of_safeUse same depth nullable safe ((accepted value).mp coerced)).withIntegerIds

/-- Input types with a single scalar. -/
def oneScalar (name : String) : InputTypes where
  definitionByName given := if given = name then some (.scalar 0) else none
  definitionName := fun _ => name
  scalar := fun _ => ⟨name⟩
  enum := fun _ => ⟨"", []⟩
  inputObject := fun _ => ⟨"", [], by simp, by simp⟩

/-- A scalar in a list that may be null, with items that may be null or not. -/
def listOfScalar (itemIsRequired : Bool) : TypeRecord where
  definitionId := .scalar 0
  wrapping := if itemIsRequired then ⟨0x80200000, by decide, by decide⟩ else ⟨0x00200000, by decide, by decide⟩

def variableOf (ty : TypeRecord) : VariableDefinition :=
  { name := "ids", nameLocation := ⟨1, 1⟩, defaultValue := none, inUse := false, ty }

/-- A variable of type `[Int]` can be used where a `[Int!]` is expected, and brings in a list with a null. -/
theorem variableRef_lets_null_in :
    (∃ after, variableRef (oneScalar "Int") ⟨1, 1⟩ false [] "ids" (listOfScalar true)
      [variableOf (listOfScalar false)] =
      .ok (.variable 0, after)) ∧
    (∃ coerced, coerceVariable (oneScalar "Int") (variableOf (listOfScalar false))
      (.list [.leaf .null]) = .ok coerced) ∧
    ¬ Valid (oneScalar "Int") variableEnumName true true (shape (listOfScalar true)) (.list [.leaf .null]) := by
  have compatible : isCompatibleWith (listOfScalar false) (listOfScalar true) = true := by decide +kernel
  refine ⟨⟨[{ variableOf (listOfScalar false) with inUse := true }], ?_⟩, (coerceVariable_isOk rfl).mpr ?_, ?_⟩
  · simp [variableRef, variableOf, compatible]
  · exact .list fun _ member => mem_singleton.mp member ▸ .null rfl
  · intro valid
    cases valid with
    | list all => cases valid_null_iff.mp (all _ (mem_singleton.mpr rfl))
    | single _ nonList => cases nonList

theorem variableRef_safe_same_type : isInputType (listOfScalar true).definitionId ∧ ∀ id definition after,
      variableRef (oneScalar "Int") ⟨1, 1⟩ false [] "ids" (listOfScalar true) [variableOf (listOfScalar true)] =
        .ok (.variable id, after) → [variableOf (listOfScalar true)][id]? = some definition →
      ∀ value, (∃ coerced, coerceVariable (oneScalar "Int") definition value = .ok coerced) →
      Valid (oneScalar "Int") variableEnumName true true (shape (listOfScalar true)) value := by
  refine ⟨by simp [listOfScalar, isInputType], (variableRef_safe_iff (oneScalar "Int") ⟨1, 1⟩ false [] "ids"
    (listOfScalar true) [variableOf (listOfScalar true)] (by simp [variableOf, listOfScalar, isInputType])).mpr ?_⟩
  intro id definition after _ found
  have isOnly : definition = variableOf (listOfScalar true) := by
    simpa using mem_of_getElem? found
  rw [isOnly]
  decide

end Grafbase.Coercion
