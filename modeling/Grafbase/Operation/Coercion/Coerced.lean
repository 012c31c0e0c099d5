import Grafbase.Operation.Coercion.Acceptance

/-! What coercion makes of a value.

The coerced value is said by the declared type alone: numbers by their value,
enum values by their names, input objects field by field in the order of the
definition. An integer inside of a JSON value is an integer. The binder makes
floats of those, so that its results are the coerced values only without them.
-/

set_option autoImplicit false
namespace Grafbase.Coercion
open Foundation List
open Schema (DefinitionId InputValueDefinitionId TypeRecord)
variable {ν ω : Type}

def InputValue.integer? : InputValue ω → Option Int
  | .int value => some value.toInt
  | .bigInt value => some value.toInt
  | .u64 value => some value.toNat
  | _ => none

/-- A JSON value as it is. -/
inductive JsonCoerced : Value ν → InputValue ω → Prop where
  | null : JsonCoerced (.leaf .null) .null
  | integer {number : Number} {integer : Int} {coerced : InputValue ω} (written : number.integer? = some integer)
      (kept : coerced.integer? = some integer) : JsonCoerced (.leaf (.number number)) coerced
  | float (value : Float) : JsonCoerced (.leaf (.number (.float value))) (.float value)
  | string (value : String) : JsonCoerced (.leaf (.string value)) (.string value)
  | boolean (value : Bool) : JsonCoerced (.leaf (.boolean value)) (.boolean value)
  | list {items : List (Value ν)} {results : List (InputValue ω)} (all : Forall₂ JsonCoerced items results) :
      JsonCoerced (.list items) (.list results)
  | object {fields : List (String × Value ν)} {entries : List (String × InputValue ω)}
      (names : fields.map Prod.fst = entries.map Prod.fst)
      (all : Forall₂ JsonCoerced (fields.map Prod.snd) (entries.map Prod.snd)) :
      JsonCoerced (.object fields) (.map entries)

/-- A value in the representation of a scalar. -/
def RepresentedAs : Schema.ScalarType → Value ν → InputValue ω → Prop
  | .int, value, coerced => ∃ number held, value = .leaf (.number number) ∧ coerced = .int held ∧
      number.integer? = some held.toInt
  | .bigInt, value, coerced => ∃ number held, value = .leaf (.number number) ∧ coerced = .bigInt held ∧
      number.integer? = some held.toInt
  | .float, value, coerced => ∃ number held, value = .leaf (.number number) ∧ coerced = .float held ∧
      number.asF64 = some held
  | .string, value, coerced => ∃ text, value = .leaf (.string text) ∧ coerced = .string text
  | .boolean, value, coerced => ∃ truth, value = .leaf (.boolean truth) ∧ coerced = .boolean truth
  | .json, value, coerced => JsonCoerced value coerced

/-- A value of a scalar by its name. Identifiers are strings, also those that are given as integers. -/
def ScalarCoerced (name : String) (value : Value ν) (coerced : InputValue ω) : Prop :=
  match name with
  | "Int" => RepresentedAs .int value coerced
  | "BigInt" => RepresentedAs .bigInt value coerced
  | "Float" => RepresentedAs .float value coerced
  | "String" => RepresentedAs .string value coerced
  | "Boolean" => RepresentedAs .boolean value coerced
  | "ID" => RepresentedAs .string value coerced ∨ ∃ number integer, value = .leaf (.number number) ∧
      number.integer? = some integer ∧ coerced = .string (toString integer)
  | _ => RepresentedAs .json value coerced

mutual
/-- A value of a type. With `single`, a single value stands for the lists around it. -/
inductive Coerced (types : InputTypes) (enumName : ValueLeaf ν → Option String) :
    Bool → InputType → Value ν → InputValue ω → Prop where
  | null {single : Bool} {ty : InputType} : Coerced types enumName single ty (.leaf .null) .null
  | scalar {single nullable : Bool} {id : Schema.ScalarDefinitionId} {value : Value ν} {coerced : InputValue ω}
      (nonNull : value.isNull = false) (scalarCoerced : ScalarCoerced (types.scalar id).name value coerced) :
      Coerced types enumName single (.named (.scalar id) nullable) value coerced
  | enum {single nullable : Bool} {id : Schema.EnumDefinitionId} {leaf : ValueLeaf ν} {name : String}
      {valueId : Schema.EnumValueId} (named : enumName leaf = some name)
      (member : (name, valueId) ∈ (types.enum id).values) :
      Coerced types enumName single (.named (.enum id) nullable) (.leaf leaf) (.enumValue valueId)
  | inputObject {single nullable : Bool} {id : Schema.InputObjectDefinitionId} {fields : List (String × Value ν)}
      {results : List (InputValueDefinitionId × InputValue ω)}
      (all : FieldsCoerced types enumName fields (types.inputObject id).inputFields results) :
      Coerced types enumName single (.named (.inputObject id) nullable) (.object fields) (.inputObject results)
  | list {single nullable : Bool} {item : InputType} {items : List (Value ν)} {results : List (InputValue ω)}
      (all : ItemsCoerced types enumName item items results) :
      Coerced types enumName single (.list item nullable) (.list items) (.list results)
  | single {nullable : Bool} {item : InputType} {value : Value ν} {coerced : InputValue ω}
      (nonNull : value.isNull = false) (nonList : value.isArray = false)
      (inner : Coerced types enumName true item value coerced) :
      Coerced types enumName true (.list item nullable) value (.list [coerced])

inductive ItemsCoerced (types : InputTypes) (enumName : ValueLeaf ν → Option String) :
    InputType → List (Value ν) → List (InputValue ω) → Prop where
  | nil {item : InputType} : ItemsCoerced types enumName item [] []
  | cons {item : InputType} {value : Value ν} {coerced : InputValue ω} {rest : List (Value ν)}
      {results : List (InputValue ω)} (inner : Coerced types enumName false item value coerced)
      (later : ItemsCoerced types enumName item rest results) :
      ItemsCoerced types enumName item (value :: rest) (coerced :: results)

/-- The fields of an input object: those given, and those with a default value. -/
inductive FieldsCoerced (types : InputTypes) (enumName : ValueLeaf ν → Option String) :
    List (String × Value ν) → List InputField → List (InputValueDefinitionId × InputValue ω) → Prop where
  | nil {fields : List (String × Value ν)} : FieldsCoerced types enumName fields [] []
  | given {fields : List (String × Value ν)} {field : InputField} {rest : List InputField} {value : Value ν}
      {coerced : InputValue ω} {results : List (InputValueDefinitionId × InputValue ω)}
      (member : (field.name, value) ∈ fields) (inner : Coerced types enumName true (shape field.ty) value coerced)
      (later : FieldsCoerced types enumName fields rest results) :
      FieldsCoerced types enumName fields (field :: rest) ((field.id, coerced) :: results)
  | default {fields : List (String × Value ν)} {field : InputField} {rest : List InputField}
      {defaultId : Schema.SchemaInputValueId} {results : List (InputValueDefinitionId × InputValue ω)}
      (absent : field.name ∉ fields.map Prod.fst) (hasDefault : field.defaultValueId = some defaultId)
      (later : FieldsCoerced types enumName fields rest results) :
      FieldsCoerced types enumName fields (field :: rest) ((field.id, .defaultValue defaultId) :: results)
  | omitted {fields : List (String × Value ν)} {field : InputField} {rest : List InputField}
      {results : List (InputValueDefinitionId × InputValue ω)}
      (absent : field.name ∉ fields.map Prod.fst) (noDefault : field.defaultValueId = none)
      (later : FieldsCoerced types enumName fields rest results) :
      FieldsCoerced types enumName fields (field :: rest) results
end

/-- The values inside of a value of a type that are given for a JSON scalar. -/
inductive JsonAt (types : InputTypes) : InputType → Value ν → Value ν → Prop where
  | scalar {id : Schema.ScalarDefinitionId} {nullable : Bool} {value : Value ν}
      (json : (types.scalar id).ty = .json) : JsonAt types (.named (.scalar id) nullable) value value
  | field {id : Schema.InputObjectDefinitionId} {nullable : Bool} {fields : List (String × Value ν)}
      {field : InputField} {value inner : Value ν} (known : field ∈ (types.inputObject id).inputFields)
      (member : (field.name, value) ∈ fields) (below : JsonAt types (shape field.ty) value inner) :
      JsonAt types (.named (.inputObject id) nullable) (.object fields) inner
  | item {item : InputType} {nullable : Bool} {items : List (Value ν)} {value inner : Value ν}
      (member : value ∈ items) (below : JsonAt types item value inner) :
      JsonAt types (.list item nullable) (.list items) inner
  | single {item : InputType} {nullable : Bool} {value inner : Value ν} (nonList : value.isArray = false)
      (below : JsonAt types item value inner) : JsonAt types (.list item nullable) value inner

/-- No integer is written in a JSON value. -/
inductive IntegerFree : Value ν → Prop where
  | leaf {leaf : ValueLeaf ν} (other : ∀ number integer, leaf = .number number → number.integer? ≠ some integer) :
      IntegerFree (.leaf leaf)
  | list {items : List (Value ν)} (all : ∀ item ∈ items, IntegerFree item) : IntegerFree (.list items)
  | object {fields : List (String × Value ν)} (all : ∀ field ∈ fields, IntegerFree field.2) :
      IntegerFree (.object fields)

/-- No integer is written in what a value of a type gives for JSON scalars. -/
def IntegerFreeJson (types : InputTypes) (ty : InputType) (value : Value ν) : Prop :=
  ∀ inner, JsonAt types ty value inner → IntegerFree inner

theorem Number.asI32_eq_some {number : Number} {value : Int32} (read : number.asI32 = some value) :
    number.integer? = some value.toInt := by
  obtain ⟨wide, readWide, narrow⟩ := Option.bind_eq_some_iff.mp read
  obtain ⟨same, isValue⟩ := Option.ite_none_right_eq_some.mp narrow
  obtain rfl := Option.some.inj isValue
  rw [asI64_eq_some readWide, ← Int32.toInt_toInt64, same]

section Scalars
variable {σ : Type} {ctx : Context ν ω σ} {path : List ValuePathSegment} {before after : σ}
  {scalar : ScalarDefinition} {value : Value ν} {coerced : InputValue ω}

theorem eq_of_pure_eq_ok {α : Type} {result given : α}
    (ran : (pure given : Coercing σ α) before = .ok (result, after)) :
    result = given :=
  (Prod.mk.inj (Coercing.pure_eq_ok.mp ran)).1

theorem coerceNumber_eq_ok {α : Type} {number : Number} {read : Number → Option α} {make : α → InputValue ω}
    (ran : coerceNumber ctx path scalar number read make before = .ok (coerced, after)) :
    ∃ held, read number = some held ∧ coerced = make held := by
  rw [coerceNumber] at ran
  cases isRead : read number with
  | none =>
    rw [isRead] at ran
    cases ran
  | some held =>
    rw [isRead] at ran
    exact ⟨held, rfl, eq_of_pure_eq_ok ran⟩

theorem jsonCoerced_coerceJsonItems {items : List (Value ν)} {results : List (InputValue ω)}
    (coerces : ∀ item ∈ items, ∀ {before after coerced},
      coerceJson ctx path scalar item before = .ok (coerced, after) → JsonCoerced item coerced)
    (ran : coerceJsonItems ctx path scalar items before = .ok (results, after)) :
    Forall₂ JsonCoerced items results := by
  induction items generalizing before results with
  | nil =>
    rw [coerceJsonItems] at ran
    exact eq_of_pure_eq_ok ran ▸ .nil
  | cons item rest ih =>
    rw [coerceJsonItems] at ran
    obtain ⟨first, between, ranFirst, ranRest⟩ := Coercing.bind_eq_ok.mp ran
    obtain ⟨others, last, ranOthers, made⟩ := Coercing.bind_eq_ok.mp ranRest
    obtain ⟨rfl, rfl⟩ := Prod.mk.inj (Coercing.pure_eq_ok.mp made)
    exact .cons (coerces item (by simp) ranFirst)
      (ih (fun other member => coerces other (mem_cons_of_mem _ member)) ranOthers)

theorem jsonCoerced_coerceJsonFields {fields : List (String × Value ν)} {entries : List (String × InputValue ω)}
    (coerces : ∀ field ∈ fields, ∀ {before after coerced},
      coerceJson ctx path scalar field.2 before = .ok (coerced, after) → JsonCoerced field.2 coerced)
    (ran : coerceJsonFields ctx path scalar fields before = .ok (entries, after)) :
    fields.map Prod.fst = entries.map Prod.fst ∧
      Forall₂ JsonCoerced (fields.map Prod.snd) (entries.map Prod.snd) := by
  induction fields generalizing before entries with
  | nil =>
    rw [coerceJsonFields] at ran
    obtain rfl := eq_of_pure_eq_ok ran
    exact ⟨rfl, .nil⟩
  | cons field rest ih =>
    rw [coerceJsonFields] at ran
    obtain ⟨first, between, ranFirst, ranRest⟩ := Coercing.bind_eq_ok.mp ran
    obtain ⟨others, last, ranOthers, made⟩ := Coercing.bind_eq_ok.mp ranRest
    obtain ⟨rfl, rfl⟩ := Prod.mk.inj (Coercing.pure_eq_ok.mp made)
    obtain ⟨names, all⟩ := ih (fun other member => coerces other (mem_cons_of_mem _ member)) ranOthers
    exact ⟨congrArg (field.1 :: ·) names, .cons (coerces field (by simp) ranFirst) all⟩

theorem jsonCoerced_coerceJson (integerFree : IntegerFree value)
    (ran : coerceJson ctx path scalar value before = .ok (coerced, after)) : JsonCoerced value coerced := by
  induction value using Literal.induct generalizing before after coerced with
  | leaf leaf =>
    cases leaf with
    | null | string | boolean =>
      rw [coerceJson] at ran
      obtain rfl := eq_of_pure_eq_ok ran
      constructor
    | number number =>
      cases integerFree with
      | leaf other =>
        cases number with
        | posInt held | negInt held => exact absurd rfl (other _ _ rfl)
        | float held =>
          rw [coerceJson] at ran
          obtain rfl := eq_of_pure_eq_ok ran
          exact .float held
    | enum name | «variable» name =>
      rw [coerceJson] at ran
      exact absurd ⟨_, ran⟩ not_accepts_incorrectScalarType
  | list items ih =>
    obtain ⟨results, between, ranItems, made⟩ := Coercing.bind_eq_ok.mp (by rwa [coerceJson] at ran)
    obtain rfl := eq_of_pure_eq_ok made
    cases integerFree with
    | list free => exact .list (jsonCoerced_coerceJsonItems
      (fun item member => ih item member (free item member)) ranItems)
  | object fields ih =>
    obtain ⟨entries, between, ranFields, made⟩ := Coercing.bind_eq_ok.mp (by rwa [coerceJson] at ran)
    obtain rfl := eq_of_pure_eq_ok made
    cases integerFree with
    | object free =>
      obtain ⟨names, all⟩ := jsonCoerced_coerceJsonFields
        (fun field member => ih field member (free field member)) ranFields
      exact .object names all

theorem representedAs_coerceScalar {id : Schema.ScalarDefinitionId} (nonVariable : value.isVariable = false)
    (integerFree : (ctx.types.scalar id).ty = .json → IntegerFree value)
    (ran : coerceScalar ctx path id value before = .ok (coerced, after)) :
    RepresentedAs (ctx.types.scalar id).ty value coerced := by
  unfold coerceScalar at ran
  generalize (ctx.types.scalar id).ty = representation at *
  split at ran
  · exact jsonCoerced_coerceJson (integerFree rfl) ran
  · obtain ⟨held, read, rfl⟩ := coerceNumber_eq_ok ran
    exact ⟨_, held, rfl, rfl, Number.asI32_eq_some read⟩
  · obtain ⟨held, read, rfl⟩ := coerceNumber_eq_ok ran
    exact ⟨_, held, rfl, rfl, Number.asI64_eq_some read⟩
  · obtain ⟨held, read, rfl⟩ := coerceNumber_eq_ok ran
    exact ⟨_, held, rfl, rfl, read⟩
  · exact ⟨_, rfl, eq_of_pure_eq_ok ran⟩
  · exact ⟨_, rfl, eq_of_pure_eq_ok ran⟩
  · cases nonVariable
  · exact absurd ⟨_, ran⟩ not_accepts_incorrectScalarType

theorem scalarCoerced_of_represented {name : String}
    (represented : RepresentedAs (.fromScalarName name) value coerced) : ScalarCoerced name value coerced := by
  unfold ScalarCoerced
  split
  · exact represented
  · exact represented
  · exact represented
  · exact represented
  · exact represented
  · exact .inl represented
  · unfold Schema.ScalarType.fromScalarName at represented
    split at represented <;> first | exact represented | contradiction

theorem exists_of_coerceEnum {id : Schema.EnumDefinitionId}
    (ran : coerceEnum ctx path id value before = .ok (coerced, after)) : ∃ leaf name valueId, value = .leaf leaf ∧
      ctx.enumName leaf = some name ∧ (name, valueId) ∈ (ctx.types.enum id).values ∧ coerced = .enumValue valueId := by
  obtain ⟨leaf, name, rfl, named, -⟩ := accepts_coerceEnum.mp ⟨_, ran⟩
  simp only [coerceEnum, named] at ran
  cases found : (ctx.types.enum id).findValueByName name with
  | none =>
    rw [found] at ran
    cases ran
  | some valueId =>
    rw [found] at ran
    obtain ⟨entry, isEntry, rfl⟩ := Option.map_eq_some_iff.mp found
    have sameName : entry.1 = name := by simpa using find?_some isEntry
    exact ⟨leaf, name, entry.2, rfl, named, sameName ▸ mem_of_find?_eq_some isEntry, eq_of_pure_eq_ok ran⟩

end Scalars

section Values
open Coercing
variable {σ : Type} {ctx : Context ν ω σ} {path : List ValuePathSegment} {before after : σ}
  {value : Value ν} {coerced : InputValue ω}

variable (ctx) in
/-- What a value is coerced to, wherever a single value may not stand for a list. -/
def CoercesAsItem (value : Value ν) : Prop :=
  ∀ path (ty : TypeRecord) before coerced after, IntegerFreeJson ctx.types (shape ty) value →
    coerceWrappedValue ctx path ty ty.wrapping.popListWrapping value before = .ok (coerced, after) →
    Coerced ctx.types ctx.enumName false (shape ty) value coerced

variable (ctx) in
def CoercesAsInput (value : Value ν) : Prop :=
  ∀ path (ty : TypeRecord) before coerced after, IntegerFreeJson ctx.types (shape ty) value →
    coerceInputValue ctx path ty value before = .ok (coerced, after) →
    Coerced ctx.types ctx.enumName true (shape ty) value coerced

variable (ctx) in
/-- What a value that is not null is coerced to as a value of a named type. -/
def CoercesAsNamed (value : Value ν) : Prop :=
  ∀ path (ty : TypeRecord) before coerced after single nullable, value.isNull = false →
    IntegerFreeJson ctx.types (.named ty.definitionId nullable) value →
    coerceNamedType ctx path ty value before = .ok (coerced, after) →
    Coerced ctx.types ctx.enumName single (.named ty.definitionId nullable) value coerced

theorem itemsCoerced_coerceItems {index : Nat} {items : List (Value ν)} {results : List (InputValue ω)}
    {ty : TypeRecord} (coerces : ∀ item ∈ items, CoercesAsItem ctx item)
    (integerFree : ∀ item ∈ items, IntegerFreeJson ctx.types (shape ty) item)
    (ran : coerceItems ctx path ty index items before = .ok (results, after)) :
    ItemsCoerced ctx.types ctx.enumName (shape ty) items results := by
  induction items generalizing index before results with
  | nil =>
    rw [coerceItems] at ran
    exact eq_of_pure_eq_ok ran ▸ .nil
  | cons item rest ih =>
    rw [coerceItems] at ran
    obtain ⟨first, between, ranFirst, ranRest⟩ := Coercing.bind_eq_ok.mp ran
    obtain ⟨others, last, ranOthers, made⟩ := Coercing.bind_eq_ok.mp ranRest
    obtain ⟨rfl, rfl⟩ := Prod.mk.inj (Coercing.pure_eq_ok.mp made)
    obtain ⟨coercesFirst, coercesRest⟩ := forall_mem_cons.mp coerces
    obtain ⟨freeFirst, freeRest⟩ := forall_mem_cons.mp integerFree
    exact .cons (coercesFirst _ ty _ _ _ freeFirst ranFirst) (ih coercesRest freeRest ranOthers)

/-- Fields that were taken out are not looked for again. -/
theorem FieldsCoerced.of_takeOut {types : InputTypes} {enumName : ValueLeaf ν → Option String}
    {fields : List (String × Value ν)} {name : String} {inputFields : List InputField}
    {results : List (InputValueDefinitionId × InputValue ω)} (fresh : ∀ field ∈ inputFields, field.name ≠ name)
    (coerced : FieldsCoerced types enumName (takeOut name fields) inputFields results) :
    FieldsCoerced types enumName fields inputFields results := by
  have absentBefore {other : String} (differs : other ≠ name) (absent : other ∉ (takeOut name fields).map Prod.fst) :
      other ∉ fields.map Prod.fst := by
    obtain ⟨-, same⟩ | ⟨taken, perm⟩ := takeOut_cases name fields
    · rwa [same] at absent
    · intro member
      have := (perm.map Prod.fst).symm.subset member
      exact (mem_cons.mp this).elim differs absent
  induction inputFields generalizing results with
  | nil =>
    cases coerced
    exact .nil
  | cons field rest ih =>
    obtain ⟨differs, freshRest⟩ := forall_mem_cons.mp fresh
    cases coerced with
    | given member inner later => exact .given (mem_of_mem_takeOut member) inner (ih freshRest later)
    | default absent hasDefault later => exact .default (absentBefore differs absent) hasDefault (ih freshRest later)
    | omitted absent noDefault later => exact .omitted (absentBefore differs absent) noDefault (ih freshRest later)

theorem fieldsCoerced_coerceInputFields {fields left : List (String × Value ν)} {inputFields : List InputField}
    {buffer results : List (InputValueDefinitionId × InputValue ω)}
    (distinct : (inputFields.map InputField.name).Nodup) (coerces : ∀ field ∈ fields, CoercesAsInput ctx field.2)
    (integerFree : ∀ field ∈ inputFields, ∀ value, (field.name, value) ∈ fields →
      IntegerFreeJson ctx.types (shape field.ty) value)
    (ran : coerceInputFields ctx path fields buffer inputFields before = .ok ((left, results), after)) :
    ∃ added, results = buffer ++ added ∧ FieldsCoerced ctx.types ctx.enumName fields inputFields added := by
  induction inputFields generalizing fields buffer before with
  | nil =>
    rw [coerceInputFields] at ran
    exact ⟨[], by rw [(Prod.mk.inj (eq_of_pure_eq_ok ran)).2, append_nil], .nil⟩
  | cons inputField rest ih =>
    obtain ⟨notLater, distinctRest⟩ := nodup_cons.mp distinct
    obtain ⟨freeFirst, freeRest⟩ := forall_mem_cons.mp integerFree
    cases found : fields.lookup inputField.name with
    | none =>
      have absent : inputField.name ∉ fields.map Prod.fst := mt isSome_lookup.mpr (by simp [found])
      rw [coerceInputFields_absent found] at ran
      cases isDefault : inputField.defaultValueId with
      | some defaultId =>
        rw [isDefault] at ran
        obtain ⟨added, rfl, all⟩ := ih distinctRest coerces freeRest ran
        exact ⟨_ :: added, by rw [append_assoc, singleton_append], .default absent isDefault all⟩
      | none =>
        rw [isDefault] at ran
        by_cases required : inputField.ty.wrapping.isRequired
        · simp only [if_pos required] at ran
          cases ran
        · simp only [if_neg required] at ran
          obtain ⟨added, same, all⟩ := ih distinctRest coerces freeRest ran
          exact ⟨added, same, .omitted absent isDefault all⟩
    | some value =>
      rw [coerceInputFields_present found] at ran
      have member := mem_of_lookup_eq_some found
      obtain ⟨first, between, ranFirst, ranRest⟩ := Coercing.bind_eq_ok.mp ran
      obtain ⟨added, rfl, all⟩ := ih distinctRest (fun field inLeft => coerces field (mem_of_mem_takeOut inLeft))
        (fun field inRest value inLeft => freeRest field inRest value (mem_of_mem_takeOut inLeft)) ranRest
      have fresh : ∀ field ∈ rest, field.name ≠ inputField.name := fun field inRest same =>
        notLater (same ▸ mem_map_of_mem inRest)
      exact ⟨_ :: added, by rw [append_assoc, singleton_append], .given member
        (coerces _ member _ inputField.ty _ _ _ (freeFirst value member) ranFirst) (all.of_takeOut fresh)⟩

section Single
variable {types : InputTypes} {enumName : ValueLeaf ν → Option String} {ty : InputType} {nullable : Bool}

theorem wrapInLists_list (count : Nat) (coerced : InputValue ω) :
    wrapInLists count (.list [coerced]) = .list [wrapInLists count coerced] := by
  induction count generalizing coerced with
  | zero => rfl
  | succ count ih => exact ih _

theorem Coerced.of_named {definition : DefinitionId} {first second loose : Bool}
    (inner : Coerced types enumName first (.named definition loose) value coerced) :
    Coerced types enumName second (.named definition nullable) value coerced := by
  cases inner with
  | null => exact .null
  | scalar nonNull scalarCoerced => exact .scalar nonNull scalarCoerced
  | enum named member => exact .enum named member
  | inputObject all => exact .inputObject all

theorem Coerced.single_of_item (inner : Coerced types enumName false ty value coerced) :
    Coerced types enumName true ty value coerced := by
  cases ty with
  | named => exact inner.of_named
  | list =>
    cases inner with
    | null => exact .null
    | list all => exact .list all

theorem Coerced.wrapped (nonNull : value.isNull = false) (nonList : value.isArray = false)
    (inner : Coerced types enumName true (.named ty.definition nullable) value coerced) :
    Coerced types enumName true ty value (wrapInLists ty.depth coerced) := by
  induction ty with
  | named definition other => exact inner.of_named
  | list item other ih =>
    rw [InputType.depth, wrapInLists, wrapInLists_list]
    exact .single nonNull nonList (ih inner)

theorem JsonAt.of_named {inner : Value ν} (nonList : value.isArray = false)
    (below : JsonAt types (.named ty.definition nullable) value inner) : JsonAt types ty value inner := by
  induction ty with
  | named definition other =>
    cases below with
    | scalar json => exact .scalar json
    | field known member deeper => exact .field known member deeper
  | list item other ih => exact .single nonList (ih below)

end Single

theorem coercesAsInput (named : CoercesAsNamed ctx value) (item : CoercesAsItem ctx value) :
    CoercesAsInput ctx value := by
  intro path ty before coerced after integerFree ran
  rw [coerceInputValue] at ran
  split at ran
  · next single =>
    simp only [Bool.and_eq_true, Bool.not_eq_true'] at single
    obtain ⟨⟨⟨-, nonList⟩, nonNull⟩, -⟩ := single
    obtain ⟨inner, between, ranNamed, made⟩ := Coercing.bind_eq_ok.mp ran
    obtain rfl := eq_of_pure_eq_ok made
    rw [← depth_shape]
    have ofNamed : Coerced ctx.types ctx.enumName true (.named (shape ty).definition true) value inner := by
      rw [definition_shape]
      refine named path ty before inner between true true nonNull (fun deeper below => integerFree deeper ?_) ranNamed
      exact JsonAt.of_named nonList (definition_shape ty ▸ below)
    exact ofNamed.wrapped nonNull nonList
  · exact (item path ty before coerced after integerFree ran).single_of_item

variable (rejects : RejectsVariables ctx)
include rejects

theorem coercesAsNamed (fields : ∀ list, value = .object list → ∀ field ∈ list, CoercesAsInput ctx field.2) :
    CoercesAsNamed ctx value := by
  intro path ty before coerced after single nullable nonNull integerFree ran
  by_cases isVariable : value.isVariable
  · obtain ⟨name, rfl⟩ := Value.exists_variable isVariable
    rw [coerceNamedType] at ran
    exact absurd ⟨_, ran⟩ (rejects.variableRef path name ty before)
  rw [Bool.not_eq_true] at isVariable
  rw [coerceNamedType_plain isVariable nonNull] at ran
  cases isDefinition : ty.definitionId with
  | scalar id =>
    rw [isDefinition] at ran integerFree
    exact .scalar nonNull (scalarCoerced_of_represented
      (representedAs_coerceScalar isVariable (fun json => integerFree value (.scalar json)) ran))
  | enum id =>
    rw [isDefinition] at ran
    obtain ⟨leaf, name, valueId, rfl, named, member, rfl⟩ := exists_of_coerceEnum ran
    exact .enum named member
  | inputObject id =>
    rw [isDefinition] at ran integerFree
    by_cases isObject : ∃ list, value = .object list
    · obtain ⟨list, rfl⟩ := isObject
      dsimp only at ran
      rw [coerceInputObject] at ran
      obtain ⟨⟨left, results⟩, between, ranFields, made⟩ := Coercing.bind_eq_ok.mp ran
      obtain ⟨added, rfl, all⟩ := fieldsCoerced_coerceInputFields (ctx.types.inputObject id).distinct (fields list rfl)
        (fun field known value member inner below => integerFree inner (.field known member below)) ranFields
      cases left with
      | nil => exact eq_of_pure_eq_ok made ▸ .inputObject all
      | cons field others => cases made
    · exact absurd ⟨_, ran⟩ (not_accepts_coerceInputObject fun list same => isObject ⟨list, same⟩)
  | object | interface | union =>
    rw [isDefinition] at ran
    cases ran

theorem coercesAsItem (named : CoercesAsNamed ctx value)
    (items : ∀ list, value = .list list → ∀ item ∈ list, CoercesAsItem ctx item) : CoercesAsItem ctx value := by
  intro path ty before coerced after integerFree ran
  by_cases isVariable : value.isVariable
  · obtain ⟨name, rfl⟩ := Value.exists_variable isVariable
    rw [coerceWrappedValue] at ran
    exact absurd ⟨_, ran⟩ (rejects.variableRef path name ty before)
  rw [Bool.not_eq_true] at isVariable
  by_cases isNull : value.isNull
  · obtain rfl := Value.eq_null isNull
    have isCoerced : coerced = .null := by
      cases popped : ty.wrapping.popListWrapping with
      | none =>
        rw [popped, coerceWrappedValue_named rfl, coerceNamedType] at ran
        split at ran
        · cases ran
        · exact eq_of_pure_eq_ok ran
      | some last =>
        obtain ⟨list, rest⟩ := last
        rw [popped] at ran
        cases list with
        | requiredList =>
          rw [coerceWrappedValue] at ran
          cases ran
        | nullableList =>
          rw [coerceWrappedValue] at ran
          exact eq_of_pure_eq_ok ran
    exact isCoerced ▸ .null
  rw [Bool.not_eq_true] at isNull
  cases popped : ty.wrapping.popListWrapping with
  | none =>
    rw [popped, coerceWrappedValue_named isVariable] at ran
    rw [shape_of_pop_none popped] at integerFree ⊢
    exact named path ty before coerced after false _ isNull integerFree ran
  | some last =>
    obtain ⟨list, rest⟩ := last
    rw [popped] at ran
    rw [shape_of_pop_some popped] at integerFree ⊢
    by_cases isArray : value.isArray
    · obtain ⟨inner, rfl⟩ := Value.exists_list isArray
      rw [coerceWrappedValue] at ran
      obtain ⟨results, between, ranItems, made⟩ := Coercing.bind_eq_ok.mp ran
      obtain rfl := eq_of_pure_eq_ok made
      exact .list (itemsCoerced_coerceItems (items inner rfl)
        (fun item member deeper below => integerFree deeper (.item member below)) ranItems)
    · rw [Bool.not_eq_true] at isArray
      rw [coerceWrappedValue_missingList isVariable isNull isArray] at ran
      exact absurd ⟨_, ran⟩ (not_accepts_bind (fun _ between => not_accepts_fail _ between) before)

/-- Without integers in JSON values, a value that is accepted is coerced by the rules. -/
theorem coerces (value : Value ν) : CoercesAsItem ctx value ∧ CoercesAsInput ctx value := by
  induction value using Literal.induct with
  | leaf leaf =>
    have named : CoercesAsNamed ctx (.leaf leaf) := coercesAsNamed rejects nofun
    have item := coercesAsItem rejects named nofun
    exact ⟨item, coercesAsInput named item⟩
  | list items ih =>
    have named : CoercesAsNamed ctx (.list items) := coercesAsNamed rejects nofun
    have item := coercesAsItem rejects named fun list same => by
      cases same
      exact fun item member => (ih item member).1
    exact ⟨item, coercesAsInput named item⟩
  | object fields ih =>
    have named : CoercesAsNamed ctx (.object fields) := coercesAsNamed rejects fun list same => by
      cases same
      exact fun field member => (ih field member).2
    have item := coercesAsItem rejects named nofun
    exact ⟨item, coercesAsInput named item⟩

end Values
end Grafbase.Coercion
