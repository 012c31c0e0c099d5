import Grafbase.Operation.Coercion.Variables

/-! Valid input values, and that coercion accepts them.

The rules are those of the October 2021 edition of the GraphQL specification. A
single value may stand for a list, but not for a list within a list.
-/

set_option autoImplicit false

namespace Grafbase.Coercion
open Foundation List
open Schema (DefinitionId Failure ScalarType TypeRecord)

/-- Input types by the types that they wrap. -/
inductive InputType where
  | named (definition : DefinitionId) (nullable : Bool)
  | list (item : InputType) (nullable : Bool)
  deriving DecidableEq

namespace InputType

def nullable : InputType → Bool
  | named _ nullable => nullable
  | list _ nullable => nullable

def definition : InputType → DefinitionId
  | named definition _ => definition
  | list item _ => item.definition

def depth : InputType → Nat
  | named _ _ => 0
  | list item _ => item.depth + 1

end InputType

/-- The type that a wrapping describes, from the innermost list to the outermost. -/
def shape (ty : TypeRecord) : InputType :=
  ty.wrapping.listWrappings.foldl (fun item list => .list item (decide (list = .nullableList)))
    (.named ty.definitionId !ty.wrapping.innerIsRequired)

variable {ty : TypeRecord}

theorem shape_of_pop_none (empty : ty.wrapping.popListWrapping = none) :
    shape ty = .named ty.definitionId !ty.wrapping.innerIsRequired := by
  rw [shape, Wrapping.nextBack_eq_none.mp empty, foldl_nil]

theorem shape_of_pop_some {list : ListWrapping} {rest : Wrapping}
    (popped : ty.wrapping.popListWrapping = some (list, rest)) :
    shape ty = .list (shape { ty with wrapping := rest }) (decide (list = .nullableList)) := by
  obtain ⟨lists, inner⟩ := Wrapping.nextBack_eq_some popped
  rw [shape, lists, foldl_append, foldl_cons, foldl_nil, ← inner]
  rfl

theorem nullable_shape (ty : TypeRecord) : (shape ty).nullable = ty.wrapping.isNullable := by
  rw [Wrapping.isNullable, Wrapping.isRequired]
  cases popped : ty.wrapping.nextBack with
  | none => rw [shape_of_pop_none popped, InputType.nullable]
  | some last =>
    obtain ⟨list, rest⟩ := last
    rw [shape_of_pop_some popped, InputType.nullable]
    cases list <;> rfl

theorem depth_shape (ty : TypeRecord) : (shape ty).depth = ty.wrapping.len := by
  rw [shape, Wrapping.len_eq]
  -- Each wrapping adds one level.
  induction ty.wrapping.listWrappings using List.reverseRecOn with
  | nil => rfl
  | append_singleton rest list ih =>
    rw [foldl_append, foldl_cons, foldl_nil, InputType.depth, ih, length_append, length_singleton]

theorem definition_shape (ty : TypeRecord) : (shape ty).definition = ty.definitionId :=
  List.foldlRecOn (motive := fun item => InputType.definition item = ty.definitionId) _ _ rfl fun _ same _ _ => same

theorem isList_eq_false (empty : ty.wrapping.popListWrapping = none) : ty.wrapping.isList = false := by
  rw [Wrapping.isList_eq, Wrapping.nextBack_eq_none.mp empty]
  rfl

def Number.integer? : Number → Option Int
  | .posInt value => some value.toNat
  | .negInt value => some value.toInt
  | .float _ => none

variable {ν : Type}

/-- Values that have a JSON representation. -/
inductive JsonValue : Value ν → Prop where
  | null : JsonValue (.leaf .null)
  | number (number : Number) : JsonValue (.leaf (.number number))
  | string (value : String) : JsonValue (.leaf (.string value))
  | boolean (value : Bool) : JsonValue (.leaf (.boolean value))
  | list {items : List (Value ν)} (all : ∀ item ∈ items, JsonValue item) : JsonValue (.list items)
  | object {fields : List (String × Value ν)} (all : ∀ field ∈ fields, JsonValue field.2) : JsonValue (.object fields)

/-- Values of a scalar. Identifiers are strings, and also integers if those are allowed for. -/
def ScalarValue (integerIds : Bool) (name : String) (value : Value ν) : Prop :=
  match name with
  | "Int" => ∃ number integer, value = .leaf (.number number) ∧ number.integer? = some integer ∧
      -2 ^ 31 ≤ integer ∧ integer < 2 ^ 31
  | "BigInt" => ∃ number integer, value = .leaf (.number number) ∧ number.integer? = some integer ∧
      -2 ^ 63 ≤ integer ∧ integer < 2 ^ 63
  | "Float" => ∃ number, value = .leaf (.number number)
  | "String" => ∃ text, value = .leaf (.string text)
  | "Boolean" => ∃ truth, value = .leaf (.boolean truth)
  | "ID" => (∃ text, value = .leaf (.string text)) ∨
      integerIds ∧ ∃ number integer, value = .leaf (.number number) ∧ number.integer? = some integer
  | _ => JsonValue value

/-- Values of a type. With `single`, a single value may stand for a list. -/
inductive Valid (types : InputTypes) (enumName : ValueLeaf ν → Option String) (integerIds : Bool) :
    Bool → InputType → Value ν → Prop where
  | null {single : Bool} {ty : InputType} (nullable : ty.nullable) :
    Valid types enumName integerIds single ty (.leaf .null)
  | scalar {single nullable : Bool} {id : Schema.ScalarDefinitionId} {value : Value ν} (nonNull : value.isNull = false)
      (scalarValue : ScalarValue integerIds (types.scalar id).name value) :
      Valid types enumName integerIds single (.named (.scalar id) nullable) value
  | enum {single nullable : Bool} {id : Schema.EnumDefinitionId} {leaf : ValueLeaf ν} {name : String}
      (named : enumName leaf = some name) (member : name ∈ (types.enum id).values.map Prod.fst)
      (nonNull : Value.isNull (.leaf leaf) = false) :
      Valid types enumName integerIds single (.named (.enum id) nullable) (.leaf leaf)
  | inputObject {single nullable : Bool} {id : Schema.InputObjectDefinitionId} {fields : List (String × Value ν)}
      (distinct : (fields.map Prod.fst).Nodup)
      (known : ∀ name ∈ fields.map Prod.fst, ∃ field ∈ (types.inputObject id).inputFields, field.name = name)
      (given : ∀ field ∈ (types.inputObject id).inputFields,
        field.name ∈ fields.map Prod.fst ∨ field.defaultValueId.isSome ∨ (shape field.ty).nullable)
      (all : ∀ field ∈ (types.inputObject id).inputFields, ∀ value, (field.name, value) ∈ fields →
        Valid types enumName integerIds true (shape field.ty) value) :
      Valid types enumName integerIds single (.named (.inputObject id) nullable) (.object fields)
  | list {single nullable : Bool} {item : InputType} {items : List (Value ν)}
      (all : ∀ value ∈ items, Valid types enumName integerIds false item value) :
      Valid types enumName integerIds single (.list item nullable) (.list items)
  | single {nullable : Bool} {item : InputType} {value : Value ν} (nonNull : value.isNull = false)
      (nonList : value.isArray = false) (valid : Valid types enumName integerIds true item value) :
      Valid types enumName integerIds true (.list item nullable) value

namespace Number
variable {number : Number}

theorem asI64_eq_some {value : Int64} (read : number.asI64 = some value) : number.integer? = some value.toInt := by
  cases number with
  | posInt held =>
    simp only [asI64] at read
    split at read
    · next small =>
      obtain rfl := Option.some.inj read
      have below : 2 * held.toBitVec.toNat < 2 ^ 64 := by
        change 2 * held.toNat < 2 ^ 64
        omega
      exact congrArg some (BitVec.toInt_eq_toNat_of_lt below).symm
    · cases read
  | negInt held =>
    obtain rfl := Option.some.inj read
    rfl
  | float held => cases read

theorem asI64_isSome :
    number.asI64.isSome ↔ ∃ integer, number.integer? = some integer ∧ -2 ^ 63 ≤ integer ∧ integer < 2 ^ 63 := by
  cases number with
  | posInt value =>
    simp only [asI64, integer?, Option.some.injEq, exists_eq_left']
    split <;> simp <;> omega
  | negInt value =>
    have low := value.le_toInt
    have high := value.toInt_lt
    simp only [asI64, integer?, Option.some.injEq, exists_eq_left', Option.isSome_some, true_iff]
    omega
  | float value => simp [asI64, integer?]

theorem toInt32_toInt64_eq_iff (value : Int64) :
    value.toInt32.toInt64 = value ↔ -2 ^ 31 ≤ value.toInt ∧ value.toInt < 2 ^ 31 := by
  have low := value.le_toInt
  have high := value.toInt_lt
  rw [← Int64.toInt_inj, Int32.toInt_toInt64, Int64.toInt_toInt32, Int.bmod_def]
  omega

theorem asI32_isSome :
    number.asI32.isSome ↔ ∃ integer, number.integer? = some integer ∧ -2 ^ 31 ≤ integer ∧ integer < 2 ^ 31 := by
  rw [asI32]
  cases read : number.asI64 with
  | none =>
    -- Not in the range of 64 bits, let alone in that of 32 bits.
    have outside := mt asI64_isSome.mpr (by simp [read] : ¬ number.asI64.isSome)
    simp only [Option.bind_none, Option.isSome_none, Bool.false_eq_true, false_iff]
    rintro ⟨integer, same, low, high⟩
    exact outside ⟨integer, same, by omega, by omega⟩
  | some value =>
    rw [asI64_eq_some read]
    simp only [Option.bind_some, Option.some.injEq, exists_eq_left', ← toInt32_toInt64_eq_iff]
    split <;> simp_all

theorem asF64_isSome (number : Number) : number.asF64.isSome := by
  cases number <;> rfl

end Number

section Scalars
variable {ω σ : Type} {ctx : Context ν ω σ} {path : List ValuePathSegment} {before : σ}

open Coercing
variable {scalar : ScalarDefinition} {value : Value ν}

theorem not_accepts_incorrectScalarType : ¬ Accepts (incorrectScalarType ctx path scalar value) before :=
  not_accepts_bind (fun _ between => not_accepts_fail _ between) before

theorem accepts_coerceNumber {α : Type} {number : Number} {read : Number → Option α} {make : α → InputValue ω} :
    Accepts (coerceNumber ctx path scalar number read make) before ↔ (read number).isSome := by
  rw [coerceNumber]
  cases read number with
  | some value => exact iff_of_true (accepts_pure _ before) rfl
  | none => exact iff_of_false (not_accepts_fail _ before) (by simp)

theorem accepts_jsonNumber (number : Number) :
    Accepts (checked (jsonNumber number) : Coercing σ (InputValue ω)) before := by
  obtain ⟨value, read⟩ := Option.isSome_iff_exists.mp number.asF64_isSome
  rw [jsonNumber, read]
  exact accepts_pure _ before

theorem accepts_coerceJson : Accepts (coerceJson ctx path scalar value) before ↔ JsonValue value := by
  induction value using Literal.induct generalizing before with
  | leaf leaf =>
    cases leaf with
    | null => exact iff_of_true (by rw [coerceJson]; exact accepts_pure _ before) .null
    | number number => exact iff_of_true (by rw [coerceJson]; exact accepts_jsonNumber number) (.number number)
    | string value => exact iff_of_true (by rw [coerceJson]; exact accepts_pure _ before) (.string value)
    | boolean value => exact iff_of_true (by rw [coerceJson]; exact accepts_pure _ before) (.boolean value)
    | enum name
    | «variable» name => exact iff_of_false (by rw [coerceJson]; exact not_accepts_incorrectScalarType) nofun
  | list items ih =>
    have ofItems : ∀ before, Accepts (coerceJsonItems ctx path scalar items) before ↔
      ∀ item ∈ items, JsonValue item := by
      induction items with
      | nil => exact fun before => iff_of_true (by rw [coerceJsonItems]; exact accepts_pure _ before) (by simp)
      | cons item rest ihRest =>
        intro before
        have later := ihRest fun other member => ih other (mem_cons_of_mem _ member)
        rw [coerceJsonItems, accepts_bind fun value between => (accepts_bind_pure between).trans (later between),
          ih item (by simp), forall_mem_cons]
    rw [coerceJson, accepts_bind_pure, ofItems before]
    exact ⟨.list, fun | .list all => all⟩
  | object fields ih =>
    have ofFields : ∀ before, Accepts (coerceJsonFields ctx path scalar fields) before ↔
        ∀ field ∈ fields, JsonValue field.2 := by
      induction fields with
      | nil => exact fun before => iff_of_true (by rw [coerceJsonFields]; exact accepts_pure _ before) (by simp)
      | cons field rest ihRest =>
        intro before
        have later := ihRest fun other member => ih other (mem_cons_of_mem _ member)
        rw [coerceJsonFields, accepts_bind fun value between => (accepts_bind_pure between).trans (later between),
          ih field (by simp), forall_mem_cons]
    rw [coerceJson, accepts_bind_pure, ofFields before]
    exact ⟨.object, fun | .object all => all⟩

/-- Values of a scalar by its representation. -/
def RepresentedValue : ScalarType → Value ν → Prop
  | .int, .leaf (.number number) => number.asI32.isSome
  | .bigInt, .leaf (.number number) => number.asI64.isSome
  | .float, .leaf (.number _) => True
  | .string, .leaf (.string _) => True
  | .boolean, .leaf (.boolean _) => True
  | .json, value => JsonValue value
  | _, _ => False

theorem accepts_coerceScalar {id : Schema.ScalarDefinitionId} (nonVariable : value.isVariable = false) :
    Accepts (coerceScalar ctx path id value) before ↔ RepresentedValue (ctx.types.scalar id).ty value := by
  unfold coerceScalar
  dsimp only
  generalize (ctx.types.scalar id).ty = representation
  split
  · exact accepts_coerceJson
  · exact accepts_coerceNumber
  · exact accepts_coerceNumber
  · exact accepts_coerceNumber.trans (iff_true_intro (Number.asF64_isSome _))
  · exact iff_true_intro (accepts_pure _ before)
  · exact iff_true_intro (accepts_pure _ before)
  · cases nonVariable
  · unfold RepresentedValue
    refine iff_of_false not_accepts_incorrectScalarType ?_
    split <;> simp_all

theorem scalarValue_iff {name : String} :
    ScalarValue false name value ↔ RepresentedValue (.fromScalarName name) value := by
  unfold ScalarType.fromScalarName
  split <;> simp only [ScalarValue]
  case h_8 => exact Iff.rfl
  all_goals
    rcases value with leaf | items | fields
    · cases leaf <;> simp [RepresentedValue, Number.asI32_isSome, Number.asI64_isSome]
    · simp [RepresentedValue]
    · simp [RepresentedValue]

theorem accepts_coerceEnum {id : Schema.EnumDefinitionId} :
    Accepts (coerceEnum ctx path id value) before ↔ ∃ leaf name, value = .leaf leaf ∧ ctx.enumName leaf = some name ∧
        name ∈ (ctx.types.enum id).values.map Prod.fst := by
  unfold coerceEnum
  dsimp only
  split
  · next name isName =>
    have ofName : (∃ leaf name, value = .leaf leaf ∧ ctx.enumName leaf = some name ∧
        name ∈ (ctx.types.enum id).values.map Prod.fst) ↔ name ∈ (ctx.types.enum id).values.map Prod.fst := by
      split at isName
      · next leaf => simp [isName]
      · cases isName
    rw [ofName, EnumDefinition.findValueByName]
    cases found : (ctx.types.enum id).values.find? (·.1 = name) with
    | none =>
      refine iff_of_false (not_accepts_fail _ before) fun member => ?_
      obtain ⟨entry, inValues, isEntry⟩ := mem_map.mp member
      simpa [isEntry] using find?_eq_none.mp found entry inValues
    | some entry =>
      have isEntry : entry.1 = name := by simpa using find?_some found
      exact iff_of_true (accepts_pure _ before) (isEntry ▸ mem_map_of_mem (mem_of_find?_eq_some found))
  · next noName =>
    refine iff_of_false (not_accepts_bind (fun _ between => not_accepts_fail _ between) before) ?_
    rintro ⟨leaf, name, rfl, named, -⟩
    simp [named] at noName

end Scalars

/-- The fields of an object are those that an input object has or may leave out. -/
structure FieldsFit (holds : InputField → Value ν → Prop) (inputFields : List InputField)
    (fields : List (String × Value ν)) : Prop where
  distinct : (fields.map Prod.fst).Nodup
  known : ∀ name ∈ fields.map Prod.fst, ∃ field ∈ inputFields, field.name = name
  given : ∀ field ∈ inputFields,
    field.name ∈ fields.map Prod.fst ∨ field.defaultValueId.isSome ∨ (shape field.ty).nullable
  all : ∀ field ∈ inputFields, ∀ value, (field.name, value) ∈ fields → holds field value

section Fields
variable {holds : InputField → Value ν → Prop} {field : InputField} {rest : List InputField}
  {fields : List (String × Value ν)}

theorem fieldsFit_nil : FieldsFit holds [] fields ↔ fields = [] := by
  constructor
  · intro fit
    cases fields with
    | nil => rfl
    | cons first others =>
      obtain ⟨_, absurdMember, _⟩ := fit.known first.1 (by simp)
      cases absurdMember
  · rintro rfl
    exact ⟨by simp, by simp, by simp, by simp⟩

theorem fieldsFit_cons_absent (absent : fields.lookup field.name = none) : FieldsFit holds (field :: rest) fields ↔
      (field.defaultValueId.isSome ∨ (shape field.ty).nullable) ∧ FieldsFit holds rest fields := by
  have noKey : field.name ∉ fields.map Prod.fst := mt isSome_lookup.mpr (by simp [absent])
  constructor
  · intro fit
    refine ⟨(fit.given field (by simp)).resolve_left noKey, fit.distinct, fun name member => ?_,
      fun other member => fit.given other (mem_cons_of_mem _ member),
      fun other member => fit.all other (mem_cons_of_mem _ member)⟩
    obtain ⟨other, inFields, isName⟩ := fit.known name member
    rcases mem_cons.mp inFields with rfl | later
    · exact absurd (isName ▸ member) noKey
    · exact ⟨other, later, isName⟩
  · rintro ⟨omitted, fit⟩
    refine ⟨fit.distinct, fun name member => ?_, ?_, ?_⟩
    · obtain ⟨other, inFields, isName⟩ := fit.known name member
      exact ⟨other, mem_cons_of_mem _ inFields, isName⟩
    · exact forall_mem_cons.mpr ⟨.inr omitted, fit.given⟩
    · exact forall_mem_cons.mpr
        ⟨fun value member => absurd (mem_map_of_mem (f := Prod.fst) member) noKey, fit.all⟩

theorem fieldsFit_cons_present {value : Value ν} (distinct : ((field :: rest).map InputField.name).Nodup)
    (found : fields.lookup field.name = some value) :
    FieldsFit holds (field :: rest) fields ↔ holds field value ∧ FieldsFit holds rest (takeOut field.name fields) := by
  have inFields := mem_of_lookup_eq_some found
  have fresh : ∀ other ∈ rest, other.name ≠ field.name := fun other member same =>
    (nodup_cons.mp distinct).1 (same ▸ mem_map_of_mem member)
  obtain ⟨absent, -⟩ | ⟨taken, perm⟩ := takeOut_cases field.name fields
  · exact absurd (mem_map_of_mem (f := Prod.fst) inFields) absent
  have keys := perm.map Prod.fst
  rw [map_cons] at keys
  constructor
  · intro fit
    have fresher := nodup_cons.mp (keys.nodup_iff.mpr fit.distinct)
    refine ⟨fit.all field (by simp) value inFields, fresher.2, fun name member => ?_, fun other member => ?_,
      fun other member held inLeft => fit.all other (mem_cons_of_mem _ member) held (mem_of_mem_takeOut inLeft)⟩
    · obtain ⟨other, inInput, isName⟩ := fit.known name (keys.subset (mem_cons_of_mem _ member))
      rcases mem_cons.mp inInput with rfl | later
      · exact absurd (isName ▸ member) fresher.1
      · exact ⟨other, later, isName⟩
    · refine (fit.given other (mem_cons_of_mem _ member)).imp_left fun inKeys => ?_
      exact (mem_cons.mp (keys.symm.subset inKeys)).resolve_left (fresh other member)
  · rintro ⟨valid, fit⟩
    -- No field that is left has the name of the one taken out.
    have gone : field.name ∉ (takeOut field.name fields).map Prod.fst := by
      intro member
      obtain ⟨other, inInput, isName⟩ := fit.known _ member
      exact fresh other inInput isName
    have unique : ∀ held, (field.name, held) ∈ fields → held = taken := by
      intro held member
      rcases mem_cons.mp (perm.symm.subset member) with same | left
      · exact (Prod.mk.inj same).2
      · exact absurd (mem_map_of_mem (f := Prod.fst) left) gone
    refine ⟨keys.nodup_iff.mp (nodup_cons.mpr ⟨gone, fit.distinct⟩), fun name member => ?_, ?_, ?_⟩
    · rcases mem_cons.mp (keys.symm.subset member) with rfl | left
      · exact ⟨field, by simp, rfl⟩
      · obtain ⟨other, inInput, isName⟩ := fit.known name left
        exact ⟨other, mem_cons_of_mem _ inInput, isName⟩
    · refine forall_mem_cons.mpr ⟨.inl (mem_map_of_mem (f := Prod.fst) inFields), fun other member => ?_⟩
      exact (fit.given other member).imp_left fun inKeys => keys.subset (mem_cons_of_mem _ inKeys)
    · refine forall_mem_cons.mpr ⟨fun held member => ?_, fun other member held inAll => ?_⟩
      · rw [unique held member, ← unique value inFields]
        exact valid
      · rcases mem_cons.mp (perm.symm.subset inAll) with same | left
        · exact absurd (Prod.mk.inj same).1 (fresh other member)
        · exact fit.all other member held left

end Fields
end Grafbase.Coercion
