import Grafbase.Operation.Coercion.Acceptance

/-! Coercion of the values of a request does not abort. -/

set_option autoImplicit false

namespace Grafbase.Coercion
open Foundation
open Schema (TypeRecord)

/-- A coercion that succeeds or fails with an error. -/
def Settles {σ α : Type} (coercion : Coercing σ α) : Prop := ∀ before abort, coercion before ≠ .error (.panicked abort)

section Combinators
variable {σ α β : Type}

theorem settles_pure (value : α) : Settles (pure value : Coercing σ α) := fun _ _ => nofun

theorem settles_fail (error : InputValueError) : Settles (Coercing.fail error : Coercing σ α) := fun _ _ => nofun

theorem settles_bind {first : Coercing σ α} {next : α → Coercing σ β} (settlesFirst : Settles first)
    (settlesNext : ∀ value, Settles (next value)) : Settles (first >>= next) := by
  intro before abort ran
  change (first before >>= fun middle => next middle.1 middle.2) = _ at ran
  cases ranFirst : first before with
  | error failure =>
    rw [ranFirst] at ran
    cases ran
    exact settlesFirst before abort ranFirst
  | ok middle =>
    rw [ranFirst] at ran
    exact settlesNext middle.1 middle.2 abort ran

end Combinators

section Requests
variable {ω σ : Type} {ctx : Context Empty ω σ} {path : List ValuePathSegment}

theorem settles_kind (value : ConstValue) {α : Type} {next : Schema.ValueKind → Coercing σ α}
    (settles : ∀ kind, Settles (next kind)) : Settles (Coercing.checked value.kind >>= next) := by
  refine settles_bind ?_ settles
  unfold Value.kind
  split <;> first | exact settles_pure _ | contradiction

variable {value : ConstValue} {scalar : ScalarDefinition}

theorem settles_incorrectScalarType : Settles (incorrectScalarType ctx path scalar value) :=
  settles_kind value fun _ => settles_fail _

theorem settles_coerceNumber {α : Type} {number : Number} {read : Number → Option α}
    {make : α → InputValue ω} : Settles (coerceNumber ctx path scalar number read make) := by
  unfold coerceNumber
  split
  · exact settles_pure _
  · exact settles_fail _

theorem settles_coerceJson : Settles (coerceJson ctx path scalar value) := by
  induction value using Literal.induct with
  | leaf leaf =>
    cases leaf with
    | null | string | boolean => rw [coerceJson]; exact settles_pure _
    | number number =>
      obtain ⟨value, read⟩ := Option.isSome_iff_exists.mp number.asF64_isSome
      rw [coerceJson, jsonNumber, read]
      exact settles_pure _
    | enum name => rw [coerceJson]; exact settles_incorrectScalarType
    | «variable» name => exact name.elim
  | list items ih | object items ih =>
    rw [coerceJson]
    refine settles_bind ?_ fun _ => settles_pure _
    induction items with
    | nil =>
      simp only [coerceJsonItems, coerceJsonFields]
      exact settles_pure _
    | cons item rest ihRest =>
      simp only [coerceJsonItems, coerceJsonFields]
      refine settles_bind (ih item (by simp)) fun _ => settles_bind ?_ fun _ => settles_pure _
      exact ihRest fun other member => ih other (List.mem_cons_of_mem _ member)

theorem settles_coerceScalar {id : Schema.ScalarDefinitionId} : Settles (coerceScalar ctx path id value) := by
  unfold coerceScalar
  dsimp only
  generalize (ctx.types.scalar id).ty = representation
  split
  · exact settles_coerceJson
  · exact settles_coerceNumber
  · exact settles_coerceNumber
  · exact settles_coerceNumber
  · exact settles_pure _
  · exact settles_pure _
  · contradiction
  · exact settles_incorrectScalarType

theorem settles_coerceEnum {id : Schema.EnumDefinitionId} : Settles (coerceEnum ctx path id value) := by
  unfold coerceEnum
  dsimp only
  split
  · split
    · exact settles_pure _
    · exact settles_fail _
  · exact settles_kind value fun _ => settles_fail _

variable (ctx) in
def SettlesAsItem (value : ConstValue) : Prop :=
  ∀ path (ty : TypeRecord), isInputType ty.definitionId →
    Settles (coerceWrappedValue ctx path ty ty.wrapping.popListWrapping value)

variable (ctx) in
def SettlesAsInput (value : ConstValue) : Prop :=
  ∀ path (ty : TypeRecord), isInputType ty.definitionId → Settles (coerceInputValue ctx path ty value)

theorem settles_coerceInputFields {inputFields : List InputField}
    (inputTypes : ∀ field ∈ inputFields, isInputType field.ty.definitionId) {fields : List (String × ConstValue)}
    {buffer : List (Schema.InputValueDefinitionId × InputValue ω)}
    (settles : ∀ field ∈ fields, SettlesAsInput ctx field.2) :
    Settles (coerceInputFields ctx path fields buffer inputFields) := by
  induction inputFields generalizing fields buffer with
  | nil => rw [coerceInputFields]; exact settles_pure _
  | cons inputField rest ih =>
    have inputRest := fun field member => inputTypes field (List.mem_cons_of_mem _ member)
    cases found : fields.lookup inputField.name with
    | none =>
      rw [coerceInputFields_absent found]
      split
      · exact ih inputRest settles
      · split
        · exact settles_fail _
        · exact ih inputRest settles
    | some value =>
      rw [coerceInputFields_present found]
      refine settles_bind ?_ fun _ => ih inputRest fun field member => settles field (mem_of_mem_takeOut member)
      exact settles _ (mem_of_lookup_eq_some found) _ inputField.ty (inputTypes inputField (by simp))

theorem settles_coerceInputObject {id : Schema.InputObjectDefinitionId}
    (fields : ∀ list, value = .object list → ∀ field ∈ list, SettlesAsInput ctx field.2) :
    Settles (coerceInputObject ctx path id value) := by
  unfold coerceInputObject
  split
  · next list =>
    refine settles_bind (settles_coerceInputFields (ctx.types.inputObject id).inputTypes (fields list rfl)) ?_
    rintro ⟨left, buffer⟩
    cases left with
    | nil => exact settles_pure _
    | cons field others => exact settles_fail _
  · exact settles_kind _ fun _ => settles_fail _

theorem settles_coerceNamedType {ty : TypeRecord} (input : isInputType ty.definitionId)
    (fields : ∀ list, value = .object list → ∀ field ∈ list, SettlesAsInput ctx field.2) :
    Settles (coerceNamedType ctx path ty value) := by
  unfold coerceNamedType
  split
  · contradiction
  · split
    · exact settles_fail _
    · exact settles_pure _
  · split
    · exact settles_coerceScalar
    · exact settles_coerceEnum
    · exact settles_coerceInputObject fields
    · -- Output types are not input types.
      revert input
      unfold isInputType
      split <;> simp_all

section
variable (fields : ∀ list, value = .object list → ∀ field ∈ list, SettlesAsInput ctx field.2)
include fields

theorem settlesAsItem
    (items : ∀ list, value = .list list → ∀ item ∈ list, SettlesAsItem ctx item) : SettlesAsItem ctx value := by
  intro path ty input
  unfold coerceWrappedValue
  split
  · contradiction
  · exact settles_coerceNamedType input fields
  · exact settles_fail _
  · exact settles_pure _
  · next wrapping list _ =>
    refine settles_bind ?_ fun _ => settles_pure _
    have settles := items list rfl
    generalize 0 = index
    clear items fields
    induction list generalizing index with
    | nil => rw [coerceItems]; exact settles_pure _
    | cons item rest ih =>
      rw [coerceItems]
      refine settles_bind (settles item (by simp) _ { ty with wrapping } input) fun _ =>
        settles_bind ?_ fun _ => settles_pure _
      exact ih (fun other member => settles other (List.mem_cons_of_mem _ member)) (index + 1)
  · exact settles_kind _ fun _ => settles_fail _

theorem settlesAsInput (item : SettlesAsItem ctx value) : SettlesAsInput ctx value := by
  intro path ty input
  rw [coerceInputValue]
  split
  · exact settles_bind (settles_coerceNamedType input fields) fun _ => settles_pure _
  · exact item path ty input

end

theorem settles (value : ConstValue) : SettlesAsItem ctx value ∧ SettlesAsInput ctx value := by
  induction value using Literal.induct with
  | leaf leaf =>
    have item : SettlesAsItem ctx (.leaf leaf) := settlesAsItem nofun nofun
    exact ⟨item, settlesAsInput nofun item⟩
  | list items ih =>
    have item : SettlesAsItem ctx (.list items) := settlesAsItem nofun fun list same => by
      cases same
      exact fun item member => (ih item member).1
    exact ⟨item, settlesAsInput nofun item⟩
  | object fields ih =>
    have ofFields : ∀ list, Literal.object fields = .object list → ∀ field ∈ list, SettlesAsInput ctx field.2 := by
      rintro list ⟨⟩ field member
      exact (ih field member).2
    have item : SettlesAsItem ctx (.object fields) := settlesAsItem ofFields nofun
    exact ⟨item, settlesAsInput ofFields item⟩

end Requests

theorem coerceVariable_ne_panicked {types : InputTypes} {definition : VariableDefinition} {value : ConstValue}
    (input : isInputType definition.ty.definitionId) (abort : Panic) :
    coerceVariable types definition value ≠ .error (.panicked abort) := by
  intro ran
  have settles := (@settles _ _ (VariableCoercionContext types definition.nameLocation) value).2 [] definition.ty input
  unfold coerceVariable at ran
  cases inner : coerceInputValue (VariableCoercionContext types definition.nameLocation) [] definition.ty value () with
  | ok result =>
    rw [inner] at ran
    cases ran
  | error failure =>
    rw [inner] at ran
    cases ran
    exact settles () abort inner

end Grafbase.Coercion
