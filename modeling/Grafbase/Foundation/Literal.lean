import Grafbase.Foundation.Slices

/-! Values built from leaves by lists and objects. -/

set_option autoImplicit false

namespace Grafbase.Foundation
open List

inductive Literal (κ α : Type) where
  | leaf (value : α)
  | list (items : List (Literal κ α))
  | object (fields : List (κ × Literal κ α))

namespace Literal
variable {κ α β γ ε : Type}

/-- Values by the values they are built from. -/
@[induction_eliminator]
theorem induct {motive : Literal κ α → Prop} (leaf : ∀ value, motive (.leaf value))
    (list : ∀ items, (∀ item ∈ items, motive item) → motive (.list items))
    (object : ∀ fields : List (κ × Literal κ α), (∀ field ∈ fields, motive field.2) → motive (.object fields))
    (literal : Literal κ α) : motive literal :=
  @Literal.rec κ α motive (fun items => ∀ item ∈ items, motive item) (fun fields => ∀ field ∈ fields, motive field.2)
    (fun field => motive field.2) leaf list object (by simp) (by simp_all) (by simp) (by simp_all)
    (fun _ _ holds => holds) literal

mutual
def leaves : Literal κ α → List α
  | leaf value => [value]
  | list items => leavesOfItems items
  | object fields => leavesOfFields fields
def leavesOfItems : List (Literal κ α) → List α
  | [] => []
  | item :: rest => item.leaves ++ leavesOfItems rest
def leavesOfFields : List (κ × Literal κ α) → List α
  | [] => []
  | (_, value) :: rest => value.leaves ++ leavesOfFields rest
end

mutual
def map (change : α → β) : Literal κ α → Literal κ β
  | leaf value => leaf (change value)
  | list items => list (mapItems change items)
  | object fields => object (mapFields change fields)
def mapItems (change : α → β) : List (Literal κ α) → List (Literal κ β)
  | [] => []
  | item :: rest => item.map change :: mapItems change rest
def mapFields (change : α → β) : List (κ × Literal κ α) → List (κ × Literal κ β)
  | [] => []
  | (key, value) :: rest => (key, value.map change) :: mapFields change rest
end

mutual
/-- A change of all leaves that may fail. -/
def mapM (change : α → Except ε β) : Literal κ α → Except ε (Literal κ β)
  | leaf value => return leaf (← change value)
  | list items => return list (← mapMItems change items)
  | object fields => return object (← mapMFields change fields)
def mapMItems (change : α → Except ε β) : List (Literal κ α) → Except ε (List (Literal κ β))
  | [] => return []
  | item :: rest => return (← item.mapM change) :: (← mapMItems change rest)
def mapMFields (change : α → Except ε β) : List (κ × Literal κ α) → Except ε (List (κ × Literal κ β))
  | [] => return []
  | (key, value) :: rest => return (key, ← value.mapM change) :: (← mapMFields change rest)
end

theorem leavesOfItems_eq (items : List (Literal κ α)) : leavesOfItems items = items.flatMap leaves := by
  induction items with
  | nil => rfl
  | cons item rest ih => rw [leavesOfItems, ih, flatMap_cons]

theorem leavesOfFields_eq (fields : List (κ × Literal κ α)) :
    leavesOfFields fields = fields.flatMap fun field => field.2.leaves := by
  induction fields with
  | nil => rfl
  | cons field rest ih => rw [leavesOfFields, ih, flatMap_cons]

variable {value : α} {literal : Literal κ α} {change : α → Except ε β}

theorem mem_leaves_list {items : List (Literal κ α)} :
    value ∈ (list items).leaves ↔ ∃ item ∈ items, value ∈ item.leaves := by
  rw [leaves, leavesOfItems_eq, mem_flatMap]

theorem mem_leaves_object {fields : List (κ × Literal κ α)} :
    value ∈ (object fields).leaves ↔ ∃ field ∈ fields, value ∈ field.2.leaves := by
  rw [leaves, leavesOfFields_eq, mem_flatMap]

@[simp] theorem mapItems_eq (change : α → β) (items : List (Literal κ α)) :
    mapItems change items = items.map (map change) := by
  induction items with
  | nil => rfl
  | cons item rest ih => rw [mapItems, ih, map_cons]

@[simp] theorem mapFields_eq (change : α → β) (fields : List (κ × Literal κ α)) :
    mapFields change fields = fields.map fun field => (field.1, field.2.map change) := by
  induction fields with
  | nil => rfl
  | cons field rest ih => rw [mapFields, ih, map_cons]

theorem map_map (first : α → β) (second : β → γ) (literal : Literal κ α) :
    (literal.map first).map second = literal.map (second ∘ first) := by
  induction literal with
  | leaf => rfl
  | list items ih =>
    simp only [map, mapItems_eq, List.map_map, list.injEq]
    exact List.map_congr_left ih
  | object fields ih =>
    simp only [map, mapFields_eq, List.map_map, object.injEq]
    refine List.map_congr_left fun field member => ?_
    exact Prod.ext rfl (ih field member)

/-- Two changes agree on a value when they agree on its leaves. -/
theorem map_eq_map_iff {first second : α → β} :
    literal.map first = literal.map second ↔ ∀ value ∈ literal.leaves, first value = second value := by
  induction literal with
  | leaf value => simp [map, leaves]
  | list items ih =>
    simp only [map, mapItems_eq, list.injEq, map_inj_left, mem_leaves_list]
    constructor
    · rintro agree value ⟨item, member, inItem⟩
      exact (ih item member).mp (agree item member) value inItem
    · exact fun agree item member => (ih item member).mpr fun value inItem => agree value ⟨item, member, inItem⟩
  | object fields ih =>
    simp only [map, mapFields_eq, object.injEq, map_inj_left, Prod.mk.injEq, true_and, mem_leaves_object]
    constructor
    · rintro agree value ⟨field, member, inField⟩
      exact (ih field member).mp (agree field member) value inField
    · exact fun agree field member => (ih field member).mpr fun value inField => agree value ⟨field, member, inField⟩

theorem mapMItems_eq (items : List (Literal κ α)) : mapMItems change items = items.mapM (mapM change) := by
  induction items with
  | nil => rfl
  | cons item rest ih => rw [mapMItems, ih, mapM_cons]

theorem mapMFields_eq (fields : List (κ × Literal κ α)) :
    mapMFields change fields = fields.mapM fun field => Prod.mk field.1 <$> field.2.mapM change := by
  induction fields with
  | nil => rfl
  | cons field rest ih => rw [mapMFields, ih, mapM_cons, bind_map_left]

/-- A change that fails on no leaf does not fail, and is a change of every leaf. -/
theorem mapM_eq_ok {total : α → β} (changed : ∀ value ∈ literal.leaves, change value = .ok (total value)) :
    literal.mapM change = .ok (literal.map total) := by
  induction literal with
  | leaf value =>
    rw [mapM, changed value (by simp [leaves])]
    rfl
  | list items ih =>
    have all := Foundation.mapM_eq_ok fun item member =>
      ih item member fun value inItem => changed value (mem_leaves_list.mpr ⟨item, member, inItem⟩)
    rw [mapM, mapMItems_eq, all, map, mapItems_eq]
    rfl
  | object fields ih =>
    rw [mapM, mapMFields_eq, Foundation.mapM_eq_ok fun field member => ?_, map, mapFields_eq]
    · rfl
    · rw [ih field member fun value inField => changed value (mem_leaves_object.mpr ⟨field, member, inField⟩)]
      rfl

theorem ok_of_mapM {changed : Literal κ β} (ran : literal.mapM change = .ok changed) (member : value ∈ literal.leaves) :
    ∃ result, change value = .ok result := by
  induction literal generalizing changed with
  | leaf leaf =>
    obtain rfl := mem_singleton.mp member
    obtain ⟨result, changed, -⟩ := bind_eq_ok.mp ran
    exact ⟨result, changed⟩
  | list items ih =>
    rw [mapM, mapMItems_eq] at ran
    obtain ⟨outputs, ranItems, -⟩ := bind_eq_ok.mp ran
    obtain ⟨item, inItems, inItem⟩ := mem_leaves_list.mp member
    obtain ⟨output, _, ranItem⟩ := exists_right_of_forall₂ (mapM_eq_ok_iff.mp ranItems) inItems
    exact ih item inItems ranItem inItem
  | object fields ih =>
    rw [mapM, mapMFields_eq] at ran
    obtain ⟨outputs, ranFields, -⟩ := bind_eq_ok.mp ran
    obtain ⟨field, inFields, inField⟩ := mem_leaves_object.mp member
    obtain ⟨output, _, ranField⟩ := exists_right_of_forall₂ (mapM_eq_ok_iff.mp ranFields) inFields
    obtain ⟨result, ranValue, -⟩ := map_eq_ok.mp ranField
    exact ih field inFields ranValue inField

end Literal
end Grafbase.Foundation
