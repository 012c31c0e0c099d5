import Grafbase.Schema.Coerce

/-! The required fields of a schema.

Two selections of the same field with the same arguments share one id, so that
sets of required fields can be merged by comparing ids.
-/

set_option autoImplicit false

namespace Grafbase.Schema
open Foundation
open FederatedGraph (Value Selections)

abbrev RequiredFieldSetItemRecord := RequiredFieldId × RequiredFieldSetRecord

namespace RequiredFieldSetRecord

def union : RequiredFieldSetRecord → RequiredFieldSetRecord → RequiredFieldSetRecord
  | .nil, rightSet => rightSet
  | .cons id below rest, .nil => .cons id below rest
  | .cons left leftBelow leftRest, .cons right rightBelow rightRest =>
    match compare left right with
    | .lt => .cons left leftBelow (union leftRest (.cons right rightBelow rightRest))
    | .gt => .cons right rightBelow (union (.cons left leftBelow leftRest) rightRest)
    | .eq =>
      let subselection :=
        if leftBelow.isEmpty then rightBelow
        else if rightBelow.isEmpty then leftBelow
        else union leftBelow rightBelow
      .cons left subselection (union leftRest rightRest)
termination_by left right => sizeOf left + sizeOf right

def unionCow (left right : RequiredFieldSetRecord) : RequiredFieldSetRecord :=
  if left.isEmpty then right else if right.isEmpty then left else union left right

theorem union_eq (left right : RequiredFieldSetRecord) : union left right = Forest.union left right := by
  fun_induction union left right with
  | case1 right | case2 => rw [Forest.union]
  | case3 left leftBelow leftRest right rightBelow rightRest less ih =>
    rw [Forest.union, if_pos (compare_lt_iff_lt.mp less), ih]
  | case4 left leftBelow leftRest right rightBelow rightRest greater ih =>
    have above := compare_gt_iff_gt.mp greater
    rw [Forest.union, if_neg (Nat.lt_asymm above), if_pos above, ih]
  | case5 left leftBelow leftRest right rightBelow rightRest same subselection belowIh restIh =>
    obtain rfl := compare_eq_iff_eq.mp same
    have isUnion : subselection = Forest.union leftBelow rightBelow := by
      rw [← belowIh]
      cases leftBelow with
      | nil => simp [subselection, Forest.isEmpty, union]
      | cons id below rest =>
        cases rightBelow with
        | nil => simp [subselection, Forest.isEmpty, union]
        | cons => simp [subselection, Forest.isEmpty]
    rw [Forest.union, if_neg (Nat.lt_irrefl _), if_neg (Nat.lt_irrefl _), isUnion, restIh]

theorem unionCow_eq (left right : RequiredFieldSetRecord) : unionCow left right = union left right := by
  cases left with
  | nil => simp [unionCow, union, Forest.isEmpty]
  | cons id below rest =>
    cases right with
    | nil => simp [unionCow, union, Forest.isEmpty]
    | cons => simp [unionCow, Forest.isEmpty]

end RequiredFieldSetRecord

/-- The ways `sort_unstable_byKey` may sort by the field id. -/
structure UnstableSort where
  sort : List RequiredFieldSetItemRecord → List RequiredFieldSetItemRecord
  perm : ∀ items, (sort items).Perm items
  sorted : ∀ items, (sort items).Pairwise fun first second => first.1 ≤ second.1

def UnstableSort.insertion : UnstableSort where
  sort items := items.insertionSort fun first second => first.1 ≤ second.1
  perm items := List.perm_insertionSort _ items
  sorted items := by
    have : IsTrans RequiredFieldSetItemRecord fun first second => first.1 ≤ second.1 := ⟨fun _ _ _ => Nat.le_trans⟩
    have : Std.Total fun first second : RequiredFieldSetItemRecord => first.1 ≤ second.1 :=
      ⟨fun _ _ => Nat.le_total _ _⟩
    exact List.pairwise_insertionSort _ items

def RequiredFieldSetRecord.fromIter (byKey : UnstableSort) (items : List RequiredFieldSetItemRecord) :
    RequiredFieldSetRecord :=
  .ofTrees (byKey.sort items)

/-- The required fields met so far, the id of each being its position, and the values of their arguments. -/
structure Converter where
  fields : List RequiredFieldRecord
  distinct : fields.Nodup
  inputValues : SchemaInputValues

abbrev Fallible := Except (Failure InputValueError)

def orPanic {ε α : Type} : Checked α → Except (Failure ε) α
  | .ok value => .ok value
  | .error panic => .error (.panicked panic)

theorem orPanic_eq_ok {ε α : Type} {result : Checked α} {value : α} :
    (orPanic result : Except (Failure ε) α) = .ok value ↔ result = .ok value := by
  cases result <;> simp [orPanic]

/-- The id of a required field, which is a new one if there is none yet. -/
def Converter.deduplicated (converter : Converter) (inputValues : SchemaInputValues) (field : RequiredFieldRecord) :
    RequiredFieldId × Converter :=
  if known : field ∈ converter.fields then
    (converter.fields.idxOf field, { converter with inputValues })
  else
    (converter.fields.length, {
      fields := converter.fields ++ [field]
      distinct := List.nodup_append.mpr ⟨converter.distinct, List.nodup_singleton _, fun other member new isNew same =>
        known (by rwa [← List.mem_singleton.mp isNew, ← same])⟩
      inputValues })

section Converter
variable (ctx : BuildContext) (graph : Graph)

/-- The arguments of a required field. Those given are taken one after the other. -/
def argumentRecords (given : List (InputValueDefinitionId × Value)) (values : SchemaInputValues) :
    List InputValueDefinitionId →
      Fallible (List (InputValueDefinitionId × SchemaInputValueId) × SchemaInputValues)
  | [] => .ok ([], values)
  | definitionId :: rest => do
      let definition ← orPanic (indexed graph.inputValueDefinitions definitionId)
      match given.findIdx? fun entry => entry.1 = definitionId with
      | some index =>
        let entry ← orPanic (indexed given index)
        let ⟨(valueId, values), _⟩ ← (coerce ctx graph definition.tyRecord entry.2).run values
        let (records, values) ← argumentRecords (swapRemove given index) values rest
        return ((definitionId, valueId) :: records, values)
      | none =>
        match definition.defaultValueId with
        | some valueId =>
          let (records, values) ← argumentRecords given values rest
          return ((definitionId, valueId) :: records, values)
        | none =>
          if definition.tyRecord.wrapping.isRequired then
            let name ← orPanic (string ctx definition.nameId)
            .error (.failed (.missingRequiredArgument name))
          else argumentRecords given values rest

def convertItem (field : FederatedGraph.FieldId) (arguments : List (FederatedGraph.InputValueDefinitionId × Value))
    (convertSubselection : Converter → Fallible (RequiredFieldSetRecord × Converter)) (converter : Converter) :
    Fallible (Option RequiredFieldSetItemRecord × Converter) := do
  match ← orPanic (ctx.idmaps.field.get field) with
  | none => return (none, converter)
  | some definitionId =>
      let federatedArguments ← orPanic <| arguments.mapM fun (id, value) =>
        return (← ctx.idmaps.inputValue.get id).map (·, value)
      let definition ← orPanic (indexed graph.fieldDefinitions definitionId)
      let (records, inputValues) ←
        argumentRecords ctx graph federatedArguments.reduceOption converter.inputValues definition.argumentIds.toList
      let (id, converter) := converter.deduplicated inputValues ⟨definitionId, records⟩
      let (subselection, converter) ← convertSubselection converter
      return (some (id, subselection), converter)

def convertSetRec (byKey : UnstableSort) :
    Selections Value → List RequiredFieldSetItemRecord → Converter →
      Fallible (List RequiredFieldSetItemRecord × Converter)
  | .nil, out, converter => .ok (out, converter)
  | .field field arguments subselection rest, out, converter => do
      let convertSubselection := fun converter => do
        let (items, converter) ← convertSetRec byKey subselection [] converter
        return (RequiredFieldSetRecord.fromIter byKey items, converter)
      let (item, converter) ← convertItem ctx graph field arguments convertSubselection converter
      convertSetRec byKey rest (out ++ item.toList) converter
  | .inlineFragment _ subselection rest, out, converter => do
      let (out, converter) ← convertSetRec byKey subselection out converter
      convertSetRec byKey rest out converter

def convertSet (byKey : UnstableSort) (fieldSet : Selections Value) (converter : Converter) :
    Fallible (RequiredFieldSetRecord × Converter) := do
  let (items, converter) ← convertSetRec ctx graph byKey fieldSet [] converter
  return (RequiredFieldSetRecord.fromIter byKey items, converter)

/-- A failed conversion is reported with the place in the schema that requires the fields. -/
def located {α σ : Type} (locate : σ → Checked String) (location : σ) :
    Fallible α → Except (Failure (String × InputValueError)) α
  | .ok value => .ok value
  | .error (.panicked panic) => .error (.panicked panic)
  | .error (.failed error) =>
    match locate location with
    | .ok location => .error (.failed (location, error))
    | .error panic => .error (.panicked panic)

def convertSets {σ : Type} (locate : σ → Checked String) (byKey : UnstableSort) :
    List (σ × Selections Value) → Converter →
      Except (Failure (String × InputValueError)) (List RequiredFieldSetRecord × Converter)
  | [], converter => .ok ([], converter)
  | (location, fieldSet) :: rest, converter => do
      let (set, converter) ← located locate location (convertSet ctx graph byKey fieldSet converter)
      let (sets, converter) ← convertSets locate byKey rest converter
      return (set :: sets, converter)

/-- Converts the field sets of the buffer. The values of the graph are moved to the converter meanwhile. -/
def tryInsertInto {σ : Type} (locate : σ → Checked String) (byKey : UnstableSort)
    (buffer : List (σ × Selections Value)) : Except (Failure (String × InputValueError)) Graph := do
  let converter := ⟨[], List.nodup_nil, graph.inputValues⟩
  let (requiredFieldSets, converter) ← convertSets ctx { graph with inputValues := {} } locate byKey buffer converter
  return { graph with requiredFields := converter.fields, requiredFieldSets, inputValues := converter.inputValues }

end Converter
end Grafbase.Schema
