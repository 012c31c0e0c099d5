import Grafbase.Operation.Bind

/-! The state of logical planning, and the replanning of interface fields.

Planning attributes the fields of an operation to plans. It adds fields of its
own: those other fields require, and copies of interface fields for the object
types behind the interface.

A field of an interface without keys is replaced by the fields of the same name
of the object types behind the interface, each with a copy of all selections
below it.
-/

set_option autoImplicit false

namespace Grafbase.Operation
open Foundation Response

abbrev LogicalPlanId := Nat
abbrev RequiredFieldId := Nat

structure LogicalPlanner where
  operation : BoundOperation
  fieldToLogicalPlanId : List (Option LogicalPlanId)
  fieldToSolvedRequirement : List (Option RequiredFieldId)
  selectionSetToObjectsMustBeTracked : List Bool
  /-- Which field each added one is a copy of; kept here for reference only. -/
  copies : List (FieldId × FieldId) := []

namespace LogicalPlanner

def new (operation : BoundOperation) : LogicalPlanner where
  operation
  fieldToLogicalPlanId := operation.fields.map fun _ => none
  fieldToSolvedRequirement := operation.fields.map fun _ => none
  selectionSetToObjectsMustBeTracked := operation.selectionSets.map fun _ => false

def mapSelectionSets (planner : LogicalPlanner) (change : List (List FieldId) → List (List FieldId)) : LogicalPlanner :=
  { planner with operation := { planner.operation with selectionSets := change planner.operation.selectionSets } }

def pushField (planner : LogicalPlanner) (field : Field) (original : FieldId) : FieldId × LogicalPlanner :=
  let id := planner.operation.fields.length
  (id, { planner with
    operation := { planner.operation with fields := planner.operation.fields ++ [field] }
    fieldToLogicalPlanId := planner.fieldToLogicalPlanId ++ [none]
    fieldToSolvedRequirement := planner.fieldToSolvedRequirement ++ [none]
    copies := planner.copies ++ [(id, original)] })

/-- Inserts a field where its parent entity and position belong. -/
def insertFieldInParentSelectionSet (schema : Schema) (planner : LogicalPlanner)
    (parentSelectionSetId : SelectionSetId) (definitionId : FieldDefinitionId) (id : FieldId) :
    Checked LogicalPlanner := do
  let fieldIds ← indexed planner.operation.selectionSets parentSelectionSetId
  let field ← indexed planner.operation.fields id
  let (kind, entity) := (schema.parentEntityId definitionId).rank
  let target := (kind + 1, entity, field.queryPosition)
  let classify (probe : FieldId) : Ordering :=
    compareKeys ((planner.operation.fields[probe]?).elim (0, 0, 0) (·.sortKey schema)) target
  match binarySearchBy classify fieldIds with
  | .ok _ => .error (.expect "extra field cannot be present already")
  | .error position =>
    .ok (planner.mapSelectionSets (·.set parentSelectionSetId (insertAt fieldIds position id)))

/-- A field that another one requires, with its key and its arguments already made. -/
def insertExtraField (schema : Schema) (planner : LogicalPlanner) (field : ExtraField) (planId : LogicalPlanId)
    (requiredFieldId : RequiredFieldId) : Checked LogicalPlanner :=
  let id := planner.operation.fields.length
  insertFieldInParentSelectionSet schema { planner with
    operation := { planner.operation with fields := planner.operation.fields ++ [.extra field] }
    fieldToLogicalPlanId := planner.fieldToLogicalPlanId ++ [some planId]
    fieldToSolvedRequirement := planner.fieldToSolvedRequirement ++ [some requiredFieldId] }
    field.parentSelectionSetId field.definitionId id

/-- `LogicalPlanId::from(u16::MAX - 1)` -/
def neverPlanned : LogicalPlanId := 2 ^ 16 - 2

/-- Recursion is limited by the depth of the stack. -/
def markFieldAsNeverPlanned : Nat → FieldId → LogicalPlanner → Checked LogicalPlanner
  | 0, _, _ => .error .stackOverflow
  | depth + 1, fieldId, planner => do
      let fieldToLogicalPlanId ← assigned planner.fieldToLogicalPlanId fieldId (some neverPlanned)
      let fieldToSolvedRequirement ← assigned planner.fieldToSolvedRequirement fieldId none
      let planner := { planner with fieldToLogicalPlanId, fieldToSolvedRequirement }
      let field ← indexed planner.operation.fields fieldId
      match field.selectionSetId with
      | none => .ok planner
      | some selectionSetId => do
          let fieldIds ← indexed planner.operation.selectionSets selectionSetId
          fieldIds.foldlM (fun planner fieldId => markFieldAsNeverPlanned depth fieldId planner) planner

section Clone
variable (cloneSelectionSet : SelectionSetId → LogicalPlanner → Checked (SelectionSetId × LogicalPlanner))

def cloneOptional (planner : LogicalPlanner) : Option SelectionSetId → Checked (Option SelectionSetId × LogicalPlanner)
  | none => .ok (none, planner)
  | some id => do
      let (id, planner) ← cloneSelectionSet id planner
      .ok (some id, planner)

def cloneField (selectionSetId : SelectionSetId) (state : List FieldId × LogicalPlanner) (previousFieldId : FieldId) :
    Checked (List FieldId × LogicalPlanner) := do
  let (next, planner) := state
  match ← indexed planner.operation.fields previousFieldId with
  | .query field => do
      let (nestedId, planner) ← cloneOptional cloneSelectionSet planner field.selectionSetId
      let (id, planner) := planner.pushField (.query { field with
        parentSelectionSetId := selectionSetId, selectionSetId := nestedId }) previousFieldId
      .ok (next ++ [id], planner)
  | _ => .error (.todo "cloning non-query fields not yet supported")

end Clone

def cloneSelectionSet : Nat → SelectionSetId → LogicalPlanner → Checked (SelectionSetId × LogicalPlanner)
  | 0, _, _ => .error .stackOverflow
  | depth + 1, previous, planner => do
      let id := planner.operation.selectionSets.length
      let planner := planner.mapSelectionSets (· ++ [[]])
      let fieldIds ← indexed planner.operation.selectionSets previous
      let (next, planner) ← fieldIds.foldlM (cloneField (cloneSelectionSet depth) id) ([], planner)
      let selectionSets ← assigned planner.operation.selectionSets id next
      let planner := planner.mapSelectionSets fun _ => selectionSets
      .ok (id, { planner with
        selectionSetToObjectsMustBeTracked := planner.selectionSetToObjectsMustBeTracked ++ [false] })

abbrev UnplannedFields := List (FieldId × FieldDefinitionId)

section Replan
variable (schema : Schema) (depth : Nat)

/-- The fields an unplanned interface field is replaced by. -/
def addToPlan (definitionId : FieldDefinitionId) : List FieldDefinitionId :=
  match schema.parentEntityId definitionId with
  | .interface id => (schema.interfacePossibleTypeIds id).filterMap fun type =>
    schema.objectFieldByName type (schema.fieldName definitionId)
  | .object _ => []

def addReplacement (interfaceFieldId : FieldId) (state : UnplannedFields × LogicalPlanner)
    (definitionId : FieldDefinitionId) : Checked (UnplannedFields × LogicalPlanner) := do
  let (unplannedFields, planner) := state
  let operationField ← indexed planner.operation.fields interfaceFieldId
  let (selectionSetId, planner) ← cloneOptional (cloneSelectionSet depth) planner operationField.selectionSetId
  let (id, planner) := planner.pushField (.extra {
    edge := operationField.responseEdge
    definitionId
    selectionSetId
    argumentIds := operationField.argumentIds
    petitionerLocation := operationField.location
    parentSelectionSetId := operationField.parentSelectionSetId }) interfaceFieldId
  let planner ← planner.insertFieldInParentSelectionSet schema operationField.parentSelectionSetId definitionId id
  .ok (unplannedFields ++ [(id, definitionId)], planner)

def removeField (selectionSetId : SelectionSetId) (planner : LogicalPlanner) (fieldId : FieldId) :
    Checked LogicalPlanner := do
  let fieldIds ← indexed planner.operation.selectionSets selectionSetId
  match fieldIds.findIdx? (· = fieldId) with
  | none => .error (.expect "called Option::unwrap() on a None value")
  | some position => .ok (planner.mapSelectionSets (·.set selectionSetId (fieldIds.eraseIdx position)))

def replanInterfaceField (selectionSetId : SelectionSetId) (state : UnplannedFields × LogicalPlanner)
    (replaced : FieldId × List FieldDefinitionId) : Checked (UnplannedFields × LogicalPlanner) := do
  let (unplannedFields, planner) := state
  let (interfaceFieldId, addToPlan) := replaced
  let planner ← planner.markFieldAsNeverPlanned depth interfaceFieldId
  let planner ← planner.removeField selectionSetId interfaceFieldId
  addToPlan.foldlM (addReplacement schema depth interfaceFieldId)
    (unplannedFields.filter (·.1 ≠ interfaceFieldId), planner)

def replanInterfaceFields (selectionSetId : SelectionSetId)
    (interfaceFieldsToReplan : List (FieldId × List FieldDefinitionId)) (unplannedFields : UnplannedFields)
    (planner : LogicalPlanner) : Checked (UnplannedFields × LogicalPlanner) :=
  interfaceFieldsToReplan.foldlM (replanInterfaceField schema depth selectionSetId) (unplannedFields, planner)

end Replan
end LogicalPlanner
end Grafbase.Operation
