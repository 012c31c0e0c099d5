import Grafbase.Operation.Bind

/-! What the query modifiers decide before execution.

Every modifier whose rule fails marks the fields it impacts as skipped and
records its error. The conditions of `@skip` and `@include` are evaluated for
all modifiers together.
-/

set_option autoImplicit false

namespace Grafbase.Operation
open Foundation Response

abbrev ErrorId := Nat

/-- What rules are decided by: the access token, the hooks and the variables. -/
structure PreExecutionContext where
  isAnonymous : Bool
  /-- The index of the matching scope set, if there is one. -/
  matchesScopes : RequiresScopesDirectiveId → Option Nat
  authorizeEdgePreExecution : AuthorizedDirectiveId → FieldDefinitionId → IdRange → Option GraphqlError
  authorizeNodePreExecution : AuthorizedDirectiveId → DefinitionId → Option GraphqlError
  variableValue : VariableDefinitionId → Bool

structure QueryModifications where
  isAnyFieldSkipped : Bool := false
  skippedFields : List FieldId := []
  errors : List GraphqlError := []
  fieldShapeIdToErrorIds : List (FieldShapeId × ErrorId) := []
  skippedFieldShapeIds : List FieldShapeId := []
  rootErrorIds : List ErrorId := []
  matchedScopes : List (RequiresScopesDirectiveId × Nat) := []

section Build
variable (ctx : PreExecutionContext) (operation : BoundOperation) (fieldToShapeIds : FieldId → List FieldShapeId)

def QueryModifications.handleModifierResultedInError (modifications : QueryModifications) (id : Nat)
    (impactedFields : List FieldId) (error : GraphqlError) : QueryModifications :=
  let errorId := modifications.errors.length
  { modifications with
    isAnyFieldSkipped := true
    errors := modifications.errors ++ [error]
    rootErrorIds := modifications.rootErrorIds ++ if operation.rootQueryModifierIds.contains id then [errorId] else []
    skippedFields := modifications.skippedFields ++ impactedFields
    fieldShapeIdToErrorIds := modifications.fieldShapeIdToErrorIds ++
      impactedFields.flatMap fun fieldId => (fieldToShapeIds fieldId).map (·, errorId) }

def QueryModifications.handleSkipped (modifications : QueryModifications) (impactedFields : List FieldId) :
    QueryModifications :=
  { modifications with
    isAnyFieldSkipped := true
    skippedFields := modifications.skippedFields ++ impactedFields
    skippedFieldShapeIds := modifications.skippedFieldShapeIds ++ impactedFields.flatMap fieldToShapeIds }

/-- `bool::deserialize` of an input value. -/
def conditionValue (id : QueryInputValueId) : Checked Bool :=
  match operation.queryInputValues[id]? with
  | none => .error .outOfBounds
  | some (.boolean value) => .ok value
  | some (.variable id) => .ok (ctx.variableValue id)
  | some (.other _) => .error (.expect "at this point we've already checked the argument type")

def isSkipInclude : QueryModifierRule → Bool
  | .skipInclude _ _ => true
  | _ => false

/-- Within one occurrence any condition excludes it. -/
def excludes (modifier : QueryModifier) : Checked Bool :=
  match modifier.rule with
  | .skipInclude skipInputValueIds includeInputValueIds => do
      let notIncluded ← includeInputValueIds.anyM fun id => do return !(← conditionValue ctx operation id)
      let skipped ← skipInputValueIds.anyM (conditionValue ctx operation)
      return notIncluded || skipped
  | _ => .error .unreachable

/-- `continue` leaves the iteration before the conditions are looked at. -/
inductive Handled where
  | next (modifications : QueryModifications)
  | continue (modifications : QueryModifications)

def handleRule (modifications : QueryModifications) (id : Nat) (modifier : QueryModifier) : Handled :=
  let fail (error : GraphqlError) : QueryModifications :=
    modifications.handleModifierResultedInError operation fieldToShapeIds id modifier.impactedFields error
  match modifier.rule with
  | .authenticated =>
    if ctx.isAnonymous then .next (fail (.new "Unauthenticated" .unauthenticated)) else .next modifications
  | .requiresScopes scopes =>
    match ctx.matchesScopes scopes with
    | none => .continue (fail (.new "Insufficient scopes" .unauthorized))
    | some set => .next { modifications with matchedScopes := modifications.matchedScopes ++ [(scopes, set)] }
  | .authorizedField directiveId definitionId argumentIds =>
    match ctx.authorizeEdgePreExecution directiveId definitionId argumentIds with
    | some error => .next (fail error)
    | none => .next modifications
  | .authorizedDefinition directiveId definitionId =>
    match ctx.authorizeNodePreExecution directiveId definitionId with
    | some error => .next (fail error)
    | none => .next modifications
  | .skipInclude _ _ => .next modifications

def buildStep (modifications : QueryModifications) (indexed : QueryModifier × Nat) : Checked QueryModifications :=
  let (modifier, id) := indexed
  match handleRule ctx operation fieldToShapeIds modifications id modifier with
  | .continue modifications => .ok modifications
  | .next modifications =>
    let skipIncludeModifiers := operation.queryModifiers.filter fun modifier => isSkipInclude modifier.rule
    if skipIncludeModifiers.isEmpty then .ok modifications
    else do
      let skipField ← skipIncludeModifiers.allM (excludes ctx operation)
      if skipField then return modifications.handleSkipped fieldToShapeIds modifier.impactedFields
      else return modifications

def QueryModifications.build : Checked QueryModifications :=
  operation.queryModifiers.zipIdx.foldlM (buildStep ctx operation fieldToShapeIds) {}

end Build
end Grafbase.Operation
