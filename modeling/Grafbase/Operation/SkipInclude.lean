import Grafbase.Operation.MergedFields

/-! Which fields `@skip` and `@include` leave out.

By the document, a field is left out when all its occurrences are excluded. The
modifiers are evaluated together: as soon as one conditional occurrence of the
operation is kept, no field is left out, and otherwise every field with a
conditional occurrence is. The directives of a `__typename` are not looked at.
-/

set_option autoImplicit false
namespace Grafbase.Operation
open Foundation Response List
section Document
variable (ctx : BindContext) (variableValue : VariableDefinitionId → Bool)

def Directive.condition (directive : Directive) : Bool :=
  match directive.arguments.head? with
  | some (_, .boolean value) => value
  | some (_, .variable name) => (ctx.variableDefinitions.findIdx? (·.name = name)).elim false variableValue
  | _ => false

def Directive.excludes (directive : Directive) : Bool :=
  (directive.name = "skip" && directive.condition ctx variableValue) ||
    (directive.name = "include" && !directive.condition ctx variableValue)

def Occurrence.isExcluded (occurrence : Occurrence) : Bool :=
  occurrence.allDirectives.any (·.excludes ctx variableValue)

theorem Occurrence.isConditional_of_isExcluded {occurrence : Occurrence}
    (excluded : occurrence.isExcluded ctx variableValue = true) : occurrence.isConditional = true := by
  obtain ⟨directive, member, excludes⟩ := any_eq_true.mp excluded
  refine any_eq_true.mpr ⟨directive, member, ?_⟩
  simp only [Directive.excludes, Bool.or_eq_true, Bool.and_eq_true] at excludes
  simp only [Directive.isCondition, Bool.or_eq_true]
  exact excludes.imp (·.1) (·.1)

def Target.isDefinition : Target → Bool
  | .definition _ => true
  | .typename _ => false

variable (depth : Nat) (root : Merged)

/-- Every conditional occurrence of the document is excluded, those of `__typename` aside. -/
def AllExcluded : Prop :=
  ∀ path merged, root.follow ctx depth path = some merged → ∀ item ∈ merged.fields ctx depth,
    item.target.isDefinition = true → item.occurrence.isConditional = true →
      item.occurrence.isExcluded ctx variableValue = true

/-- No field has conditional occurrences next to plain ones. -/
def Unmixed : Prop :=
  ∀ path merged, root.follow ctx depth path = some merged → ∀ item ∈ merged.fields ctx depth,
    item.target.isDefinition = true →
      (∃ occurrence ∈ merged.occurrences ctx depth item.key item.target, occurrence.isConditional = true) →
      ∀ occurrence ∈ merged.occurrences ctx depth item.key item.target, occurrence.isConditional = true

/-- The fields, or the `__typename`s, have an occurrence each that is not excluded. -/
def NoneExcluded (isDefinition : Bool) : Prop :=
  ∀ path merged, root.follow ctx depth path = some merged → ∀ item ∈ merged.fields ctx depth,
    item.target.isDefinition = isDefinition →
      ∃ occurrence ∈ merged.occurrences ctx depth item.key item.target,
        occurrence.isExcluded ctx variableValue = false

/-- Each field of the document is bound, and left out if and only if all its occurrences are excluded. -/
def DecidedPerField (operation : BoundOperation) (modifications : QueryModifications) : Prop :=
  ∀ path merged, root.follow ctx depth path = some merged → ∀ item ∈ merged.fields ctx depth,
    ∃ fieldId, operation.fieldAt path merged.type item.key item.target = some fieldId ∧
      (fieldId ∈ modifications.skippedFields ↔
        ∀ occurrence ∈ merged.occurrences ctx depth item.key item.target,
          occurrence.isExcluded ctx variableValue = true)

variable {ctx variableValue depth root}

theorem AllExcluded.excluded (all : AllExcluded ctx variableValue depth root)
    {path : List (String × FieldDefinitionId)} {merged : Merged} (follows : root.follow ctx depth path = some merged)
    {key : String} {target : Target} (isField : target.isDefinition = true) {occurrence : Occurrence}
    (member : occurrence ∈ merged.occurrences ctx depth key target) (conditional : occurrence.isConditional = true) :
    occurrence.isExcluded ctx variableValue = true := by
  cases target with
  | typename => cases isField
  | definition definition =>
    obtain ⟨item, inFields, _, isTarget, rfl⟩ := Merged.mem_occurrences_definition.mp member
    exact all path merged follows item inFields (by rw [isTarget]; rfl) conditional

end Document

section Evaluate
variable {ctx : BindContext} {execution : PreExecutionContext} {operation : BoundOperation}

theorem conditionValue_of_bindsTo {id : QueryInputValueId} {directive : Directive}
    (binds : BindsTo ctx operation.queryInputValues id directive) :
    conditionValue execution operation id = .ok (directive.condition ctx execution.variableValue) := by
  obtain ⟨⟨name, argument⟩, value, first, coerced, held⟩ := binds
  rw [conditionValue, held, Directive.condition, first]
  rcases argument with literal | variableName | text
  · cases coerced
    rfl
  · rw [coerceCondition] at coerced
    cases found : ctx.variableDefinitions.findIdx? (·.name = variableName) with
    | none => simp [found] at coerced
    | some index =>
      simp only [found] at coerced
      split at coerced
      · split at coerced <;> cases coerced
        simp [found]
      · cases coerced
  · cases coerced

/-- The rule of an occurrence decides whether it is excluded. -/
theorem excludes_of_ruleOf {modifier : QueryModifier} {occurrence : Occurrence}
    (ruleOf : RuleOf ctx operation.queryInputValues modifier.rule occurrence) :
    excludes execution operation modifier = .ok (occurrence.isExcluded ctx execution.variableValue) := by
  obtain ⟨bound, rule, stands⟩ := ruleOf
  have included : bound.includeInputValueIds.anyM (fun id => do return !(← conditionValue execution operation id)) =
      .ok ((occurrence.allDirectives.filter (·.name = "include")).any
        fun directive => !directive.condition ctx execution.variableValue) := by
    refine anyM_of_forall₂ (stands.includes.imp fun id directive binds => ?_)
    rw [conditionValue_of_bindsTo binds]
    rfl
  have skipped : bound.skipInputValueIds.anyM (conditionValue execution operation) =
      .ok ((occurrence.allDirectives.filter (·.name = "skip")).any
        fun directive => directive.condition ctx execution.variableValue) :=
    anyM_of_forall₂ (stands.skips.imp fun _ _ binds => conditionValue_of_bindsTo binds)
  rw [excludes, rule]
  dsimp only
  rw [included, skipped]
  change Except.ok (_ || _) = _
  rw [any_filter, any_filter, Bool.or_comm, Occurrence.isExcluded]
  congr 1
  rw [Bool.eq_iff_iff]
  simp only [Bool.or_eq_true, any_eq_true, Directive.excludes, and_or_left, exists_or]

section Build
variable (fieldToShapeIds : FieldId → List FieldShapeId) {skipField : Bool}
  (conditionsOnly : ∀ modifier ∈ operation.queryModifiers, isSkipInclude modifier.rule = true)
  (decided : operation.queryModifiers.allM (excludes execution operation) = .ok skipField)
include conditionsOnly decided

/-- Each modifier meets the decision that was taken for all of them. -/
theorem buildStep_of_conditions (modifications : QueryModifications) {modifier : QueryModifier} (id : Nat)
    (member : modifier ∈ operation.queryModifiers) :
    buildStep execution operation fieldToShapeIds modifications (modifier, id) =
      .ok (if skipField then modifications.handleSkipped fieldToShapeIds modifier.impactedFields
        else modifications) := by
  have handled : handleRule execution operation fieldToShapeIds modifications id modifier = .next modifications := by
    obtain ⟨rule, impactedFields⟩ := modifier
    have conditional := conditionsOnly _ member
    cases rule with
    | skipInclude => rfl
    | _ => cases conditional
  have filtered : operation.queryModifiers.filter (fun modifier => isSkipInclude modifier.rule) =
      operation.queryModifiers := filter_eq_self.mpr conditionsOnly
  have present : operation.queryModifiers.isEmpty = false := by
    simpa using ne_nil_of_mem member
  simp only [buildStep, handled, filtered, present, decided]
  cases skipField <;> rfl

theorem build_of_conditions :
    ∃ modifications, QueryModifications.build execution operation fieldToShapeIds = .ok modifications ∧
      modifications.skippedFields = if skipField then operation.queryModifiers.flatMap (·.impactedFields) else [] := by
  have run (items : List (QueryModifier × Nat)) (modifications : QueryModifications)
      (members : ∀ item ∈ items, item.1 ∈ operation.queryModifiers) :
      ∃ last, items.foldlM (buildStep execution operation fieldToShapeIds) modifications = .ok last ∧
        last.skippedFields = modifications.skippedFields ++
          if skipField then items.flatMap (·.1.impactedFields) else [] := by
    induction items generalizing modifications with
    | nil => exact ⟨modifications, rfl, by simp⟩
    | cons item rest ih =>
      have step := buildStep_of_conditions fieldToShapeIds conditionsOnly decided modifications item.2
        (members item (by simp))
      obtain ⟨last, ran, skipped⟩ := ih (if skipField then
          modifications.handleSkipped fieldToShapeIds item.1.impactedFields else modifications)
        fun other member => members other (mem_cons_of_mem _ member)
      refine ⟨last, by rw [foldlM_cons, step]; exact ran, ?_⟩
      rw [skipped]
      cases skipField <;> simp [QueryModifications.handleSkipped]
  obtain ⟨last, ran, skipped⟩ := run operation.queryModifiers.zipIdx {} fun item member => (mem_zipIdx' member).2 ▸
    getElem_mem _
  have impacted : operation.queryModifiers.zipIdx.flatMap (·.1.impactedFields) =
      operation.queryModifiers.flatMap (·.impactedFields) := by
    conv_rhs => rw [← zipIdx_map_fst 0 operation.queryModifiers, flatMap_map]
  exact ⟨last, ran, by rw [skipped, impacted]; rfl⟩

end Build

/-- Every conditional occurrence that was recorded is excluded. -/
def AllRecordedExcluded (ctx : BindContext) (variableValue : VariableDefinitionId → Bool)
    (operation : BoundOperation) : Prop :=
  ∀ field ∈ operation.occurrences, ∀ occurrence ∈ field.2, occurrence.isConditional = true →
    occurrence.isExcluded ctx variableValue = true

variable (tracked : operation.Tracked ctx)
  (conditionsOnly : ∀ modifier ∈ operation.queryModifiers, isSkipInclude modifier.rule = true)
include tracked conditionsOnly

theorem exists_decision (execution : PreExecutionContext) :
    ∃ skipField, operation.queryModifiers.allM (excludes execution operation) = .ok skipField ∧
      (skipField = true ↔ AllRecordedExcluded ctx execution.variableValue operation) := by
  have stands (modifier : QueryModifier) (member : modifier ∈ operation.queryModifiers) :
      ∃ field ∈ operation.occurrences, ∃ occurrence ∈ field.2, occurrence.isConditional = true ∧
        excludes execution operation modifier = .ok (occurrence.isExcluded ctx execution.variableValue) := by
    obtain ⟨fieldId, impacted⟩ :=
      exists_mem_of_ne_nil _ (tracked.impacting modifier member (conditionsOnly modifier member))
    obtain ⟨occurrences, recorded, occurrence, inField, conditional, ruleOf⟩ :=
      tracked.sound modifier member (conditionsOnly modifier member) fieldId impacted
    exact ⟨_, recorded, occurrence, inField, conditional, excludes_of_ruleOf ruleOf⟩
  obtain ⟨skipField, decided, all⟩ := allM_of_ok fun modifier member =>
    let ⟨_, _, _, _, _, decided⟩ := stands modifier member
    ⟨_, decided⟩
  refine ⟨skipField, decided, all.trans ⟨?_, ?_⟩⟩
  · intro excluded field recorded occurrence inField conditional
    obtain ⟨modifier, member, ruleOf, _⟩ := tracked.complete field recorded occurrence inField conditional
    simpa [excludes_of_ruleOf ruleOf] using excluded modifier member
  · intro excluded modifier member
    obtain ⟨field, recorded, occurrence, inField, conditional, decided⟩ := stands modifier member
    rw [decided, excluded field recorded occurrence inField conditional]

theorem impacted_iff {field : FieldId × List Occurrence} (recorded : field ∈ operation.occurrences) :
    field.1 ∈ operation.queryModifiers.flatMap (·.impactedFields) ↔
      ∃ occurrence ∈ field.2, occurrence.isConditional = true := by
  rw [mem_flatMap]
  constructor
  · rintro ⟨modifier, member, impacted⟩
    obtain ⟨occurrences, other, occurrence, inField, conditional, _⟩ :=
      tracked.sound modifier member (conditionsOnly modifier member) field.1 impacted
    have same : field = (field.1, occurrences) := inj_on_of_nodup_map tracked.distinct recorded other rfl
    exact ⟨occurrence, by rw [same]; exact inField, conditional⟩
  · rintro ⟨occurrence, inField, conditional⟩
    obtain ⟨modifier, member, _, impacted⟩ := tracked.complete field recorded occurrence inField conditional
    exact ⟨modifier, member, impacted⟩

/-- What is left out: all fields with a conditional occurrence, or none. -/
theorem build_skippedFields (execution : PreExecutionContext) (fieldToShapeIds : FieldId → List FieldShapeId) :
    ∃ modifications, QueryModifications.build execution operation fieldToShapeIds = .ok modifications ∧
    (∀ fieldId ∈ modifications.skippedFields, ∃ field ∈ operation.occurrences, field.1 = fieldId) ∧
    ∀ field ∈ operation.occurrences, field.1 ∈ modifications.skippedFields ↔
      AllRecordedExcluded ctx execution.variableValue operation ∧
        ∃ occurrence ∈ field.2, occurrence.isConditional = true := by
  obtain ⟨skipField, decided, all⟩ := exists_decision tracked conditionsOnly execution
  obtain ⟨modifications, built, skipped⟩ := build_of_conditions fieldToShapeIds conditionsOnly decided
  refine ⟨modifications, built, fun fieldId member => ?_, fun field recorded => ?_⟩
  · rw [skipped] at member
    cases skipField with
    | false => cases member
    | true =>
      obtain ⟨modifier, inModifiers, impacted⟩ := mem_flatMap.mp member
      obtain ⟨occurrences, recorded, _⟩ :=
        tracked.sound modifier inModifiers (conditionsOnly modifier inModifiers) fieldId impacted
      exact ⟨_, recorded, rfl⟩
  · rw [skipped, ← impacted_iff tracked conditionsOnly recorded, ← all]
    cases skipField <;> simp

end Evaluate

section Bound
variable {ctx : BindContext} {depth : Nat} {rootObjectId : ObjectDefinitionId} {selectionSet : List Selection}
  {operation : BoundOperation} (bound : bindOperation ctx depth rootObjectId selectionSet = .ok operation)
include bound

/-- A field of the document is bound and its occurrences are recorded for it. -/
theorem fieldAt_definition {path : List (String × FieldDefinitionId)} {merged : Merged} {item : SpreadField}
    (follows : (Merged.root rootObjectId selectionSet).follow ctx depth path = some merged)
    (member : item ∈ merged.fields ctx depth) (isField : item.target.isDefinition = true) :
    ∃ fieldId, operation.fieldAt path merged.type item.key item.target = some fieldId ∧
      (fieldId, merged.occurrences ctx depth item.key item.target) ∈ operation.occurrences := by
  obtain ⟨id, levels, reached, stands⟩ :=
    (bindOperation_stands bound).1.selectionSetAt follows (ne_nil_of_mem member)
  cases isTarget : item.target with
  | typename type => simp [isTarget, Target.isDefinition] at isField
  | definition definition =>
    obtain ⟨fieldId, found, recorded, _⟩ := stands.field? member isTarget
    exact ⟨fieldId, by rw [BoundOperation.fieldAt, reached]; exact found, recorded⟩

/-- Nothing is recorded for a `__typename`. -/
theorem fieldAt_typename {path : List (String × FieldDefinitionId)} {merged : Merged} {item : SpreadField}
    (follows : (Merged.root rootObjectId selectionSet).follow ctx depth path = some merged)
    (member : item ∈ merged.fields ctx depth) (isTypename : item.target.isDefinition = false) :
    ∃ fieldId, operation.fieldAt path merged.type item.key item.target = some fieldId ∧
      ∀ field ∈ operation.occurrences, field.1 ≠ fieldId := by
  obtain ⟨stands, covers⟩ := bindOperation_stands bound
  obtain ⟨id, levels, reached, stands⟩ := stands.selectionSetAt follows (ne_nil_of_mem member)
  cases isTarget : item.target with
  | definition definition => simp [isTarget, Target.isDefinition] at isTypename
  | typename type =>
    obtain ⟨fieldId, given, found, named⟩ := stands.typename member isTarget
    refine ⟨fieldId, by rw [BoundOperation.fieldAt, reached]; exact found, ?_⟩
    rintro field recorded rfl
    obtain ⟨_, _, _, other, _, ⟨definition, isDefinition⟩, otherNamed, _⟩ :=
      (covers field recorded).resolve_left not_mem_nil
    rw [isDefinition] at otherNamed
    cases (FieldTables.names_unique named otherNamed).2

/-- The recorded occurrences are those of the document. -/
theorem allRecordedExcluded_iff (variableValue : VariableDefinitionId → Bool) :
    AllRecordedExcluded ctx variableValue operation ↔
      AllExcluded ctx variableValue depth (.root rootObjectId selectionSet) := by
  constructor
  · intro all path merged follows item member isField conditional
    obtain ⟨fieldId, _, recorded⟩ := fieldAt_definition bound follows member isField
    exact all _ recorded item.occurrence (Merged.mem_occurrences_self member) conditional
  · intro all field recorded occurrence inField conditional
    obtain ⟨path, merged, follows, item, _, ⟨definition, isField⟩, _, same⟩ :=
      ((bindOperation_stands bound).2 field recorded).resolve_left not_mem_nil
    rw [same] at inField
    exact all.excluded follows (by rw [isField]; rfl) inField conditional

/-- The fields decide by their recorded occurrences; a `__typename` is never left out. -/
theorem decidedPerField_iff_forall {variableValue : VariableDefinitionId → Bool} {modifications : QueryModifications}
    (recorded : ∀ fieldId ∈ modifications.skippedFields, ∃ field ∈ operation.occurrences, field.1 = fieldId)
    (skipped : ∀ field ∈ operation.occurrences, field.1 ∈ modifications.skippedFields ↔
      AllRecordedExcluded ctx variableValue operation ∧ ∃ occurrence ∈ field.2, occurrence.isConditional = true) :
    DecidedPerField ctx variableValue depth (.root rootObjectId selectionSet) operation modifications ↔
      (∀ path merged, (Merged.root rootObjectId selectionSet).follow ctx depth path = some merged →
        ∀ item ∈ merged.fields ctx depth, item.target.isDefinition = true →
          (AllExcluded ctx variableValue depth (.root rootObjectId selectionSet) ∧
            (∃ occurrence ∈ merged.occurrences ctx depth item.key item.target, occurrence.isConditional = true) ↔
          ∀ occurrence ∈ merged.occurrences ctx depth item.key item.target,
            occurrence.isExcluded ctx variableValue = true)) ∧
      NoneExcluded ctx variableValue depth (.root rootObjectId selectionSet) false := by
  simp only [DecidedPerField, NoneExcluded, ← forall_and]
  refine forall₅_congr fun path merged follows item member => ?_
  cases isField : item.target.isDefinition with
  | true =>
    obtain ⟨fieldId, found, isRecorded⟩ := fieldAt_definition bound follows member isField
    simp [found, skipped _ isRecorded, allRecordedExcluded_iff bound]
  | false =>
    obtain ⟨fieldId, found, unrecorded⟩ := fieldAt_typename bound follows member isField
    have kept : fieldId ∉ modifications.skippedFields := fun member =>
      let ⟨field, inLog, same⟩ := recorded fieldId member
      unrecorded field inLog same
    simp [found, kept]

end Bound

/-- `@skip` and `@include` are decided field by field exactly when, with all conditional occurrences
of the operation excluded, no field mixes them with plain ones, with one of them kept, no field is
excluded altogether, and in both cases no `__typename` is. -/
theorem decidedPerField_iff {ctx : BindContext} {depth : Nat} {rootObjectId : ObjectDefinitionId}
    {selectionSet : List Selection} {operation : BoundOperation}
    (bound : bindOperation ctx depth rootObjectId selectionSet = .ok operation)
    (conditionsOnly : ∀ modifier ∈ operation.queryModifiers, isSkipInclude modifier.rule = true)
    (execution : PreExecutionContext) (fieldToShapeIds : FieldId → List FieldShapeId) :
    ∃ modifications, QueryModifications.build execution operation fieldToShapeIds = .ok modifications ∧
      (DecidedPerField ctx execution.variableValue depth (.root rootObjectId selectionSet) operation modifications ↔
        (AllExcluded ctx execution.variableValue depth (.root rootObjectId selectionSet) →
          Unmixed ctx depth (.root rootObjectId selectionSet)) ∧
        (¬ AllExcluded ctx execution.variableValue depth (.root rootObjectId selectionSet) →
          NoneExcluded ctx execution.variableValue depth (.root rootObjectId selectionSet) true) ∧
        NoneExcluded ctx execution.variableValue depth (.root rootObjectId selectionSet) false) := by
  have tracked := bindOperation_tracked bound
  obtain ⟨modifications, built, recorded, skipped⟩ :=
    build_skippedFields tracked conditionsOnly execution fieldToShapeIds
  refine ⟨modifications, built, ?_⟩
  rw [decidedPerField_iff_forall bound recorded skipped, ← and_assoc]
  refine and_congr_left fun _ => ?_
  by_cases all : AllExcluded ctx execution.variableValue depth (.root rootObjectId selectionSet)
  · -- The fields with a conditional occurrence are left out, and these are excluded wherever conditional.
    simp only [all, true_implies, not_true_eq_false, false_implies, and_true, true_and]
    refine forall₅_congr fun path merged follows item member => forall_congr' fun isField => ?_
    constructor
    · intro iff_ conditional occurrence inField
      exact occurrence.isConditional_of_isExcluded _ _ (iff_.mp conditional occurrence inField)
    · intro unmixed
      refine ⟨fun conditional occurrence inField =>
        all.excluded follows isField inField (unmixed conditional occurrence inField), fun excluded => ?_⟩
      have own := Merged.mem_occurrences_self member
      exact ⟨_, own, item.occurrence.isConditional_of_isExcluded _ _ (excluded _ own)⟩
  · -- Nothing is left out.
    simp [all, NoneExcluded]

/-- An object with the scalar fields `a` and `b`. -/
def flatContext : BindContext where
  schema := {
    objectFieldByName _ name := if name = "a" then some 0 else if name = "b" then some 1 else none
    interfaceFieldByName _ _ := none
    definitionByName _ := none
    definitionName _ := "Query"
    fieldName id := if id = 0 then "a" else "b"
    fieldType _ := .scalar 0
    parentEntityId _ := .object 0
    interfacePossibleTypeIds _ := []
    unionPossibleTypeIds _ := []
    fieldDirectives _ := []
    definitionDirectives _ := []
    coerceArguments _ _ := some [] }
  variableDefinitions := []
  fragments := []

def flatField (name : String) (directives : List (String × Bool)) : Selection :=
  .field ⟨1, 1⟩ none name [] (directives.map fun (directive, value) =>
    ⟨directive, ⟨1, 1⟩, [("if", .boolean value)]⟩) []

def openExecution : PreExecutionContext where
  isAnonymous := false
  matchesScopes _ := none
  authorizeEdgePreExecution _ _ _ := none
  authorizeNodePreExecution _ _ := none
  variableValue _ := false

/-- Fields of scalar type have nothing below them. -/
theorem follow_flatContext {depth : Nat} {root merged : Merged} {path : List (String × FieldDefinitionId)}
    (follows : root.follow flatContext depth path = some merged) : merged = root := by
  cases path with
  | nil => exact (Option.some.inj follows).symm
  | cons => simp [Merged.follow, Merged.below, flatContext, SelectionSetType.maybeFrom] at follows

/-- `{ ... @skip(if: true) { a } b __typename @skip(if: false) }` -/
def plainSibling : List Selection :=
  [.inlineFragment ⟨1, 1⟩ none [⟨"skip", ⟨1, 1⟩, [("if", .boolean true)]⟩] [flatField "a" []], flatField "b" [],
    flatField "__typename" [("skip", false)]]

theorem decidedPerField_plain_sibling : ∃ operation modifications,
      bindOperation flatContext 2 0 plainSibling = .ok operation ∧
      QueryModifications.build openExecution operation (fun _ => []) = .ok modifications ∧
      DecidedPerField flatContext openExecution.variableValue 2 (.root 0 plainSibling) operation modifications := by
  have computed : ((bindOperation flatContext 2 0 plainSibling).toOption.map
      fun operation => operation.queryModifiers.all (isSkipInclude ·.rule)) = some true := by
    decide +kernel
  obtain ⟨operation, bound, conditionsOnly⟩ := ok_of_map computed
  obtain ⟨modifications, built, decided⟩ :=
    decidedPerField_iff bound (all_eq_true.mp conditionsOnly) openExecution (fun _ => [])
  refine ⟨operation, modifications, bound, built, decided.mpr ⟨fun _ => ?_, fun some => (some ?_).elim, ?_⟩⟩
  all_goals
    intro path merged follows
    obtain rfl := follow_flatContext follows
    decide +kernel

/-- `{ a @skip(if: true) b @skip(if: false) }` keeps `a`. -/
theorem not_decidedPerField_kept_sibling : ∃ operation modifications,
      bindOperation flatContext 1 0 [flatField "a" [("skip", true)], flatField "b" [("skip", false)]] = .ok operation ∧
      (∀ modifier ∈ operation.queryModifiers, isSkipInclude modifier.rule = true) ∧
      QueryModifications.build openExecution operation (fun _ => []) = .ok modifications ∧
      modifications.skippedFields = [] ∧
      ¬ DecidedPerField flatContext openExecution.variableValue 1
        (.root 0 [flatField "a" [("skip", true)], flatField "b" [("skip", false)]]) operation modifications := by
  have computed : ((bindOperation flatContext 1 0
      [flatField "a" [("skip", true)], flatField "b" [("skip", false)]]).toOption.map
      fun operation => (operation.queryModifiers.all (isSkipInclude ·.rule),
        (QueryModifications.build openExecution operation (fun _ => [])).toOption.map fun modifications =>
          modifications.skippedFields)) = some (true, some []) := by
    decide +kernel
  obtain ⟨operation, bound, facts⟩ := ok_of_map computed
  simp only [Prod.mk.injEq, all_eq_true] at facts
  obtain ⟨modifications, built, none⟩ := ok_of_map facts.2
  refine ⟨operation, modifications, bound, facts.1, built, none, fun decided => ?_⟩
  obtain ⟨fieldId, _, iff_⟩ := decided [] _ rfl
    ⟨"a", .definition 0, ⟨⟨1, 1⟩, [], [⟨"skip", ⟨1, 1⟩, [("if", .boolean true)]⟩], [], []⟩⟩ mem_cons_self
  rw [none] at iff_
  exact not_mem_nil (iff_.mpr (by decide +kernel))

end Grafbase.Operation
