import Grafbase.Operation.Occurrences

/-! Well-formed operations.

Fields name the selection set they sit in, and selection sets below a field come
after it. Modifiers only impact fields of the operation, and the conditional ones
are those of the recorded occurrences.
-/

set_option autoImplicit false

namespace Grafbase.Operation
open Foundation Response List

/-- The field sits in the selection set, and its own selection set comes after it. -/
def Sits (fields : List Field) (count : Nat) (selectionSetId : SelectionSetId) (fieldId : FieldId) : Prop :=
  ∃ field, fields[fieldId]? = some field ∧ field.parentSelectionSetId = selectionSetId ∧
    ∀ nested, field.selectionSetId = some nested → selectionSetId < nested ∧ nested < count

def WellNested (fields : List Field) (selectionSets : List (List FieldId)) : Prop :=
  ∀ id fieldIds, selectionSets[id]? = some fieldIds →
    ∀ fieldId ∈ fieldIds, Sits fields selectionSets.length id fieldId

def InRange {rules : Type} (fields : List Field) (modifiers : List (rules × List FieldId)) : Prop :=
  ∀ modifier ∈ modifiers, ∀ fieldId ∈ modifier.2, fieldId < fields.length

variable {ctx : BindContext} {fields more : List Field} {selectionSets : List (List FieldId)}
  {selectionSetId : SelectionSetId} {fieldId : FieldId}

theorem Sits.mono {count larger : Nat} (sits : Sits fields count selectionSetId fieldId)
    (grows : fields <+: more) (le : count ≤ larger) : Sits more larger selectionSetId fieldId := by
  obtain ⟨field, found, parent, nested⟩ := sits
  exact ⟨field, getElem?_of_front grows found, parent,
    fun id same => ⟨(nested id same).1, (nested id same).2.trans_le le⟩⟩

theorem Sits.lt_length {count : Nat} (sits : Sits fields count selectionSetId fieldId) : fieldId < fields.length :=
  let ⟨_, found, _⟩ := sits
  index_lt found

section
variable (wellNested : WellNested fields selectionSets)
include wellNested

theorem WellNested.grow (grows : fields <+: more) : WellNested more selectionSets :=
  fun id fieldIds found fieldId member => (wellNested id fieldIds found fieldId member).mono grows le_rfl

theorem WellNested.reserve : WellNested fields (selectionSets ++ [[]]) := by
  intro id fieldIds found fieldId member
  rw [getElem?_append] at found
  split at found
  · exact (wellNested id fieldIds found fieldId member).mono prefix_rfl (by simp)
  · obtain rfl : fieldIds = [] := by
      have := mem_of_getElem? found
      simpa using this
    cases member

theorem WellNested.set {id : SelectionSetId} {fieldIds : List FieldId}
    (sit : ∀ fieldId ∈ fieldIds, Sits fields selectionSets.length id fieldId) :
    WellNested fields (selectionSets.set id fieldIds) := by
  intro other otherIds found fieldId member
  rw [length_set]
  rw [getElem?_set] at found
  split at found
  · next same =>
    subst same
    split at found
    · cases found
      exact sit fieldId member
    · cases found
  · exact wellNested other otherIds found fieldId member

end

theorem InRange.grow {rules : Type} {modifiers : List (rules × List FieldId)} (inRange : InRange fields modifiers)
    (grows : fields <+: more) : InRange more modifiers :=
  fun modifier member fieldId impacted => (inRange modifier member fieldId impacted).trans_le grows.length_le

theorem InRange.upsert {rules : Type} [DecidableEq rules] {modifiers : List (rules × List FieldId)} {rule : rules}
    (inRange : InRange fields modifiers) (pushed : fieldId < fields.length) :
    InRange fields (upsert rule [] (· ++ [fieldId]) modifiers) := by
  intro modifier member impacted listed
  rcases lists_upsert.mp ⟨modifier.2, member, listed⟩ with ⟨before, held, listed⟩ | ⟨_, rfl⟩
  · exact inRange _ held _ listed
  · exact pushed

/-- No occurrence is recorded, no conditional modifier changed and no selection set added. -/
structure Binder.Preserves (before after : Binder) : Prop where
  values : before.inputValues <+: after.inputValues
  keys : before.responseKeys <+: after.responseKeys
  distinctKeys : DistinctKeys before.responseKeys → DistinctKeys after.responseKeys
  fields : before.fields <+: after.fields
  selectionSets : after.selectionSets = before.selectionSets
  occurrences : after.occurrences = before.occurrences
  modifiers : after.queryModifiers.filter (fun modifier => isSkipInclude modifier.1) =
    before.queryModifiers.filter fun modifier => isSkipInclude modifier.1
  inRange : InRange before.fields before.queryModifiers → InRange after.fields after.queryModifiers

namespace Binder.Preserves

theorem refl (binder : Binder) : binder.Preserves binder :=
  ⟨prefix_rfl, prefix_rfl, id, prefix_rfl, rfl, rfl, rfl, id⟩

variable {after : Binder} {before binder : Binder} {rule : QueryModifierRule}

theorem trans {middle : Binder} (first : before.Preserves middle) (second : middle.Preserves after) :
    before.Preserves after :=
  ⟨first.values.trans second.values, first.keys.trans second.keys, second.distinctKeys ∘ first.distinctKeys,
    first.fields.trans second.fields, second.selectionSets.trans first.selectionSets,
    second.occurrences.trans first.occurrences, second.modifiers.trans first.modifiers, second.inRange ∘ first.inRange⟩

theorem of_modifiers_eq (values : before.inputValues <+: after.inputValues) (fields : before.fields <+: after.fields)
    (keys : before.responseKeys <+: after.responseKeys)
    (distinctKeys : DistinctKeys before.responseKeys → DistinctKeys after.responseKeys)
    (selectionSets : after.selectionSets = before.selectionSets) (occurrences : after.occurrences = before.occurrences)
    (modifiers : after.queryModifiers = before.queryModifiers) : before.Preserves after :=
  ⟨values, keys, distinctKeys, fields, selectionSets, occurrences, by rw [modifiers],
    fun inRange => modifiers ▸ inRange.grow fields⟩

theorem pushField (binder : Binder) (field : Field) : binder.Preserves (binder.pushField field).2 :=
  .of_modifiers_eq prefix_rfl (prefix_append _ _) prefix_rfl id rfl rfl rfl

theorem register (other : isSkipInclude rule = false) (pushed : fieldId < binder.fields.length) :
    binder.Preserves (binder.registerFieldImpactedByQueryModifier rule fieldId) :=
  ⟨prefix_rfl, prefix_rfl, id, prefix_rfl, rfl, rfl, filter_upsert other, fun inRange => inRange.upsert pushed⟩

theorem foldlM {δ : Type} {step : Binder → δ → Except BindError Binder} {directives : List δ}
    (pushed : fieldId < binder.fields.length) (each : ∀ state next directive, fieldId < state.fields.length →
      step state directive = .ok next →
      state.Preserves next) (ran : directives.foldlM step binder = .ok after) : binder.Preserves after :=
  foldlM_invariant ran binder.Preserves (.refl binder) fun _ _ _ _ so_far stepped =>
    so_far.trans (each _ _ _ (pushed.trans_le so_far.fields.length_le) stepped)

theorem lists_iff (preserves : before.Preserves after) (conditional : isSkipInclude rule = true) :
    Lists after.queryModifiers rule fieldId ↔ Lists before.queryModifiers rule fieldId := by
  rw [← lists_filter conditional, preserves.modifiers, lists_filter conditional]

theorem tracked (preserves : before.Preserves after) (tracked : before.Tracked ctx) : after.Tracked ctx where
  sound rule fieldId conditional listed := by
    obtain ⟨occurrences, recorded, occurrence, member, isConditional, ruleOf⟩ :=
      tracked.sound rule fieldId conditional ((preserves.lists_iff conditional).mp listed)
    exact ⟨occurrences, preserves.occurrences ▸ recorded, occurrence, member, isConditional,
      ruleOf.mono preserves.values⟩
  complete recorded inAfter occurrence member conditional := by
    obtain ⟨rule, ruleOf, listed⟩ :=
      tracked.complete recorded (preserves.occurrences ▸ inAfter) occurrence member conditional
    exact ⟨rule, ruleOf.mono preserves.values, (preserves.lists_iff ruleOf.isSkipInclude).mpr listed⟩
  impacting modifier member conditional := by
    have kept : modifier ∈ after.queryModifiers.filter fun modifier => isSkipInclude modifier.1 :=
      mem_filter.mpr ⟨member, conditional⟩
    rw [preserves.modifiers] at kept
    exact tracked.impacting modifier (mem_filter.mp kept).1 conditional
  distinct := preserves.occurrences ▸ tracked.distinct
  bounded recorded inAfter :=
    (tracked.bounded recorded (preserves.occurrences ▸ inAfter)).trans_le preserves.fields.length_le
  occurs recorded inAfter := tracked.occurs recorded (preserves.occurrences ▸ inAfter)

end Binder.Preserves

variable {binder after : Binder} {definitionId : FieldDefinitionId}

theorem generateModifiersForTypeSystemDirectives_preserves
    {argumentIds : IdRange} (pushed : fieldId < binder.fields.length)
    (ran : binder.generateModifiersForTypeSystemDirectives ctx fieldId argumentIds definitionId = .ok after) :
    binder.Preserves after := by
  obtain ⟨middle, fieldRan, typeRan⟩ := bind_eq_ok.mp ran
  have ofField : binder.Preserves middle := by
    refine .foldlM pushed (fun state next directive pushed stepped => ?_) fieldRan
    split at stepped <;> cases stepped
    all_goals first
      | exact .register rfl pushed
      | exact .of_modifiers_eq prefix_rfl prefix_rfl prefix_rfl id rfl rfl rfl
  refine ofField.trans (.foldlM (pushed.trans_le ofField.fields.length_le)
    (fun state next directive pushed stepped => ?_) typeRan)
  split at stepped <;> cases stepped
  all_goals first | exact .register rfl pushed | exact .refl _

theorem bindFieldArguments_preserves {location : Location} {arguments : List (String × Value)}
    {output : IdRange × Binder} (ran : binder.bindFieldArguments ctx definitionId location arguments = .ok output) :
    output.2.fields = binder.fields ∧ binder.Preserves output.2 := by
  rw [Binder.bindFieldArguments] at ran
  split at ran
  · cases ran
  · next coerced _ =>
    cases ran
    refine List.foldlRecOn (motive := fun state : Binder => state.fields = binder.fields ∧ binder.Preserves state)
      coerced _ ⟨rfl, .refl binder⟩ fun state so_far value _ => ⟨so_far.1, so_far.2.trans ?_⟩
    exact .of_modifiers_eq (prefix_append _ _) prefix_rfl prefix_rfl id rfl rfl rfl

/-- Binding adds values, keys, fields and selection sets, and keeps them tracked and well formed. -/
structure Binder.Advances (ctx : BindContext) (before after : Binder) : Prop where
  values : before.inputValues <+: after.inputValues
  keys : before.responseKeys <+: after.responseKeys
  distinctKeys : DistinctKeys before.responseKeys → DistinctKeys after.responseKeys
  fields : before.fields <+: after.fields
  occurrences : before.occurrences <+: after.occurrences
  selectionSets : before.selectionSets.length ≤ after.selectionSets.length
  sets : ∀ id < before.selectionSets.length, after.selectionSets[id]? = before.selectionSets[id]?
  tracked : before.Tracked ctx → after.Tracked ctx
  wellNested : WellNested before.fields before.selectionSets → WellNested after.fields after.selectionSets
  inRange : InRange before.fields before.queryModifiers → InRange after.fields after.queryModifiers

theorem Binder.Preserves.advances {before : Binder} (preserves : before.Preserves after) : before.Advances ctx after :=
  ⟨preserves.values, preserves.keys, preserves.distinctKeys, preserves.fields, preserves.occurrences ▸ prefix_rfl,
    preserves.selectionSets ▸ le_rfl, fun _ _ => by rw [preserves.selectionSets], preserves.tracked,
    fun wellNested => preserves.selectionSets ▸ wellNested.grow preserves.fields, preserves.inRange⟩

namespace Binder.Advances

theorem trans {before middle : Binder} (first : before.Advances ctx middle)
    (second : middle.Advances ctx after) : before.Advances ctx after :=
  ⟨first.values.trans second.values, first.keys.trans second.keys, second.distinctKeys ∘ first.distinctKeys,
    first.fields.trans second.fields, first.occurrences.trans second.occurrences,
    first.selectionSets.trans second.selectionSets,
    fun id old => (second.sets id (old.trans_le first.selectionSets)).trans (first.sets id old),
    second.tracked ∘ first.tracked, second.wellNested ∘ first.wellNested, second.inRange ∘ first.inRange⟩

theorem reserve (binder : Binder) :
    binder.Advances ctx { binder with selectionSets := binder.selectionSets ++ [[]] } :=
  ⟨prefix_rfl, prefix_rfl, id, prefix_rfl, prefix_rfl, by simp, fun _ old => getElem?_append_left old,
    fun tracked => { tracked with }, WellNested.reserve, id⟩

/-- The selection set that is filled in was reserved later. -/
theorem fill {before : Binder} {id : SelectionSetId} {fieldIds : List FieldId} (advances : before.Advances ctx after)
    (later : before.selectionSets.length ≤ id)
    (sit : ∀ fieldId ∈ fieldIds, Sits after.fields after.selectionSets.length id fieldId) :
    before.Advances ctx { after with selectionSets := after.selectionSets.set id fieldIds } :=
  { advances with
    selectionSets := by simpa using advances.selectionSets
    sets other old := by rw [getElem?_set_ne (by omega), advances.sets other old]
    tracked tracked := { advances.tracked tracked with }
    wellNested wellNested := (advances.wellNested wellNested).set sit }

end Binder.Advances

theorem Registers.preserves {before after : SelectionSetBinder} (registers : Registers ctx before after) :
    before.binder.Preserves after.binder := by
  have fields : after.binder.fields = before.binder.fields := by rw [registers.same]
  refine .of_modifiers_eq registers.grows (fields ▸ prefix_rfl) registers.keys registers.distinct ?_ ?_ ?_
  all_goals rw [registers.same]

variable {id : SelectionSetId}

theorem bindField_advances {boundResponseKey : BoundResponseKey}
    {occurrence : Occurrence} {selectionSetId : Option SelectionSetId} {entry : FieldEntry}
    {output : FieldId × Binder} (faithful : entry.Faithful ctx binder.inputValues) (occurs : entry.occurrences ≠ [])
    (below : ∀ nested, selectionSetId = some nested → id < nested ∧ nested < binder.selectionSets.length)
    (ran : binder.bindField ctx id boundResponseKey definitionId occurrence selectionSetId entry = .ok output) :
    binder.Advances ctx output.2 ∧ Sits output.2.fields output.2.selectionSets.length id output.1 := by
  simp only [Binder.bindField, bind_eq_ok] at ran
  obtain ⟨_, _, ⟨argumentIds, withArguments⟩, argumentsRan, withModifiers, modifiersRan, last⟩ := ran
  cases last
  let field : Field := .query ⟨boundResponseKey, occurrence.location, definitionId, argumentIds, selectionSetId, id⟩
  obtain ⟨sameFields, arguments⟩ := bindFieldArguments_preserves argumentsRan
  dsimp only at sameFields arguments modifiersRan
  have sits : Sits (withArguments.pushField field).2.fields withArguments.selectionSets.length id
    binder.fields.length :=
    ⟨field, by simp [Binder.pushField, sameFields], rfl, by rw [arguments.selectionSets]; exact below⟩
  have modifiers := generateModifiersForTypeSystemDirectives_preserves sits.lt_length modifiersRan
  have pushed := sits.lt_length.trans_le modifiers.fields.length_le
  have preserves : binder.Preserves withModifiers := (arguments.trans (.pushField withArguments field)).trans modifiers
  have advances : binder.Advances ctx withModifiers := preserves.advances
  rw [generateAdditionalModifiers_eq]
  refine ⟨{ advances with
    occurrences := advances.occurrences.trans (prefix_append _ _)
    tracked := fun tracked => ?_
    inRange := fun inRange modifier member impacted listed => ?_ },
    sits.mono modifiers.fields (modifiers.selectionSets ▸ le_rfl)⟩
  · have fresh : binder.fields.length ∉ withModifiers.occurrences.map Prod.fst := by
      rw [preserves.occurrences]
      intro member
      obtain ⟨recorded, inBinder, same⟩ := mem_map.mp member
      exact (tracked.bounded recorded inBinder).ne same
    have recorded := (advances.tracked tracked).record (faithful.mono preserves.values) occurs pushed fresh
    rwa [generateAdditionalModifiers_eq] at recorded
  · rcases (lists_generateAdditionalModifiers ..).mp ⟨modifier.2, member, listed⟩ with ⟨_, before, listed⟩ | ⟨_, rfl⟩
    · exact advances.inRange inRange _ before _ listed
    · exact pushed

def AllSit (id : SelectionSetId) (state : List FieldId × Binder) : Prop :=
  ∀ fieldId ∈ state.1, Sits state.2.fields state.2.selectionSets.length id fieldId

theorem AllSit.push {state : List FieldId × Binder} (all : AllSit id state) (advances : state.2.Advances ctx binder)
    (sits : Sits binder.fields binder.selectionSets.length id fieldId) : AllSit id (state.1 ++ [fieldId], binder) := by
  intro other member
  rcases mem_push.mp member with before | rfl
  · exact (all other before).mono advances.fields advances.selectionSets
  · exact sits

section Merge
variable {merge : SelectionSetType → List (List Selection) → Binder → Except BindError (SelectionSetId × Binder)}
  (merges : ∀ type selectionSets binder output, merge type selectionSets binder = .ok output →
    binder.Advances ctx output.2 ∧ binder.selectionSets.length ≤ output.1 ∧ output.1 < output.2.selectionSets.length)
include merges in
theorem bindFieldSelectionSet_advances {occurrences : List Occurrence} {output : Option SelectionSetId × Binder}
    (ran : bindFieldSelectionSet ctx merge definitionId occurrences binder = .ok output) :
    binder.Advances ctx output.2 ∧ ∀ nested, output.1 = some nested →
      binder.selectionSets.length ≤ nested ∧ nested < output.2.selectionSets.length := by
  rw [bindFieldSelectionSet] at ran
  split at ran
  · cases ran
    exact ⟨(Binder.Preserves.refl binder).advances, by simp⟩
  · obtain ⟨inner, merged, last⟩ := bind_eq_ok.mp ran
    cases last
    obtain ⟨advances, range⟩ := merges _ _ _ _ merged
    exact ⟨advances, fun nested same => by cases same; exact range⟩

include merges in
theorem bindQueryField_advances {state next : List FieldId × Binder}
    {field : (ResponseKey × FieldDefinitionId) × FieldEntry} (faithful : field.2.Faithful ctx state.2.inputValues)
    (allocated : id < state.2.selectionSets.length) (sit : AllSit id state)
    (ran : bindQueryField ctx merge id state field = .ok next) : state.2.Advances ctx next.2 ∧ AllSit id next := by
  obtain ⟨⟨responseKey, definitionId⟩, entry⟩ := field
  simp only [bindQueryField] at ran
  split at ran
  · cases ran
  · next occurrence first =>
    split at ran
    · cases ran
    · simp only [bind_eq_ok] at ran
      obtain ⟨inner, innerRan, bound, boundRan, last⟩ := ran
      cases last
      obtain ⟨innerAdvances, range⟩ := bindFieldSelectionSet_advances merges innerRan
      obtain ⟨advances, sits⟩ := bindField_advances (faithful.mono innerAdvances.values) (firstOccurrence_some first)
        (fun nested same => ⟨allocated.trans_le (range nested same).1, (range nested same).2⟩) boundRan
      have whole := innerAdvances.trans advances
      exact ⟨whole, sit.push whole sits⟩

end Merge

variable {state next : List FieldId × Binder} {depth : Nat} {operation : BoundOperation}

theorem bindTypenameField_advances {responseKey : ResponseKey} {field : SelectionSetType × (Nat × Location)}
    (sit : AllSit id state)
    (ran : bindTypenameField id responseKey state field = .ok next) : state.2.Advances ctx next.2 ∧ AllSit id next := by
  rw [bindTypenameField] at ran
  split at ran
  · cases ran
  · next boundResponseKey _ =>
    cases ran
    have advances : state.2.Advances ctx _ :=
      (Binder.Preserves.pushField state.2 (.typeName ⟨field.1, boundResponseKey, field.2.2, id⟩)).advances
    exact ⟨advances, sit.push advances ⟨_, getElem?_concat_length, rfl, by simp [Field.selectionSetId]⟩⟩

theorem bindTypenameFields_advances {type : SelectionSetType}
    {group : ResponseKey × List (SelectionSetType × (Nat × Location))}
    (sit : AllSit id state) (ran : bindTypenameFields type id state group = .ok next) :
    state.2.Advances ctx next.2 ∧ AllSit id next := by
  have all (ran : group.2.foldlM (bindTypenameField id group.1) state = .ok next) :
      state.2.Advances ctx next.2 ∧ AllSit id next :=
    foldlM_invariant ran (fun output => state.2.Advances ctx output.2 ∧ AllSit id output)
      ⟨(Binder.Preserves.refl _).advances, sit⟩
      fun _ _ _ _ so_far stepped => (bindTypenameField_advances so_far.2 stepped).imp_left so_far.1.trans
  rw [bindTypenameFields] at ran
  split at ran
  · split at ran
    · exact bindTypenameField_advances sit ran
    · exact all ran
  · exact all ran

/-- A selection set is allocated before those below it, by induction on the depth. -/
theorem bindMergedSelectionSets_advances (depth : Nat) (type : SelectionSetType)
    (selectionSets : List (List Selection)) (binder : Binder) (output : SelectionSetId × Binder)
    (ran : bindMergedSelectionSets ctx depth type selectionSets binder = .ok output) : binder.Advances ctx output.2 ∧
    binder.selectionSets.length ≤ output.1 ∧ output.1 < output.2.selectionSets.length := by
  induction depth generalizing type selectionSets binder output with
  | zero => cases ran
  | succ depth ih =>
    simp only [bindMergedSelectionSets, bind_eq_ok] at ran
    obtain ⟨state, registerRan, bound, fieldsRan, withTypenames, typenamesRan, last⟩ := ran
    cases last
    have registers : Registers ctx { binder } state := by
      refine foldlM_invariant registerRan (Registers ctx { binder }) (.refl _)
        fun selectionSet _ middle after so_far stepped => so_far.trans ?_
      exact registerSelectionSetFields_registers _ _ _ _ _ _ .nil stepped
    have faithful := registers.faithful (by simp)
    have registered : binder.Advances ctx state.binder := registers.preserves.advances
    let id := state.binder.selectionSets.length
    let reserved : Binder := { state.binder with selectionSets := state.binder.selectionSets ++ [[]] }
    have reserves : state.binder.Advances ctx reserved := .reserve state.binder
    have allocated : id < reserved.selectionSets.length := by simp [reserved, id]
    have fields : reserved.Advances ctx bound.2 ∧ AllSit id bound := by
      refine foldlM_invariant fieldsRan (fun output => reserved.Advances ctx output.2 ∧ AllSit id output)
        ⟨(Binder.Preserves.refl _).advances, by simp [AllSit]⟩ fun field member middle after so_far stepped => ?_
      exact (bindQueryField_advances ih ((faithful field member).mono so_far.1.values)
        (allocated.trans_le so_far.1.selectionSets) so_far.2 stepped).imp_left so_far.1.trans
    have typenames : bound.2.Advances ctx withTypenames.2 ∧ AllSit id withTypenames :=
      foldlM_invariant typenamesRan (fun output => bound.2.Advances ctx output.2 ∧ AllSit id output)
        ⟨(Binder.Preserves.refl _).advances, fields.2⟩
        fun _ _ _ _ so_far stepped => (bindTypenameFields_advances so_far.2 stepped).imp_left so_far.1.trans
    have inner := fields.1.trans typenames.1
    refine ⟨((registered.trans reserves).trans inner).fill registered.selectionSets ?_, registered.selectionSets, ?_⟩
    · exact fun fieldId member => typenames.2 fieldId (mem_mergeSort.mp member)
    · simp only [length_set]
      exact allocated.trans_le inner.selectionSets

theorem pushRootObjectQueryModifier_preserves (binder : Binder) {rule : QueryModifierRule}
    (other : isSkipInclude rule = false) : binder.Preserves (binder.pushRootObjectQueryModifier rule).2 := by
  rw [Binder.pushRootObjectQueryModifier]
  split
  · exact .refl binder
  · refine ⟨prefix_rfl, prefix_rfl, id, prefix_rfl, rfl, rfl, by simp [other],
      fun inRange modifier member fieldId impacted => ?_⟩
    rcases mem_push.mp member with before | rfl
    · exact inRange modifier before fieldId impacted
    · cases impacted

theorem generateModifiersForRootObject_preserves (ctx : BindContext) (rootObjectId : ObjectDefinitionId)
    (binder : Binder) :
    binder.Preserves (binder.generateModifiersForRootObject ctx rootObjectId).2 := by
  rw [Binder.generateModifiersForRootObject]
  refine List.foldlRecOn (motive := fun output : List Nat × Binder => binder.Preserves output.2) _ _ (.refl binder)
    fun state so_far directive _ => ?_
  cases directive with
  | authenticated
  | requiresScopes | authorized => exact so_far.trans (pushRootObjectQueryModifier_preserves _ rfl)
  | other => exact so_far

variable {rootObjectId : ObjectDefinitionId} {selectionSet : List Selection}

theorem bindOperation_advances
    (ran : bindMergedSelectionSets ctx depth (.object rootObjectId) [selectionSet] {} = .ok (id, binder)) :
    Binder.Advances ctx {} (binder.generateModifiersForRootObject ctx rootObjectId).2 :=
  (bindMergedSelectionSets_advances _ _ _ _ _ ran).1.trans
    (generateModifiersForRootObject_preserves ctx rootObjectId binder).advances

/-- `Binder.Tracked` for the operation that binding results in. -/
structure BoundOperation.Tracked (ctx : BindContext) (operation : BoundOperation) : Prop where
  sound : ∀ modifier ∈ operation.queryModifiers, isSkipInclude modifier.rule = true →
    ∀ fieldId ∈ modifier.impactedFields, ∃ occurrences, (fieldId, occurrences) ∈ operation.occurrences ∧
      ∃ occurrence ∈ occurrences, occurrence.isConditional = true ∧
        RuleOf ctx operation.queryInputValues modifier.rule occurrence
  complete : ∀ field ∈ operation.occurrences, ∀ occurrence ∈ field.2, occurrence.isConditional = true →
    ∃ modifier ∈ operation.queryModifiers, RuleOf ctx operation.queryInputValues modifier.rule occurrence ∧
      field.1 ∈ modifier.impactedFields
  impacting : ∀ modifier ∈ operation.queryModifiers, isSkipInclude modifier.rule = true → modifier.impactedFields ≠ []
  distinct : (operation.occurrences.map Prod.fst).Nodup
  occurs : ∀ field ∈ operation.occurrences, field.2 ≠ []

theorem bindOperation_tracked (ran : bindOperation ctx depth rootObjectId selectionSet = .ok operation) :
    operation.Tracked ctx := by
  obtain ⟨⟨id, binder⟩, mergeRan, last⟩ := bind_eq_ok.mp ran
  cases last
  have empty : Binder.Tracked ctx {} := by constructor <;> simp [Foundation.Lists]
  have tracked := (bindOperation_advances mergeRan).tracked empty
  refine ⟨?_, ?_, ?_, tracked.distinct, tracked.occurs⟩
  · intro modifier member conditional fieldId impacted
    obtain ⟨⟨rule, fields⟩, inBinder, rfl⟩ := mem_map.mp member
    exact tracked.sound rule fieldId conditional ⟨fields, inBinder, impacted⟩
  · intro field member occurrence inField conditional
    obtain ⟨rule, ruleOf, fields, inBinder, impacted⟩ := tracked.complete field member occurrence inField conditional
    exact ⟨⟨rule, fields⟩, mem_map.mpr ⟨_, inBinder, rfl⟩, ruleOf, impacted⟩
  · intro modifier member conditional
    obtain ⟨⟨rule, fields⟩, inBinder, rfl⟩ := mem_map.mp member
    exact tracked.impacting _ inBinder conditional

structure BoundOperation.WellFormed (operation : BoundOperation) : Prop where
  wellNested : WellNested operation.fields operation.selectionSets
  inRange : ∀ modifier ∈ operation.queryModifiers, ∀ fieldId ∈ modifier.impactedFields,
    fieldId < operation.fields.length

theorem bindOperation_wellFormed (ran : bindOperation ctx depth rootObjectId selectionSet = .ok operation) :
    operation.WellFormed := by
  obtain ⟨⟨id, binder⟩, mergeRan, last⟩ := bind_eq_ok.mp ran
  cases last
  have advances := bindOperation_advances mergeRan
  refine ⟨advances.wellNested fun id fieldIds found => by simp at found, ?_⟩
  intro modifier member fieldId impacted
  obtain ⟨⟨rule, impactedFields⟩, inBinder, rfl⟩ := mem_map.mp member
  exact advances.inRange (by simp [InRange]) _ inBinder fieldId impacted

end Grafbase.Operation
