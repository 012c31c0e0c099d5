import Grafbase.Operation.QueryModifications

/-! Modifier rules and the occurrences they stand for.

A rule of ids stands for the directives of an occurrence when its ids lead to the
bound conditions of these directives, in order. Binding keeps a rule for every
occurrence that has conditions, and none besides.
-/

set_option autoImplicit false

namespace Grafbase.Operation
open Foundation Response List

def Directive.isCondition (directive : Directive) : Bool := directive.name = "skip" || directive.name = "include"

def Occurrence.allDirectives (occurrence : Occurrence) : List Directive := occurrence.directives ++ occurrence.enclosing

def Occurrence.isConditional (occurrence : Occurrence) : Bool := occurrence.allDirectives.any Directive.isCondition

/-- The id leads to the condition of the directive. -/
def BindsTo (ctx : BindContext) (values : List QueryInputValue) (id : QueryInputValueId) (directive : Directive) :
    Prop :=
  ∃ argument value, directive.arguments.head? = some argument ∧
    coerceCondition ctx directive.location argument.2 = .ok value ∧ values[id]? = some value

structure StandsFor (ctx : BindContext) (values : List QueryInputValue) (bound : ExecutableDirectives)
    (directives : List Directive) : Prop where
  skips : List.Forall₂ (BindsTo ctx values) bound.skipInputValueIds (directives.filter (·.name = "skip"))
  includes : List.Forall₂ (BindsTo ctx values) bound.includeInputValueIds (directives.filter (·.name = "include"))

variable {ctx : BindContext} {values more : List QueryInputValue}

theorem BindsTo.mono {id : QueryInputValueId} {directive : Directive} (binds : BindsTo ctx values id directive)
    (grows : values <+: more) : BindsTo ctx more id directive := by
  obtain ⟨argument, value, first, coerced, held⟩ := binds
  exact ⟨argument, value, first, coerced, getElem?_of_front grows held⟩

variable {bound : ExecutableDirectives} {directives : List Directive} {rule : QueryModifierRule}
  {occurrence : Occurrence} {entry : FieldEntry}

theorem StandsFor.mono (stands : StandsFor ctx values bound directives) (grows : values <+: more) :
    StandsFor ctx more bound directives where
  skips := stands.skips.imp fun _ _ binds => binds.mono grows
  includes := stands.includes.imp fun _ _ binds => binds.mono grows

theorem StandsFor.extend {own outer : ExecutableDirectives} {enclosing : List Directive}
    (inner : StandsFor ctx values own directives) (around : StandsFor ctx values outer enclosing) :
    StandsFor ctx values (own.extend outer) (directives ++ enclosing) where
  skips := by
    rw [filter_append]
    exact rel_append inner.skips around.skips
  includes := by
    rw [filter_append]
    exact rel_append inner.includes around.includes

theorem StandsFor.nil : StandsFor ctx values {} [] := ⟨.nil, .nil⟩

theorem bindExecutableDirectives_spec {binder : Binder}
    {output : ExecutableDirectives × Binder} (ran : bindExecutableDirectives ctx directives binder = .ok output) :
    ∃ added, output.2 = { binder with inputValues := binder.inputValues ++ added } ∧
      StandsFor ctx (binder.inputValues ++ added) output.1 directives := by
  induction directives generalizing binder output with
  | nil =>
    obtain rfl : ({}, binder) = output := by simpa [bindExecutableDirectives] using ran
    exact ⟨[], by simp, .nil⟩
  | cons directive rest ih =>
    rw [bindExecutableDirectives] at ran
    split at ran
    · next condition =>
      cases first : directive.arguments.head? with
      | none => simp [first] at ran
      | some argument =>
        simp only [first, bind_eq_ok] at ran
        obtain ⟨value, coerced, ⟨others, last⟩, restRan, chosen⟩ := ran
        obtain ⟨added, rfl, stands⟩ := ih restRan
        simp only [Binder.pushValue, append_assoc, singleton_append] at stands
        have binds : BindsTo ctx (binder.inputValues ++ value :: added) binder.inputValues.length directive :=
          ⟨argument, value, first, coerced, by simp⟩
        refine ⟨value :: added, ?_⟩
        by_cases skip : directive.name = "skip"
        · obtain rfl := (Except.ok.injEq _ _).mp ((if_pos skip).symm.trans chosen)
          have own : StandsFor ctx (binder.inputValues ++ value :: added) ⟨[binder.inputValues.length], []⟩
            [directive] :=
            ⟨by simpa [skip] using binds, by simp [skip]⟩
          exact ⟨by simp [Binder.pushValue], own.extend stands⟩
        · obtain rfl := (Except.ok.injEq _ _).mp ((if_neg skip).symm.trans chosen)
          have own : StandsFor ctx (binder.inputValues ++ value :: added) ⟨[], [binder.inputValues.length]⟩
            [directive] :=
            ⟨by simp [skip], by simpa [condition.resolve_left skip] using binds⟩
          exact ⟨by simp [Binder.pushValue], own.extend stands⟩
    · next other =>
      obtain ⟨added, same, stands⟩ := ih ran
      obtain ⟨noSkip, noInclude⟩ := not_or.mp other
      have own : StandsFor ctx (binder.inputValues ++ added) {} [directive] := ⟨by simp [noSkip], by simp [noInclude]⟩
      exact ⟨added, same, own.extend stands⟩

/-- The rule of an occurrence with conditions. -/
def RuleOf (ctx : BindContext) (values : List QueryInputValue) (rule : QueryModifierRule) (occurrence : Occurrence) :
    Prop :=
  ∃ bound : ExecutableDirectives, rule = .skipInclude bound.skipInputValueIds bound.includeInputValueIds ∧
    StandsFor ctx values bound occurrence.allDirectives

theorem RuleOf.mono (ruleOf : RuleOf ctx values rule occurrence)
    (grows : values <+: more) : RuleOf ctx more rule occurrence :=
  let ⟨bound, same, stands⟩ := ruleOf
  ⟨bound, same, stands.mono grows⟩

theorem RuleOf.isSkipInclude (ruleOf : RuleOf ctx values rule occurrence) : isSkipInclude rule = true := by
  obtain ⟨bound, rfl, _⟩ := ruleOf
  rfl

theorem StandsFor.rules_eq
    (stands : StandsFor ctx values bound occurrence.allDirectives) : bound.rules = if occurrence.isConditional then
      [.skipInclude bound.skipInputValueIds bound.includeInputValueIds] else [] := by
  have none : (bound.skipInputValueIds.isEmpty && bound.includeInputValueIds.isEmpty) = !occurrence.isConditional := by
    rw [Bool.eq_iff_iff]
    simp only [Bool.and_eq_true, isEmpty_iff_length_eq_zero, stands.skips.length_eq, stands.includes.length_eq,
      length_eq_zero_iff, filter_eq_nil_iff, decide_eq_true_eq, Bool.not_eq_true', Occurrence.isConditional,
      any_eq_false, Directive.isCondition, Bool.or_eq_true, not_or, imp_and, forall_and]
  rw [ExecutableDirectives.rules, none]
  cases occurrence.isConditional <;> rfl

/-- The rules of an entry are those of its occurrences. -/
structure FieldEntry.Faithful (ctx : BindContext) (values : List QueryInputValue) (entry : FieldEntry) : Prop where
  sound : ∀ rule ∈ entry.rules, ∃ occurrence ∈ entry.occurrences,
    occurrence.isConditional = true ∧ RuleOf ctx values rule occurrence
  complete : ∀ occurrence ∈ entry.occurrences, occurrence.isConditional = true →
    ∃ rule ∈ entry.rules, RuleOf ctx values rule occurrence

theorem FieldEntry.Faithful.mono (faithful : entry.Faithful ctx values) (grows : values <+: more) :
    entry.Faithful ctx more where
  sound rule member :=
    let ⟨occurrence, inEntry, conditional, ruleOf⟩ := faithful.sound rule member
    ⟨occurrence, inEntry, conditional, ruleOf.mono grows⟩
  complete occurrence member conditional :=
    let ⟨rule, inRules, ruleOf⟩ := faithful.complete occurrence member conditional
    ⟨rule, inRules, ruleOf.mono grows⟩

theorem FieldEntry.Faithful.add
    (faithful : entry.Faithful ctx values) (stands : StandsFor ctx values bound occurrence.allDirectives) :
    FieldEntry.Faithful ctx values { entry with
      occurrences := entry.occurrences ++ [occurrence]
      rules := entry.rules ++ bound.rules } where
  sound rule member := by
    rcases mem_append.mp member with old | own
    · obtain ⟨other, inEntry, conditional, ruleOf⟩ := faithful.sound rule old
      exact ⟨other, mem_append_left _ inEntry, conditional, ruleOf⟩
    · rw [stands.rules_eq] at own
      split at own
      · next conditional => exact ⟨occurrence, by simp, conditional, bound, mem_singleton.mp own, stands⟩
      · cases own
  complete other member conditional := by
    rcases mem_push.mp member with old | rfl
    · obtain ⟨rule, inRules, ruleOf⟩ := faithful.complete other old conditional
      exact ⟨rule, mem_append_left _ inRules, ruleOf⟩
    · refine ⟨_, mem_append_right _ ?_, bound, rfl, stands⟩
      rw [stands.rules_eq, if_pos conditional]
      exact mem_singleton_self _

variable (binder : Binder)

section Registration

/-- Keys are interned once, and there are ids for them. -/
structure DistinctKeys (keys : List String) : Prop where
  nodup : keys.Nodup
  small : keys.length ≤ 2 ^ 15

/-- Interning adds a key at most. -/
inductive Interns (key : String) : List String → List String → Prop
  | held {keys : List String} (member : key ∈ keys) : Interns key keys keys
  | added {keys : List String} (fresh : key ∉ keys) (small : keys.length < 2 ^ 15) : Interns key keys (keys ++ [key])

theorem Interns.isPrefix {key : String} {keys after : List String} (interns : Interns key keys after) :
    keys <+: after := by
  cases interns with
  | held => exact prefix_rfl
  | added => exact prefix_append _ _

theorem Interns.distinct {key : String} {keys after : List String} (interns : Interns key keys after)
    (distinct : DistinctKeys keys) : DistinctKeys after := by
  cases interns with
  | held => exact distinct
  | added fresh small =>
    refine ⟨?_, by rw [length_append]; exact small⟩
    rw [← concat_eq_append]
    exact distinct.nodup.concat fresh

/-- Registering selections interns keys and values, and keeps entries faithful. -/
structure Registers (ctx : BindContext) (before after : SelectionSetBinder) : Prop where
  grows : before.binder.inputValues <+: after.binder.inputValues
  keys : before.binder.responseKeys <+: after.binder.responseKeys
  distinct : DistinctKeys before.binder.responseKeys → DistinctKeys after.binder.responseKeys
  same : after.binder = { before.binder with
    responseKeys := after.binder.responseKeys, inputValues := after.binder.inputValues }
  faithful : (∀ entry ∈ before.fields, entry.2.Faithful ctx before.binder.inputValues) →
    ∀ entry ∈ after.fields, entry.2.Faithful ctx after.binder.inputValues

theorem Registers.refl (state : SelectionSetBinder) : Registers ctx state state :=
  ⟨prefix_rfl, prefix_rfl, id, rfl, id⟩

theorem Registers.trans {before middle after : SelectionSetBinder} (first : Registers ctx before middle)
    (second : Registers ctx middle after) : Registers ctx before after where
  grows := first.grows.trans second.grows
  keys := first.keys.trans second.keys
  distinct := second.distinct ∘ first.distinct
  same := by rw [second.same, first.same]
  faithful := second.faithful ∘ first.faithful

/-- The key is interned in the tables under the id. -/
def Interned (keys : List String) (key : String) (responseKey : ResponseKey) : Prop :=
  keys[responseKey.bits.toNat]? = some key

theorem getOrIntern_eq_ok {key : String} {output : ResponseKey × Binder} {binder : Binder}
    (ran : binder.getOrIntern key = .ok output) :
    ∃ keys, output.2 = { binder with responseKeys := keys } ∧ Interns key binder.responseKeys keys ∧
      (DistinctKeys binder.responseKeys → Interned keys key output.1) := by
  rw [Binder.getOrIntern] at ran
  split at ran
  · next index found =>
    cases ran
    obtain ⟨atIndex, same, _⟩ := findIdx?_eq_some_iff_getElem.mp found
    have held := (getElem_eq_iff atIndex).mp (of_decide_eq_true same)
    refine ⟨_, rfl, .held (mem_of_getElem? held), fun distinct => ?_⟩
    have := distinct.small
    rwa [Interned, BitVec.toNat_ofNat, Nat.mod_eq_of_lt (by omega)]
  · next absent =>
    obtain ⟨small, rfl⟩ := ite_eq_ok.mp ran
    have fits : binder.responseKeys.length < 2 ^ 15 := Nat.lt_succ_of_le small
    have fresh : key ∉ binder.responseKeys := fun member => by
      simpa using findIdx?_eq_none_iff.mp absent key member
    refine ⟨_, rfl, .added fresh fits, fun _ => ?_⟩
    rw [Interned, BitVec.toNat_ofNat, Nat.mod_eq_of_lt (by omega)]
    exact getElem?_concat_length

variable {state : SelectionSetBinder} {position : Nat}

theorem Registers.of_binder {key : String} {keys : List String}
    {typenameFields : List (ResponseKey × List (SelectionSetType × (Nat × Location)))}
    (interns : Interns key state.binder.responseKeys keys) :
    Registers ctx state { state with
      binder := { state.binder with responseKeys := keys }
      nextQueryPosition := position
      typenameFields } where
  grows := prefix_rfl
  keys := interns.isPrefix
  distinct := interns.distinct
  same := rfl
  faithful := id

theorem Registers.of_values {added : List QueryInputValue} :
    Registers ctx state { state with
      binder := { state.binder with inputValues := state.binder.inputValues ++ added } } where
  grows := prefix_append _ _
  keys := prefix_rfl
  distinct := id
  same := rfl
  faithful entries entry member := (entries entry member).mono (prefix_append _ _)

theorem Registers.of_entry {key : ResponseKey × FieldDefinitionId}
    (stands : StandsFor ctx state.binder.inputValues bound occurrence.allDirectives) :
    Registers ctx state { state with
      fields := upsert key ⟨position, [], []⟩ (fun entry => { entry with
        occurrences := entry.occurrences ++ [occurrence]
        rules := entry.rules ++ bound.rules }) state.fields } where
  grows := prefix_rfl
  keys := prefix_rfl
  distinct := id
  same := rfl
  faithful entries := by
    have empty : FieldEntry.Faithful ctx state.binder.inputValues ⟨position, [], []⟩ := ⟨by simp, by simp⟩
    exact forall_mem_upsert entries (empty.add stands) fun old inFields => (entries _ inFields).add stands

theorem registerField_registers {parent : SelectionSetType} {enclosing : Enclosing} {location : Location}
    {responseName : Option String} {name : String} {arguments : List (String × Value)}
    {selectionSet : List Selection} {next : SelectionSetBinder}
    (stands : StandsFor ctx state.binder.inputValues enclosing.bound enclosing.directives)
    (ran : registerField ctx parent enclosing location responseName name arguments directives selectionSet state =
      .ok next) : Registers ctx state next := by
  obtain ⟨⟨responseKey, interned⟩, internRan, ran⟩ := bind_eq_ok.mp ran
  obtain ⟨keys, rfl, interns, _⟩ := getOrIntern_eq_ok internRan
  dsimp only at ran
  split at ran
  · obtain rfl := (Except.ok.injEq _ _).mp ran
    exact .of_binder interns
  · simp only [bind_eq_ok] at ran
    obtain ⟨definitionId, _, ⟨bound, binder⟩, boundRan, last⟩ := ran
    obtain ⟨added, rfl, own⟩ := bindExecutableDirectives_spec boundRan
    obtain rfl := (Except.ok.injEq _ _).mp last
    exact (Registers.of_binder interns).trans
      (Registers.of_values.trans (.of_entry (own.extend (stands.mono (prefix_append _ _)))))

section Selections
variable
  {register : SelectionSetType → List Selection → Enclosing → SelectionSetBinder → Except BindError SelectionSetBinder}
  (registers : ∀ type selectionSet enclosing state next, StandsFor ctx state.binder.inputValues enclosing.bound
    enclosing.directives → register type selectionSet enclosing state = .ok next → Registers ctx state next)
  {enclosing : Enclosing} {next : SelectionSetBinder}

include registers in
theorem registerFragment_registers {type : SelectionSetType}
    {selectionSet : List Selection}
    (stands : StandsFor ctx state.binder.inputValues enclosing.bound enclosing.directives)
    (ran : registerFragment ctx register type enclosing directives selectionSet state = .ok next) :
    Registers ctx state next := by
  obtain ⟨⟨bound, binder⟩, boundRan, ran⟩ := bind_eq_ok.mp ran
  obtain ⟨added, rfl, own⟩ := bindExecutableDirectives_spec boundRan
  exact Registers.of_values.trans
    (registers _ _ _ _ _ (own.extend (stands.mono (prefix_append _ _))) ran)

include registers in
theorem registerSelection_registers {parent : SelectionSetType} {selection : Selection}
    (stands : StandsFor ctx state.binder.inputValues enclosing.bound enclosing.directives)
    (ran : registerSelection ctx register parent enclosing state selection = .ok next) : Registers ctx state next := by
  cases selection with
  | field => exact registerField_registers stands ran
  | fragmentSpread location name directives =>
    rw [registerSelection] at ran
    split at ran
    · cases ran
    · obtain ⟨type, _, ran⟩ := bind_eq_ok.mp ran
      exact registerFragment_registers registers stands ran
  | inlineFragment location typeCondition directives selectionSet =>
    cases typeCondition with
    | none => exact registerFragment_registers registers stands ran
    | some condition =>
      obtain ⟨type, _, ran⟩ := bind_eq_ok.mp (show _ >>= _ = _ from ran)
      exact registerFragment_registers registers stands ran

end Selections

theorem registerSelectionSetFields_registers (depth : Nat) (type : SelectionSetType) (selectionSet : List Selection)
    (enclosing : Enclosing) (state next : SelectionSetBinder)
    (stands : StandsFor ctx state.binder.inputValues enclosing.bound enclosing.directives)
    (ran : registerSelectionSetFields ctx depth type selectionSet enclosing state = .ok next) :
    Registers ctx state next := by
  induction depth generalizing type selectionSet enclosing state next with
  | zero => cases ran
  | succ depth ih =>
    refine foldlM_invariant ran (Registers ctx state) (.refl state) fun selection _ middle after so_far stepped => ?_
    exact so_far.trans (registerSelection_registers ih (stands.mono so_far.grows) stepped)

end Registration

/-- The conditional modifiers are those of the recorded occurrences. -/
structure Binder.Tracked (ctx : BindContext) (binder : Binder) : Prop where
  sound : ∀ rule fieldId, isSkipInclude rule = true → Lists binder.queryModifiers rule fieldId →
    ∃ occurrences, (fieldId, occurrences) ∈ binder.occurrences ∧ ∃ occurrence ∈ occurrences,
      occurrence.isConditional = true ∧ RuleOf ctx binder.inputValues rule occurrence
  complete : ∀ recorded ∈ binder.occurrences, ∀ occurrence ∈ recorded.2, occurrence.isConditional = true →
    ∃ rule, RuleOf ctx binder.inputValues rule occurrence ∧ Lists binder.queryModifiers rule recorded.1
  impacting : ∀ modifier ∈ binder.queryModifiers, isSkipInclude modifier.1 = true → modifier.2 ≠ []
  distinct : (binder.occurrences.map Prod.fst).Nodup
  bounded : ∀ recorded ∈ binder.occurrences, recorded.1 < binder.fields.length
  occurs : ∀ recorded ∈ binder.occurrences, recorded.2 ≠ []

section Additional
variable {fieldId : FieldId}

theorem generateAdditionalModifiers_eq (rules : List QueryModifierRule) :
    binder.generateAdditionalModifiers fieldId rules = { binder with
      queryModifiers := (binder.generateAdditionalModifiers fieldId rules).queryModifiers } := by
  induction rules generalizing binder with
  | nil => rfl
  | cons rule rest ih => exact ih (binder.registerFieldImpactedByQueryModifier rule fieldId)

theorem lists_generateAdditionalModifiers (rules : List QueryModifierRule)
    {impacted : FieldId} : Lists (binder.generateAdditionalModifiers fieldId rules).queryModifiers rule impacted ↔
    Lists binder.queryModifiers rule impacted ∨ rule ∈ rules ∧ impacted = fieldId := by
  induction rules generalizing binder with
  | nil => simp [Binder.generateAdditionalModifiers]
  | cons first rest ih =>
    have step := ih (binder.registerFieldImpactedByQueryModifier first fieldId)
    rw [Binder.registerFieldImpactedByQueryModifier, lists_upsert] at step
    refine step.trans ?_
    rw [mem_cons, or_assoc]
    tauto

theorem generateAdditionalModifiers_impacting (rules : List QueryModifierRule)
    (impacting : ∀ modifier ∈ binder.queryModifiers, isSkipInclude modifier.1 = true → modifier.2 ≠ []) :
    ∀ modifier ∈ (binder.generateAdditionalModifiers fieldId rules).queryModifiers,
      isSkipInclude modifier.1 = true → modifier.2 ≠ [] := by
  induction rules generalizing binder with
  | nil => exact impacting
  | cons rule rest ih =>
    refine ih (binder.registerFieldImpactedByQueryModifier rule fieldId) ?_
    exact forall_mem_upsert impacting (by simp) (by simp)

end Additional

theorem Binder.Tracked.record {binder : Binder} {fieldId : FieldId}
    (tracked : binder.Tracked ctx) (faithful : entry.Faithful ctx binder.inputValues)
    (occurs : entry.occurrences ≠ []) (pushed : fieldId < binder.fields.length)
    (fresh : fieldId ∉ binder.occurrences.map Prod.fst) :
    Binder.Tracked ctx { binder.generateAdditionalModifiers fieldId entry.rules with
      occurrences := binder.occurrences ++ [(fieldId, entry.occurrences)] } := by
  rw [generateAdditionalModifiers_eq]
  refine ⟨?_, ?_, generateAdditionalModifiers_impacting binder entry.rules tracked.impacting, ?_, ?_, ?_⟩
  · intro rule impacted conditional listed
    rcases (lists_generateAdditionalModifiers binder entry.rules).mp listed with before | ⟨own, rfl⟩
    · obtain ⟨occurrences, recorded, found⟩ := tracked.sound rule impacted conditional before
      exact ⟨occurrences, mem_append_left _ recorded, found⟩
    · exact ⟨entry.occurrences, by simp, faithful.sound rule own⟩
  · intro recorded member occurrence inRecorded conditional
    rcases mem_push.mp member with before | rfl
    · obtain ⟨rule, ruleOf, listed⟩ := tracked.complete recorded before occurrence inRecorded conditional
      exact ⟨rule, ruleOf, (lists_generateAdditionalModifiers binder entry.rules).mpr (.inl listed)⟩
    · obtain ⟨rule, own, ruleOf⟩ := faithful.complete occurrence inRecorded conditional
      exact ⟨rule, ruleOf, (lists_generateAdditionalModifiers binder entry.rules).mpr (.inr ⟨own, rfl⟩)⟩
  · rw [map_append]
    refine nodup_append.mpr ⟨tracked.distinct, nodup_singleton _, fun other before last own same => fresh ?_⟩
    obtain rfl := mem_singleton.mp own
    exact same ▸ before
  · exact forall_mem_append.mpr ⟨tracked.bounded, by simpa using pushed⟩
  · exact forall_mem_append.mpr ⟨tracked.occurs, by simpa using occurs⟩

theorem firstOccurrence_some {occurrences : List Occurrence}
    (first : firstOccurrence occurrences = some occurrence) : occurrences ≠ [] := by
  rintro rfl
  cases first

end Grafbase.Operation
