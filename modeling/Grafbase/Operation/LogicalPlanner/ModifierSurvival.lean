import Grafbase.Operation.LogicalPlanner.Planner
import Grafbase.Operation.WellFormed

/-! Query modifiers after replanning.

Modifiers are attached to the fields that were bound. Replanning copies a field
and everything below it under new ids, which no modifier impacts.
-/

set_option autoImplicit false

namespace Grafbase.Operation
open Foundation Response List

/-- The second field is the first one or nested below it. -/
inductive Below (operation : BoundOperation) : FieldId → FieldId → Prop where
  | self (fieldId : FieldId) : Below operation fieldId fieldId
  | nested {fieldId child below : FieldId} {field : Field} {id : SelectionSetId} {fieldIds : List FieldId} :
      operation.fields[fieldId]? = some field → field.selectionSetId = some id →
      operation.selectionSets[id]? = some fieldIds → child ∈ fieldIds → Below operation child below →
      Below operation fieldId below

def BelowSet (operation : BoundOperation) (id : SelectionSetId) (below : FieldId) : Prop :=
  ∃ fieldIds, operation.selectionSets[id]? = some fieldIds ∧ ∃ fieldId ∈ fieldIds, Below operation fieldId below

theorem below_iff {operation : BoundOperation} {fieldId below : FieldId} {field : Field}
    (found : operation.fields[fieldId]? = some field) : Below operation fieldId below ↔
      (∃ id, field.selectionSetId = some id ∧ BelowSet operation id below) ∨ below = fieldId := by
  constructor
  · rintro (_ | ⟨other, nested, held, member, under⟩)
    · exact .inr rfl
    · obtain rfl := Option.mem_unique found other
      exact .inl ⟨_, nested, _, held, _, member, under⟩
  · rintro (⟨id, nested, fieldIds, held, child, member, under⟩ | rfl)
    · exact .nested found nested held member under
    · exact .self below

/-- The operation differs from the base by what was added and by one selection set. -/
structure BoundOperation.Agrees (base : BoundOperation) (selectionSetId : SelectionSetId)
    (operation : BoundOperation) : Prop where
  fields : base.fields <+: operation.fields
  count : base.selectionSets.length ≤ operation.selectionSets.length
  selectionSets : ∀ id < base.selectionSets.length, id ≠ selectionSetId →
    operation.selectionSets[id]? = base.selectionSets[id]?
  modifiers : operation.queryModifiers = base.queryModifiers

namespace LogicalPlanner

/-- Exactly the originals are copied, under new ids. -/
structure Copies (base : BoundOperation) (selectionSetId : SelectionSetId) (originals : FieldId → Prop)
    (before after : LogicalPlanner) : Prop where
  agrees : base.Agrees selectionSetId after.operation
  added : ∃ added, after.copies = before.copies ++ added ∧ (∀ copy ∈ added, base.fields.length ≤ copy.1) ∧
    ∀ original, (∃ id, (id, original) ∈ added) ↔ originals original

section Copies
variable {base : BoundOperation} {selectionSetId : SelectionSetId} {originals others : FieldId → Prop}
  {before middle after : LogicalPlanner}

theorem Copies.none (agrees : base.Agrees selectionSetId after.operation) (same : after.copies = before.copies) :
    Copies base selectionSetId (fun _ => False) before after :=
  ⟨agrees, [], by simp [same], by simp, by simp⟩

theorem Copies.trans (first : Copies base selectionSetId originals before middle)
    (second : Copies base selectionSetId others middle after) :
    Copies base selectionSetId (fun original => originals original ∨ others original) before after := by
  obtain ⟨_, firstAdded, firstCopies, firstFresh, firstOriginals⟩ := first
  obtain ⟨agrees, secondAdded, secondCopies, secondFresh, secondOriginals⟩ := second
  refine ⟨agrees, firstAdded ++ secondAdded, by rw [secondCopies, firstCopies, append_assoc], ?_, ?_⟩
  · intro copy member
    exact (mem_append.mp member).elim (firstFresh copy) (secondFresh copy)
  · intro original
    rw [← firstOriginals, ← secondOriginals, ← exists_or]
    exact exists_congr fun id => mem_append

theorem Copies.congr (copies : Copies base selectionSetId originals before after)
    (same : ∀ original, originals original ↔ others original) : Copies base selectionSetId others before after := by
  obtain ⟨agrees, added, appended, fresh, exactly_⟩ := copies
  exact ⟨agrees, added, appended, fresh, fun original => (exactly_ original).trans (same original)⟩

theorem Copies.foldlM {σ α : Type} {step : σ → α → Checked σ} (read : σ → LogicalPlanner)
    {originals : α → FieldId → Prop} {items : List α} {first last : σ}
    (agrees : base.Agrees selectionSetId (read first).operation)
    (each : ∀ item ∈ items, ∀ state next, base.Agrees selectionSetId (read state).operation →
      step state item = .ok next → Copies base selectionSetId (originals item) (read state) (read next))
    (ran : items.foldlM step first = .ok last) :
    Copies base selectionSetId (fun original => ∃ item ∈ items, originals item original) (read first) (read last) := by
  induction items generalizing first with
  | nil =>
    obtain rfl : first = last := by simpa [pure, Except.pure] using ran
    exact (Copies.none agrees rfl).congr (by simp)
  | cons item rest ih =>
    obtain ⟨middle, stepped, ran⟩ := bind_eq_ok.mp (foldlM_cons.symm.trans ran)
    have head := each item (by simp) first middle agrees stepped
    have tail := ih head.agrees (fun other member => each other (mem_cons_of_mem _ member)) ran
    exact (head.trans tail).congr (by simp)

variable {planner : LogicalPlanner}

theorem copies_pushField (field : Field) (original : FieldId) (agrees : base.Agrees selectionSetId planner.operation) :
    Copies base selectionSetId (fun other => other = original) planner (planner.pushField field original).2 where
  agrees := ⟨agrees.fields.trans (prefix_append _ _), agrees.count, agrees.selectionSets, agrees.modifiers⟩
  added := ⟨[(planner.operation.fields.length, original)], rfl,
    by simpa using agrees.fields.length_le, by simp⟩

theorem agrees_set {id : SelectionSetId} (fieldIds : List FieldId)
    (agrees : base.Agrees selectionSetId planner.operation)
    (free : id = selectionSetId ∨ base.selectionSets.length ≤ id) :
    base.Agrees selectionSetId (planner.mapSelectionSets (·.set id fieldIds)).operation where
  fields := agrees.fields
  count := by simpa [mapSelectionSets] using agrees.count
  selectionSets other bound apart := by
    have different : id ≠ other := by
      rintro rfl
      exact free.elim apart fun beyond => absurd bound (by omega)
    simpa [mapSelectionSets, getElem?_set_ne different] using agrees.selectionSets other bound apart
  modifiers := agrees.modifiers

theorem agrees_reserve (agrees : base.Agrees selectionSetId planner.operation) :
    base.Agrees selectionSetId (planner.mapSelectionSets (· ++ [[]])).operation where
  fields := agrees.fields
  count := by
    have := agrees.count
    simp only [mapSelectionSets, length_append, length_singleton]
    omega
  selectionSets other bound apart := by
    have inside := bound.trans_le agrees.count
    simpa [mapSelectionSets, getElem?_append_left inside] using agrees.selectionSets other bound apart
  modifiers := agrees.modifiers

end Copies

section Clone
variable {base : BoundOperation} {selectionSetId : SelectionSetId}
  (wellNested : WellNested base.fields base.selectionSets)

/-- A function that copies all selection sets below the one that may change. -/
def Clones (base : BoundOperation) (selectionSetId : SelectionSetId)
    (clone : SelectionSetId → LogicalPlanner → Checked (SelectionSetId × LogicalPlanner)) : Prop :=
  ∀ id, selectionSetId < id → id < base.selectionSets.length → ∀ planner output,
    base.Agrees selectionSetId planner.operation → clone id planner = .ok output →
    Copies base selectionSetId (BelowSet base id) planner output.2

variable {clone : SelectionSetId → LogicalPlanner → Checked (SelectionSetId × LogicalPlanner)} {fieldId : FieldId}

theorem cloneOptional_copies
    (clones : Clones base selectionSetId clone) {planner : LogicalPlanner} {nested : Option SelectionSetId}
    {output : Option SelectionSetId × LogicalPlanner}
    (within : ∀ id, nested = some id → selectionSetId < id ∧ id < base.selectionSets.length)
    (agrees : base.Agrees selectionSetId planner.operation) (ran : cloneOptional clone planner nested = .ok output) :
    Copies base selectionSetId (fun original => ∃ id, nested = some id ∧ BelowSet base id original) planner
      output.2 := by
  cases nested with
  | none =>
    cases ran
    exact (Copies.none agrees rfl).congr (by simp)
  | some id =>
    obtain ⟨inner, cloned, last⟩ := bind_eq_ok.mp ran
    cases last
    obtain ⟨above, bound⟩ := within id rfl
    exact (clones id above bound planner inner agrees cloned).congr (by simp)

theorem indexed_of_agrees {operation : BoundOperation} {field read : Field}
    (agrees : base.Agrees selectionSetId operation) (found : base.fields[fieldId]? = some field)
    (ran : indexed operation.fields fieldId = .ok read) : read = field := by
  exact Option.mem_unique (indexed_eq_ok.mp ran) (getElem?_of_front agrees.fields found)

theorem cloneField_copies (clones : Clones base selectionSetId clone) {previous newId : SelectionSetId}
    {state next : List FieldId × LogicalPlanner} (after : selectionSetId < previous)
    (sits : Sits base.fields base.selectionSets.length previous fieldId)
    (agrees : base.Agrees selectionSetId state.2.operation) (ran : cloneField clone newId state fieldId = .ok next) :
    Copies base selectionSetId (Below base fieldId) state.2 next.2 := by
  obtain ⟨field, found, _, nested⟩ := sits
  obtain ⟨read, readRan, ran⟩ := bind_eq_ok.mp ran
  obtain rfl := indexed_of_agrees agrees found readRan
  cases read with
  | typeName => cases ran
  | extra => cases ran
  | query field =>
    obtain ⟨inner, innerRan, last⟩ := bind_eq_ok.mp ran
    cases last
    have cloned := cloneOptional_copies clones
      (fun id same => ⟨after.trans (nested id same).1, (nested id same).2⟩) agrees innerRan
    refine (cloned.trans (copies_pushField _ _ cloned.agrees)).congr fun original => ?_
    exact (below_iff found).symm

include wellNested in
/-- Cloning a selection set copies everything below it, by induction on the depth. -/
theorem cloneSelectionSet_copies (depth : Nat) : Clones base selectionSetId (cloneSelectionSet depth) := by
  induction depth with
  | zero => exact fun id after bound planner output agrees ran => by cases ran
  | succ depth ih =>
    intro previous after bound planner output agrees ran
    simp only [cloneSelectionSet, bind_eq_ok] at ran
    obtain ⟨fieldIds, readRan, ⟨next, cloned⟩, fieldsRan, selectionSets, assignedRan, last⟩ := ran
    cases last
    have reserved := agrees_reserve agrees
    have found : base.selectionSets[previous]? = some fieldIds := by
      rw [← reserved.selectionSets previous bound after.ne']
      exact indexed_eq_ok.mp readRan
    have copied := Copies.foldlM Prod.snd reserved (fun fieldId member state next agrees stepped =>
      cloneField_copies ih after (wellNested previous fieldIds found fieldId member) agrees stepped) fieldsRan
    obtain ⟨_, rfl⟩ := assigned_eq_ok.mp assignedRan
    have placed := agrees_set next copied.agrees (.inr agrees.count)
    obtain ⟨_, added, appended, fresh, originals⟩ := copied
    refine ⟨placed, added, appended, fresh, fun original => (originals original).trans ?_⟩
    simp [BelowSet, found]

end Clone

section Replan
variable {base : BoundOperation} {selectionSetId : SelectionSetId} {schema : Schema} {depth : Nat}

theorem markFieldAsNeverPlanned_same (depth : Nat) (fieldId : FieldId) (planner after : LogicalPlanner)
    (ran : planner.markFieldAsNeverPlanned depth fieldId = .ok after) :
    after.operation = planner.operation ∧ after.copies = planner.copies := by
  induction depth generalizing fieldId planner after with
  | zero => cases ran
  | succ depth ih =>
    simp only [markFieldAsNeverPlanned, bind_eq_ok] at ran
    obtain ⟨planIds, _, requirements, _, field, _, ran⟩ := ran
    split at ran
    · cases ran
      exact ⟨rfl, rfl⟩
    · obtain ⟨fieldIds, _, ran⟩ := bind_eq_ok.mp ran
      exact foldlM_invariant ran
        (fun state => state.operation = planner.operation ∧ state.copies = planner.copies) ⟨rfl, rfl⟩
        fun child _ state next so_far stepped =>
          have step := ih child state next stepped
          ⟨step.1.trans so_far.1, step.2.trans so_far.2⟩

variable {planner after : LogicalPlanner} {fieldId : FieldId} {definitionId : FieldDefinitionId}
  {state next : UnplannedFields × LogicalPlanner}

theorem removeField_agrees (agrees : base.Agrees selectionSetId planner.operation)
    (ran : planner.removeField selectionSetId fieldId = .ok after) :
    base.Agrees selectionSetId after.operation ∧ after.copies = planner.copies := by
  obtain ⟨fieldIds, _, ran⟩ := bind_eq_ok.mp ran
  split at ran
  · cases ran
  · cases ran
    exact ⟨agrees_set _ agrees (.inl rfl), rfl⟩

theorem insertFieldInParentSelectionSet_agrees (agrees : base.Agrees selectionSetId planner.operation)
    (ran : planner.insertFieldInParentSelectionSet schema selectionSetId definitionId fieldId = .ok after) :
    base.Agrees selectionSetId after.operation ∧ after.copies = planner.copies := by
  simp only [insertFieldInParentSelectionSet, bind_eq_ok] at ran
  obtain ⟨fieldIds, _, field, _, ran⟩ := ran
  split at ran
  · cases ran
  · cases ran
    exact ⟨agrees_set _ agrees (.inl rfl), rfl⟩

variable (wellNested : WellNested base.fields base.selectionSets)
include wellNested in
theorem addReplacement_copies {interfaceFieldId : FieldId}
    (sits : Sits base.fields base.selectionSets.length selectionSetId interfaceFieldId)
    (agrees : base.Agrees selectionSetId state.2.operation)
    (ran : addReplacement schema depth interfaceFieldId state definitionId = .ok next) :
    Copies base selectionSetId (Below base interfaceFieldId) state.2 next.2 := by
  obtain ⟨field, found, rfl, nested⟩ := sits
  simp only [addReplacement, bind_eq_ok] at ran
  obtain ⟨read, readRan, inner, innerRan, inserted, insertedRan, last⟩ := ran
  cases last
  obtain rfl := indexed_of_agrees agrees found readRan
  have cloned := cloneOptional_copies (cloneSelectionSet_copies wellNested depth) nested agrees innerRan
  have pushed (field : Field) := cloned.trans (copies_pushField field interfaceFieldId cloned.agrees)
  obtain ⟨insertedAgrees, insertedSame⟩ := insertFieldInParentSelectionSet_agrees (pushed _).agrees insertedRan
  refine ((pushed _).trans (.none insertedAgrees insertedSame)).congr fun original => ?_
  rw [or_false]
  exact (below_iff found).symm

include wellNested in
theorem replanInterfaceField_copies {replaced : FieldId × List FieldDefinitionId}
    (sits : Sits base.fields base.selectionSets.length selectionSetId replaced.1)
    (agrees : base.Agrees selectionSetId state.2.operation)
    (ran : replanInterfaceField schema depth selectionSetId state replaced = .ok next) :
    Copies base selectionSetId (fun original => replaced.2 ≠ [] ∧ Below base replaced.1 original) state.2 next.2 := by
  simp only [replanInterfaceField, bind_eq_ok] at ran
  obtain ⟨marked, markedRan, removed, removedRan, ran⟩ := ran
  obtain ⟨markedOperation, markedCopies⟩ := markFieldAsNeverPlanned_same _ _ _ _ markedRan
  obtain ⟨removedAgrees, removedCopies⟩ := removeField_agrees (markedOperation ▸ agrees) removedRan
  have before : Copies base selectionSetId (fun _ => False) state.2 removed :=
    .none removedAgrees (removedCopies.trans markedCopies)
  have replacements := Copies.foldlM Prod.snd removedAgrees (fun definitionId _ state next agrees stepped =>
    addReplacement_copies wellNested sits agrees stepped) ran
  refine (before.trans replacements).congr fun original => ?_
  rw [false_or]
  constructor
  · rintro ⟨definitionId, member, below⟩
    exact ⟨ne_nil_of_mem member, below⟩
  · rintro ⟨some, below⟩
    obtain ⟨definitionId, member⟩ := exists_mem_of_ne_nil _ some
    exact ⟨definitionId, member, below⟩

end Replan

/-! ## Nesting -/

def Nested (planner : LogicalPlanner) : Prop := WellNested planner.operation.fields planner.operation.selectionSets

/-- The planner stays well nested and only grows. -/
structure Nests (before after : LogicalPlanner) : Prop where
  nested : before.Nested → after.Nested
  fields : before.operation.fields <+: after.operation.fields
  count : before.operation.selectionSets.length ≤ after.operation.selectionSets.length

section Nests
variable {before middle after planner : LogicalPlanner}

theorem Nests.refl (planner : LogicalPlanner) : Nests planner planner := ⟨id, prefix_rfl, le_rfl⟩

theorem Nests.trans (first : Nests before middle) (second : Nests middle after) : Nests before after :=
  ⟨second.nested ∘ first.nested, first.fields.trans second.fields, first.count.trans second.count⟩

theorem nests_pushField (planner : LogicalPlanner) (field : Field) (original : FieldId) :
    Nests planner (planner.pushField field original).2 :=
  ⟨fun nested => nested.grow (prefix_append _ _), prefix_append _ _, le_rfl⟩

theorem nests_reserve (planner : LogicalPlanner) : Nests planner (planner.mapSelectionSets (· ++ [[]])) :=
  ⟨WellNested.reserve, prefix_rfl, by simp [mapSelectionSets]⟩

theorem nests_set {id : SelectionSetId} {fieldIds : List FieldId}
    (sit : planner.Nested → ∀ fieldId ∈ fieldIds,
      Sits planner.operation.fields planner.operation.selectionSets.length id fieldId) :
    Nests planner (planner.mapSelectionSets (·.set id fieldIds)) :=
  ⟨fun nested => nested.set (sit nested), prefix_rfl, by simp [mapSelectionSets]⟩

/-- Cloning allocates the selection set it returns. -/
def CloneNests (clone : SelectionSetId → LogicalPlanner → Checked (SelectionSetId × LogicalPlanner)) : Prop :=
  ∀ id planner output, clone id planner = .ok output → Nests planner output.2 ∧
    planner.operation.selectionSets.length ≤ output.1 ∧ output.1 < output.2.operation.selectionSets.length

variable {clone : SelectionSetId → LogicalPlanner → Checked (SelectionSetId × LogicalPlanner)}
  (nests : CloneNests clone)
include nests

theorem cloneOptional_nests {nested : Option SelectionSetId} {output : Option SelectionSetId × LogicalPlanner}
    (ran : cloneOptional clone planner nested = .ok output) : Nests planner output.2 ∧ ∀ id, output.1 = some id →
      planner.operation.selectionSets.length ≤ id ∧ id < output.2.operation.selectionSets.length := by
  cases nested with
  | none =>
    cases ran
    exact ⟨.refl planner, by simp⟩
  | some id =>
    obtain ⟨inner, cloned, last⟩ := bind_eq_ok.mp ran
    cases last
    obtain ⟨grows, range⟩ := nests id planner inner cloned
    exact ⟨grows, fun other same => by cases same; exact range⟩

theorem cloneField_nests {id : SelectionSetId} {fieldId : FieldId} {state next : List FieldId × LogicalPlanner}
    (allocated : id < state.2.operation.selectionSets.length) (ran : cloneField clone id state fieldId = .ok next) :
    Nests state.2 next.2 ∧ ∃ pushed, next.1 = state.1 ++ [pushed] ∧
      Sits next.2.operation.fields next.2.operation.selectionSets.length id pushed := by
  obtain ⟨field, _, ran⟩ := bind_eq_ok.mp ran
  cases field with
  | typeName => cases ran
  | extra => cases ran
  | query field =>
    obtain ⟨inner, innerRan, last⟩ := bind_eq_ok.mp ran
    cases last
    obtain ⟨grows, range⟩ := cloneOptional_nests nests innerRan
    refine ⟨grows.trans (nests_pushField ..), _, rfl, _, getElem?_concat_length, rfl, fun nested same => ?_⟩
    exact ⟨allocated.trans_le (range nested same).1, (range nested same).2⟩

omit nests in
theorem cloneSelectionSet_nests (depth : Nat) : CloneNests (cloneSelectionSet depth) := by
  induction depth with
  | zero => exact fun id planner output ran => by cases ran
  | succ depth ih =>
    intro previous planner output ran
    simp only [cloneSelectionSet, bind_eq_ok] at ran
    obtain ⟨fieldIds, _, ⟨next, cloned⟩, fieldsRan, selectionSets, assignedRan, last⟩ := ran
    cases last
    obtain ⟨_, rfl⟩ := assigned_eq_ok.mp assignedRan
    let id := planner.operation.selectionSets.length
    have reserved := nests_reserve planner
    have run := foldlM_invariant fieldsRan (fun state => Nests (planner.mapSelectionSets (· ++ [[]])) state.2 ∧
        ∀ fieldId ∈ state.1, Sits state.2.operation.fields state.2.operation.selectionSets.length id fieldId)
      ⟨.refl _, by simp⟩ fun fieldId _ state after so_far stepped => by
        have allocated : id < state.2.operation.selectionSets.length :=
          Nat.lt_of_lt_of_le (by simp [mapSelectionSets, id]) so_far.1.count
        obtain ⟨grows, pushed, appended, sits⟩ := cloneField_nests ih allocated stepped
        refine ⟨so_far.1.trans grows, fun other member => ?_⟩
        rw [appended] at member
        rcases mem_push.mp member with old | rfl
        · exact (so_far.2 other old).mono grows.fields grows.count
        · exact sits
    obtain ⟨grows, sit⟩ := run
    have filled := (reserved.trans grows).trans (nests_set fun _ => sit)
    refine ⟨⟨filled.nested, filled.fields, filled.count⟩, le_rfl, Nat.lt_of_succ_le ?_⟩
    simpa [mapSelectionSets] using grows.count

end Nests

section Replanned
variable {schema : Schema} {depth : Nat} {selectionSetId : SelectionSetId} {planner after : LogicalPlanner}
  {fieldId : FieldId}

theorem insertFieldInParentSelectionSet_nests {definitionId : FieldDefinitionId}
    (sits : ∃ field, planner.operation.fields[fieldId]? = some field ∧ field.parentSelectionSetId = selectionSetId ∧
      ∀ nested, field.selectionSetId = some nested →
        selectionSetId < nested ∧ nested < planner.operation.selectionSets.length)
    (ran : planner.insertFieldInParentSelectionSet schema selectionSetId definitionId fieldId = .ok after) :
    Nests planner after := by
  simp only [insertFieldInParentSelectionSet, bind_eq_ok] at ran
  obtain ⟨fieldIds, read, field, _, ran⟩ := ran
  split at ran
  · cases ran
  · cases ran
    refine nests_set fun nested other member => ?_
    rcases mem_insertAt.mp member with rfl | old
    · exact sits
    · exact nested selectionSetId fieldIds (indexed_eq_ok.mp read) other old

theorem removeField_nests (ran : planner.removeField selectionSetId fieldId = .ok after) : Nests planner after := by
  obtain ⟨fieldIds, read, ran⟩ := bind_eq_ok.mp ran
  split at ran
  · cases ran
  · cases ran
    exact nests_set fun nested other member =>
      nested selectionSetId fieldIds (indexed_eq_ok.mp read) other (mem_of_mem_eraseIdx member)

variable {base : BoundOperation} {state next : UnplannedFields × LogicalPlanner}

theorem addReplacement_nests {interfaceFieldId : FieldId} {definitionId : FieldDefinitionId}
    (sits : Sits base.fields base.selectionSets.length selectionSetId interfaceFieldId)
    (allocated : selectionSetId < base.selectionSets.length) (agrees : base.Agrees selectionSetId state.2.operation)
    (ran : addReplacement schema depth interfaceFieldId state definitionId = .ok next) : Nests state.2 next.2 := by
  obtain ⟨field, found, rfl, _⟩ := sits
  simp only [addReplacement, bind_eq_ok] at ran
  obtain ⟨read, readRan, inner, innerRan, inserted, insertedRan, last⟩ := ran
  cases last
  obtain rfl := indexed_of_agrees agrees found readRan
  obtain ⟨cloned, range⟩ := cloneOptional_nests (cloneSelectionSet_nests depth) innerRan
  refine (cloned.trans (nests_pushField ..)).trans
    (insertFieldInParentSelectionSet_nests ⟨_, getElem?_concat_length, rfl, fun nested same => ?_⟩ insertedRan)
  exact ⟨(allocated.trans_le agrees.count).trans_le (range nested same).1, (range nested same).2⟩

theorem replanInterfaceField_nests {replaced : FieldId × List FieldDefinitionId}
    (wellNested : WellNested base.fields base.selectionSets)
    (sits : Sits base.fields base.selectionSets.length selectionSetId replaced.1)
    (allocated : selectionSetId < base.selectionSets.length) (agrees : base.Agrees selectionSetId state.2.operation)
    (ran : replanInterfaceField schema depth selectionSetId state replaced = .ok next) : Nests state.2 next.2 := by
  simp only [replanInterfaceField, bind_eq_ok] at ran
  obtain ⟨marked, markedRan, removed, removedRan, ran⟩ := ran
  obtain ⟨markedOperation, _⟩ := markFieldAsNeverPlanned_same _ _ _ _ markedRan
  have removedNests := removeField_nests removedRan
  have removedAgrees := (removeField_agrees (markedOperation ▸ agrees) removedRan).1
  have before : Nests state.2 removed := by
    obtain ⟨nested, fields, count⟩ := removedNests
    rw [Nested, markedOperation] at nested
    rw [markedOperation] at fields count
    exact ⟨nested, fields, count⟩
  exact (foldlM_invariant ran
    (fun output => Nests state.2 output.2 ∧ base.Agrees selectionSetId output.2.operation) ⟨before, removedAgrees⟩
    fun definitionId _ middle after so_far stepped =>
      ⟨so_far.1.trans (addReplacement_nests sits allocated so_far.2 stepped),
        (addReplacement_copies wellNested sits so_far.2 stepped).agrees⟩).1

end Replanned

/-! ## Replanning in a run -/

section Call
variable {schema : Schema} {depth : Nat} {selectionSetId : SelectionSetId} {planner : LogicalPlanner}
  {replaced : List (FieldId × List FieldDefinitionId)} {unplannedFields : UnplannedFields}
  {output : UnplannedFields × LogicalPlanner} {fieldIds : List FieldId}
  (wellFormed : planner.operation.WellFormed)
  (found : planner.operation.selectionSets[selectionSetId]? = some fieldIds)
  (members : ∀ field ∈ replaced, field.1 ∈ fieldIds)
  (ran : replanInterfaceFields schema depth selectionSetId replaced unplannedFields planner = .ok output)
include wellFormed found members ran

theorem replanInterfaceFields_copies : Copies planner.operation selectionSetId
    (fun original => ∃ field ∈ replaced, field.2 ≠ [] ∧ Below planner.operation field.1 original) planner output.2 :=
  Copies.foldlM Prod.snd ⟨prefix_rfl, le_rfl, fun _ _ _ => rfl, rfl⟩ (fun field member _ _ agrees stepped =>
    replanInterfaceField_copies wellFormed.wellNested
      (wellFormed.wellNested _ fieldIds found field.1 (members field member)) agrees stepped) ran

theorem replanInterfaceFields_wellFormed : output.2.operation.WellFormed := by
  have sits (field) (member : field ∈ replaced) :=
    wellFormed.wellNested _ fieldIds found field.1 (members field member)
  have run := foldlM_invariant ran
    (fun state => Nests planner state.2 ∧ planner.operation.Agrees selectionSetId state.2.operation)
    ⟨.refl planner, prefix_rfl, le_rfl, fun _ _ _ => rfl, rfl⟩ fun field member middle after so_far stepped =>
      ⟨so_far.1.trans (replanInterfaceField_nests wellFormed.wellNested (sits field member) (index_lt found)
          so_far.2 stepped),
        (replanInterfaceField_copies wellFormed.wellNested (sits field member) so_far.2 stepped).agrees⟩
  refine ⟨run.1.nested wellFormed.wellNested, fun modifier inModifiers fieldId impacted => ?_⟩
  rw [run.2.modifiers] at inModifiers
  exact (wellFormed.inRange modifier inModifiers fieldId impacted).trans_le run.1.fields.length_le

end Call

/-- The states of a planner: fields are replanned, extra fields inserted, and all other steps leave
fields and selection sets as they are. -/
inductive Reached (schema : Schema) (depth : Nat) (operation : BoundOperation) : LogicalPlanner → Prop
  | new : Reached schema depth operation (.new operation)
  | replan {planner : LogicalPlanner} {selectionSetId : SelectionSetId} {fieldIds : List FieldId}
      {replaced : List (FieldId × List FieldDefinitionId)} {unplannedFields : UnplannedFields}
      {output : UnplannedFields × LogicalPlanner} (before : Reached schema depth operation planner)
      (found : planner.operation.selectionSets[selectionSetId]? = some fieldIds)
      (members : ∀ field ∈ replaced, field.1 ∈ fieldIds)
      (ran : replanInterfaceFields schema depth selectionSetId replaced unplannedFields planner = .ok output) :
      Reached schema depth operation output.2
  | pushSelectionSet {planner : LogicalPlanner} (before : Reached schema depth operation planner) :
      Reached schema depth operation (planner.mapSelectionSets (· ++ [[]]))
  | extraField {planner after : LogicalPlanner} {field : ExtraField} {planId : LogicalPlanId}
      {requiredFieldId : RequiredFieldId} (before : Reached schema depth operation planner)
      -- The selection set of an extra field is pushed after the one it is inserted in.
      (later : ∀ nested, field.selectionSetId = some nested →
        field.parentSelectionSetId < nested ∧ nested < planner.operation.selectionSets.length)
      (ran : planner.insertExtraField schema field planId requiredFieldId = .ok after) :
      Reached schema depth operation after
  | other {planner after : LogicalPlanner} (before : Reached schema depth operation planner)
      (fields : after.operation.fields = planner.operation.fields)
      (selectionSets : after.operation.selectionSets = planner.operation.selectionSets)
      (modifiers : after.operation.queryModifiers = planner.operation.queryModifiers) :
      Reached schema depth operation after

theorem Reached.wellFormed {schema : Schema} {depth : Nat} {operation : BoundOperation} {planner : LogicalPlanner}
    (wellFormed : operation.WellFormed) (reached : Reached schema depth operation planner) :
    planner.operation.WellFormed := by
  induction reached with
  | new => exact wellFormed
  | replan _ found members ran before => exact replanInterfaceFields_wellFormed before found members ran
  | pushSelectionSet _ before => exact ⟨before.wellNested.reserve, before.inRange⟩
  | @extraField planner after field _ _ _ later ran before =>
    have nests := (insertFieldInParentSelectionSet_nests · ran) ⟨.extra field, getElem?_concat_length, rfl, later⟩
    have same := (insertFieldInParentSelectionSet_agrees ⟨prefix_rfl, le_rfl, fun _ _ _ => rfl, rfl⟩ ran).1.modifiers
    refine ⟨nests.nested (before.wellNested.grow (prefix_append _ _)), fun modifier inModifiers fieldId impacted => ?_⟩
    rw [same] at inModifiers
    have old := before.inRange modifier inModifiers fieldId impacted
    exact old.trans_le ((prefix_append _ _).trans nests.fields).length_le
  | other _ fields selectionSets modifiers before =>
    refine ⟨?_, fun modifier inModifiers fieldId impacted => ?_⟩
    · rw [fields, selectionSets]
      exact before.wellNested
    · rw [fields]
      exact before.inRange modifier (modifiers ▸ inModifiers) fieldId impacted

/-- Whatever impacts a field impacts the copies that were added of it. -/
def ModifiersSurvive (before after : LogicalPlanner) : Prop :=
  ∀ added, after.copies = before.copies ++ added → ∀ modifier ∈ after.operation.queryModifiers, ∀ copy ∈ added,
    copy.2 ∈ modifier.impactedFields → copy.1 ∈ modifier.impactedFields

/-- In any state of planning, modifiers survive exactly if none impacts a field that is replaced or
one below it. -/
theorem modifiersSurvive_iff {ctx : BindContext} {bindDepth depth : Nat} {rootObjectId : ObjectDefinitionId}
    {selectionSet : List Selection} {operation : BoundOperation} {planner : LogicalPlanner}
    {selectionSetId : SelectionSetId} {fieldIds : List FieldId} {replaced : List (FieldId × List FieldDefinitionId)}
    {unplannedFields : UnplannedFields} {output : UnplannedFields × LogicalPlanner}
    (bound : bindOperation ctx bindDepth rootObjectId selectionSet = .ok operation)
    (reached : Reached ctx.schema depth operation planner)
    (found : planner.operation.selectionSets[selectionSetId]? = some fieldIds)
    (members : ∀ field ∈ replaced, field.1 ∈ fieldIds)
    (ran : replanInterfaceFields ctx.schema depth selectionSetId replaced unplannedFields planner = .ok output) :
    ModifiersSurvive planner output.2 ↔ ∀ field ∈ replaced, field.2 ≠ [] →
      ∀ below, Below planner.operation field.1 below →
      ∀ modifier ∈ planner.operation.queryModifiers, below ∉ modifier.impactedFields := by
  have wellFormed := reached.wellFormed (bindOperation_wellFormed bound)
  obtain ⟨agrees, added, appended, fresh, originals⟩ := replanInterfaceFields_copies wellFormed found members ran
  have survive : ModifiersSurvive planner output.2 ↔ ∀ modifier ∈ planner.operation.queryModifiers, ∀ copy ∈ added,
      copy.2 ∈ modifier.impactedFields → copy.1 ∈ modifier.impactedFields := by
    simp only [ModifiersSurvive, appended, append_cancel_left_eq, forall_eq', agrees.modifiers]
  rw [survive]
  constructor
  · intro survive field member some below under modifier inModifiers impacted
    obtain ⟨id, copied⟩ := (originals below).mpr ⟨field, member, some, under⟩
    have new := fresh _ copied
    have old := wellFormed.inRange modifier inModifiers id (survive modifier inModifiers _ copied impacted)
    exact absurd (new.trans_lt old) (lt_irrefl _)
  · intro spared modifier inModifiers copy copied impacted
    obtain ⟨field, member, some, under⟩ := (originals copy.2).mp ⟨copy.1, copied⟩
    exact absurd impacted (spared field member some copy.2 under modifier inModifiers)

/-- The fields of `type Query { node: Node }`, `interface Node { name }` and of the types `User` and
`Admin` behind it, with `@authenticated` on one of them. `name` is in another subgraph than `node`, and
`Node` has no key there. -/
def nodeContext (authenticated : FieldDefinitionId) : BindContext where
  schema := {
    objectFieldByName type name :=
      if type = 0 ∧ name = "node" then some 0 else if type ≠ 0 ∧ name = "name" then some (type + 1) else none
    interfaceFieldByName _ name := if name = "name" then some 1 else none
    definitionByName _ := none
    definitionName _ := "Query"
    fieldName id := if id = 0 then "node" else "name"
    fieldType id := if id = 0 then .interface 0 else .scalar 0
    parentEntityId id := if id = 0 then .object 0 else if id = 1 then .interface 0 else .object (id - 1)
    interfacePossibleTypeIds _ := [1, 2]
    unionPossibleTypeIds _ := []
    fieldDirectives id := if id = authenticated then [.authenticated] else []
    definitionDirectives _ := []
    coerceArguments _ _ := some [] }
  variableDefinitions := []
  fragments := []

/-- `{ node { name } }` -/
def nodeSelection : List Selection := [.field ⟨1, 1⟩ none "node" [] [] [.field ⟨2, 1⟩ none "name" [] [] []]]

/-- The interface field `name`, replaced by those of `User` and `Admin`. -/
def replanNode (context : BindContext) (operation : BoundOperation) : Checked (UnplannedFields × LogicalPlanner) :=
  replanInterfaceFields context.schema 2 1 [(0, addToPlan context.schema 1)] [(0, 1)] (.new operation)

/-- With `@authenticated` on `node`, only the parent of the replaced field is impacted. -/
theorem modifiersSurvive_parent : ∃ operation output, bindOperation (nodeContext 0) 2 0 nodeSelection = .ok operation ∧
      replanNode (nodeContext 0) operation = .ok output ∧ output.2.copies = [(2, 0), (3, 0)] ∧
      ModifiersSurvive (.new operation) output.2 := by
  have computed : ((bindOperation (nodeContext 0) 2 0 nodeSelection).toOption.map fun operation =>
      (decide (operation.selectionSets[1]? = some [0] ∧ operation.fields[0]?.map (·.selectionSetId) = some none ∧
          operation.queryModifiers = [⟨.authenticated, [1]⟩]),
        (replanNode (nodeContext 0) operation).toOption.map (·.2.copies))) = some (true, some [(2, 0), (3, 0)]) := by
    decide +kernel
  obtain ⟨operation, bound, facts⟩ := ok_of_map computed
  simp only [Prod.mk.injEq, decide_eq_true_eq] at facts
  obtain ⟨⟨found, first, modifiers⟩, replanned⟩ := facts
  obtain ⟨field, held, leaf⟩ := Option.map_eq_some_iff.mp first
  obtain ⟨output, ran, copies⟩ := ok_of_map replanned
  refine ⟨operation, output, bound, ran, copies, ?_⟩
  refine (modifiersSurvive_iff bound .new found (by simp) ran).mpr ?_
  intro replaced member _ below under modifier inModifiers impacted
  obtain rfl := mem_singleton.mp member
  obtain rfl : below = 0 := by simpa [leaf] using (below_iff held).mp under
  rw [show (LogicalPlanner.new operation).operation.queryModifiers = _ from modifiers] at inModifiers
  obtain rfl := mem_singleton.mp inModifiers
  simp at impacted

/-- With `@authenticated` on the interface field, its copies are requested by anyone. -/
theorem not_modifiersSurvive_interface_field :
    ∃ operation output modifications, bindOperation (nodeContext 1) 2 0 nodeSelection = .ok operation ∧
      replanNode (nodeContext 1) operation = .ok output ∧ output.2.copies = [(2, 0), (3, 0)] ∧
      ¬ ModifiersSurvive (.new operation) output.2 ∧
      QueryModifications.build ⟨true, fun _ => none, fun _ _ _ => none, fun _ _ => none, fun _ => false⟩
        output.2.operation (fun _ => []) = .ok modifications ∧
      modifications.skippedFields = [0] := by
  have computed : ((bindOperation (nodeContext 1) 2 0 nodeSelection).toOption.map fun operation =>
      (replanNode (nodeContext 1) operation).toOption.map fun output =>
        (output.2.copies, output.2.operation.queryModifiers,
          (QueryModifications.build ⟨true, fun _ => none, fun _ _ _ => none, fun _ _ => none, fun _ => false⟩
            output.2.operation (fun _ => [])).toOption.map (·.skippedFields))) =
      some (some ([(2, 0), (3, 0)], [⟨.authenticated, [0]⟩], some [0])) := by
    decide +kernel
  obtain ⟨operation, bound, facts⟩ := ok_of_map computed
  obtain ⟨output, ran, facts⟩ := ok_of_map facts
  simp only [Prod.mk.injEq] at facts
  obtain ⟨copies, modifiers, built⟩ := facts
  obtain ⟨modifications, buildRan, skipped⟩ := ok_of_map built
  refine ⟨operation, output, modifications, bound, ran, copies, ?_, buildRan, skipped⟩
  intro survive
  have impacted := survive [(2, 0), (3, 0)] copies ⟨.authenticated, [0]⟩ (by simp [modifiers]) (2, 0)
    (by simp) (by simp)
  simp at impacted

end LogicalPlanner
end Grafbase.Operation
