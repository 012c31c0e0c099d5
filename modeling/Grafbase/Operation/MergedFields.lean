import Grafbase.Operation.WellFormed
import Grafbase.Response.EdgeOrder

/-! The merged fields of a document.

Spreading the fragments of a selection set leaves its fields, each with the
directives around it. Those with one response key and one definition are merged,
and so are the selection sets below them. `__typename` has no definition of its
own and belongs to the type it is selected on.

Binding an operation makes one field of each merged field and keeps the
occurrences it was made of.
-/

set_option autoImplicit false
namespace Grafbase.Operation
open Foundation Response List

inductive Target where
  | definition (id : FieldDefinitionId)
  | typename (type : SelectionSetType)
  deriving DecidableEq

/-- A field of a selection set after spreading fragments. -/
structure SpreadField where
  key : String
  target : Target
  occurrence : Occurrence

def Schema.fieldNamed (schema : Schema) (name : String) : SelectionSetType → Option FieldDefinitionId
  | .object id => schema.objectFieldByName id name
  | .interface id => schema.interfaceFieldByName id name
  | .union _ => none

def Schema.typeNamed (schema : Schema) (name : String) : Option SelectionSetType :=
  (schema.definitionByName name).bind SelectionSetType.maybeFrom

def Schema.target (schema : Schema) (parent : SelectionSetType) (name : String) : Option Target :=
  if name = "__typename" then some (.typename parent) else (schema.fieldNamed name parent).map .definition

section Document
variable (ctx : BindContext)

def spreadSelection (spread : SelectionSetType → List Directive → List Selection → List SpreadField)
    (parent : SelectionSetType) (enclosing : List Directive) : Selection → List SpreadField
  | .field location responseName name arguments directives selectionSet =>
    (ctx.schema.target parent name).toList.map fun target =>
      ⟨responseName.getD name, target, ⟨location, arguments, directives, enclosing, selectionSet⟩⟩
  | .fragmentSpread _ name directives =>
    (ctx.fragments.find? (·.name = name)).elim [] fun fragment =>
      (ctx.schema.typeNamed fragment.typeCondition).elim [] fun type =>
        spread type (directives ++ enclosing) fragment.selectionSet
  | .inlineFragment _ typeCondition directives selectionSet =>
    (typeCondition.elim (some parent) ctx.schema.typeNamed).elim [] fun type =>
      spread type (directives ++ enclosing) selectionSet

/-- The fields of a selection set, in document order. Fragments may nest up to the given depth. -/
def spreadFragments : Nat → SelectionSetType → List Directive → List Selection → List SpreadField
  | 0, _, _, _ => []
  | depth + 1, parent, enclosing, selectionSet =>
    selectionSet.flatMap (spreadSelection ctx (spreadFragments depth) parent enclosing)

/-- The selection sets of all occurrences of a field, whose type is common to them. -/
structure Merged where
  type : SelectionSetType
  selectionSets : List (List Selection)

namespace Merged
variable (depth : Nat) (merged : Merged)

def root (rootObjectId : ObjectDefinitionId) (selectionSet : List Selection) : Merged :=
  ⟨.object rootObjectId, [selectionSet]⟩

def fields : List SpreadField := merged.selectionSets.flatMap (spreadFragments ctx depth merged.type [])

/-- A `__typename` on the type of the whole selection set also answers for those on narrower types. -/
def answers (given : Target) : Target → Bool
  | .definition id => given = .definition id
  | .typename type => given = .typename type || given = .typename merged.type

def occurrences (key : String) (target : Target) : List Occurrence :=
  ((merged.fields ctx depth).filter fun field => field.key = key && merged.answers field.target target).map
    (·.occurrence)

def below (key : String) (definition : FieldDefinitionId) : Option Merged :=
  (SelectionSetType.maybeFrom (ctx.schema.fieldType definition)).map fun type =>
    ⟨type, (merged.occurrences ctx depth key (.definition definition)).map (·.selectionSet)⟩

/-- What is merged below the fields of a path. -/
def follow (merged : Merged) : List (String × FieldDefinitionId) → Option Merged
  | [] => some merged
  | (key, definition) :: path => (merged.below ctx depth key definition).bind (·.follow path)

end Merged
end Document

/-- The part of a binder or a bound operation that says which fields there are. -/
structure FieldTables where
  responseKeys : List String
  fields : List Field
  selectionSets : List (List FieldId)

def Binder.tables (binder : Binder) : FieldTables := ⟨binder.responseKeys, binder.fields, binder.selectionSets⟩

def BoundOperation.tables (operation : BoundOperation) : FieldTables :=
  ⟨operation.responseKeys, operation.fields, operation.selectionSets⟩

def Field.target : Field → Option Target
  | .query field => some (.definition field.definitionId)
  | .typeName field => some (.typename field.typeCondition)
  | .extra _ => none

def Field.responseKey : Field → Option ResponseKey
  | .query field => some field.boundResponseKey.asResponseKey
  | .typeName field => some field.boundResponseKey.asResponseKey
  | .extra _ => none

namespace FieldTables
variable (tables : FieldTables)

def names (key : String) (target : Target) (fieldId : FieldId) : Bool :=
  (tables.fields[fieldId]?).any fun field => field.target = some target &&
    field.responseKey.bind (tables.responseKeys[·.bits.toNat]?) = some key

def field? (id : SelectionSetId) (key : String) (target : Target) : Option FieldId :=
  (tables.selectionSets[id]?).bind (·.find? (tables.names key target))

/-- The selection set below the fields of a path. -/
def selectionSetAt (id : SelectionSetId) : List (String × FieldDefinitionId) → Option SelectionSetId
  | [] => some id
  | (key, definition) :: path => do
      let fieldId ← tables.field? id key (.definition definition)
      let nested ← (← tables.fields[fieldId]?).selectionSetId
      selectionSetAt nested path

/-- The field of a selection set of the given type for a key and a target. -/
def fieldFor (type : SelectionSetType) (id : SelectionSetId) (key : String) : Target → Option FieldId
  | .definition definition => tables.field? id key (.definition definition)
  | .typename narrow => tables.field? id key (.typename narrow) <|> tables.field? id key (.typename type)

end FieldTables

/-- The field for a key and a target in the selection set, of the given type, below the fields of a path. -/
def BoundOperation.fieldAt (operation : BoundOperation) (path : List (String × FieldDefinitionId))
    (type : SelectionSetType) (key : String) (target : Target) : Option FieldId :=
  (operation.tables.selectionSetAt operation.rootSelectionSetId path).bind fun id =>
    operation.tables.fieldFor type id key target

/-! ## Registration -/

section Registration
variable {ctx : BindContext} {keys : List String} {key : String} {responseKey : ResponseKey}

theorem Interned.mono {more : List String} (interned : Interned keys key responseKey) (grows : keys <+: more) :
    Interned more key responseKey :=
  getElem?_of_front grows interned

theorem Interned.key_eq {other : String} (first : Interned keys key responseKey)
    (second : Interned keys other responseKey) : key = other :=
  Option.some.inj (first.symm.trans second)

theorem Interned.eq {other : ResponseKey} (first : Interned keys key responseKey) (second : Interned keys key other)
    (distinct : DistinctKeys keys) : responseKey = other := by
  have same := (getElem?_inj (index_lt first) distinct.nodup).mp (first.trans second.symm)
  cases responseKey
  cases other
  exact congrArg ResponseKey.mk (BitVec.toNat_inj.mp same)

/-- The occurrences of one key and one definition among the fields. -/
def gathered (items : List SpreadField) (key : String) (definition : FieldDefinitionId) : List Occurrence :=
  (items.filter fun item => item.key = key && item.target = .definition definition).map (·.occurrence)

theorem gathered_append (front back : List SpreadField) (key : String) (definition : FieldDefinitionId) :
    gathered (front ++ back) key definition = gathered front key definition ++ gathered back key definition := by
  simp [gathered]

abbrev FieldEntries := List ((ResponseKey × FieldDefinitionId) × FieldEntry)
abbrev TypenameEntries := List (ResponseKey × List (SelectionSetType × (Nat × Location)))

/-- The entries of a selection set are made of the given fields. -/
structure Collected (keys : List String) (fields : FieldEntries) (typenameFields : TypenameEntries)
    (items : List SpreadField) : Prop where
  distinct : DistinctKeys keys
  interned : ∀ item ∈ items, item.key ∈ keys
  unique : (fields.map Prod.fst).Nodup
  keyed : ∀ entry ∈ fields, ∃ key, Interned keys key entry.1.1
  occurrences : ∀ entry ∈ fields, ∀ key, Interned keys key entry.1.1 →
    entry.2.occurrences = gathered items key entry.1.2
  present : ∀ item ∈ items, ∀ definition, item.target = .definition definition →
    ∃ entry ∈ fields, Interned keys item.key entry.1.1 ∧ entry.1.2 = definition
  typenamesKeyed : ∀ entry ∈ typenameFields, ∃ key, Interned keys key entry.1
  typenames : ∀ item ∈ items, ∀ type, item.target = .typename type → ∃ responseKey types,
    Interned keys item.key responseKey ∧ typenameFields.lookup responseKey = some types ∧ type ∈ types.map Prod.fst

namespace Collected
variable {fields : FieldEntries} {typenameFields : TypenameEntries} {items : List SpreadField}
  (collected : Collected keys fields typenameFields items)
include collected

theorem intern {after : List String} (interns : Interns key keys after) :
    Collected after fields typenameFields items := by
  cases interns with
  | held => exact collected
  | added fresh small =>
    have grows : keys <+: keys ++ [key] := prefix_append _ _
    refine { collected with
      distinct := (Interns.added fresh small).distinct collected.distinct
      interned := fun item member => mem_append_left _ (collected.interned item member)
      keyed := fun entry member => (collected.keyed entry member).imp fun _ interned => interned.mono grows
      occurrences := fun entry member other interned => ?_
      present := fun item member definition same => ?_
      typenamesKeyed := fun entry member =>
        (collected.typenamesKeyed entry member).imp fun _ interned => interned.mono grows
      typenames := fun item member type same => ?_ }
    · obtain ⟨own, ownInterned⟩ := collected.keyed entry member
      obtain rfl := (ownInterned.mono grows).key_eq interned
      exact collected.occurrences entry member own ownInterned
    · obtain ⟨entry, inFields, interned, found⟩ := collected.present item member definition same
      exact ⟨entry, inFields, interned.mono grows, found⟩
    · obtain ⟨responseKey, types, interned, found⟩ := collected.typenames item member type same
      exact ⟨responseKey, types, interned.mono grows, found⟩

theorem addField {position : Nat} {definition : FieldDefinitionId} {occurrence : Occurrence}
    {change : FieldEntry → FieldEntry} (interned : Interned keys key responseKey)
    (adds : ∀ entry, (change entry).occurrences = entry.occurrences ++ [occurrence]) :
    Collected keys (upsert (responseKey, definition) ⟨position, [], []⟩ change fields) typenameFields
      (items ++ [⟨key, .definition definition, occurrence⟩]) where
  distinct := collected.distinct
  interned := forall_mem_append.mpr ⟨collected.interned, by simpa using mem_of_getElem? interned⟩
  unique := nodup_map_fst_upsert collected.unique
  keyed := forall_mem_upsert collected.keyed ⟨key, interned⟩ fun _ _ => ⟨key, interned⟩
  occurrences := by
    have gathered_apart (entry : (ResponseKey × FieldDefinitionId) × FieldEntry)
        (apart : entry.1 ≠ (responseKey, definition)) (other : String) (otherInterned : Interned keys other entry.1.1) :
        gathered [⟨key, .definition definition, occurrence⟩] other entry.1.2 = [] := by
      have : ¬ (key = other ∧ definition = entry.1.2) := fun ⟨sameKey, sameDefinition⟩ =>
        apart (Prod.ext (otherInterned.eq (sameKey ▸ interned) collected.distinct) sameDefinition.symm)
      simpa [gathered] using this
    have kept (entry) (member : entry ∈ fields) (apart : entry.1 ≠ (responseKey, definition)) (other : String)
        (otherInterned : Interned keys other entry.1.1) :
        entry.2.occurrences = gathered (items ++ [⟨key, .definition definition, occurrence⟩]) other entry.1.2 := by
      rw [gathered_append, gathered_apart entry apart other otherInterned, append_nil]
      exact collected.occurrences entry member other otherInterned
    have added (old : FieldEntry) (before : old.occurrences = gathered items key definition) (other : String)
        (otherInterned : Interned keys other responseKey) : (change old).occurrences =
          gathered (items ++ [⟨key, .definition definition, occurrence⟩]) other definition := by
      obtain rfl := interned.key_eq otherInterned
      rw [gathered_append, adds, before]
      simp [gathered]
    rcases upsert_cases (responseKey, definition) ⟨position, [], []⟩ change fields with
      ⟨absent, result⟩ | ⟨front, old, back, rfl, absent, result⟩ <;> rw [result]
    · refine forall_mem_append.mpr ⟨fun entry member => kept entry member fun same =>
        absent (same ▸ mem_map_of_mem member), forall_mem_singleton.mpr (added ⟨position, [], []⟩ ?_)⟩
      refine (map_eq_nil_iff.mpr (filter_eq_nil_iff.mpr fun item member same => ?_)).symm
      simp only [Bool.and_eq_true, decide_eq_true_eq] at same
      obtain ⟨entry, inFields, itemInterned, sameDefinition⟩ := collected.present item member definition same.2
      rw [same.1] at itemInterned
      exact absent (mem_map.mpr ⟨entry, inFields, Prod.ext (itemInterned.eq interned collected.distinct)
        sameDefinition⟩)
    · have distinct := collected.unique
      rw [map_append, map_cons] at distinct
      have behind := (nodup_cons.mp distinct.of_append_right).1
      refine forall_mem_append.mpr ⟨fun entry member => kept entry (by simp [member]) fun same =>
        absent (same ▸ mem_map_of_mem member), forall_mem_cons.mpr ⟨added old ?_, fun entry member =>
          kept entry (by simp [member]) fun same => behind (mem_map.mpr ⟨entry, member, same⟩)⟩⟩
      exact collected.occurrences ((responseKey, definition), old) (by simp) key interned
  present := by
    refine forall_mem_append.mpr ⟨fun item member other same => ?_, ?_⟩
    · obtain ⟨entry, inFields, itemInterned, found⟩ := collected.present item member other same
      obtain ⟨after, inAfter, sameKey⟩ := mem_map.mp (mem_map_fst_upsert.mpr (.inl (mem_map_of_mem inFields)))
      exact ⟨after, inAfter, sameKey ▸ itemInterned, sameKey ▸ found⟩
    · simp only [mem_singleton, forall_eq, Target.definition.injEq]
      rintro _ rfl
      obtain ⟨after, inAfter, sameKey⟩ := mem_map.mp (mem_map_fst_upsert.mpr
        (.inr (rfl : (responseKey, definition) = (responseKey, definition))))
      exact ⟨after, inAfter, sameKey ▸ interned, congrArg Prod.snd sameKey⟩
  typenamesKeyed := collected.typenamesKeyed
  typenames := forall_mem_append.mpr ⟨collected.typenames, by simp⟩

theorem addTypename {place : Nat × Location} {type : SelectionSetType} {occurrence : Occurrence}
    (interned : Interned keys key responseKey) :
    Collected keys fields (upsert responseKey [] (upsert type place id) typenameFields)
      (items ++ [⟨key, .typename type, occurrence⟩]) where
  distinct := collected.distinct
  interned := forall_mem_append.mpr ⟨collected.interned, by simpa using mem_of_getElem? interned⟩
  unique := collected.unique
  keyed := collected.keyed
  occurrences entry member other otherInterned := by
    rw [gathered_append, ← collected.occurrences entry member other otherInterned]
    simp [gathered]
  present := forall_mem_append.mpr ⟨collected.present, by simp⟩
  typenamesKeyed := forall_mem_upsert collected.typenamesKeyed ⟨key, interned⟩ fun _ _ => ⟨key, interned⟩
  typenames := by
    refine forall_mem_append.mpr ⟨fun item member narrow same => ?_, ?_⟩
    · obtain ⟨itemKey, types, itemInterned, found, listed⟩ := collected.typenames item member narrow same
      rcases eq_or_ne itemKey responseKey with rfl | other
      · exact ⟨itemKey, _, itemInterned, by rw [lookup_upsert, if_pos rfl, found]; rfl,
          mem_map_fst_upsert.mpr (.inl listed)⟩
      · exact ⟨itemKey, types, itemInterned, by rw [lookup_upsert, if_neg other, found], listed⟩
    · simp only [mem_singleton, forall_eq, Target.typename.injEq]
      rintro _ rfl
      exact ⟨responseKey, _, interned, by rw [lookup_upsert, if_pos rfl], mem_map_fst_upsert.mpr (.inr rfl)⟩

end Collected

theorem fieldDefinition_eq_ok {parent : SelectionSetType} {name : String} {location : Location}
    {definition : FieldDefinitionId} (found : fieldDefinition ctx parent name location = .ok definition) :
    ctx.schema.fieldNamed name parent = some definition := by
  have known {known : Option FieldDefinitionId} {error : BindError}
      (found : known.elim (.error error) Except.ok = .ok definition) : known = some definition := by
    cases known <;> cases found
    rfl
  cases parent with
  | object => exact known found
  | interface => exact known found
  | union => cases found

theorem bindSelectionSetType_eq_ok {parent type : SelectionSetType} {name : String} {location : Location}
    (found : bindSelectionSetType ctx parent name location = .ok type) : ctx.schema.typeNamed name = some type := by
  rw [bindSelectionSetType] at found
  split at found
  · cases found
  · next definition named =>
    split at found
    · cases found
    · next narrow isType =>
      obtain ⟨_, rfl⟩ := ite_eq_ok.mp found
      rw [Schema.typeNamed, named]
      exact isType

def SelectionSetBinder.Collects (state : SelectionSetBinder) (items : List SpreadField) : Prop :=
  Collected state.binder.responseKeys state.fields state.typenameFields items

variable {parent : SelectionSetType} {enclosing : Enclosing} {state next : SelectionSetBinder}
  {items : List SpreadField}

theorem registerField_collects {location : Location} {responseName : Option String} {name : String}
    {arguments : List (String × Value)} {directives : List Directive} {selectionSet : List Selection}
    (spread : SelectionSetType → List Directive → List Selection → List SpreadField) (collects : state.Collects items)
    (ran : registerField ctx parent enclosing location responseName name arguments directives selectionSet state =
      .ok next) :
    next.Collects (items ++ spreadSelection ctx spread parent enclosing.directives
      (.field location responseName name arguments directives selectionSet)) := by
  obtain ⟨⟨responseKey, binder⟩, internRan, ran⟩ := bind_eq_ok.mp ran
  obtain ⟨keys, rfl, interns, interned⟩ := getOrIntern_eq_ok internRan
  have before := Collected.intern collects interns
  rw [spreadSelection, Schema.target]
  dsimp only at ran
  split at ran
  · next isTypename =>
    obtain rfl := (Except.ok.injEq _ _).mp ran
    rw [if_pos isTypename]
    exact before.addTypename (interned collects.distinct)
  · next isField =>
    simp only [bind_eq_ok] at ran
    obtain ⟨definitionId, known, ⟨bound, binder⟩, boundRan, last⟩ := ran
    obtain ⟨added, rfl, _⟩ := bindExecutableDirectives_spec boundRan
    obtain rfl := (Except.ok.injEq _ _).mp last
    rw [if_neg isField, fieldDefinition_eq_ok known]
    exact before.addField (interned collects.distinct) fun _ => rfl

section Selections
variable
  {register : SelectionSetType → List Selection → Enclosing → SelectionSetBinder → Except BindError SelectionSetBinder}
  {spread : SelectionSetType → List Directive → List Selection → List SpreadField}
  (collect : ∀ type selectionSet enclosing state next items, state.Collects items →
    register type selectionSet enclosing state = .ok next →
      next.Collects (items ++ spread type enclosing.directives selectionSet))
  (collects : state.Collects items)
include collect collects

theorem registerFragment_collects {type : SelectionSetType} {directives : List Directive}
    {selectionSet : List Selection}
    (ran : registerFragment ctx register type enclosing directives selectionSet state = .ok next) :
    next.Collects (items ++ spread type (directives ++ enclosing.directives) selectionSet) := by
  obtain ⟨⟨bound, binder⟩, boundRan, ran⟩ := bind_eq_ok.mp ran
  obtain ⟨added, rfl, _⟩ := bindExecutableDirectives_spec boundRan
  have collects : SelectionSetBinder.Collects
      { state with binder := { state.binder with inputValues := state.binder.inputValues ++ added } } items := collects
  exact collect _ _ _ _ _ _ collects ran

theorem registerSelection_collects {selection : Selection}
    (ran : registerSelection ctx register parent enclosing state selection = .ok next) :
    next.Collects (items ++ spreadSelection ctx spread parent enclosing.directives selection) := by
  cases selection with
  | field => exact registerField_collects spread collects ran
  | fragmentSpread location name directives =>
    rw [registerSelection] at ran
    split at ran
    · cases ran
    · next fragment found =>
      obtain ⟨type, known, ran⟩ := bind_eq_ok.mp ran
      rw [spreadSelection, found, Option.elim_some, bindSelectionSetType_eq_ok known]
      exact registerFragment_collects collect collects ran
  | inlineFragment location typeCondition directives selectionSet =>
    cases typeCondition with
    | none => exact registerFragment_collects collect collects ran
    | some condition =>
      obtain ⟨type, known, ran⟩ := bind_eq_ok.mp (show _ >>= _ = _ from ran)
      rw [spreadSelection, Option.elim_some, bindSelectionSetType_eq_ok known]
      exact registerFragment_collects collect collects ran

end Selections

/-- Registration ends within its own depth, so that any larger one spreads the same fields. -/
theorem registerSelectionSetFields_collects {depth larger : Nat} (le : depth ≤ larger) (type : SelectionSetType)
    (selectionSet : List Selection) (enclosing : Enclosing) (state next : SelectionSetBinder)
    (items : List SpreadField) (collects : state.Collects items)
    (ran : registerSelectionSetFields ctx depth type selectionSet enclosing state = .ok next) :
    next.Collects (items ++ spreadFragments ctx larger type enclosing.directives selectionSet) := by
  induction depth generalizing larger type selectionSet enclosing state next items with
  | zero => cases ran
  | succ depth ih =>
    obtain ⟨larger, rfl⟩ := Nat.exists_eq_add_of_le' (Nat.one_le_of_lt le)
    rw [registerSelectionSetFields] at ran
    rw [spreadFragments]
    induction selectionSet generalizing state items with
    | nil =>
      cases ran
      simpa using collects
    | cons selection rest tail =>
      obtain ⟨middle, selectionRan, restRan⟩ := bind_eq_ok.mp ran
      have first := registerSelection_collects (ih (Nat.le_of_succ_le_succ le)) collects selectionRan
      rw [flatMap_cons, ← append_assoc]
      exact tail middle _ first restRan

end Registration

/-! ## Binding -/

section Binding
variable {ctx : BindContext} {depth : Nat}

theorem Merged.mem_occurrences_definition {merged : Merged} {key : String} {definition : FieldDefinitionId}
    {occurrence : Occurrence} :
    occurrence ∈ merged.occurrences ctx depth key (.definition definition) ↔
      ∃ item ∈ merged.fields ctx depth, item.key = key ∧ item.target = .definition definition ∧
        item.occurrence = occurrence := by
  simp [occurrences, answers, and_assoc]

theorem Merged.mem_occurrences_self {merged : Merged} {item : SpreadField} (member : item ∈ merged.fields ctx depth) :
    item.occurrence ∈ merged.occurrences ctx depth item.key item.target := by
  refine mem_map.mpr ⟨item, mem_filter.mpr ⟨member, ?_⟩, rfl⟩
  cases item.target <;> simp [answers]

theorem asResponseKey_withPosition {responseKey : ResponseKey} {position : Nat} {bound : BoundResponseKey}
    (small : responseKey.bits.toNat < 2 ^ 15) (found : responseKey.withPosition position = some bound) :
    bound.asResponseKey = responseKey := by
  have early : position ≤ maxPosition := by
    by_contra late
    rw [ResponseKey.withPosition, if_neg late] at found
    cases found
  obtain ⟨other, same, bits⟩ := responseKey.withPosition_eq (BitVec.le_def.mpr (Nat.le_of_lt_succ small)) early
  obtain rfl := Option.some.inj (found.symm.trans same)
  have low : bound.asResponseKey.bits = responseKey.bits := by
    rw [← BitVec.toNat_inj, BoundResponseKey.toNat_asResponseKey, bits]
    omega
  cases responseKey
  exact congrArg ResponseKey.mk low

namespace FieldTables
variable {tables after : FieldTables} {key : String} {target : Target} {fieldId : FieldId}

theorem names_iff : tables.names key target fieldId = true ↔ ∃ field responseKey,
    tables.fields[fieldId]? = some field ∧ field.target = some target ∧ field.responseKey = some responseKey ∧
      Interned tables.responseKeys key responseKey := by
  rw [names]
  cases tables.fields[fieldId]? <;> simp [Interned, Option.bind_eq_some_iff]

/-- Tables only grow, and selection sets from a start on stay as they are. -/
structure Keeps (start : SelectionSetId) (before after : FieldTables) : Prop where
  keys : before.responseKeys <+: after.responseKeys
  fields : before.fields <+: after.fields
  sets : ∀ id fieldIds, start ≤ id → before.selectionSets[id]? = some fieldIds →
    after.selectionSets[id]? = some fieldIds

theorem Keeps.names {start : SelectionSetId} (keeps : tables.Keeps start after)
    (named : tables.names key target fieldId = true) : after.names key target fieldId = true := by
  obtain ⟨field, responseKey, found, isTarget, isKey, interned⟩ := names_iff.mp named
  exact names_iff.mpr
    ⟨field, responseKey, getElem?_of_front keeps.fields found, isTarget, isKey, interned.mono keeps.keys⟩

end FieldTables

theorem Binder.Advances.keeps {before after : Binder} (advances : before.Advances ctx after) :
    before.tables.Keeps 0 after.tables :=
  ⟨advances.keys, advances.fields, fun id _ _ found => (advances.sets id (index_lt found)).trans found⟩

variable (ctx depth) in
/-- A bound field stands for the occurrences of its key and definition, and its selection set for what
is below them. -/
def FieldStands (tables : FieldTables) (log : List (FieldId × List Occurrence))
    (stands : SelectionSetId → Merged → Prop) (id : SelectionSetId) (merged : Merged) (fieldId : FieldId) : Prop :=
  ∃ key target, tables.names key target fieldId = true ∧ ∀ definition, target = .definition definition →
    (fieldId, merged.occurrences ctx depth key target) ∈ log ∧
    ∀ below, merged.below ctx depth key definition = some below → ∃ nested,
      (tables.fields[fieldId]?).bind Field.selectionSetId = some nested ∧ id < nested ∧ stands nested below

variable (ctx depth) in
/-- A bound selection set stands for merged ones: it has a field for each of theirs. -/
def Stands (tables : FieldTables) (log : List (FieldId × List Occurrence)) : Nat → SelectionSetId → Merged → Prop
  | 0, _, _ => False
  | levels + 1, id, merged => ∃ fieldIds, tables.selectionSets[id]? = some fieldIds ∧
    (∀ item ∈ merged.fields ctx depth, ∃ fieldId ∈ fieldIds, ∃ given,
      merged.answers given item.target = true ∧ tables.names item.key given fieldId = true) ∧
    ∀ fieldId ∈ fieldIds, FieldStands ctx depth tables log (Stands tables log levels) id merged fieldId

section Growth
variable {tables after : FieldTables} {log more : List (FieldId × List Occurrence)} {start id : SelectionSetId}
  {merged : Merged} {fieldId : FieldId} (keeps : tables.Keeps start after) (logged : log ⊆ more)
include keeps logged

theorem FieldStands.mono {stands later : SelectionSetId → Merged → Prop}
    (nested : ∀ nested below, id < nested → stands nested below → later nested below)
    (field : FieldStands ctx depth tables log stands id merged fieldId) :
    FieldStands ctx depth after more later id merged fieldId := by
  obtain ⟨key, target, named, each⟩ := field
  refine ⟨key, target, keeps.names named, fun definition same => ⟨logged (each definition same).1,
    fun below isBelow => ?_⟩⟩
  obtain ⟨inner, found, larger, stands⟩ := (each definition same).2 below isBelow
  obtain ⟨field, held, isNested⟩ := Option.bind_eq_some_iff.mp found
  exact ⟨inner, Option.bind_eq_some_iff.mpr ⟨field, getElem?_of_front keeps.fields held, isNested⟩, larger,
    nested inner below larger stands⟩

theorem Stands.mono {levels : Nat} (from_ : start ≤ id) (stands : Stands ctx depth tables log levels id merged) :
    Stands ctx depth after more levels id merged := by
  induction levels generalizing id merged with
  | zero => exact stands
  | succ levels ih =>
    obtain ⟨fieldIds, found, complete, each⟩ := stands
    refine ⟨fieldIds, keeps.sets id fieldIds from_ found, fun item member => ?_, fun fieldId member =>
      (each fieldId member).mono keeps logged fun _ _ larger => ih (from_.trans larger.le)⟩
    obtain ⟨fieldId, inSet, given, answers, named⟩ := complete item member
    exact ⟨fieldId, inSet, given, answers, keeps.names named⟩

end Growth

variable (ctx depth) in
/-- What is recorded is old or belongs to a field of the document. -/
def Covers (merged : Merged) (before : List (FieldId × List Occurrence)) (tables : FieldTables)
    (after : List (FieldId × List Occurrence)) : Prop :=
  ∀ entry ∈ after, entry ∈ before ∨ ∃ path inner, merged.follow ctx depth path = some inner ∧
    ∃ item ∈ inner.fields ctx depth, (∃ definition, item.target = .definition definition) ∧
      tables.names item.key item.target entry.1 = true ∧ entry.2 = inner.occurrences ctx depth item.key item.target

theorem Covers.trans {merged : Merged} {tables later : FieldTables} {start : SelectionSetId}
    {before middle after : List (FieldId × List Occurrence)} (first : Covers ctx depth merged before tables middle)
    (keeps : tables.Keeps start later) (second : Covers ctx depth merged middle later after) :
    Covers ctx depth merged before later after := by
  intro entry member
  rcases second entry member with inMiddle | new
  · refine (first entry inMiddle).imp_right ?_
    rintro ⟨path, inner, follows, item, inFields, isField, named, same⟩
    exact ⟨path, inner, follows, item, inFields, isField, keeps.names named, same⟩
  · exact .inr new

theorem Covers.below {merged below : Merged} {key : String} {definition : FieldDefinitionId} {tables : FieldTables}
    {before after : List (FieldId × List Occurrence)} (isBelow : merged.below ctx depth key definition = some below)
    (covers : Covers ctx depth below before tables after) : Covers ctx depth merged before tables after := by
  refine fun entry member => (covers entry member).imp_right ?_
  rintro ⟨path, inner, follows, found⟩
  exact ⟨(key, definition) :: path, inner, by rw [Merged.follow, isBelow]; exact follows, found⟩

theorem bindField_eq_ok {binder : Binder} {id : SelectionSetId} {boundResponseKey : BoundResponseKey}
    {definitionId : FieldDefinitionId} {occurrence : Occurrence} {selectionSetId : Option SelectionSetId}
    {entry : FieldEntry} {output : FieldId × Binder}
    (ran : binder.bindField ctx id boundResponseKey definitionId occurrence selectionSetId entry = .ok output) :
    output.1 = binder.fields.length ∧ output.2.occurrences = binder.occurrences ++ [(output.1, entry.occurrences)] ∧
    ∃ argumentIds, output.2.fields[output.1]? = some (.query
      ⟨boundResponseKey, occurrence.location, definitionId, argumentIds, selectionSetId, id⟩) := by
  simp only [Binder.bindField, bind_eq_ok] at ran
  obtain ⟨_, _, ⟨argumentIds, withArguments⟩, argumentsRan, withModifiers, modifiersRan, last⟩ := ran
  cases last
  obtain ⟨sameFields, arguments⟩ := bindFieldArguments_preserves argumentsRan
  have pushed := Binder.Preserves.pushField withArguments (.query
    ⟨boundResponseKey, occurrence.location, definitionId, argumentIds, selectionSetId, id⟩)
  have inRange : binder.fields.length < (withArguments.pushField (.query
      ⟨boundResponseKey, occurrence.location, definitionId, argumentIds, selectionSetId, id⟩)).2.fields.length := by
    simp [Binder.pushField, ← sameFields]
  have modifiers := generateModifiersForTypeSystemDirectives_preserves inRange modifiersRan
  rw [generateAdditionalModifiers_eq]
  refine ⟨rfl, ?_, argumentIds, getElem?_of_front modifiers.fields ?_⟩
  · rw [modifiers.occurrences, pushed.occurrences, arguments.occurrences]
  · simp [Binder.pushField, ← sameFields]

section Fields
variable {merged : Merged} {binder : Binder} {id : SelectionSetId} {items : List SpreadField}

/-- One of the bound fields has the key and the target. -/
def Has (state : List FieldId × Binder) (key : String) (target : Target) : Prop :=
  ∃ fieldId ∈ state.1, state.2.tables.names key target fieldId = true

theorem Has.mono {state next : List FieldId × Binder} {key : String} {target : Target} (has : Has state key target)
    (ids : state.1 ⊆ next.1) (advances : state.2.Advances ctx next.2) : Has next key target := by
  obtain ⟨fieldId, member, named⟩ := has
  exact ⟨fieldId, ids member, advances.keeps.names named⟩

/-- What has been bound so far stands for fields of the document. -/
structure FieldsStand (ctx : BindContext) (depth levels : Nat) (before : Binder) (id : SelectionSetId) (merged : Merged)
    (state : List FieldId × Binder) : Prop where
  advances : before.Advances ctx state.2
  sit : AllSit id state
  stand : ∀ fieldId ∈ state.1, FieldStands ctx depth state.2.tables state.2.occurrences
    (Stands ctx depth state.2.tables state.2.occurrences levels) id merged fieldId
  covers : Covers ctx depth merged before.occurrences state.2.tables state.2.occurrences

theorem FieldsStand.push {levels : Nat} {before after : Binder} {state : List FieldId × Binder} {fieldId : FieldId}
    (stands : FieldsStand ctx depth levels before id merged state) (advances : state.2.Advances ctx after)
    (sits : Sits after.fields after.selectionSets.length id fieldId)
    (field : FieldStands ctx depth after.tables after.occurrences
      (Stands ctx depth after.tables after.occurrences levels) id merged fieldId)
    (covers : Covers ctx depth merged state.2.occurrences after.tables after.occurrences) :
    FieldsStand ctx depth levels before id merged (state.1 ++ [fieldId], after) where
  advances := stands.advances.trans advances
  sit := stands.sit.push advances sits
  stand := by
    refine forall_mem_append.mpr ⟨fun other member => ?_, forall_mem_singleton.mpr field⟩
    exact (stands.stand other member).mono advances.keeps advances.occurrences.subset fun _ _ _ inner =>
      inner.mono advances.keeps advances.occurrences.subset (Nat.zero_le _)
  covers := stands.covers.trans advances.keeps covers

section Merge
variable {levels : Nat}
  {merge : SelectionSetType → List (List Selection) → Binder → Except BindError (SelectionSetId × Binder)}
  (advance : ∀ type selectionSets binder output, merge type selectionSets binder = .ok output →
    binder.Advances ctx output.2 ∧ binder.selectionSets.length ≤ output.1 ∧ output.1 < output.2.selectionSets.length)
  (stand : ∀ type selectionSets binder output, DistinctKeys binder.responseKeys →
    merge type selectionSets binder = .ok output →
      Stands ctx depth output.2.tables output.2.occurrences levels output.1 ⟨type, selectionSets⟩ ∧
      Covers ctx depth ⟨type, selectionSets⟩ binder.occurrences output.2.tables output.2.occurrences)

include stand in
theorem bindFieldSelectionSet_stands {key : String} {definition : FieldDefinitionId}
    {output : Option SelectionSetId × Binder} (distinct : DistinctKeys binder.responseKeys)
    (ran : bindFieldSelectionSet ctx merge definition (merged.occurrences ctx depth key (.definition definition))
      binder = .ok output) :
    (∀ below, merged.below ctx depth key definition = some below → ∃ nested, output.1 = some nested ∧
      Stands ctx depth output.2.tables output.2.occurrences levels nested below) ∧
    Covers ctx depth merged binder.occurrences output.2.tables output.2.occurrences := by
  rw [bindFieldSelectionSet] at ran
  split at ran
  · next isLeaf =>
    cases ran
    exact ⟨fun below isBelow => by simp [Merged.below, isLeaf] at isBelow, fun _ => .inl⟩
  · next type isType =>
    obtain ⟨inner, innerRan, last⟩ := bind_eq_ok.mp ran
    cases last
    have isBelow : merged.below ctx depth key definition = some _ := congrArg (Option.map _) isType
    obtain ⟨stands, covers⟩ := stand _ _ _ _ distinct innerRan
    refine ⟨fun below same => ?_, covers.below isBelow⟩
    obtain rfl := Option.some.inj (isBelow.symm.trans same)
    exact ⟨_, rfl, stands⟩

include advance stand

theorem bindQueryField_stands {before : Binder} {state next : List FieldId × Binder}
    {field : (ResponseKey × FieldDefinitionId) × FieldEntry} {key : String}
    (stands : FieldsStand ctx depth levels before id merged state)
    (keys : DistinctKeys before.responseKeys) (held : Interned before.responseKeys key field.1.1)
    (faithful : field.2.Faithful ctx before.inputValues) (reserved : id < before.selectionSets.length)
    (occurrences : field.2.occurrences = merged.occurrences ctx depth key (.definition field.1.2))
    (ran : bindQueryField ctx merge id state field = .ok next) :
    FieldsStand ctx depth levels before id merged next ∧ Has next key (.definition field.1.2) ∧
      ∀ other target, Has state other target → Has next other target := by
  have distinct := stands.advances.distinctKeys keys
  have interned := held.mono stands.advances.keys
  have allocated := reserved.trans_le stands.advances.selectionSets
  have whole := bindQueryField_advances advance (faithful.mono stands.advances.values) allocated stands.sit ran
  obtain ⟨⟨responseKey, definitionId⟩, entry⟩ := field
  simp only [bindQueryField] at ran
  split at ran
  · cases ran
  · next occurrence first =>
    split at ran
    · cases ran
    · next boundResponseKey withPosition =>
      simp only [bind_eq_ok] at ran
      obtain ⟨⟨nested, inner⟩, innerRan, ⟨fieldId, after⟩, boundRan, last⟩ := ran
      cases last
      dsimp only at *
      obtain ⟨innerAdvances, range⟩ := bindFieldSelectionSet_advances advance innerRan
      have outer := bindField_advances
        ((faithful.mono stands.advances.values).mono innerAdvances.values) (firstOccurrence_some first)
        (fun nested same => ⟨allocated.trans_le (range nested same).1, (range nested same).2⟩) boundRan
      obtain ⟨rfl, logged, argumentIds, pushed⟩ := bindField_eq_ok boundRan
      dsimp only at *
      have named : after.tables.names key (.definition definitionId) inner.fields.length = true :=
        FieldTables.names_iff.mpr ⟨_, responseKey, pushed, rfl,
          congrArg some (asResponseKey_withPosition ((index_lt interned).trans_le distinct.small) withPosition),
          interned.mono whole.1.keys⟩
      obtain ⟨nestedStands, innerCovers⟩ :=
        bindFieldSelectionSet_stands stand distinct (occurrences ▸ innerRan)
      refine ⟨stands.push whole.1 outer.2 ⟨key, _, named, fun definition same => ⟨?_, fun below isBelow => ?_⟩⟩
        (innerCovers.trans outer.1.keeps fun other member => ?_), ⟨_, mem_append_right _ (mem_singleton_self _), named⟩,
        fun _ _ has => has.mono (subset_append_left _ _) whole.1⟩
      · rw [logged, ← occurrences]
        exact mem_append_right _ (mem_singleton_self _)
      · cases same
        obtain ⟨nestedId, rfl, inner⟩ := nestedStands below isBelow
        refine ⟨nestedId, congrArg (·.bind Field.selectionSetId) pushed,
          allocated.trans_le (range nestedId rfl).1, ?_⟩
        exact inner.mono outer.1.keeps outer.1.occurrences.subset (Nat.zero_le _)
      · rw [logged] at member
        refine (mem_push.mp member).imp_right ?_
        rintro rfl
        -- The field has an occurrence, which is in the selection set itself.
        obtain ⟨held, inEntry⟩ := exists_mem_of_ne_nil _ (firstOccurrence_some first)
        rw [occurrences] at inEntry
        obtain ⟨item, inFields, rfl, isField, _⟩ := Merged.mem_occurrences_definition.mp inEntry
        exact ⟨[], merged, rfl, item, inFields, ⟨_, isField⟩, by rwa [isField], by rw [isField, occurrences]⟩

end Merge

section Typenames
variable {levels : Nat} {before : Binder} {state next : List FieldId × Binder} {key : String}
  (stands : FieldsStand ctx depth levels before id merged state) (keys : DistinctKeys before.responseKeys)
include stands keys

theorem bindTypenameField_stands {responseKey : ResponseKey} {field : SelectionSetType × (Nat × Location)}
    (held : Interned before.responseKeys key responseKey)
    (ran : bindTypenameField id responseKey state field = .ok next) :
    FieldsStand ctx depth levels before id merged next ∧ Has next key (.typename field.1) ∧
      ∀ other target, Has state other target → Has next other target := by
  have distinct := stands.advances.distinctKeys keys
  have interned := held.mono stands.advances.keys
  have advances : state.2.Advances ctx next.2 := (bindTypenameField_advances stands.sit ran).1
  rw [bindTypenameField] at ran
  split at ran
  · cases ran
  · next boundResponseKey withPosition =>
    cases ran
    have named : (state.2.pushField (.typeName ⟨field.1, boundResponseKey, field.2.2, id⟩)).2.tables.names key
        (.typename field.1) state.2.fields.length = true :=
      FieldTables.names_iff.mpr ⟨_, responseKey, getElem?_concat_length, rfl,
        congrArg some (asResponseKey_withPosition ((index_lt interned).trans_le distinct.small) withPosition),
        interned⟩
    refine ⟨stands.push advances ⟨_, getElem?_concat_length, rfl, by simp [Field.selectionSetId]⟩
      ⟨key, _, named, fun _ same => by cases same⟩ fun _ => .inl,
      ⟨_, mem_append_right _ (mem_singleton_self _), named⟩, fun _ _ has =>
        has.mono (subset_append_left _ _) advances⟩

theorem bindTypenameFields_stands {group : ResponseKey × List (SelectionSetType × (Nat × Location))}
    (held : Interned before.responseKeys key group.1)
    (ran : bindTypenameFields merged.type id state group = .ok next) :
    FieldsStand ctx depth levels before id merged next ∧
      (∀ type ∈ group.2.map Prod.fst, ∃ given, merged.answers given (.typename type) = true ∧ Has next key given) ∧
      ∀ other target, Has state other target → Has next other target := by
  have all (ran : group.2.foldlM (bindTypenameField id group.1) state = .ok next) :
      FieldsStand ctx depth levels before id merged next ∧
      (∀ type ∈ group.2.map Prod.fst, ∃ given, merged.answers given (.typename type) = true ∧ Has next key given) ∧
      ∀ other target, Has state other target → Has next other target := by
    obtain ⟨⟨bound, kept⟩, own, _⟩ := foldlM_forall ran
      (fun output => FieldsStand ctx depth levels before id merged output ∧
        ∀ other target, Has state other target → Has output other target)
      (fun output field => Has output key (.typename field.1)) ⟨stands, fun _ _ has => has⟩
      fun field _ middle after so_far stepped => by
        obtain ⟨bound, own, kept⟩ := bindTypenameField_stands so_far.1 keys held stepped
        exact ⟨⟨bound, fun other target => kept other target ∘ so_far.2 other target⟩, own, fun _ => kept _ _⟩
    refine ⟨bound, fun type listed => ?_, kept⟩
    obtain ⟨field, member, rfl⟩ := mem_map.mp listed
    exact ⟨_, by simp [Merged.answers], own field member⟩
  rw [bindTypenameFields] at ran
  split at ran
  · next general found =>
    split at ran
    · have isGeneral : general.1 = merged.type := by simpa using find?_some found
      obtain ⟨bound, own, kept⟩ := bindTypenameField_stands stands keys held ran
      exact ⟨bound, fun type _ => ⟨.typename general.1, by simp [Merged.answers, isGeneral], own⟩, kept⟩
    · exact all ran
  · exact all ran

end Typenames
end Fields

theorem registerMerged_collects {levels : Nat} (le : levels + 1 ≤ depth) {merged : Merged} {binder : Binder}
    {state : SelectionSetBinder} (distinct : DistinctKeys binder.responseKeys)
    (ran : merged.selectionSets.foldlM (fun state selectionSet =>
      registerSelectionSetFields ctx (levels + 1) merged.type selectionSet {} state) { binder } = .ok state) :
    Registers ctx { binder } state ∧ state.Collects (merged.fields ctx depth) := by
  have run (selectionSets : List (List Selection)) (before after : SelectionSetBinder) (items : List SpreadField)
      (ran : selectionSets.foldlM (fun state selectionSet =>
        registerSelectionSetFields ctx (levels + 1) merged.type selectionSet {} state) before = .ok after)
      (collects : before.Collects items) : Registers ctx before after ∧
        after.Collects (items ++ selectionSets.flatMap (spreadFragments ctx depth merged.type [])) := by
    induction selectionSets generalizing before items with
    | nil =>
      cases ran
      exact ⟨.refl _, by simpa using collects⟩
    | cons selectionSet rest ih =>
      obtain ⟨middle, registerRan, restRan⟩ := bind_eq_ok.mp ran
      have registers := registerSelectionSetFields_registers _ _ _ {} _ _ .nil registerRan
      have collected := registerSelectionSetFields_collects le _ _ {} _ _ _ collects registerRan
      obtain ⟨others, last⟩ := ih middle _ restRan collected
      exact ⟨registers.trans others, by rwa [flatMap_cons, ← append_assoc]⟩
  have empty : SelectionSetBinder.Collects { binder } [] := by
    constructor <;> simp [distinct]
  exact run merged.selectionSets { binder } state [] ran empty

/-- A bound selection set stands for the merged ones it was bound from, by induction on the depth. -/
theorem bindMergedSelectionSets_stands {levels : Nat} (le : levels ≤ depth) (type : SelectionSetType)
    (selectionSets : List (List Selection)) (binder : Binder) (output : SelectionSetId × Binder)
    (distinct : DistinctKeys binder.responseKeys)
    (ran : bindMergedSelectionSets ctx levels type selectionSets binder = .ok output) :
    Stands ctx depth output.2.tables output.2.occurrences levels output.1 ⟨type, selectionSets⟩ ∧
      Covers ctx depth ⟨type, selectionSets⟩ binder.occurrences output.2.tables output.2.occurrences := by
  induction levels generalizing type selectionSets binder output with
  | zero => cases ran
  | succ levels ih =>
    simp only [bindMergedSelectionSets, bind_eq_ok] at ran
    obtain ⟨state, registerRan, bound, fieldsRan, withTypenames, typenamesRan, last⟩ := ran
    cases last
    let merged : Merged := ⟨type, selectionSets⟩
    let id := state.binder.selectionSets.length
    let reserved : Binder := { state.binder with selectionSets := state.binder.selectionSets ++ [[]] }
    obtain ⟨registers, collected⟩ : Registers ctx { binder } state ∧ state.Collects (merged.fields ctx depth) :=
      registerMerged_collects le distinct registerRan
    have faithful := registers.faithful (by simp)
    have start : FieldsStand ctx depth levels reserved id merged ([], reserved) :=
      ⟨(Binder.Preserves.refl _).advances, by simp [AllSit], by simp, fun _ => .inl⟩
    obtain ⟨fields, query, _⟩ := foldlM_forall fieldsRan (FieldsStand ctx depth levels reserved id merged)
      (fun output entry => ∀ key, Interned reserved.responseKeys key entry.1.1 → Has output key (.definition entry.1.2))
      start fun entry member middle after so_far stepped => by
        obtain ⟨key, interned⟩ := collected.keyed entry member
        obtain ⟨bound, own, kept⟩ := bindQueryField_stands (bindMergedSelectionSets_advances levels)
          (ih (Nat.le_of_succ_le le)) so_far collected.distinct interned (faithful entry member)
            (by simp [reserved, id])
          (collected.occurrences entry member key interned) stepped
        refine ⟨bound, fun other otherInterned => ?_, fun other has key interned => kept _ _ (has key interned)⟩
        obtain rfl := interned.key_eq otherInterned
        exact own
    obtain ⟨⟨bound, kept⟩, typenames, _⟩ := foldlM_forall typenamesRan
      (fun output => FieldsStand ctx depth levels reserved id merged output ∧
        ∀ key target, Has bound key target → Has output key target)
      (fun output group => ∀ key, Interned reserved.responseKeys key group.1 → ∀ narrow ∈ group.2.map Prod.fst,
        ∃ given, merged.answers given (.typename narrow) = true ∧ Has output key given)
      ⟨fields, fun _ _ has => has⟩ fun group member middle after so_far stepped => by
        obtain ⟨key, interned⟩ := collected.typenamesKeyed group member
        obtain ⟨bound, own, kept⟩ := bindTypenameFields_stands so_far.1 collected.distinct interned stepped
        refine ⟨⟨bound, fun key target => kept key target ∘ so_far.2 key target⟩, fun other otherInterned => ?_,
          fun other has key interned narrow listed => (has key interned narrow listed).imp fun _ =>
            .imp_right (kept _ _)⟩
        obtain rfl := interned.key_eq otherInterned
        exact own
    have keeps : withTypenames.2.tables.Keeps (id + 1) { withTypenames.2.tables with
        selectionSets := withTypenames.2.selectionSets.set id
          (withTypenames.1.mergeSort (fieldLe ctx.schema withTypenames.2)) } :=
      ⟨prefix_rfl, prefix_rfl, fun other _ later found => (getElem?_set_ne (Nat.ne_of_lt later)).trans found⟩
    have allocated : id < withTypenames.2.selectionSets.length :=
      Nat.lt_of_lt_of_le (by simp [reserved, id]) bound.advances.selectionSets
    refine ⟨⟨_, getElem?_set_self allocated, fun item member => ?_, fun fieldId member => ?_⟩, ?_⟩
    · have answered : ∃ given, merged.answers given item.target = true ∧ Has withTypenames item.key given := by
        cases isTarget : item.target with
        | definition definition =>
          obtain ⟨entry, inFields, interned, rfl⟩ := collected.present item member definition isTarget
          exact ⟨_, by simp [Merged.answers], kept _ _ (query entry inFields item.key interned)⟩
        | typename narrow =>
          obtain ⟨responseKey, types, interned, found, listed⟩ := collected.typenames item member narrow isTarget
          exact typenames (responseKey, types) (mem_of_lookup_eq_some found) item.key interned narrow listed
      obtain ⟨given, answers, fieldId, listed, named⟩ := answered
      exact ⟨fieldId, mem_mergeSort.mpr listed, given, answers, keeps.names named⟩
    · exact (bound.stand fieldId (mem_mergeSort.mp member)).mono keeps (Subset.refl _) fun _ _ larger inner =>
        inner.mono keeps (Subset.refl _) larger
    · have same : state.binder.occurrences = binder.occurrences := by rw [registers.same]
      exact same ▸ bound.covers.trans keeps fun _ => .inl

variable {rootObjectId : ObjectDefinitionId} {selectionSet : List Selection} {operation : BoundOperation}

theorem bindOperation_stands (ran : bindOperation ctx depth rootObjectId selectionSet = .ok operation) :
    Stands ctx depth operation.tables operation.occurrences depth operation.rootSelectionSetId
      (.root rootObjectId selectionSet) ∧
    Covers ctx depth (.root rootObjectId selectionSet) [] operation.tables operation.occurrences := by
  obtain ⟨⟨id, binder⟩, mergeRan, last⟩ := bind_eq_ok.mp ran
  cases last
  obtain ⟨stands, covers⟩ := bindMergedSelectionSets_stands le_rfl _ _ _ _ ⟨nodup_nil, by simp⟩ mergeRan
  have preserves := generateModifiersForRootObject_preserves ctx rootObjectId binder
  have advances : binder.Advances ctx (binder.generateModifiersForRootObject ctx rootObjectId).2 := preserves.advances
  have keeps := advances.keeps
  rw [← preserves.occurrences] at stands covers
  exact ⟨stands.mono keeps (Subset.refl _) (Nat.zero_le _), covers.trans keeps fun _ => .inl⟩

/-! ## Looking fields up -/

theorem FieldTables.names_unique {tables : FieldTables} {key other : String} {target given : Target}
    {fieldId : FieldId} (first : tables.names key target fieldId = true)
    (second : tables.names other given fieldId = true) : key = other ∧ target = given := by
  obtain ⟨field, responseKey, found, isTarget, isKey, interned⟩ := names_iff.mp first
  obtain ⟨field', responseKey', found', isTarget', isKey', interned'⟩ := names_iff.mp second
  obtain rfl := Option.some.inj (found.symm.trans found')
  obtain rfl := Option.some.inj (isKey.symm.trans isKey')
  exact ⟨interned.key_eq interned', Option.some.inj (isTarget.symm.trans isTarget')⟩

theorem Merged.fields_of_follow_empty {type : SelectionSetType} {path : List (String × FieldDefinitionId)}
    {inner : Merged} (follows : Merged.follow ctx depth ⟨type, []⟩ path = some inner) :
    inner.fields ctx depth = [] := by
  induction path generalizing type with
  | nil =>
    cases follows
    rfl
  | cons step rest ih =>
    obtain ⟨below, isBelow, follows⟩ := Option.bind_eq_some_iff.mp follows
    obtain ⟨narrow, _, rfl⟩ := Option.map_eq_some_iff.mp isBelow
    exact ih follows

section Lookup
variable {tables : FieldTables} {log : List (FieldId × List Occurrence)} {levels : Nat} {id : SelectionSetId}
  {merged : Merged}

/-- The field found for a definition is one that stands for its occurrences. -/
theorem Stands.field? {item : SpreadField} {definition : FieldDefinitionId}
    (stands : Stands ctx depth tables log (levels + 1) id merged) (member : item ∈ merged.fields ctx depth)
    (isField : item.target = .definition definition) :
    ∃ fieldId, tables.field? id item.key (.definition definition) = some fieldId ∧
      (fieldId, merged.occurrences ctx depth item.key (.definition definition)) ∈ log ∧
      ∀ below, merged.below ctx depth item.key definition = some below → ∃ nested,
        (tables.fields[fieldId]?).bind Field.selectionSetId = some nested ∧
          Stands ctx depth tables log levels nested below := by
  obtain ⟨fieldIds, found, complete, each⟩ := stands
  obtain ⟨held, inSet, given, answers, named⟩ := complete item member
  obtain rfl : given = .definition definition := by
    rw [isField] at answers
    simpa [Merged.answers] using answers
  obtain ⟨fieldId, isFound⟩ := Option.isSome_iff_exists.mp (find?_isSome.mpr ⟨held, inSet, named⟩)
  obtain ⟨key, target, ownNamed, stands⟩ := each fieldId (mem_of_find?_eq_some isFound)
  obtain ⟨rfl, rfl⟩ := FieldTables.names_unique ownNamed (find?_some isFound)
  obtain ⟨logged, nested⟩ := stands definition rfl
  refine ⟨fieldId, by rw [FieldTables.field?, found]; exact isFound, logged, fun below isBelow => ?_⟩
  obtain ⟨inner, isNested, _, stands⟩ := nested below isBelow
  exact ⟨inner, isNested, stands⟩

/-- The selection set at the end of a path stands for what is merged there. -/
theorem Stands.selectionSetAt {path : List (String × FieldDefinitionId)} {inner : Merged}
    (stands : Stands ctx depth tables log levels id merged) (follows : merged.follow ctx depth path = some inner)
    (present : inner.fields ctx depth ≠ []) : ∃ nested below, tables.selectionSetAt id path = some nested ∧
      Stands ctx depth tables log (below + 1) nested inner := by
  induction path generalizing levels id merged with
  | nil =>
    cases follows
    cases levels with
    | zero => exact stands.elim
    | succ levels => exact ⟨id, levels, rfl, stands⟩
  | cons step rest ih =>
    obtain ⟨key, definition⟩ := step
    obtain ⟨below, isBelow, follows⟩ := Option.bind_eq_some_iff.mp follows
    cases levels with
    | zero => exact stands.elim
    | succ levels =>
      obtain ⟨type, _, rfl⟩ := Option.map_eq_some_iff.mp isBelow
      obtain ⟨occurrence, occurs⟩ : ∃ occurrence,
          occurrence ∈ merged.occurrences ctx depth key (.definition definition) := by
        refine exists_mem_of_ne_nil _ fun none => present ?_
        rw [none] at follows
        exact Merged.fields_of_follow_empty follows
      obtain ⟨item, inFields, rfl, isField, _⟩ := Merged.mem_occurrences_definition.mp occurs
      obtain ⟨fieldId, found, _, nested⟩ := stands.field? inFields isField
      obtain ⟨nestedId, isNested, nestedStands⟩ := nested _ isBelow
      obtain ⟨field, held, isSet⟩ := Option.bind_eq_some_iff.mp isNested
      obtain ⟨inner, levels, reached, stands⟩ := ih nestedStands follows
      refine ⟨inner, levels, ?_, stands⟩
      simp only [FieldTables.selectionSetAt, found, held, isSet, Option.bind_eq_bind, Option.bind_some, reached]

theorem Stands.typename {item : SpreadField} {type : SelectionSetType}
    (stands : Stands ctx depth tables log (levels + 1) id merged) (member : item ∈ merged.fields ctx depth)
    (isTypename : item.target = .typename type) :
    ∃ fieldId given, tables.fieldFor merged.type id item.key (.typename type) = some fieldId ∧
      tables.names item.key (.typename given) fieldId = true := by
  obtain ⟨fieldIds, found, complete, _⟩ := stands
  obtain ⟨held, inSet, given, answers, named⟩ := complete item member
  have lookup (narrow : SelectionSetType) : tables.field? id item.key (.typename narrow) =
      fieldIds.find? (tables.names item.key (.typename narrow)) := by
    rw [FieldTables.field?, found]
    rfl
  rw [FieldTables.fieldFor, lookup, lookup]
  cases own : fieldIds.find? (tables.names item.key (.typename type)) with
  | some fieldId => exact ⟨fieldId, type, rfl, find?_some own⟩
  | none =>
    rw [isTypename] at answers
    simp only [Merged.answers, Bool.or_eq_true, decide_eq_true_eq] at answers
    rcases answers with rfl | rfl
    · exact absurd named (find?_eq_none.mp own held inSet)
    · obtain ⟨fieldId, isFound⟩ := Option.isSome_iff_exists.mp (find?_isSome.mpr ⟨held, inSet, named⟩)
      exact ⟨fieldId, merged.type, isFound, find?_some isFound⟩

end Lookup
end Binding
end Grafbase.Operation
