import Grafbase.Foundation.Entries
import Grafbase.Response.Propagation

/-! The response as a structure of named slots.

When the edges of each object are distinct, an edge names one slot of its
object and an index one slot of its part. This module says how lookups change
when a slot is set to null and when an object receives new fields, which is all
that happens to a response after its parts are written.
-/

set_option autoImplicit false

namespace Grafbase.Response
open Foundation List Option

namespace ResponseObject

def get? (object : ResponseObject) (edge : ResponseEdge) : Option ResponseValue :=
  (object.fields.find? (·.edge = edge)).map (·.value)

/-- Edges are keys, each used once. -/
structure Distinct (object : ResponseObject) : Prop where
  nodup : (object.fields.map (·.edge)).Nodup
  keys : ∀ field ∈ object.fields, field.edge.asResponseKey.isSome

variable {object : ResponseObject} {edge : ResponseEdge} {value : ResponseValue} {fields : List ResponseObjectField}

theorem Distinct.get?_eq_some (distinct : object.Distinct) :
    object.get? edge = some value ↔ ∃ field ∈ object.fields, field.edge = edge ∧ field.value = value := by
  simp only [get?, map_eq_some_iff, find?_eq_some_iff_of_nodup distinct.nodup, and_assoc]

theorem Distinct.fieldPosition (distinct : object.Distinct) (found : object.get? edge = some value) :
    ∃ position field, object.fieldPosition edge = some position ∧ object.fields[position]? = some field ∧
      field.edge = edge ∧ field.value = value := by
  obtain ⟨field, member, rfl, rfl⟩ := distinct.get?_eq_some.mp found
  obtain ⟨position, other, search, atOther, same⟩ := fieldPosition_of_mem member
  obtain rfl := inj_on_of_nodup_map distinct.nodup (mem_of_getElem? atOther) member same
  exact ⟨position, other, search, atOther, rfl, rfl⟩

theorem set_edges (object : ResponseObject) (position : Nat) (value : ResponseValue) :
    (object.set position value).fields.map (·.edge) = object.fields.map (·.edge) := by
  apply ext_getElem?
  intro i
  simp only [set, getElem?_map, getElem?_modify]
  split <;> simp [Option.map_map, Function.comp_def]

theorem Distinct.set (distinct : object.Distinct) (position : Nat)
    (value : ResponseValue) : (object.set position value).Distinct where
  nodup := by rw [set_edges]; exact distinct.nodup
  keys field member := by
    have inEdges : field.edge ∈ object.fields.map (·.edge) := set_edges object position value ▸ mem_map_of_mem member
    obtain ⟨old, inOld, same⟩ := mem_map.mp inEdges
    rw [← same]
    exact distinct.keys old inOld

theorem Distinct.get?_set (distinct : object.Distinct) {position : Nat}
    {field : ResponseObjectField} (atField : object.fields[position]? = some field) (value : ResponseValue)
    (edge : ResponseEdge) :
    (object.set position value).get? edge = if edge = field.edge then some value else object.get? edge := by
  have atPosition : (object.set position value).fields[position]? = some { field with value } := by
    simp [ResponseObject.set, atField]
  split
  · next same =>
    refine (distinct.set position value).get?_eq_some.mpr ⟨_, mem_of_getElem? atPosition, same.symm, rfl⟩
  · next different =>
    -- The fields before and after the changed one are searched as before.
    obtain ⟨bound, isField⟩ := List.getElem?_eq_some_iff.mp atField
    have whole : object.fields = object.fields.take position ++ field :: object.fields.drop (position + 1) := by
      rw [← isField, ← drop_eq_getElem_cons bound, take_append_drop]
    have changed : (object.set position value).fields =
        object.fields.take position ++ { field with value } :: object.fields.drop (position + 1) := by
      rw [← isField]
      exact modify_eq_take_cons_drop bound
    rw [get?, get?, changed]
    conv_rhs => rw [whole]
    simp [find?_append, Ne.symm different]

theorem distinct_extend_iff :
    (object.extend fields).Distinct ↔ (object.fields.map (·.edge) ++ fields.map (·.edge)).Nodup ∧
      ∀ edge ∈ object.fields.map (·.edge) ++ fields.map (·.edge), edge.asResponseKey.isSome := by
  have perm := (mergeSort_perm (object.fields ++ fields) ResponseObjectField.le).map (·.edge)
  rw [map_append] at perm
  constructor
  · intro distinct
    refine ⟨perm.nodup_iff.mp distinct.nodup, fun edge member => ?_⟩
    obtain ⟨field, inFields, rfl⟩ := mem_map.mp (perm.mem_iff.mpr member)
    exact distinct.keys field inFields
  · rintro ⟨nodup, keys⟩
    refine ⟨perm.nodup_iff.mpr nodup, fun field member => ?_⟩
    exact keys field.edge (perm.mem_iff.mp (mem_map_of_mem member))

theorem get?_extend (extended : (object.extend fields).Distinct) :
    (object.extend fields).get? edge = (object.get? edge).or ((fields.find? (·.edge = edge)).map (·.value)) := by
  have here {all : List ResponseObjectField} {field : ResponseObjectField}
    (found : all.find? (·.edge = edge) = some field)
      (inside : ∀ field ∈ all, field ∈ (object.extend fields).fields) :
        (object.extend fields).get? edge = some field.value :=
    extended.get?_eq_some.mpr ⟨field, inside field (mem_of_find?_eq_some found), by simpa using find?_some found, rfl⟩
  have absent {all : List ResponseObjectField} (missed : all.find? (·.edge = edge) = none) :
    ∀ field ∈ all, field.edge ≠ edge :=
    fun field member => by simpa using find?_eq_none.mp missed field member
  conv_rhs => rw [get?]
  cases old : object.fields.find? (·.edge = edge) with
  | some field => exact here old fun field member => mem_extend.mpr (.inl member)
  | none =>
    cases new : fields.find? (·.edge = edge) with
    | some field => exact here new fun field member => mem_extend.mpr (.inr member)
    | none =>
      rw [get?, find?_eq_none.mpr]
      · rfl
      · intro field member
        simpa using (mem_extend.mp member).elim (absent old field) (absent new field)

theorem extend_edges {other : ResponseObject} (same : object.fields.map (·.edge) = other.fields.map (·.edge)) :
    (object.extend fields).fields.map (·.edge) = (other.extend fields).fields.map (·.edge) := by
  have sorted (all : List ResponseObjectField) : (all.mergeSort ResponseObjectField.le).map (·.edge) =
      (all.map (·.edge)).mergeSort fun first second => first.bits.toNat ≤ second.bits.toNat :=
    map_mergeSort fun _ _ _ _ => rfl
  rw [extend, extend, new, new, sorted, sorted, map_append, map_append, same]

end ResponseObject

namespace ResponseBuilder
variable (builder : ResponseBuilder)

/-- The value under exactly this edge or at this index. -/
def lookup (cursor : Cursor) (edge : ResponseEdge) : Option ResponseValue :=
  match cursor with
  | .object id => (builder.object? id).bind (·.get? edge)
  | .list id =>
    match edge.unpack with
    | .index index => (builder.list? id).bind (·[index]?)
    | _ => none

/-- A place that holds a value. -/
inductive Slot where
  | field (id : ResponseObjectId) (edge : ResponseEdge)
  | item (partId index : Nat)
  deriving DecidableEq

def slot (cursor : Cursor) (edge : ResponseEdge) : Option Slot :=
  match cursor, edge.unpack with
  | .object id, .boundResponseKey _ | .object id, .extraFieldResponseKey _ => some (.field id edge)
  | .list id, .index index => some (.item id.partId (id.offset + index))
  | _, _ => none

/-- Closed, and each edge names one field of its object. -/
structure WellFormed : Prop where
  closed : builder.Closed
  distinct : ∀ id object, builder.object? id = some object → object.Distinct

theorem object?_modifyObject (id other : ResponseObjectId)
    (change : ResponseObject → ResponseObject) : (builder.modifyObject id change).object? other =
      if other = id then (builder.object? other).map change else builder.object? other := by
  simp only [modifyObject, modifyPart, object?, getElem?_modify]
  by_cases samePart : id.partId = other.partId
  · cases builder.parts[other.partId]? with
    | none => simp
    | some part =>
      simp only [samePart, bind_eq_bind, bind_some, if_true]
      by_cases sameIndex : id.index = other.index
      · have same : other = id := by cases other; cases id; simp_all
        simp [same]
      · have different : other ≠ id := fun same => sameIndex (same ▸ rfl)
        simp [sameIndex, different]
  · have different : other ≠ id := fun same => samePart (same ▸ rfl)
    simp [samePart, different]

theorem list?_modifyObject (id : ResponseObjectId) (other : ResponseListId)
    (change : ResponseObject → ResponseObject) :
    (builder.modifyObject id change).list? other = builder.list? other := by
  simp only [modifyObject, modifyPart, list?, getElem?_modify]
  split
  · cases builder.parts[other.partId]? <;> simp
  · simp

theorem object?_setItem (id : ResponseListId) (index : Nat) (other : ResponseObjectId) :
    (builder.setNull (.listItem id index)).object? other = builder.object? other := by
  simp only [setNull, modifyPart, object?, getElem?_modify]
  split
  · cases builder.parts[other.partId]? <;> simp
  · simp

theorem item?_eq (id : ResponseListId) (i : Nat) :
    (builder.list? id).bind (·[i]?) = (builder.parts[id.partId]?).bind fun part =>
      if id.offset + id.length ≤ part.lists.length ∧ i < id.length then part.lists[id.offset + i]? else none := by
  rw [list?, bind_eq_bind, bind_assoc]
  congr 1
  funext part
  by_cases inside : id.offset + id.length ≤ part.lists.length
  · simp [inside, getElem?_take]
  · simp [inside]

theorem item?_setItem (id other : ResponseListId) (index i : Nat) :
    ((builder.setNull (.listItem id index)).list? other).bind (·[i]?) =
      if id.partId = other.partId ∧ id.offset + index = other.offset + i then
        ((builder.list? other).bind (·[i]?)).map fun _ => .null
      else (builder.list? other).bind (·[i]?) := by
  simp only [item?_eq, setNull, modifyPart, getElem?_modify]
  by_cases samePart : id.partId = other.partId
  · cases builder.parts[other.partId]? with
    | none => simp
    | some part =>
      simp only [samePart, if_true, true_and, Option.map_some, Option.bind_some, length_set,
        getElem?_set, Option.map_eq_map]
      by_cases sameItem : id.offset + index = other.offset + i
      · simp only [sameItem, if_true]
        split
        · next inside =>
          have bound : other.offset + i < part.lists.length := by omega
          simp [bound]
        · rfl
      · simp [sameItem]
  · simp [samePart]

/-- The id of a value that a walk recorded still denotes its slot. -/
def Names : ResponseValueId → Slot → Prop
  | .objectField id position, .field other edge => id = other ∧ ∃ object field,
      builder.object? id = some object ∧ object.fields[position]? = some field ∧ field.edge = edge
  | .listItem id index, .item partId item => id.partId = partId ∧ id.offset + index = item
  | _, _ => False

variable {builder} {edge : ResponseEdge} {value : ResponseValue} {id : ResponseValueId}

theorem slot_field {id : ResponseObjectId} (key : edge.asResponseKey.isSome) :
    slot (.object id) edge = some (.field id edge) := by
  unfold slot ResponseEdge.asResponseKey at *
  cases unpacked : edge.unpack <;> simp_all

theorem slot_object_eq {id other : ResponseObjectId} {found : ResponseEdge}
    (same : slot (.object id) edge = some (.field other found)) : id = other ∧ edge = found := by
  unfold slot at same
  split at same <;> simp_all

theorem slot_eq_slot_object {cursor : Cursor} {id : ResponseObjectId} {found : ResponseEdge} {place : Slot}
    (atCursor : slot cursor edge = some place) (atObject : slot (.object id) found = some place) :
    cursor = .object id ∧ edge = found := by
  unfold slot at atCursor atObject
  split at atObject <;> split at atCursor <;> simp_all <;> grind

/-- What an edge leads to is what the walk of the source finds, under an id that names its slot. -/
theorem WellFormed.step_of_lookup (wf : builder.WellFormed) {cursor : Cursor}
    (found : builder.lookup cursor edge = some value) :
    ∃ id place, builder.step cursor edge = .ok (some (id, value)) ∧ slot cursor edge = some place ∧
      builder.Names id place := by
  cases cursor with
  | object id =>
    obtain ⟨object, atObject, got⟩ := bind_eq_some_iff.mp found
    have distinct := wf.distinct id object atObject
    obtain ⟨position, field, search, atField, edges, rfl⟩ := distinct.fieldPosition got
    have key := distinct.keys field (mem_of_getElem? atField)
    rw [edges] at key
    refine ⟨.objectField id position, .field id edge, ?_, slot_field key, rfl, object, field, atObject, atField, edges⟩
    have stepped : builder.fieldStep id edge = .ok (some (.objectField id position, field.value)) := by
      simp [fieldStep, atObject, search, atField]
    unfold step ResponseEdge.asResponseKey at *
    cases unpacked : edge.unpack <;> simp_all
  | list id =>
    unfold lookup at found
    cases unpacked : edge.unpack with
    | index i =>
      rw [unpacked] at found
      obtain ⟨items, atItems, atItem⟩ := bind_eq_some_iff.mp found
      refine ⟨.listItem id i, .item id.partId (id.offset + i), ?_, by simp [slot, unpacked], rfl, rfl⟩
      simp [step, unpacked, itemStep, atItems, atItem]
    | boundResponseKey key | extraFieldResponseKey key => simp [unpacked] at found

theorem setNull_root (builder : ResponseBuilder) (id : ResponseValueId) : (builder.setNull id).root = builder.root := by
  cases id <;> rfl

theorem setNull_errors (builder : ResponseBuilder) (id : ResponseValueId) :
    (builder.setNull id).errors = builder.errors := by
  cases id <;> rfl

/-- Setting a slot to null changes that slot and no other. -/
theorem WellFormed.lookup_setNull (wf : builder.WellFormed) {place : Slot}
    (names : builder.Names id place) (cursor : Cursor) (edge : ResponseEdge) : (builder.setNull id).lookup cursor edge =
      if slot cursor edge = some place then (builder.lookup cursor edge).map fun _ => .null
      else builder.lookup cursor edge := by
  cases id with
  | objectField id position =>
    cases place with
    | item => exact names.elim
    | field other named =>
      obtain ⟨rfl, object, field, atObject, atField, rfl⟩ := names
      have distinct := wf.distinct id object atObject
      have key := distinct.keys field (mem_of_getElem? atField)
      cases cursor with
      | object target =>
        simp only [lookup, setNull, object?_modifyObject]
        by_cases same : target = id
        · subst same
          rw [if_pos rfl, atObject]
          simp only [map_some, bind_some, distinct.get?_set atField]
          by_cases edges : edge = field.edge
          · subst edges
            rw [if_pos rfl, if_pos (slot_field key)]
            have got : object.get? field.edge = some field.value :=
              distinct.get?_eq_some.mpr ⟨field, mem_of_getElem? atField, rfl, rfl⟩
            simp [got]
          · rw [if_neg edges, if_neg fun slots => edges (slot_object_eq slots).2]
        · rw [if_neg same, if_neg fun slots => same (slot_object_eq slots).1]
      | list target =>
        have apart : slot (.list target) edge ≠ some (.field id field.edge) := by
          unfold slot
          split <;> simp_all
        rw [if_neg apart]
        simp only [lookup, setNull, list?_modifyObject]
  | listItem id index =>
    cases place with
    | field => exact names.elim
    | item partId item =>
      obtain ⟨rfl, rfl⟩ := names
      cases cursor with
      | object target =>
        have apart : slot (.object target) edge ≠ some (.item id.partId (id.offset + index)) := by
          unfold slot
          split <;> simp_all
        rw [if_neg apart]
        simp only [lookup, object?_setItem]
      | list target =>
        cases unpacked : edge.unpack with
        | index i =>
          simp only [lookup, slot, unpacked, item?_setItem, some.injEq, Slot.item.injEq]
          simp only [eq_comm]
        | boundResponseKey key | extraFieldResponseKey key => simp [lookup, unpacked]

/-- A value that some object or list of the response holds. -/
inductive Stored (builder : ResponseBuilder) : ResponseValue → Prop where
  | field {id : ResponseObjectId} {object : ResponseObject} {field : ResponseObjectField} :
      builder.object? id = some object → field ∈ object.fields → Stored builder field.value
  | item {id : ResponseListId} {i : Nat} {value : ResponseValue} :
      (builder.list? id).bind (·[i]?) = some value → Stored builder value

theorem closed_of_stored (root : ∀ root, builder.root = some root → builder.Valid (.object root.1))
    (safe : ∀ value, builder.Stored value → ∀ cursor, value.cursor = some cursor → builder.Valid cursor) :
    builder.Closed where
  root := root
  fields _ _ found field member := safe field.value (.field found member)
  items id items found value member := by
    obtain ⟨i, atItem⟩ := getElem?_of_mem member
    have atIndex : (builder.list? id).bind (·[i]?) = some value := by simp [found, atItem]
    exact safe value (.item atIndex)

theorem Closed.stored (closed : builder.Closed) (stored : builder.Stored value) :
    ∀ cursor, value.cursor = some cursor → builder.Valid cursor := by
  cases stored with
  | field found member => exact closed.fields _ _ found _ member
  | item found =>
    obtain ⟨items, atItems, atItem⟩ := bind_eq_some_iff.mp found
    exact closed.items _ items atItems _ (mem_of_getElem? atItem)

theorem valid_setNull (builder : ResponseBuilder) (id : ResponseValueId) (cursor : Cursor) :
    (builder.setNull id).Valid cursor ↔ builder.Valid cursor := by
  cases id with
  | objectField id position =>
    cases cursor with
    | object target =>
      simp only [Valid, setNull, object?_modifyObject]
      split <;> simp
    | list target => simp only [Valid, setNull, list?_modifyObject]
  | listItem id index =>
    cases cursor with
    | object target => simp only [Valid, object?_setItem]
    | list target =>
      simp only [Valid, setNull, modifyPart, list?, getElem?_modify]
      cases builder.parts[target.partId]? with
      | none => simp
      | some part => by_cases same : id.partId = target.partId <;> simp [same]

theorem stored_setNull (stored : (builder.setNull id).Stored value) : value = .null ∨ builder.Stored value := by
  cases stored with
  | @field target object field found member =>
    cases id with
    | objectField id position =>
      rw [setNull, object?_modifyObject] at found
      split at found
      · obtain ⟨old, atOld, rfl⟩ := map_eq_some_iff.mp found
        obtain ⟨i, atField⟩ := getElem?_of_mem member
        simp only [ResponseObject.set, getElem?_modify] at atField
        obtain ⟨before, atBefore, changed⟩ := map_eq_some_iff.mp atField
        split at changed
        · exact .inl (by rw [← changed])
        · exact .inr (changed ▸ .field atOld (mem_of_getElem? atBefore))
      · exact .inr (.field found member)
    | listItem id index =>
      rw [object?_setItem] at found
      exact .inr (.field found member)
  | @item target i _ found =>
    cases id with
    | objectField id position =>
      rw [setNull, list?_modifyObject] at found
      exact .inr (.item found)
    | listItem id index =>
      rw [item?_setItem] at found
      split at found
      · obtain ⟨_, _, rfl⟩ := map_eq_some_iff.mp found
        exact .inl rfl
      · exact .inr (.item found)

theorem WellFormed.setNull (wf : builder.WellFormed) (id : ResponseValueId) : (builder.setNull id).WellFormed where
  closed := by
    apply closed_of_stored
    · intro root rooted
      rw [setNull_root] at rooted
      exact (valid_setNull builder id _).mpr (wf.closed.root root rooted)
    · intro value stored cursor kind
      rcases stored_setNull stored with rfl | old
      · cases kind
      · exact (valid_setNull builder id _).mpr (wf.closed.stored old cursor kind)
  distinct target object found := by
    cases id with
    | objectField id position =>
      rw [ResponseBuilder.setNull, object?_modifyObject] at found
      split at found
      · obtain ⟨old, atOld, rfl⟩ := map_eq_some_iff.mp found
        exact (wf.distinct target old atOld).set position .null
      · exact wf.distinct target object found
    | listItem id index =>
      rw [object?_setItem] at found
      exact wf.distinct target object found

def edges? (builder : ResponseBuilder) (id : ResponseObjectId) : Option (List ResponseEdge) :=
  (builder.object? id).map (·.fields.map (·.edge))

theorem edges?_setNull (builder : ResponseBuilder) (id : ResponseValueId) (target : ResponseObjectId) :
    (builder.setNull id).edges? target = builder.edges? target := by
  unfold edges?
  cases id with
  | objectField id position =>
    rw [setNull, object?_modifyObject]
    split
    · simp [Option.map_map, Function.comp_def, ResponseObject.set_edges]
    · rfl
  | listItem id index => rw [object?_setItem]

theorem WellFormed.clearRoot (wf : builder.WellFormed) :
    { builder with root := none : ResponseBuilder }.WellFormed where
  closed := ⟨by simp, wf.closed.fields, wf.closed.items⟩
  distinct := wf.distinct

section Extend
variable {id : ResponseObjectId} {object : ResponseObject} {fields : List ResponseObjectField}

theorem valid_modifyObject (builder : ResponseBuilder) (id : ResponseObjectId)
    (change : ResponseObject → ResponseObject) (cursor : Cursor) :
    (builder.modifyObject id change).Valid cursor ↔ builder.Valid cursor := by
  cases cursor with
  | object target =>
    simp only [Valid, object?_modifyObject]
    split <;> simp
  | list target => simp only [Valid, list?_modifyObject]

theorem lookup_extend (found : builder.object? id = some object) (extended : (object.extend fields).Distinct)
    (cursor : Cursor) (edge : ResponseEdge) : (builder.modifyObject id (·.extend fields)).lookup cursor edge =
      if cursor = .object id then (builder.lookup cursor edge).or ((fields.find? (·.edge = edge)).map (·.value))
      else builder.lookup cursor edge := by
  cases cursor with
  | object target =>
    simp only [lookup, object?_modifyObject, Cursor.object.injEq]
    split
    · next same =>
      subst same
      simp [found, ResponseObject.get?_extend extended]
    · rfl
  | list target => simp [lookup, list?_modifyObject]

theorem WellFormed.extend
    (wf : builder.WellFormed) (found : builder.object? id = some object) (extended : (object.extend fields).Distinct)
    (safe : ∀ field ∈ fields, ∀ cursor, field.value.cursor = some cursor → builder.Valid cursor) :
    (builder.modifyObject id (·.extend fields)).WellFormed where
  closed := by
    apply closed_of_stored
    · intro root rooted
      exact (valid_modifyObject builder id _ _).mpr (wf.closed.root root rooted)
    · intro value stored cursor kind
      rw [valid_modifyObject]
      cases stored with
      | @field target changed field atChanged member =>
        rw [object?_modifyObject] at atChanged
        split at atChanged
        · next same =>
          subst same
          rw [found] at atChanged
          obtain rfl := some.inj atChanged
          rcases ResponseObject.mem_extend.mp member with old | new
          · exact wf.closed.fields target object found field old cursor kind
          · exact safe field new cursor kind
        · exact wf.closed.fields target changed atChanged field member cursor kind
      | item atItem =>
        rw [list?_modifyObject] at atItem
        exact wf.closed.stored (.item atItem) cursor kind
  distinct target changed atChanged := by
    rw [object?_modifyObject] at atChanged
    split at atChanged
    · next same =>
      subst same
      rw [found] at atChanged
      obtain rfl := some.inj atChanged
      exact extended
    · exact wf.distinct target changed atChanged

end Extend

/-- The slots on a path, whether their values are nullable, and where the path ends. Every value on
the way is an object or a list. -/
def walk (builder : ResponseBuilder) (cursor : Cursor) : ResponsePath → Option (List (Slot × Bool) × Cursor)
  | [] => some ([], cursor)
  | edge :: rest => do
      let place ← slot cursor edge
      let value ← builder.lookup cursor edge
      let next ← value.cursor
      let (places, final) ← builder.walk next rest
      some ((place, value.nullable) :: places, final)

def nearest : List (Slot × Bool) → Option (Nat × Slot)
  | [] => none
  | (place, nullable) :: rest =>
    match nearest rest with
    | some (position, found) => some (position + 1, found)
    | none => if nullable then some (0, place) else none

/-- A value on the path is null. -/
def crossesNull (builder : ResponseBuilder) (cursor : Cursor) : ResponsePath → Bool
  | [] => false
  | edge :: rest =>
    match builder.lookup cursor edge with
    | none => false
    | some value =>
      value.isNull || match value.cursor with
        | none => false
        | some next => builder.crossesNull next rest

variable {places : List (Slot × Bool)} {cursor final next : Cursor} {path : ResponsePath}

theorem walk_cons {rest : ResponsePath} (walked : builder.walk cursor (edge :: rest) = some (places, final)) :
    ∃ place value next below, slot cursor edge = some place ∧ builder.lookup cursor edge = some value ∧
      value.cursor = some next ∧ builder.walk next rest = some (below, final) ∧
      places = (place, value.nullable) :: below := by
  simp only [walk, bind_eq_bind, bind_eq_some_iff] at walked
  obtain ⟨place, atSlot, value, atValue, next, kind, ⟨below, end_⟩, walkedBelow, same⟩ := walked
  obtain ⟨rfl, rfl⟩ : (place, value.nullable) :: below = places ∧ end_ = final := by simpa using same
  exact ⟨place, value, next, below, atSlot, atValue, kind, walkedBelow, rfl⟩

theorem isNull_of_cursor (kind : value.cursor = some next) : value.isNull = false := by
  cases value <;> simp_all [ResponseValue.cursor, ResponseValue.isNull]

/-- The walk of the source passes the slots of the path. -/
theorem WellFormed.visit_of_walk (wf : builder.WellFormed) (walked : builder.walk cursor path = some (places, final)) :
    ∃ steps, builder.visit cursor path = .ok (some steps) ∧
      List.Forall₂ (fun step place => builder.Names step.1 place.1 ∧ step.2.nullable = place.2) steps places := by
  induction path generalizing cursor places with
  | nil =>
    obtain ⟨rfl, _⟩ : [] = places ∧ cursor = final := by simpa [walk] using walked
    exact ⟨[], rfl, .nil⟩
  | cons edge rest ih =>
    obtain ⟨place, value, next, below, atSlot, found, kind, walkedBelow, rfl⟩ := walk_cons walked
    obtain ⟨steps, visited, related⟩ := ih walkedBelow
    obtain ⟨id, named, stepped, atNamed, names⟩ := wf.step_of_lookup found
    obtain rfl : named = place := by simpa [atSlot] using atNamed.symm
    refine ⟨(id, value) :: steps, ?_, .cons ⟨names, rfl⟩ related⟩
    simp [visit, hop, stepped, isNull_of_cursor kind, kind, visited, Except.map]

theorem lastNullable_nearest {steps : List (ResponseValueId × ResponseValue)}
    (related : List.Forall₂ (fun step place => builder.Names step.1 place.1 ∧ step.2.nullable = place.2)
      steps places) :
    match nearest places with
    | none => lastNullable steps = none
    | some (position, place) => ∃ id, lastNullable steps = some (position, id) ∧ builder.Names id place := by
  induction related with
  | nil => rfl
  | @cons step place steps places head tail ih =>
    obtain ⟨names, nullable⟩ := head
    rw [nearest]
    cases deeper : nearest places with
    | none =>
      rw [deeper] at ih
      by_cases marked : place.2
      · simp only [marked, if_true]
        exact ⟨step.1, by simp [lastNullable, ih, nullable, marked], names⟩
      · simp [lastNullable, ih, nullable, marked]
    | some found =>
      rw [deeper] at ih
      obtain ⟨id, last, named⟩ := ih
      exact ⟨id, by simp [lastNullable, last], named⟩

/-- Propagation along a path of objects and lists sets the slot nearest to its end to null. -/
theorem WellFormed.propagateError_of_walk (wf : builder.WellFormed) {root : ResponseObjectId × ObjectDefinitionId}
    (rooted : builder.root = some root)
    (walked : builder.walk (.object root.1) path = some (places, final)) :
    match nearest places with
    | none => builder.propagateError path = .ok (some [], { builder with root := none })
    | some (position, place) => ∃ id, builder.Names id place ∧
        builder.propagateError path = .ok (some (path.take position), builder.setNull id) := by
  obtain ⟨steps, visited, related⟩ := wf.visit_of_walk walked
  have last := lastNullable_nearest related
  rw [propagateError_visited rooted visited]
  cases found : nearest places with
  | none =>
    rw [found] at last
    simp [last]
  | some found' =>
    rw [found] at last
    obtain ⟨id, last, names⟩ := last
    exact ⟨id, names, by simp [last]⟩

theorem WellFormed.blocked_of_crossesNull (wf : builder.WellFormed)
    (crosses : builder.crossesNull cursor path = true) : builder.Blocked cursor path := by
  unfold Blocked
  induction path generalizing cursor with
  | nil => cases crosses
  | cons edge rest ih =>
    rw [crossesNull] at crosses
    cases found : builder.lookup cursor edge with
    | none => simp [found] at crosses
    | some value =>
      rw [found] at crosses
      obtain ⟨id, place, stepped, _, _⟩ := wf.step_of_lookup found
      rw [visit, hop, stepped]
      by_cases null : value.isNull
      · simp [Except.map, null]
      · cases kind : value.cursor with
        | none => simp [null, kind] at crosses
        | some next =>
          have below := ih (by simpa [null, kind] using crosses)
          simp [Except.map, null, kind, below]

end ResponseBuilder
end Grafbase.Response
