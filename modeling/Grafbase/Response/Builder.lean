import Grafbase.Response.Value

/-! The response under construction and error propagation in it.

Objects and list items live in parts, one per subgraph response. Propagation
walks a path from the root through any number of parts, remembers the last
nullable object or list it passes and sets it to null at the end.
-/

set_option autoImplicit false

namespace Grafbase.Response
open Foundation List

inductive ErrorCode where
  | badRequest | internalServerError | trustedDocumentError
  | persistedQueryError | persistedQueryNotFound
  | subgraphError | subgraphInvalidResponseError | subgraphRequestError
  | unauthenticated | unauthorized
  | operationParsingError | operationValidationError | operationPlanningError
  | hookError | rateLimited | gatewayTimeout

structure GraphqlError where
  message : String
  code : ErrorCode
  locations : List (Nat × Nat) := []
  path : Option ResponsePath := none
  extensions : List (String × Json) := []

def GraphqlError.new (message : String) (code : ErrorCode) : GraphqlError := { message, code }

def GraphqlError.withPath (error : GraphqlError) (path : ResponsePath) : GraphqlError :=
  { error with path := some path }

abbrev ObjectDefinitionId := Nat

structure ResponseDataPart where
  id : Nat
  objects : List ResponseObject := []
  lists : List ResponseValue := []

def ResponseDataPart.isEmpty (part : ResponseDataPart) : Bool := part.objects.isEmpty && part.lists.isEmpty

structure ResponseBuilder where
  /-- `none` once an error propagated up to the root. -/
  root : Option (ResponseObjectId × ObjectDefinitionId)
  parts : List ResponseDataPart
  errors : List GraphqlError

inductive ResponseValueId where
  | objectField (objectId : ResponseObjectId) (fieldPosition : Nat)
  | listItem (listId : ResponseListId) (index : Nat)

/-- What a walk stands on: `Either<ResponseObjectId, ResponseListId>`. -/
inductive Cursor where
  | object (id : ResponseObjectId)
  | list (id : ResponseListId)
  deriving DecidableEq

def ResponseValue.cursor : ResponseValue → Option Cursor
  | .object id _ => some (.object id)
  | .list id _ => some (.list id)
  | _ => none

namespace ResponseBuilder

variable (builder : ResponseBuilder)

def object? (id : ResponseObjectId) : Option ResponseObject := do
  let part ← builder.parts[id.partId]?
  part.objects[id.index]?

/-- The slice of a list, whose end must lie inside the part. -/
def list? (id : ResponseListId) : Option (List ResponseValue) := do
  let part ← builder.parts[id.partId]?
  if id.offset + id.length ≤ part.lists.length then some ((part.lists.drop id.offset).take id.length) else none

def modifyPart (partId : Nat) (change : ResponseDataPart → ResponseDataPart) : ResponseBuilder :=
  { builder with parts := builder.parts.modify partId change }

def modifyObject (id : ResponseObjectId) (change : ResponseObject → ResponseObject) : ResponseBuilder :=
  builder.modifyPart id.partId fun part => { part with objects := part.objects.modify id.index change }

def setNull : ResponseValueId → ResponseBuilder
  | .objectField id position => builder.modifyObject id (·.set position .null)
  | .listItem id index => builder.modifyPart id.partId fun part =>
    { part with lists := part.lists.set (id.offset + index) .null }

def fieldStep (id : ResponseObjectId) (edge : ResponseEdge) : Checked (Option (ResponseValueId × ResponseValue)) :=
  match builder.object? id with
  | none => .error .outOfBounds
  | some object =>
    match object.fieldPosition edge with
    | none => .ok none
    | some position =>
      match object.fields[position]? with
      | none => .error .outOfBounds
      | some field => .ok (some (.objectField id position, field.value))

def itemStep (id : ResponseListId) (index : Nat) : Checked (Option (ResponseValueId × ResponseValue)) :=
  match builder.list? id with
  | none => .error .outOfBounds
  | some items => .ok (items[index]?.map (.listItem id index, ·))

/-- The value an edge leads to, if the object has such a field or the list such an item. Indexing a
missing object or slice panics. -/
def step (cursor : Cursor) (edge : ResponseEdge) : Checked (Option (ResponseValueId × ResponseValue)) :=
  match cursor, edge.unpack with
  | .object id, .boundResponseKey _ | .object id, .extraFieldResponseKey _ => builder.fieldStep id edge
  | .list id, .index index => builder.itemStep id index
  | _, _ => .ok none

/-- `last_nullable_path_end` and `last_nullable`. -/
structure LastNullable where
  pathEnd : Nat
  value : Option ResponseValueId

/-- The loop of `propagate_error`; `none` is its early `return None`. -/
def propagateLoop (previous : Cursor) (i : Nat) (last : LastNullable) :
    ResponsePath → Checked (Option LastNullable)
  | [] => .ok (some last)
  | edge :: rest => do
      match ← builder.step previous edge with
      | none => .ok none
      | some (id, value) =>
        if value.isNull then .ok none
        else match value.cursor with
          -- The arms for objects and for lists do the same.
          | some next => propagateLoop next (i + 1) (if value.nullable then ⟨i, some id⟩ else last) rest
          | none => .ok (some last)

def propagateError (path : ResponsePath) : Checked (Option ResponsePath × ResponseBuilder) :=
  match builder.root with
  | none => .ok (none, builder)
  | some (root, _) => do
      match ← builder.propagateLoop (.object root) 0 ⟨0, none⟩ path with
      | none => .ok (none, builder)
      | some last =>
        match last.value with
        | some id => .ok (some (path.take last.pathEnd), builder.setNull id)
        | none => .ok (some (path.take last.pathEnd), { builder with root := none })

def Valid : Cursor → Prop
  | .object id => (builder.object? id).isSome
  | .list id => (builder.list? id).isSome

/-- No stored value refers to an object or a slice outside the parts. -/
structure Closed : Prop where
  root : ∀ root, builder.root = some root → builder.Valid (.object root.1)
  fields : ∀ id object, builder.object? id = some object → ∀ field ∈ object.fields,
    ∀ cursor, field.value.cursor = some cursor → builder.Valid cursor
  items : ∀ id items, builder.list? id = some items → ∀ value ∈ items,
    ∀ cursor, value.cursor = some cursor → builder.Valid cursor

/-- Closedness as a test on the parts. -/
def safe (value : ResponseValue) : Bool :=
  match value.cursor with
  | none => true
  | some (.object id) => (builder.object? id).isSome
  | some (.list id) => (builder.list? id).isSome

def isClosed : Bool :=
  (match builder.root with
    | none => true
    | some root => (builder.object? root.1).isSome) &&
  builder.parts.all fun part =>
    part.objects.all (·.fields.all fun field => builder.safe field.value) && part.lists.all builder.safe

variable {builder}

theorem valid_of_safe {value : ResponseValue} (ok : builder.safe value = true)
    (cursor : Cursor) (kind : value.cursor = some cursor) : builder.Valid cursor := by
  cases cursor <;> simpa [safe, kind, Valid] using ok

theorem closed_of_isClosed (ok : builder.isClosed = true) : builder.Closed := by
  obtain ⟨rootOk, partsOk⟩ := Bool.and_eq_true_iff.mp ok
  refine ⟨fun root rooted => by simpa [rooted, Valid] using rootOk, ?_, ?_⟩
  · intro id object found field member
    obtain ⟨part, atPart, atObject⟩ := Option.bind_eq_some_iff.mp found
    have partOk := all_eq_true.mp partsOk part (mem_of_getElem? atPart)
    have objectOk := all_eq_true.mp (Bool.and_eq_true_iff.mp partOk).1 object (mem_of_getElem? atObject)
    exact valid_of_safe (all_eq_true.mp objectOk field member)
  · intro id items found value member
    obtain ⟨part, atPart, slice⟩ := Option.bind_eq_some_iff.mp found
    have partOk := all_eq_true.mp partsOk part (mem_of_getElem? atPart)
    split at slice
    · obtain rfl := Option.some.inj slice
      have stored := mem_of_mem_drop (mem_of_mem_take member)
      exact valid_of_safe (all_eq_true.mp (Bool.and_eq_true_iff.mp partOk).2 value stored)
    · cases slice

end ResponseBuilder
end Grafbase.Response
