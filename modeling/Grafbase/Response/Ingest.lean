import Grafbase.Response.Structure
import Mathlib.Data.String.Basic

/-! Ingesting a subgraph response.

A subgraph response has one update slot per root object it wrote to, in the
order of the root objects. Ingestion extends the root objects with their fields
or propagates the failure of a slot, and hands out the response objects that
later plans work on.
-/

set_option autoImplicit false

namespace Grafbase.Response
open Foundation

structure ResponseObjectRef where
  id : ResponseObjectId
  path : ResponsePath
  definitionId : ObjectDefinitionId
  deriving DecidableEq

abbrev ResponseObjectSet := List ResponseObjectRef
abbrev ResponseObjectSetId := Nat

inductive UpdateSlot where
  | reserved
  | fields (fields : List ResponseObjectField)
  | error

structure SubgraphResponse where
  data : ResponseDataPart
  rootResponseObjectSet : ResponseObjectSet
  errors : List GraphqlError := []
  updates : List UpdateSlot := []
  trackedResponseObjectSetIds : List ResponseObjectSetId
  trackedResponseObjectSets : List ResponseObjectSet

variable (builder : ResponseBuilder) (response : SubgraphResponse)

namespace ResponseBuilder

def extendObject (id : ResponseObjectId) (fields : List ResponseObjectField) : Checked ResponseBuilder :=
  if (builder.object? id).isSome then .ok (builder.modifyObject id (·.extend fields)) else .error .outOfBounds

def withError (error : GraphqlError) : ResponseBuilder :=
  { builder with errors := builder.errors ++ [error] }

/-- `invalidated_paths.iter().any(|path| obj_ref.path.starts_with(path))` -/
def invalidates (invalidatedPaths : List ResponsePath) (path : ResponsePath) : Bool :=
  invalidatedPaths.any (·.isPrefixOf path)

/-- Whether an error lies at or below the path, or has no path at all. -/
def explains (errors : List GraphqlError) (path : ResponsePath) : Bool :=
  errors.any fun error =>
    match error.path with
    | some errorPath => path.isPrefixOf errorPath
    | none => true

def missingData (ref : ResponseObjectRef) (anyEdge : ResponseEdge) : GraphqlError :=
  (GraphqlError.new "Missing data from subgraph" .subgraphInvalidResponseError).withPath (ref.path ++ [anyEdge])

/-- If no error of the subgraph explains the failure, one is created. -/
def explain (errors : List GraphqlError) (anyEdge : ResponseEdge) (ref : ResponseObjectRef)
    (builder : ResponseBuilder) : ResponseBuilder :=
  if explains errors ref.path then builder else builder.withError (missingData ref anyEdge)

/-- Null the nearest value above a root object unless its path is already invalidated. `report` adds
the error that explains it. -/
def invalidate (report : ResponseBuilder → ResponseBuilder) (builder : ResponseBuilder)
    (invalidatedPaths : List ResponsePath) (ref : ResponseObjectRef) : Checked (ResponseBuilder × List ResponsePath) :=
  if invalidates invalidatedPaths ref.path then .ok (builder, invalidatedPaths)
  else do
    let (invalidatedPath, builder) ← builder.propagateError ref.path
    match invalidatedPath with
    | none => .ok (builder, invalidatedPaths)
    | some path => .ok (report builder, invalidatedPaths ++ [path])

def ingestSlot (errors : List GraphqlError) (anyEdge : ResponseEdge)
    (defaultFields : Option (List ResponseObjectField)) (state : ResponseBuilder × List ResponsePath)
    (slot : UpdateSlot × ResponseObjectRef) : Checked (ResponseBuilder × List ResponsePath) :=
  let (builder, invalidatedPaths) := state
  let (update, ref) := slot
  match update with
  | .reserved =>
    match defaultFields with
    | some fields => do
        let builder ← builder.extendObject ref.id fields
        .ok (explain errors anyEdge ref builder, invalidatedPaths)
    | none => builder.invalidate (explain errors anyEdge ref) invalidatedPaths ref
  | .fields fields => do
      let builder ← builder.extendObject ref.id fields
      .ok (builder, invalidatedPaths)
  | .error => builder.invalidate id invalidatedPaths ref

def placePart (data : ResponseDataPart) : Checked ResponseBuilder :=
  match builder.parts[data.id]? with
  | none => .error .outOfBounds
  | some reservation =>
    if reservation.isEmpty then .ok { builder with parts := builder.parts.set data.id data }
    else .error (.expect "Part already has data")

def ingest (anyEdge : ResponseEdge)
    (defaultFields : Option (List ResponseObjectField)) :
    Checked (ResponseBuilder × List (ResponseObjectSetId × ResponseObjectSet)) := do
  let builder ← builder.placePart response.data
  let (builder, invalidatedPaths) ←
    (response.updates.zip response.rootResponseObjectSet).foldlM
      (ingestSlot response.errors anyEdge defaultFields) (builder, [])
  let builder := { builder with errors := builder.errors ++ response.errors }
  let sets := response.trackedResponseObjectSets.map fun refs =>
    refs.filter fun ref => !invalidates invalidatedPaths ref.path
  .ok (builder, response.trackedResponseObjectSetIds.zip sets)

end ResponseBuilder

end Grafbase.Response
