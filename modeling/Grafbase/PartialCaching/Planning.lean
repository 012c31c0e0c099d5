import Grafbase.PartialCaching.Declarations
import Grafbase.PartialCaching.FragmentAncestry

/-! The plan of a query: one partition for each cache control.

The operation is visited first, then every fragment once for each cache
control under which it is spread. A partition is completed by the ancestry of
its fragments.
-/

set_option autoImplicit false

namespace Grafbase.PartialCaching
open Foundation

def Partition.empty : Partition := ⟨.empty, .empty⟩

def Partition.addFragment (ancestors : List (FragmentKey × FragmentAncestry)) (partition : Partition)
    (key : FragmentKey) : Partition :=
  let withFragment := { partition with fragments := partition.fragments.insert key.id }
  match ancestors.lookup key with
  | some ancestry =>
    { selections := withFragment.selections.extend ancestry.selections.items
      fragments := withFragment.fragments.extend ancestry.fragments.items }
  | none => withFragment

def PlanningPartition.finalize (ancestors : List (FragmentKey × FragmentAncestry)) (partition : PlanningPartition) :
    Partition :=
  partition.fragments.items.foldl (Partition.addFragment ancestors) ⟨partition.selections, .empty⟩

structure FragmentVisits where
  partitioner : QueryPartitioner
  fragmentsInFragments : List (FragmentKey × FragmentSpreadSet)

section Plan
variable (registry : PartialCacheRegistry) (document : ExecutableDocument)

def planVisitor : Visitor (QueryPartitioner × FragmentTracker) :=
  QueryPartitioner.handlers.visitor.both (FragmentTracker.handlers document).visitor

/-- One round of the loop over the fragments that are still to be visited. -/
def visitNextFragment (visits : FragmentVisits) (key : FragmentKey) :
    Except PlanError (FragmentVisits × List FragmentKey) := do
  let (partitioner, tracker) := visitFragment registry (planVisitor document) (document.readFragment key.id)
    (visits.partitioner.forNextFragment key, FragmentTracker.new key.spreadCacheControl)
  let spreads ← FragmentTracker.intoSpreads tracker.output
  return (⟨partitioner, visits.fragmentsInFragments ++ [(key, spreads)]⟩, spreads.fragmentKeys)

/-- All keys that can occur: the fragments of the document under the cache controls of the schema. -/
def possibleKeys : List FragmentKey :=
  (List.range document.fragments.length).flatMap fun id =>
    (none :: registry.controls.map some).map fun control => ⟨id, control⟩

def fragmentRounds : Nat :=
  (possibleKeys registry document).length +
    (possibleKeys registry document).length * ((possibleKeys registry document).length + 1)

def visitedKeys (visits : FragmentVisits) : List FragmentKey := visits.fragmentsInFragments.map Prod.fst

/-- No result only if the rounds do not suffice. -/
def visitFragments (tracker : FragmentTracker) (partitioner : QueryPartitioner) :
    Option (Except PlanError (List (CacheControl × Partition) × Partition)) :=
  match FragmentTracker.intoSpreads tracker.output with
  | .error error => some (.error error)
  | .ok fragmentsInQuery =>
    match explore visitedKeys (visitNextFragment registry document) (fragmentRounds registry document)
        ⟨partitioner, []⟩ fragmentsInQuery.fragmentKeys.reverse with
    | none => none
    | some (.error error) => some (.error error)
    | some (.ok visits) =>
      (calculateAncestry visits.fragmentsInFragments fragmentsInQuery).map fun ancestors =>
        .ok (visits.partitioner.output.cachePartitions.map (fun entry => (entry.1, entry.2.finalize ancestors)),
          visits.partitioner.output.nocachePartition.finalize ancestors)

def selectOperation (operationName : Option String) : Except PlanError OperationDefinition :=
  match operationName with
  | some name =>
    match document.operations.find? (·.name = some name) with
    | some operation => .ok operation
    | none => .error (.noOperationNamed name)
  | none =>
    match document.operations.head? with
    | some operation => .ok operation
    | none => .error .noOperations

/-- The groups of an operation by cache control, and the group without one. -/
def planOperation (operation : OperationDefinition) :
    Option (Except PlanError (List (CacheControl × Partition) × Partition)) :=
  let rootCacheControl := registry.queryType.cacheControl
  let (partitioner, tracker) := visitQuery registry (planVisitor document) operation
    (QueryPartitioner.new rootCacheControl, FragmentTracker.new rootCacheControl)
  visitFragments registry document tracker partitioner

def querySubset (operation : OperationDefinition) (partition : Partition) : QuerySubset :=
  ⟨operation, partition, variablesRequired partition document operation⟩

/-- Mutations and subscriptions are not cached. -/
def buildPlan (operationName : Option String) : Option (Except PlanError (Option CachingPlan)) :=
  match selectOperation document operationName with
  | .error error => some (.error error)
  | .ok operation =>
    if operation.operationType ≠ .query then some (.ok none)
    else
      (planOperation registry document operation).map fun result => result.map fun (groups, uncached) => some {
        document
        cachePartitions := groups.map fun entry => (entry.1, querySubset document operation entry.2)
        nocachePartition := querySubset document operation uncached }

variable {registry document}

omit registry in
theorem selectOperation_mem {operationName : Option String} {operation : OperationDefinition}
    (selected : selectOperation document operationName = .ok operation) : operation ∈ document.operations := by
  unfold selectOperation at selected
  split at selected
  · split at selected
    · next found =>
      cases selected
      exact List.mem_of_find?_eq_some found
    · cases selected
  · split at selected
    · next found =>
      cases selected
      exact List.mem_of_head? found
    · cases selected

theorem buildPlan_parts {operationName : Option String} {plan : CachingPlan}
    (planned : buildPlan registry document operationName = some (.ok (some plan))) : plan.document = document ∧
      ∃ operation ∈ document.operations, ∀ part ∈ plan.cachePartitions, ∃ partition,
        part.2 = querySubset document operation partition := by
  unfold buildPlan at planned
  cases selected : selectOperation document operationName with
  | error error => simp [selected] at planned
  | ok operation =>
    simp only [selected] at planned
    split at planned
    · cases planned
    · obtain ⟨result, _, isResult⟩ := Option.map_eq_some_iff.mp planned
      cases result with
      | error error => cases isResult
      | ok groups =>
        cases isResult
        refine ⟨rfl, operation, selectOperation_mem selected, fun part member => ?_⟩
        obtain ⟨entry, _, rfl⟩ := List.mem_map.mp member
        exact ⟨entry.2, rfl⟩

end Plan
end Grafbase.PartialCaching
