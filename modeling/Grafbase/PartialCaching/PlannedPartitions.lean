import Grafbase.PartialCaching.Planning
import Mathlib.Data.List.Perm.Subperm

/-! What the planner puts into each partition.

The places that are visited are the query and the fragments, each under a
cache control. A selection is part of the partition of a cache control when it
lies on the way from the query to a leaf under that control, where the way
may go through any fragments.
-/

set_option autoImplicit false

namespace Grafbase.PartialCaching
open Foundation List
open FragmentTracker (Spreads tracks_walk intoSpreads_eq_ok handlers)
section Sites
variable (registry : PartialCacheRegistry) (document : ExecutableDocument) (operation : OperationDefinition)

def siteEvents : Option FragmentKey → List Event
  | none => events registry (some registry.queryType) registry.queryType.cacheControl operation.selectionSet
  | some key =>
    events registry (registry.lookupType (document.readFragment key.id).typeCondition) key.spreadCacheControl
      (document.readFragment key.id).selectionSet

def siteTracked (site : Option FragmentKey) : Tracked :=
  (siteEvents registry document operation site).foldl ((handlers document).handle []) ⟨[], []⟩

def siteKeys (site : Option FragmentKey) : List FragmentKey :=
  (siteTracked registry document operation site).spreads.fragmentKeys

def nextKeys (key : FragmentKey) : List FragmentKey := siteKeys registry document operation (some key)

def Visited (key : FragmentKey) : Prop :=
  Reachable (nextKeys registry document operation) (siteKeys registry document operation none) key

def VisitedSite : Option FragmentKey → Prop
  | none => True
  | some key => Visited registry document operation key

/-- A leaf under the cache control is in the fragment or in one that it spreads, directly or not. -/
def Live (control : Option CacheControl) (key : FragmentKey) : Prop :=
  ∃ last, Relation.ReflTransGen (fun source target => target ∈ nextKeys registry document operation source) key last ∧
    ∃ path, .leaf path control ∈ siteEvents registry document operation (some last)

def Visible (control : Option CacheControl) (id : SelectionId) : Prop :=
  ∃ site, VisitedSite registry document operation site ∧
    ((∃ path, .leaf path control ∈ siteEvents registry document operation site ∧ id ∈ path) ∨
      ∃ key path, Spreads document (siteEvents registry document operation site) key path ∧ id ∈ path ∧
        Live registry document operation control key)

def Included (control : Option CacheControl) (id : FragmentDefinitionId) : Prop :=
  ∃ key, Visited registry document operation key ∧ Live registry document operation control key ∧ key.id = id

variable {registry document operation} {site : Option FragmentKey} {key : FragmentKey}

theorem mem_siteKeys : key ∈ siteKeys registry document operation site ↔
      ∃ path, Spreads document (siteEvents registry document operation site) key path :=
  (tracks_walk _).keys key

theorem visited_of_mem_siteKeys (visited : VisitedSite registry document operation site)
    (spread : key ∈ siteKeys registry document operation site) : Visited registry document operation key := by
  cases site with
  | none => exact ⟨key, spread, .refl⟩
  | some parent =>
    obtain ⟨root, inRoots, path⟩ := visited
    exact ⟨root, inRoots, path.tail spread⟩

/-- The query is an operation of the document, and only fragments of the document are spread. -/
theorem isPath_of_mem_siteEvents (inDocument : operation ∈ document.operations) {event : Event}
    (member : event ∈ siteEvents registry document operation site) : IsPath document event.path := by
  intro above id below split
  cases site with
  | none =>
    refine ⟨operation.selectionSet, ?_, ancestors_of_mem_events member split⟩
    exact mem_append_left _ (mem_map_of_mem inDocument)
  | some key =>
    refine ⟨(document.readFragment key.id).selectionSet, ?_, ancestors_of_mem_events member split⟩
    unfold ExecutableDocument.readFragment
    cases found : document.fragments[key.id]? with
    | none =>
      -- Nothing is met in a fragment that does not exist.
      simp [siteEvents, ExecutableDocument.readFragment, found, events] at member
    | some fragment => exact mem_append_right _ (mem_map_of_mem (mem_of_getElem? found))

end Sites

section Loop
variable {registry : PartialCacheRegistry} {document : ExecutableDocument} {operation : OperationDefinition}

def leavesOf (registry : PartialCacheRegistry) (document : ExecutableDocument) (operation : OperationDefinition)
    (keys : List FragmentKey) : List Leaf :=
  (none :: keys.map some).flatMap fun site => siteLeaves site (siteEvents registry document operation site)

variable {keys found : List FragmentKey} {visits after : FragmentVisits} {key : FragmentKey} {name : String}
  {selectionSet : Selections} {type : MetaType} {site : Option FragmentKey}

theorem mem_leavesOf {leaf : Leaf} : leaf ∈ leavesOf registry document operation keys ↔
      (leaf.site = none ∨ ∃ key ∈ keys, leaf.site = some key) ∧
        .leaf leaf.path leaf.control ∈ siteEvents registry document operation leaf.site := by
  simp only [leavesOf, mem_flatMap, mem_siteLeaves, mem_cons, mem_map]
  constructor
  · rintro ⟨site, rfl | ⟨key, listed, rfl⟩, same, found⟩
    · exact ⟨.inl same, same ▸ found⟩
    · exact ⟨.inr ⟨key, listed, same⟩, same ▸ found⟩
  · rintro ⟨isNone | ⟨key, listed, isSome⟩, found⟩
    · exact ⟨none, .inl rfl, isNone, isNone ▸ found⟩
    · exact ⟨some key, .inr ⟨key, listed, rfl⟩, isSome, isSome ▸ found⟩

/-- What holds between two rounds of the loop over the fragments. -/
structure VisitInvariant (registry : PartialCacheRegistry) (document : ExecutableDocument)
    (operation : OperationDefinition) (visits : FragmentVisits) : Prop where
  stack : visits.partitioner.selectionStack = []
  collected : Collected (leavesOf registry document operation (visitedKeys visits)) visits.partitioner.output
  spreads : ∀ entry ∈ visits.fragmentsInFragments,
    entry.2 = (siteTracked registry document operation (some entry.1)).spreads

theorem head?_toList (control : Option CacheControl) : control.toList.head? = control := by
  cases control <;> rfl

/-- Both visitors together meet the events of the fragment. -/
theorem visitNextFragment_eq (operation : OperationDefinition)
    (visited : visitNextFragment registry document visits key = .ok (after, found)) :
    after.partitioner.selectionStack = visits.partitioner.selectionStack ∧
    after.partitioner.output = (siteEvents registry document operation (some key)).foldl
      (QueryPartitioner.handlers.handle visits.partitioner.selectionStack)
      { visits.partitioner.output with currentFragment := some key } ∧
    after.fragmentsInFragments = visits.fragmentsInFragments ++
      [(key, (siteTracked registry document operation (some key)).spreads)] ∧
    found = nextKeys registry document operation key := by
  simp only [visitNextFragment, visitFragment, planVisitor, visitSelectionSet_both,
    Handlers.visitSelectionSet_eq, QueryPartitioner.forNextFragment, FragmentTracker.new, head?_toList] at visited
  obtain ⟨spreads, intoSpreads, result⟩ := bind_eq_ok.mp visited
  cases result
  have tracked := intoSpreads_eq_ok intoSpreads
  refine ⟨rfl, rfl, ?_, ?_⟩
  · rw [← tracked]
    rfl
  · rw [← tracked]
    rfl

theorem Collected.withFragment {leaves : List Leaf} {partitions : Partitions} (collected : Collected leaves partitions)
    (key : Option FragmentKey) : Collected leaves { partitions with currentFragment := key } where
  selections control id := by
    rw [← collected.selections control id]
    cases control <;> rfl
  fragments control other := by
    rw [← collected.fragments control other]
    cases control <;> rfl

theorem leavesOf_append (keys : List FragmentKey) (key : FragmentKey) :
    leavesOf registry document operation (keys ++ [key]) =
      leavesOf registry document operation keys ++ siteLeaves (some key)
        (siteEvents registry document operation (some key)) := by
  simp [leavesOf]

theorem VisitInvariant.step (inDocument : operation ∈ document.operations)
    (held : VisitInvariant registry document operation visits)
    (visited : visitNextFragment registry document visits key = .ok (after, found)) :
    VisitInvariant registry document operation after := by
  obtain ⟨stack, output, tracked, _⟩ := visitNextFragment_eq operation visited
  rw [held.stack] at stack output
  refine ⟨stack, ?_, ?_⟩
  · have keys : visitedKeys after = visitedKeys visits ++ [key] := by simp [visitedKeys, tracked]
    rw [keys, leavesOf_append, output]
    exact (held.collected.withFragment (some key)).walk
      (fun leaf member => isPath_of_mem_siteEvents inDocument (mem_leavesOf.mp member).2)
      fun event => isPath_of_mem_siteEvents inDocument
  · intro entry member
    rw [tracked] at member
    rcases mem_push.mp member with old | rfl
    · exact held.spreads entry old
    · rfl

theorem remembers_visitNextFragment : Remembers visitedKeys (visitNextFragment registry document) := by
  intro visits key after found _ visited
  obtain ⟨spreads, _, result⟩ := bind_eq_ok.mp visited
  cases result
  simp [visitedKeys]

variable {container : Option MetaType}

theorem mem_types_of_fieldType
    (found : (fieldEdge registry container name selectionSet).fieldType = some type) : type ∈ registry.types := by
  obtain ⟨field, _, read⟩ := Option.bind_eq_some_iff.mp found
  exact mem_of_getElem? read

section
variable (known : ∀ type, container = some type → type ∈ registry.types)
include known

theorem mem_types_of_innerContainer {typeCondition : Option String}
    (found : innerContainer registry container typeCondition = some type) : type ∈ registry.types := by
  cases typeCondition with
  | none => exact known type found
  | some name => exact mem_of_find?_eq_some found

theorem mem_controls_of_edge {control : CacheControl}
    (found : (fieldEdge registry container name selectionSet).cacheControl = some control) :
    control ∈ registry.controls := by
  refine mem_flatMap.mpr ?_
  rcases Option.or_eq_some_iff.mp found with ofField | ⟨_, ofType⟩
  · obtain ⟨field, isField, held⟩ := Option.bind_eq_some_iff.mp ofField
    obtain ⟨type, isType, named⟩ := Option.bind_eq_some_iff.mp isField
    refine ⟨type, known type isType, mem_append_right _ (mem_filterMap.mpr ⟨field, ?_, held⟩)⟩
    exact mem_of_find?_eq_some named
  · obtain ⟨type, isType, held⟩ := Option.bind_eq_some_iff.mp ofType
    exact ⟨type, mem_types_of_fieldType isType, mem_append_left _ (by simp [held])⟩

theorem control_of_mem_events {control : Option CacheControl} {selections : Selections} {path : List SelectionId}
    {active : Option CacheControl} (member : .spread path name active ∈ events registry container control selections) :
    active = control ∨ ∃ found ∈ registry.controls, active = some found := by
  induction selections generalizing container control path with
  | nil => cases member
  | field own otherName fieldName arguments directives selectionSet rest inside after =>
    rcases mem_append.mp member with here | later
    · obtain ⟨event, found, same⟩ := mem_map.mp here
      rcases mem_append.mp found with isLeaf | nested
      · unfold leafEvents at isLeaf
        split at isLeaf
        · rw [mem_singleton.mp isLeaf] at same
          cases same
        · cases isLeaf
      · cases event with
        | leaf leafPath leafControl => cases same
        | spread innerPath innerName innerControl =>
          cases same
          -- The control of the field, where it has one, replaces the one from outside.
          rcases inside (fun type => mem_types_of_fieldType) nested with own | ofSchema
          · rw [own]
            cases held : (fieldEdge registry container fieldName selectionSet).cacheControl with
            | none => exact .inl rfl
            | some found => exact .inr ⟨found, mem_controls_of_edge known held, rfl⟩
          · exact .inr ofSchema
    · exact after known later
  | inlineFragment own typeCondition directives selectionSet rest inside after =>
    rcases mem_append.mp member with here | later
    · obtain ⟨event, found, same⟩ := mem_map.mp here
      cases event with
      | leaf leafPath leafControl => cases same
      | spread innerPath innerName innerControl =>
        cases same
        exact inside (fun type => mem_types_of_innerContainer known) found
    · exact after known later
  | fragmentSpread own fragmentName directives rest after =>
    rcases mem_cons.mp member with here | later
    · cases here
      exact .inl rfl
    · exact after known later

end

/-- Keys are possible where the surrounding cache control is one of the schema. -/
def PossibleControl (registry : PartialCacheRegistry) (control : Option CacheControl) : Prop :=
  control ∈ none :: registry.controls.map some

theorem mem_possibleKeys : key ∈ possibleKeys registry document ↔
      key.id < document.fragments.length ∧ PossibleControl registry key.spreadCacheControl := by
  constructor
  · intro member
    obtain ⟨id, inRange, listed⟩ := mem_flatMap.mp member
    obtain ⟨control, possible, rfl⟩ := mem_map.mp listed
    exact ⟨mem_range.mp inRange, possible⟩
  · rintro ⟨inRange, possible⟩
    exact mem_flatMap.mpr ⟨key.id, mem_range.mpr inRange, mem_map_of_mem possible⟩

theorem siteKeys_possible (possible : ∀ key, site = some key → key ∈ possibleKeys registry document)
    (spread : key ∈ siteKeys registry document operation site) : key ∈ possibleKeys registry document := by
  obtain ⟨path, name, met, named⟩ := mem_siteKeys.mp spread
  refine mem_possibleKeys.mpr ⟨(findIdx?_eq_some_iff_findIdx_eq.mp named).1, ?_⟩
  cases site with
  | none =>
    rcases control_of_mem_events (fun type same => Option.some.inj same ▸ registry.rooted)
      met with same | ⟨found, listed, same⟩
    · rw [same]
      cases held : registry.queryType.cacheControl with
      | none => exact mem_cons_self ..
      | some control =>
        refine mem_cons_of_mem _ (mem_map_of_mem (mem_flatMap.mpr ⟨_, registry.rooted, ?_⟩))
        exact mem_append_left _ (by simp [held])
    · rw [same]
      exact mem_cons_of_mem _ (mem_map_of_mem listed)
  | some parent =>
    rcases control_of_mem_events (fun type => mem_of_find?_eq_some) met with same | ⟨found, listed, same⟩
    · rw [same]
      exact (mem_possibleKeys.mp (possible parent rfl)).2
    · rw [same]
      exact mem_cons_of_mem _ (mem_map_of_mem listed)

theorem nodup_siteKeys (site : Option FragmentKey) : (siteKeys registry document operation site).Nodup := by
  refine foldlRecOn (motive := fun tracked : Tracked => tracked.spreads.fragmentKeys.Nodup) _ _ nodup_nil
    fun tracked distinct event _ => ?_
  cases event with
  | leaf path control => exact distinct
  | spread path name control =>
    simp only [Handlers.handle, handlers, FragmentTracker.trackSpread]
    split
    · exact nodup_map_fst_upsert distinct
    · exact distinct

theorem length_siteKeys_le (possible : ∀ key, site = some key → key ∈ possibleKeys registry document) :
    (siteKeys registry document operation site).length ≤ (possibleKeys registry document).length :=
  (subperm_of_subset (nodup_siteKeys site) fun _ => siteKeys_possible possible).length_le

/-- The rounds always suffice. -/
theorem visits_isSome (operation : OperationDefinition) (partitioner : QueryPartitioner) :
    (explore visitedKeys (visitNextFragment registry document) (fragmentRounds registry document) ⟨partitioner, []⟩
      (siteKeys registry document operation none).reverse).isSome := by
  have none_possible : ∀ key, (none : Option FragmentKey) = some key → key ∈ possibleKeys registry document := by simp
  refine explore_isSome (possibleKeys registry document) (possibleKeys registry document).length
    remembers_visitNextFragment ?_ ?_ ?_
  · intro visits key after found possible visited
    have here : ∀ other, some key = some other → other ∈ possibleKeys registry document :=
      fun other same => Option.some.inj same ▸ possible
    rw [(visitNextFragment_eq operation visited).2.2.2]
    exact ⟨length_siteKeys_le here, fun other => siteKeys_possible here⟩
  · exact fun key member => siteKeys_possible none_possible (mem_reverse.mp member)
  · have few : (siteKeys registry document operation none).length ≤ (possibleKeys registry document).length :=
      length_siteKeys_le none_possible
    simp only [length_reverse, unseen, visitedKeys, map_nil, not_mem_nil, not_false_eq_true, decide_true,
      filter_true, fragmentRounds]
    omega

end Loop

theorem mem_foldl_addFragment (ancestors : List (FragmentKey × FragmentAncestry)) (keys : List FragmentKey)
    (partition : Partition) :
    (∀ id, id ∈ (keys.foldl (Partition.addFragment ancestors) partition).selections ↔ id ∈ partition.selections ∨
      ∃ key ∈ keys, ∃ ancestry, ancestors.lookup key = some ancestry ∧ id ∈ ancestry.selections) ∧
    ∀ id, id ∈ (keys.foldl (Partition.addFragment ancestors) partition).fragments ↔ id ∈ partition.fragments ∨
      ∃ key ∈ keys, key.id = id ∨ ∃ ancestry, ancestors.lookup key = some ancestry ∧ id ∈ ancestry.fragments := by
  induction keys generalizing partition with
  | nil => simp
  | cons key rest ih =>
    simp only [foldl_cons, ih, Partition.addFragment]
    split
    · next ancestry found => simp [found, or_assoc, eq_comm]
    · next missing => simp [missing, or_assoc, eq_comm]

def groupOf (groups : List (CacheControl × Partition) × Partition) : Option CacheControl → Partition
  | some control => (groups.1.lookup control).getD .empty
  | none => groups.2

section Groups
variable {registry : PartialCacheRegistry} {document : ExecutableDocument} {operation : OperationDefinition}

/-- The result of the loop, seen from the query: every fragment that can be reached was visited. -/
structure Completed (registry : PartialCacheRegistry) (document : ExecutableDocument) (operation : OperationDefinition)
    (visits : FragmentVisits) : Prop extends VisitInvariant registry document operation visits where
  all : ∀ key, key ∈ visitedKeys visits ↔ Visited registry document operation key

variable {visits : FragmentVisits} {edge : AncestorEdge} {key : FragmentKey}

section
variable (completed : Completed registry document operation visits)
include completed

theorem mem_edgesOf :
    edge ∈ FragmentGraph.edgesOf visits.fragmentsInFragments (siteTracked registry document operation none).spreads ↔
      VisitedSite registry document operation edge.parentKey ∧
        edge.childKey ∈ siteKeys registry document operation edge.parentKey := by
  simp only [FragmentGraph.edgesOf, mem_append, mem_flatMap, mem_map]
  constructor
  · rintro (⟨entry, listed, key, child, rfl⟩ | ⟨key, child, rfl⟩)
    · rw [completed.spreads entry listed] at child
      exact ⟨(completed.all entry.1).mp (mem_map_of_mem listed), child⟩
    · exact ⟨trivial, child⟩
  · rintro ⟨visited, child⟩
    cases edge with
    | mk parent key =>
      cases parent with
      | none => exact .inr ⟨key, child, rfl⟩
      | some parent =>
        obtain ⟨entry, listed, rfl⟩ := mem_map.mp ((completed.all parent).mpr visited)
        refine .inl ⟨entry, listed, key, ?_, rfl⟩
        rw [completed.spreads entry listed]
        exact child

theorem mem_edgeSelections (visited : VisitedSite registry document operation edge.parentKey) {id : SelectionId} :
    id ∈ edgeSelections visits.fragmentsInFragments (siteTracked registry document operation none).spreads edge ↔
      ∃ path, Spreads document (siteEvents registry document operation edge.parentKey) edge.childKey path ∧
        id ∈ path := by
  refine Iff.trans ?_ ((tracks_walk _).selections edge.childKey id)
  cases edge with
  | mk parent key =>
    cases parent with
    | none => rfl
    | some parent =>
      obtain ⟨spreads, found⟩ := Option.isSome_iff_exists.mp (isSome_lookup.mpr ((completed.all parent).mpr visited))
      have tracked : spreads = (siteTracked registry document operation (some parent)).spreads :=
        completed.spreads _ (mem_of_lookup_eq_some found)
      simp only [edgeSelections, found, Option.bind_some, tracked]
      rfl

/-- The edges above a fragment are those from which it can be reached downwards. -/
theorem reachable_edge_iff :
    Reachable (FragmentGraph.new visits.fragmentsInFragments
      (siteTracked registry document operation none).spreads).following
        ((FragmentGraph.new visits.fragmentsInFragments
          (siteTracked registry document operation none).spreads).edgesAbove key)
        edge ↔ (VisitedSite registry document operation edge.parentKey ∧
        edge.childKey ∈ siteKeys registry document operation edge.parentKey) ∧
      Relation.ReflTransGen (fun source target => target ∈ nextKeys registry document operation source)
        edge.childKey key := by
  constructor
  · rintro ⟨root, above, path⟩
    induction path with
    | refl =>
      obtain ⟨inGraph, isChild⟩ := FragmentGraph.mem_edgesAbove_new.mp above
      exact ⟨(mem_edgesOf completed).mp inGraph, isChild ▸ .refl⟩
    | @tail middle last _ follows ih =>
      -- The next edge ends where the previous one starts.
      cases parent : middle.parentKey with
      | none => simp [FragmentGraph.following, parent] at follows
      | some fragment =>
        simp only [FragmentGraph.following, parent] at follows
        obtain ⟨inGraph, isChild⟩ := FragmentGraph.mem_edgesAbove_new.mp follows
        refine ⟨(mem_edgesOf completed).mp inGraph, ?_⟩
        have step : middle.childKey ∈ nextKeys registry document operation fragment := by
          have spread := ih.1.2
          rwa [parent] at spread
        exact isChild ▸ Relation.ReflTransGen.head step ih.2
  · obtain ⟨parent, child⟩ := edge
    dsimp only
    rintro ⟨inGraph, path⟩
    induction path using Relation.ReflTransGen.head_induction_on generalizing parent with
    | refl => exact ⟨_, FragmentGraph.mem_edgesAbove_new.mpr ⟨(mem_edgesOf completed).mpr inGraph, rfl⟩, .refl⟩
    | @head first second step _ ih =>
      have visited : Visited registry document operation first := visited_of_mem_siteKeys inGraph.1 inGraph.2
      obtain ⟨root, inRoots, before⟩ := ih (some first) ⟨visited, step⟩
      refine ⟨root, inRoots, before.tail ?_⟩
      exact FragmentGraph.mem_edgesAbove_new.mpr ⟨(mem_edgesOf completed).mpr inGraph, rfl⟩

theorem mem_leavesOf_visited {leaf : Leaf} : leaf ∈ leavesOf registry document operation (visitedKeys visits) ↔
    VisitedSite registry document operation leaf.site ∧
      .leaf leaf.path leaf.control ∈ siteEvents registry document operation leaf.site := by
  rw [mem_leavesOf]
  refine and_congr_left fun _ => ?_
  cases leaf.site with
  | none => simp [VisitedSite]
  | some key => simp [VisitedSite, completed.all]

end

theorem visited_of_path {last : FragmentKey} (visited : Visited registry document operation key)
    (path : Relation.ReflTransGen (fun source target => target ∈ nextKeys registry document operation source) key
      last) :
    Visited registry document operation last := by
  obtain ⟨root, inRoots, before⟩ := visited
  exact ⟨root, inRoots, before.trans path⟩

/-- What the completed partitions contain. -/
structure Partitioned (registry : PartialCacheRegistry) (document : ExecutableDocument)
    (operation : OperationDefinition)
    (partition : Option CacheControl → Partition) : Prop where
  selections : ∀ control id, id ∈ (partition control).selections ↔ Visible registry document operation control id
  fragments : ∀ control id, id ∈ (partition control).fragments ↔ Included registry document operation control id

section Finalized
variable (completed : Completed registry document operation visits)
  {ancestors : List (FragmentKey × FragmentAncestry)}
  (ancestryOf : ∀ key, (∃ edge ∈ FragmentGraph.edgesOf visits.fragmentsInFragments
      (siteTracked registry document operation none).spreads, edge.childKey = key) →
    ∃ ancestry, ancestors.lookup key = some ancestry ∧
      ancestry.Of visits.fragmentsInFragments (siteTracked registry document operation none).spreads key)
include completed ancestryOf

theorem ancestry_of_visited (visited : Visited registry document operation key) :
    ∃ ancestry, ancestors.lookup key = some ancestry ∧
      ancestry.Of visits.fragmentsInFragments (siteTracked registry document operation none).spreads key := by
  obtain ⟨root, inRoots, path⟩ := visited
  cases path with
  | refl => exact ancestryOf key ⟨⟨none, key⟩, (mem_edgesOf completed).mpr ⟨trivial, inRoots⟩, rfl⟩
  | tail before last =>
    exact ancestryOf key ⟨⟨some _, key⟩, (mem_edgesOf completed).mpr ⟨⟨root, inRoots, before⟩, last⟩, rfl⟩

theorem mem_finalize_selections (control : Option CacheControl) (id : SelectionId) :
    id ∈ ((visits.partitioner.output.partition control).finalize ancestors).selections ↔
      Visible registry document operation control id := by
  rw [PlanningPartition.finalize, (mem_foldl_addFragment ancestors _ _).1, completed.collected.selections]
  constructor
  · rintro (⟨leaf, listed, rfl, onPath⟩ | ⟨key, listed, ancestry, found, member⟩)
    · obtain ⟨visited, met⟩ := (mem_leavesOf_visited completed).mp listed
      exact ⟨leaf.site, visited, .inl ⟨leaf.path, met, onPath⟩⟩
    · obtain ⟨leaf, isLeaf, rfl, atKey⟩ := (completed.collected.fragments control key).mp listed
      obtain ⟨visited, met⟩ := (mem_leavesOf_visited completed).mp isLeaf
      rw [atKey] at visited met
      obtain ⟨same, known, of⟩ := ancestry_of_visited completed ancestryOf visited
      cases Option.mem_unique found known
      obtain ⟨edge, reachable, spread⟩ := (of.selections id).mp member
      obtain ⟨⟨visitedSite, _⟩, path⟩ := (reachable_edge_iff completed).mp reachable
      obtain ⟨around, spreads, onPath⟩ := (mem_edgeSelections completed visitedSite).mp spread
      exact ⟨edge.parentKey, visitedSite, .inr ⟨edge.childKey, around, spreads, onPath, key, path, leaf.path, met⟩⟩
  · rintro ⟨site, visitedSite, ⟨path, met, onPath⟩ | ⟨key, path, spreads, onPath, last, below, leafPath, met⟩⟩
    · exact .inl ⟨⟨site, path, control⟩, (mem_leavesOf_visited completed).mpr ⟨visitedSite, met⟩, rfl, onPath⟩
    · have spread : key ∈ siteKeys registry document operation site := mem_siteKeys.mpr ⟨path, spreads⟩
      have visited := visited_of_path (visited_of_mem_siteKeys visitedSite spread) below
      obtain ⟨ancestry, known, of⟩ := ancestry_of_visited completed ancestryOf visited
      have listed := (completed.collected.fragments control last).mpr
        ⟨⟨some last, leafPath, control⟩, (mem_leavesOf_visited completed).mpr ⟨visited, met⟩, rfl, rfl⟩
      refine .inr ⟨last, listed, ancestry, known, (of.selections id).mpr ⟨⟨site, key⟩, ?_, ?_⟩⟩
      · exact (reachable_edge_iff completed).mpr ⟨⟨visitedSite, spread⟩, below⟩
      · exact (mem_edgeSelections completed visitedSite).mpr ⟨path, spreads, onPath⟩

theorem mem_finalize_fragments (control : Option CacheControl) (id : FragmentDefinitionId) :
    id ∈ ((visits.partitioner.output.partition control).finalize ancestors).fragments ↔
      Included registry document operation control id := by
  rw [PlanningPartition.finalize, (mem_foldl_addFragment ancestors _ _).2]
  simp only [IndexSet.not_mem_empty, false_or]
  constructor
  · rintro ⟨key, listed, above⟩
    obtain ⟨leaf, isLeaf, rfl, atKey⟩ := (completed.collected.fragments control key).mp listed
    obtain ⟨visited, met⟩ := (mem_leavesOf_visited completed).mp isLeaf
    rw [atKey] at visited met
    rcases above with own | ⟨ancestry, found, member⟩
    · exact ⟨key, visited, ⟨key, .refl, leaf.path, met⟩, own⟩
    · obtain ⟨same, known, of⟩ := ancestry_of_visited completed ancestryOf visited
      cases Option.mem_unique found known
      obtain ⟨edge, reachable, parent, isParent, named⟩ := (of.fragments id).mp member
      obtain ⟨⟨visitedSite, spread⟩, path⟩ := (reachable_edge_iff completed).mp reachable
      rw [isParent] at visitedSite spread
      exact ⟨parent, visitedSite, ⟨key, path.head spread, leaf.path, met⟩, named⟩
  · rintro ⟨key, visited, ⟨last, below, leafPath, met⟩, named⟩
    have visitedLast := visited_of_path visited below
    refine ⟨last, (completed.collected.fragments control last).mpr
      ⟨⟨some last, leafPath, control⟩, (mem_leavesOf_visited completed).mpr ⟨visitedLast, met⟩, rfl, rfl⟩, ?_⟩
    rcases below.cases_head with same | ⟨next, step, rest⟩
    · exact .inl (same ▸ named)
    · obtain ⟨ancestry, known, of⟩ := ancestry_of_visited completed ancestryOf visitedLast
      refine .inr ⟨ancestry, known, (of.fragments id).mpr ⟨⟨some key, next⟩, ?_, key, rfl, named⟩⟩
      exact (reachable_edge_iff completed).mpr ⟨⟨visited, step⟩, rest⟩

end Finalized

/-- The partitioner and the tracker when the query has been visited. -/
theorem visitQuery_eq : visitQuery registry (planVisitor document) operation
        (QueryPartitioner.new registry.queryType.cacheControl, FragmentTracker.new registry.queryType.cacheControl) =
      (⟨[], registry.queryType.cacheControl.toList,
          (siteEvents registry document operation none).foldl (QueryPartitioner.handlers.handle []) .new⟩,
        ⟨[], registry.queryType.cacheControl.toList, siteTracked registry document operation none⟩) := by
  simp only [visitQuery, planVisitor, visitSelectionSet_both, Handlers.visitSelectionSet_eq, QueryPartitioner.new,
    FragmentTracker.new, head?_toList]
  rfl

section
variable (inDocument : operation ∈ document.operations)
include inDocument

theorem completed_of_explore {controls : List CacheControl}
    {rounds : Nat} (run : explore visitedKeys (visitNextFragment registry document) rounds
      ⟨⟨[], controls, (siteEvents registry document operation none).foldl (QueryPartitioner.handlers.handle []) .new⟩,
        []⟩
      (siteKeys registry document operation none).reverse = some (.ok visits)) :
    Completed registry document operation visits where
  toVisitInvariant := by
    refine explore_induct (motive := fun state _ => VisitInvariant registry document operation state)
      (fun state item pending _ held => held)
      (fun state item pending after found _ visited held => held.step inDocument visited)
      ⟨rfl, ?_, fun entry member => by cases member⟩ run
    have paths : ∀ event ∈ siteEvents registry document operation none, IsPath document event.path :=
      fun event => isPath_of_mem_siteEvents inDocument
    have walked := Collected.initial.walk (by simp) paths
    simpa [leavesOf, visitedKeys, Partitions.new] using walked
  all key := by
    have finds : Finds (nextKeys registry document operation) (visitNextFragment registry document) := by
      intro visits key after found visited other
      rw [(visitNextFragment_eq operation visited).2.2.2]
    rw [mem_seen_iff remembers_visitNextFragment finds rfl run key]
    simp [Reachable, Visited]

/-- The planner always has a result, and its groups hold exactly what leads to the leaves of their cache control. -/
theorem planOperation_partitioned : (planOperation registry document operation).isSome ∧
    ∀ groups, planOperation registry document operation = some (.ok groups) →
    Partitioned registry document operation (groupOf groups) := by
  simp only [planOperation, visitQuery_eq, visitFragments]
  cases spreads : FragmentTracker.intoSpreads (siteTracked registry document operation none) with
  | error error => simp
  | ok fragmentsInQuery =>
    have tracked := intoSpreads_eq_ok spreads
    subst tracked
    obtain ⟨result, run⟩ := Option.isSome_iff_exists.mp (visits_isSome operation
      ⟨[], registry.queryType.cacheControl.toList,
        (siteEvents registry document operation none).foldl (QueryPartitioner.handlers.handle []) .new⟩)
    simp only [show explore visitedKeys (visitNextFragment registry document) (fragmentRounds registry document) _
      (siteTracked registry document operation none).spreads.fragmentKeys.reverse = some result from run]
    cases result with
    | error error => simp
    | ok visits =>
      have completed := completed_of_explore inDocument run
      obtain ⟨ancestors, found, ancestryOf⟩ := calculateAncestry_spec visits.fragmentsInFragments
        (siteTracked registry document operation none).spreads
      simp only [found, Option.map_some, Option.isSome_some, true_and, Option.some.injEq, Except.ok.injEq]
      rintro groups rfl
      -- Finalizing the partitions and looking them up commute.
      have same (control : Option CacheControl) : groupOf
          (visits.partitioner.output.cachePartitions.map (fun entry => (entry.1, entry.2.finalize ancestors)),
            visits.partitioner.output.nocachePartition.finalize ancestors) control =
          (visits.partitioner.output.partition control).finalize ancestors := by
        cases control with
        | none => rfl
        | some control =>
          simp only [groupOf, lookup_map_values, Partitions.partition]
          cases visits.partitioner.output.cachePartitions.lookup control <;> rfl
      constructor
      · intro control id
        rw [same]
        exact mem_finalize_selections completed ancestryOf control id
      · intro control id
        rw [same]
        exact mem_finalize_fragments completed ancestryOf control id

end
end Groups
end Grafbase.PartialCaching
