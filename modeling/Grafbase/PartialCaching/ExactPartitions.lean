import Grafbase.PartialCaching.LeafPaths

/-! When the partitions of a plan are exact.

A partition holds selections, while a cache control belongs to a path. The
expansion of a partition therefore also contains the paths whose selections
are there for the sake of other paths.
-/

set_option autoImplicit false

namespace Grafbase.PartialCaching
open Foundation List Option

def Selections.nodes : Selections → List (SelectionId × Selection × Selections)
  | nil => []
  | field id otherName name arguments directives selectionSet rest =>
    (id, .field otherName name arguments directives, selectionSet) :: (selectionSet.nodes ++ rest.nodes)
  | inlineFragment id typeCondition directives selectionSet rest =>
    (id, .inlineFragment typeCondition directives, selectionSet) :: (selectionSet.nodes ++ rest.nodes)
  | fragmentSpread id fragmentName directives rest => (id, .fragmentSpread fragmentName directives, nil) :: rest.nodes

theorem Selections.map_fst_nodes (selections : Selections) : selections.nodes.map Prod.fst = selections.ids := by
  induction selections with
  | nil => rfl
  | field id otherName name arguments directives selectionSet rest inside after
  | inlineFragment id typeCondition directives selectionSet rest inside after =>
    simp [nodes, ids, all, inside, after]
  | fragmentSpread id fragmentName directives rest after =>
    simp [nodes, ids, all, after]

def ExecutableDocument.nodes (document : ExecutableDocument) : List (SelectionId × Selection × Selections) :=
  document.bodies.flatMap Selections.nodes

theorem ExecutableDocument.node_unique (document : ExecutableDocument) {id : SelectionId}
    {first second : Selection × Selections} (isFirst : (id, first) ∈ document.nodes)
    (isSecond : (id, second) ∈ document.nodes) : first = second := by
  have distinct : (document.nodes.map Prod.fst).Nodup := by
    have same : document.nodes.map Prod.fst = document.bodies.flatMap Selections.ids := by
      simp only [nodes, map_flatMap, Selections.map_fst_nodes]
    rw [same]
    exact document.distinct_bodies
  exact (Prod.mk.inj (inj_on_of_nodup_map distinct isFirst isSecond rfl)).2

theorem nodes_of_readFragment {document : ExecutableDocument} {fragment : FragmentDefinitionId} :
    (document.readFragment fragment).selectionSet.nodes ⊆ document.nodes := by
  unfold ExecutableDocument.readFragment
  cases found : document.fragments[fragment]? with
  | none => exact nil_subset _
  | some definition =>
    intro node member
    exact mem_flatMap.mpr ⟨_, mem_append_right _ (mem_map_of_mem (mem_of_getElem? found)), member⟩

section Paths
variable {registry : PartialCacheRegistry} {document : ExecutableDocument} {shows : SelectionId → Prop}
  {includes : FragmentDefinitionId → Prop} {container : Option MetaType} {selections : Selections} {steps : List Step}

theorem LeafPath.head_mem (path : LeafPath registry document shows includes container selections steps) :
    ∃ entry ∈ selections.members, entry.1 ∈ steps.map Step.id ∧ shows entry.1 := by
  induction path with
  | leaf shown _ | inField shown _ _ | inInlineFragment shown _ _ | inFragmentSpread shown _ _ _ _ =>
    exact ⟨_, mem_cons_self .., mem_cons_self .., shown⟩
  | afterField later ih | afterInlineFragment later ih | afterFragmentSpread later ih =>
    obtain ⟨entry, member, found⟩ := ih
    exact ⟨entry, mem_cons_of_mem _ member, found⟩

theorem LeafPath.shown (path : LeafPath registry document shows includes container selections steps) :
    ∀ id ∈ steps.map Step.id, shows id := by
  induction path with
  | leaf shown bare => simpa [Step.id] using shown
  | inField shown _ ih | inInlineFragment shown _ ih | inFragmentSpread shown _ _ _ ih =>
    exact forall_mem_cons.mpr ⟨shown, ih⟩
  | afterField later ih | afterInlineFragment later ih | afterFragmentSpread later ih => exact ih

/-- A path remains one where other selections are shown, if they include those on the path and none below its leaf. -/
theorem LeafPath.transfer {others : SelectionId → Prop} {further : FragmentDefinitionId → Prop}
    (path : LeafPath registry document shows includes container selections steps)
    (within : selections.nodes ⊆ document.nodes)
    (each : ∀ step ∈ steps, others step.id ∧ (∀ id fragment, step = .fragmentSpread id fragment → further fragment) ∧
      ∀ node ∈ document.nodes, node.1 = step.id → (∀ entry ∈ node.2.2.members, ¬ shows entry.1) →
        ∀ entry ∈ node.2.2.members, ¬ others entry.1) :
    LeafPath registry document others further container selections steps := by
  induction path with
  | leaf _ bare =>
    obtain ⟨shown, _, stays⟩ := each _ (mem_cons_self ..)
    exact .leaf shown (stays _ (within (mem_cons_self ..)) rfl bare)
  | inField _ _ ih =>
    obtain ⟨here, rest⟩ := forall_mem_cons.mp each
    exact .inField here.1 (ih (append_subset.mp (cons_subset.mp within).2).1 rest)
  | inInlineFragment _ _ ih =>
    obtain ⟨here, rest⟩ := forall_mem_cons.mp each
    exact .inInlineFragment here.1 (ih (append_subset.mp (cons_subset.mp within).2).1 rest)
  | inFragmentSpread _ named _ _ ih =>
    obtain ⟨here, rest⟩ := forall_mem_cons.mp each
    exact .inFragmentSpread here.1 named (here.2.1 _ _ rfl) (ih nodes_of_readFragment rest)
  | afterField _ ih => exact .afterField (ih (append_subset.mp (cons_subset.mp within).2).2 each)
  | afterInlineFragment _ ih => exact .afterInlineFragment (ih (append_subset.mp (cons_subset.mp within).2).2 each)
  | afterFragmentSpread _ ih => exact .afterFragmentSpread (ih (cons_subset.mp within).2 each)

/-- What is known of a step of a path of the whole query. -/
structure StepSpec (document : ExecutableDocument) (steps : List Step) (step : Step) (selection : Selection)
    (below : Selections) : Prop where
  isNode : (step.id, selection, below) ∈ document.nodes
  spread : ∀ fragment, step = .fragmentSpread step.id fragment →
    ∃ name directives, selection = .fragmentSpread name directives ∧ document.fragmentNamed name = some fragment
  ofSpread : ∀ name directives fragment, selection = .fragmentSpread name directives →
    document.fragmentNamed name = some fragment → step = .fragmentSpread step.id fragment
  onward : below.members ≠ [] → ∃ entry ∈ below.members, entry.1 ∈ steps.map Step.id
  last : below.members = [] → (∀ name directives, selection ≠ .fragmentSpread name directives) →
    steps.getLast? = some step

theorem StepSpec.later {step : Step} {selection : Selection} {below : Selections}
    (spec : StepSpec document steps step selection below) (first : Step) :
    StepSpec document (first :: steps) step selection below :=
  { spec with
    onward := fun nonempty => by
      obtain ⟨entry, member, onPath⟩ := spec.onward nonempty
      exact ⟨entry, member, mem_cons_of_mem _ onPath⟩
    last := fun bare noSpread => by rw [getLast?_cons, spec.last bare noSpread, getD_some] }

theorem LeafPath.step_spec (within : selections.nodes ⊆ document.nodes)
    (whole : WholePath registry document container selections steps) :
    ∀ step ∈ steps, ∃ selection below, StepSpec document steps step selection below := by
  induction whole with
  | leaf _ bare =>
    refine forall_mem_singleton.mpr
      ⟨_, _, within (mem_cons_self ..), nofun, nofun, fun nonempty => ?_, fun _ _ => rfl⟩
    obtain ⟨entry, member⟩ := exists_mem_of_ne_nil _ nonempty
    exact absurd trivial (bare entry member)
  | inField _ inside ih | inInlineFragment _ inside ih =>
    obtain ⟨entry, inside, onPath, _⟩ := inside.head_mem
    refine forall_mem_cons.mpr ⟨⟨_, _, within (mem_cons_self ..), nofun, nofun,
      fun _ => ⟨entry, inside, mem_cons_of_mem _ onPath⟩, fun bare _ => absurd bare (ne_nil_of_mem inside)⟩, ?_⟩
    intro step member
    obtain ⟨selection, below, spec⟩ := ih (append_subset.mp (cons_subset.mp within).2).1 step member
    exact ⟨selection, below, spec.later _⟩
  | afterField later ih | afterInlineFragment later ih => exact ih (append_subset.mp (cons_subset.mp within).2).2
  | inFragmentSpread _ named _ inside ih =>
    refine forall_mem_cons.mpr ⟨⟨_, _, within (mem_cons_self ..), ?_, ?_, fun nonempty => absurd rfl nonempty,
      fun _ noSpread => absurd rfl (noSpread _ _)⟩, ?_⟩
    · rintro fragment same
      cases same
      exact ⟨_, _, rfl, named⟩
    · rintro name directives fragment same found
      cases same
      cases mem_unique named found
      rfl
    · intro step member
      obtain ⟨selection, below, spec⟩ := ih nodes_of_readFragment step member
      exact ⟨selection, below, spec.later _⟩
  | afterFragmentSpread later ih => exact ih (cons_subset.mp within).2

theorem LeafPath.ends_in_leaf (within : selections.nodes ⊆ document.nodes)
    (whole : WholePath registry document container selections steps) :
    ∃ last selection below, steps.getLast? = some last ∧ (last.id, selection, below) ∈ document.nodes ∧
      below.members = [] ∧ ∀ name directives, selection ≠ .fragmentSpread name directives := by
  induction whole with
  | leaf _ bare =>
    exact ⟨_, _, _, rfl, within (mem_cons_self ..), eq_nil_iff_forall_not_mem.mpr fun entry member =>
      bare entry member trivial, nofun⟩
  | inField _ _ ih | inInlineFragment _ _ ih =>
    obtain ⟨last, selection, below, isLast, spec⟩ := ih (append_subset.mp (cons_subset.mp within).2).1
    exact ⟨last, selection, below, by rw [getLast?_cons, isLast, getD_some], spec⟩
  | inFragmentSpread _ _ _ _ ih =>
    obtain ⟨last, selection, below, isLast, spec⟩ := ih nodes_of_readFragment
    exact ⟨last, selection, below, by rw [getLast?_cons, isLast, getD_some], spec⟩
  | afterField _ ih | afterInlineFragment _ ih => exact ih (append_subset.mp (cons_subset.mp within).2).2
  | afterFragmentSpread _ ih => exact ih (cons_subset.mp within).2

end Paths

def CachingPlan.subsetFor (plan : CachingPlan) : Option CacheControl → Option QuerySubset
  | some control => plan.cachePartitions.lookup control
  | none => some plan.nocachePartition

def LeafOccurrence (registry : PartialCacheRegistry) (document : ExecutableDocument) (operation : OperationDefinition)
    (steps : List Step) : Prop :=
  WholePath registry document (some registry.queryType) operation.selectionSet steps

def QuerySubset.LeafOccurrence (registry : PartialCacheRegistry) (document : ExecutableDocument) (subset : QuerySubset)
    (steps : List Step) : Prop :=
  LeafPath registry document (· ∈ subset.partition.selections) (· ∈ subset.partition.fragments)
    (some registry.queryType) subset.operation.selectionSet steps

def leafControl (registry : PartialCacheRegistry) (steps : List Step) : Option CacheControl :=
  pathControl registry.queryType.cacheControl steps

/-- Each cache control has exactly its own leaf occurrences. -/
def ExactPartitions (registry : PartialCacheRegistry) (document : ExecutableDocument) (operation : OperationDefinition)
    (plan : CachingPlan) : Prop :=
  ∀ control steps, (∃ subset, plan.subsetFor control = some subset ∧ subset.LeafOccurrence registry document steps) ↔
    LeafOccurrence registry document operation steps ∧ leafControl registry steps = control

/-- No leaf occurrence consists of selections that all lie on leaf occurrences of another cache control. -/
def NoMixedOccurrence (registry : PartialCacheRegistry) (document : ExecutableDocument)
    (operation : OperationDefinition) : Prop :=
  ∀ steps control, LeafOccurrence registry document operation steps →
    (∀ step ∈ steps, ∃ other, LeafOccurrence registry document operation other ∧ leafControl registry other = control ∧
      step.id ∈ other.map Step.id) →
    leafControl registry steps = control

section Exact
variable {registry : PartialCacheRegistry} {document : ExecutableDocument} {operation : OperationDefinition}
  {partition : Option CacheControl → Partition}

/-- The expansion of the selections and fragments of a cache control. -/
def Expansion (registry : PartialCacheRegistry) (document : ExecutableDocument) (operation : OperationDefinition)
    (partition : Partition) (steps : List Step) : Prop :=
  LeafPath registry document (· ∈ partition.selections) (· ∈ partition.fragments) (some registry.queryType)
    operation.selectionSet steps

theorem nodes_of_operation (inDocument : operation ∈ document.operations) :
    operation.selectionSet.nodes ⊆ document.nodes :=
  fun _ member => mem_flatMap.mpr ⟨_, mem_append_left _ (mem_map_of_mem inDocument), member⟩

/-- An occurrence is mixed only if its leaf has occurrences of different cache controls, hence not where every fragment
is spread once. -/
theorem noMixedOccurrence_of_leavesAgree (inDocument : operation ∈ document.operations)
    (agree : ∀ first second, LeafOccurrence registry document operation first →
      LeafOccurrence registry document operation second →
      first.getLast?.map Step.id = second.getLast?.map Step.id →
      leafControl registry first = leafControl registry second) :
    NoMixedOccurrence registry document operation := by
  intro steps control occurs shared
  obtain ⟨last, selection, below, isLast, isNode, bare, noSpread⟩ :=
    LeafPath.ends_in_leaf (nodes_of_operation inDocument) occurs
  obtain ⟨other, otherOccurs, rfl, onOther⟩ := shared last (mem_of_getLast? isLast)
  obtain ⟨step, inOther, sameId⟩ := mem_map.mp onOther
  obtain ⟨_, _, spec⟩ := LeafPath.step_spec (nodes_of_operation inDocument) otherOccurs step inOther
  cases document.node_unique isNode (sameId ▸ spec.isNode)
  refine agree steps other occurs otherOccurs ?_
  rw [isLast, spec.last bare noSpread, map_some, map_some, sameId]

variable {control : Option CacheControl}

theorem mem_selections_iff (partitioned : Partitioned registry document operation partition) {id : SelectionId} :
    id ∈ (partition control).selections ↔ ∃ steps, LeafOccurrence registry document operation steps ∧
      leafControl registry steps = control ∧ id ∈ steps.map Step.id := by
  rw [partitioned.selections, visible_iff]
  rfl

section
variable (inDocument : operation ∈ document.operations)
  (partitioned : Partitioned registry document operation partition)
include inDocument partitioned

/-- A selection that is kept does not lose all of its selections. -/
theorem kept_of_partitioned (control : Option CacheControl) :
    ∀ node ∈ document.nodes, node.1 ∈ (partition control).selections →
      (∀ entry ∈ node.2.2.members, entry.1 ∉ (partition control).selections) → ∀ entry ∈ node.2.2.members, ¬ True := by
  intro node isNode shown bare entry member _
  obtain ⟨steps, occurs, hasControl, onPath⟩ := (mem_selections_iff partitioned).mp shown
  obtain ⟨step, inSteps, sameId⟩ := mem_map.mp onPath
  obtain ⟨selection, below, spec⟩ := LeafPath.step_spec (nodes_of_operation inDocument) occurs step inSteps
  have same : below = node.2.2 := congrArg Prod.snd (document.node_unique spec.isNode (sameId ▸ isNode))
  subst same
  -- The path goes on to a selection below, which is then kept as well.
  obtain ⟨next, isNext, nextOnPath⟩ := spec.onward (ne_nil_of_mem member)
  exact bare next isNext ((mem_selections_iff partitioned).mpr ⟨steps, occurs, hasControl, nextOnPath⟩)

/-- The expansion consists of the occurrences whose selections all belong to the cache control. -/
theorem expansion_iff (control : Option CacheControl) (steps : List Step) :
    Expansion registry document operation (partition control) steps ↔ LeafOccurrence registry document operation steps ∧
        ∀ step ∈ steps, ∃ other, LeafOccurrence registry document operation other ∧
          leafControl registry other = control ∧ step.id ∈ other.map Step.id := by
  constructor
  · intro expansion
    have shown (step : Step) (member : step ∈ steps) := expansion.shown step.id (mem_map_of_mem member)
    have kept := kept_of_partitioned inDocument partitioned control
    refine ⟨expansion.transfer (nodes_of_operation inDocument) fun step member => ⟨trivial, fun _ _ _ => trivial,
      fun node isNode same => kept node isNode (same ▸ shown step member)⟩,
      fun step member => (mem_selections_iff partitioned).mp (shown step member)⟩
  · rintro ⟨occurs, shared⟩
    refine LeafPath.transfer occurs (nodes_of_operation inDocument) fun step member =>
      ⟨(mem_selections_iff partitioned).mpr (shared step member), ?_, fun _ _ _ bare entry member =>
        absurd trivial (bare entry member)⟩
    rintro id fragment rfl
    obtain ⟨other, otherOccurs, rfl, onOther⟩ := shared _ member
    obtain ⟨otherStep, inOther, sameId⟩ := mem_map.mp onOther
    obtain ⟨selection, below, spec⟩ := LeafPath.step_spec (nodes_of_operation inDocument) occurs _ member
    obtain ⟨otherSelection, otherBelow, otherSpec⟩ :=
      LeafPath.step_spec (nodes_of_operation inDocument) otherOccurs _ inOther
    have same := document.node_unique spec.isNode (sameId ▸ otherSpec.isNode)
    obtain ⟨name, directives, isSpread, named⟩ := spec.spread fragment rfl
    -- The other path enters the same fragment, since it goes through the same spread.
    have entered := otherSpec.ofSpread name directives fragment ((congrArg Prod.fst same).symm.trans isSpread) named
    have visited : VisitedSite registry document operation none := trivial
    have includedHere := (visible_of_sitePath visited otherOccurs).2 otherStep.id fragment (entered ▸ inOther)
    exact (partitioned.fragments _ fragment).mpr includedHere

theorem exact_iff_noMixedOccurrence :
    (∀ control steps, Expansion registry document operation (partition control) steps ↔
      LeafOccurrence registry document operation steps ∧ leafControl registry steps = control) ↔
      NoMixedOccurrence registry document operation := by
  constructor
  · intro exact steps control occurs shared
    exact ((exact control steps).mp ((expansion_iff inDocument partitioned control steps).mpr ⟨occurs, shared⟩)).2
  · intro unmixed control steps
    rw [expansion_iff inDocument partitioned]
    constructor
    · rintro ⟨occurs, shared⟩
      exact ⟨occurs, unmixed steps control occurs shared⟩
    · rintro ⟨occurs, rfl⟩
      exact ⟨occurs, fun step member => ⟨steps, occurs, rfl, mem_map_of_mem member⟩⟩

end

theorem subsetFor_iff_expansion (groups : List (CacheControl × Partition) × Partition) (plan : CachingPlan)
    (cached : plan.cachePartitions = groups.1.map fun entry => (entry.1, querySubset document operation entry.2))
    (uncached : plan.nocachePartition = querySubset document operation groups.2) (control : Option CacheControl)
    (steps : List Step) :
    (∃ subset, plan.subsetFor control = some subset ∧ subset.LeafOccurrence registry document steps) ↔
      Expansion registry document operation (groupOf groups control) steps := by
  cases control with
  | none =>
    simp only [CachingPlan.subsetFor, uncached, some.injEq, exists_eq_left', groupOf]
    rfl
  | some control =>
    simp only [CachingPlan.subsetFor, cached, lookup_map_values, groupOf]
    cases groups.1.lookup control with
    | some partition =>
      simp only [map_some, some.injEq, exists_eq_left', getD_some]
      rfl
    | none =>
      -- Nothing is kept, so there is nothing to expand.
      simp only [map_none, reduceCtorEq, false_and, exists_false, getD_none, false_iff]
      intro expansion
      obtain ⟨entry, _, _, shown⟩ := expansion.head_mem
      exact IndexSet.not_mem_empty _ shown

end Exact

/-- The planner always ends, and its partitions are exact if and only if no leaf occurrence consists of selections that
all lie on leaf occurrences of another cache control. -/
theorem exactPartitions_iff (registry : PartialCacheRegistry) (document : ExecutableDocument)
    (operationName : Option String) : (buildPlan registry document operationName).isSome ∧
      ∀ operation plan, selectOperation document operationName = .ok operation →
        buildPlan registry document operationName = some (.ok (some plan)) →
        (ExactPartitions registry document operation plan ↔ NoMixedOccurrence registry document operation) := by
  unfold buildPlan
  cases selected : selectOperation document operationName with
  | error error => simp
  | ok operation =>
    obtain ⟨ends, partitioned⟩ : (planOperation registry document operation).isSome ∧ _ :=
      planOperation_partitioned (selectOperation_mem selected)
    by_cases isQuery : operation.operationType = .query
    · simp only [isQuery, ne_eq, not_true_eq_false, if_false, isSome_map, ends, true_and]
      rintro other plan same built
      cases same
      obtain ⟨result, planned, isPlan⟩ := map_eq_some_iff.mp built
      obtain ⟨groups, rfl, same⟩ := map_eq_ok.mp isPlan
      cases same
      rw [← exact_iff_noMixedOccurrence (selectOperation_mem selected) (partitioned groups planned)]
      refine forall_congr' fun control => forall_congr' fun steps => ?_
      rw [subsetFor_iff_expansion groups _ rfl rfl]
    · simp [isQuery]

/-- A control that differs from others by its age only. -/
def maxAgeControl (maxAge : Nat) : CacheControl := ⟨false, maxAge, 0, none, none⟩

/-- Two fields of one type with different cache controls; one field of the type has a cache control itself. -/
def sharedTypeRegistry : PartialCacheRegistry where
  types := [
    .object "Query" [⟨"a", 1, some (maxAgeControl 1)⟩, ⟨"b", 1, some (maxAgeControl 2)⟩] none,
    .object "T" [⟨"x", 2, none⟩, ⟨"z", 2, some (maxAgeControl 1)⟩] none,
    .other "Int"]
  queryType := .object "Query" [⟨"a", 1, some (maxAgeControl 1)⟩, ⟨"b", 1, some (maxAgeControl 2)⟩] none
  rooted := by decide

/-- The query `{ a { ...F } b { ...F } }`. -/
def sharedFragmentQuery : OperationDefinition where
  operationType := .query
  name := none
  variableDefinitions := []
  directives := []
  selectionSet :=
    .field 0 none "a" [] [] (.fragmentSpread 1 "F" [] .nil)
      (.field 2 none "b" [] [] (.fragmentSpread 3 "F" [] .nil) .nil)

/-- The query with `fragment F on T { x z }`. -/
def sharedFragmentDocument : ExecutableDocument where
  operations := [sharedFragmentQuery]
  fragments := [⟨"F", "T", [], .field 4 none "x" [] [] .nil (.field 5 none "z" [] [] .nil .nil)⟩]
  distinct := by decide

/-- The path `b`, `...F`, `x`. -/
def sharedPath : List Step := [.field 2 (some (maxAgeControl 2)), .fragmentSpread 3 0, .field 4 none]

theorem groups_sharedFragment :
    ∃ groups, planOperation sharedTypeRegistry sharedFragmentDocument sharedFragmentQuery = some (.ok groups) ∧
      (groupOf groups (some (maxAgeControl 1))).selections.items = [5, 4, 2, 3, 0, 1] ∧
      (groupOf groups (some (maxAgeControl 1))).fragments.items = [0] := by
  have evaluated : ((planOperation sharedTypeRegistry sharedFragmentDocument sharedFragmentQuery).bind
      Except.toOption).map (fun groups => ((groupOf groups (some (maxAgeControl 1))).selections.items,
        (groupOf groups (some (maxAgeControl 1))).fragments.items)) = some ([5, 4, 2, 3, 0, 1], [0]) := by
    decide +kernel
  obtain ⟨groups, isOk, same⟩ := map_eq_some_iff.mp evaluated
  obtain ⟨result, planned, isResult⟩ := bind_eq_some_iff.mp isOk
  cases result with
  | error error => cases isResult
  | ok result =>
    cases isResult
    exact ⟨groups, planned, Prod.mk.inj same⟩

/-- The leaf `x` under `b` is also part of the partition of `a`, where `z` needs the fragment under `b`. -/
theorem mixedOccurrence_sharedFragment :
    ∃ plan, buildPlan sharedTypeRegistry sharedFragmentDocument none = some (.ok (some plan)) ∧
      ¬ ExactPartitions sharedTypeRegistry sharedFragmentDocument sharedFragmentQuery plan := by
  obtain ⟨groups, planned, selections, fragments⟩ := groups_sharedFragment
  refine ⟨⟨sharedFragmentDocument, groups.1.map fun entry =>
      (entry.1, querySubset sharedFragmentDocument sharedFragmentQuery entry.2),
    querySubset sharedFragmentDocument sharedFragmentQuery groups.2⟩, ?_, fun exact => ?_⟩
  · have selected : selectOperation sharedFragmentDocument none = .ok sharedFragmentQuery := rfl
    have isQuery : sharedFragmentQuery.operationType = .query := rfl
    simp only [buildPlan, selected, isQuery, ne_eq, not_true_eq_false, if_false, planned, map_some]
    rfl
  · have expansion : Expansion sharedTypeRegistry sharedFragmentDocument sharedFragmentQuery
        (groupOf groups (some (maxAgeControl 1))) sharedPath := by
      have shown (id : SelectionId) (listed : id ∈ [5, 4, 2, 3, 0, 1]) :
          id ∈ (groupOf groups (some (maxAgeControl 1))).selections := by
        rw [← IndexSet.mem_items, selections]
        exact listed
      have included : 0 ∈ (groupOf groups (some (maxAgeControl 1))).fragments := by
        rw [← IndexSet.mem_items, fragments]
        exact mem_cons_self ..
      exact .afterField (.inField (shown 2 (by decide)) (.inFragmentSpread (shown 3 (by decide)) rfl included
        (.leaf (shown 4 (by decide)) (by simp [Selections.members]))))
    have mixed := ((exact (some (maxAgeControl 1)) sharedPath).mp
      ((subsetFor_iff_expansion groups _ rfl rfl _ _).mpr expansion)).2
    revert mixed
    decide

/-- The query `{ a { ...F } b { x } }`. -/
def plainQuery : OperationDefinition :=
  { sharedFragmentQuery with
    selectionSet := .field 0 none "a" [] [] (.fragmentSpread 1 "F" [] .nil)
      (.field 2 none "b" [] [] (.field 3 none "x" [] [] .nil .nil) .nil) }

def plainDocument : ExecutableDocument where
  operations := [plainQuery]
  fragments := sharedFragmentDocument.fragments
  distinct := by decide

/-- The cache controls of the leaves by the selection they end in. -/
def plainControls : List (Option SelectionId × Option CacheControl) :=
  [(some 4, some (maxAgeControl 1)), (some 5, some (maxAgeControl 1)), (some 3, some (maxAgeControl 2))]

theorem leafControl_plain {steps : List Step}
    (occurs : LeafOccurrence sharedTypeRegistry plainDocument plainQuery steps) :
    plainControls.lookup (steps.getLast?.map Step.id) = some (leafControl sharedTypeRegistry steps) := by
  cases occurs with
  | leaf _ bare => exact absurd trivial (bare _ (mem_cons_self ..))
  | inField _ inside =>
    cases inside with
    | inFragmentSpread _ named _ inside =>
      cases named
      cases inside with
      | leaf _ bare => rfl
      | inField _ inside => cases inside
      | afterField later =>
        cases later with
        | leaf _ bare => rfl
        | inField _ inside | afterField inside => cases inside
    | afterFragmentSpread later => cases later
  | afterField later =>
    cases later with
    | leaf _ bare => exact absurd trivial (bare _ (mem_cons_self ..))
    | inField _ inside =>
      cases inside with
      | leaf _ bare => rfl
      | inField _ inside | afterField inside => cases inside
    | afterField later => cases later

theorem exactPartitions_plain : ∃ plan, buildPlan sharedTypeRegistry plainDocument none = some (.ok (some plan)) ∧
      ExactPartitions sharedTypeRegistry plainDocument plainQuery plan := by
  have found : ((buildPlan sharedTypeRegistry plainDocument none).bind Except.toOption).join.isSome := by decide +kernel
  obtain ⟨plan, isPlan⟩ := isSome_iff_exists.mp found
  obtain ⟨result, built, isOk⟩ := bind_eq_some_iff.mp (join_eq_some_iff.mp isPlan)
  cases result with
  | error error => cases isOk
  | ok result =>
    cases isOk
    refine ⟨plan, built, ((exactPartitions_iff sharedTypeRegistry plainDocument none).2 plainQuery plan rfl built).mpr
      (noMixedOccurrence_of_leavesAgree (mem_cons_self ..) fun first second isFirst isSecond same => ?_)⟩
    exact Option.some.inj ((leafControl_plain isFirst).symm.trans (same ▸ leafControl_plain isSecond))

end Grafbase.PartialCaching
