import Grafbase.Foundation.Worklist
import Grafbase.PartialCaching.QueryPartitioner

/-! What has to be part of a query when a fragment is.

The graph leads from a fragment to the fragments in which it is spread, and to
the query. From a fragment all edges above it are followed, each once; their
spreads and fragments are its ancestry.
-/

set_option autoImplicit false

namespace Grafbase.PartialCaching
open Foundation List

structure FragmentGraph where
  directParents : List (FragmentKey × IndexSet (Option FragmentKey))

structure AncestorEdge where
  parentKey : Option FragmentKey
  childKey : FragmentKey
  deriving DecidableEq

namespace FragmentGraph

def addParent (graph : FragmentGraph) (edge : AncestorEdge) : FragmentGraph :=
  ⟨upsert edge.childKey .empty (·.insert edge.parentKey) graph.directParents⟩

def edgesOf (fragmentsInFragments : List (FragmentKey × FragmentSpreadSet)) (fragmentsInQuery : FragmentSpreadSet) :
    List AncestorEdge :=
  (fragmentsInFragments.flatMap fun (parentKey, children) => children.fragmentKeys.map fun key =>
    ⟨some parentKey, key⟩) ++
    fragmentsInQuery.fragmentKeys.map fun key => ⟨none, key⟩

def new (fragmentsInFragments : List (FragmentKey × FragmentSpreadSet)) (fragmentsInQuery : FragmentSpreadSet) :
    FragmentGraph :=
  (edgesOf fragmentsInFragments fragmentsInQuery).foldl addParent ⟨[]⟩

def edgesAbove (graph : FragmentGraph) (key : FragmentKey) : List AncestorEdge :=
  ((graph.directParents.lookup key).getD .empty).items.map fun parent => ⟨parent, key⟩

def following (graph : FragmentGraph) (edge : AncestorEdge) : List AncestorEdge :=
  match edge.parentKey with
  | some parent => graph.edgesAbove parent
  | none => []

def allEdges (graph : FragmentGraph) : List AncestorEdge :=
  graph.directParents.flatMap fun entry => graph.edgesAbove entry.1

def rounds (graph : FragmentGraph) : Nat := graph.allEdges.length + graph.allEdges.length * (graph.allEdges.length + 1)

def ancestorEdges (graph : FragmentGraph) (key : FragmentKey) : Option (List AncestorEdge) :=
  match explore id (fun seen edge => (.ok (seen ++ [edge], graph.following edge) : Except Empty _)) graph.rounds []
    (graph.edgesAbove key).reverse with
  | some (.ok edges) => some edges
  | none => none

section Graph
variable {graph : FragmentGraph} {edge other : AncestorEdge} {key : FragmentKey}

theorem mem_edgesAbove : edge ∈ graph.edgesAbove key ↔ edge.childKey = key ∧
      edge.parentKey ∈ (graph.directParents.lookup key).getD .empty := by
  constructor
  · intro member
    obtain ⟨parent, found, rfl⟩ := mem_map.mp member
    exact ⟨rfl, found⟩
  · rintro ⟨rfl, found⟩
    exact mem_map.mpr ⟨edge.parentKey, found, rfl⟩

theorem mem_edgesAbove_addParent :
    edge ∈ (graph.addParent other).edgesAbove key ↔
      edge ∈ graph.edgesAbove key ∨ edge = other ∧ edge.childKey = key := by
  simp only [mem_edgesAbove, addParent, lookup_upsert]
  cases edge
  cases other
  split
  · next same =>
    subst same
    simp
    tauto
  · next differs =>
    simp only [AncestorEdge.mk.injEq]
    grind

theorem mem_edgesAbove_new {fragmentsInFragments : List (FragmentKey × FragmentSpreadSet)}
    {fragmentsInQuery : FragmentSpreadSet} : edge ∈ (new fragmentsInFragments fragmentsInQuery).edgesAbove key ↔
      edge ∈ edgesOf fragmentsInFragments fragmentsInQuery ∧ edge.childKey = key := by
  rw [new]
  induction edgesOf fragmentsInFragments fragmentsInQuery using List.reverseRecOn with
  | nil => simp [mem_edgesAbove]
  | append_singleton front last ih =>
    rw [foldl_append, foldl_cons, foldl_nil, mem_edgesAbove_addParent, ih, mem_push, or_and_right]

theorem key_of_mem_edgesAbove (member : edge ∈ graph.edgesAbove key) : key ∈ graph.directParents.map Prod.fst := by
  obtain ⟨_, found⟩ := mem_edgesAbove.mp member
  rw [← isSome_lookup]
  cases known : graph.directParents.lookup key with
  | none => simp [known] at found
  | some parents => rfl

theorem edgesAbove_subset_allEdges (key : FragmentKey) : ∀ edge ∈ graph.edgesAbove key, edge ∈ graph.allEdges := by
  intro edge member
  obtain ⟨entry, listed, same⟩ := mem_map.mp (key_of_mem_edgesAbove member)
  exact mem_flatMap.mpr ⟨entry, listed, same ▸ member⟩

theorem length_edgesAbove_le (key : FragmentKey) : (graph.edgesAbove key).length ≤ graph.allEdges.length := by
  cases above : graph.edgesAbove key with
  | nil => simp
  | cons edge rest =>
    obtain ⟨entry, listed, same⟩ := mem_map.mp (key_of_mem_edgesAbove (above ▸ mem_cons_self .. : edge ∈ _))
    have piece : graph.edgesAbove entry.1 ∈ graph.directParents.map fun entry => graph.edgesAbove entry.1 :=
      mem_map_of_mem listed
    rw [← above, ← same]
    exact (sublist_flatten_of_mem piece).length_le

/-- The iterator meets exactly the edges that lie above the fragment. -/
theorem ancestorEdges_spec (graph : FragmentGraph) (key : FragmentKey) : ∃ edges, graph.ancestorEdges key = some edges ∧
      ∀ edge, edge ∈ edges ↔ Reachable graph.following (graph.edgesAbove key) edge := by
  have ends : (explore id (fun seen edge => (.ok (seen ++ [edge], graph.following edge) : Except Empty _))
      graph.rounds []
      (graph.edgesAbove key).reverse).isSome := by
    refine explore_isSome graph.allEdges graph.allEdges.length ?_ ?_ ?_ ?_
    · intro seen edge after found _ visited
      cases visited
      rfl
    · intro seen edge after found _ visited
      cases visited
      unfold following
      split
      · exact ⟨length_edgesAbove_le _, edgesAbove_subset_allEdges _⟩
      · simp
    · exact fun edge member => edgesAbove_subset_allEdges key edge (mem_reverse.mp member)
    · have few : (graph.edgesAbove key).length ≤ graph.allEdges.length := length_edgesAbove_le key
      simp only [length_reverse, unseen, id_eq, not_mem_nil, not_false_eq_true, decide_true, filter_true, rounds]
      omega
  obtain ⟨result, found⟩ := Option.isSome_iff_exists.mp ends
  cases result with
  | error impossible => exact impossible.elim
  | ok edges =>
    refine ⟨edges, by rw [ancestorEdges, found], fun edge => ?_⟩
    have met : edge ∈ id edges ↔ Reachable graph.following (graph.edgesAbove key).reverse edge := by
      refine mem_seen_iff (fun seen edge after found _ visited => ?_) (fun seen edge after found visited other => ?_)
        rfl found edge
      · cases visited
        rfl
      · cases visited
        rfl
    simpa [Reachable] using met

end Graph
end FragmentGraph

/-- All fragments and selections that contain a fragment, directly or not. -/
structure FragmentAncestry where
  fragments : IndexSet FragmentDefinitionId
  selections : IndexSet SelectionId

section Ancestry
variable (fragmentsInFragments : List (FragmentKey × FragmentSpreadSet)) (fragmentsInQuery : FragmentSpreadSet)

/-- The selections in which the child of an edge is spread by its parent. -/
def edgeSelections (edge : AncestorEdge) : IndexSet SelectionId :=
  match edge.parentKey with
  | some parent =>
    ((fragmentsInFragments.lookup parent).bind (·.spreadsForFragment edge.childKey)).getD .empty
  | none => (fragmentsInQuery.spreadsForFragment edge.childKey).getD .empty

def FragmentAncestry.addEdge (ancestry : FragmentAncestry) (edge : AncestorEdge) : FragmentAncestry where
  fragments := ancestry.fragments.extend (edge.parentKey.map FragmentKey.id).toList
  selections := ancestry.selections.extend (edgeSelections fragmentsInFragments fragmentsInQuery edge).items

open FragmentAncestry (addEdge)

def calculateAncestry : Option (List (FragmentKey × FragmentAncestry)) :=
  let graph := FragmentGraph.new fragmentsInFragments fragmentsInQuery
  graph.directParents.mapM fun entry => do
    let edges ← graph.ancestorEdges entry.1
    return (entry.1, edges.foldl (addEdge fragmentsInFragments fragmentsInQuery) ⟨.empty, .empty⟩)

theorem foldl_addEdge (edges : List AncestorEdge) (ancestry : FragmentAncestry) :
    edges.foldl (addEdge fragmentsInFragments fragmentsInQuery) ancestry =
      ⟨ancestry.fragments.extend (edges.flatMap fun edge => (edge.parentKey.map FragmentKey.id).toList),
        ancestry.selections.extend (edges.flatMap fun edge =>
          (edgeSelections fragmentsInFragments fragmentsInQuery edge).items)⟩ := by
  induction edges generalizing ancestry with
  | nil => rfl
  | cons edge rest ih =>
    rw [foldl_cons, ih]
    simp only [addEdge, IndexSet.extend, flatMap_cons, foldl_append]

/-- The ancestry of a fragment consists of what lies on the edges above it. -/
structure FragmentAncestry.Of (fragmentsInFragments : List (FragmentKey × FragmentSpreadSet))
    (fragmentsInQuery : FragmentSpreadSet) (key : FragmentKey) (ancestry : FragmentAncestry) : Prop where
  fragments : ∀ id, id ∈ ancestry.fragments ↔
    ∃ edge, Reachable (FragmentGraph.new fragmentsInFragments fragmentsInQuery).following
      ((FragmentGraph.new fragmentsInFragments fragmentsInQuery).edgesAbove key) edge ∧
      ∃ parent, edge.parentKey = some parent ∧ parent.id = id
  selections : ∀ id, id ∈ ancestry.selections ↔
    ∃ edge, Reachable (FragmentGraph.new fragmentsInFragments fragmentsInQuery).following
      ((FragmentGraph.new fragmentsInFragments fragmentsInQuery).edgesAbove key) edge ∧
      id ∈ edgeSelections fragmentsInFragments fragmentsInQuery edge

theorem calculateAncestry_spec : ∃ ancestors, calculateAncestry fragmentsInFragments fragmentsInQuery = some ancestors ∧
      ∀ key, (∃ edge ∈ FragmentGraph.edgesOf fragmentsInFragments fragmentsInQuery, edge.childKey = key) →
        ∃ ancestry, ancestors.lookup key = some ancestry ∧ ancestry.Of fragmentsInFragments fragmentsInQuery key := by
  choose edges found exact using
    FragmentGraph.ancestorEdges_spec (FragmentGraph.new fragmentsInFragments fragmentsInQuery)
  obtain ⟨ancestryOf, all, of⟩ : ∃ ancestryOf : FragmentKey → FragmentAncestry,
      calculateAncestry fragmentsInFragments fragmentsInQuery =
        some ((FragmentGraph.new fragmentsInFragments fragmentsInQuery).directParents.map fun entry =>
          (entry.1, ancestryOf entry.1)) ∧
      ∀ key, (ancestryOf key).Of fragmentsInFragments fragmentsInQuery key := by
    refine ⟨fun key => (edges key).foldl (addEdge fragmentsInFragments fragmentsInQuery) ⟨.empty, .empty⟩, ?_,
      fun key => ?_⟩
    · simp only [calculateAncestry, found]
      exact mapM_pure
    · constructor <;> simp [foldl_addEdge, exact]
  refine ⟨_, all, fun key ⟨edge, inGraph, isChild⟩ => ?_⟩
  have listed := FragmentGraph.key_of_mem_edgesAbove (FragmentGraph.mem_edgesAbove_new.mpr ⟨inGraph, isChild⟩)
  rw [show Prod.fst = Prod.fst ∘ fun entry => (entry.1, ancestryOf entry.1) from rfl, ← map_map,
    ← isSome_lookup] at listed
  obtain ⟨ancestry, known⟩ := Option.isSome_iff_exists.mp listed
  obtain ⟨other, _, pair⟩ := mem_map.mp (mem_of_lookup_eq_some known)
  obtain ⟨rfl, rfl⟩ := Prod.mk.inj pair
  exact ⟨_, known, of _⟩

end Ancestry
end Grafbase.PartialCaching
