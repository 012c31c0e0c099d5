import Grafbase.Foundation.Entries
import Grafbase.PartialCaching.Visitor
import Mathlib.Data.List.Induction

/-! The two visitors of the planner.

The partitioner puts every leaf into the partition of the cache control that
is active there, together with the selections around it. The tracker notes
which fragments are spread, under which cache control, and within which
selections.
-/

set_option autoImplicit false

namespace Grafbase.PartialCaching
open Foundation List

/-- A fragment with the cache control that was active where it was spread. -/
structure FragmentKey where
  id : FragmentDefinitionId
  spreadCacheControl : Option CacheControl
  deriving DecidableEq

structure PlanningPartition where
  selections : IndexSet SelectionId
  fragments : IndexSet FragmentKey

def PlanningPartition.empty : PlanningPartition := ⟨.empty, .empty⟩

/-- Walks up the stack as long as the selections are new. -/
def insertUntilKnown : List SelectionId → IndexSet SelectionId → IndexSet SelectionId
  | [], selections => selections
  | id :: above, selections =>
    if id ∈ selections then selections else insertUntilKnown above (selections.insert id)

def PlanningPartition.update (partition : PlanningPartition) (selectionStack : List SelectionId)
    (currentFragment : Option FragmentKey) : PlanningPartition where
  fragments := partition.fragments.extend currentFragment.toList
  selections := insertUntilKnown selectionStack partition.selections

structure Partitions where
  currentFragment : Option FragmentKey
  cachePartitions : List (CacheControl × PlanningPartition)
  nocachePartition : PlanningPartition

namespace Partitions

def new : Partitions := ⟨none, [], .empty⟩

def recordLeaf (selectionStack : List SelectionId) (control : Option CacheControl) (partitions : Partitions) :
    Partitions :=
  match control with
  | some control =>
    { partitions with
      cachePartitions := upsert control .empty (·.update selectionStack partitions.currentFragment)
        partitions.cachePartitions }
  | none =>
    { partitions with
      nocachePartition := partitions.nocachePartition.update selectionStack partitions.currentFragment }

def partition (partitions : Partitions) : Option CacheControl → PlanningPartition
  | some control => (partitions.cachePartitions.lookup control).getD .empty
  | none => partitions.nocachePartition

@[simp] theorem currentFragment_recordLeaf (stack : List SelectionId) (control : Option CacheControl)
    (partitions : Partitions) : (partitions.recordLeaf stack control).currentFragment = partitions.currentFragment := by
  cases control <;> rfl

theorem partition_recordLeaf (stack : List SelectionId) (control other : Option CacheControl)
    (partitions : Partitions) : (partitions.recordLeaf stack control).partition other =
      if control = other then (partitions.partition other).update stack partitions.currentFragment
      else partitions.partition other := by
  cases control with
  | none =>
    cases other with
    | none => rfl
    | some other => rfl
  | some control =>
    cases other with
    | none => rfl
    | some other =>
      simp only [recordLeaf, partition, lookup_upsert, Option.some.injEq]
      split
      · next same => cases same; simp
      · next different => simp [Ne.symm different]

end Partitions

/-- A known selection of the stack has only known selections above it. -/
def ClosedAlong (stack : List SelectionId) (selections : IndexSet SelectionId) : Prop :=
  ∀ id above, id :: above <:+ stack → id ∈ selections → ∀ other ∈ above, other ∈ selections

/-- Stopping at the first known selection loses nothing when those above it are known. -/
theorem mem_insertUntilKnown {stack : List SelectionId} {selections : IndexSet SelectionId} (distinct : stack.Nodup)
    (closed : ClosedAlong stack selections) {other : SelectionId} :
    other ∈ insertUntilKnown stack selections ↔ other ∈ selections ∨ other ∈ stack := by
  induction stack generalizing selections with
  | nil => simp [insertUntilKnown]
  | cons id above ih =>
    rw [insertUntilKnown, mem_cons]
    split
    · next known =>
      refine ⟨.inl, ?_⟩
      rintro (old | rfl | higher)
      · exact old
      · exact known
      · exact closed id above suffix_rfl known other higher
    · obtain ⟨notAbove, distinctAbove⟩ := nodup_cons.mp distinct
      rw [ih distinctAbove, IndexSet.mem_insert, or_assoc]
      intro next higher within known
      rcases IndexSet.mem_insert.mp known with old | rfl
      · exact fun other member => IndexSet.mem_insert.mpr (.inl
          (closed next higher (within.trans (suffix_cons id above)) old other member))
      · exact absurd (within.subset (mem_cons_self ..)) notAbove

/-- A leaf, with the fragment in which it was met. -/
structure Leaf where
  site : Option FragmentKey
  path : List SelectionId
  control : Option CacheControl

/-- A path of a document leads to each of its selections through the ancestors of that selection. -/
def IsPath (document : ExecutableDocument) (path : List SelectionId) : Prop :=
  ∀ above id below, path = above ++ id :: below → ∃ body ∈ document.bodies, body.Ancestors id above

variable {document : ExecutableDocument} {path : List SelectionId} {partitions : Partitions}

theorem IsPath.above_eq {other : List SelectionId} (first : IsPath document path)
    (second : IsPath document other) {id : SelectionId} {above below otherAbove otherBelow : List SelectionId}
    (split : path = above ++ id :: below) (otherSplit : other = otherAbove ++ id :: otherBelow) :
      above = otherAbove := by
  obtain ⟨body, inDocument, found⟩ := first above id below split
  obtain ⟨otherBody, otherIn, again⟩ := second otherAbove id otherBelow otherSplit
  exact document.ancestors_unique inDocument otherIn found again

theorem IsPath.nodup (isPath : IsPath document path) : path.Nodup := by
  rw [nodup_iff_getElem?_ne_getElem?]
  intro first second before bound same
  -- Two occurrences of a selection would have ancestor lists of different lengths.
  have bound' : first < path.length := by omega
  have split (index : Nat) (inside : index < path.length) :
      path = path.take index ++ path[index] :: path.drop (index + 1) := by
    rw [← drop_eq_getElem_cons inside, take_append_drop]
  have equal : path[first] = path[second] := by
    rw [getElem?_eq_getElem bound', getElem?_eq_getElem bound] at same
    exact Option.some.inj same
  have above := isPath.above_eq isPath (split first bound') (equal ▸ split second bound)
  have lengths := congrArg List.length above
  rw [length_take, length_take] at lengths
  omega

/-- Everything recorded for a cache control comes from the leaves met under it. -/
structure Collected (leaves : List Leaf) (partitions : Partitions) : Prop where
  selections : ∀ control id, id ∈ (partitions.partition control).selections ↔
    ∃ leaf ∈ leaves, leaf.control = control ∧ id ∈ leaf.path
  fragments : ∀ control key, key ∈ (partitions.partition control).fragments ↔
    ∃ leaf ∈ leaves, leaf.control = control ∧ leaf.site = some key

theorem Collected.initial : Collected [] .new where
  selections control id := by cases control <;> simp [Partitions.partition, Partitions.new, PlanningPartition.empty]
  fragments control key := by cases control <;> simp [Partitions.partition, Partitions.new, PlanningPartition.empty]

/-- Recording a leaf adds it, although the walk up its path may stop early. -/
theorem Collected.recordLeaf {leaves : List Leaf}
    (collected : Collected leaves partitions) (paths : ∀ leaf ∈ leaves, IsPath document leaf.path)
      (isPath : IsPath document path) (control : Option CacheControl) :
    Collected (leaves ++ [⟨partitions.currentFragment, path, control⟩])
      (partitions.recordLeaf path.reverse control) := by
  have closed : ClosedAlong path.reverse (partitions.partition control).selections := by
    intro id above within known other member
    obtain ⟨leaf, inLeaves, ofControl, onPath⟩ := (collected.selections control id).mp known
    obtain ⟨before, after, split⟩ := append_of_mem onPath
    obtain ⟨front, whole⟩ := within
    have pathSplit : path = above.reverse ++ id :: front.reverse := by
      rw [← reverse_reverse path, ← whole]
      simp
    have same := isPath.above_eq (paths leaf inLeaves) pathSplit split
    refine (collected.selections control other).mpr ⟨leaf, inLeaves, ofControl, ?_⟩
    rw [split, ← same]
    exact mem_append_left _ (mem_reverse.mpr member)
  constructor
  · intro wanted id
    rw [Partitions.partition_recordLeaf]
    split
    · next same =>
      subst same
      rw [PlanningPartition.update, mem_insertUntilKnown (nodup_reverse.mpr isPath.nodup) closed, collected.selections]
      simp [or_and_right, exists_or]
    · next different =>
      rw [collected.selections]
      simp [or_and_right, exists_or, different]
  · intro wanted key
    rw [Partitions.partition_recordLeaf]
    split
    · next same =>
      subst same
      rw [PlanningPartition.update, IndexSet.mem_extend, collected.fragments]
      simp [or_and_right, exists_or, eq_comm]
    · next different =>
      rw [collected.fragments]
      simp [or_and_right, exists_or, different]

abbrev QueryPartitioner := Traversal Partitions

namespace QueryPartitioner

def new (rootCacheControl : Option CacheControl) : QueryPartitioner := ⟨[], rootCacheControl.toList, .new⟩

def forNextFragment (partitioner : QueryPartitioner) (nextFragment : FragmentKey) : QueryPartitioner :=
  { partitioner with
    cacheControlStack := nextFragment.spreadCacheControl.toList
    output := { partitioner.output with currentFragment := some nextFragment } }

def handlers : Handlers Partitions where
  leaf stack control := Partitions.recordLeaf stack control
  spread _ _ _ := id

end QueryPartitioner

def siteLeaves (site : Option FragmentKey) (met : List Event) : List Leaf :=
  met.filterMap fun
    | .leaf path control => some ⟨site, path, control⟩
    | .spread _ _ _ => none

variable {met : List Event}

theorem mem_siteLeaves {site : Option FragmentKey} {leaf : Leaf} :
    leaf ∈ siteLeaves site met ↔ leaf.site = site ∧ .leaf leaf.path leaf.control ∈ met := by
  constructor
  · intro member
    obtain ⟨event, found, same⟩ := mem_filterMap.mp member
    cases event with
    | leaf path control =>
      cases same
      exact ⟨rfl, found⟩
    | spread path name control => cases same
  · rintro ⟨rfl, found⟩
    exact mem_filterMap.mpr ⟨_, found, rfl⟩

/-- A walk adds all leaves it meets. -/
theorem Collected.walk {leaves : List Leaf}
    (collected : Collected leaves partitions) (paths : ∀ leaf ∈ leaves, IsPath document leaf.path)
    (metPaths : ∀ event ∈ met, IsPath document event.path) :
    Collected (leaves ++ siteLeaves partitions.currentFragment met)
      (met.foldl (QueryPartitioner.handlers.handle []) partitions) := by
  induction met generalizing leaves partitions with
  | nil => simpa [siteLeaves] using collected
  | cons event rest ih =>
    have later : ∀ event ∈ rest, IsPath document event.path := fun other member => metPaths other (by simp [member])
    cases event with
    | leaf path control =>
      have isPath : IsPath document path := metPaths (.leaf path control) (by simp)
      have recorded := collected.recordLeaf paths isPath control
      have next := ih recorded (by
        intro leaf member
        rcases mem_push.mp member with old | rfl
        · exact paths leaf old
        · exact isPath) later
      simpa [siteLeaves, Handlers.handle, QueryPartitioner.handlers] using next
    | spread path name control =>
      simpa [siteLeaves, Handlers.handle, QueryPartitioner.handlers] using ih collected paths later

abbrev FragmentSpreadSet := List (FragmentKey × IndexSet SelectionId)

namespace FragmentSpreadSet

def insert (spreads : FragmentSpreadSet) (key : FragmentKey) (selections : IndexSet SelectionId) : FragmentSpreadSet :=
  upsert key .empty (·.extend selections.items) spreads

def spreadsForFragment (spreads : FragmentSpreadSet) (key : FragmentKey) : Option (IndexSet SelectionId) :=
  List.lookup key spreads

def fragmentKeys (spreads : FragmentSpreadSet) : List FragmentKey := spreads.map Prod.fst

end FragmentSpreadSet

open FragmentSpreadSet (spreadsForFragment fragmentKeys)

structure Tracked where
  spreads : FragmentSpreadSet
  missingFragments : List String

abbrev FragmentTracker := Traversal Tracked

inductive PlanError where
  | missingFragment (name : String)
  | missingFragments (names : List String)
  | noOperationNamed (name : String)
  | noOperations

namespace FragmentTracker
variable (document : ExecutableDocument)

def new (rootCacheControl : Option CacheControl) : FragmentTracker := ⟨[], rootCacheControl.toList, ⟨[], []⟩⟩

def trackSpread (stack : List SelectionId) (name : String) (control : Option CacheControl)
    (tracked : Tracked) : Tracked :=
  match document.fragmentNamed name with
  | some id => { tracked with spreads := tracked.spreads.insert ⟨id, control⟩ (.ofList stack.reverse) }
  | none => { tracked with missingFragments := tracked.missingFragments ++ [name] }

def handlers : Handlers Tracked where
  leaf _ _ := id
  spread stack name control := trackSpread document stack name control

def intoSpreads (tracked : Tracked) : Except PlanError FragmentSpreadSet :=
  match tracked.missingFragments with
  | [] => .ok tracked.spreads
  | [name] => .error (.missingFragment name)
  | names => .error (.missingFragments names)

/-- A spread of the fragment of a key, under the cache control of the key. -/
def Spreads (met : List Event) (key : FragmentKey) (path : List SelectionId) : Prop :=
  ∃ name, .spread path name key.spreadCacheControl ∈ met ∧ document.fragmentNamed name = some key.id

structure Tracks (met : List Event) (tracked : Tracked) : Prop where
  keys : ∀ key, key ∈ tracked.spreads.fragmentKeys ↔ ∃ path, Spreads document met key path
  selections : ∀ key id, id ∈ (tracked.spreads.spreadsForFragment key).getD .empty ↔
    ∃ path, Spreads document met key path ∧ id ∈ path

variable {document} {other : List SelectionId} {control : Option CacheControl} {key : FragmentKey} {tracked : Tracked}

theorem spreads_append_leaf :
    Spreads document (met ++ [.leaf path control]) key other ↔ Spreads document met key other := by
  simp [Spreads]

theorem spreads_append_spread {name : String} :
    Spreads document (met ++ [.spread path name control]) key other ↔ Spreads document met key other ∨
      (other = path ∧ key.spreadCacheControl = control ∧ document.fragmentNamed name = some key.id) := by
  constructor
  · rintro ⟨found, member, named⟩
    rcases mem_push.mp member with old | new
    · exact .inl ⟨found, old, named⟩
    · cases new
      exact .inr ⟨rfl, rfl, named⟩
  · rintro (⟨found, member, named⟩ | ⟨rfl, rfl, named⟩)
    · exact ⟨found, mem_append_left _ member, named⟩
    · exact ⟨name, mem_append_right _ (mem_singleton_self _), named⟩

theorem Tracks.step (tracks : Tracks document met tracked) (event : Event) :
    Tracks document (met ++ [event]) ((handlers document).handle [] tracked event) := by
  cases event with
  | leaf path control =>
    exact ⟨fun key => (tracks.keys key).trans (by simp [spreads_append_leaf]),
      fun key id => (tracks.selections key id).trans (by simp [spreads_append_leaf])⟩
  | spread path name control =>
    simp only [Handlers.handle, handlers, trackSpread, append_nil, reverse_reverse]
    split
    · next fragment named =>
      have isKey (key : FragmentKey) : (key.spreadCacheControl = control ∧ document.fragmentNamed name = some key.id) ↔
          key = ⟨fragment, control⟩ := by
        cases key
        simp [named, and_comm, eq_comm]
      constructor
      · intro key
        simp only [FragmentSpreadSet.insert, fragmentKeys, mem_map_fst_upsert, spreads_append_spread,
          isKey, exists_or, exists_eq_left]
        rw [← tracks.keys key]
        rfl
      · intro key id
        simp only [FragmentSpreadSet.insert, spreadsForFragment, lookup_upsert, spreads_append_spread,
          isKey, or_and_right, exists_or]
        rw [← tracks.selections key id]
        split
        · next same => simp [same, spreadsForFragment]
        · next different => simp [different, spreadsForFragment]
    · next missing =>
      have noKey (key : FragmentKey) : document.fragmentNamed name ≠ some key.id := by simp [missing]
      exact ⟨fun key => by simpa [spreads_append_spread, noKey] using tracks.keys key,
        fun key id => by simpa [spreads_append_spread, noKey] using tracks.selections key id⟩

theorem tracks_walk (met : List Event) : Tracks document met (met.foldl ((handlers document).handle []) ⟨[], []⟩) := by
  induction met using List.reverseRecOn with
  | nil => exact ⟨by simp [Spreads, fragmentKeys], by simp [Spreads, spreadsForFragment]⟩
  | append_singleton front last ih =>
    rw [foldl_append]
    exact ih.step last

theorem intoSpreads_eq_ok {spreads : FragmentSpreadSet} (found : intoSpreads tracked = .ok spreads) :
    tracked.spreads = spreads := by
  unfold intoSpreads at found
  split at found
  · exact Except.ok.inj found
  · cases found
  · cases found

end FragmentTracker
end Grafbase.PartialCaching
