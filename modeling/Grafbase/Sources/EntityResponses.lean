import Grafbase.Response.Ingest
import Grafbase.Sources.EntityCache

/-! Errors in the responses to requests for entities.

Only the entities that are not cached are in the response, and errors name an
entity by its position there.
-/

set_option autoImplicit false

namespace Grafbase.Sources
open Foundation Execution Response List

def asU64 : Json → Option Nat
  | .number (.posInt value) => some value.toNat
  | _ => none

def asStr : Json → Option String
  | .string value => some value
  | _ => none

structure SubgraphGraphqlError where
  message : String
  path : Json
  extensions : Json

section Errors
variable (responseKeys : String → Option ResponseKey)

/-- The loop of `convert_path`, over the edges below the root object. -/
def convertEdges : List Json → ResponsePath → Checked (Option ResponsePath)
  | [], out => .ok (some out)
  | edge :: path, out =>
    match asU64 edge, (asStr edge).bind responseKeys with
    | some index, _ => do convertEdges path (out ++ [← UnpackedResponseEdge.pack (.index index)])
    | none, some key => do convertEdges path (out ++ [← UnpackedResponseEdge.pack (.extraFieldResponseKey key)])
    | none, none => .ok none

/-- `EntitiesErrorsSeed::convert_path` -/
def convertPath (objects : ResponseObjectSet) : Json → Checked (Option ResponsePath)
  | .array (root :: index :: path) =>
    match decide (asStr root = some "_entities"), (asU64 index).bind (objects[·]?) with
    | true, some object => convertEdges responseKeys path object.path
    | _, _ => .ok none
  | _ => .ok none

def isNull : Json → Bool
  | .null => true
  | _ => false

def withExtension (error : GraphqlError) (name : String) (value : Json) : GraphqlError :=
  { error with extensions := error.extensions ++ [(name, value)] }

/-- What `ConcreteGraphqlErrorsSeed` pushes for an error of the response. -/
def recordError (objects : ResponseObjectSet) (error : SubgraphGraphqlError) : Checked GraphqlError := do
  let recorded := GraphqlError.new error.message .subgraphError
  let recorded := match ← convertPath responseKeys objects error.path with
    | some path => recorded.withPath path
    | none => if isNull error.path then recorded else withExtension recorded "upstream_path" error.path
  .ok (if isNull error.extensions then recorded else withExtension recorded "upstream_extensions" error.extensions)

def edge? (key : Json) : Option ResponseEdge :=
  match asU64 key, (asStr key).bind responseKeys with
  | some index, _ => (UnpackedResponseEdge.pack (.index index)).toOption
  | none, some key => (UnpackedResponseEdge.pack (.extraFieldResponseKey key)).toOption
  | none, none => none

/-- The root objects with their cache entries. Each of them has a path of its own. -/
structure EntityRoots where
  entries : List (ResponseObjectRef × CacheEntry)
  distinct : (entries.map (·.1.path)).Nodup

def EntityRoots.objects (roots : EntityRoots) : ResponseObjectSet := roots.entries.map Prod.fst

/-- The root objects whose representations are sent. -/
def EntityRoots.sent (roots : EntityRoots) : ResponseObjectSet := (roots.entries.filter (·.2.isMiss)).map Prod.fst

/-- An error about an entity is recorded at the root object whose representation it answers. -/
def AttributesError (roots : EntityRoots) (error : SubgraphGraphqlError) : Prop :=
  ∀ index keys object, error.path = .array (.string "_entities" :: .number (.posInt index) :: keys) →
    roots.sent[index.toNat]? = some object → ∃ recorded edges, recordError responseKeys roots.objects
      error = .ok recorded ∧
      keys.mapM (edge? responseKeys) = some edges ∧ recorded.path = some (object.path ++ edges)

end Errors

variable {responseKeys : String → Option ResponseKey}

theorem convertEdges_eq_some {path : List Json} {out result : ResponsePath} :
    convertEdges responseKeys path out = .ok (some result) ↔
      ∃ edges, path.mapM (edge? responseKeys) = some edges ∧ result = out ++ edges := by
  induction path generalizing out with
  | nil => simp [convertEdges, eq_comm]
  | cons edge path ih =>
    have pushed (packed : Checked ResponseEdge) :
        (packed >>= fun edge => convertEdges responseKeys path (out ++ [edge])) = .ok (some result) ↔
          ∃ edges, (do return (← packed.toOption) :: (← path.mapM (edge? responseKeys))) = some edges ∧
            result = out ++ edges := by
      cases packed with
      | error => simp [bind, Except.bind, Except.toOption]
      | ok edge =>
        simp only [bind, Except.bind, Except.toOption, ih]
        cases path.mapM (edge? responseKeys) <;> simp
    rw [convertEdges, mapM_cons, edge?]
    split
    · exact pushed _
    · exact pushed _
    · simp

theorem recordError_path {objects : ResponseObjectSet} {error : SubgraphGraphqlError} {path : ResponsePath} :
    (∃ recorded, recordError responseKeys objects error = .ok recorded ∧ recorded.path = some path) ↔
      convertPath responseKeys objects error.path = .ok (some path) := by
  unfold recordError
  cases converted : convertPath responseKeys objects error.path with
  | error panic => simp [bind, Except.bind]
  | ok found =>
    cases found with
    | none => simp [bind, Except.bind, GraphqlError.new, withExtension, apply_ite GraphqlError.path]
    | some found => simp [bind, Except.bind, GraphqlError.withPath, withExtension, apply_ite GraphqlError.path]

/-- The positions of an object among all and among those that are sent agree when no hit comes before it. -/
theorem EntityRoots.path_eq_iff {roots : EntityRoots} {index : Nat} {object other : ResponseObjectRef}
    (isSent : roots.sent[index]? = some object) (found : roots.objects[index]? = some other) :
    other.path = object.path ↔ ∀ root ∈ roots.entries.take (index + 1), root.2.isMiss = true := by
  have split : roots.entries.take (index + 1) ++ roots.entries.drop (index + 1) = roots.entries :=
    take_append_drop ..
  have inside : index < roots.entries.length := by
    simpa [EntityRoots.objects] using index_lt found
  rw [EntityRoots.sent, ← split, filter_append, map_append] at isSent
  rw [EntityRoots.objects, ← split, map_append, getElem?_append_left (by simp [inside])] at found
  constructor
  · intro same root member
    by_contra hit
    -- With a hit among them, the first objects are not enough, and the object is one of the others.
    have few : ((roots.entries.take (index + 1)).filter (·.2.isMiss)).length < index + 1 :=
      (length_filter_lt_length_iff_exists.mpr ⟨root, member, hit⟩).trans_eq (length_take_of_le inside)
    rw [getElem?_append_right (by simpa using Nat.le_of_lt_succ few)] at isSent
    obtain ⟨later, isLater, rfl⟩ := mem_map.mp (mem_of_getElem? isSent)
    obtain ⟨early, isEarly, rfl⟩ := mem_map.mp (mem_of_getElem? found)
    have distinct := roots.distinct
    rw [← split, map_append, nodup_append] at distinct
    exact distinct.2.2 _ (mem_map_of_mem isEarly) _ (mem_map_of_mem (mem_filter.mp isLater).1) same
  · intro misses
    rw [filter_eq_self.mpr misses, getElem?_append_left (by simp [inside]), found] at isSent
    rw [Option.some.inj isSent]

/-- An error is attributed to the right object exactly when its path below the entity can be converted and no hit comes
before the entity: its position is looked up among all root objects. -/
theorem attributesError_iff (responseKeys : String → Option ResponseKey) (roots : EntityRoots)
    (error : SubgraphGraphqlError) : AttributesError responseKeys roots error ↔
      ∀ index keys, error.path = .array (.string "_entities" :: .number (.posInt index) :: keys) →
        index.toNat < roots.sent.length → (keys.mapM (edge? responseKeys)).isSome ∧
          ∀ root ∈ roots.entries.take (index.toNat + 1), root.2.isMiss = true := by
  have aligned {index : BitVec 64} {keys : List Json} {object : ResponseObjectRef} {edges : List ResponseEdge}
      (isPath : error.path = .array (.string "_entities" :: .number (.posInt index) :: keys))
      (isSent : roots.sent[index.toNat]? = some object) (converted : keys.mapM (edge? responseKeys) = some edges) :
      (∃ recorded, recordError responseKeys roots.objects error = .ok recorded ∧
        recorded.path = some (object.path ++ edges)) ↔
      ∀ root ∈ roots.entries.take (index.toNat + 1), root.2.isMiss = true := by
    have inside : index.toNat < roots.objects.length := by
      refine lt_of_lt_of_le (index_lt isSent) ?_
      simpa [EntityRoots.sent, EntityRoots.objects] using length_filter_le _ roots.entries
    have found := getElem?_eq_getElem inside
    rw [recordError_path, isPath, ← roots.path_eq_iff isSent found]
    simp only [convertPath, asStr, asU64, found, decide_true, Option.bind_some, convertEdges_eq_some, converted,
      Option.some.injEq, exists_eq_left']
    rw [append_cancel_right_eq, eq_comm]
  constructor
  · intro attributes index keys isPath inside
    have isSent := getElem?_eq_getElem inside
    obtain ⟨recorded, edges, ran, converted, isRecorded⟩ := attributes index keys _ isPath isSent
    exact ⟨by simp [converted], (aligned isPath isSent converted).mp ⟨recorded, ran, isRecorded⟩⟩
  · intro condition index keys object isPath isSent
    obtain ⟨known, misses⟩ := condition index keys isPath (index_lt isSent)
    obtain ⟨edges, converted⟩ := Option.isSome_iff_exists.mp known
    obtain ⟨recorded, ran, isRecorded⟩ := (aligned isPath isSent converted).mpr misses
    exact ⟨recorded, edges, ran, converted, isRecorded⟩

/-- The first of two entities is cached, and the subgraph reports an error for the other one. -/
theorem not_attributesError_behind_hit :
    let first : ResponseObjectRef := ⟨⟨0, 0⟩, [⟨1⟩], 0⟩
    let second : ResponseObjectRef := ⟨⟨0, 1⟩, [⟨2⟩], 0⟩
    let roots : EntityRoots := ⟨[(first, .hit []), (second, .miss "")], by decide⟩
    let error : SubgraphGraphqlError := ⟨"", .array [.string "_entities", .number (.posInt 0)], .null⟩
    roots.sent = [second] ∧ recordError (fun _ => none) roots.objects error =
        .ok ((GraphqlError.new "" .subgraphError).withPath first.path) ∧
      ¬ AttributesError (fun _ => none) roots error := by
  refine ⟨rfl, rfl, fun attributes => ?_⟩
  obtain ⟨recorded, edges, ran, converted, isRecorded⟩ := attributes 0 [] _ rfl rfl
  cases ran
  cases converted
  cases isRecorded

end Grafbase.Sources
