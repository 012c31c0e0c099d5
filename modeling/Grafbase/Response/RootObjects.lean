import Grafbase.Response.Accounting

/-! Root objects and tracked objects after ingestion.

The loop over the slots settles each of them, provided that a prefix returned by
error propagation never covers another failed root object that stays in the
response. The tracked objects that are handed out are then exactly those whose
path crosses no null.
-/

set_option autoImplicit false

namespace Grafbase.Response.ResponseBuilder
open Foundation List
variable {builder base written after : ResponseBuilder} {failed : List ResponseObjectRef}
  {invalidatedPaths : List ResponsePath}
  {path : ResponsePath} {nulled : List Slot} {defaultFields : Option (List ResponseObjectField)} {cursor : Cursor}

/-- The run of the ingestion loop. -/
theorem ingestSlots_spec (errors : List GraphqlError) (anyEdge : ResponseEdge)
    {pairs : List (UpdateSlot × ResponseObjectRef)} (wf : base.WellFormed)
    (admissible : ∀ pair ∈ pairs, Admissible base defaultFields pair) (distinct : (pairs.map (·.2.id)).Nodup)
    (pairwise : pairs.Pairwise fun first second =>
      Fails defaultFields first.1 → Fails defaultFields second.1 → base.Spares first.2 second.2.path) :
    ∃ next failed nulled paths, pairs.foldlM (ingestSlot errors anyEdge defaultFields) (base, []) = .ok (next, paths) ∧
      Ingesting base (pairs.foldl (writeSlot defaultFields) base) failed nulled next paths ∧
      (∀ pair ∈ pairs, Settled errors defaultFields next pair) ∧
      (∀ ref ∈ failed, ∃ pair ∈ pairs, ref = pair.2 ∧ Fails defaultFields pair.1) ∧
      ∀ id ∉ pairs.map (·.2.id), next.edges? id = base.edges? id := by
  induction pairs using List.reverseRecOn with
  | nil =>
    exact ⟨base, [], [], [], rfl, ⟨wf, .refl base, fun _ _ _ found => found, fun _ => rfl, .refl base, by simp, by simp,
      .inl rfl⟩, by simp, by simp, by simp⟩
  | append_singleton pairs pair ih =>
    rw [map_append, nodup_append] at distinct
    obtain ⟨before, _, spares⟩ := pairwise_append.mp pairwise
    have fresh : pair.2.id ∉ pairs.map (·.2.id) := fun member => distinct.2.2 _ member _ (by simp) rfl
    obtain ⟨middle, failed, nulled, paths, ran, state, settled, origin, edges⟩ :=
      ih (fun other member => admissible other (mem_append_left _ member)) distinct.1 before
    have spared (fails : Fails defaultFields pair.1) : ∀ other ∈ failed, base.Spares other pair.2.path := by
      intro other inFailed
      obtain ⟨earlier, member, rfl, failsToo⟩ := origin other inFailed
      exact spares earlier member pair (by simp) failsToo fails
    obtain ⟨next, failed', nulled', paths', stepped, state', evolves, settledPair, others, from'⟩ :=
      state.ingestSlot errors anyEdge (admissible pair (by simp)) spared (edges _ fresh)
    refine ⟨next, failed', nulled', paths', ?_, by rwa [foldl_append], ?_, ?_, ?_⟩
    · rw [foldlM_append]
      exact bind_eq_ok.mpr ⟨_, ran, bind_eq_ok.mpr ⟨_, stepped, rfl⟩⟩
    · intro other member
      rcases mem_push.mp member with old | rfl
      · exact evolves.settled (settled other old)
      · exact settledPair
    · intro ref inFailed
      rcases from' ref inFailed with old | facts
      · obtain ⟨other, member, facts⟩ := origin ref old
        exact ⟨other, mem_append_left _ member, facts⟩
      · exact ⟨pair, by simp, facts⟩
    · intro id absent
      rw [map_append, mem_append, not_or] at absent
      rw [others id (by simpa using absent.2), edges id absent.1]

/-- The path leads from the root to this object or list. -/
def Leads (builder : ResponseBuilder) (path : ResponsePath) (cursor : Cursor) : Prop :=
  ∃ root places, builder.root = some root ∧ builder.walk (.object root.1) path = some (places, cursor)

def readAt (builder : ResponseBuilder) (path : ResponsePath) : Option Cursor := do
  let root ← builder.root
  let (_, cursor) ← builder.walk (.object root.1) path
  some cursor

theorem readAt_eq_some : builder.readAt path = some cursor ↔ builder.Leads path cursor := by
  simp only [readAt, Option.bind_eq_bind, Option.bind_eq_some_iff, Leads]
  constructor
  · rintro ⟨root, rooted, ⟨places, final⟩, walked, same⟩
    obtain rfl := Option.some.inj same
    exact ⟨root, places, rooted, walked⟩
  · rintro ⟨root, places, rooted, walked⟩
    exact ⟨root, rooted, (places, cursor), walked, rfl⟩

/-- Each slot is found on one path only. -/
def Tree (builder : ResponseBuilder) : Prop :=
  ∀ first second cursor cursor' edge edge' value value' place,
    builder.Leads first cursor → builder.lookup cursor edge = some value → slot cursor edge = some place →
    builder.Leads second cursor' → builder.lookup cursor' edge' = some value' → slot cursor' edge' = some place →
    first ++ [edge] = second ++ [edge']

theorem crossesNull_eq_true (wf : builder.WellFormed) (crosses : builder.crossesNull cursor path = true) :
    ∃ init edge rest places middle, path = init ++ edge :: rest ∧ builder.walk cursor init = some (places, middle) ∧
      builder.lookup middle edge = some .null := by
  induction path generalizing cursor with
  | nil => cases crosses
  | cons edge rest ih =>
    rw [crossesNull] at crosses
    cases found : builder.lookup cursor edge with
    | none => simp [found] at crosses
    | some value =>
      obtain ⟨_, place, _, atSlot, _⟩ := wf.step_of_lookup found
      rw [found] at crosses
      cases value with
      | null => exact ⟨[], edge, rest, [], cursor, rfl, rfl, found⟩
      | object id | list id =>
        obtain ⟨init, last, later, places, middle, rfl, walked, null⟩ := ih crosses
        exact ⟨edge :: init, last, later, _, middle, rfl,
          by simp [walk, atSlot, found, ResponseValue.cursor, walked]; rfl, null⟩
      | _ => cases crosses

theorem crossesNull_of_null {init : ResponsePath} {edge : ResponseEdge} {places : List (Slot × Bool)} {middle : Cursor}
    (walked : builder.walk cursor init = some (places, middle)) (null : builder.lookup middle edge = some .null)
    (rest : ResponsePath) : builder.crossesNull cursor (init ++ edge :: rest) = true := by
  induction init generalizing cursor places with
  | nil =>
    obtain ⟨_, rfl⟩ : [] = places ∧ cursor = middle := by simpa [walk] using walked
    simp [crossesNull, null, ResponseValue.isNull]
  | cons first init ih =>
    obtain ⟨_, value, next, below, _, found, kind, walkedBelow, rfl⟩ := walk_cons walked
    rw [cons_append, crossesNull, found]
    simp [kind, ih walkedBelow]

/-- Nothing but nulls was put over the written response. -/
theorem Overlay.walk_back (overlay : Overlay written nulled after) {places : List (Slot × Bool)} {final : Cursor}
    (walked : after.walk cursor path = some (places, final)) : written.walk cursor path = some (places, final) := by
  induction path generalizing cursor places with
  | nil => simpa [ResponseBuilder.walk] using walked
  | cons edge rest ih =>
    obtain ⟨place, value, next, below, atSlot, found, kind, walkedBelow, rfl⟩ := walk_cons walked
    have stored : written.lookup cursor edge = some value := by
      rw [overlay cursor edge] at found
      split at found
      · obtain ⟨_, _, rfl⟩ := Option.map_eq_some_iff.mp found
        cases kind
      · exact found
    simp [ResponseBuilder.walk, atSlot, stored, kind, ih walkedBelow]

section
variable (state : Ingesting base written failed nulled after invalidatedPaths)
include state

/-- Nothing is nulled that propagation did not return a prefix for. -/
theorem Ingesting.invalidates_of_lost (rootKept : written.root = base.root) (tree : written.Tree)
    (present : ¬ written.Lost path) (lost : after.Lost path) : invalidates invalidatedPaths path = true := by
  rw [invalidates_iff]
  rcases state.root with same | returned
  swap
  · exact ⟨[], returned, nil_prefix⟩
  simp only [Lost, not_forall] at present
  obtain ⟨root, rooted, clear⟩ := present
  obtain ⟨init, edge, rest, places, middle, rfl, walked, null⟩ :=
    crossesNull_eq_true state.wellFormed (lost root (by rw [same, ← rootKept, rooted]))
  have writtenWalk := state.overlay.walk_back walked
  rw [state.overlay middle edge] at null
  split at null
  · next hit =>
    obtain ⟨place, member, atPlace⟩ := hit
    obtain ⟨value, stored, _⟩ := Option.map_eq_some_iff.mp null
    obtain ⟨ref, _, position, found, returned⟩ := state.nulls place member
    obtain ⟨other, otherPlaces, final, otherRoot, targetWalk, near⟩ := target_eq_some found
    obtain ⟨_, last, holder, held, above, rfl, _, walkedAbove, lookup, atLast, _⟩ :=
      walk_split (state.preserves.walk targetWalk) (nearest_getElem? near)
    have paths := tree _ _ _ _ _ _ _ _ _ ⟨root, places, rooted, writtenWalk⟩ stored atPlace
      ⟨other, above, rootKept.trans otherRoot, walkedAbove⟩ lookup atLast
    refine ⟨_, returned, ?_⟩
    rw [← (append_inj' paths rfl).1]
    exact prefix_append _ _
  · exact absurd (crossesNull_of_null writtenWalk null rest) clear

theorem Ingesting.lost_of_invalidates (spared : ∀ ref ∈ failed, base.Spares ref path)
    (covered : invalidates invalidatedPaths path = true) : after.Lost path := by
  obtain ⟨_, member, covers⟩ := invalidates_iff.mp covered
  obtain ⟨ref, inFailed, goal, found, rfl, hit⟩ := state.paths _ member
  exact lost_of_hit state.overlay state.preserves state.evolves found hit (spared ref inFailed goal found covers)

end

/-- A root object received what its slot holds, or the default fields with an explanation, or it can
no longer be read. -/
def Accounted (after : ResponseBuilder) (defaultFields : Option (List ResponseObjectField))
    (update : Option UpdateSlot) (ref : ResponseObjectRef) : Prop :=
  (∃ fields, update = some (.fields fields) ∧ after.Received ref fields) ∨
  (∃ fields, defaultFields = some fields ∧ after.Received ref fields ∧ explains after.errors ref.path = true) ∨
  ¬ after.Reaches ref

/-- Every root object is accounted for, and the tracked objects that are handed out are those that do
not lie under a null. -/
structure Accounts (response : SubgraphResponse) (defaultFields : Option (List ResponseObjectField))
    (after : ResponseBuilder)
    (sets : List (ResponseObjectSetId × ResponseObjectSet)) : Prop where
  roots : ∀ (i : Nat) ref, response.rootResponseObjectSet[i]? = some ref →
    Accounted after defaultFields response.updates[i]? ref
  tracked : ∃ kept, sets = response.trackedResponseObjectSetIds.zip kept ∧
    List.Forall₂ (fun refs kept => ∀ ref, ref ∈ kept ↔ ref ∈ refs ∧ ¬ after.Lost ref.path)
      response.trackedResponseObjectSets kept

/-- The response with all fields that the slots hold, before any failure is propagated. -/
def writtenBy (base : ResponseBuilder) (response : SubgraphResponse)
    (defaultFields : Option (List ResponseObjectField)) : ResponseBuilder :=
  (response.updates.zip response.rootResponseObjectSet).foldl (writeSlot defaultFields) base

/-- What a plan is given and what deserialization guarantees. -/
structure Ingestible (base : ResponseBuilder) (response : SubgraphResponse)
    (defaultFields : Option (List ResponseObjectField)) : Prop where
  wellFormed : base.WellFormed
  tree : (base.writtenBy response defaultFields).Tree
  admissible : ∀ pair ∈ response.updates.zip response.rootResponseObjectSet, base.Admissible defaultFields pair
  distinct : (response.rootResponseObjectSet.map (·.id)).Nodup

/-- Root objects without a slot are already gone, no tracked object already lies under a null, and the prefix returned
for a failed root object covers neither a root object that fails later nor a tracked object, unless the nulled value
does. -/
structure Independent (base : ResponseBuilder) (response : SubgraphResponse)
    (defaultFields : Option (List ResponseObjectField)) : Prop where
  slots : ∀ ref ∈ response.rootResponseObjectSet.drop response.updates.length, base.Lost ref.path
  roots : (response.updates.zip response.rootResponseObjectSet).Pairwise fun first second =>
    Fails defaultFields first.1 → Fails defaultFields second.1 → base.Spares first.2 second.2.path
  tracked : ∀ pair ∈ response.updates.zip response.rootResponseObjectSet, Fails defaultFields pair.1 →
    ∀ refs ∈ response.trackedResponseObjectSets, ∀ ref ∈ refs, base.Spares pair.2 ref.path
  present : ∀ refs ∈ response.trackedResponseObjectSets, ∀ ref ∈ refs,
    ¬ (base.writtenBy response defaultFields).Lost ref.path

theorem writtenBy_root (base : ResponseBuilder) (response : SubgraphResponse)
    (defaultFields : Option (List ResponseObjectField)) : (base.writtenBy response defaultFields).root = base.root := by
  refine List.foldlRecOn (motive := fun written : ResponseBuilder => written.root = base.root) _ _ rfl
    fun written same pair _ => ?_
  rw [writeSlot]
  split
  · exact same
  · exact same

theorem Settled.accounted {errors : List GraphqlError}
    {update : UpdateSlot} {ref : ResponseObjectRef} (settled : Settled errors defaultFields after (update, ref))
    (reported : errors ⊆ after.errors) : Accounted after defaultFields (some update) ref := by
  cases update with
  | fields fields => exact .inl ⟨fields, rfl, settled⟩
  | error => exact .inr (.inr (Lost.not_reaches settled))
  | reserved =>
    cases defaultFields with
    | none => exact .inr (.inr (Lost.not_reaches settled))
    | some fields =>
      exact .inr (.inl ⟨fields, rfl, settled.1, settled.2.elim (explains_mono reported) id⟩)

theorem nodup_zip_ids {updates : List UpdateSlot} {refs : ResponseObjectSet} (distinct : (refs.map (·.id)).Nodup) :
    ((updates.zip refs).map (·.2.id)).Nodup := by
  induction refs generalizing updates with
  | nil => simp
  | cons ref rest ih =>
    obtain ⟨fresh, distinct⟩ := nodup_cons.mp distinct
    cases updates with
    | nil => simp
    | cons update more =>
      refine nodup_cons.mpr ⟨fun member => fresh ?_, ih distinct⟩
      obtain ⟨pair, inZip, same⟩ := mem_map.mp member
      exact mem_map.mpr ⟨pair.2, (of_mem_zip inZip).2, same⟩

/-- A list of three nullable items, whose root objects are completed by the part that is reserved. -/
def threeItems : ResponseBuilder where
  root := some (⟨0, 0⟩, 0)
  parts := [
    ⟨0, [⟨[⟨⟨0⟩, none, .list ⟨0, 0, 3⟩ false⟩], by simp⟩, .default, .default, .default],
      [.object ⟨0, 1⟩ true, .object ⟨0, 2⟩ true, .object ⟨0, 3⟩ true]⟩,
    ⟨1, [], []⟩]
  errors := []

def item (i : Nat) : ResponseObjectRef := ⟨⟨0, i + 1⟩, [⟨0⟩, ⟨indexFlag ||| BitVec.ofNat 32 i⟩], 1⟩

/-- The first and the last item fail, the one between receives a child that is tracked. -/
def outerItemsFail : SubgraphResponse where
  data := ⟨1, [.default], []⟩
  rootResponseObjectSet := [item 0, item 1, item 2]
  updates := [.error, .fields [⟨⟨0⟩, none, .object ⟨1, 0⟩ true⟩], .error]
  trackedResponseObjectSetIds := [0]
  trackedResponseObjectSets := [[⟨⟨1, 0⟩, (item 1).path ++ [⟨0⟩], 2⟩]]

/-- The first plan of a query, with a child that a later plan works on. -/
def firstPlan : SubgraphResponse where
  data := ⟨1, [.default], []⟩
  rootResponseObjectSet := [⟨⟨0, 0⟩, [], 0⟩]
  updates := [.fields [⟨⟨0⟩, none, .object ⟨1, 0⟩ true⟩]]
  trackedResponseObjectSetIds := [0]
  trackedResponseObjectSets := [[⟨⟨1, 0⟩, [⟨0⟩], 1⟩]]

def emptyRoot : ResponseBuilder :=
  { root := some (⟨0, 0⟩, 0), parts := [⟨0, [.default], []⟩, ⟨1, [], []⟩], errors := [] }

def emptyRootPlaced : ResponseBuilder := { emptyRoot with parts := [⟨0, [.default], []⟩, ⟨1, [.default], []⟩] }

theorem emptyRootPlaced_object {id : ResponseObjectId} {object : ResponseObject}
    (found : emptyRootPlaced.object? id = some object) : object.fields = [] := by
  obtain ⟨part, atPart, atObject⟩ := Option.bind_eq_some_iff.mp found
  have empty : (emptyRootPlaced.parts.all fun part => part.objects.all (·.fields.isEmpty)) = true := by decide
  have objects := all_eq_true.mp empty part (mem_of_getElem? atPart)
  simpa using all_eq_true.mp objects object (mem_of_getElem? atObject)

theorem emptyRootPlaced_lookup (cursor : Cursor) (edge : ResponseEdge) : emptyRootPlaced.lookup cursor edge = none := by
  cases cursor with
  | object id =>
    cases found : emptyRootPlaced.object? id with
    | none => simp [lookup, found]
    | some object => simp [lookup, found, ResponseObject.get?, emptyRootPlaced_object found]
  | list id =>
    cases unpacked : edge.unpack with
    | boundResponseKey key | extraFieldResponseKey key => simp [lookup, unpacked]
    | index i =>
      rw [lookup, unpacked]
      simp only
      rw [item?_eq]
      cases atPart : emptyRootPlaced.parts[id.partId]? with
      | none => rfl
      | some part =>
        have empty : (emptyRootPlaced.parts.all (·.lists.isEmpty)) = true := by decide
        have lists := all_eq_true.mp empty part (mem_of_getElem? atPart)
        simp [isEmpty_iff.mp lists]

theorem firstPlan_lookup {edge : ResponseEdge} {value : ResponseValue}
    (found : (emptyRootPlaced.writtenBy firstPlan none).lookup cursor edge = some value) :
    cursor = .object ⟨0, 0⟩ ∧ edge = ⟨0⟩ ∧ value = .object ⟨1, 0⟩ true := by
  have extended : (ResponseObject.default.extend [⟨⟨0⟩, none, .object ⟨1, 0⟩ true⟩]).Distinct :=
    ResponseObject.distinct_extend_iff.mpr (by decide)
  have lookups := lookup_extend (show emptyRootPlaced.object? ⟨0, 0⟩ = some .default from rfl) extended cursor edge
  rw [emptyRootPlaced_lookup] at lookups
  replace found := lookups.symm.trans found
  split at found
  · next isRoot =>
    obtain ⟨field, isField, rfl⟩ := Option.map_eq_some_iff.mp found
    obtain rfl : field = _ := mem_singleton.mp (mem_of_find?_eq_some isField)
    exact ⟨isRoot, by simpa [eq_comm] using find?_some isField, rfl⟩
  · cases found

theorem firstPlan_tree : (emptyRootPlaced.writtenBy firstPlan none).Tree := by
  have top {path : ResponsePath} (leads : (emptyRootPlaced.writtenBy firstPlan none).Leads path (.object ⟨0, 0⟩)) :
      path = [] := by
    obtain ⟨root, places, rooted, walked⟩ := leads
    cases path with
    | nil => rfl
    | cons edge rest =>
      obtain ⟨_, value, next, below, _, found, kind, walkedBelow, _⟩ := walk_cons walked
      obtain ⟨_, _, rfl⟩ := firstPlan_lookup found
      cases kind
      cases rest with
      | nil => simp [walk] at walkedBelow
      | cons =>
        obtain ⟨_, _, _, _, _, found, _⟩ := walk_cons walkedBelow
        simpa using (firstPlan_lookup found).1
  intro first second cursor cursor' edge edge' value value' place leads found _ leads' found' _
  obtain ⟨rfl, rfl, _⟩ := firstPlan_lookup found
  obtain ⟨rfl, rfl, _⟩ := firstPlan_lookup found'
  rw [top leads, top leads']

theorem firstPlan_ingestible : Ingestible emptyRootPlaced firstPlan none where
  wellFormed := ⟨closed_of_isClosed (by decide), fun id object found =>
    ⟨by simp [emptyRootPlaced_object found], by simp [emptyRootPlaced_object found]⟩⟩
  tree := firstPlan_tree
  admissible pair member := by
    obtain rfl : pair = (.fields [⟨⟨0⟩, none, .object ⟨1, 0⟩ true⟩], ⟨⟨0, 0⟩, [], 0⟩) := by
      simpa [firstPlan] using member
    refine ⟨.inl ⟨_, [], rfl, rfl⟩, ?_⟩
    rintro fields ⟨⟩
    refine ⟨.default, rfl, ResponseObject.distinct_extend_iff.mpr (by decide), ?_⟩
    intro field inFields cursor kind
    obtain rfl := mem_singleton.mp inFields
    obtain rfl : Cursor.object ⟨1, 0⟩ = cursor := by simpa [ResponseValue.cursor] using kind
    rfl
  distinct := by decide

theorem firstPlan_independent : Independent emptyRootPlaced firstPlan none where
  slots := by simp [firstPlan]
  roots := pairwise_singleton _ _
  tracked pair member fails := by
    obtain rfl : pair = (.fields [⟨⟨0⟩, none, .object ⟨1, 0⟩ true⟩], ⟨⟨0, 0⟩, [], 0⟩) := by
      simpa [firstPlan] using member
    exact fails.elim
  present refs member ref inRefs lost := by
    obtain rfl : refs = [⟨⟨1, 0⟩, [⟨0⟩], 1⟩] := by simpa [firstPlan] using member
    obtain rfl := mem_singleton.mp inRefs
    have crosses := lost (⟨0, 0⟩, 0) (writtenBy_root _ _ _)
    rw [crossesNull] at crosses
    split at crosses
    · cases crosses
    · next value found =>
      obtain ⟨_, _, rfl⟩ := firstPlan_lookup found
      cases crosses

end Grafbase.Response.ResponseBuilder
