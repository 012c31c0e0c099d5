import Grafbase.Response.Ingest

/-! Every root object is accounted for.

`Evolves` is what any ingestion does to a response: values stay or become null,
objects only gain fields. `Overlay` says that a response is the one with the
fields of the slots written so far, except for some slots that were set to null.
-/

set_option autoImplicit false

namespace Grafbase.Response.ResponseBuilder
open Foundation List
open ResponseBuilder (ingestSlot crossesNull)
variable {builder base before after written : ResponseBuilder}

/-- The field is there, with its value or, if that was nulled since, with null. -/
def Keeps (object : ResponseObject) (field : ResponseObjectField) : Prop :=
  ∃ kept ∈ object.fields, kept.edge = field.edge ∧ kept.requiredFieldId = field.requiredFieldId ∧
    (kept.value = field.value ∨ kept.value = .null)

structure Evolves (before after : ResponseBuilder) : Prop where
  root : after.root = before.root ∨ after.root = none
  valid : ∀ cursor, before.Valid cursor → after.Valid cursor
  lookups : ∀ cursor edge value, before.lookup cursor edge = some value →
    after.lookup cursor edge = some value ∨ after.lookup cursor edge = some .null
  fields : ∀ id old, before.object? id = some old → ∃ new, after.object? id = some new ∧
    ∀ field ∈ old.fields, Keeps new field
  errors : before.errors ⊆ after.errors

variable {object : ResponseObject} {fields : List ResponseObjectField} {path : ResponsePath}
  {places : List (Slot × Bool)} {ref : ResponseObjectRef} {nulled : List Slot} {invalidatedPaths : List ResponsePath}
  {failed : List ResponseObjectRef} {field : ResponseObjectField} {id : ResponseValueId} {place : Slot}
  {cursor final : Cursor} {other : ResponsePath} {goal : Option (Nat × Slot)} {errors : List GraphqlError}
  {defaultFields : Option (List ResponseObjectField)} {pair : UpdateSlot × ResponseObjectRef}

theorem Keeps.refl (member : field ∈ object.fields) : Keeps object field := ⟨field, member, rfl, rfl, .inl rfl⟩

theorem Keeps.trans {old new : ResponseObject} (kept : Keeps old field)
    (keeps : ∀ field ∈ old.fields, Keeps new field) : Keeps new field := by
  obtain ⟨middle, inOld, edge, required, value⟩ := kept
  obtain ⟨last, inNew, edge', required', value'⟩ := keeps middle inOld
  refine ⟨last, inNew, edge'.trans edge, required'.trans required, ?_⟩
  rcases value' with same | null
  · exact value.imp (same.trans ·) (same.trans ·)
  · exact .inr null

/-- As long as the parts stay, only the root and the errors matter. -/
theorem Evolves.of_parts (parts : before.parts = after.parts) (root : after.root = before.root ∨ after.root = none)
    (errors : before.errors ⊆ after.errors) : Evolves before after := by
  obtain ⟨_, _, _⟩ := before
  cases parts
  exact ⟨root, fun _ valid => valid, fun _ _ _ found => .inl found,
    fun _ old found => ⟨old, found, fun _ member => .refl member⟩, errors⟩

theorem Evolves.refl (builder : ResponseBuilder) : Evolves builder builder :=
  .of_parts rfl (.inl rfl) (List.Subset.refl _)

theorem Evolves.trans {middle : ResponseBuilder} (first : Evolves before middle) (second : Evolves middle after) :
    Evolves before after where
  root := by
    rcases second.root with same | none
    · exact first.root.imp (same.trans ·) (same.trans ·)
    · exact .inr none
  valid cursor valid := second.valid cursor (first.valid cursor valid)
  lookups cursor edge value found := by
    rcases first.lookups cursor edge value found with same | null
    · exact second.lookups cursor edge value same
    · exact .inr ((second.lookups cursor edge .null null).elim id id)
  fields id old found := by
    obtain ⟨middle, atMiddle, keeps⟩ := first.fields id old found
    obtain ⟨new, atNew, keeps'⟩ := second.fields id middle atMiddle
    exact ⟨new, atNew, fun field member => (keeps field member).trans keeps'⟩
  errors := List.Subset.trans first.errors second.errors

theorem Evolves.withErrors (builder : ResponseBuilder) (errors : List GraphqlError) :
    Evolves builder { builder with errors := builder.errors ++ errors } :=
  .of_parts rfl (.inl rfl) (subset_append_left _ _)

theorem keeps_set (position : Nat) (member : field ∈ object.fields) : Keeps (object.set position .null) field := by
  obtain ⟨i, atField⟩ := getElem?_of_mem member
  by_cases same : position = i
  · refine ⟨{ field with value := .null }, mem_of_getElem? (i := i) ?_, rfl, rfl, .inr rfl⟩
    simp [ResponseObject.set, same, atField]
  · refine ⟨field, mem_of_getElem? (i := i) ?_, rfl, rfl, .inl rfl⟩
    simp [ResponseObject.set, same, atField]

theorem Evolves.setNull (wf : builder.WellFormed)
    (names : builder.Names id place) : Evolves builder (builder.setNull id) where
  root := .inl (setNull_root builder id)
  valid cursor valid := (valid_setNull builder id cursor).mpr valid
  lookups cursor edge value found := by
    rw [wf.lookup_setNull names]
    split
    · exact .inr (by simp [found])
    · exact .inl found
  fields target old found := by
    cases id with
    | objectField id position =>
      rw [ResponseBuilder.setNull, object?_modifyObject]
      split
      · exact ⟨_, by rw [found]; rfl, fun field member => keeps_set position member⟩
      · exact ⟨old, found, fun _ member => .refl member⟩
    | listItem id index =>
      rw [object?_setItem]
      exact ⟨old, found, fun _ member => .refl member⟩
  errors := by
    rw [setNull_errors]
    exact List.Subset.refl _

theorem Evolves.extend {id : ResponseObjectId} (found : builder.object? id = some object)
    (extended : (object.extend fields).Distinct) : Evolves builder (builder.modifyObject id (·.extend fields)) where
  root := .inl rfl
  valid cursor valid := (valid_modifyObject builder id _ cursor).mpr valid
  lookups cursor edge value old := .inl (by rw [lookup_extend found extended, old]; split <;> rfl)
  fields target old atOld := by
    rw [object?_modifyObject]
    split
    · exact ⟨old.extend fields, by rw [atOld]; rfl,
        fun _ member => .refl (ResponseObject.mem_extend.mpr (.inl member))⟩
    · exact ⟨old, atOld, fun _ member => .refl member⟩
  errors := List.Subset.refl _

/-- The response is null at the root or somewhere on the path. -/
def Lost (builder : ResponseBuilder) (path : ResponsePath) : Prop :=
  ∀ root, builder.root = some root → builder.crossesNull (.object root.1) path = true

section
variable (evolves : Evolves before after)
include evolves

theorem Evolves.crossesNull
    (crosses : before.crossesNull cursor path = true) : after.crossesNull cursor path = true := by
  induction path generalizing cursor with
  | nil => cases crosses
  | cons edge rest ih =>
    rw [crossesNull] at crosses ⊢
    cases found : before.lookup cursor edge with
    | none => simp [found] at crosses
    | some value =>
      rw [found] at crosses
      rcases evolves.lookups cursor edge value found with same | null
      · rw [same]
        simp only [Bool.or_eq_true] at crosses ⊢
        apply crosses.imp_right
        cases value.cursor with
        | none => exact id
        | some next => exact ih
      · simp [null, ResponseValue.isNull]

theorem Evolves.root_eq {old new : ResponseObjectId × ObjectDefinitionId}
    (rooted : before.root = some old) (current : after.root = some new) : old = new := by
  rcases evolves.root with same | none
  · simpa [same, rooted] using current
  · simp [none] at current

theorem Evolves.lost (lost : before.Lost path) : after.Lost path := by
  intro root rooted
  rcases evolves.root with same | none
  · exact evolves.crossesNull (lost root (same ▸ rooted))
  · simp [none] at rooted

end

/-- The object can be read at its path. -/
def Reaches (builder : ResponseBuilder) (ref : ResponseObjectRef) : Prop :=
  ∃ root places, builder.root = some root ∧
    builder.walk (.object root.1) ref.path = some (places, .object ref.id)

theorem crossesNull_of_walk
    (walked : builder.walk cursor path = some (places, final)) : builder.crossesNull cursor path = false := by
  induction path generalizing cursor places with
  | nil => rfl
  | cons edge rest ih =>
    obtain ⟨_, value, next, below, _, found, kind, walkedBelow, _⟩ := walk_cons walked
    rw [crossesNull, found]
    simp [isNull_of_cursor kind, kind, ih walkedBelow]

theorem Lost.not_reaches (lost : builder.Lost ref.path) : ¬ builder.Reaches ref := by
  rintro ⟨root, places, rooted, walked⟩
  have crosses := lost root rooted
  rw [crossesNull_of_walk walked] at crosses
  cases crosses

/-- Every value is still in place. -/
def Preserves (base written : ResponseBuilder) : Prop :=
  ∀ cursor edge value, base.lookup cursor edge = some value → written.lookup cursor edge = some value

theorem Preserves.walk (preserves : Preserves base written) (walked : base.walk cursor path = some (places, final)) :
    written.walk cursor path = some (places, final) := by
  induction path generalizing cursor places with
  | nil => simpa [ResponseBuilder.walk] using walked
  | cons edge rest ih =>
    obtain ⟨place, value, next, below, atSlot, found, kind, walkedBelow, rfl⟩ := walk_cons walked
    simp [ResponseBuilder.walk, atSlot, preserves cursor edge value found, kind, ih walkedBelow]

/-- The values are those of the written response, but null in the slots that were nulled. -/
def Overlay (written : ResponseBuilder) (nulled : List Slot) (builder : ResponseBuilder) : Prop :=
  ∀ cursor edge, builder.lookup cursor edge = if ∃ place ∈ nulled, slot cursor edge = some place then
    (written.lookup cursor edge).map fun _ => .null else written.lookup cursor edge

theorem Overlay.refl (base : ResponseBuilder) : Overlay base [] base := fun cursor edge => by simp

section
variable (overlay : Overlay written nulled builder)
include overlay

theorem Overlay.hit {edge : ResponseEdge} {value : ResponseValue} (found : written.lookup cursor edge = some value)
    (atSlot : slot cursor edge = some place) (member : place ∈ nulled) : builder.lookup cursor edge = some .null := by
  rw [overlay cursor edge, if_pos ⟨place, member, atSlot⟩, found]
  rfl

/-- A value whose slot was not nulled is still in place. -/
theorem Overlay.kept {edge : ResponseEdge} {value : ResponseValue} (found : written.lookup cursor edge = some value)
    (atSlot : slot cursor edge = some place) (intact : place ∉ nulled) : builder.lookup cursor edge = some value := by
  rw [overlay cursor edge, if_neg, found]
  rintro ⟨other, member, same⟩
  obtain rfl : place = other := by simpa [atSlot] using same
  exact intact member

theorem Overlay.setNull (wf : builder.WellFormed) (names : builder.Names id place) :
    Overlay written (nulled ++ [place]) (builder.setNull id) := by
  intro cursor edge
  rw [wf.lookup_setNull names, overlay cursor edge]
  by_cases here : slot cursor edge = some place
  · have hit : ∃ other ∈ nulled ++ [place], slot cursor edge = some other := ⟨place, by simp, here⟩
    rw [if_pos here]
    conv_rhs => rw [if_pos hit]
    split <;> simp [Function.comp_def]
  · rw [if_neg here]
    refine if_congr ⟨fun ⟨other, member, same⟩ => ⟨other, by simp [member], same⟩, fun ⟨other, member, same⟩ => ?_⟩ rfl
      rfl
    rcases mem_push.mp member with old | rfl
    · exact ⟨other, old, same⟩
    · exact absurd same here

/-- New fields are none of the nulled slots, which were there before. -/
theorem Overlay.extend {target : ResponseObjectId} {current stored : ResponseObject}
    (atCurrent : builder.object? target = some current) (currentDistinct : (current.extend fields).Distinct)
    (atStored : written.object? target = some stored) (storedDistinct : (stored.extend fields).Distinct)
    (present : ∀ edge, ∀ place ∈ nulled, slot (.object target) edge = some place → (stored.get? edge).isSome) :
    Overlay (written.modifyObject target (·.extend fields)) nulled (builder.modifyObject target (·.extend fields)) := by
  intro cursor edge
  rw [lookup_extend atCurrent currentDistinct, lookup_extend atStored storedDistinct, overlay cursor edge]
  by_cases isTarget : cursor = .object target
  · subst isTarget
    by_cases hit : ∃ place ∈ nulled, slot (.object target) edge = some place
    · obtain ⟨place, member, atPlace⟩ := id hit
      obtain ⟨value, found⟩ := Option.isSome_iff_exists.mp (present edge place member atPlace)
      simp [if_pos hit, lookup, atStored, found]
    · simp [if_neg hit]
  · simp only [if_neg isTarget]

/-- A path none of whose slots was nulled is walked as before. -/
theorem Overlay.walk (walked : written.walk cursor path = some (places, final))
    (intact : ∀ place ∈ places, place.1 ∉ nulled) : builder.walk cursor path = some (places, final) := by
  induction path generalizing cursor places with
  | nil => simpa [ResponseBuilder.walk] using walked
  | cons edge rest ih =>
    obtain ⟨place, value, next, below, atSlot, found, kind, walkedBelow, rfl⟩ := walk_cons walked
    have rest_walked := ih walkedBelow fun other member => intact other (mem_cons_of_mem _ member)
    have current := overlay.kept found atSlot (intact (place, value.nullable) (by simp))
    simp [ResponseBuilder.walk, atSlot, current, kind, rest_walked]

/-- A path that goes through a nulled slot crosses a null, and so does every path that shares it up
to there. -/
theorem Overlay.crossesNull {k : Nat} {nullable : Bool}
    (walked : written.walk cursor path = some (places, final)) (atK : places[k]? = some (place, nullable))
    (hit : place ∈ nulled) (shared : path.take (k + 1) <+: other) : builder.crossesNull cursor other = true := by
  induction path generalizing cursor places k other with
  | nil =>
    obtain ⟨rfl, _⟩ : [] = places ∧ cursor = final := by simpa [ResponseBuilder.walk] using walked
    cases atK
  | cons edge rest ih =>
    obtain ⟨first, value, next, below, atSlot, found, kind, walkedBelow, rfl⟩ := walk_cons walked
    obtain ⟨tail, rfl⟩ := shared
    rw [take_succ_cons, cons_append, crossesNull]
    by_cases here : first ∈ nulled
    · rw [overlay.hit found atSlot here]
      rfl
    · have current := overlay.kept found atSlot here
      cases k with
      | zero =>
        obtain ⟨rfl, _⟩ : first = place ∧ value.nullable = nullable := by simpa using atK
        exact absurd hit here
      | succ k =>
        have below_crosses := ih walkedBelow (by simpa using atK) (prefix_append (rest.take (k + 1)) tail)
        simp [current, kind, below_crosses]

end

/-- Where propagation from this path would end: `some none` is the root. -/
def target (base : ResponseBuilder) (path : ResponsePath) : Option (Option (Nat × Slot)) := do
  let root ← base.root
  let (places, _) ← base.walk (.object root.1) path
  some (nearest places)

/-- The prefix that `propagate_error` returns for a target. -/
def returnedPrefix (path : ResponsePath) : Option (Nat × Slot) → ResponsePath
  | none => []
  | some (position, _) => path.take position

/-- The prefix that leads to the nulled value. -/
def nulledPrefix (path : ResponsePath) : Option (Nat × Slot) → ResponsePath
  | none => []
  | some (position, _) => path.take (position + 1)

/-- The target has been nulled. -/
def Hit (builder : ResponseBuilder) (nulled : List Slot) : Option (Nat × Slot) → Prop
  | none => builder.root = none
  | some (_, place) => place ∈ nulled

theorem nearest_getElem? {position : Nat}
    (found : nearest places = some (position, place)) : places[position]? = some (place, true) := by
  induction places generalizing position with
  | nil => cases found
  | cons first rest ih =>
    obtain ⟨head, nullable⟩ := first
    cases deeper : nearest rest with
    | none =>
      cases nullable with
      | false => simp [nearest, deeper] at found
      | true =>
        obtain ⟨rfl, rfl⟩ : 0 = position ∧ head = place := by simpa [nearest, deeper] using found
        rfl
    | some last =>
      obtain ⟨rfl, rfl⟩ : last.1 + 1 = position ∧ last.2 = place := by simpa [nearest, deeper] using found
      exact ih deeper

theorem walk_split {k : Nat} {nullable : Bool}
    (walked : base.walk cursor path = some (places, final)) (atK : places[k]? = some (place, nullable)) :
    ∃ init edge middle value above, path.take k = init ∧
    path.take (k + 1) = init ++ [edge] ∧ base.walk cursor init = some (above, middle) ∧
    base.lookup middle edge = some value ∧ slot middle edge = some place ∧ value.isNull = false := by
  induction path generalizing cursor places k with
  | nil =>
    obtain ⟨rfl, _⟩ : [] = places ∧ cursor = final := by simpa [ResponseBuilder.walk] using walked
    cases atK
  | cons edge rest ih =>
    obtain ⟨first, value, next, below, atSlot, found, kind, walkedBelow, rfl⟩ := walk_cons walked
    cases k with
    | zero =>
      obtain ⟨rfl, _⟩ : first = place ∧ value.nullable = nullable := by simpa using atK
      exact ⟨[], edge, cursor, value, [], rfl, rfl, rfl, found, atSlot, isNull_of_cursor kind⟩
    | succ k =>
      obtain ⟨init, last, middle, held, above, rfl, taken, walkedAbove, lookup, atPlace, nonNull⟩ :=
        ih walkedBelow (by simpa using atK)
      refine ⟨edge :: rest.take k, last, middle, held, (first, value.nullable) :: above, rfl, ?_, ?_, lookup,
        atPlace, nonNull⟩
      · rw [take_succ_cons, taken, cons_append]
      · simp [ResponseBuilder.walk, atSlot, found, kind, walkedAbove]

theorem target_eq_some (found : base.target path = some goal) : ∃ root places final, base.root = some root ∧
    base.walk (.object root.1) path = some (places, final) ∧ nearest places = goal := by
  simp only [target, Option.bind_eq_bind, Option.bind_eq_some_iff] at found
  obtain ⟨root, rooted, ⟨places, final⟩, walked, same⟩ := found
  exact ⟨root, places, final, rooted, walked, by simpa using same⟩

/-- Whatever shares the nulled prefix is lost. -/
theorem lost_of_hit (overlay : Overlay written nulled builder) (preserves : Preserves base written)
    (evolves : Evolves base builder) (found : base.target path = some goal)
    (hit : Hit builder nulled goal) (shared : nulledPrefix path goal <+: other) : builder.Lost other := by
  obtain ⟨root, places, final, rooted, walked, near⟩ := target_eq_some found
  intro current atCurrent
  cases goal with
  | none => simp [show builder.root = none from hit] at atCurrent
  | some goal =>
    obtain rfl := evolves.root_eq rooted atCurrent
    exact overlay.crossesNull (preserves.walk walked) (nearest_getElem? near) hit shared

/-- A root object whose slot failed without default fields. -/
def Fails (defaultFields : Option (List ResponseObjectField)) : UpdateSlot → Prop
  | .reserved => defaultFields = none
  | .fields _ => False
  | .error => True

/-- The state of the ingestion loop, relative to the response in which the part was just placed and to the one with
the fields written so far. `failed` are the root objects that failed so far. -/
structure Ingesting (base written : ResponseBuilder) (failed : List ResponseObjectRef) (nulled : List Slot)
    (builder : ResponseBuilder) (invalidatedPaths : List ResponsePath) : Prop where
  wellFormed : builder.WellFormed
  evolves : Evolves base builder
  preserves : Preserves base written
  edges : ∀ id, written.edges? id = builder.edges? id
  overlay : Overlay written nulled builder
  paths : ∀ path ∈ invalidatedPaths, ∃ ref ∈ failed, ∃ goal, base.target ref.path = some goal ∧
    path = returnedPrefix ref.path goal ∧ Hit builder nulled goal
  nulls : ∀ place ∈ nulled, ∃ ref ∈ failed, ∃ position, base.target ref.path = some (some (position, place)) ∧
    ref.path.take position ∈ invalidatedPaths
  root : builder.root = base.root ∨ [] ∈ invalidatedPaths

/-- The root object is read at its path, or that path already crosses a null. -/
def Located (base : ResponseBuilder) (ref : ResponseObjectRef) : Prop := base.Reaches ref ∨ base.Lost ref.path

/-- No returned prefix covers the other path without the nulled value covering it too. -/
def Spares (base : ResponseBuilder) (failing : ResponseObjectRef) (other : ResponsePath) : Prop :=
  ∀ goal, base.target failing.path = some goal →
    returnedPrefix failing.path goal <+: other → nulledPrefix failing.path goal <+: other

theorem invalidates_iff :
    invalidates invalidatedPaths path = true ↔ ∃ invalidated ∈ invalidatedPaths, invalidated <+: path := by
  simp [invalidates]

theorem Hit.mono (hit : Hit before nulled goal)
    (evolves : Evolves before after) (more : List Slot) : Hit after (nulled ++ more) goal := by
  cases goal with
  | none => exact (evolves.root.elim (·.trans hit) id)
  | some goal => exact mem_append_left _ hit

theorem WellFormed.withErrors (wf : builder.WellFormed) (errors : List GraphqlError) :
    { builder with errors := errors : ResponseBuilder }.WellFormed where
  closed := ⟨wf.closed.root, wf.closed.fields, wf.closed.items⟩
  distinct := wf.distinct

theorem Overlay.congr (overlay : Overlay written nulled before)
    (parts : after.parts = before.parts) : Overlay written nulled after := by
  intro cursor edge
  rw [← overlay cursor edge]
  cases cursor <;> simp [lookup, object?, list?, parts]

theorem Ingesting.step {more : List Slot} {new : List ResponsePath}
    (state : Ingesting base written failed nulled before invalidatedPaths) (wf : after.WellFormed)
    (evolves : Evolves before after) (edges : ∀ id, after.edges? id = before.edges? id)
    (overlay : Overlay written (nulled ++ more) after)
    (paths : ∀ path ∈ new, ∃ goal, base.target ref.path = some goal ∧ path = returnedPrefix ref.path goal ∧
      Hit after (nulled ++ more) goal)
    (nulls : ∀ place ∈ more, ∃ position, base.target ref.path = some (some (position, place)) ∧
      ref.path.take position ∈ new) (root : after.root = before.root ∨ [] ∈ new) :
    Ingesting base written (failed ++ [ref]) (nulled ++ more) after (invalidatedPaths ++ new) where
  wellFormed := wf
  evolves := state.evolves.trans evolves
  preserves := state.preserves
  edges id := (state.edges id).trans (edges id).symm
  overlay := overlay
  paths path member := by
    rcases mem_append.mp member with old | fresh
    · obtain ⟨other, inFailed, goal, found, same, hit⟩ := state.paths path old
      exact ⟨other, mem_append_left _ inFailed, goal, found, same, hit.mono evolves more⟩
    · exact ⟨ref, by simp, paths path fresh⟩
  nulls place member := by
    rcases mem_append.mp member with old | fresh
    · obtain ⟨other, inFailed, position, found, inPaths⟩ := state.nulls place old
      exact ⟨other, mem_append_left _ inFailed, position, found, mem_append_left _ inPaths⟩
    · obtain ⟨position, found, inNew⟩ := nulls place fresh
      exact ⟨ref, by simp, position, found, mem_append_right _ inNew⟩
  root := by
    rcases root with same | inNew
    · exact state.root.imp (same.trans ·) (mem_append_left _ ·)
    · exact .inr (mem_append_right _ inNew)

/-- The iteration for a root object returns, the loop goes on after it and the root object is settled. -/
def Handled (base written builder : ResponseBuilder) (failed : List ResponseObjectRef) (ref : ResponseObjectRef)
    (fails : Prop) (settled : ResponseBuilder → Prop) (outcome : Checked (ResponseBuilder × List ResponsePath)) :
      Prop :=
  ∃ next failed' nulled' paths', outcome = .ok (next, paths') ∧ Ingesting base written failed' nulled' next paths' ∧
    Evolves builder next ∧ settled next ∧ (∀ id, id ≠ ref.id → next.edges? id = builder.edges? id) ∧
    ∀ other ∈ failed', other ∈ failed ∨ other = ref ∧ fails

section
variable (state : Ingesting base written failed nulled builder invalidatedPaths)
include state

theorem Ingesting.withErrors (errors : List GraphqlError) :
    Ingesting base written failed nulled { builder with errors := builder.errors ++ errors } invalidatedPaths where
  wellFormed := state.wellFormed.withErrors _
  evolves := state.evolves.trans (.withErrors builder errors)
  preserves := state.preserves
  edges := state.edges
  overlay := state.overlay.congr rfl
  paths path member := by
    obtain ⟨ref, inFailed, goal, found, same, hit⟩ := state.paths path member
    refine ⟨ref, inFailed, goal, found, same, ?_⟩
    cases goal <;> exact hit
  nulls := state.nulls
  root := state.root

/-- Propagation from a root object finds its path already lost, or nulls the target of the base. -/
theorem Ingesting.propagateError (located : base.Located ref) : builder.propagateError ref.path = .ok (none, builder) ∧
    builder.Lost ref.path ∨ ∃ goal next more, base.target ref.path = some goal ∧
    builder.propagateError ref.path = .ok (some (returnedPrefix ref.path goal), next) ∧
    next.WellFormed ∧ Evolves builder next ∧ Overlay written (nulled ++ more) next ∧
    Hit next (nulled ++ more) goal ∧ (∀ place ∈ more, ∃ position, goal = some (position, place)) ∧
    (next.root = builder.root ∨ goal = none) ∧ ∀ id, next.edges? id = builder.edges? id := by
  cases rooted : builder.root with
  | none => exact .inl ⟨by simp [ResponseBuilder.propagateError, rooted], by simp [Lost, rooted]⟩
  | some root =>
    have blocked (crosses : builder.crossesNull (.object root.1) ref.path = true) :
        builder.propagateError ref.path = .ok (none, builder) ∧ builder.Lost ref.path :=
      ⟨propagateError_blocked rooted (state.wellFormed.blocked_of_crossesNull crosses),
        by simpa [Lost, rooted] using crosses⟩
    rcases located with ⟨other, places, otherRoot, walked⟩ | lost
    swap
    · exact .inl (blocked (state.evolves.lost lost root rooted))
    obtain rfl := state.evolves.root_eq otherRoot rooted
    by_cases intact : ∀ place ∈ places, place.1 ∉ nulled
    · have goal : base.target ref.path = some (nearest places) := by simp [target, otherRoot, walked]
      have propagated := state.wellFormed.propagateError_of_walk rooted
        (state.overlay.walk (state.preserves.walk walked) intact)
      cases near : nearest places with
      | none =>
        rw [near] at propagated goal
        exact .inr ⟨none, _, [], goal, propagated, state.wellFormed.clearRoot,
          .of_parts rfl (.inr rfl) (List.Subset.refl _), by rw [append_nil]; exact state.overlay.congr rfl, rfl,
          by simp, .inr rfl, fun _ => rfl⟩
      | some found =>
        rw [near] at propagated goal
        obtain ⟨id, names, propagated⟩ := propagated
        exact .inr ⟨some found, _, [found.2], goal, propagated, state.wellFormed.setNull id,
          .setNull state.wellFormed names, state.overlay.setNull state.wellFormed names,
          mem_append_right _ (by simp), fun _ member => ⟨found.1, by rw [mem_singleton.mp member]⟩,
          .inl (by rw [setNull_root, rooted]), edges?_setNull builder id⟩
    · simp only [not_forall, not_not] at intact
      obtain ⟨place, member, hit⟩ := intact
      obtain ⟨k, atK⟩ := getElem?_of_mem member
      exact .inl (blocked (state.overlay.crossesNull (state.preserves.walk walked) atK hit (List.take_prefix _ _)))

theorem Ingesting.invalidate {report : ResponseBuilder → ResponseBuilder} {fails : Prop} (failing : fails)
    (located : base.Located ref) (spared : ∀ other ∈ failed, base.Spares other ref.path)
    (reports : ∀ builder, ∃ errors, report builder = { builder with errors := builder.errors ++ errors }) :
    Handled base written builder failed ref fails (·.Lost ref.path)
      (builder.invalidate report invalidatedPaths ref) := by
  have unchanged (lost : builder.Lost ref.path)
      (kept : builder.invalidate report invalidatedPaths ref = .ok (builder, invalidatedPaths)) :
      Handled base written builder failed ref fails (·.Lost ref.path)
        (builder.invalidate report invalidatedPaths ref) :=
    ⟨builder, failed, nulled, invalidatedPaths, kept, state, .refl builder, lost, fun _ _ => rfl, fun _ => .inl⟩
  by_cases skipped : invalidates invalidatedPaths ref.path = true
  · obtain ⟨path, inPaths, covers⟩ := invalidates_iff.mp skipped
    obtain ⟨other, inFailed, goal, found, rfl, hit⟩ := state.paths path inPaths
    exact unchanged (lost_of_hit state.overlay state.preserves state.evolves found hit
      (spared other inFailed goal found covers))
      (by simp [ResponseBuilder.invalidate, skipped])
  rcases state.propagateError located with ⟨none, lost⟩ | ⟨goal, next, more, found, propagated, wf,
    evolves, overlay, hit,
    nulls, root, edges⟩
  · exact unchanged lost (by simp [ResponseBuilder.invalidate, skipped, none, bind, Except.bind])
  · obtain ⟨errors, reported⟩ := reports next
    have evolves' : Evolves builder (report next) := by
      rw [reported]
      exact evolves.trans (.withErrors next errors)
    have overlay' : Overlay written (nulled ++ more) (report next) := overlay.congr (by rw [reported])
    have edges' (id : ResponseObjectId) : (report next).edges? id = builder.edges? id := by
      rw [reported]
      exact edges id
    have hit' : Hit (report next) (nulled ++ more) goal := by
      cases goal with
      | none => exact (by rw [reported]; exact hit : (report next).root = none)
      | some goal => exact hit
    refine ⟨report next, failed ++ [ref], nulled ++ more, invalidatedPaths ++ [returnedPrefix ref.path goal], ?_, ?_,
      evolves', ?_, fun id _ => edges' id, fun other member => ?_⟩
    · simp [ResponseBuilder.invalidate, skipped, propagated, bind, Except.bind]
    · apply state.step (by rw [reported]; exact wf.withErrors _) evolves' edges' overlay'
      · simp only [mem_singleton, forall_eq]
        exact ⟨goal, found, rfl, hit'⟩
      · intro place member
        obtain ⟨position, rfl⟩ := nulls place member
        exact ⟨position, found, by simp [returnedPrefix]⟩
      · rcases root with same | rfl
        · exact .inl (by rw [reported]; exact same)
        · exact .inr (by simp [returnedPrefix])
    · exact lost_of_hit overlay' state.preserves (state.evolves.trans evolves') found hit' (by
        cases goal with
        | none => exact nil_prefix
        | some goal => exact List.take_prefix _ _)
    · exact (mem_append.mp member).imp_right fun new => ⟨mem_singleton.mp new, failing⟩

end

/-- The object holds the fields, each with its value or with null. -/
def Received (builder : ResponseBuilder) (ref : ResponseObjectRef) (fields : List ResponseObjectField) : Prop :=
  ∃ object, builder.object? ref.id = some object ∧ ∀ field ∈ fields, Keeps object field

theorem Evolves.received (evolves : Evolves before after)
    (received : before.Received ref fields) : after.Received ref fields := by
  obtain ⟨old, atOld, kept⟩ := received
  obtain ⟨new, atNew, keeps⟩ := evolves.fields ref.id old atOld
  exact ⟨new, atNew, fun field member => (kept field member).trans keeps⟩

/-- What a slot is due: its fields, the default fields with an explanation, or to be gone. -/
def Settled (errors : List GraphqlError) (defaultFields : Option (List ResponseObjectField))
    (builder : ResponseBuilder) (pair : UpdateSlot × ResponseObjectRef) : Prop :=
  match pair.1 with
  | .fields fields => builder.Received pair.2 fields
  | .reserved =>
    match defaultFields with
    | some fields => builder.Received pair.2 fields ∧
        (explains errors pair.2.path = true ∨ explains builder.errors pair.2.path = true)
    | none => builder.Lost pair.2.path
  | .error => builder.Lost pair.2.path

theorem explains_mono {first second : List GraphqlError} (sub : first ⊆ second)
    (explained : explains first path = true) : explains second path = true := by
  simp only [explains, any_eq_true] at *
  obtain ⟨error, member, covers⟩ := explained
  exact ⟨error, sub member, covers⟩

theorem Evolves.settled (evolves : Evolves before after)
    (settled : Settled errors defaultFields before pair) : Settled errors defaultFields after pair := by
  obtain ⟨update, ref⟩ := pair
  cases update with
  | fields fields => exact evolves.received settled
  | error => exact evolves.lost settled
  | reserved =>
    cases defaultFields with
    | none => exact evolves.lost settled
    | some fields =>
      exact ⟨evolves.received settled.1, settled.2.imp_right (explains_mono evolves.errors)⟩

/-- The fields that a slot writes to its root object, if any. -/
def slotFields (defaultFields : Option (List ResponseObjectField)) : UpdateSlot → Option (List ResponseObjectField)
  | .fields fields => some fields
  | .reserved => defaultFields
  | .error => none

/-- The response with the fields of a slot, whatever becomes of the others. -/
def writeSlot (defaultFields : Option (List ResponseObjectField)) (written : ResponseBuilder)
    (pair : UpdateSlot × ResponseObjectRef) : ResponseBuilder :=
  match slotFields defaultFields pair.1 with
  | some fields => written.modifyObject pair.2.id (·.extend fields)
  | none => written

/-- What plans guarantee about a slot: the root object was found in the response, and the fields
written to it are new to the object and refer to stored objects and lists. -/
structure Admissible (base : ResponseBuilder) (defaultFields : Option (List ResponseObjectField))
    (pair : UpdateSlot × ResponseObjectRef) : Prop where
  located : base.Located pair.2
  writable : ∀ fields, slotFields defaultFields pair.1 = some fields → ∃ object, base.object? pair.2.id = some object ∧
    (object.extend fields).Distinct ∧
    ∀ field ∈ fields, ∀ cursor, field.value.cursor = some cursor → base.Valid cursor

theorem edges?_modifyObject (builder : ResponseBuilder) (id target : ResponseObjectId)
    (change : ResponseObject → ResponseObject) : (builder.modifyObject id change).edges? target =
      if target = id then (builder.object? target).map fun object => (change object).fields.map (·.edge)
      else builder.edges? target := by
  rw [edges?, object?_modifyObject, edges?]
  split <;> simp [Function.comp_def]

/-- The nulled slots are slots of the base. -/
theorem Ingesting.present (state : Ingesting base written failed nulled builder invalidatedPaths)
    (member : place ∈ nulled) :
    ∃ cursor edge value, base.lookup cursor edge = some value ∧ slot cursor edge = some place := by
  obtain ⟨ref, _, position, found, _⟩ := state.nulls place member
  obtain ⟨root, places, final, _, walked, near⟩ := target_eq_some found
  obtain ⟨_, edge, middle, value, _, _, _, _, lookup, atPlace, _⟩ := walk_split walked (nearest_getElem? near)
  exact ⟨middle, edge, value, lookup, atPlace⟩

theorem Ingesting.extendObject (state : Ingesting base written failed nulled builder invalidatedPaths)
    (admissible : Admissible base defaultFields pair) (untouched : builder.edges? pair.2.id = base.edges? pair.2.id)
    (writes : slotFields defaultFields pair.1 = some fields) :
      ∃ next, builder.extendObject pair.2.id fields = .ok next ∧
      Ingesting base (writeSlot defaultFields written pair) failed nulled next invalidatedPaths ∧
      Evolves builder next ∧ next.Received pair.2 fields ∧
      ∀ id, id ≠ pair.2.id → next.edges? id = builder.edges? id := by
  obtain ⟨object, present, fresh, safe⟩ := admissible.writable fields writes
  have extended {other : ResponseBuilder} (same : other.edges? pair.2.id = base.edges? pair.2.id) :
      ∃ current, other.object? pair.2.id = some current ∧ (current.extend fields).Distinct := by
    rw [edges?, edges?, present] at same
    obtain ⟨current, atCurrent, edges⟩ := Option.map_eq_some_iff.mp same
    refine ⟨current, atCurrent, ?_⟩
    rw [ResponseObject.distinct_extend_iff] at fresh ⊢
    rwa [edges]
  obtain ⟨current, atCurrent, currentDistinct⟩ := extended untouched
  obtain ⟨stored, atStored, storedDistinct⟩ := extended ((state.edges _).trans untouched)
  have evolves : Evolves builder (builder.modifyObject pair.2.id (·.extend fields)) := .extend atCurrent currentDistinct
  rw [writeSlot, writes]
  refine ⟨_, by simp [ResponseBuilder.extendObject, atCurrent], ?_, evolves, ?_, ?_⟩
  · refine {
      wellFormed := state.wellFormed.extend atCurrent currentDistinct fun field member cursor kind =>
        state.evolves.valid cursor (safe field member cursor kind)
      evolves := state.evolves.trans evolves
      preserves := fun cursor edge value found => ?_
      edges := fun id => ?_
      overlay := state.overlay.extend atCurrent currentDistinct atStored storedDistinct fun edge place
        member atPlace => ?_
      paths := state.paths
      nulls := state.nulls
      root := state.root }
    · rw [lookup_extend atStored storedDistinct, state.preserves cursor edge value found]
      split <;> rfl
    · rw [edges?_modifyObject, edges?_modifyObject]
      split
      · next same =>
        subst same
        have same := state.edges pair.2.id
        rw [edges?, edges?, atStored, atCurrent] at same
        rw [atStored, atCurrent]
        exact congrArg some (ResponseObject.extend_edges (Option.some.inj same))
      · exact state.edges id
    · obtain ⟨cursor, other, value, found, atSlot⟩ := state.present member
      obtain ⟨rfl, rfl⟩ := slot_eq_slot_object atSlot atPlace
      have kept := state.preserves _ _ _ found
      rw [lookup, atStored] at kept
      exact Option.isSome_iff_exists.mpr ⟨value, kept⟩
  · refine ⟨current.extend fields, by simp [object?_modifyObject, atCurrent], fun field member => ?_⟩
    exact .refl (ResponseObject.mem_extend.mpr (.inr member))
  · intro id different
    rw [edges?_modifyObject, if_neg different]

theorem explain_errors (errors : List GraphqlError) (anyEdge : ResponseEdge) (ref : ResponseObjectRef)
    (builder : ResponseBuilder) :
    ∃ more, explain errors anyEdge ref builder = { builder with errors := builder.errors ++ more } := by
  unfold explain
  split
  · exact ⟨[], by simp⟩
  · exact ⟨[missingData ref anyEdge], rfl⟩

theorem explains_explain {anyEdge : ResponseEdge} (builder : ResponseBuilder) :
    explains errors ref.path = true ∨ explains (explain errors anyEdge ref builder).errors ref.path = true := by
  unfold explain
  split
  · next explained => exact .inl explained
  · simp [explains, withError, missingData, GraphqlError.withPath]

/-- One iteration of the ingestion loop settles its slot. -/
theorem Ingesting.ingestSlot (errors : List GraphqlError) (anyEdge : ResponseEdge)
    (state : Ingesting base written failed nulled builder invalidatedPaths)
    (admissible : Admissible base defaultFields pair)
    (spared : Fails defaultFields pair.1 → ∀ other ∈ failed, base.Spares other pair.2.path)
    (untouched : builder.edges? pair.2.id = base.edges? pair.2.id) :
    Handled base (writeSlot defaultFields written pair) builder failed pair.2 (Fails defaultFields pair.1)
      (Settled errors defaultFields · pair)
        (ingestSlot errors anyEdge defaultFields (builder, invalidatedPaths) pair) := by
  obtain ⟨update, ref⟩ := pair
  cases update with
  | error =>
    exact state.invalidate trivial admissible.located (spared trivial) fun builder => ⟨[], by simp⟩
  | fields fields =>
    obtain ⟨next, computed, after, evolves, received, others⟩ := state.extendObject admissible untouched rfl
    exact ⟨next, failed, nulled, invalidatedPaths, by simp [ingestSlot, computed, bind, Except.bind],
      after, evolves, received, others, fun _ member => .inl member⟩
  | reserved =>
    cases defaultFields with
    | none =>
      exact state.invalidate rfl admissible.located (spared rfl) (explain_errors errors anyEdge ref)
    | some fields =>
      obtain ⟨next, computed, after, evolves, received, others⟩ := state.extendObject admissible untouched rfl
      obtain ⟨more, explained⟩ := explain_errors errors anyEdge ref next
      have later : Evolves next (explain errors anyEdge ref next) := explained ▸ .withErrors next more
      refine ⟨explain errors anyEdge ref next, failed, nulled, invalidatedPaths, ?_, ?_, evolves.trans later,
        ⟨later.received received, explains_explain next⟩, ?_, fun _ member => .inl member⟩
      · simp [ingestSlot, computed, bind, Except.bind]
      · rw [explained]
        exact after.withErrors more
      · rw [explained]
        exact others

end Grafbase.Response.ResponseBuilder
