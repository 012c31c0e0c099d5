import Grafbase.Response.Builder
import Mathlib.Data.List.Induction

/-! What error propagation does, against what it is for.

`nullNearest` is the purpose: the deepest nullable value on an existing path
becomes null. `visit` lists the objects and lists that the loop of
`propagate_error` passes; the loop is a function of that list alone.
-/

set_option autoImplicit false

namespace Grafbase.Response.ResponseBuilder
open Foundation List Option

/-- Where one edge leads: a null counts as missing. -/
inductive Hop where
  | missing
  | leaf (id : ResponseValueId) (value : ResponseValue)
  | container (id : ResponseValueId) (value : ResponseValue) (next : Cursor)

def hop (builder : ResponseBuilder) (cursor : Cursor) (edge : ResponseEdge) : Checked Hop :=
  (builder.step cursor edge).map fun
    | none => .missing
    | some (id, value) =>
      if value.isNull then .missing
      else match value.cursor with
        | none => .leaf id value
        | some next => .container id value next

/-- The values that the non-empty prefixes of a path lead to, if none is missing or null. -/
def trace (builder : ResponseBuilder) (cursor : Cursor) :
    ResponsePath → Option (List (ResponseValueId × ResponseValue))
  | [] => some []
  | edge :: rest =>
    match builder.hop cursor edge with
    | .ok (.container id value next) => (builder.trace next rest).map ((id, value) :: ·)
    | .ok (.leaf id value) => if rest = [] then some [(id, value)] else none
    | .ok .missing | .error _ => none

def lastNullable : List (ResponseValueId × ResponseValue) → Option (Nat × ResponseValueId)
  | [] => none
  | (id, value) :: rest =>
    match lastNullable rest with
    | some (position, found) => some (position + 1, found)
    | none => if value.nullable then some (0, id) else none

/-- Null the deepest nullable value on the path, or the root, and name the prefix that leads to it. -/
def nullNearest (builder : ResponseBuilder) (path : ResponsePath) : Option ResponsePath × ResponseBuilder :=
  match builder.root with
  | none => (none, builder)
  | some (root, _) =>
    match builder.trace (.object root) path with
    | none => (none, builder)
    | some steps =>
      match lastNullable steps with
      | some (position, id) => (some (path.take (position + 1)), builder.setNull id)
      | none => (some [], { builder with root := none })

/-- The objects and lists passed until the path ends or reaches a leaf, unless a value is missing or null. -/
def visit (builder : ResponseBuilder) (cursor : Cursor) :
    ResponsePath → Checked (Option (List (ResponseValueId × ResponseValue)))
  | [] => .ok (some [])
  | edge :: rest =>
    match builder.hop cursor edge with
    | .ok (.container id value next) => (builder.visit next rest).map (Option.map ((id, value) :: ·))
    | .ok (.leaf _ _) => .ok (some [])
    | .ok .missing => .ok none
    | .error panic => .error panic

/-- The path meets a missing or null value before any leaf. -/
def Blocked (builder : ResponseBuilder) (cursor : Cursor) (path : ResponsePath) : Prop :=
  builder.visit cursor path = .ok none

variable {steps : List (ResponseValueId × ResponseValue)} {builder : ResponseBuilder} {path : ResponsePath}
  {id : ResponseValueId}

theorem lastNullable_eq_none : lastNullable steps = none ↔ ∀ step ∈ steps, step.2.nullable = false := by
  induction steps with
  | nil => simp [lastNullable]
  | cons step rest ih =>
    rw [forall_mem_cons, ← ih, lastNullable]
    cases lastNullable rest with
    | none => simp
    | some last => simp

theorem lastNullable_concat (steps : List (ResponseValueId × ResponseValue)) (id : ResponseValueId)
    (value : ResponseValue) : lastNullable (steps ++ [(id, value)]) =
      if value.nullable then some (steps.length, id) else lastNullable steps := by
  induction steps with
  | nil => simp [lastNullable]
  | cons step rest ih =>
    rw [cons_append, lastNullable, lastNullable, ih]
    cases value.nullable <;> simp

theorem lastNullable_lt {position : Nat} (found : lastNullable steps = some (position, id)) :
    position < steps.length := by
  induction steps using List.reverseRecOn with
  | nil => cases found
  | append_singleton rest step ih =>
    rw [lastNullable_concat] at found
    rw [length_append, length_singleton]
    split at found
    · cases found
      exact Nat.lt_succ_self _
    · exact Nat.lt_succ_of_lt (ih found)

/-- The loop keeps the last nullable container it visits, counted from where it started. -/
theorem propagateLoop_eq (builder : ResponseBuilder) (cursor : Cursor) (i : Nat) (last : LastNullable)
    (path : ResponsePath) :
    builder.propagateLoop cursor i last path = (builder.visit cursor path).map (Option.map fun steps =>
      match lastNullable steps with
      | some (position, id) => ⟨i + position, some id⟩
      | none => last) := by
  induction path generalizing cursor i last with
  | nil => rfl
  | cons edge rest ih =>
    simp only [propagateLoop, visit, hop, bind, Except.bind]
    cases builder.step cursor edge with
    | error => rfl
    | ok target =>
      cases target with
      | none => rfl
      | some found =>
        simp only [Except.map]
        split
        · rfl
        · cases found.2.cursor with
          | none => rfl
          | some next =>
            dsimp only
            rw [ih]
            cases builder.visit next rest with
            | error => rfl
            | ok visited =>
              cases visited with
              | none => rfl
              | some steps =>
                simp only [Except.map, Option.map, lastNullable]
                cases lastNullable steps with
                | none => cases found.2.nullable <;> rfl
                | some deepest => simp [Nat.add_assoc, Nat.add_comm 1]

variable {root : ResponseObjectId × ObjectDefinitionId} {cursor : Cursor}

/-- What `propagate_error` does on a walk that is not blocked. -/
theorem propagateError_visited (rooted : builder.root = some root)
    (visited : builder.visit (.object root.1) path = .ok (some steps)) :
    builder.propagateError path = .ok (match lastNullable steps with
      | some (position, id) => (some (path.take position), builder.setNull id)
      | none => (some [], { builder with root := none })) := by
  rw [propagateError, rooted]
  simp only [propagateLoop_eq, visited, Except.map, bind, Except.bind, Option.map]
  cases lastNullable steps <;> simp

theorem propagateError_blocked (rooted : builder.root = some root) (blocked : builder.Blocked (.object root.1) path) :
    builder.propagateError path = .ok (none, builder) := by
  rw [propagateError, rooted]
  simp only [propagateLoop_eq, show builder.visit _ path = _ from blocked]
  rfl

/-- How the visited containers and the trace are related: the path ends at the last container, at a
leaf below it, or goes on below a leaf. -/
theorem trace_of_visit (visited : builder.visit cursor path = .ok (some steps)) :
    (builder.trace cursor path = some steps ∧ steps.length = path.length) ∨
      (∃ leaf, builder.trace cursor path = some (steps ++ [leaf]) ∧ steps.length + 1 = path.length) ∨
      (builder.trace cursor path = none ∧ steps.length + 1 < path.length) := by
  induction path generalizing cursor steps with
  | nil =>
    obtain rfl : steps = [] := by simpa [visit] using visited.symm
    exact .inl ⟨rfl, rfl⟩
  | cons edge rest ih =>
    rw [visit] at visited
    rw [trace]
    cases target : builder.hop cursor edge with
    | error => simp [target] at visited
    | ok found =>
      rw [target] at visited
      cases found with
      | missing => simp at visited
      | leaf id value =>
        obtain rfl : steps = [] := by simpa using visited.symm
        cases rest with
        | nil => exact .inr (.inl ⟨(id, value), by simp, rfl⟩)
        | cons next rest => exact .inr (.inr ⟨by simp, by simp⟩)
      | container id value next =>
        cases below : builder.visit next rest with
        | error => simp [below, Except.map] at visited
        | ok visitedBelow =>
          simp only [below, Except.map, Except.ok.injEq, map_eq_some_iff] at visited
          obtain ⟨stepsBelow, rfl, rfl⟩ := visited
          rcases ih below with ⟨same, length⟩ | ⟨leaf, same, length⟩ | ⟨same, length⟩
          · exact .inl ⟨by simp [same], by simp [length]⟩
          · exact .inr (.inl ⟨leaf, by simp [same], by simp [← length]⟩)
          · exact .inr (.inr ⟨by simp [same], by simpa using length⟩)

theorem trace_of_blocked (blocked : builder.Blocked cursor path) : builder.trace cursor path = none := by
  unfold Blocked at blocked
  induction path generalizing cursor with
  | nil => simp [visit] at blocked
  | cons edge rest ih =>
    rw [visit] at blocked
    rw [trace]
    cases target : builder.hop cursor edge with
    | error => rfl
    | ok found =>
      rw [target] at blocked
      cases found with
      | missing => rfl
      | leaf id value => simp at blocked
      | container id value next =>
        cases below : builder.visit next rest with
        | error => simp [below, Except.map] at blocked
        | ok visited =>
          simp only [below, Except.map, Except.ok.injEq, map_eq_none_iff] at blocked
          simp [ih (blocked ▸ below)]

section Closed
theorem Closed.fieldStep (closed : builder.Closed) {id : ResponseObjectId} (valid : builder.Valid (.object id))
    (edge : ResponseEdge) : ∃ target, builder.fieldStep id edge = .ok target ∧
      ∀ found ∈ target, ∀ next, found.2.cursor = some next → builder.Valid next := by
  obtain ⟨object, atObject⟩ := isSome_iff_exists.mp valid
  rw [ResponseBuilder.fieldStep, atObject]
  cases search : object.fieldPosition edge with
  | none => exact ⟨none, by simp [search], by simp⟩
  | some position =>
    obtain ⟨field, atField, _⟩ := ResponseObject.fieldPosition_some search
    refine ⟨some (.objectField id position, field.value), by simp [search, atField], ?_⟩
    simp only [mem_some_iff, forall_eq']
    exact closed.fields id object atObject field (mem_of_getElem? atField)

theorem Closed.itemStep (closed : builder.Closed) {id : ResponseListId} (valid : builder.Valid (.list id))
    (index : Nat) : ∃ target, builder.itemStep id index = .ok target ∧
      ∀ found ∈ target, ∀ next, found.2.cursor = some next → builder.Valid next := by
  obtain ⟨items, atItems⟩ := isSome_iff_exists.mp valid
  rw [ResponseBuilder.itemStep, atItems]
  refine ⟨_, rfl, ?_⟩
  intro found reached
  obtain ⟨item, atItem, rfl⟩ := map_eq_some_iff.mp reached
  exact closed.items id items atItems item (mem_of_getElem? atItem)

/-- From a valid cursor a step never panics and leads to a value that is no dangling reference. -/
theorem Closed.step (closed : builder.Closed) (valid : builder.Valid cursor) (edge : ResponseEdge) :
    ∃ target, builder.step cursor edge = .ok target ∧
      ∀ found ∈ target, ∀ next, found.2.cursor = some next → builder.Valid next := by
  unfold ResponseBuilder.step
  split
  · exact closed.fieldStep valid edge
  · exact closed.fieldStep valid edge
  · exact closed.itemStep valid _
  · exact ⟨none, rfl, by simp⟩

theorem Closed.hop (closed : builder.Closed) (valid : builder.Valid cursor) (edge : ResponseEdge) :
    ∃ target, builder.hop cursor edge = .ok target ∧
      ∀ id value next, target = .container id value next → builder.Valid next := by
  obtain ⟨target, computed, safe⟩ := closed.step valid edge
  rw [ResponseBuilder.hop, computed]
  refine ⟨_, rfl, ?_⟩
  intro id value next reached
  cases target with
  | none => cases reached
  | some found =>
    dsimp only at reached
    split at reached
    · cases reached
    · cases kind : found.2.cursor with
      | none => simp [kind] at reached
      | some cursor =>
        obtain ⟨rfl, rfl, rfl⟩ : found.1 = id ∧ found.2 = value ∧ cursor = next := by
          simpa [kind] using reached
        exact safe found rfl cursor kind

/-- A walk through a closed response ends. -/
theorem Closed.visit (closed : builder.Closed) (valid : builder.Valid cursor)
    (path : ResponsePath) : ∃ visited, builder.visit cursor path = .ok visited := by
  induction path generalizing cursor with
  | nil => exact ⟨_, rfl⟩
  | cons edge rest ih =>
    obtain ⟨target, computed, validNext⟩ := closed.hop valid edge
    rw [ResponseBuilder.visit, computed]
    cases target with
    | missing | leaf id value => exact ⟨_, rfl⟩
    | container id value next =>
      obtain ⟨visited, below⟩ := ih (validNext id value next rfl)
      exact ⟨visited.map ((id, value) :: ·), by simp [below, Except.map]⟩

end Closed

/-- Propagation does what it is for: the response is already null, the path is blocked before any
leaf, or it leads to a value and no value on it is nullable. -/
def PropagatesExactly (builder : ResponseBuilder) (path : ResponsePath) : Prop :=
  ∀ root, builder.root = some root →
    builder.Blocked (.object root.1) path ∨
      ∃ steps, builder.trace (.object root.1) path = some steps ∧ ∀ step ∈ steps, step.2.nullable = false

theorem take_ne_take {first second : Nat} (different : first < second)
    (bound : second ≤ path.length) : path.take first ≠ path.take second := by
  intro same
  have lengths := congrArg length same
  rw [length_take, length_take] at lengths
  omega

variable {visited : List (ResponseValueId × ResponseValue)}

/-- Without a block, propagation is exact when the trace exists and holds nothing nullable. -/
theorem propagatesExactly_iff (rooted : builder.root = some root)
    (computed : builder.visit (.object root.1) path = .ok (some visited)) : builder.PropagatesExactly path ↔
      ∃ steps, builder.trace (.object root.1) path = some steps ∧ lastNullable steps = none := by
  have passable : ¬ builder.Blocked (.object root.1) path := fun blocked => by
    rw [Blocked, computed] at blocked
    cases blocked
  simp [PropagatesExactly, rooted, passable, lastNullable_eq_none]

theorem nullNearest_traced (rooted : builder.root = some root)
    (traced : builder.trace (.object root.1) path = some steps) :
    builder.nullNearest path = match lastNullable steps with
      | some (position, id) => (some (path.take (position + 1)), builder.setNull id)
      | none => (some [], { builder with root := none }) := by
  rw [nullNearest, rooted]
  simp only [traced]

/-- The prefix that the code returns for a nullable value is too short. -/
theorem propagateError_ne_nullNearest {position : Nat} (rooted : builder.root = some root)
    (computed : builder.visit (.object root.1) path = .ok (some visited))
    (traced : builder.trace (.object root.1) path = some steps)
    (nearest : lastNullable steps = some (position, id)) (bound : steps.length ≤ path.length)
    (shallow : ∀ other found, lastNullable visited = some (other, found) → other ≤ position) :
    builder.propagateError path ≠ .ok (builder.nullNearest path) := by
  have inside := lastNullable_lt nearest
  rw [propagateError_visited rooted computed, nullNearest_traced rooted traced, nearest]
  intro same
  have prefixes := congrArg (fun result => result.toOption.map Prod.fst) same
  cases last : lastNullable visited with
  | none =>
    rw [last] at prefixes
    have short : [] = path.take (position + 1) := by simpa [Except.toOption] using prefixes
    have different : path.take 0 ≠ path.take (position + 1) := take_ne_take (by omega) (by omega)
    exact different (by simpa using short)
  | some found =>
    have order := shallow found.1 found.2 last
    rw [last] at prefixes
    have short : path.take found.1 = path.take (position + 1) := by simpa [Except.toOption] using prefixes
    exact take_ne_take (by omega) (by omega) short

/-- Null propagation is exact if and only if nothing on the path is nullable. -/
theorem propagateError_eq_nullNearest_iff (builder : ResponseBuilder) (closed : builder.Closed) (path : ResponsePath) :
    builder.propagateError path = .ok (builder.nullNearest path) ↔ builder.PropagatesExactly path := by
  cases rooted : builder.root with
  | none => simp [propagateError, nullNearest, PropagatesExactly, rooted]
  | some root =>
    obtain ⟨visited, computed⟩ := closed.visit (closed.root root rooted) path
    cases visited with
    | none =>
      have blocked : builder.Blocked (.object root.1) path := computed
      rw [propagateError_blocked rooted blocked]
      simp [nullNearest, PropagatesExactly, rooted, trace_of_blocked blocked, blocked]
    | some visited =>
      rw [propagatesExactly_iff rooted computed]
      rcases trace_of_visit computed with ⟨traced, length⟩ | ⟨leaf, traced, length⟩ | ⟨traced, _⟩
      · -- The path ends at an object or a list.
        cases nearest : lastNullable visited with
        | none =>
          rw [propagateError_visited rooted computed, nullNearest_traced rooted traced, nearest]
          simp [traced, nearest]
        | some found =>
          refine iff_of_false (propagateError_ne_nullNearest rooted computed traced nearest (by omega) ?_)
            (by simp [traced, nearest])
          intro other id same
          rw [nearest] at same
          cases same
          exact Nat.le_refl other
      · -- The path ends at a leaf, which the loop does not look at.
        have concat := lastNullable_concat visited leaf.1 leaf.2
        cases nearest : lastNullable (visited ++ [leaf]) with
        | none =>
          have plain : lastNullable visited = none := by
            split at concat <;> simp_all
          rw [propagateError_visited rooted computed, nullNearest_traced rooted traced, plain, nearest]
          simp [traced, nearest]
        | some found =>
          refine iff_of_false (propagateError_ne_nullNearest rooted computed traced nearest (by simp; omega) ?_)
            (by simp [traced, nearest])
          intro other id same
          have bound := lastNullable_lt same
          split at concat <;> grind
      · -- The path goes on below a leaf, where the loop stops as if it had arrived.
        rw [propagateError_visited rooted computed]
        rw [nullNearest, rooted]
        simp only [traced]
        cases lastNullable visited <;> simp

/-- A root object with one field that holds an empty object. -/
def singleChild (nullable : Bool) : ResponseBuilder where
  root := some (⟨0, 0⟩, 0)
  parts := [⟨0, [⟨[⟨⟨0⟩, none, .object ⟨0, 1⟩ nullable⟩], by simp⟩, ResponseObject.default], []⟩]
  errors := []

theorem singleChild_closed (nullable : Bool) : (singleChild nullable).Closed :=
  closed_of_isClosed (by cases nullable <;> decide)

theorem propagateError_required_child : (singleChild false).PropagatesExactly [⟨0⟩] ∧
      (singleChild false).propagateError [⟨0⟩] = .ok ((singleChild false).nullNearest [⟨0⟩]) := by
  have plain : (singleChild false).PropagatesExactly [⟨0⟩] := by
    intro root rooted
    obtain rfl : (⟨0, 0⟩, 0) = root := by simpa [singleChild] using rooted
    have plain : ((singleChild false).trace (.object ⟨0, 0⟩) [⟨0⟩]).map (·.all (!·.2.nullable)) = some true := by
      decide +kernel
    obtain ⟨steps, traced, each⟩ := map_eq_some_iff.mp plain
    exact .inr ⟨steps, traced, fun step member => by simpa using all_eq_true.mp each step member⟩
  exact ⟨plain, (propagateError_eq_nullNearest_iff (singleChild false) (singleChild_closed false) [⟨0⟩]).mpr plain⟩

/-- The nulled field is addressed by its own edge, but the returned prefix is empty. -/
theorem propagateError_nullable_child :
    ((singleChild true).propagateError [⟨0⟩]).toOption.map Prod.fst = some (some []) ∧
      ((singleChild true).nullNearest [⟨0⟩]).1 = some [⟨0⟩] ∧
      (singleChild true).propagateError [⟨0⟩] ≠ .ok ((singleChild true).nullNearest [⟨0⟩]) := by
  have returned : ((singleChild true).propagateError [⟨0⟩]).toOption.map Prod.fst = some (some []) := by
    decide +kernel
  have nulled : ((singleChild true).nullNearest [⟨0⟩]).1 = some [⟨0⟩] := by decide +kernel
  refine ⟨returned, nulled, fun same => ?_⟩
  rw [same] at returned
  exact absurd (nulled.symm.trans (some.inj returned)) (by decide)

end Grafbase.Response.ResponseBuilder
