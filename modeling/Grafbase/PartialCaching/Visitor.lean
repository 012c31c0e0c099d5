import Grafbase.PartialCaching.Document

/-! The walk over the selections of an operation or a fragment.

A visitor is told when a selection or a field is entered and left, and where a
fragment is spread; the walk does not enter spread fragments. The visitors of
the planner keep a stack of selections and a stack of cache controls. What
such a visitor computes is a fold over the leaves and spreads of the set, each
with its path and the cache control that is active there.
-/

set_option autoImplicit false

namespace Grafbase.PartialCaching
open List

structure FieldEdge where
  selectionSet : Selections
  field : Option MetaField
  fieldType : Option MetaType

variable (edge : FieldEdge)

def FieldEdge.cacheControl : Option CacheControl :=
  (edge.field.bind MetaField.cacheControl).or (edge.fieldType.bind MetaType.cacheControl)

structure Visitor (σ : Type) where
  enterSelection : SelectionId → σ → σ
  exitSelection : SelectionId → σ → σ
  enterField : FieldEdge → σ → σ
  exitField : FieldEdge → σ → σ
  fragmentSpread : String → σ → σ

section Walk
variable {σ τ : Type}

def Visitor.both (first : Visitor σ) (second : Visitor τ) : Visitor (σ × τ) where
  enterSelection id := Prod.map (first.enterSelection id) (second.enterSelection id)
  exitSelection id := Prod.map (first.exitSelection id) (second.exitSelection id)
  enterField edge := Prod.map (first.enterField edge) (second.enterField edge)
  exitField edge := Prod.map (first.exitField edge) (second.exitField edge)
  fragmentSpread name := Prod.map (first.fragmentSpread name) (second.fragmentSpread name)

variable (registry : PartialCacheRegistry)

def fieldEdge (container : Option MetaType) (name : String) (selectionSet : Selections) : FieldEdge :=
  let field := container.bind (·.field name)
  ⟨selectionSet, field, field.bind fun field => registry.read field.type⟩

def innerContainer (container : Option MetaType) : Option String → Option MetaType
  | some type => registry.lookupType type
  | none => container

def visitSelectionSet (visitor : Visitor σ) (container : Option MetaType) : Selections → σ → σ
  | .nil, state => state
  | .field id _ name _ _ selectionSet rest, state =>
    let edge := fieldEdge registry container name selectionSet
    let entered := visitor.enterField edge (visitor.enterSelection id state)
    let inside := visitSelectionSet visitor edge.fieldType selectionSet entered
    visitSelectionSet visitor container rest (visitor.exitSelection id (visitor.exitField edge inside))
  | .inlineFragment id typeCondition _ selectionSet rest, state =>
    let inside := visitSelectionSet visitor (innerContainer registry container typeCondition) selectionSet
      (visitor.enterSelection id state)
    visitSelectionSet visitor container rest (visitor.exitSelection id inside)
  | .fragmentSpread id name _ rest, state =>
    visitSelectionSet visitor container rest
      (visitor.exitSelection id (visitor.fragmentSpread name (visitor.enterSelection id state)))

def visitQuery (visitor : Visitor σ) (query : OperationDefinition) (state : σ) : σ :=
  visitSelectionSet registry visitor (some registry.queryType) query.selectionSet state

def visitFragment (visitor : Visitor σ) (fragment : FragmentDefinition) (state : σ) : σ :=
  visitSelectionSet registry visitor (registry.lookupType fragment.typeCondition) fragment.selectionSet state

variable {registry}

theorem visitSelectionSet_both (first : Visitor σ) (second : Visitor τ) (container : Option MetaType)
    (selections : Selections) (state : σ × τ) :
    visitSelectionSet registry (first.both second) container selections state =
      (visitSelectionSet registry first container selections state.1,
        visitSelectionSet registry second container selections state.2) := by
  induction selections generalizing container state with
  | nil => rfl
  | field id otherName name arguments directives selectionSet rest inside after
  | inlineFragment id typeCondition directives selectionSet rest inside after =>
    simp only [visitSelectionSet, inside, after]
    rfl
  | fragmentSpread id name directives rest after =>
    simp only [visitSelectionSet, after]
    rfl

end Walk

/-- What a walk meets: a field without selections, or the spread of a fragment. -/
inductive Event where
  | leaf (path : List SelectionId) (control : Option CacheControl)
  | spread (path : List SelectionId) (name : String) (control : Option CacheControl)

def Event.under (id : SelectionId) : Event → Event
  | leaf path control => leaf (id :: path) control
  | spread path name control => spread (id :: path) name control

/-- A field without selections is a leaf itself. -/
def leafEvents (selectionSet : Selections) (control : Option CacheControl) : List Event :=
  if selectionSet.isEmpty then [.leaf [] control] else []

/-- The leaves and spreads of a set under the cache control that is active around it. -/
def events (registry : PartialCacheRegistry) (container : Option MetaType) (control : Option CacheControl) :
    Selections → List Event
  | .nil => []
  | .field id _ name _ _ selectionSet rest =>
    let edge := fieldEdge registry container name selectionSet
    let own := edge.cacheControl.or control
    (leafEvents selectionSet own ++ events registry edge.fieldType own selectionSet).map (Event.under id) ++
      events registry container control rest
  | .inlineFragment id typeCondition _ selectionSet rest =>
    (events registry (innerContainer registry container typeCondition) control selectionSet).map (Event.under id) ++
      events registry container control rest
  | .fragmentSpread id name _ rest => .spread [id] name control :: events registry container control rest

def Event.path : Event → List SelectionId
  | leaf path _ => path
  | spread path _ _ => path

@[simp] theorem Event.path_under (id : SelectionId) (event : Event) : (event.under id).path = id :: event.path := by
  cases event <;> rfl

theorem path_of_mem_leafEvents {selectionSet : Selections} {control : Option CacheControl} {event : Event}
    (member : event ∈ leafEvents selectionSet control) : event.path = [] := by
  unfold leafEvents at member
  split at member
  · rw [mem_singleton.mp member, Event.path]
  · cases member

section Paths
variable {registry : PartialCacheRegistry} {id : SelectionId} {above below : List SelectionId}

/-- A step of a path is the selection itself or lies within its selection set. -/
theorem ancestors_under {own : SelectionId}
    {selectionSet rest : Selections} {path : List SelectionId} (split : own :: path = above ++ id :: below)
    (inside : ∀ {above}, path = above ++ id :: below → selectionSet.Ancestors id above) : (id = own ∧ above = []) ∨
    (∃ inner, above = own :: inner ∧ selectionSet.Ancestors id inner) ∨ rest.Ancestors id above := by
  cases above with
  | nil => exact .inl ⟨(List.cons.inj split).1.symm, rfl⟩
  | cons first others =>
    obtain ⟨rfl, tail⟩ := List.cons.inj split
    exact .inr (.inl ⟨others, rfl, inside tail⟩)

/-- What stands before a selection on the path of an event are its ancestors. -/
theorem ancestors_of_mem_events {container : Option MetaType} {control : Option CacheControl} {selections : Selections}
    {event : Event} (member : event ∈ events registry container control selections)
      (split : event.path = above ++ id :: below) : selections.Ancestors id above := by
  induction selections generalizing container control event above with
  | nil => cases member
  | field own otherName name arguments directives selectionSet rest inside after =>
    rcases mem_append.mp member with here | later
    · obtain ⟨inner, found, rfl⟩ := mem_map.mp here
      rw [Event.path_under] at split
      refine ancestors_under split fun {above} tail => ?_
      rcases mem_append.mp found with isLeaf | nested
      · rw [path_of_mem_leafEvents isLeaf] at tail
        simp at tail
      · exact inside nested tail
    · exact .inr (.inr (after later split))
  | inlineFragment own typeCondition directives selectionSet rest inside after =>
    rcases mem_append.mp member with here | later
    · obtain ⟨inner, found, rfl⟩ := mem_map.mp here
      rw [Event.path_under] at split
      exact ancestors_under split fun {above} tail => inside found tail
    · exact .inr (.inr (after later split))
  | fragmentSpread own name directives rest after =>
    rcases mem_cons.mp member with rfl | later
    · cases above with
      | nil => exact .inl ⟨(List.cons.inj split).1.symm, rfl⟩
      | cons first others => simp [Event.path] at split
    · exact .inr (after later split)

end Paths

/-- The state of a visitor with its two stacks, listed from their tops. -/
structure Traversal (τ : Type) where
  selectionStack : List SelectionId
  cacheControlStack : List CacheControl
  output : τ

structure Handlers (τ : Type) where
  leaf : List SelectionId → Option CacheControl → τ → τ
  spread : List SelectionId → String → Option CacheControl → τ → τ

variable (stack : List SelectionId)

namespace Handlers
variable {τ : Type} (handlers : Handlers τ)

def enterField (state : Traversal τ) : Traversal τ :=
  let pushed := { state with cacheControlStack := edge.cacheControl.toList ++ state.cacheControlStack }
  if edge.selectionSet.isEmpty then
    { pushed with output := handlers.leaf pushed.selectionStack pushed.cacheControlStack.head? pushed.output }
  else pushed

def visitor : Visitor (Traversal τ) where
  enterSelection id state := { state with selectionStack := id :: state.selectionStack }
  exitSelection _ state := { state with selectionStack := state.selectionStack.tail }
  enterField := handlers.enterField
  exitField edge state :=
    if edge.cacheControl.isSome then { state with cacheControlStack := state.cacheControlStack.tail } else state
  fragmentSpread name state :=
    { state with output := handlers.spread state.selectionStack name state.cacheControlStack.head? state.output }

/-- An event below the selections of a stack. -/
def handle (output : τ) : Event → τ
  | .leaf path control => handlers.leaf (path.reverse ++ stack) control output
  | .spread path name control => handlers.spread (path.reverse ++ stack) name control output

theorem foldl_handle_under (id : SelectionId) (output : τ) (met : List Event) :
    (met.map (Event.under id)).foldl (handlers.handle stack) output =
      met.foldl (handlers.handle (id :: stack)) output := by
  rw [foldl_map]
  congr 1
  funext output event
  cases event <;> simp [handle, Event.under]

theorem head?_push (control : Option CacheControl) (stack : List CacheControl) :
    (control.toList ++ stack).head? = control.or stack.head? := by
  cases control <;> rfl

theorem enterField_eq (state : Traversal τ) :
    handlers.enterField edge state =
      { state with
        cacheControlStack := edge.cacheControl.toList ++ state.cacheControlStack
        output := (leafEvents edge.selectionSet (edge.cacheControl.or state.cacheControlStack.head?)).foldl
          (handlers.handle state.selectionStack) state.output } := by
  unfold enterField leafEvents
  split
  · simp [handle]
  · rfl

theorem exitField_eq (controls : List CacheControl) (output : τ) :
    handlers.visitor.exitField edge ⟨stack, edge.cacheControl.toList ++ controls, output⟩ =
      ⟨stack, controls, output⟩ := by
  cases found : edge.cacheControl <;> simp [visitor, found]

variable {registry : PartialCacheRegistry}

/-- The walk hands on all events and leaves the stacks as they were. -/
theorem visitSelectionSet_eq (container : Option MetaType) (selections : Selections) (state : Traversal τ) :
    visitSelectionSet registry handlers.visitor container selections state =
      { state with
        output := (events registry container state.cacheControlStack.head? selections).foldl
          (handlers.handle state.selectionStack) state.output } := by
  induction selections generalizing container state with
  | nil => rfl
  | field id otherName name arguments directives selectionSet rest inside after =>
    -- The control of the field is on top of the stack while its own selections are visited.
    have entered : handlers.visitor.enterField = handlers.enterField := rfl
    simp only [visitSelectionSet, inside, after, events, entered, enterField_eq, exitField_eq, head?_push,
      foldl_append, foldl_handle_under]
    rfl
  | inlineFragment id typeCondition directives selectionSet rest inside after =>
    simp only [visitSelectionSet, inside, after, events, foldl_append, foldl_handle_under]
    rfl
  | fragmentSpread id name directives rest after =>
    simp only [visitSelectionSet, after, events, foldl_cons]
    rfl

end Handlers
end Grafbase.PartialCaching
