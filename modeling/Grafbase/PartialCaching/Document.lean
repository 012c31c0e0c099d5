import Grafbase.Foundation.Literal
import Mathlib.Data.List.Nodup
import Mathlib.Data.List.Pairwise

/-! Executable documents and cache controls as the planner of the partial cache reads them.

Types and fields are stored in the order of their names, each name once, so a
search for a name finds the only one. Every selection has an identifier that no
other selection of the document has. A selection set is the list of its
selections, each followed by the rest.
-/

set_option autoImplicit false

namespace Grafbase.PartialCaching
open Foundation List

inductive CacheInvalidationPolicy where
  | entity (field : String)
  | list
  | type
  deriving DecidableEq

inductive CacheAccessScope where
  | apiKey
  | jwt (claim : String)
  | header (header : String)
  | publicScope
  deriving DecidableEq

/-- Access scopes are listed in the order of their set. -/
structure CacheControl where
  isPublic : Bool
  maxAge : Nat
  staleWhileRevalidate : Nat
  invalidationPolicy : Option CacheInvalidationPolicy
  accessScopes : Option (List CacheAccessScope)
  deriving DecidableEq

abbrev MetaTypeId := Nat

/-- The type of a field is kept without its wrappers. -/
structure MetaField where
  name : String
  type : MetaTypeId
  cacheControl : Option CacheControl
  deriving DecidableEq

inductive MetaType where
  | object (name : String) (fields : List MetaField) (cacheControl : Option CacheControl)
  | interface (name : String) (fields : List MetaField) (cacheControl : Option CacheControl)
  | other (name : String)
  deriving DecidableEq

namespace MetaType

def name : MetaType → String
  | object name _ _ | interface name _ _ | other name => name

def fields : MetaType → List MetaField
  | object _ fields _ | interface _ fields _ => fields
  | other _ => []

def cacheControl : MetaType → Option CacheControl
  | object _ _ cacheControl | interface _ _ cacheControl => cacheControl
  | other _ => none

def field (type : MetaType) (name : String) : Option MetaField := type.fields.find? (·.name = name)

end MetaType

structure PartialCacheRegistry where
  types : List MetaType
  queryType : MetaType
  rooted : queryType ∈ types

namespace PartialCacheRegistry

def read (registry : PartialCacheRegistry) (id : MetaTypeId) : Option MetaType := registry.types[id]?

def lookupType (registry : PartialCacheRegistry) (name : String) : Option MetaType :=
  registry.types.find? (·.name = name)

def controls (registry : PartialCacheRegistry) : List CacheControl :=
  registry.types.flatMap fun type => type.cacheControl.toList ++ type.fields.filterMap MetaField.cacheControl

end PartialCacheRegistry

abbrev SelectionId := Nat
abbrev FragmentDefinitionId := Nat
abbrev VariableDefinitionId := Nat

/-- The part of a value without structure; numbers as they are written. -/
inductive ValueLeaf where
  | variable (name : String)
  | number (text : String)
  | string (text : String)
  | boolean (value : Bool)
  | null
  | enum (name : String)
  deriving DecidableEq

abbrev Value := Literal String ValueLeaf

def ValueLeaf.variableNamed? : ValueLeaf → Option String
  | .variable name => some name
  | _ => none

def variablesUsed (value : Value) : List String := value.leaves.filterMap ValueLeaf.variableNamed?

structure Argument where
  name : String
  value : Value

structure Directive where
  name : String
  arguments : List Argument

inductive Selections where
  | nil
  | field (id : SelectionId) (otherName : Option String) (name : String) (arguments : List Argument)
      (directives : List Directive) (selectionSet rest : Selections)
  | inlineFragment (id : SelectionId) (typeCondition : Option String) (directives : List Directive)
      (selectionSet rest : Selections)
  | fragmentSpread (id : SelectionId) (fragmentName : String) (directives : List Directive) (rest : Selections)

/-- What a selection says itself, without the selections below it. -/
inductive Selection where
  | field (otherName : Option String) (name : String) (arguments : List Argument) (directives : List Directive)
  | inlineFragment (typeCondition : Option String) (directives : List Directive)
  | fragmentSpread (fragmentName : String) (directives : List Directive)

namespace Selections

def members : Selections → List (SelectionId × Selection)
  | nil => []
  | field id otherName name arguments directives _ rest =>
    (id, .field otherName name arguments directives) :: rest.members
  | inlineFragment id typeCondition directives _ rest => (id, .inlineFragment typeCondition directives) :: rest.members
  | fragmentSpread id fragmentName directives rest => (id, .fragmentSpread fragmentName directives) :: rest.members

def all : Selections → List (SelectionId × Selection)
  | nil => []
  | field id otherName name arguments directives selectionSet rest =>
    (id, .field otherName name arguments directives) :: (selectionSet.all ++ rest.all)
  | inlineFragment id typeCondition directives selectionSet rest =>
    (id, .inlineFragment typeCondition directives) :: (selectionSet.all ++ rest.all)
  | fragmentSpread id fragmentName directives rest => (id, .fragmentSpread fragmentName directives) :: rest.all

def ids (selections : Selections) : List SelectionId := selections.all.map Prod.fst

def isEmpty : Selections → Bool
  | nil => true
  | _ => false

/-- The selections around a selection, from the outermost to the innermost. -/
def Ancestors : Selections → SelectionId → List SelectionId → Prop
  | nil, _, _ => False
  | field own _ _ _ _ selectionSet rest, id, above | inlineFragment own _ _ selectionSet rest, id, above =>
    (id = own ∧ above = []) ∨ (∃ inner, above = own :: inner ∧ selectionSet.Ancestors id inner) ∨
      rest.Ancestors id above
  | fragmentSpread own _ _ rest, id, above => (id = own ∧ above = []) ∨ rest.Ancestors id above

variable {id : SelectionId} {above other : List SelectionId} {selections : Selections}

theorem mem_ids_of_ancestors (found : selections.Ancestors id above) : id ∈ selections.ids := by
  induction selections generalizing above with
  | nil => exact found.elim
  | field own otherName name arguments directives selectionSet rest inside after
  | inlineFragment own typeCondition directives selectionSet rest inside after =>
    simp only [ids, all, map_cons, map_append, mem_cons, mem_append]
    rcases found with ⟨rfl, _⟩ | ⟨inner, _, below⟩ | later
    · exact .inl rfl
    · exact .inr (.inl (inside below))
    · exact .inr (.inr (after later))
  | fragmentSpread own fragmentName directives rest after =>
    simp only [ids, all, map_cons, mem_cons]
    rcases found with ⟨rfl, _⟩ | later
    · exact .inl rfl
    · exact .inr (after later)

/-- The three places where a selection can be exclude each other when no identifier occurs twice. -/
theorem ancestors_unique_step {own : SelectionId} {selectionSet rest : Selections}
    (distinct : (own :: (selectionSet.ids ++ rest.ids)).Nodup)
    (inside : ∀ {first second}, selectionSet.Ancestors id first → selectionSet.Ancestors id second → first = second)
    (after : ∀ {first second}, rest.Ancestors id first → rest.Ancestors id second → first = second)
    (found : (id = own ∧ above = []) ∨ (∃ inner, above = own :: inner ∧ selectionSet.Ancestors id inner) ∨
      rest.Ancestors id above)
    (again : (id = own ∧ other = []) ∨ (∃ inner, other = own :: inner ∧ selectionSet.Ancestors id inner) ∨
      rest.Ancestors id other) : above = other := by
  obtain ⟨fresh, distinct⟩ := nodup_cons.mp distinct
  have apart := (nodup_append.mp distinct).2.2
  have notOwn {first : List SelectionId} (below : selectionSet.Ancestors id first ∨ rest.Ancestors id first) :
    id ≠ own := by
    rintro rfl
    refine fresh (mem_append.mpr ?_)
    exact below.imp mem_ids_of_ancestors mem_ids_of_ancestors
  rcases found with ⟨same, rfl⟩ | ⟨inner, rfl, below⟩ | later <;>
    rcases again with ⟨sameToo, rfl⟩ | ⟨innerToo, rfl, belowToo⟩ | laterToo
  · rfl
  · exact absurd same (notOwn (.inl belowToo))
  · exact absurd same (notOwn (.inr laterToo))
  · exact absurd sameToo (notOwn (.inl below))
  · rw [inside below belowToo]
  · exact absurd rfl (apart id (mem_ids_of_ancestors below) id (mem_ids_of_ancestors laterToo))
  · exact absurd sameToo (notOwn (.inr later))
  · exact absurd rfl (apart id (mem_ids_of_ancestors belowToo) id (mem_ids_of_ancestors later))
  · exact after later laterToo

theorem ancestors_unique (distinct : selections.ids.Nodup) (found : selections.Ancestors id above)
    (again : selections.Ancestors id other) : above = other := by
  induction selections generalizing above other with
  | nil => exact found.elim
  | field own otherName name arguments directives selectionSet rest inside after
  | inlineFragment own typeCondition directives selectionSet rest inside after =>
    have parts : (own :: (selectionSet.ids ++ rest.ids)).Nodup := by simpa [ids, all] using distinct
    have inner := (nodup_append.mp (nodup_cons.mp parts).2)
    exact ancestors_unique_step parts (inside inner.1) (after inner.2.1) found again
  | fragmentSpread own fragmentName directives rest after =>
    have parts : (own :: (nil.ids ++ rest.ids)).Nodup := by simpa [ids, all] using distinct
    refine ancestors_unique_step parts (fun found => found.elim) (after (nodup_cons.mp parts).2) ?_ ?_
    · exact found.imp_right .inr
    · exact again.imp_right .inr

end Selections

inductive VariableType where
  | named (name : String)
  | list (inner : VariableType)
  | nonNull (inner : VariableType)

structure VariableDefinition where
  name : String
  type : VariableType
  defaultValue : Option Value
  directives : List Directive

inductive OperationType where
  | query | mutation | subscription
  deriving DecidableEq

structure OperationDefinition where
  operationType : OperationType
  name : Option String
  variableDefinitions : List VariableDefinition
  directives : List Directive
  selectionSet : Selections

structure FragmentDefinition where
  name : String
  typeCondition : String
  directives : List Directive
  selectionSet : Selections

structure ExecutableDocument where
  operations : List OperationDefinition
  fragments : List FragmentDefinition
  distinct : ((operations.flatMap (·.selectionSet.ids)) ++ fragments.flatMap (·.selectionSet.ids)).Nodup

variable (document : ExecutableDocument)

namespace ExecutableDocument

def selections : List (SelectionId × Selection) :=
  document.operations.flatMap (·.selectionSet.all) ++ document.fragments.flatMap (·.selectionSet.all)

def readSelection (id : SelectionId) : Option Selection := document.selections.lookup id

def bodies : List Selections :=
  document.operations.map (·.selectionSet) ++ document.fragments.map (·.selectionSet)

/-- The fragment a spread names: the first one of that name. -/
def fragmentNamed (name : String) : Option FragmentDefinitionId :=
  document.fragments.findIdx? (·.name = name)

def readFragment (id : FragmentDefinitionId) : FragmentDefinition :=
  (document.fragments[id]?).getD ⟨"", "", [], .nil⟩

theorem distinct_bodies : (document.bodies.flatMap Selections.ids).Nodup := by
  simpa [bodies, flatMap_append, flatMap_map] using document.distinct

/-- Identifiers are distinct in the whole document, so a selection has the same ancestors wherever it is found. -/
theorem ancestors_unique {body other : Selections} (inDocument : body ∈ document.bodies)
    (otherIn : other ∈ document.bodies) {id : SelectionId} {above otherAbove : List SelectionId}
    (found : body.Ancestors id above) (again : other.Ancestors id otherAbove) : above = otherAbove := by
  obtain ⟨each, apart⟩ := nodup_flatMap.mp document.distinct_bodies
  by_cases same : body = other
  · subst same
    exact Selections.ancestors_unique (each body inDocument) found again
  · have symmetric : Std.Symm (Function.onFun List.Disjoint Selections.ids) :=
      ⟨fun _ _ apart _ first second => apart second first⟩
    have disjoint := apart.forall inDocument otherIn same
    exact absurd (Selections.mem_ids_of_ancestors again) (disjoint (Selections.mem_ids_of_ancestors found))

end ExecutableDocument

end Grafbase.PartialCaching
