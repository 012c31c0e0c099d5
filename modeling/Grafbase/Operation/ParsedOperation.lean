import Grafbase.Operation.Document

/-! Validation of a parsed operation before it is bound.

Fragments are visited wherever they are spread, with the names of the
fragments around them to notice cycles. Fields are counted as they are met,
so that the limits apply to the operation with all fragments in place.
-/

set_option autoImplicit false

namespace Grafbase.Operation
open Foundation List

structure Pos where
  line : Nat
  column : Nat
  deriving DecidableEq

/-- The items of a selection set. Names, arguments and directives of fields play no role here. -/
inductive ParsedSelections where
  | nil
  | field (pos : Pos) (responseName : Option String) (selectionSetPos : Pos) (selectionSet rest : ParsedSelections)
  | fragmentSpread (pos : Pos) (fragmentName : String) (rest : ParsedSelections)
  | inlineFragment (selectionSetPos : Pos) (selectionSet rest : ParsedSelections)

structure ParsedFragment where
  selectionSetPos : Pos
  selectionSet : ParsedSelections

/-- The fragments are a map by name. -/
structure ParsedOperation where
  selectionSetPos : Pos
  selectionSet : ParsedSelections
  fragments : List (String × ParsedFragment)
  distinct : (fragments.map Prod.fst).Nodup

def ParsedOperation.getFragment (operation : ParsedOperation) (name : String) : Option ParsedFragment :=
  (operation.fragments.find? (·.1 = name)).map Prod.snd

structure OperationLimits where
  depth : Option UInt16 := none
  aliases : Option UInt16 := none
  rootFields : Option UInt16 := none
  complexity : Option UInt16 := none

inductive ParsedOperationError where
  | queryTooBig (message : String)
  | unknownFragment (name : String) (location : Location)
  | fragmentCycle (cycle : List String) (location : Location)
  | queryTooComplex (complexity : Nat) (location : Location)
  | queryTooDeep (depth : Nat) (location : Location)
  | queryContainsTooManyRootFields (count : Nat) (location : Location)
  | queryContainsTooManyAliases (count : Nat) (location : Location)

/-- Lines and columns have to fit into 16 bits. -/
def Location.tryFrom (pos : Pos) : Except ParsedOperationError Location :=
  if pos.line < 2 ^ 16 then
    if pos.column < 2 ^ 16 then .ok ⟨pos.line, pos.column⟩
    else .error (.queryTooBig s!"Too many columns ({pos.column})")
  else .error (.queryTooBig s!"Too many lines ({pos.line})")

def failAt {α : Type} (pos : Pos) (error : Location → ParsedOperationError) : Except ParsedOperationError α := do
  .error (error (← Location.tryFrom pos))

def failIf (failed : Bool) (pos : Pos) (error : Location → ParsedOperationError) : Except ParsedOperationError Unit :=
  if failed then failAt pos error else .ok ()

/-- The counters of the visitor, of type `usize`. -/
structure Visited where
  rootFields : Nat := 0
  aliasesCount : Nat := 0
  complexity : Nat := 0

/-- The comparison with `limit.map(Into::into).unwrap_or(usize::MAX)`, which no `usize` exceeds. -/
def exceeds (count : Nat) : Option UInt16 → Bool
  | some most => most.toNat < count
  | none => false

def addTo (count : Nat) (added : Bool) : Nat := (count + added.toNat) % 2 ^ 64

section Visit
variable (operation : ParsedOperation) (limits : OperationLimits)

def unvisited (stack : List String) : List String := (operation.fragments.map Prod.fst).filter (· ∉ stack)

theorem unvisited_lt {stack : List String} {name : String} {fragment : ParsedFragment} (fresh : name ∉ stack)
    (found : operation.getFragment name = some fragment) :
    (unvisited operation (stack ++ [name])).length < (unvisited operation stack).length := by
  have member : name ∈ unvisited operation stack := by
    rw [unvisited, mem_filter]
    obtain ⟨entry, isFirst, rfl⟩ := Option.map_eq_some_iff.mp found
    have isName : entry.1 = name := by simpa using find?_some isFirst
    exact ⟨mem_map.mpr ⟨entry, mem_of_find?_eq_some isFirst, isName⟩, by simpa using fresh⟩
  have split : unvisited operation (stack ++ [name]) = (unvisited operation stack).filter (· ≠ name) := by
    simp only [unvisited, filter_filter]
    congr 1
    simp [and_comm]
  rw [split]
  exact length_filter_lt_length_iff_exists.mpr ⟨name, member, by simp⟩

/-- A field that is entered: it is counted, and so is its alias. -/
def enterField (depth : Nat) (selectionSetPos pos fieldSelectionSetPos : Pos) (responseName : Option String)
    (visited : Visited) : Except ParsedOperationError Visited := do
  let rootFields := addTo visited.rootFields (depth = 0)
  failIf (exceeds rootFields limits.rootFields) selectionSetPos (.queryContainsTooManyRootFields rootFields)
  let complexity := addTo visited.complexity true
  failIf (exceeds complexity limits.complexity) selectionSetPos (.queryTooComplex complexity)
  let aliasesCount := addTo visited.aliasesCount responseName.isSome
  failIf (exceeds aliasesCount limits.aliases) pos (.queryContainsTooManyAliases aliasesCount)
  -- The depth is bounded by the size of the document and does not wrap around.
  failIf (exceeds (depth + 1) limits.depth) fieldSelectionSetPos (.queryTooDeep (depth + 1))
  .ok { rootFields, aliasesCount, complexity }

/-- The stack of fragments and the depth are what they were before once a fragment or field is left. -/
def visitSelectionSet (stack : List String) (depth : Nat) (selectionSetPos : Pos) (visited : Visited) :
    ParsedSelections → Except ParsedOperationError Visited
  | .nil => .ok visited
  | .field pos responseName fieldSelectionSetPos selectionSet rest => do
      let visited ← enterField limits depth selectionSetPos pos fieldSelectionSetPos responseName visited
      let visited ← visitSelectionSet stack (depth + 1) fieldSelectionSetPos visited selectionSet
      visitSelectionSet stack depth selectionSetPos visited rest
  | .fragmentSpread pos fragmentName rest => do
      if _cycle : fragmentName ∈ stack then failAt pos (.fragmentCycle (stack ++ [fragmentName]))
      else
        match _found : operation.getFragment fragmentName with
        | none => failAt pos (.unknownFragment fragmentName)
        | some fragment => do
            let visited ←
              visitSelectionSet (stack ++ [fragmentName]) depth fragment.selectionSetPos visited fragment.selectionSet
            visitSelectionSet stack depth selectionSetPos visited rest
  | .inlineFragment innerPos selectionSet rest => do
      let visited ← visitSelectionSet stack depth innerPos visited selectionSet
      visitSelectionSet stack depth selectionSetPos visited rest
termination_by selections => ((unvisited operation stack).length, sizeOf selections)
decreasing_by
  all_goals simp_wf
  all_goals first
    | exact Prod.Lex.left _ _ (unvisited_lt operation _cycle _found)
    | exact Prod.Lex.right _ (by omega)

def validateParsedOperation : Except ParsedOperationError Unit := do
  let _ ← visitSelectionSet operation limits [] 0 operation.selectionSetPos {} operation.selectionSet
  .ok ()

end Visit
end Grafbase.Operation
