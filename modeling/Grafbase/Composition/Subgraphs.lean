import Grafbase.Foundation.Grouping
import Grafbase.Foundation.Entries
import Grafbase.Sdl.Ast
import Mathlib.Data.List.Dedup

/-! The subgraphs to be composed, as they are after ingestion.

The tables of the source, keyed by definition, field and argument, are kept as
the trees they describe, and types in place of their ids. Strings stay strings;
the order in which the interner first saw them is what sorting by string id
means. Only what the merge routines read to report errors is kept: the
composition they write is never read back.
-/

set_option autoImplicit false

namespace Grafbase.Composition
open Foundation

inductive WrapperTypeKind where
  | list
  | nonNullList
  deriving DecidableEq

/-- What the id of a field type stands for, its wrappers from the innermost to the outermost. -/
structure FieldType where
  name : String
  innerIsRequired : Bool
  wrappers : List WrapperTypeKind
  deriving DecidableEq

variable (self : FieldType)

namespace FieldType

def isRequired : Bool :=
  match self.wrappers.getLast? with
  | some .list => false
  | some .nonNullList => true
  | none => self.innerIsRequired

def display : String :=
  self.wrappers.foldl
    (fun out wrapper => match wrapper with
      | .list => "[" ++ out ++ "]"
      | .nonNullList => "[" ++ out ++ "]!")
    (if self.innerIsRequired then self.name ++ "!" else self.name)

/-- The loop of `compose` over the zipped wrappers. -/
def composeWrappers (otherIsRequired : Bool) (zipped : PeekableZip WrapperTypeKind WrapperTypeKind) : Option Bool :=
  match _ : zipped.next.1 with
  | none => some otherIsRequired
  | some (selfWrapper, otherWrapper) =>
    let peeked := zipped.next.2.peek
    match peeked.1 with
    | none =>
      -- The borrowed iterators are asked for more: what the zip took from the left is gone.
      if peeked.2.left.head?.isSome || peeked.2.right.head?.isSome then none
      else some (otherWrapper = .nonNullList)
    | some _ => if selfWrapper ≠ otherWrapper then none else composeWrappers otherIsRequired peeked.2
termination_by zipped.remaining
decreasing_by exact Nat.lt_of_le_of_lt (PeekableZip.remaining_peek _) (PeekableZip.remaining_next ‹_›)

/-- Whether `other` is the non-null one, or nothing when the two cannot be composed. -/
def compose (other : FieldType) : Option Bool :=
  if self = other then some true
  else if self.name ≠ other.name then none
  else
    let peeked := (PeekableZip.new self.wrappers other.wrappers).peek
    if peeked.1.isSome && self.innerIsRequired != other.innerIsRequired then none
    else composeWrappers other.isRequired peeked.2

def composeForInput (other : FieldType) : Option FieldType :=
  (self.compose other).map fun otherIsRequired => if otherIsRequired then other else self

def composeForOutput (other : FieldType) : Option FieldType :=
  (self.compose other).map fun otherIsRequired => if otherIsRequired then self else other

end FieldType

inductive ValueLeaf where
  | string (value : String)
  | int (value : Int)
  | float (value : Float)
  | boolean (value : Bool)
  | enum (name : String)
  | null
  deriving BEq

deriving instance BEq for Literal

abbrev Value := Literal String ValueLeaf

inductive Selection where
  | field (name : String) (arguments : List (String × Value)) (subselection : List Selection)
  | inlineFragment (on : String) (subselection : List Selection)
  deriving BEq

structure Key where
  selectionSet : List Selection
  resolvable : Bool

/-- An `@override`, its `from` argument named `source`. -/
structure OverrideDirective where
  source : String
  label : Option String

structure DirectiveSite where
  shareable : Bool
  external : Bool
  interfaceObject : Bool
  inaccessible : Bool
  overrideDirective : Option OverrideDirective

def DirectiveSite.none : DirectiveSite := ⟨false, false, false, false, .none⟩

structure Argument where
  name : String
  type : FieldType
  directives : DirectiveSite
  default : Option Value

/-- A field of an object, an interface or an input object. `inNestedKey`: it is part of a key of another type. -/
structure Field where
  name : String
  type : FieldType
  directives : DirectiveSite
  arguments : List Argument
  inNestedKey : Bool

inductive DefinitionKind where
  | object
  | interface
  | union
  | inputObject
  | scalar
  | enum
  deriving DecidableEq

def DefinitionKind.debug : DefinitionKind → String
  | object => "Object"
  | interface => "Interface"
  | union => "Union"
  | inputObject => "InputObject"
  | scalar => "Scalar"
  | enum => "Enum"

structure Definition where
  name : String
  kind : DefinitionKind
  directives : DirectiveSite
  keys : List Key
  hasNestedKey : Bool
  fields : List Field
  enumValues : List String
  -- Fields and enum values are stored under their names.
  fieldsDistinct : (fields.map Field.name).Nodup
  enumValuesDistinct : enumValues.Nodup
  fieldsOfComposites : fields ≠ [] → kind = .object ∨ kind = .interface ∨ kind = .inputObject
  enumValuesOfEnums : enumValues ≠ [] → kind = .enum

/-- One subgraph. `interned` are the strings its ingestion hands to the interner, in order;
`interfaceImpls` its pairs of interface and implementer. -/
structure Subgraph where
  name : String
  definitions : List Definition
  queryType : Option String
  mutationType : Option String
  subscriptionType : Option String
  interfaceImpls : List (String × String)
  interned : List String
  -- A name is looked up in a subgraph, so it has one definition there.
  definitionsDistinct : (definitions.map Definition.name).Nodup
  definitionsInterned : ∀ definition ∈ definitions, definition.name ∈ interned
  fieldsInterned : ∀ definition ∈ definitions, ∀ field ∈ definition.fields, field.name ∈ interned
  enumValuesInterned : ∀ definition ∈ definitions, ∀ value ∈ definition.enumValues, value ∈ interned

structure DefinitionWalker where
  subgraph : Subgraph
  definition : Definition

structure FieldWalker where
  parentDefinition : DefinitionWalker
  field : Field

structure FieldArgumentWalker where
  field : FieldWalker
  argument : Argument

def builtinScalars : List String := ["ID", "String", "Boolean", "Int", "Float"]

variable (subgraph : Subgraph) (subgraphs : List Subgraph)

def strings : IndexSet String :=
  (builtinScalars ++ subgraphs.flatMap Subgraph.interned).foldl (fun set string => (set.insertFull string).2) .empty

def stringId (string : String) : Nat := (strings subgraphs).items.idxOf string

namespace DefinitionWalker
variable (walker : DefinitionWalker)

def name : String := walker.definition.name
def kind : DefinitionKind := walker.definition.kind
def directives : DirectiveSite := walker.definition.directives
def subgraphName : String := walker.subgraph.name

def isEntity : Bool := !walker.definition.keys.isEmpty || walker.definition.hasNestedKey

/-- The fields in the order of their names' ids. -/
def fields : List FieldWalker :=
  (sortByRank Field.name (stringId subgraphs) walker.definition.fields).map fun field => ⟨walker, field⟩

def findField (name : String) : Option FieldWalker :=
  (walker.definition.fields.find? fun field => field.name = name).map fun field => ⟨walker, field⟩

def enumValues : List String := sortByRank id (stringId subgraphs) walker.definition.enumValues

end DefinitionWalker

def Subgraph.definitionByName (name : String) : Option DefinitionWalker :=
  (subgraph.definitions.find? fun definition => definition.name = name).map fun definition => ⟨subgraph, definition⟩

def Subgraph.isRootType (name : String) : Bool :=
  subgraph.queryType = some name || subgraph.mutationType = some name || subgraph.subscriptionType = some name

def FieldType.definition (type : FieldType) (subgraph : Subgraph) : Option DefinitionWalker :=
  subgraph.definitionByName type.name

namespace FieldWalker
variable (walker : FieldWalker)

def name : String := walker.field.name
def type : FieldType := walker.field.type
def directives : DirectiveSite := walker.field.directives
def subgraphName : String := walker.parentDefinition.subgraph.name

def arguments : List FieldArgumentWalker :=
  (sortByRank Argument.name (stringId subgraphs) walker.field.arguments).map fun argument => ⟨walker, argument⟩

def argumentByName (name : String) : Option FieldArgumentWalker :=
  (walker.field.arguments.find? fun argument => argument.name = name).map fun argument => ⟨walker, argument⟩

/-- Whether a key of the definition selects the field at its top, or a key of another type selects it. -/
def isPartOfKey : Bool :=
  (walker.parentDefinition.definition.keys.flatMap Key.selectionSet).any (fun
    | .field name _ _ => name = walker.name
    | .inlineFragment _ _ => false) || walker.field.inNestedKey

end FieldWalker

namespace FieldArgumentWalker
variable (walker : FieldArgumentWalker)

def name : String := walker.argument.name
def type : FieldType := walker.argument.type
def directives : DirectiveSite := walker.argument.directives
def subgraphName : String := walker.field.subgraphName

end FieldArgumentWalker

def implementersForInterface (interfaceName : String) : List String :=
  sortByRank id (stringId subgraphs)
    (((subgraphs.flatMap Subgraph.interfaceImpls).filter fun pair => pair.1 = interfaceName).map Prod.snd).dedup

/-- `SubgraphWalker::interface_implementers`: the implementers that have a definition in this subgraph. -/
def Subgraph.interfaceImplementers (interfaceName : String) : List DefinitionWalker :=
  (implementersForInterface subgraphs interfaceName).filterMap subgraph.definitionByName

end Grafbase.Composition
