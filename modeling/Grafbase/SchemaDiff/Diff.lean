import Grafbase.Foundation.StableSort
import Grafbase.Foundation.TwoSided
import Mathlib.Data.Prod.Lex
import Mathlib.Data.String.Basic

/-! Type system documents and the diff of two of them.

Values are of any type. Where the source keeps a span, the model keeps the
piece of the document at that place. Both schemas are entered into maps by
name. What the maps say about a name on its two sides decides which changes are
reported. The places where the source would panic are errors.
-/

set_option autoImplicit false

namespace Grafbase.SchemaDiff
open Foundation

/-- Wrapped names; wrappers are compared with the name. -/
inductive TypeRef where
  | named (name : String)
  | list (inner : TypeRef)
  | nonNull (inner : TypeRef)
  deriving DecidableEq

structure Directive (ν : Type) where
  name : String
  arguments : List (String × ν)
  deriving DecidableEq

structure InputValueDefinition (ν : Type) where
  name : String
  ty : TypeRef
  defaultValue : Option ν
  description : Option String
  directives : List (Directive ν)
  deriving DecidableEq

structure FieldDefinition (ν : Type) where
  name : String
  arguments : List (InputValueDefinition ν)
  ty : TypeRef
  description : Option String
  directives : List (Directive ν)
  deriving DecidableEq

structure EnumValueDefinition (ν : Type) where
  value : String
  description : Option String
  directives : List (Directive ν)
  deriving DecidableEq

inductive TypeBody (ν : Type) where
  | scalar
  | object (implementsInterfaces : List String) (fields : List (FieldDefinition ν))
  | interface (implementsInterfaces : List String) (fields : List (FieldDefinition ν))
  | union (members : List String)
  | enum (values : List (EnumValueDefinition ν))
  | inputObject (fields : List (InputValueDefinition ν))
  deriving DecidableEq

structure TypeDefinition (ν : Type) where
  name : String
  description : Option String
  directives : List (Directive ν)
  body : TypeBody ν
  deriving DecidableEq

structure SchemaDefinition (ν : Type) where
  description : Option String
  directives : List (Directive ν)
  queryType : Option String
  mutationType : Option String
  subscriptionType : Option String
  deriving DecidableEq

structure DirectiveDefinition (ν : Type) where
  name : String
  description : Option String
  arguments : List (InputValueDefinition ν)
  isRepeatable : Bool
  locations : List String
  deriving DecidableEq

inductive Definition (ν : Type) where
  | schema (definition : SchemaDefinition ν)
  | schemaExtension (definition : SchemaDefinition ν)
  | type (definition : TypeDefinition ν)
  | typeExtension (definition : TypeDefinition ν)
  | directive (definition : DirectiveDefinition ν)
  deriving DecidableEq

/-- An empty text has no definitions. -/
structure Document (ν : Type) where
  definitions : List (Definition ν)
  deriving DecidableEq

inductive DefinitionKind where
  | directive | enum | inputObject | interface | object | scalar | union
  deriving DecidableEq

section Kinds
variable {ν : Type}

def TypeBody.kind : TypeBody ν → DefinitionKind
  | scalar => .scalar
  | object _ _ => .object
  | interface _ _ => .interface
  | union _ => .union
  | enum _ => .enum
  | inputObject _ => .inputObject

def Definition.kind : Definition ν → Option DefinitionKind
  | schema _ | schemaExtension _ => none
  | type definition | typeExtension definition => some definition.body.kind
  | directive _ => some .directive

/-- A member of a type: what a span of the map of fields stands for. -/
inductive Member (ν : Type) where
  | field (definition : FieldDefinition ν)
  | unionMember (name : String)
  | enumValue (definition : EnumValueDefinition ν)
  | inputField (definition : InputValueDefinition ν)
  deriving DecidableEq

/-- Union members and enum values have no type. -/
def Member.ty : Member ν → Option TypeRef
  | field definition => some definition.ty
  | inputField definition => some definition.ty
  | unionMember _ | enumValue _ => none

def Member.name : Member ν → String
  | field definition => definition.name
  | unionMember name => name
  | enumValue definition => definition.value
  | inputField definition => definition.name

def TypeBody.members : TypeBody ν → List (Member ν)
  | scalar => []
  | object _ fields | interface _ fields => fields.map .field
  | union members => members.map .unionMember
  | enum values => values.map .enumValue
  | inputObject fields => fields.map .inputField

def Member.arguments : Member ν → List (InputValueDefinition ν)
  | field definition => definition.arguments
  | unionMember _ | enumValue _ | inputField _ => []

end Kinds

inductive ChangeKind where
  | changeQueryType | changeMutationType | changeSubscriptionType
  | removeObjectType | addObjectType
  | addInterfaceImplementation | removeInterfaceImplementation
  | changeFieldType | removeField | addField
  | addUnion | removeUnion | addUnionMember | removeUnionMember
  | addEnum | removeEnum | addEnumValue | removeEnumValue
  | addScalar | removeScalar
  | addInterface | removeInterface
  | addDirectiveDefinition | removeDirectiveDefinition
  | addSchemaDefinition | removeSchemaDefinition
  | addInputObject | removeInputObject
  | addFieldArgument | removeFieldArgument
  | addFieldArgumentDefault | removeFieldArgumentDefault | changeFieldArgumentDefault
  | changeFieldArgumentType
  deriving DecidableEq

/-- A dotted path by its segments; names contain no dots and are not empty. -/
inductive Path where
  | schema
  | definition (name : String)
  | member (parent name : String)
  | argument (parent field name : String)
  deriving DecidableEq

def Path.segments : Path → List String
  | schema => []
  | definition name => [name]
  | member parent name => [parent, name]
  | argument parent field name => [parent, field, name]

/-- What stands at the span of a change, in the schema that `resolve_spans` reads for its kind. -/
inductive Excerpt (ν : Type) where
  | empty
  | definition (definition : Definition ν)
  | member (member : Member ν)
  | ty (ty : TypeRef)
  | rootType (name : String)
  | argument (definition : InputValueDefinition ν)
  | defaultValue (value : ν)
  deriving DecidableEq

structure Change (ν : Type) where
  path : Path
  kind : ChangeKind
  span : Excerpt ν
  deriving DecidableEq

inductive Panic where
  | unreachable
  | missingKey
  | unwrapNone
  deriving DecidableEq

structure DiffState (ν : Type) where
  schemaDefinitionMap : Option (SchemaDefinition ν) × Option (SchemaDefinition ν)
  typesMap : TwoSided String (Definition ν)
  fieldsMap : TwoSided (String × String) (Member ν)
  interfaceImpls : TwoSided String (List String)
  argumentsMap : TwoSided (String × String × String) (InputValueDefinition ν)

section Traverse
variable {ν : Type}

def DiffState.empty : DiffState ν := ⟨(none, none), [], [], [], []⟩

def TypeDefinition.implEntries (definition : TypeDefinition ν) : List (String × List String) :=
  match definition.body with
  | .object implementsInterfaces _ | .interface implementsInterfaces _ => [(definition.name, implementsInterfaces)]
  | _ => []

def TypeDefinition.memberEntries (definition : TypeDefinition ν) : List ((String × String) × Member ν) :=
  definition.body.members.map fun member => ((definition.name, member.name), member)

def TypeDefinition.argumentEntries (definition : TypeDefinition ν) :
    List ((String × String × String) × InputValueDefinition ν) :=
  definition.body.members.flatMap fun member => member.arguments.map fun argument =>
    ((definition.name, member.name, argument.name), argument)

structure Side where
  put : {κ μ : Type} → [DecidableEq κ] → TwoSided κ μ → κ × μ → TwoSided κ μ
  putSchema : {ν : Type} → Option (SchemaDefinition ν) × Option (SchemaDefinition ν) → SchemaDefinition ν →
    Option (SchemaDefinition ν) × Option (SchemaDefinition ν)

def Side.source : Side := ⟨insertSource, fun map definition => (some definition, map.2)⟩

def Side.target : Side := ⟨mergeTarget, fun map definition => (map.1, some definition)⟩

def DiffState.enterType (side : Side) (state : DiffState ν) (definition : Definition ν) (ty : TypeDefinition ν) :
    DiffState ν :=
  { state with
    typesMap := side.put state.typesMap (ty.name, definition)
    interfaceImpls := ty.implEntries.foldl side.put state.interfaceImpls
    fieldsMap := ty.memberEntries.foldl side.put state.fieldsMap
    argumentsMap := ty.argumentEntries.foldl side.put state.argumentsMap }

def DiffState.enter (side : Side) (state : DiffState ν) (definition : Definition ν) : DiffState ν :=
  match definition with
  | .schema schema | .schemaExtension schema =>
    { state with schemaDefinitionMap := side.putSchema state.schemaDefinitionMap schema }
  | .directive directive => { state with typesMap := side.put state.typesMap (directive.name, definition) }
  | .type ty | .typeExtension ty => state.enterType side definition ty

def traverseSource (source : Document ν) (state : DiffState ν) : DiffState ν :=
  source.definitions.foldl (DiffState.enter .source) state

def traverseTarget (target : Document ν) (state : DiffState ν) : DiffState ν :=
  target.definitions.foldl (DiffState.enter .target) state

def traverseSchemas (source target : Document ν) : DiffState ν := traverseTarget target (traverseSource source .empty)

end Traverse

section Changes
variable {ν : Type}

/-- A change of a root type; the type that is gone has an empty span. -/
def rootTypeChange (kind : ChangeKind) (src target : Option String) : List (Change ν) :=
  if src ≠ target then [⟨.schema, kind, target.elim .empty .rootType⟩] else []

def schemaDefinitionChanges : Option (SchemaDefinition ν) × Option (SchemaDefinition ν) → List (Change ν)
  | (none, none) => []
  | (some src, some target) =>
    rootTypeChange .changeQueryType src.queryType target.queryType ++
      rootTypeChange .changeMutationType src.mutationType target.mutationType ++
      rootTypeChange .changeSubscriptionType src.subscriptionType target.subscriptionType
  | (none, some definition) => [⟨.schema, .addSchemaDefinition, .definition (.schema definition)⟩]
  | (some _, none) => [⟨.schema, .removeSchemaDefinition, .empty⟩]

/-- The path of an implementation starts with the interface. -/
def implementerChanges (entry : String × (Option (List String) × Option (List String))) : List (Change ν) :=
  let src := entry.2.1.getD []
  let target := entry.2.2.getD []
  (src.filter (· ∉ target)).map (fun interface =>
    ⟨.member interface entry.1, .removeInterfaceImplementation, .empty⟩) ++
    (target.filter (· ∉ src)).map fun interface => ⟨.member interface entry.1, .addInterfaceImplementation, .empty⟩

def addedKind : DefinitionKind → ChangeKind
  | .directive => .addDirectiveDefinition
  | .enum => .addEnum
  | .inputObject => .addInputObject
  | .interface => .addInterface
  | .object => .addObjectType
  | .scalar => .addScalar
  | .union => .addUnion

def removedKind : DefinitionKind → ChangeKind
  | .directive => .removeDirectiveDefinition
  | .enum => .removeEnum
  | .inputObject => .removeInputObject
  | .interface => .removeInterface
  | .object => .removeObjectType
  | .scalar => .removeScalar
  | .union => .removeUnion

def addedType (name : String) (definition : Definition ν) : List (Change ν) :=
  match definition.kind with
  | none => []
  | some kind => [⟨.definition name, addedKind kind, .definition definition⟩]

def removedType (name : String) (definition : Definition ν) : Except Panic (List (Change ν)) :=
  match definition.kind with
  | none => .error .unwrapNone
  | some kind => .ok [⟨.definition name, removedKind kind, .definition definition⟩]

def definitionChanges (entry : String × (Option (Definition ν) × Option (Definition ν))) :
    Except Panic (List (Change ν)) :=
  match entry.2 with
  | (none, none) => .error .unreachable
  | (none, some definition) => .ok (addedType entry.1 definition)
  | (some definition, none) => removedType entry.1 definition
  | (some src, some target) =>
    if src.kind ≠ target.kind then do
      let removed ← removedType entry.1 src
      return removed ++ addedType entry.1 target
    else .ok []

/-- The change of a member of a type that is on both sides with the same kind, so that its parent is not gone. -/
def memberChanges (path : Path) : Option (Member ν) → Option (Member ν) → DefinitionKind →
    Except Panic (List (Change ν))
  | none, none, _ => .error .unreachable
  | _, _, .scalar => .error .unreachable
  | _, _, .directive => .error .unreachable
  | none, some target, .enum => .ok [⟨path, .addEnumValue, .member target⟩]
  | some _, none, .enum => .ok [⟨path, .removeEnumValue, .empty⟩]
  | none, some target, .union => .ok [⟨path, .addUnionMember, .member target⟩]
  | some _, none, .union => .ok [⟨path, .removeUnionMember, .empty⟩]
  | some _, some _, .enum => .ok []
  | some _, some _, .union => .ok []
  | none, some target, _ => .ok [⟨path, .addField, .member target⟩]
  | some _, none, _ => .ok [⟨path, .removeField, .empty⟩]
  | some src, some target, _ =>
    if src.ty ≠ target.ty then
      match target.ty with
      | some ty => .ok [⟨path, .changeFieldType, .ty ty⟩]
      | none => .error .unwrapNone
    else .ok []

/-- Members of types that come, go or change their kind are not reported. -/
def fieldChanges (typesMap : TwoSided String (Definition ν))
    (entry : (String × String) × (Option (Member ν) × Option (Member ν))) : Except Panic (List (Change ν)) :=
  match typesMap.get entry.1.1 with
  | none => .error .missingKey
  | some (none, none) => .error .unreachable
  | some (some src, some target) =>
    if src.kind ≠ target.kind then .ok []
    else
      match src.kind with
      | none => .error .unwrapNone
      | some kind => memberChanges (.member entry.1.1 entry.1.2) entry.2.1 entry.2.2 kind
  | some _ => .ok []

variable [DecidableEq ν]

def defaultChanges (path : Path) : Option ν → Option ν → List (Change ν)
  | none, some target => [⟨path, .addFieldArgumentDefault, .defaultValue target⟩]
  | some _, none => [⟨path, .removeFieldArgumentDefault, .empty⟩]
  | some src, some target =>
    if src ≠ target then [⟨path, .changeFieldArgumentDefault, .defaultValue target⟩] else []
  | none, none => []

def argumentChanges (fieldsMap : TwoSided (String × String) (Member ν))
    (entry : (String × String × String) × (Option (InputValueDefinition ν) × Option (InputValueDefinition ν))) :
    Except Panic (List (Change ν)) :=
  let path := Path.argument entry.1.1 entry.1.2.1 entry.1.2.2
  match entry.2 with
  | (none, none) => .error .unreachable
  | (none, some target) => .ok [⟨path, .addFieldArgument, .argument target⟩]
  | (some _, none) =>
    match fieldsMap.get (entry.1.1, entry.1.2.1) with
    | none => .error .missingKey
    | some (some _, none) => .ok []
    | some _ => .ok [⟨path, .removeFieldArgument, .empty⟩]
  | (some src, some target) =>
    .ok ((if src.ty ≠ target.ty then [⟨path, .changeFieldArgumentType, .ty target.ty⟩] else []) ++
      defaultChanges path src.defaultValue target.defaultValue)

def changesOf {α : Type} (step : α → Except Panic (List (Change ν))) (entries : List α) :
    Except Panic (List (Change ν)) :=
  return (← entries.mapM step).flatten

/-- Changes are sorted by path and kind. -/
def changeKey (change : Change ν) : Lex (List String × Nat) := toLex (change.path.segments, change.kind.ctorIdx)

def DiffState.intoChanges (state : DiffState ν) : Except Panic (List (Change ν)) := do
  let definitions ← changesOf definitionChanges state.typesMap
  let fields ← changesOf (fieldChanges state.typesMap) state.fieldsMap
  let arguments ← changesOf (argumentChanges state.fieldsMap) state.argumentsMap
  return sortByKey changeKey (schemaDefinitionChanges state.schemaDefinitionMap ++
    state.interfaceImpls.flatMap implementerChanges ++ definitions ++ fields ++ arguments)

def diff (source target : Document ν) : Except Panic (List (Change ν)) := (traverseSchemas source target).intoChanges

end Changes

end Grafbase.SchemaDiff
