import Grafbase.SchemaDiff.Diff

/-! Applying changes to a schema, and reading the result.

The patched schema is a text of resolved texts, which are copied, and of what
is written of the source's own definitions. It is kept here as the sequence of
these pieces. Each routine writes only some attributes of a definition, and the
types of the pieces have no place for the others.

What the parser makes of the copied texts, of braces with nothing between them
and of the span of a directive definition is a parameter. Of what is written
attribute by attribute it reads back what is there; an attribute that is not
written is not read.
-/

set_option autoImplicit false

namespace Grafbase.SchemaDiff
open Foundation

/-- A change with the resolved text at its span; the path is split at its dots and filled up with empty segments. -/
structure PatchChange (τ : Type) where
  path : String × String × String
  kind : ChangeKind
  text : τ

inductive InterfaceImplementationChange where
  | added | removed
  deriving DecidableEq

section Paths
variable {τ : Type}

def pathKey (path : String × String × String) : Lex (String × Lex (String × String)) :=
  toLex (path.1, toLex (path.2.1, path.2.2))

def implKey (entry : (String × String) × InterfaceImplementationChange) : Lex (String × Lex (String × Nat)) :=
  toLex (entry.1.1, toLex (entry.1.2, entry.2.ctorIdx))

/-- The changes by path, and the changes of interface implementations by implementer and interface. -/
structure Paths (τ : Type) where
  paths : List (PatchChange τ)
  interfaceImpls : List ((String × String) × InterfaceImplementationChange)

/-- The path of an implementation starts with the interface; here the implementer comes first. -/
def interfaceImpl (change : PatchChange τ) : Option ((String × String) × InterfaceImplementationChange) :=
  match change.kind with
  | .addInterfaceImplementation => some ((change.path.2.1, change.path.1), .added)
  | .removeInterfaceImplementation => some ((change.path.2.1, change.path.1), .removed)
  | _ => none

namespace Paths

def new (diff : List (PatchChange τ)) : Paths τ where
  paths := sortByKey (fun change => pathKey change.path) diff
  interfaceImpls := sortByKey implKey (diff.filterMap interfaceImpl)

variable (paths : Paths τ)

def iterTopLevel : List (PatchChange τ) := paths.paths.filter fun change => change.path.2.1 = "" ∧ change.path.2.2 = ""

def iterSecondLevel (parent : String) : List (PatchChange τ) :=
  paths.paths.filter fun change => change.path.1 = parent ∧ change.path.2.1 ≠ "" ∧ change.path.2.2 = ""

def iterExact (path : String × String × String) : List (PatchChange τ) :=
  (paths.paths.dropWhile fun change => pathKey change.path < pathKey path).takeWhile fun change => change.path = path

def addedInterfaceImpls (implementer : String) : List String :=
  (((paths.interfaceImpls.dropWhile fun entry => entry.1.1 < implementer).takeWhile
    fun entry => entry.1.1 = implementer).filter fun entry => entry.2 = .added).map fun entry => entry.1.2

/-- A binary search in the sorted list. -/
def isInterfaceImplRemoved (implementer interface : String) : Bool :=
  ((implementer, interface), InterfaceImplementationChange.removed) ∈ paths.interfaceImpls

end Paths
end Paths

/-- A piece of the patched schema. -/
inductive Rendered (τ α : Type) where
  | text (resolved : τ)
  | own (written : α)
  deriving DecidableEq

structure PatchedField (ν τ : Type) where
  description : Option String
  name : String
  arguments : List (InputValueDefinition ν)
  ty : Rendered τ TypeRef
  directives : List (Directive ν)
  deriving DecidableEq

structure PatchedInputField (ν τ : Type) where
  name : String
  ty : Rendered τ TypeRef
  directives : List (Directive ν)
  deriving DecidableEq

structure PatchedEnumValue (ν : Type) where
  value : String
  directives : List (Directive ν)
  deriving DecidableEq

inductive PatchedBody (ν τ : Type) where
  | scalar
  | object (fields : List (Rendered τ (PatchedField ν τ)))
  | interface (fields : List (Rendered τ (PatchedField ν τ)))
  | union (members : List String)
  | enum (values : List (Rendered τ (PatchedEnumValue ν)))
  | inputObject (fields : List (Rendered τ (PatchedInputField ν τ)))
  deriving DecidableEq

/-- The interfaces are written for every kind of type. -/
structure PatchedType (ν τ : Type) where
  description : Option String
  name : String
  implementsInterfaces : List String
  directives : List (Directive ν)
  body : PatchedBody ν τ

structure PatchedSchemaDefinition (ν τ : Type) where
  directives : List (Directive ν)
  queryType : Option (Rendered τ String)
  mutationType : Option (Rendered τ String)
  subscriptionType : Option (Rendered τ String)

inductive PatchedDefinition (ν τ : Type) where
  | schema (written : PatchedSchemaDefinition ν τ)
  | schemaExtension (written : PatchedSchemaDefinition ν τ)
  | type (written : PatchedType ν τ)
  | typeExtension (written : PatchedType ν τ)
  | directive (definition : DirectiveDefinition ν)

abbrev PatchedSchema (ν τ : Type) := List (Rendered τ (PatchedDefinition ν τ))

def ChangeKind.addsDefinition : ChangeKind → Bool
  | .addSchemaDefinition | .addObjectType | .addUnion | .addEnum | .addScalar | .addInterface | .addDirectiveDefinition
  | .addInputObject => true
  | _ => false

def ChangeKind.removesType : ChangeKind → Bool
  | .removeObjectType | .removeUnion | .removeEnum | .removeScalar | .removeInterface | .removeInputObject => true
  | _ => false

section Patch
variable {ν τ : Type} (isEmpty : τ → Bool) (paths : Paths τ)

def ofKind (kind : ChangeKind) (changes : List (PatchChange τ)) : List (PatchChange τ) :=
  changes.filter fun change => change.kind = kind

/-- An empty replacement removes the root type; the names of the source are not empty. -/
def patchRootType (changes : List (PatchChange τ)) (kind : ChangeKind) (inSource : Option String) :
    Option (Rendered τ String) :=
  match (ofKind kind changes).getLast? with
  | some change => if isEmpty change.text then none else some (.text change.text)
  | none => inSource.map .own

def patchSchemaDefinition (definition : SchemaDefinition ν) : Option (PatchedSchemaDefinition ν τ) :=
  let changes := paths.iterExact ("", "", "")
  if changes.any fun change => change.kind = .removeSchemaDefinition then none
  else
    some
      { directives := definition.directives
        queryType := patchRootType isEmpty changes .changeQueryType definition.queryType
        mutationType := patchRootType isEmpty changes .changeMutationType definition.mutationType
        subscriptionType := patchRootType isEmpty changes .changeSubscriptionType definition.subscriptionType }

/-- The text at the span of the definition is copied; the definition stands for it. -/
def patchDirectiveDefinition (definition : DirectiveDefinition ν) : Option (DirectiveDefinition ν) :=
  if (paths.iterExact (definition.name, "", "")).any fun change => change.kind = .removeDirectiveDefinition then none
  else some definition

def secondLevels (kind : ChangeKind) (changes : List (PatchChange τ)) : List String :=
  (ofKind kind changes).map fun change => change.path.2.1

def texts {α : Type} (kind : ChangeKind) (changes : List (PatchChange τ)) : List (Rendered τ α) :=
  (ofKind kind changes).map fun change => .text change.text

/-- The type of a field that is kept; of several changes of its type the first is taken. -/
def patchFieldType (changes : List (PatchChange τ)) (name : String) (ty : TypeRef) : Rendered τ TypeRef :=
  match (ofKind .changeFieldType changes).find? fun change => change.path.2.1 = name with
  | some change => .text change.text
  | none => .own ty

def patchInputObject (parent : String) (fields : List (InputValueDefinition ν)) :
    List (Rendered τ (PatchedInputField ν τ)) :=
  let changes := paths.iterSecondLevel parent
  texts .addField changes ++
    (fields.filter fun field => field.name ∉ secondLevels .removeField changes).map fun field =>
    .own { name := field.name, ty := patchFieldType changes field.name field.ty, directives := field.directives }

def patchFields (parent : String) (fields : List (FieldDefinition ν)) : List (Rendered τ (PatchedField ν τ)) :=
  let changes := paths.iterSecondLevel parent
  texts .addField changes ++
    (fields.filter fun field => field.name ∉ secondLevels .removeField changes).map fun field =>
    .own
      { description := field.description
        name := field.name
        arguments := field.arguments
        ty := patchFieldType changes field.name field.ty
        directives := field.directives }

def patchEnumValues (enumName : String) (values : List (EnumValueDefinition ν)) :
    List (Rendered τ (PatchedEnumValue ν)) :=
  let changes := paths.iterSecondLevel enumName
  texts .addEnumValue changes ++
    (values.filter fun value => value.value ∉ secondLevels .removeEnumValue changes).map fun value =>
      .own { value := value.value, directives := value.directives }

def patchUnion (unionName : String) (members : List String) : List String :=
  let changes := paths.iterSecondLevel unionName
  (members.filter fun member => member ∉ secondLevels .removeUnionMember changes) ++
    secondLevels .addUnionMember changes

def TypeBody.implementsInterfaces : TypeBody ν → List String
  | object interfaces _ | interface interfaces _ => interfaces
  | _ => []

def patchImplements (name : String) (interfaces : List String) : List String :=
  (sortByKey id ((interfaces ++ paths.addedInterfaceImpls name).filter fun interface =>
    !paths.isInterfaceImplRemoved name interface)).dedup

def patchBody (name : String) : TypeBody ν → PatchedBody ν τ
  | .scalar => .scalar
  | .object _ fields => .object (patchFields paths name fields)
  | .interface _ fields => .interface (patchFields paths name fields)
  | .union members => .union (patchUnion paths name members)
  | .enum values => .enum (patchEnumValues paths name values)
  | .inputObject fields => .inputObject (patchInputObject paths name fields)

def patchTypeDefinition (ty : TypeDefinition ν) : Option (PatchedType ν τ) :=
  if (paths.iterExact (ty.name, "", "")).any fun change => change.kind.removesType then none
  else
    some
      { description := ty.description
        name := ty.name
        implementsInterfaces := patchImplements paths ty.name ty.body.implementsInterfaces
        directives := ty.directives
        body := patchBody paths ty.name ty.body }

def patchDefinition : Definition ν → Option (PatchedDefinition ν τ)
  | .schema definition => (patchSchemaDefinition isEmpty paths definition).map .schema
  | .schemaExtension definition => (patchSchemaDefinition isEmpty paths definition).map .schemaExtension
  | .type ty => (patchTypeDefinition paths ty).map .type
  | .typeExtension ty => (patchTypeDefinition paths ty).map .typeExtension
  | .directive definition => (patchDirectiveDefinition paths definition).map .directive

def patch (source : Document ν) (diff : List (PatchChange τ)) : PatchedSchema ν τ :=
  let paths := Paths.new diff
  (paths.iterTopLevel.filter fun change => change.kind.addsDefinition).map (fun change => .text change.text) ++
    (source.definitions.filterMap (patchDefinition isEmpty paths)).map .own

end Patch

inductive ParseError where
  | unexpected
  deriving DecidableEq

structure Reader (ν τ : Type) where
  definition : τ → Except ParseError (Definition ν)
  field : τ → Except ParseError (FieldDefinition ν)
  inputField : τ → Except ParseError (InputValueDefinition ν)
  enumValue : τ → Except ParseError (EnumValueDefinition ν)
  ty : τ → Except ParseError TypeRef
  rootType : τ → Except ParseError String
  /-- What becomes of a type whose braces are empty. -/
  emptyBraces : Except ParseError Unit
  /-- The text at the span of a directive definition. -/
  directiveSpan : DirectiveDefinition ν → Except ParseError (DirectiveDefinition ν)

/-- Empty braces are allowed, and the span of a directive definition holds all of it, the description included. -/
structure Reader.ReadsBack {ν τ : Type} (reader : Reader ν τ) : Prop where
  emptyBraces : reader.emptyBraces = .ok ()
  directiveSpan : ∀ definition, reader.directiveSpan definition = .ok definition

section Parse
variable {ν τ α β : Type} (reader : Reader ν τ)

def Rendered.parse (readText : τ → Except ParseError α) (readOwn : β → Except ParseError α) :
    Rendered τ β → Except ParseError α
  | text resolved => readText resolved
  | own written => readOwn written

def PatchedField.parse (field : PatchedField ν τ) : Except ParseError (FieldDefinition ν) := do
  let ty ← field.ty.parse reader.ty .ok
  return { name := field.name, arguments := field.arguments, ty, description := field.description,
           directives := field.directives }

def PatchedInputField.parse (field : PatchedInputField ν τ) : Except ParseError (InputValueDefinition ν) := do
  let ty ← field.ty.parse reader.ty .ok
  return { name := field.name, ty, defaultValue := none, description := none, directives := field.directives }

def PatchedEnumValue.parse (value : PatchedEnumValue ν) : EnumValueDefinition ν :=
  { value := value.value, description := none, directives := value.directives }

/-- Only objects and interfaces can be followed by interfaces. -/
def withoutInterfaces (interfaces : List String) (body : Except ParseError (TypeBody ν)) :
    Except ParseError (TypeBody ν) :=
  if interfaces = [] then body else .error .unexpected

/-- The members between the braces of a type. -/
def parseBraces (readText : τ → Except ParseError α) (readOwn : β → Except ParseError α) :
    List (Rendered τ β) → Except ParseError (List α)
  | [] => do
      reader.emptyBraces
      return []
  | members => members.mapM (Rendered.parse readText readOwn)

def parseFields (fields : List (Rendered τ (PatchedField ν τ))) : Except ParseError (List (FieldDefinition ν)) :=
  parseBraces reader reader.field (PatchedField.parse reader) fields

def PatchedBody.parse (interfaces : List String) : PatchedBody ν τ → Except ParseError (TypeBody ν)
  | scalar => withoutInterfaces interfaces (.ok .scalar)
  | object fields => .object interfaces <$> parseFields reader fields
  | interface fields => .interface interfaces <$> parseFields reader fields
  | union members => withoutInterfaces interfaces (.ok (.union members))
  | enum values =>
      withoutInterfaces interfaces
        (.enum <$> parseBraces reader reader.enumValue (fun value => .ok (PatchedEnumValue.parse value)) values)
  | inputObject fields =>
      withoutInterfaces interfaces
        (.inputObject <$> parseBraces reader reader.inputField (PatchedInputField.parse reader) fields)

def PatchedType.parse (ty : PatchedType ν τ) : Except ParseError (TypeDefinition ν) := do
  let body ← ty.body.parse reader ty.implementsInterfaces
  return { name := ty.name, description := ty.description, directives := ty.directives, body }

def parseRootType : Option (Rendered τ String) → Except ParseError (Option String)
  | none => .ok none
  | some written => some <$> written.parse reader.rootType .ok

def PatchedSchemaDefinition.parse (definition : PatchedSchemaDefinition ν τ) :
    Except ParseError (SchemaDefinition ν) := do
  let queryType ← parseRootType reader definition.queryType
  let mutationType ← parseRootType reader definition.mutationType
  let subscriptionType ← parseRootType reader definition.subscriptionType
  return { description := none, directives := definition.directives, queryType, mutationType, subscriptionType }

def PatchedDefinition.parse : PatchedDefinition ν τ → Except ParseError (Definition ν)
  | schema written => .schema <$> written.parse reader
  | schemaExtension written => .schemaExtension <$> written.parse reader
  | type written => .type <$> written.parse reader
  | typeExtension written => .typeExtension <$> written.parse reader
  | directive definition => .directive <$> reader.directiveSpan definition

def reparse (patched : PatchedSchema ν τ) : Except ParseError (Document ν) :=
  Document.mk <$> patched.mapM (Rendered.parse reader.definition (PatchedDefinition.parse reader))

end Parse
end Grafbase.SchemaDiff
