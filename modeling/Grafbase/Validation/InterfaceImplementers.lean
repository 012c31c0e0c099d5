import Grafbase.Validation.Context

/-! The checks of `implements` lists.

Every function returns the messages it pushes, in order. Arguments are compared
through a hash map, whose order is not specified: here it is the order of
insertion.
-/

set_option autoImplicit false

namespace Grafbase.Validation
open Foundation Sdl

def validateImplementsInterfaceTransitively (parentName : String) (parentImplements : List String) (ifaceName : String)
    (ifaceImplements : List String) : Errors :=
  ifaceImplements.filterMap fun implements =>
    if parentImplements.any (· == implements) then none
    else some ("`Type " ++ parentName ++ "` must implement `" ++ implements ++ "` because it is implemented by `" ++
      ifaceName ++ "`")

def validateImplementerWrapperTypes : Ty → Ty → Bool
  | .named _ candidateNullable, .named _ ifaceNullable => !(!ifaceNullable && candidateNullable)
  | .list candidate candidateNullable, .list iface ifaceNullable =>
    !(!ifaceNullable && candidateNullable) && validateImplementerWrapperTypes candidate iface
  | .named _ _, .list _ _ => false
  | .list _ _, .named _ _ => false

variable (ctx : Context)

def validateImplementerInnerType (candidateTypeName ifaceFieldTypeName : String) : Bool :=
  if candidateTypeName = ifaceFieldTypeName then true
  else
    match (ctx.definition? ifaceFieldTypeName).map TypeDefinition.kind with
    | some (.union members) => members.any (· == candidateTypeName)
    | some (.interface _ _) =>
      match (ctx.definition? candidateTypeName).map TypeDefinition.kind with
      | some (.object implements _) => implements.any (· == ifaceFieldTypeName)
      | some (.interface implements _) => implements.any (· == ifaceFieldTypeName)
      | _ => false
    | _ => false

def validateFieldTypeImplementsInterfaceField (interfaceName implementerName : String)
    (candidateField interfaceField : FieldDefinition) : Errors :=
  if validateImplementerWrapperTypes candidateField.ty interfaceField.ty &&
      validateImplementerInnerType ctx candidateField.ty.baseName interfaceField.ty.baseName then []
  else ["Interface field " ++ interfaceName ++ "." ++ candidateField.name ++ " expects type " ++
    interfaceField.ty.toString ++ " but " ++ implementerName ++ "." ++ candidateField.name ++ " of type " ++
    candidateField.ty.toString ++ " is not a proper subtype.`"]

/-- The arguments of a field and of the interface field, by name. -/
def pairedArguments (candidateArgs ifaceArgs : List InputValueDefinition) :
    List (String × Option InputValueDefinition × Option InputValueDefinition) :=
  ifaceArgs.foldl (fun args arg => upsert arg.name (none, none) (fun found => (found.1, some arg)) args)
    (candidateArgs.foldl (fun args arg => upsert arg.name (none, none) (fun _ => (some arg, none)) args) [])

/-- One round of the loop over the paired arguments. Both sides missing is unreachable. -/
def validateArgument (ifaceName implementerName fieldName : String) :
    Option InputValueDefinition × Option InputValueDefinition → Errors
  | (some candidate, some iface) =>
    if candidate.ty ≠ iface.ty then
      ["Interface field argument " ++ ifaceName ++ "." ++ fieldName ++ "(" ++ candidate.name ++ ":) expects type " ++
        iface.ty.toString ++ " but " ++ implementerName ++ "." ++ fieldName ++ "(" ++ candidate.name ++
        ":) is type " ++ candidate.ty.toString]
    else []
  | (some candidate, none) =>
    -- A default value is not looked at.
    if candidate.ty.nullable then []
    else ["Field " ++ implementerName ++ "." ++ fieldName ++ " includes required argument " ++ candidate.name ++
      " that is missing from the Interface field " ++ ifaceName ++ "." ++ fieldName]
  | (none, some arg) =>
    ["Interface field argument " ++ ifaceName ++ "." ++ fieldName ++ "(" ++ arg.name ++ ":) expected but " ++
      implementerName ++ "." ++ fieldName ++ " does not provide it."]
  | (none, none) => []

def validateFieldArgumentsImplementInterfaceField (ifaceName implementerName : String)
    (candidateField ifaceField : FieldDefinition) : Errors :=
  (pairedArguments candidateField.arguments ifaceField.arguments).flatMap fun entry =>
    validateArgument ifaceName implementerName candidateField.name entry.2

/-- The missing fields are reported after the faults of the fields that are there. -/
def validateFieldsImplementInterface (implementerName : String)
    (implementerFields : List FieldDefinition) (ifaceName : String) (ifaceFields : List FieldDefinition) : Errors :=
  let candidateSuperset := ctx.withFields implementerName implementerFields
  let candidateFor (field : FieldDefinition) := candidateSuperset.find? fun candidate => candidate.name = field.name
  (ifaceFields.flatMap fun field =>
    match candidateFor field with
    | some candidateField =>
      validateFieldTypeImplementsInterfaceField ctx ifaceName implementerName candidateField field ++
        validateFieldArgumentsImplementInterfaceField ifaceName implementerName candidateField field
    | none => []) ++
  ifaceFields.flatMap fun field =>
    match candidateFor field with
    | some _ => []
    | none => ["Missing `" ++ field.name ++ "` field in `" ++ implementerName ++ "` (required by the `" ++ ifaceName ++
        "` interface)"]

/-- One round of the loop over the implemented interfaces. -/
def validateImplemented (parentName : String) (parentImplements : List String)
    (parentFields : List FieldDefinition) (ifaceName : String) : Errors :=
  match ctx.definition? ifaceName with
  | some definition =>
    match definition.kind with
    | .interface ifaceImplements ifaceFields =>
      validateImplementsInterfaceTransitively parentName parentImplements definition.name ifaceImplements ++
        validateFieldsImplementInterface ctx parentName parentFields definition.name ifaceFields
    | _ => ["\"" ++ parentName ++ "\" cannot implement non-interface type \"" ++ definition.name ++ "\"."]
  | none => ["\"" ++ parentName ++ " cannot implement unknown type \"" ++ ifaceName ++ "\"."]

def validateImplementsList (parentName : String) (parentImplements : List String)
    (parentFields : List FieldDefinition) : Errors :=
  ((findDuplicates parentImplements).map fun (previous, _) =>
    "Type \"" ++ parentName ++ "\" can only implement \"" ++ (parentImplements[previous]?.getD "") ++ "\" once.") ++
  parentImplements.flatMap (validateImplemented ctx parentName parentImplements parentFields)

/-- What the second pass reports from the `implements` checks of one definition. -/
def validateImplements (typedef : TypeDefinition) : Errors :=
  if typedef.extend then []
  else
    match typedef.kind with
    | .object implements fields | .interface implements fields =>
      validateImplementsList ctx typedef.name (ctx.withImplements typedef.name implements) fields
    | _ => []

/-- All errors of the `implements` checks of a document. -/
def implementsErrors (document : ServiceDocument) : Errors := document.flatMap (validateImplements (firstPass document))

end Grafbase.Validation
