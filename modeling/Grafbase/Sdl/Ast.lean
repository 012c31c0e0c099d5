import Grafbase.Foundation.Literal

/-! Parsed type system documents.

Positions and descriptions are left out; a document is the list of its
definitions in the order they are written.
-/

set_option autoImplicit false

namespace Grafbase.Sdl
open Foundation

inductive Ty where
  | named (name : String) (nullable : Bool)
  | list (item : Ty) (nullable : Bool)
  deriving DecidableEq

namespace Ty

def nullable : Ty → Bool
  | named _ nullable => nullable
  | list _ nullable => nullable

def isList : Ty → Bool
  | named _ _ => false
  | list _ _ => true

def baseName : Ty → String
  | named name _ => name
  | list item _ => item.baseName

def toString : Ty → String
  | named name nullable => name ++ (if nullable then "" else "!")
  | list item nullable => "[" ++ item.toString ++ "]" ++ (if nullable then "" else "!")

end Ty

inductive ConstLeaf where
  | null
  | number (text : String)
  | string (value : String)
  | boolean (value : Bool)
  | enum (name : String)

abbrev ConstValue := Literal String ConstLeaf

/-- An argument or a field of an input object. -/
structure InputValueDefinition where
  name : String
  ty : Ty
  defaultValue : Option ConstValue

structure FieldDefinition where
  name : String
  arguments : List InputValueDefinition
  ty : Ty

inductive TypeKind where
  | scalar
  | object (implements : List String) (fields : List FieldDefinition)
  | interface (implements : List String) (fields : List FieldDefinition)
  | union (members : List String)
  | enum (values : List String)
  | inputObject (fields : List InputValueDefinition)

/-- The implemented interfaces and the fields of an object or an interface. -/
def TypeKind.implementer? : TypeKind → Option (List String × List FieldDefinition)
  | object implements fields => some (implements, fields)
  | interface implements fields => some (implements, fields)
  | scalar | union _ | enum _ | inputObject _ => none

structure TypeDefinition where
  extend : Bool
  name : String
  kind : TypeKind

/-- The type definitions of a document; schema and directive definitions are left out. -/
abbrev ServiceDocument := List TypeDefinition

end Grafbase.Sdl
