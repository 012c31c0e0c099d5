import Grafbase.Foundation.Entries
import Grafbase.Sdl.Ast
import Mathlib.Data.List.Induction

/-! What the first pass of validation collects.

Definitions are stored under their names, fields and implemented interfaces of
extensions under the name of the type they extend. The second pass reads the
two together.
-/

set_option autoImplicit false

namespace Grafbase.Validation
open Foundation Sdl

abbrev Errors := List String

structure Context where
  definitionNames : List (String × TypeDefinition)
  extendedFields : List (String × List FieldDefinition)
  extendedInterfaceImplementations : List (String × List String)

variable (ctx : Context)

namespace Context

def new : Context := ⟨[], [], []⟩

def definition? (name : String) : Option TypeDefinition := ctx.definitionNames.lookup name

/-- What `with_fields` hands to its closure. -/
def withFields (name : String) (baseFields : List FieldDefinition) : List FieldDefinition :=
  baseFields ++ (ctx.extendedFields.lookup name).getD []

/-- What `with_implements` hands to its closure. -/
def withImplements (typeName : String) (baseImplements : List String) : List String :=
  baseImplements ++ (ctx.extendedInterfaceImplementations.lookup typeName).getD []

def extendWith (typeName : String) (implements : List String) (fields : List FieldDefinition) : Context :=
  { ctx with
    extendedFields := upsert typeName [] (· ++ fields) ctx.extendedFields
    extendedInterfaceImplementations := upsert typeName [] (· ++ implements) ctx.extendedInterfaceImplementations }

end Context

/-- First pass: the definition or the extension is recorded. -/
def validateTypeDefinition (typedef : TypeDefinition) : Context :=
  if typedef.extend then
    match typedef.kind with
    | .object implements fields => ctx.extendWith typedef.name implements fields
    | .interface implements fields => ctx.extendWith typedef.name implements fields
    -- Enums and unions have maps of their own, which the checks below do not read.
    | .enum _ | .union _ | .inputObject _ | .scalar => ctx
  else { ctx with definitionNames := upsert typedef.name typedef (fun _ => typedef) ctx.definitionNames }

def firstPass (document : ServiceDocument) : Context := document.foldl validateTypeDefinition .new

/-- One round of `find_duplicates`: the positions seen so far by name, and the pairs handed to the closure. -/
def duplicateStep (state : List (String × Nat) × List (Nat × Nat)) (entry : String × Nat) :
    List (String × Nat) × List (Nat × Nat) :=
  (upsert entry.1 entry.2 (fun _ => entry.2) state.1,
    match state.1.lookup entry.1 with
    | some previous => state.2 ++ [(previous, entry.2)]
    | none => state.2)

/-- `find_duplicates`: for every name that was seen before, the last position it was seen at and its own. -/
def findDuplicates (names : List String) : List (Nat × Nat) := (names.zipIdx.foldl duplicateStep ([], [])).2

theorem foldl_duplicateStep (names : List (String × Nat)) :
    ((names.foldl duplicateStep ([], [])).2 = [] ↔ (names.map Prod.fst).Nodup) ∧
      ∀ name, name ∈ (names.foldl duplicateStep ([], [])).1.map Prod.fst ↔ name ∈ names.map Prod.fst := by
  induction names using List.reverseRecOn with
  | nil => simp
  | append_singleton front last ih =>
    obtain ⟨nothing, keys⟩ := ih
    have seen := isSome_lookup.trans (keys last.1)
    rw [List.foldl_append, List.foldl_cons, List.foldl_nil, List.map_append, List.nodup_append_comm, duplicateStep]
    refine ⟨?_, fun name => ?_⟩
    · rw [List.map_singleton, List.singleton_append, List.nodup_cons, ← nothing, ← seen]
      split
      · next previous found => simp [found]
      · next missing => simp [missing]
    · rw [mem_map_fst_upsert, keys, List.map_singleton, Foundation.mem_push]

theorem findDuplicates_eq_nil {names : List String} : findDuplicates names = [] ↔ names.Nodup := by
  simp [findDuplicates, foldl_duplicateStep]

def HasKind (document : ServiceDocument) (name : String) (kind : TypeKind) : Prop :=
  ∃ definition ∈ document, definition.name = name ∧ definition.kind = kind

/-- Documents without extensions and with unique type names. -/
structure Plain (document : ServiceDocument) : Prop where
  noExtension : ∀ definition ∈ document, definition.extend = false
  namesDistinct : (document.map TypeDefinition.name).Nodup

namespace Plain
variable {document : ServiceDocument} (plain : Plain document)

theorem firstPass_eq (noExtension : ∀ definition ∈ document, definition.extend = false) (ctx : Context) :
    document.foldl validateTypeDefinition ctx = { ctx with
      definitionNames := document.foldl
        (fun entries typedef => upsert typedef.name typedef (fun _ => typedef) entries) ctx.definitionNames } := by
  induction document generalizing ctx with
  | nil => rfl
  | cons typedef rest ih =>
    have notExtended : typedef.extend = false := noExtension typedef (by simp)
    rw [List.foldl_cons, ih fun other member => noExtension other (by simp [member])]
    simp [validateTypeDefinition, notExtended]

include plain

theorem withFields (name : String) (fields : List FieldDefinition) :
    (firstPass document).withFields name fields = fields := by
  rw [firstPass, firstPass_eq plain.noExtension]
  simp [Context.withFields, Context.new]

theorem withImplements (name : String) (implements : List String) :
    (firstPass document).withImplements name implements = implements := by
  rw [firstPass, firstPass_eq plain.noExtension]
  simp [Context.withImplements, Context.new]

theorem definition?_eq_find? (name : String) :
    (firstPass document).definition? name = document.find? (fun definition => definition.name = name) := by
  have found := lookup_foldl_upsert TypeDefinition.name id (fun typedef _ => typedef) plain.namesDistinct [] name
  rw [firstPass, firstPass_eq plain.noExtension]
  refine found.trans ?_
  cases document.find? fun definition => definition.name = name <;> rfl

variable {name : String} {kind : TypeKind}

theorem definition?_eq_some_iff {definition : TypeDefinition} :
    (firstPass document).definition? name = some definition ↔ definition ∈ document ∧ definition.name = name := by
  rw [plain.definition?_eq_find?]
  exact find?_eq_some_iff_of_nodup plain.namesDistinct

theorem kind_eq_some_iff :
    ((firstPass document).definition? name).map TypeDefinition.kind = some kind ↔ HasKind document name kind := by
  rw [Option.map_eq_some_iff]
  constructor
  · rintro ⟨definition, found, rfl⟩
    obtain ⟨member, named⟩ := plain.definition?_eq_some_iff.mp found
    exact ⟨definition, member, named, rfl⟩
  · rintro ⟨definition, member, named, same⟩
    exact ⟨definition, plain.definition?_eq_some_iff.mpr ⟨member, named⟩, same⟩

theorem kind_unique {other : TypeKind} (first : HasKind document name kind)
    (second : HasKind document name other) : kind = other := by
  rw [← plain.kind_eq_some_iff] at first second
  exact Option.mem_unique first second

end Plain
end Grafbase.Validation
