import Grafbase.SchemaDiff.Patch
import Mathlib.Data.List.Dedup

/-! What a patch leaves alone.

A definition, field, input field, enum value or argument that no change removes
or retypes should stay as it is. The routines for input fields, enum values
and schema definitions do not write all attributes, so that it stays only
where there is nothing to write.
-/

set_option autoImplicit false

namespace Grafbase.SchemaDiff
open Foundation List
section Lookup
variable {τ : Type} {diff : List (PatchChange τ)}

/-- The range that is found by bisection is the changes of the path. -/
theorem Paths.iterExact_new (path : String × String × String) :
    (Paths.new diff).iterExact path = diff.filter fun change => change.path = path := by
  have ranged := takeWhile_dropWhile_eq_filter (fun change : PatchChange τ => pathKey change.path) (pathKey path)
    (pairwise_sortByKey diff)
  rw [filter_sortByKey] at ranged
  exact ranged

end Lookup

section Frame
variable {ν τ : Type}

variable (diff : List (PatchChange τ))

/-- Some change of these kinds is about this path. -/
def Mentions (path : String × String × String) (kinds : ChangeKind → Bool) : Prop :=
  ∃ change ∈ diff, change.path = path ∧ kinds change.kind

def MentionsMember (kind : ChangeKind) (parent name : String) : Prop :=
  Mentions diff (parent, name, "") (· = kind)

def RemovesDefinition : Definition ν → Prop
  | .schema _ | .schemaExtension _ => Mentions diff ("", "", "") (· = .removeSchemaDefinition)
  | .type ty | .typeExtension ty => Mentions diff (ty.name, "", "") ChangeKind.removesType
  | .directive definition => Mentions diff (definition.name, "", "") (· = .removeDirectiveDefinition)

/-- A field that no change retypes is read back; its arguments are there in any case. -/
def FieldsKept (parent : String) (fields : List (FieldDefinition ν))
    (written : List (Rendered τ (PatchedField ν τ))) : Prop :=
  ∀ field ∈ fields, ¬ MentionsMember diff .removeField parent field.name → ∃ own, .own own ∈ written ∧
    own.name = field.name ∧ own.arguments = field.arguments ∧
    (¬ MentionsMember diff .changeFieldType parent field.name → ∀ reader, own.parse reader = .ok field)

def BodyKept (parent : String) : TypeBody ν → PatchedBody ν τ → Prop
  | .scalar, .scalar => True
  | .object _ fields, .object written => FieldsKept diff parent fields written
  | .interface _ fields, .interface written => FieldsKept diff parent fields written
  | .union members, .union written =>
      ∀ member ∈ members, ¬ MentionsMember diff .removeUnionMember parent member → member ∈ written
  | .enum values, .enum written =>
      ∀ value ∈ values, ¬ MentionsMember diff .removeEnumValue parent value.value →
        ∃ own, .own own ∈ written ∧ own.parse = value
  | .inputObject fields, .inputObject written =>
      ∀ field ∈ fields, ¬ MentionsMember diff .removeField parent field.name →
        ¬ MentionsMember diff .changeFieldType parent field.name →
        ∃ own, .own own ∈ written ∧ ∀ reader, own.parse reader = .ok field
  | _, _ => False

def TypeKept (ty : TypeDefinition ν) (written : PatchedType ν τ) : Prop :=
  written.name = ty.name ∧ written.description = ty.description ∧ written.directives = ty.directives ∧
    BodyKept diff ty.name ty.body written.body

/-- Root types may change. -/
def SchemaKept (definition : SchemaDefinition ν) (written : PatchedSchemaDefinition ν τ) : Prop :=
  ∀ reader parsed, written.parse reader = .ok parsed →
    parsed.description = definition.description ∧ parsed.directives = definition.directives

def DefinitionKept : Definition ν → PatchedDefinition ν τ → Prop
  | .schema definition, .schema written | .schemaExtension definition, .schemaExtension written =>
    SchemaKept definition written
  | .type ty, .type written | .typeExtension ty, .typeExtension written => TypeKept diff ty written
  | .directive definition, .directive written =>
      ∀ reader : Reader ν τ, reader.ReadsBack → reader.directiveSpan written = .ok definition
  | _, _ => False

def TypeBody.setInterfaces (interfaces : List String) : TypeBody ν → TypeBody ν
  | object _ fields => .object interfaces fields
  | interface _ fields => .interface interfaces fields
  | body => body

def Definition.interfaces : Definition ν → List String
  | type ty | typeExtension ty => ty.body.implementsInterfaces
  | _ => []

def Definition.setInterfaces (interfaces : List String) : Definition ν → Definition ν
  | type ty => .type { ty with body := ty.body.setInterfaces interfaces }
  | typeExtension ty => .typeExtension { ty with body := ty.body.setInterfaces interfaces }
  | definition => definition

/-- Equal up to the order of the implemented interfaces. -/
def SameUpToOrder (first second : Definition ν) : Prop :=
  first.setInterfaces [] = second.setInterfaces [] ∧ first.interfaces.Perm second.interfaces

/-- What no change removes or retypes is in the patched schema as it was, and without changes everything is. -/
structure PatchFrames (isEmpty : τ → Bool) (source : Document ν) (diff : List (PatchChange τ)) : Prop where
  keeps : ∀ definition ∈ source.definitions, ¬ RemovesDefinition diff definition →
    ∃ written, .own written ∈ patch isEmpty source diff ∧ DefinitionKept diff definition written
  identity : diff = [] → ∀ reader : Reader ν τ, reader.ReadsBack →
    ∃ document, reparse reader (patch isEmpty source diff) = .ok document ∧
    List.Forall₂ SameUpToOrder source.definitions document.definitions

def BodyWritten (parent : String) : TypeBody ν → Prop
  | .enum values =>
      ∀ value ∈ values, ¬ MentionsMember diff .removeEnumValue parent value.value → value.description = none
  | .inputObject fields =>
      ∀ field ∈ fields, ¬ MentionsMember diff .removeField parent field.name →
        ¬ MentionsMember diff .changeFieldType parent field.name → field.defaultValue = none ∧ field.description = none
  | _ => True

def Written : Definition ν → Prop
  | .schema definition | .schemaExtension definition => definition.description = none
  | .type ty | .typeExtension ty => BodyWritten diff ty.name ty.body
  | .directive _ => True

end Frame

section Routines
variable {ν τ : Type} {diff : List (PatchChange τ)}

theorem any_iterExact (path : String × String × String) (kinds : ChangeKind → Bool) :
    ((Paths.new diff).iterExact path).any (fun change => kinds change.kind) = true ↔ Mentions diff path kinds := by
  rw [Paths.iterExact_new]
  simp [Mentions]

variable {kind : ChangeKind} {parent name : String} {body : TypeBody ν} {written : PatchedSchemaDefinition ν τ}
  {definition : Definition ν}

theorem mentionsMember_of_mem_secondLevels
    (member : name ∈ secondLevels kind ((Paths.new diff).iterSecondLevel parent)) :
      MentionsMember diff kind parent name := by
  obtain ⟨change, found, rfl⟩ := mem_map.mp member
  simp only [ofKind, Paths.iterSecondLevel, Paths.new, mem_filter, mem_sortByKey, decide_eq_true_eq] at found
  obtain ⟨⟨inDiff, isParent, _, isEmpty⟩, isKind⟩ := found
  exact ⟨change, inDiff, Prod.ext isParent (Prod.ext rfl isEmpty), decide_eq_true isKind⟩

theorem patchFieldType_own {ty : TypeRef} (kept : ¬ MentionsMember diff .changeFieldType parent name) :
    patchFieldType ((Paths.new diff).iterSecondLevel parent) name ty = .own ty := by
  unfold patchFieldType
  split
  · next change found =>
    have named : change.path.2.1 = name := by simpa using find?_some found
    have listed : change.path.2.1 ∈ secondLevels .changeFieldType ((Paths.new diff).iterSecondLevel parent) :=
      mem_map.mpr ⟨change, mem_of_find?_eq_some found, rfl⟩
    rw [named] at listed
    exact absurd (mentionsMember_of_mem_secondLevels listed) kept
  · rfl

theorem mem_written {α β : Type} {nameOf : α → String} {write : α → β}
    {items : List α} {item : α} {added : List (Rendered τ β)} (member : item ∈ items)
    (kept : ¬ MentionsMember diff kind parent (nameOf item)) :
    .own (write item) ∈ added ++ (items.filter fun item =>
      nameOf item ∉ secondLevels kind ((Paths.new diff).iterSecondLevel parent)).map fun item => .own (write item) := by
  refine mem_append_right _ (mem_map.mpr ⟨item, mem_filter.mpr ⟨member, ?_⟩, rfl⟩)
  exact decide_eq_true fun removed => kept (mentionsMember_of_mem_secondLevels removed)

theorem bodyKept_patchBody (written : BodyWritten diff parent body) :
    BodyKept diff parent body (patchBody (Paths.new diff) parent body) := by
  cases body with
  | scalar => trivial
  | object interfaces fields
  | interface interfaces fields =>
    intro field member kept
    refine ⟨_, mem_written member kept, rfl, rfl, fun sameType reader => ?_⟩
    rw [PatchedField.parse, patchFieldType_own sameType]
    rfl
  | union members =>
    intro member isMember kept
    refine mem_append_left _ (mem_filter.mpr ⟨isMember, ?_⟩)
    exact decide_eq_true fun removed => kept (mentionsMember_of_mem_secondLevels removed)
  | enum values =>
    intro value member kept
    refine ⟨_, mem_written member kept, ?_⟩
    rw [PatchedEnumValue.parse, ← written value member kept]
  | inputObject fields =>
    intro field member kept sameType
    refine ⟨_, mem_written member kept, fun reader => ?_⟩
    obtain ⟨noDefault, noDescription⟩ := written field member kept sameType
    rw [PatchedInputField.parse, patchFieldType_own sameType, ← noDefault, ← noDescription]
    rfl

def rootReader : Reader ν τ where
  definition _ := .error .unexpected
  field _ := .error .unexpected
  inputField _ := .error .unexpected
  enumValue _ := .error .unexpected
  ty _ := .error .unexpected
  rootType _ := .ok ""
  emptyBraces := .ok ()
  directiveSpan := .ok

theorem bodyWritten_of_bodyKept {patched : PatchedBody ν τ}
    (kept : BodyKept diff parent body patched) : BodyWritten diff parent body := by
  cases body with
  | enum values =>
    cases patched with
    | enum written =>
      intro value member stays
      obtain ⟨own, _, rfl⟩ := kept value member stays
      rfl
    | _ => cases kept
  | inputObject fields =>
    cases patched with
    | inputObject written =>
      intro field member stays sameType
      obtain ⟨own, _, parsed⟩ := kept field member stays sameType
      obtain ⟨ty, _, same⟩ := bind_eq_ok.mp (parsed rootReader)
      cases same
      exact ⟨rfl, rfl⟩
    | _ => cases kept
  | _ => trivial

theorem description_eq_none_of_schemaKept {definition : SchemaDefinition ν}
    (kept : SchemaKept definition written) : definition.description = none := by
  have root (type : Option (Rendered τ String)) : ∃ name, parseRootType (rootReader : Reader ν τ) type = .ok name := by
    cases type with
    | none => exact ⟨none, rfl⟩
    | some rendered => cases rendered <;> exact ⟨_, rfl⟩
  obtain ⟨queryType, isQuery⟩ := root written.queryType
  obtain ⟨mutationType, isMutation⟩ := root written.mutationType
  obtain ⟨subscriptionType, isSubscription⟩ := root written.subscriptionType
  have ran : written.parse rootReader =
      .ok ⟨none, written.directives, queryType, mutationType, subscriptionType⟩ :=
    bind_eq_ok.mpr ⟨_, isQuery, bind_eq_ok.mpr ⟨_, isMutation, bind_eq_ok.mpr ⟨_, isSubscription, rfl⟩⟩⟩
  exact (kept _ _ ran).1.symm

theorem written_of_kept {patched : PatchedDefinition ν τ}
    (kept : DefinitionKept diff definition patched) : Written diff definition := by
  cases definition with
  | directive body => trivial
  | schema body | schemaExtension body =>
    cases patched <;> first | exact description_eq_none_of_schemaKept kept | cases kept
  | type ty | typeExtension ty =>
    cases patched <;> first | exact bodyWritten_of_bodyKept kept.2.2.2 | cases kept

theorem kept_of_written (isEmpty : τ → Bool) (written : Written diff definition)
    (stays : ¬ RemovesDefinition diff definition) :
    ∃ patched, patchDefinition isEmpty (Paths.new diff) definition = some patched ∧
      DefinitionKept diff definition patched := by
  have schema (body : SchemaDefinition ν) (described : body.description = none)
      (kept : ¬ Mentions diff ("", "", "") (· = .removeSchemaDefinition)) :
      ∃ patched, patchSchemaDefinition isEmpty (Paths.new diff) body = some patched ∧ SchemaKept body patched := by
    refine ⟨_, if_neg (mt (any_iterExact _ _).mp kept), fun reader parsed ran => ?_⟩
    simp only [PatchedSchemaDefinition.parse, bind_eq_ok] at ran
    obtain ⟨queryType, _, mutationType, _, subscriptionType, _, same⟩ := ran
    cases same
    exact ⟨described.symm, rfl⟩
  have type (ty : TypeDefinition ν) (bodyWritten : BodyWritten diff ty.name ty.body)
      (kept : ¬ Mentions diff (ty.name, "", "") ChangeKind.removesType) :
      ∃ patched, patchTypeDefinition (Paths.new diff) ty = some patched ∧ TypeKept diff ty patched :=
    ⟨_, if_neg (mt (any_iterExact _ _).mp kept), rfl, rfl, rfl, bodyKept_patchBody bodyWritten⟩
  cases definition with
  | directive body =>
    refine ⟨.directive body, ?_, fun _ readsBack => readsBack.directiveSpan body⟩
    have kept : ¬ Mentions diff (body.name, "", "") (· = .removeDirectiveDefinition) := stays
    rw [patchDefinition, patchDirectiveDefinition, if_neg (mt (any_iterExact _ _).mp kept)]
    rfl
  | schema body | schemaExtension body =>
    obtain ⟨patched, isPatched, kept⟩ := schema body written stays
    rw [patchDefinition, isPatched]
    exact ⟨_, rfl, kept⟩
  | type ty | typeExtension ty =>
    obtain ⟨patched, isPatched, kept⟩ := type ty written stays
    rw [patchDefinition, isPatched]
    exact ⟨_, rfl, kept⟩

end Routines

section Identity
variable {ν τ : Type}

/-- What is read of a body that is written without changes. -/
def TypeBody.readBack : TypeBody ν → TypeBody ν
  | object interfaces fields => .object (sortByKey id interfaces).dedup fields
  | interface interfaces fields => .interface (sortByKey id interfaces).dedup fields
  | enum values => .enum (values.map fun value => { value with description := none })
  | inputObject fields => .inputObject (fields.map fun field =>
    { field with defaultValue := none, description := none })
  | body => body

def Definition.readBack : Definition ν → Definition ν
  | schema definition => .schema { definition with description := none }
  | schemaExtension definition => .schemaExtension { definition with description := none }
  | type ty => .type { ty with body := ty.body.readBack }
  | typeExtension ty => .typeExtension { ty with body := ty.body.readBack }
  | directive definition => .directive definition

section Reading
variable {reader : Reader ν τ} (readsBack : reader.ReadsBack)
include readsBack

theorem parseBraces_own {α β γ : Type} (readText : τ → Except ParseError γ) {readOwn : β → Except ParseError γ}
    {write : α → β} {read : α → γ} (each : ∀ item, readOwn (write item) = .ok (read item)) (items : List α) :
    parseBraces reader readText readOwn (items.map fun item => Rendered.own (write item)) = .ok (items.map read) := by
  cases items with
  | nil => exact bind_eq_ok.mpr ⟨(), readsBack.emptyBraces, rfl⟩
  | cons first rest =>
    rw [map_cons, parseBraces, ← map_cons (f := fun item => Rendered.own (write item)), mapM_eq_ok_iff,
      forall₂_map_left_iff, forall₂_map_right_iff]
    · exact forall₂_same.mpr fun item _ => each item
    · exact cons_ne_nil _ _

theorem parse_patchBody_nil (name : String) (body : TypeBody ν) :
    (patchBody (Paths.new ([] : List (PatchChange τ))) name body).parse reader
      (patchImplements (Paths.new ([] : List (PatchChange τ))) name body.implementsInterfaces) = .ok body.readBack := by
  have implemented (interfaces : List String) :
      patchImplements (Paths.new ([] : List (PatchChange τ))) name interfaces = (sortByKey id interfaces).dedup := by
    simp [patchImplements, Paths.addedInterfaceImpls, Paths.isInterfaceImplRemoved, Paths.new, sortByKey]
  have fields (fields : List (FieldDefinition ν)) :
      parseFields reader (patchFields (Paths.new ([] : List (PatchChange τ))) name fields) = .ok fields := by
    have read := parseBraces_own readsBack reader.field
      (fun field : FieldDefinition ν => (rfl : PatchedField.parse reader
      ⟨field.description, field.name, field.arguments, .own field.ty, field.directives⟩ = .ok field)) fields
    rw [map_id'] at read
    exact (congrArg _ (congrArg _ (filter_true fields))).trans read
  cases body with
  | scalar => rfl
  | union members =>
    refine congrArg (fun members => Except.ok (TypeBody.union members)) ?_
    exact (append_nil _).trans (filter_true members)
  | object interfaces own
  | interface interfaces own => rw [implemented]; exact map_eq_ok.mpr ⟨own, fields own, rfl⟩
  | enum values =>
    refine map_eq_ok.mpr ⟨_, ?_, rfl⟩
    refine (congrArg _ (congrArg _ (filter_true values))).trans (parseBraces_own readsBack reader.enumValue ?_ values)
    exact fun _ => rfl
  | inputObject own =>
    refine map_eq_ok.mpr ⟨_, ?_, rfl⟩
    refine (congrArg _ (congrArg _ (filter_true own))).trans (parseBraces_own readsBack reader.inputField ?_ own)
    exact fun _ => rfl

theorem parse_patchDefinition_nil (isEmpty : τ → Bool) (definition : Definition ν) :
    ∃ patched, patchDefinition isEmpty (Paths.new []) definition = some patched ∧
      patched.parse reader = .ok definition.readBack := by
  have parsed (ty : TypeDefinition ν) : PatchedType.parse reader
      ⟨ty.description, ty.name, patchImplements (Paths.new ([] : List (PatchChange τ))) ty.name
        ty.body.implementsInterfaces,
        ty.directives, patchBody (Paths.new []) ty.name ty.body⟩ = .ok { ty with body := ty.body.readBack } :=
    bind_eq_ok.mpr ⟨_, parse_patchBody_nil readsBack ty.name ty.body, rfl⟩
  have root (name : Option String) : parseRootType reader (name.map Rendered.own) = .ok name := by cases name <;> rfl
  have schema (body : SchemaDefinition ν) : PatchedSchemaDefinition.parse reader
      ⟨body.directives, body.queryType.map .own, body.mutationType.map .own, body.subscriptionType.map .own⟩ =
        .ok { body with description := none } :=
    bind_eq_ok.mpr ⟨_, root _, bind_eq_ok.mpr ⟨_, root _, bind_eq_ok.mpr ⟨_, root _, rfl⟩⟩⟩
  cases definition with
  | schema body | schemaExtension body => exact ⟨_, rfl, map_eq_ok.mpr ⟨_, schema body, rfl⟩⟩
  | type ty | typeExtension ty => exact ⟨_, rfl, map_eq_ok.mpr ⟨_, parsed ty, rfl⟩⟩
  | directive body => exact ⟨_, rfl, map_eq_ok.mpr ⟨_, readsBack.directiveSpan body, rfl⟩⟩

theorem reparse_patch_nil (isEmpty : τ → Bool) (source : Document ν) :
    reparse reader (patch isEmpty source []) = .ok ⟨source.definitions.map Definition.readBack⟩ := by
  refine map_eq_ok.mpr ⟨_, mapM_eq_ok_iff.mpr ?_, rfl⟩
  have pieces : patch isEmpty source [] =
      (source.definitions.filterMap (patchDefinition isEmpty (Paths.new []))).map .own := rfl
  rw [pieces, forall₂_map_left_iff]
  induction source.definitions with
  | nil => exact .nil
  | cons definition rest ih =>
    obtain ⟨patched, isPatched, parsed⟩ := parse_patchDefinition_nil readsBack isEmpty definition
    rw [filterMap_cons_some isPatched]
    exact .cons parsed ih

end Reading

theorem eq_map_self_iff {α : Type} {change : α → α} {items : List α} :
    items = items.map change ↔ ∀ item ∈ items, item = change item := by
  simpa using map_inj_left (l := items) (f := id) (g := change)

/-- Without changes, only attributes that are not written and repeated interfaces are lost. -/
theorem sameUpToOrder_readBack_iff {definition : Definition ν} : SameUpToOrder definition definition.readBack ↔
      Written ([] : List (PatchChange τ)) definition ∧ definition.interfaces.Nodup := by
  have sorted (interfaces : List String) : interfaces.Perm (sortByKey id interfaces).dedup ↔ interfaces.Nodup := by
    constructor
    · exact fun perm => perm.nodup_iff.mpr (nodup_dedup _)
    · intro distinct
      rw [List.Nodup.dedup ((perm_sortByKey id interfaces).nodup_iff.mpr distinct)]
      exact (perm_sortByKey id interfaces).symm
  have body (name : String) (body : TypeBody ν) :
      body.setInterfaces [] = body.readBack.setInterfaces [] ∧
        body.implementsInterfaces.Perm body.readBack.implementsInterfaces ↔
      BodyWritten ([] : List (PatchChange τ)) name body ∧ body.implementsInterfaces.Nodup := by
    cases body with
    | object interfaces own
    | interface interfaces own => exact and_congr (iff_of_true rfl trivial) (sorted interfaces)
    | scalar | union members => exact iff_of_true ⟨rfl, .rfl⟩ ⟨trivial, nodup_nil⟩
    | enum values =>
      refine and_congr ?_ (iff_of_true .rfl nodup_nil)
      simp only [TypeBody.readBack, TypeBody.setInterfaces, TypeBody.enum.injEq, eq_map_self_iff]
      refine forall₂_congr fun value _ => ?_
      obtain ⟨_, description, _⟩ := value
      simp [MentionsMember, Mentions]
    | inputObject own =>
      refine and_congr ?_ (iff_of_true .rfl nodup_nil)
      simp only [TypeBody.readBack, TypeBody.setInterfaces, TypeBody.inputObject.injEq, eq_map_self_iff]
      refine forall₂_congr fun field _ => ?_
      obtain ⟨_, _, defaultValue, description, _⟩ := field
      simp [MentionsMember, Mentions]
  cases definition with
  | directive definition => exact iff_of_true ⟨rfl, .rfl⟩ ⟨trivial, nodup_nil⟩
  | type ty | typeExtension ty =>
    refine Iff.trans ?_ (body ty.name ty.body)
    simp [SameUpToOrder, Definition.readBack, Definition.setInterfaces, Definition.interfaces]
  | schema definition | schemaExtension definition =>
    obtain ⟨description, _⟩ := definition
    simp [SameUpToOrder, Definition.readBack, Definition.setInterfaces, Definition.interfaces, Written]

theorem patchFrames_iff (isEmpty : τ → Bool) (source : Document ν) (diff : List (PatchChange τ)) :
    PatchFrames isEmpty source diff ↔
      (∀ definition ∈ source.definitions, ¬ RemovesDefinition diff definition → Written diff definition) ∧
      (diff = [] → ∀ definition ∈ source.definitions, definition.interfaces.Nodup) := by
  have sameAll : List.Forall₂ SameUpToOrder source.definitions (source.definitions.map Definition.readBack) ↔
      ∀ definition ∈ source.definitions, Written ([] : List (PatchChange τ)) definition ∧
        definition.interfaces.Nodup := by
    rw [forall₂_map_right_iff, forall₂_same]
    exact forall₂_congr fun definition _ => sameUpToOrder_readBack_iff
  constructor
  · intro frames
    refine ⟨fun definition member stays => ?_, fun isNil => ?_⟩
    · obtain ⟨written, _, kept⟩ := frames.keeps definition member stays
      exact written_of_kept kept
    · subst isNil
      obtain ⟨document, parsed, same⟩ := frames.identity rfl rootReader ⟨rfl, fun _ => rfl⟩
      rw [reparse_patch_nil ⟨rfl, fun _ => rfl⟩] at parsed
      cases parsed
      exact fun definition member => (sameAll.mp same definition member).2
  · rintro ⟨written, distinct⟩
    refine ⟨fun definition member stays => ?_, fun isNil reader readsBack => ?_⟩
    · obtain ⟨patched, isPatched, kept⟩ := kept_of_written isEmpty (written definition member stays) stays
      refine ⟨patched, mem_append_right _ (mem_map.mpr ⟨patched, ?_, rfl⟩), kept⟩
      exact mem_filterMap.mpr ⟨definition, member, isPatched⟩
    · subst isNil
      refine ⟨_, reparse_patch_nil readsBack isEmpty source, sameAll.mpr fun definition member => ?_⟩
      refine ⟨written definition member ?_, distinct rfl definition member⟩
      cases definition <;> simp [RemovesDefinition, Mentions]

/-- An input object with a default. -/
def limitedFilter : Document Nat where
  definitions := [.type ⟨"Filter", none, [], .inputObject [⟨"limit", .named "Int", some 10, none, []⟩]⟩]

/-- Without any change, the patch drops the default of the input field. -/
theorem not_patchFrames_limitedFilter : ¬ PatchFrames (fun (_ : Unit) => true) limitedFilter [] := by
  intro frames
  obtain ⟨document, parsed, same⟩ := frames.identity rfl rootReader ⟨rfl, fun _ => rfl⟩
  have read : reparse rootReader (patch (fun (_ : Unit) => true) limitedFilter []) =
      .ok ⟨[.type ⟨"Filter", none, [], .inputObject [⟨"limit", .named "Int", none, none, []⟩]⟩]⟩ := by decide +kernel
  cases parsed
  obtain ⟨first, _⟩ := forall₂_cons.mp same
  exact absurd first.1 (by decide)

end Identity
end Grafbase.SchemaDiff
