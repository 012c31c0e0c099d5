import Grafbase.SchemaDiff.Views

/-! The structure of a document, and when the diff decides whether two are the same.

The structure is a number of sets. The diff reads only the last definition of
each name, and types and directives share their names there. It answers for
the structure of two documents if and only if no member confuses it and what
later definitions hide makes no difference. For that it is enough that what is
defined twice in a document is defined alike.
-/

set_option autoImplicit false

namespace Grafbase.SchemaDiff
open Foundation List Option

inductive RootOperation where
  | query | mutation | subscription

section Structure
variable {ν : Type}

def SchemaDefinition.rootType (definition : SchemaDefinition ν) : RootOperation → Option String
  | .query => definition.queryType
  | .mutation => definition.mutationType
  | .subscription => definition.subscriptionType

variable (document : Document ν)

namespace Document

def HasType (name : String) (kind : DefinitionKind) : Prop :=
  ∃ ty ∈ document.types, ty.name = name ∧ ty.body.kind = kind

def HasDirective (name : String) : Prop :=
  ∃ body, Definition.directive body ∈ document.definitions ∧ body.name = name

/-- Union members and enum values are members without a type. -/
def HasMember (parent name : String) (ty : Option TypeRef) : Prop :=
  ∃ member, ((parent, name), member) ∈ document.memberEntries ∧ member.ty = ty

def HasArgument (parent field name : String) (ty : TypeRef) (defaultValue : Option ν) : Prop :=
  ∃ argument, ((parent, field, name), argument) ∈ document.argumentEntries ∧ argument.ty = ty ∧
    argument.defaultValue = defaultValue

def Implements (name interface : String) : Prop :=
  ∃ interfaces, (name, interfaces) ∈ document.implEntries ∧ interface ∈ interfaces

def HasRoot (operation : RootOperation) (name : String) : Prop :=
  ∃ schema ∈ document.schemas, schema.rootType operation = some name

end Document

structure SameStructure (source target : Document ν) : Prop where
  types : ∀ name kind, source.HasType name kind ↔ target.HasType name kind
  directives : ∀ name, source.HasDirective name ↔ target.HasDirective name
  members : ∀ parent name ty, source.HasMember parent name ty ↔ target.HasMember parent name ty
  arguments : ∀ parent field name ty defaultValue,
    source.HasArgument parent field name ty defaultValue ↔ target.HasArgument parent field name ty defaultValue
  interfaces : ∀ name interface, source.Implements name interface ↔ target.Implements name interface
  roots : ∀ operation name, source.HasRoot operation name ↔ target.HasRoot operation name

/-- The last definitions of every name look the same. -/
structure SameView (source target : Document ν) : Prop where
  kinds : ∀ name, source.kindOf name = target.kindOf name
  present : ∀ parent name, (source.memberOf parent name).isSome = (target.memberOf parent name).isSome
  typed : ∀ parent name, source.kindOf parent ≠ some .enum → source.kindOf parent ≠ some .union →
    (source.memberOf parent name).map Member.ty = (target.memberOf parent name).map Member.ty
  arguments : ∀ parent field name,
    (source.argumentOf parent field name).map (fun argument => (argument.ty, argument.defaultValue)) =
      (target.argumentOf parent field name).map fun argument => (argument.ty, argument.defaultValue)
  interfaces : ∀ name interface, interface ∈ source.implementsOf name ↔ interface ∈ target.implementsOf name
  roots : source.schemaOf.map SchemaDefinition.rootType = target.schemaOf.map SchemaDefinition.rootType

end Structure

open SchemaDefinition (rootType)

section Reports
variable {ν : Type} {source target : Document ν} {name parent : String}

theorem definitionReport_eq_nil_iff :
    (definitionReport source target name : List (Change ν)) = [] ↔ source.kindOf name = target.kindOf name := by
  unfold definitionReport Document.kindOf
  cases first : source.definitionOf name with
  | some definition =>
    obtain ⟨kind, isKind⟩ := kind_of_definitionOf first
    simp [isKind]
  | none =>
    cases second : target.definitionOf name with
    | none => simp
    | some definition =>
      obtain ⟨kind, isKind⟩ := kind_of_definitionOf second
      simp [addedType, isKind]

theorem implementerReport_eq_nil_iff : (implementerReport source target name : List (Change ν)) = [] ↔
      ∀ interface, interface ∈ source.implementsOf name ↔ interface ∈ target.implementsOf name := by
  simp [implementerReport, implementerChanges, iff_def, forall_and]

theorem schemaDefinitionChanges_eq_nil_iff {src target : Option (SchemaDefinition ν)} :
    schemaDefinitionChanges (src, target) = [] ↔
      src.map rootType = target.map rootType := by
  cases src with
  | none => cases target <;> simp [schemaDefinitionChanges]
  | some before =>
    cases target with
    | none => simp [schemaDefinitionChanges]
    | some after =>
      have single (kind : ChangeKind) (first second : Option String) :
          (rootTypeChange kind first second : List (Change ν)) = [] ↔ first = second := by
        simp [rootTypeChange]
      simp only [schemaDefinitionChanges, append_eq_nil_iff, single, map_some, some.injEq, funext_iff]
      constructor
      · rintro ⟨⟨query, mutation⟩, subscription⟩ operation
        cases operation <;> assumption
      · exact fun all => ⟨⟨all .query, all .mutation⟩, all .subscription⟩

theorem memberChanges_eq_nil_iff {path : Path} {src target : Option (Member ν)} {kind : DefinitionKind}
    (present : src.isSome ∨ target.isSome) (canHold : CanHold kind src target) :
    memberChanges path src target kind = .ok [] ↔
      src.isSome = target.isSome ∧ (kind ≠ .enum → kind ≠ .union → src.map Member.ty = target.map Member.ty) := by
  obtain ⟨notScalar, notDirective, typed⟩ := canHold
  cases kind <;> cases src <;> cases target <;> simp_all [memberChanges]
  -- what is left are the members that both sides have, for the three kinds with typed members
  all_goals
    rename_i before after
    by_cases same : before.ty = after.ty
    · simp [same]
    · obtain ⟨ty, isTy⟩ := ne_none_iff_exists'.mp fun untyped => same ((typed untyped).trans untyped.symm)
      simp [isTy]

theorem exists_kindOf {document : Document ν} (present : (document.memberOf parent name).isSome) :
    ∃ kind, document.kindOf parent = some kind := by
  obtain ⟨definition, isDefinition⟩ := isSome_iff_exists.mp (definitionOf_isSome present)
  obtain ⟨kind, isKind⟩ := kind_of_definitionOf isDefinition
  exact ⟨kind, by rw [Document.kindOf, isDefinition, bind_some, isKind]⟩

theorem memberReport_eq_nil_iff (noConfusion : NoConfusion source target)
    (kinds : source.kindOf parent = target.kindOf parent)
    (present : (source.memberOf parent name).isSome ∨ (target.memberOf parent name).isSome) :
    memberReport source target parent name = .ok [] ↔
      (source.memberOf parent name).isSome = (target.memberOf parent name).isSome ∧
      (source.kindOf parent ≠ some .enum → source.kindOf parent ≠ some .union →
        (source.memberOf parent name).map Member.ty = (target.memberOf parent name).map Member.ty) := by
  obtain ⟨kind, isKind⟩ : ∃ kind, source.kindOf parent = some kind := by
    cases present with
    | inl first => exact exists_kindOf first
    | inr second => rw [kinds]; exact exists_kindOf second
  have isOther := kinds.symm.trans isKind
  have reported : memberReport source target parent name =
      memberChanges (.member parent name) (source.memberOf parent name) (target.memberOf parent name) kind := by
    simp [memberReport, isKind, isOther]
  rw [reported, memberChanges_eq_nil_iff present (noConfusion parent name kind present isKind isOther), isKind]
  simp

variable [DecidableEq ν]

theorem defaultChanges_eq_nil_iff {path : Path}
    {src target : Option ν} : defaultChanges path src target = [] ↔ src = target := by
  cases src <;> cases target <;> simp [defaultChanges]

theorem argumentReport_eq_nil_iff {field : String}
    (kept : (source.memberOf parent field).isSome = (target.memberOf parent field).isSome) :
    argumentReport source target parent field name = [] ↔
      (source.argumentOf parent field name).map (fun argument => (argument.ty, argument.defaultValue)) =
        (target.argumentOf parent field name).map fun argument => (argument.ty, argument.defaultValue) := by
  unfold argumentReport
  cases first : source.argumentOf parent field name with
  | none => cases target.argumentOf parent field name <;> simp
  | some before =>
    cases second : target.argumentOf parent field name with
    | some after => simp [defaultChanges_eq_nil_iff]
    | none =>
      -- the field is still there, so the argument that is gone is reported
      rw [memberOf_isSome first] at kept
      simp [← kept]

/-- The diff is empty if and only if the last definitions look the same. -/
theorem diff_eq_nil_iff {changes : List (Change ν)} (found : diff source target = .ok changes) :
    changes = [] ↔ SameView source target := by
  have noConfusion := diff_isOk_iff.mp ⟨changes, found⟩
  have parts : changes = [] ↔ ∀ part, Report source target part → part = [] := by
    simp only [eq_nil_iff_forall_not_mem, mem_diff found, not_exists, not_and]
    exact forall_comm.trans (forall_congr' fun _ => forall_comm)
  rw [parts]
  constructor
  · intro empty
    have kinds (name : String) : source.kindOf name = target.kindOf name :=
      definitionReport_eq_nil_iff.mp (empty _ (.definition name))
    have members : ∀ parent name, (source.memberOf parent name).isSome = (target.memberOf parent name).isSome ∧
        (source.kindOf parent ≠ some .enum → source.kindOf parent ≠ some .union →
          (source.memberOf parent name).map Member.ty = (target.memberOf parent name).map Member.ty) := by
      intro parent name
      by_cases either : (source.memberOf parent name).isSome ∨ (target.memberOf parent name).isSome
      · obtain ⟨part, isPart⟩ := memberReport_isOk noConfusion either
        rw [empty part (.member isPart)] at isPart
        exact (memberReport_eq_nil_iff noConfusion (kinds parent) either).mp isPart
      · have notFirst : source.memberOf parent name = .none := by simpa using mt Or.inl either
        have notSecond : target.memberOf parent name = .none := by simpa using mt Or.inr either
        simp [notFirst, notSecond]
    refine ⟨kinds, fun parent name => (members parent name).1, fun parent name => (members parent name).2, ?_, ?_, ?_⟩
    · intro parent field name
      exact (argumentReport_eq_nil_iff (members parent field).1).mp (empty _ (.argument parent field name))
    · exact fun name => implementerReport_eq_nil_iff.mp (empty _ (.implementer name))
    · exact schemaDefinitionChanges_eq_nil_iff.mp (empty _ .schema)
  · intro same part report
    cases report with
    | schema => exact schemaDefinitionChanges_eq_nil_iff.mpr same.roots
    | implementer name => exact implementerReport_eq_nil_iff.mpr (same.interfaces name)
    | definition name => exact definitionReport_eq_nil_iff.mpr (same.kinds name)
    | @member parent name _ isPart =>
      refine eq_nil_iff_forall_not_mem.mpr fun change inPart => ?_
      have isNil := (memberReport_eq_nil_iff noConfusion (same.kinds parent)
        (present_of_memberReport isPart inPart)).mpr
        ⟨same.present parent name, same.typed parent name⟩
      cases Except.ok.inj (isPart.symm.trans isNil)
      cases inPart
    | argument parent field name =>
      exact (argumentReport_eq_nil_iff (same.present parent field)).mpr (same.arguments parent field name)

end Reports

section Agreement
variable {ν : Type}

/-- What is defined twice is defined alike, so that types and directives share no name, and a schema definition names a
root type. -/
structure Agreeing (document : Document ν) : Prop where
  kinds : ∀ name first second, (name, first) ∈ document.typeEntries → (name, second) ∈ document.typeEntries →
    first.kind = second.kind
  members : ∀ key first second, (key, first) ∈ document.memberEntries → (key, second) ∈ document.memberEntries →
    first.ty = second.ty
  arguments : ∀ key first second, (key, first) ∈ document.argumentEntries → (key, second) ∈ document.argumentEntries →
    (first.ty, first.defaultValue) = (second.ty, second.defaultValue)
  interfaces : ∀ name first second, (name, first) ∈ document.implEntries → (name, second) ∈ document.implEntries →
    ∀ interface, interface ∈ first ↔ interface ∈ second
  schemas : ∀ first ∈ document.schemas, ∀ second ∈ document.schemas, first.rootType = second.rootType
  rooted : ∀ schema ∈ document.schemas, ∃ operation name, schema.rootType operation = some name

variable {document : Document ν} {name : String} {kind : DefinitionKind} {body : TypeBody ν} {member : Member ν}

theorem Agreeing.kindOf_eq_some_iff (agreeing : Agreeing document) : document.kindOf name = some kind ↔
      ∃ definition, (name, definition) ∈ document.typeEntries ∧ definition.kind = some kind := by
  rw [← map_lastValue_eq_some_iff (agreeing.kinds name), Document.kindOf, Document.definitionOf]
  cases lastValue document.typeEntries name <;> simp

theorem TypeBody.kind_ne_directive (body : TypeBody ν) : body.kind ≠ .directive := by
  cases body <;> simp [TypeBody.kind]

theorem TypeBody.kind_ne_scalar (isMember : member ∈ body.members) : body.kind ≠ .scalar := by
  cases body <;> simp_all [TypeBody.kind, TypeBody.members]

theorem TypeBody.ty_eq_none_iff (isMember : member ∈ body.members) :
    member.ty = none ↔ body.kind = .enum ∨ body.kind = .union := by
  cases body with
  | scalar => cases isMember
  | _ =>
    obtain ⟨own, _, rfl⟩ := mem_map.mp isMember
    simp [TypeBody.kind, Member.ty]

theorem hasType_iff : document.HasType name kind ↔
      kind ≠ .directive ∧ ∃ definition, (name, definition) ∈ document.typeEntries ∧ definition.kind = some kind := by
  constructor
  · rintro ⟨ty, isType, rfl, rfl⟩
    exact ⟨ty.body.kind_ne_directive, exists_typeEntry isType⟩
  · rintro ⟨notDirective, definition, listed, isKind⟩
    obtain ⟨defined, ⟨ty, isType, named⟩ | ⟨body, rfl, _⟩⟩ := mem_typeEntries.mp listed
    · obtain rfl | rfl := isType
      · exact ⟨ty, mem_types.mpr (.inl defined), named, some.inj isKind⟩
      · exact ⟨ty, mem_types.mpr (.inr defined), named, some.inj isKind⟩
    · exact absurd (some.inj isKind).symm notDirective

theorem hasDirective_iff : document.HasDirective name ↔
      ∃ definition, (name, definition) ∈ document.typeEntries ∧ definition.kind = some .directive := by
  constructor
  · rintro ⟨body, defined, rfl⟩
    exact ⟨.directive body, mem_typeEntries.mpr ⟨defined, .inr ⟨body, rfl, rfl⟩⟩, rfl⟩
  · rintro ⟨definition, listed, isKind⟩
    obtain ⟨defined, ⟨ty, rfl | rfl, _⟩ | ⟨body, rfl, named⟩⟩ := mem_typeEntries.mp listed
    · exact absurd (some.inj isKind) ty.body.kind_ne_directive
    · exact absurd (some.inj isKind) ty.body.kind_ne_directive
    · exact ⟨body, defined, named⟩

namespace Agreeing
variable (agreeing : Agreeing document)
include agreeing

theorem hasType_iff_kindOf : document.HasType name kind ↔ kind ≠ .directive ∧ document.kindOf name = some kind := by
  rw [hasType_iff, agreeing.kindOf_eq_some_iff]

theorem hasDirective_iff_kindOf : document.HasDirective name ↔ document.kindOf name = some .directive := by
  rw [hasDirective_iff, agreeing.kindOf_eq_some_iff]

variable {parent : String}

theorem hasMember_iff {ty : Option TypeRef} :
    document.HasMember parent name ty ↔ (document.memberOf parent name).map Member.ty = some ty :=
  (map_lastValue_eq_some_iff (agreeing.members (parent, name))).symm

theorem hasArgument_iff {field : String} {ty : TypeRef} {defaultValue : Option ν} :
    document.HasArgument parent field name ty defaultValue ↔
      (document.argumentOf parent field name).map (fun argument => (argument.ty, argument.defaultValue)) =
        some (ty, defaultValue) := by
  rw [Document.argumentOf, map_lastValue_eq_some_iff (agreeing.arguments (parent, field, name))]
  simp only [Document.HasArgument, Prod.mk.injEq]

theorem implements_iff {interface : String} :
    document.Implements name interface ↔ interface ∈ document.implementsOf name := by
  have last := map_lastValue_eq_some_iff (y := True) fun first second isFirst isSecond =>
    propext (agreeing.interfaces name first second isFirst isSecond interface)
  simp only [eq_iff_iff, iff_true, map_eq_some_iff] at last
  rw [Document.Implements, ← last, Document.implementsOf]
  cases lastValue document.implEntries name <;> simp

theorem hasRoot_iff {operation : RootOperation} :
    document.HasRoot operation name ↔ document.schemaOf.bind (rootType · operation) = some name := by
  rw [bind_eq_some_iff]
  constructor
  · rintro ⟨schema, isSchema, isRoot⟩
    obtain ⟨last, isLast⟩ := isSome_iff_exists.mp (getLast?_isSome.mpr (ne_nil_of_mem isSchema))
    refine ⟨last, isLast, ?_⟩
    rw [agreeing.schemas last (mem_of_getLast? isLast) schema isSchema, isRoot]
  · rintro ⟨schema, isLast, isRoot⟩
    exact ⟨schema, mem_of_getLast? isLast, isRoot⟩

theorem exists_body_of_memberOf (isKind : document.kindOf parent = some kind)
    (found : document.memberOf parent name = some member) :
    ∃ body : TypeBody ν, member ∈ body.members ∧ body.kind = kind := by
  obtain ⟨ty, isType, listed⟩ := mem_flatMap.mp (mem_of_lastValue found)
  obtain ⟨own, isMember, same⟩ := mem_map.mp listed
  cases same
  obtain ⟨definition, isEntry, hasKind⟩ := exists_typeEntry isType
  have isBody := agreeing.kindOf_eq_some_iff.mpr ⟨definition, isEntry, hasKind⟩
  exact ⟨ty.body, isMember, mem_unique isBody isKind⟩

theorem ty_eq_none_of_kindOf (found : document.memberOf parent name = some member)
    (untyped : document.kindOf parent = some .enum ∨ document.kindOf parent = some .union) : member.ty = none := by
  obtain isKind | isKind := untyped
  · obtain ⟨body, isMember, isEnum⟩ := agreeing.exists_body_of_memberOf isKind found
    exact (TypeBody.ty_eq_none_iff isMember).mpr (.inl isEnum)
  · obtain ⟨body, isMember, isUnion⟩ := agreeing.exists_body_of_memberOf isKind found
    exact (TypeBody.ty_eq_none_iff isMember).mpr (.inr isUnion)

theorem not_rootless {schema : SchemaDefinition ν} (found : document.schemaOf = some schema) :
    ¬ ∀ operation, schema.rootType operation = none := by
  obtain ⟨operation, name, isRoot⟩ := agreeing.rooted schema (mem_of_getLast? found)
  exact fun rootless => some_ne_none name (isRoot.symm.trans (rootless operation))

end Agreeing

variable {source target : Document ν} (agreeingSource : Agreeing source) (agreeingTarget : Agreeing target)
include agreeingSource agreeingTarget

theorem noConfusion_of_agreeing : NoConfusion source target := by
  intro parent name kind present isKind isOther
  obtain ⟨body, member, isMember, rfl⟩ : ∃ (body : TypeBody ν) (member : Member ν), member ∈ body.members ∧
    body.kind = kind := by
    obtain isSome | isSome := present
    · obtain ⟨member, found⟩ := isSome_iff_exists.mp isSome
      obtain ⟨body, ofKind⟩ := agreeingSource.exists_body_of_memberOf isKind found
      exact ⟨body, member, ofKind⟩
    · obtain ⟨member, found⟩ := isSome_iff_exists.mp isSome
      obtain ⟨body, ofKind⟩ := agreeingTarget.exists_body_of_memberOf isOther found
      exact ⟨body, member, ofKind⟩
  refine ⟨TypeBody.kind_ne_scalar isMember, body.kind_ne_directive, ?_⟩
  intro notEnum notUnion first second _ foundSecond untyped
  obtain ⟨other, isSecond, sameKind⟩ := agreeingTarget.exists_body_of_memberOf isOther foundSecond
  have either := (TypeBody.ty_eq_none_iff isSecond).mp untyped
  rw [sameKind] at either
  exact absurd either (not_or.mpr ⟨notEnum, notUnion⟩)

theorem sameKinds_iff : (∀ name, source.kindOf name = target.kindOf name) ↔
      (∀ name kind, source.HasType name kind ↔ target.HasType name kind) ∧
        ∀ name, source.HasDirective name ↔ target.HasDirective name := by
  simp only [agreeingSource.hasType_iff_kindOf, agreeingTarget.hasType_iff_kindOf,
    agreeingSource.hasDirective_iff_kindOf,
    agreeingTarget.hasDirective_iff_kindOf]
  constructor
  · intro same
    simp [same]
  · rintro ⟨types, directives⟩ name
    refine ext fun kind => ?_
    by_cases isDirective : kind = .directive
    · exact isDirective ▸ directives name
    · simpa [isDirective] using types name kind

theorem sameMember_iff (kinds : ∀ name, source.kindOf name = target.kindOf name) {parent : String} :
    (∀ ty, source.HasMember parent name ty ↔ target.HasMember parent name ty) ↔
      (source.memberOf parent name).isSome = (target.memberOf parent name).isSome ∧
      (source.kindOf parent ≠ some .enum → source.kindOf parent ≠ some .union →
        (source.memberOf parent name).map Member.ty = (target.memberOf parent name).map Member.ty) := by
  simp only [agreeingSource.hasMember_iff, agreeingTarget.hasMember_iff, ← Option.ext_iff]
  constructor
  · exact fun same => ⟨by simpa using congrArg Option.isSome same, fun _ _ => same⟩
  · rintro ⟨present, typed⟩
    by_cases untyped : source.kindOf parent = some .enum ∨ source.kindOf parent = some .union
    · -- members of enums and unions are the same once they are there
      cases first : source.memberOf parent name <;> cases second : target.memberOf parent name <;>
        simp [first, second] at present ⊢
      rw [agreeingSource.ty_eq_none_of_kindOf first untyped,
        agreeingTarget.ty_eq_none_of_kindOf second (kinds parent ▸ untyped)]
    · exact typed (mt Or.inl untyped) (mt Or.inr untyped)

theorem sameRoots_iff : (∀ operation name, source.HasRoot operation name ↔ target.HasRoot operation name) ↔
      source.schemaOf.map rootType = target.schemaOf.map rootType := by
  simp only [agreeingSource.hasRoot_iff, agreeingTarget.hasRoot_iff, ← Option.ext_iff]
  cases first : source.schemaOf with
  | none =>
    cases second : target.schemaOf with
    | none => simp
    | some after => simpa [eq_comm] using agreeingTarget.not_rootless second
  | some before =>
    cases second : target.schemaOf with
    | none => simpa using agreeingSource.not_rootless first
    | some after => simp [funext_iff]

theorem sameView_iff_sameStructure : SameView source target ↔ SameStructure source target := by
  have kinds := sameKinds_iff agreeingSource agreeingTarget
  have roots := sameRoots_iff agreeingSource agreeingTarget
  have arguments {parent field name : String} := @Option.ext_iff _
    ((source.argumentOf parent field name).map fun argument => (argument.ty, argument.defaultValue))
    ((target.argumentOf parent field name).map fun argument => (argument.ty, argument.defaultValue))
  simp only [Prod.forall, ← agreeingSource.hasArgument_iff, ← agreeingTarget.hasArgument_iff] at arguments
  constructor
  · intro same
    have members {parent name : String} := (sameMember_iff agreeingSource agreeingTarget same.kinds).mpr
      ⟨same.present parent name, same.typed parent name⟩
    refine ⟨(kinds.mp same.kinds).1, (kinds.mp same.kinds).2, fun _ _ => members, fun parent field name => ?_, ?_,
      roots.mpr same.roots⟩
    · exact arguments.mp (same.arguments parent field name)
    · simpa only [agreeingSource.implements_iff, agreeingTarget.implements_iff] using same.interfaces
  · intro same
    have sameKinds := kinds.mpr ⟨same.types, same.directives⟩
    have members (parent name : String) := (sameMember_iff agreeingSource agreeingTarget sameKinds).mp
      (same.members parent name)
    refine ⟨sameKinds, fun parent name => (members parent name).1, fun parent name => (members parent name).2,
      fun parent field name => ?_, ?_, roots.mp same.roots⟩
    · exact arguments.mpr (same.arguments parent field name)
    · simpa only [agreeingSource.implements_iff, agreeingTarget.implements_iff] using same.interfaces

end Agreement

section Decides
variable {ν : Type} [DecidableEq ν]

/-- The last definitions of every name tell the whole story. -/
structure Legible (source target : Document ν) : Prop where
  noConfusion : NoConfusion source target
  nothingHidden : SameView source target → SameStructure source target
  lastCount : SameStructure source target → SameView source target

/-- The diff returns, and it is empty exactly for documents of the same structure. -/
def DiffDecides (source target : Document ν) : Prop :=
  ∃ changes, diff source target = .ok changes ∧ (changes = [] ↔ SameStructure source target)

theorem diffDecides_iff (source target : Document ν) : DiffDecides source target ↔ Legible source target := by
  constructor
  · rintro ⟨changes, found, decided⟩
    have view := diff_eq_nil_iff found
    refine ⟨diff_isOk_iff.mp ⟨changes, found⟩, ?_, ?_⟩
    · exact fun same => decided.mp (view.mpr same)
    · exact fun same => view.mp (decided.mpr same)
  · intro legible
    obtain ⟨changes, found⟩ := diff_isOk_iff.mpr legible.noConfusion
    refine ⟨changes, found, ?_⟩
    rw [diff_eq_nil_iff found]
    exact ⟨legible.nothingHidden, legible.lastCount⟩

/-- It is enough that each of the documents agrees with itself on what it defines twice. -/
theorem diffDecides_of_agreeing {source target : Document ν} (agreeingSource : Agreeing source)
    (agreeingTarget : Agreeing target) : DiffDecides source target := by
  have same := sameView_iff_sameStructure agreeingSource agreeingTarget
  obtain ⟨changes, found⟩ := diff_isOk_iff.mpr (noConfusion_of_agreeing agreeingSource agreeingTarget)
  exact ⟨changes, found, (diff_eq_nil_iff found).trans same⟩

theorem diff_self_iff (document : Document ν) : diff document document = .ok [] ↔ NoConfusion document document := by
  refine ⟨fun found => diff_isOk_iff.mp ⟨[], found⟩, fun known => ?_⟩
  obtain ⟨changes, found⟩ := diff_isOk_iff.mpr known
  rw [found, (diff_eq_nil_iff found).mpr (by constructor <;> simp)]

/-- A type and a later directive definition of the same name. -/
def typeAndDirective : Document Unit where
  definitions :=
    [.type ⟨"Foo", none, [], .object [] [⟨"a", [], .named "Int", none, []⟩]⟩,
      .directive ⟨"Foo", none, [], false, ["OBJECT"]⟩]

/-- The field of the type is looked up under a directive, and the diff of the document with itself panics. -/
theorem not_diffDecides_typeAndDirective :
    diff typeAndDirective typeAndDirective = .error .unreachable ∧ ¬ DiffDecides typeAndDirective typeAndDirective := by
  have panics : diff typeAndDirective typeAndDirective = .error .unreachable := by decide +kernel
  refine ⟨panics, ?_⟩
  rintro ⟨changes, found, _⟩
  cases found

end Decides
end Grafbase.SchemaDiff
