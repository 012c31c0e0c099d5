import Grafbase.SchemaDiff.Diff

/-! What the diff sees of a document.

For each name the last definition counts, and for each member and argument the
last one that is defined under its name. The diff returns unless a member has
a parent that can have none, and it is empty if and only if the two documents
look the same.
-/

set_option autoImplicit false

namespace Grafbase.SchemaDiff
open Foundation List
open DiffState (enter)
section Entries
variable {ν : Type}

def Definition.typeEntries (definition : Definition ν) : List (String × Definition ν) :=
  match definition with
  | .schema _ | .schemaExtension _ => []
  | .type ty | .typeExtension ty => [(ty.name, definition)]
  | .directive body => [(body.name, definition)]

def Definition.types : Definition ν → List (TypeDefinition ν)
  | .type ty | .typeExtension ty => [ty]
  | _ => []

def Definition.schemas : Definition ν → List (SchemaDefinition ν)
  | .schema body | .schemaExtension body => [body]
  | _ => []

variable (document : Document ν)

namespace Document

def typeEntries : List (String × Definition ν) := document.definitions.flatMap Definition.typeEntries

def types : List (TypeDefinition ν) := document.definitions.flatMap Definition.types

def implEntries : List (String × List String) := document.types.flatMap TypeDefinition.implEntries

def memberEntries : List ((String × String) × Member ν) :=
  document.types.flatMap TypeDefinition.memberEntries

def argumentEntries : List ((String × String × String) × InputValueDefinition ν) :=
  document.types.flatMap TypeDefinition.argumentEntries

def schemas : List (SchemaDefinition ν) := document.definitions.flatMap Definition.schemas

def definitionOf (name : String) : Option (Definition ν) := lastValue document.typeEntries name

def kindOf (name : String) : Option DefinitionKind :=
  (document.definitionOf name).bind Definition.kind

def memberOf (parent name : String) : Option (Member ν) :=
  lastValue document.memberEntries (parent, name)

def implementsOf (name : String) : List String := (lastValue document.implEntries name).getD []

def argumentOf (parent field name : String) : Option (InputValueDefinition ν) :=
  lastValue document.argumentEntries (parent, field, name)

def schemaOf : Option (SchemaDefinition ν) := document.schemas.getLast?

end Document

/-- The maps that a side writes are the entries of its document, one after the other. -/
theorem foldl_enter (side : Side) (definitions : List (Definition ν)) (state : DiffState ν) :
    definitions.foldl (enter side) state =
      { schemaDefinitionMap := (definitions.flatMap Definition.schemas).foldl side.putSchema state.schemaDefinitionMap
        typesMap := (definitions.flatMap Definition.typeEntries).foldl side.put state.typesMap
        fieldsMap :=
          ((definitions.flatMap Definition.types).flatMap TypeDefinition.memberEntries).foldl side.put state.fieldsMap
        interfaceImpls :=
          ((definitions.flatMap Definition.types).flatMap TypeDefinition.implEntries).foldl side.put
            state.interfaceImpls
        argumentsMap := ((definitions.flatMap Definition.types).flatMap TypeDefinition.argumentEntries).foldl side.put
          state.argumentsMap } := by
  induction definitions generalizing state with
  | nil => rfl
  | cons definition rest ih =>
    simp only [foldl_cons, ih, flatMap_cons, flatMap_append, foldl_append]
    cases definition <;> simp [enter, DiffState.enterType, Definition.typeEntries, Definition.types,
      Definition.schemas]

theorem foldl_putSchema (schemas : List (SchemaDefinition ν))
    (map : Option (SchemaDefinition ν) × Option (SchemaDefinition ν)) :
    schemas.foldl Side.source.putSchema map = (schemas.getLast?.or map.1, map.2) ∧
      schemas.foldl Side.target.putSchema map = (map.1, schemas.getLast?.or map.2) := by
  induction schemas generalizing map with
  | nil => exact ⟨rfl, rfl⟩
  | cons schema rest ih =>
    rw [foldl_cons, foldl_cons, (ih _).1, (ih _).2, getLast?_cons]
    cases rest.getLast? <;> exact ⟨rfl, rfl⟩

/-- After both documents, the maps hold their last entries. -/
theorem traverseSchemas_eq (source target : Document ν) :
    traverseSchemas source target =
      { schemaDefinitionMap := (source.schemaOf, target.schemaOf)
        typesMap := combine source.typeEntries target.typeEntries
        fieldsMap := combine source.memberEntries target.memberEntries
        interfaceImpls := combine source.implEntries target.implEntries
        argumentsMap := combine source.argumentEntries target.argumentEntries } := by
  rw [traverseSchemas, traverseTarget, traverseSource, foldl_enter, foldl_enter, (foldl_putSchema ..).1,
    (foldl_putSchema ..).2]
  simp only [DiffState.empty, Option.or_none]
  rfl

end Entries

section Results
variable {ν α : Type} {step : α → Except Panic (List (Change ν))} {entries : List α} {changes : List (Change ν)}

theorem changesOf_isOk_iff :
    (∃ changes, changesOf step entries = .ok changes) ↔ ∀ entry ∈ entries, ∃ part, step entry = .ok part := by
  rw [← exists_mapM_iff]
  constructor
  · rintro ⟨changes, found⟩
    obtain ⟨results, all, _⟩ := bind_eq_ok.mp found
    exact ⟨results, all⟩
  · rintro ⟨results, all⟩
    exact ⟨_, bind_eq_ok.mpr ⟨results, all, rfl⟩⟩

theorem mem_changesOf (found : changesOf step entries = .ok changes) {change : Change ν} :
    change ∈ changes ↔ ∃ entry ∈ entries, ∃ part, step entry = .ok part ∧ change ∈ part := by
  obtain ⟨results, ran, same⟩ := bind_eq_ok.mp found
  cases same
  have all := mapM_eq_ok_iff.mp ran
  rw [mem_flatten]
  constructor
  · rintro ⟨part, member, inPart⟩
    obtain ⟨entry, isEntry, isPart⟩ := exists_left_of_forall₂ all member
    exact ⟨entry, isEntry, part, isPart, inPart⟩
  · rintro ⟨entry, isEntry, part, isPart, inPart⟩
    obtain ⟨result, member, isResult⟩ := exists_right_of_forall₂ all isEntry
    cases Except.ok.inj (isPart.symm.trans isResult)
    exact ⟨part, member, inPart⟩

end Results

section Panics
variable {ν : Type} {document source target : Document ν} {name parent : String} {ty : TypeDefinition ν}
  {definition : Definition ν} {field : String}

theorem mem_types :
    ty ∈ document.types ↔ .type ty ∈ document.definitions ∨ .typeExtension ty ∈ document.definitions := by
  rw [Document.types, mem_flatMap]
  constructor
  · rintro ⟨definition, defined, listed⟩
    cases definition <;> simp_all [Definition.types]
  · rintro (defined | defined)
    · exact ⟨_, defined, mem_cons_self ..⟩
    · exact ⟨_, defined, mem_cons_self ..⟩

theorem mem_typeEntries : (name, definition) ∈ document.typeEntries ↔ definition ∈ document.definitions ∧
      ((∃ ty, (definition = .type ty ∨ definition = .typeExtension ty) ∧ ty.name = name) ∨
        ∃ body, definition = .directive body ∧ body.name = name) := by
  rw [Document.typeEntries, mem_flatMap]
  constructor
  · rintro ⟨origin, defined, listed⟩
    cases origin <;> simp_all [Definition.typeEntries]
  · rintro ⟨defined, ⟨ty, rfl | rfl, rfl⟩ | ⟨body, rfl, rfl⟩⟩
    · exact ⟨_, defined, mem_cons_self ..⟩
    · exact ⟨_, defined, mem_cons_self ..⟩
    · exact ⟨_, defined, mem_cons_self ..⟩

theorem kind_of_definitionOf
    (found : document.definitionOf name = some definition) : ∃ kind, definition.kind = some kind := by
  obtain ⟨_, ⟨ty, rfl | rfl, _⟩ | ⟨body, rfl, _⟩⟩ := mem_typeEntries.mp (mem_of_lastValue found)
  · exact ⟨_, rfl⟩
  · exact ⟨_, rfl⟩
  · exact ⟨_, rfl⟩

theorem exists_typeEntry (isType : ty ∈ document.types) :
    ∃ definition, (ty.name, definition) ∈ document.typeEntries ∧ definition.kind = some ty.body.kind := by
  obtain defined | defined := mem_types.mp isType
  · exact ⟨_, mem_typeEntries.mpr ⟨defined, .inl ⟨ty, .inl rfl, rfl⟩⟩, rfl⟩
  · exact ⟨_, mem_typeEntries.mpr ⟨defined, .inl ⟨ty, .inr rfl, rfl⟩⟩, rfl⟩

theorem definitionOf_isSome (present : (document.memberOf parent name).isSome) :
    (document.definitionOf parent).isSome := by
  obtain ⟨member, found⟩ := Option.isSome_iff_exists.mp present
  obtain ⟨ty, isType, listed⟩ := mem_flatMap.mp (mem_of_lastValue found)
  obtain ⟨own, _, same⟩ := mem_map.mp listed
  cases same
  obtain ⟨definition, isEntry, _⟩ := exists_typeEntry isType
  exact isSome_lastValue isEntry

theorem memberOf_isSome {argument : InputValueDefinition ν}
    (found : document.argumentOf parent field name = some argument) : (document.memberOf parent field).isSome := by
  obtain ⟨ty, isType, listed⟩ := mem_flatMap.mp (mem_of_lastValue found)
  obtain ⟨member, isMember, inMember⟩ := mem_flatMap.mp listed
  obtain ⟨own, _, same⟩ := mem_map.mp inMember
  cases same
  exact isSome_lastValue (mem_flatMap.mpr ⟨ty, isType, mem_map_of_mem isMember⟩)

/-- Members of a type of this kind can be compared. -/
def CanHold (kind : DefinitionKind) (src target : Option (Member ν)) : Prop :=
  kind ≠ .scalar ∧ kind ≠ .directive ∧
    (kind ≠ .enum → kind ≠ .union → ∀ first second, src = some first → target = some second → second.ty = none →
      first.ty = none)

/-- No member belongs to a name that both documents define last as something without members of its sort. -/
def NoConfusion (source target : Document ν) : Prop :=
  ∀ parent name kind, (source.memberOf parent name).isSome ∨ (target.memberOf parent name).isSome →
    source.kindOf parent = some kind → target.kindOf parent = some kind →
    CanHold kind (source.memberOf parent name) (target.memberOf parent name)

theorem memberChanges_isOk_iff {path : Path} {src target : Option (Member ν)} {kind : DefinitionKind}
    (present : src.isSome ∨ target.isSome) :
    (∃ part, memberChanges path src target kind = .ok part) ↔ CanHold kind src target := by
  unfold CanHold
  cases kind <;> cases src <;> cases target <;> simp_all [memberChanges]
  -- what is left are the members that both sides have, for the three kinds with typed members
  all_goals
    split
    · next same => simp [same]
    · split
      · next typed => simp [typed]
      · next untyped => simp_all

/-- What is reported of a member, when its parent is looked up in the two documents. -/
def memberReport (source target : Document ν) (parent name : String) : Except Panic (List (Change ν)) :=
  match source.kindOf parent, target.kindOf parent with
  | some kind, some other =>
    if kind = other then
      memberChanges (.member parent name) (source.memberOf parent name) (target.memberOf parent name) kind
    else .ok []
  | _, _ => .ok []

theorem fieldChanges_eq (present : (source.memberOf parent name).isSome ∨ (target.memberOf parent name).isSome) :
    fieldChanges (combine source.typeEntries target.typeEntries)
      ((parent, name), (source.memberOf parent name, target.memberOf parent name)) =
        memberReport source target parent name := by
  have defined : (source.definitionOf parent).isSome ∨ (target.definitionOf parent).isSome :=
    present.imp definitionOf_isSome definitionOf_isSome
  have looked : (combine source.typeEntries target.typeEntries).get parent =
      some (source.definitionOf parent, target.definitionOf parent) := get_combine defined
  unfold fieldChanges memberReport
  simp only [looked, Document.kindOf]
  cases first : source.definitionOf parent with
  | none =>
    cases second : target.definitionOf parent with
    | none => simp [first, second] at defined
    | some definition => rfl
  | some src =>
    cases second : target.definitionOf parent with
    | none =>
      obtain ⟨kind, isKind⟩ := kind_of_definitionOf first
      simp [isKind]
    | some definition =>
      obtain ⟨kind, isKind⟩ := kind_of_definitionOf first
      obtain ⟨other, isOther⟩ := kind_of_definitionOf second
      simp [Option.bind_some, isKind, isOther]

theorem memberReport_isOk (noConfusion : NoConfusion source target)
    (present : (source.memberOf parent name).isSome ∨ (target.memberOf parent name).isSome) :
    ∃ part, memberReport source target parent name = .ok part := by
  rw [memberReport]
  split
  · next kind other isKind isOther =>
    split
    · next same =>
      subst same
      exact (memberChanges_isOk_iff present).mpr (noConfusion parent name kind present isKind isOther)
    · exact ⟨_, rfl⟩
  · exact ⟨_, rfl⟩

theorem isSome_or_isSome {α β : Type} {first : Option α} {second : Option β}
    (notBoth : first = none → second = none → False) : first.isSome ∨ second.isSome := by
  cases first with
  | some value => exact .inl rfl
  | none =>
    cases second with
    | some value => exact .inr rfl
    | none => exact (notBoth rfl rfl).elim

theorem present_of_memberReport {part : List (Change ν)}
    {change : Change ν} (isPart : memberReport source target parent name = .ok part) (inPart : change ∈ part) :
    (source.memberOf parent name).isSome ∨ (target.memberOf parent name).isSome := by
  refine isSome_or_isSome fun first second => ?_
  rw [memberReport, first, second] at isPart
  split at isPart
  · split at isPart
    · cases isPart
    · cases isPart
      cases inPart
  · cases isPart
    cases inPart

/-- What is reported of a name: its source is gone and its target is new, unless both are of one kind. -/
def definitionReport (source target : Document ν) (name : String) : List (Change ν) :=
  if source.kindOf name = target.kindOf name then [] else
    (source.definitionOf name).elim [] (fun definition => definition.kind.elim [] fun kind =>
      [⟨.definition name, removedKind kind, .definition definition⟩]) ++
    (target.definitionOf name).elim [] (addedType name)

theorem definitionChanges_eq (present : (source.definitionOf name).isSome ∨ (target.definitionOf name).isSome) :
    definitionChanges (name, (source.definitionOf name, target.definitionOf name)) =
      .ok (definitionReport source target name) := by
  unfold definitionChanges definitionReport Document.kindOf
  cases first : source.definitionOf name with
  | none =>
    cases second : target.definitionOf name with
    | none => simp [first, second] at present
    | some definition =>
      obtain ⟨kind, isKind⟩ := kind_of_definitionOf second
      simp [isKind]
  | some src =>
    obtain ⟨kind, isKind⟩ := kind_of_definitionOf first
    cases second : target.definitionOf name with
    | none => simp [removedType, isKind]
    | some definition =>
      by_cases same : src.kind = definition.kind
      · simp [same]
      · rw [isKind] at same
        simp [same, removedType, isKind, bind, Except.bind, pure, Except.pure]

def implementerReport (source target : Document ν) (name : String) : List (Change ν) :=
  implementerChanges (name, (some (source.implementsOf name), some (target.implementsOf name)))

variable [DecidableEq ν]

/-- What is reported of an argument: an argument that goes together with its field is not. -/
def argumentReport (source target : Document ν) (parent field name : String) : List (Change ν) :=
  let path := Path.argument parent field name
  match source.argumentOf parent field name, target.argumentOf parent field name with
  | none, none => []
  | none, some after => [⟨path, .addFieldArgument, .argument after⟩]
  | some _, none => if (target.memberOf parent field).isSome then [⟨path, .removeFieldArgument, .empty⟩] else []
  | some before, some after =>
    (if before.ty ≠ after.ty then [⟨path, .changeFieldArgumentType, .ty after.ty⟩] else []) ++
      defaultChanges path before.defaultValue after.defaultValue

theorem argumentChanges_eq
    (present : (source.argumentOf parent field name).isSome ∨ (target.argumentOf parent field name).isSome) :
    argumentChanges (combine source.memberEntries target.memberEntries)
      ((parent, field, name), (source.argumentOf parent field name, target.argumentOf parent field name)) =
        .ok (argumentReport source target parent field name) := by
  unfold argumentChanges argumentReport
  cases first : source.argumentOf parent field name with
  | none =>
    cases second : target.argumentOf parent field name with
    | none => simp [first, second] at present
    | some after => rfl
  | some before =>
    cases second : target.argumentOf parent field name with
    | some after => rfl
    | none =>
      obtain ⟨member, isMember⟩ := Option.isSome_iff_exists.mp (memberOf_isSome first)
      have looked : (combine source.memberEntries target.memberEntries).get (parent, field) =
          some (source.memberOf parent field, target.memberOf parent field) :=
        get_combine (.inl (memberOf_isSome first))
      rw [isMember] at looked
      simp only [looked]
      cases target.memberOf parent field with
      | none => rfl
      | some other => rfl

end Panics

section Diff
variable {ν : Type} [DecidableEq ν] {source target : Document ν} {changes : List (Change ν)}

/-- The three fallible passes are over the names of either document. -/
theorem diff_eq_ok : diff source target = .ok changes ↔
      ∃ definitions, changesOf definitionChanges (combine source.typeEntries target.typeEntries) = .ok definitions ∧
      ∃ fields, changesOf (fieldChanges (combine source.typeEntries target.typeEntries))
        (combine source.memberEntries target.memberEntries) = .ok fields ∧
      ∃ arguments, changesOf (argumentChanges (combine source.memberEntries target.memberEntries))
        (combine source.argumentEntries target.argumentEntries) = .ok arguments ∧
      sortByKey changeKey (schemaDefinitionChanges (source.schemaOf, target.schemaOf) ++
        (combine source.implEntries target.implEntries).flatMap implementerChanges ++ definitions ++
          fields ++ arguments) =
          changes := by
  unfold diff DiffState.intoChanges
  rw [traverseSchemas_eq]
  simp only [bind_eq_ok, pure, Except.pure, Except.ok.injEq]

theorem diff_isOk_iff : (∃ changes, diff source target = .ok changes) ↔ NoConfusion source target := by
  have definitions :
      ∃ changes, changesOf definitionChanges (combine source.typeEntries target.typeEntries) = .ok changes :=
    changesOf_isOk_iff.mpr (forall_mem_combine.mpr fun name present => ⟨_, definitionChanges_eq present⟩)
  have arguments : ∃ changes, changesOf (argumentChanges (combine source.memberEntries target.memberEntries))
      (combine source.argumentEntries target.argumentEntries) = .ok changes :=
    changesOf_isOk_iff.mpr (forall_mem_combine.mpr fun key present => ⟨_, argumentChanges_eq present⟩)
  -- only the pass over the members can fail
  have fields : (∃ changes, changesOf (fieldChanges (combine source.typeEntries target.typeEntries))
      (combine source.memberEntries target.memberEntries) = .ok changes) ↔ NoConfusion source target := by
    rw [changesOf_isOk_iff, forall_mem_combine]
    constructor
    · intro each parent name kind present isKind isOther
      have reported : ∃ part, fieldChanges (combine source.typeEntries target.typeEntries)
          ((parent, name), (source.memberOf parent name, target.memberOf parent name)) = .ok part :=
            each (parent, name) present
      rw [fieldChanges_eq present, memberReport, isKind, isOther] at reported
      exact (memberChanges_isOk_iff present).mp (by simpa using reported)
    · rintro noConfusion ⟨parent, name⟩ present
      exact (memberReport_isOk noConfusion present).imp fun part reported => (fieldChanges_eq present).trans reported
  obtain ⟨definitions, isDefinitions⟩ := definitions
  obtain ⟨arguments, isArguments⟩ := arguments
  rw [← fields]
  constructor
  · rintro ⟨changes, found⟩
    obtain ⟨_, _, fields, isFields, _⟩ := diff_eq_ok.mp found
    exact ⟨fields, isFields⟩
  · rintro ⟨fields, isFields⟩
    exact ⟨_, diff_eq_ok.mpr ⟨definitions, isDefinitions, fields, isFields, arguments, isArguments, rfl⟩⟩

/-- What is reported of one name, member or argument, or of the schema definition. -/
inductive Report (source target : Document ν) : List (Change ν) → Prop
  | schema : Report source target (schemaDefinitionChanges (source.schemaOf, target.schemaOf))
  | implementer (name : String) : Report source target (implementerReport source target name)
  | definition (name : String) : Report source target (definitionReport source target name)
  | member {parent name : String} {part : List (Change ν)}
    (isPart : memberReport source target parent name = .ok part) :
      Report source target part
  | argument (parent field name : String) : Report source target (argumentReport source target parent field name)

/-- The changes are those of all reports. -/
theorem mem_diff (found : diff source target = .ok changes) {change : Change ν} :
    change ∈ changes ↔ ∃ part, Report source target part ∧ change ∈ part := by
  obtain ⟨definitions, isDefinitions, fields, isFields, arguments, isArguments, rfl⟩ := diff_eq_ok.mp found
  simp only [mem_sortByKey, mem_append, mem_flatMap, mem_changesOf isDefinitions, mem_changesOf isFields,
    mem_changesOf isArguments, exists_mem_combine, or_assoc]
  constructor
  · rintro (inSchema | ⟨name, _, inPart⟩ | ⟨name, present, part, isPart, inPart⟩ | ⟨⟨parent, name⟩, present, part,
      isPart, inPart⟩ |
      ⟨⟨parent, field, name⟩, present, part, isPart, inPart⟩)
    · exact ⟨_, .schema, inSchema⟩
    · exact ⟨_, .implementer name, inPart⟩
    · cases Except.ok.inj (isPart.symm.trans (definitionChanges_eq present))
      exact ⟨_, .definition name, inPart⟩
    · exact ⟨part, .member ((fieldChanges_eq present).symm.trans isPart), inPart⟩
    · cases Except.ok.inj (isPart.symm.trans (argumentChanges_eq present))
      exact ⟨_, .argument parent field name, inPart⟩
  · rintro ⟨part, report, inPart⟩
    -- nothing is reported of what neither document has
    cases report with
    | schema => exact .inl inPart
    | implementer name =>
      refine .inr (.inl ⟨name, isSome_or_isSome fun first second => ?_, inPart⟩)
      simp [implementerReport, implementerChanges, Document.implementsOf, first, second] at inPart
    | definition name =>
      have present : (source.definitionOf name).isSome ∨ (target.definitionOf name).isSome := by
        refine isSome_or_isSome fun first second => ?_
        simp [definitionReport, Document.kindOf, first, second] at inPart
      exact .inr (.inr (.inl ⟨name, present, _, definitionChanges_eq present, inPart⟩))
    | @member parent name _ isPart =>
      have present := present_of_memberReport isPart inPart
      exact .inr (.inr (.inr (.inl ⟨(parent, name), present, part, (fieldChanges_eq present).trans isPart, inPart⟩)))
    | argument parent field name =>
      have present : (source.argumentOf parent field name).isSome ∨ (target.argumentOf parent field name).isSome := by
        refine isSome_or_isSome fun first second => ?_
        simp [argumentReport, first, second] at inPart
      exact .inr (.inr (.inr (.inr ⟨(parent, field, name), present, _, argumentChanges_eq present, inPart⟩)))

end Diff
end Grafbase.SchemaDiff
