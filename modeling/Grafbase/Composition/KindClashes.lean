import Grafbase.Composition.Compose
import Grafbase.Composition.TypeComposition

/-! Definitions of one name that are of different kinds.

Only the routine for objects compares kinds. When another definition comes
first, a clash is noticed only through another fault that the routine chosen
for that definition happens to look for. What each routine looks for is said
for groups of any kinds.
-/

set_option autoImplicit false
namespace Grafbase.Composition
open Foundation List

/-! ## Groups -/

variable {subgraphs : List Subgraph}

theorem mem_items_strings {subgraph : Subgraph} (member : subgraph ∈ subgraphs) {string : String}
    (interned : string ∈ subgraph.interned) : string ∈ (strings subgraphs).items := by
  have listed : string ∈ builtinScalars ++ subgraphs.flatMap Subgraph.interned :=
    mem_append_right _ (mem_flatMap.mpr ⟨subgraph, member, interned⟩)
  exact IndexSet.mem_ofList.mpr listed

theorem stringId_inj {first second : String} (known : first ∈ (strings subgraphs).items)
    (same : stringId subgraphs first = stringId subgraphs second) : first = second :=
  (idxOf_inj known).mp same

/-- A definition together with a subgraph of the list that holds it. -/
def Placed (subgraphs : List Subgraph) (walker : DefinitionWalker) : Prop :=
  walker.subgraph ∈ subgraphs ∧ walker.definition ∈ walker.subgraph.definitions

variable {walker : DefinitionWalker} {α : Type} {definitions : List DefinitionWalker}

theorem mem_allDefinitions : walker ∈ allDefinitions subgraphs ↔ Placed subgraphs walker := by
  constructor
  · intro member
    obtain ⟨subgraph, inSubgraphs, member⟩ := mem_flatMap.mp member
    obtain ⟨definition, inSubgraph, rfl⟩ := mem_map.mp member
    exact ⟨inSubgraphs, inSubgraph⟩
  · rintro ⟨inSubgraphs, inSubgraph⟩
    exact mem_flatMap.mpr ⟨walker.subgraph, inSubgraphs, mem_map.mpr ⟨walker.definition, inSubgraph, rfl⟩⟩

/-- The definitions of a name that are not root types, in the order of their subgraphs. -/
def definitionGroup (subgraphs : List Subgraph) (name : String) : List DefinitionWalker :=
  (allDefinitions subgraphs).filter fun definition =>
    definition.name = name && !definition.subgraph.isRootType definition.name

theorem mem_definitionGroups {group : List DefinitionWalker} : group ∈ definitionGroups subgraphs ↔
      ∃ definition ∈ allDefinitions subgraphs, group = definitionGroup subgraphs definition.name := by
  have ranked : Ranked DefinitionWalker.name (stringId subgraphs) (allDefinitions subgraphs) := by
    intro first firstMember second _ same
    obtain ⟨inSubgraphs, inSubgraph⟩ := mem_allDefinitions.mp firstMember
    exact stringId_inj (mem_items_strings inSubgraphs (first.subgraph.definitionsInterned _ inSubgraph)) same
  simp only [definitionGroups, mem_map, mem_groupByRank ranked, definitionGroup]
  constructor
  · rintro ⟨_, ⟨definition, member, rfl⟩, rfl⟩
    exact ⟨definition, member, by simp [filter_filter, Bool.and_comm]⟩
  · rintro ⟨definition, member, rfl⟩
    exact ⟨_, ⟨definition, member, rfl⟩, by simp [filter_filter, Bool.and_comm]⟩

def fieldsNamed (definitions : List DefinitionWalker) (name : String) : List FieldWalker :=
  definitions.filterMap fun definition => definition.findField name

theorem mem_fields {field : FieldWalker}
    (member : field ∈ walker.fields subgraphs) : field.field ∈ walker.definition.fields := by
  obtain ⟨held, isHeld, rfl⟩ := mem_map.mp member
  exact mem_sortByRank.mp isHeld

theorem filter_fields (subgraphs : List Subgraph) (walker : DefinitionWalker) (name : String) :
    (walker.fields subgraphs).filter (fun field => field.name = name) = (walker.findField name).toList :=
  filter_map_sortByRank walker.definition.fieldsDistinct FieldWalker.name (.mk walker) (fun _ => rfl) name

theorem mem_fieldsNamed (subgraphs : List Subgraph) {field : FieldWalker} {name : String} :
    field ∈ fieldsNamed definitions name ↔
      (field ∈ definitions.flatMap fun definition => definition.fields subgraphs) ∧ field.name = name := by
  rw [fieldsNamed, ← filter_flatMap_owned (fun definition _ => filter_fields subgraphs definition)]
  simp

theorem mem_fieldGroups
    (placed : ∀ definition ∈ definitions, Placed subgraphs definition) {group : List FieldWalker} :
    group ∈ fieldGroups subgraphs definitions ↔
      ∃ name, fieldsNamed definitions name ≠ [] ∧ group = fieldsNamed definitions name := by
  refine mem_groupByRank_flatMap (fun definition _ => filter_fields subgraphs definition) ?_
  intro first firstMember second _ same
  obtain ⟨definition, inDefinitions, inDefinition⟩ := mem_flatMap.mp firstMember
  obtain ⟨inSubgraphs, inSubgraph⟩ := placed definition inDefinitions
  exact stringId_inj (mem_items_strings inSubgraphs
    (definition.subgraph.fieldsInterned _ inSubgraph _ (mem_fields inDefinition))) same

/-- Arguments are stored under their names, which ingestion has interned. -/
def ArgumentsIngested (subgraphs : List Subgraph) : Prop :=
  ∀ subgraph ∈ subgraphs, ∀ definition ∈ subgraph.definitions, ∀ field ∈ definition.fields,
    (field.arguments.map Argument.name).Nodup ∧ ∀ argument ∈ field.arguments, argument.name ∈ subgraph.interned

def argumentsNamed (fields : List FieldWalker) (name : String) : List FieldArgumentWalker :=
  fields.filterMap fun field => field.argumentByName name

def FieldWalker.Placed (subgraphs : List Subgraph) (field : FieldWalker) : Prop :=
  Composition.Placed subgraphs field.parentDefinition ∧ field.field ∈ field.parentDefinition.definition.fields

theorem mem_argumentGroups (ingested : ArgumentsIngested subgraphs) {fields : List FieldWalker}
    (placed : ∀ field ∈ fields, field.Placed subgraphs) {group : List FieldArgumentWalker} :
    group ∈ groupByRank FieldArgumentWalker.name (stringId subgraphs)
      (fields.flatMap fun field => field.arguments subgraphs) ↔
      ∃ name, argumentsNamed fields name ≠ [] ∧ group = argumentsNamed fields name := by
  have distinct {field : FieldWalker} (member : field ∈ fields) := by
    obtain ⟨⟨inSubgraphs, inSubgraph⟩, inDefinition⟩ := placed field member
    exact ingested _ inSubgraphs _ inSubgraph _ inDefinition
  refine mem_groupByRank_flatMap (fun field member name =>
    filter_map_sortByRank (distinct member).1 FieldArgumentWalker.name (.mk field) (fun _ => rfl) name) ?_
  intro first firstMember second _ same
  obtain ⟨field, inFields, inField⟩ := mem_flatMap.mp firstMember
  obtain ⟨argument, sorted, rfl⟩ := mem_map.mp inField
  exact stringId_inj (mem_items_strings (placed field inFields).1.1
    ((distinct inFields).2 argument (mem_sortByRank.mp sorted))) same

/-! ## Faults -/

/-- Some type does not fit what the ones before it come to. -/
def DoNotFit (pick : FieldType → FieldType → FieldType) : List FieldType → Prop
  | [] => False
  | first :: rest => ∃ front type back, rest = front ++ type :: back ∧ ¬ FieldType.Fits (front.foldl pick first) type

/-- The less required of two types. -/
def outputType (self other : FieldType) : FieldType := if other.isRequired then self else other

/-- The more required of two types. -/
def inputType (self other : FieldType) : FieldType := if other.isRequired then other else self

variable (subgraphs)

/-- A required field is not in all definitions, or the types of a field that is in all of them do not fit. -/
def InputFault (definitions : List DefinitionWalker) : Prop :=
  ∃ name, fieldsNamed definitions name ≠ [] ∧
    ((∃ definition ∈ definitions, definition.findField name = none) ∧
        (∃ field ∈ fieldsNamed definitions name, field.type.isRequired) ∨
      (∀ definition ∈ definitions, definition.findField name ≠ none) ∧
        DoNotFit inputType ((fieldsNamed definitions name).map FieldWalker.type))

/-- A type that is inaccessible where it is used. -/
def HiddenType (type : FieldType) (subgraph : Subgraph) : Prop :=
  ∃ definition, type.definition subgraph = some definition ∧ definition.directives.inaccessible = true

/-- Defaults differ; a required argument is not on all fields; or it is on all of them, and its types do not fit or are
inaccessible, which the argument is not. -/
def ArgumentFault (fields : List FieldWalker) (arguments : List FieldArgumentWalker) (name : String) : Prop :=
  (∃ first rest, arguments.filter (fun argument => argument.argument.default.isSome) = first :: rest ∧
    ∃ other ∈ rest, (other.argument.default == first.argument.default) = false) ∨
  (∃ field ∈ fields, field.argumentByName name = none) ∧ (∃ argument ∈ arguments, argument.type.isRequired) ∨
  (∀ field ∈ fields, field.argumentByName name ≠ none) ∧
    (DoNotFit inputType (arguments.map FieldArgumentWalker.type) ∨
      (∃ argument ∈ arguments, HiddenType argument.type argument.field.parentDefinition.subgraph) ∧
        ∀ argument ∈ arguments, argument.directives.inaccessible = false)

/-- A field overrides one of its own subgraph, or one that overrides another. -/
def OverrideFault (fields : List FieldWalker) : Prop :=
  ∃ field ∈ fields, ∃ override, field.directives.overrideDirective = some override ∧
    (override.source = field.subgraphName ∨ override.source ≠ field.subgraphName ∧ ∃ source,
      fields.find? (fun other => other.subgraphName = override.source) = some source ∧
        source.directives.overrideDirective.isSome)

def FieldWalker.owns (field : FieldWalker) : Bool :=
  !(field.directives.shareable || field.directives.external || field.isPartOfKey ||
    field.directives.overrideDirective.isSome)

/-- The fields of one name: two of them own it in an object that is not shareable, one has an inaccessible type and is
not inaccessible itself, an argument or an override is at fault, or the types do not fit. -/
def FieldFault (objectIsShareable : Bool) (fields : List FieldWalker) : Prop :=
  (objectIsShareable = false ∧ 1 < (fields.filter FieldWalker.owns).length) ∨
  (∃ field ∈ fields, field.directives.inaccessible = false ∧ HiddenType field.type field.parentDefinition.subgraph) ∨
  (∃ name, argumentsNamed fields name ≠ [] ∧ ArgumentFault fields (argumentsNamed fields name) name) ∨
  OverrideFault fields ∨ DoNotFit outputType (fields.map FieldWalker.type)

/-- A definition is not an object, only some are entities, a shareable object lacks a field, or a field is at fault. -/
def ObjectFault (definitions : List DefinitionWalker) : Prop :=
  let isShareable := definitions.any fun definition => definition.directives.shareable
  (∃ definition ∈ definitions, definition.kind ≠ .object) ∨
  (∃ one ∈ definitions, ∃ other ∈ definitions, one.isEntity ≠ other.isEntity) ∨
  (isShareable = true ∧ ∃ definition ∈ definitions, ∃ name, fieldsNamed definitions name ≠ [] ∧
    (∀ field ∈ fieldsNamed definitions name, field.directives.inaccessible = false) ∧
      definition.findField name = none) ∨
  ∃ name, fieldsNamed definitions name ≠ [] ∧ FieldFault isShareable (fieldsNamed definitions name)

/-- A field is shareable, its types do not fit, or an implementer has it in no subgraph. -/
def InterfaceFault (interfaceName : String) (definitions : List DefinitionWalker) : Prop :=
  ∃ name, fieldsNamed definitions name ≠ [] ∧
    ((∃ field ∈ fieldsNamed definitions name, field.directives.shareable) ∨
      DoNotFit outputType ((fieldsNamed definitions name).map FieldWalker.type) ∨
      ∃ implementer ∈ implementersForInterface subgraphs interfaceName, ∀ definition, Placed subgraphs definition →
        definition.name = implementer → definition.findField name = none)

/-- The first definition with other values than the first one. -/
def FirstOther (first : DefinitionWalker) (definitions : List DefinitionWalker) (other : DefinitionWalker) : Prop :=
  ∃ front back, definitions = front ++ other :: back ∧
    (∀ earlier ∈ front, earlier.enumValues subgraphs = first.enumValues subgraphs) ∧
      other.enumValues subgraphs ≠ first.enumValues subgraphs

/-- The enum is used in inputs, and no value is in all definitions; or, if it is also returned, the first definition
with other values than the first one does not merely continue them. -/
def EnumFault (first : DefinitionWalker) (definitions : List DefinitionWalker) : Prop :=
  enumIsUsedInInput subgraphs first.name = true ∧
    if enumIsUsedInReturnPosition subgraphs first.name then
      ∃ other, FirstOther subgraphs first definitions other ∧
        ¬ first.enumValues subgraphs <+: other.enumValues subgraphs
    else ∀ value, ∃ definition ∈ definitions, value ∉ definition.definition.enumValues

/-- The enum is used in both positions, and the first definition with other values continues those of the first. -/
def EnumAborts (first : DefinitionWalker) (definitions : List DefinitionWalker) : Prop :=
  enumIsUsedInInput subgraphs first.name = true ∧ enumIsUsedInReturnPosition subgraphs first.name = true ∧
    ∃ other, FirstOther subgraphs first definitions other ∧ first.enumValues subgraphs <+: other.enumValues subgraphs

def entityInterface? (definitions : List DefinitionWalker) : Option DefinitionWalker :=
  definitions.find? fun definition => definition.kind = .interface

def implementersBeside (interfaceName : String) (interface : DefinitionWalker) : List String :=
  (interface.subgraph.interfaceImplementers subgraphs interfaceName).map DefinitionWalker.name

/-- The first key is missing or differs from the expected one. -/
def KeyDiffers (definition : DefinitionWalker) (expectedKey : Key) : Prop :=
  ∀ key ∈ definition.definition.keys.head?, (key.selectionSet == expectedKey.selectionSet) = false

/-- What the rules of entity interfaces reject. -/
inductive EntityFault (name : String) (definitions : List DefinitionWalker) : Prop where
  | noInterface : entityInterface? definitions = none → EntityFault name definitions
  | implementers {interface other implementer} : interface ∈ definitions → interface.kind = .interface →
      other ∈ definitions → other.kind = .interface → implementer ∈ implementersBeside subgraphs name other →
      implementer ∉ implementersBeside subgraphs name interface → EntityFault name definitions
  | markedInterface {interface} : 2 ≤ (definitions.filter fun definition => definition.kind = .interface).length →
      interface ∈ definitions → interface.kind = .interface → interface.directives.interfaceObject = true →
      EntityFault name definitions
  | missingKey {interface} : entityInterface? definitions = some interface → interface.definition.keys = [] →
      EntityFault name definitions
  | unmarkedObject {object} : object ∈ definitions → object.kind = .object → object.directives.interfaceObject = false →
      EntityFault name definitions
  | objectKey {interface object expectedKey} : entityInterface? definitions = some interface →
      interface.definition.keys.head? = some expectedKey → object ∈ definitions → object.kind = .object →
      KeyDiffers object expectedKey → EntityFault name definitions
  | ownOverride {interface object front back override} {field : FieldWalker} :
      entityInterface? definitions = some interface → definitions = front ++ object :: back → object.kind = .object →
      field ∈ object.fields subgraphs → interface.findField field.name = none →
      (∀ earlier ∈ front, earlier.kind = .object → earlier.findField field.name = none) →
      field.directives.overrideDirective = some override → override.source = object.subgraphName →
      EntityFault name definitions
  | implementerKey {interface implementer expectedKey} : entityInterface? definitions = some interface →
      interface.definition.keys.head? = some expectedKey →
      implementer ∈ interface.subgraph.interfaceImplementers subgraphs name → KeyDiffers implementer expectedKey →
      EntityFault name definitions

/-- The fault that the routine chosen from the first definition looks for. -/
def Faulty : List DefinitionWalker → Prop
  | [] => False
  | first :: rest =>
    if isEntityInterface first then EntityFault subgraphs first.name (first :: rest)
    else
      match first.kind with
      | .object => ObjectFault (first :: rest)
      | .union => False
      | .inputObject => InputFault (first :: rest)
      | .interface => InterfaceFault subgraphs first.name (first :: rest)
      | .scalar => False
      | .enum => EnumFault subgraphs first (first :: rest)

/-- Merging the definitions reads past the end of the values of an enum. -/
def Aborts : List DefinitionWalker → Prop
  | [] => False
  | first :: rest => isEntityInterface first = false ∧ first.kind = .enum ∧ EnumAborts subgraphs first (first :: rest)

/-! ## What the routines push -/

variable {subgraphs}

theorem flatMap_ne_nil {β : Type} {items : List α} {step : α → List β} :
    items.flatMap step ≠ [] ↔ ∃ item ∈ items, step item ≠ [] := by
  simp [flatMap_eq_nil_iff]

theorem append_ne_nil {front back : List α} : front ++ back ≠ [] ↔ front ≠ [] ∨ back ≠ [] := by
  rw [Ne, append_eq_nil_iff, not_and_or]

theorem message_ne_nil {condition : Prop} [Decidable condition] {message : α} :
    (if condition then [message] else []) ≠ [] ↔ condition := by
  split <;> simp_all

theorem several_ne_nil {others : List α} {reported : Diagnostics} :
    (if others.isEmpty then [] else reported) ≠ [] ↔ others ≠ [] ∧ reported ≠ [] := by
  cases others <;> simp

/-- What is missing in some places is treated apart from what is in all of them. -/
theorem intersection_ne_nil {β : Type} {first : α} {rest : List α} (lookup : α → Option β)
    {missing present : Diagnostics} :
    (if !((lookup first).isSome && ((first :: rest).drop 1).all fun place => (lookup place).isSome) then missing
      else present) ≠ [] ↔ (∃ place ∈ first :: rest, lookup place = none) ∧ missing ≠ [] ∨
        (∀ place ∈ first :: rest, lookup place ≠ none) ∧ present ≠ [] := by
  have inAll : ((lookup first).isSome && ((first :: rest).drop 1).all fun place => (lookup place).isSome) = true ↔
      ∀ place ∈ first :: rest, lookup place ≠ none := by simp [Option.isSome_iff_ne_none]
  have notInAll : (∃ place ∈ first :: rest, lookup place = none) ↔ ¬ ∀ place ∈ first :: rest, lookup place ≠ none := by
    simp only [not_forall, not_not, exists_prop]
  rw [notInAll, ← inAll]
  cases (lookup first).isSome && _ <;> simp

theorem collectOverrides_single (field : FieldWalker) : collectOverrides [field] ≠ [] ↔
      ∃ override, field.directives.overrideDirective = some override ∧ override.source = field.subgraphName := by
  cases overridden : field.directives.overrideDirective with
  | none => simp [collectOverrides, overridden]
  | some override =>
    by_cases own : override.source = field.subgraphName
    · simp [collectOverrides, overridden, own]
    · simp [collectOverrides, overridden, own, Ne.symm own]

section Entities
variable {name : String} {interfaceDef object : DefinitionWalker} {expectedKey : Key}

theorem checkInterfaces_ne_nil {interfaces : List DefinitionWalker} :
    checkInterfaces subgraphs name interfaces ≠ [] ↔ ∃ interface ∈ interfaces,
      (∃ other ∈ interfaces, ∃ implementer ∈ implementersBeside subgraphs name other,
        implementer ∉ implementersBeside subgraphs name interface) ∨ interface.directives.interfaceObject = true := by
  unfold checkInterfaces
  simp only [flatMap_ne_nil, append_ne_nil, message_ne_nil]
  refine exists_congr fun interface => and_congr_right fun _ => or_congr ?_ Iff.rfl
  rw [Ne, filter_eq_nil_iff, not_forall]
  simp only [mem_sortByRank, mem_dedup, mem_flatMap, decide_not, Bool.not_eq_true', decide_eq_false_iff_not,
    not_forall, not_not, implementersBeside]
  constructor
  · rintro ⟨implementer, ⟨other, isOther, member⟩, missing⟩
    exact ⟨other, isOther, implementer, member, missing⟩
  · rintro ⟨other, isOther, implementer, member, missing⟩
    exact ⟨implementer, ⟨other, isOther, member⟩, missing⟩

variable {first : DefinitionWalker}

theorem checkImplementerKey_ne_nil :
    checkImplementerKey first expectedKey object ≠ [] ↔ KeyDiffers object expectedKey := by
  unfold checkImplementerKey KeyDiffers
  cases object.definition.keys.head? with
  | none => simp
  | some key => cases key.selectionSet == expectedKey.selectionSet <;> simp

theorem checkInterfaceObject_ne_nil : checkInterfaceObject first interfaceDef expectedKey object ≠ [] ↔
      object.directives.interfaceObject = false ∨ KeyDiffers object expectedKey := by
  unfold checkInterfaceObject KeyDiffers
  rw [append_ne_nil, message_ne_nil]
  cases object.definition.keys.head? with
  | none => simp
  | some key => cases key.selectionSet == expectedKey.selectionSet <;> simp

theorem findField_eq_none_iff_notMem :
    walker.findField name = none ↔ name ∉ walker.definition.fields.map Field.name := by
  simp [DefinitionWalker.findField, find?_eq_none]

theorem findField_eq_none (subgraphs : List Subgraph) :
    walker.findField name = none ↔ ∀ field ∈ walker.fields subgraphs, field.name ≠ name := by
  rw [findField_eq_none_iff_notMem]
  simp [DefinitionWalker.fields, mem_sortByRank, FieldWalker.name]

theorem checkInterfaceObjects_ne_nil {taken : List String} {objects : List DefinitionWalker} :
    checkInterfaceObjects subgraphs first interfaceDef expectedKey taken objects ≠ [] ↔
      ∃ front object back, objects = front ++ object :: back ∧
        ((object.directives.interfaceObject = false ∨ KeyDiffers object expectedKey) ∨
          ∃ field ∈ object.fields subgraphs, field.name ∉ taken ∧
            (∀ earlier ∈ front, earlier.findField field.name = none) ∧ collectOverrides [field] ≠ []) := by
  induction objects generalizing taken with
  | nil => simp [checkInterfaceObjects]
  | cons object rest ih =>
    rw [checkInterfaceObjects, append_ne_nil, append_ne_nil, checkInterfaceObject_ne_nil, flatMap_ne_nil, ih]
    -- A name is free after this object when it was free before and the object does not have it.
    have free (name : String) : name ∉ taken ++ ((object.fields subgraphs).filter fun field => field.name ∉ taken).map
        FieldWalker.name ↔ name ∉ taken ∧ object.findField name = none := by
      rw [findField_eq_none subgraphs]
      simp only [mem_append, mem_map, mem_filter, decide_eq_true_eq, not_or, not_exists, not_and, and_imp]
      constructor
      · rintro ⟨notTaken, notAdded⟩
        exact ⟨notTaken, fun field member same => notAdded field member (same ▸ notTaken) same⟩
      · rintro ⟨notTaken, missing⟩
        exact ⟨notTaken, fun field member _ same => missing field member same⟩
    constructor
    · rintro ((here | ⟨field, member, reported⟩) | ⟨front, later, back, rfl, fault⟩)
      · exact ⟨[], object, rest, rfl, .inl here⟩
      · obtain ⟨inFields, notTaken⟩ := mem_filter.mp member
        exact ⟨[], object, rest, rfl, .inr ⟨field, inFields, by simpa using notTaken, by simp, reported⟩⟩
      · refine ⟨object :: front, later, back, rfl, fault.imp_right ?_⟩
        rintro ⟨field, member, notTaken, fresh, reported⟩
        obtain ⟨notTaken, missing⟩ := (free field.name).mp notTaken
        exact ⟨field, member, notTaken, forall_mem_cons.mpr ⟨missing, fresh⟩, reported⟩
    · rintro ⟨_ | ⟨earlier, front⟩, later, back, split, fault⟩
      · obtain ⟨rfl, rfl⟩ := List.cons.inj split
        refine .inl (fault.imp_right ?_)
        rintro ⟨field, member, notTaken, _, reported⟩
        exact ⟨field, mem_filter.mpr ⟨member, by simpa using notTaken⟩, reported⟩
      · obtain ⟨rfl, rfl⟩ := List.cons.inj split
        refine .inr ⟨front, later, back, rfl, fault.imp_right ?_⟩
        rintro ⟨field, member, notTaken, fresh, reported⟩
        obtain ⟨missing, fresh⟩ := forall_mem_cons.mp fresh
        exact ⟨field, member, (free field.name).mpr ⟨notTaken, missing⟩, fresh, reported⟩

theorem filter_eq_split {keep : α → Bool} {items front back : List α} {item : α}
    (split : items.filter keep = front ++ item :: back) :
    ∃ before after, items = before ++ item :: after ∧ before.filter keep = front ∧ keep item = true := by
  obtain ⟨before, others, rfl, filtered, rest⟩ := filter_eq_append_iff.mp split
  obtain ⟨skipped, after, rfl, dropped, kept, _⟩ := filter_eq_cons_iff.mp rest
  refine ⟨before ++ skipped, after, by simp, ?_, kept⟩
  rw [filter_append, filtered, filter_eq_nil_iff.mpr dropped, append_nil]

/-- The rules of entity interfaces push something exactly for a group with one of their faults. -/
theorem mergeEntityInterfaceDefinitions_ne_nil {definitions : List DefinitionWalker} :
    mergeEntityInterfaceDefinitions subgraphs first definitions ≠ [] ↔
      EntityFault subgraphs first.name definitions := by
  unfold mergeEntityInterfaceDefinitions
  have head : (definitions.filter fun definition => definition.kind = .interface).head? =
      entityInterface? definitions :=
    head?_filter
  have members (interface : DefinitionWalker) :
      interface ∈ definitions.filter (fun definition => definition.kind = .interface) ↔
        interface ∈ definitions ∧ interface.kind = .interface := by simp
  cases interfaces : definitions.filter (fun definition => definition.kind = .interface) with
  | nil =>
    rw [interfaces] at head
    exact ⟨fun _ => .noInterface head.symm, fun _ => by simp⟩
  | cons interfaceDef others =>
    rw [interfaces] at head members
    have isInterface : entityInterface? definitions = some interfaceDef := head.symm
    have unique {interface : DefinitionWalker} (found : entityInterface? definitions = some interface) :
        interface = interfaceDef := Option.mem_unique found isInterface
    have objects {object : DefinitionWalker} (member : object ∈ definitions) (kind : object.kind = .object) :
        ∃ front back, definitions.filter (fun definition => definition.kind = .object) = front ++ object :: back :=
      append_of_mem (mem_filter.mpr ⟨member, by simpa using kind⟩)
    rw [append_ne_nil, several_ne_nil, checkInterfaces_ne_nil]
    constructor
    · rintro (⟨several, interface, listed, reported⟩ | reported)
      · obtain ⟨member, kind⟩ := (members interface).mp listed
        obtain ⟨other, isOther, implementer, implements, missing⟩ | marked := reported
        · obtain ⟨otherMember, otherKind⟩ := (members other).mp isOther
          exact .implementers member kind otherMember otherKind implements missing
        · refine .markedInterface ?_ member kind marked
          rw [interfaces]
          simpa [Nat.one_le_iff_ne_zero] using several
      · cases keyed : interfaceDef.definition.keys.head? with
        | none => exact .missingKey isInterface (head?_eq_none_iff.mp keyed)
        | some expectedKey =>
          simp only [keyed] at reported
          rw [append_ne_nil, checkInterfaceObjects_ne_nil, flatMap_ne_nil] at reported
          obtain ⟨front, object, back, split, fault⟩ | ⟨implementer, member, differs⟩ := reported
          · obtain ⟨before, after, rfl, rfl, isObject⟩ := filter_eq_split split
            have isObject : object.kind = .object := by simpa using isObject
            rcases fault with (unmarked | differs) | ⟨field, member, free, fresh, overridden⟩
            · exact .unmarkedObject (by simp) isObject unmarked
            · exact .objectKey isInterface keyed (by simp) isObject differs
            · obtain ⟨override, overridden, own⟩ := (collectOverrides_single field).mp overridden
              refine .ownOverride isInterface rfl isObject member (findField_eq_none_iff_notMem.mpr free)
                ?_ overridden ?_
              · exact fun earlier inFront kind => fresh earlier (mem_filter.mpr ⟨inFront, by simpa using kind⟩)
              · obtain ⟨_, _, rfl⟩ := mem_map.mp member
                exact own
          · exact .implementerKey isInterface keyed member (checkImplementerKey_ne_nil.mp differs)
    · -- Without a key on the first interface something is pushed whatever the fault.
      intro fault
      cases keyed : interfaceDef.definition.keys.head? with
      | none => exact .inr (by simp)
      | some expectedKey =>
        rw [append_ne_nil, checkInterfaceObjects_ne_nil, flatMap_ne_nil]
        cases fault with
        | noInterface missing => simp [isInterface] at missing
        | @implementers interface other implementer member kind otherMember otherKind implements missing =>
          have listed := (members interface).mpr ⟨member, kind⟩
          have otherListed := (members other).mpr ⟨otherMember, otherKind⟩
          refine .inl ⟨?_, interface, listed, .inl ⟨other, otherListed, implementer, implements, missing⟩⟩
          rintro rfl
          rw [mem_singleton] at listed otherListed
          exact missing (listed ▸ otherListed ▸ implements)
        | @markedInterface interface several member kind marked =>
          refine .inl ⟨?_, interface, (members _).mpr ⟨member, kind⟩, .inr marked⟩
          rintro rfl
          simp [interfaces] at several
        | missingKey found missing => simp [← unique found, missing] at keyed
        | @unmarkedObject object member kind unmarked =>
          obtain ⟨front, back, split⟩ := objects member kind
          exact .inr (.inl ⟨front, object, back, split, .inl (.inl unmarked)⟩)
        | @objectKey interface object expected found key member kind differs =>
          obtain rfl := unique found
          obtain rfl := Option.mem_unique key keyed
          obtain ⟨front, back, split⟩ := objects member kind
          exact .inr (.inl ⟨front, object, back, split, .inl (.inr differs)⟩)
        | @ownOverride interface object front back override field found split kind member free fresh overridden own =>
          obtain rfl := unique found
          refine .inr (.inl ⟨front.filter (fun definition => definition.kind = .object), object,
            back.filter (fun definition => definition.kind = .object), ?_, .inr ⟨field, member,
            findField_eq_none_iff_notMem.mp free, ?_, (collectOverrides_single field).mpr ⟨override, overridden, ?_⟩⟩⟩)
          · rw [split, filter_append, filter_cons_of_pos (by simpa using kind)]
          · intro earlier inFront
            obtain ⟨inFront, isObject⟩ := mem_filter.mp inFront
            exact fresh earlier inFront (by simpa using isObject)
          · obtain ⟨_, _, rfl⟩ := mem_map.mp member
            exact own
        | @implementerKey interface implementer expected found key member differs =>
          obtain rfl := unique found
          obtain rfl := Option.mem_unique key keyed
          exact .inr (.inr ⟨implementer, member, checkImplementerKey_ne_nil.mpr differs⟩)

end Entities

section Types
variable {composeFn : FieldType → FieldType → Option FieldType} {pick : FieldType → FieldType → FieldType}
  {combine : Bool → Bool → Bool}

theorem composeStep_fold_error {site : Type} {typeOf : site → FieldType}
    (picks : FieldType.Picks composeFn pick combine)
    (a : site) (accumulated : FieldType) (rest : List site) :
    (∃ conflict, rest.foldlM (composeStep typeOf composeFn) (a, accumulated) = .error conflict) ↔
      ∃ front type back, rest.map typeOf = front ++ type :: back ∧
        ¬ FieldType.Fits (front.foldl pick accumulated) type := by
  induction rest generalizing accumulated with
  | nil => simp [pure, Except.pure]
  | cons b rest ih =>
    rw [foldlM_cons, composeStep, picks.composed, map_cons]
    by_cases fits : FieldType.Fits accumulated (typeOf b)
    · rw [if_pos fits]
      refine (ih (pick accumulated (typeOf b))).trans ⟨?_, ?_⟩
      · rintro ⟨front, type, back, split, conflict⟩
        exact ⟨typeOf b :: front, type, back, by rw [split, cons_append], conflict⟩
      · rintro ⟨_ | ⟨first, front⟩, type, back, split, conflict⟩
        · obtain ⟨rfl, _⟩ := List.cons.inj split
          exact absurd fits conflict
        · obtain ⟨rfl, remaining⟩ := List.cons.inj split
          exact ⟨front, type, back, remaining, conflict⟩
    · rw [if_neg fits]
      exact ⟨fun _ => ⟨[], typeOf b, rest.map typeOf, rfl, fits⟩, fun _ => ⟨(a, b), rfl⟩⟩

theorem composeFieldTypes_ne_nil (picks : FieldType.Picks composeFn pick combine) (fields : List FieldWalker) :
    (composeFieldTypes composeFn fields).2 ≠ [] ↔ DoNotFit pick (fields.map FieldWalker.type) := by
  cases fields with
  | nil => simp [composeFieldTypes, DoNotFit]
  | cons first rest =>
    rw [map_cons, DoNotFit, ← composeStep_fold_error picks first first.type rest, composeFieldTypes, composeTypes]
    cases rest.foldlM (composeStep FieldWalker.type composeFn) (first, first.type) with
    | ok composed => simp
    | error conflict => simp

theorem picks_outputType : FieldType.Picks FieldType.composeForOutput outputType and := FieldType.picks_composeForOutput

theorem picks_inputType : FieldType.Picks FieldType.composeForInput inputType or := FieldType.picks_composeForInput

end Types

section Fields
variable {definitions : List DefinitionWalker} {name : String} {rest : List DefinitionWalker}

theorem name_of_mem_fieldsNamed {field : FieldWalker} (member : field ∈ fieldsNamed definitions name) :
    field.name = name := by
  obtain ⟨definition, _, found⟩ := mem_filterMap.mp member
  obtain ⟨held, isHeld, rfl⟩ := Option.map_eq_some_iff.mp found
  have named : held.name = name := by simpa using find?_some isHeld
  exact named

variable {first : DefinitionWalker}

theorem flatMap_fieldGroups_ne_nil {β : Type} (placed : ∀ definition ∈ definitions, Placed subgraphs definition)
    {step : List FieldWalker → List β} : (fieldGroups subgraphs definitions).flatMap step ≠ [] ↔
      ∃ name, fieldsNamed definitions name ≠ [] ∧ step (fieldsNamed definitions name) ≠ [] := by
  simp only [flatMap_ne_nil, mem_fieldGroups placed]
  constructor
  · rintro ⟨_, ⟨name, present, rfl⟩, pushed⟩
    exact ⟨name, present, pushed⟩
  · rintro ⟨name, present, pushed⟩
    exact ⟨_, ⟨name, present, rfl⟩, pushed⟩

theorem mergeInputObjectDefinitions_ne_nil (placed : ∀ definition ∈ first :: rest, Placed subgraphs definition) :
    mergeInputObjectDefinitions subgraphs first (first :: rest) ≠ [] ↔ InputFault (first :: rest) := by
  rw [mergeInputObjectDefinitions, flatMap_fieldGroups_ne_nil placed]
  refine exists_congr fun name => and_congr_right fun present => ?_
  rw [← composeFieldTypes_ne_nil picks_inputType]
  obtain ⟨field, others, isFields⟩ := exists_cons_of_ne_nil present
  obtain rfl : field.name = name := name_of_mem_fieldsNamed (isFields ▸ mem_cons_self)
  rw [isFields, mergeInputField]
  refine (intersection_ne_nil (DefinitionWalker.findField · field.name)).trans (or_congr_left
    (and_congr_right fun _ => ?_))
  rw [← find?_isSome]
  cases (field :: others).find? fun field => field.type.isRequired <;> simp

theorem mem_definitionByName {definition : DefinitionWalker} :
    definition ∈ (subgraphs.filterMap fun subgraph => subgraph.definitionByName name) ↔
      Placed subgraphs definition ∧ definition.name = name := by
  rw [mem_filterMap]
  constructor
  · rintro ⟨subgraph, inSubgraphs, found⟩
    obtain ⟨held, isHeld, rfl⟩ := Option.map_eq_some_iff.mp found
    obtain ⟨inSubgraph, named⟩ := (find?_eq_some_iff_of_nodup subgraph.definitionsDistinct).mp isHeld
    exact ⟨⟨inSubgraphs, inSubgraph⟩, named⟩
  · rintro ⟨⟨inSubgraphs, inSubgraph⟩, rfl⟩
    refine ⟨definition.subgraph, inSubgraphs, Option.map_eq_some_iff.mpr ⟨definition.definition, ?_, rfl⟩⟩
    exact (find?_eq_some_iff_of_nodup definition.subgraph.definitionsDistinct).mpr ⟨inSubgraph, rfl⟩

theorem checkImplementers_ne_nil {interfaceName : String} {fieldNames : List String} :
    checkImplementers subgraphs interfaceName fieldNames ≠ [] ↔
      ∃ name ∈ fieldNames, ∃ implementer ∈ implementersForInterface subgraphs interfaceName,
        ∀ definition, Placed subgraphs definition → definition.name = implementer →
          definition.findField name = none := by
  have unimplemented (implementer name : String) :
      ((subgraphs.filterMap fun subgraph => subgraph.definitionByName implementer).any
        fun definition => (definition.findField name).isSome) = false ↔
        ∀ definition, Placed subgraphs definition → definition.name = implementer →
          definition.findField name = none := by
    simp only [any_eq_false, mem_definitionByName, and_imp, Option.not_isSome_iff_eq_none]
  rw [checkImplementers, flatMap_ne_nil]
  constructor
  · rintro ⟨implementer, isImplementer, reported⟩
    obtain ⟨message, member⟩ := exists_mem_of_ne_nil _ reported
    obtain ⟨name, inNames, isMessage⟩ := mem_filterMap.mp member
    split at isMessage
    · cases isMessage
    · next absent => exact ⟨name, inNames, implementer, isImplementer, (unimplemented _ _).mp (by simpa using absent)⟩
  · rintro ⟨name, inNames, implementer, isImplementer, missing⟩
    refine ⟨implementer, isImplementer, fun nothing => ?_⟩
    have silent := filterMap_eq_nil_iff.mp nothing name inNames
    simp [(unimplemented implementer name).mpr missing] at silent

theorem mergeInterfaceDefinitions_ne_nil (placed : ∀ definition ∈ definitions, Placed subgraphs definition) :
    mergeInterfaceDefinitions subgraphs first definitions ≠ [] ↔ InterfaceFault subgraphs first.name definitions := by
  -- The names the implementers are checked for are those of some field of the interface.
  have names (name : String) : name ∈ (fieldGroups subgraphs definitions).filterMap
      (fun fields => fields.head?.map FieldWalker.name) ↔ fieldsNamed definitions name ≠ [] := by
    rw [mem_filterMap]
    constructor
    · rintro ⟨fields, member, isName⟩
      obtain ⟨grouped, present, rfl⟩ := (mem_fieldGroups placed).mp member
      obtain ⟨field, isHead, rfl⟩ := Option.map_eq_some_iff.mp isName
      rwa [name_of_mem_fieldsNamed (mem_of_mem_head? isHead)]
    · intro present
      obtain ⟨field, others, isFields⟩ := exists_cons_of_ne_nil present
      refine ⟨_, (mem_fieldGroups placed).mpr ⟨name, present, rfl⟩, ?_⟩
      rw [isFields, head?_cons, Option.map_some, name_of_mem_fieldsNamed (isFields ▸ mem_cons_self)]
  simp only [mergeInterfaceDefinitions, append_ne_nil, flatMap_fieldGroups_ne_nil placed,
    checkImplementers_ne_nil, names,
    InterfaceFault, ← exists_or, ← and_or_left, ← or_assoc]
  refine exists_congr fun name => and_congr_right fun present => or_congr_left ?_
  obtain ⟨field, others, isFields⟩ := exists_cons_of_ne_nil present
  rw [isFields, ← composeFieldTypes_ne_nil picks_outputType, mergeInterfaceField, append_ne_nil, message_ne_nil,
    any_eq_true, composeOutputFieldTypes]

end Fields

section Objects
variable {definitions : List DefinitionWalker} {fields : List FieldWalker} {first : FieldWalker}
  {arguments : List FieldArgumentWalker} {name : String}

theorem composeFieldArgumentDefaults_ne_nil : composeFieldArgumentDefaults arguments ≠ [] ↔
    ∃ first rest, arguments.filter (fun argument => argument.argument.default.isSome) = first :: rest ∧
      ∃ other ∈ rest, (other.argument.default == first.argument.default) = false := by
  unfold composeFieldArgumentDefaults
  cases arguments.filter fun argument => argument.argument.default.isSome with
  | nil => simp
  | cons first rest => simp [filterMap_eq_nil_iff]

theorem hiddenType_iff {type : FieldType} {subgraph : Subgraph} :
    (type.definition subgraph).elim false (fun definition => definition.directives.inaccessible) = true ↔
      HiddenType type subgraph := by
  unfold HiddenType
  cases type.definition subgraph <;> simp

theorem mergeFieldArgument_ne_nil (present : arguments ≠ []) (named : ∀ argument ∈ arguments, argument.name = name)
    (others : List FieldWalker) : mergeFieldArgument first (first :: others) arguments ≠ [] ↔
      ArgumentFault (first :: others) arguments name := by
  obtain ⟨argument, rest, rfl⟩ := exists_cons_of_ne_nil present
  obtain rfl : argument.name = name := named argument (by simp)
  rw [mergeFieldArgument, ArgumentFault, append_ne_nil, composeFieldArgumentDefaults_ne_nil]
  refine or_congr_right ((intersection_ne_nil (FieldWalker.argumentByName · argument.name)).trans (or_congr
    (and_congr_right fun _ => ?_) (and_congr_right fun _ => ?_)))
  · rw [← find?_isSome]
    cases (argument :: rest).find? fun argument => argument.type.isRequired <;> simp
  · rw [map_cons, DoNotFit, ← composeStep_fold_error picks_inputType argument argument.type rest, composeArgumentTypes,
      composeTypes]
    cases rest.foldlM (composeStep FieldArgumentWalker.type FieldType.composeForInput) (argument, argument.type) with
    | error conflict => exact iff_of_true (by simp) (.inl ⟨conflict, rfl⟩)
    | ok composed =>
      refine message_ne_nil.trans ?_
      simp only [Bool.and_eq_true, any_eq_true, Bool.not_eq_true', any_eq_false, hiddenType_iff, reduceCtorEq,
        exists_false, false_or, Bool.not_eq_true]

theorem mergeFieldArguments_ne_nil (ingested : ArgumentsIngested subgraphs) {others : List FieldWalker}
    (placed : ∀ field ∈ first :: others, field.Placed subgraphs) :
    mergeFieldArguments subgraphs first (first :: others) ≠ [] ↔ ∃ name, argumentsNamed (first :: others) name ≠ [] ∧
      ArgumentFault (first :: others) (argumentsNamed (first :: others) name) name := by
  have named {name : String} : ∀ argument ∈ argumentsNamed (first :: others) name, argument.name = name := by
    intro argument member
    obtain ⟨field, _, found⟩ := mem_filterMap.mp member
    obtain ⟨held, isHeld, rfl⟩ := Option.map_eq_some_iff.mp found
    have isNamed : held.name = name := by simpa using find?_some isHeld
    exact isNamed
  simp only [mergeFieldArguments, flatMap_ne_nil, mem_argumentGroups ingested placed]
  constructor
  · rintro ⟨_, ⟨name, present, rfl⟩, pushed⟩
    exact ⟨name, present, (mergeFieldArgument_ne_nil present named others).mp pushed⟩
  · rintro ⟨name, present, fault⟩
    exact ⟨_, ⟨name, present, rfl⟩, (mergeFieldArgument_ne_nil present named others).mpr fault⟩

theorem collectOverrides_ne_nil : collectOverrides fields ≠ [] ↔ OverrideFault fields := by
  rw [collectOverrides, flatMap_ne_nil, OverrideFault]
  refine exists_congr fun field => and_congr_right fun _ => ?_
  cases field.directives.overrideDirective with
  | none => simp
  | some override =>
    by_cases own : override.source = field.subgraphName
    · simp [own]
    · cases found : fields.find? fun other => other.subgraphName = override.source with
      | none => simp [own, found]
      | some source => simp [own, found, Option.isSome_iff_ne_none]

theorem composeObjectFields_ne_nil (ingested : ArgumentsIngested subgraphs) {others : List FieldWalker}
    (placed : ∀ field ∈ first :: others, field.Placed subgraphs) (objectIsShareable : Bool) :
    composeObjectFields subgraphs objectIsShareable first (first :: others) ≠ [] ↔
      FieldFault objectIsShareable (first :: others) := by
  simp only [composeObjectFields, append_ne_nil, message_ne_nil, mergeFieldArguments_ne_nil ingested placed,
    collectOverrides_ne_nil, composeOutputFieldTypes, composeFieldTypes_ne_nil picks_outputType, FieldFault, or_assoc]
  refine or_congr ?_ (or_congr_left ?_)
  · rw [Bool.and_eq_true, Bool.not_eq_true', decide_eq_true_eq]
    exact Iff.rfl
  · simp [hiddenType_iff]

theorem validateShareableObjectFieldsMatch_ne_nil : validateShareableObjectFieldsMatch subgraphs definitions ≠ [] ↔
    ∃ definition ∈ definitions, ∃ name, fieldsNamed definitions name ≠ [] ∧
      (∀ field ∈ fieldsNamed definitions name, field.directives.inaccessible = false) ∧
        definition.findField name = none := by
  have expected (name : String) : (name ∈ ((definitions.flatMap fun definition => definition.fields subgraphs).map
      FieldWalker.name).dedup ∧ name ∉ ((definitions.flatMap fun definition => definition.fields subgraphs).filter
        fun field => field.directives.inaccessible).map FieldWalker.name) ↔ fieldsNamed definitions name ≠ [] ∧
          ∀ field ∈ fieldsNamed definitions name, field.directives.inaccessible = false := by
    constructor
    · rintro ⟨member, visible⟩
      obtain ⟨field, inFields, named⟩ := mem_map.mp (mem_dedup.mp member)
      refine ⟨ne_nil_of_mem ((mem_fieldsNamed subgraphs).mpr ⟨inFields, named⟩), fun other isOther => ?_⟩
      obtain ⟨inFields, named⟩ := (mem_fieldsNamed subgraphs).mp isOther
      by_contra hidden
      exact visible (mem_map.mpr ⟨other, mem_filter.mpr ⟨inFields, by simpa using hidden⟩, named⟩)
    · rintro ⟨present, visible⟩
      obtain ⟨field, member⟩ := exists_mem_of_ne_nil _ present
      obtain ⟨inFields, named⟩ := (mem_fieldsNamed subgraphs).mp member
      refine ⟨mem_dedup.mpr (mem_map.mpr ⟨field, inFields, named⟩), fun hidden => ?_⟩
      obtain ⟨other, isHidden, named⟩ := mem_map.mp hidden
      obtain ⟨inFields, isHidden⟩ := mem_filter.mp isHidden
      exact absurd isHidden (by simp [visible other ((mem_fieldsNamed subgraphs).mpr ⟨inFields, named⟩)])
  rw [validateShareableObjectFieldsMatch, flatMap_ne_nil]
  refine exists_congr fun definition => and_congr_right fun _ => ?_
  simp only [Ne, filterMap_eq_nil_iff, mem_filter, mem_sortByRank, decide_eq_true_eq, expected, not_forall]
  refine exists_congr fun name => ?_
  cases definition.findField name <;> simp

theorem composeFieldGroups_ne_nil (ingested : ArgumentsIngested subgraphs)
    (placed : ∀ definition ∈ definitions, Placed subgraphs definition) (objectIsShareable : Bool) :
    composeFieldGroups subgraphs objectIsShareable definitions ≠ [] ↔
      ∃ name, fieldsNamed definitions name ≠ [] ∧ FieldFault objectIsShareable (fieldsNamed definitions name) := by
  rw [composeFieldGroups, flatMap_fieldGroups_ne_nil placed]
  refine exists_congr fun name => and_congr_right fun present => ?_
  have placedFields : ∀ field ∈ fieldsNamed definitions name, field.Placed subgraphs := by
    intro field member
    obtain ⟨definition, inDefinitions, found⟩ := mem_filterMap.mp member
    obtain ⟨held, isHeld, rfl⟩ := Option.map_eq_some_iff.mp found
    exact ⟨placed definition inDefinitions, mem_of_find?_eq_some isHeld⟩
  obtain ⟨first, others, isFields⟩ := exists_cons_of_ne_nil present
  rw [isFields] at placedFields ⊢
  exact composeObjectFields_ne_nil ingested placedFields objectIsShareable

theorem mergeObjectDefinitions_ne_nil (ingested : ArgumentsIngested subgraphs) {first : DefinitionWalker}
    {rest : List DefinitionWalker} (placed : ∀ definition ∈ first :: rest, Placed subgraphs definition) :
    mergeObjectDefinitions subgraphs first (first :: rest) ≠ [] ↔ ObjectFault (first :: rest) := by
  unfold mergeObjectDefinitions ObjectFault
  cases found : (first :: rest).find? fun definition => definition.kind ≠ .object with
  | some incompatible =>
    have differs : incompatible.kind ≠ .object := by simpa using find?_some found
    exact iff_of_true (by simp) (.inl ⟨incompatible, mem_of_find?_eq_some found, differs⟩)
  | none =>
    have objects : ¬ ∃ definition ∈ first :: rest, definition.kind ≠ .object := by
      rintro ⟨definition, member, differs⟩
      exact find?_eq_none.mp found definition member (by simpa using differs)
    simp only [append_ne_nil, message_ne_nil, composeFieldGroups_ne_nil ingested placed, objects, false_or, or_assoc]
    refine or_congr ?_ (or_congr_left ?_)
    · rw [any_eq_true]
      constructor
      · rintro ⟨other, member, differs⟩
        exact ⟨other, member, first, by simp, by simpa using differs⟩
      · rintro ⟨one, isOne, other, isOther, differ⟩
        by_cases same : one.isEntity = first.isEntity
        · exact ⟨other, isOther, by simpa [← same] using differ.symm⟩
        · exact ⟨one, isOne, by simpa using same⟩
    · split
      · next isShareable => exact validateShareableObjectFieldsMatch_ne_nil.trans (and_iff_right isShareable).symm
      · next isShareable => exact iff_of_false (by simp) fun fault => isShareable fault.1

end Objects

section Enums
variable {first : DefinitionWalker}

/-- The comparison aborts when the slice is a proper beginning of what it is compared with. -/
theorem isSliceMatch_eq (slice : List String) (index : Nat) (bounded : index ≤ slice.length) (items : List String) :
    isSliceMatch slice index items = if slice.drop index = items then .ok true
      else if slice.drop index <+: items then .error .outOfBounds else .ok false := by
  induction items generalizing index with
  | nil =>
    rw [isSliceMatch]
    by_cases atEnd : index = slice.length
    · simp [atEnd]
    · have inside : ¬ slice.length ≤ index := fun past => atEnd (Nat.le_antisymm bounded past)
      simp [atEnd, inside]
  | cons item rest ih =>
    rw [isSliceMatch]
    rcases Nat.eq_or_lt_of_le bounded with rfl | inside
    · simp
    · rw [getElem?_eq_getElem inside, drop_eq_getElem_cons inside]
      dsimp only
      by_cases same : slice[index] = item
      · rw [if_neg (by simpa using same), ih (index + 1) inside]
        simp [same]
      · rw [if_pos same, if_neg fun equal => same (List.cons.inj equal).1,
          if_neg fun isBeginning => same (cons_prefix_cons.mp isBeginning).1]

variable (definitions : List DefinitionWalker)

/-- The loop ends at the first definition with other values: with an abort when those of the first one go on there. -/
theorem mergeExactlyMatching_eq : mergeExactlyMatching subgraphs first definitions =
    match definitions.find? fun definition => first.enumValues subgraphs ≠ definition.enumValues subgraphs with
    | none => .ok []
    | some definition => if first.enumValues subgraphs <+: definition.enumValues subgraphs then .error .outOfBounds
      else .ok ["The enum " ++ first.name ++ " should match exactly in all subgraphs, but it does not"] := by
  induction definitions with
  | nil => rfl
  | cons definition rest ih =>
    rw [mergeExactlyMatching, isSliceMatch_eq _ 0 (Nat.zero_le _), drop_zero]
    by_cases same : first.enumValues subgraphs = definition.enumValues subgraphs
    · rw [if_pos same, find?_cons_of_neg (by simpa using same)]
      exact ih
    · rw [if_neg same, find?_cons_of_pos (by simpa using same)]
      dsimp only
      split <;> rfl

theorem foldl_filter {β : Type} (keep : β → α → Bool) (items : List β) (values : List α) :
    items.foldl (fun values item => values.filter (keep item)) values =
      values.filter fun value => items.all fun item => keep item value := by
  induction items generalizing values with
  | nil => simp
  | cons item rest ih => simp [ih, filter_filter, Bool.and_comm]

variable {definitions : List DefinitionWalker} {rest : List DefinitionWalker}

theorem mem_intersectionValues {value : String} :
    value ∈ intersectionValues subgraphs first (first :: rest) ↔
      ∀ definition ∈ first :: rest, value ∈ definition.definition.enumValues := by
  rw [intersectionValues, foldl_filter, mem_filter, all_eq_true]
  simp [DefinitionWalker.enumValues, mem_sortByRank]

theorem mergeIntersection_iff : mergeIntersection subgraphs first (first :: rest) ≠ [] ↔
    ¬ ∃ value, ∀ definition ∈ first :: rest, value ∈ definition.definition.enumValues := by
  rw [mergeIntersection, message_ne_nil, List.isEmpty_iff, List.eq_nil_iff_forall_not_mem, not_exists]
  exact forall_congr' fun value => not_congr mem_intersectionValues

theorem firstOther_iff {other : DefinitionWalker} : FirstOther subgraphs first definitions other ↔
    definitions.find? (fun definition => first.enumValues subgraphs ≠ definition.enumValues subgraphs) =
      some other := by
  rw [find?_eq_some_iff_append]
  simp only [FirstOther, decide_not, Bool.not_eq_true', decide_eq_false_iff_not, Bool.not_not, decide_eq_true_eq, ne_eq,
    @eq_comm _ (first.enumValues subgraphs)]
  exact ⟨fun ⟨front, back, split, before, differs⟩ => ⟨differs, front, back, split, before⟩,
    fun ⟨differs, front, back, split, before⟩ => ⟨front, back, split, before, differs⟩⟩

/-- The comparison of an enum in both positions, by the first definition with other values. -/
theorem mergeExactlyMatching_cases :
    (∀ other, ¬ FirstOther subgraphs first definitions other) ∧
      mergeExactlyMatching subgraphs first definitions = .ok [] ∨
    ∃ other, FirstOther subgraphs first definitions other ∧ mergeExactlyMatching subgraphs first definitions =
      if first.enumValues subgraphs <+: other.enumValues subgraphs then .error .outOfBounds
      else .ok ["The enum " ++ first.name ++ " should match exactly in all subgraphs, but it does not"] := by
  rw [mergeExactlyMatching_eq]
  cases found : definitions.find? fun definition => first.enumValues subgraphs ≠ definition.enumValues subgraphs with
  | none => exact .inl ⟨fun other isOther => (by cases found.symm.trans (firstOther_iff.mp isOther)), rfl⟩
  | some other => exact .inr ⟨other, firstOther_iff.mpr found, rfl⟩

theorem FirstOther.unique {one other : DefinitionWalker} (isOne : FirstOther subgraphs first definitions one)
    (isOther : FirstOther subgraphs first definitions other) : one = other :=
  Option.mem_unique (firstOther_iff.mp isOne) (firstOther_iff.mp isOther)

theorem mergeEnumDefinitions_fatal_iff :
    (∃ messages, mergeEnumDefinitions subgraphs first (first :: rest) = .ok messages ∧ messages ≠ []) ↔
      EnumFault subgraphs first (first :: rest) := by
  unfold mergeEnumDefinitions EnumFault
  cases enumIsUsedInInput subgraphs first.name <;> cases enumIsUsedInReturnPosition subgraphs first.name
  · simp
  · simp
  · simp only [Except.ok.injEq, exists_eq_left', mergeIntersection_iff, not_exists, not_forall, true_and]
    simp
  · simp only [true_and, if_true]
    obtain ⟨nothing, ran⟩ | ⟨other, isOther, ran⟩ := @mergeExactlyMatching_cases subgraphs first (first :: rest)
    · simp [ran, nothing]
    · rw [ran]
      split
      · next continues =>
        refine iff_of_false (by simp) ?_
        rintro ⟨_, isAnother, breaks⟩
        exact breaks (isOther.unique isAnother ▸ continues)
      · next breaks => exact iff_of_true ⟨_, rfl, by simp⟩ ⟨other, isOther, breaks⟩

theorem mergeEnumDefinitions_ok_iff :
    (∃ messages, mergeEnumDefinitions subgraphs first definitions = .ok messages) ↔
      ¬ EnumAborts subgraphs first definitions := by
  unfold mergeEnumDefinitions EnumAborts
  cases enumIsUsedInInput subgraphs first.name <;> cases enumIsUsedInReturnPosition subgraphs first.name
  · simp
  · simp
  · simp
  · simp only [true_and]
    obtain ⟨nothing, ran⟩ | ⟨other, isOther, ran⟩ := @mergeExactlyMatching_cases subgraphs first definitions
    · simp [ran, nothing]
    · rw [ran]
      split
      · next continues => exact iff_of_false (by simp) (not_not.mpr ⟨other, isOther, continues⟩)
      · next breaks =>
        refine iff_of_true ⟨_, rfl⟩ ?_
        rintro ⟨_, isAnother, continues⟩
        exact breaks (isOther.unique isAnother ▸ continues)

end Enums

/-! ## Clashes -/

/-- Two definitions of the group have different kinds. -/
def KindsClash (group : List DefinitionWalker) : Prop := ∃ first ∈ group, ∃ second ∈ group, first.kind ≠ second.kind

/-- The clash entity interfaces allow: one interface with a key, the rest objects marked with `@interfaceObject`. -/
def EntityInterfaceClash (group : List DefinitionWalker) : Prop :=
  (∃ interface, group.filter (fun definition => definition.kind = .interface) = [interface] ∧
      interface.definition.keys ≠ []) ∧
    ∀ definition ∈ group, definition.kind ≠ .interface →
      definition.kind = .object ∧ definition.directives.interfaceObject = true

variable (subgraphs) (name : String)

/-- A fatal diagnostic is pushed for the definitions of a name. -/
def PushesFatal : Prop :=
  ∃ messages, composeGroup subgraphs (definitionGroup subgraphs name) = .ok messages ∧ messages ≠ []

variable {name}

/-- Definitions of one name whose kinds clash are rejected, and whether a diagnostic is pushed for the definitions of a
name does not depend on the order of the subgraphs. -/
structure RejectsClash : Prop where
  rejected : ∀ name, KindsClash (definitionGroup subgraphs name) →
    ¬ EntityInterfaceClash (definitionGroup subgraphs name) → PushesFatal subgraphs name ∧
      ∃ messages, composeSubgraphs subgraphs = .ok messages ∧ messages ≠ []
  invariant : ∀ name, ∀ reordered : List Subgraph, reordered.Perm subgraphs →
    (PushesFatal reordered name ↔ PushesFatal subgraphs name)

variable {subgraphs} {group : List DefinitionWalker}

theorem placed_of_mem_definitionGroup {definition : DefinitionWalker}
    (member : definition ∈ definitionGroup subgraphs name) : Placed subgraphs definition ∧ definition.name = name := by
  obtain ⟨inAll, kept⟩ := mem_filter.mp member
  exact ⟨mem_allDefinitions.mp inAll, by simpa using (Bool.and_eq_true_iff.mp kept).1⟩

/-- A fatal diagnostic needs a fault the routine of the first definition looks for. -/
theorem pushesFatal_iff (ingested : ArgumentsIngested subgraphs) :
    PushesFatal subgraphs name ↔ Faulty subgraphs (definitionGroup subgraphs name) := by
  have placed : ∀ definition ∈ definitionGroup subgraphs name, Placed subgraphs definition :=
    fun _ member => (placed_of_mem_definitionGroup member).1
  unfold PushesFatal
  generalize definitionGroup subgraphs name = group at placed
  have pushed {messages : Diagnostics} :
      (∃ pushed, (Except.ok messages : Checked Diagnostics) = .ok pushed ∧ pushed ≠ []) ↔
      messages ≠ [] := by simp
  cases group with
  | nil => simp [composeGroup, Faulty]
  | cons first rest =>
    rw [composeGroup, Faulty]
    split
    · exact pushed.trans mergeEntityInterfaceDefinitions_ne_nil
    · cases first.kind with
      | object => exact pushed.trans (mergeObjectDefinitions_ne_nil ingested placed)
      | union | scalar => exact pushed.trans (by simp)
      | inputObject => exact pushed.trans (mergeInputObjectDefinitions_ne_nil placed)
      | interface => exact pushed.trans (mergeInterfaceDefinitions_ne_nil placed)
      | enum => exact mergeEnumDefinitions_fatal_iff

theorem composeGroup_ok_iff :
    (∃ messages, composeGroup subgraphs group = .ok messages) ↔ ¬ Aborts subgraphs group := by
  cases group with
  | nil => exact iff_of_true ⟨_, rfl⟩ not_false
  | cons first rest =>
    rw [composeGroup, Aborts]
    split
    · next isEntity => simp [isEntity]
    · next isEntity =>
      cases isKind : first.kind with
      | enum => exact mergeEnumDefinitions_ok_iff.trans (by simp [isEntity])
      | _ => simp

theorem mem_definitionGroups_of_mem {definition : DefinitionWalker}
    (member : definition ∈ definitionGroup subgraphs name) :
    definitionGroup subgraphs name ∈ definitionGroups subgraphs := by
  obtain ⟨placed, named⟩ := placed_of_mem_definitionGroup member
  exact mem_definitionGroups.mpr ⟨definition, mem_allDefinitions.mpr placed, by rw [named]⟩

/-- Composition ends unless the definitions of some name abort it. -/
theorem composeSubgraphs_ok_iff : (∃ messages, composeSubgraphs subgraphs = .ok messages) ↔
    ∀ name, ¬ Aborts subgraphs (definitionGroup subgraphs name) := by
  have groups : (∃ messages, composeSubgraphs subgraphs = .ok messages) ↔
      ∃ groups, (definitionGroups subgraphs).mapM (composeGroup subgraphs) = .ok groups := by
    simp only [composeSubgraphs, bind_eq_ok]
    exact ⟨fun ⟨_, groups, mapped, _⟩ => ⟨groups, mapped⟩, fun ⟨groups, mapped⟩ => ⟨_, groups, mapped, rfl⟩⟩
  simp only [groups, exists_mapM_iff, composeGroup_ok_iff]
  constructor
  · intro ends name aborts
    cases isGroup : definitionGroup subgraphs name with
    | nil =>
      rw [isGroup] at aborts
      exact aborts
    | cons definition rest =>
      exact ends _ (mem_definitionGroups_of_mem (isGroup ▸ mem_cons_self : definition ∈ _)) aborts
  · rintro ends group listed
    obtain ⟨definition, _, rfl⟩ := mem_definitionGroups.mp listed
    exact ends definition.name

theorem composeSubgraphs_ne_nil {messages : Diagnostics} (ran : composeSubgraphs subgraphs = .ok messages)
    (fatal : PushesFatal subgraphs name) : messages ≠ [] := by
  rintro rfl
  obtain ⟨pushed, composedTo, nonEmpty⟩ := fatal
  cases isGroup : definitionGroup subgraphs name with
  | nil =>
    rw [isGroup] at composedTo
    cases composedTo
    exact nonEmpty rfl
  | cons definition rest =>
    have listed := mem_definitionGroups_of_mem (isGroup ▸ mem_cons_self : definition ∈ definitionGroup subgraphs name)
    obtain ⟨groups, mapped, collected⟩ := bind_eq_ok.mp ran
    obtain ⟨messages, inGroups, composed⟩ := mem_of_mapM mapped listed
    obtain rfl := Except.ok.inj (composed.symm.trans composedTo)
    have nothing := (append_eq_nil_iff.mp (Except.ok.inj collected)).1
    exact nonEmpty (flatten_eq_nil_iff.mp nothing messages inGroups)

/-- Clashes of kinds are rejected, in every order alike, exactly when the routine chosen from the first definition finds
a fault of its own and no enum aborts the composition, and when what the routines look for is there in every order of
the subgraphs or in none. -/
theorem rejectsClash_iff (subgraphs : List Subgraph) (ingested : ArgumentsIngested subgraphs) : RejectsClash subgraphs ↔
      (∀ name, KindsClash (definitionGroup subgraphs name) → ¬ EntityInterfaceClash (definitionGroup subgraphs name) →
        Faulty subgraphs (definitionGroup subgraphs name) ∧
          ∀ other, ¬ Aborts subgraphs (definitionGroup subgraphs other)) ∧
      ∀ name, ∀ reordered : List Subgraph, reordered.Perm subgraphs →
        (Faulty reordered (definitionGroup reordered name) ↔ Faulty subgraphs (definitionGroup subgraphs name)) := by
  have ofPerm {reordered : List Subgraph} (perm : reordered.Perm subgraphs) : ArgumentsIngested reordered :=
    fun subgraph member => ingested subgraph (perm.mem_iff.mp member)
  constructor
  · rintro ⟨rejected, invariant⟩
    refine ⟨fun name clash forbidden => ?_, fun name reordered perm => ?_⟩
    · obtain ⟨fatal, messages, ran, -⟩ := rejected name clash forbidden
      exact ⟨(pushesFatal_iff ingested).mp fatal, composeSubgraphs_ok_iff.mp ⟨messages, ran⟩⟩
    · rw [← pushesFatal_iff (ofPerm perm), ← pushesFatal_iff ingested]
      exact invariant name reordered perm
  · rintro ⟨faulty, invariant⟩
    refine ⟨fun name clash forbidden => ?_, fun name reordered perm => ?_⟩
    · obtain ⟨fault, ends⟩ := faulty name clash forbidden
      have fatal := (pushesFatal_iff ingested).mpr fault
      obtain ⟨messages, ran⟩ := composeSubgraphs_ok_iff.mpr ends
      exact ⟨fatal, messages, ran, composeSubgraphs_ne_nil ran fatal⟩
    · rw [pushesFatal_iff (ofPerm perm), pushesFatal_iff ingested]
      exact invariant name reordered perm

/-- `type Query { item: Item }` and `type Item { id: Int }`. -/
def objectItem : Subgraph :=
  ⟨"catalog", [objectWith "Query" ⟨"item", ⟨"Item", false, []⟩, .none, [], false⟩,
      objectWith "Item" ⟨"id", ⟨"Int", false, []⟩, .none, [], false⟩],
    some "Query", none, none, [], ["Query", "item", "Item", "id", "Int"], by decide, by decide, by decide, by decide⟩

/-- `input Item { key: Int! }`. -/
def inputItem : Subgraph :=
  let item : Definition := ⟨"Item", .inputObject, .none, [], false, [⟨"key", ⟨"Int", true, []⟩, .none, [], false⟩], [],
    by decide, nodup_nil, by simp, by simp⟩
  ⟨"search", [item], none, none, none, [], ["Item", "key", "Int"], by decide, by decide, by decide, by decide⟩

/-- An object and an input object with a required field of its own are told apart in both orders. -/
theorem rejectsClash_object_and_input : RejectsClash [objectItem, inputItem] := by
  -- The only name with definitions that are not root types.
  have others {name : String} (differs : name ≠ "Item") {subgraphs : List Subgraph}
      (inside : subgraphs ⊆ [objectItem, inputItem]) : definitionGroup subgraphs name = [] := by
    refine filter_eq_nil_iff.mpr fun definition member => ?_
    obtain ⟨subgraph, definition⟩ := definition
    obtain ⟨inSubgraphs, inSubgraph⟩ := mem_allDefinitions.mp member
    rcases mem_pair.mp (inside inSubgraphs) with rfl | rfl
    · rcases mem_pair.mp inSubgraph with rfl | rfl
      · simp [DefinitionWalker.name, objectWith, Subgraph.isRootType, objectItem]
      · simp [DefinitionWalker.name, objectWith, differs.symm]
    · obtain rfl := mem_singleton.mp inSubgraph
      simp [DefinitionWalker.name, differs.symm]
  have objectFirst : Faulty [objectItem, inputItem] (definitionGroup [objectItem, inputItem] "Item") :=
    .inl ⟨_, mem_cons_of_mem _ mem_cons_self, by decide⟩
  have inputFirst : Faulty [inputItem, objectItem] (definitionGroup [inputItem, objectItem] "Item") :=
    ⟨"key", by decide +kernel, .inl ⟨⟨_, mem_cons_of_mem _ mem_cons_self, by decide +kernel⟩, _,
      mem_cons_self, by decide +kernel⟩⟩
  refine (rejectsClash_iff [objectItem, inputItem] ?_).mpr ⟨fun name clash _ => ?_, fun name reordered perm => ?_⟩
  · unfold ArgumentsIngested
    decide
  · by_cases isItem : name = "Item"
    · subst isItem
      refine ⟨objectFirst, fun other => ?_⟩
      by_cases isItem : other = "Item"
      · subst isItem
        exact fun aborts => absurd aborts.2.1 (by decide)
      · rw [others isItem (Subset.refl _)]
        exact not_false
    · obtain ⟨definition, member, _⟩ := clash
      rw [others isItem (Subset.refl _)] at member
      cases member
  · by_cases isItem : name = "Item"
    · subst isItem
      obtain ⟨one, other, rfl⟩ := length_eq_two.mp perm.length_eq
      rcases mem_pair.mp (perm.subset mem_cons_self) with rfl | rfl
      · rw [singleton_perm_singleton.mp ((perm_cons _).mp perm)]
      · rw [singleton_perm_singleton.mp ((perm_cons _).mp (perm.trans (.swap ..)))]
        exact iff_of_true inputFirst objectFirst
    · rw [others isItem perm.subset, others isItem (Subset.refl _)]
      exact Iff.rfl

/-- `type Query { today: Date }` and `scalar Date`. -/
def scalarDate : Subgraph :=
  let today : Field := ⟨"today", ⟨"Date", false, []⟩, .none, [], false⟩
  let date : Definition := ⟨"Date", .scalar, .none, [], false, [], [], nodup_nil, nodup_nil, by simp, by simp⟩
  ⟨"catalog", [objectWith "Query" today, date], some "Query", none, none, [], ["Query", "today", "Date"],
    by decide, by decide, by decide, by decide⟩

/-- `type Date { day: Int }`. -/
def objectDate : Subgraph :=
  let day : Field := ⟨"day", ⟨"Int", false, []⟩, .none, [], false⟩
  ⟨"calendar", [objectWith "Date" day], none, none, none, [], ["Date", "day", "Int"], by decide, by decide, by decide,
    by decide⟩

/-- A scalar and an object of one name compose without a diagnostic when the scalar comes first. -/
theorem composeSubgraphs_accepts_scalar_with_object : composeSubgraphs [scalarDate, objectDate] = .ok [] ∧
    composeSubgraphs [objectDate, scalarDate] =
      .ok ["Cannot merge Object with Scalar (`Date` in `calendar` and `catalog`)"] ∧
    ¬ RejectsClash [scalarDate, objectDate] := by
  have accepted : composeSubgraphs [scalarDate, objectDate] = .ok [] := by decide +kernel
  refine ⟨accepted, by decide +kernel, fun rejects => ?_⟩
  have kinds : (definitionGroup [scalarDate, objectDate] "Date").map DefinitionWalker.kind = [.scalar, .object] := rfl
  have found (kind : DefinitionKind) (member : kind ∈ [DefinitionKind.scalar, .object]) :
      ∃ definition ∈ definitionGroup [scalarDate, objectDate] "Date", definition.kind = kind :=
    mem_map.mp (kinds ▸ member)
  obtain ⟨first, isFirst, isScalar⟩ := found .scalar (by simp)
  obtain ⟨second, isSecond, isObject⟩ := found .object (by simp)
  have clash : KindsClash (definitionGroup [scalarDate, objectDate] "Date") :=
    ⟨first, isFirst, second, isSecond, by simp [isScalar, isObject]⟩
  have forbidden : ¬ EntityInterfaceClash (definitionGroup [scalarDate, objectDate] "Date") := by
    rintro ⟨_, objects⟩
    simpa [isScalar] using objects first isFirst
  obtain ⟨-, messages, ran, nonEmpty⟩ := rejects.rejected "Date" clash forbidden
  exact nonEmpty (Except.ok.inj (ran.symm.trans accepted))

end Grafbase.Composition
