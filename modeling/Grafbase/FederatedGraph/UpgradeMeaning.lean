import Grafbase.FederatedGraph.Meaning

/-! The upgrade to version 4 as a change of meaning. -/

set_option autoImplicit false

namespace Grafbase.FederatedGraph
open Foundation List
section Values
variable {parse : String → Option Float}

/-- The conversion of leaves that are not floats. -/
def ValueLeafV3.ofV1 : ValueLeafV1 → ValueLeafV3
  | .string id => .string id
  | .int value => .int value
  | .float _ => .null
  | .boolean value => .boolean value
  | .enumValue id => .enumValue id

def upgradeValue (value : ValueV1) : Value := valueFromV3 (value.map ValueLeafV3.ofV1)

def FieldSet.FloatFree (set : FieldSet) : Prop := ∀ value ∈ set.values, ∀ leaf ∈ value.leaves, ¬ leaf.isFloat

variable {value : ValueV1} {set : FieldSet}

theorem valueFromV1_eq_ok (floatFree : ∀ leaf ∈ value.leaves, ¬ leaf.isFloat) :
    valueFromV1 parse [] value = .ok (value.map ValueLeafV3.ofV1) := by
  refine Literal.mapM_eq_ok fun leaf member => ?_
  cases leaf with
  | float text => exact absurd rfl (floatFree _ member)
  | _ => rfl

theorem floatFree_item {field : FieldId} {arguments : List (InputValueDefinitionId × ValueV1)}
    {subselection rest : FieldSet} : (FieldSet.item field arguments subselection rest).FloatFree ↔
      (∀ argument ∈ arguments, ∀ leaf ∈ argument.2.leaves, ¬ leaf.isFloat) ∧ subselection.FloatFree ∧
        rest.FloatFree := by
  simp only [FieldSet.FloatFree, FieldSet.values, mem_append, mem_map, or_imp, forall_and,
    forall_exists_index, and_imp, forall_apply_eq_imp_iff₂]

theorem fieldSetToSelectionSet_eq_ok (floatFree : set.FloatFree) :
    fieldSetToSelectionSet parse set = .ok (set.selections upgradeValue) := by
  induction set with
  | nil => rfl
  | item field arguments subselection rest subselectionIh restIh =>
    obtain ⟨inArguments, inSubselection, inRest⟩ := floatFree_item.mp floatFree
    have converted : convertArguments parse arguments =
        .ok (arguments.map fun argument => (argument.1, upgradeValue argument.2)) := by
      refine mapM_eq_ok fun argument member => ?_
      dsimp only
      rw [valueFromV1_eq_ok (inArguments argument member)]
      rfl
    rw [fieldSetToSelectionSet, converted, subselectionIh inSubselection, restIh inRest]
    rfl

theorem floatFree_of_ok {selections : SelectionSet}
    (ran : fieldSetToSelectionSet parse set = .ok selections) : set.FloatFree := by
  induction set generalizing selections with
  | nil => simp [FieldSet.FloatFree, FieldSet.values]
  | item field arguments subselection rest subselectionIh restIh =>
    simp only [fieldSetToSelectionSet, bind_eq_ok] at ran
    obtain ⟨converted, ranArguments, inner, ranSubselection, others, ranRest, -⟩ := ran
    refine floatFree_item.mpr ⟨fun argument member leaf inLeaves => ?_, subselectionIh ranSubselection, restIh ranRest⟩
    obtain ⟨output, ranArgument⟩ := exists_of_mapM ranArguments member
    obtain ⟨value, ranValue, -⟩ := bind_eq_ok.mp ranArgument
    obtain ⟨result, changed⟩ := Literal.ok_of_mapM ranValue inLeaves
    cases leaf with
    | float text => cases changed
    | _ => simp [ValueLeafV1.isFloat]

theorem selections_map {μ ρ : Type} (first : ValueV1 → μ) (second : μ → ρ) (set : FieldSet) :
    (set.selections first).map second = set.selections (second ∘ first) := by
  induction set with
  | nil => rfl
  | item field arguments subselection rest subselectionIh restIh =>
    simp [FieldSet.selections, Selections.map, subselectionIh, restIh]

theorem selections_eq_iff {μ : Type} {first second : ValueV1 → μ} :
    set.selections first = set.selections second ↔ ∀ value ∈ set.values, first value = second value := by
  induction set with
  | nil => simp [FieldSet.selections, FieldSet.values]
  | item field arguments subselection rest subselectionIh restIh =>
    simp only [FieldSet.selections, Selections.field.injEq, true_and, subselectionIh, restIh, FieldSet.values,
      mem_append, mem_map, or_imp, forall_and, map_inj_left, Prod.mk.injEq, forall_exists_index,
      and_imp, forall_apply_eq_imp_iff₂]

end Values

section Conversion
variable (graph : FederatedGraphV3)

/-- The upgrade when no field set has a float. -/
def upgraded : FederatedGraph where
  subgraphs := graph.subgraphs
  rootOperationTypes := graph.rootOperationTypes
  typeDefinitions := typeDefinitionsFrom graph
  objects := graph.objects.zipIdx.map fun (object, id) => {
    typeDefinitionId := id
    implementsInterfaces := object.implementsInterfaces
    joinImplements := []
    keys := object.keys.map (·.map (·.selections upgradeValue))
    fields := object.fields }
  interfaces := (graph.interfaces.zipIdx graph.objects.length).map fun (interface, id) => {
    typeDefinitionId := id
    implementsInterfaces := interface.implementsInterfaces
    keys := interface.keys.map (·.map (·.selections upgradeValue))
    fields := interface.fields
    joinImplements := [] }
  fields := graph.fields.map fun field => {
    field with
    type := convertType graph field.type
    provides := field.provides.map (·.map (·.selections upgradeValue))
    requires := field.requires.map (·.map (·.selections upgradeValue)) }
  unions := graph.unions
  inputObjects := graph.inputObjects
  enumValues := (graph.enums.zipIdx (firstEnum graph)).flatMap fun (enum, enumId) =>
    ((graph.enumValues.drop enum.values.start).take enum.values.len).map fun value =>
      { enumId, value := value.value, composedDirectives := value.composedDirectives, description := value.description }
  inputValueDefinitions := graph.inputValueDefinitions.map (convertInputValueDefinition graph)
  strings := graph.strings
  directives := graph.directives.map convertDirective
  authorizedDirectives := graph.authorizedDirectives.map (·.map (·.selections upgradeValue) valueFromV3)
  fieldAuthorizedDirectives := graph.fieldAuthorizedDirectives
  objectAuthorizedDirectives := graph.objectAuthorizedDirectives
  interfaceAuthorizedDirectives := graph.interfaceAuthorizedDirectives

variable {graph} {parse : String → Option Float}

section Records
variable {α β : Type} {records : List α} {fields : α → FieldSet} {wrap : α → SelectionSet → β}

/-- Keys and the two kinds of field sets of a field are converted alike. -/
theorem mapM_records_eq_ok (floatFree : ∀ record ∈ records, (fields record).FloatFree) :
    (records.mapM fun record => (return wrap record (← fieldSetToSelectionSet parse (fields record)) : Checked β)) =
      .ok (records.map fun record => wrap record ((fields record).selections upgradeValue)) := by
  refine mapM_eq_ok fun record member => ?_
  rw [fieldSetToSelectionSet_eq_ok (floatFree record member)]
  rfl

theorem floatFree_of_mapM {converted : List β} (ran : (records.mapM fun record =>
      (return wrap record (← fieldSetToSelectionSet parse (fields record)) : Checked β)) = .ok converted) :
    ∀ record ∈ records, (fields record).FloatFree := by
  intro record member
  obtain ⟨output, ran⟩ := exists_of_mapM ran member
  obtain ⟨selections, ran, -⟩ := bind_eq_ok.mp ran
  exact floatFree_of_ok ran

end Records

theorem forall_mem_fieldSets {holds : FieldSet → Prop} : (∀ set ∈ fieldSets graph, holds set) ↔
    (∀ object ∈ graph.objects, ∀ key ∈ object.keys, holds key.fields) ∧
    (∀ interface ∈ graph.interfaces, ∀ key ∈ interface.keys, holds key.fields) ∧
    (∀ field ∈ graph.fields, (∀ provides ∈ field.provides, holds provides.fields) ∧
      ∀ requires ∈ field.requires, holds requires.fields) ∧
    (∀ directive ∈ graph.authorizedDirectives, (∀ set ∈ directive.fields, holds set) ∧
      ∀ set ∈ directive.node, holds set) := by
  simp only [fieldSets, forall_mem_append, forall_mem_flatMap, forall_mem_map,
    Option.mem_toList, Option.mem_def, and_assoc]

theorem mapM_fieldSetToSelectionSet {set : Option FieldSet} (floatFree : ∀ some ∈ set, some.FloatFree) :
    set.mapM (fieldSetToSelectionSet parse) = .ok (set.map (·.selections upgradeValue)) := by
  cases set with
  | none => rfl
  | some set =>
    have converted := @fieldSetToSelectionSet_eq_ok parse set (floatFree set rfl)
    rw [Option.mapM_some, converted]
    rfl

theorem fromV3_eq_ok (valid : ValidIds graph) (floatFree : ∀ set ∈ fieldSets graph, set.FloatFree) :
    fromV3 parse graph = .ok (upgraded graph) := by
  obtain ⟨inObjects, inInterfaces, inFields, inDirectives⟩ := forall_mem_fieldSets.mp floatFree
  rw [fromV3, mapM_eq_ok, mapM_eq_ok, mapM_eq_ok, mapM_eq_ok, mapM_eq_ok, upgraded, flatMap_def]
  · rfl
  · intro directive member
    obtain ⟨inFields, inNode⟩ := inDirectives directive member
    rw [convertAuthorizedDirective, mapM_fieldSetToSelectionSet inFields, mapM_fieldSetToSelectionSet inNode]
    rfl
  · intro field member
    obtain ⟨inProvides, inRequires⟩ := inFields field member
    rw [convertField, mapM_records_eq_ok inProvides, mapM_records_eq_ok inRequires]
    rfl
  · rintro ⟨interface, id⟩ member
    dsimp only
    rw [convertKeys, mapM_records_eq_ok (inInterfaces interface (fst_mem_of_mem_zipIdx member))]
    rfl
  · rintro ⟨object, id⟩ member
    dsimp only
    rw [convertKeys, mapM_records_eq_ok (inObjects object (fst_mem_of_mem_zipIdx member))]
    rfl
  · rintro ⟨enum, id⟩ member
    have bound := valid.enumValues enum (fst_mem_of_mem_zipIdx member)
    dsimp only
    rw [convertEnumValues, if_neg (by omega)]

theorem exists_mem_zipIdx {α : Type} {items : List α} {item : α} (member : item ∈ items) (start : Nat) :
    ∃ index, (item, index) ∈ items.zipIdx start := by
  obtain ⟨index, found⟩ := mem_iff_getElem?.mp member
  exact ⟨start + index, mk_add_mem_zipIdx_iff_getElem?.mpr found⟩

theorem floatFree_of_fromV3 {converted : FederatedGraph} (ran : fromV3 parse graph = .ok converted) :
    ∀ set ∈ fieldSets graph, set.FloatFree := by
  simp only [fromV3, bind_eq_ok] at ran
  obtain ⟨_, -, objects, ranObjects, interfaces, ranInterfaces, fields, ranFields, directives, ranDirectives, -⟩ := ran
  refine forall_mem_fieldSets.mpr ⟨fun object member => ?_, fun interface member => ?_, fun field member => ?_,
    fun directive member => ?_⟩
  · obtain ⟨id, inZip⟩ := exists_mem_zipIdx member 0
    obtain ⟨output, ran⟩ := exists_of_mapM ranObjects inZip
    obtain ⟨keys, ranKeys, -⟩ := bind_eq_ok.mp ran
    exact floatFree_of_mapM ranKeys
  · obtain ⟨id, inZip⟩ := exists_mem_zipIdx member graph.objects.length
    obtain ⟨output, ran⟩ := exists_of_mapM ranInterfaces inZip
    obtain ⟨keys, ranKeys, -⟩ := bind_eq_ok.mp ran
    exact floatFree_of_mapM ranKeys
  · obtain ⟨output, ran⟩ := exists_of_mapM ranFields member
    simp only [convertField, bind_eq_ok] at ran
    obtain ⟨provides, ranProvides, requires, ranRequires, -⟩ := ran
    exact ⟨floatFree_of_mapM ranProvides, floatFree_of_mapM ranRequires⟩
  · obtain ⟨output, ran⟩ := exists_of_mapM ranDirectives member
    simp only [convertAuthorizedDirective, bind_eq_ok] at ran
    obtain ⟨fields, ranFields, node, ranNode, -⟩ := ran
    have present {set : FieldSet} {option : Option FieldSet} {selections : Option SelectionSet}
        (ran : option.mapM (fieldSetToSelectionSet parse) = .ok selections) (isSet : set ∈ option) : set.FloatFree := by
      obtain rfl := isSet
      cases converted : fieldSetToSelectionSet parse set with
      | error panic => simp [converted] at ran
      | ok selections => exact floatFree_of_ok converted
    exact ⟨fun set => present ranFields, fun set => present ranNode⟩

end Conversion

section Meaning
variable {graph : FederatedGraphV3}

theorem typeDefinitions_getElem? (id : Nat) : (upgraded graph).typeDefinitions[id]? = if id < graph.objects.length then
      (graph.objects[id]?).map fun object => ⟨object.name, object.description, object.composedDirectives, .object⟩
    else if id < firstScalar graph then
      (graph.interfaces[id - graph.objects.length]?).map fun interface =>
        ⟨interface.name, interface.description, interface.composedDirectives, .interface⟩
    else if id < firstEnum graph then
      (graph.scalars[id - firstScalar graph]?).map fun scalar =>
        ⟨scalar.name, scalar.description, scalar.composedDirectives, .scalar⟩ else
      (graph.enums[id - firstEnum graph]?).map fun enum =>
        ⟨enum.name, enum.description, enum.composedDirectives, .enum⟩ := by
  simp only [upgraded, typeDefinitionsFrom, getElem?_append, length_append, length_map,
    getElem?_map, firstScalar, firstEnum]
  grind

theorem find?_range (count id : Nat) :
    ((List.range count).find? fun other => decide (other = id)) = if id < count then some id else none := by
  split
  next bound => simpa [find?_range_eq_some, bound] using fun other lt => Nat.ne_of_lt lt
  next outside =>
    rw [find?_eq_none]
    intro other member
    have := mem_range.mp member
    simp only [decide_eq_true_eq]
    omega

theorem convertType_definition (type : TypeRef) : (convertType graph type).definition =
    match type.definition with
    | .object id => if id < graph.objects.length then .object id else .scalar 0
    | .interface id => if id < graph.interfaces.length then .interface id else .scalar 0
    | .scalar id => if id < graph.scalars.length then .scalar (firstScalar graph + id) else .scalar 0
    | _ => .scalar 0 := by
  obtain ⟨wrapping, definition⟩ := type
  have none (count : Nat) : ((List.range count).find? fun _ => false) = none := by simp
  simp only [convertType, definitionsMap, find?_append, find?_map, Function.comp_def]
  cases definition <;> simp only [reduceCtorEq, Definition.object.injEq, Definition.interface.injEq,
    Definition.scalar.injEq, decide_false, none, find?_range, Option.map_none, Option.none_or, Option.or_none,
    Option.getD_none]
  all_goals split <;> rfl

variable {type : TypeRef} {parse : String → Option Float} {enum : EnumV3}

section
variable (valid : (describeV3 graph type.definition).isSome)
include valid

theorem describe_convertType (mapped : type.definition.IsMapped) :
    (upgraded graph).describe (convertType graph type).definition = describeV3 graph type.definition := by
  rw [convertType_definition]
  cases isDefinition : type.definition with
  | scalar id =>
    obtain ⟨scalar, found⟩ : ∃ scalar, graph.scalars[id]? = some scalar := by
      simpa [isDefinition, describeV3, Option.isSome_iff_exists] using valid
    have bound := index_lt found
    have position : (upgraded graph).typeDefinitions[firstScalar graph + id]? =
        some ⟨scalar.name, scalar.description, scalar.composedDirectives, .scalar⟩ := by
      rw [typeDefinitions_getElem?, if_neg (by rw [firstScalar]; omega), if_neg (by omega),
        if_pos (by rw [firstEnum, firstScalar]; omega), Nat.add_sub_cancel_left, found, Option.map_some]
    dsimp only
    rw [if_pos bound]
    simp [describe, describe.record, position, describeV3, found]
  | object id =>
    obtain ⟨object, found⟩ : ∃ object, graph.objects[id]? = some object := by
      simpa [isDefinition, describeV3, Option.isSome_iff_exists] using valid
    have bound := index_lt found
    have position : (upgraded graph).typeDefinitions[id]? =
        some ⟨object.name, object.description, object.composedDirectives, .object⟩ := by
      rw [typeDefinitions_getElem?, if_pos bound, found, Option.map_some]
    have row : ((upgraded graph).objects[id]?).map (·.typeDefinitionId) = some id := by
      simp [upgraded, found]
    obtain ⟨converted, isConverted, isId⟩ := Option.map_eq_some_iff.mp row
    dsimp only
    rw [if_pos bound]
    simp [describe, describe.record, isConverted, isId, position, describeV3, found]
  | interface id =>
    obtain ⟨interface, found⟩ : ∃ interface, graph.interfaces[id]? = some interface := by
      simpa [isDefinition, describeV3, Option.isSome_iff_exists] using valid
    have bound := index_lt found
    have position : (upgraded graph).typeDefinitions[graph.objects.length + id]? =
        some ⟨interface.name, interface.description, interface.composedDirectives, .interface⟩ := by
      rw [typeDefinitions_getElem?, if_neg (by omega), if_pos (by rw [firstScalar]; omega), Nat.add_sub_cancel_left,
        found, Option.map_some]
    have row : ((upgraded graph).interfaces[id]?).map (·.typeDefinitionId) = some (graph.objects.length + id) := by
      simp [upgraded, found]
    obtain ⟨converted, isConverted, isId⟩ := Option.map_eq_some_iff.mp row
    dsimp only
    rw [if_pos bound]
    simp [describe, describe.record, isConverted, isId, position, describeV3, found]
  | _ => simp [isDefinition, Definition.IsMapped, Definition.kind] at mapped

theorem describe_convertType_iff :
    (upgraded graph).describe (convertType graph type).definition = describeV3 graph type.definition ↔
      type.definition.IsMapped := by
  refine ⟨fun same => by_contra fun notMapped => ?_, describe_convertType valid⟩
  rw [convertType_definition] at same
  have isKind : ∀ kind name, (upgraded graph).describe (.scalar 0) = some (kind, name) → kind = .scalar := by
    intro kind name described
    simp only [describe, describe.record, Option.map_eq_some_iff, Prod.mk.injEq] at described
    obtain ⟨_, -, isScalar, -⟩ := described
    exact isScalar.symm
  obtain ⟨⟨kind, name⟩, described⟩ := Option.isSome_iff_exists.mp valid
  cases isDefinition : type.definition with
  | scalar | object | interface => simp [isDefinition, Definition.IsMapped, Definition.kind] at notMapped
  | union | enum | inputObject =>
    rw [isDefinition] at same described
    rw [described] at same
    obtain rfl := isKind kind name same
    simp [describeV3] at described

end

/-- Enum values in default values and directives become strings. -/
theorem denote_valueFromV3_iff {value : ValueV3} :
    (upgraded graph).denote (valueFromV3 value) = denoteV3 value ↔ ∀ leaf ∈ value.leaves, ¬ leaf.isEnumValue := by
  rw [denote, valueFromV3, Literal.map_map, denoteV3, Literal.map_eq_map_iff]
  refine forall₂_congr fun leaf _ => ?_
  cases leaf <;> simp [ValueLeaf.fromV3, denoteLeaf, denoteLeafV3, ValueLeafV3.isEnumValue]

theorem iterEnums_upgraded : (upgraded graph).iterEnums = List.range' (firstEnum graph) graph.enums.length := by
  have length : (upgraded graph).typeDefinitions.length = firstEnum graph + graph.enums.length := by
    simp [upgraded, typeDefinitionsFrom, firstEnum, Nat.add_assoc]
  rw [iterEnums, iterKind, length, range_add, filter_append, ← range'_eq_map_range,
    filter_eq_nil_iff.mpr, nil_append, filter_eq_self.mpr]
  · intro (id : Nat) member
    obtain ⟨above, below⟩ := mem_range'_1.mp member
    have position : id - firstEnum graph < graph.enums.length := by omega
    have order : graph.objects.length ≤ id ∧ firstScalar graph ≤ id := by
      rw [firstScalar]
      rw [firstEnum] at above
      omega
    rw [typeDefinitions_getElem?, if_neg (Nat.not_lt.mpr order.1), if_neg (Nat.not_lt.mpr order.2),
      if_neg (Nat.not_lt.mpr above), getElem?_eq_getElem position]
    simp
  · intro id member
    have below := mem_range.mp member
    rw [typeDefinitions_getElem?]
    split_ifs <;> simp [Option.any_map]

def valuesOf (graph : FederatedGraphV3) (enum : EnumV3) (enumId : TypeDefinitionId) : List EnumValueRecord :=
  ((graph.enumValues.drop enum.values.start).take enum.values.len).map fun value =>
    { enumId, value := value.value, composedDirectives := value.composedDirectives, description := value.description }

theorem enumId_of_mem_valuesOf {enumId : TypeDefinitionId} {value : EnumValueRecord}
    (member : value ∈ valuesOf graph enum enumId) : value.enumId = enumId := by
  obtain ⟨_, _, rfl⟩ := mem_map.mp member
  rfl

theorem filter_valuesOf (enums : List EnumV3) (first : TypeDefinitionId) {index : Nat}
    (found : enums[index]? = some enum) :
    ((enums.zipIdx first).flatMap fun (enum, id) => valuesOf graph enum id).filter
      (fun value => value.enumId = first + index) = valuesOf graph enum (first + index) := by
  induction enums generalizing first index with
  | nil => cases found
  | cons head rest ih =>
    rw [zipIdx_cons, flatMap_cons, filter_append]
    cases index with
    | zero =>
      obtain rfl := Option.some.inj found
      rw [filter_eq_self.mpr fun value member => by simpa using enumId_of_mem_valuesOf member,
        filter_eq_nil_iff.mpr, append_nil, Nat.add_zero]
      intro value member
      obtain ⟨⟨other, id⟩, inZip, member⟩ := mem_flatMap.mp member
      have above := le_snd_of_mem_zipIdx inZip
      rw [enumId_of_mem_valuesOf member, decide_eq_true_eq]
      exact Nat.ne_of_gt (Nat.lt_of_succ_le above)
    | succ index =>
      rw [filter_eq_nil_iff.mpr, nil_append, Nat.add_comm index 1, ← Nat.add_assoc]
      · exact ih (first + 1) found
      · intro value member
        rw [enumId_of_mem_valuesOf member, decide_eq_true_eq]
        exact Nat.ne_of_lt (Nat.lt_add_of_pos_right (Nat.succ_pos index))

theorem iterEnumValues_upgraded {index : Nat} (found : graph.enums[index]? = some enum) :
    (upgraded graph).iterEnumValues (firstEnum graph + index) = valuesOf graph enum (firstEnum graph + index) := by
  have sorted : (upgraded graph).enumValues.Pairwise fun first second => first.enumId ≤ second.enumId := by
    refine pairwise_flatMap.mpr ⟨?_, ?_⟩
    · rintro ⟨enum, id⟩ -
      refine pairwise_of_forall_mem_list fun first inFirst second inSecond => ?_
      rw [enumId_of_mem_valuesOf inFirst, enumId_of_mem_valuesOf inSecond]
    · have increasing : (graph.enums.zipIdx (firstEnum graph)).Pairwise fun first second => first.2 < second.2 := by
        rw [← pairwise_map, zipIdx_map_snd]
        exact pairwise_lt_range'
      refine increasing.imp fun {first second} lt left inLeft right inRight => ?_
      rw [enumId_of_mem_valuesOf inLeft, enumId_of_mem_valuesOf inRight]
      exact lt.le
  rw [iterEnumValues, drop_partitionPoint]
  · exact (takeWhile_dropWhile_eq_filter EnumValueRecord.enumId (firstEnum graph + index) sorted).trans
      (filter_valuesOf graph.enums (firstEnum graph) found)
  · refine sorted.imp fun {first second} le below => ?_
    rw [decide_eq_true_eq] at below ⊢
    exact Nat.lt_of_le_of_lt le below

theorem enums_upgraded : (upgraded graph).meaning.enums = (meaningV3 parse graph).enums := by
  rw [meaning, meaningV3]
  rw [iterEnums_upgraded]
  refine ext_getElem? fun index => ?_
  rw [getElem?_map, getElem?_map]
  cases found : graph.enums[index]? with
  | none =>
    have outside := getElem?_eq_none_iff.mp found
    rw [getElem?_eq_none (by simpa using outside)]
    rfl
  | some enum =>
    have bound := index_lt found
    have position : (upgraded graph).typeDefinitions[firstEnum graph + index]? =
        some ⟨enum.name, enum.description, enum.composedDirectives, .enum⟩ := by
      rw [typeDefinitions_getElem?, if_neg (by rw [firstEnum]; omega), if_neg (by rw [firstScalar, firstEnum]; omega),
        if_neg (by omega), Nat.add_sub_cancel_left, found, Option.map_some]
    rw [getElem?_range' bound, Nat.one_mul, Option.map_some, Option.map_some, position,
      iterEnumValues_upgraded found, valuesOf, map_map]
    rfl

def FieldSet.EnumFree (set : FieldSet) : Prop := ∀ value ∈ set.values, ∀ leaf ∈ value.leaves, ¬ leaf.isEnumValue

def EnumFree (value : ValueV3) : Prop := ∀ leaf ∈ value.leaves, ¬ leaf.isEnumValue

theorem denote_selections_iff {set : FieldSet} (floatFree : set.FloatFree) :
    (set.selections upgradeValue).map (upgraded graph).denote = set.selections (denoteV1 parse graph) ↔
      set.EnumFree := by
  rw [selections_map, selections_eq_iff]
  refine forall₂_congr fun value member => ?_
  rw [Function.comp_apply, denote, upgradeValue, valueFromV3, Literal.map_map, Literal.map_map, denoteV1,
    Literal.map_eq_map_iff]
  refine forall₂_congr fun leaf inValue => ?_
  cases leaf with
  | float text => exact absurd rfl (floatFree value member _ inValue)
  | _ => simp [ValueLeafV3.ofV1, ValueLeaf.fromV3, denoteLeaf, denoteLeafV1, ValueLeafV1.isEnumValue]

theorem denote_records_iff (graph : FederatedGraphV3) (parse : String → Option Float) {α β γ : Type} {records : List α}
    {fields : α → FieldSet} {convert : α → β} {read : β → γ} {original : α → γ}
    (floatFree : ∀ record ∈ records, (fields record).FloatFree)
    (reads : ∀ record, read (convert record) = original record ↔ ((fields record).selections upgradeValue).map
      (upgraded graph).denote = (fields record).selections (denoteV1 parse graph)) :
    (records.map convert).map read = records.map original ↔ ∀ record ∈ records, (fields record).EnumFree := by
  rw [map_map, map_inj_left]
  exact forall₂_congr fun record member => (reads record).trans (denote_selections_iff (floatFree record member))

theorem denote_option_iff {value : Option ValueV3} :
    (value.map valueFromV3).map (upgraded graph).denote = value.map denoteV3 ↔ ∀ some ∈ value, EnumFree some := by
  cases value with
  | none => simp
  | some value => simpa [EnumFree] using denote_valueFromV3_iff

theorem denote_option_selections_iff {set : Option FieldSet} (floatFree : ∀ some ∈ set, some.FloatFree) :
    (set.map (·.selections upgradeValue)).map (·.map (upgraded graph).denote) =
      set.map (·.selections (denoteV1 parse graph)) ↔ ∀ some ∈ set, some.EnumFree := by
  cases set with
  | none => simp
  | some set => simpa using denote_selections_iff (floatFree set rfl)

theorem map_zipIdx_fst {α β : Type} (change : α → β) (items : List α) (start : Nat) :
    (items.zipIdx start).map (fun entry => change entry.1) = items.map change := by
  rw [← Function.comp_def change Prod.fst, ← map_map, zipIdx_map_fst]

section
variable (floatFree : ∀ set ∈ fieldSets graph, set.FloatFree)
include floatFree

omit floatFree in
theorem denote_keys_iff {α : Type} {owners : List α} {keys : α → List (Key FieldSet)}
    (inOwners : ∀ owner ∈ owners, ∀ key ∈ keys owner, key.fields.FloatFree) :
    (owners.map fun owner => ((keys owner).map (·.map (·.selections upgradeValue))).map
      (·.map (·.map (upgraded graph).denote))) =
        owners.map (fun owner => (keys owner).map (·.map (·.selections (denoteV1 parse graph)))) ↔
      ∀ owner ∈ owners, ∀ key ∈ keys owner, key.fields.EnumFree :=
  map_inj_left.trans (forall₂_congr fun owner member =>
    denote_records_iff graph parse (inOwners owner member) fun key => by simp [Key.map])

theorem objectKeys_upgraded_iff : (upgraded graph).meaning.objectKeys = (meaningV3 parse graph).objectKeys ↔
      ∀ object ∈ graph.objects, ∀ key ∈ object.keys, key.fields.EnumFree := by
  refine (Eq.congr_left ?_).trans (denote_keys_iff (forall_mem_fieldSets.mp floatFree).1)
  rw [← map_zipIdx_fst _ graph.objects 0]
  exact map_map

theorem interfaceKeys_upgraded_iff : (upgraded graph).meaning.interfaceKeys = (meaningV3 parse graph).interfaceKeys ↔
      ∀ interface ∈ graph.interfaces, ∀ key ∈ interface.keys, key.fields.EnumFree := by
  refine (Eq.congr_left ?_).trans (denote_keys_iff (forall_mem_fieldSets.mp floatFree).2.1)
  rw [← map_zipIdx_fst _ graph.interfaces graph.objects.length]
  exact map_map

theorem fields_upgraded_iff (valid : ValidIds graph) :
    (upgraded graph).meaning.fields = (meaningV3 parse graph).fields ↔
      ∀ field ∈ graph.fields, field.type.definition.IsMapped ∧ (∀ provides ∈ field.provides, provides.fields.EnumFree) ∧
          ∀ requires ∈ field.requires, requires.fields.EnumFree := by
  rw [meaning, meaningV3, show (upgraded graph).fields = graph.fields.map _ from rfl]
  rw [map_map, map_inj_left]
  refine forall₂_congr fun field member => ?_
  obtain ⟨inProvides, inRequires⟩ := (forall_mem_fieldSets.mp floatFree).2.2.1 field member
  simp only [Function.comp_apply, FieldMeaning.mk.injEq, true_and]
  refine (and_iff_right rfl).trans (and_congr (describe_convertType_iff (valid.fieldTypes field member)) ?_)
  exact and_congr (denote_records_iff graph parse inProvides fun provides => by simp [FieldProvides.map])
    (denote_records_iff graph parse inRequires fun requires => by simp [FieldRequires.map])

omit floatFree in
theorem inputValues_upgraded_iff (valid : ValidIds graph) :
    (upgraded graph).meaning.inputValues = (meaningV3 parse graph).inputValues ↔
      ∀ definition ∈ graph.inputValueDefinitions, definition.type.definition.IsMapped ∧
        ∀ value ∈ definition.default, EnumFree value := by
  rw [meaning, meaningV3, show (upgraded graph).inputValueDefinitions = graph.inputValueDefinitions.map _ from rfl]
  rw [map_map, map_inj_left]
  refine forall₂_congr fun definition member => ?_
  rw [← describe_convertType_iff (valid.inputTypes definition member), ← @denote_option_iff graph]
  simp only [Function.comp_apply, InputValueMeaning.mk.injEq]
  exact ⟨fun same => same.2.2, fun same => ⟨rfl, rfl, same⟩⟩

omit floatFree in
theorem directives_upgraded_iff : (upgraded graph).meaning.directives = (meaningV3 parse graph).directives ↔
      ∀ directive ∈ graph.directives, ∀ value ∈ directive.values, EnumFree value := by
  rw [meaning, meaningV3, show (upgraded graph).directives = graph.directives.map _ from rfl]
  rw [map_map, map_inj_left]
  refine forall₂_congr fun directive _ => ?_
  cases directive with
  | other name arguments =>
    simp only [convertDirective, Directive.map, Directive.other.injEq, true_and, Directive.values, map_map,
      map_inj_left, forall_mem_map, Function.comp_apply, Prod.mk.injEq, denote_valueFromV3_iff, EnumFree]
  | _ => simp [convertDirective, Directive.map, Directive.values]

theorem authorizedDirectives_upgraded_iff :
    (upgraded graph).meaning.authorizedDirectives = (meaningV3 parse graph).authorizedDirectives ↔
      ∀ directive ∈ graph.authorizedDirectives, ((∀ set ∈ directive.fields, set.EnumFree) ∧
        ∀ set ∈ directive.node, set.EnumFree) ∧ ∀ value ∈ directive.metadata, EnumFree value := by
  rw [meaning, meaningV3, show (upgraded graph).authorizedDirectives = graph.authorizedDirectives.map _ from rfl]
  rw [map_map, map_inj_left]
  refine forall₂_congr fun directive member => ?_
  obtain ⟨inFields, inNode⟩ := (forall_mem_fieldSets.mp floatFree).2.2.2 directive member
  simp only [AuthorizedDirective.map, Function.comp_apply, AuthorizedDirective.mk.injEq, true_and,
    denote_option_selections_iff inFields,
    denote_option_selections_iff inNode, denote_option_iff, and_assoc]

/-- Without floats in field sets, the meaning is kept up to enum values and the definitions of types. -/
theorem meaning_upgraded_iff (valid : ValidIds graph) :
    (upgraded graph).meaning = meaningV3 parse graph ↔ (∀ field ∈ graph.fields, field.type.definition.IsMapped) ∧
      (∀ definition ∈ graph.inputValueDefinitions, definition.type.definition.IsMapped) ∧
      (∀ set ∈ fieldSets graph, set.EnumFree) ∧ ∀ value ∈ constants graph, EnumFree value := by
  simp only [forall_mem_fieldSets, constants, forall_mem_append, forall_mem_flatMap, Option.mem_toList]
  constructor
  · intro same
    have fields := (fields_upgraded_iff floatFree valid).mp (congrArg Meaning.fields same)
    have inputValues := (inputValues_upgraded_iff valid).mp (congrArg Meaning.inputValues same)
    have authorized := (authorizedDirectives_upgraded_iff floatFree).mp (congrArg Meaning.authorizedDirectives same)
    exact ⟨fun field member => (fields field member).1, fun definition member => (inputValues definition member).1,
      ⟨(objectKeys_upgraded_iff floatFree).mp (congrArg Meaning.objectKeys same),
        (interfaceKeys_upgraded_iff floatFree).mp (congrArg Meaning.interfaceKeys same),
        fun field member => (fields field member).2, fun directive member => (authorized directive member).1⟩,
      ⟨fun definition member => (inputValues definition member).2,
        directives_upgraded_iff.mp (congrArg Meaning.directives same)⟩,
      fun directive member => (authorized directive member).2⟩
  · rintro ⟨fieldTypes, inputTypes, ⟨objectKeys, interfaceKeys, fields, directives⟩, ⟨defaults, arguments⟩, metadata⟩
    exact Meaning.ext
      ((fields_upgraded_iff floatFree valid).mpr fun field member => ⟨fieldTypes field member, fields field member⟩)
      ((inputValues_upgraded_iff valid).mpr fun definition member =>
        ⟨inputTypes definition member, defaults definition member⟩)
      enums_upgraded ((objectKeys_upgraded_iff floatFree).mpr objectKeys)
      ((interfaceKeys_upgraded_iff floatFree).mpr interfaceKeys) (directives_upgraded_iff.mpr arguments)
      ((authorizedDirectives_upgraded_iff floatFree).mpr fun directive member =>
        ⟨directives directive member, metadata directive member⟩)

end

theorem upgrade_preserves_meaning_iff (parse : String → Option Float) (graph : FederatedGraphV3)
    (valid : ValidIds graph) :
    (∃ latest, fromV3 parse graph = .ok latest ∧ latest.strings = graph.strings ∧
      latest.meaning = meaningV3 parse graph) ↔ Upgradable graph := by
  constructor
  · rintro ⟨latest, ran, -, same⟩
    have floatFree := floatFree_of_fromV3 ran
    obtain rfl := Except.ok.inj ((fromV3_eq_ok valid floatFree).symm.trans ran)
    obtain ⟨fieldTypes, inputTypes, enumFree, constants⟩ := (meaning_upgraded_iff floatFree valid).mp same
    exact ⟨fieldTypes, inputTypes, fun set member value inSet leaf inValue =>
      ⟨floatFree set member value inSet leaf inValue, enumFree set member value inSet leaf inValue⟩, constants⟩
  · rintro ⟨fieldTypes, inputTypes, arguments, constants⟩
    have floatFree : ∀ set ∈ fieldSets graph, set.FloatFree := fun set member value inSet leaf inValue =>
      (arguments set member value inSet leaf inValue).1
    refine ⟨upgraded graph, fromV3_eq_ok valid floatFree, rfl, (meaning_upgraded_iff floatFree valid).mpr ?_⟩
    exact ⟨fieldTypes, inputTypes, fun set member value inSet leaf inValue =>
      (arguments set member value inSet leaf inValue).2, constants⟩

/-- `type Query { field: T }` where `T` is a scalar or an enum. -/
def singleField (definition : Definition) : FederatedGraphV3 where
  rootOperationTypes := { query := 0 }
  objects := [{ name := 0, fields := ⟨0, 1⟩ }]
  fields := [{ name := 1, type := ⟨.nullable, definition⟩ }]
  enums := [{ name := 2, values := ⟨0, 1⟩ }]
  scalars := [{ name := 4 }]
  enumValues := [{ value := 3 }]
  strings := ["Query", "color", "Color", "RED", "String"]

/-- `type Query { color: String, query: Query }` beside the enum. -/
def scalarAndObjectFields : FederatedGraphV3 :=
  { singleField (.scalar 0) with
    objects := [{ name := 0, fields := ⟨0, 2⟩ }]
    fields := [{ name := 1, type := ⟨.nullable, .scalar 0⟩ }, { name := 5, type := ⟨.nullable, .object 0⟩ }]
    strings := ["Query", "color", "Color", "RED", "String", "query"] }

theorem upgrade_preserves_scalar_and_object_fields : ValidIds scalarAndObjectFields ∧
    ∃ latest, fromV3 (fun _ => none) scalarAndObjectFields = .ok latest ∧
      latest.strings = scalarAndObjectFields.strings ∧
      latest.meaning = meaningV3 (fun _ => none) scalarAndObjectFields := by
  have valid : ValidIds scalarAndObjectFields := ⟨by decide, by decide, by decide⟩
  refine ⟨valid, (upgrade_preserves_meaning_iff _ _ valid).mpr ⟨?_, ?_, ?_, ?_⟩⟩
  · simp [scalarAndObjectFields, Definition.IsMapped, Definition.kind]
  · simp [scalarAndObjectFields, singleField]
  · simp [scalarAndObjectFields, singleField, fieldSets]
  · simp [scalarAndObjectFields, singleField, constants]

/-- The field of the enum's type refers to the object `Query` as if it was a scalar. -/
theorem upgrade_loses_enum_field : ValidIds (singleField (.enum 0)) ∧
    (fromV3 (fun _ => none) (singleField (.enum 0))).toOption.map
      (fun latest => latest.fields.map (·.type.definition)) =
      some [.scalar 0] ∧
    (fromV3 (fun _ => none) (singleField (.enum 0))).toOption.map (fun latest => latest.typeDefinitions.map (·.kind)) =
      some [.object, .scalar, .enum] ∧
    ¬ ∃ latest, fromV3 (fun _ => none) (singleField (.enum 0)) = .ok latest ∧
      latest.strings = (singleField (.enum 0)).strings ∧
      latest.meaning = meaningV3 (fun _ => none) (singleField (.enum 0)) := by
  refine ⟨⟨by decide, by decide, by decide⟩, by decide, by decide, ?_⟩
  rintro ⟨latest, ran, -, same⟩
  have definitions : latest.meaning.fields.map (·.definition) = [none] := by
    obtain rfl : (upgraded (singleField (.enum 0))) = latest := Except.ok.inj ran
    decide
  rw [same] at definitions
  exact absurd definitions (by decide)

end Meaning
end Grafbase.FederatedGraph
