import Grafbase.FederatedGraph.UpgradeV2

/-! The fields of objects and interfaces before and after the conversion from version 2.

The selections of keys, `@provides` and `@requires` follow the fields that are
moved by the two reserved ones. The ranges of objects and interfaces do not,
the query type's apart.
-/

set_option autoImplicit false

namespace Grafbase

namespace FederatedGraph
open Foundation

/-! ## Fields in both versions -/

structure TypeContent where
  definition : Definition
  innerIsRequired : Bool
  lists : List ListWrapping

structure ArgumentContent where
  name : Option String
  type : Option TypeContent
  directives : List (Directive ValueV3)
  description : Option StringId

/-- What a field is in either version. Directives of version 2 are among those of version 3. -/
structure FieldContent where
  name : Option String
  type : Option TypeContent
  arguments : List ArgumentContent
  directives : List (Directive ValueV3)

def Span.of {α : Type} (span : Span) (items : List α) : List α := (items.drop span.start).take span.len

def Fields.of {α : Type} (fields : Fields) (items : List α) : List α :=
  (items.drop fields.start).take (fields.stop - fields.start)

def FieldTypeV2.content (type : FieldTypeV2) : TypeContent := ⟨type.kind, type.innerIsRequired, type.listWrappers⟩

def TypeRef.content (type : TypeRef) : TypeContent :=
  ⟨type.definition, type.wrapping.innerIsRequired, type.wrapping.listWrappings⟩

def reservedContent (query : ObjectId) (name : String) : FieldContent :=
  ⟨some name, some ⟨.object query, false, []⟩, [], []⟩

def ownedIds (pairs : List (Nat × FieldId)) (owner : Nat) : List FieldId :=
  (pairs.filter fun pair => pair.1 = owner).map Prod.snd

namespace FieldSet

def mentioned : FieldSet → List FieldId
  | .nil => []
  | .item field _ subselection rest => field :: subselection.mentioned ++ rest.mentioned

/-- Selections of one shape with related fields. -/
inductive Related (same : FieldId → FieldId → Prop) : FieldSet → FieldSet → Prop
  | nil : Related same .nil .nil
  | item {field other : FieldId} {arguments : List (InputValueDefinitionId × ValueV1)}
      {subselection rest otherSubselection otherRest : FieldSet} : same field other →
      Related same subselection otherSubselection → Related same rest otherRest →
      Related same (.item field arguments subselection rest) (.item other arguments otherSubselection otherRest)

end FieldSet
end FederatedGraph

open FederatedGraph Foundation List

namespace FederatedGraphV2
variable (graph : FederatedGraphV2)

def typeContent (id : TypeId) : Option TypeContent := (graph.fieldTypes[id]?).map FieldTypeV2.content

def argumentContent (definition : InputValueDefinitionV2) : ArgumentContent where
  name := graph.strings[definition.name]?
  type := graph.typeContent definition.typeId
  directives := (definition.directives.of graph.directives).map convertDirectiveV2
  description := definition.description

def fieldContent (field : FieldV2) : FieldContent where
  name := graph.strings[field.name]?
  type := graph.typeContent field.fieldTypeId
  arguments := (field.arguments.of graph.inputValueDefinitions).map graph.argumentContent
  directives := (field.composedDirectives.of graph.directives).map convertDirectiveV2

def contents : List FieldContent := graph.fields.map graph.fieldContent

def owned (pairs : List (Nat × FieldId)) (owner : Nat) : List FieldContent :=
  (ownedIds pairs owner).filterMap fun id => graph.contents[id]?

def selections : List FieldSet :=
  graph.objects.flatMap (fun object => object.keys.map Key.fields) ++
    graph.interfaces.flatMap (fun interface => interface.keys.map Key.fields) ++
    graph.fields.flatMap (fun field => field.provides.map FieldProvides.fields ++
      field.requires.map FieldRequires.fields)

def queryStart : Nat := (ownedIds graph.objectFields graph.rootOperationTypes.query).headD 0

/-- Ids are in their tables, the query type has a field, and the fields of an owner follow each other. -/
structure WellFormed : Prop where
  fieldTypes : ∀ field ∈ graph.fields, field.fieldTypeId < graph.fieldTypes.length
  inputTypes : ∀ definition ∈ graph.inputValueDefinitions, definition.typeId < graph.fieldTypes.length
  fieldNames : ∀ field ∈ graph.fields, field.name < graph.strings.length
  inputNames : ∀ definition ∈ graph.inputValueDefinitions, definition.name < graph.strings.length
  objectFields : ∀ pair ∈ graph.objectFields, pair.1 < graph.objects.length ∧ pair.2 < graph.fields.length
  interfaceFields : ∀ pair ∈ graph.interfaceFields, pair.1 < graph.interfaces.length ∧ pair.2 < graph.fields.length
  selections : ∀ selection ∈ graph.selections, ∀ field ∈ selection.mentioned, field < graph.fields.length
  query : graph.rootOperationTypes.query < graph.objects.length
  queryFields : ownedIds graph.objectFields graph.rootOperationTypes.query ≠ []
  objectsConsecutive : ∀ object, ∃ first count, ownedIds graph.objectFields object = List.range' first count
  interfacesConsecutive : ∀ interface, ∃ first count, ownedIds graph.interfaceFields interface = List.range' first count

end FederatedGraphV2

namespace FederatedGraphV3
variable (graph : FederatedGraphV3)

def argumentContent (definition : InputValueDefinition ValueV3) : ArgumentContent where
  name := graph.strings[definition.name]?
  type := some definition.type.content
  directives := definition.directives.of graph.directives
  description := definition.description

def fieldContent (field : FederatedGraph.Field FieldSet) : FieldContent where
  name := graph.strings[field.name]?
  type := some field.type.content
  arguments := (field.arguments.of graph.inputValueDefinitions).map graph.argumentContent
  directives := field.composedDirectives.of graph.directives

def contents : List FieldContent := graph.fields.map graph.fieldContent

def selections : List FieldSet :=
  graph.objects.flatMap (fun object => object.keys.map Key.fields) ++
    graph.interfaces.flatMap (fun interface => interface.keys.map Key.fields) ++
    graph.fields.flatMap (fun field => field.provides.map FieldProvides.fields ++
      field.requires.map FieldRequires.fields)

end FederatedGraphV3

namespace FederatedGraph
open Foundation

/-! ## What the conversion should keep -/

/-- Two fields of the two versions have the same name, and the same objects and interfaces have them. -/
structure SameField (graph : FederatedGraphV2) (upgraded : FederatedGraphV3) (field other : FieldId) : Prop where
  name : ∃ content otherContent, graph.contents[field]? = some content ∧ upgraded.contents[other]? = some otherContent ∧
    content.name = otherContent.name
  objects : ∀ id, (id, field) ∈ graph.objectFields ↔
    ∃ object ∈ upgraded.objects[id]?, object.fields.start ≤ other ∧ other < object.fields.stop
  interfaces : ∀ id, (id, field) ∈ graph.interfaceFields ↔
    ∃ interface ∈ upgraded.interfaces[id]?, interface.fields.start ≤ other ∧ other < interface.fields.stop

/-- Every type has its fields, the query type two more, and every selection selects the fields it did. -/
structure KeepsFields (graph : FederatedGraphV2) (upgraded : FederatedGraphV3) : Prop where
  strings : graph.strings <+: upgraded.strings
  objectCount : upgraded.objects.length = graph.objects.length
  interfaceCount : upgraded.interfaces.length = graph.interfaces.length
  objects : ∀ id, ∀ object ∈ upgraded.objects[id]?, object.fields.of upgraded.contents =
    (if id = graph.rootOperationTypes.query then
      [reservedContent graph.rootOperationTypes.query "__schema",
        reservedContent graph.rootOperationTypes.query "__type"]
    else []) ++ graph.owned graph.objectFields id
  interfaces : ∀ id, ∀ interface ∈ upgraded.interfaces[id]?,
    interface.fields.of upgraded.contents = graph.owned graph.interfaceFields id
  selections : List.Forall₂ (FieldSet.Related (SameField graph upgraded)) graph.selections upgraded.selections

/-! ## When it does -/

/-- What stands at a place of the fields after the insertion is what was there before. -/
def ReadsTheSame (graph : FederatedGraphV2) (field : Nat) : Prop :=
  field < graph.queryStart ∨
  (field = graph.queryStart ∧
    graph.contents[field]? = some (reservedContent graph.rootOperationTypes.query "__schema")) ∨
  (field = graph.queryStart + 1 ∧
    graph.contents[field]? = some (reservedContent graph.rootOperationTypes.query "__type")) ∨
  (graph.queryStart + 2 ≤ field ∧ graph.contents[field]? = graph.contents[field - 2]?)

/-- No type has more lists than a wrapping holds; the fields of other types than the query type read the same after
the insertion, in particular when they come before those of the query type; and no selected field that is moved is one
of the last two of another type or one of the two before its first. -/
structure Undisturbed (graph : FederatedGraphV2) : Prop where
  fieldLists : ∀ field ∈ graph.fields, ∀ type ∈ graph.fieldTypes[field.fieldTypeId]?, type.listWrappers.length ≤ 21
  inputLists : ∀ definition ∈ graph.inputValueDefinitions, ∀ type ∈ graph.fieldTypes[definition.typeId]?,
    type.listWrappers.length ≤ 21
  objects : ∀ pair ∈ graph.objectFields, pair.1 ≠ graph.rootOperationTypes.query → ReadsTheSame graph pair.2
  interfaces : ∀ pair ∈ graph.interfaceFields, ReadsTheSame graph pair.2
  selectedObjects : ∀ selection ∈ graph.selections, ∀ field ∈ selection.mentioned, graph.queryStart ≤ field →
    ∀ object ≠ graph.rootOperationTypes.query,
      ((object, field) ∈ graph.objectFields ↔ (object, field + 2) ∈ graph.objectFields)
  selectedInterfaces : ∀ selection ∈ graph.selections, ∀ field ∈ selection.mentioned, graph.queryStart ≤ field →
    ∀ interface, ((interface, field) ∈ graph.interfaceFields ↔ (interface, field + 2) ∈ graph.interfaceFields)

/-! ## Ranges -/

def rangeOf (ids : List FieldId) : Option Fields := ids.foldl (fun entry id => some (extendRange entry id)) none

theorem rangeOf_range' (first count : Nat) :
    rangeOf (List.range' first count) = if count = 0 then none else some ⟨first, first + count⟩ := by
  induction count with
  | zero => rfl
  | succ count ih =>
    rw [rangeOf] at ih ⊢
    rw [range'_1_concat, foldl_append, ih]
    cases count <;> rfl

theorem ownedIds_append (front back : List (Nat × FieldId)) (owner : Nat) :
    ownedIds (front ++ back) owner = ownedIds front owner ++ ownedIds back owner := by
  simp [ownedIds]

variable {pairs : List (Nat × FieldId)} {type : FieldTypeV2}

theorem mem_ownedIds {owner : Nat} {id : FieldId} : id ∈ ownedIds pairs owner ↔ (owner, id) ∈ pairs := by
  simp [ownedIds]

/-- The loop over the pairs leaves for every owner the range of its own fields. -/
theorem fieldRanges_eq_ok {owners : Nat} (valid : ∀ pair ∈ pairs, pair.1 < owners) :
    ∃ ranges, fieldRanges owners pairs = .ok ranges ∧ ranges.length = owners ∧
      ∀ owner < owners, ranges[owner]? = some (rangeOf (ownedIds pairs owner)) := by
  induction pairs using List.reverseRecOn with
  | nil => exact ⟨List.replicate owners none, rfl, by simp, fun owner bound => by simp [bound, rangeOf, ownedIds]⟩
  | append_singleton pairs pair ih =>
    obtain ⟨ranges, ran, length, held⟩ := ih fun earlier member => valid earlier (by simp [member])
    have inside : pair.1 < owners := valid pair (by simp)
    refine ⟨ranges.set pair.1 (some (extendRange (rangeOf (ownedIds pairs pair.1)) pair.2)), ?_, by simp [length], ?_⟩
    · rw [fieldRanges] at ran ⊢
      rw [foldlM_append, ran]
      show (addToRange ranges pair >>= fun after => pure after) = _
      rw [addToRange, indexed_eq_ok.mpr (held _ inside)]
      show (assigned ranges pair.1 _ >>= fun after => pure after) = _
      rw [assigned_eq_ok.mpr ⟨length ▸ inside, rfl⟩]
      rfl
    · intro owner bound
      have appended : rangeOf (ownedIds (pairs ++ [pair]) owner) =
          (ownedIds [pair] owner).foldl (fun entry id => some (extendRange entry id))
            (rangeOf (ownedIds pairs owner)) := by
        rw [ownedIds_append, rangeOf, foldl_append, rangeOf]
      rw [appended]
      by_cases same : pair.1 = owner
      · subst same
        rw [getElem?_set_self (length ▸ inside)]
        simp [ownedIds]
      · rw [getElem?_set_ne same, held owner bound]
        simp [ownedIds, same]

/-! ## Types -/

theorem wrapOnce_eq (wrapping : Wrapping) (list : ListWrapping) : wrapOnce wrapping list = wrapping.wrappedBy list := by
  cases list <;> rfl

theorem wrap_eq_ok {lists : List ListWrapping} {wrapping wrapped : Wrapping}
    (ran : lists.foldlM wrapOnce wrapping = .ok wrapped) :
    wrapped.listWrappings = wrapping.listWrappings ++ lists ∧ wrapped.innerIsRequired = wrapping.innerIsRequired := by
  induction lists generalizing wrapping with
  | nil =>
    cases ran
    simp
  | cons list rest ih =>
    rw [foldlM_cons, wrapOnce_eq] at ran
    obtain ⟨middle, first, ran⟩ := bind_eq_ok.mp ran
    obtain ⟨lists, inner, _⟩ := Wrapping.wrappedBy_eq_ok first
    obtain ⟨restLists, restInner⟩ := ih ran
    exact ⟨by simp [restLists, lists], restInner.trans inner⟩

theorem exists_wrap_iff (lists : List ListWrapping) (wrapping : Wrapping) :
    (∃ wrapped, lists.foldlM wrapOnce wrapping = .ok wrapped) ↔ wrapping.stop + lists.length ≤ 21 := by
  induction lists generalizing wrapping with
  | nil => exact ⟨fun _ => wrapping.stop_le, fun _ => ⟨wrapping, rfl⟩⟩
  | cons list rest ih =>
    rw [foldlM_cons, wrapOnce_eq, length_cons]
    constructor
    · rintro ⟨wrapped, ran⟩
      obtain ⟨middle, first, ran⟩ := bind_eq_ok.mp ran
      have bound := (ih middle).mp ⟨wrapped, ran⟩
      rw [(Wrapping.wrappedBy_eq_ok first).2.2] at bound
      omega
    · intro bound
      obtain ⟨middle, first⟩ : ∃ middle, wrapping.wrappedBy list = .ok middle :=
        Wrapping.exists_wrappedBy_iff.mpr (by omega)
      obtain ⟨wrapped, ran⟩ := (ih middle).mpr (by rw [(Wrapping.wrappedBy_eq_ok first).2.2]; omega)
      exact ⟨wrapped, bind_eq_ok.mpr ⟨middle, first, ran⟩⟩

theorem convertTypeV2_content {converted : TypeRef} (ran : convertTypeV2 type = .ok converted) :
    converted.content = type.content := by
  obtain ⟨wrapping, wrapped, ran⟩ := bind_eq_ok.mp ran
  cases ran
  obtain ⟨lists, inner⟩ := wrap_eq_ok wrapped
  rw [(Wrapping.new_spec _).1, nil_append] at lists
  rw [(Wrapping.new_spec _).2] at inner
  simp [TypeRef.content, FieldTypeV2.content, lists, inner]

theorem exists_convertTypeV2_iff :
    (∃ converted, convertTypeV2 type = .ok converted) ↔ type.listWrappers.length ≤ 21 := by
  have empty : (Wrapping.new type.innerIsRequired).stop = 0 := by cases type.innerIsRequired <;> decide
  have wraps := exists_wrap_iff type.listWrappers (Wrapping.new type.innerIsRequired)
  rw [empty, Nat.zero_add] at wraps
  rw [← wraps]
  exact exists_bind_ok_iff fun _ => ⟨_, rfl⟩

/-! ## The converted graph -/

theorem internString_spec (strings : List String) (needle : String) : strings <+: (internString strings needle).2 ∧
      (internString strings needle).2[(internString strings needle).1]? = some needle := by
  unfold internString
  cases found : strings.findIdx? (· == needle) with
  | none => exact ⟨prefix_append _ _, by simp⟩
  | some id =>
    obtain ⟨⟨string, held, same⟩, _⟩ := findIdx?_eq_some_iff_first.mp found
    exact ⟨prefix_rfl, by simpa [← beq_iff_eq.mp same] using held⟩

/-- What the conversion makes of ranges, fields and selections. -/
structure Converted (graph : FederatedGraphV2) (upgraded : FederatedGraphV3) : Prop where
  strings : graph.strings <+: upgraded.strings
  objectCount : upgraded.objects.length = graph.objects.length
  interfaceCount : upgraded.interfaces.length = graph.interfaces.length
  queryRange : ∀ object ∈ upgraded.objects[graph.rootOperationTypes.query]?,
    ∃ count, ownedIds graph.objectFields graph.rootOperationTypes.query = List.range' graph.queryStart count ∧
      object.fields = ⟨graph.queryStart, graph.queryStart + count + 2⟩
  objectRange : ∀ id ≠ graph.rootOperationTypes.query, ∀ object ∈ upgraded.objects[id]?,
    object.fields = (rangeOf (ownedIds graph.objectFields id)).getD ⟨0, 0⟩
  interfaceRange : ∀ id, ∀ interface ∈ upgraded.interfaces[id]?,
    interface.fields = (rangeOf (ownedIds graph.interfaceFields id)).getD ⟨0, 0⟩
  contents : upgraded.contents = graph.contents.take graph.queryStart ++
    [reservedContent graph.rootOperationTypes.query "__schema",
      reservedContent graph.rootOperationTypes.query "__type"] ++
    graph.contents.drop graph.queryStart
  selections : upgraded.selections = graph.selections.map (correctFieldset graph.queryStart)

section Contents
variable {graph : FederatedGraphV2} {upgraded : FederatedGraphV3}

theorem typeContent_of_ok {id : TypeId} {type : TypeRef}
    (ran : (indexed graph.fieldTypes id >>= convertTypeV2) = .ok type) : graph.typeContent id = some type.content := by
  obtain ⟨held, found, converted⟩ := bind_eq_ok.mp ran
  rw [FederatedGraphV2.typeContent, indexed_eq_ok.mp found, Option.map_some, convertTypeV2_content converted]

variable {strings : List String} {id : StringId} {field : FieldV2} {other : Field FieldSet}
  {fields : List (Field FieldSet)} {definitions : List (InputValueDefinition ValueV3)}

theorem string_of_longer {longer : List String} (grown : strings <+: longer)
    (known : id < strings.length) : longer[id]? = strings[id]? := by
  obtain ⟨rest, rfl⟩ := grown
  exact getElem?_append_left known

theorem Span.map_of {α β : Type} (span : Span) (items : List α) (change : α → β) :
    span.of (items.map change) = (span.of items).map change := by
  rw [Span.of, Span.of, map_take, map_drop]

section
variable (grown : graph.strings <+: upgraded.strings)
  (directives : upgraded.directives = graph.directives.map convertDirectiveV2)
include grown directives

theorem argumentContent_converted {definition : InputValueDefinitionV2} (known : definition.name < graph.strings.length)
    {other : InputValueDefinition ValueV3}
    (converted : convertInputValueDefinitionV2 graph.fieldTypes definition = .ok other) :
    upgraded.argumentContent other = graph.argumentContent definition := by
  simp only [convertInputValueDefinitionV2, ← bind_assoc] at converted
  obtain ⟨type, found, isOther⟩ := bind_eq_ok.mp converted
  cases isOther
  rw [FederatedGraphV3.argumentContent, FederatedGraphV2.argumentContent, typeContent_of_ok found,
    string_of_longer grown known, directives, Span.map_of]

theorem fieldContent_converted (arguments : upgraded.inputValueDefinitions.map upgraded.argumentContent =
      graph.inputValueDefinitions.map graph.argumentContent) (known : field.name < graph.strings.length)
    (converted : convertFieldV2 graph.fieldTypes field = .ok other) (originalStart : Nat) :
    upgraded.fieldContent (correctField originalStart other) = graph.fieldContent field := by
  simp only [convertFieldV2, ← bind_assoc] at converted
  obtain ⟨type, found, isOther⟩ := bind_eq_ok.mp converted
  cases isOther
  have sameArguments : (field.arguments.of upgraded.inputValueDefinitions).map upgraded.argumentContent =
      (field.arguments.of graph.inputValueDefinitions).map graph.argumentContent := by
    rw [← Span.map_of, arguments, Span.map_of]
  rw [FederatedGraphV3.fieldContent, FederatedGraphV2.fieldContent, typeContent_of_ok found]
  simp only [correctField, string_of_longer grown known, directives, Span.map_of, sameArguments]

end

theorem fieldContent_reserved {query : ObjectId} {name : String} (held : upgraded.strings[id]? = some name)
    (originalStart : Nat) : upgraded.fieldContent (correctField originalStart (reservedField query id)) =
      reservedContent query name := by
  rw [FederatedGraphV3.fieldContent, reservedContent]
  have plain : TypeRef.content ⟨Wrapping.new false, .object query⟩ = ⟨.object query, false, []⟩ := by
    rw [TypeRef.content, (Wrapping.new_spec false).1, (Wrapping.new_spec false).2]
  simp [correctField, reservedField, held, plain, Span.of]

theorem queryRange_eq (wellFormed : graph.WellFormed) : ∃ count, 0 < count ∧
      ownedIds graph.objectFields graph.rootOperationTypes.query = List.range' graph.queryStart count ∧
      rangeOf (ownedIds graph.objectFields graph.rootOperationTypes.query) =
        some ⟨graph.queryStart, graph.queryStart + count⟩ := by
  obtain ⟨first, count, consecutive⟩ := wellFormed.objectsConsecutive graph.rootOperationTypes.query
  have nonEmpty := wellFormed.queryFields
  rw [consecutive, Ne, range'_eq_nil_iff] at nonEmpty
  obtain ⟨more, rfl⟩ := Nat.exists_eq_succ_of_ne_zero nonEmpty
  have start : graph.queryStart = first := by rw [FederatedGraphV2.queryStart, consecutive]; rfl
  exact ⟨more + 1, by omega, by rw [consecutive, start], by rw [consecutive, rangeOf_range', if_neg nonEmpty, start]⟩

theorem queryStart_le (wellFormed : graph.WellFormed) : graph.queryStart ≤ graph.fields.length := by
  obtain ⟨count, positive, queryIds, _⟩ := queryRange_eq wellFormed
  have first : graph.queryStart ∈ ownedIds graph.objectFields graph.rootOperationTypes.query := by
    rw [queryIds]
    exact mem_range'_1.mpr ⟨Nat.le_refl _, by omega⟩
  exact (wellFormed.objectFields _ (mem_ownedIds.mp first)).2.le

theorem map_zipWith_left {α β γ δ : Type} {combine : α → β → γ} {read : γ → δ} {describe : α → δ} {items : List α}
    {others : List β} (length : items.length = others.length)
    (same : ∀ item other, read (combine item other) = describe item) :
    (List.zipWith combine items others).map read = items.map describe := by
  induction items generalizing others with
  | nil => rfl
  | cons item rest ih =>
    cases others with
    | nil => cases length
    | cons other others => rw [zipWith_cons_cons, map_cons, map_cons, same, ih (Nat.succ.inj length)]

abbrev withReserved (query : ObjectId) (schemaName typeName : StringId) (originalStart : Nat)
    (fields : List (Field FieldSet)) : List (Field FieldSet) :=
  fields.take originalStart ++ [reservedField query schemaName, reservedField query typeName] ++
    fields.drop originalStart

section
variable (fieldsRan : graph.fields.mapM (convertFieldV2 graph.fieldTypes) = .ok fields)
include fieldsRan

theorem selections_assembleV3 (originalStart : Nat) (schemaName typeName : StringId)
    (definitions : List (InputValueDefinition ValueV3)) {objectFields interfaceFields : List (Option Fields)}
    (objectCount : graph.objects.length = objectFields.length)
    (interfaceCount : graph.interfaces.length = interfaceFields.length) (strings : List String) :
    (assembleV3 graph originalStart (withReserved graph.rootOperationTypes.query schemaName typeName
      originalStart fields)
      definitions objectFields interfaceFields strings).selections =
        graph.selections.map (correctFieldset originalStart) := by
  let corrected (selections : List FieldSet) := selections.map (correctFieldset originalStart)
  have ofObjects : (List.zipWith (convertObjectV2 originalStart) graph.objects objectFields).map
      (fun object => object.keys.map Key.fields) =
        graph.objects.map fun object => corrected (object.keys.map Key.fields) :=
    map_zipWith_left objectCount fun object _ => by simp [convertObjectV2, correctKeys, corrected, Function.comp_def]
  have ofInterfaces : (List.zipWith (convertInterfaceV2 originalStart) graph.interfaces interfaceFields).map
      (fun interface => interface.keys.map Key.fields) =
        graph.interfaces.map fun interface => corrected (interface.keys.map Key.fields) :=
    map_zipWith_left interfaceCount fun interface _ => by
      simp [convertInterfaceV2, correctKeys, corrected, Function.comp_def]
  let selected (field : Field FieldSet) := field.provides.map FieldProvides.fields ++
    field.requires.map FieldRequires.fields
  have ofFields : fields.map (fun field => selected (correctField originalStart field)) = graph.fields.map fun field =>
      corrected (field.provides.map FieldProvides.fields ++ field.requires.map FieldRequires.fields) := by
    refine map_eq_of_mapM fieldsRan fun field _ other converted => ?_
    simp only [convertFieldV2, ← bind_assoc] at converted
    obtain ⟨type, _, isOther⟩ := bind_eq_ok.mp converted
    cases isOther
    simp [selected, corrected, correctField, Function.comp_def]
  -- The reserved fields select nothing, so that it does not show that they cut the others in two.
  have uncut (query : ObjectId) : ((withReserved query schemaName typeName originalStart fields).map
        (correctField originalStart)).flatMap selected =
      (fields.map fun field => selected (correctField originalStart field)).flatten := by
    rw [map_append, map_append, flatMap_append, flatMap_append]
    have nothing : ([reservedField query schemaName, reservedField query typeName].map
      (correctField originalStart)).flatMap selected = [] := rfl
    rw [nothing, append_nil, ← flatMap_append, ← map_append, take_append_drop, flatMap_map, flatMap_def]
  rw [FederatedGraphV3.selections, FederatedGraphV2.selections, map_append, map_append]
  refine congrArg₂ _ (congrArg₂ _ ?_ ?_) ?_
  · exact (congrArg List.flatten ofObjects).trans (by rw [map_flatMap, flatMap_def])
  · exact (congrArg List.flatten ofInterfaces).trans (by rw [map_flatMap, flatMap_def])
  · exact (uncut _).trans (by rw [ofFields, map_flatMap, flatMap_def])

variable (wellFormed : graph.WellFormed)
  (definitionsRan : graph.inputValueDefinitions.mapM (convertInputValueDefinitionV2 graph.fieldTypes) = .ok definitions)
include wellFormed definitionsRan

theorem contents_assembleV3 (originalStart : Nat) {schemaName typeName : StringId}
    (objectFields interfaceFields : List (Option Fields)) (grown : graph.strings <+: strings)
    (schema : strings[schemaName]? = some "__schema") (type : strings[typeName]? = some "__type") :
    (assembleV3 graph originalStart (withReserved graph.rootOperationTypes.query schemaName typeName
      originalStart fields)
      definitions objectFields interfaceFields strings).contents =
      graph.contents.take originalStart ++ [reservedContent graph.rootOperationTypes.query "__schema",
        reservedContent graph.rootOperationTypes.query "__type"] ++ graph.contents.drop originalStart := by
  rw [FederatedGraphV3.contents]
  generalize graph.rootOperationTypes.query = query
  generalize isUpgraded : assembleV3 graph originalStart (withReserved query schemaName typeName originalStart fields)
    definitions objectFields interfaceFields strings = upgraded
  have isFields : upgraded.fields =
      (withReserved query schemaName typeName originalStart fields).map (correctField originalStart) := by
    rw [← isUpgraded, assembleV3]
  have isStrings : upgraded.strings = strings := by rw [← isUpgraded, assembleV3]
  have isDirectives : upgraded.directives = graph.directives.map convertDirectiveV2 := by rw [← isUpgraded, assembleV3]
  have isDefinitions : upgraded.inputValueDefinitions = definitions := by rw [← isUpgraded, assembleV3]
  rw [← isStrings] at grown schema type
  rw [← isDefinitions] at definitionsRan
  have arguments := map_eq_of_mapM definitionsRan fun definition member other converted =>
    argumentContent_converted grown isDirectives (wellFormed.inputNames definition member) converted
  have kept : fields.map (fun field => upgraded.fieldContent (correctField originalStart field)) = graph.contents :=
    map_eq_of_mapM fieldsRan fun field member other converted =>
      fieldContent_converted grown isDirectives arguments (wellFormed.fieldNames field member) converted originalStart
  rw [isFields, map_map, ← kept, ← map_take, ← map_drop]
  simp [map_append, Function.comp_def, fieldContent_reserved schema, fieldContent_reserved type]

/-- Once fields and input values are converted, nothing else fails. -/
theorem fromV2_converted : ∃ upgraded, fromV2 graph = .ok upgraded ∧ Converted graph upgraded := by
  obtain ⟨objectFields, objectsRan, objectCount, objectRanges⟩ :=
    fieldRanges_eq_ok fun pair member => (wellFormed.objectFields pair member).1
  obtain ⟨interfaceFields, interfacesRan, interfaceCount, interfaceRanges⟩ :=
    fieldRanges_eq_ok fun pair member => (wellFormed.interfaceFields pair member).1
  obtain ⟨count, positive, queryIds, queryRange⟩ := queryRange_eq wellFormed
  have queryEntry := objectRanges _ wellFormed.query
  rw [queryRange] at queryEntry
  have inside : graph.queryStart ≤ fields.length :=
    (queryStart_le wellFormed).trans_eq (mapM_eq_ok_iff.mp fieldsRan).length_eq
  let ranges := objectFields.set graph.rootOperationTypes.query (some ⟨graph.queryStart, graph.queryStart + count + 2⟩)
  have rangesAssigned : assigned objectFields graph.rootOperationTypes.query
      (some ⟨graph.queryStart, graph.queryStart + count + 2⟩) = .ok ranges :=
    assigned_eq_ok.mpr ⟨objectCount ▸ wellFormed.query, rfl⟩
  let schema := internString graph.strings "__schema"
  let type := internString schema.2 "__type"
  have schemaInterned : graph.strings <+: schema.2 ∧ schema.2[schema.1]? = some "__schema" := internString_spec _ _
  have typeInterned : schema.2 <+: type.2 ∧ type.2[type.1]? = some "__type" := internString_spec _ _
  have schemaKept : type.2[schema.1]? = some "__schema" :=
    getElem?_of_front typeInterned.1 schemaInterned.2
  have grown := schemaInterned.1.trans typeInterned.1
  refine ⟨assembleV3 graph graph.queryStart (withReserved graph.rootOperationTypes.query schema.1 type.1
    graph.queryStart
    fields) definitions ranges interfaceFields type.2, ?_, ?_⟩
  · refine bind_eq_ok.mpr ⟨fields, fieldsRan, bind_eq_ok.mpr ⟨definitions, definitionsRan, ?_⟩⟩
    refine bind_eq_ok.mpr ⟨objectFields, objectsRan, bind_eq_ok.mpr ⟨interfaceFields, interfacesRan, ?_⟩⟩
    refine bind_eq_ok.mpr ⟨_, indexed_eq_ok.mpr queryEntry, bind_eq_ok.mpr ⟨ranges, rangesAssigned, ?_⟩⟩
    exact bind_eq_ok.mpr ⟨_, if_pos inside, rfl⟩
  constructor
  case strings => exact grown
  case objectCount => simp [assembleV3, ranges, objectCount]
  case interfaceCount => simp [assembleV3, interfaceCount]
  case queryRange =>
    intro object found
    obtain ⟨original, range, _, isRange, rfl⟩ := getElem?_zipWith_eq_some.mp found
    rw [getElem?_set_self (objectCount ▸ wellFormed.query)] at isRange
    exact ⟨count, queryIds, by rw [← Option.some.inj isRange]; rfl⟩
  case objectRange =>
    intro id other object found
    obtain ⟨original, range, isOriginal, isRange, rfl⟩ := getElem?_zipWith_eq_some.mp found
    rw [List.getElem?_set_ne (Ne.symm other), objectRanges id (index_lt isOriginal)] at isRange
    rw [Option.some.inj isRange]
    rfl
  case interfaceRange =>
    intro id interface found
    obtain ⟨original, range, isOriginal, isRange, rfl⟩ := getElem?_zipWith_eq_some.mp found
    rw [interfaceRanges id (index_lt isOriginal)] at isRange
    rw [Option.some.inj isRange]
    rfl
  case contents =>
    exact contents_assembleV3 fieldsRan wellFormed definitionsRan _ _ _ grown schemaKept typeInterned.2
  case selections =>
    exact selections_assembleV3 fieldsRan _ _ _ _ (by simp [ranges, objectCount]) interfaceCount.symm _

end

section
variable (wellFormed : graph.WellFormed)
include wellFormed

/-- The conversion succeeds when no type has more lists than a wrapping holds. -/
theorem fromV2_ok_iff : (∃ upgraded, fromV2 graph = .ok upgraded) ↔
      (∀ field ∈ graph.fields, ∀ type ∈ graph.fieldTypes[field.fieldTypeId]?, type.listWrappers.length ≤ 21) ∧
        ∀ definition ∈ graph.inputValueDefinitions, ∀ type ∈ graph.fieldTypes[definition.typeId]?,
          type.listWrappers.length ≤ 21 := by
  have types {id : TypeId} (known : id < graph.fieldTypes.length) :
      (∃ type, (indexed graph.fieldTypes id >>= convertTypeV2) = .ok type) ↔
        ∀ type ∈ graph.fieldTypes[id]?, type.listWrappers.length ≤ 21 := by
    have found : graph.fieldTypes[id]? = some graph.fieldTypes[id] := getElem?_eq_getElem known
    rw [indexed_eq_ok.mpr found]
    show (∃ type, convertTypeV2 graph.fieldTypes[id] = .ok type) ↔ _
    rw [exists_convertTypeV2_iff, found]
    simp
  have fields : (∃ fields, graph.fields.mapM (convertFieldV2 graph.fieldTypes) = .ok fields) ↔
      ∀ field ∈ graph.fields, ∀ type ∈ graph.fieldTypes[field.fieldTypeId]?, type.listWrappers.length ≤ 21 := by
    rw [exists_mapM_iff]
    refine forall₂_congr fun field member => ?_
    rw [← types (wellFormed.fieldTypes field member)]
    simp only [convertFieldV2, ← bind_assoc]
    exact exists_bind_ok_iff fun _ => ⟨_, rfl⟩
  have definitions : (∃ definitions, graph.inputValueDefinitions.mapM (convertInputValueDefinitionV2 graph.fieldTypes) =
      .ok definitions) ↔ ∀ definition ∈ graph.inputValueDefinitions, ∀ type ∈ graph.fieldTypes[definition.typeId]?,
        type.listWrappers.length ≤ 21 := by
    rw [exists_mapM_iff]
    refine forall₂_congr fun definition member => ?_
    rw [← types (wellFormed.inputTypes definition member)]
    simp only [convertInputValueDefinitionV2, ← bind_assoc]
    exact exists_bind_ok_iff fun _ => ⟨_, rfl⟩
  rw [← fields, ← definitions]
  constructor
  · rintro ⟨upgraded, ran⟩
    obtain ⟨converted, fieldsRan, ran⟩ := bind_eq_ok.mp ran
    obtain ⟨inputs, definitionsRan, _⟩ := bind_eq_ok.mp ran
    exact ⟨⟨converted, fieldsRan⟩, ⟨inputs, definitionsRan⟩⟩
  · rintro ⟨⟨converted, fieldsRan⟩, ⟨inputs, definitionsRan⟩⟩
    obtain ⟨upgraded, ran, _⟩ := fromV2_converted fieldsRan wellFormed definitionsRan
    exact ⟨upgraded, ran⟩

theorem converted_of_fromV2 (ran : fromV2 graph = .ok upgraded) : Converted graph upgraded := by
  obtain ⟨fields, fieldsRan, rest⟩ := bind_eq_ok.mp ran
  obtain ⟨definitions, definitionsRan, _⟩ := bind_eq_ok.mp rest
  obtain ⟨other, again, converted⟩ := fromV2_converted fieldsRan wellFormed definitionsRan
  exact Except.ok.inj (again.symm.trans ran) ▸ converted

end
end Contents

/-! ## Places of fields -/

variable {α : Type}

theorem filterMap_range' (items : List α) (first count : Nat) :
    (List.range' first count).filterMap (fun id => items[id]?) = (items.drop first).take count := by
  induction count generalizing first with
  | zero => simp
  | succ count ih =>
    rw [range'_succ, filterMap_cons, ih]
    rcases Nat.lt_or_ge first items.length with inside | past
    · rw [getElem?_eq_getElem inside, drop_eq_getElem_cons inside, take_succ_cons]
    · rw [getElem?_eq_none past, drop_eq_nil_of_le past, drop_eq_nil_of_le (by omega)]
      simp

theorem slice_eq_iff {items others : List α} {first count : Nat} :
    (items.drop first).take count = (others.drop first).take count ↔
      ∀ id ∈ List.range' first count, items[id]? = others[id]? := by
  constructor
  · intro same id member
    obtain ⟨above, below⟩ := mem_range'_1.mp member
    have there := congrArg (fun slice => slice[id - first]?) same
    simpa [getElem?_take, getElem?_drop, show id - first < count by omega,
      show first + (id - first) = id by omega] using there
  · intro same
    apply ext_getElem?
    intro index
    rw [getElem?_take, getElem?_take, getElem?_drop, getElem?_drop]
    split
    · next below => exact same _ (mem_range'_1.mpr ⟨by omega, by omega⟩)
    · rfl

theorem range_of (items : List α) (first count : Nat) :
    ((rangeOf (List.range' first count)).getD ⟨0, 0⟩).of items = (items.drop first).take count := by
  rw [rangeOf_range', Fields.of]
  split
  · next empty => simp [empty]
  · simp

theorem mem_range_iff {first count id : Nat} : ((rangeOf (List.range' first count)).getD ⟨0, 0⟩).start ≤ id ∧
        id < ((rangeOf (List.range' first count)).getD ⟨0, 0⟩).stop ↔ id ∈ List.range' first count := by
  rw [rangeOf_range', mem_range'_1]
  split
  · next empty => simp [empty]
  · simp

def moved (originalStart field : Nat) : Nat := if field ≥ originalStart then field + 2 else field

theorem related_correctFieldset {same : FieldId → FieldId → Prop} {originalStart : Nat} {selection : FieldSet} :
    FieldSet.Related same selection (correctFieldset originalStart selection) ↔
      ∀ field ∈ selection.mentioned, same field (moved originalStart field) := by
  induction selection with
  | nil => exact iff_of_true .nil (by simp [FieldSet.mentioned])
  | item field arguments subselection rest ihSub ihRest =>
    rw [correctFieldset, FieldSet.mentioned, cons_append, forall_mem_cons, forall_mem_append, ← ihSub, ← ihRest]
    constructor
    · intro related
      cases related with
      | item isSame sub others => exact ⟨isSame, sub, others⟩
    · rintro ⟨isSame, sub, others⟩
      exact .item isSame sub others

theorem moved_in_range (start count field : Nat) :
    start ≤ moved start field ∧ moved start field < start + count + 2 ↔ start ≤ field ∧ field < start + count := by
  unfold moved
  split <;> omega

section Insertion
variable {items : List α} {start : Nat} (first second : α)

theorem getElem?_inserted_moved (inside : start ≤ items.length) (field : Nat) :
    (items.take start ++ [first, second] ++ items.drop start)[moved start field]? = items[field]? := by
  have length : (items.take start).length = start := by simp [inside]
  rw [moved, append_assoc]
  split
  · next after =>
    rw [getElem?_append_right (by omega), length,
      getElem?_append_right (by simp only [length_cons, length_nil]; omega), getElem?_drop]
    congr 1
    simp only [length_cons, length_nil]
    omega
  · next before => rw [getElem?_append_left (by omega), getElem?_take_of_lt (by omega)]

theorem drop_inserted (inside : start ≤ items.length) :
    (items.take start ++ [first, second] ++ items.drop start).drop start = [first, second] ++ items.drop start := by
  rw [append_assoc, drop_append_of_le_length (by simp [inside]), drop_take_self, nil_append]

end Insertion

section Settled
variable {graph : FederatedGraphV2} {upgraded : FederatedGraphV3}

theorem queryStart_le_contents (wellFormed : graph.WellFormed) : graph.queryStart ≤ graph.contents.length :=
  (queryStart_le wellFormed).trans_eq (length_map _).symm

theorem readsTheSame_iff (wellFormed : graph.WellFormed) (converted : Converted graph upgraded) (field : Nat) :
    upgraded.contents[field]? = graph.contents[field]? ↔ ReadsTheSame graph field := by
  have inside := queryStart_le_contents wellFormed
  rw [converted.contents, ReadsTheSame]
  generalize reservedContent graph.rootOperationTypes.query "__schema" = first
  generalize reservedContent graph.rootOperationTypes.query "__type" = second
  have moves := getElem?_inserted_moved first second inside
  -- Before the insertion, at the two inserted fields, and behind them.
  rcases Nat.lt_or_ge field graph.queryStart with before | after
  · have stays : moved graph.queryStart field = field := if_neg (by omega)
    have same := moves field
    rw [stays] at same
    exact iff_of_true same (.inl before)
  rcases Nat.eq_or_lt_of_le after with rfl | behind
  · simp [inside, eq_comm]
  rcases Nat.eq_or_lt_of_le behind with rfl | behind
  · simp [inside, eq_comm]
  · have isMoved : moved graph.queryStart (field - 2) = field := by
      rw [moved, if_pos (by omega)]
      omega
    have same := moves (field - 2)
    rw [isMoved] at same
    rw [same]
    constructor
    · exact fun twoBefore => .inr (.inr (.inr ⟨by omega, twoBefore.symm⟩))
    · rintro (no | ⟨no, _⟩ | ⟨no, _⟩ | ⟨_, twoBefore⟩)
      · omega
      · omega
      · omega
      · exact twoBefore.symm

theorem owned_eq_slice {owner first count : Nat} (consecutive : ownedIds pairs owner = List.range' first count) :
    graph.owned pairs owner = (graph.contents.drop first).take count := by
  rw [FederatedGraphV2.owned, consecutive, filterMap_range']

section
variable (wellFormed : graph.WellFormed) (converted : Converted graph upgraded)
include wellFormed converted

theorem range_reads_iff {owner : Nat} (consecutive : ∃ first count, ownedIds pairs owner = List.range' first count) :
    ((rangeOf (ownedIds pairs owner)).getD ⟨0, 0⟩).of upgraded.contents = graph.owned pairs owner ↔
    ∀ field, (owner, field) ∈ pairs → ReadsTheSame graph field := by
  obtain ⟨first, count, consecutive⟩ := consecutive
  rw [owned_eq_slice consecutive, consecutive, range_of, slice_eq_iff]
  refine forall_congr' fun field => ?_
  rw [readsTheSame_iff wellFormed converted, ← consecutive, mem_ownedIds]

omit wellFormed converted in
theorem ownerRange_iff {owners : List α} {range : α → Fields} {owner field : Nat}
    (consecutive : ∃ first count, ownedIds pairs owner = List.range' first count)
    (known : (owner, field) ∈ pairs → owner < owners.length)
    (isRange : ∀ item ∈ owners[owner]?, range item = (rangeOf (ownedIds pairs owner)).getD ⟨0, 0⟩) :
    (∃ item ∈ owners[owner]?, (range item).start ≤ field ∧ field < (range item).stop) ↔ (owner, field) ∈ pairs := by
  obtain ⟨first, count, consecutive⟩ := consecutive
  have inRange (item : α) (found : item ∈ owners[owner]?) :
      (range item).start ≤ field ∧ field < (range item).stop ↔ (owner, field) ∈ pairs := by
    rw [isRange item found, consecutive, mem_range_iff, ← consecutive, mem_ownedIds]
  constructor
  · rintro ⟨item, found, isIn⟩
    exact (inRange item found).mp isIn
  · intro member
    have found := getElem?_eq_getElem (known member)
    exact ⟨_, found, (inRange _ found).mpr member⟩

theorem objectRange_iff {id : ObjectId} (other : id ≠ graph.rootOperationTypes.query) (field : Nat) :
    (∃ object ∈ upgraded.objects[id]?, object.fields.start ≤ field ∧ field < object.fields.stop) ↔
    (id, field) ∈ graph.objectFields :=
  ownerRange_iff (wellFormed.objectsConsecutive id)
    (fun member => (wellFormed.objectFields _ member).1.trans_eq converted.objectCount.symm)
    (converted.objectRange id other)

theorem interfaceRange_iff (id : InterfaceId) (field : Nat) :
    (∃ interface ∈ upgraded.interfaces[id]?, interface.fields.start ≤ field ∧ field < interface.fields.stop) ↔
      (id, field) ∈ graph.interfaceFields :=
  ownerRange_iff (wellFormed.interfacesConsecutive id)
    (fun member => (wellFormed.interfaceFields _ member).1.trans_eq converted.interfaceCount.symm)
    (converted.interfaceRange id)

/-- A selected field keeps its name; it keeps its owners when no other type is cut between its places. -/
theorem sameField_moved_iff {field : Nat}
    (known : field < graph.fields.length) : SameField graph upgraded field (moved graph.queryStart field) ↔
      graph.queryStart ≤ field → (∀ object ≠ graph.rootOperationTypes.query,
          ((object, field) ∈ graph.objectFields ↔ (object, field + 2) ∈ graph.objectFields)) ∧
        ∀ interface, ((interface, field) ∈ graph.interfaceFields ↔ (interface, field + 2) ∈ graph.interfaceFields) := by
  have bound : field < graph.contents.length := by rwa [FederatedGraphV2.contents, length_map]
  have named : ∃ content otherContent, graph.contents[field]? = some content ∧
      upgraded.contents[moved graph.queryStart field]? = some otherContent ∧ content.name = otherContent.name := by
    refine ⟨graph.contents[field], graph.contents[field], getElem?_eq_getElem bound, ?_, rfl⟩
    rw [converted.contents, getElem?_inserted_moved _ _ (queryStart_le_contents wellFormed), getElem?_eq_getElem bound]
  have ranges : SameField graph upgraded field (moved graph.queryStart field) ↔
      (∀ object ≠ graph.rootOperationTypes.query,
        ((object, field) ∈ graph.objectFields ↔ (object, moved graph.queryStart field) ∈ graph.objectFields)) ∧
      ∀ interface,
        ((interface, field) ∈ graph.interfaceFields ↔
          (interface, moved graph.queryStart field) ∈ graph.interfaceFields) := by
    constructor
    · intro same
      exact ⟨fun id other => (same.objects id).trans (objectRange_iff wellFormed converted other _),
        fun id => (same.interfaces id).trans (interfaceRange_iff wellFormed converted id _)⟩
    · rintro ⟨objects, interfaces⟩
      refine ⟨named, fun id => ?_, fun id => (interfaces id).trans (interfaceRange_iff wellFormed converted id _).symm⟩
      by_cases other : id = graph.rootOperationTypes.query
      · subst other
        have found := getElem?_eq_getElem (wellFormed.query.trans_eq converted.objectCount.symm)
        obtain ⟨count, queryIds, isFields⟩ := converted.queryRange _ found
        rw [← mem_ownedIds, queryIds, mem_range'_1, found]
        simp only [Option.mem_def, Option.some.injEq, exists_eq_left', isFields]
        exact (moved_in_range _ _ _).symm
      · exact (objects id other).trans (objectRange_iff wellFormed converted other _).symm
  rw [ranges, moved]
  split
  · next after => simp [after]
  · next before => simp [before]

end

/-- The conversion keeps fields and selections exactly for undisturbed graphs. -/
theorem fromV2_keepsFields_iff (graph : FederatedGraphV2) (wellFormed : graph.WellFormed) :
    (∃ upgraded, fromV2 graph = .ok upgraded ∧ KeepsFields graph upgraded) ↔ Undisturbed graph := by
  constructor
  · rintro ⟨upgraded, ran, keeps⟩
    have converted := converted_of_fromV2 wellFormed ran
    obtain ⟨fieldLists, inputLists⟩ := (fromV2_ok_iff wellFormed).mp ⟨upgraded, ran⟩
    have selected {selection : FieldSet} (member : selection ∈ graph.selections) {field : FieldId}
        (mentioned : field ∈ selection.mentioned) := by
      have related := keeps.selections
      rw [converted.selections, forall₂_map_right_iff, forall₂_same] at related
      exact (sameField_moved_iff wellFormed converted (wellFormed.selections selection member field mentioned)).mp
        (related_correctFieldset.mp (related selection member) field mentioned)
    refine ⟨fieldLists, inputLists, ?_, ?_, fun selection member field mentioned after => ?_,
      fun selection member field mentioned after => ?_⟩
    · rintro ⟨id, field⟩ member other
      have found := getElem?_eq_getElem ((wellFormed.objectFields _ member).1.trans_eq converted.objectCount.symm)
      have reads := keeps.objects id _ found
      rw [if_neg other, nil_append, converted.objectRange id other _ found] at reads
      exact (range_reads_iff wellFormed converted (wellFormed.objectsConsecutive id)).mp reads field member
    · rintro ⟨id, field⟩ member
      have found := getElem?_eq_getElem ((wellFormed.interfaceFields _ member).1.trans_eq converted.interfaceCount.symm)
      have reads := keeps.interfaces id _ found
      rw [converted.interfaceRange id _ found] at reads
      exact (range_reads_iff wellFormed converted (wellFormed.interfacesConsecutive id)).mp reads field member
    · exact (selected member mentioned after).1
    · exact (selected member mentioned after).2
  · intro undisturbed
    obtain ⟨upgraded, ran⟩ := (fromV2_ok_iff wellFormed).mpr ⟨undisturbed.fieldLists, undisturbed.inputLists⟩
    have converted := converted_of_fromV2 wellFormed ran
    refine ⟨upgraded, ran, converted.strings, converted.objectCount, converted.interfaceCount,
      fun id object found => ?_,
      fun id interface found => ?_, ?_⟩
    · split
      · next isQuery =>
        subst isQuery
        obtain ⟨count, queryIds, isFields⟩ := converted.queryRange object found
        rw [isFields, Fields.of, owned_eq_slice queryIds, converted.contents,
          drop_inserted _ _ (queryStart_le_contents wellFormed)]
        rw [show graph.queryStart + count + 2 - graph.queryStart = count + 2 by omega]
        rfl
      · next other =>
        rw [nil_append, converted.objectRange id other object found]
        exact (range_reads_iff wellFormed converted (wellFormed.objectsConsecutive id)).mpr
          fun field member => undisturbed.objects (id, field) member other
    · rw [converted.interfaceRange id interface found]
      exact (range_reads_iff wellFormed converted (wellFormed.interfacesConsecutive id)).mpr
        fun field member => undisturbed.interfaces (id, field) member
    · rw [converted.selections, forall₂_map_right_iff, forall₂_same]
      intro selection member
      refine related_correctFieldset.mpr fun field mentioned => ?_
      refine (sameField_moved_iff wellFormed converted (wellFormed.selections selection member field mentioned)).mpr ?_
      exact fun after => ⟨undisturbed.selectedObjects selection member field mentioned after,
        undisturbed.selectedInterfaces selection member field mentioned after⟩

end Settled

/-- `type Query { user: User }` and `type User @key(fields: "id") { id: ID }`, with the field of the query type stored
first or last. -/
def accounts (queryFirst : Bool) : FederatedGraphV2 :=
  let user : FieldV2 := { name := 2, fieldTypeId := 0 }
  let id : FieldV2 := { name := 3, fieldTypeId := 1 }
  let userField := if queryFirst then 0 else 1
  let idField := if queryFirst then 1 else 0
  { rootOperationTypes := { query := 0 }
    objects := [{ name := 0 }, { name := 1, keys := [⟨0, .item idField [] .nil .nil, false, true⟩] }]
    objectFields := [(0, userField), (1, idField)]
    fields := if queryFirst then [user, id] else [id, user]
    scalars := [{ name := 4 }]
    strings := ["Query", "User", "user", "id", "ID"]
    fieldTypes := [⟨.object 1, false, []⟩, ⟨.scalar 0, false, []⟩] }

theorem accounts_wellFormed (queryFirst : Bool) : (accounts queryFirst).WellFormed := by
  have objectsConsecutive (object : Nat) : ∃ first count,
      ownedIds (accounts queryFirst).objectFields object = List.range' first count := by
    rcases object with _ | _ | object
    · exact ⟨_, 1, rfl⟩
    · exact ⟨_, 1, rfl⟩
    · exact ⟨0, 0, rfl⟩
  constructor
  case objectsConsecutive => exact objectsConsecutive
  case interfacesConsecutive => exact fun _ => ⟨0, 0, rfl⟩
  all_goals cases queryFirst <;> decide

/-- With the query type stored last, everything is kept. -/
theorem fromV2_keepsFields_accounts : ∃ upgraded, fromV2 (accounts false) = .ok upgraded ∧
    KeepsFields (accounts false) upgraded := by
  have onlyId : ∀ selection ∈ (accounts false).selections, ∀ field ∈ selection.mentioned, field < 1 := by decide
  refine (fromV2_keepsFields_iff (accounts false) (accounts_wellFormed false)).mpr ?_
  refine ⟨by decide, by decide, fun pair member other => ?_, by simp [accounts],
    fun selection member field selected after =>
    ?_, fun selection member field selected after => ?_⟩
  · have before : ∀ pair ∈ (accounts false).objectFields, pair.1 ≠ (accounts false).rootOperationTypes.query →
        pair.2 < (accounts false).queryStart := by decide
    exact .inl (before pair member other)
  · exact absurd (onlyId selection member field selected) (Nat.not_lt.mpr after)
  · exact absurd (onlyId selection member field selected) (Nat.not_lt.mpr after)

/-- With the query type stored first, `User` has `__type` in place of `id`. -/
theorem fromV2_moves_fields : (accounts true).WellFormed ∧
    (fromV2 (accounts true)).toOption.map (fun upgraded => upgraded.objects.map fun object =>
      (object.fields.of upgraded.contents).map FieldContent.name) =
        some [[some "__schema", some "__type", some "user"], [some "__type"]] ∧
    ¬ ∃ upgraded, fromV2 (accounts true) = .ok upgraded ∧ KeepsFields (accounts true) upgraded := by
  have names : (fromV2 (accounts true)).toOption.map (fun upgraded => upgraded.objects.map fun object =>
      (object.fields.of upgraded.contents).map FieldContent.name) =
        some [[some "__schema", some "__type", some "user"], [some "__type"]] := rfl
  refine ⟨accounts_wellFormed true, names, ?_⟩
  rintro ⟨upgraded, ran, keeps⟩
  rw [ran] at names
  have objects : upgraded.objects.map (fun object => (object.fields.of upgraded.contents).map FieldContent.name) =
      [[some "__schema", some "__type", some "user"], [some "__type"]] := Option.some.inj names
  have second := congrArg (fun names => names[1]?) objects
  rw [getElem?_map] at second
  obtain ⟨object, found, isSecond⟩ := Option.map_eq_some_iff.mp second
  rw [keeps.objects 1 object found] at isSecond
  have kept : ((accounts true).owned (accounts true).objectFields 1).map FieldContent.name = [some "id"] := rfl
  exact absurd isSecond (by decide)

end FederatedGraph
end Grafbase
