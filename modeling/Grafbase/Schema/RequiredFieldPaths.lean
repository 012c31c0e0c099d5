import Grafbase.Schema.Build

/-! Required field sets as sets of paths.

The values that an occurrence of a field gives to its arguments are stored anew,
so that only occurrences that leave all arguments to their defaults share an id.
-/

set_option autoImplicit false

namespace Grafbase.Schema
open Foundation List
open RequiredFieldSetRecord (union_eq fromIter unionCow)
open FederatedGraph (Value Selections InputValueDefinitionId)

abbrev Occurrence := FederatedGraph.FieldId × List (InputValueDefinitionId × Value)

section Selected
variable (ctx : BuildContext) (graph : Graph)

def Gives (arguments : List (InputValueDefinitionId × Value)) (argument : InputValueDefinitionId)
    (value : Value) : Prop :=
  ∃ id, (id, value) ∈ arguments ∧ ctx.idmaps.inputValue.image id = some argument

/-- Chains of selected fields from the top, without the inaccessible ones. -/
def Selects : Selections Value → List Occurrence → Prop
  | .nil, _ => False
  | .field field arguments subselection rest, chain =>
    ((ctx.idmaps.field.image field).isSome ∧
      ∃ tail, chain = (field, arguments) :: tail ∧ (tail = [] ∨ Selects subselection tail)) ∨ Selects rest chain
  | .inlineFragment _ subselection rest, chain => Selects subselection chain ∨ Selects rest chain

/-- The arguments of a required field, with the values that were stored for those given. -/
inductive Recorded (arguments : List (InputValueDefinitionId × Value)) (low high : Nat) :
    List InputValueDefinitionId → List (InputValueDefinitionId × SchemaInputValueId) → Prop where
  | nil : Recorded arguments low high [] []
  | given {argument : InputValueDefinitionId} {definition : InputValueDefinitionRecord} {value : Value}
      {before : SchemaInputValues}
      {stored : { after : SchemaInputValueId × SchemaInputValues // before.values.length ≤ after.2.values.length }}
      {rest : List InputValueDefinitionId} {records : List (InputValueDefinitionId × SchemaInputValueId)}
      (isGiven : Gives ctx arguments argument value)
      (defined : graph.inputValueDefinitions[argument]? = some definition)
      (coerced : (coerce ctx graph definition.tyRecord value).run before = .ok stored)
      (after : low ≤ before.values.length) (inside : stored.1.2.values.length ≤ high)
      (others : Recorded arguments low high rest records) :
      Recorded arguments low high (argument :: rest) ((argument, stored.1.1) :: records)
  | default {argument : InputValueDefinitionId} {definition : InputValueDefinitionRecord}
      {valueId : SchemaInputValueId} {rest : List InputValueDefinitionId}
      {records : List (InputValueDefinitionId × SchemaInputValueId)}
      (notGiven : ∀ value, ¬ Gives ctx arguments argument value)
      (defined : graph.inputValueDefinitions[argument]? = some definition)
      (isDefault : definition.defaultValueId = some valueId)
      (others : Recorded arguments low high rest records) :
      Recorded arguments low high (argument :: rest) ((argument, valueId) :: records)
  | omitted {argument : InputValueDefinitionId} {definition : InputValueDefinitionRecord}
      {rest : List InputValueDefinitionId} {records : List (InputValueDefinitionId × SchemaInputValueId)}
      (notGiven : ∀ value, ¬ Gives ctx arguments argument value)
      (defined : graph.inputValueDefinitions[argument]? = some definition)
      (noDefault : definition.defaultValueId = none) (optional : definition.tyRecord.wrapping.isRequired = false)
      (others : Recorded arguments low high rest records) :
      Recorded arguments low high (argument :: rest) records

/-- The id stands for the field with the arguments of the occurrence. -/
def Represents (fields : List RequiredFieldRecord) (low high : Nat) (occurrence : Occurrence)
    (id : RequiredFieldId) : Prop :=
  ∃ definitionId definition records,
    ctx.idmaps.field.image occurrence.1 = some definitionId ∧
      graph.fieldDefinitions[definitionId]? = some definition ∧
      fields[id]? = some ⟨definitionId, records⟩ ∧
      Recorded ctx graph occurrence.2 low high definition.argumentIds.toList records

/-- The paths of the set are those of the selection set. -/
structure Denotes (fields : List RequiredFieldRecord) (low high : Nat) (set : RequiredFieldSetRecord)
    (fieldSet : Selections Value) : Prop where
  selected : ∀ path, set.HasPath path →
    ∃ chain, Selects ctx fieldSet chain ∧ List.Forall₂ (Represents ctx graph fields low high) chain path
  required : ∀ chain, Selects ctx fieldSet chain →
    ∃ path, set.HasPath path ∧ List.Forall₂ (Represents ctx graph fields low high) chain path

/-- Some argument of the field is given a value. -/
def givesArgument (occurrence : Occurrence) : Bool :=
  match (ctx.idmaps.field.image occurrence.1).bind (graph.fieldDefinitions[·]?) with
  | none => false
  | some definition =>
    occurrence.2.any fun (id, _) =>
      (ctx.idmaps.inputValue.image id).any fun argument => definition.argumentIds.toList.contains argument

/-- The accessible fields of a level that get no value for any of their arguments. -/
def plainFields : Selections Value → List FederatedGraph.FieldId
  | .nil => []
  | .field field arguments _ rest =>
    if (ctx.idmaps.field.image field).isSome && !givesArgument ctx graph (field, arguments) then
      field :: plainFields rest
    else plainFields rest
  | .inlineFragment _ subselection rest => plainFields subselection ++ plainFields rest

/-- No level below the first repeats a plain field. -/
def DistinctBelow : Selections Value → Prop
  | .nil => True
  | .field field _ subselection rest =>
    ((ctx.idmaps.field.image field).isSome →
      (plainFields ctx graph subselection).Nodup ∧ DistinctBelow subselection) ∧ DistinctBelow rest
  | .inlineFragment _ subselection rest => DistinctBelow subselection ∧ DistinctBelow rest

/-- No level repeats a plain field. -/
def DistinctPlainFields (fieldSet : Selections Value) : Prop :=
  (plainFields ctx graph fieldSet).Nodup ∧ DistinctBelow ctx graph fieldSet

/-- The values that arguments default to are stored already. -/
def DefaultsStored (count : Nat) : Prop :=
  ∀ definition ∈ graph.inputValueDefinitions, ∀ valueId, definition.defaultValueId = some valueId → valueId < count

end Selected

section Arguments
variable {ctx : BuildContext} {graph : Graph} {arguments : List (InputValueDefinitionId × Value)}
  {ids : List InputValueDefinitionId} {records : List (InputValueDefinitionId × SchemaInputValueId)}
  {given : List (InputValueDefinitionId × Value)}

theorem Recorded.widen {low low' high high' : Nat} (below : low' ≤ low) (above : high ≤ high')
    (recorded : Recorded ctx graph arguments low high ids records) :
    Recorded ctx graph arguments low' high' ids records := by
  induction recorded with
  | nil => exact .nil
  | given isGiven defined coerced after inside _ ih =>
    exact .given isGiven defined coerced (below.trans after) (inside.trans above) ih
  | default notGiven defined isDefault _ ih => exact .default notGiven defined isDefault ih
  | omitted notGiven defined noDefault optional _ ih => exact .omitted notGiven defined noDefault optional ih

/-- What is left of the given arguments is what was given for the arguments to come. -/
def Holds (ctx : BuildContext) (arguments : List (InputValueDefinitionId × Value))
    (given : List (InputValueDefinitionId × Value)) (ids : List InputValueDefinitionId) : Prop :=
  ∀ argument ∈ ids, (∀ value, (argument, value) ∈ given → Gives ctx arguments argument value) ∧
    ∀ value, Gives ctx arguments argument value → ∃ other, (argument, other) ∈ given

theorem Holds.swapRemove {argument : InputValueDefinitionId} {rest : List InputValueDefinitionId}
    {index : Nat} {value : Value} (holds : Holds ctx arguments given (argument :: rest)) (distinct : argument ∉ rest)
    (found : given[index]? = some (argument, value)) : Holds ctx arguments (swapRemove given index) rest := by
  intro other member
  obtain ⟨known, complete⟩ := holds other (mem_cons_of_mem _ member)
  have same (held : Value) : (other, held) ∈ Foundation.swapRemove given index ↔ (other, held) ∈ given := by
    rw [← (swapRemove_perm found).mem_iff, mem_cons, or_iff_right]
    intro isRemoved
    exact distinct ((Prod.mk.inj isRemoved).1 ▸ member)
  simp only [same]
  exact ⟨known, complete⟩

theorem argumentRecords_recorded {before after : SchemaInputValues}
    (ran : argumentRecords ctx graph given before ids = .ok (records, after)) (distinct : ids.Nodup)
    (holds : Holds ctx arguments given ids) : before.values.length ≤ after.values.length ∧
      Recorded ctx graph arguments before.values.length after.values.length ids records := by
  induction ids generalizing given before records with
  | nil =>
    cases ran
    exact ⟨Nat.le_refl _, .nil⟩
  | cons argument rest ih =>
    obtain ⟨new, restDistinct⟩ := nodup_cons.mp distinct
    obtain ⟨known, complete⟩ := holds argument (by simp)
    obtain ⟨definition, isDefinition, ran⟩ := bind_eq_ok.mp ran
    have defined := indexed_eq_ok.mp (orPanic_eq_ok.mp isDefinition)
    split at ran
    · next index found =>
      obtain ⟨⟨id, value⟩, isEntry, ran⟩ := bind_eq_ok.mp ran
      obtain ⟨⟨stored, grown⟩, coerced, ran⟩ := bind_eq_ok.mp ran
      obtain ⟨⟨others, last⟩, restRan, isRecords⟩ := bind_eq_ok.mp ran
      cases isRecords
      have entry := indexed_eq_ok.mp (orPanic_eq_ok.mp isEntry)
      obtain rfl : id = argument := by
        obtain ⟨⟨held, atIndex, isArgument⟩, _⟩ := findIdx?_eq_some_iff_first.mp found
        rw [entry] at atIndex
        cases atIndex
        simpa using isArgument
      obtain ⟨grownMore, recorded⟩ := ih restRan restDistinct (holds.swapRemove new entry)
      exact ⟨grown.trans grownMore, .given (known value (mem_of_getElem? entry)) defined coerced (Nat.le_refl _)
        grownMore (recorded.widen grown (Nat.le_refl _))⟩
    · next missing =>
      have notGiven (value : Value) : ¬ Gives ctx arguments argument value := by
        intro gives
        obtain ⟨other, member⟩ := complete value gives
        simpa using findIdx?_eq_none_iff.mp missing _ member
      have restHolds : Holds ctx arguments given rest := fun other member => holds other (mem_cons_of_mem _ member)
      split at ran
      · next valueId isDefault =>
        obtain ⟨⟨others, last⟩, restRan, isRecords⟩ := bind_eq_ok.mp ran
        cases isRecords
        obtain ⟨grown, recorded⟩ := ih restRan restDistinct restHolds
        exact ⟨grown, .default notGiven defined isDefault recorded⟩
      · next noDefault =>
        split at ran
        · obtain ⟨_, _, failed⟩ := bind_eq_ok.mp ran
          cases failed
        · next optional =>
          obtain ⟨grown, recorded⟩ := ih ran restDistinct restHolds
          exact ⟨grown, .omitted notGiven defined noDefault (by simpa using optional) recorded⟩

theorem holds_federatedArguments {found : List (Option (InputValueDefinitionId × Value))}
    (ran : arguments.mapM (fun (id, value) => return (← ctx.idmaps.inputValue.get id).map (·, value)) = .ok found)
    (ids : List InputValueDefinitionId) : Holds ctx arguments found.reduceOption ids := by
  have images : found.map id =
      arguments.map fun entry => (ctx.idmaps.inputValue.image entry.1).map (·, entry.2) := by
    refine map_eq_of_mapM ran ?_
    rintro ⟨id, value⟩ - output stepped
    obtain ⟨image, isImage, isOutput⟩ := bind_eq_ok.mp stepped
    cases isOutput
    rw [(IdMap.get_eq_ok.mp isImage).1, id_eq]
  rw [map_id] at images
  rw [images, reduceOption, filterMap_map]
  intro argument _
  constructor
  · intro value member
    obtain ⟨⟨id, held⟩, inArguments, isEntry⟩ := mem_filterMap.mp member
    obtain ⟨found, isFound, same⟩ := Option.map_eq_some_iff.mp isEntry
    obtain ⟨rfl, rfl⟩ := Prod.mk.inj same
    exact ⟨id, inArguments, isFound⟩
  · rintro value ⟨id, inArguments, isFound⟩
    exact ⟨value, mem_filterMap.mpr ⟨(id, value), inArguments, by simp [isFound]⟩⟩

end Arguments

section Runs
variable {ctx : BuildContext} {graph : Graph} {fields : List RequiredFieldRecord} {more : List RequiredFieldRecord}
  {low high : Nat} {occurrence : Occurrence} {id : RequiredFieldId} {before after : Converter}
  {fieldSet : Selections Value}

theorem Represents.extend {low' high' : Nat} (extended : fields <+: more) (below : low' ≤ low) (above : high ≤ high')
    (represents : Represents ctx graph fields low high occurrence id) :
    Represents ctx graph more low' high' occurrence id := by
  obtain ⟨definitionId, definition, records, isDefinition, defined, stored, recorded⟩ := represents
  exact ⟨definitionId, definition, records, isDefinition, defined, getElem?_of_front extended stored,
    recorded.widen below above⟩

theorem Represents.accessible (represents : Represents ctx graph fields low high occurrence id) :
    (ctx.idmaps.field.image occurrence.1).isSome = true := by
  obtain ⟨_, _, _, isDefinition, _⟩ := represents
  rw [isDefinition, Option.isSome_some]

theorem Converter.deduplicated_spec (converter : Converter) (inputValues : SchemaInputValues)
    (field : RequiredFieldRecord) :
    let result := converter.deduplicated inputValues field
    converter.fields <+: result.2.fields ∧ result.2.fields[result.1]? = some field ∧
      result.2.inputValues = inputValues := by
  rw [deduplicated]
  split
  · next known => exact ⟨prefix_refl _, getElem?_idxOf known, rfl⟩
  · exact ⟨prefix_append _ _, by simp, rfl⟩

/-- The items of a level, with the ranges of values stored for one after the other. -/
inductive Converted (ctx : BuildContext) (graph : Graph) (byKey : UnstableSort) (fields : List RequiredFieldRecord) :
    Nat → Nat → Selections Value → List RequiredFieldSetItemRecord → Prop where
  | nil {low high : Nat} (ordered : low ≤ high) : Converted ctx graph byKey fields low high .nil []
  | inaccessible {low high : Nat} {occurrence : Occurrence} {subselection rest : Selections Value}
      {items : List RequiredFieldSetItemRecord} (isInaccessible : ctx.idmaps.field.image occurrence.1 = none)
      (others : Converted ctx graph byKey fields low high rest items) :
      Converted ctx graph byKey fields low high (.field occurrence.1 occurrence.2 subselection rest) items
  | field {low middle between high : Nat} {occurrence : Occurrence} {id : RequiredFieldId}
      {subselection rest : Selections Value} {below items : List RequiredFieldSetItemRecord}
      (ordered : low ≤ middle) (represents : Represents ctx graph fields low middle occurrence id)
      (nested : Converted ctx graph byKey fields middle between subselection below)
      (others : Converted ctx graph byKey fields between high rest items) :
      Converted ctx graph byKey fields low high (.field occurrence.1 occurrence.2 subselection rest)
        ((id, .fromIter byKey below) :: items)
  | inlineFragment {low middle high : Nat} {on : FederatedGraph.Definition} {subselection rest : Selections Value}
      {inner items : List RequiredFieldSetItemRecord}
      (nested : Converted ctx graph byKey fields low middle subselection inner)
      (others : Converted ctx graph byKey fields middle high rest items) :
      Converted ctx graph byKey fields low high (.inlineFragment on subselection rest) (inner ++ items)

variable {byKey : UnstableSort}

theorem Converted.extend {items : List RequiredFieldSetItemRecord} (extended : fields <+: more)
    (converted : Converted ctx graph byKey fields low high fieldSet items) :
    Converted ctx graph byKey more low high fieldSet items := by
  induction converted with
  | nil ordered => exact .nil ordered
  | inaccessible isInaccessible _ ih => exact .inaccessible isInaccessible ih
  | field ordered represents _ _ nestedIh othersIh =>
    exact .field ordered (represents.extend extended (Nat.le_refl _) (Nat.le_refl _)) nestedIh othersIh
  | inlineFragment _ _ nestedIh othersIh => exact .inlineFragment nestedIh othersIh

theorem convertSetRec_converted {out result : List RequiredFieldSetItemRecord}
    (ran : convertSetRec ctx graph byKey fieldSet out before = .ok (result, after)) :
    before.fields <+: after.fields ∧ ∃ items, result = out ++ items ∧
      Converted ctx graph byKey after.fields before.inputValues.values.length after.inputValues.values.length
        fieldSet items := by
  induction fieldSet generalizing out result before after with
  | nil =>
    cases ran
    exact ⟨prefix_refl _, [], by simp, .nil (Nat.le_refl _)⟩
  | field field arguments subselection rest nestedIh othersIh =>
    obtain ⟨⟨item, between⟩, itemRan, restRan⟩ := bind_eq_ok.mp ran
    obtain ⟨extended, items, rfl, others⟩ := othersIh restRan
    obtain ⟨image, isImage, itemRan⟩ := bind_eq_ok.mp itemRan
    have isImage := (IdMap.get_eq_ok.mp (orPanic_eq_ok.mp isImage)).1
    cases image with
    | none =>
      cases itemRan
      exact ⟨extended, items, by simp, @Converted.inaccessible _ _ _ _ _ _ (field, arguments) _ _ _ isImage others⟩
    | some definitionId =>
      obtain ⟨given, isGiven, itemRan⟩ := bind_eq_ok.mp itemRan
      obtain ⟨definition, defined, itemRan⟩ := bind_eq_ok.mp itemRan
      obtain ⟨⟨records, inputValues⟩, argumentsRan, itemRan⟩ := bind_eq_ok.mp itemRan
      dsimp only at itemRan
      obtain ⟨⟨set, last⟩, nestedRan, isItem⟩ := bind_eq_ok.mp itemRan
      cases isItem
      obtain ⟨⟨below, last⟩, belowRan, isSet⟩ := bind_eq_ok.mp nestedRan
      cases isSet
      obtain ⟨known, stored, sameValues⟩ := before.deduplicated_spec inputValues ⟨definitionId, records⟩
      obtain ⟨grown, recorded⟩ := argumentRecords_recorded argumentsRan nodup_range'
        (holds_federatedArguments (orPanic_eq_ok.mp isGiven) _)
      rw [← sameValues] at grown recorded
      have represents : Represents ctx graph _ before.inputValues.values.length _ (field, arguments) _ :=
        ⟨definitionId, definition, records, isImage, indexed_eq_ok.mp (orPanic_eq_ok.mp defined), stored, recorded⟩
      obtain ⟨nestedExtended, _, rfl, nested⟩ := nestedIh belowRan
      refine ⟨known.trans (nestedExtended.trans extended), _ :: items, by simp; rfl, ?_⟩
      exact @Converted.field _ _ _ _ _ _ _ _ (field, arguments) _ _ _ _ _ grown
        (represents.extend (nestedExtended.trans extended) (Nat.le_refl _) (Nat.le_refl _))
        (nested.extend extended) others
  | inlineFragment on subselection rest nestedIh othersIh =>
    obtain ⟨⟨inner, between⟩, nestedRan, restRan⟩ := bind_eq_ok.mp ran
    obtain ⟨nestedExtended, items, rfl, nested⟩ := nestedIh nestedRan
    obtain ⟨extended, more, rfl, others⟩ := othersIh restRan
    exact ⟨nestedExtended.trans extended, items ++ more, by simp, .inlineFragment (nested.extend extended) others⟩

end Runs

section Sharing
variable {ctx : BuildContext} {graph : Graph} {arguments : List (InputValueDefinitionId × Value)}

theorem givesArgument_eq_true {occurrence : Occurrence} {definitionId : FieldDefinitionId}
    {definition : FieldDefinitionRecord} (isDefinition : ctx.idmaps.field.image occurrence.1 = some definitionId)
    (defined : graph.fieldDefinitions[definitionId]? = some definition) : givesArgument ctx graph occurrence = true ↔
      ∃ argument ∈ definition.argumentIds.toList, ∃ value, Gives ctx occurrence.2 argument value := by
  simp only [givesArgument, isDefinition, Option.bind_some, defined, any_eq_true, Option.any_eq_true,
    contains_iff_mem, Prod.exists, Gives]
  constructor
  · rintro ⟨id, value, member, argument, isArgument, inDefinition⟩
    exact ⟨argument, inDefinition, value, id, member, isArgument⟩
  · rintro ⟨argument, inDefinition, value, id, member, isArgument⟩
    exact ⟨id, value, member, argument, isArgument, inDefinition⟩

variable {ids : List InputValueDefinitionId} {records : List (InputValueDefinitionId × SchemaInputValueId)}
  {low high : Nat} {argument : InputValueDefinitionId} {id : RequiredFieldId}

section
variable (recorded : Recorded ctx graph arguments low high ids records)
include recorded

theorem Recorded.exists_of_gives {value : Value}
    (member : argument ∈ ids) (gives : Gives ctx arguments argument value) :
    ∃ valueId : Nat, (argument, valueId) ∈ records ∧ low ≤ valueId ∧ valueId < high := by
  induction recorded with
  | nil => cases member
  | @given other _ _ _ stored _ _ _ _ coerced after inside _ ih =>
    rcases mem_cons.mp member with rfl | later
    · obtain ⟨fresh, bound⟩ := coerce_fresh _ _ coerced
      exact ⟨stored.1.1, by simp, after.trans fresh, bound.trans_le inside⟩
    · obtain ⟨valueId, inRecords, bounds⟩ := ih later
      exact ⟨valueId, mem_cons_of_mem _ inRecords, bounds⟩
  | default notGiven _ _ _ ih =>
    rcases mem_cons.mp member with rfl | later
    · exact absurd gives (notGiven value)
    · obtain ⟨valueId, inRecords, bounds⟩ := ih later
      exact ⟨valueId, mem_cons_of_mem _ inRecords, bounds⟩
  | omitted notGiven _ _ _ _ ih =>
    rcases mem_cons.mp member with rfl | later
    · exact absurd gives (notGiven value)
    · exact ih later

/-- A value was either stored for the occurrence or is a default. -/
theorem Recorded.bounds {count : Nat} (defaults : DefaultsStored graph count) {valueId : Nat}
    (member : (argument, valueId) ∈ records) : low ≤ valueId ∧ valueId < high ∨ valueId < count := by
  induction recorded with
  | nil => cases member
  | given _ _ coerced after inside _ ih =>
    rcases mem_cons.mp member with same | later
    · obtain ⟨rfl, rfl⟩ := Prod.mk.inj same
      obtain ⟨fresh, bound⟩ := coerce_fresh _ _ coerced
      exact .inl ⟨after.trans fresh, bound.trans_le inside⟩
    · exact ih later
  | default _ defined isDefault _ ih =>
    rcases mem_cons.mp member with same | later
    · obtain ⟨rfl, rfl⟩ := Prod.mk.inj same
      exact .inr (defaults _ (mem_of_getElem? defined) _ isDefault)
    · exact ih later
  | omitted _ _ _ _ _ ih => exact ih member

theorem Recorded.eq_of_plain {low' high' : Nat} {records' : List (InputValueDefinitionId × SchemaInputValueId)}
    {arguments' : List (InputValueDefinitionId × Value)}
    (recorded' : Recorded ctx graph arguments' low' high' ids records')
    (plain : ∀ argument ∈ ids, ∀ value, ¬ Gives ctx arguments argument value)
    (plain' : ∀ argument ∈ ids, ∀ value, ¬ Gives ctx arguments' argument value) : records = records' := by
  induction recorded generalizing records' with
  | nil =>
    cases recorded'
    rfl
  | given isGiven => exact absurd isGiven (plain _ (by simp) _)
  | default _ defined isDefault _ ih =>
    rw [forall_mem_cons] at plain plain'
    cases recorded' with
    | given isGiven => exact absurd isGiven (plain'.1 _)
    | default _ defined' isDefault' others' =>
      cases defined.symm.trans defined'
      cases isDefault.symm.trans isDefault'
      rw [ih others' plain.2 plain'.2]
    | omitted _ defined' noDefault' =>
      cases defined.symm.trans defined'
      cases isDefault.symm.trans noDefault'
  | omitted _ defined noDefault _ _ ih =>
    rw [forall_mem_cons] at plain plain'
    cases recorded' with
    | given isGiven => exact absurd isGiven (plain'.1 _)
    | default _ defined' isDefault' =>
      cases defined.symm.trans defined'
      cases noDefault.symm.trans isDefault'
    | omitted _ _ _ _ others' => exact ih others' plain.2 plain'.2

end

variable {fields : List RequiredFieldRecord} {middle low' : Nat} {first second : Occurrence}

/-- One id for two occurrences means that they are of the same field and that neither gives an argument. -/
theorem Represents.plain_of_same (defaults : DefaultsStored graph low)
    (ordered : low ≤ middle) (apart : middle ≤ low') (atFirst : Represents ctx graph fields low middle first id)
    (atSecond : Represents ctx graph fields low' high second id) :
    first.1 = second.1 ∧ givesArgument ctx graph first = false ∧ givesArgument ctx graph second = false := by
  obtain ⟨definitionId, definition, records, isDefinition, defined, stored, recorded⟩ := atFirst
  obtain ⟨definitionId', definition', records', isDefinition', defined', stored', recorded'⟩ := atSecond
  obtain ⟨rfl, rfl⟩ := RequiredFieldRecord.mk.inj (Option.mem_unique stored stored')
  obtain rfl := Option.mem_unique defined defined'
  refine ⟨IdMap.image_injective isDefinition isDefinition', Bool.eq_false_iff.mpr fun gives => ?_,
    Bool.eq_false_iff.mpr fun gives => ?_⟩
  · obtain ⟨argument, member, value, gives⟩ := (givesArgument_eq_true isDefinition defined).mp gives
    obtain ⟨valueId, inRecords, above, below⟩ := recorded.exists_of_gives member gives
    have bounds := recorded'.bounds defaults inRecords
    omega
  · obtain ⟨argument, member, value, gives⟩ := (givesArgument_eq_true isDefinition' defined).mp gives
    obtain ⟨valueId, inRecords, above, below⟩ := recorded'.exists_of_gives member gives
    have bounds := recorded.bounds defaults inRecords
    omega

theorem Represents.same_of_plain {id' : RequiredFieldId} (distinct : fields.Nodup)
    (atFirst : Represents ctx graph fields low middle first id)
    (atSecond : Represents ctx graph fields low' high second id') (sameField : first.1 = second.1)
    (plain : givesArgument ctx graph first = false) (plain' : givesArgument ctx graph second = false) : id = id' := by
  obtain ⟨definitionId, definition, records, isDefinition, defined, stored, recorded⟩ := atFirst
  obtain ⟨definitionId', definition', records', isDefinition', defined', stored', recorded'⟩ := atSecond
  obtain rfl : definitionId = definitionId' := by
    rw [sameField] at isDefinition
    exact Option.mem_unique isDefinition isDefinition'
  obtain rfl := Option.mem_unique defined defined'
  have none {occurrence : Occurrence} (isDefinition : ctx.idmaps.field.image occurrence.1 = some definitionId)
      (plain : givesArgument ctx graph occurrence = false) :
      ∀ argument ∈ definition.argumentIds.toList, ∀ value, ¬ Gives ctx occurrence.2 argument value := by
    intro argument member value gives
    exact Bool.eq_false_iff.mp plain ((givesArgument_eq_true isDefinition defined).mpr ⟨argument, member, value, gives⟩)
  obtain rfl := recorded.eq_of_plain recorded' (none isDefinition plain) (none isDefinition' plain')
  exact (List.getElem?_inj (index_lt stored) distinct).mp (stored.trans stored'.symm)

end Sharing

section Levels
variable {ctx : BuildContext} {graph : Graph} {byKey : UnstableSort} {fields : List RequiredFieldRecord}
  {low high : Nat}
  {fieldSet : Selections Value} {items : List RequiredFieldSetItemRecord}

def occurrences (ctx : BuildContext) : Selections Value → List Occurrence
  | .nil => []
  | .field field arguments _ rest =>
    if (ctx.idmaps.field.image field).isSome then (field, arguments) :: occurrences ctx rest else occurrences ctx rest
  | .inlineFragment _ subselection rest => occurrences ctx subselection ++ occurrences ctx rest

theorem plainFields_eq (fieldSet : Selections Value) : plainFields ctx graph fieldSet =
      ((occurrences ctx fieldSet).filter fun occurrence => !givesArgument ctx graph occurrence).map (·.1) := by
  induction fieldSet with
  | nil => rfl
  | field field arguments subselection rest _ ih =>
    rw [plainFields, occurrences]
    by_cases accessible : (ctx.idmaps.field.image field).isSome = true
    · by_cases gives : givesArgument ctx graph (field, arguments) = true <;> simp [accessible, gives, ih]
    · simp [accessible, ih]
  | inlineFragment on subselection rest nestedIh othersIh =>
    rw [plainFields, occurrences, nestedIh, othersIh, filter_append, map_append]

/-- The ids of a level, each with its own range of stored values. -/
inductive Level (ctx : BuildContext) (graph : Graph) (fields : List RequiredFieldRecord) :
    Nat → Nat → List Occurrence → List RequiredFieldId → Prop where
  | nil {low high : Nat} (ordered : low ≤ high) : Level ctx graph fields low high [] []
  | cons {low middle next high : Nat} {occurrence : Occurrence} {id : RequiredFieldId} {rest : List Occurrence}
      {ids : List RequiredFieldId} (ordered : low ≤ middle)
      (represents : Represents ctx graph fields low middle occurrence id) (apart : middle ≤ next)
      (others : Level ctx graph fields next high rest ids) :
      Level ctx graph fields low high (occurrence :: rest) (id :: ids)

theorem DefaultsStored.mono {count more : Nat} (defaults : DefaultsStored graph count) (above : count ≤ more) :
    DefaultsStored graph more := fun definition member valueId isDefault =>
  (defaults definition member valueId isDefault).trans_le above

namespace Level
variable {ids : List RequiredFieldId} {level : List Occurrence}

theorem lower {low' : Nat} (below : low' ≤ low)
    (isLevel : Level ctx graph fields low high level ids) : Level ctx graph fields low' high level ids := by
  cases isLevel with
  | nil ordered => exact .nil (below.trans ordered)
  | cons ordered represents apart others =>
    exact .cons (below.trans ordered) (represents.extend (prefix_refl _) below (Nat.le_refl _)) apart others

theorem append {middle : Nat} {front back : List Occurrence} {others : List RequiredFieldId}
    (isFront : Level ctx graph fields low middle front ids) (isBack : Level ctx graph fields middle high back others) :
    Level ctx graph fields low high (front ++ back) (ids ++ others) := by
  induction isFront with
  | nil ordered => exact isBack.lower ordered
  | cons ordered represents apart _ ih => exact .cons ordered represents apart (ih isBack)

theorem represented (isLevel : Level ctx graph fields low high level ids) :
    List.Forall₂ (fun occurrence id => ∃ start stop, low ≤ start ∧
      Represents ctx graph fields start stop occurrence id) level ids := by
  induction isLevel with
  | nil => exact .nil
  | @cons low middle next _ _ _ _ _ ordered represents apart _ ih =>
    refine .cons ⟨low, middle, Nat.le_refl _, represents⟩ (ih.imp fun occurrence id => ?_)
    rintro ⟨start, stop, above, represents⟩
    exact ⟨start, stop, (ordered.trans apart).trans above, represents⟩

theorem nodup_iff
    (isLevel : Level ctx graph fields low high level ids) (distinct : fields.Nodup)
      (defaults : DefaultsStored graph low) :
    ids.Nodup ↔ ((level.filter fun occurrence => !givesArgument ctx graph occurrence).map (·.1)).Nodup := by
  induction isLevel with
  | nil => simp
  | @cons low middle next high first id rest ids ordered represents apart others ih =>
    have represented := others.represented
    rw [nodup_cons, ih (defaults.mono (ordered.trans apart))]
    by_cases gives : givesArgument ctx graph first = true
    · rw [filter_cons_of_neg (by simp [gives])]
      refine and_iff_right fun repeated => ?_
      obtain ⟨second, _, start, stop, above, again⟩ := exists_left_of_forall₂ represented repeated
      have := (represents.plain_of_same defaults ordered (apart.trans above) again).2.1
      exact Bool.eq_false_iff.mp this gives
    · rw [filter_cons_of_pos (by simp [gives]), map_cons, nodup_cons]
      have plain : givesArgument ctx graph first = false := Bool.eq_false_iff.mpr gives
      refine and_congr_left fun _ => not_congr ⟨fun repeated => ?_, fun repeated => ?_⟩
      · obtain ⟨second, member, start, stop, above, again⟩ := exists_left_of_forall₂ represented repeated
        obtain ⟨sameField, _, secondPlain⟩ := represents.plain_of_same defaults ordered (apart.trans above) again
        exact mem_map.mpr ⟨second, mem_filter.mpr ⟨member, by simp [secondPlain]⟩, sameField.symm⟩
      · obtain ⟨second, member, sameField⟩ := mem_map.mp repeated
        obtain ⟨inRest, secondPlain⟩ := mem_filter.mp member
        obtain ⟨other, inIds, start, stop, _, again⟩ := exists_right_of_forall₂ represented inRest
        rwa [represents.same_of_plain distinct again sameField.symm plain (by simpa using secondPlain)]

end Level

theorem sorted_fromIter (items : List RequiredFieldSetItemRecord) :
    (fromIter byKey items).Sorted ↔ (items.map (·.1)).Nodup ∧ ∀ item ∈ items, item.2.Sorted := by
  rw [fromIter, Forest.sorted_ofTrees]
  have sameItems (item : RequiredFieldSetItemRecord) : item ∈ byKey.sort items ↔ item ∈ items :=
    (byKey.perm items).mem_iff
  have sameKeys : ((byKey.sort items).map (·.1)).Nodup ↔ (items.map (·.1)).Nodup :=
    ((byKey.perm items).map (·.1)).nodup_iff
  simp only [sameItems, ← sameKeys]
  refine and_congr_left fun _ => ⟨fun strict => ?_, fun distinct => ?_⟩
  · exact pairwise_map.mpr (strict.imp fun less => Nat.ne_of_lt less)
  · exact (byKey.sorted items).imp₂ (fun _ _ le ne => Nat.lt_of_le_of_ne le ne) (pairwise_map.mp distinct)

theorem hasPath_fromIter (items : List RequiredFieldSetItemRecord) (path : List RequiredFieldId) :
    (fromIter byKey items).HasPath path ↔ (Forest.ofTrees items).HasPath path := by
  simp only [fromIter, Forest.hasPath_ofTrees, (byKey.perm items).mem_iff]

namespace Converted
variable (converted : Converted ctx graph byKey fields low high fieldSet items)
include converted

theorem ordered : low ≤ high := by
  induction converted with
  | nil ordered => exact ordered
  | inaccessible _ _ ih => exact ih
  | field ordered _ _ _ nestedIh othersIh => exact ordered.trans (nestedIh.trans othersIh)
  | inlineFragment _ _ nestedIh othersIh => exact nestedIh.trans othersIh

theorem level : Level ctx graph fields low high (occurrences ctx fieldSet) (items.map (·.1)) := by
  induction converted with
  | nil ordered => exact .nil ordered
  | inaccessible isInaccessible _ ih => simpa [occurrences, isInaccessible] using ih
  | field ordered represents nested _ _ othersIh =>
    rw [occurrences, if_pos represents.accessible, map_cons]
    exact .cons ordered represents nested.ordered othersIh
  | inlineFragment _ _ nestedIh othersIh =>
    rw [occurrences, map_append]
    exact nestedIh.append othersIh

theorem sorted_iff (distinct : fields.Nodup) (defaults : DefaultsStored graph low) :
    (∀ item ∈ items, item.2.Sorted) ↔ DistinctBelow ctx graph fieldSet := by
  induction converted with
  | nil => simp [DistinctBelow]
  | inaccessible isInaccessible _ ih =>
    rw [ih defaults, DistinctBelow]
    simp [isInaccessible]
  | field ordered represents nested _ nestedIh othersIh =>
    have later := defaults.mono ordered
    rw [forall_mem_cons, sorted_fromIter, nested.level.nodup_iff distinct later, ← plainFields_eq, nestedIh later,
      othersIh (later.mono nested.ordered), DistinctBelow]
    simp [represents.accessible]
  | inlineFragment nested _ nestedIh othersIh =>
    rw [forall_mem_append, nestedIh defaults, othersIh (defaults.mono nested.ordered), DistinctBelow]

variable {chain : List Occurrence} {path : List RequiredFieldId}

omit converted in
theorem widen {low' high' : Nat} (below : low' ≤ low)
    (above : high ≤ high') (all : List.Forall₂ (Represents ctx graph fields low high) chain path) :
    List.Forall₂ (Represents ctx graph fields low' high') chain path :=
  all.imp fun _ _ represents => represents.extend (prefix_refl _) below above

theorem selected (hasPath : (Forest.ofTrees items).HasPath path) :
    ∃ chain, Selects ctx fieldSet chain ∧ List.Forall₂ (Represents ctx graph fields low high) chain path := by
  induction converted generalizing path with
  | nil => exact hasPath.elim
  | inaccessible _ _ ih =>
    obtain ⟨chain, selects, all⟩ := ih hasPath
    exact ⟨chain, .inr selects, all⟩
  | @field low middle _ high occurrence id _ _ below _ ordered represents nested others nestedIh othersIh =>
    have accessible := represents.accessible
    have afterNested : middle ≤ high := nested.ordered.trans others.ordered
    have here := represents.extend (prefix_refl _) (Nat.le_refl low) afterNested
    rcases hasPath with ⟨tail, rfl, rfl | inBelow⟩ | later
    · exact ⟨[occurrence], .inl ⟨accessible, [], rfl, .inl rfl⟩, .cons here .nil⟩
    · obtain ⟨chain, selects, all⟩ := nestedIh ((hasPath_fromIter below tail).mp inBelow)
      exact ⟨occurrence :: chain, .inl ⟨accessible, chain, rfl, .inr selects⟩,
        .cons here (widen ordered others.ordered all)⟩
    · obtain ⟨chain, selects, all⟩ := othersIh later
      exact ⟨chain, .inr selects, widen (ordered.trans nested.ordered) (Nat.le_refl _) all⟩
  | inlineFragment nested others nestedIh othersIh =>
    rcases Forest.hasPath_ofTrees_append.mp hasPath with inside | later
    · obtain ⟨chain, selects, all⟩ := nestedIh inside
      exact ⟨chain, .inl selects, widen (Nat.le_refl _) others.ordered all⟩
    · obtain ⟨chain, selects, all⟩ := othersIh later
      exact ⟨chain, .inr selects, widen nested.ordered (Nat.le_refl _) all⟩

theorem required (selects : Selects ctx fieldSet chain) :
    ∃ path, (Forest.ofTrees items).HasPath path ∧ List.Forall₂ (Represents ctx graph fields low high) chain path := by
  induction converted generalizing chain with
  | nil => exact selects.elim
  | inaccessible isInaccessible _ ih =>
    rcases selects with ⟨accessible, _⟩ | later
    · simp [isInaccessible] at accessible
    · exact ih later
  | @field low middle _ high occurrence id _ _ below _ ordered represents nested others nestedIh othersIh =>
    have afterNested : middle ≤ high := nested.ordered.trans others.ordered
    have here := represents.extend (prefix_refl _) (Nat.le_refl low) afterNested
    rcases selects with ⟨_, tail, rfl, rfl | inNested⟩ | later
    · exact ⟨[id], .inl ⟨[], rfl, .inl rfl⟩, .cons here .nil⟩
    · obtain ⟨path, hasPath, all⟩ := nestedIh inNested
      exact ⟨id :: path, .inl ⟨path, rfl, .inr ((hasPath_fromIter below path).mpr hasPath)⟩,
        .cons here (widen ordered others.ordered all)⟩
    · obtain ⟨path, hasPath, all⟩ := othersIh later
      exact ⟨path, .inr hasPath, widen (ordered.trans nested.ordered) (Nat.le_refl _) all⟩
  | inlineFragment nested others nestedIh othersIh =>
    rcases selects with inside | later
    · obtain ⟨path, hasPath, all⟩ := nestedIh inside
      exact ⟨path, Forest.hasPath_ofTrees_append.mpr (.inl hasPath), widen (Nat.le_refl _) others.ordered all⟩
    · obtain ⟨path, hasPath, all⟩ := othersIh later
      exact ⟨path, Forest.hasPath_ofTrees_append.mpr (.inr hasPath), widen nested.ordered (Nat.le_refl _) all⟩

end Converted
end Levels

section Semilattice
variable {ctx : BuildContext} {graph : Graph} {byKey : UnstableSort}

/-- A binary operation on the sets that are strictly sorted at every level, which is their union. -/
structure IsUnion (merge : RequiredFieldSetRecord → RequiredFieldSetRecord → RequiredFieldSetRecord) : Prop where
  sorted : ∀ left right, left.Sorted → right.Sorted → (merge left right).Sorted
  paths : ∀ left right, left.Sorted → right.Sorted →
    ∀ path, (merge left right).HasPath path ↔ left.HasPath path ∨ right.HasPath path
  comm : ∀ left right, left.Sorted → right.Sorted → merge left right = merge right left
  assoc : ∀ first second third, first.Sorted → second.Sorted → third.Sorted →
    merge (merge first second) third = merge first (merge second third)
  idem : ∀ set, set.Sorted → merge set set = set

theorem isUnion_union : IsUnion RequiredFieldSetRecord.union where
  sorted left right leftSorted rightSorted := union_eq left right ▸ leftSorted.union rightSorted
  paths left right _ _ path := union_eq left right ▸ Forest.hasPath_union left right path
  comm left right leftSorted rightSorted := by
    simp only [union_eq, leftSorted.union_comm rightSorted]
  assoc first second third firstSorted secondSorted thirdSorted := by
    simp only [union_eq, firstSorted.union_assoc secondSorted thirdSorted]
  idem set sorted := by rw [union_eq, sorted.union_self]

theorem unionCow_eq_union : unionCow = RequiredFieldSetRecord.union := by
  funext left right
  exact RequiredFieldSetRecord.unionCow_eq left right

/-- Merging is a semilattice on the sorted sets, and conversion gives a sorted set exactly when no level selects
a field twice without arguments of its own. -/
theorem requiredFieldSets_semilattice_iff {fieldSet : Selections Value} {before after : Converter}
    {set : RequiredFieldSetRecord} (defaults : DefaultsStored graph before.inputValues.values.length)
    (ran : convertSet ctx graph byKey fieldSet before = .ok (set, after)) : (set.Sorted ∧
      Denotes ctx graph after.fields before.inputValues.values.length after.inputValues.values.length set fieldSet ∧
      IsUnion RequiredFieldSetRecord.union ∧ IsUnion unionCow) ↔
      DistinctPlainFields ctx graph fieldSet := by
  obtain ⟨⟨items, last⟩, recRan, isSet⟩ := bind_eq_ok.mp ran
  cases isSet
  obtain ⟨_, items, rfl, converted⟩ := convertSetRec_converted recRan
  rw [sorted_fromIter, converted.level.nodup_iff after.distinct defaults, ← plainFields_eq,
    converted.sorted_iff after.distinct defaults, unionCow_eq_union, DistinctPlainFields]
  refine and_iff_left ⟨⟨fun path hasPath => ?_, fun chain selects => ?_⟩, isUnion_union, isUnion_union⟩
  · exact converted.selected ((hasPath_fromIter items path).mp hasPath)
  · obtain ⟨path, hasPath, all⟩ := converted.required selects
    exact ⟨path, (hasPath_fromIter items path).mpr hasPath, all⟩

section Example

/-- Two fields, of which the first is an object. -/
def fieldPair : Graph where
  objectDefinitions := [{ nameId := 0, fieldIds := ⟨0, 2⟩ }]
  scalarDefinitions := [⟨1, .string⟩]
  fieldDefinitions := [
    ⟨2, .object 0, ⟨.object 0, .nullable⟩, ⟨0, 0⟩⟩,
    ⟨3, .object 0, ⟨.scalar 0, .nullable⟩, ⟨0, 0⟩⟩]

def fieldPairContext : BuildContext where
  strings := ["Parent", "String", "nested", "leaf"]
  idmaps := {}

def noFields : Converter := ⟨[], nodup_nil, {}⟩

/-- `nested { leaf } ... on Parent { leaf }` -/
theorem requiredFieldSets_semilattice_of_distinct : ∃ set after, convertSet fieldPairContext fieldPair .insertion
      (.field 0 [] (.field 1 [] .nil .nil) (.inlineFragment (.object 0) (.field 1 [] .nil .nil) .nil)) noFields =
        .ok (set, after) ∧ set.Sorted ∧ set = .cons 0 (.cons 1 .nil .nil) (.cons 1 .nil .nil) := by
  have ran : (convertSet fieldPairContext fieldPair .insertion
      (.field 0 [] (.field 1 [] .nil .nil) (.inlineFragment (.object 0) (.field 1 [] .nil .nil) .nil))
        noFields).toOption.map
        (·.1) = some (.cons 0 (.cons 1 .nil .nil) (.cons 1 .nil .nil)) := by decide +kernel
  obtain ⟨⟨set, after⟩, isResult, isSet⟩ := ok_of_map ran
  refine ⟨set, after, isResult, ?_, isSet⟩
  exact ((requiredFieldSets_semilattice_iff (by simp [DefaultsStored, fieldPair]) isResult).mpr
    ⟨by decide +kernel, by simp [DistinctBelow]; decide +kernel⟩).1

/-- `leaf leaf` -/
theorem convertSet_keeps_repetition :
    ∃ set after, convertSet fieldPairContext fieldPair .insertion (.field 1 [] .nil (.field 1 [] .nil .nil)) noFields =
      .ok (set, after) ∧ set = .cons 0 .nil (.cons 0 .nil .nil) ∧ ¬ set.Sorted := by
  have ran : (convertSet fieldPairContext fieldPair .insertion (.field 1 [] .nil (.field 1 [] .nil .nil))
    noFields).toOption.map
        (·.1) = some (.cons 0 .nil (.cons 0 .nil .nil)) := by decide +kernel
  obtain ⟨⟨set, after⟩, isResult, isSet⟩ := ok_of_map ran
  refine ⟨set, after, isResult, isSet, ?_⟩
  rw [show set = _ from isSet]
  simp [Forest.Sorted, Forest.roots]

end Example
end Semilattice
end Grafbase.Schema
