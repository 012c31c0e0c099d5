import Grafbase.FederatedGraph.Graph
import Grafbase.Foundation.Compaction
import Grafbase.Foundation.Forest
import Mathlib.Data.List.ReduceOption

/-! The schema that the engine works with, and its ids.

Fields, input values and enum values that are inaccessible do not make it into
the schema, so that the ids of those after them move down.
-/

set_option autoImplicit false

namespace Grafbase.Schema
open Foundation List

structure IdRange where
  start : Nat
  stop : Nat
  deriving DecidableEq

def IdRange.toList (range : IdRange) : List Nat := List.range' range.start (range.stop - range.start)

def IdRange.slice {α : Type} (range : IdRange) (items : List α) : List α :=
  (items.drop range.start).take (range.stop - range.start)

def maxId : Nat := 2 ^ 29 - 1

/-- Ids are made of numbers, and those that are too large are refused. -/
def toId (value : Nat) : Checked Nat :=
  if 2 ^ 32 ≤ value then .error (.expect "Too big")
  else if value ≤ maxId then .ok value
  else .error (.expect "id exceeds maximum MAX_ID")

theorem toId_eq_ok {value id : Nat} : toId value = .ok id ↔ value ≤ maxId ∧ value = id := by
  simp only [toId, maxId]
  grind

theorem ascending_nil : Ascending ([] : List Nat) := List.Pairwise.nil

/-- The ids that are left out, in increasing order. -/
structure IdMap where
  skippedIds : List Nat := []
  ascending : Ascending skippedIds := by exact ascending_nil

namespace IdMap

def skip (map : IdMap) (id : Nat) : Checked IdMap :=
  match last : map.skippedIds.getLast? with
  | none => .ok ⟨[id], pairwise_singleton _ _⟩
  | some lastEntry =>
    if increasing : lastEntry < id then
      .ok {
        skippedIds := map.skippedIds ++ [id]
        ascending := (ascending_concat map.ascending).mpr (by simpa [last] using increasing) }
    else .error (.expect "Broken invariant: ids must be skipped in order")

def get (map : IdMap) (id : Nat) : Checked (Option Nat) :=
  let skipped := partitionPoint (fun entry => entry ≤ id) map.skippedIds
  if (map.skippedIds.take skipped).getLast? = some id then .ok none else some <$> toId (id - skipped)

def contains (map : IdMap) (id : Nat) : Checked Bool := Option.isSome <$> map.get id

def getRange (map : IdMap) (span : FederatedGraph.Span) : Checked IdRange := do
  let skippedBefore := partitionPoint (fun entry => entry < span.start) map.skippedIds
  let skippedInside :=
    ((map.skippedIds.drop skippedBefore).takeWhile fun entry => entry < span.start + span.len).length
  let start := span.start - skippedBefore
  return ⟨← toId start, ← toId (start + (span.len - skippedInside))⟩

abbrev Keeps (map : IdMap) (id : Nat) : Prop := id ∉ map.skippedIds

/-- The number of ids kept before an id. -/
def rank (map : IdMap) (id : Nat) : Nat := Nat.count map.Keeps id

theorem rank_eq (map : IdMap) (id : Nat) : map.rank id = id - (map.skippedIds.filter (· < id)).length := by
  have whole : map.rank id + _ = id := count_kept_add map.ascending id
  omega

variable {map : IdMap}

theorem get_eq (map : IdMap) (id : Nat) :
    map.get id = if map.Keeps id then some <$> toId (map.rank id) else .ok none := by
  have ordered : map.skippedIds.Pairwise fun first second => decide (second ≤ id) = true →
    decide (first ≤ id) = true := by
    refine map.ascending.imp fun less below => ?_
    simp only [decide_eq_true_eq] at below ⊢
    exact (Nat.le_of_lt less).trans below
  rw [get, take_partitionPoint ordered, partitionPoint_eq_length ordered]
  have greatest : (map.skippedIds.filter (· ≤ id)).getLast? = some id ↔ id ∈ map.skippedIds := by
    constructor
    · exact fun last => (mem_filter.mp (mem_of_getLast? last)).1
    · intro member
      have isBelow : id ∈ map.skippedIds.filter (· ≤ id) := mem_filter.mpr ⟨member, by simp⟩
      have ascending : Ascending (map.skippedIds.filter (· ≤ id)) := map.ascending.filter _
      obtain ⟨front, last, isFront⟩ := eq_nil_or_concat _ |>.resolve_left (ne_nil_of_mem isBelow)
      rw [concat_eq_append] at isFront
      have lastBelow : last ∈ map.skippedIds.filter (· ≤ id) := by simp [isFront]
      rw [isFront] at isBelow ascending
      rw [isFront, getLast?_append]
      rcases mem_append.mp isBelow with before | isLast
      · have less := (pairwise_append.mp ascending).2.2 id before last (by simp)
        have le : last ≤ id := by simpa using (mem_filter.mp lastBelow).2
        omega
      · simpa using (mem_singleton.mp isLast).symm
  by_cases keeps : map.Keeps id
  · rw [if_neg (fun last => keeps (greatest.mp last)), if_pos keeps, rank_eq]
    congr 4
    refine filter_congr fun entry member => ?_
    have : entry ≠ id := fun same => keeps (same ▸ member)
    simp only [decide_eq_decide]
    omega
  · rw [if_pos (greatest.mpr (not_not.mp keeps)), if_neg keeps]

/-- The number that an id moves to. -/
def image (map : IdMap) (id : Nat) : Option Nat := if map.Keeps id then some (map.rank id) else none

def imageRange (map : IdMap) (span : FederatedGraph.Span) : IdRange :=
  ⟨map.rank span.start, map.rank (span.start + span.len)⟩

theorem get_eq_ok {id : Nat} {result : Option Nat} :
    map.get id = .ok result ↔ map.image id = result ∧ ∀ target ∈ result, target ≤ maxId := by
  rw [get_eq, image]
  split
  · next keeps =>
    rw [map_eq_ok]
    simp only [toId_eq_ok]
    constructor
    · rintro ⟨_, ⟨small, rfl⟩, rfl⟩
      simpa using small
    · rintro ⟨rfl, small⟩
      exact ⟨_, ⟨small _ rfl, rfl⟩, rfl⟩
  · simp +contextual [eq_comm]

theorem image_eq_some {id target : Nat} : map.image id = some target ↔ map.Keeps id ∧ map.rank id = target := by
  rw [image]
  split
  · next keeps => exact ⟨fun same => ⟨keeps, Option.some.inj same⟩, fun found => congrArg some found.2⟩
  · next skips => simp [skips]

theorem contains_eq_ok {id : Nat} {result : Bool} (found : map.contains id = .ok result) :
    result = decide (map.Keeps id) := by
  obtain ⟨image, isImage, rfl⟩ := map_eq_ok.mp found
  rw [← (get_eq_ok.mp isImage).1, IdMap.image]
  split
  · next keeps => simp [keeps]
  · next skips => simp [skips]

theorem image_injective {first second target : Nat} (atFirst : map.image first = some target)
    (atSecond : map.image second = some target) : first = second := by
  obtain ⟨keepsFirst, isFirst⟩ := image_eq_some.mp atFirst
  obtain ⟨keepsSecond, isSecond⟩ := image_eq_some.mp atSecond
  exact Nat.count_injective keepsFirst keepsSecond (isFirst.trans isSecond.symm)

theorem getRange_eq (map : IdMap) (span : FederatedGraph.Span) :
    map.getRange span = do return ⟨← toId (map.rank span.start), ← toId (map.rank (span.start + span.len))⟩ := by
  have ordered (bound : Nat) :
      map.skippedIds.Pairwise fun first second => decide (second < bound) = true → decide (first < bound) = true := by
    refine map.ascending.imp fun less below => ?_
    simp only [decide_eq_true_eq] at below ⊢
    omega
  -- What is skipped before the end is skipped before the start or inside.
  have split : map.skippedIds.filter (· < span.start + span.len) =
      map.skippedIds.takeWhile (· < span.start) ++
        (map.skippedIds.dropWhile (· < span.start)).takeWhile (· < span.start + span.len) := by
    have later := (ordered (span.start + span.len)).sublist (dropWhile_sublist (· < span.start))
    rw [takeWhile_eq_filter_of_ordered later]
    conv_lhs => rw [← takeWhile_append_dropWhile (p := fun entry => decide (entry < span.start))
      (l := map.skippedIds)]
    rw [filter_append]
    congr 1
    refine filter_eq_self.mpr fun entry member => ?_
    rw [takeWhile_eq_filter_of_ordered (ordered _)] at member
    have below := (mem_filter.mp member).2
    simp only [decide_eq_true_eq] at below ⊢
    omega
  have lengths := congrArg List.length split
  rw [length_append, takeWhile_eq_filter_of_ordered (ordered _)] at lengths
  have wholeStart : map.rank span.start + _ = span.start := count_kept_add map.ascending span.start
  have wholeEnd : map.rank (span.start + span.len) + _ = span.start + span.len :=
    count_kept_add map.ascending (span.start + span.len)
  have grows : map.rank span.start ≤ map.rank (span.start + span.len) :=
    Nat.count_monotone map.Keeps (Nat.le_add_right _ _)
  rw [getRange, drop_partitionPoint (ordered _), partitionPoint_eq_length (ordered _)]
  congr 2
  · omega
  · funext start
    congr 2
    omega

theorem getRange_eq_ok {span : FederatedGraph.Span} {range : IdRange} :
    map.getRange span = .ok range ↔ map.imageRange span = range ∧ map.rank (span.start + span.len) ≤ maxId := by
  have grows : map.rank span.start ≤ map.rank (span.start + span.len) :=
    Nat.count_monotone map.Keeps (Nat.le_add_right _ _)
  rw [getRange_eq]
  constructor
  · intro found
    obtain ⟨start, isStart, found⟩ := bind_eq_ok.mp found
    obtain ⟨stop, isStop, found⟩ := bind_eq_ok.mp found
    cases found
    obtain ⟨_, rfl⟩ := toId_eq_ok.mp isStart
    obtain ⟨small, rfl⟩ := toId_eq_ok.mp isStop
    exact ⟨rfl, small⟩
  · rintro ⟨rfl, small⟩
    rw [toId_eq_ok.mpr ⟨grows.trans small, rfl⟩, toId_eq_ok.mpr ⟨small, rfl⟩]
    rfl

theorem forall₂_imageRange {α : Type} (map : IdMap) (items : List α) (span : FederatedGraph.Span)
    (inside : span.start + span.len ≤ items.length) :
    List.Forall₂ (fun entry target => map.Keeps entry.2 ∧ map.rank entry.2 = target)
      (keptFrom map.Keeps span.start ((items.drop span.start).take span.len)) (map.imageRange span).toList := by
  have length : ((items.drop span.start).take span.len).length = span.len := by
    rw [length_take, length_drop]
    omega
  have all := @forall₂_kept α map.Keeps _ span.start ((items.drop span.start).take span.len)
  rw [length] at all
  exact all

theorem filterMap_image (map : IdMap) (start len : Nat) :
    (List.range' start len).filterMap map.image = (map.imageRange ⟨start, len⟩).toList := by
  rw [imageRange, IdRange.toList]
  induction len with
  | zero => simp
  | succ len ih =>
    have grows : map.rank start ≤ map.rank (start + len) := Nat.count_monotone map.Keeps (Nat.le_add_right _ _)
    have next : map.rank (start + (len + 1)) = _ := Nat.count_succ map.Keeps (start + len)
    rw [range'_concat, filterMap_append, ih, Nat.one_mul, next]
    by_cases keeps : map.Keeps (start + len)
    · rw [if_pos keeps, show Nat.count map.Keeps (start + len) + 1 - map.rank start =
        map.rank (start + len) - map.rank start + 1 by simp only [rank] at *; omega, range'_concat]
      simp [image, keeps, Nat.add_sub_cancel' grows]
    · simp [image, keeps, rank]

theorem skip_spec (map : IdMap) (id : Nat) :
    if Ascending (map.skippedIds ++ [id]) then
      ∃ after, map.skip id = .ok after ∧ after.skippedIds = map.skippedIds ++ [id]
    else map.skip id = .error (.expect "Broken invariant: ids must be skipped in order") := by
  simp only [ascending_concat map.ascending]
  split
  · next greater =>
    unfold skip
    split
    · next last => exact ⟨_, rfl, by simp [getLast?_eq_none_iff.mp last]⟩
    · next lastEntry last =>
      rw [dif_pos (greater lastEntry last)]
      exact ⟨_, rfl, rfl⟩
  · next less =>
    unfold skip
    split
    · next last => simp [last] at less
    · next lastEntry last => exact dif_neg fun increasing => less (by simpa [last] using increasing)

def skipAll (ids : List Nat) : Checked IdMap := ids.foldlM skip {}

theorem skipAll_spec (ids : List Nat) :
    if Ascending ids then ∃ map, skipAll ids = .ok map ∧ map.skippedIds = ids
    else skipAll ids = .error (.expect "Broken invariant: ids must be skipped in order") := by
  induction ids using List.reverseRecOn with
  | nil => exact ⟨{}, rfl, rfl⟩
  | append_singleton front id ih =>
    have run : skipAll (front ++ [id]) = skipAll front >>= (skip · id) := by simp [skipAll]
    by_cases ascending : Ascending front
    · rw [if_pos ascending] at ih
      obtain ⟨map, ran, rfl⟩ := ih
      rw [run, ran]
      exact skip_spec map id
    · rw [if_neg ascending] at ih
      rw [if_neg fun whole => ascending (pairwise_append.mp whole).1, run, ih]
      rfl

/-- The ids that are not skipped move to the numbers of such ids below them, those of an interval to an interval, as
far as these numbers are ids. -/
structure IsRankMap (map : IdMap) (skipped : List Nat) : Prop where
  get_eq_none : ∀ id, map.get id = .ok none ↔ id ∈ skipped
  get_eq_some : ∀ id ∉ skipped, ∀ target,
    map.get id = .ok (some target) ↔ target = Nat.count (· ∉ skipped) id ∧ target ≤ maxId
  increasing : ∀ first second target other, first < second → map.get first = .ok (some target) →
    map.get second = .ok (some other) → target < other
  onto : ∀ bound target, (∃ id < bound, map.get id = .ok (some target)) ↔
    target < Nat.count (· ∉ skipped) bound ∧ target ≤ maxId
  range_ok : ∀ start len, (∃ range, map.getRange ⟨start, len⟩ = .ok range) ↔
    Nat.count (· ∉ skipped) (start + len) ≤ maxId
  range : ∀ start len range, map.getRange ⟨start, len⟩ = .ok range →
    ∃ images, (List.range' start len).mapM map.get = .ok images ∧ range.toList = images.reduceOption

theorem mapM_get {ids : List Nat} (small : ∀ id ∈ ids, map.rank id ≤ maxId) :
    ids.mapM map.get = .ok (ids.map map.image) := by
  induction ids with
  | nil => rfl
  | cons id rest ih =>
    obtain ⟨here, later⟩ := forall_mem_cons.mp small
    have found : map.get id = .ok (map.image id) := by
      refine get_eq_ok.mpr ⟨rfl, fun target isTarget => ?_⟩
      obtain ⟨_, rfl⟩ := image_eq_some.mp isTarget
      exact here
    rw [mapM_cons, found, ih later]
    rfl

end IdMap

abbrev StringId := Nat
abbrev ScalarDefinitionId := Nat
abbrev ObjectDefinitionId := Nat
abbrev InterfaceDefinitionId := Nat
abbrev UnionDefinitionId := Nat
abbrev EnumDefinitionId := Nat
abbrev EnumValueId := Nat
abbrev InputObjectDefinitionId := Nat
abbrev InputValueDefinitionId := Nat
abbrev FieldDefinitionId := Nat
abbrev RequiredFieldId := Nat
abbrev SchemaInputValueId := Nat

inductive DefinitionId where
  | scalar (id : ScalarDefinitionId)
  | object (id : ObjectDefinitionId)
  | interface (id : InterfaceDefinitionId)
  | union (id : UnionDefinitionId)
  | enum (id : EnumDefinitionId)
  | inputObject (id : InputObjectDefinitionId)
  deriving DecidableEq

structure TypeRecord where
  definitionId : DefinitionId
  wrapping : Wrapping

/-- How a scalar is represented and validated. -/
inductive ScalarType where
  | string
  | float
  | int
  | bigInt
  | json
  | boolean
  deriving DecidableEq

def ScalarType.fromScalarName : String → ScalarType
  | "String" => .string
  | "Float" => .float
  | "Int" => .int
  | "BigInt" => .bigInt
  | "JSON" => .json
  | "Boolean" => .boolean
  | "ID" => .string
  | _ => .json

/-- Input values of the schema. Lists, input objects and maps are ranges in the tables below. -/
inductive SchemaInputValueRecord where
  | null
  | string (id : StringId)
  | enumValue (id : EnumValueId)
  | int (value : Int32)
  | bigInt (value : Int64)
  | float (value : Float)
  | boolean (value : Bool)
  | inputObject (ids : IdRange)
  | list (ids : IdRange)
  | map (ids : IdRange)
  | u64 (value : UInt64)
  | unboundEnumValue (id : StringId)

structure SchemaInputValues where
  values : List SchemaInputValueRecord := []
  inputFields : List (InputValueDefinitionId × SchemaInputValueRecord) := []
  keyValues : List (StringId × SchemaInputValueRecord) := []

structure ScalarDefinitionRecord where
  nameId : StringId
  ty : ScalarType

structure EnumValueRecord where
  nameId : StringId

structure EnumDefinitionRecord where
  nameId : StringId
  valueIds : IdRange

structure InputValueDefinitionRecord where
  nameId : StringId
  tyRecord : TypeRecord
  defaultValueId : Option SchemaInputValueId := none

structure InputObjectDefinitionRecord where
  nameId : StringId
  inputFieldIds : IdRange
  deriving DecidableEq

inductive EntityDefinitionId where
  | object (id : ObjectDefinitionId)
  | interface (id : InterfaceDefinitionId)

structure FieldDefinitionRecord where
  nameId : StringId
  parentEntityId : EntityDefinitionId
  tyRecord : TypeRecord
  argumentIds : IdRange

structure ObjectDefinitionRecord where
  nameId : StringId
  interfaceIds : List InterfaceDefinitionId := []
  fieldIds : IdRange

structure InterfaceDefinitionRecord where
  nameId : StringId
  interfaceIds : List InterfaceDefinitionId := []
  possibleTypeIds : List ObjectDefinitionId := []
  fieldIds : IdRange

structure UnionDefinitionRecord where
  nameId : StringId
  possibleTypeIds : List ObjectDefinitionId

/-- A field together with the values of its arguments. -/
structure RequiredFieldRecord where
  definitionId : FieldDefinitionId
  argumentRecords : List (InputValueDefinitionId × SchemaInputValueId)
  deriving DecidableEq

/-- Required fields with the fields required below them, in the order of their ids. -/
abbrev RequiredFieldSetRecord := Forest RequiredFieldId

structure Graph where
  objectDefinitions : List ObjectDefinitionRecord := []
  interfaceDefinitions : List InterfaceDefinitionRecord := []
  unionDefinitions : List UnionDefinitionRecord := []
  scalarDefinitions : List ScalarDefinitionRecord := []
  enumDefinitions : List EnumDefinitionRecord := []
  enumValueDefinitions : List EnumValueRecord := []
  inputObjectDefinitions : List InputObjectDefinitionRecord := []
  inputValueDefinitions : List InputValueDefinitionRecord := []
  fieldDefinitions : List FieldDefinitionRecord := []
  requiredFields : List RequiredFieldRecord := []
  requiredFieldSets : List RequiredFieldSetRecord := []
  inputValues : SchemaInputValues := {}

structure IdMaps where
  field : IdMap := {}
  inputValue : IdMap := {}
  enumValues : IdMap := {}
  scalarIds : List FederatedGraph.TypeDefinitionId := []
  enumIds : List FederatedGraph.TypeDefinitionId := []

structure BuildContext where
  strings : List String
  idmaps : IdMaps

end Grafbase.Schema
