import Mathlib.Data.Prod.Lex
import Mathlib.Data.String.Basic
import Grafbase.Foundation.Compaction
import Grafbase.Foundation.StableSort
import Grafbase.OperationChecks.WrappingTypes
import Grafbase.Sdl.Ast

/-! The schemas that operations are checked against, and the arguments of their fields.

Fields and arguments are recorded in sorted vectors and addressed by their
positions. The arguments of a field are found with one partition point.
-/

set_option autoImplicit false

namespace Grafbase.OperationChecks
open Foundation Sdl List

/-- The loop of `extract_type`, from the outermost type to the named one. -/
def extractType (wrapperTypes : WrappingTypes) : Ty → String × WrappingTypes
  | .named name nullable => (name, wrapperTypes.setInnerNonnull !nullable)
  | .list item nullable => extractType (wrapperTypes.pushList !nullable) item

structure SchemaField where
  typeName : String
  fieldName : String
  baseType : String
  wrappers : WrappingTypes

structure FieldArgument where
  typeName : String
  fieldName : String
  argumentName : String
  baseType : String
  wrappers : WrappingTypes
  hasDefault : Bool

def SchemaField.sortKey (field : SchemaField) : Lex (String × String) := toLex (field.typeName, field.fieldName)

def FieldArgument.sortKey (argument : FieldArgument) : Lex (String × Lex (String × String)) :=
  toLex (argument.typeName, toLex (argument.fieldName, argument.argumentName))

structure Schema where
  fields : List SchemaField
  fieldArguments : List FieldArgument

section Document

def schemaField (typeName fieldName : String) (ty : Ty) : SchemaField :=
  let (baseType, wrappers) := extractType ⟨0⟩ ty
  { typeName, fieldName, baseType, wrappers }

def fieldArguments (typeName : String) (field : FieldDefinition) : List FieldArgument :=
  field.arguments.map fun argument =>
    let (baseType, wrappers) := extractType ⟨0⟩ argument.ty
    { typeName, fieldName := field.name, argumentName := argument.name, baseType, wrappers,
      hasDefault := argument.defaultValue.isSome }

variable (definition : TypeDefinition)

def fieldsOf : List SchemaField :=
  match definition.kind with
  | .scalar | .union _ | .enum _ => []
  | .object _ fields | .interface _ fields => fields.map fun field => schemaField definition.name field.name field.ty
  | .inputObject fields => fields.map fun field => schemaField definition.name field.name field.ty

/-- The arguments that are recorded: those of interfaces are not. -/
def recordedArguments : List FieldArgument :=
  match definition.kind with
  | .object _ fields => fields.flatMap (fieldArguments definition.name)
  | _ => []

def interfaceArguments : List FieldArgument :=
  match definition.kind with
  | .interface _ fields => fields.flatMap (fieldArguments definition.name)
  | _ => []

def declaredArguments : List FieldArgument :=
  (definition.kind.implementer?.elim [] Prod.snd).flatMap (fieldArguments definition.name)

theorem declaredArguments_eq :
    declaredArguments definition = recordedArguments definition ++ interfaceArguments definition := by
  simp only [declaredArguments, recordedArguments, interfaceArguments]
  cases definition.kind <;> simp [TypeKind.implementer?]

def Schema.fromDocument (document : ServiceDocument) : Schema where
  fields := sortByKey SchemaField.sortKey (document.flatMap fieldsOf)
  fieldArguments := sortByKey FieldArgument.sortKey (document.flatMap recordedArguments)

end Document

section IterFieldArguments
variable (field : SchemaField) (argument : FieldArgument)

def FieldArgument.isOf : Bool := argument.typeName = field.typeName ∧ argument.fieldName = field.fieldName

/-- The predicate of the search: both names are smaller, which is not the order of the vector. -/
def FieldArgument.isBelow : Bool := argument.typeName < field.typeName ∧ argument.fieldName < field.fieldName

/-- The key of the field that has the argument: the order of the vector refines the order of these. -/
def FieldArgument.fieldKey : Lex (String × String) := toLex (argument.typeName, argument.fieldName)

open FieldArgument (fieldKey isOf sortKey isBelow)

def argumentsFrom (arguments : List FieldArgument) (start : Nat) : List FieldArgument :=
  (arguments.drop start).takeWhile (·.isOf field)

variable (point : (FieldArgument → Bool) → List FieldArgument → Nat)

/-- The arguments with their ids, for some `partition_point`; `none` if there is no field with the id. -/
def Schema.iterFieldArguments (schema : Schema) (fieldId : Nat) : Option (List (FieldArgument × Nat)) := do
  let field ← schema.fields[fieldId]?
  let start := point (·.isBelow field) schema.fieldArguments
  return (argumentsFrom field schema.fieldArguments start).zipIdx start

/-- The iteration yields the declared arguments of the field, each once and under its id. -/
def IterExact (document : ServiceDocument) (fieldId : Nat) : Prop :=
  let schema := Schema.fromDocument document
  ∀ point, IsPartitionPoint point → ∃ field yielded,
    schema.fields[fieldId]? = some field ∧ schema.iterFieldArguments point fieldId = some yielded ∧
    (yielded.map Prod.fst).Perm ((document.flatMap declaredArguments).filter (·.isOf field)) ∧
    (yielded.map Prod.snd).Nodup ∧ ∀ entry ∈ yielded, schema.fieldArguments[entry.2]? = some entry.1

/-- All arguments in front of those of the field are below them. -/
def InFrontBelow (arguments : List FieldArgument) : Prop :=
  ∀ argument ∈ arguments, argument.fieldKey < field.sortKey → argument.isBelow field

/-- No interface declares arguments of the field, and either no object does, or those in front are below. -/
def ArgumentsFound (document : ServiceDocument) : Prop :=
  (∀ argument ∈ document.flatMap interfaceArguments, ¬ argument.isOf field) ∧
    ((∀ argument ∈ document.flatMap recordedArguments, ¬ argument.isOf field) ∨
      InFrontBelow field (document.flatMap recordedArguments))

variable {field argument point}

theorem isOf_iff : argument.isOf field ↔ argument.fieldKey = field.sortKey := by
  simp [isOf, fieldKey, SchemaField.sortKey]

theorem fieldKey_lt_of_isBelow (below : argument.isBelow field) : argument.fieldKey < field.sortKey := by
  simp only [isBelow, decide_eq_true_eq] at below
  exact Prod.Lex.toLex_lt_toLex.mpr (.inl below.1)

theorem argumentsFrom_sublist (field : SchemaField) (items : List FieldArgument) (start : Nat) :
    (argumentsFrom field items start).Sublist (items.filter (·.isOf field)) := by
  have whole := ((takeWhile_sublist (·.isOf field)).trans (drop_sublist start items)).filter (·.isOf field)
  rwa [filter_eq_self.mpr (all_eq_true.mp all_takeWhile)] at whole

section
variable {items : List FieldArgument} (sorted : items.Pairwise fun first second => first.fieldKey ≤ second.fieldKey)
include sorted

/-- An argument in front of those of the field that is not below them ends the iteration where it starts. -/
theorem takeWhile_isOf_of_missed (member : argument ∈ items) (before : argument.fieldKey < field.sortKey)
    (missed : ¬ argument.isBelow field) : (items.dropWhile (·.isBelow field)).takeWhile (·.isOf field) = [] := by
  induction items with
  | nil => cases member
  | cons first rest ih =>
    obtain ⟨least, sorted⟩ := pairwise_cons.mp sorted
    by_cases below : first.isBelow field
    · rw [dropWhile_cons_of_pos below]
      rcases mem_cons.mp member with rfl | later
      · exact absurd below missed
      · exact ih sorted later
    · have smaller : first.fieldKey < field.sortKey := by
        rcases mem_cons.mp member with rfl | later
        · exact before
        · exact (least argument later).trans_lt before
      rw [dropWhile_cons_of_neg below, takeWhile_cons_of_neg]
      exact fun same => smaller.ne (isOf_iff.mp same)

theorem argumentsFrom_point (isPoint : IsPartitionPoint point) (inFront : InFrontBelow field items) :
    argumentsFrom field items (point (·.isBelow field) items) = items.filter (·.isOf field) := by
  have same (argument : FieldArgument) (member : argument ∈ items) :
      argument.isBelow field = decide (argument.fieldKey < field.sortKey) := by
    rw [Bool.eq_iff_iff, decide_eq_true_eq]
    exact ⟨fieldKey_lt_of_isBelow, inFront argument member⟩
  have ordered : items.Pairwise fun first second =>
      decide (second.fieldKey < field.sortKey) = true → decide (first.fieldKey < field.sortKey) = true :=
    sorted.imp fun order below => by simpa using order.trans_lt (by simpa using below)
  have partitioned : items.Pairwise fun first second => second.isBelow field = true → first.isBelow field = true := by
    refine (List.Pairwise.and_mem.mp ordered).imp fun {first second} ⟨isFirst, isSecond, order⟩ => ?_
    rwa [same first isFirst, same second isSecond]
  rw [argumentsFrom, (isPoint _ _).2 partitioned, dropWhile_eq_filter_of_ordered partitioned,
    filter_congr fun argument member => congrArg not (same argument member), ← dropWhile_eq_filter_of_ordered ordered]
  simpa [← isOf_iff] using takeWhile_dropWhile_eq_filter fieldKey field.sortKey sorted

open Classical in
theorem argumentsFrom_point_iff :
    (∀ point, IsPartitionPoint point →
      argumentsFrom field items (point (·.isBelow field) items) = items.filter (·.isOf field)) ↔
    (∀ argument ∈ items, ¬ argument.isOf field) ∨ InFrontBelow field items := by
  constructor
  · intro found
    by_contra! ⟨⟨target, isTarget, same⟩, missed⟩
    obtain ⟨early, isEarly, before, missed⟩ : ∃ early ∈ items, early.fieldKey < field.sortKey ∧
      ¬ early.isBelow field := by
      simpa [InFrontBelow] using missed
    -- At worst the search ends behind a slice that is not partitioned.
    let point (below : FieldArgument → Bool) (slice : List FieldArgument) :=
      if slice.Pairwise fun first second => below second = true → below first = true then partitionPoint below slice
      else slice.length
    have isPoint : IsPartitionPoint point := by
      intro below slice
      by_cases partitioned : slice.Pairwise fun first second => below second = true → below first = true
      · simpa only [point, if_pos partitioned] using isPartitionPoint_partitionPoint below slice
      · simp [point, partitioned]
    have member := mem_filter.mpr ⟨isTarget, same⟩
    rw [← found point isPoint, argumentsFrom] at member
    by_cases partitioned : items.Pairwise fun first second => second.isBelow field = true → first.isBelow field = true
    · rw [(isPoint _ _).2 partitioned, takeWhile_isOf_of_missed sorted isEarly before missed] at member
      cases member
    · simp [point, partitioned] at member
  · rintro (none | inFront) point isPoint
    · have part := argumentsFrom_sublist field items (point (·.isBelow field) items)
      rw [filter_eq_nil_iff.mpr none] at part ⊢
      exact sublist_nil.mp part
    · exact argumentsFrom_point sorted isPoint inFront

end

variable {document : ServiceDocument} {fieldId : Nat}
  (found : (Schema.fromDocument document).fields[fieldId]? = some field)
include found

theorem iterExact_iff_perm : IterExact document fieldId ↔ ∀ point, IsPartitionPoint point →
    (argumentsFrom field (Schema.fromDocument document).fieldArguments
      (point (·.isBelow field) (Schema.fromDocument document).fieldArguments)).Perm
      ((document.flatMap declaredArguments).filter (·.isOf field)) := by
  refine forall₂_congr fun point isPoint => ?_
  simp only [Schema.iterFieldArguments, found, Option.bind_eq_bind, Option.bind_some, Option.pure_def,
    Option.some.injEq,
    exists_and_left, exists_eq_left', zipIdx_map_fst, zipIdx_map_snd]
  refine and_iff_left ⟨nodup_range' 1, fun ⟨argument, id⟩ member => ?_⟩
  obtain ⟨behind, at'⟩ := mk_mem_zipIdx_iff_le_and_getElem?_sub.mp member
  obtain ⟨inside, rfl⟩ := List.getElem?_eq_some_iff.mp at'
  have same := prefix_iff_getElem?.mp ( takeWhile_prefix (isOf field)) _ inside
  rwa [getElem?_drop, Nat.add_sub_cancel' behind] at same

/-- The arguments of a field are found exactly when no interface declares any of them, and when all arguments in front
of them are below them in both names. -/
theorem iterExact_iff_argumentsFound : IterExact document fieldId ↔ ArgumentsFound field document := by
  have recorded : (Schema.fromDocument document).fieldArguments.Perm (document.flatMap recordedArguments) :=
    perm_sortByKey _ _
  rw [iterExact_iff_perm found, ArgumentsFound, InFrontBelow]
  simp only [← recorded.mem_iff]
  generalize arguments : (Schema.fromDocument document).fieldArguments = items at recorded ⊢
  have sorted : items.Pairwise fun first second => first.fieldKey ≤ second.fieldKey := by
    subst arguments
    refine (pairwise_sortByKey _).imp fun {first second} order => ?_
    simp only [sortKey, fieldKey, Prod.Lex.toLex_le_toLex] at order ⊢
    grind
  have declared : (document.flatMap declaredArguments).Perm (items ++ document.flatMap interfaceArguments) := by
    rw [show declaredArguments = _ from funext declaredArguments_eq]
    exact (flatMap_append_perm document _ _).symm.trans (recorded.symm.append_right _)
  -- What is yielded is a part of what is recorded, so their lengths decide.
  have exact_iff (start : Nat) : (argumentsFrom field items start).Perm
        ((document.flatMap declaredArguments).filter (·.isOf field)) ↔
      (document.flatMap interfaceArguments).filter (·.isOf field) = [] ∧
        argumentsFrom field items start = items.filter (·.isOf field) := by
    rw [(declared.filter _).congr_right, filter_append]
    constructor
    · intro perm
      have part := argumentsFrom_sublist field items start
      have lengths := perm.length_eq
      rw [length_append] at lengths
      have := part.length_le
      exact ⟨eq_nil_of_length_eq_zero (by omega), part.eq_of_length (by omega)⟩
    · rintro ⟨none, same⟩
      rw [none, same, append_nil]
  simp only [exact_iff, filter_eq_nil_iff]
  rw [← InFrontBelow, ← argumentsFrom_point_iff sorted]
  exact ⟨fun all => ⟨(all partitionPoint isPartitionPoint_partitionPoint).1, fun point isPoint =>
    (all point isPoint).2⟩,
    fun ⟨noInterface, same⟩ point isPoint => ⟨noInterface, same point isPoint⟩⟩

omit found

/-- The arguments of `B.z(y, w)` behind that of `A.a(x)`. -/
theorem iterExact_second_type : IterExact
    [⟨false, "A", .object [] [⟨"a", [⟨"x", .named "Int" true, none⟩], .named "Int" true⟩]⟩,
      ⟨false, "B", .object [] [⟨"z", [⟨"y", .named "Int" true, none⟩, ⟨"w", .named "ID" false, none⟩],
        .named "Int" true⟩]⟩] 1 := by
  refine (iterExact_iff_argumentsFound rfl).mpr ⟨by decide, .inr fun argument member before => ?_⟩
  simp only [flatMap_cons, flatMap_nil, recordedArguments, fieldArguments, map_cons, map_nil, append_nil, cons_append,
    nil_append, mem_cons, not_mem_nil, or_false] at member
  rcases member with rfl | rfl | rfl
  · decide
  · exact absurd before (lt_irrefl _)
  · exact absurd before (lt_irrefl _)

/-- The argument of `A.z` comes before that of `B.a`, whose field has the smaller name. -/
theorem not_iterExact_smaller_field : ¬ IterExact
    [⟨false, "A", .object [] [⟨"z", [⟨"x", .named "Int" true, none⟩], .named "Int" true⟩]⟩,
      ⟨false, "B", .object [] [⟨"a", [⟨"y", .named "Int" true, none⟩], .named "Int" true⟩]⟩] 1 := by
  intro exact'
  have perm := (iterExact_iff_perm rfl).mp exact' partitionPoint isPartitionPoint_partitionPoint
  rw [argumentsFrom, (isPartitionPoint_partitionPoint _ _).2 (by decide)] at perm
  exact absurd perm.length_eq (by decide)

end IterFieldArguments
end Grafbase.OperationChecks
