import Grafbase.Foundation.Slices

/-! Response edges, values and objects.

Edges are packed into 32 bits. A bound key carries its position in the query
above its interned name, so that the order of the packed numbers is the order
of the fields in the query. Extra fields follow all bound keys, list indices
follow all fields.

A value says whether it may be set to null by error propagation. Objects keep
their fields ordered by edge; lists and objects are stored in parts and values
only hold their ids.
-/

set_option autoImplicit false

namespace Grafbase.Response
open Foundation List

abbrev U32 := BitVec 32

def positionMask : U32 := 0x7fff8000
def positionBitShift : Nat := 15
def maxResponseKey : U32 := (1 <<< positionBitShift) - 1
def responseKeyMask : U32 := maxResponseKey
def otherFlag : U32 := 0x80000000
def extraFieldKeyFlag : U32 := otherFlag
def extraFieldKeyMask : U32 := ~~~extraFieldKeyFlag
def indexFlag : U32 := otherFlag ||| 0x40000000
def indexMask : U32 := ~~~indexFlag

structure ResponseEdge where
  bits : U32
  deriving DecidableEq

structure BoundResponseKey where
  bits : U32
  deriving DecidableEq

structure ResponseKey where
  bits : U32
  deriving DecidableEq

inductive UnpackedResponseEdge where
  | index (position : Nat)
  | boundResponseKey (key : BoundResponseKey)
  | extraFieldResponseKey (key : ResponseKey)

abbrev ResponsePath := List ResponseEdge

def BoundResponseKey.asResponseKey (key : BoundResponseKey) : ResponseKey := ⟨key.bits &&& responseKeyMask⟩

def maxPosition : Nat := 2 ^ 16 - 1

def ResponseKey.withPosition (key : ResponseKey) (position : Nat) : Option BoundResponseKey :=
  if position ≤ maxPosition then some ⟨key.bits ||| (BitVec.ofNat 32 position <<< positionBitShift)⟩ else none

def BoundResponseKey.position (key : BoundResponseKey) : Nat := (key.bits &&& positionMask).toNat >>> positionBitShift

def ResponseEdge.unpack (edge : ResponseEdge) : UnpackedResponseEdge :=
  if edge.bits &&& otherFlag = 0 then .boundResponseKey ⟨edge.bits⟩
  else if edge.bits &&& indexFlag = indexFlag then .index (edge.bits &&& indexMask).toNat
  else .extraFieldResponseKey ⟨edge.bits &&& extraFieldKeyMask⟩

/-- The assertions of the source fail when a flag would be overwritten. -/
def UnpackedResponseEdge.pack : UnpackedResponseEdge → Checked ResponseEdge
  | .boundResponseKey key =>
    if key.bits &&& otherFlag = 0 then .ok ⟨key.bits⟩ else .error (.expect "assertion failed")
  | .index position =>
    let bits := BitVec.ofNat 32 position
    if bits &&& indexMask = bits then .ok ⟨bits ||| indexFlag⟩
    else .error (.expect "Insufficient space for the index")
  | .extraFieldResponseKey key =>
    if key.bits &&& extraFieldKeyMask = key.bits then .ok ⟨extraFieldKeyFlag ||| key.bits⟩
    else .error (.expect "Insufficient space for the key")

def ResponseEdge.asResponseKey (edge : ResponseEdge) : Option ResponseKey :=
  match edge.unpack with
  | .boundResponseKey key => some key.asResponseKey
  | .extraFieldResponseKey key => some key
  | .index _ => none

/-- Edges are ordered as packed numbers. -/
def ResponseEdge.cmp (first second : ResponseEdge) : Ordering := compare first.bits.toNat second.bits.toNat

theorem ResponseEdge.cmp_eq_iff {first second : ResponseEdge} : first.cmp second = .eq ↔ first = second := by
  cases first
  cases second
  simp [ResponseEdge.cmp, BitVec.toNat_inj]

inductive JsonNumber where
  | posInt (value : BitVec 64)
  | negInt (value : BitVec 64)
  | float (bits : BitVec 64)

/-- `serde_json::Value`; entries stand in document order. -/
inductive Json where
  | null
  | bool (value : Bool)
  | number (value : JsonNumber)
  | string (value : String)
  | array (items : List Json)
  | object (entries : List (String × Json))

structure ResponseObjectId where
  partId : Nat
  index : Nat
  deriving DecidableEq

structure ResponseListId where
  partId : Nat
  offset : Nat
  length : Nat
  deriving DecidableEq

abbrev StringId := Nat
abbrev RequiredFieldId := Nat

inductive ResponseValue where
  | null
  | boolean (value : Bool) (nullable : Bool)
  | int (value : BitVec 32) (nullable : Bool)
  | bigInt (value : BitVec 64) (nullable : Bool)
  | float (bits : BitVec 64) (nullable : Bool)
  | string (value : String) (nullable : Bool)
  | stringId (id : StringId) (nullable : Bool)
  | json (value : Json) (nullable : Bool)
  | list (id : ResponseListId) (nullable : Bool)
  | object (id : ResponseObjectId) (nullable : Bool)

namespace ResponseValue

def isNull : ResponseValue → Bool
  | .null => true
  | _ => false

/-- The flag that error propagation looks at; a null has none. -/
def nullable : ResponseValue → Bool
  | .null => false
  | .boolean _ nullable | .int _ nullable | .bigInt _ nullable | .float _ nullable | .string _ nullable
  | .stringId _ nullable | .json _ nullable | .list _ nullable | .object _ nullable => nullable

end ResponseValue

structure ResponseObjectField where
  edge : ResponseEdge
  requiredFieldId : Option RequiredFieldId
  value : ResponseValue

/-- `a.edge ≤ b.edge`, the order in which an object keeps its fields. -/
def ResponseObjectField.le (first second : ResponseObjectField) : Bool := first.edge.bits.toNat ≤ second.edge.bits.toNat

structure ResponseObject where
  fields : List ResponseObjectField
  sorted : fields.Pairwise fun first second => first.le second

namespace ResponseObject

theorem sorted_mergeSort (fields : List ResponseObjectField) :
    (fields.mergeSort ResponseObjectField.le).Pairwise fun first second => first.le second := by
  apply pairwise_mergeSort
  · simp only [ResponseObjectField.le, decide_eq_true_eq] at *
    omega
  · simp only [ResponseObjectField.le, Bool.or_eq_true, decide_eq_true_eq]
    omega

/-- `sort_unstable_by` leaves the order of equal edges open; the model keeps them as they come. -/
def new (fields : List ResponseObjectField) : ResponseObject :=
  ⟨fields.mergeSort ResponseObjectField.le, sorted_mergeSort fields⟩

def default : ResponseObject := ⟨[], List.Pairwise.nil⟩

def extend (object : ResponseObject) (fields : List ResponseObjectField) : ResponseObject :=
  new (object.fields ++ fields)

variable {fields : List ResponseObjectField} {field : ResponseObjectField} {object : ResponseObject}

theorem mem_new : field ∈ (new fields).fields ↔ field ∈ fields := (mergeSort_perm fields ResponseObjectField.le).mem_iff

@[simp] theorem mem_extend : field ∈ (object.extend fields).fields ↔ field ∈ object.fields ∨ field ∈ fields := by
  rw [extend, mem_new, mem_append]

/-- An exact edge first; otherwise the first field with the same response key, so that an extra
field's edge finds the bound field of that name. -/
def fieldPosition (object : ResponseObject) (edge : ResponseEdge) : Option Nat :=
  match binarySearchBy (fun field => field.edge.cmp edge) object.fields with
  | .ok position => some position
  | .error _ =>
    match edge.asResponseKey with
    | some key => object.fields.findIdx? fun field => field.edge.asResponseKey = some key
    | none => none

/-- Fields are classified by the order of their edges. -/
theorem classified (object : ResponseObject) (edge : ResponseEdge) :
    Classified (fun field : ResponseObjectField => field.edge.cmp edge) object.fields := by
  apply object.sorted.imp
  intro first second before
  simp only [ResponseObjectField.le, decide_eq_true_eq] at before
  simp only [ResponseEdge.cmp, Nat.compare_eq_lt, Nat.compare_eq_gt]
  omega

theorem fieldPosition_some {edge : ResponseEdge} {position : Nat}
    (found : object.fieldPosition edge = some position) : ∃ field, object.fields[position]? = some field ∧
      (field.edge = edge ∨ edge.asResponseKey.isSome ∧ field.edge.asResponseKey = edge.asResponseKey) := by
  unfold fieldPosition at found
  split at found
  · next exact_ hit =>
    obtain rfl : exact_ = position := by simpa using found
    obtain ⟨field, atField, same⟩ := binarySearchLoop_hit hit
    exact ⟨field, atField, .inl (ResponseEdge.cmp_eq_iff.mp same)⟩
  · split at found
    · next key named =>
      obtain ⟨bound, same, _⟩ := findIdx?_eq_some_iff_getElem.mp found
      exact ⟨_, getElem?_eq_getElem bound, .inr ⟨by simp [named], by simpa [named] using same⟩⟩
    · cases found

theorem fieldPosition_of_mem (member : field ∈ object.fields) :
    ∃ position found, object.fieldPosition field.edge = some position ∧
      object.fields[position]? = some found ∧ found.edge = field.edge := by
  obtain ⟨position, hit⟩ := binarySearchBy_of_mem (object.classified field.edge) member
    (ResponseEdge.cmp_eq_iff.mpr rfl)
  obtain ⟨found, atFound, same⟩ := binarySearchLoop_hit hit
  exact ⟨position, found, by rw [fieldPosition, hit], atFound, ResponseEdge.cmp_eq_iff.mp same⟩

/-- `object[position] = value`; edges, and so the order, stay. -/
def set (object : ResponseObject) (position : Nat) (value : ResponseValue) : ResponseObject where
  fields := object.fields.modify position fun field => { field with value }
  sorted := by
    rw [pairwise_iff_getElem]
    intro i j boundI boundJ order
    simp only [length_modify] at boundI boundJ
    have ordered := pairwise_iff_getElem.mp object.sorted i j boundI boundJ order
    simp only [getElem_modify, ResponseObjectField.le]
    split <;> split <;> exact ordered

end ResponseObject
end Grafbase.Response
