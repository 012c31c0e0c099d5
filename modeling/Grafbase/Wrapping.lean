import Grafbase.Foundation.BitFields
import Grafbase.Foundation.Slices

/-! The list and nullability wrappers of a type, packed into one word.

The highest bit says whether the innermost type is required. Two positions of
five bits each delimit the list wrappers among the lowest 21 bits, from the
innermost to the outermost. Both ends can be taken off, so that a wrapping is
its own iterator.
-/

set_option autoImplicit false

namespace Grafbase
open Foundation List

inductive ListWrapping where
  | requiredList
  | nullableList
  deriving DecidableEq

variable (bits : BitVec 32)

namespace Wrapping

def startMask : BitVec 32 := 0b01111100000000000000000000000000
def startShift : Nat := 26
def endMask : BitVec 32 := 0b00000011111000000000000000000000
def endShift : Nat := 21
def maxListWrappings : Nat := 21
def innerIsRequiredFlag : BitVec 32 := 0b10000000000000000000000000000000

def startOf : Nat := ((bits &&& startMask) >>> startShift).toNat
def endOf : Nat := ((bits &&& endMask) >>> endShift).toNat

def setStart (start : Nat) : BitVec 32 :=
  (bits &&& ~~~startMask) ||| BitVec.ofNat 32 start <<< startShift

def setEnd (stop : Nat) : BitVec 32 := (bits &&& ~~~endMask) ||| BitVec.ofNat 32 stop <<< endShift

end Wrapping

/-- A packed wrapping whose positions delimit some of its list wrappers. -/
structure Wrapping where
  bits : BitVec 32
  ordered : Wrapping.startOf bits ≤ Wrapping.endOf bits
  capacity : Wrapping.endOf bits ≤ Wrapping.maxListWrappings
  deriving DecidableEq

namespace Wrapping

theorem startOf_eq : startOf bits = readField bits 26 5 := by
  rw [startOf, readField, show startMask = fieldMask 32 26 5 by decide]
  rfl

theorem endOf_eq : endOf bits = readField bits 21 5 := by
  rw [endOf, readField, show endMask = fieldMask 32 21 5 by decide]
  rfl

theorem setStart_eq (start : Nat) : setStart bits start = writeField bits 26 5 start := by
  rw [setStart, writeField, show startMask = fieldMask 32 26 5 by decide]
  rfl

theorem setEnd_eq (stop : Nat) : setEnd bits stop = writeField bits 21 5 stop := by
  rw [setEnd, writeField, show endMask = fieldMask 32 21 5 by decide]
  rfl

theorem startOf_setStart {start : Nat} (small : start < 32) (bits : BitVec 32) :
    startOf (setStart bits start) = start := by
  rw [startOf_eq, setStart_eq, readField_writeField (by decide) small]

theorem endOf_setEnd {stop : Nat} (small : stop < 32) (bits : BitVec 32) : endOf (setEnd bits stop) = stop := by
  rw [endOf_eq, setEnd_eq, readField_writeField (by decide) small]

theorem endOf_setStart {start : Nat} (small : start < 32) (bits : BitVec 32) :
    endOf (setStart bits start) = endOf bits := by
  rw [endOf_eq, endOf_eq, setStart_eq]
  refine readField_congr (by decide) fun index above below => ?_
  rw [getLsbD_writeField small bits (by omega), if_neg (by omega)]

theorem startOf_setEnd {stop : Nat} (small : stop < 32) (bits : BitVec 32) :
    startOf (setEnd bits stop) = startOf bits := by
  rw [startOf_eq, startOf_eq, setEnd_eq]
  refine readField_congr (by decide) fun index above below => ?_
  rw [getLsbD_writeField small bits (by omega), if_neg (by omega)]

variable {index position : Nat} {rest : Wrapping}

theorem getLsbD_setStart {start : Nat} (small : start < 32) (bits : BitVec 32) (other : index ≤ 25 ∨ index = 31) :
    (setStart bits start).getLsbD index = bits.getLsbD index := by
  rw [setStart_eq, getLsbD_writeField small bits (by omega), if_neg (by omega)]

theorem getLsbD_setEnd {stop : Nat} (small : stop < 32) (bits : BitVec 32) (other : index ≤ 20 ∨ index = 31) :
    (setEnd bits stop).getLsbD index = bits.getLsbD index := by
  rw [setEnd_eq, getLsbD_writeField small bits (by omega), if_neg (by omega)]

def listAt (position : Nat) : ListWrapping :=
  if bits &&& 1#32 <<< position ≠ 0 then .requiredList else .nullableList

def setListAt (position : Nat) : ListWrapping → BitVec 32
  | .requiredList => bits ||| 1#32 <<< position
  | .nullableList => bits &&& ~~~(1#32 <<< position)

theorem getLsbD_setListAt (list : ListWrapping) (bound : position < 32) :
    (setListAt bits position list).getLsbD index =
      if index = position then decide (list = .requiredList) else bits.getLsbD index := by
  cases list with
  | requiredList =>
    rw [setListAt, BitVec.getLsbD_or, ← BitVec.twoPow_eq, BitVec.getLsbD_twoPow]
    by_cases same : index = position
    · simp [same, bound]
    · simp [same, Ne.symm same]
  | nullableList =>
    rw [setListAt, BitVec.getLsbD_and, BitVec.getLsbD_not, ← BitVec.twoPow_eq, BitVec.getLsbD_twoPow]
    by_cases same : index = position
    · simp [same, bound]
    · by_cases inWord : index < 32
      · simp [same, Ne.symm same, inWord]
      · simp [same, BitVec.getLsbD_of_ge bits index (by omega)]

theorem listAt_eq (bound : position < 32) :
    listAt bits position = if bits.getLsbD position then .requiredList else .nullableList := by
  rw [listAt, ← BitVec.twoPow_eq, BitVec.and_twoPow]
  cases bits.getLsbD position with
  | false => simp
  | true =>
    have nonzero : BitVec.twoPow 32 position ≠ 0#32 := by
      intro zero
      simpa [bound] using congrArg (·.getLsbD position) zero
    simpa using nonzero

theorem startOf_setListAt (list : ListWrapping) (bound : position < 21) :
    startOf (setListAt bits position list) = startOf bits := by
  rw [startOf_eq, startOf_eq]
  refine readField_congr (by decide) fun index above below => ?_
  rw [getLsbD_setListAt bits list (by omega), if_neg (by omega)]

theorem endOf_setListAt (list : ListWrapping) (bound : position < 21) :
    endOf (setListAt bits position list) = endOf bits := by
  rw [endOf_eq, endOf_eq]
  refine readField_congr (by decide) fun index above below => ?_
  rw [getLsbD_setListAt bits list (by omega), if_neg (by omega)]

variable (wrapping : Wrapping)

def start : Nat := startOf wrapping.bits
def stop : Nat := endOf wrapping.bits

theorem start_le_stop : wrapping.start ≤ wrapping.stop := wrapping.ordered
theorem stop_le : wrapping.stop ≤ 21 := wrapping.capacity

def innerIsRequired : Bool := wrapping.bits &&& innerIsRequiredFlag ≠ 0

def nullable : Wrapping := ⟨0, by decide, by decide⟩
def required : Wrapping := ⟨innerIsRequiredFlag, by decide, by decide⟩

def new (isRequired : Bool) : Wrapping :=
  if isRequired then required else nullable

/-- The innermost list wrapper and the wrapping without it. -/
def next : Option (ListWrapping × Wrapping) :=
  if empty : wrapping.start = wrapping.stop then none
  else
    have inside : wrapping.start + 1 ≤ wrapping.stop := by
      have := wrapping.start_le_stop
      omega
    have small : wrapping.start + 1 < 32 := by
      have := wrapping.stop_le
      omega
    let bits := setStart wrapping.bits (wrapping.start + 1)
    some (listAt bits wrapping.start, {
      bits := bits
      ordered := by rwa [startOf_setStart small, endOf_setStart small]
      capacity := by
        rw [endOf_setStart small]
        exact wrapping.capacity })

/-- The outermost list wrapper and the wrapping without it. -/
def nextBack : Option (ListWrapping × Wrapping) :=
  if empty : wrapping.stop = wrapping.start then none
  else
    have inside : wrapping.start ≤ wrapping.stop - 1 := by
      have := wrapping.start_le_stop
      omega
    have small : wrapping.stop - 1 < 32 := by
      have := wrapping.stop_le
      omega
    let bits := setEnd wrapping.bits (wrapping.stop - 1)
    some (listAt bits (wrapping.stop - 1), {
      bits := bits
      ordered := by rwa [startOf_setEnd small, endOf_setEnd small]
      capacity := by
        rw [endOf_setEnd small]
        exact (Nat.sub_le _ _).trans wrapping.capacity })

def popListWrapping : Option (ListWrapping × Wrapping) := wrapping.nextBack

def len : Nat := wrapping.stop - wrapping.start

def isRequired : Bool :=
  match wrapping.nextBack with
  | some (list, _) => list = .requiredList
  | none => wrapping.innerIsRequired

def isNullable : Bool := !wrapping.isRequired

def isList : Bool := wrapping.next.isSome

/-- One more list around the type, as long as there is room for its bit. -/
def wrappedBy (list : ListWrapping) : Checked Wrapping :=
  if room : wrapping.stop + 1 < maxListWrappings + 1 then
    have position : wrapping.stop < 21 := Nat.lt_of_succ_lt_succ room
    have small : wrapping.stop + 1 < 32 := by omega
    .ok {
      bits := setListAt (setEnd wrapping.bits (wrapping.stop + 1)) wrapping.stop list
      ordered := by
        rw [startOf_setListAt _ _ position, endOf_setListAt _ _ position, startOf_setEnd small, endOf_setEnd small]
        exact wrapping.start_le_stop.trans (Nat.le_succ _)
      capacity := by
        rw [endOf_setListAt _ _ position, endOf_setEnd small]
        exact Nat.lt_succ_iff.mp room }
  else .error (.expect "Too many list wrappings")

def wrappedByNullableList : Checked Wrapping := wrapping.wrappedBy .nullableList
def wrappedByRequiredList : Checked Wrapping := wrapping.wrappedBy .requiredList

/-- The list wrappers from the innermost to the outermost, which the iterator goes through. -/
def listWrappings : List ListWrapping :=
  (List.range' wrapping.start wrapping.len).map (listAt wrapping.bits)

theorem innerIsRequired_eq : wrapping.innerIsRequired = wrapping.bits.getLsbD 31 := by
  have isBit : innerIsRequiredFlag = BitVec.twoPow 32 31 := by decide
  rw [innerIsRequired, isBit, BitVec.and_twoPow]
  cases wrapping.bits.getLsbD 31 <;> decide

theorem len_eq : wrapping.len = wrapping.listWrappings.length := by
  simp [listWrappings]

variable {wrapping} {list : ListWrapping}

theorem listWrappings_eq_nil : wrapping.listWrappings = [] ↔ wrapping.start = wrapping.stop := by
  have := wrapping.start_le_stop
  simp only [listWrappings, len, map_eq_nil_iff, range'_eq_nil_iff]
  omega

/-- A wrapping whose lists are among those of another one. -/
theorem listWrappings_append {inner outer : Wrapping} (front back : Nat) (starts : inner.start = outer.start + front)
    (stops : outer.stop = inner.stop + back)
    (agree : ∀ index < inner.stop, inner.bits.getLsbD index = outer.bits.getLsbD index) :
    outer.listWrappings = (List.range' outer.start front).map (listAt outer.bits) ++ inner.listWrappings ++
      (List.range' inner.stop back).map (listAt outer.bits) := by
  have ordered := inner.start_le_stop
  have capacity := outer.stop_le
  have middle : (List.range' inner.start inner.len).map (listAt outer.bits) = inner.listWrappings := by
    refine map_congr_left fun position member => ?_
    have bound := (mem_range'_1.mp member).2
    rw [len] at bound
    rw [listAt_eq _ (by omega), listAt_eq _ (by omega), agree position (by omega)]
  have count : outer.len = front + inner.len + back := by
    rw [len, len]
    omega
  have last : outer.start + (front + inner.len) = inner.stop := by
    rw [len]
    omega
  rw [listWrappings, count, ← range'_append_1, ← range'_append_1, map_append, map_append, last, ← starts, middle]

theorem next_eq_none : wrapping.next = none ↔ wrapping.listWrappings = [] := by
  rw [listWrappings_eq_nil, next]
  split <;> simp_all

theorem next_word (taken : wrapping.next = some (list, rest)) :
    listAt wrapping.bits wrapping.start = list ∧ rest.start = wrapping.start + 1 ∧ rest.stop = wrapping.stop ∧
      ∀ index, index ≤ 20 ∨ index = 31 → rest.bits.getLsbD index = wrapping.bits.getLsbD index := by
  have ordered := wrapping.start_le_stop
  have capacity := wrapping.stop_le
  unfold next at taken
  split at taken
  · cases taken
  next nonempty =>
    obtain ⟨isList, isWrapping⟩ := Prod.mk.inj (Option.some.inj taken)
    have isRest : rest.bits = setStart wrapping.bits (wrapping.start + 1) := (congrArg Wrapping.bits isWrapping).symm
    have small : wrapping.start + 1 < 32 := by omega
    have agree (index : Nat) (low : index ≤ 20 ∨ index = 31) :
        rest.bits.getLsbD index = wrapping.bits.getLsbD index := by
      rw [isRest, getLsbD_setStart small _ (by omega)]
    refine ⟨?_, by rw [start, isRest, startOf_setStart small], by rw [stop, isRest, endOf_setStart small, stop], agree⟩
    rw [← isList, ← isRest, listAt_eq _ (by omega), listAt_eq _ (by omega), agree _ (by omega)]

theorem next_eq_some (taken : wrapping.next = some (list, rest)) :
    wrapping.listWrappings = list :: rest.listWrappings ∧ rest.innerIsRequired = wrapping.innerIsRequired := by
  obtain ⟨isHead, isFirst, isLast, agree⟩ := next_word taken
  have capacity := rest.stop_le
  constructor
  · simp [listWrappings_append 1 0 isFirst isLast.symm fun index bound => agree index (by omega), isHead]
  · rw [innerIsRequired_eq, innerIsRequired_eq, agree 31 (.inr rfl)]

theorem nextBack_eq_none : wrapping.nextBack = none ↔ wrapping.listWrappings = [] := by
  rw [listWrappings_eq_nil, nextBack]
  split
  next empty => simp [empty]
  next nonempty => simp [Ne.symm nonempty]

theorem nextBack_word (taken : wrapping.nextBack = some (list, rest)) :
    listAt wrapping.bits rest.stop = list ∧ rest.start = wrapping.start ∧ wrapping.stop = rest.stop + 1 ∧
      ∀ index, index ≤ 20 ∨ index = 31 → rest.bits.getLsbD index = wrapping.bits.getLsbD index := by
  have ordered := wrapping.start_le_stop
  have capacity := wrapping.stop_le
  unfold nextBack at taken
  split at taken
  · cases taken
  next nonempty =>
    obtain ⟨isList, isWrapping⟩ := Prod.mk.inj (Option.some.inj taken)
    have isRest : rest.bits = setEnd wrapping.bits (wrapping.stop - 1) := (congrArg Wrapping.bits isWrapping).symm
    have small : wrapping.stop - 1 < 32 := by omega
    have isLast : rest.stop = wrapping.stop - 1 := by rw [stop, isRest, endOf_setEnd small]
    have agree (index : Nat) (low : index ≤ 20 ∨ index = 31) :
        rest.bits.getLsbD index = wrapping.bits.getLsbD index := by
      rw [isRest, getLsbD_setEnd small _ low]
    refine ⟨?_, by rw [start, isRest, startOf_setEnd small, start], by omega, agree⟩
    rw [← isList, ← isRest, isLast, listAt_eq _ (by omega), listAt_eq _ (by omega), agree _ (by omega)]

theorem nextBack_eq_some (taken : wrapping.nextBack = some (list, rest)) :
    wrapping.listWrappings = rest.listWrappings ++ [list] ∧ rest.innerIsRequired = wrapping.innerIsRequired := by
  obtain ⟨isEnd, isFirst, isBack, agree⟩ := nextBack_word taken
  have capacity := rest.stop_le
  constructor
  · simp [listWrappings_append 0 1 isFirst isBack fun index bound => agree index (by omega), isEnd]
  · rw [innerIsRequired_eq, innerIsRequired_eq, agree 31 (.inr rfl)]

theorem wrappedBy_word {wrapped : Wrapping} (ran : wrapping.wrappedBy list = .ok wrapped) :
    wrapped.start = wrapping.start ∧ wrapped.stop = wrapping.stop + 1 ∧ ∀ index, index ≤ 20 ∨ index = 31 →
      wrapped.bits.getLsbD index =
        if index = wrapping.stop then decide (list = .requiredList) else wrapping.bits.getLsbD index := by
  unfold wrappedBy at ran
  split at ran
  next room =>
    have isWrapped : wrapped.bits = setListAt (setEnd wrapping.bits (wrapping.stop + 1)) wrapping.stop list :=
      (congrArg Wrapping.bits (Except.ok.inj ran)).symm
    rw [maxListWrappings] at room
    have position : wrapping.stop < 21 := by omega
    have small : wrapping.stop + 1 < 32 := by omega
    refine ⟨?_, ?_, fun index low => ?_⟩
    · rw [start, isWrapped, startOf_setListAt _ _ position, startOf_setEnd small, start]
    · rw [stop, isWrapped, endOf_setListAt _ _ position, endOf_setEnd small]
    · rw [isWrapped, getLsbD_setListAt _ _ (by omega), getLsbD_setEnd small _ low]
  · cases ran

theorem wrappedBy_eq_ok {wrapped : Wrapping} (ran : wrapping.wrappedBy list = .ok wrapped) :
    wrapped.listWrappings = wrapping.listWrappings ++ [list] ∧
      wrapped.innerIsRequired = wrapping.innerIsRequired ∧ wrapped.stop = wrapping.stop + 1 := by
  obtain ⟨isFirst, isLast, isBit⟩ := wrappedBy_word ran
  have capacity := wrapped.stop_le
  refine ⟨?_, ?_, isLast⟩
  · have agree (index : Nat) (bound : index < wrapping.stop) :
        wrapping.bits.getLsbD index = wrapped.bits.getLsbD index := by
      rw [isBit index (by omega), if_neg (by omega)]
    have isEnd : listAt wrapped.bits wrapping.stop = list := by
      rw [listAt_eq _ (by omega), isBit _ (by omega), if_pos rfl]
      cases list <;> rfl
    simp [listWrappings_append 0 1 isFirst.symm isLast agree, isEnd]
  · rw [innerIsRequired_eq, innerIsRequired_eq, isBit 31 (.inr rfl), if_neg (by omega)]

theorem exists_wrappedBy_iff : (∃ wrapped, wrapping.wrappedBy list = .ok wrapped) ↔ wrapping.stop < 21 := by
  unfold wrappedBy
  split
  next room =>
    rw [maxListWrappings] at room
    exact ⟨fun _ => by omega, fun _ => ⟨_, rfl⟩⟩
  next full =>
    rw [maxListWrappings] at full
    refine ⟨fun ⟨_, ran⟩ => ?_, fun _ => by omega⟩
    cases ran

theorem isList_eq (wrapping : Wrapping) : wrapping.isList = !wrapping.listWrappings.isEmpty := by
  rw [isList]
  cases taken : wrapping.next with
  | none => simp [next_eq_none.mp taken]
  | some first => simp [(next_eq_some taken).1]

theorem new_spec (isRequired : Bool) : (new isRequired).listWrappings = [] ∧
    (new isRequired).innerIsRequired = isRequired := by
  cases isRequired <;> decide

/-- What the documentation says a wrapping is: the lists stand from the innermost to the outermost. -/
structure Deque where
  innerIsRequired : Bool
  listWrappings : List ListWrapping

inductive Operation where
  | wrappedBy (list : ListWrapping)
  | popListWrapping
  | next
  | nextBack

def Deque.step (queue : Deque) : Operation → Option ListWrapping × Deque
  | .wrappedBy list => (none, ⟨queue.innerIsRequired, queue.listWrappings ++ [list]⟩)
  | .popListWrapping | .nextBack =>
    (queue.listWrappings.getLast?, ⟨queue.innerIsRequired, queue.listWrappings.dropLast⟩)
  | .next => (queue.listWrappings.head?, ⟨queue.innerIsRequired, queue.listWrappings.tail⟩)

/-- The values taken off by some operations, and what is left after them. -/
def Deque.run (queue : Deque) : List Operation → List (Option ListWrapping) × Deque
  | [] => ([], queue)
  | operation :: rest =>
    let ran := (queue.step operation).2.run rest
    ((queue.step operation).1 :: ran.1, ran.2)

def took (wrapping : Wrapping) : Option (ListWrapping × Wrapping) → Option ListWrapping × Wrapping
  | none => (none, wrapping)
  | some (list, rest) => (some list, rest)

def step (wrapping : Wrapping) : Operation → Checked (Option ListWrapping × Wrapping)
  | .wrappedBy list => (none, ·) <$> wrapping.wrappedBy list
  | .popListWrapping => .ok (wrapping.took wrapping.popListWrapping)
  | .next => .ok (wrapping.took wrapping.next)
  | .nextBack => .ok (wrapping.took wrapping.nextBack)

def run (wrapping : Wrapping) : List Operation → Checked (List (Option ListWrapping) × Wrapping)
  | [] => .ok ([], wrapping)
  | operation :: rest => do
    let stepped ← wrapping.step operation
    let ran ← stepped.2.run rest
    return (stepped.1 :: ran.1, ran.2)

/-- The lists that an iterator goes through. -/
def collect (take : Wrapping → Option (ListWrapping × Wrapping)) : Nat → Wrapping → List ListWrapping
  | 0, _ => []
  | fuel + 1, wrapping =>
    match take wrapping with
    | none => []
    | some (list, rest) => list :: collect take fuel rest

structure Observes (wrapping : Wrapping) (queue : Deque) : Prop where
  inner : wrapping.innerIsRequired = queue.innerIsRequired
  forwards : ∀ fuel ≥ queue.listWrappings.length, collect next fuel wrapping = queue.listWrappings
  backwards : ∀ fuel ≥ queue.listWrappings.length, collect nextBack fuel wrapping = queue.listWrappings.reverse
  len : wrapping.len = queue.listWrappings.length
  isList : wrapping.isList = !queue.listWrappings.isEmpty
  isRequired : wrapping.isRequired =
    (queue.listWrappings.getLast?.map (fun list => decide (list = .requiredList))).getD queue.innerIsRequired

theorem collect_eq {take : Wrapping → Option (ListWrapping × Wrapping)} (view : Wrapping → List ListWrapping)
    (done : ∀ wrapping, take wrapping = none → view wrapping = [])
    (more : ∀ wrapping list rest, take wrapping = some (list, rest) → view wrapping = list :: view rest)
    (wrapping : Wrapping) {fuel : Nat} (enough : (view wrapping).length ≤ fuel) :
    collect take fuel wrapping = view wrapping := by
  induction fuel generalizing wrapping with
  | zero => exact (length_eq_zero_iff.mp (Nat.le_zero.mp enough)).symm
  | succ fuel ih =>
    rw [collect]
    cases taken : take wrapping with
    | none => exact (done wrapping taken).symm
    | some first =>
      have lists := more wrapping first.1 first.2 taken
      rw [lists] at enough ⊢
      exact congrArg (first.1 :: ·) (ih first.2 (Nat.le_of_succ_le_succ enough))

def deque (wrapping : Wrapping) : Deque := ⟨wrapping.innerIsRequired, wrapping.listWrappings⟩

theorem observes_deque (wrapping : Wrapping) : Observes wrapping wrapping.deque where
  inner := rfl
  forwards _ enough := collect_eq _ (fun _ => next_eq_none.mp) (fun _ _ _ taken => (next_eq_some taken).1) _ enough
  backwards _ enough := by
    refine collect_eq (·.listWrappings.reverse) ?_ ?_ wrapping (length_reverse.le.trans enough)
    · intro wrapping taken
      rw [nextBack_eq_none.mp taken, reverse_nil]
    · intro wrapping list rest taken
      rw [(nextBack_eq_some taken).1, reverse_append, reverse_singleton, singleton_append]
  len := wrapping.len_eq
  isList := wrapping.isList_eq
  isRequired := by
    rw [isRequired, deque]
    cases taken : wrapping.nextBack with
    | none => simp [nextBack_eq_none.mp taken]
    | some last => simp [(nextBack_eq_some taken).1]

variable {wrapping after : Wrapping}

theorem step_deque {operation : Operation} {value : Option ListWrapping}
    (ran : wrapping.step operation = .ok (value, after)) : wrapping.deque.step operation = (value, after.deque) := by
  cases operation with
  | wrappedBy list =>
    obtain ⟨wrapped, ran, same⟩ := map_eq_ok.mp ran
    cases same
    obtain ⟨lists, inner, _⟩ := wrappedBy_eq_ok ran
    rw [deque, Deque.step, deque, lists, inner]
  | next =>
    have took := Except.ok.inj ran
    cases taken : wrapping.next with
    | none =>
      rw [taken] at took
      cases took
      simp [deque, Deque.step, next_eq_none.mp taken]
    | some first =>
      rw [taken] at took
      cases took
      simp [deque, Deque.step, next_eq_some taken]
  | popListWrapping | nextBack =>
    have took : wrapping.took wrapping.nextBack = (value, after) := Except.ok.inj ran
    cases taken : wrapping.nextBack with
    | none =>
      rw [taken] at took
      cases took
      simp [deque, Deque.step, nextBack_eq_none.mp taken]
    | some last =>
      rw [taken] at took
      cases took
      simp [deque, Deque.step, nextBack_eq_some taken]

theorem run_deque {operations : List Operation} {values : List (Option ListWrapping)}
    (ran : wrapping.run operations = .ok (values, after)) : wrapping.deque.run operations = (values, after.deque) := by
  induction operations generalizing wrapping values with
  | nil =>
    cases ran
    rfl
  | cons operation rest ih =>
    obtain ⟨⟨value, middle⟩, stepped, later⟩ := bind_eq_ok.mp ran
    obtain ⟨⟨others, last⟩, ranRest, same⟩ := bind_eq_ok.mp later
    cases same
    rw [Deque.run, step_deque stepped, ih ranRest]

/-- What a word holds beside its queue: where the queue starts, and bits of lists that were taken off. -/
def residue (wrapping : Wrapping) : Nat × List ListWrapping :=
  (wrapping.start, (List.range 21).map (listAt wrapping.bits))

theorem eq_iff_residue {first second : Wrapping} :
    first = second ↔ first.deque = second.deque ∧ first.residue = second.residue := by
  constructor
  · rintro rfl
    exact ⟨rfl, rfl⟩
  · rintro ⟨queues, residues⟩
    obtain ⟨inner, lists⟩ := Deque.mk.inj queues
    obtain ⟨starts, bits⟩ := Prod.mk.inj residues
    have stops : first.stop = second.stop := by
      have lengths := congrArg List.length lists
      rw [← len_eq, ← len_eq, len, len] at lengths
      have := first.start_le_stop
      have := second.start_le_stop
      omega
    rw [start, start, startOf_eq, startOf_eq] at starts
    rw [stop, stop, endOf_eq, endOf_eq] at stops
    rw [innerIsRequired_eq, innerIsRequired_eq] at inner
    have same : first.bits = second.bits := by
      apply BitVec.eq_of_getLsbD_eq
      intro index bound
      by_cases low : index < 21
      · have list := List.map_inj_left.mp bits index (List.mem_range.mpr low)
        rw [listAt_eq _ bound, listAt_eq _ bound] at list
        revert list
        cases first.bits.getLsbD index <;> cases second.bits.getLsbD index <;> simp
      · by_cases high : index = 31
        · rw [high, inner]
        · by_cases middle : index < 26
          · exact getLsbD_eq_of_readField (by decide) stops (by omega) (by omega)
          · exact getLsbD_eq_of_readField (by decide) starts (by omega) (by omega)
    cases first
    cases second
    cases same
    rfl

/-- What becomes of the lists of a sequence of operations: all that were put around the type and not popped, of which
the innermost were taken, and those that were popped and not overwritten, from the innermost one. -/
structure Tape where
  taken : Nat := 0
  lists : List ListWrapping := []
  popped : List ListWrapping := []

/-- No more than 21 lists have room on a tape, the taken ones included. -/
def Tape.step (tape : Tape) : Operation → Option Tape
  | .wrappedBy list =>
    if tape.lists.length < 21 then
      some { tape with lists := tape.lists ++ [list], popped := tape.popped.tail }
    else none
  | .popListWrapping | .nextBack =>
    some (if tape.taken < tape.lists.length then
      { tape with lists := tape.lists.dropLast, popped := tape.lists.getLast?.toList ++ tape.popped }
    else tape)
  | .next => some (if tape.taken < tape.lists.length then { tape with taken := tape.taken + 1 } else tape)

def Tape.run (operations : List Operation) : Option Tape := operations.foldlM step {}

/-- The same lists were taken, and the popped lists differ in nullable ones only. -/
structure Tape.SameLeftovers (tape tape' : Tape) : Prop where
  taken : tape.lists.take tape.taken = tape'.lists.take tape'.taken
  popped : ∀ index : Nat, tape.popped[index]? = some .requiredList ↔ tape'.popped[index]? = some .requiredList

/-- A popped list keeps its bit. -/
structure Holds (wrapping : Wrapping) (tape : Tape) : Prop where
  start : wrapping.start = tape.taken
  stop : wrapping.stop = tape.lists.length
  bits : ∀ index ≤ 20, wrapping.bits.getLsbD index =
    decide ((tape.lists ++ tape.popped)[index]? = some .requiredList)
  fits : tape.lists.length + tape.popped.length ≤ 21

variable {tape tape' : Tape} {wrapping' : Wrapping}

theorem getElem?_overwritten (lists popped : List ListWrapping) (list : ListWrapping) (index : Nat) :
    (lists ++ [list] ++ popped.tail)[index]? =
      if index = lists.length then some list else (lists ++ popped)[index]? := by
  rw [append_assoc]
  rcases Nat.lt_trichotomy index lists.length with before | rfl | after
  · rw [if_neg (by omega), getElem?_append_left before, getElem?_append_left before]
  · simp
  · obtain ⟨more, rfl⟩ := Nat.exists_eq_add_of_lt after
    rw [if_neg (by omega), Nat.add_assoc, getElem?_append_right (by omega)]
    simp [getElem?_append_right]

theorem step_holds (holds : Holds wrapping tape) (operation : Operation) :
    (tape.step operation).elim (∀ value after, wrapping.step operation ≠ .ok (value, after)) fun next =>
      ∃ value after, wrapping.step operation = .ok (value, after) ∧ Holds after next := by
  obtain ⟨isStart, isStop, isBit, fits⟩ := holds
  have ordered := wrapping.start_le_stop
  cases operation with
  | wrappedBy list =>
    rw [Tape.step, ← isStop]
    split
    · next room =>
      obtain ⟨wrapped, ran⟩ := exists_wrappedBy_iff.mpr room
      obtain ⟨first, last, bit⟩ := wrappedBy_word ran
      refine ⟨none, wrapped, by rw [step, ran]; rfl, first.trans isStart, by simp [last, isStop], ?_, ?_⟩
      · intro index low
        rw [bit index (.inl low), isBit index low, isStop, getElem?_overwritten]
        split <;> simp
      · simp only [length_append, length_cons, length_nil, length_tail]
        omega
    · next full =>
      intro value after ran
      obtain ⟨wrapped, ran, _⟩ := map_eq_ok.mp ran
      exact full (exists_wrappedBy_iff.mp ⟨wrapped, ran⟩)
  | next =>
    rw [Tape.step, ← isStart, ← isStop]
    cases taken : wrapping.next with
    | none =>
      have empty := listWrappings_eq_nil.mp (next_eq_none.mp taken)
      exact ⟨none, wrapping, by rw [step, taken]; rfl, by simp [empty, isStart.symm], by simp [empty, isStop],
        by simpa [empty] using isBit, by simpa [empty] using fits⟩
    | some first =>
      obtain ⟨_, isFirst, isLast, agree⟩ := next_word taken
      have inside : wrapping.start < wrapping.stop := by
        have := first.2.start_le_stop
        omega
      refine ⟨some first.1, first.2, by rw [step, taken]; rfl, ?_⟩
      rw [if_pos inside]
      exact ⟨isFirst, isLast.trans isStop, fun index low => (agree index (.inl low)).trans (isBit index low), fits⟩
  | popListWrapping | nextBack =>
    rw [Tape.step, ← isStart, ← isStop]
    cases taken : wrapping.nextBack with
    | none =>
      have empty := listWrappings_eq_nil.mp (nextBack_eq_none.mp taken)
      exact ⟨none, wrapping, congrArg (Except.ok <| wrapping.took ·) taken, by simp [empty, isStart.symm],
        by simp [empty, isStop], by simpa [empty] using isBit, by simpa [empty] using fits⟩
    | some last =>
      obtain ⟨_, isFirst, isLast, agree⟩ := nextBack_word taken
      have inside : wrapping.start < wrapping.stop := by
        have := last.2.start_le_stop
        omega
      have same : tape.lists.dropLast ++ (tape.lists.getLast?.toList ++ tape.popped) = tape.lists ++ tape.popped := by
        have nonempty : tape.lists ≠ [] := by
          rintro empty
          simp [empty] at isStop
          omega
        rw [getLast?_eq_some_getLast nonempty, Option.toList_some, ← append_assoc, dropLast_concat_getLast]
      refine ⟨some last.1, last.2, congrArg (Except.ok <| wrapping.took ·) taken, ?_⟩
      rw [if_pos inside]
      refine ⟨isFirst, by simp; omega, fun index low => ?_, ?_⟩
      · rw [same, agree index (.inl low), isBit index low]
      · rw [← length_append, same, length_append]
        exact fits

theorem run_holds (holds : Holds wrapping tape) (operations : List Operation) :
    (operations.foldlM Tape.step tape).elim (∀ values after, wrapping.run operations ≠ .ok (values, after)) fun last =>
      ∃ values after, wrapping.run operations = .ok (values, after) ∧ Holds after last := by
  induction operations generalizing wrapping tape with
  | nil => exact ⟨[], wrapping, rfl, holds⟩
  | cons operation rest ih =>
    have stepped := step_holds holds operation
    rw [foldlM_cons]
    cases isNext : tape.step operation with
    | none =>
      rw [isNext] at stepped
      intro values after ran
      obtain ⟨⟨value, middle⟩, ranFirst, _⟩ := bind_eq_ok.mp ran
      exact stepped value middle ranFirst
    | some next =>
      rw [isNext] at stepped
      obtain ⟨value, middle, ranFirst, middleHolds⟩ := stepped
      have later := ih middleHolds
      rw [run, ranFirst]
      change (rest.foldlM Tape.step next).elim _ _
      cases isLast : rest.foldlM Tape.step next with
      | none =>
        rw [isLast] at later
        intro values after ran
        obtain ⟨_, ⟨⟩, ran⟩ := bind_eq_ok.mp ran
        obtain ⟨⟨others, last⟩, ranRest, _⟩ := bind_eq_ok.mp ran
        exact later others last ranRest
      | some last =>
        rw [isLast] at later
        obtain ⟨values, after, ranRest, holds⟩ := later
        exact ⟨value :: values, after, by simp only [bind, Except.bind, ranRest]; rfl, holds⟩

theorem holds_new (isRequired : Bool) : Holds (new isRequired) {} := by
  cases isRequired with
  | false => exact ⟨by decide, by decide, by decide, by decide⟩
  | true => exact ⟨by decide, by decide, by decide, by decide⟩

theorem Holds.listWrappings (holds : Holds wrapping tape) : wrapping.listWrappings = tape.lists.drop tape.taken := by
  obtain ⟨isStart, isStop, isBit, _⟩ := holds
  have capacity := wrapping.stop_le
  refine ext_getElem (by simp [Wrapping.listWrappings, len, isStart, isStop]) fun index bound bound' => ?_
  rw [length_drop] at bound'
  rw [getElem_drop]
  simp only [Wrapping.listWrappings, getElem_map, getElem_range', Nat.one_mul, isStart]
  rw [listAt_eq _ (by omega), isBit _ (by omega), getElem?_append_left (by omega), getElem?_eq_getElem (by omega)]
  cases tape.lists[tape.taken + index] <;> simp

theorem residue_eq_iff (holds : Holds wrapping tape) (holds' : Holds wrapping' tape')
    (queues : wrapping.deque = wrapping'.deque) :
    wrapping.residue = wrapping'.residue ↔ tape.SameLeftovers tape' := by
  have rests := (Deque.mk.inj queues).2
  rw [holds.listWrappings, holds'.listWrappings] at rests
  have inside : tape.taken ≤ tape.lists.length := holds.start ▸ holds.stop ▸ wrapping.start_le_stop
  have inside' : tape'.taken ≤ tape'.lists.length := holds'.start ▸ holds'.stop ▸ wrapping'.start_le_stop
  have whole (takes : tape.lists.take tape.taken = tape'.lists.take tape'.taken) : tape.lists = tape'.lists := by
    rw [← take_append_drop tape.taken tape.lists, takes, rests, take_append_drop]
  have bits (index : Nat) (low : index ≤ 20) : listAt wrapping.bits index = listAt wrapping'.bits index ↔
      ((tape.lists ++ tape.popped)[index]? = some .requiredList ↔
        (tape'.lists ++ tape'.popped)[index]? = some .requiredList) := by
    rw [listAt_eq _ (by omega), listAt_eq _ (by omega), holds.bits index low, holds'.bits index low]
    grind
  rw [residue, residue, Prod.mk.injEq, map_inj_left, holds.start, holds'.start]
  constructor
  · rintro ⟨starts, lists⟩
    have sameBits (index : Nat) (low : index ≤ 20) := (bits index low).mp (lists index (mem_range.mpr (by omega)))
    have takes : tape.lists.take tape.taken = tape'.lists.take tape'.taken := by
      refine ext_getElem (by simp; omega) fun index bound bound' => ?_
      rw [length_take] at bound bound'
      have fits := holds.fits
      have same := sameBits index (by omega)
      rw [getElem?_append_left (by omega), getElem?_append_left (by omega), getElem?_eq_getElem (by omega),
        getElem?_eq_getElem (by omega), Option.some_inj, Option.some_inj] at same
      rw [getElem_take, getElem_take]
      revert same
      cases tape.lists[index] <;> cases tape'.lists[index] <;> simp
    refine ⟨takes, fun index => ?_⟩
    have fits := holds.fits
    have fits' := holds'.fits
    rw [whole takes] at fits
    by_cases low : tape'.lists.length + index ≤ 20
    · have same := sameBits _ low
      rwa [whole takes, getElem?_append_right (by omega), getElem?_append_right (by omega),
        Nat.add_sub_cancel_left] at same
    · rw [getElem?_eq_none (by omega), getElem?_eq_none (by omega)]
  · rintro ⟨takes, popped⟩
    have starts := congrArg List.length takes
    rw [length_take, length_take, Nat.min_eq_left inside, Nat.min_eq_left inside'] at starts
    refine ⟨starts, fun index member => (bits index (by have := mem_range.mp member; omega)).mpr ?_⟩
    rw [whole takes, getElem?_append, getElem?_append]
    split
    · rfl
    · exact popped _

def RefinesDeque (isRequired isRequired' : Bool) (operations operations' : List Operation) : Prop :=
  ∀ values wrapping values' wrapping', (new isRequired).run operations = .ok (values, wrapping) →
    (new isRequired').run operations' = .ok (values', wrapping') →
    let queue : Deque := ⟨isRequired, []⟩
    let queue' : Deque := ⟨isRequired', []⟩
    values = (queue.run operations).1 ∧ Observes wrapping (queue.run operations).2 ∧
      (wrapping = wrapping' ↔ (queue.run operations).2 = (queue'.run operations').2)

/-- A wrapping is its queue exactly for sequences that leave the same lists behind whenever they give equal queues. -/
theorem refinesDeque_iff (isRequired isRequired' : Bool) (operations operations' : List Operation) :
    RefinesDeque isRequired isRequired' operations operations' ↔
      ∀ tape tape', Tape.run operations = some tape → Tape.run operations' = some tape' →
        (Deque.run ⟨isRequired, []⟩ operations).2 = (Deque.run ⟨isRequired', []⟩ operations').2 →
        tape.SameLeftovers tape' := by
  have fresh (isRequired : Bool) : (new isRequired).deque = ⟨isRequired, []⟩ := by
    rw [deque, (new_spec isRequired).1, (new_spec isRequired).2]
  have ran := run_holds (holds_new isRequired) operations
  have ran' := run_holds (holds_new isRequired') operations'
  simp only [RefinesDeque, ← fresh, Tape.run]
  cases isTape : operations.foldlM Tape.step {} with
  | none =>
    rw [isTape] at ran
    exact ⟨fun _ _ _ run => (by cases run), fun _ values wrapping _ _ isRun => absurd isRun (ran values wrapping)⟩
  | some tape =>
    rw [isTape] at ran
    obtain ⟨values, wrapping, ran, holds⟩ := ran
    cases isTape' : operations'.foldlM Tape.step {} with
    | none =>
      rw [isTape'] at ran'
      exact ⟨fun _ _ _ _ run => (by cases run), fun _ _ _ values wrapping _ isRun =>
        absurd isRun (ran' values wrapping)⟩
    | some tape' =>
      rw [isTape'] at ran'
      obtain ⟨values', wrapping', ran', holds'⟩ := ran'
      have observes := observes_deque wrapping
      have same := residue_eq_iff holds holds'
      rw [ran, ran', run_deque ran, run_deque ran']
      constructor
      · rintro refines _ _ ⟨⟩ ⟨⟩ queues
        exact (same queues).mp (eq_iff_residue.mp ((refines _ _ _ _ rfl rfl).2.2.mpr queues)).2
      · rintro leftovers _ _ _ _ ⟨⟩ ⟨⟩
        refine ⟨rfl, observes, fun equal => congrArg deque equal, fun queues => ?_⟩
        exact eq_iff_residue.mpr ⟨queues, (same queues).mpr (leftovers _ _ rfl rfl queues)⟩

/-- A required list that was put around a type and taken off again leaves its bit. -/
theorem not_refinesDeque_popped : ¬ RefinesDeque false false [.wrappedBy .requiredList, .popListWrapping] [] := by
  intro refines
  have same := (refines _ _ _ _ rfl rfl).2.2.mpr rfl
  exact absurd (congrArg Wrapping.bits same) (by decide)

-- From here on, the operations are known by what they do to the list wrappers.
attribute [irreducible] next nextBack wrappedBy

end Wrapping
end Grafbase
