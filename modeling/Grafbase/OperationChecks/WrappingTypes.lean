import Grafbase.Foundation.BitFields

/-! The wrapping types of fields and arguments in operation checks, and their comparison.

A word holds the number of lists in its six highest bits, then whether the
innermost type is non-null, then one bit for each list from the outermost on.
-/

set_option autoImplicit false

namespace Grafbase.OperationChecks
open Foundation List

inductive ListType where
  | list
  | nonNullList
  deriving DecidableEq

def ListType.isNonnull : ListType → Bool
  | .list => false
  | .nonNullList => true

structure WrappingTypes where
  bits : BitVec 64

/-- The changes of wrapping types that matter to clients. -/
inductive WrapperTypesComparison where
  | noChange
  | removedNonNull
  | addedNonNull
  | notCompatible

namespace WrapperTypesComparison

def remove : WrapperTypesComparison → WrapperTypesComparison
  | noChange | removedNonNull => removedNonNull
  | addedNonNull | notCompatible => notCompatible

def add : WrapperTypesComparison → WrapperTypesComparison
  | noChange | addedNonNull => addedNonNull
  | removedNonNull | notCompatible => notCompatible

def swap : WrapperTypesComparison → WrapperTypesComparison
  | removedNonNull => addedNonNull
  | addedNonNull => removedNonNull
  | same => same

/-- The state once some level was lost, or gained, or both. -/
def seen : Bool → Bool → WrapperTypesComparison
  | false, false => noChange
  | true, false => removedNonNull
  | false, true => addedNonNull
  | true, true => notCompatible

end WrapperTypesComparison

open WrapperTypesComparison

/-- The loop over the lists of both sides. -/
def compareLists (endState : WrapperTypesComparison) : List ListType → List ListType → WrapperTypesComparison
  | [], [] => endState
  | .nonNullList :: src, .list :: target => compareLists endState.remove src target
  | .list :: src, .nonNullList :: target => compareLists endState.add src target
  | _ :: src, _ :: target => compareLists endState src target
  | _ :: src, [] => compareLists notCompatible src []
  | [], _ :: target => compareLists notCompatible [] target

namespace WrappingTypes

def nonnullBitMask : BitVec 64 := 1 <<< 57
def listCountBitsMask : BitVec 64 := BitVec.allOnes 64 <<< 58

variable (self target : WrappingTypes)

def listsCount : Nat := ((self.bits &&& listCountBitsMask) >>> 58).toNat

def innerIsNonnull : Bool := self.bits &&& nonnullBitMask ≠ 0

def iterListTypes : List ListType :=
  (range self.listsCount).map fun i => if self.bits >>> i &&& 1 = 0 then .list else .nonNullList

def compare : WrapperTypesComparison :=
  let endState := compareLists noChange self.iterListTypes target.iterListTypes
  match self.innerIsNonnull, target.innerIsNonnull with
  | true, true | false, false => endState
  | true, false => endState.remove
  | false, true => endState.add

/-- Whether each level is non-null, from the outermost list to the innermost type. -/
def levels : List Bool := self.iterListTypes.map ListType.isNonnull ++ [self.innerIsNonnull]

end WrappingTypes

/-- Some level is non-null in the first and not in the second. -/
def loses (first second : List Bool) : Bool := (first.zip second).contains (true, false)

theorem loses_cons (level other : Bool) (first second : List Bool) :
    loses (level :: first) (other :: second) = ((level && !other) || loses first second) := by
  cases level <;> cases other <;> simp [loses]

theorem loses_concat {first second : List Bool} (same : first.length = second.length) (level other : Bool) :
    loses (first ++ [level]) (second ++ [other]) = (loses first second || (level && !other)) := by
  rw [loses, zip_append same]
  cases level <;> cases other <;> simp [loses]

theorem eq_iff_not_loses {first second : List Bool} (same : first.length = second.length) :
    first = second ↔ loses first second = false ∧ loses second first = false := by
  induction first generalizing second with
  | nil => simp_all [loses, eq_comm]
  | cons level first ih =>
    cases second with
    | nil => simp at same
    | cons other second =>
      rw [cons.injEq, ih (Nat.succ.inj same), loses_cons, loses_cons]
      cases level <;> cases other <;> simp

theorem remove_seen (lost gained : Bool) : (seen lost gained).remove = seen true gained := by
  cases lost <;> cases gained <;> rfl

theorem add_seen (lost gained : Bool) : (seen lost gained).add = seen lost true := by
  cases lost <;> cases gained <;> rfl

theorem compareLists_nil_left (target : List ListType) : compareLists notCompatible [] target = notCompatible := by
  induction target with
  | nil => rw [compareLists]
  | cons level rest ih => rw [compareLists, ih]

theorem compareLists_nil_right (src : List ListType) : compareLists notCompatible src [] = notCompatible := by
  induction src with
  | nil => rw [compareLists]
  | cons level rest ih => rw [compareLists, ih]

/-- The state of the loop is what has been lost and gained so far, until the lists of one side end. -/
theorem compareLists_seen (src target : List ListType) (lost gained : Bool) :
    compareLists (seen lost gained) src target =
      if src.length = target.length then
        seen (lost || loses (src.map ListType.isNonnull) (target.map ListType.isNonnull))
          (gained || loses (target.map ListType.isNonnull) (src.map ListType.isNonnull))
      else notCompatible := by
  induction src generalizing target lost gained with
  | nil =>
    cases target with
    | nil => simp [compareLists, loses]
    | cons level rest => simp [compareLists, compareLists_nil_left]
  | cons level rest ih =>
    cases target with
    | nil => simp [compareLists, compareLists_nil_right]
    | cons other others =>
      simp only [length_cons, Nat.add_right_cancel_iff, map_cons, loses_cons]
      cases level <;> cases other <;> simp [compareLists, ListType.isNonnull, remove_seen, add_seen, ih]

namespace WrappingTypes
variable (src target : WrappingTypes)

/-- The comparison joins what the lists and the innermost level lose and gain. -/
theorem compare_eq : src.compare target =
    if src.levels.length = target.levels.length then
      seen (loses src.levels target.levels) (loses target.levels src.levels)
    else notCompatible := by
  have lists := compareLists_seen src.iterListTypes target.iterListTypes false false
  simp only [compare, levels, length_append, length_map, length_singleton, Nat.add_right_cancel_iff]
  rw [show noChange = seen false false from rfl, lists]
  by_cases same : src.iterListTypes.length = target.iterListTypes.length
  · have flags : (src.iterListTypes.map ListType.isNonnull).length =
        (target.iterListTypes.map ListType.isNonnull).length := by simpa using same
    rw [if_pos same, if_pos same, loses_concat flags, loses_concat flags.symm]
    cases src.innerIsNonnull <;> cases target.innerIsNonnull <;> simp [remove_seen, add_seen]
  · rw [if_neg same, if_neg same]
    cases src.innerIsNonnull <;> cases target.innerIsNonnull <;> rfl

/-- The comparison tells exactly which levels changed, and in the other direction it tells the opposite. -/
theorem compare_exact :
    (src.compare target = notCompatible ↔ src.levels.length ≠ target.levels.length ∨
      loses src.levels target.levels ∧ loses target.levels src.levels) ∧
    (src.compare target = noChange ↔ src.levels = target.levels) ∧
    (src.compare target = removedNonNull ↔ src.levels.length = target.levels.length ∧
      loses src.levels target.levels ∧ ¬ loses target.levels src.levels) ∧
    (src.compare target = addedNonNull ↔ src.levels.length = target.levels.length ∧
      loses target.levels src.levels ∧ ¬ loses src.levels target.levels) ∧
    target.compare src = (src.compare target).swap := by
  rw [compare_eq, compare_eq]
  by_cases same : src.levels.length = target.levels.length
  · rw [if_pos same, if_pos same.symm, eq_iff_not_loses same]
    cases loses src.levels target.levels <;> cases loses target.levels src.levels <;>
      simp [same, seen, WrapperTypesComparison.swap]
  · have differ : src.levels ≠ target.levels := fun equal => same (congrArg length equal)
    rw [if_neg same, if_neg (Ne.symm same)]
    simp [same, differ, WrapperTypesComparison.swap]

def setInnerNonnull (self : WrappingTypes) (nonnull : Bool) : WrappingTypes :=
  ⟨self.bits &&& ~~~nonnullBitMask ||| (BitVec.ofBool nonnull).setWidth 64 <<< 57⟩

/-- Too many lists are not counted, but the limit is one above the number of their bits. -/
def pushList (self : WrappingTypes) (nonnull : Bool) : WrappingTypes :=
  if self.listsCount > 57 then self
  else
    let bits := if nonnull then self.bits ||| 1#64 <<< self.listsCount else self.bits
    ⟨bits &&& ~~~listCountBitsMask ||| BitVec.ofNat 64 (self.listsCount + 1) <<< 58⟩

inductive Call where
  | pushList (nonnull : Bool)
  | setInnerNonnull (nonnull : Bool)

def Call.pushed? : Call → Option ListType
  | .pushList nonnull => some (if nonnull then .nonNullList else .list)
  | .setInnerNonnull _ => none

def Call.inner? : Call → Option Bool
  | .pushList _ => none
  | .setInnerNonnull nonnull => some nonnull

def step (self : WrappingTypes) : Call → WrappingTypes
  | .pushList nonnull => self.pushList nonnull
  | .setInnerNonnull nonnull => self.setInnerNonnull nonnull

def run (calls : List Call) : WrappingTypes := calls.foldl step ⟨0⟩

/-- What the word is meant to hold after some calls. -/
structure Packs (calls : List Call) : Prop where
  count : (run calls).listsCount = min (calls.filterMap Call.pushed?).length 57
  lists : (run calls).iterListTypes = (calls.filterMap Call.pushed?).take 57
  inner : (run calls).innerIsNonnull = (calls.filterMap Call.inner?).getLast?.getD false

variable (self : WrappingTypes)

theorem listsCount_eq : self.listsCount = readField self.bits 58 6 := by
  rw [listsCount, readField, show listCountBitsMask = fieldMask 64 58 6 by decide]

theorem innerIsNonnull_eq : self.innerIsNonnull = self.bits.getLsbD 57 := by
  rw [innerIsNonnull, show nonnullBitMask = BitVec.twoPow 64 57 by decide, BitVec.and_twoPow]
  cases self.bits.getLsbD 57 <;> decide

theorem iterListTypes_eq : self.iterListTypes =
    (range self.listsCount).map fun i => if self.bits.getLsbD i then .nonNullList else .list := by
  refine map_congr_left fun i _ => ?_
  rw [show (1 : BitVec 64) = 1#64 from rfl, BitVec.and_one_eq_setWidth_ofBool_getLsbD,
    BitVec.getLsbD_ushiftRight, Nat.add_zero]
  cases self.bits.getLsbD i <;> decide

theorem setInnerNonnull_eq (nonnull : Bool) :
    (self.setInnerNonnull nonnull).bits = writeField self.bits 57 1 nonnull.toNat := by
  rw [setInnerNonnull, writeField, show nonnullBitMask = fieldMask 64 57 1 by decide]
  cases nonnull <;> rfl

theorem getLsbD_setInnerNonnull (nonnull : Bool) {index : Nat} (bound : index < 64) :
    (self.setInnerNonnull nonnull).bits.getLsbD index = if index = 57 then nonnull else self.bits.getLsbD index := by
  rw [setInnerNonnull_eq, getLsbD_writeField (by cases nonnull <;> decide) _ bound]
  by_cases same : index = 57
  · subst same
    cases nonnull <;> rfl
  · rw [if_neg same, if_neg (by omega)]

theorem listsCount_setInnerNonnull (nonnull : Bool) : (self.setInnerNonnull nonnull).listsCount = self.listsCount := by
  rw [listsCount_eq, listsCount_eq]
  refine readField_congr (by decide) fun index above below => ?_
  rw [getLsbD_setInnerNonnull _ _ (by omega), if_neg (by omega)]

theorem pushList_eq (nonnull : Bool) (room : ¬ self.listsCount > 57) : (self.pushList nonnull).bits =
    writeField (if nonnull then self.bits ||| 1#64 <<< self.listsCount else self.bits) 58 6 (self.listsCount + 1) := by
  rw [pushList, if_neg room, writeField, show listCountBitsMask = fieldMask 64 58 6 by decide]

theorem listsCount_pushList (nonnull : Bool) : (self.pushList nonnull).listsCount =
    if self.listsCount > 57 then self.listsCount else self.listsCount + 1 := by
  split
  · next full => rw [pushList, if_pos full]
  · next room => rw [listsCount_eq, pushList_eq _ _ room, readField_writeField (by decide) (by omega)]

theorem getLsbD_pushList (nonnull : Bool) (room : self.listsCount < 57) {index : Nat} (low : index ≤ 57) :
    (self.pushList nonnull).bits.getLsbD index =
      (self.bits.getLsbD index || nonnull && decide (index = self.listsCount)) := by
  rw [pushList_eq _ _ (by omega), getLsbD_writeField (by omega) _ (by omega), if_neg (by omega)]
  cases nonnull with
  | false => simp
  | true =>
    rw [if_pos rfl, BitVec.getLsbD_or, ← BitVec.twoPow_eq, BitVec.getLsbD_twoPow]
    simp [show self.listsCount < 64 by omega, eq_comm]

variable {self} {lists : List ListType} {inner : Bool}

/-- The word holds the lists pushed so far, and no bit of a list to come. -/
structure Holds (word : WrappingTypes) (lists : List ListType) (inner : Bool) : Prop where
  count : word.listsCount = lists.length
  lists : ∀ index < 57, word.bits.getLsbD index = decide (lists[index]? = some .nonNullList)
  inner : word.bits.getLsbD 57 = inner

theorem Holds.setInnerNonnull (holds : Holds self lists inner) (nonnull : Bool) :
    Holds (self.setInnerNonnull nonnull) lists nonnull where
  count := (self.listsCount_setInnerNonnull nonnull).trans holds.count
  lists index low := by rw [getLsbD_setInnerNonnull _ _ (by omega), if_neg (by omega), holds.lists index low]
  inner := by rw [getLsbD_setInnerNonnull _ _ (by decide), if_pos rfl]

theorem Holds.pushList (holds : Holds self lists inner) (room : lists.length < 57) (nonnull : Bool) :
    Holds (self.pushList nonnull) (lists ++ [if nonnull then .nonNullList else .list]) inner := by
  have count := holds.count
  refine ⟨?_, fun index low => ?_, ?_⟩
  · rw [listsCount_pushList, if_neg (by omega), count, length_append, length_singleton]
  · rw [getLsbD_pushList _ _ (by omega) (by omega), holds.lists index low, count, getElem?_append]
    split
    · next before => simp [before.ne]
    · next after =>
      rw [getElem?_eq_none (by omega), getElem?_singleton]
      cases nonnull <;> simp [show index - lists.length = 0 ↔ index = lists.length by omega]
  · rw [getLsbD_pushList _ _ (by omega) (by omega), holds.inner, decide_eq_false (by omega), Bool.and_false,
      Bool.or_false]

theorem Holds.iterListTypes_eq (holds : Holds self lists inner) (short : lists.length ≤ 57) :
    self.iterListTypes = lists := by
  rw [self.iterListTypes_eq, holds.count]
  refine ext_getElem (by simp) fun index inRange inLists => ?_
  rw [getElem_map, getElem_range, holds.lists index (by omega), getElem?_eq_getElem inLists]
  cases lists[index] <;> rfl

theorem listsCount_run (calls : List Call) : (run calls).listsCount = min (calls.filterMap Call.pushed?).length 58 := by
  induction calls using reverseRecOn with
  | nil => decide
  | append_singleton calls call ih =>
    rw [run, foldl_append, ← run, foldl_cons, foldl_nil, filterMap_append, length_append]
    cases call with
    | pushList nonnull =>
      rw [step, listsCount_pushList, ih]
      simp only [filterMap_cons, Call.pushed?, filterMap_nil, length_singleton]
      split <;> omega
    | setInnerNonnull nonnull =>
      rw [step, listsCount_setInnerNonnull, ih]
      rfl

theorem holds_run (calls : List Call) (short : (calls.filterMap Call.pushed?).length ≤ 57) :
    Holds (run calls) (calls.filterMap Call.pushed?) ((calls.filterMap Call.inner?).getLast?.getD false) := by
  induction calls using reverseRecOn with
  | nil => exact ⟨by decide, by simp [run], by decide⟩
  | append_singleton calls call ih =>
    rw [run, foldl_append, ← run, foldl_cons, foldl_nil]
    rw [filterMap_append, length_append] at short
    rw [filterMap_append, filterMap_append]
    have holds := ih (by omega)
    cases call with
    | pushList nonnull => simpa [step, Call.pushed?, Call.inner?] using holds.pushList (Nat.lt_of_succ_le short) nonnull
    | setInnerNonnull nonnull =>
      simpa [step, filterMap_cons, Call.pushed?, Call.inner?] using holds.setInnerNonnull nonnull

theorem packs_iff (calls : List Call) : Packs calls ↔ (calls.filterMap Call.pushed?).length ≤ 57 := by
  constructor
  · intro packs
    have count := packs.count
    rw [listsCount_run] at count
    omega
  · intro short
    have holds := holds_run calls short
    refine ⟨?_, ?_, ?_⟩
    · rw [holds.count, Nat.min_eq_left short]
    · rw [holds.iterListTypes_eq short, take_of_length_le short]
    · rw [innerIsNonnull_eq, holds.inner]

/-- What the calls say about each level, from the outermost list to the innermost type. -/
def pushedLevels (calls : List Call) : List Bool :=
  (calls.filterMap Call.pushed?).map ListType.isNonnull ++ [(calls.filterMap Call.inner?).getLast?.getD false]

theorem levels_run {calls : List Call} (short : (calls.filterMap Call.pushed?).length ≤ 57) :
    (run calls).levels = pushedLevels calls := by
  have holds := holds_run calls short
  rw [levels, holds.iterListTypes_eq short, innerIsNonnull_eq, holds.inner, pushedLevels]

/-- Words that were built within the representable depth are compared by the levels that were pushed. -/
theorem compare_run {calls others : List Call} (short : (calls.filterMap Call.pushed?).length ≤ 57)
    (otherShort : (others.filterMap Call.pushed?).length ≤ 57) : (run calls).compare (run others) =
      if (pushedLevels calls).length = (pushedLevels others).length then
        seen (loses (pushedLevels calls) (pushedLevels others)) (loses (pushedLevels others) (pushedLevels calls))
      else notCompatible := by
  rw [compare_eq, levels_run short, levels_run otherShort]

/-- The last of 58 lists is counted, and would be held by the bit of the innermost type. -/
theorem not_packs_fifty_eight : ¬ Packs (replicate 58 (.pushList true)) := by
  intro packs
  have count := packs.count
  rw [listsCount_run] at count
  simp [Call.pushed?] at count

end WrappingTypes

end Grafbase.OperationChecks
