import Grafbase.Response.Ingest
import Grafbase.Schema.Graph

/-! The response objects that a plan or a modifier works on.

They come from several sets, some of them restricted to the types of an entity.
What is kept are indices: the number of the set in the upper 8 bits of a word,
the position in the set in the lower 24.
-/

set_option autoImplicit false

namespace Grafbase.Response
open Foundation List
open Schema (Graph EntityDefinitionId)

def setIndexShift : Nat := 24
def maxSetIndex : Nat := 1 <<< (32 - setIndexShift)
def objectIndexMask : U32 := (1 <<< setIndexShift) - 1

structure InputResponseObjectSet where
  sets : List ResponseObjectSet := []
  indices : List U32 := []

namespace InputResponseObjectSet

def packIndex (setIdx i : Nat) : U32 := BitVec.ofNat 32 (setIdx <<< setIndexShift) ||| BitVec.ofNat 32 i

section Source
variable (self : InputResponseObjectSet) (refs : ResponseObjectSet)

/-- The body of the functions below. The last assertion counts what was pushed. -/
def withAccepted (accepts : Checked (ResponseObjectRef → Bool)) : Checked InputResponseObjectSet :=
  if self.sets.length < maxSetIndex then do
    let accepts ← accepts
    let added := (refs.zipIdx.filter fun entry => accepts entry.1).map fun entry => packIndex self.sets.length entry.2
    if added.length < objectIndexMask.toNat then .ok ⟨self.sets ++ [refs], self.indices ++ added⟩
    else .error (.expect "Too many response objects")
  else .error (.expect "Too many sets")

def withResponseObjects : Checked InputResponseObjectSet := self.withAccepted refs (.ok fun _ => true)

def withFilteredResponseObjects (schema : Graph) : EntityDefinitionId → Checked InputResponseObjectSet
  | .interface id => self.withAccepted refs ((fun interface item =>
      (binarySearch interface.possibleTypeIds item.definitionId).isOk) <$> indexed schema.interfaceDefinitions id)
  | .object id => self.withAccepted refs (.ok fun item => item.definitionId = id)

def lookup (sets : List ResponseObjectSet) (index : U32) : Checked (Nat × ResponseObjectRef) := do
  let set ← indexed sets (index >>> setIndexShift).toNat
  let item ← indexed set (index &&& objectIndexMask).toNat
  return ((index >>> setIndexShift).toNat, item)

def get (i : Nat) : Checked (Option ResponseObjectRef) :=
  self.indices[i]?.mapM fun index => Prod.snd <$> lookup self.sets index

/-- What `iter` yields at `idx`, and where it goes on. -/
def iterNext (idx : Nat) : Checked (Option (ResponseObjectRef × Nat)) :=
  (Option.map (·, idx + 1)) <$> self.get idx

def iterWithSetIndexNext (idx : Nat) : Checked (Option ((Nat × ResponseObjectRef) × Nat)) :=
  self.indices[idx]?.mapM fun index => (·, idx + 1) <$> lookup self.sets index

end Source

inductive Call where
  | withResponseObjects (refs : ResponseObjectSet)
  | withFilteredResponseObjects (entityId : EntityDefinitionId) (refs : ResponseObjectSet)

variable (schema : Graph)

namespace Call

def run (self : InputResponseObjectSet) : Call → Checked InputResponseObjectSet
  | .withResponseObjects refs => self.withResponseObjects refs
  | .withFilteredResponseObjects entityId refs => self.withFilteredResponseObjects refs schema entityId

def refs : Call → ResponseObjectSet
  | .withResponseObjects refs | .withFilteredResponseObjects _ refs => refs

def selects : Call → ResponseObjectRef → Bool
  | .withResponseObjects _, _ => true
  | .withFilteredResponseObjects (.object id) _, ref => ref.definitionId = id
  | .withFilteredResponseObjects (.interface id) _, ref =>
    schema.interfaceDefinitions[id]?.any fun interface => ref.definitionId ∈ interface.possibleTypeIds

/-- No position of a filtered set that is selected needs more than 24 bits. -/
def Near : Call → Prop
  | .withResponseObjects _ => True
  | call@(.withFilteredResponseObjects _ refs) => ∀ entry ∈ refs.zipIdx, call.selects schema entry.1 → entry.2 < 2 ^ 24

end Call

def run (calls : List Call) : Checked InputResponseObjectSet := calls.foldlM (Call.run schema) {}

def concatenation (calls : List Call) : List (Nat × ResponseObjectRef) :=
  calls.zipIdx.flatMap fun entry => (entry.1.refs.filter (entry.1.selects schema)).map (entry.2, ·)

def Concatenates (calls : List Call) : Prop :=
  ∀ input, run schema calls = .ok input → ∀ k,
    let item := (concatenation schema calls)[k]?
    input.get k = .ok (item.map Prod.snd) ∧ input.iterNext k = .ok (item.map fun item => (item.2, k + 1)) ∧
      input.iterWithSetIndexNext k = .ok (item.map (·, k + 1))

variable {schema} {call : Call} {calls : List Call} {self after : InputResponseObjectSet}

theorem toNat_packIndex {setIdx i : Nat} (few : setIdx < 2 ^ 8) (small : i < 2 ^ 24) :
    (packIndex setIdx i).toNat = 2 ^ 24 * setIdx + i := by
  rw [packIndex, BitVec.toNat_or, BitVec.toNat_ofNat, BitVec.toNat_ofNat, Nat.shiftLeft_eq, Nat.mul_comm, setIndexShift,
    Nat.mod_eq_of_lt (by omega), Nat.mod_eq_of_lt (by omega), Nat.two_pow_add_eq_or_of_lt small]

theorem lookup_eq_ok {sets : List ResponseObjectSet} {index : U32} {found : Nat × ResponseObjectRef} :
    lookup sets index = .ok found ↔ index.toNat / 2 ^ 24 = found.1 ∧
      ∃ set, sets[index.toNat / 2 ^ 24]? = some set ∧ set[index.toNat % 2 ^ 24]? = some found.2 := by
  have upper : (index >>> setIndexShift).toNat = index.toNat / 2 ^ 24 := by
    rw [BitVec.toNat_ushiftRight, Nat.shiftRight_eq_div_pow, setIndexShift]
  have lower : (index &&& objectIndexMask).toNat = index.toNat % 2 ^ 24 :=
    (BitVec.toNat_and ..).trans (Nat.and_two_pow_sub_one_eq_mod _ 24)
  simp only [lookup, bind_eq_ok, indexed_eq_ok, upper, lower, pure, Except.pure, Except.ok.injEq]
  constructor
  · rintro ⟨set, isSet, item, isItem, rfl⟩
    exact ⟨rfl, set, isSet, isItem⟩
  · rintro ⟨same, set, isSet, isItem⟩
    exact ⟨set, isSet, found.2, isItem, Prod.ext same rfl⟩

/-- The set is recorded, with the positions that were selected. -/
theorem withAccepted_eq_ok {refs : ResponseObjectSet} {accepts : Checked (ResponseObjectRef → Bool)}
    (ran : self.withAccepted refs accepts = .ok after) : ∃ test, accepts = .ok test ∧ self.sets.length < 2 ^ 8 ∧
      (refs.zipIdx.filter fun entry => test entry.1).length < 2 ^ 24 ∧ after = ⟨self.sets ++ [refs], self.indices ++
        (refs.zipIdx.filter fun entry => test entry.1).map fun entry => packIndex self.sets.length entry.2⟩ := by
  unfold withAccepted at ran
  split at ran
  · next few =>
    obtain ⟨test, isTest, ran⟩ := bind_eq_ok.mp ran
    obtain ⟨fits, rfl⟩ := ite_eq_ok.mp ran
    rw [length_map] at fits
    exact ⟨test, isTest, few, fits.trans (by decide), rfl⟩
  · cases ran

variable (sorted : ∀ interface ∈ schema.interfaceDefinitions, interface.possibleTypeIds.Pairwise (· ≤ ·))
include sorted

theorem Call.run_eq_ok (ran : call.run schema self = .ok after) (near : call.Near schema) : self.sets.length < 2 ^ 8 ∧
      (∀ entry ∈ call.refs.zipIdx, call.selects schema entry.1 → entry.2 < 2 ^ 24) ∧
      after = ⟨self.sets ++ [call.refs], self.indices ++
        (call.refs.zipIdx.filter fun entry => call.selects schema entry.1).map
          fun entry => packIndex self.sets.length entry.2⟩ := by
  cases call with
  | withResponseObjects refs =>
    obtain ⟨test, isTest, few, fits, rfl⟩ := withAccepted_eq_ok ran
    cases isTest
    refine ⟨few, fun entry member _ => ?_, rfl⟩
    rw [filter_true, length_zipIdx] at fits
    exact (snd_lt_of_mem_zipIdx member).trans fits
  | withFilteredResponseObjects entityId refs =>
    cases entityId with
    | object id =>
      obtain ⟨test, isTest, few, fits, rfl⟩ := withAccepted_eq_ok ran
      cases isTest
      exact ⟨few, near, rfl⟩
    | interface id =>
      obtain ⟨test, isTest, few, fits, rfl⟩ := withAccepted_eq_ok ran
      obtain ⟨interface, found, rfl⟩ := map_eq_ok.mp isTest
      have same (ref : ResponseObjectRef) : (binarySearch interface.possibleTypeIds ref.definitionId).isOk =
          selects schema (.withFilteredResponseObjects (.interface id) refs) ref := by
        rw [selects, indexed_eq_ok.mp found, Option.any_some, Bool.eq_iff_iff, decide_eq_true_iff,
          ← binarySearch_ok_iff (sorted interface (mem_of_getElem? (indexed_eq_ok.mp found)))]
        cases binarySearch interface.possibleTypeIds ref.definitionId <;> simp [Except.isOk, Except.toBool]
      refine ⟨few, near, ?_⟩
      simp only [same, Call.refs]

theorem run_eq_ok (near : ∀ call ∈ calls, call.Near schema) (ran : run schema calls = .ok after) :
    after.sets = calls.map Call.refs ∧
      after.indices.map (lookup after.sets) = (concatenation schema calls).map .ok := by
  induction calls using List.reverseRecOn generalizing after with
  | nil =>
    cases ran
    exact ⟨rfl, rfl⟩
  | append_singleton calls call ih =>
    rw [run, foldlM_append] at ran
    obtain ⟨before, ran, stepped⟩ := bind_eq_ok.mp ran
    obtain ⟨after, stepped, same⟩ := bind_eq_ok.mp stepped
    cases same
    obtain ⟨sets, held⟩ := ih (fun call member => near call (mem_append_left _ member)) ran
    obtain ⟨few, small, rfl⟩ := Call.run_eq_ok sorted stepped (near call (by simp))
    refine ⟨by simp [sets], ?_⟩
    have old : before.indices.map (lookup (before.sets ++ [call.refs])) = (concatenation schema calls).map .ok := by
      rw [← held]
      refine map_congr_left fun index member => ?_
      obtain ⟨item, _, found⟩ := mem_map.mp (held ▸ mem_map_of_mem member)
      rw [← found]
      obtain ⟨same, set, isSet, isItem⟩ := lookup_eq_ok.mp found.symm
      exact lookup_eq_ok.mpr ⟨same, set, getElem?_of_front (prefix_append ..) isSet, isItem⟩
    have new : concatenation schema (calls ++ [call]) = concatenation schema calls ++
        (call.refs.filter (call.selects schema)).map (calls.length, ·) := by simp [concatenation, zipIdx_append]
    have filtered : call.refs.filter (call.selects schema) =
        (call.refs.zipIdx.filter fun entry => call.selects schema entry.1).map Prod.fst := by
      conv_lhs => rw [← zipIdx_map_fst 0 call.refs, filter_map]
      rfl
    rw [map_append, old, new, map_append, filtered, map_map, map_map, map_map]
    congr 1
    refine map_congr_left fun entry member => ?_
    obtain ⟨inside, selected⟩ := mem_filter.mp member
    have low := small entry inside selected
    have number := toNat_packIndex few low
    have upper : (2 ^ 24 * before.sets.length + entry.2) / 2 ^ 24 = before.sets.length := by omega
    have lower : (2 ^ 24 * before.sets.length + entry.2) % 2 ^ 24 = entry.2 := by omega
    refine lookup_eq_ok.mpr ⟨?_, call.refs, ?_, ?_⟩
    · rw [number, upper, sets, length_map]
    · rw [number, upper, getElem?_concat_length]
    · rw [number, lower]
      exact mem_zipIdx_iff_getElem?.mp inside

theorem concatenates_of_near (near : ∀ call ∈ calls, call.Near schema) : Concatenates schema calls := by
  intro input ran k
  obtain ⟨_, held⟩ := run_eq_ok sorted near ran
  have found : input.indices[k]?.map (lookup input.sets) = (concatenation schema calls)[k]?.map .ok := by
    rw [← getElem?_map, ← getElem?_map, held]
  unfold iterNext iterWithSetIndexNext get
  cases isIndex : input.indices[k]? with
  | none =>
    rw [isIndex] at found
    rw [Option.map_eq_none_iff.mp found.symm]
    exact ⟨rfl, rfl, rfl⟩
  | some index =>
    rw [isIndex] at found
    obtain ⟨item, isItem, held⟩ := Option.map_eq_some_iff.mp found.symm
    rw [isItem, Option.mapM_some, Option.mapM_some, ← held]
    exact ⟨rfl, rfl, rfl⟩

omit sorted

theorem concatenates_two_sets : Concatenates {} [.withResponseObjects [⟨⟨0, 0⟩, [], 0⟩],
    .withFilteredResponseObjects (.object 1) [⟨⟨0, 1⟩, [], 0⟩, ⟨⟨0, 2⟩, [], 1⟩]] := by
  refine concatenates_of_near (by simp) ?_
  simp only [mem_cons, forall_eq_or_imp, Call.Near]
  simp +contextual [or_imp]

/-- The only object of type 1 comes after `2 ^ 24` others. -/
def farRefs : ResponseObjectSet := replicate (2 ^ 24) ⟨⟨0, 0⟩, [], 0⟩ ++ [⟨⟨0, 1⟩, [], 1⟩]

theorem zipIdx_farRefs :
    (farRefs.zipIdx.filter fun entry => entry.1.definitionId = 1) = [(⟨⟨0, 1⟩, [], 1⟩, 2 ^ 24)] := by
  have others : ((replicate (2 ^ 24) (⟨⟨0, 0⟩, [], 0⟩ : ResponseObjectRef)).zipIdx.filter
      fun entry => entry.1.definitionId = 1) = [] := by
    refine filter_eq_nil_iff.mpr fun entry member => ?_
    rw [eq_of_mem_replicate (fst_mem_of_mem_zipIdx member)]
    decide
  rw [farRefs, zipIdx_append, filter_append, others, length_replicate]
  rfl

theorem run_selecting_one {refs : ResponseObjectSet} {ref : ResponseObjectRef} {position : Nat}
    (selected : (refs.zipIdx.filter fun entry => entry.1.definitionId = 1) = [(ref, position)]) :
    run {} [.withFilteredResponseObjects (.object 1) refs] = .ok ⟨[refs], [packIndex 0 position]⟩ := by
  simp only [run, foldlM_cons, Call.run, withFilteredResponseObjects, withAccepted, bind, Except.bind, selected]
  rw [if_pos (by decide), map_cons, map_nil, length_singleton, if_pos (by decide)]
  rfl

/-- It is counted as one object, but its position is read as a set. -/
theorem not_concatenates_far : ¬ Concatenates {} [.withFilteredResponseObjects (.object 1) farRefs] := by
  intro concatenates
  have got := (concatenates _ (run_selecting_one zipIdx_farRefs) 0).1
  have isSet : (packIndex 0 (2 ^ 24) >>> setIndexShift).toNat = 1 := by decide
  simp only [get, getElem?_cons_zero, Option.mapM_some, lookup, isSet] at got
  cases got

end InputResponseObjectSet
end Grafbase.Response
