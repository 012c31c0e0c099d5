import Grafbase.Operation.Blueprint.Partition
import Mathlib.Data.List.Dedup

/-! When the shape partitions are a case split.

A correct split never mixes two possible types that the objects or the type
conditions tell apart, whether they share a partition or are left out of all of
them. `SplitsCorrectly` states on the inputs when `partition_shapes` achieves it.
-/

set_option autoImplicit false

namespace Grafbase.Operation.Blueprint
open Foundation List
variable {Id : Type} (possible objects : List Id) (conditions : List (List Id))

/-- Both types belong to the same objects and the same type conditions. -/
def SameShape (first second : Id) : Prop :=
  (∀ object ∈ objects, first = object ↔ second = object) ∧
    ∀ condition ∈ conditions, first ∈ condition ↔ second ∈ condition

structure CaseSplit (partitions : List (List Id)) : Prop where
  filled : ∀ part ∈ partitions, part ≠ []
  disjoint : partitions.Pairwise List.Disjoint
  together : ∀ part ∈ partitions, ∀ first ∈ possible, ∀ second ∈ possible,
    first ∈ part → second ∈ part → SameShape objects conditions first second
  outside : ∀ first ∈ possible, ∀ second ∈ possible,
    (∀ part ∈ partitions, first ∉ part) → (∀ part ∈ partitions, second ∉ part) →
      SameShape objects conditions first second

/-- Without partitions all possible types must have one shape; a panic is never correct. -/
def CorrectResult : Checked (Option (List (Partition Id))) → Prop
  | .error _ => False
  | .ok none => ∀ first ∈ possible, ∀ second ∈ possible, SameShape objects conditions first second
  | .ok (some partitions) => CaseSplit possible objects conditions (partitions.map Partition.ids)

/-- The type conditions that are not moved to the objects. -/
def wide : List (List Id) := conditions.filter (·.length ≠ 1)

variable {conditions} in
theorem mem_wide {condition : List Id} :
    condition ∈ wide conditions ↔ condition ∈ conditions ∧ condition.length ≠ 1 := by
  simp [wide]

variable [LinearOrder Id]

def singles : List Id :=
  (objects ++ (conditions.filter (·.length = 1)).flatten).dedup

variable {objects conditions} in
theorem mem_singles {id : Id} : id ∈ singles objects conditions ↔ id ∈ objects ∨ [id] ∈ conditions := by
  simp only [singles, mem_dedup, mem_append, mem_flatten, mem_filter, decide_eq_true_eq]
  apply or_congr_right
  constructor
  · rintro ⟨condition, ⟨member, single⟩, inside⟩
    obtain ⟨only, rfl⟩ := length_eq_one_iff.mp single
    rwa [mem_singleton.mp inside]
  · exact fun member => ⟨[id], ⟨member, rfl⟩, by simp⟩

/-- The smallest id with a partition of its own is not a possible type. -/
def FirstForeign : Prop :=
  ∃ least ∈ singles objects conditions,
    (∀ other ∈ singles objects conditions, least ≤ other) ∧ least ∉ possible

instance : Decidable (FirstForeign possible objects conditions) :=
  inferInstanceAs (Decidable (∃ least ∈ singles objects conditions,
    (∀ other ∈ singles objects conditions, least ≤ other) ∧ least ∉ possible))

/-- The possible types that the wide conditions are compared with. The objects are only removed
from them when the first one is found. -/
def compared : List Id :=
  possible.filter fun id => FirstForeign possible objects conditions ∨ ¬ (singles objects conditions).contains id

/-- Some wide condition holds all compared types although the others, which hold only some of them,
leave none over: the remaining partition would be empty. -/
def NothingRemains : Prop :=
  (∃ condition ∈ wide conditions, compared possible objects conditions ⊆ condition) ∧
    ∀ id ∈ compared possible objects conditions, ∃ condition ∈ wide conditions,
      ¬ compared possible objects conditions ⊆ condition ∧ id ∈ condition

/-- The inputs that are split correctly. -/
def SplitsCorrectly : Prop :=
  if wide conditions = [] then True
  else if (singles objects conditions).length = possible.length then
    -- The objects are counted, not compared, with the possible types.
    ∀ first ∈ possible, ∀ second ∈ possible, first ∉ singles objects conditions →
      second ∉ singles objects conditions → ∀ condition ∈ wide conditions, first ∈ condition ↔ second ∈ condition
  else
    ¬ NothingRemains possible objects conditions ∧
      (FirstForeign possible objects conditions → ∀ id ∈ singles objects conditions, id ∈ possible →
        ∀ condition ∈ wide conditions, id ∉ condition)

instance : Decidable (NothingRemains possible objects conditions) :=
  inferInstanceAs (Decidable (_ ∧ _))

instance : Decidable (SplitsCorrectly possible objects conditions) :=
  inferInstanceAs (Decidable (ite _ _ _))

variable {possible objects conditions}

theorem insertObject_spec (sorted : Ascending objects) (id : Id) :
    Ascending (insertObject objects id) ∧ ∀ other, other ∈ insertObject objects id ↔ other ∈ objects ∨ other = id := by
  unfold insertObject
  cases result : binarySearch objects id with
  | ok i =>
    have member := mem_of_getElem? (binarySearch_ok result)
    exact ⟨sorted, fun other => by simp +contextual [member]⟩
  | error i =>
    obtain ⟨_, below, above⟩ := binarySearch_error sorted.le result
    have sortedParts : Ascending (objects.take i ++ objects.drop i) := by rwa [take_append_drop]
    obtain ⟨sortedFront, sortedBack, ordered⟩ := pairwise_append.mp sortedParts
    simp only [insertAt]
    constructor
    · refine pairwise_append.mpr ⟨sortedFront, pairwise_cons.mpr ⟨above, sortedBack⟩, ?_⟩
      intro first inFront second inBack
      rcases mem_cons.mp inBack with rfl | later
      · exact below first inFront
      · exact ordered first inFront second later
    · intro other
      conv_rhs => rw [← take_append_drop i objects]
      simp only [mem_append, mem_cons]
      tauto

/-- Every singleton from position `i` on is absorbed; the other conditions are only reordered. -/
theorem treatSingletons_spec (objects : List Id) (conditions : List (List Id)) (i : Nat)
    (sorted : Ascending objects) (passed : ∀ condition ∈ conditions.take i, condition.length ≠ 1) :
    let (finalObjects, finalConditions) := treatSingletons objects conditions i
    Ascending finalObjects ∧ (∀ id, id ∈ finalObjects ↔ id ∈ objects ∨ [id] ∈ conditions) ∧
      finalConditions.Perm (wide conditions) := by
  fun_induction treatSingletons objects conditions i with
  | case1 objects conditions i missing =>
    rw [take_of_length_le (getElem?_eq_none_iff.mp missing)] at passed
    refine ⟨sorted, fun id => ?_, ?_⟩
    · have absent : [id] ∉ conditions := fun member => passed [id] member rfl
      simp [absent]
    · rw [wide, filter_eq_self.mpr fun condition member => by simpa using passed condition member]
  | case2 objects conditions i id found ih =>
    obtain ⟨sortedNext, members⟩ := insertObject_spec sorted id
    have bound := index_lt found
    have perm := swapRemove_perm found
    obtain ⟨sortedFinal, objectsFinal, conditionsFinal⟩ := ih sortedNext (by rwa [swapRemove_take bound])
    refine ⟨sortedFinal, fun other => ?_, conditionsFinal.trans ?_⟩
    · rw [objectsFinal, members, ← perm.mem_iff, mem_cons, or_assoc]
      simp
    · have filtered := perm.filter (fun condition => decide (condition.length ≠ 1))
      rwa [filter_cons_of_neg (by simp)] at filtered
  | case3 objects conditions i condition wider found ih =>
    apply ih sorted
    intro other member
    rw [take_add_one, found] at member
    rcases mem_append.mp member with early | here
    · exact passed other early
    · obtain rfl : other = condition := by simpa using here
      intro single
      obtain ⟨id, rfl⟩ := length_eq_one_iff.mp single
      exact wider id rfl

omit [LinearOrder Id] in
theorem fromVec_ids {ids : List Id} (filled : ids ≠ []) :
    ∃ partition, Partition.fromVec ids = .ok partition ∧ partition.ids = ids := by
  match ids with
  | [] => exact absurd rfl filled
  | [id] => exact ⟨.one id, rfl, rfl⟩
  | first :: second :: rest => exact ⟨.many (first :: second :: rest), rfl, rfl⟩

omit [LinearOrder Id] in
theorem mapM_fromVec_ids {parts : List (List Id)} (filled : ∀ part ∈ parts, part ≠ []) :
    ∃ partitions, parts.mapM Partition.fromVec = .ok partitions ∧ partitions.map Partition.ids = parts := by
  induction parts with
  | nil => exact ⟨[], rfl, rfl⟩
  | cons part parts ih =>
    obtain ⟨first, converted, idsFirst⟩ := fromVec_ids (filled part (by simp))
    obtain ⟨others, computed, idsOthers⟩ := ih fun other member => filled other (by simp [member])
    refine ⟨first :: others, ?_, by simp [idsFirst, idsOthers]⟩
    rw [mapM_cons, converted, computed]
    rfl

theorem SplitBy.mem_unseen_iff {seen partitions : List (List Id)} {id : Id} (split : SplitBy possible seen partitions) :
    id ∈ unseen partitions possible ↔ id ∈ possible ∧ ∀ condition ∈ seen, id ∉ condition := by
  rw [mem_unseen]
  apply and_congr_right
  intro possibleId
  constructor
  · intro fresh condition inSeen holds
    obtain ⟨part, inPart, inside⟩ := (split.cover id).mpr ⟨possibleId, condition, inSeen, holds⟩
    exact fresh part inPart inside
  · intro unheld part inPart inside
    obtain ⟨_, condition, inSeen, holds⟩ := (split.cover id).mp ⟨part, inPart, inside⟩
    exact unheld condition inSeen holds

/-- The remaining partition of all compared types, requested as soon as there is a superset. -/
def remainder (possible : List Id) (supersets partitions : List (List Id)) : List (List Id) :=
  if supersets = [] then [] else [unseen partitions possible]

theorem mem_remainder {supersets partitions : List (List Id)} {part : List Id} :
    part ∈ remainder possible supersets partitions ↔ supersets ≠ [] ∧ part = unseen partitions possible := by
  unfold remainder
  split <;> simp_all

theorem partitionConditions_spec (supersets : List (List Id))
    (sortedPossible : Ascending possible) (sorted : ∀ condition ∈ conditions, Ascending condition) :
    ∃ parts, SplitBy possible conditions parts ∧ (supersets ≠ [] ∧ unseen parts possible = [] ∧
          partitionConditions possible supersets conditions = .error .unreachable ∨
        (supersets ≠ [] → unseen parts possible ≠ []) ∧
          ∃ partitions, partitionConditions possible supersets conditions = .ok partitions ∧
            partitions.map Partition.ids = remainder possible supersets parts ++ parts) := by
  obtain ⟨parts, computed, split⟩ := splitIntoPartitions_spec sortedPossible sorted
  refine ⟨parts, split, ?_⟩
  obtain ⟨partitions, converted, ids⟩ := mapM_fromVec_ids split.filled
  have remaining := computeRemainingPartition_eq sortedPossible split.sorted
  -- Without proper conditions there are no parts, so the second branch is the first one again.
  have unfolded : partitionConditions possible supersets conditions = (do
      let remaining ←
        if supersets ≠ [] then do
          let remaining ← computeRemainingPartition possible parts
          pure [remaining]
        else pure []
      let partitions ← parts.mapM Partition.fromVec
      pure (remaining ++ partitions)) := by
    unfold partitionConditions
    split
    · rw [computed]
      rfl
    · next empty =>
      obtain rfl := not_not.mp empty
      obtain rfl : parts = [] := by simpa [splitIntoPartitions, pure, Except.pure] using computed.symm
      split <;> simp [pure, Except.pure, bind, Except.bind]
  rw [unfolded, converted, remaining]
  by_cases exhausted : supersets ≠ [] ∧ unseen parts possible = []
  · refine .inl ⟨exhausted.1, exhausted.2, ?_⟩
    rw [if_pos exhausted.1, exhausted.2]
    rfl
  · refine .inr ⟨fun present empty => exhausted ⟨present, empty⟩, ?_⟩
    by_cases absent : supersets = []
    · refine ⟨partitions, by simp [absent, pure, Except.pure, bind, Except.bind], ?_⟩
      rw [ids, remainder, if_pos absent, nil_append]
    · obtain ⟨rest, restConverted, restIds⟩ :=
        fromVec_ids (show unseen parts possible ≠ [] from fun empty => exhausted ⟨absent, empty⟩)
      refine ⟨rest :: partitions, ?_, ?_⟩
      · rw [if_pos absent, restConverted]
        rfl
      · rw [map_cons, restIds, ids, remainder, if_neg absent]
        rfl

section Singles
variable {final : List Id}

omit [LinearOrder Id] in
theorem SameShape.refl (id : Id) : SameShape objects conditions id id := ⟨fun _ _ => Iff.rfl, fun _ _ => Iff.rfl⟩

/-- Types without a partition of their own are only told apart by the wide conditions. -/
theorem sameShape_iff {first second : Id} (firstFree : first ∉ singles objects conditions)
    (secondFree : second ∉ singles objects conditions) : SameShape objects conditions first second ↔
      ∀ condition ∈ wide conditions, first ∈ condition ↔ second ∈ condition := by
  rw [mem_singles] at firstFree secondFree
  constructor
  · exact fun same condition member => same.2 condition (mem_wide.mp member).1
  · intro agree
    refine ⟨fun object member => ?_, fun condition member => ?_⟩
    · apply iff_of_false
      · rintro rfl
        exact firstFree (.inl member)
      · rintro rfl
        exact secondFree (.inl member)
    · by_cases single : condition.length = 1
      · obtain ⟨id, rfl⟩ := length_eq_one_iff.mp single
        apply iff_of_false
        · intro same
          exact firstFree (.inr (mem_singleton.mp same ▸ member))
        · intro same
          exact secondFree (.inr (mem_singleton.mp same ▸ member))
      · exact agree condition (mem_wide.mpr ⟨member, single⟩)

variable (sorted : Ascending final) (members : ∀ id, id ∈ final ↔ id ∈ singles objects conditions)
include sorted members

omit members in
theorem pairwise_singletons : (final.map ([·])).Pairwise List.Disjoint := by
  refine pairwise_map.mpr (sorted.imp fun order => ?_)
  simpa using ne_of_gt order

theorem singles_length : final.length = (singles objects conditions).length :=
  ((perm_ext_iff_of_nodup sorted.nodup (nodup_dedup _)).mpr members).length_eq

theorem firstForeign_iff :
    FirstForeign possible objects conditions ↔ ∃ first, final.head? = some first ∧ first ∉ possible := by
  constructor
  · rintro ⟨least, member, smallest, foreign⟩
    rw [← members] at member
    cases final with
    | nil => cases member
    | cons first rest =>
      have below := smallest first ((members first).mp (by simp))
      have same : first = least := le_antisymm (sorted.head_le member) below
      exact ⟨first, rfl, same ▸ foreign⟩
  · rintro ⟨first, starts, foreign⟩
    obtain ⟨rest, rfl⟩ := head?_eq_some_iff.mp starts
    exact ⟨first, (members first).mp (by simp), fun other member => sorted.head_le ((members other).mpr member),
      foreign⟩

theorem difference_compared (sortedPossible : Ascending possible) :
    difference possible final = compared possible objects conditions := by
  by_cases foreign : FirstForeign possible objects conditions
  · obtain ⟨first, starts, outside⟩ := (firstForeign_iff sorted members).mp foreign
    rw [difference_foreign sortedPossible starts outside]
    simp [compared, foreign]
  · rw [difference_eq sortedPossible sorted]
    · apply filter_congr
      simp [members, foreign]
    · intro first starts
      by_contra outside
      exact foreign ((firstForeign_iff sorted members).mpr ⟨first, starts, outside⟩)

theorem caseSplit_objects_iff : CaseSplit possible objects conditions (final.map ([·])) ↔
    ∀ first ∈ possible, ∀ second ∈ possible, first ∉ singles objects conditions →
    second ∉ singles objects conditions → ∀ condition ∈ wide conditions, first ∈ condition ↔ second ∈ condition := by
  have absent (id : Id) : (∀ part ∈ final.map ([·]), id ∉ part) ↔ id ∉ singles objects conditions := by
    rw [← members]
    simp only [mem_map, forall_exists_index, and_imp, forall_apply_eq_imp_iff₂, mem_singleton]
    exact ⟨fun distinct member => distinct id member rfl, fun free other member same => free (same ▸ member)⟩
  constructor
  · intro split first inFirst second inSecond firstFree secondFree
    exact (sameShape_iff firstFree secondFree).mp
      (split.outside first inFirst second inSecond ((absent first).mpr firstFree) ((absent second).mpr secondFree))
  · intro agree
    refine ⟨by simp, pairwise_singletons sorted, ?_, ?_⟩
    · intro part member first _ second _ inFirst inSecond
      obtain ⟨id, _, rfl⟩ := mem_map.mp member
      rw [mem_singleton.mp inFirst, mem_singleton.mp inSecond]
      exact SameShape.refl id
    · intro first inFirst second inSecond firstFree secondFree
      rw [absent] at firstFree secondFree
      exact (sameShape_iff firstFree secondFree).mpr (agree first inFirst second inSecond firstFree secondFree)

end Singles

section Conditions
variable {final : List Id} {supersets proper parts : List (List Id)} {types : List Id}

theorem mem_compared {id : Id} : id ∈ compared possible objects conditions ↔
    id ∈ possible ∧ (FirstForeign possible objects conditions ∨ id ∉ singles objects conditions) := by
  simp [compared]

variable (split : SplitBy types proper parts)
  (isSuperset : ∀ condition, condition ∈ supersets ↔ condition ∈ wide conditions ∧ types ⊆ condition)
  (isProper : ∀ condition, condition ∈ proper ↔ condition ∈ wide conditions ∧ ¬ types ⊆ condition)
include split isSuperset isProper

theorem mem_lowerParts {id : Id} : (∃ part ∈ remainder types supersets parts ++ parts, id ∈ part) ↔
      id ∈ types ∧ ∃ condition ∈ wide conditions, id ∈ condition := by
  constructor
  · rintro ⟨part, member, inside⟩
    rcases mem_append.mp member with inRest | inParts
    · obtain ⟨present, rfl⟩ := mem_remainder.mp inRest
      obtain ⟨condition, inSupersets⟩ := exists_mem_of_ne_nil supersets present
      have ⟨inWide, covers⟩ := (isSuperset condition).mp inSupersets
      have comparedId := (mem_unseen.mp inside).1
      exact ⟨comparedId, condition, inWide, covers comparedId⟩
    · obtain ⟨comparedId, condition, inProper, holds⟩ := (split.cover id).mp ⟨part, inParts, inside⟩
      exact ⟨comparedId, condition, ((isProper condition).mp inProper).1, holds⟩
  · rintro ⟨comparedId, condition, inWide, holds⟩
    by_cases inParts : ∃ part ∈ parts, id ∈ part
    · obtain ⟨part, member, inside⟩ := inParts
      exact ⟨part, mem_append_right _ member, inside⟩
    · -- Not in any part, so the condition that holds it is a superset and there is a remainder.
      have superset : condition ∈ supersets := by
        by_contra absent
        have isPart := (isProper condition).mpr
          ⟨inWide, fun covers => absent ((isSuperset condition).mpr ⟨inWide, covers⟩)⟩
        exact inParts ((split.cover id).mpr ⟨comparedId, condition, isPart, holds⟩)
      refine ⟨_, mem_append_left _ (mem_remainder.mpr ⟨ne_nil_of_mem superset, rfl⟩), ?_⟩
      exact mem_unseen.mpr ⟨comparedId, fun part member inside => inParts ⟨part, member, inside⟩⟩

/-- Types in one lower partition are held by the same wide conditions. -/
theorem lowerParts_uniform {part : List Id} (member : part ∈ remainder types supersets parts ++ parts)
    {first second : Id} (inFirst : first ∈ part) (inSecond : second ∈ part) :
    ∀ condition ∈ wide conditions, first ∈ condition ↔ second ∈ condition := by
  intro condition inWide
  have comparedOf {id : Id} (inside : id ∈ part) :=
    ((mem_lowerParts split isSuperset isProper).mp ⟨part, member, inside⟩).1
  by_cases covers : types ⊆ condition
  · exact iff_of_true (covers (comparedOf inFirst)) (covers (comparedOf inSecond))
  · have inProper := (isProper condition).mpr ⟨inWide, covers⟩
    rcases mem_append.mp member with inRest | inParts
    · obtain ⟨_, rfl⟩ := mem_remainder.mp inRest
      exact iff_of_false ((split.mem_unseen_iff.mp inFirst).2 condition inProper)
        ((split.mem_unseen_iff.mp inSecond).2 condition inProper)
    · exact split.uniform part inParts first inFirst second inSecond condition inProper

omit isSuperset isProper in
theorem lowerParts_disjoint : (remainder types supersets parts ++ parts).Pairwise List.Disjoint := by
  refine pairwise_append.mpr ⟨?_, split.disjoint, ?_⟩
  · unfold remainder
    split <;> simp
  · intro rest inRest part inPart id inside inOther
    obtain ⟨_, rfl⟩ := mem_remainder.mp inRest
    exact (mem_unseen.mp inside).2 part inPart inOther

variable (isCompared : types = compared possible objects conditions)
include isCompared

/-- Objects and lower partitions together: only an object that was not removed from the compared
types can be in two partitions. -/
theorem caseSplit_iff (sorted : Ascending final) (members : ∀ id, id ∈ final ↔ id ∈ singles objects conditions)
    (remains : supersets ≠ [] → unseen parts types ≠ []) :
    CaseSplit possible objects conditions
        (final.map ([·]) ++ (remainder types supersets parts ++ parts)) ↔
      (FirstForeign possible objects conditions → ∀ id ∈ singles objects conditions, id ∈ possible →
        ∀ condition ∈ wide conditions, id ∉ condition) := by
  have lower {id : Id} : (∃ part ∈ remainder types supersets parts ++ parts, id ∈ part) ↔ _ :=
    mem_lowerParts split isSuperset isProper
  have inTypes {id : Id} : id ∈ types ↔ _ := isCompared ▸ mem_compared
  constructor
  · intro correct foreign id single inPossible condition inWide holds
    obtain ⟨part, inLower, inside⟩ := lower.mpr ⟨inTypes.mpr ⟨inPossible, .inl foreign⟩, condition, inWide, holds⟩
    have apart := (pairwise_append.mp correct.disjoint).2.2 [id]
      (mem_map.mpr ⟨id, (members id).mpr single, rfl⟩) part inLower
    exact apart (by simp) inside
  · intro removed
    -- An object is never compared with a condition that holds it.
    have free {id : Id} {part : List Id}
        (member : part ∈ remainder types supersets parts ++ parts)
        (inside : id ∈ part) : id ∉ singles objects conditions := by
      intro single
      obtain ⟨comparedId, condition, inWide, holds⟩ := lower.mp ⟨part, member, inside⟩
      obtain ⟨inPossible, foreign | notSingle⟩ := inTypes.mp comparedId
      · exact removed foreign id single inPossible condition inWide holds
      · exact notSingle single
    refine ⟨?_, ?_, ?_, ?_⟩
    · intro part member
      rcases mem_append.mp member with inObjects | inLower
      · obtain ⟨id, _, rfl⟩ := mem_map.mp inObjects
        simp
      · rcases mem_append.mp inLower with inRest | inParts
        · obtain ⟨present, rfl⟩ := mem_remainder.mp inRest
          exact remains present
        · exact split.filled part inParts
    · refine pairwise_append.mpr ⟨pairwise_singletons sorted, lowerParts_disjoint split, ?_⟩
      intro object inObjects part inLower id inside inPart
      obtain ⟨single, inFinal, rfl⟩ := mem_map.mp inObjects
      obtain rfl := mem_singleton.mp inside
      exact free inLower inPart ((members id).mp inFinal)
    · intro part member first _ second _ inFirst inSecond
      rcases mem_append.mp member with inObjects | inLower
      · obtain ⟨id, _, rfl⟩ := mem_map.mp inObjects
        rw [mem_singleton.mp inFirst, mem_singleton.mp inSecond]
        exact SameShape.refl id
      · exact (sameShape_iff (free inLower inFirst) (free inLower inSecond)).mpr
          (lowerParts_uniform split isSuperset isProper inLower inFirst inSecond)
    · intro first inFirst second inSecond firstFree secondFree
      -- A type outside all partitions is no object, and no wide condition holds it.
      have unheld {id : Id} (inPossible : id ∈ possible)
          (absent : ∀ part ∈ final.map ([·]) ++
            (remainder types supersets parts ++ parts), id ∉ part) :
          id ∉ singles objects conditions ∧ ∀ condition ∈ wide conditions, id ∉ condition := by
        have notSingle : id ∉ singles objects conditions := by
          intro single
          exact absent [id] (mem_append_left _ (mem_map.mpr ⟨id, (members id).mpr single, rfl⟩)) (by simp)
        refine ⟨notSingle, fun condition inWide holds => ?_⟩
        obtain ⟨part, inLower, inside⟩ := lower.mpr ⟨inTypes.mpr ⟨inPossible, .inr notSingle⟩, condition, inWide, holds⟩
        exact absent part (mem_append_right _ inLower) inside
      obtain ⟨firstSingle, firstUnheld⟩ := unheld inFirst firstFree
      obtain ⟨secondSingle, secondUnheld⟩ := unheld inSecond secondFree
      exact (sameShape_iff firstSingle secondSingle).mpr fun condition inWide =>
        iff_of_false (firstUnheld condition inWide) (secondUnheld condition inWide)

theorem nothingRemains_iff : NothingRemains possible objects conditions ↔ supersets ≠ [] ∧ unseen parts types = [] := by
  have someSuperset : (∃ condition ∈ wide conditions, types ⊆ condition) ↔
      supersets ≠ [] := by
    simp [← isSuperset, eq_nil_iff_forall_not_mem]
  have noneLeft : (∀ id ∈ types, ∃ condition ∈ wide conditions,
      ¬ types ⊆ condition ∧ id ∈ condition) ↔
        unseen parts types = [] := by
    rw [eq_nil_iff_forall_not_mem]
    simp [split.mem_unseen_iff, isProper]
  rw [NothingRemains, ← isCompared, someSuperset, noneLeft]

omit split isSuperset in
/-- No objects and no proper conditions: every condition holds every possible type. -/
theorem sameShape_of_only_supersets (noSingles : singles objects conditions = []) (noProper : proper = []) :
    ∀ first ∈ possible, ∀ second ∈ possible, SameShape objects conditions first second := by
  have free (id : Id) : id ∉ singles objects conditions := by simp [noSingles]
  have held (id : Id) (member : id ∈ possible) (condition : List Id) (inWide : condition ∈ wide conditions) :
      id ∈ condition := by
    by_contra outside
    have isPart := (isProper condition).mpr
      ⟨inWide, fun covers => outside (covers (isCompared ▸ mem_compared.mpr ⟨member, .inr (free id)⟩))⟩
    simp [noProper] at isPart
  intro first inFirst second inSecond
  exact (sameShape_iff (free first) (free second)).mpr fun condition inWide =>
    iff_of_true (held first inFirst condition inWide) (held second inSecond condition inWide)

end Conditions

omit [LinearOrder Id] in
theorem map_one_ids (ids : List Id) : (ids.map Partition.one).map Partition.ids = ids.map ([·]) := by
  simp [Partition.ids]

/-- The shape partitions are a correct case split exactly on the inputs that `SplitsCorrectly` describes. -/
theorem partitionShapes_correct_iff (possible objects : List Id) (conditions : List (List Id))
    (several : 2 ≤ possible.length) (sortedPossible : Ascending possible) (sortedObjects : Ascending objects)
    (sortedConditions : ∀ condition ∈ conditions, Ascending condition) :
    CorrectResult possible objects conditions (partitionShapes possible objects conditions) ↔
      SplitsCorrectly possible objects conditions := by
  have treated := treatSingletons_spec objects conditions 0 sortedObjects (by simp)
  unfold partitionShapes SplitsCorrectly
  rw [if_neg (by omega)]
  generalize treatSingletons objects conditions 0 = treatedResult at treated
  obtain ⟨final, rest⟩ := treatedResult
  obtain ⟨sorted, members, perm⟩ := treated
  dsimp only
  have members' (id : Id) : id ∈ final ↔ id ∈ singles objects conditions := by rw [members, mem_singles]
  have lengths := singles_length sorted members'
  have noWide : rest = [] ↔ wide conditions = [] := by
    rw [← length_eq_zero_iff, ← length_eq_zero_iff, perm.length_eq]
  by_cases absent : wide conditions = []
  · rw [if_pos (.inr (noWide.mpr absent)), if_pos absent]
    simp only [CorrectResult, map_one_ids, caseSplit_objects_iff sorted members', absent]
    simp
  rw [if_neg absent]
  by_cases counted : (singles objects conditions).length = possible.length
  · rw [if_pos (.inl (lengths.trans counted)), if_pos counted]
    simp only [CorrectResult, map_one_ids, caseSplit_objects_iff sorted members']
  rw [if_neg (not_or.mpr ⟨lengths ▸ counted, fun empty => absent (noWide.mp empty)⟩), if_neg counted,
    difference_compared sorted members' sortedPossible, partition_eq_filter_filter]
  have sortedCompared : Ascending (compared possible objects conditions) := sortedPossible.filter _
  generalize isCompared : compared possible objects conditions = types at sortedCompared
  have sortedWide {condition : List Id} (inWide : condition ∈ wide conditions) : Ascending condition :=
    sortedConditions condition (mem_wide.mp inWide).1
  have isSuperset (condition : List Id) : condition ∈ rest.filter (isSubsetOf types) ↔
        condition ∈ wide conditions ∧ types ⊆ condition := by
    rw [mem_filter, perm.mem_iff]
    exact and_congr_right fun inWide => isSubsetOf_iff sortedCompared (sortedWide inWide)
  have isProper (condition : List Id) : condition ∈ rest.filter (not ∘ isSubsetOf types) ↔
        condition ∈ wide conditions ∧ ¬ types ⊆ condition := by
    rw [mem_filter, perm.mem_iff]
    apply and_congr_right
    intro inWide
    rw [← isSubsetOf_iff sortedCompared (sortedWide inWide)]
    simp
  generalize rest.filter (isSubsetOf types) = supersets at isSuperset
  generalize rest.filter (not ∘ isSubsetOf types) = proper at isProper
  have sortedProper : ∀ condition ∈ proper, Ascending condition := fun condition inProper =>
    sortedWide ((isProper condition).mp inProper).1
  obtain ⟨parts, split, outcome⟩ := partitionConditions_spec supersets sortedCompared sortedProper
  rw [nothingRemains_iff split isSuperset isProper isCompared.symm]
  split
  · next shortcut =>
    obtain ⟨rfl, rfl⟩ := shortcut
    have noSingles : singles objects conditions = [] :=
      eq_nil_iff_forall_not_mem.mpr fun id single => by simpa using (members' id).mpr single
    refine iff_of_true (sameShape_of_only_supersets isProper isCompared.symm noSingles rfl) ⟨?_, by simp [noSingles]⟩
    rintro ⟨_, empty⟩
    obtain ⟨id, inPossible⟩ := exists_mem_of_ne_nil possible (ne_nil_of_length_pos (by omega))
    have left : id ∈ unseen parts types :=
      split.mem_unseen_iff.mpr ⟨isCompared ▸ mem_compared.mpr ⟨inPossible, .inr (by simp [noSingles])⟩, by simp⟩
    simp [empty] at left
  · rcases outcome with ⟨present, empty, failed⟩ | ⟨remains, partitions, computed, ids⟩
    · rw [failed]
      simp [CorrectResult, bind, Except.bind, present, empty]
    · rw [computed]
      simp only [CorrectResult, bind, Except.bind, pure, Except.pure, map_append, map_one_ids, ids]
      rw [caseSplit_iff split isSuperset isProper isCompared.symm sorted members' remains]
      exact (and_iff_right fun exhausted => remains exhausted.1 exhausted.2).symm

theorem partitionShapes_correct_overlapping : SplitsCorrectly [1, 2, 3, 4, 5] [2] [[1, 2, 3], [3, 4]] ∧
      CorrectResult [1, 2, 3, 4, 5] [2] [[1, 2, 3], [3, 4]]
        (partitionShapes [1, 2, 3, 4, 5] [2] [[1, 2, 3], [3, 4]]) := by
  have splits : SplitsCorrectly [1, 2, 3, 4, 5] [2] [[1, 2, 3], [3, 4]] := by decide +kernel
  exact ⟨splits, (partitionShapes_correct_iff [1, 2, 3, 4, 5] [2] [[1, 2, 3], [3, 4]] (by decide) (by decide)
    (by decide) (by decide)).mpr splits⟩

/-- Two conditions that together cover a third one, which holds every possible type. -/
theorem partitionShapes_covered_interface :
    partitionShapes [1, 2, 3, 4] [] [[1, 2, 3, 4], [1, 2], [3, 4]] = .error .unreachable ∧
      ¬ CorrectResult [1, 2, 3, 4] [] [[1, 2, 3, 4], [1, 2], [3, 4]]
        (partitionShapes [1, 2, 3, 4] [] [[1, 2, 3, 4], [1, 2], [3, 4]]) := by
  have aborts : partitionShapes [1, 2, 3, 4] [] [[1, 2, 3, 4], [1, 2], [3, 4]] = .error .unreachable := by
    decide +kernel
  exact ⟨aborts, aborts ▸ id⟩

end Grafbase.Operation.Blueprint
