import Grafbase.Foundation.Slices
import Grafbase.Foundation.SortedLists
import Mathlib.Data.List.Nodup
import Mathlib.Data.List.Pairwise
import Mathlib.Data.List.Perm.Subperm
import Mathlib.Order.Nat

/-! Splitting the possible types of a selection set into shapes.

A selection set with type conditions has one shape per combination of
conditions that can apply. The partitions are computed by two-cursor set
operations on sorted vectors of type ids.
-/

set_option autoImplicit false

namespace Grafbase.Operation.Blueprint
open Foundation List
variable {Id : Type}

inductive Partition (Id : Type) where
  | one (id : Id)
  | many (ids : List Id)
  deriving DecidableEq

def Partition.ids : Partition Id → List Id
  | .one id => [id]
  | .many ids => ids

/-- `From<Vec<Id>>`, whose empty case is `unreachable!()`. -/
def Partition.fromVec : List Id → Checked (Partition Id)
  | [] => .error .unreachable
  | [id] => .ok (.one id)
  | ids => .ok (.many ids)

variable [LinearOrder Id]

/-- `a \ b`, except that `a` is returned as it is when it lacks the first id of `b`. -/
def difference (a b : List Id) : List Id :=
  match b with
  | [] => a
  | first :: rest =>
    match binarySearch a first with
    | .error _ => a
    | .ok i =>
      let (diff, unread, _) := mergeWalk (fun diff left => diff ++ [left]) (fun diff _ => diff)
        (fun diff _ => diff) (a.drop (i + 1)) rest (a.take i)
      diff ++ unread

def isSubsetLoop : List Id → List Id → Bool
  | left :: lefts, right :: rights =>
    match compare left right with
    | .lt => false
    | .gt => isSubsetLoop (left :: lefts) rights
    | .eq => isSubsetLoop lefts rights
  | lefts, _ => lefts.isEmpty
termination_by lefts rights => lefts.length + rights.length

def isSubsetOf (a b : List Id) : Bool :=
  if b.length < a.length then false else isSubsetLoop a b

/-- The locals of `extract_intersection`; both vectors are compacted while they are read. -/
structure Extraction (Id : Type) where
  existing : List Id
  candidate : List Id
  intersection : List Id
  i : Nat
  j : Nat
  newExistingLen : Nat
  newCandidateLen : Nat

def extractLoop (s : Extraction Id) : Extraction Id :=
  match _left : s.existing[s.i]?, _right : s.candidate[s.j]? with
  | some left, some right =>
    match compare left right with
    | .lt => extractLoop { s with
        existing := s.existing.set s.newExistingLen left
        newExistingLen := s.newExistingLen + 1
        i := s.i + 1 }
    | .gt => extractLoop { s with
        candidate := s.candidate.set s.newCandidateLen right
        newCandidateLen := s.newCandidateLen + 1
        j := s.j + 1 }
    | .eq => extractLoop { s with
        intersection := s.intersection ++ [left]
        i := s.i + 1
        j := s.j + 1 }
  | _, _ => s
termination_by (s.existing.length - s.i) + (s.candidate.length - s.j)
decreasing_by
  all_goals
    have := index_lt _left
    have := index_lt _right
    try simp only [length_set]
    omega

/-- Removes the common ids from both vectors and appends them to `intersection`. -/
def extractIntersection (existing candidate intersection : List Id) : Checked (List Id × List Id × List Id) :=
  match existing.head?, existing.getLast?, candidate.head?, candidate.getLast? with
  | some existingFirst, some existingLast, some candidateFirst, some candidateLast =>
    if existingLast < candidateFirst ∨ candidateLast < existingFirst then
      .ok (existing, candidate, intersection)
    else
      let s := extractLoop ⟨existing, candidate, intersection, 0, 0, 0, 0⟩
      .ok (compact s.existing s.i s.newExistingLen, compact s.candidate s.j s.newCandidateLen,
        s.intersection)
  | _, _, _, _ => .error .outOfBounds

/-- The inner loop of `split_into_partitions`; its range is fixed before partitions are appended. -/
def splitLoop : List Nat → List (List Id) → List Id → Checked (List (List Id) × List Id)
  | [], partitions, remaining => .ok (partitions, remaining)
  | i :: range, partitions, remaining =>
    if remaining = [] then .ok (partitions, remaining)
    else match partitions[i]? with
      | none => .error .outOfBounds
      | some existing => do
          let (existing, remaining, intersection) ← extractIntersection existing remaining []
          if existing = [] then splitLoop range (partitions.set i intersection) remaining
          else if intersection ≠ [] then
            splitLoop range (partitions.set i existing ++ [intersection]) remaining
          else splitLoop range (partitions.set i existing) remaining

variable (selectionSetPossibleTypes : List Id)

/-- One round of the outer loop: split what exists along `possibleTypes`, then add its rest. -/
def splitRound (partitions : List (List Id)) (possibleTypes : List Id) : Checked (List (List Id)) := do
  let (remaining, _, _) := mergeWalk (fun remaining _ => remaining) (fun remaining _ => remaining)
    (fun remaining left => remaining ++ [left]) possibleTypes selectionSetPossibleTypes []
  let (partitions, remaining) ← splitLoop (List.range partitions.length) partitions remaining
  if remaining ≠ [] then .ok (partitions ++ [remaining]) else .ok partitions

def splitIntoPartitions
    (typeConditionsPossibleTypes : List (List Id)) : Checked (List (List Id)) :=
  typeConditionsPossibleTypes.foldlM (splitRound selectionSetPossibleTypes) []

/-- Advance to the first common id: the ids passed on the left, then both cursors. -/
def firstCommon : List Id → List Id → List Id → List Id × List Id × List Id
  | left :: lefts, right :: rights, passed =>
    match compare left right with
    | .lt => firstCommon lefts (right :: rights) (passed ++ [left])
    | .gt => firstCommon (left :: lefts) rights passed
    | .eq => (passed, left :: lefts, right :: rights)
  | lefts, rights, passed => (passed, lefts, rights)
termination_by lefts rights => lefts.length + rights.length

/-- One round of `compute_remaining_partition`. -/
def removeSubset (remaining subset : List Id) : List Id :=
  let (passed, lefts, rights) := firstCommon remaining subset []
  if lefts = [] ∨ rights = [] then remaining
  else
    let (tmp, unread, _) := mergeWalk (fun tmp left => tmp ++ [left]) (fun tmp _ => tmp)
      (fun tmp _ => tmp) lefts rights passed
    tmp ++ unread

def computeRemainingPartition (subsets : List (List Id)) : Checked (Partition Id) :=
  Partition.fromVec (subsets.foldl removeSubset selectionSetPossibleTypes)

/-- `binary_search` followed by `insert` on a miss. -/
def insertObject (objects : List Id) (id : Id) : List Id :=
  match binarySearch objects id with
  | .ok _ => objects
  | .error i => insertAt objects i id

/-- Type conditions with a single possible type are moved to the objects. -/
def treatSingletons (objects : List Id) (typeConditions : List (List Id)) (i : Nat) : List Id × List (List Id) :=
  match _found : typeConditions[i]? with
  | none => (objects, typeConditions)
  | some [id] => treatSingletons (insertObject objects id) (swapRemove typeConditions i) i
  | some _ => treatSingletons objects typeConditions (i + 1)
termination_by typeConditions.length - i
decreasing_by
  all_goals
    have bound := index_lt _found
    try rw [swapRemove_length bound]
    omega

/-- The partitions below the objects, once neither shortcut applies. -/
def partitionConditions (supersets typeConditions : List (List Id)) : Checked (List (Partition Id)) :=
  if typeConditions ≠ [] then do
    let partitions ← splitIntoPartitions selectionSetPossibleTypes typeConditions
    let remaining ←
      if supersets ≠ [] then do
        let remaining ← computeRemainingPartition selectionSetPossibleTypes partitions
        pure [remaining]
      else pure []
    let partitions ← partitions.mapM Partition.fromVec
    pure (remaining ++ partitions)
  else if supersets ≠ [] then do
    let remaining ← computeRemainingPartition selectionSetPossibleTypes typeConditions
    pure [remaining]
  else pure []

def partitionShapes (objects : List Id)
    (typeConditionsPossibleTypes : List (List Id)) : Checked (Option (List (Partition Id))) :=
  if selectionSetPossibleTypes.length = 1 then .ok none
  else
    let (objects, typeConditions) := treatSingletons objects typeConditionsPossibleTypes 0
    if objects.length = selectionSetPossibleTypes.length ∨ typeConditions = [] then
      .ok (some (objects.map .one))
    else
      let selectionSetPossibleTypes := difference selectionSetPossibleTypes objects
      let (supersets, typeConditions) := typeConditions.partition (isSubsetOf selectionSetPossibleTypes)
      if objects = [] ∧ typeConditions = [] then .ok none
      else do
        let partitions ← partitionConditions selectionSetPossibleTypes supersets typeConditions
        pure (some (objects.map .one ++ partitions))

example : partitionShapes [1, 2, 3, 4, 5] [2] [[1, 2, 3], [3, 4]] =
    .ok (some [.one 2, .one 1, .one 3, .one 4]) := by decide +kernel

variable {a b existing candidate part condition : List Id} {id : Id}

theorem difference_eq (sortedA : Ascending a) (sortedB : Ascending b)
    (included : ∀ first ∈ b.head?, first ∈ a) : difference a b = a.filter (· ∉ b) := by
  cases b with
  | nil => simp [difference]
  | cons first rest =>
    have member : first ∈ a := included first (by simp)
    obtain ⟨i, hit⟩ := (binarySearch_ok_iff sortedA.le first).mpr member
    have found := binarySearch_ok hit
    obtain ⟨bound, value⟩ := List.getElem?_eq_some_iff.mp found
    have split : a = a.take i ++ first :: a.drop (i + 1) := by
      rw [← value, ← drop_eq_getElem_cons bound, take_append_drop]
    have sortedParts : Ascending (a.take i ++ first :: a.drop (i + 1)) := by
      rw [← split]
      exact sortedA
    obtain ⟨_, sortedRest, before⟩ := pairwise_append.mp sortedParts
    -- Everything before the first id of `b` is smaller than all of `b`.
    have untouched : (a.take i).filter (· ∉ first :: rest) = a.take i := by
      rw [filter_eq_self]
      intro item early
      simpa using sortedB.notMem_of_lt (before item early first (by simp))
    have walked := mergeWalk_diff (a.drop (i + 1)) rest (a.take i) sortedRest.tail sortedB.tail
    simp only [difference, hit]
    rw [walked]
    conv_rhs => rw [split, filter_append, untouched, diff_drop_both sortedRest]

theorem difference_foreign {first : Id} (sorted : Ascending a) (starts : b.head? = some first)
    (foreign : first ∉ a) : difference a b = a := by
  obtain ⟨rest, rfl⟩ := head?_eq_some_iff.mp starts
  cases result : binarySearch a first with
  | ok i => exact absurd ((binarySearch_ok_iff sorted.le first).mp ⟨i, result⟩) foreign
  | error i => simp [difference, result]

theorem isSubsetLoop_iff (a b : List Id) (sortedA : Ascending a) (sortedB : Ascending b) :
    isSubsetLoop a b = true ↔ a ⊆ b := by
  fun_induction isSubsetLoop a b with
  | case1 left lefts right rights order =>
    have outside := sortedB.notMem_of_lt (compare_lt_iff_lt.mp order)
    simp only [Bool.false_eq_true, false_iff]
    exact fun included => outside (included (by simp))
  | case2 left lefts right rights order ih =>
    have below := sortedA.notMem_of_lt (compare_gt_iff_gt.mp order)
    rw [ih sortedA sortedB.tail]
    constructor
    · exact fun included item member => mem_cons_of_mem _ (included member)
    · intro included item member
      rcases mem_cons.mp (included member) with rfl | later
      · exact absurd member below
      · exact later
  | case3 left lefts right rights order ih =>
    obtain rfl := compare_eq_iff_eq.mp order
    rw [ih sortedA.tail sortedB.tail]
    constructor
    · exact fun included => cons_subset_cons _ included
    · intro included item member
      rcases mem_cons.mp (included (mem_cons_of_mem _ member)) with rfl | later
      · exact absurd (sortedA.head_lt member) (lt_irrefl _)
      · exact later
  | case4 lefts rights stopped => obtain rfl | rfl := nil_of_stopped stopped <;> simp

theorem isSubsetOf_iff (sortedA : Ascending a) (sortedB : Ascending b) : isSubsetOf a b = true ↔ a ⊆ b := by
  unfold isSubsetOf
  split
  · next longer =>
    simp only [Bool.false_eq_true, false_iff]
    intro included
    have short := (subperm_of_subset sortedA.nodup included).length_le
    omega
  · exact isSubsetLoop_iff a b sortedA sortedB

/-- The compaction of both vectors computes the two differences. -/
theorem extractLoop_spec (s : Extraction Id) (keptExisting unreadExisting keptCandidate unreadCandidate : List Id)
    (existing : Compacting s.existing s.i s.newExistingLen keptExisting unreadExisting)
    (candidate : Compacting s.candidate s.j s.newCandidateLen keptCandidate unreadCandidate)
    (sortedExisting : Ascending unreadExisting) (sortedCandidate : Ascending unreadCandidate) :
    let final := extractLoop s
    compact final.existing final.i final.newExistingLen =
        keptExisting ++ unreadExisting.filter (· ∉ unreadCandidate) ∧
      compact final.candidate final.j final.newCandidateLen =
        keptCandidate ++ unreadCandidate.filter (· ∉ unreadExisting) ∧
      final.intersection = s.intersection ++ unreadExisting.filter (· ∈ unreadCandidate) := by
  fun_induction extractLoop s generalizing keptExisting unreadExisting keptCandidate unreadCandidate with
  | case1 s left right atLeft atRight order ih =>
    obtain ⟨lefts, rfl⟩ := existing.unread_eq atLeft
    obtain ⟨rights, rfl⟩ := candidate.unread_eq atRight
    have below := compare_lt_iff_lt.mp order
    rw [diff_cons_left sortedCandidate below, diff_drop_right sortedCandidate below,
      inter_drop_left sortedCandidate below]
    simpa using ih _ _ _ _ existing.keep candidate sortedExisting.tail sortedCandidate
  | case2 s left right atLeft atRight order ih =>
    obtain ⟨lefts, rfl⟩ := existing.unread_eq atLeft
    obtain ⟨rights, rfl⟩ := candidate.unread_eq atRight
    have below := compare_gt_iff_gt.mp order
    rw [diff_cons_left sortedExisting below, diff_drop_right sortedExisting below,
      inter_drop_right sortedExisting below]
    simpa using ih _ _ _ _ existing candidate.keep sortedExisting sortedCandidate.tail
  | case3 s left right atLeft atRight order ih =>
    obtain ⟨lefts, rfl⟩ := existing.unread_eq atLeft
    obtain ⟨rights, rfl⟩ := candidate.unread_eq atRight
    obtain rfl := compare_eq_iff_eq.mp order
    rw [diff_drop_both sortedExisting, diff_drop_both sortedCandidate, inter_cons_both sortedExisting]
    simpa using ih _ _ _ _ existing.skip candidate.skip sortedExisting.tail sortedCandidate.tail
  | case4 s stopped =>
    dsimp only
    rw [existing.compact_eq, candidate.compact_eq]
    have exhausted : unreadExisting = [] ∨ unreadCandidate = [] := by
      cases unreadExisting with
      | nil => exact .inl rfl
      | cons left lefts =>
        cases unreadCandidate with
        | nil => exact .inr rfl
        | cons right rights =>
          exact (stopped left right existing.getElem? candidate.getElem?).elim
    rcases exhausted with rfl | rfl <;> simp

theorem extractIntersection_eq (sortedExisting : Ascending existing)
    (sortedCandidate : Ascending candidate) (existingFilled : existing ≠ []) (candidateFilled : candidate ≠ []) :
    extractIntersection existing candidate [] = .ok (existing.filter (· ∉ candidate),
      candidate.filter (· ∉ existing), existing.filter (· ∈ candidate)) := by
  have walked := extractLoop_spec ⟨existing, candidate, [], 0, 0, 0, 0⟩ [] existing [] candidate
    (Compacting.initial existing) (Compacting.initial candidate) sortedExisting sortedCandidate
  unfold extractIntersection
  rw [head?_eq_some_head existingFilled, getLast?_eq_some_getLast existingFilled,
    head?_eq_some_head candidateFilled, getLast?_eq_some_getLast candidateFilled]
  dsimp only
  split
  · next apart =>
    -- Disjoint ranges: the early return leaves three vectors that are already right.
    have disjoint : ∀ item ∈ existing, item ∉ candidate := by
      intro item inExisting inCandidate
      have afterFirst := sortedExisting.le.rel_head inExisting
      have beforeLast := sortedExisting.le.rel_getLast inExisting
      have afterCandidate := sortedCandidate.le.rel_head inCandidate
      have beforeCandidate := sortedCandidate.le.rel_getLast inCandidate
      rcases apart with below | above
      · exact absurd (lt_of_le_of_lt beforeLast (lt_of_lt_of_le below afterCandidate)) (lt_irrefl _)
      · exact absurd (lt_of_le_of_lt beforeCandidate (lt_of_lt_of_le above afterFirst)) (lt_irrefl _)
    have keepsExisting : existing.filter (· ∉ candidate) = existing := by
      simpa [filter_eq_self] using disjoint
    have keepsCandidate : candidate.filter (· ∉ existing) = candidate := by
      simpa [filter_eq_self] using fun item inCandidate inExisting =>
        disjoint item inExisting inCandidate
    have nothing : existing.filter (· ∈ candidate) = [] := by
      simpa [filter_eq_nil_iff] using disjoint
    rw [keepsExisting, keepsCandidate, nothing]
  · rw [walked.1, walked.2.1, walked.2.2]
    simp

def nonEmpty (ids : List Id) : List (List Id) := if ids = [] then [] else [ids]

omit [LinearOrder Id] in
theorem mem_nonEmpty {ids : List Id} : part ∈ nonEmpty ids ↔ part = ids ∧ ids ≠ [] := by
  unfold nonEmpty
  split <;> simp_all

/-- What one existing partition becomes when the ids of `candidate` are told apart. -/
def halves (candidate existing : List Id) : List (List Id) :=
  nonEmpty (existing.filter (· ∉ candidate)) ++ nonEmpty (existing.filter (· ∈ candidate))

theorem mem_halves (member : part ∈ halves candidate existing) :
    part ≠ [] ∧ part.Sublist existing ∧ ((∀ id ∈ part, id ∉ candidate) ∨ ∀ id ∈ part, id ∈ candidate) := by
  rw [halves, mem_append, mem_nonEmpty, mem_nonEmpty] at member
  rcases member with ⟨rfl, filled⟩ | ⟨rfl, filled⟩
  · exact ⟨filled, filter_sublist, .inl fun id kept => by simpa using (mem_filter.mp kept).2⟩
  · exact ⟨filled, filter_sublist, .inr fun id kept => by simpa using (mem_filter.mp kept).2⟩

theorem halves_cover (candidate : List Id) (member : id ∈ existing) :
    ∃ part ∈ halves candidate existing, id ∈ part := by
  by_cases common : id ∈ candidate
  · have kept : id ∈ existing.filter (· ∈ candidate) := by simp [member, common]
    exact ⟨_, mem_append_right _ (mem_nonEmpty.mpr ⟨rfl, ne_nil_of_mem kept⟩), kept⟩
  · have kept : id ∈ existing.filter (· ∉ candidate) := by simp [member, common]
    exact ⟨_, mem_append_left _ (mem_nonEmpty.mpr ⟨rfl, ne_nil_of_mem kept⟩), kept⟩

theorem halves_disjoint (candidate existing : List Id) : (halves candidate existing).Pairwise List.Disjoint := by
  have single (ids : List Id) : (nonEmpty ids).Pairwise List.Disjoint := by
    unfold nonEmpty
    split <;> simp
  refine pairwise_append.mpr ⟨single _, single _, ?_⟩
  intro first inFirst second inSecond id memberFirst memberSecond
  rw [(mem_nonEmpty.mp inFirst).1] at memberFirst
  rw [(mem_nonEmpty.mp inSecond).1] at memberSecond
  simp_all

/-- Removing ids that are not in `existing` from the candidate does not change its halves. -/
theorem halves_congr {first second : List Id} (agree : ∀ id ∈ existing, id ∈ first ↔ id ∈ second) :
    halves first existing = halves second existing := by
  have outside : existing.filter (· ∉ first) = existing.filter (· ∉ second) :=
    filter_congr fun id member => by simp [agree id member]
  have inside : existing.filter (· ∈ first) = existing.filter (· ∈ second) :=
    filter_congr fun id member => by simp [agree id member]
  rw [halves, halves, outside, inside]

/-- The ids of a condition that no partition holds yet. -/
def unseen (partitions : List (List Id)) (candidate : List Id) : List Id :=
  candidate.filter fun id => ∀ part ∈ partitions, id ∉ part

variable {partitions seen : List (List Id)} {possible : List Id}

theorem mem_unseen : id ∈ unseen partitions candidate ↔ id ∈ candidate ∧ ∀ part ∈ partitions, id ∉ part := by
  simp [unseen]

theorem splitLoop_done (range : List Nat) (partitions : List (List Id)) :
    splitLoop range partitions [] = .ok (partitions, []) := by
  cases range <;> simp [splitLoop]

/-- One iteration keeps a half in place and appends the other, if both are non-empty. -/
theorem splitLoop_step (front back extra : List (List Id)) (part remaining : List Id) (range : List Nat)
    (sortedPart : Ascending part) (filledPart : part ≠ []) (sorted : Ascending remaining) :
    ∃ head tail, halves remaining part = head :: tail ∧
      splitLoop (front.length :: range) (front ++ part :: back ++ extra) remaining =
        splitLoop range (front ++ [head] ++ back ++ (extra ++ tail)) (remaining.filter (· ∉ part)) := by
  have unfolded : halves remaining part = nonEmpty (part.filter (· ∉ remaining)) ++
    nonEmpty (part.filter (· ∈ remaining)) := rfl
  by_cases done : remaining = []
  · subst done
    refine ⟨part, [], by simp [halves, nonEmpty, filledPart], ?_⟩
    simp [splitLoop_done]
  have here : (front ++ part :: back ++ extra)[front.length]? = some part := by simp
  rw [splitLoop, if_neg done, here]
  simp only [extractIntersection_eq sortedPart sorted filledPart done, bind, Except.bind]
  generalize keptEq : part.filter (· ∉ remaining) = kept at *
  generalize commonEq : part.filter (· ∈ remaining) = common at *
  by_cases keptEmpty : kept = []
  · have commonFilled : common ≠ [] := by
      rintro rfl
      obtain ⟨id, member⟩ := exists_mem_of_ne_nil part filledPart
      simp_all
    exact ⟨common, [], by simp [unfolded, nonEmpty, keptEmpty, commonFilled], by simp [keptEmpty]⟩
  · by_cases commonEmpty : common = []
    · exact ⟨kept, [], by simp [unfolded, nonEmpty, keptEmpty, commonEmpty], by simp [keptEmpty, commonEmpty]⟩
    · exact ⟨kept, [common], by simp [unfolded, nonEmpty, keptEmpty, commonEmpty],
        by simp [keptEmpty, commonEmpty]⟩

/-- The inner loop replaces every partition in its range by its halves, some of them appended
at the end, and leaves in `remaining` what no partition holds. -/
theorem splitLoop_spec (front back extra : List (List Id)) (remaining : List Id)
    (sortedBack : ∀ part ∈ back, Ascending part) (filledBack : ∀ part ∈ back, part ≠ [])
    (apart : back.Pairwise List.Disjoint) (sorted : Ascending remaining) :
    ∃ result, splitLoop (List.range' front.length back.length) (front ++ back ++ extra) remaining =
        .ok (result, unseen back remaining) ∧ result.Perm (front ++ back.flatMap (halves remaining) ++ extra) := by
  induction back generalizing front extra remaining with
  | nil => exact ⟨front ++ [] ++ extra, by simp [splitLoop, unseen], by simp⟩
  | cons part back ih =>
    obtain ⟨head, tail, both, step⟩ := splitLoop_step front back extra part remaining
      (List.range' (front.length + 1) back.length) (sortedBack part (by simp)) (filledBack part (by simp)) sorted
    have ⟨apartHead, apartRest⟩ := pairwise_cons.mp apart
    obtain ⟨result, computed, perm⟩ := ih (front ++ [head]) (extra ++ tail) (remaining.filter (· ∉ part))
      (fun other member => sortedBack other (by simp [member]))
      (fun other member => filledBack other (by simp [member])) apartRest (sorted.filter _)
    -- Ids of `part` taken out of the candidate belong to no later partition.
    have later : back.flatMap (halves (remaining.filter (· ∉ part))) = back.flatMap (halves remaining) := by
      apply flatMap_congr
      intro other member
      apply halves_congr
      intro id inOther
      have outside : id ∉ part := fun inPart => apartHead other member inPart inOther
      simp [outside]
    refine ⟨result, ?_, ?_⟩
    · rw [length_cons, range'_succ, step]
      rw [length_append, length_singleton] at computed
      rw [computed, unseen, unseen, filter_filter]
      congr 2
      apply filter_congr
      simp [Bool.and_comm]
    · rw [later] at perm
      apply perm.trans
      rw [flatMap_cons, both]
      simp only [append_assoc, cons_append, nil_append]
      apply (perm_append_left_iff front).mpr
      apply List.Perm.cons
      rw [← append_assoc]
      exact perm_append_comm

/-- The partitions after some rounds: a disjoint split of the ids that some condition seen so far
holds, fine enough that each of these conditions holds all of a partition or nothing of it. -/
structure SplitBy (possible : List Id) (seen partitions : List (List Id)) : Prop where
  filled : ∀ part ∈ partitions, part ≠ []
  sorted : ∀ part ∈ partitions, Ascending part
  disjoint : partitions.Pairwise List.Disjoint
  cover : ∀ id, (∃ part ∈ partitions, id ∈ part) ↔ id ∈ possible ∧ ∃ condition ∈ seen, id ∈ condition
  uniform : ∀ part ∈ partitions, ∀ first ∈ part, ∀ second ∈ part, ∀ condition ∈ seen,
    first ∈ condition ↔ second ∈ condition

theorem SplitBy.of_perm {result : List (List Id)}
    (split : SplitBy possible seen partitions) (perm : result.Perm partitions) : SplitBy possible seen result where
  filled part member := split.filled part (perm.subset member)
  sorted part member := split.sorted part (perm.subset member)
  disjoint := (perm.pairwise_iff fun apart => disjoint_comm.mp apart).mpr split.disjoint
  cover id := by
    rw [← split.cover]
    simp only [perm.mem_iff]
  uniform part member := split.uniform part (perm.subset member)

theorem SplitBy.possible_of_mem (split : SplitBy possible seen partitions) (member : part ∈ partitions)
    (inside : id ∈ part) :
    id ∈ possible :=
  ((split.cover id).mp ⟨part, member, inside⟩).1

theorem mem_refinement {held : List Id}
    (member : part ∈ partitions.flatMap (halves held) ++ nonEmpty (unseen partitions held)) :
    (∃ old ∈ partitions, part ∈ halves held old) ∨ part = unseen partitions held ∧ part ≠ [] := by
  rw [mem_append, mem_flatMap, mem_nonEmpty] at member
  rcases member with inHalves | ⟨rfl, filled⟩
  · exact .inl inHalves
  · exact .inr ⟨rfl, filled⟩

theorem SplitBy.refine (split : SplitBy possible seen partitions) (sorted : Ascending condition) :
    SplitBy possible (seen ++ [condition]) (partitions.flatMap (halves (condition.filter (· ∈ possible))) ++
        nonEmpty (unseen partitions (condition.filter (· ∈ possible)))) where
  filled part member := by
    rcases mem_refinement member with ⟨old, _, half⟩ | ⟨_, filled⟩
    · exact (mem_halves half).1
    · exact filled
  sorted part member := by
    rcases mem_refinement member with ⟨old, inOld, half⟩ | ⟨rfl, _⟩
    · exact (split.sorted old inOld).sublist (mem_halves half).2.1
    · exact (sorted.filter _).filter _
  disjoint := by
    refine pairwise_append.mpr ⟨?_, ?_, ?_⟩
    · refine pairwise_flatMap.mpr ⟨fun old _ => halves_disjoint _ old, ?_⟩
      apply split.disjoint.imp
      intro first second apart left inLeft right inRight id idLeft idRight
      exact apart ((mem_halves inLeft).2.1.subset idLeft) ((mem_halves inRight).2.1.subset idRight)
    · unfold nonEmpty
      split <;> simp
    · intro left inLeft right inRight id idLeft idRight
      obtain ⟨old, inOld, half⟩ := mem_flatMap.mp inLeft
      rw [(mem_nonEmpty.mp inRight).1, mem_unseen] at idRight
      exact idRight.2 old inOld ((mem_halves half).2.1.subset idLeft)
  cover id := by
    simp only [mem_append, mem_singleton]
    constructor
    · rintro ⟨part, member, inside⟩
      rcases mem_refinement (mem_append.mpr member) with ⟨old, inOld, half⟩ | ⟨rfl, _⟩
      · obtain ⟨possibleId, seenCondition, inSeen, holds⟩ :=
          (split.cover id).mp ⟨old, inOld, (mem_halves half).2.1.subset inside⟩
        exact ⟨possibleId, seenCondition, .inl inSeen, holds⟩
      · have ⟨inCandidate, _⟩ := mem_unseen.mp inside
        have ⟨inCondition, inPossible⟩ := mem_filter.mp inCandidate
        exact ⟨by simpa using inPossible, condition, .inr rfl, inCondition⟩
    · rintro ⟨possibleId, other, inOther, holds⟩
      by_cases old : ∃ part ∈ partitions, id ∈ part
      · obtain ⟨part, inPart, inside⟩ := old
        obtain ⟨half, inHalf, insideHalf⟩ := halves_cover (condition.filter (· ∈ possible)) inside
        exact ⟨half, .inl (mem_flatMap.mpr ⟨part, inPart, inHalf⟩), insideHalf⟩
      · -- An id outside all partitions can only be held by the new condition.
        have inCondition : id ∈ condition := by
          rcases inOther with inSeen | rfl
          · exact absurd ((split.cover id).mpr ⟨possibleId, other, inSeen, holds⟩) old
          · exact holds
        have fresh : id ∈ unseen partitions (condition.filter (· ∈ possible)) :=
          mem_unseen.mpr ⟨by simp [inCondition, possibleId], fun part inPart inside => old ⟨part, inPart, inside⟩⟩
        exact ⟨_, .inr (mem_nonEmpty.mpr ⟨rfl, ne_nil_of_mem fresh⟩), fresh⟩
  uniform part member first inFirst second inSecond other inOther := by
    rcases mem_refinement member with ⟨old, inOld, half⟩ | ⟨rfl, _⟩
    · have ⟨_, sub, decided⟩ := mem_halves half
      have firstOld := sub.subset inFirst
      have secondOld := sub.subset inSecond
      rcases mem_push.mp inOther with inSeen | rfl
      · exact split.uniform old inOld first firstOld second secondOld other inSeen
      · have firstPossible := split.possible_of_mem inOld firstOld
        have secondPossible := split.possible_of_mem inOld secondOld
        rcases decided with outside | inside
        · have firstOutside := outside first inFirst
          have secondOutside := outside second inSecond
          simp_all
        · have firstInside := inside first inFirst
          have secondInside := inside second inSecond
          simp_all
    · -- The new partition holds ids that no earlier condition mentions.
      have fresh (id : Id) (inside : id ∈ unseen partitions (condition.filter (· ∈ possible))) :
          id ∈ condition ∧ (other ∈ seen → id ∉ other) := by
        obtain ⟨inCandidate, outside⟩ := mem_unseen.mp inside
        obtain ⟨held, possibleId⟩ := mem_filter.mp inCandidate
        refine ⟨held, fun inSeen holds => ?_⟩
        obtain ⟨part, inPart, member⟩ := (split.cover id).mpr ⟨of_decide_eq_true possibleId, other, inSeen, holds⟩
        exact outside part inPart member
      rcases mem_push.mp inOther with inSeen | rfl
      · exact iff_of_false ((fresh first inFirst).2 inSeen) ((fresh second inSecond).2 inSeen)
      · exact iff_of_true (fresh first inFirst).1 (fresh second inSecond).1

theorem splitRound_spec (split : SplitBy possible seen partitions) (sortedPossible : Ascending possible)
    (sorted : Ascending condition) : ∃ result, splitRound possible partitions condition = .ok result ∧
    SplitBy possible (seen ++ [condition]) result := by
  have walked := mergeWalk_inter condition possible [] sorted sortedPossible
  rw [nil_append] at walked
  obtain ⟨result, computed, perm⟩ := splitLoop_spec [] partitions [] (condition.filter (· ∈ possible))
    split.sorted split.filled split.disjoint (sorted.filter _)
  simp only [length_nil, nil_append, append_nil, ← range_eq_range'] at computed perm
  refine ⟨result ++ nonEmpty (unseen partitions (condition.filter (· ∈ possible))), ?_,
    (split.refine sorted).of_perm (perm.append_right _)⟩
  simp only [splitRound, walked, computed, bind, Except.bind]
  generalize unseen partitions (condition.filter (· ∈ possible)) = rest
  by_cases empty : rest = [] <;> simp [nonEmpty, empty]

/-- Run lemma of the outer loop. -/
theorem splitIntoPartitions_spec {conditions : List (List Id)}
    (sortedPossible : Ascending possible) (sorted : ∀ condition ∈ conditions, Ascending condition) :
    ∃ result, splitIntoPartitions possible conditions = .ok result ∧ SplitBy possible conditions result := by
  unfold splitIntoPartitions
  induction conditions using List.reverseRecOn with
  | nil => exact ⟨[], rfl, by constructor <;> simp⟩
  | append_singleton conditions condition ih =>
    obtain ⟨partitions, computed, split⟩ := ih fun other member => sorted other (mem_append_left _ member)
    obtain ⟨result, finished, splitResult⟩ := splitRound_spec split sortedPossible (sorted condition (by simp))
    refine ⟨result, ?_, splitResult⟩
    rw [foldlM_append]
    exact bind_eq_ok.mpr ⟨partitions, computed, bind_eq_ok.mpr ⟨result, finished, rfl⟩⟩

theorem firstCommon_spec (lefts rights passed : List Id) (sortedLeft : Ascending lefts)
    (sortedRight : Ascending rights) :
    let (skipped, restLeft, restRight) := firstCommon lefts rights passed
    skipped ++ restLeft.filter (· ∉ restRight) = passed ++ lefts.filter (· ∉ rights) ∧
      skipped ++ restLeft = passed ++ lefts ∧ Ascending restLeft ∧ Ascending restRight := by
  fun_induction firstCommon lefts rights passed with
  | case1 left lefts right rights passed order ih =>
    rw [diff_cons_left sortedRight (compare_lt_iff_lt.mp order)]
    simpa using ih sortedLeft.tail sortedRight
  | case2 left lefts right rights passed order ih =>
    rw [diff_drop_right sortedLeft (compare_gt_iff_gt.mp order)]
    exact ih sortedLeft sortedRight.tail
  | case3 left lefts right rights passed order
  | case4 lefts rights passed stopped => exact ⟨rfl, rfl, sortedLeft, sortedRight⟩

theorem removeSubset_eq {remaining subset : List Id} (sorted : Ascending remaining)
    (sortedSubset : Ascending subset) : removeSubset remaining subset = remaining.filter (· ∉ subset) := by
  have located := firstCommon_spec remaining subset [] sorted sortedSubset
  unfold removeSubset
  generalize firstCommon remaining subset [] = cursor at located
  obtain ⟨skipped, restLeft, restRight⟩ := cursor
  simp only [nil_append] at located
  obtain ⟨diff, whole, sortedLeft, sortedRight⟩ := located
  dsimp only
  split
  · next exhausted =>
    -- Either cursor being exhausted means that nothing was found to remove.
    rw [← diff, ← whole]
    rcases exhausted with rfl | rfl <;> simp
  · rw [mergeWalk_diff restLeft restRight skipped sortedLeft sortedRight, diff]

theorem computeRemainingPartition_eq {subsets : List (List Id)}
    (sorted : Ascending possible) (sortedSubsets : ∀ subset ∈ subsets, Ascending subset) :
    computeRemainingPartition possible subsets = Partition.fromVec (unseen subsets possible) := by
  unfold computeRemainingPartition
  congr 1
  induction subsets generalizing possible with
  | nil => simp [unseen]
  | cons subset subsets ih =>
    rw [foldl_cons, removeSubset_eq sorted (sortedSubsets subset (by simp)),
      ih (sorted.filter _) fun other member => sortedSubsets other (by simp [member]), unseen, unseen,
      filter_filter]
    apply filter_congr
    simp [Bool.and_comm]

end Grafbase.Operation.Blueprint
