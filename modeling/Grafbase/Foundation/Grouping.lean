import Grafbase.Foundation.Entries
import Grafbase.Foundation.StableSort

/-! Grouping by a key: a stable sort, then runs of equal keys.

Sorting does not change the order of elements of one key. When different keys
have different ranks, the runs of the sorted list are the classes of the
original one.
-/

set_option autoImplicit false
namespace Grafbase.Foundation
open List
variable {α β κ : Type} {key : α → κ} {rank : κ → Nat} {items group : List α}

/-- `sort_by_key` for a key that is ranked. -/
def sortByRank (key : α → κ) (rank : κ → Nat) (items : List α) : List α :=
  items.insertionSort fun first second => rank (key first) ≤ rank (key second)

theorem mem_sortByRank {item : α} : item ∈ sortByRank key rank items ↔ item ∈ items := mem_sortByKey

theorem sorted_sortByRank (items : List α) :
    (sortByRank key rank items).Pairwise fun first second => rank (key first) ≤ rank (key second) :=
  pairwise_sortByKey items

/-- No two keys in the list share a rank. -/
def Ranked (key : α → κ) (rank : κ → Nat) (items : List α) : Prop :=
  ∀ first ∈ items, ∀ second ∈ items, rank (key first) = rank (key second) → key first = key second

theorem Ranked.sortByRank (ranked : Ranked key rank items) :
    Ranked key rank (sortByRank key rank items) := fun first firstMember second secondMember =>
  ranked first (mem_sortByRank.mp firstMember) second (mem_sortByRank.mp secondMember)

variable [DecidableEq κ]

def runs (key : α → κ) : List α → List (List α)
  | [] => []
  | first :: rest =>
    (first :: rest.takeWhile fun item => key item = key first) :: runs key
      (rest.dropWhile fun item => key item = key first)
termination_by items => items.length
decreasing_by
  have := (dropWhile_sublist (l := rest) fun item => decide (key item = key first)).length_le
  simp only [length_cons]
  omega

def groupByRank (key : α → κ) (rank : κ → Nat) (items : List α) : List (List α) := runs key (sortByRank key rank items)

/-- Sorting keeps the order of the elements of one key. -/
theorem filter_sortByRank (key : α → κ) (rank : κ → Nat) (wanted : κ) (items : List α) :
    (sortByRank key rank items).filter (fun other => key other = wanted) =
      items.filter fun other => key other = wanted := by
  refine filter_sortByKey_of items fun first second isFirst isSecond => ?_
  rw [of_decide_eq_true isFirst, of_decide_eq_true isSecond]

/-- In a sorted list, the elements of the first key come first. -/
theorem ordered_of_sorted {first : α} {rest : List α} (ranked : Ranked key rank (first :: rest))
    (sorted : (first :: rest).Pairwise fun one two => rank (key one) ≤ rank (key two)) :
    rest.Pairwise fun one two => decide (key two = key first) = true → decide (key one = key first) = true := by
  obtain ⟨least, sortedRest⟩ := pairwise_cons.mp sorted
  refine pairwise_iff_forall_sublist.mpr fun {one two} sublist => ?_
  have atMost := pairwise_iff_forall_sublist.mp sortedRest sublist
  have isMember := sublist.subset (show one ∈ [one, two] by simp)
  simp only [decide_eq_true_eq]
  intro same
  apply ranked one (by simp [isMember]) first (by simp)
  exact Nat.le_antisymm (same ▸ atMost) (least one isMember)

theorem mem_runs_of_sorted (ranked : Ranked key rank items)
    (sorted : items.Pairwise fun first second => rank (key first) ≤ rank (key second)) :
    group ∈ runs key items ↔ ∃ item ∈ items, group = items.filter fun other => key other = key item := by
  fun_induction runs key items with
  | case1 => simp
  | case2 first rest ih =>
    have ordered := ordered_of_sorted ranked sorted
    have back := dropWhile_eq_filter_of_ordered ordered
    have later := ih (fun one oneMember two twoMember => ranked one (by simp_all) two (by simp_all))
      ((pairwise_cons.mp sorted).2.sublist (dropWhile_sublist _))
    rw [mem_cons, takeWhile_eq_filter_of_ordered ordered, later, back]
    -- The classes of the rest are those of the other keys.
    have others (item : α) (other : key item ≠ key first) :
        (rest.filter fun item => !decide (key item = key first)).filter (fun other => key other = key item) =
          (first :: rest).filter fun other => key other = key item := by
      rw [filter_filter, filter_cons_of_neg (by simpa using Ne.symm other)]
      apply filter_congr
      intro one _
      by_cases same : key one = key item
      · simp [same, other]
      · simp [same]
    constructor
    · rintro (rfl | ⟨item, member, rfl⟩)
      · exact ⟨first, by simp, by simp⟩
      · obtain ⟨inRest, isOther⟩ := mem_filter.mp member
        exact ⟨item, by simp [inRest], others item (by simpa using isOther)⟩
    · rintro ⟨item, member, rfl⟩
      by_cases same : key item = key first
      · exact .inl (by simp [same])
      · refine .inr ⟨item, mem_filter.mpr ⟨?_, by simpa using same⟩, (others item same).symm⟩
        rcases mem_cons.mp member with rfl | inRest
        · exact absurd rfl same
        · exact inRest

theorem pairwise_runs_of_sorted (ranked : Ranked key rank items)
    (sorted : items.Pairwise fun first second => rank (key first) ≤ rank (key second)) :
    (runs key items).Pairwise fun one two => ∀ item ∈ one, ∀ other ∈ two, key item ≠ key other := by
  fun_induction runs key items with
  | case1 => exact .nil
  | case2 first rest ih =>
    have ordered := ordered_of_sorted ranked sorted
    have behind := dropWhile_sublist (l := rest) fun item => decide (key item = key first)
    have stillRanked : Ranked key rank (rest.dropWhile fun item => key item = key first) :=
      fun one oneMember two twoMember =>
      ranked one (by simp [behind.subset oneMember]) two (by simp [behind.subset twoMember])
    have stillSorted := (pairwise_cons.mp sorted).2.sublist behind
    refine pairwise_cons.mpr ⟨fun group isGroup item member other inGroup same => ?_, ih stillRanked stillSorted⟩
    have isFirst : key item = key first := by
      rcases mem_cons.mp member with rfl | inRun
      · rfl
      · rw [takeWhile_eq_filter_of_ordered ordered] at inRun
        exact of_decide_eq_true (mem_filter.mp inRun).2
    -- A later run is made of what is behind the first one.
    obtain ⟨_, _, rfl⟩ := (mem_runs_of_sorted stillRanked stillSorted).mp isGroup
    have isBehind := (mem_filter.mp inGroup).1
    rw [dropWhile_eq_filter_of_ordered ordered] at isBehind
    simpa [← same, isFirst] using (mem_filter.mp isBehind).2

theorem mem_groupByRank (ranked : Ranked key rank items) :
    group ∈ groupByRank key rank items ↔ ∃ item ∈ items, group = items.filter fun other => key other = key item := by
  rw [groupByRank, mem_runs_of_sorted ranked.sortByRank (sorted_sortByRank items)]
  simp only [mem_sortByRank, filter_sortByRank]

/-- Where keys are distinct, a key has at most one element among the sorted ones. -/
theorem filter_map_sortByRank (distinct : (items.map key).Nodup) (name : β → κ) (wrap : α → β)
    (named : ∀ item, name (wrap item) = key item) (wanted : κ) :
    ((sortByRank key rank items).map wrap).filter (fun wrapped => name wrapped = wanted) =
      ((items.find? fun item => key item = wanted).map wrap).toList := by
  have sorted := (filter_sortByRank key rank wanted items).trans (filter_eq_toList_find? distinct wanted)
  have sameTest : (fun wrapped => decide (name wrapped = wanted)) ∘ wrap = fun item => decide (key item = wanted) := by
    funext item
    simp [named]
  rw [filter_map, sameTest, sorted]
  cases items.find? fun item => decide (key item = wanted) <;> rfl

section Owners
variable {owners : List β} {owned : β → List α} {find : κ → β → Option α}
  (found : ∀ owner ∈ owners, ∀ wanted, (owned owner).filter
    (fun item => key item = wanted) = (find wanted owner).toList)
include found

theorem filter_flatMap_owned (wanted : κ) :
    (owners.flatMap owned).filter (fun item => key item = wanted) = owners.filterMap (find wanted) := by
  induction owners with
  | nil => rfl
  | cons owner rest ih =>
    obtain ⟨here, later⟩ := forall_mem_cons.mp found
    rw [flatMap_cons, filter_append, ih later, here, filterMap_cons]
    cases find wanted owner <;> rfl

/-- The groups of what several owners have under their keys. -/
theorem mem_groupByRank_flatMap (ranked : Ranked key rank (owners.flatMap owned)) :
    group ∈ groupByRank key rank (owners.flatMap owned) ↔
      ∃ wanted, owners.filterMap (find wanted) ≠ [] ∧ group = owners.filterMap (find wanted) := by
  rw [mem_groupByRank ranked]
  constructor
  · rintro ⟨item, member, rfl⟩
    rw [filter_flatMap_owned found]
    refine ⟨key item, ne_nil_of_mem (a := item) ?_, rfl⟩
    rw [← filter_flatMap_owned found]
    exact mem_filter.mpr ⟨member, by simp⟩
  · rintro ⟨wanted, nonEmpty, rfl⟩
    obtain ⟨item, member⟩ := exists_mem_of_ne_nil _ nonEmpty
    rw [← filter_flatMap_owned found] at member ⊢
    obtain ⟨inItems, named⟩ := mem_filter.mp member
    obtain rfl : key item = wanted := by simpa using named
    exact ⟨item, inItems, rfl⟩

end Owners

end Grafbase.Foundation
