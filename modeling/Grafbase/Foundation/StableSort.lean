import Mathlib.Data.List.Sort

/-! Stable sorting by a key, and what it forgets.

A stable sort is determined by the sublists of the elements of one key. It
forgets the order of a list if and only if elements of the same key are equal.
-/

set_option autoImplicit false

namespace Grafbase.Foundation
open List
variable {α β κ : Type} [LinearOrder κ]

/-- `sort_by` with a comparison of keys. -/
def sortByKey (key : α → κ) (items : List α) : List α := items.insertionSort fun first second => key first ≤ key second

section Keys
variable (key : α → κ)

theorem perm_sortByKey (items : List α) : (sortByKey key items).Perm items := perm_insertionSort _ items

variable {key} {items others : List α}

@[simp] theorem mem_sortByKey {item : α} : item ∈ sortByKey key items ↔ item ∈ items :=
  (perm_sortByKey key items).mem_iff

theorem pairwise_sortByKey (items : List α) :
    (sortByKey key items).Pairwise fun first second => key first ≤ key second :=
  let _ : Std.Total fun first second : α => key first ≤ key second :=
    ⟨fun first second => le_total (key first) (key second)⟩
  let _ : IsTrans α fun first second => key first ≤ key second := ⟨fun _ _ _ => le_trans⟩
  pairwise_insertionSort _ items

theorem sortByKey_of_pairwise (sorted : items.Pairwise fun first second => key first ≤ key second) :
    sortByKey key items = items :=
  List.Pairwise.insertionSort_eq sorted

/-- Sorting keeps the order of elements that are not told apart by their keys. -/
theorem filter_sortByKey_of {wanted : α → Bool} (items : List α)
    (alike : ∀ first second, wanted first = true → wanted second = true → key first ≤ key second) :
    (sortByKey key items).filter wanted = items.filter wanted := by
  have insert (item : α) (others : List α) :
      (others.orderedInsert (fun first second => key first ≤ key second) item).filter wanted =
        (item :: others).filter wanted := by
    induction others with
    | nil => rfl
    | cons first rest ih =>
      rw [orderedInsert_cons]
      split
      · rfl
      · next later =>
        -- The item and what it is moved past are not both wanted.
        rw [filter_cons, ih]
        by_cases isWanted : wanted first = true
        · have notItem : ¬ wanted item = true := fun wantedItem => later (alike item first wantedItem isWanted)
          simp [isWanted, notItem]
        · simp [filter_cons, isWanted]
  induction items with
  | nil => rfl
  | cons item rest ih =>
    rw [sortByKey, insertionSort_cons, insert, filter_cons, filter_cons]
    rw [sortByKey] at ih
    rw [ih]

theorem filter_sortByKey (wanted : κ) (items : List α) :
    (sortByKey key items).filter (fun item => key item = wanted) = items.filter fun item => key item = wanted :=
  filter_sortByKey_of items fun _ _ isFirst isSecond =>
    ((of_decide_eq_true isFirst).trans (of_decide_eq_true isSecond).symm).le

theorem head_le_of_filter {first second : α} {rest more : List α}
    (sorted : (first :: rest).Pairwise fun first second => key first ≤ key second) (same : ∀ wanted,
      (first :: rest).filter (fun item => key item = wanted) = (second :: more).filter fun item => key item = wanted) :
    key first ≤ key second := by
  have found : second ∈ (first :: rest).filter fun item => key item = key second := by
    rw [same]
    simp
  rcases mem_cons.mp (mem_filter.mp found).1 with rfl | later
  · exact le_refl _
  · exact (pairwise_cons.mp sorted).1 second later

/-- Sorted lists are equal when they have the same elements of each key in the same order. -/
theorem eq_of_pairwise_of_filter (sorted : items.Pairwise fun first second => key first ≤ key second)
    (otherSorted : others.Pairwise fun first second => key first ≤ key second)
    (same : ∀ wanted, items.filter (fun item => key item = wanted) = others.filter fun item => key item = wanted) :
    items = others := by
  induction items generalizing others with
  | nil =>
    refine (eq_nil_iff_forall_not_mem.mpr fun other member => ?_).symm
    have found : other ∈ others.filter fun item => key item = key other := by simp [member]
    rw [← same] at found
    cases found
  | cons item rest ih =>
    cases others with
    | nil =>
      have absent := same (key item)
      simp at absent
    | cons other others =>
      have sameKey : key item = key other :=
        le_antisymm (head_le_of_filter sorted same) (head_le_of_filter otherSorted fun wanted => (same wanted).symm)
      have heads := same (key other)
      rw [filter_cons_of_pos (by simpa using sameKey), filter_cons_of_pos (by simp)] at heads
      obtain ⟨rfl, _⟩ := List.cons.inj heads
      refine congrArg (item :: ·) (ih (pairwise_cons.mp sorted).2 (pairwise_cons.mp otherSorted).2 fun wanted => ?_)
      have tails := same wanted
      by_cases isWanted : key item = wanted
      · rw [filter_cons_of_pos (by simpa using isWanted), filter_cons_of_pos (by simpa using isWanted)] at tails
        exact (List.cons.inj tails).2
      · rwa [filter_cons_of_neg (by simpa using isWanted), filter_cons_of_neg (by simpa using isWanted)] at tails

theorem sortByKey_eq_iff : sortByKey key items = sortByKey key others ↔
      ∀ wanted, items.filter (fun item => key item = wanted) = others.filter fun item => key item = wanted := by
  constructor
  · intro same wanted
    rw [← filter_sortByKey, same, filter_sortByKey]
  · intro same
    refine eq_of_pairwise_of_filter (pairwise_sortByKey items) (pairwise_sortByKey others) fun wanted => ?_
    rw [filter_sortByKey, filter_sortByKey, same]

theorem sortByKey_sortByKey (items : List α) : sortByKey key (sortByKey key items) = sortByKey key items :=
  sortByKey_of_pairwise (pairwise_sortByKey items)

theorem map_sortByKey {image : β → κ} (convert : α → β) (keeps : ∀ item, image (convert item) = key item)
    (items : List α) :
    (sortByKey key items).map convert = sortByKey image (items.map convert) :=
  map_insertionSort _ _ convert items fun first _ second _ => by rw [keeps, keeps]

/-- The first element of a key is the first one in the sorted list. -/
theorem head_of_sortByKey_eq {first second : α} {rest more : List α}
    (same : sortByKey key (first :: rest) = sortByKey key (second :: more)) (sameKey : key first = key second) :
    first = second := by
  have equal := sortByKey_eq_iff.mp same (key second)
  rw [filter_cons_of_pos (by simpa using sameKey), filter_cons_of_pos (by simp)] at equal
  exact (List.cons.inj equal).1

/-- The order of a list is forgotten when different elements have different keys. -/
theorem sortByKey_eq_of_perm (perm : items.Perm others)
    (ties : ∀ first ∈ items, ∀ second ∈ items, key first = key second → first = second) :
    sortByKey key items = sortByKey key others := by
  refine sortByKey_eq_iff.mpr fun wanted => ?_
  have filtered := perm.filter fun item => key item = wanted
  cases found : items.filter fun item => key item = wanted with
  | nil =>
    rw [found] at filtered
    exact filtered.nil_eq
  | cons item rest =>
    have isItem := mem_filter.mp (found ▸ mem_cons_self .. : item ∈ items.filter fun item => key item = wanted)
    -- All elements of the key are the same one.
    have all : items.filter (fun item => key item = wanted) = List.replicate (rest.length + 1) item := by
      refine eq_replicate_iff.mpr ⟨by rw [found, length_cons], fun other member => ?_⟩
      obtain ⟨isOther, otherKey⟩ := mem_filter.mp member
      refine ties other isOther item isItem.1 ?_
      rw [of_decide_eq_true otherKey, of_decide_eq_true isItem.2]
    rw [← found, all]
    rw [all] at filtered
    exact (perm_replicate.mp filtered.symm).symm

end Keys

/-- A list whose elements are reordered and then replaced by similar ones. -/
inductive Rearranged (similar : α → α → Prop) : List α → List α → Prop where
  | nil : Rearranged similar [] []
  | cons {first second : α} {items others : List α} (head : similar first second)
    (tail : Rearranged similar items others) :
      Rearranged similar (first :: items) (second :: others)
  | reorder {items middle others : List α} (perm : items.Perm middle) (rest : Rearranged similar middle others) :
      Rearranged similar items others

namespace Rearranged
variable {similar : α → α → Prop} {items others : List α}

theorem of_forall₂ (each : List.Forall₂ similar items others) : Rearranged similar items others := by
  induction each with
  | nil => exact .nil
  | cons head _ ih => exact .cons head ih

theorem exists_perm (rearranged : Rearranged similar items others) :
    ∃ middle, items.Perm middle ∧ List.Forall₂ similar middle others := by
  induction rearranged with
  | nil => exact ⟨[], .nil, .nil⟩
  | cons head _ ih =>
    obtain ⟨middle, perm, each⟩ := ih
    exact ⟨_, perm.cons _, .cons head each⟩
  | reorder perm _ ih =>
    obtain ⟨middle, rest, each⟩ := ih
    exact ⟨middle, perm.trans rest, each⟩

theorem refl_of (each : ∀ item ∈ items, similar item item) : Rearranged similar items items :=
  of_forall₂ (forall₂_same.mpr each)

theorem of_perm (refl : ∀ item, similar item item) (perm : items.Perm others) : Rearranged similar items others :=
  .reorder perm (refl_of fun item _ => refl item)

/-- What is invariant for each element is invariant for the list. -/
theorem exists_iff {holds : α → Prop} (rearranged : Rearranged similar items others)
    (each : ∀ item ∈ items, ∀ other, similar item other → (holds item ↔ holds other)) :
    (∃ item ∈ items, holds item) ↔ ∃ other ∈ others, holds other := by
  induction rearranged with
  | nil => rfl
  | cons head _ ih =>
    obtain ⟨here, later⟩ := forall_mem_cons.mp each
    simp [here _ head, ih later]
  | reorder perm _ ih =>
    rw [← ih fun item member => each item (perm.mem_iff.mpr member)]
    exact exists_congr fun item => and_congr_left fun _ => perm.mem_iff

/-- Sorting normal forms is a rearrangement. -/
theorem sort_normal {normal : α → α} {key : α → κ} (keeps : ∀ item, key (normal item) = key item)
    (each : ∀ item ∈ items, similar item (normal item)) :
    Rearranged similar items (sortByKey key (items.map normal)) := by
  rw [← map_sortByKey normal keeps]
  refine .reorder (perm_sortByKey key items).symm (of_forall₂ (forall₂_map_right_iff.mpr ?_))
  exact forall₂_same.mpr fun item member => each item (mem_sortByKey.mp member)

end Rearranged

theorem sortByKey_map_idem {normal : α → α} {key : α → κ} (keeps : ∀ item, key (normal item) = key item)
    {items : List α}
    (each : ∀ item ∈ items, normal (normal item) = normal item) :
    sortByKey key ((sortByKey key (items.map normal)).map normal) = sortByKey key (items.map normal) := by
  rw [map_sortByKey normal keeps, sortByKey_sortByKey, map_map]
  exact congrArg _ (map_congr_left each)

/-- Sorting normal forms forgets a rearrangement if and only if each element has one normal form only, and different
normal forms have different keys. -/
theorem sortByKey_stable_iff {similar : α → α → Prop} {normal : α → β} {key : β → κ} (refl : ∀ item, similar item item)
    (keeps : ∀ first second, similar first second → key (normal second) = key (normal first)) (items : List α) :
    (∀ others, Rearranged similar items others → sortByKey key (others.map normal) = sortByKey key (items.map normal)) ↔
      (∀ item ∈ items, ∀ other, similar item other → normal other = normal item) ∧
      ∀ first ∈ items, ∀ second ∈ items, key (normal first) = key (normal second) → normal first = normal second := by
  constructor
  · intro stable
    -- The element and the one that takes its place come first, so they are the first of their key.
    have ahead {first second : α} {rest others : List α} (perm : items.Perm (first :: rest))
        (rearranged : Rearranged similar items (second :: others))
          (sameKey : key (normal second) = key (normal first)) :
        normal second = normal first := by
      have same : sortByKey key (normal second :: others.map normal) =
          sortByKey key (normal first :: rest.map normal) :=
        (stable _ rearranged).trans (stable _ (Rearranged.of_perm refl perm)).symm
      exact head_of_sortByKey_eq same sameKey
    refine ⟨fun item member other here => ?_, fun first member second otherMember sameKey => ?_⟩
    · obtain ⟨before, after, rfl⟩ := append_of_mem member
      have perm : (before ++ item :: after).Perm (item :: (before ++ after)) := perm_middle
      exact ahead perm (.reorder perm (.cons here (Rearranged.refl_of fun other _ => refl other)))
        (keeps item other here)
    · obtain ⟨before, after, split⟩ := append_of_mem member
      obtain ⟨otherBefore, otherAfter, otherSplit⟩ := append_of_mem otherMember
      have perm : items.Perm (first :: (before ++ after)) := split ▸ perm_middle
      have otherPerm : items.Perm (second :: (otherBefore ++ otherAfter)) := otherSplit ▸ perm_middle
      exact ahead otherPerm (Rearranged.of_perm refl perm) sameKey
  · rintro ⟨invariant, ties⟩ others rearranged
    obtain ⟨middle, perm, each⟩ := rearranged.exists_perm
    have normals : others.map normal = middle.map normal := by
      have invariantMiddle : ∀ item ∈ middle, ∀ other, similar item other → normal other = normal item :=
        fun item member => invariant item (perm.mem_iff.mpr member)
      clear perm rearranged
      induction each with
      | nil => rfl
      | cons head _ ih =>
        obtain ⟨here, later⟩ := forall_mem_cons.mp invariantMiddle
        rw [map_cons, map_cons, here _ head, ih later]
    rw [normals]
    exact sortByKey_eq_of_perm (perm.symm.map normal) fun first member second otherMember sameKey => by
      obtain ⟨item, isItem, rfl⟩ := mem_map.mp member
      obtain ⟨other, isOther, rfl⟩ := mem_map.mp otherMember
      exact ties item (perm.mem_iff.mpr isItem) other (perm.mem_iff.mpr isOther) sameKey

end Grafbase.Foundation
