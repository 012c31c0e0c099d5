import Grafbase.Foundation.Slices
import Grafbase.Foundation.SortedLists
import Mathlib.Data.Nat.Count

/-! Sequences with some positions left out, and tables searched by their keys.

An element that is kept moves to the number of positions kept before its own,
which is its own less the number of positions left out before it. The rows of a
key in a sorted table are those that lie together at its insertion point.
-/

set_option autoImplicit false

namespace Grafbase.Foundation
open List
variable {α : Type}

section Compact
variable (keep : Nat → Prop) [DecidablePred keep]

/-- The elements to keep with their positions, which are counted from `start`. -/
def keptFrom (start : Nat) (items : List α) : List (α × Nat) := (items.zipIdx start).filter fun entry => keep entry.2

abbrev kept (items : List α) : List (α × Nat) := keptFrom keep 0 items

theorem keptFrom_append (start : Nat) (front back : List α) : keptFrom keep start (front ++ back) =
      keptFrom keep start front ++ keptFrom keep (start + front.length) back := by
  simp [keptFrom, zipIdx_append]

theorem keptFrom_cons (start : Nat) (item : α) (rest : List α) : keptFrom keep start (item :: rest) =
      if keep start then (item, start) :: keptFrom keep (start + 1) rest else keptFrom keep (start + 1) rest := by
  by_cases keeps : keep start <;> simp [keptFrom, zipIdx_cons, keeps]

theorem length_keptFrom (start : Nat) (items : List α) :
    Nat.count keep start + (keptFrom keep start items).length = Nat.count keep (start + items.length) := by
  induction items generalizing start with
  | nil => rfl
  | cons item rest ih =>
    have later := ih (start + 1)
    rw [Nat.count_succ] at later
    rw [keptFrom_cons, length_cons, show start + (rest.length + 1) = start + 1 + rest.length by omega, ← later]
    split
    · rw [length_cons]
      omega
    · omega

theorem length_kept (items : List α) : (kept keep items).length = Nat.count keep items.length := by
  simpa using length_keptFrom keep 0 items

variable {keep}

theorem getElem?_kept {items : List α} {position : Nat} {item : α} (keeps : keep position)
    (found : items[position]? = some item) : (kept keep items)[Nat.count keep position]? = some (item, position) := by
  obtain ⟨inside, rfl⟩ := List.getElem?_eq_some_iff.mp found
  have front : (items.take position).length = position := length_take_of_le (Nat.le_of_lt inside)
  have split : kept keep items = kept keep (items.take position) ++
      (items[position], position) :: keptFrom keep (position + 1) (items.drop (position + 1)) := by
    conv_lhs => rw [← take_append_drop position items, drop_eq_getElem_cons inside]
    rw [kept, keptFrom_append, keptFrom_cons, front, Nat.zero_add, if_pos keeps]
  have before : (kept keep (items.take position)).length = Nat.count keep position := by rw [length_kept, front]
  rw [split, ← before, getElem?_append_right (Nat.le_refl _), Nat.sub_self]
  rfl

/-- The positions that are kept in a range move to the range between the counts of its bounds. -/
theorem forall₂_kept (start : Nat) (items : List α) :
    List.Forall₂ (fun entry target => keep entry.2 ∧ Nat.count keep entry.2 = target)
      (keptFrom keep start items)
      (List.range' (Nat.count keep start) (Nat.count keep (start + items.length) - Nat.count keep start)) := by
  induction items generalizing start with
  | nil => simp [keptFrom]
  | cons item rest ih =>
    have later := ih (start + 1)
    have grows : Nat.count keep (start + 1) ≤ Nat.count keep (start + 1 + rest.length) :=
      Nat.count_monotone keep (Nat.le_add_right _ _)
    rw [keptFrom_cons, length_cons, show start + (rest.length + 1) = start + 1 + rest.length by omega]
    by_cases keeps : keep start
    · have next : Nat.count keep (start + 1) = Nat.count keep start + 1 := Nat.count_succ_eq_succ_count_iff.mpr keeps
      rw [if_pos keeps, show Nat.count keep (start + 1 + rest.length) - Nat.count keep start =
          Nat.count keep (start + 1 + rest.length) - Nat.count keep (start + 1) + 1 by omega, range'_succ, ← next]
      exact .cons ⟨keeps, rfl⟩ later
    · have same : Nat.count keep (start + 1) = Nat.count keep start := Nat.count_succ_eq_count_iff.mpr keeps
      rw [if_neg keeps, ← same]
      exact later

end Compact

section Skipping
variable {below : α → Bool} {items : List α}

theorem take_partitionPoint (ordered : items.Pairwise fun first second => below second = true → below first = true) :
    items.take (partitionPoint below items) = items.filter below := by
  rw [← takeWhile_eq_filter_of_ordered ordered]
  have whole := (take_append_drop (partitionPoint below items) items).trans
    (takeWhile_append_dropWhile (p := below)).symm
  rw [drop_partitionPoint ordered] at whole
  exact append_cancel_right whole

theorem binarySearchLoop_miss_le {classify : α → Ordering} {left right index : Nat} (window : left ≤ right)
    (miss : binarySearchLoop classify items left right = .error index) : index ≤ right := by
  fun_induction binarySearchLoop classify items left right with
  | case1 | case5 => cases miss; exact window
  | case2 => cases miss
  | case3 left right active mid probe found low ih => exact ih (by omega) miss
  | case4 left right active mid probe found high ih => exact (ih (by omega) miss).trans (by omega)

theorem partitionPoint_le_length (below : α → Bool) (items : List α) : partitionPoint below items ≤ items.length := by
  rw [partitionPoint]
  cases result : binarySearchBy (fun item => if below item then .lt else .gt) items with
  | ok index =>
    obtain ⟨_, held, _⟩ := binarySearchLoop_hit result
    exact (index_lt held).le
  | error index => exact binarySearchLoop_miss_le (Nat.zero_le _) result

theorem partitionPoint_eq_length
    (ordered : items.Pairwise fun first second => below second = true → below first = true) :
    partitionPoint below items = (items.filter below).length := by
  rw [← take_partitionPoint ordered, length_take_of_le (partitionPoint_le_length below items)]

/-- What is documented of `<[T]>::partition_point`: the result is meaningful for partitioned slices only. -/
def IsPartitionPoint (point : (α → Bool) → List α → Nat) : Prop :=
  ∀ below items, point below items ≤ items.length ∧
    ((items.Pairwise fun first second => below second = true → below first = true) →
      items.drop (point below items) = items.dropWhile below)

theorem isPartitionPoint_partitionPoint : IsPartitionPoint (partitionPoint (α := α)) :=
  fun below items => ⟨partitionPoint_le_length below items, drop_partitionPoint⟩

variable {skipped : List Nat}

theorem count_skipped (ascending : Ascending skipped) (bound : Nat) :
    Nat.count (· ∈ skipped) bound = (skipped.filter (· < bound)).length := by
  rw [Nat.count_eq_card_filter_range, ← toFinset_card_of_nodup (ascending.nodup.filter _)]
  congr 1
  ext position
  simp [and_comm]

theorem count_kept_add (ascending : Ascending skipped) (bound : Nat) :
    Nat.count (· ∉ skipped) bound + (skipped.filter (· < bound)).length = bound := by
  rw [← count_skipped ascending]
  induction bound with
  | zero => rfl
  | succ bound ih =>
    rw [Nat.count_succ, Nat.count_succ]
    by_cases member : bound ∈ skipped
    · rw [if_neg (not_not.mpr member), if_pos member]
      omega
    · rw [if_pos member, if_neg member]
      omega

end Skipping

theorem zipIdx_takeWhile (test : α → Bool) (items : List α) (start : Nat) :
    (items.zipIdx start).takeWhile (fun entry => test entry.1) = (items.takeWhile test).zipIdx start := by
  induction items generalizing start with
  | nil => rfl
  | cons item rest ih => by_cases holds : test item = true <;> simp [holds, ih]

theorem zipIdx_dropWhile (test : α → Bool) (items : List α) (start : Nat) :
    (items.zipIdx start).dropWhile (fun entry => test entry.1) =
      (items.dropWhile test).zipIdx (start + (items.takeWhile test).length) := by
  induction items generalizing start with
  | nil => rfl
  | cons item rest ih =>
    by_cases holds : test item = true
    · simp [holds, ih, Nat.add_assoc, Nat.add_comm 1]
    · simp [holds]

section Rows
variable (key : α → Nat)

abbrev SortedBy (table : List α) : Prop := table.Pairwise fun first second => key first ≤ key second

/-- The rows from the insertion point of a key on, with their positions, as long as they have the key. -/
def rowsOf (target : Nat) (table : List α) : List (α × Nat) :=
  let start := partitionPoint (fun row => key row < target) table
  ((table.drop start).takeWhile fun row => key row = target).zipIdx start

variable {key}

theorem rowsOf_eq {table : List α} (sorted : SortedBy key table) (target : Nat) :
    rowsOf key target table = table.zipIdx.filter fun entry => key entry.1 = target := by
  have ordered : table.Pairwise fun first second =>
      decide (key second < target) = true → decide (key first < target) = true :=
    sorted.imp fun le below => by simpa using Nat.lt_of_le_of_lt le (by simpa using below)
  have start := partitionPoint_eq_length ordered
  rw [← takeWhile_eq_filter_of_ordered ordered] at start
  have sortedEntries : table.zipIdx.Pairwise fun first second => key first.1 ≤ key second.1 := by
    rwa [SortedBy, ← List.zipIdx_map_fst 0 table, List.pairwise_map] at sorted
  rw [← takeWhile_dropWhile_eq_filter (fun entry : α × Nat => key entry.1) target sortedEntries,
    zipIdx_dropWhile (fun row => decide (key row < target)), zipIdx_takeWhile (fun row => decide (key row = target)),
    rowsOf, drop_partitionPoint ordered, start, Nat.zero_add]

end Rows

end Grafbase.Foundation
