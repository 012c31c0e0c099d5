import Mathlib.Data.List.Chain
import Mathlib.Order.Lattice

/-! Set operations on strictly ascending lists by two cursors.

A cursor is the suffix it has not read yet. `mergeWalk` advances the cursor that
holds the smaller element, or both at a common one, and stops when either runs
out. The in-place variant overwrites a prefix of the buffer it is reading;
`Compacting` relates such a buffer to the elements kept and the elements left.
-/

set_option autoImplicit false

namespace Grafbase.Foundation
open List
variable {α σ : Type}

/-- Strictly ascending, hence without repetition. -/
abbrev Ascending [LinearOrder α] (items : List α) : Prop := items.Pairwise (· < ·)

theorem ascending_concat [LinearOrder α] {items : List α} {item : α} (ascending : Ascending items) :
    Ascending (items ++ [item]) ↔ ∀ last ∈ items.getLast?, last < item := by
  rw [Ascending, ← isChain_iff_pairwise, isChain_append, isChain_iff_pairwise]
  simp [ascending]

section Walk
variable [LinearOrder α]

/-- The accumulator and both cursors when one of them is exhausted. -/
def mergeWalk (less greater equal : σ → α → σ) : List α → List α → σ → σ × List α × List α
  | left :: lefts, right :: rights, state =>
    match compare left right with
    | .lt => mergeWalk less greater equal lefts (right :: rights) (less state left)
    | .gt => mergeWalk less greater equal (left :: lefts) rights (greater state right)
    | .eq => mergeWalk less greater equal lefts rights (equal state left)
  | lefts, rights, state => (state, lefts, rights)
termination_by lefts rights => lefts.length + rights.length

variable {head left right : α} {rest items : List α}

theorem Ascending.tail (sorted : Ascending (head :: rest)) : Ascending rest := (pairwise_cons.mp sorted).2

theorem Ascending.head_lt {item : α} (sorted : Ascending (head :: rest)) (member : item ∈ rest) : head < item :=
  (pairwise_cons.mp sorted).1 item member

theorem Ascending.head_le {item : α} (sorted : Ascending (head :: rest))
    (member : item ∈ head :: rest) : head ≤ item := by
  rcases mem_cons.mp member with rfl | later
  · exact le_refl _
  · exact le_of_lt (sorted.head_lt later)

theorem Ascending.nodup (sorted : Ascending items) : items.Nodup := sorted.imp fun order => ne_of_lt order

theorem Ascending.le (sorted : Ascending items) : items.Pairwise (· ≤ ·) := sorted.imp fun order => le_of_lt order

theorem Ascending.notMem_of_lt {bound : α} (sorted : Ascending (head :: rest))
    (below : bound < head) : bound ∉ head :: rest :=
  fun member => absurd (lt_of_lt_of_le below (sorted.head_le member)) (lt_irrefl _)

variable {lefts rights : List α}

-- The three ways a walk can advance, as equations on set difference.
theorem diff_cons_left (sorted : Ascending (right :: rights)) (below : left < right) :
    (left :: lefts).filter (· ∉ right :: rights) = left :: lefts.filter (· ∉ right :: rights) := by
  rw [filter_cons_of_pos]
  simpa using sorted.notMem_of_lt below

theorem diff_drop_right (sorted : Ascending (left :: lefts)) (below : right < left) :
    (left :: lefts).filter (· ∉ right :: rights) = (left :: lefts).filter (· ∉ rights) := by
  apply filter_congr
  intro item member
  have distinct : item ≠ right := fun same => sorted.notMem_of_lt below (same ▸ member)
  simp [distinct]

theorem diff_drop_both {common : α} (sorted : Ascending (common :: lefts)) :
    (common :: lefts).filter (· ∉ common :: rights) = lefts.filter (· ∉ rights) := by
  rw [filter_cons_of_neg (by simp)]
  apply filter_congr
  intro item member
  have distinct : item ≠ common := ne_of_gt (sorted.head_lt member)
  simp [distinct]

-- The same three steps as equations on intersection.
theorem inter_drop_left (sorted : Ascending (right :: rights)) (below : left < right) :
    (left :: lefts).filter (· ∈ right :: rights) = lefts.filter (· ∈ right :: rights) := by
  rw [filter_cons_of_neg]
  simpa using sorted.notMem_of_lt below

theorem inter_drop_right (sorted : Ascending (left :: lefts)) (below : right < left) :
    (left :: lefts).filter (· ∈ right :: rights) = (left :: lefts).filter (· ∈ rights) := by
  apply filter_congr
  intro item member
  have distinct : item ≠ right := fun same => sorted.notMem_of_lt below (same ▸ member)
  simp [distinct]

theorem inter_cons_both {common : α} (sorted : Ascending (common :: lefts)) :
    (common :: lefts).filter (· ∈ common :: rights) = common :: lefts.filter (· ∈ rights) := by
  rw [filter_cons_of_pos (by simp)]
  congr 1
  apply filter_congr
  intro item member
  have distinct : item ≠ common := ne_of_gt (sorted.head_lt member)
  simp [distinct]

omit [LinearOrder α] in
theorem nil_of_stopped (stopped : ∀ left rest right more, lefts = left :: rest → rights = right :: more → False) :
    lefts = [] ∨ rights = [] := by
  cases lefts with
  | nil => exact .inl rfl
  | cons left rest =>
    cases rights with
    | nil => exact .inr rfl
    | cons right more => exact absurd rfl (stopped left rest right more rfl)

/-- Keeping what only the left cursor sees, and then its unread rest, is set difference. -/
theorem mergeWalk_diff (lefts rights kept : List α) (sortedLeft : Ascending lefts)
    (sortedRight : Ascending rights) :
    let walked := mergeWalk (fun kept item => kept ++ [item]) (fun kept _ => kept) (fun kept _ => kept)
      lefts rights kept
    walked.1 ++ walked.2.1 = kept ++ lefts.filter (· ∉ rights) := by
  fun_induction mergeWalk (fun (kept : List α) item => kept ++ [item]) (fun kept _ => kept)
      (fun kept _ => kept) lefts rights kept with
  | case1 left lefts right rights kept order ih =>
    rw [diff_cons_left sortedRight (compare_lt_iff_lt.mp order)]
    simpa using ih sortedLeft.tail sortedRight
  | case2 left lefts right rights kept order ih =>
    rw [diff_drop_right sortedLeft (compare_gt_iff_gt.mp order)]
    exact ih sortedLeft sortedRight.tail
  | case3 left lefts right rights kept order ih =>
    obtain rfl := compare_eq_iff_eq.mp order
    rw [diff_drop_both sortedLeft]
    exact ih sortedLeft.tail sortedRight.tail
  | case4 lefts rights kept stopped => obtain rfl | rfl := nil_of_stopped stopped <;> simp

/-- Keeping what both cursors see is intersection. -/
theorem mergeWalk_inter (lefts rights kept : List α) (sortedLeft : Ascending lefts) (sortedRight : Ascending rights) :
    (mergeWalk (fun kept _ => kept) (fun kept _ => kept) (fun kept item => kept ++ [item])
      lefts rights kept).1 = kept ++ lefts.filter (· ∈ rights) := by
  fun_induction mergeWalk (fun (kept : List α) _ => kept) (fun kept _ => kept)
      (fun kept item => kept ++ [item]) lefts rights kept with
  | case1 left lefts right rights kept order ih =>
    rw [inter_drop_left sortedRight (compare_lt_iff_lt.mp order)]
    exact ih sortedLeft.tail sortedRight
  | case2 left lefts right rights kept order ih =>
    rw [inter_drop_right sortedLeft (compare_gt_iff_gt.mp order)]
    exact ih sortedLeft sortedRight.tail
  | case3 left lefts right rights kept order ih =>
    obtain rfl := compare_eq_iff_eq.mp order
    rw [inter_cons_both sortedLeft]
    simpa using ih sortedLeft.tail sortedRight.tail
  | case4 lefts rights kept stopped => obtain rfl | rfl := nil_of_stopped stopped <;> simp

end Walk

section Compaction

/-- A buffer being compacted in place: `kept` has been written before `write`,
`unread` starts at `read`, and the writer never overtakes the reader. -/
structure Compacting (buffer : List α) (read write : Nat) (kept unread : List α) : Prop where
  behind : write ≤ read
  written : buffer.take write = kept
  pending : buffer.drop read = unread

def compactLoop (buffer : List α) (read write : Nat) : List α × Nat :=
  match _found : buffer[read]? with
  | none => (buffer, write)
  | some item => compactLoop (buffer.set write item) (read + 1) (write + 1)
termination_by buffer.length - read
decreasing_by
  have bound := (List.getElem?_eq_some_iff.mp _found).1
  rw [List.length_set]
  omega

/-- Close the gap between writer and reader; without a gap the buffer is left alone. -/
def compact (buffer : List α) (read write : Nat) : List α :=
  if read ≠ write then
    let (buffer, write) := compactLoop buffer read write
    buffer.take write
  else buffer

theorem Compacting.initial (buffer : List α) : Compacting buffer 0 0 [] buffer := ⟨Nat.le_refl 0, rfl, rfl⟩

variable {buffer kept unread : List α} {read write : Nat} {item : α}

theorem Compacting.getElem? (view : Compacting buffer read write kept unread) : buffer[read]? = unread.head? := by
  rw [← view.pending, head?_drop]

theorem Compacting.unread_eq (view : Compacting buffer read write kept unread)
    (found : buffer[read]? = some item) : ∃ rest, unread = item :: rest :=
  head?_eq_some_iff.mp (view.getElem? ▸ found)

theorem Compacting.keep (view : Compacting buffer read write kept (item :: unread)) :
    Compacting (buffer.set write item) (read + 1) (write + 1) (kept ++ [item]) unread := by
  have bound : read < buffer.length := by
    by_contra outside
    have empty := view.pending
    rw [drop_eq_nil_of_le (by omega)] at empty
    cases empty
  have behind := view.behind
  refine ⟨by omega, ?_, ?_⟩
  · rw [take_add_one, take_set_of_le (Nat.le_refl write), view.written]
    simp [getElem?_set_self (show write < buffer.length by omega)]
  · rw [drop_set_of_lt (by omega), ← tail_drop, view.pending, tail_cons]

theorem Compacting.skip
    (view : Compacting buffer read write kept (item :: unread)) : Compacting buffer (read + 1) write kept unread := by
  refine ⟨Nat.le_succ_of_le view.behind, view.written, ?_⟩
  rw [← tail_drop, view.pending, tail_cons]

theorem compactLoop_spec (buffer : List α) (read write : Nat) (kept unread : List α)
    (view : Compacting buffer read write kept unread) :
    (compactLoop buffer read write).1.take (compactLoop buffer read write).2 = kept ++ unread := by
  fun_induction compactLoop buffer read write generalizing kept unread with
  | case1 buffer read write missing =>
    rw [view.getElem?, head?_eq_none_iff] at missing
    rw [missing, append_nil, view.written]
  | case2 buffer read write item found ih =>
    rw [view.getElem?] at found
    obtain ⟨rest, rfl⟩ := head?_eq_some_iff.mp found
    simpa using ih (kept ++ [item]) rest view.keep

theorem Compacting.compact_eq
    (view : Compacting buffer read write kept unread) : compact buffer read write = kept ++ unread := by
  unfold compact
  split
  · exact compactLoop_spec buffer read write kept unread view
  · next closed =>
    obtain rfl : read = write := not_not.mp closed
    rw [← view.written, ← view.pending, take_append_drop]

end Compaction
end Grafbase.Foundation
