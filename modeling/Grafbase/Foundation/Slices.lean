import Mathlib.Data.List.Forall2
import Mathlib.Data.List.Perm.Basic
import Mathlib.Algebra.Order.Ring.Int

/-! Vectors, slices and iterators as the Rust standard library defines them.

Operations that abort the process return a `Panic` instead of a value. Binary
search classifies each element as below, at or above its target: on a slice
whose classes are ordered, a hit is a position of the target and a miss is its
insertion point. Nothing is said about which of several equal elements is found.
-/

set_option autoImplicit false

namespace Grafbase.Foundation
open List
variable {α : Type}

/-- The ways a Rust computation aborts. -/
inductive Panic where
  | unreachable
  | outOfBounds
  | expect (message : String)
  | todo (message : String)
  | stackOverflow
  deriving DecidableEq

abbrev Checked (α : Type) := Except Panic α

variable {ε β : Type} {result : Except ε α} {value : β} {items slice : List α} {related : α → β → Prop}
  {others outputs : List β} {item : α} {index : Nat} {test : α → Except ε Bool} {step : α → Except ε β}
  {classify : α → Ordering} {below : α → Bool}

theorem bind_eq_ok {next : α → Except ε β} :
    (result >>= next) = .ok value ↔ ∃ middle, result = .ok middle ∧ next middle = .ok value := by
  cases result with
  | error error | ok middle => simp [bind, Except.bind]

theorem exists_bind_ok_iff {next : α → Except ε β} (total : ∀ middle, ∃ value, next middle = .ok value) :
    (∃ value, (result >>= next) = .ok value) ↔ ∃ middle, result = .ok middle := by
  cases result with
  | error error => simp [bind, Except.bind]
  | ok middle => simp [bind, Except.bind, total]

theorem map_eq_ok {change : α → β} :
    (change <$> result) = .ok value ↔ ∃ before, result = .ok before ∧ change before = value := by
  cases result with
  | error error | ok before => simp [Functor.map, Except.map]

theorem ite_eq_ok {condition : Prop} [Decidable condition] {error : ε} {after : α} :
    (if condition then .ok item else .error error) = Except.ok after ↔ condition ∧ item = after := by
  split <;> simp [*]

theorem mem_push {last : α} : item ∈ items ++ [last] ↔ item ∈ items ∨ item = last := by simp

theorem index_lt (found : items[index]? = some item) : index < items.length :=
  (List.getElem?_eq_some_iff.mp found).1

theorem getElem?_of_front {front : List α} (isPrefix : front <+: items) (found : front[index]? = some item) :
    items[index]? = some item := by
  obtain ⟨added, rfl⟩ := isPrefix
  rwa [getElem?_append_left (index_lt found)]

/-- What every step of a loop preserves, the loop preserves. -/
theorem foldlM_invariant {step : β → α → Except ε β} {first last : β}
    (ran : items.foldlM step first = .ok last) (invariant : β → Prop) (start : invariant first)
    (keeps : ∀ item ∈ items, ∀ state next, invariant state → step state item = .ok next → invariant next) :
    invariant last := by
  induction items generalizing first with
  | nil =>
    obtain rfl : first = last := by simpa [pure, Except.pure] using ran
    exact start
  | cons item rest ih =>
    obtain ⟨middle, stepped, ran⟩ := bind_eq_ok.mp (foldlM_cons.symm.trans ran)
    exact ih ran (keeps item (by simp) first middle start stepped) fun other member =>
      keeps other (mem_cons_of_mem _ member)

/-- What each step of a loop achieves for its item and later steps keep is achieved for all items. -/
theorem foldlM_forall {step : β → α → Except ε β} {first last : β} (ran : items.foldlM step first = .ok last)
    (invariant : β → Prop) (done : β → α → Prop) (start : invariant first)
    (each : ∀ item ∈ items, ∀ state next, invariant state → step state item = .ok next →
      invariant next ∧ done next item ∧ ∀ other, done state other → done next other) :
    invariant last ∧ (∀ item ∈ items, done last item) ∧ ∀ other, done first other → done last other := by
  induction items generalizing first with
  | nil =>
    obtain rfl : first = last := by simpa [pure, Except.pure] using ran
    exact ⟨start, by simp, fun _ => id⟩
  | cons item rest ih =>
    obtain ⟨middle, stepped, ran⟩ := bind_eq_ok.mp (foldlM_cons.symm.trans ran)
    obtain ⟨holds, own, kept⟩ := each item (by simp) first middle start stepped
    obtain ⟨final, others, keptOn⟩ := ih ran holds fun other member => each other (mem_cons_of_mem _ member)
    exact ⟨final, forall_mem_cons.mpr ⟨keptOn item own, others⟩, fun other => keptOn other ∘ kept other⟩

theorem getElem?_of_forall₂ (all : List.Forall₂ related items others) (found : items[index]? = some item) :
    ∃ other, others[index]? = some other ∧ related item other := by
  induction all generalizing index with
  | nil => cases found
  | @cons _ other _ _ first _ ih =>
    cases index with
    | zero =>
      cases found
      exact ⟨other, rfl, first⟩
    | succ index => exact ih found

theorem exists_right_of_forall₂ (all : List.Forall₂ related items others) (member : item ∈ items) :
    ∃ other ∈ others, related item other := by
  obtain ⟨index, found⟩ := mem_iff_getElem?.mp member
  obtain ⟨other, atOther, isRelated⟩ := getElem?_of_forall₂ all found
  exact ⟨other, mem_of_getElem? atOther, isRelated⟩

theorem exists_left_of_forall₂ (all : List.Forall₂ related items others) {other : β} (member : other ∈ others) :
    ∃ item ∈ items, related item other :=
  exists_right_of_forall₂ all.flip member

theorem exists_forall₂
    (each : ∀ item ∈ items, ∃ other, related item other) : ∃ others, List.Forall₂ related items others := by
  induction items with
  | nil => exact ⟨[], .nil⟩
  | cons item rest ih =>
    obtain ⟨other, first⟩ := each item (by simp)
    obtain ⟨others, all⟩ := ih fun later member => each later (mem_cons_of_mem _ member)
    exact ⟨other :: others, .cons first all⟩

theorem related_of_forall₂ (all : List.Forall₂ related items others) {other : β} (atItem : items[index]? = some item)
    (atOther : others[index]? = some other) : related item other := by
  obtain ⟨found, atFound, isRelated⟩ := getElem?_of_forall₂ all atItem
  rwa [Option.mem_unique atOther atFound]

theorem anyM_of_forall₂ {holds : β → Bool}
    (agree : List.Forall₂ (fun item other => test item = .ok (holds other)) items others) :
    items.anyM test = .ok (others.any holds) := by
  induction agree with
  | nil => rfl
  | @cons item other items others first _ ih =>
    rw [List.anyM, first, ih, any_cons]
    cases holds other <;> rfl

theorem allM_of_ok (total : ∀ item ∈ items, ∃ value, test item = .ok value) :
    ∃ value, items.allM test = .ok value ∧ (value = true ↔ ∀ item ∈ items, test item = .ok true) := by
  induction items with
  | nil => exact ⟨true, rfl, by simp⟩
  | cons item rest ih =>
    obtain ⟨first, tested⟩ := total item (by simp)
    obtain ⟨others, restTested, all⟩ := ih fun other member => total other (mem_cons_of_mem _ member)
    cases first with
    | false => exact ⟨false, by rw [List.allM, tested]; rfl, by simp [tested]⟩
    | true => exact ⟨others, by rw [List.allM, tested]; exact restTested, by simp [tested, all]⟩

theorem mapM_eq_ok_iff :
    items.mapM step = .ok outputs ↔ List.Forall₂ (fun item output => step item = .ok output) items outputs := by
  induction items generalizing outputs with
  | nil => simp [pure, Except.pure, eq_comm]
  | cons item rest ih =>
    rw [mapM_cons, forall₂_cons_left_iff]
    simp only [bind_eq_ok, ih]
    constructor
    · rintro ⟨output, stepped, others, restRan, last⟩
      exact ⟨output, others, stepped, restRan, (Except.ok.inj last).symm⟩
    · rintro ⟨output, others, stepped, restRan, rfl⟩
      exact ⟨output, stepped, others, restRan, rfl⟩

section
variable (ran : items.mapM step = .ok outputs)
include ran

theorem mem_of_mapM (member : item ∈ items) : ∃ output ∈ outputs, step item = .ok output :=
  exists_right_of_forall₂ (mapM_eq_ok_iff.mp ran) member

theorem exists_of_mapM (member : item ∈ items) : ∃ output, step item = .ok output :=
  (mem_of_mapM ran member).imp fun _ => And.right

end

theorem exists_mapM_iff :
    (∃ outputs, items.mapM step = .ok outputs) ↔ ∀ item ∈ items, ∃ output, step item = .ok output := by
  simp only [mapM_eq_ok_iff]
  constructor
  · rintro ⟨outputs, all⟩ item member
    exact (exists_right_of_forall₂ all member).imp fun _ => And.right
  · exact exists_forall₂

theorem getElem?_of_mapM (ran : items.mapM step = .ok outputs) (found : items[index]? = some item) :
    ∃ output, outputs[index]? = some output ∧ step item = .ok output :=
  getElem?_of_forall₂ (mapM_eq_ok_iff.mp ran) found

theorem mapM_eq_ok {total : α → β}
    (steps : ∀ item ∈ items, step item = .ok (total item)) : items.mapM step = .ok (items.map total) := by
  rw [mapM_eq_ok_iff, forall₂_map_right_iff]
  exact forall₂_same.mpr steps

theorem map_eq_of_mapM {γ : Type} {describe : α → γ} {read : β → γ} (ran : items.mapM step = .ok outputs)
    (same : ∀ item ∈ items, ∀ output, step item = .ok output → read output = describe item) :
    outputs.map read = items.map describe := by
  have pairs := mapM_eq_ok_iff.mp ran
  clear ran
  induction pairs with
  | nil => rfl
  | @cons item output rest others stepped _ ih =>
    rw [map_cons, map_cons, same item (by simp) output stepped, ih fun later member => same later (by simp [member])]

theorem ok_of_map {read : α → β}
    (found : result.toOption.map read = some value) : ∃ output, result = .ok output ∧ read output = value := by
  cases result with
  | error => cases found
  | ok output => exact ⟨output, rfl, Option.some.inj found⟩

theorem findIdx?_eq_some_iff_first {test : α → Bool} : items.findIdx? test = some index ↔
      (∃ item, items[index]? = some item ∧ test item = true) ∧
        ∀ before < index, ∀ item, items[before]? = some item → test item = false := by
  rw [findIdx?_eq_some_iff_getElem]
  constructor
  · rintro ⟨bound, holds, earlier⟩
    refine ⟨⟨_, getElem?_eq_getElem bound, holds⟩, fun before lt item found => ?_⟩
    obtain ⟨_, rfl⟩ := List.getElem?_eq_some_iff.mp found
    exact Bool.eq_false_iff.mpr (earlier before lt)
  · rintro ⟨⟨item, found, holds⟩, earlier⟩
    obtain ⟨bound, rfl⟩ := List.getElem?_eq_some_iff.mp found
    refine ⟨bound, holds, fun before lt => ?_⟩
    exact Bool.eq_false_iff.mp (earlier before lt _ (getElem?_eq_getElem (Nat.lt_trans lt bound)))

/-- `items[index]` -/
def indexed (items : List α) (index : Nat) : Checked α :=
  match items[index]? with
  | some item => .ok item
  | none => .error .outOfBounds

theorem indexed_eq_ok : indexed items index = .ok item ↔ items[index]? = some item := by
  rw [indexed]
  split
  · next found => simp [found]
  · next missing => simp [missing]

/-- `items[index] = item` -/
def assigned (items : List α) (index : Nat) (item : α) : Checked (List α) :=
  if index < items.length then .ok (items.set index item) else .error .outOfBounds

theorem assigned_eq_ok {after : List α} :
    assigned items index item = .ok after ↔ index < items.length ∧ items.set index item = after :=
  ite_eq_ok

/-- `Vec::swap_remove`: the last element takes the place of the removed one. -/
def swapRemove (items : List α) (index : Nat) : List α :=
  match items.getLast? with
  | none => items
  | some last => items.dropLast.set index last

theorem swapRemove_length (bound : index < items.length) : (swapRemove items index).length = items.length - 1 := by
  have filled : items ≠ [] := by
    rintro rfl
    cases bound
  simp [swapRemove, getLast?_eq_some_getLast filled]

theorem swapRemove_take (bound : index < items.length) : (swapRemove items index).take index = items.take index := by
  have filled : items ≠ [] := ne_nil_of_length_pos (by omega)
  simp only [swapRemove, getLast?_eq_some_getLast filled]
  rw [take_set_of_le (Nat.le_refl index), dropLast_eq_take, take_take]
  congr 1
  omega

theorem swapRemove_perm (found : items[index]? = some item) : (item :: swapRemove items index).Perm items := by
  rcases eq_nil_or_concat items with rfl | ⟨front, last, rfl⟩
  · cases found
  rw [concat_eq_append] at found ⊢
  have last_first := (perm_append_singleton last front).symm
  simp only [swapRemove, getLast?_concat, dropLast_concat]
  rcases Nat.lt_or_ge index front.length with inside | outside
  · rw [getElem?_append_left inside] at found
    obtain ⟨_, rfl⟩ := List.getElem?_eq_some_iff.mp found
    have replaced := (set_perm_cons_eraseIdx inside last).cons front[index]
    have restored := (getElem_cons_eraseIdx_perm inside).cons last
    exact (replaced.trans ((List.Perm.swap ..).trans restored)).trans last_first
  · rw [getElem?_append_right outside] at found
    obtain ⟨bound, value⟩ := List.getElem?_eq_some_iff.mp found
    obtain rfl : last = item := by simpa using value
    rw [set_eq_of_length_le outside]
    exact last_first

/-- `Vec::insert`: the tail moves up by one. -/
def insertAt (items : List α) (index : Nat) (item : α) : List α := items.take index ++ item :: items.drop index

theorem mem_insertAt {other : α} : other ∈ insertAt items index item ↔ other = item ∨ other ∈ items := by
  have whole : other ∈ items ↔ other ∈ items.take index ∨ other ∈ items.drop index := by
    rw [← mem_append, take_append_drop]
  rw [insertAt, mem_append, mem_cons, whole]
  tauto

/-- One probe per iteration on the half-open window `[left, right)`. -/
def binarySearchLoop (classify : α → Ordering) (slice : List α) (left right : Nat) : Except Nat Nat :=
  if left < right then
    let mid := left + (right - left) / 2
    match slice[mid]? with
    | none => .error left
    | some probe =>
      match classify probe with
      | .eq => .ok mid
      | .lt => binarySearchLoop classify slice (mid + 1) right
      | .gt => binarySearchLoop classify slice left mid
  else .error left
termination_by right - left

/-- `<[T]>::binary_search_by`: `ok` holds a matching index, `error` an insertion point. -/
def binarySearchBy (classify : α → Ordering) (slice : List α) : Except Nat Nat :=
  binarySearchLoop classify slice 0 slice.length

/-- `<[T]>::partition_point`: the first position at which the predicate fails. -/
def partitionPoint (below : α → Bool) (slice : List α) : Nat :=
  match binarySearchBy (fun item => if below item then .lt else .gt) slice with
  | .ok index => index
  | .error index => index

def binarySearch [LinearOrder α] (slice : List α) (target : α) : Except Nat Nat :=
  binarySearchBy (compare · target) slice

/-- A hit is a match, whatever the order of the slice. -/
theorem binarySearchLoop_hit {left right : Nat} (hit : binarySearchLoop classify slice left right = .ok index) :
    ∃ found, slice[index]? = some found ∧ classify found = .eq := by
  fun_induction binarySearchLoop classify slice left right with
  | case1 left right active mid missing => cases hit
  | case2 left right active mid probe found same =>
    obtain rfl : mid = index := by simpa using hit
    exact ⟨probe, found, same⟩
  | case3 left right active mid probe found low ih => exact ih hit
  | case4 left right active mid probe found high ih => exact ih hit
  | case5 left right inactive => cases hit

/-- Every element classified below precedes every match, which precedes those above. -/
def Classified (classify : α → Ordering) (slice : List α) : Prop :=
  slice.Pairwise fun first second =>
    (classify second = .lt → classify first = .lt) ∧ (classify first = .gt → classify second = .gt)

/-- What a search result says about the whole slice. -/
def SearchResult (classify : α → Ordering) (slice : List α) : Except Nat Nat → Prop
  | .ok index => ∃ found, slice[index]? = some found ∧ classify found = .eq
  | .error index => index ≤ slice.length ∧
      (∀ position item, slice[position]? = some item → position < index → classify item = .lt) ∧
      (∀ position item, slice[position]? = some item → index ≤ position → classify item = .gt)

/-- After a miss everything before the insertion point is below, and the rest above. -/
theorem SearchResult.sides (missed : SearchResult classify slice (.error index)) :
    (∀ item ∈ slice.take index, classify item = .lt) ∧ ∀ item ∈ slice.drop index, classify item = .gt := by
  obtain ⟨bound, below, above⟩ := missed
  constructor
  · intro item member
    obtain ⟨position, inside, rfl⟩ := mem_iff_getElem.mp member
    rw [length_take] at inside
    rw [getElem_take]
    exact below position _ (getElem?_eq_getElem (by omega)) (by omega)
  · intro item member
    obtain ⟨position, inside, rfl⟩ := mem_iff_getElem.mp member
    rw [length_drop] at inside
    rw [getElem_drop]
    exact above (index + position) _ (getElem?_eq_getElem (by omega)) (by omega)

section
variable (ordered : Classified classify slice)
include ordered

theorem Classified.of_le {first second : Nat} {other : α} (atFirst : slice[first]? = some item)
    (atSecond : slice[second]? = some other) (before : first ≤ second) :
    (classify other = .lt → classify item = .lt) ∧ (classify item = .gt → classify other = .gt) := by
  obtain ⟨boundFirst, rfl⟩ := List.getElem?_eq_some_iff.mp atFirst
  obtain ⟨boundSecond, rfl⟩ := List.getElem?_eq_some_iff.mp atSecond
  rcases Nat.lt_or_eq_of_le before with strict | rfl
  · exact pairwise_iff_getElem.mp ordered first second boundFirst boundSecond strict
  · exact ⟨id, id⟩

/-- The window invariant: everything left of it is below, everything right of it above. -/
theorem binarySearchLoop_spec (left right : Nat) (window : left ≤ right) (inside : right ≤ slice.length)
    (below : ∀ position item, slice[position]? = some item → position < left → classify item = .lt)
    (above : ∀ position item, slice[position]? = some item → right ≤ position → classify item = .gt) :
    SearchResult classify slice (binarySearchLoop classify slice left right) := by
  fun_induction binarySearchLoop classify slice left right with
  | case1 left right active mid missing =>
    have bound : slice.length ≤ mid := getElem?_eq_none_iff.mp missing
    omega
  | case2 left right active mid probe found same => exact ⟨probe, found, same⟩
  | case3 left right active mid probe found low ih =>
    apply ih (by omega) inside _ above
    intro position item at' before
    exact (ordered.of_le at' found (by omega)).1 low
  | case4 left right active mid probe found high ih =>
    apply ih (by omega) (by omega) below
    intro position item at' after
    exact (ordered.of_le found at' after).2 high
  | case5 left right inactive =>
    have same : left = right := by omega
    subst same
    exact ⟨inside, below, above⟩

theorem binarySearchBy_spec : SearchResult classify slice (binarySearchBy classify slice) := by
  apply binarySearchLoop_spec ordered 0 slice.length (Nat.zero_le _) (Nat.le_refl _)
  · omega
  · intro position item at' after
    have bound := index_lt at'
    omega

theorem binarySearchBy_of_mem (member : item ∈ slice) (same : classify item = .eq) :
    ∃ index, binarySearchBy classify slice = .ok index := by
  have result := binarySearchBy_spec ordered
  cases search : binarySearchBy classify slice with
  | ok index => exact ⟨index, rfl⟩
  | error index =>
    rw [search] at result
    rw [← take_append_drop index slice, mem_append] at member
    rcases member with before | after
    · exact absurd (same.symm.trans (result.sides.1 item before)) (by decide)
    · exact absurd (same.symm.trans (result.sides.2 item after)) (by decide)

end

theorem drop_partitionPoint (ordered : slice.Pairwise fun first second => below second = true → below first = true) :
    slice.drop (partitionPoint below slice) = slice.dropWhile below := by
  have classified : Classified (fun item => if below item then .lt else .gt) slice := by
    apply ordered.imp
    intro first second order
    refine ⟨fun low => ?_, fun high => ?_⟩
    · simp only [ite_eq_left_iff, reduceCtorEq, imp_false, Bool.not_eq_true, Bool.not_eq_false] at low ⊢
      exact order low
    · simp only [ite_eq_right_iff, reduceCtorEq, imp_false] at high ⊢
      exact fun low => high (order low)
  have result := binarySearchBy_spec classified
  unfold partitionPoint
  cases search : binarySearchBy (fun item => if below item then .lt else .gt) slice with
  | ok index =>
    rw [search] at result
    obtain ⟨found, _, same⟩ := result
    dsimp only at same
    split at same <;> cases same
  | error index =>
    rw [search] at result
    obtain ⟨before, after⟩ := result.sides
    have low : ∀ item ∈ slice.take index, below item = true := by simpa using before
    have stops : (slice.drop index).dropWhile below = slice.drop index := by
      cases rest : slice.drop index with
      | nil => rfl
      | cons head tail =>
        have high := after head (by simp [rest])
        simp only [ite_eq_right_iff, reduceCtorEq, imp_false] at high
        simp [high]
    conv_rhs => rw [← take_append_drop index slice, dropWhile_append_of_pos low, stops]

section
variable (ordered : items.Pairwise fun first second => below second = true → below first = true)
include ordered

theorem takeWhile_eq_filter_of_ordered : items.takeWhile below = items.filter below := by
  induction items with
  | nil => rfl
  | cons first rest ih =>
    obtain ⟨least, ordered⟩ := pairwise_cons.mp ordered
    by_cases low : below first = true
    · rw [takeWhile_cons_of_pos low, filter_cons_of_pos low, ih ordered]
    · rw [takeWhile_cons_of_neg low, filter_cons_of_neg low, eq_comm, filter_eq_nil_iff]
      exact fun item member lower => low (least item member lower)

theorem dropWhile_eq_filter_of_ordered : items.dropWhile below = items.filter fun item => !below item := by
  induction items with
  | nil => rfl
  | cons first rest ih =>
    obtain ⟨least, ordered⟩ := pairwise_cons.mp ordered
    by_cases low : below first = true
    · rw [dropWhile_cons_of_pos low, filter_cons_of_neg (by simp [low]), ih ordered]
    · rw [dropWhile_cons_of_neg low, eq_comm, filter_eq_self]
      intro item member
      rcases mem_cons.mp member with rfl | later
      · simpa using low
      · simpa using mt (least item later) low

end

/-- What lies between two positions of a sorted slice are the elements with the target as their key. -/
theorem takeWhile_dropWhile_eq_filter {κ : Type} [LinearOrder κ] (key : α → κ) (target : κ)
    (sorted : slice.Pairwise fun first second => key first ≤ key second) :
    (slice.dropWhile fun item => key item < target).takeWhile (fun item => key item = target) =
      slice.filter fun item => key item = target := by
  have low : slice.Pairwise fun first second =>
      decide (key second < target) = true → decide (key first < target) = true :=
    sorted.imp fun order below => by simpa using lt_of_le_of_lt order (by simpa using below)
  -- What is left starts with the elements of the target.
  have next : (slice.filter fun item => !decide (key item < target)).Pairwise fun first second =>
      decide (key second = target) = true → decide (key first = target) = true := by
    refine (List.Pairwise.and_mem.mp (sorted.filter _)).imp fun {first second} ⟨isFirst, _, order⟩ same => ?_
    have atLeast : target ≤ key first := by simpa using (mem_filter.mp isFirst).2
    simp only [decide_eq_true_eq] at same ⊢
    exact le_antisymm (same ▸ order) atLeast
  rw [dropWhile_eq_filter_of_ordered low, takeWhile_eq_filter_of_ordered next, filter_filter]
  refine filter_congr fun item _ => ?_
  by_cases same : key item = target <;> simp [same]

section Ordered
variable [LinearOrder α]

theorem binarySearch_ok {target : α} (hit : binarySearch slice target = .ok index) : slice[index]? = some target := by
  obtain ⟨found, at', same⟩ := binarySearchLoop_hit hit
  rwa [compare_eq_iff_eq.mp same] at at'

section
variable (sorted : slice.Pairwise (· ≤ ·))
include sorted

theorem classified_compare (target : α) : Classified (compare · target) slice := by
  apply sorted.imp
  intro first second order
  simp only [compare_lt_iff_lt, compare_gt_iff_gt]
  exact ⟨fun low => lt_of_le_of_lt order low, fun high => lt_of_lt_of_le high order⟩

theorem binarySearch_error {target : α} (miss : binarySearch slice target = .error index) :
    index ≤ slice.length ∧ (∀ item ∈ slice.take index, item < target) ∧ ∀ item ∈ slice.drop index, target < item := by
  have result := binarySearchBy_spec (classified_compare sorted target)
  rw [show binarySearchBy (compare · target) slice = .error index from miss] at result
  obtain ⟨below, above⟩ := result.sides
  exact ⟨result.1, fun item member => compare_lt_iff_lt.mp (below item member), fun item member =>
    compare_gt_iff_gt.mp (above item member)⟩

theorem binarySearch_ok_iff (target : α) : (∃ index, binarySearch slice target = .ok index) ↔ target ∈ slice := by
  constructor
  · rintro ⟨index, hit⟩
    exact mem_of_getElem? (binarySearch_ok hit)
  · exact fun member => binarySearchBy_of_mem (classified_compare sorted target) member (compare_eq_iff_eq.mpr rfl)

end
end Ordered

/-! ## Zipped iterators

The left one is advanced before the right one is asked: when the right one is
exhausted first, the element already taken from the left is lost. What the
iterators still hold is seen by whoever lent them.
-/

structure PeekableZip (α β : Type) where
  left : List α
  right : List β
  peeked : Option (Option (α × β))

namespace PeekableZip
def new (left : List α) (right : List β) : PeekableZip α β := ⟨left, right, none⟩

def advance (left : List α) (right : List β) : Option (α × β) × List α × List β :=
  match left, right with
  | [], right => (none, [], right)
  | _ :: left, [] => (none, left, [])
  | first :: left, second :: right => (some (first, second), left, right)

def next (zipped : PeekableZip α β) : Option (α × β) × PeekableZip α β :=
  match zipped.peeked with
  | some pair => (pair, ⟨zipped.left, zipped.right, none⟩)
  | none =>
    let (pair, left, right) := advance zipped.left zipped.right
    (pair, ⟨left, right, none⟩)

def peek (zipped : PeekableZip α β) : Option (α × β) × PeekableZip α β :=
  match zipped.peeked with
  | some pair => (pair, zipped)
  | none =>
    let (pair, left, right) := advance zipped.left zipped.right
    (pair, ⟨left, right, some pair⟩)

def remaining (zipped : PeekableZip α β) : Nat :=
  match zipped.peeked with
  | none => zipped.left.length
  | some none => 0
  | some (some _) => zipped.left.length + 1

theorem remaining_peek (zipped : PeekableZip α β) : zipped.peek.2.remaining ≤ zipped.remaining := by
  obtain ⟨left, right, peeked⟩ := zipped
  cases peeked with
  | some pair => exact Nat.le_refl _
  | none =>
    cases left with
    | nil => simp [peek, advance, remaining]
    | cons first left => cases right <;> simp [peek, advance, remaining]

theorem remaining_next {zipped : PeekableZip α β} {pair : α × β} (found : zipped.next.1 = some pair) :
    zipped.next.2.remaining < zipped.remaining := by
  obtain ⟨left, right, peeked⟩ := zipped
  cases peeked with
  | some peeked =>
    obtain rfl : peeked = some pair := found
    simp [next, remaining]
  | none =>
    cases left with
    | nil => cases found
    | cons first left =>
      cases right with
      | nil => cases found
      | cons second right => simp [next, advance, remaining]

end PeekableZip

end Grafbase.Foundation
