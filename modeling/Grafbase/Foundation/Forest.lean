import Mathlib.Order.Lattice
import Mathlib.Data.List.Basic

/-! Ordered forests.

A forest is a sequence of keys, each with a forest below it. Field sets are
forests that are kept in the order of their keys and merged like sorted lists.
-/

set_option autoImplicit false

namespace Grafbase.Foundation
open List

inductive Forest (κ : Type) where
  | nil
  | cons (key : κ) (below rest : Forest κ)
  deriving DecidableEq

namespace Forest
variable {κ : Type}

def isEmpty : Forest κ → Bool
  | nil => true
  | cons _ _ _ => false

def roots : Forest κ → List κ
  | nil => []
  | cons key _ rest => key :: rest.roots

def union [LinearOrder κ] : Forest κ → Forest κ → Forest κ
  | nil, right => right
  | cons key below rest, nil => cons key below rest
  | cons left leftBelow leftRest, cons right rightBelow rightRest =>
    if left < right then cons left leftBelow (leftRest.union (cons right rightBelow rightRest))
    else if right < left then cons right rightBelow ((cons left leftBelow leftRest).union rightRest)
    else cons left (leftBelow.union rightBelow) (leftRest.union rightRest)
termination_by left right => sizeOf left + sizeOf right

/-- The keys from a root down to some node. -/
def HasPath : Forest κ → List κ → Prop
  | nil, _ => False
  | cons key below rest, path =>
    (∃ tail, path = key :: tail ∧ (tail = [] ∨ below.HasPath tail)) ∨ rest.HasPath path

/-- Every level is strictly ascending. -/
def Sorted [LinearOrder κ] : Forest κ → Prop
  | nil => True
  | cons key below rest => (∀ root ∈ rest.roots, key < root) ∧ below.Sorted ∧ rest.Sorted

def ofTrees : List (κ × Forest κ) → Forest κ
  | [] => nil
  | (key, below) :: rest => cons key below (ofTrees rest)

variable {forest left right : Forest κ} {key : κ}

theorem not_hasPath_nil (forest : Forest κ) : ¬ forest.HasPath [] := by
  induction forest with
  | nil => exact id
  | cons key below rest _ ih =>
    rintro (⟨tail, empty, _⟩ | later)
    · cases empty
    · exact ih later

theorem hasPath_cons {tail : List κ} (path : forest.HasPath (key :: tail)) : key ∈ forest.roots := by
  induction forest with
  | nil => cases path
  | cons other below rest _ ih =>
    rcases path with ⟨_, same, _⟩ | later
    · exact (List.cons.inj same).1 ▸ mem_cons_self
    · exact mem_cons_of_mem _ (ih later)

theorem hasPath_singleton : forest.HasPath [key] ↔ key ∈ forest.roots := by
  induction forest with
  | nil => simp [HasPath, roots]
  | cons other below rest _ ih => simp [HasPath, roots, ih]

theorem hasPath_union [LinearOrder κ] (left right : Forest κ) (path : List κ) :
    (left.union right).HasPath path ↔ left.HasPath path ∨ right.HasPath path := by
  fun_induction union left right generalizing path with
  | case1 right | case2 => simp [HasPath]
  | case3 left leftBelow leftRest right rightBelow rightRest _ ih => simp only [HasPath, ih, or_assoc]
  | case4 left leftBelow leftRest right rightBelow rightRest _ _ ih =>
    simp only [HasPath, ih]
    rw [or_left_comm]
  | case5 left leftBelow leftRest right rightBelow rightRest notLess notGreater belowIh restIh =>
    obtain rfl : left = right := le_antisymm (not_lt.mp notGreater) (not_lt.mp notLess)
    simp only [HasPath, belowIh, restIh]
    constructor
    · rintro (⟨tail, same, empty | inLeft | inRight⟩ | inLeft | inRight)
      · exact .inl (.inl ⟨tail, same, .inl empty⟩)
      · exact .inl (.inl ⟨tail, same, .inr inLeft⟩)
      · exact .inr (.inl ⟨tail, same, .inr inRight⟩)
      · exact .inl (.inr inLeft)
      · exact .inr (.inr inRight)
    · rintro ((⟨tail, same, empty | inLeft⟩ | inLeft) | ⟨tail, same, empty | inRight⟩ | inRight)
      · exact .inl ⟨tail, same, .inl empty⟩
      · exact .inl ⟨tail, same, .inr (.inl inLeft)⟩
      · exact .inr (.inl inLeft)
      · exact .inl ⟨tail, same, .inl empty⟩
      · exact .inl ⟨tail, same, .inr (.inr inRight)⟩
      · exact .inr (.inr inRight)

theorem mem_roots_union [LinearOrder κ] : key ∈ (left.union right).roots ↔ key ∈ left.roots ∨ key ∈ right.roots := by
  simp only [← hasPath_singleton, hasPath_union]

namespace Sorted
variable [LinearOrder κ] {below rest : Forest κ}

theorem union (leftSorted : left.Sorted) (rightSorted : right.Sorted) : (left.union right).Sorted := by
  fun_induction Forest.union left right with
  | case1 right => exact rightSorted
  | case2 => exact leftSorted
  | case3 left leftBelow leftRest right rightBelow rightRest less ih =>
    refine ⟨fun root member => ?_, leftSorted.2.1, ih leftSorted.2.2 rightSorted⟩
    rcases mem_roots_union.mp member with inLeft | inRight
    · exact leftSorted.1 root inLeft
    · rcases mem_cons.mp inRight with rfl | later
      · exact less
      · exact lt_trans less (rightSorted.1 root later)
  | case4 left leftBelow leftRest right rightBelow rightRest _ greater ih =>
    refine ⟨fun root member => ?_, rightSorted.2.1, ih leftSorted rightSorted.2.2⟩
    rcases mem_roots_union.mp member with inLeft | inRight
    · rcases mem_cons.mp inLeft with rfl | later
      · exact greater
      · exact lt_trans greater (leftSorted.1 root later)
    · exact rightSorted.1 root inRight
  | case5 left leftBelow leftRest right rightBelow rightRest notLess notGreater belowIh restIh =>
    obtain rfl : left = right := le_antisymm (not_lt.mp notGreater) (not_lt.mp notLess)
    refine ⟨fun root member => ?_, belowIh leftSorted.2.1 rightSorted.2.1, restIh leftSorted.2.2 rightSorted.2.2⟩
    rcases mem_roots_union.mp member with inLeft | inRight
    · exact leftSorted.1 root inLeft
    · exact rightSorted.1 root inRight

section
variable (sorted : (cons key below rest).Sorted)
include sorted

/-- The first root is the least one. -/
theorem head_le {other : κ} (member : other ∈ (cons key below rest).roots) : key ≤ other := by
  rcases mem_cons.mp member with rfl | later
  · exact le_refl _
  · exact le_of_lt (sorted.1 other later)

theorem hasPath_head {tail : List κ} :
    (cons key below rest).HasPath (key :: tail) ↔ tail = [] ∨ below.HasPath tail := by
  constructor
  · rintro (⟨_, same, inBelow⟩ | later)
    · exact (List.cons.inj same).2 ▸ inBelow
    · exact absurd (sorted.1 key (hasPath_cons later)) (lt_irrefl _)
  · exact fun inBelow => .inl ⟨tail, rfl, inBelow⟩

theorem hasPath_rest {path : List κ} :
    rest.HasPath path ↔ (cons key below rest).HasPath path ∧ path.head? ≠ some key := by
  constructor
  · refine fun later => ⟨.inr later, fun starts => ?_⟩
    obtain ⟨tail, rfl⟩ := head?_eq_some_iff.mp starts
    exact absurd (sorted.1 key (hasPath_cons later)) (lt_irrefl _)
  · rintro ⟨⟨tail, rfl, _⟩ | later, other⟩
    · exact absurd rfl other
    · exact later

end

/-- A sorted forest is determined by its paths. -/
theorem ext (leftSorted : left.Sorted) (rightSorted : right.Sorted)
    (same : ∀ path, left.HasPath path ↔ right.HasPath path) : left = right := by
  induction left generalizing right with
  | nil =>
    cases right with
    | nil => rfl
    | cons key below rest => exact ((same [key]).mpr (.inl ⟨[], rfl, .inl rfl⟩)).elim
  | cons key below rest belowIh restIh =>
    cases right with
    | nil => exact ((same [key]).mp (.inl ⟨[], rfl, .inl rfl⟩)).elim
    | cons other otherBelow otherRest =>
      have sameRoots (root : κ) :
          root ∈ (cons key below rest).roots ↔ root ∈ (cons other otherBelow otherRest).roots := by
        simp only [← hasPath_singleton, same]
      obtain rfl : key = other := le_antisymm
        (leftSorted.head_le ((sameRoots other).mpr mem_cons_self))
        (rightSorted.head_le ((sameRoots key).mp mem_cons_self))
      have sameBelow (tail : List κ) : below.HasPath tail ↔ otherBelow.HasPath tail := by
        rcases tail with _ | ⟨first, others⟩
        · exact iff_of_false (not_hasPath_nil _) (not_hasPath_nil _)
        · simpa [leftSorted.hasPath_head, rightSorted.hasPath_head] using same (key :: first :: others)
      have sameRest (path : List κ) : rest.HasPath path ↔ otherRest.HasPath path := by
        rw [leftSorted.hasPath_rest, rightSorted.hasPath_rest, same]
      rw [belowIh leftSorted.2.1 rightSorted.2.1 sameBelow, restIh leftSorted.2.2 rightSorted.2.2 sameRest]

theorem union_comm (leftSorted : left.Sorted) (rightSorted : right.Sorted) : left.union right = right.union left :=
  (leftSorted.union rightSorted).ext (rightSorted.union leftSorted) fun path => by
    rw [hasPath_union, hasPath_union, or_comm]

theorem union_assoc {first second third : Forest κ} (firstSorted : first.Sorted) (secondSorted : second.Sorted)
    (thirdSorted : third.Sorted) : (first.union second).union third = first.union (second.union third) :=
  ((firstSorted.union secondSorted).union thirdSorted).ext (firstSorted.union (secondSorted.union thirdSorted))
    fun path => by simp only [hasPath_union, or_assoc]

theorem union_self (sorted : forest.Sorted) : forest.union forest = forest :=
  (sorted.union sorted).ext sorted fun path => by rw [hasPath_union, or_self]

end Sorted

theorem roots_ofTrees (trees : List (κ × Forest κ)) : (ofTrees trees).roots = trees.map (·.1) := by
  induction trees with
  | nil => rfl
  | cons tree rest ih => rw [ofTrees, roots, ih, map_cons]

variable {trees : List (κ × Forest κ)} {path : List κ}

theorem sorted_ofTrees [LinearOrder κ] : (ofTrees trees).Sorted ↔
      (trees.Pairwise fun first second => first.1 < second.1) ∧ ∀ tree ∈ trees, tree.2.Sorted := by
  induction trees with
  | nil => simp [ofTrees, Sorted]
  | cons tree rest ih =>
    simp only [ofTrees, Sorted, ih, roots_ofTrees, pairwise_cons, forall_mem_cons, forall_mem_map]
    tauto

theorem hasPath_ofTrees : (ofTrees trees).HasPath path ↔
      ∃ tree ∈ trees, ∃ tail, path = tree.1 :: tail ∧ (tail = [] ∨ tree.2.HasPath tail) := by
  induction trees with
  | nil => simp [ofTrees, HasPath]
  | cons tree rest ih => simp [ofTrees, HasPath, ih]

theorem hasPath_ofTrees_append {front back : List (κ × Forest κ)} :
    (ofTrees (front ++ back)).HasPath path ↔ (ofTrees front).HasPath path ∨ (ofTrees back).HasPath path := by
  simp [hasPath_ofTrees, or_and_right, exists_or]

end Forest
end Grafbase.Foundation
