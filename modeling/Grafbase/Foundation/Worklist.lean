import Mathlib.Data.List.Basic
import Mathlib.Logic.Relation

/-! Loops that work off a stack.

Each round takes one item from the stack. An item seen before is dropped; any
other is visited, which changes the state and may put further items on the
stack. The items of one visit are taken last first. When every visit adds its
item to what has been seen and all items come from a finite stock, the loop
ends; what it has seen then are the items that can be reached from the stack.
-/

set_option autoImplicit false

namespace Grafbase.Foundation
open List
variable {κ σ ε : Type} [DecidableEq κ]

/-- No result when the rounds do not suffice. The stack is listed from its top. -/
def explore (seen : σ → List κ) (visit : σ → κ → Except ε (σ × List κ)) :
    Nat → σ → List κ → Option (Except ε σ)
  | _, state, [] => some (.ok state)
  | 0, _, _ :: _ => none
  | rounds + 1, state, item :: pending =>
    if item ∈ seen state then explore seen visit rounds state pending
    else
      match visit state item with
      | .error error => some (.error error)
      | .ok (after, found) => explore seen visit rounds after (found.reverse ++ pending)

section Runs
variable {seen : σ → List κ} {visit : σ → κ → Except ε (σ × List κ)}

/-- What every round keeps holds at the end. -/
theorem explore_induct {motive : σ → List κ → Prop}
    (skip : ∀ state item pending, item ∈ seen state → motive state (item :: pending) → motive state pending)
    (step : ∀ state item pending after found, item ∉ seen state → visit state item = .ok (after, found) →
      motive state (item :: pending) → motive after (found.reverse ++ pending))
    {rounds : Nat} {state last : σ} {pending : List κ} (start : motive state pending)
    (run : explore seen visit rounds state pending = some (.ok last)) : motive last [] := by
  induction rounds generalizing state pending with
  | zero =>
    cases pending with
    | nil =>
      simp only [explore, Option.some.injEq, Except.ok.injEq] at run
      exact run ▸ start
    | cons item pending => simp [explore] at run
  | succ rounds ih =>
    cases pending with
    | nil =>
      simp only [explore, Option.some.injEq, Except.ok.injEq] at run
      exact run ▸ start
    | cons item pending =>
      rw [explore] at run
      split at run
      · next known => exact ih (skip state item pending known start) run
      · next fresh =>
        split at run
        · cases run
        · next after found visited => exact ih (step state item pending after found fresh visited start) run

/-- A visit only adds its item to what has been seen. -/
def Remembers (seen : σ → List κ) (visit : σ → κ → Except ε (σ × List κ)) : Prop :=
  ∀ state item after found, item ∉ seen state → visit state item = .ok (after, found) →
    seen after = seen state ++ [item]

def unseen (stock known : List κ) : Nat := (stock.filter (· ∉ known)).length

omit ε in
theorem unseen_append_lt {stock known : List κ} {item : κ} (listed : item ∈ stock) (fresh : item ∉ known) :
    unseen stock (known ++ [item]) < unseen stock known := by
  unfold unseen
  have narrower : stock.filter (· ∉ known ++ [item]) = (stock.filter (· ∉ known)).filter (· ≠ item) := by
    rw [filter_filter]
    simp [not_or, and_comm]
  rw [narrower]
  refine length_filter_lt_length_iff_exists.mpr ⟨item, ?_, by simp⟩
  simp [listed, fresh]

/-- The loop ends when no visit finds more than `width` items, all of them in the stock. -/
theorem explore_isSome (stock : List κ) (width : Nat) (remembers : Remembers seen visit)
    (bounded : ∀ state item after found, item ∈ stock → visit state item = .ok (after, found) →
      found.length ≤ width ∧ ∀ other ∈ found, other ∈ stock)
    {rounds : Nat} {state : σ} {pending : List κ} (listed : ∀ item ∈ pending, item ∈ stock)
    (enough : pending.length + unseen stock (seen state) * (width + 1) ≤ rounds) :
    (explore seen visit rounds state pending).isSome := by
  induction rounds generalizing state pending with
  | zero =>
    cases pending with
    | nil => rfl
    | cons item pending => simp at enough
  | succ rounds ih =>
    cases pending with
    | nil => rfl
    | cons item pending =>
      rw [length_cons] at enough
      rw [explore]
      split
      · exact ih (fun other member => listed other (mem_cons_of_mem _ member)) (by omega)
      · next fresh =>
        split
        · rfl
        · next after found visited =>
          -- One item less is unseen, which pays for the items that the visit has found.
          have here := listed item (mem_cons_self ..)
          obtain ⟨short, inStock⟩ := bounded state item after found here visited
          have fewer := unseen_append_lt here fresh
          refine ih ?_ ?_
          · intro other member
            rcases mem_append.mp member with new | old
            · exact inStock other (mem_reverse.mp new)
            · exact listed other (mem_cons_of_mem _ old)
          · rw [remembers state item after found fresh visited, length_append, length_reverse]
            have paid : (unseen stock (seen state ++ [item]) + 1) * (width + 1) ≤
                unseen stock (seen state) * (width + 1) := Nat.mul_le_mul_right _ fewer
            rw [Nat.add_mul] at paid
            omega

section Reachability
variable (next : κ → List κ)

def Reachable (roots : List κ) (item : κ) : Prop :=
  ∃ root ∈ roots, Relation.ReflTransGen (fun source target => target ∈ next source) root item

/-- The visits find the successors of their items. -/
def Finds (visit : σ → κ → Except ε (σ × List κ)) : Prop :=
  ∀ state item after found, visit state item = .ok (after, found) → ∀ other, other ∈ found ↔ other ∈ next item

/-- Everything known is reachable, and everything that follows something seen is known. -/
structure Frontier (roots known pending : List κ) : Prop where
  sound : ∀ item, item ∈ known ∨ item ∈ pending → Reachable next roots item
  rooted : ∀ root ∈ roots, root ∈ known ∨ root ∈ pending
  closed : ∀ item ∈ known, ∀ other ∈ next item, other ∈ known ∨ other ∈ pending

variable {next} {roots : List κ}

omit [DecidableEq κ] in
theorem Frontier.initial (roots : List κ) : Frontier next roots [] roots where
  sound item member := ⟨item, by simpa using member, .refl⟩
  rooted root member := .inr member
  closed item member := by cases member

omit [DecidableEq κ] in
theorem Frontier.skip {known pending : List κ} {item : κ} (seen : item ∈ known)
    (frontier : Frontier next roots known (item :: pending)) : Frontier next roots known pending where
  sound other member := frontier.sound other (member.imp_right (mem_cons_of_mem _))
  rooted root member := by
    rcases frontier.rooted root member with old | waiting
    · exact .inl old
    · rcases mem_cons.mp waiting with rfl | later
      · exact .inl seen
      · exact .inr later
  closed other member successor follows := by
    rcases frontier.closed other member successor follows with old | waiting
    · exact .inl old
    · rcases mem_cons.mp waiting with rfl | later
      · exact .inl seen
      · exact .inr later

omit [DecidableEq κ] in
theorem Frontier.step {known pending found : List κ} {item : κ} (finds : ∀ other, other ∈ found ↔ other ∈ next item)
    (frontier : Frontier next roots known (item :: pending)) :
    Frontier next roots (known ++ [item]) (found.reverse ++ pending) := by
  have here : Reachable next roots item := frontier.sound item (.inr (mem_cons_self ..))
  have kept (other : κ) (member : other ∈ known ∨ other ∈ item :: pending) :
      other ∈ known ++ [item] ∨ other ∈ found.reverse ++ pending := by
    simp only [mem_cons, mem_append, not_mem_nil, or_false] at member ⊢
    tauto
  refine ⟨fun other member => ?_, fun root member => kept root (frontier.rooted root member), ?_⟩
  · simp only [mem_append, mem_singleton, mem_reverse] at member
    rcases member with (old | rfl) | (new | waiting)
    · exact frontier.sound other (.inl old)
    · exact here
    · obtain ⟨root, inRoots, path⟩ := here
      exact ⟨root, inRoots, path.tail ((finds other).mp new)⟩
    · exact frontier.sound other (.inr (mem_cons_of_mem _ waiting))
  · intro other member successor follows
    rcases mem_append.mp member with old | new
    · exact kept successor (frontier.closed other old successor follows)
    · rw [mem_singleton.mp new] at follows
      exact .inr (mem_append_left _ (mem_reverse.mpr ((finds successor).mpr follows)))

/-- At its end the loop has seen exactly what can be reached. -/
theorem mem_seen_iff (remembers : Remembers seen visit) (finds : Finds next visit) {rounds : Nat} {state last : σ}
    (fresh : seen state = []) (run : explore seen visit rounds state roots = some (.ok last)) (item : κ) :
    item ∈ seen last ↔ Reachable next roots item := by
  have frontier : Frontier next roots (seen last) [] := by
    refine explore_induct (fun state item pending => Frontier.skip)
      (fun state item pending after found isNew visited held => ?_) (fresh ▸ Frontier.initial roots) run
    exact remembers state item after found isNew visited ▸ held.step (finds state item after found visited)
  refine ⟨fun member => frontier.sound item (.inl member), ?_⟩
  rintro ⟨root, inRoots, path⟩
  induction path with
  | refl => exact (frontier.rooted root inRoots).resolve_right not_mem_nil
  | tail _ follows ih => exact (frontier.closed _ ih _ follows).resolve_right not_mem_nil

end Reachability
end Runs
end Grafbase.Foundation
