import Grafbase.Normalizer.NormalForms

/-! Which fragments are kept.

The pass over the fragments follows a fragment only if it is known to be used
when the pass arrives there. A chain of spreads is therefore followed as far
as its fragments are defined in the order of the chain.
-/

set_option autoImplicit false

namespace Grafbase.Normalizer
open Foundation List

/-- The names that are entered, all of them as used. -/
structure Knows (used : UsedFragments) (known : String → Prop) : Prop where
  keys : ∀ name, name ∈ used.map Prod.fst ↔ known name
  flags : ∀ entry ∈ used, entry.2 = true

namespace Knows
variable {used : UsedFragments} {known : String → Prop}

theorem initial : Knows [] fun _ => False := ⟨by simp, by simp⟩

section
variable (knows : Knows used known)
include knows

theorem congr {other : String → Prop} (same : ∀ name, known name ↔ other name) : Knows used other :=
  ⟨fun name => (knows.keys name).trans (same name), knows.flags⟩

theorem orInsert (name : String) : Knows (used.orInsert name true) fun other => known other ∨ other = name where
  keys other := by
    rw [UsedFragments.orInsert, mem_map_fst_upsert, knows.keys, or_comm, eq_comm]
  flags := forall_mem_upsert knows.flags rfl fun _ old => knows.flags _ old

theorem record (names : List String) : Knows (used.record names true) fun other => known other ∨ other ∈ names := by
  induction names generalizing used known with
  | nil => simpa [UsedFragments.record] using knows
  | cons name rest ih =>
    exact (ih (knows.orInsert name)).congr (by simp [or_assoc])

theorem lookup_isSome_iff (name : String) : (used.lookup name).isSome ↔ known name := by
  rw [← knows.keys, isSome_lookup]

theorem isUsed_iff (fragment : FragmentDefinition) : isUsed used (.fragment fragment) ↔ known fragment.name := by
  rw [← knows.lookup_isSome_iff, isUsed]
  cases found : used.lookup fragment.name with
  | none => simp
  | some flag =>
    have isTrue : flag = true := knows.flags _ (mem_of_lookup_eq_some found)
    simp [isTrue]

end
end Knows

/-- A fragment is followed if it is spread directly, or in a followed fragment that is defined before it. -/
inductive Followed (direct : String → Prop) (fragments : List FragmentDefinition) : Nat → Prop where
  | direct {index : Nat} {fragment : FragmentDefinition} (found : fragments[index]? = some fragment)
      (spread : direct fragment.name) : Followed direct fragments index
  | later {index before : Nat} {fragment parent : FragmentDefinition} (order : before < index)
      (followed : Followed direct fragments before) (isParent : fragments[before]? = some parent)
      (found : fragments[index]? = some fragment) (spread : fragment.name ∈ parent.spreads) :
      Followed direct fragments index

/-- The name is spread directly or in a fragment that is followed. -/
def Known (direct : String → Prop) (fragments : List FragmentDefinition) (name : String) : Prop :=
  direct name ∨ ∃ index fragment, Followed direct fragments index ∧ fragments[index]? = some fragment ∧
    name ∈ fragment.spreads

def knownAfter (direct : String → Prop) (fragment : FragmentDefinition) (name : String) : Prop :=
  direct name ∨ direct fragment.name ∧ name ∈ fragment.spreads

section Pass
variable {direct : String → Prop} {first : FragmentDefinition} {rest : List FragmentDefinition}

theorem followed_zero : Followed direct (first :: rest) 0 ↔ direct first.name := by
  constructor
  · intro followed
    cases followed with
    | direct found spread =>
      cases found
      exact spread
    | later order => omega
  · exact .direct rfl

theorem followed_succ {index : Nat} :
    Followed direct (first :: rest) (index + 1) ↔ Followed (knownAfter direct first) rest index := by
  constructor
  · intro followed
    generalize same : index + 1 = position at followed
    induction followed generalizing index with
    | direct found spread =>
      subst same
      exact .direct found (.inl spread)
    | @later position before fragment parent order followed isParent found spread ih =>
      subst same
      cases before with
      | zero =>
        cases isParent
        exact .direct found (.inr ⟨followed_zero.mp followed, spread⟩)
      | succ before => exact .later (by omega) (ih rfl) isParent found spread
  · intro followed
    induction followed with
    | direct found spread =>
      rcases spread with direct | ⟨ofFirst, spread⟩
      · exact .direct found direct
      · exact .later (Nat.succ_pos _) (followed_zero.mpr ofFirst) rfl found spread
    | later order followed isParent found spread ih => exact .later (Nat.succ_lt_succ order) ih isParent found spread

theorem known_cons {name : String} : Known direct (first :: rest) name ↔ Known (knownAfter direct first) rest name := by
  constructor
  · rintro (isDirect | ⟨index, fragment, followed, found, spread⟩)
    · exact .inl (.inl isDirect)
    · cases index with
      | zero =>
        cases found
        exact .inl (.inr ⟨followed_zero.mp followed, spread⟩)
      | succ index => exact .inr ⟨index, fragment, followed_succ.mp followed, found, spread⟩
  · rintro ((isDirect | ⟨ofFirst, spread⟩) | ⟨index, fragment, followed, found, spread⟩)
    · exact .inl isDirect
    · exact .inr ⟨0, first, followed_zero.mpr ofFirst, rfl, spread⟩
    · exact .inr ⟨index + 1, fragment, followed_succ.mpr followed, found, spread⟩

end Pass

structure Visited (direct : String → Prop) (fragments results : List FragmentDefinition) : Prop where
  names : results.map FragmentDefinition.name = fragments.map FragmentDefinition.name
  followed : ∀ index fragment, fragments[index]? = some fragment → Followed direct fragments index →
    results[index]? = some (normalFragment fragment)
  skipped : ∀ index fragment, fragments[index]? = some fragment → ¬ Followed direct fragments index →
    results[index]? = some fragment

variable {direct : String → Prop}

theorem Visited.cons {first result : FragmentDefinition} {rest results : List FragmentDefinition}
    (visited : Visited (knownAfter direct first) rest results) (name : result.name = first.name)
    (followed : direct first.name → result = normalFragment first) (skipped : ¬ direct first.name → result = first) :
    Visited direct (first :: rest) (result :: results) where
  names := by rw [map_cons, map_cons, name, visited.names]
  followed index fragment found isFollowed := by
    cases index with
    | zero =>
      cases found
      exact congrArg some (followed (followed_zero.mp isFollowed))
    | succ index => exact visited.followed index fragment found (followed_succ.mp isFollowed)
  skipped index fragment found isSkipped := by
    cases index with
    | zero =>
      cases found
      exact congrArg some (skipped fun isDirect => isSkipped (followed_zero.mpr isDirect))
    | succ index =>
      exact visited.skipped index fragment found fun isFollowed => isSkipped (followed_succ.mpr isFollowed)

/-- The pass over the fragments normalizes those that are followed and ends with the known names. -/
theorem visitFragments_spec {used : UsedFragments} (knows : Knows used direct)
    (fragments : List FragmentDefinition) : Visited direct fragments (visitFragments fragments used).1 ∧
      Knows (visitFragments fragments used).2 (Known direct fragments) := by
  induction fragments generalizing direct used with
  | nil =>
    exact ⟨⟨rfl, by simp, by simp⟩, knows.congr (by simp [Known])⟩
  | cons first rest ih =>
    simp only [visitFragments, normalizeFragment_eq]
    by_cases isDirect : direct first.name
    · have contained : used.containsKey first.name = true := (knows.lookup_isSome_iff first.name).mpr isDirect
      have next : Knows (used.record first.spreads true) (knownAfter direct first) :=
        (knows.record first.spreads).congr (by simp [knownAfter, isDirect])
      obtain ⟨visited, known⟩ := ih next
      rw [if_pos contained]
      exact ⟨visited.cons rfl (fun _ => rfl) (fun skipped => absurd isDirect skipped),
        known.congr fun _ => known_cons.symm⟩
    · have contained : ¬ used.containsKey first.name = true := fun found =>
        isDirect ((knows.lookup_isSome_iff first.name).mp found)
      have next : Knows used (knownAfter direct first) := knows.congr (by simp [knownAfter, isDirect])
      obtain ⟨visited, known⟩ := ih next
      rw [if_neg contained]
      exact ⟨visited.cons rfl (fun found => absurd found isDirect) (fun _ => rfl),
        known.congr fun _ => known_cons.symm⟩

theorem fragmentsOf_filter_isUsed (used : UsedFragments) (definitions : List Definition) :
    fragmentsOf (definitions.filter (isUsed used)) =
      (fragmentsOf definitions).filter fun fragment => isUsed used (.fragment fragment) := by
  simp only [fragmentsOf, filterMap_filter, filter_filterMap]
  refine filterMap_congr fun definition _ => ?_
  cases definition with
  | operation operation => rfl
  | fragment fragment => simp [Definition.fragment?, Option.filter]

theorem operationsOf_filter_isUsed (used : UsedFragments) (definitions : List Definition) :
    operationsOf (definitions.filter (isUsed used)) = operationsOf definitions := by
  simp only [operationsOf, filterMap_filter]
  refine filterMap_congr fun definition _ => ?_
  cases definition with
  | operation operation => rfl
  | fragment fragment => simp [Definition.operation?]

section Documents
variable (document : Document) (operationName : Option String)

/-- A name that is spread in an operation that is kept. -/
def Direct (name : String) : Prop := ∃ operation ∈ retainedOperations document operationName, name ∈ operation.spreads

def fragments : List FragmentDefinition := fragmentsOf document.definitions

/-- What the normalizer returns: normalized operations after the known fragments. -/
theorem normalizeDocument_spec : ∃ results, Visited (Direct document operationName) (fragments document) results ∧
      ∃ isKept : FragmentDefinition → Bool,
        (∀ fragment, isKept fragment ↔ Known (Direct document operationName) (fragments document) fragment.name) ∧
        normalizeDocument document operationName =
          ⟨assemble (results.filter isKept) ((retainedOperations document operationName).map normalOperation)⟩ := by
  obtain ⟨operations, kept, recorded⟩ := normalizeOperations_eq (retainOperation operationName document) []
  have direct : Knows (normalizeOperations (retainOperation operationName document) []).2
    (Direct document operationName) := by
    rw [recorded]
    exact (Knows.initial.record _).congr (by simp [Direct, retainedOperations])
  obtain ⟨sameOperations, results, final⟩ := normalizeFragments_eq
    (normalizeOperations (retainOperation operationName document) []).1
    (normalizeOperations (retainOperation operationName document) []).2
  rw [kept, fragmentsOf_retainOperation] at results final
  obtain ⟨visited, known⟩ := visitFragments_spec direct (fragments document)
  refine ⟨_, visited, fun fragment => isUsed (visitFragments (fragments document)
    (normalizeOperations (retainOperation operationName document) []).2).2 (.fragment fragment), known.isUsed_iff, ?_⟩
  simp only [normalizeDocument, sortBy_sortDefinition, fragmentsOf_filter_isUsed, operationsOf_filter_isUsed, results,
    final, sameOperations, operations]
  rfl

end Documents

/-- The names that are reached from the operations through any fragments. -/
inductive Reached (direct : String → Prop) (fragments : List FragmentDefinition) : String → Prop where
  | direct {name : String} (spread : direct name) : Reached direct fragments name
  | spread {name : String} {fragment : FragmentDefinition} (defined : fragment ∈ fragments)
      (reached : Reached direct fragments fragment.name) (spread : name ∈ fragment.spreads) :
      Reached direct fragments name

variable {name : String}

theorem reached_of_followed {fragments : List FragmentDefinition} {index : Nat}
    (followed : Followed direct fragments index) {fragment : FragmentDefinition}
    (found : fragments[index]? = some fragment) : Reached direct fragments fragment.name := by
  induction followed generalizing fragment with
  | direct isFragment spread =>
    cases Option.mem_unique isFragment found
    exact .direct spread
  | later order followed isParent isFragment spread ih =>
    cases Option.mem_unique isFragment found
    exact .spread (mem_of_getElem? isParent) (ih isParent) spread

theorem reached_of_known {fragments : List FragmentDefinition}
    (known : Known direct fragments name) : Reached direct fragments name := by
  rcases known with isDirect | ⟨index, fragment, followed, found, spread⟩
  · exact .direct isDirect
  · exact .spread (mem_of_getElem? found) (reached_of_followed followed found) spread

/-- The fragments that are kept are those that are known at the end. -/
theorem mem_names_normalizeDocument {document : Document} {operationName : Option String} :
    name ∈ (fragments (normalizeDocument document operationName)).map FragmentDefinition.name ↔
      name ∈ (fragments document).map FragmentDefinition.name ∧
        Known (Direct document operationName) (fragments document) name := by
  obtain ⟨results, visited, isKept, kept, same⟩ := normalizeDocument_spec document operationName
  rw [same, fragments, fragmentsOf_assemble, ← visited.names]
  simp only [mem_map, mem_sortByKey, mem_filter]
  constructor
  · rintro ⟨fragment, ⟨member, isKept⟩, rfl⟩
    exact ⟨⟨fragment, member, rfl⟩, (kept fragment).mp isKept⟩
  · rintro ⟨⟨fragment, member, rfl⟩, known⟩
    exact ⟨fragment, ⟨member, (kept fragment).mpr known⟩, rfl⟩

/-- The fragments of the result are the ones that can be reached. -/
def KeepsReached (document : Document) (operationName : Option String) : Prop :=
  ∀ name, name ∈ (fragments (normalizeDocument document operationName)).map FragmentDefinition.name ↔
    name ∈ (fragments document).map FragmentDefinition.name ∧
      Reached (Direct document operationName) (fragments document) name

/-- Exactly the reachable fragments are kept if and only if each of them is spread in an operation or in a fragment that
is followed. -/
theorem keepsReached_iff (document : Document) (operationName : Option String) : KeepsReached document operationName ↔
      ∀ fragment ∈ fragments document, Reached (Direct document operationName) (fragments document) fragment.name →
        Known (Direct document operationName) (fragments document) fragment.name := by
  constructor
  · intro keeps fragment defined reached
    have kept := (keeps fragment.name).mpr ⟨mem_map_of_mem defined, reached⟩
    exact (mem_names_normalizeDocument.mp kept).2
  · intro known name
    rw [mem_names_normalizeDocument]
    refine and_congr_right fun defined => ⟨reached_of_known, fun reached => ?_⟩
    obtain ⟨fragment, member, rfl⟩ := mem_map.mp defined
    exact known fragment member reached

/-- The document `{ ...A } fragment C on T { x } fragment B on T { ...C } fragment A on T { ...B }`. -/
def backwardChain : Document where
  definitions := [
    .operation (.selectionSet [.fragmentSpread "A" []]),
    .fragment ⟨"C", "T", [], [.field none "x" [] [] []]⟩,
    .fragment ⟨"B", "T", [], [.fragmentSpread "C" []]⟩,
    .fragment ⟨"A", "T", [], [.fragmentSpread "B" []]⟩]

theorem not_keepsReached_backwardChain : ¬ KeepsReached backwardChain none := by
  intro keeps
  have reached : Reached (Direct backwardChain none) (fragments backwardChain) "C" := by
    have first : Reached (Direct backwardChain none) (fragments backwardChain) "A" :=
      .direct ⟨_, mem_cons_self .., mem_cons_self ..⟩
    have second : Reached (Direct backwardChain none) (fragments backwardChain) "B" :=
      .spread (mem_cons_of_mem _ (mem_cons_of_mem _ (mem_cons_self ..))) first (mem_cons_self ..)
    exact .spread (mem_cons_of_mem _ (mem_cons_self ..)) second (mem_cons_self ..)
  have kept := (keeps "C").mpr ⟨by decide, reached⟩
  revert kept
  decide +kernel

end Grafbase.Normalizer
