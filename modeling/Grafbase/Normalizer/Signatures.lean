import Grafbase.Normalizer.Arrangements
import Grafbase.Normalizer.UsedFragments

/-! When the arrangements of a document have one signature.

Fragments that an operation spreads are normalized in every order of the
definitions. A fragment that only such a fragment spreads is kept in every
order, but it is normalized only where it is defined later. Fragments further
away are kept in some orders only.
-/

set_option autoImplicit false

namespace Grafbase.Normalizer
open Foundation List
section Names
variable (document : Document) (operationName : Option String)

/-- A name that is spread in an operation, or in a fragment that an operation spreads. -/
def Near (name : String) : Prop :=
  Direct document operationName name ∨
    ∃ fragment ∈ fragments document, Direct document operationName fragment.name ∧ name ∈ fragment.spreads

def keepsOperation : Option String → OperationDefinition → Bool
  | none, _ => true
  | some _, .selectionSet _ => true
  | some operationName, .operation _ name _ _ _ => name = some operationName

theorem retainedOperations_eq : retainedOperations document operationName =
      (operationsOf document.definitions).filter (keepsOperation operationName) := by
  cases operationName with
  | none => exact (filter_eq_self.mpr fun _ _ => rfl).symm
  | some name =>
    simp only [retainedOperations, retainOperation, operationsOf, filterMap_filter, filter_filterMap]
    refine filterMap_congr fun definition _ => ?_
    cases definition with
    | fragment fragment => rfl
    | operation operation =>
      cases operation with
      | selectionSet items => rfl
      | operation kind own variableDefinitions directives items =>
        by_cases same : own = some name <;> simp [isRetained, keepsOperation, Definition.operation?,
          Option.filter, same]

variable {document operationName}

theorem keepsOperation_of_similar {first second : OperationDefinition} (similar : SimilarOperation first second) :
    keepsOperation operationName second = keepsOperation operationName first := by
  cases operationName <;> cases similar <;> rfl

theorem forall₂_filter {α β : Type} {related : α → β → Prop} {items : List α} {others : List β}
    (each : List.Forall₂ related items others) {keeps : β → Bool} {keepsItem : α → Bool}
    (same : ∀ item other, related item other → keeps other = keepsItem item) :
    List.Forall₂ related (items.filter keepsItem) (others.filter keeps) := by
  induction each with
  | nil => exact .nil
  | cons head _ ih =>
    rw [filter_cons, filter_cons, same _ _ head]
    split
    · exact .cons head ih
    · exact ih

variable {other : Document} {name : String}

theorem retainedOperations_similar (similar : SimilarDocument document other) :
    List.Forall₂ SimilarOperation (retainedOperations document operationName)
      (retainedOperations other operationName) := by
  rw [retainedOperations_eq, retainedOperations_eq]
  exact forall₂_filter similar.operations fun _ _ => keepsOperation_of_similar

theorem direct_of_similar (similar : SimilarDocument document other) :
    Direct other operationName name ↔ Direct document operationName name := by
  refine (Rearranged.exists_iff (.of_forall₂ (retainedOperations_similar similar)) ?_).symm
  exact fun operation _ other same => same.mem_spreads

theorem near_of_similar (similar : SimilarDocument document other) :
    Near other operationName name ↔ Near document operationName name := by
  refine or_congr (direct_of_similar similar) ?_
  simp only [direct_of_similar similar]
  refine (similar.fragments.exists_iff fun fragment _ other same => ?_).symm
  rw [same.name, same.mem_spreads]

theorem known_of_near (near : Near document operationName name) :
    Known (Direct document operationName) (fragments document) name := by
  rcases near with direct | ⟨fragment, defined, direct, spread⟩
  · exact .inl direct
  · obtain ⟨index, found⟩ := mem_iff_getElem?.mp defined
    exact .inr ⟨index, fragment, .direct found direct, found, spread⟩

end Names

section Outcome
variable {document : Document} {operationName : Option String}

/-- Nothing but near fragments is reached, and those that are not spread in an operation are normal already. -/
structure Tame (document : Document) (operationName : Option String) : Prop where
  closed : ∀ fragment ∈ fragments document, Near document operationName fragment.name →
    ∀ other ∈ fragments document, other.name ∈ fragment.spreads → Near document operationName other.name
  normal : ∀ fragment ∈ fragments document, Near document operationName fragment.name →
    ¬ Direct document operationName fragment.name → normalFragment fragment = fragment

variable {fragment : FragmentDefinition}

theorem near_of_followed (tame : Tame document operationName) {index : Nat}
    (followed : Followed (Direct document operationName) (fragments document) index)
    (found : (fragments document)[index]? = some fragment) : Near document operationName fragment.name := by
  induction followed generalizing fragment with
  | direct isFragment direct =>
    cases Option.mem_unique isFragment found
    exact .inl direct
  | later order followed isParent isFragment spread ih =>
    cases Option.mem_unique isFragment found
    exact tame.closed _ (mem_of_getElem? isParent) (ih isParent) _ (mem_of_getElem? found) spread

/-- The result for a near fragment is its normal form, whether it was followed or not. -/
theorem Visited.forall₂ (tame : Tame document operationName) {results : List FragmentDefinition}
    (visited : Visited (Direct document operationName) (fragments document) results) :
    List.Forall₂ (fun fragment result => result.name = fragment.name ∧
      (Near document operationName fragment.name → result = normalFragment fragment)) (fragments document) results := by
  have lengths : (fragments document).length = results.length := by
    have same := congrArg List.length visited.names
    rw [length_map, length_map] at same
    exact same.symm
  refine forall₂_iff_get.mpr ⟨lengths, fun index bound otherBound => ?_⟩
  have found := getElem?_eq_getElem bound
  have isResult := getElem?_eq_getElem otherBound
  simp only [get_eq_getElem]
  by_cases followed : Followed (Direct document operationName) (fragments document) index
  · have same := Option.mem_unique isResult (visited.followed index _ found followed)
    rw [same]
    exact ⟨rfl, fun _ => rfl⟩
  · have same := Option.mem_unique isResult (visited.skipped index _ found followed)
    rw [same]
    refine ⟨rfl, fun near => (tame.normal _ (getElem_mem bound) near fun direct => ?_).symm⟩
    exact followed (.direct found direct)

open Classical in
theorem normalizeDocument_of_tame (tame : Tame document operationName) : normalizeDocument document operationName =
      ⟨assemble (((fragments document).filter fun fragment => Near document operationName fragment.name).map
        normalFragment)
        ((retainedOperations document operationName).map normalOperation)⟩ := by
  obtain ⟨results, visited, isKept, kept, same⟩ := normalizeDocument_spec document operationName
  rw [same]
  congr 2
  have each := visited.forall₂ tame
  have near : ∀ fragment ∈ fragments document, ∀ result, result.name = fragment.name →
      (isKept result ↔ Near document operationName fragment.name) := by
    intro fragment defined result named
    rw [kept, named]
    refine ⟨?_, known_of_near⟩
    rintro (direct | ⟨index, parent, followed, isParent, spread⟩)
    · exact .inl direct
    · exact tame.closed parent (mem_of_getElem? isParent) (near_of_followed tame followed isParent) fragment
        defined spread
  clear same visited
  generalize fragments document = all at each near
  induction each with
  | nil => rfl
  | @cons fragment result _ _ head _ ih =>
    obtain ⟨here, later⟩ := forall_mem_cons.mp near
    have first := here _ head.1
    by_cases isNear : Near document operationName fragment.name
    · rw [filter_cons_of_pos (first.mpr isNear), filter_cons_of_pos (by simpa using isNear), map_cons,
        head.2 isNear, ih later]
    · rw [filter_cons_of_neg (fun keeps => isNear (first.mp keeps)), filter_cons_of_neg (by simpa using isNear),
        ih later]

end Outcome

/-- Operations and the fragments they spread are settled; fragments that only those spread have one arrangement, and
spread nothing new; fragments of one name have one normal form. -/
structure Settled (document : Document) (operationName : Option String) : Prop where
  operations : ∀ operation ∈ retainedOperations document operationName, OperationSettled operation
  direct : ∀ fragment ∈ fragments document, Direct document operationName fragment.name → FragmentSettled fragment
  rigid : ∀ fragment ∈ fragments document, Near document operationName fragment.name →
    ¬ Direct document operationName fragment.name → ∀ other, SimilarFragment fragment other → other = fragment
  closed : ∀ fragment ∈ fragments document, Near document operationName fragment.name →
    ∀ other ∈ fragments document, other.name ∈ fragment.spreads → Near document operationName other.name
  ties : ∀ first ∈ fragments document, ∀ second ∈ fragments document, Near document operationName first.name →
    first.name = second.name → normalFragment first = normalFragment second

section Sufficient
variable {document : Document} {operationName : Option String}

theorem Settled.tame (settled : Settled document operationName) : Tame document operationName where
  closed := settled.closed
  normal fragment defined near notDirect :=
    settled.rigid fragment defined near notDirect _ (similar_normalFragment fragment)

variable {other : FragmentDefinition}

theorem exists_similar_of_mem {first second : Document} (similar : SimilarDocument first second)
    (defined : other ∈ fragments second) :
    ∃ fragment ∈ fragments first, SimilarFragment fragment other := by
  obtain ⟨middle, perm, each⟩ := similar.fragments.exists_perm
  obtain ⟨fragment, member, same⟩ := exists_left_of_forall₂ each defined
  exact ⟨fragment, perm.mem_iff.mpr member, same⟩

/-- The arrangements of a settled document are tame as well. -/
theorem Settled.tame_of_similar (settled : Settled document operationName) {other : Document}
    (similar : SimilarDocument document other) : Tame other operationName where
  closed fragment defined near next nextDefined spread := by
    obtain ⟨original, isOriginal, same⟩ := exists_similar_of_mem similar defined
    obtain ⟨originalNext, isNext, sameNext⟩ := exists_similar_of_mem similar nextDefined
    rw [near_of_similar similar] at near ⊢
    rw [← sameNext.name] at spread ⊢
    exact settled.closed original isOriginal (same.name ▸ near) originalNext isNext (same.mem_spreads.mpr spread)
  normal fragment defined near notDirect := by
    obtain ⟨original, isOriginal, same⟩ := exists_similar_of_mem similar defined
    rw [near_of_similar similar] at near
    rw [direct_of_similar similar] at notDirect
    rw [← same.name] at near notDirect
    obtain rfl := settled.rigid original isOriginal near notDirect fragment same
    exact settled.tame.normal fragment isOriginal near notDirect

theorem map_eq_of_forall₂ {α β : Type} {related : α → α → Prop} {items others : List α}
    (each : List.Forall₂ related items others) {normal : α → β}
    (same : ∀ item ∈ items, ∀ other, related item other → normal other = normal item) :
    others.map normal = items.map normal := by
  induction each with
  | nil => rfl
  | cons head _ ih =>
    obtain ⟨here, later⟩ := forall_mem_cons.mp same
    rw [map_cons, map_cons, here _ head, ih later]

/-- All arrangements of a settled document have the same result. -/
theorem Settled.normalizeDocument_eq (settled : Settled document operationName) {other : Document}
    (similar : SimilarDocument document other) :
    normalizeDocument other operationName = normalizeDocument document operationName := by
  classical
  rw [normalizeDocument_of_tame settled.tame, normalizeDocument_of_tame (settled.tame_of_similar similar)]
  have operations : (retainedOperations other operationName).map normalOperation =
      (retainedOperations document operationName).map normalOperation := by
    refine map_eq_of_forall₂ (retainedOperations_similar similar) fun operation retained => ?_
    exact (operationSettled_iff operation).mpr (settled.operations operation retained)
  obtain ⟨middle, perm, each⟩ := similar.fragments.exists_perm
  have normals : ((fragments other).filter fun fragment => Near other operationName fragment.name).map normalFragment =
      (middle.filter fun fragment => Near document operationName fragment.name).map normalFragment := by
    have nearEach := forall₂_filter each fun fragment arranged same =>
      show decide (Near other operationName arranged.name) = decide (Near document operationName fragment.name) by
        simp only [near_of_similar similar, same.name]
    refine map_eq_of_forall₂ nearEach fun fragment member arranged same => ?_
    obtain ⟨inMiddle, near⟩ := mem_filter.mp member
    have defined := perm.mem_iff.mpr inMiddle
    by_cases direct : Direct document operationName fragment.name
    · exact (fragmentSettled_iff fragment).mpr (settled.direct fragment defined direct) arranged same
    · rw [settled.rigid fragment defined (of_decide_eq_true near) direct arranged same]
  rw [operations, normals, assemble, assemble]
  congr 2
  refine sortByKey_eq_of_perm ((perm.symm.filter _).map _) fun first isFirst second isSecond sameName => ?_
  obtain ⟨fragment, member, rfl⟩ := mem_map.mp isFirst
  obtain ⟨otherFragment, otherMember, rfl⟩ := mem_map.mp isSecond
  obtain ⟨inMiddle, near⟩ := mem_filter.mp member
  obtain ⟨otherInMiddle, _⟩ := mem_filter.mp otherMember
  exact settled.ties fragment (perm.mem_iff.mpr inMiddle) otherFragment (perm.mem_iff.mpr otherInMiddle)
    (of_decide_eq_true near) sameName

/-- The result of a settled document is its own result. -/
theorem Settled.normalizeDocument_idem (settled : Settled document operationName) :
    normalizeDocument (normalizeDocument document operationName) operationName =
      normalizeDocument document operationName := by
  classical
  generalize result : normalizeDocument document operationName = normalized
  rw [normalizeDocument_of_tame settled.tame] at result
  have fragments_eq : fragments normalized = sortByKey FragmentDefinition.name
      (((fragments document).filter fun fragment => Near document operationName fragment.name).map normalFragment) := by
    rw [← result]
    exact fragmentsOf_assemble ..
  have operations_eq : operationsOf normalized.definitions =
      (retainedOperations document operationName).map normalOperation := by
    rw [← result]
    exact operationsOf_assemble ..
  have retained_eq : retainedOperations normalized operationName =
      (retainedOperations document operationName).map normalOperation := by
    rw [retainedOperations_eq, operations_eq]
    refine filter_eq_self.mpr fun operation member => ?_
    obtain ⟨original, retained, rfl⟩ := mem_map.mp member
    rw [retainedOperations_eq] at retained
    rw [keepsOperation_of_similar (similar_normalOperation original)]
    exact (mem_filter.mp retained).2
  have direct (name : String) : Direct normalized operationName name ↔ Direct document operationName name := by
    simp only [Direct, retained_eq, mem_map, exists_exists_and_eq_and]
    exact exists_congr fun operation => and_congr_right fun _ => (similar_normalOperation operation).mem_spreads.symm
  have origin (fragment : FragmentDefinition) (defined : fragment ∈ fragments normalized) :
      ∃ original ∈ fragments document, Near document operationName original.name ∧
        normalFragment original = fragment := by
    rw [fragments_eq, mem_sortByKey] at defined
    obtain ⟨original, member, rfl⟩ := mem_map.mp defined
    exact ⟨original, (mem_filter.mp member).1, of_decide_eq_true (mem_filter.mp member).2, rfl⟩
  have near (name : String) (isNear : Near document operationName name) : Near normalized operationName name := by
    rcases isNear with isDirect | ⟨fragment, defined, isDirect, spread⟩
    · exact .inl ((direct name).mpr isDirect)
    · refine .inr ⟨normalFragment fragment, ?_, (direct _).mpr isDirect, ?_⟩
      · rw [fragments_eq, mem_sortByKey]
        exact mem_map_of_mem (mem_filter.mpr ⟨defined, by simpa using .inl isDirect⟩)
      · exact (similar_normalFragment fragment).mem_spreads.mp spread
  have tame : Tame normalized operationName := by
    refine ⟨fun _ _ _ other defined _ => ?_, fun fragment defined _ _ => ?_⟩
    · obtain ⟨original, _, isNear, rfl⟩ := origin other defined
      exact near _ isNear
    · obtain ⟨original, _, _, rfl⟩ := origin fragment defined
      exact normalFragment_idem original
  -- Everything is kept, and everything is normal already.
  have all : ((fragments normalized).filter fun fragment => Near normalized operationName fragment.name) =
      fragments normalized := by
    refine filter_eq_self.mpr fun fragment defined => ?_
    obtain ⟨original, _, isNear, rfl⟩ := origin fragment defined
    exact decide_eq_true (near _ isNear)
  have normals : (fragments normalized).map normalFragment = fragments normalized := by
    refine (map_congr_left fun fragment defined => ?_).trans (map_id _)
    obtain ⟨original, _, _, rfl⟩ := origin fragment defined
    exact normalFragment_idem original
  have operations : ((retainedOperations document operationName).map normalOperation).map normalOperation =
      (retainedOperations document operationName).map normalOperation := by
    rw [map_map]
    exact map_congr_left fun operation _ => normalOperation_idem operation
  rw [normalizeDocument_of_tame tame, all, normals, retained_eq, operations, fragments_eq, ← result, assemble, assemble,
    sortByKey_sortByKey]

end Sufficient

section Necessary
variable {document : Document} {operationName : Option String}

/-- All arrangements have the same result. -/
def Invariant (document : Document) (operationName : Option String) : Prop :=
  ∀ other, SimilarDocument document other →
    normalizeDocument other operationName = normalizeDocument document operationName

def withFragments (document : Document) (fragments : List FragmentDefinition) : Document :=
  ⟨documentOf fragments (operationsOf document.definitions)⟩

@[simp] theorem fragments_withFragments (document : Document) (others : List FragmentDefinition) :
    fragments (withFragments document others) = others :=
  fragmentsOf_documentOf ..

@[simp] theorem direct_withFragments (document : Document) (others : List FragmentDefinition) :
    Direct (withFragments document others) operationName = Direct document operationName := by
  funext name
  simp only [Direct, retainedOperations_eq, withFragments, operationsOf_documentOf]

variable {others : List FragmentDefinition} {first fragment : FragmentDefinition}

theorem similar_withFragments (rearranged : Rearranged SimilarFragment (fragments document) others) :
    SimilarDocument document (withFragments document others) where
  operations := by
    rw [withFragments, operationsOf_documentOf]
    exact forall₂_same.mpr fun operation _ => .refl operation
  fragments := by
    rw [withFragments, fragmentsOf_documentOf]
    exact rearranged

/-- A near fragment can be put first, where it is followed only if an operation spreads it. -/
theorem Invariant.front (invariant : Invariant document operationName) {other : FragmentDefinition}
    (defined : fragment ∈ fragments document) (near : Near document operationName fragment.name)
    (similar : SimilarFragment fragment other) : ∃ result others, fragments (normalizeDocument document operationName) =
        sortByKey FragmentDefinition.name (result :: others) ∧ result.name = fragment.name ∧
      (Direct document operationName fragment.name → result = normalFragment other) ∧
      (¬ Direct document operationName fragment.name → result = other) := by
  obtain ⟨before, after, split⟩ := append_of_mem defined
  have rearranged : Rearranged SimilarFragment (fragments document) (other :: (before ++ after)) := by
    rw [split]
    exact .reorder perm_middle (.cons similar (Rearranged.refl_of fun item _ => .refl item))
  have arranged := similar_withFragments rearranged
  have known := known_of_near ((near_of_similar arranged).mpr near)
  obtain ⟨results, visited, isKept, kept, same⟩ := normalizeDocument_spec _ operationName
  rw [invariant _ arranged] at same
  rw [fragments_withFragments, direct_withFragments] at visited
  have names := visited.names
  cases results with
  | nil => simp at names
  | cons result others =>
    have sameName : result.name = fragment.name := (List.cons.inj names).1.trans similar.name.symm
    rw [similar.name]
    refine ⟨result, others.filter isKept, ?_, (List.cons.inj names).1, fun direct => ?_, fun notDirect => ?_⟩
    · rw [same, fragments, fragmentsOf_assemble, filter_cons_of_pos ((kept result).mpr (sameName ▸ known))]
    · exact Option.some.inj (visited.followed 0 other rfl (followed_zero.mpr direct))
    · exact Option.some.inj (visited.skipped 0 other rfl fun followed => notDirect (followed_zero.mp followed))

/-- Fragments of one name can take each other's place in front of the others. -/
theorem Invariant.heads (invariant : Invariant document operationName)
    {second firstOther secondOther : FragmentDefinition}
    (isFirst : first ∈ fragments document) (isSecond : second ∈ fragments document)
      (sameName : first.name = second.name)
    (near : Near document operationName first.name) (ofFirst : SimilarFragment first firstOther)
    (ofSecond : SimilarFragment second secondOther) :
    (Direct document operationName first.name → normalFragment firstOther = normalFragment secondOther) ∧
      (¬ Direct document operationName first.name → firstOther = secondOther) := by
  obtain ⟨result, others, sorted, named, followed, skipped⟩ := invariant.front isFirst near ofFirst
  obtain ⟨otherResult, otherOthers, otherSorted, otherNamed, otherFollowed, otherSkipped⟩ :=
    invariant.front isSecond (sameName ▸ near) ofSecond
  have same := head_of_sortByKey_eq (sorted.symm.trans otherSorted) (named.trans (sameName.trans otherNamed.symm))
  refine ⟨fun direct => ?_, fun notDirect => ?_⟩
  · rw [← followed direct, same, otherFollowed (sameName ▸ direct)]
  · rw [← skipped notDirect, same, otherSkipped (sameName ▸ notDirect)]

/-- Where all fragments that no operation spreads come first, none of them is followed. -/
theorem direct_of_followed {directs : List FragmentDefinition}
    (all : ∀ fragment ∈ directs, Direct document operationName fragment.name)
    (none : ∀ fragment ∈ others, ¬ Direct document operationName fragment.name) {index : Nat}
    (followed : Followed (Direct document operationName) (others ++ directs) index)
    (found : (others ++ directs)[index]? = some fragment) : Direct document operationName fragment.name := by
  induction followed generalizing fragment with
  | direct isFragment direct =>
    cases Option.mem_unique isFragment found
    exact direct
  | @later index before isFragment parent order followed isParent _ spread ih =>
    -- The parent is spread in an operation, so it stands in the second part, and so does what follows it.
    have after : others.length ≤ before := by
      by_contra early
      rw [getElem?_append_left (by omega)] at isParent
      exact none parent (mem_of_getElem? isParent) (ih (by rwa [getElem?_append_left (by omega)]))
    rw [getElem?_append_right (by omega)] at found
    exact all fragment (mem_of_getElem? found)

section
variable (invariant : Invariant document operationName)
include invariant

theorem Invariant.closed {other : FragmentDefinition} (isFragment : fragment ∈ fragments document)
    (near : Near document operationName fragment.name) (isOther : other ∈ fragments document)
    (spread : other.name ∈ fragment.spreads) : Near document operationName other.name := by
  classical
  by_cases direct : Direct document operationName fragment.name
  · exact .inr ⟨fragment, isFragment, direct, spread⟩
  by_contra far
  obtain ⟨parent, isParent, parentDirect, parentSpread⟩ := near.resolve_left direct
  let directs := (fragments document).filter fun fragment => Direct document operationName fragment.name
  let others := (fragments document).filter fun fragment => ¬ Direct document operationName fragment.name
  have parts : (directs ++ others).Perm (fragments document) := by
    simpa [directs, others] using
      filter_append_perm (fun fragment => decide (Direct document operationName fragment.name)) (fragments document)
  have inOthers : fragment ∈ others := mem_filter.mpr ⟨isFragment, by simpa using direct⟩
  have inDirects : parent ∈ directs := mem_filter.mpr ⟨isParent, by simpa using parentDirect⟩
  obtain ⟨before, after, split⟩ := append_of_mem inOthers
  -- In one order the fragment follows its parent, in the other one it comes before all fragments that are followed.
  have forward : (fragments document).Perm (directs ++ fragment :: (before ++ after)) := by
    refine parts.symm.trans ?_
    rw [split]
    exact perm_middle.append_left directs
  have backward : (fragments document).Perm (others ++ directs) := parts.symm.trans perm_append_comm
  have kept : other.name ∈ (fragments (normalizeDocument document operationName)).map FragmentDefinition.name := by
    rw [← invariant _ (similar_withFragments (.of_perm SimilarFragment.refl forward)), mem_names_normalizeDocument,
      fragments_withFragments, direct_withFragments]
    refine ⟨mem_map_of_mem (forward.mem_iff.mp isOther), .inr ⟨directs.length, fragment, ?_, by simp, spread⟩⟩
    obtain ⟨index, found⟩ := mem_iff_getElem?.mp inDirects
    have bound : index < directs.length := index_lt found
    have isParentThere : (directs ++ fragment :: (before ++ after))[index]? = some parent :=
      getElem?_of_front (prefix_append ..) found
    exact .later bound (.direct isParentThere parentDirect) isParentThere (by simp) parentSpread
  rw [← invariant _ (similar_withFragments (.of_perm SimilarFragment.refl backward)), mem_names_normalizeDocument,
    fragments_withFragments, direct_withFragments] at kept
  rcases kept.2 with isDirect | ⟨index, follower, followed, found, spreads⟩
  · exact far (.inl isDirect)
  · have followerDirect := direct_of_followed (fun fragment member => of_decide_eq_true (mem_filter.mp member).2)
      (fun fragment member => of_decide_eq_true (mem_filter.mp member).2) followed found
    exact far (.inr ⟨follower, backward.mem_iff.mpr (mem_of_getElem? found), followerDirect, spreads⟩)

theorem Invariant.operationSettled {operation : OperationDefinition}
    (retained : operation ∈ retainedOperations document operationName) : OperationSettled operation := by
  rw [retainedOperations_eq] at retained
  obtain ⟨member, keeps⟩ := mem_filter.mp retained
  obtain ⟨before, after, split⟩ := append_of_mem member
  refine (operationSettled_iff operation).mp fun other similar => ?_
  have arranged : SimilarDocument document ⟨documentOf (fragments document) (before ++ other :: after)⟩ := by
    refine ⟨?_, ?_⟩
    · rw [operationsOf_documentOf, split]
      refine rel_append (forall₂_same.mpr fun item _ => .refl item) (.cons similar ?_)
      exact forall₂_same.mpr fun item _ => .refl item
    · rw [fragmentsOf_documentOf]
      exact Rearranged.refl_of fun item _ => .refl item
  have operations_eq (document : Document) : operationsOf (normalizeDocument document operationName).definitions =
      (retainedOperations document operationName).map normalOperation := by
    obtain ⟨results, _, isKept, _, same⟩ := normalizeDocument_spec document operationName
    rw [same, operationsOf_assemble]
  have same := congrArg (fun document => operationsOf document.definitions) (invariant _ arranged)
  simp only [operations_eq, retainedOperations_eq, operationsOf_documentOf, split, filter_append] at same
  rw [filter_cons_of_pos (by rwa [keepsOperation_of_similar similar]), filter_cons_of_pos keeps,
    map_append, map_append, map_cons, map_cons] at same
  exact (List.cons.inj (append_cancel_left same)).1

theorem Invariant.settled : Settled document operationName where
  operations operation retained := invariant.operationSettled retained
  direct fragment defined direct := (fragmentSettled_iff fragment).mp fun other similar =>
    (invariant.heads defined defined rfl (.inl direct) similar (.refl fragment)).1 direct
  rigid fragment defined near notDirect other similar :=
    (invariant.heads defined defined rfl near similar (.refl fragment)).2 notDirect
  closed fragment defined near other isOther spread := invariant.closed defined near isOther spread
  ties first isFirst second isSecond near sameName := by
    have heads := invariant.heads isFirst isSecond sameName near (.refl first) (.refl second)
    by_cases direct : Direct document operationName first.name
    · exact heads.1 direct
    · rw [heads.2 direct]

end
end Necessary

section Texts
variable {τ ε : Type} {parseQuery : τ → Except ε Document} {toText : Document → τ}

/-- Equivalent texts have the same signature, and a signature is its own signature. -/
structure SignatureStable (parseQuery : τ → Except ε Document) (toText : Document → τ) (sourceText : τ)
    (document : Document) (operationName : Option String) : Prop where
  invariant : ∀ otherText other, parseQuery otherText = .ok other → SimilarDocument document other →
    normalize parseQuery toText otherText operationName = normalize parseQuery toText sourceText operationName
  idempotent : ∀ signature, normalize parseQuery toText sourceText operationName = .ok signature →
    normalize parseQuery toText signature operationName = .ok signature

theorem normalize_eq_iff (inverse : ∀ document, parseQuery (toText document) = .ok document) {first second : τ}
    {document other : Document} {operationName : Option String} (parsed : parseQuery first = .ok document)
    (otherParsed : parseQuery second = .ok other) :
    normalize parseQuery toText first operationName = normalize parseQuery toText second operationName ↔
      normalizeDocument document operationName = normalizeDocument other operationName := by
  simp only [normalize, parsed, otherParsed]
  constructor
  · intro same
    split at same
    · next empty =>
      split at same
      · next otherEmpty =>
        rw [List.isEmpty_iff] at empty otherEmpty
        exact congrArg Document.mk (empty.trans otherEmpty.symm)
      · cases same
    · split at same
      · cases same
      · -- Different documents have different texts.
        have parsedAgain := congrArg parseQuery (Except.ok.inj same)
        rw [inverse, inverse] at parsedAgain
        exact Except.ok.inj parsedAgain
  · intro same
    rw [same]

/-- Where the printer is inverted by the parser, a document has one signature in all arrangements if and only if it is
settled. -/
theorem signatureStable_iff_settled (inverse : ∀ document, parseQuery (toText document) = .ok document) {sourceText : τ}
    {document : Document} (parsed : parseQuery sourceText = .ok document) (operationName : Option String) :
    SignatureStable parseQuery toText sourceText document operationName ↔ Settled document operationName := by
  constructor
  · rintro ⟨invariant, _⟩
    refine Invariant.settled fun other similar => ?_
    exact (normalize_eq_iff inverse (inverse other) parsed).mp (invariant (toText other) other (inverse other) similar)
  · intro settled
    refine ⟨fun otherText other otherParsed similar => ?_, fun signature succeeded => ?_⟩
    · exact (normalize_eq_iff inverse otherParsed parsed).mpr (settled.normalizeDocument_eq similar)
    · simp only [normalize, parsed] at succeeded
      split at succeeded
      · cases succeeded
      · next nonempty =>
        cases succeeded
        simp only [normalize, inverse, settled.normalizeDocument_idem, nonempty]
        rfl

end Texts

/-- Documents as their own texts. -/
def parseSelf : Document → Except Unit Document := Except.ok

def fieldWithVariable (name : String) : Selection := .field none "x" [("id", .leaf (.variable name))] [] []

/-- The documents `{ x(id: $a) x(id: $b) }` and `{ x(id: $b) x(id: $a) }`. -/
def twoFieldsOfOneName (first second : String) : Document :=
  ⟨[.operation (.selectionSet [fieldWithVariable first, fieldWithVariable second])]⟩

theorem not_signatureStable_twoFieldsOfOneName :
    ¬ SignatureStable parseSelf id (twoFieldsOfOneName "a" "b") (twoFieldsOfOneName "a" "b") none := by
  rintro ⟨invariant, _⟩
  have similar : SimilarDocument (twoFieldsOfOneName "a" "b") (twoFieldsOfOneName "b" "a") := by
    refine ⟨.cons (.selectionSet ?_) .nil, .nil⟩
    exact .of_perm SimilarSelection.refl (.swap ..)
  have same := invariant _ _ rfl similar
  have first : normalize parseSelf id (twoFieldsOfOneName "b" "a") none = .ok (twoFieldsOfOneName "b" "a") := rfl
  have second : normalize parseSelf id (twoFieldsOfOneName "a" "b") none = .ok (twoFieldsOfOneName "a" "b") := rfl
  rw [first, second] at same
  simp [twoFieldsOfOneName, fieldWithVariable] at same

/-- The document `{ user(id: "a", tenant: "b") { name } products }`. -/
def twoFields : Document := ⟨[.operation (.selectionSet [
  .field none "user" [("id", .leaf (.string "a")), ("tenant", .leaf (.string "b"))] [] [.field none "name" [] [] []],
  .field none "products" [] [] []])]⟩

theorem signatureStable_twoFields : SignatureStable parseSelf id twoFields twoFields none := by
  refine (signatureStable_iff_settled (fun _ => rfl) rfl none).mpr ?_
  have noFragments (fragment : FragmentDefinition) : fragment ∉ fragments twoFields := not_mem_nil
  refine ⟨fun operation retained => ?_, fun fragment member => absurd member (noFragments fragment),
    fun fragment member => absurd member (noFragments fragment),
    fun fragment member => absurd member (noFragments fragment),
    fun fragment member => absurd member (noFragments fragment)⟩
  obtain rfl := mem_singleton.mp retained
  have bare (name : String) : SelectionSettled (.field none name [] [] []) :=
    .field (by simp [ArgumentsSettled]) ⟨by simp, by simp⟩ (by simp) (by simp [TiesEqual])
  refine ⟨forall_mem_cons.mpr ⟨.field ?_ ⟨by simp, by simp⟩ (by simp [bare]) (by simp [TiesEqual]),
    by simp [bare]⟩, by simp [TiesEqual, selectionKey]⟩
  simp [ArgumentsSettled]

end Grafbase.Normalizer
