import Grafbase.Composition.Objects
import Mathlib.Data.List.Perm.Subperm

/-! What the composition of field types accepts and what it comes to.

Types of one name and one number of lists that agree below the outermost level
form a two-element lattice, nullable below required: outputs compose to the
meet, inputs to the join. The zipped walk over the wrappers accepts more than
that. It never looks at the levels when one of the types has no list, and it
does not see a list that only the accumulated type has on the outside.
-/

set_option autoImplicit false

namespace Grafbase.Composition
open Foundation List

namespace FieldType

/-- Which levels are non-null, from the innermost to the outermost. -/
def levels (self : FieldType) : List Bool :=
  self.innerIsRequired :: self.wrappers.map fun wrapper => decide (wrapper = .nonNullList)

/-- One named type, one number of lists, one nullability at every level but the outermost. -/
def SameShape (self other : FieldType) : Prop :=
  self.name = other.name ∧ self.wrappers.length = other.wrappers.length ∧
    self.levels.dropLast = other.levels.dropLast

/-- What the walk over the wrappers accepts. -/
def Fits (self other : FieldType) : Prop :=
  self.name = other.name ∧
    (self.wrappers = [] ∨ other.wrappers = [] ∨
      (self.levels.take (min self.wrappers.length other.wrappers.length) =
          other.levels.take (min self.wrappers.length other.wrappers.length) ∧
        (self.wrappers.length = other.wrappers.length ∨ self.wrappers.length = other.wrappers.length + 1)))

@[simp] theorem length_levels (self : FieldType) : self.levels.length = self.wrappers.length + 1 := by simp [levels]

theorem isNonNullList_injective :
    Function.Injective fun wrapper : WrapperTypeKind => decide (wrapper = .nonNullList) := by
  intro first second
  cases first <;> cases second <;> simp

variable {self other : FieldType}

theorem levels_inj (sameName : self.name = other.name) (same : self.levels = other.levels) : self = other := by
  obtain ⟨name, inner, wrappers⟩ := self
  obtain ⟨otherName, otherInner, otherWrappers⟩ := other
  obtain ⟨rfl, sameWrappers⟩ := List.cons.inj same
  obtain rfl := map_injective_iff.mpr isNonNullList_injective sameWrappers
  exact congrArg (fun name => FieldType.mk name inner wrappers) sameName

theorem isRequired_eq_getLast (self : FieldType) : self.levels.getLast (by simp [levels]) = self.isRequired := by
  obtain ⟨name, inner, wrappers⟩ := self
  unfold isRequired levels
  rcases eq_nil_or_concat wrappers with rfl | ⟨front, last, rfl⟩
  · rfl
  · cases last <;> simp

theorem SameShape.refl (self : FieldType) : SameShape self self := ⟨rfl, rfl, rfl⟩

theorem SameShape.symm (same : SameShape self other) : SameShape other self :=
  ⟨same.1.symm, same.2.1.symm, same.2.2.symm⟩

theorem SameShape.trans {middle : FieldType} (first : SameShape self middle) (second : SameShape middle other) :
    SameShape self other :=
  ⟨first.1.trans second.1, first.2.1.trans second.2.1, first.2.2.trans second.2.2⟩

theorem SameShape.fits (same : SameShape self other) : Fits self other := by
  obtain ⟨name, length, levels⟩ := same
  refine ⟨name, .inr (.inr ⟨?_, .inl length⟩)⟩
  rw [dropLast_eq_take, dropLast_eq_take] at levels
  simpa [length] using levels

instance (self other : FieldType) : Decidable (SameShape self other) := inferInstanceAs (Decidable (_ ∧ _))

instance (self other : FieldType) : Decidable (Fits self other) := inferInstanceAs (Decidable (_ ∧ _))

/-! ## The walk over the wrappers -/

theorem composeWrappers_done (otherIsRequired : Bool) {zipped : PeekableZip WrapperTypeKind WrapperTypeKind}
    (done : zipped.next.1 = none) : composeWrappers otherIsRequired zipped = some otherIsRequired := by
  rw [composeWrappers]
  split
  · rfl
  · next taken => simp [taken] at done

/-- One round of the loop, with the pair it is about already peeked at. -/
theorem composeWrappers_peeked (otherIsRequired : Bool) (self other : WrapperTypeKind)
    (left right : List WrapperTypeKind) : composeWrappers otherIsRequired ⟨left, right, some (some (self, other))⟩ =
      match left, right with
      | [], [] => some (decide (other = .nonNullList))
      | [], _ :: _ => none
      | [_], [] => some (decide (other = .nonNullList))
      | _ :: _ :: _, [] => none
      | nextSelf :: left, nextOther :: right =>
        if self = other then composeWrappers otherIsRequired ⟨left, right, some (some (nextSelf, nextOther))⟩
        else none := by
  rw [composeWrappers]
  rcases left with _ | ⟨first, _ | ⟨second, left⟩⟩ <;> rcases right with _ | ⟨third, right⟩ <;>
    simp [PeekableZip.next, PeekableZip.peek, PeekableZip.advance]

/-- The walk wants the left wrappers to be as many as the right ones or one more, the same but for the last of
the right ones, and answers with that last one. -/
theorem composeWrappers_eq (otherIsRequired : Bool) (self other : WrapperTypeKind) (left right : List WrapperTypeKind) :
    composeWrappers otherIsRequired ⟨left, right, some (some (self, other))⟩ =
      if (left.length = right.length ∨ left.length = right.length + 1) ∧
          (self :: left).take right.length = (other :: right).take right.length
      then some (decide ((other :: right).getLast (by simp) = .nonNullList)) else none := by
  -- Along the right wrappers, which run out first when the walk succeeds.
  induction right generalizing self other left with
  | nil => rcases left with _ | ⟨first, _ | ⟨second, left⟩⟩ <;> simp [composeWrappers_peeked] <;> rfl
  | cons nextOther right ih =>
    rcases left with _ | ⟨nextSelf, left⟩
    · simp [composeWrappers_peeked]
    · rw [composeWrappers_peeked]
      by_cases same : self = other
      · simp [same, ih]
      · simp [same]

theorem fits_cons {name : String} {inner otherInner : Bool} {first second : WrapperTypeKind}
    {left right : List WrapperTypeKind} : Fits ⟨name, inner, first :: left⟩ ⟨name, otherInner, second :: right⟩ ↔
      inner = otherInner ∧ (left.length = right.length ∨ left.length = right.length + 1) ∧
        (first :: left).take right.length = (second :: right).take right.length := by
  have lists : ((first :: left).map fun wrapper => decide (wrapper = WrapperTypeKind.nonNullList)).take right.length =
      ((second :: right).map fun wrapper => decide (wrapper = WrapperTypeKind.nonNullList)).take right.length ↔
      (first :: left).take right.length = (second :: right).take right.length := by
    rw [← map_take, ← map_take, (map_injective_iff.mpr isNonNullList_injective).eq_iff]
  simp only [Fits, levels, length_cons, reduceCtorEq, false_or, true_and, Nat.add_right_cancel_iff]
  constructor
  · rintro ⟨same, lengths⟩
    rw [show min (left.length + 1) (right.length + 1) = right.length + 1 by omega, take_succ_cons,
      take_succ_cons, List.cons.injEq] at same
    exact ⟨same.1, lengths, lists.mp same.2⟩
  · rintro ⟨rfl, lengths, same⟩
    rw [show min (left.length + 1) (right.length + 1) = right.length + 1 by omega, take_succ_cons,
      take_succ_cons, lists.mpr same]
    exact ⟨rfl, lengths⟩

/-- Apart from equal types, the answer of `compose` is whether the other type is required. -/
theorem compose_eq (self other : FieldType) :
    self.compose other =
      if self = other then some true else if Fits self other then some other.isRequired else none := by
  unfold compose
  by_cases same : self = other
  · simp [same]
  rw [if_neg same, if_neg same]
  by_cases sameName : self.name = other.name
  · rw [if_neg (by simpa using sameName)]
    obtain ⟨name, inner, wrappers⟩ := self
    obtain ⟨otherName, otherInner, otherWrappers⟩ := other
    obtain rfl : name = otherName := sameName
    rcases wrappers with _ | ⟨first, left⟩
    · -- Nothing to zip: the right iterator is not even asked.
      have fits : Fits ⟨name, inner, []⟩ ⟨name, otherInner, otherWrappers⟩ := ⟨rfl, .inl rfl⟩
      have skipped : (PeekableZip.new ([] : List WrapperTypeKind) otherWrappers).peek.1.isSome = false := rfl
      simp only [skipped, Bool.false_and, Bool.false_eq_true, if_false, if_pos fits]
      exact composeWrappers_done _ rfl
    rcases otherWrappers with _ | ⟨second, right⟩
    · have fits : Fits ⟨name, inner, first :: left⟩ ⟨name, otherInner, []⟩ := ⟨rfl, .inr (.inl rfl)⟩
      have skipped : (PeekableZip.new (first :: left) ([] : List WrapperTypeKind)).peek.1.isSome = false := rfl
      simp only [skipped, Bool.false_and, Bool.false_eq_true, if_false, if_pos fits]
      exact composeWrappers_done _ rfl
    have last : FieldType.isRequired ⟨name, otherInner, second :: right⟩ =
        decide ((second :: right).getLast (by simp) = .nonNullList) := by
      unfold isRequired
      rw [getLast?_eq_some_getLast (by simp)]
      cases (second :: right).getLast (by simp) <;> rfl
    have walked := composeWrappers_eq (decide ((second :: right).getLast (by simp) = .nonNullList))
      first second left right
    by_cases sameInner : inner = otherInner
    · simp only [fits_cons, sameInner, true_and, bne_self_eq_false, Bool.and_false, Bool.false_eq_true, if_false, last]
      exact walked
    · simp [fits_cons, sameInner, PeekableZip.new, PeekableZip.peek, PeekableZip.advance]
  · rw [if_pos sameName, if_neg fun fits => sameName fits.1]

theorem composeForOutput_eq (self other : FieldType) :
    self.composeForOutput other =
      if Fits self other then some (if other.isRequired then self else other) else none := by
  rw [composeForOutput, compose_eq]
  by_cases same : self = other
  · simp [same, (SameShape.refl other).fits]
  · rw [if_neg same]
    split <;> simp

/-! ## Folding -/

/-- The two types have different names, or equally many lists, or the walk sees that they have not: both have lists,
and the numbers differ by two or more or a level differs that is not the outermost of either. -/
def ToldApart (self other : FieldType) : Prop :=
  self.name ≠ other.name ∨ self.wrappers.length = other.wrappers.length ∨
    (self.wrappers ≠ [] ∧ other.wrappers ≠ [] ∧
      (self.wrappers.length + 2 ≤ other.wrappers.length ∨ other.wrappers.length + 2 ≤ self.wrappers.length ∨
        self.levels.take (min self.wrappers.length other.wrappers.length) ≠
          other.levels.take (min self.wrappers.length other.wrappers.length)))

instance (self other : FieldType) : Decidable (ToldApart self other) := inferInstanceAs (Decidable (_ ∨ _))

theorem ToldApart.symm (apart : ToldApart self other) : ToldApart other self := by
  rcases apart with names | lengths | ⟨selfLists, otherLists, differ⟩
  · exact .inl names.symm
  · exact .inr (.inl lengths.symm)
  · refine .inr (.inr ⟨otherLists, selfLists, ?_⟩)
    rw [Nat.min_comm]
    rcases differ with less | more | levels
    · exact .inr (.inl less)
    · exact .inl more
    · exact .inr (.inr levels.symm)

theorem sameShape_of_fits (lengths : self.wrappers.length = other.wrappers.length)
    (fits : Fits self other) : SameShape self other := by
  obtain ⟨name, accepted⟩ := fits
  refine ⟨name, lengths, ?_⟩
  rw [dropLast_eq_take, dropLast_eq_take, length_levels, length_levels]
  rcases accepted with empty | empty | ⟨levels, _⟩
  · simp [empty, ← lengths]
  · simp [empty, lengths]
  · simpa [lengths] using levels

theorem fits_iff_sameShape (apart : ToldApart self other) : Fits self other ↔ SameShape self other := by
  refine ⟨fun fits => ?_, SameShape.fits⟩
  rcases apart with names | lengths | ⟨selfLists, otherLists, differ⟩
  · exact absurd fits.1 names
  · exact sameShape_of_fits lengths fits
  · rcases fits.2 with empty | empty | ⟨levels, close⟩
    · exact absurd empty selfLists
    · exact absurd empty otherLists
    · rcases differ with less | more | different
      · omega
      · omega
      · exact absurd levels different

/-- Two types that are not told apart are composed, the one with more lists first, though their shapes differ. -/
theorem fits_of_not_toldApart (confused : ¬ ToldApart self other) :
    (Fits self other ∨ Fits other self) ∧ ¬ SameShape self other := by
  simp only [ToldApart, not_or, not_and, not_not] at confused
  obtain ⟨name, lengths, close⟩ := confused
  refine ⟨?_, fun same => lengths same.2.1⟩
  by_cases selfEmpty : self.wrappers = []
  · exact .inl ⟨name, .inl selfEmpty⟩
  by_cases otherEmpty : other.wrappers = []
  · exact .inl ⟨name, .inr (.inl otherEmpty)⟩
  obtain ⟨notLess, notMore, levels⟩ := close selfEmpty otherEmpty
  rcases Nat.lt_or_ge self.wrappers.length other.wrappers.length with less | more
  · exact .inr ⟨name.symm, .inr (.inr ⟨by rw [Nat.min_comm]; exact levels.symm, .inr (by omega)⟩)⟩
  · exact .inl ⟨name, .inr (.inr ⟨levels, .inr (by omega)⟩)⟩

/-- A composition that keeps one of two types that fit, its outermost level combined from both. -/
structure Picks (composeFn : FieldType → FieldType → Option FieldType) (pick : FieldType → FieldType → FieldType)
    (combine : Bool → Bool → Bool) : Prop where
  composed : ∀ self other, composeFn self other = if Fits self other then some (pick self other) else none
  keeps : ∀ self other, pick self other = self ∨ pick self other = other
  required : ∀ self other, (pick self other).isRequired = combine self.isRequired other.isRequired

theorem picks_composeForOutput :
    Picks composeForOutput (fun self other => if other.isRequired then self else other) and where
  composed := composeForOutput_eq
  keeps self other := by cases other.isRequired <;> simp
  required self other := by cases required : other.isRequired <;> simp [required]

theorem picks_composeForInput :
    Picks composeForInput (fun self other => if other.isRequired then other else self) or where
  composed self other := by
    rw [composeForInput, compose_eq]
    by_cases same : self = other
    · simp [same, (SameShape.refl other).fits]
    · rw [if_neg same]
      split <;> simp
  keeps self other := by cases other.isRequired <;> simp
  required self other := by cases required : other.isRequired <;> simp [required]

end FieldType

open FieldType
section Folding
variable {composeFn : FieldType → FieldType → Option FieldType} {pick : FieldType → FieldType → FieldType}
  {combine : Bool → Bool → Bool}

/-- The fold from any accumulated type, when it is told apart from every type to come. -/
theorem composeTypes_from (picks : Picks composeFn pick combine) (a : FieldWalker) (accumulated : FieldType)
    (rest : List FieldWalker) (apart : ∀ b ∈ rest, ToldApart accumulated b.type)
    (pairs : rest.Pairwise fun b c => ToldApart b.type c.type) :
    match rest.foldlM (composeStep FieldWalker.type composeFn) (a, accumulated) with
    | .ok (_, type) => (∀ b ∈ rest, SameShape accumulated b.type) ∧ SameShape accumulated type ∧
        type.isRequired = rest.foldl (fun required b => combine required b.type.isRequired) accumulated.isRequired
    | .error _ => ¬ ∀ b ∈ rest, SameShape accumulated b.type := by
  induction rest generalizing accumulated with
  | nil => exact ⟨by simp, SameShape.refl _, rfl⟩
  | cons b rest ih =>
    obtain ⟨fromB, pairs⟩ := pairwise_cons.mp pairs
    have fits := fits_iff_sameShape (apart b (by simp))
    rw [foldlM_cons, composeStep, picks.composed]
    by_cases same : SameShape accumulated b.type
    · rw [if_pos (fits.mpr same)]
      -- Whichever of the two is kept is told apart from the rest and has the shape of both.
      have kept : (∀ c ∈ rest, ToldApart (pick accumulated b.type) c.type) ∧
          SameShape accumulated (pick accumulated b.type) := by
        rcases picks.keeps accumulated b.type with kept | kept
        · rw [kept]
          exact ⟨fun c member => apart c (by simp [member]), SameShape.refl _⟩
        · rw [kept]
          exact ⟨fromB, same⟩
      have folded := ih (pick accumulated b.type) kept.1 pairs
      dsimp only [bind, Except.bind]
      split
      · next type ran =>
        rw [ran] at folded
        obtain ⟨shapes, shape, required⟩ := folded
        refine ⟨fun c member => ?_, kept.2.trans shape, ?_⟩
        · rcases mem_cons.mp member with rfl | later
          · exact same
          · exact kept.2.trans (shapes c later)
        · rw [required, picks.required, foldl_cons]
      · next ran =>
        rw [ran] at folded
        exact fun all => folded fun c member => kept.2.symm.trans (all c (by simp [member]))
    · rw [if_neg (mt fits.mp same)]
      exact fun all => same (all b (by simp))

end Folding

/-! ## The composition of a group of fields -/

/-- The composition succeeds exactly on types of one shape, and comes to that shape with the given outermost level. -/
structure ComposesTo (composed : Option FieldType) (types : List FieldType) (required : Prop) : Prop where
  succeeds : composed.isSome ↔ ∀ self ∈ types, ∀ other ∈ types, SameShape self other
  shape : ∀ type ∈ composed, ∀ other ∈ types, SameShape type other
  outermost : ∀ type ∈ composed, (type.isRequired ↔ required)

/-- Output types compose to the less required type, input types to the more required one. -/
def ComposesAsLattice (fields : List FieldWalker) : Prop :=
  ComposesTo (composeOutputFieldTypes fields).1 (fields.map FieldWalker.type)
    (∀ field ∈ fields, field.type.isRequired) ∧
    ComposesTo (composeInputFieldTypes fields).1 (fields.map FieldWalker.type) (∃ field ∈ fields, field.type.isRequired)

variable {required : Prop} {fields : List FieldWalker}

theorem composeFieldTypes_composesTo {composeFn : FieldType → FieldType → Option FieldType}
    {pick : FieldType → FieldType → FieldType} {combine : Bool → Bool → Bool} (picks : Picks composeFn pick combine)
    (first : FieldWalker) (rest : List FieldWalker)
    (apart : (first :: rest).Pairwise fun a b => ToldApart a.type b.type)
    (outermost :
      rest.foldl (fun required field => combine required field.type.isRequired) first.type.isRequired = true ↔
      required) :
    ComposesTo (composeFieldTypes composeFn (first :: rest)).1 ((first :: rest).map FieldWalker.type) required := by
  obtain ⟨fromFirst, pairs⟩ := pairwise_cons.mp apart
  have folded := composeTypes_from picks first first.type rest fromFirst pairs
  have sameAsFirst (all : ∀ b ∈ rest, SameShape first.type b.type) {type : FieldType}
      (member : type ∈ (first :: rest).map FieldWalker.type) : SameShape first.type type := by
    obtain ⟨field, inFields, rfl⟩ := mem_map.mp member
    rcases mem_cons.mp inFields with rfl | later
    · exact SameShape.refl _
    · exact all field later
  rw [composeFieldTypes]
  split
  · next type ran =>
    rw [composeTypes] at ran
    rw [ran] at folded
    obtain ⟨shapes, shape, isRequired⟩ := folded
    constructor
    · simp only [Option.isSome_some, true_iff]
      exact fun self member other otherMember =>
        (sameAsFirst shapes member).symm.trans (sameAsFirst shapes otherMember)
    · rintro _ ⟨⟩ other member
      exact shape.symm.trans (sameAsFirst shapes member)
    · rintro _ ⟨⟩
      rw [isRequired]
      exact outermost
  · next ran =>
    rw [composeTypes] at ran
    rw [ran] at folded
    constructor
    · simp only [Option.isSome_none, Bool.false_eq_true, false_iff]
      intro all
      apply folded
      intro b member
      exact all first.type (mem_map_of_mem (by simp)) b.type (mem_map_of_mem (by simp [member]))
    · rintro _ ⟨⟩
    · rintro _ ⟨⟩

theorem foldl_and_isRequired (fields : List FieldWalker) (start : Bool) :
    fields.foldl (fun required field => required && field.type.isRequired) start = true ↔
      start = true ∧ ∀ field ∈ fields, field.type.isRequired := by
  induction fields generalizing start with
  | nil => simp
  | cons field rest ih => simp [ih, and_assoc]

theorem foldl_or_isRequired (fields : List FieldWalker) (start : Bool) :
    fields.foldl (fun required field => required || field.type.isRequired) start = true ↔
      start = true ∨ ∃ field ∈ fields, field.type.isRequired := by
  induction fields generalizing start with
  | nil => simp
  | cons field rest ih => simp [ih, or_assoc]

theorem composesAsLattice_of_toldApart (nonEmpty : fields ≠ [])
    (apart : fields.Pairwise fun a b => ToldApart a.type b.type) : ComposesAsLattice fields := by
  obtain ⟨first, rest, rfl⟩ := exists_cons_of_ne_nil nonEmpty
  constructor
  · refine composeFieldTypes_composesTo picks_composeForOutput first rest apart ?_
    rw [foldl_and_isRequired, forall_mem_cons]
  · refine composeFieldTypes_composesTo picks_composeForInput first rest apart ?_
    rw [foldl_or_isRequired, exists_mem_cons_iff]

theorem FieldType.SameShape.eq_of_isRequired {self other : FieldType} (same : SameShape self other)
    (required : self.isRequired = other.isRequired) : self = other := by
  apply levels_inj same.1
  rw [← dropLast_append_getLast (l := self.levels) (by simp [levels]),
    ← dropLast_append_getLast (l := other.levels) (by simp [levels]),
    isRequired_eq_getLast, isRequired_eq_getLast, same.2.2, required]

theorem ComposesTo.unique {composed other : Option FieldType} {types otherTypes : List FieldType}
    (sameTypes : ∀ type, type ∈ types ↔ type ∈ otherTypes) (nonEmpty : types ≠ [])
    (first : ComposesTo composed types required) (second : ComposesTo other otherTypes required) :
      composed = other := by
  have succeed : composed.isSome ↔ other.isSome := by
    rw [first.succeeds, second.succeeds]
    simp only [sameTypes]
  cases composed with
  | none =>
    cases other with
    | none => rfl
    | some type => simp at succeed
  | some type =>
    cases other with
    | none => simp at succeed
    | some otherType =>
      obtain ⟨some, member⟩ := exists_mem_of_ne_nil types nonEmpty
      have shape := (first.shape type rfl some member).trans
        (second.shape otherType rfl some ((sameTypes some).mp member)).symm
      have required := (first.outermost type rfl).trans (second.outermost otherType rfl).symm
      rw [shape.eq_of_isRequired (Bool.eq_iff_iff.mpr required)]

/-- The composition of these fields and of every choice of them is the lattice operation, in every order. -/
def ComposesInEveryOrder (fields : List FieldWalker) : Prop :=
  ∀ chosen : List FieldWalker, chosen ≠ [] → chosen.Subperm fields →
    ComposesAsLattice chosen ∧ ∀ reordered, reordered.Perm chosen →
      (composeOutputFieldTypes reordered).1 = (composeOutputFieldTypes chosen).1 ∧
        (composeInputFieldTypes reordered).1 = (composeInputFieldTypes chosen).1

theorem composeOutputFieldTypes_pair (first second : FieldWalker) :
    (composeOutputFieldTypes [first, second]).1 = first.type.composeForOutput second.type := by
  unfold composeOutputFieldTypes composeFieldTypes composeTypes
  dsimp only
  rw [foldlM_cons, composeStep]
  cases first.type.composeForOutput second.type <;> rfl

/-- Two fields that are composed only because the walk confuses their types. -/
theorem not_composesAsLattice_of_fits {first second : FieldWalker} (fits : Fits first.type second.type)
    (different : ¬ SameShape first.type second.type) : ¬ ComposesAsLattice [first, second] := by
  intro lattice
  have composed : (composeOutputFieldTypes [first, second]).1.isSome := by
    rw [composeOutputFieldTypes_pair, composeForOutput_eq, if_pos fits]
    rfl
  exact different (lattice.1.succeeds.mp composed first.type (by simp) second.type (by simp))

/-- The types of a field compose as a lattice, whatever subgraphs take part and in whatever order, exactly when no two
of them are confused by the walk over their wrappers. -/
theorem composesInEveryOrder_iff (fields : List FieldWalker) :
    ComposesInEveryOrder fields ↔ fields.Pairwise fun a b => ToldApart a.type b.type := by
  constructor
  · intro lattice
    rw [pairwise_iff_forall_sublist]
    intro first second sublist
    by_contra confused
    obtain ⟨fits | fits, different⟩ := fits_of_not_toldApart confused
    · exact not_composesAsLattice_of_fits fits different (lattice [first, second] (by simp) sublist.subperm).1
    · -- The type with more lists comes second here: take the other order.
      have swapped : [second, first].Subperm fields := (List.Perm.swap first second []).subperm.trans sublist.subperm
      exact not_composesAsLattice_of_fits fits (fun same => different same.symm)
        (lattice [second, first] (by simp) swapped).1
  · rintro apart chosen nonEmpty ⟨ordered, choice, sublist⟩
    have pairs := (choice.pairwise_iff fun related => related.symm).mp (apart.sublist sublist)
    have lattice := composesAsLattice_of_toldApart nonEmpty pairs
    refine ⟨lattice, fun reordered perm => ?_⟩
    have again := composesAsLattice_of_toldApart (fun empty => nonEmpty (by simpa [empty] using perm.symm))
      ((perm.pairwise_iff fun related => related.symm).mpr pairs)
    have members (type : FieldType) : type ∈ reordered.map FieldWalker.type ↔ type ∈ chosen.map FieldWalker.type :=
      (perm.map _).mem_iff
    have notEmpty : reordered.map FieldWalker.type ≠ [] := by
      intro empty
      exact nonEmpty (by simpa [map_eq_nil_iff.mp empty] using perm.symm)
    constructor
    · refine again.1.unique members notEmpty ?_
      simpa only [perm.mem_iff] using lattice.1
    · refine again.2.unique members notEmpty ?_
      simpa only [perm.mem_iff] using lattice.2

def objectWith (name : String) (field : Field) : Definition :=
  ⟨name, .object, .none, [], false, [field], [], by simp, by simp, by simp, by simp⟩

/-- The field `Book.title` of a subgraph, of the given type. -/
def titleField (subgraphName : String) (type : FieldType) : FieldWalker :=
  let field : Field := ⟨"title", type, .none, [], false⟩
  let definition := objectWith "Book" field
  ⟨⟨⟨subgraphName, [definition], none, none, none, [], ["Book", "title"], by simp, by simp [definition, objectWith],
    by simp [definition, objectWith, field], by simp [definition, objectWith]⟩, definition⟩, field⟩

/-- `title: [[String]]` and `title: [String]` are composed, to `[String]`, and in the other order they are not;
`title: String` and `title: [String]` are composed in both. -/
theorem composeFieldTypes_confuses_lists :
    (composeOutputFieldTypes [titleField "a" ⟨"String", false, [.list, .list]⟩,
      titleField "b" ⟨"String", false, [.list]⟩]).1 =
      some ⟨"String", false, [.list]⟩ ∧
    (composeOutputFieldTypes [titleField "b" ⟨"String", false, [.list]⟩,
      titleField "a" ⟨"String", false, [.list, .list]⟩]).1 =
      none ∧
    (composeOutputFieldTypes [titleField "a" ⟨"String", false, []⟩, titleField "b" ⟨"String", false, [.list]⟩]).1 =
      some ⟨"String", false, [.list]⟩ ∧ ¬ ComposesInEveryOrder
      [titleField "a" ⟨"String", false, [.list, .list]⟩, titleField "b" ⟨"String", false, [.list]⟩] := by
  have fits : Fits ⟨"String", false, [.list, .list]⟩ ⟨"String", false, [.list]⟩ := by decide
  have unfit : ¬ Fits ⟨"String", false, [.list]⟩ ⟨"String", false, [.list, .list]⟩ := by decide
  have unwrapped : Fits ⟨"String", false, []⟩ ⟨"String", false, [.list]⟩ := by decide
  refine ⟨?_, ?_, ?_, ?_⟩
  · rw [composeOutputFieldTypes_pair, composeForOutput_eq]
    exact if_pos fits
  · rw [composeOutputFieldTypes_pair, composeForOutput_eq]
    exact if_neg unfit
  · rw [composeOutputFieldTypes_pair, composeForOutput_eq]
    exact if_pos unwrapped
  · intro lattice
    have both := (lattice _ (by simp) (List.Subperm.refl _)).1
    refine not_composesAsLattice_of_fits ?_ ?_ both
    · exact fits
    · decide

end Grafbase.Composition
