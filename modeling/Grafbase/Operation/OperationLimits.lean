import Grafbase.Operation.ParsedOperation

/-! Operation limits apply to the expanded operation. -/

set_option autoImplicit false

namespace Grafbase.Operation
open Foundation List

/-- Fields with all fragments expanded in place. -/
inductive Expanded where
  | nil
  | field (aliased : Bool) (selectionSet rest : Expanded)

namespace Expanded

def append : Expanded → Expanded → Expanded
  | nil, other => other
  | field aliased selectionSet rest, other => field aliased selectionSet (rest.append other)

def rootFields : Expanded → Nat
  | nil => 0
  | field _ _ rest => 1 + rest.rootFields

def fields : Expanded → Nat
  | nil => 0
  | field _ selectionSet rest => 1 + (selectionSet.fields + rest.fields)

def aliasedFields : Expanded → Nat
  | nil => 0
  | field aliased selectionSet rest => aliased.toNat + (selectionSet.aliasedFields + rest.aliasedFields)

def depth : Expanded → Nat
  | nil => 0
  | field _ selectionSet rest => max (selectionSet.depth + 1) rest.depth

@[simp] theorem rootFields_append (first second : Expanded) :
    (first.append second).rootFields = first.rootFields + second.rootFields := by
  induction first with
  | nil => simp [append, rootFields]
  | field _ _ rest _ ih => simp [append, rootFields, ih, Nat.add_assoc]

@[simp] theorem fields_append (first second : Expanded) :
    (first.append second).fields = first.fields + second.fields := by
  induction first with
  | nil => simp [append, fields]
  | field _ _ rest _ ih => simp [append, fields, ih, Nat.add_assoc]

@[simp] theorem aliasedFields_append (first second : Expanded) :
    (first.append second).aliasedFields = first.aliasedFields + second.aliasedFields := by
  induction first with
  | nil => simp [append, aliasedFields]
  | field _ _ rest _ ih => simp [append, aliasedFields, ih, Nat.add_assoc]

@[simp] theorem depth_append (first second : Expanded) :
    (first.append second).depth = max first.depth second.depth := by
  induction first with
  | nil => simp [append, depth]
  | field _ _ rest _ ih => simp [append, depth, ih, max_assoc]

end Expanded

section Expansion
variable (operation : ParsedOperation)

namespace ParsedOperation
variable {name : String} {fragment other : ParsedFragment}

theorem getFragment_eq_some : operation.getFragment name = some fragment ↔ (name, fragment) ∈ operation.fragments := by
  have found (entry : String × ParsedFragment) :
      operation.fragments.find? (·.1 = name) = some entry ↔ entry ∈ operation.fragments ∧ entry.1 = name :=
    find?_eq_some_iff_of_nodup operation.distinct
  simp [getFragment, found]

theorem fragment_unique (isFragment : (name, fragment) ∈ operation.fragments)
    (isOther : (name, other) ∈ operation.fragments) : fragment = other :=
  Option.mem_unique (operation.getFragment_eq_some.mpr isFragment) (operation.getFragment_eq_some.mpr isOther)

end ParsedOperation

/-- The selections with the selections of fragments in place of their spreads. -/
inductive Expands : ParsedSelections → Expanded → Prop where
  | nil : Expands .nil .nil
  | field {pos : Pos} {responseName : Option String} {innerPos : Pos} {selectionSet rest : ParsedSelections}
      {inner others : Expanded} (below : Expands selectionSet inner) (after : Expands rest others) :
      Expands (.field pos responseName innerPos selectionSet rest) (.field responseName.isSome inner others)
  | fragmentSpread {pos : Pos} {name : String} {fragment : ParsedFragment} {rest : ParsedSelections}
      {inner others : Expanded} (found : (name, fragment) ∈ operation.fragments)
      (spread : Expands fragment.selectionSet inner) (after : Expands rest others) :
      Expands (.fragmentSpread pos name rest) (inner.append others)
  | inlineFragment {innerPos : Pos} {selectionSet rest : ParsedSelections} {inner others : Expanded}
      (spread : Expands selectionSet inner) (after : Expands rest others) :
      Expands (.inlineFragment innerPos selectionSet rest) (inner.append others)

def ParsedSelections.spreads : ParsedSelections → List String
  | .nil => []
  | .field _ _ _ selectionSet rest => selectionSet.spreads ++ rest.spreads
  | .fragmentSpread _ name rest => name :: rest.spreads
  | .inlineFragment _ selectionSet rest => selectionSet.spreads ++ rest.spreads

/-- Fragments that are reached by spreads. -/
inductive Reached (selections : ParsedSelections) : String → Prop where
  | direct {name : String} (spread : name ∈ selections.spreads) : Reached selections name
  | through {name next : String} {fragment : ParsedFragment} (before : Reached selections name)
      (found : (name, fragment) ∈ operation.fragments) (spread : next ∈ fragment.selectionSet.spreads) :
      Reached selections next

/-- The fragment can be entered again from within. -/
def OnCycle (name : String) : Prop :=
  ∃ fragment, (name, fragment) ∈ operation.fragments ∧ Reached operation fragment.selectionSet name

/-- Every fragment that is reached exists and is not part of a cycle. -/
def FragmentsSound (selections : ParsedSelections) : Prop :=
  ∀ name, Reached operation selections name →
    (∃ fragment, (name, fragment) ∈ operation.fragments) ∧ ¬ OnCycle operation name

variable {operation} {selections : ParsedSelections} {name : String}

theorem Expands.unique {first second : Expanded} (isFirst : Expands operation selections first)
    (isSecond : Expands operation selections second) : first = second := by
  induction isFirst generalizing second with
  | nil =>
    cases isSecond
    rfl
  | field _ _ belowIh afterIh =>
    cases isSecond with
    | field below after => rw [belowIh below, afterIh after]
  | fragmentSpread found _ _ spreadIh afterIh =>
    cases isSecond with
    | fragmentSpread otherFound spread after =>
      obtain rfl := operation.fragment_unique found otherFound
      rw [spreadIh spread, afterIh after]
  | inlineFragment _ _ spreadIh afterIh =>
    cases isSecond with
    | inlineFragment spread after => rw [spreadIh spread, afterIh after]

theorem reached_iff : Reached operation selections name ↔ name ∈ selections.spreads ∨
      ∃ first fragment, first ∈ selections.spreads ∧ (first, fragment) ∈ operation.fragments ∧
        Reached operation fragment.selectionSet name := by
  constructor
  · intro reached
    induction reached with
    | direct spread => exact .inl spread
    | @through middle next fragment _ found spread ih =>
      rcases ih with direct | ⟨first, entered, member, firstFound, inside⟩
      · exact .inr ⟨middle, fragment, direct, found, .direct spread⟩
      · exact .inr ⟨first, entered, member, firstFound, inside.through found spread⟩
  · rintro (direct | ⟨first, fragment, member, found, inside⟩)
    · exact .direct direct
    · induction inside with
      | direct spread => exact (Reached.direct member).through found spread
      | through _ nextFound spread ih => exact ih.through nextFound spread

theorem Reached.mono {some more : ParsedSelections} (subset : some.spreads ⊆ more.spreads)
    (reached : Reached operation some name) : Reached operation more name := by
  induction reached with
  | direct spread => exact .direct (subset spread)
  | through _ found spread ih => exact ih.through found spread

end Expansion

open ParsedSelections (spreads)

section Tally

def Within (limit : Option UInt16) (count : Nat) : Prop := ∀ most, limit = some most → count ≤ most.toNat

variable {limit : Option UInt16}

theorem Within.of_le {less more : Nat} (within : Within limit more) (le : less ≤ more) : Within limit less :=
  fun most isMost => le.trans (within most isMost)

theorem exceeds_iff {count : Nat} : ¬ exceeds count limit = true ↔ Within limit count := by
  cases limit <;> simp [exceeds, Within]

/-- As long as a count is within its limit, its counter did not wrap around. -/
theorem exceeds_addTo_iff {count : Nat} (within : Within limit count) (added : Bool) :
    ¬ exceeds (addTo (count % 2 ^ 64) added) limit = true ↔ Within limit (count + added.toNat) := by
  rw [addTo, Nat.mod_add_mod]
  cases limit with
  | none => simp [exceeds, Within]
  | some most =>
    have small := most.toNat_lt
    have before := within most rfl
    have added := added.toNat_le
    rw [Nat.mod_eq_of_lt (by omega), exceeds_iff]

/-- The numbers that the counters stand for. -/
structure Tally where
  rootFields : Nat := 0
  aliases : Nat := 0
  fields : Nat := 0

namespace Tally

def visited (tally : Tally) : Visited := ⟨tally.rootFields % 2 ^ 64, tally.aliases % 2 ^ 64, tally.fields % 2 ^ 64⟩

structure Fits (limits : OperationLimits) (tally : Tally) : Prop where
  rootFields : Within limits.rootFields tally.rootFields
  aliases : Within limits.aliases tally.aliases
  fields : Within limits.complexity tally.fields

def enter (tally : Tally) (depth : Nat) (aliased : Bool) : Tally :=
  ⟨tally.rootFields + (decide (depth = 0)).toNat, tally.aliases + aliased.toNat, tally.fields + 1⟩

def add (tally : Tally) (depth : Nat) (tree : Expanded) : Tally :=
  ⟨tally.rootFields + (decide (depth = 0)).toNat * tree.rootFields, tally.aliases + tree.aliasedFields,
    tally.fields + tree.fields⟩

theorem add_nil (tally : Tally) (depth : Nat) : tally.add depth .nil = tally := by
  simp [add, Expanded.rootFields, Expanded.aliasedFields, Expanded.fields]

theorem add_append (tally : Tally) (depth : Nat) (first second : Expanded) :
    tally.add depth (first.append second) = (tally.add depth first).add depth second := by
  simp [add, Nat.add_assoc, Nat.mul_add]

theorem add_field (tally : Tally) (depth : Nat) (aliased : Bool) (selectionSet rest : Expanded) :
    tally.add depth (.field aliased selectionSet rest) =
      ((tally.enter depth aliased).add (depth + 1) selectionSet).add depth rest := by
  simp [add, enter, Expanded.rootFields, Expanded.aliasedFields, Expanded.fields, Nat.add_assoc, Nat.mul_add]

theorem Fits.of_add {limits : OperationLimits} {tally : Tally} {depth : Nat} {tree : Expanded}
    (fits : (tally.add depth tree).Fits limits) : tally.Fits limits :=
  ⟨fits.rootFields.of_le (Nat.le_add_right _ _), fits.aliases.of_le (Nat.le_add_right _ _),
    fits.fields.of_le (Nat.le_add_right _ _)⟩

end Tally

variable {pos : Pos} {error : Location → ParsedOperationError}

theorem failAt_ne_ok {α : Type} {value : α} : failAt pos error ≠ .ok value := by
  rw [failAt]
  cases Location.tryFrom pos <;> simp [bind, Except.bind]

variable {limits : OperationLimits}

theorem failIf_bind_eq_ok {α : Type} {failed : Bool} {next : Unit → Except ParsedOperationError α} {value : α} :
    (failIf failed pos error >>= next) = .ok value ↔ ¬ failed = true ∧ next () = .ok value := by
  cases failed with
  | false => simp [failIf, bind, Except.bind]
  | true =>
    simp only [not_true_eq_false, false_and, iff_false]
    intro ran
    obtain ⟨_, isFailed, _⟩ := bind_eq_ok.mp ran
    exact failAt_ne_ok isFailed

theorem enterField_iff {depth : Nat} {selectionSetPos fieldSelectionSetPos : Pos} {responseName : Option String}
    {tally : Tally} (fits : tally.Fits limits) {result : Visited} :
    enterField limits depth selectionSetPos pos fieldSelectionSetPos responseName tally.visited = .ok result ↔
      (tally.enter depth responseName.isSome).Fits limits ∧ Within limits.depth (depth + 1) ∧
        result = (tally.enter depth responseName.isSome).visited := by
  simp only [enterField, Tally.visited, failIf_bind_eq_ok, exceeds_addTo_iff fits.rootFields,
    exceeds_addTo_iff fits.fields,
    exceeds_addTo_iff fits.aliases, exceeds_iff, Except.ok.injEq]
  constructor
  · rintro ⟨rootFields, fields, aliases, deeper, rfl⟩
    refine ⟨⟨rootFields, aliases, fields⟩, deeper, ?_⟩
    simp [Tally.enter, addTo]
  · rintro ⟨fits, deeper, rfl⟩
    refine ⟨fits.rootFields, fits.fields, fits.aliases, deeper, ?_⟩
    simp [Tally.enter, addTo]

end Tally

section Visit
variable {operation : ParsedOperation} {limits : OperationLimits}

/-- Every fragment that is reached exists, is on no cycle and is not being visited. -/
def SoundFrom (operation : ParsedOperation) (stack : List String) (selections : ParsedSelections) : Prop :=
  ∀ name, Reached operation selections name →
    (∃ fragment, (name, fragment) ∈ operation.fragments) ∧ ¬ OnCycle operation name ∧ name ∉ stack

variable {stack : List String} {rest : ParsedSelections}

theorem soundFrom_of_spreads {whole first second : ParsedSelections}
    (spreads : whole.spreads = first.spreads ++ second.spreads) :
    SoundFrom operation stack whole ↔ SoundFrom operation stack first ∧ SoundFrom operation stack second := by
  have reached (name : String) : Reached operation whole name ↔
      Reached operation first name ∨ Reached operation second name := by
    constructor
    · intro isReached
      induction isReached with
      | direct spread =>
        rw [spreads, mem_append] at spread
        exact spread.imp .direct .direct
      | through _ found spread ih => exact ih.imp (·.through found spread) (·.through found spread)
    · rintro (here | here)
      · exact here.mono (spreads ▸ subset_append_left _ _)
      · exact here.mono (spreads ▸ subset_append_right _ _)
  constructor
  · intro sound
    exact ⟨fun name here => sound name ((reached name).mpr (.inl here)),
      fun name here => sound name ((reached name).mpr (.inr here))⟩
  · rintro ⟨left, right⟩ name here
    exact ((reached name).mp here).elim (left name) (right name)

/-- A fragment that is not visited already is sound when its selections are, with the fragment being visited. -/
theorem soundFrom_fragmentSpread {pos : Pos} {name : String} {fragment : ParsedFragment}
    (found : (name, fragment) ∈ operation.fragments) (fresh : name ∉ stack) :
    SoundFrom operation stack (.fragmentSpread pos name rest) ↔
      SoundFrom operation (stack ++ [name]) fragment.selectionSet ∧ SoundFrom operation stack rest := by
  have reached (other : String) : Reached operation (.fragmentSpread pos name rest) other ↔
      other = name ∨ Reached operation fragment.selectionSet other ∨ Reached operation rest other := by
    rw [reached_iff, @reached_iff _ rest]
    simp only [spreads, mem_cons]
    constructor
    · rintro ((here | here) | ⟨entered, inner, isName | member, isInner, inside⟩)
      · exact .inl here
      · exact .inr (.inr (.inl here))
      · subst isName
        obtain rfl := operation.fragment_unique found isInner
        exact .inr (.inl inside)
      · exact .inr (.inr (.inr ⟨entered, inner, member, isInner, inside⟩))
    · rintro (here | inside | here | ⟨entered, inner, member, rest⟩)
      · exact .inl (.inl here)
      · exact .inr ⟨name, fragment, .inl rfl, found, inside⟩
      · exact .inl (.inr here)
      · exact .inr ⟨entered, inner, .inr member, rest⟩
  constructor
  · intro sound
    refine ⟨fun other inside => ?_, fun other after => sound other ((reached other).mpr (.inr (.inr after)))⟩
    obtain ⟨defined, acyclic, notVisited⟩ := sound other ((reached other).mpr (.inr (.inl inside)))
    refine ⟨defined, acyclic, ?_⟩
    simp only [mem_append, mem_singleton, not_or]
    refine ⟨notVisited, fun isName => ?_⟩
    exact (sound name ((reached name).mpr (.inl rfl))).2.1 ⟨fragment, found, isName ▸ inside⟩
  · rintro ⟨inner, after⟩ other isReached
    rcases (reached other).mp isReached with rfl | inside | isAfter
    · refine ⟨⟨fragment, found⟩, ?_, fresh⟩
      rintro ⟨entered, isEntered, again⟩
      obtain rfl := operation.fragment_unique found isEntered
      exact (inner other again).2.2 (by simp)
    · obtain ⟨defined, acyclic, notVisited⟩ := inner other inside
      exact ⟨defined, acyclic, fun visited => notVisited (mem_append_left _ visited)⟩
    · exact after other isAfter

/-- What a successful visit of selections amounts to. -/
def Visits (operation : ParsedOperation) (limits : OperationLimits) (stack : List String) (depth : Nat) (tally : Tally)
    (selections : ParsedSelections) (result : Visited) : Prop :=
  ∃ tree, Expands operation selections tree ∧ SoundFrom operation stack selections ∧
    (tally.add depth tree).Fits limits ∧ Within limits.depth (depth + tree.depth) ∧
    result = (tally.add depth tree).visited

/-- Visits one after the other, where the first may be of a fragment or of a field's own selections. -/
theorem visits_bind {innerStack : List String} {innerDepth depth : Nat} {tally : Tally}
    {inner : ParsedSelections} {first : Except ParsedOperationError Visited}
    {next : Visited → Except ParsedOperationError Visited} {result : Visited}
    (isFirst : ∀ between, first = .ok between ↔ Visits operation limits innerStack innerDepth tally inner between)
    (isNext : ∀ tally : Tally, tally.Fits limits →
      (next tally.visited = .ok result ↔ Visits operation limits stack depth tally rest result)) :
    (first >>= next) = .ok result ↔ ∃ tree others, Expands operation inner tree ∧ Expands operation rest others ∧
      (SoundFrom operation innerStack inner ∧ SoundFrom operation stack rest) ∧
      ((tally.add innerDepth tree).add depth others).Fits limits ∧
      (Within limits.depth (innerDepth + tree.depth) ∧ Within limits.depth (depth + others.depth)) ∧
      result = ((tally.add innerDepth tree).add depth others).visited := by
  rw [bind_eq_ok]
  constructor
  · rintro ⟨between, ran, ranNext⟩
    obtain ⟨tree, expands, sound, fits, deep, rfl⟩ := (isFirst between).mp ran
    obtain ⟨others, expandsRest, soundRest, fitsRest, deepRest, isResult⟩ := (isNext _ fits).mp ranNext
    exact ⟨tree, others, expands, expandsRest, ⟨sound, soundRest⟩, fitsRest, ⟨deep, deepRest⟩, isResult⟩
  · rintro ⟨tree, others, expands, expandsRest, ⟨sound, soundRest⟩, fits, ⟨deep, deepRest⟩, isResult⟩
    exact ⟨_, (isFirst _).mpr ⟨tree, expands, sound, fits.of_add, deep, rfl⟩,
      (isNext _ fits.of_add).mpr ⟨others, expandsRest, soundRest, fits, deepRest, isResult⟩⟩

theorem within_max {limit : Option UInt16} {depth first second : Nat} :
    Within limit (depth + max first second) ↔ Within limit (depth + first) ∧ Within limit (depth + second) := by
  simp only [Within, ← forall_and, ← Nat.add_max_add_left, max_le_iff]

theorem visitSelectionSet_iff (stack : List String) (depth : Nat) (pos : Pos) (visited : Visited)
    (selections : ParsedSelections) (tally : Tally) (result : Visited) (isTally : visited = tally.visited)
    (fits : tally.Fits limits) (depthFits : Within limits.depth depth) :
    visitSelectionSet operation limits stack depth pos visited selections = .ok result ↔
      Visits operation limits stack depth tally selections result := by
  fun_induction visitSelectionSet operation limits stack depth pos visited selections generalizing tally result with
  | case1 stack depth pos visited =>
    subst isTally
    rw [Except.ok.injEq]
    constructor
    · rintro rfl
      refine ⟨.nil, .nil, ?_, by rwa [Tally.add_nil], depthFits, by rw [Tally.add_nil]⟩
      intro name reached
      rw [reached_iff] at reached
      simp [spreads] at reached
    · rintro ⟨tree, expands, -, -, -, rfl⟩
      cases expands
      rw [Tally.add_nil]
  | case2 stack depth pos visited fieldPos responseName innerPos selectionSet rest ih restIh =>
    subst isTally
    have sound : SoundFrom operation stack (.field fieldPos responseName innerPos selectionSet rest) ↔
        SoundFrom operation stack selectionSet ∧ SoundFrom operation stack rest :=
      soundFrom_of_spreads rfl
    rw [bind_eq_ok]
    constructor
    · rintro ⟨entered, isEntered, ran⟩
      obtain ⟨fits, deeper, rfl⟩ := (enterField_iff fits).mp isEntered
      obtain ⟨tree, others, expands, expandsRest, sounds, fits, ⟨deep, deepRest⟩, rfl⟩ :=
        (visits_bind (fun between => ih _ _ between rfl fits deeper)
          (fun tally fits => restIh _ tally result rfl fits depthFits)).mp ran
      refine ⟨.field responseName.isSome tree others, .field expands expandsRest, sound.mpr sounds, ?_, ?_, ?_⟩
      · rwa [Tally.add_field]
      · rw [Expanded.depth, within_max]
        exact ⟨by rwa [← Nat.add_assoc, Nat.add_right_comm], deepRest⟩
      · rw [Tally.add_field]
    · rintro ⟨tree, expands, isSound, fitsAll, deepAll, rfl⟩
      cases expands with
      | @field _ _ _ _ _ tree others expands expandsRest =>
        rw [Tally.add_field] at fitsAll ⊢
        rw [Expanded.depth, within_max, ← Nat.add_assoc, Nat.add_right_comm] at deepAll
        have deeper : Within limits.depth (depth + 1) := deepAll.1.of_le (Nat.le_add_right _ _)
        have fitsEntered : (tally.enter depth responseName.isSome).Fits limits := fitsAll.of_add.of_add
        refine ⟨_, (enterField_iff fits).mpr ⟨fitsEntered, deeper, rfl⟩, ?_⟩
        exact (visits_bind (fun between => ih _ _ between rfl fitsEntered deeper)
          (fun tally fits => restIh _ tally _ rfl fits depthFits)).mpr
          ⟨tree, others, expands, expandsRest, sound.mp isSound, fitsAll, deepAll, rfl⟩
  | case3 stack depth pos visited spreadPos name rest cycle =>
    refine ⟨fun ran => (failAt_ne_ok ran).elim, fun ⟨_, _, sound, _⟩ => ?_⟩
    exact ((sound name (.direct (by simp [spreads]))).2.2 cycle).elim
  | case4 stack depth pos visited spreadPos name rest fresh missing =>
    refine ⟨fun ran => (failAt_ne_ok ran).elim, fun ⟨_, _, sound, _⟩ => ?_⟩
    obtain ⟨⟨fragment, found⟩, -⟩ := sound name (.direct (by simp [spreads]))
    cases missing.symm.trans (operation.getFragment_eq_some.mpr found)
  | case5 stack depth pos visited spreadPos name rest fresh fragment isFragment ih restIh =>
    have found := operation.getFragment_eq_some.mp isFragment
    rw [visits_bind (fun between => ih tally between isTally fits depthFits)
      (fun tally fits => restIh _ tally result rfl fits depthFits), ← soundFrom_fragmentSpread found fresh]
    constructor
    · rintro ⟨tree, others, expands, expandsRest, sound, fits, deep, isResult⟩
      rw [← Tally.add_append] at fits isResult
      exact ⟨_, .fragmentSpread found expands expandsRest, sound, fits,
        by rwa [Expanded.depth_append, within_max], isResult⟩
    · rintro ⟨tree, expands, sound, fits, deep, isResult⟩
      cases expands with
      | fragmentSpread isFound expands expandsRest =>
        obtain rfl := operation.fragment_unique found isFound
        rw [Tally.add_append] at fits isResult
        rw [Expanded.depth_append, within_max] at deep
        exact ⟨_, _, expands, expandsRest, sound, fits, deep, isResult⟩
  | case6 stack depth pos visited innerPos selectionSet rest ih restIh =>
    rw [visits_bind (fun between => ih tally between isTally fits depthFits)
      (fun tally fits => restIh _ tally result rfl fits depthFits),
      ← @soundFrom_of_spreads _ _ (.inlineFragment innerPos selectionSet rest) _ _ rfl]
    constructor
    · rintro ⟨tree, others, expands, expandsRest, sound, fits, deep, isResult⟩
      rw [← Tally.add_append] at fits isResult
      exact ⟨_, .inlineFragment expands expandsRest, sound, fits,
        by rwa [Expanded.depth_append, within_max], isResult⟩
    · rintro ⟨tree, expands, sound, fits, deep, isResult⟩
      cases expands with
      | inlineFragment expands expandsRest =>
        rw [Tally.add_append] at fits isResult
        rw [Expanded.depth_append, within_max] at deep
        exact ⟨_, _, expands, expandsRest, sound, fits, deep, isResult⟩

/-- Sound fragments can be expanded: the visitor without limits is the recursion. -/
theorem exists_expands (stack : List String) (depth : Nat) (pos : Pos) (visited : Visited)
    (selections : ParsedSelections) (sound : SoundFrom operation stack selections) :
    ∃ tree, Expands operation selections tree := by
  fun_induction visitSelectionSet operation {} stack depth pos visited selections with
  | case1 => exact ⟨.nil, .nil⟩
  | case2 stack depth pos visited fieldPos responseName innerPos selectionSet rest ih restIh =>
    obtain ⟨inner, after⟩ := (soundFrom_of_spreads rfl).mp sound
    obtain ⟨tree, expands⟩ := ih visited inner
    obtain ⟨others, expandsRest⟩ := restIh visited after
    exact ⟨_, .field expands expandsRest⟩
  | case3 stack depth pos visited spreadPos name rest cycle =>
    exact ((sound name (.direct (by simp [spreads]))).2.2 cycle).elim
  | case4 stack depth pos visited spreadPos name rest fresh missing =>
    obtain ⟨⟨fragment, found⟩, -⟩ := sound name (.direct (by simp [spreads]))
    cases missing.symm.trans (operation.getFragment_eq_some.mpr found)
  | case5 stack depth pos visited spreadPos name rest fresh fragment isFragment ih restIh =>
    have found := operation.getFragment_eq_some.mp isFragment
    obtain ⟨inner, after⟩ := (soundFrom_fragmentSpread found fresh).mp sound
    obtain ⟨tree, expands⟩ := ih inner
    obtain ⟨others, expandsRest⟩ := restIh visited after
    exact ⟨_, .fragmentSpread found expands expandsRest⟩
  | case6 stack depth pos visited innerPos selectionSet rest ih restIh =>
    obtain ⟨inner, after⟩ := (soundFrom_of_spreads rfl).mp sound
    obtain ⟨tree, expands⟩ := ih inner
    obtain ⟨others, expandsRest⟩ := restIh visited after
    exact ⟨_, .inlineFragment expands expandsRest⟩

theorem soundFrom_nil_iff {selections : ParsedSelections} :
    SoundFrom operation [] selections ↔ FragmentsSound operation selections := by
  simp [SoundFrom, FragmentsSound]

/-- The limits hold of the operation with all of its fragments expanded. -/
def OperationLimits.Respected (limits : OperationLimits) (tree : Expanded) : Prop :=
  Within limits.rootFields tree.rootFields ∧ Within limits.complexity tree.fields ∧
    Within limits.aliases tree.aliasedFields ∧ Within limits.depth tree.depth

theorem validateParsedOperation_ok_iff (operation : ParsedOperation) (limits : OperationLimits) :
    (FragmentsSound operation operation.selectionSet → ∃! tree, Expands operation operation.selectionSet tree) ∧
      (validateParsedOperation operation limits = .ok () ↔ FragmentsSound operation operation.selectionSet ∧
          ∃ tree, Expands operation operation.selectionSet tree ∧ limits.Respected tree) := by
  have initial : (⟨0, 0, 0⟩ : Visited) = Tally.visited {} := rfl
  have within (limit : Option UInt16) : Within limit 0 := fun _ _ => Nat.zero_le _
  constructor
  · intro sound
    obtain ⟨tree, expands⟩ := exists_expands [] 0 operation.selectionSetPos {} _ (soundFrom_nil_iff.mpr sound)
    exact ⟨tree, expands, fun other otherExpands => otherExpands.unique expands⟩
  · have ran : validateParsedOperation operation limits = .ok () ↔
        ∃ result, Visits operation limits [] 0 {} operation.selectionSet result := by
      rw [validateParsedOperation, bind_eq_ok]
      simp only [and_true, visitSelectionSet_iff [] 0 operation.selectionSetPos _ operation.selectionSet {} _ initial
        ⟨within _, within _, within _⟩ (within _)]
    rw [ran, ← soundFrom_nil_iff]
    constructor
    · rintro ⟨result, tree, expands, sound, fits, deep, -⟩
      refine ⟨sound, tree, expands, ?_, ?_, ?_, by simpa using deep⟩
      · simpa [Tally.add] using fits.rootFields
      · simpa [Tally.add] using fits.fields
      · simpa [Tally.add] using fits.aliases
    · rintro ⟨sound, tree, expands, rootFields, fields, aliases, deep⟩
      refine ⟨_, tree, expands, sound, ⟨?_, ?_, ?_⟩, by simpa using deep, rfl⟩
      · simpa [Tally.add] using rootFields
      · simpa [Tally.add] using aliases
      · simpa [Tally.add] using fields

end Visit
end Grafbase.Operation
