import Grafbase.SchemaDiff.Views

/-! The diff in both directions.

What one direction adds, the other removes. The arguments of a new field are
reported as added, but those of a field that is gone are not reported.
-/

set_option autoImplicit false

namespace Grafbase.SchemaDiff
open Foundation List

/-- The kinds that add something, with those that remove it. -/
def opposites : List (ChangeKind × ChangeKind) :=
  [(.addObjectType, .removeObjectType), (.addInterfaceImplementation, .removeInterfaceImplementation),
    (.addField, .removeField), (.addUnion, .removeUnion), (.addUnionMember, .removeUnionMember),
    (.addEnum, .removeEnum), (.addEnumValue, .removeEnumValue), (.addScalar, .removeScalar),
    (.addInterface, .removeInterface), (.addDirectiveDefinition, .removeDirectiveDefinition),
    (.addSchemaDefinition, .removeSchemaDefinition), (.addInputObject, .removeInputObject),
    (.addFieldArgument, .removeFieldArgument), (.addFieldArgumentDefault, .removeFieldArgumentDefault)]

/-- The kind of a change in the other direction. -/
def ChangeKind.mirror (kind : ChangeKind) : ChangeKind :=
  ((opposites.lookup kind).or ((opposites.map Prod.swap).lookup kind)).getD kind

variable {ν : Type} {source target : Document ν} {changes others more back : List (Change ν)}
  {parent field name : String}

/-- Every change has its mirror image, at the same path. -/
def MirroredIn (changes others : List (Change ν)) : Prop :=
  ∀ change ∈ changes, ∃ other ∈ others, other.path = change.path ∧ other.kind = change.kind.mirror

theorem mirroredIn_nil : MirroredIn [] others := fun _ listed => nomatch listed

theorem mirroredIn_single {path : Path} {kind other : ChangeKind} {span reverse : Excerpt ν}
    (mirrored : other = kind.mirror) : MirroredIn [⟨path, kind, span⟩] [⟨path, other, reverse⟩] := by
  simp [MirroredIn, mirrored]

theorem mirroredIn_ite {α : Type} [DecidableEq α] {first second : α} (mirrored : MirroredIn changes others) :
    MirroredIn (if first ≠ second then changes else []) (if second ≠ first then others else []) := by
  by_cases same : first = second
  · simpa [same] using mirroredIn_nil
  · simpa [same, Ne.symm same] using mirrored

theorem MirroredIn.append (left : MirroredIn changes others) (right : MirroredIn more back) :
    MirroredIn (changes ++ more) (others ++ back) := by
  refine forall_mem_append.mpr ⟨fun change listed => ?_, fun change listed => ?_⟩
  · exact (left change listed).imp fun other mirrored => ⟨mem_append_left _ mirrored.1, mirrored.2⟩
  · exact (right change listed).imp fun other mirrored => ⟨mem_append_right _ mirrored.1, mirrored.2⟩

theorem MirroredIn.swap (left : MirroredIn changes back) (right : MirroredIn more others) :
    MirroredIn (changes ++ more) (others ++ back) := fun change listed =>
  (left.append right change listed).imp fun _ mirrored => ⟨perm_append_comm.mem_iff.mp mirrored.1, mirrored.2⟩

theorem schemaDefinitionChanges_mirrored (first second : Option (SchemaDefinition ν)) :
    MirroredIn (schemaDefinitionChanges (first, second)) (schemaDefinitionChanges (second, first)) := by
  cases first <;> cases second
  case some.some =>
    refine .append (.append ?_ ?_) ?_
    all_goals exact mirroredIn_ite (mirroredIn_single rfl)
  case none.none => exact mirroredIn_nil
  all_goals exact mirroredIn_single rfl

theorem implementerReport_mirrored :
    MirroredIn (implementerReport source target name) (implementerReport target source name) := by
  intro change listed
  rcases mem_append.mp listed with gone | new
  · obtain ⟨interface, member, rfl⟩ := mem_map.mp gone
    exact ⟨_, mem_append_right _ (mem_map_of_mem member), rfl, rfl⟩
  · obtain ⟨interface, member, rfl⟩ := mem_map.mp new
    exact ⟨_, mem_append_left _ (mem_map_of_mem member), rfl, rfl⟩

theorem definitionReport_mirrored :
    MirroredIn (definitionReport source target name) (definitionReport target source name) := by
  have sides (found : Option (Definition ν)) :
      let removed := found.elim [] fun definition => definition.kind.elim [] fun kind =>
        [⟨.definition name, removedKind kind, .definition definition⟩]
      MirroredIn removed (found.elim [] (addedType name)) ∧ MirroredIn (found.elim [] (addedType name)) removed := by
    cases found with
    | none => exact ⟨mirroredIn_nil, mirroredIn_nil⟩
    | some definition =>
      simp only [Option.elim_some, addedType]
      rcases definition.kind with _ | kind
      · exact ⟨mirroredIn_nil, mirroredIn_nil⟩
      · cases kind <;> exact ⟨mirroredIn_single rfl, mirroredIn_single rfl⟩
  unfold definitionReport
  by_cases same : source.kindOf name = target.kindOf name
  · simpa [same] using mirroredIn_nil
  · rw [if_neg same, if_neg (Ne.symm same)]
    exact (sides _).1.swap (sides _).2

theorem memberChanges_mirrored {path : Path} {src target : Option (Member ν)} {kind : DefinitionKind}
    (forth : memberChanges path src target kind = .ok changes)
      (back : memberChanges path target src kind = .ok others) :
    MirroredIn changes others := by
  cases kind <;> cases src <;> cases target <;> simp only [memberChanges, Except.ok.injEq, reduceCtorEq] at forth back
  any_goals
    subst forth back
    first | exact mirroredIn_nil | exact mirroredIn_single rfl
  -- what is left are the members that both sides have, for the three kinds with typed members
  all_goals
    split at forth
    · next differ =>
      rw [if_pos (Ne.symm differ)] at back
      split at forth <;> split at back <;> cases forth <;> cases back
      exact mirroredIn_single rfl
    · cases forth
      exact mirroredIn_nil

theorem memberReport_mirrored (forth : memberReport source target parent name = .ok changes)
    (back : memberReport target source parent name = .ok others) : MirroredIn changes others := by
  unfold memberReport at forth back
  split at forth
  · next kind other isKind isOther =>
    rw [isKind, isOther] at back
    split at forth
    · next same =>
      subst same
      exact memberChanges_mirrored forth (by simpa using back)
    · cases forth
      exact mirroredIn_nil
  · cases forth
    exact mirroredIn_nil

/-- The arguments of the target are on fields of the source. -/
def ArgumentsKnown (source target : Document ν) : Prop :=
  ∀ parent field name, (target.argumentOf parent field name).isSome → (source.memberOf parent field).isSome

variable [DecidableEq ν] {change : Change ν}

theorem argumentReport_mirrored (known : ArgumentsKnown source target) :
    MirroredIn (argumentReport source target parent field name) (argumentReport target source parent field name) := by
  unfold argumentReport
  cases first : source.argumentOf parent field name with
  | none =>
    cases second : target.argumentOf parent field name with
    | none => exact mirroredIn_nil
    | some after =>
      simp only [known parent field name (by simp [second]), if_true]
      exact mirroredIn_single rfl
  | some before =>
    cases second : target.argumentOf parent field name with
    | none =>
      dsimp only
      split
      · exact mirroredIn_single rfl
      · exact mirroredIn_nil
    | some after =>
      refine .append (mirroredIn_ite (mirroredIn_single rfl)) ?_
      cases before.defaultValue <;> cases after.defaultValue
      case some.some => exact mirroredIn_ite (mirroredIn_single rfl)
      case none.none => exact mirroredIn_nil
      all_goals exact mirroredIn_single rfl

theorem Report.mirrored (noConfusion : NoConfusion target source) (known : ArgumentsKnown source target)
    (report : Report source target changes) (listed : change ∈ changes) :
    ∃ others, Report target source others ∧ MirroredIn changes others := by
  cases report with
  | schema => exact ⟨_, .schema, schemaDefinitionChanges_mirrored _ _⟩
  | implementer name => exact ⟨_, .implementer name, implementerReport_mirrored⟩
  | definition name => exact ⟨_, .definition name, definitionReport_mirrored⟩
  | member isPart =>
    obtain ⟨others, isReverse⟩ := memberReport_isOk noConfusion (present_of_memberReport isPart listed).symm
    exact ⟨others, .member isReverse, memberReport_mirrored isPart isReverse⟩
  | argument parent field name => exact ⟨_, .argument parent field name, argumentReport_mirrored known⟩

theorem Report.mem_argumentReport (report : Report source target changes) (listed : change ∈ changes)
    (isPath : change.path = .argument parent field name) : change ∈ argumentReport source target parent field name := by
  -- the paths of all other reports are shorter
  cases report with
  | schema =>
    cases first : source.schemaOf <;> cases second : target.schemaOf <;>
      simp [first, second, schemaDefinitionChanges, rootTypeChange] at listed <;> grind
  | implementer other =>
    simp [implementerReport, implementerChanges] at listed
    grind
  | definition other =>
    unfold definitionReport addedType Option.elim at listed
    grind
  | member isPart =>
    unfold memberReport memberChanges at isPart
    grind
  | argument owner member other =>
    have same : change.path = .argument owner member other := by
      unfold argumentReport defaultChanges at listed
      grind
    cases same.symm.trans isPath
    exact listed

theorem mirroredIn_diff_iff (forth : diff source target = .ok changes) (back : diff target source = .ok others) :
    MirroredIn changes others ↔ ArgumentsKnown source target := by
  constructor
  · intro mirrored parent field name isSome
    by_contra gone
    obtain ⟨argument, found⟩ := Option.isSome_iff_exists.mp isSome
    have absent : source.argumentOf parent field name = none :=
      Option.eq_none_iff_forall_ne_some.mpr fun _ other => gone (memberOf_isSome other)
    -- the argument is reported as added, and nothing is reported of it in the other direction
    have added : ⟨.argument parent field name, .addFieldArgument, .argument argument⟩ ∈ changes :=
      (mem_diff forth).mpr ⟨_, .argument parent field name, by simp [argumentReport, absent, found]⟩
    obtain ⟨other, isOther, isPath, _⟩ := mirrored _ added
    obtain ⟨part, report, inPart⟩ := (mem_diff back).mp isOther
    simpa [argumentReport, absent, found, gone] using report.mem_argumentReport inPart isPath
  · intro known change listed
    obtain ⟨part, report, inPart⟩ := (mem_diff forth).mp listed
    obtain ⟨reverse, isReverse, mirrored⟩ := report.mirrored (diff_isOk_iff.mp ⟨others, back⟩) known inPart
    obtain ⟨other, isOther, same⟩ := mirrored change inPart
    exact ⟨other, (mem_diff back).mpr ⟨reverse, isReverse, isOther⟩, same⟩

/-- The diff returns in both directions, and each is the mirror image of the other. -/
def DiffSymmetric (source target : Document ν) : Prop :=
  ∃ forth back, diff source target = .ok forth ∧ diff target source = .ok back ∧ MirroredIn forth back ∧
    MirroredIn back forth

theorem diffSymmetric_iff (source target : Document ν) : DiffSymmetric source target ↔
    (NoConfusion source target ∧ NoConfusion target source) ∧ ArgumentsKnown source target ∧
      ArgumentsKnown target source := by
  constructor
  · rintro ⟨forth, back, isForth, isBack, mirrored, reversed⟩
    exact ⟨⟨diff_isOk_iff.mp ⟨forth, isForth⟩, diff_isOk_iff.mp ⟨back, isBack⟩⟩,
      (mirroredIn_diff_iff isForth isBack).mp mirrored, (mirroredIn_diff_iff isBack isForth).mp reversed⟩
  · rintro ⟨⟨first, second⟩, known, reverse⟩
    obtain ⟨forth, isForth⟩ := diff_isOk_iff.mpr first
    obtain ⟨back, isBack⟩ := diff_isOk_iff.mpr second
    exact ⟨forth, back, isForth, isBack, (mirroredIn_diff_iff isForth isBack).mpr known,
      (mirroredIn_diff_iff isBack isForth).mpr reverse⟩

/-- `type Query { a: Int }`, with or without a field `b(x: Int): Int`. -/
def queryWith (extended : Bool) : Document Unit where
  definitions := [.type ⟨"Query", none, [], .object [] (⟨"a", [], .named "Int", none, []⟩ ::
    if extended then [⟨"b", [⟨"x", .named "Int", none, none, []⟩], .named "Int", none, []⟩] else [])⟩]

/-- The new field is reported with its argument; when it is gone, only the field is reported. -/
theorem not_diffSymmetric_newField :
    (diff (queryWith false) (queryWith true)).map (List.map Change.kind) = .ok [.addField, .addFieldArgument] ∧
      (diff (queryWith true) (queryWith false)).map (List.map Change.kind) = .ok [.removeField] ∧
      ¬ DiffSymmetric (queryWith false) (queryWith true) := by
  refine ⟨by decide +kernel, by decide +kernel, ?_⟩
  rintro ⟨forth, back, isForth, isBack, mirrored, _⟩
  have known := (mirroredIn_diff_iff isForth isBack).mp mirrored "Query" "b" "x" (by decide +kernel)
  exact absurd known (by decide +kernel)

end Grafbase.SchemaDiff
