import Grafbase.Validation.InterfaceImplementers

/-! When an object or an interface implements the interfaces it declares.

The rules are those of the GraphQL specification. The checks follow them in
every point but two: nothing says that an interface must not list itself, and
an additional argument counts as required whenever its type is non-null, also
when it has a default value.
-/

set_option autoImplicit false

namespace Grafbase.Validation
open Foundation Sdl List
section Rules
variable (document : ServiceDocument)

/-- IsSubType for named types. -/
inductive IsSubType : String → String → Prop where
  | same (name : String) : IsSubType name name
  | member {candidate union : String} {members : List String} :
      HasKind document union (.union members) → candidate ∈ members → IsSubType candidate union
  | implementer {candidate interface : String} {interfaceImplements : List String}
    {interfaceFields : List FieldDefinition}
      {kind : TypeKind} {implements : List String} {fields : List FieldDefinition} :
      HasKind document interface (.interface interfaceImplements interfaceFields) → HasKind document candidate kind →
      kind.implementer? = some (implements, fields) → interface ∈ implements → IsSubType candidate interface

/-- IsValidImplementationFieldType: covariant through lists, and non-null wherever the interface is. -/
inductive IsValidImplementationFieldType : Ty → Ty → Prop where
  | named {name interfaceName : String} {nullable interfaceNullable : Bool} : IsSubType document name interfaceName →
      (interfaceNullable = false → nullable = false) →
      IsValidImplementationFieldType (.named name nullable) (.named interfaceName interfaceNullable)
  | list {item interfaceItem : Ty} {nullable interfaceNullable : Bool} :
      IsValidImplementationFieldType item interfaceItem → (interfaceNullable = false → nullable = false) →
      IsValidImplementationFieldType (.list item nullable) (.list interfaceItem interfaceNullable)

/-- The additional arguments of a field which its type makes non-null. -/
def AdditionalNonNull (own field : FieldDefinition) (argument : InputValueDefinition) : Prop :=
  argument ∈ own.arguments ∧ (∀ other ∈ field.arguments, other.name ≠ argument.name) ∧ argument.ty.nullable = false

/-- The rules a field breaks against the field of the interface it stands for. -/
inductive FieldBreaks (own field : FieldDefinition) : Prop where
  | fieldType : ¬ IsValidImplementationFieldType document own.ty field.ty → FieldBreaks own field
  | missingArgument {argument : InputValueDefinition} : argument ∈ field.arguments →
      (∀ other ∈ own.arguments, other.name ≠ argument.name) → FieldBreaks own field
  | argumentType {argument ownArgument : InputValueDefinition} : argument ∈ field.arguments →
      ownArgument ∈ own.arguments → ownArgument.name = argument.name → ownArgument.ty ≠ argument.ty →
      FieldBreaks own field
  | requiredArgument {argument : InputValueDefinition} : AdditionalNonNull own field argument →
      argument.defaultValue = none → FieldBreaks own field

/-- The rules a type with these interfaces and fields breaks for an interface it declares, other than that the
interface is the type itself. -/
inductive Breaks (implements : List String) (fields : List FieldDefinition) (interface : String) : Prop where
  | notInterface : (∀ interfaceImplements interfaceFields,
      ¬ HasKind document interface (.interface interfaceImplements interfaceFields)) →
        Breaks implements fields interface
  | twice : 2 ≤ implements.count interface → Breaks implements fields interface
  | transitive {interfaceImplements : List String} {interfaceFields : List FieldDefinition} {implied : String} :
      HasKind document interface (.interface interfaceImplements interfaceFields) → implied ∈ interfaceImplements →
      implied ∉ implements → Breaks implements fields interface
  | missingField {interfaceImplements : List String} {interfaceFields : List FieldDefinition}
    {field : FieldDefinition} :
      HasKind document interface (.interface interfaceImplements interfaceFields) → field ∈ interfaceFields →
      (∀ own ∈ fields, own.name ≠ field.name) → Breaks implements fields interface
  | field {interfaceImplements : List String} {interfaceFields : List FieldDefinition} {field own : FieldDefinition} :
      HasKind document interface (.interface interfaceImplements interfaceFields) → field ∈ interfaceFields →
      own ∈ fields → own.name = field.name → FieldBreaks document own field → Breaks implements fields interface

/-- Some type declares an interface for which it is as the predicate says. -/
def Declares (broken : TypeDefinition → List String → List FieldDefinition → String → Prop) : Prop :=
  ∃ definition ∈ document, ∃ implements fields, definition.kind.implementer? = some (implements, fields) ∧
    ∃ interface ∈ implements, broken definition implements fields interface

/-- Some type breaks a rule, the one against itself apart. -/
def BreaksOtherRule : Prop :=
  Declares document fun _ implements fields interface => Breaks document implements fields interface

/-- Some type declares itself as an interface. -/
def DeclaresItself : Prop := Declares document fun definition _ _ interface => interface = definition.name

/-- Some type breaks the rules for an interface it declares. -/
def BreaksRules : Prop :=
  Declares document fun definition implements fields interface =>
    interface = definition.name ∨ Breaks document implements fields interface

/-- A field of some type has an additional argument that is non-null and has a default. -/
def HasDefaultedArgument : Prop :=
  Declares document fun _ _ fields interface => ∃ interfaceImplements interfaceFields,
    HasKind document interface (.interface interfaceImplements interfaceFields) ∧
      ∃ field ∈ interfaceFields, ∃ own ∈ fields,
      own.name = field.name ∧ ∃ argument, AdditionalNonNull own field argument ∧ argument.defaultValue ≠ none

/-- Type names, field names of a type and argument names of a field are unique, and nothing is extended. -/
structure UniqueNames : Prop extends Plain document where
  fieldsDistinct : ∀ definition ∈ document, ∀ implements fields,
    definition.kind.implementer? = some (implements, fields) → (fields.map FieldDefinition.name).Nodup
  argumentsDistinct : ∀ definition ∈ document, ∀ implements fields,
    definition.kind.implementer? = some (implements, fields) →
      ∀ field ∈ fields, (field.arguments.map InputValueDefinition.name).Nodup

end Rules

theorem declares_or {document : ServiceDocument}
    {first second : TypeDefinition → List String → List FieldDefinition → String → Prop} :
    Declares document (fun definition implements fields interface =>
        first definition implements fields interface ∨ second definition implements fields interface) ↔
      Declares document first ∨ Declares document second := by
  constructor
  · rintro ⟨definition, member, implements, fields, kind, interface, declared, either⟩
    exact either.imp (fun holds => ⟨definition, member, implements, fields, kind, interface, declared, holds⟩)
      fun holds => ⟨definition, member, implements, fields, kind, interface, declared, holds⟩
  · rintro (⟨definition, member, implements, fields, kind, interface, declared, holds⟩ |
      ⟨definition, member, implements, fields, kind, interface, declared, holds⟩)
    · exact ⟨definition, member, implements, fields, kind, interface, declared, .inl holds⟩
    · exact ⟨definition, member, implements, fields, kind, interface, declared, .inr holds⟩

/-! ## Single checks -/

theorem not_nodup_iff {names : List String} : ¬ names.Nodup ↔ ∃ name ∈ names, 2 ≤ names.count name := by
  rw [nodup_iff_count_le_one]
  constructor
  · intro repeated
    obtain ⟨name, often⟩ := not_forall.mp repeated
    exact ⟨name, count_pos_iff.mp (by omega), by omega⟩
  · rintro ⟨name, _, often⟩ atMostOne
    have := atMostOne name
    omega

theorem transitively_eq_nil {parentName ifaceName : String} {parentImplements ifaceImplements : List String} :
    validateImplementsInterfaceTransitively parentName parentImplements ifaceName ifaceImplements = [] ↔
      ∀ implied ∈ ifaceImplements, implied ∈ parentImplements := by
  simp [validateImplementsInterfaceTransitively]

section Arguments
variable {own field : List InputValueDefinition}

def argument? (arguments : List InputValueDefinition) (name : String) : Option InputValueDefinition :=
  arguments.find? fun argument => argument.name = name

variable {name : String}

theorem argument?_eq_some_iff (distinct : (own.map InputValueDefinition.name).Nodup)
    {argument : InputValueDefinition} : argument? own name = some argument ↔ argument ∈ own ∧ argument.name = name :=
  find?_eq_some_iff_of_nodup distinct

theorem argument?_eq_none_iff : argument? own name = none ↔ ∀ argument ∈ own, argument.name ≠ name := by
  simp [argument?]

theorem mem_pairedArguments (ownDistinct : (own.map InputValueDefinition.name).Nodup)
    (fieldDistinct : (field.map InputValueDefinition.name).Nodup)
    {pair : Option InputValueDefinition × Option InputValueDefinition} : (name, pair) ∈ pairedArguments own field ↔
      pair = (argument? own name, argument? field name) ∧ pair ≠ (none, none) := by
  have keys : ((pairedArguments own field).map Prod.fst).Nodup :=
    nodup_map_fst_foldl_upsert InputValueDefinition.name (fun _ => (none, none))
      (fun argument found => (found.1, some argument)) field
      (nodup_map_fst_foldl_upsert InputValueDefinition.name (fun _ => (none, none))
        (fun argument _ => (some argument, none))
        own nodup_nil)
  have stored : (name, pair) ∈ pairedArguments own field ↔ (pairedArguments own field).lookup name = some pair :=
    ⟨lookup_eq_some_of_mem keys, mem_of_lookup_eq_some⟩
  rw [stored]
  unfold pairedArguments argument?
  rw [lookup_foldl_upsert InputValueDefinition.name (fun _ => (none, none))
    (fun argument found => (found.1, some argument))
      fieldDistinct,
    lookup_foldl_upsert InputValueDefinition.name (fun _ => (none, none)) (fun argument _ => (some argument, none))
      ownDistinct]
  cases own.find? (fun argument => argument.name = name) <;> cases field.find? (fun argument => argument.name = name)
  · constructor
    · intro missing
      cases missing
    · rintro ⟨rfl, present⟩
      exact absurd rfl present
  all_goals
    constructor
    · intro same
      cases same
      exact ⟨rfl, by simp⟩
    · rintro ⟨rfl, _⟩
      rfl

/-- No argument of the field is missing, of another type or additional and non-null. -/
theorem validateFieldArguments_eq_nil {ifaceName implementerName : String} {own field : FieldDefinition}
    (ownDistinct : (own.arguments.map InputValueDefinition.name).Nodup)
    (fieldDistinct : (field.arguments.map InputValueDefinition.name).Nodup) :
    validateFieldArgumentsImplementInterfaceField ifaceName implementerName own field = [] ↔
      (∀ argument ∈ field.arguments, (∃ ownArgument ∈ own.arguments, ownArgument.name = argument.name) ∧
        ∀ ownArgument ∈ own.arguments, ownArgument.name = argument.name → ownArgument.ty = argument.ty) ∧
      ∀ argument, ¬ AdditionalNonNull own field argument := by
  unfold validateFieldArgumentsImplementInterfaceField
  rw [flatMap_eq_nil_iff]
  constructor
  · intro noError
    constructor
    · intro argument member
      have isField := (argument?_eq_some_iff fieldDistinct).mpr ⟨member, rfl⟩
      have checked := noError (argument.name, argument? own.arguments argument.name, some argument)
        ((mem_pairedArguments ownDistinct fieldDistinct).mpr ⟨by rw [isField], by simp⟩)
      cases isOwn : argument? own.arguments argument.name with
      | none => simp [isOwn, validateArgument] at checked
      | some ownArgument =>
        obtain ⟨ownMember, sameName⟩ := (argument?_eq_some_iff ownDistinct).mp isOwn
        refine ⟨⟨ownArgument, ownMember, sameName⟩, fun other otherMember otherName => ?_⟩
        rw [inj_on_of_nodup_map ownDistinct otherMember ownMember (otherName.trans sameName.symm)]
        simpa [isOwn, validateArgument] using checked
    · rintro argument ⟨member, additional, nonNull⟩
      have isOwn := (argument?_eq_some_iff ownDistinct).mpr ⟨member, rfl⟩
      have isField : argument? field.arguments argument.name = none := argument?_eq_none_iff.mpr additional
      have checked := noError (argument.name, some argument, none)
        ((mem_pairedArguments ownDistinct fieldDistinct).mpr ⟨by rw [isOwn, isField], by simp⟩)
      simp [validateArgument, nonNull] at checked
  · rintro ⟨provided, optional⟩ ⟨name, pair⟩ member
    obtain ⟨rfl, present⟩ := (mem_pairedArguments ownDistinct fieldDistinct).mp member
    cases isOwn : argument? own.arguments name with
    | none =>
      cases isField : argument? field.arguments name with
      | none => simp [isOwn, isField] at present
      | some argument =>
        obtain ⟨isMember, rfl⟩ := (argument?_eq_some_iff fieldDistinct).mp isField
        obtain ⟨⟨ownArgument, ownMember, sameName⟩, _⟩ := provided argument isMember
        exact absurd sameName (argument?_eq_none_iff.mp isOwn ownArgument ownMember)
    | some ownArgument =>
      obtain ⟨ownMember, rfl⟩ := (argument?_eq_some_iff ownDistinct).mp isOwn
      cases isField : argument? field.arguments ownArgument.name with
      | none =>
        have nullable : ownArgument.ty.nullable = true := by
          by_contra nonNull
          exact optional ownArgument ⟨ownMember, argument?_eq_none_iff.mp isField, by simpa using nonNull⟩
        simp [validateArgument, nullable]
      | some argument =>
        obtain ⟨isMember, sameName⟩ := (argument?_eq_some_iff fieldDistinct).mp isField
        simp [validateArgument, (provided argument isMember).2 ownArgument ownMember sameName.symm]

end Arguments

section Checks
variable {document : ServiceDocument} (plain : Plain document)
include plain

theorem validateImplementerInnerType_iff {candidate iface : String} :
    validateImplementerInnerType (firstPass document) candidate iface = true ↔ IsSubType document candidate iface := by
  unfold validateImplementerInnerType
  by_cases same : candidate = iface
  · subst same
    simp [IsSubType.same]
  rw [if_neg same]
  constructor
  · intro accepted
    split at accepted
    · next members found =>
      exact .member (plain.kind_eq_some_iff.mp found) (by simpa using accepted)
    · next found =>
      have isInterface := plain.kind_eq_some_iff.mp found
      split at accepted
      · next found => exact .implementer isInterface (plain.kind_eq_some_iff.mp found) rfl (by simpa using accepted)
      · next found => exact .implementer isInterface (plain.kind_eq_some_iff.mp found) rfl (by simpa using accepted)
      · cases accepted
    · cases accepted
  · intro sub
    cases sub with
    | same => exact absurd rfl same
    | member isUnion member =>
      rw [plain.kind_eq_some_iff.mpr isUnion]
      simpa using member
    | implementer isInterface hasKind implements declared =>
      rename TypeKind => kind
      rw [plain.kind_eq_some_iff.mpr isInterface]
      cases kind with
      | object | interface =>
        cases implements
        rw [plain.kind_eq_some_iff.mpr hasKind]
        simpa using declared
      | scalar | union | enum | inputObject => cases implements

theorem validateFieldType_iff {candidate iface : Ty} : (validateImplementerWrapperTypes candidate iface &&
        validateImplementerInnerType (firstPass document) candidate.baseName iface.baseName) = true ↔
      IsValidImplementationFieldType document candidate iface := by
  -- The code walks down the wrappers and compares the names afterwards; the rule does both on the way.
  induction candidate generalizing iface with
  | named name nullable =>
    cases iface with
    | named interfaceName interfaceNullable =>
      rw [Bool.and_eq_true, Ty.baseName, Ty.baseName, validateImplementerInnerType_iff plain]
      constructor
      · rintro ⟨wrappers, sub⟩
        refine .named sub fun required => ?_
        simpa [validateImplementerWrapperTypes, required] using wrappers
      · rintro (⟨sub, required⟩ | _)
        cases interfaceNullable <;> simp_all [validateImplementerWrapperTypes]
    | list interfaceItem interfaceNullable =>
      exact ⟨nofun, nofun⟩
  | list item nullable ih =>
    cases iface with
    | named interfaceName interfaceNullable =>
      exact ⟨nofun, nofun⟩
    | list interfaceItem interfaceNullable =>
      have inner := @ih interfaceItem
      rw [Bool.and_eq_true] at inner
      rw [Bool.and_eq_true, validateImplementerWrapperTypes, Bool.and_eq_true, Ty.baseName, Ty.baseName]
      constructor
      · rintro ⟨⟨nonNull, wrappers⟩, sub⟩
        refine .list (inner.mp ⟨wrappers, sub⟩) fun required => ?_
        simpa [required] using nonNull
      · rintro (_ | ⟨valid, required⟩)
        obtain ⟨wrappers, sub⟩ := inner.mpr valid
        cases interfaceNullable <;> simp_all

omit plain in
/-- What the checks of one field come to: the rules, and additional arguments with a default. -/
def FieldFaulty (document : ServiceDocument) (own field : FieldDefinition) : Prop :=
  FieldBreaks document own field ∨ ∃ argument, AdditionalNonNull own field argument ∧ argument.defaultValue ≠ none

theorem validateField_eq_nil_iff (ifaceName implementerName : String) {own field : FieldDefinition}
    (ownDistinct : (own.arguments.map InputValueDefinition.name).Nodup)
    (fieldDistinct : (field.arguments.map InputValueDefinition.name).Nodup) :
    validateFieldTypeImplementsInterfaceField (firstPass document) ifaceName implementerName own field ++
        validateFieldArgumentsImplementInterfaceField ifaceName implementerName own field = [] ↔
      ¬ FieldFaulty document own field := by
  have typeChecked :
      validateFieldTypeImplementsInterfaceField (firstPass document) ifaceName implementerName own field = [] ↔
      IsValidImplementationFieldType document own.ty field.ty := by
    rw [validateFieldTypeImplementsInterfaceField, ← validateFieldType_iff plain]
    split
    · next valid => simp [valid]
    · next invalid => simp [invalid]
  rw [append_eq_nil_iff, typeChecked, validateFieldArguments_eq_nil ownDistinct fieldDistinct]
  constructor
  · rintro ⟨valid, provided, optional⟩ (broken | ⟨argument, additional, _⟩)
    · cases broken with
      | fieldType invalid => exact invalid valid
      | @missingArgument argument member missing =>
        obtain ⟨⟨ownArgument, ownMember, sameName⟩, _⟩ := provided argument member
        exact missing ownArgument ownMember sameName
      | argumentType member ownMember sameName different => exact different ((provided _ member).2 _ ownMember sameName)
      | requiredArgument additional _ => exact optional _ additional
    · exact optional argument additional
  · intro sound
    refine ⟨?_, fun argument member => ⟨?_, fun ownArgument ownMember sameName => ?_⟩, fun argument additional => ?_⟩
    · by_contra invalid
      exact sound (.inl (.fieldType invalid))
    · by_contra missing
      exact sound (.inl (.missingArgument member fun other otherMember sameName =>
        missing ⟨other, otherMember, sameName⟩))
    · by_contra different
      exact sound (.inl (.argumentType member ownMember sameName different))
    · by_cases default : argument.defaultValue = none
      · exact sound (.inl (.requiredArgument additional default))
      · exact sound (.inr ⟨argument, additional, default⟩)

end Checks

section Document
variable {document : ServiceDocument} (unique : UniqueNames document)
include unique

omit unique in
/-- What the checks of one declared interface come to. -/
def ImplementationFaulty (document : ServiceDocument) (implements : List String) (fields : List FieldDefinition)
    (interface : String) : Prop :=
  Breaks document implements fields interface ∨ ∃ interfaceImplements interfaceFields,
    HasKind document interface (.interface interfaceImplements interfaceFields) ∧
      ∃ field ∈ interfaceFields, ∃ own ∈ fields,
      own.name = field.name ∧ ∃ argument, AdditionalNonNull own field argument ∧ argument.defaultValue ≠ none

variable {definition : TypeDefinition} {implements : List String} {fields : List FieldDefinition}

theorem validateFieldsImplementInterface_eq_nil (member : definition ∈ document)
    (kind : definition.kind.implementer? = some (implements, fields)) {interface : String}
    {interfaceImplements : List String} {interfaceFields : List FieldDefinition}
    (isInterface : HasKind document interface (.interface interfaceImplements interfaceFields))
      (name ifaceName : String) :
    validateFieldsImplementInterface (firstPass document) name fields ifaceName interfaceFields = [] ↔
      ∀ field ∈ interfaceFields, (∃ own ∈ fields, own.name = field.name) ∧
        ∀ own ∈ fields, own.name = field.name → ¬ FieldFaulty document own field := by
  have ownFields := unique.fieldsDistinct definition member implements fields kind
  have found {own field : FieldDefinition} :
      (fields.find? fun candidate => candidate.name = field.name) = some own ↔ own ∈ fields ∧ own.name = field.name :=
    find?_eq_some_iff_of_nodup ownFields
  unfold validateFieldsImplementInterface
  simp only [unique.withFields, append_eq_nil_iff, flatMap_eq_nil_iff]
  rw [← forall₂_and]
  refine forall₂_congr fun field fieldMember => ?_
  cases candidate : fields.find? fun candidate => candidate.name = field.name with
  | none =>
    simp only [reduceCtorEq, and_false, false_iff]
    rintro ⟨⟨own, ownMember, sameName⟩, _⟩
    have := found.mpr ⟨ownMember, sameName⟩
    simp [candidate] at this
  | some own =>
    obtain ⟨ownMember, sameName⟩ := found.mp candidate
    obtain ⟨interfaceDefinition, inDocument, _, interfaceKind⟩ := isInterface
    have ownArguments := unique.argumentsDistinct definition member implements fields kind own ownMember
    have fieldArguments := unique.argumentsDistinct interfaceDefinition inDocument interfaceImplements interfaceFields
      (by rw [interfaceKind]; rfl) field fieldMember
    have checked := validateField_eq_nil_iff unique.toPlain ifaceName name ownArguments fieldArguments
    simp only [and_true]
    constructor
    · intro noError
      refine ⟨⟨own, ownMember, sameName⟩, fun other otherMember otherName => ?_⟩
      rw [inj_on_of_nodup_map ownFields otherMember ownMember (otherName.trans sameName.symm)]
      exact checked.mp noError
    · rintro ⟨_, sound⟩
      exact checked.mpr (sound own ownMember sameName)

/-- One declared interface is reported exactly when it is listed once and the checks find a fault. -/
theorem validateImplemented_eq_nil (member : definition ∈ document)
    (kind : definition.kind.implementer? = some (implements, fields)) (interface : String)
    (once : implements.count interface ≤ 1) :
    validateImplemented (firstPass document) definition.name implements fields interface = [] ↔
      ¬ ImplementationFaulty document implements fields interface := by
  unfold validateImplemented
  cases found : (firstPass document).definition? interface with
  | none =>
    have missing : ImplementationFaulty document implements fields interface := by
      refine .inl (.notInterface fun interfaceImplements interfaceFields isInterface => ?_)
      have := unique.kind_eq_some_iff.mpr isInterface
      simp [found] at this
    simp [missing]
  | some interfaceDefinition =>
    have hasKind : HasKind document interface interfaceDefinition.kind :=
      unique.kind_eq_some_iff.mp (by rw [found]; rfl)
    have notInterface (other : ∀ interfaceImplements interfaceFields,
        interfaceDefinition.kind ≠ .interface interfaceImplements interfaceFields) :
        ImplementationFaulty document implements fields interface :=
      .inl (.notInterface fun interfaceImplements interfaceFields isInterface =>
        other interfaceImplements interfaceFields (unique.kind_unique hasKind isInterface))
    cases interfaceKind : interfaceDefinition.kind with
    | scalar | object | union | enum | inputObject =>
      have faulty := notInterface (by simp [interfaceKind])
      simp [interfaceKind, faulty]
    | interface interfaceImplements interfaceFields =>
      rw [interfaceKind] at hasKind
      simp only [interfaceKind]
      rw [append_eq_nil_iff, transitively_eq_nil, validateFieldsImplementInterface_eq_nil unique member kind hasKind]
      have same {others : List String} {otherFields : List FieldDefinition}
          (isInterface : HasKind document interface (.interface others otherFields)) :
          interfaceImplements = others ∧ interfaceFields = otherFields := by
        simpa using unique.kind_unique hasKind isInterface

      constructor
      · rintro ⟨transitive, provided⟩
          (broken | ⟨_, _, isInterface, field, fieldMember, own, ownMember, sameName, faulty⟩)
        · cases broken with
          | notInterface notInterface => exact notInterface _ _ hasKind
          | twice often => omega
          | transitive isInterface implied missing =>
            obtain ⟨rfl, rfl⟩ := same isInterface
            exact missing (transitive _ implied)
          | missingField isInterface fieldMember missing =>
            obtain ⟨rfl, rfl⟩ := same isInterface
            obtain ⟨⟨own, ownMember, sameName⟩, _⟩ := provided _ fieldMember
            exact missing own ownMember sameName
          | field isInterface fieldMember ownMember sameName broken =>
            obtain ⟨rfl, rfl⟩ := same isInterface
            exact (provided _ fieldMember).2 _ ownMember sameName (.inl broken)
        · obtain ⟨rfl, rfl⟩ := same isInterface
          exact (provided field fieldMember).2 own ownMember sameName (.inr faulty)
      · intro notFaulty
        refine ⟨fun implied isImplied => ?_, fun field fieldMember => ⟨?_, fun own ownMember sameName => ?_⟩⟩
        · by_contra missing
          exact notFaulty (.inl (.transitive hasKind isImplied missing))
        · by_contra missing
          exact notFaulty (.inl (.missingField hasKind fieldMember fun own ownMember sameName =>
            missing ⟨own, ownMember, sameName⟩))
        · rintro (broken | faulty)
          · exact notFaulty (.inl (.field hasKind fieldMember ownMember sameName broken))
          · exact notFaulty (.inr ⟨_, _, hasKind, field, fieldMember, own, ownMember, sameName, faulty⟩)

theorem validateImplementsList_eq_nil (member : definition ∈ document)
    (kind : definition.kind.implementer? = some (implements, fields)) :
    validateImplementsList (firstPass document) definition.name implements fields = [] ↔
      ∀ interface ∈ implements, ¬ ImplementationFaulty document implements fields interface := by
  rw [validateImplementsList, append_eq_nil_iff, map_eq_nil_iff, findDuplicates_eq_nil, flatMap_eq_nil_iff]
  constructor
  · rintro ⟨distinct, noError⟩ interface declared
    exact (validateImplemented_eq_nil unique member kind interface (nodup_iff_count_le_one.mp distinct interface)).mp
      (noError interface declared)
  · intro sound
    have distinct : implements.Nodup := by
      by_contra repeated
      obtain ⟨interface, declared, often⟩ := not_nodup_iff.mp repeated
      exact sound interface declared (.inl (.twice often))
    exact ⟨distinct, fun interface declared => (validateImplemented_eq_nil unique member kind interface
      (nodup_iff_count_le_one.mp distinct interface)).mpr (sound interface declared)⟩

/-- The checks report an error exactly when a rule other than the one against itself is broken, or when an additional
non-null argument has a default. -/
theorem implementsErrors_ne_nil_iff :
    implementsErrors document ≠ [] ↔ BreaksOtherRule document ∨ HasDefaultedArgument document := by
  have each (definition : TypeDefinition) (member : definition ∈ document) :
      validateImplements (firstPass document) definition = [] ↔ ∀ implements fields,
        definition.kind.implementer? = some (implements, fields) →
          ∀ interface ∈ implements, ¬ ImplementationFaulty document implements fields interface := by
    unfold validateImplements
    rw [unique.noExtension definition member]
    cases kind : definition.kind with
    | object implements fields | interface implements fields =>
      have checked := validateImplementsList_eq_nil unique member (by rw [kind]; rfl)
      simp only [Bool.false_eq_true, if_false, unique.withImplements]
      rw [checked]
      simp [TypeKind.implementer?]
    | scalar | union | enum | inputObject => simp [TypeKind.implementer?]
  rw [implementsErrors, Ne, flatMap_eq_nil_iff, BreaksOtherRule, HasDefaultedArgument, ← declares_or]
  constructor
  · intro reported
    by_contra none
    refine reported fun definition member => (each definition member).mpr ?_
    intro implements fields kind interface declared faulty
    exact none ⟨definition, member, implements, fields, kind, interface, declared, faulty⟩
  · rintro ⟨definition, member, implements, fields, kind, interface, declared, faulty⟩ noError
    exact (each definition member).mp (noError definition member) implements fields kind interface declared faulty

/-- An error is reported exactly when a type breaks the rules, provided that another rule than the one against itself
is broken, or that the document has an interface that declares itself if and only if it has an additional non-null
argument with a default. -/
theorem implementsErrors_exact_iff : (implementsErrors document ≠ [] ↔ BreaksRules document) ↔
      (BreaksOtherRule document ∨ (DeclaresItself document ↔ HasDefaultedArgument document)) := by
  have rules : BreaksRules document ↔ DeclaresItself document ∨ BreaksOtherRule document := declares_or
  rw [implementsErrors_ne_nil_iff unique, rules]
  by_cases other : BreaksOtherRule document
  · simp [other]
  · simp only [other, false_or, or_false]
    exact iff_comm

end Document
/-! `interface Node { id: ID! }` and `type Book implements Node { id: ID! }` -/

def library : ServiceDocument :=
  [⟨false, "Node", .interface [] [⟨"id", [], .named "ID" false⟩]⟩,
    ⟨false, "Book", .object ["Node"] [⟨"id", [], .named "ID" false⟩]⟩]

theorem uniqueNames_library : UniqueNames library where
  noExtension := by simp [library]
  namesDistinct := by simp [library]
  fieldsDistinct := by simp [library, TypeKind.implementer?]
  argumentsDistinct := by simp [library, TypeKind.implementer?]

theorem implementsErrors_exact_library :
    UniqueNames library ∧ (implementsErrors library ≠ [] ↔ BreaksRules library) := by
  refine ⟨uniqueNames_library, (implementsErrors_exact_iff uniqueNames_library).mpr (.inr ?_)⟩
  have notItself : ¬ DeclaresItself library := by
    simp [DeclaresItself, Declares, library, TypeKind.implementer?]
  have noDefault : ¬ HasDefaultedArgument library := by
    simp [HasDefaultedArgument, Declares, library, TypeKind.implementer?, HasKind, AdditionalNonNull]
  simp [notItself, noDefault]

/-- `interface Node implements Node { id: ID! }` -/
def selfImplementing : ServiceDocument := [⟨false, "Node", .interface ["Node"] [⟨"id", [], .named "ID" false⟩]⟩]

/-- `interface Named { name: String }` and `type Book implements Named { name(locale: String! = "en"): String }` -/
def defaultedLocale : ServiceDocument :=
  [⟨false, "Named", .interface [] [⟨"name", [], .named "String" true⟩]⟩,
    ⟨false, "Book", .object ["Named"]
      [⟨"name", [⟨"locale", .named "String" false, some (.leaf (.string "en"))⟩], .named "String" true⟩]⟩]

/-- An interface that implements itself is accepted; a field with an additional non-null argument is rejected though the
argument has a default. -/
theorem implementsErrors_not_exact : (implementsErrors selfImplementing = [] ∧ BreaksRules selfImplementing) ∧
      (implementsErrors defaultedLocale ≠ [] ∧ ¬ BreaksRules defaultedLocale) := by
  refine ⟨⟨by decide, ?_⟩, by decide, ?_⟩
  · exact ⟨_, mem_singleton_self _, _, _, rfl, "Node", by simp, .inl rfl⟩
  · rintro ⟨definition, member, implements, fields, kind, interface, declared, broken⟩
    have isInterface : HasKind defaultedLocale "Named" (.interface [] [⟨"name", [], .named "String" true⟩]) :=
      ⟨_, mem_cons_self, rfl, rfl⟩
    have named {others : List String} {otherFields : List FieldDefinition}
        (has : HasKind defaultedLocale "Named" (.interface others otherFields)) :
        others = [] ∧ otherFields = [⟨"name", [], .named "String" true⟩] := by
      simpa [HasKind, defaultedLocale, eq_comm] using has
    simp only [defaultedLocale, mem_cons, not_mem_nil, or_false] at member
    rcases member with rfl | rfl
    · cases kind
      cases declared
    · cases kind
      obtain rfl := mem_singleton.mp declared
      rcases broken with itself | broken
      · exact absurd itself (by decide)
      · cases broken with
        | notInterface notInterface => exact notInterface _ _ isInterface
        | twice often => exact absurd often (by decide)
        | transitive has implied _ =>
          obtain ⟨rfl, rfl⟩ := named has
          cases implied
        | missingField has fieldMember missing =>
          obtain ⟨rfl, rfl⟩ := named has
          obtain rfl := mem_singleton.mp fieldMember
          exact missing _ (mem_singleton_self _) rfl
        | field has fieldMember ownMember _ broken =>
          obtain ⟨rfl, rfl⟩ := named has
          obtain rfl := mem_singleton.mp fieldMember
          obtain rfl := mem_singleton.mp ownMember
          cases broken with
          | fieldType invalid => exact invalid (.named (.same _) id)
          | missingArgument argumentMember _
          | argumentType argumentMember _ _ _ => cases argumentMember
          | requiredArgument additional noDefault =>
            obtain rfl := mem_singleton.mp additional.1
            cases noDefault

end Grafbase.Validation
