import Grafbase.Validation.Context

/-! Input objects that need themselves.

The search goes depth first through the fields of non-null, non-list type. It
shares the set of visited input objects along the whole search and never puts
the start into it. When it comes back without a chain, every input object it
visited refers only to visited ones and none of them refers to the start.
-/

set_option autoImplicit false

namespace Grafbase.Validation
open Foundation Sdl List

def Context.unvisited (ctx : Context) (visited : List String) : Nat :=
  (ctx.definitionNames.filter fun entry => entry.1 ∉ visited).length

variable {ctx : Context} {visited : List String}

theorem Context.unvisited_le {later : List String} (grown : visited ⊆ later) :
    ctx.unvisited later ≤ ctx.unvisited visited := by
  apply List.Sublist.length_le
  apply monotone_filter_right
  intro entry fresh
  simp only [decide_eq_true_eq] at fresh ⊢
  exact fun before => fresh (grown before)

theorem Context.unvisited_lt {name : String} {definition : TypeDefinition}
    (found : ctx.definition? name = some definition) (fresh : name ∉ visited) :
    ctx.unvisited (name :: visited) < ctx.unvisited visited := by
  have split : (ctx.definitionNames.filter fun entry => entry.1 ∉ name :: visited) =
      (ctx.definitionNames.filter fun entry => entry.1 ∉ visited).filter fun entry => entry.1 ≠ name := by
    rw [filter_filter]
    congr 1
    simp
  rw [unvisited, split]
  apply length_filter_lt_length_iff_exists.mpr
  exact ⟨(name, definition), mem_filter.mpr ⟨mem_of_lookup_eq_some found, by simpa using fresh⟩, by simp⟩

/-- Whether a field has to be there for a value of its type to be built. -/
def isMandatory (field : InputValueDefinition) : Bool := !(field.ty.nullable || field.ty.isList)

/-- The names of the fields of a chain back to `name`, last field first, and what has been visited by then. -/
def referencesInputObjectRec (ctx : Context) (name : String) (fields : List InputValueDefinition)
    (visited : List String) :
    { result : Option (List String) × List String // visited ⊆ result.2 } :=
  match fields with
  | [] => ⟨(none, visited), List.Subset.refl _⟩
  | field :: rest =>
    if isMandatory field then
      let fieldTypeName := field.ty.baseName
      if fieldTypeName = name then ⟨(some [field.name], visited), List.Subset.refl _⟩
      else if _ : fieldTypeName ∈ visited then referencesInputObjectRec ctx name rest visited
      else
        match _ : ctx.definition? fieldTypeName with
        | some ⟨_, _, .inputObject inputFields⟩ =>
          let inner := referencesInputObjectRec ctx name inputFields (fieldTypeName :: visited)
          have kept : visited ⊆ inner.1.2 := fun _ member => inner.2 (mem_cons_of_mem _ member)
          match inner.1.1 with
          | some chain => ⟨(some (chain ++ [field.name]), inner.1.2), kept⟩
          | none =>
            let later := referencesInputObjectRec ctx name rest inner.1.2
            ⟨later.1, List.Subset.trans kept later.2⟩
        | _ => referencesInputObjectRec ctx name rest visited
    else referencesInputObjectRec ctx name rest visited
termination_by (ctx.unvisited visited, fields.length)
decreasing_by
  · exact Prod.Lex.right _ (by simp)
  · exact Prod.Lex.left _ _ (Context.unvisited_lt ‹_› ‹_›)
  · rcases Nat.lt_or_eq_of_le (Context.unvisited_le kept) with less | same
    · exact Prod.Lex.left _ _ less
    · rw [same]
      exact Prod.Lex.right _ (by simp)
  · exact Prod.Lex.right _ (by simp)
  · exact Prod.Lex.right _ (by simp)

def cycleMessage (inputObjectName : String) (chain : List String) : String :=
  "Cannot reference Input Object " ++ inputObjectName ++ " within itself through a series of non-null fields: \"" ++
    ".".intercalate chain ++ "\""

def inputObjectCycles (ctx : Context) (inputObjectName : String) (fields : List InputValueDefinition) : Errors :=
  match (referencesInputObjectRec ctx inputObjectName fields []).1.1 with
  | some chain => [cycleMessage inputObjectName chain.reverse]
  | none => []

section Specification
variable (document : ServiceDocument)

/-- The fields lead from one input object to another: each is mandatory and stands in the one reached before it. -/
def Leads (start : String) : List InputValueDefinition → String → Prop
  | [], target => start = target
  | field :: rest, target => ∃ fields, HasKind document start (.inputObject fields) ∧ field ∈ fields ∧
      isMandatory field = true ∧ Leads field.ty.baseName rest target

/-- Every mandatory field avoids the start, and if it is of an input object that one has been visited. -/
def Sealed (start : String) (visited : List String) (fields : List InputValueDefinition) : Prop :=
  ∀ field ∈ fields, isMandatory field = true → field.ty.baseName ≠ start ∧
    ∀ inner, HasKind document field.ty.baseName (.inputObject inner) → field.ty.baseName ∈ visited

/-- What the search through `fields` comes back with: a chain that starts in one of them, or no way to the start from
them and from everything visited since. -/
def SearchResult (start : String) (fields : List InputValueDefinition) (visited : List String) :
    Option (List String) × List String → Prop
  | (some chain, _) => ∃ field rest, field ∈ fields ∧ isMandatory field = true ∧
      Leads document field.ty.baseName rest start ∧ chain.reverse = (field :: rest).map InputValueDefinition.name
  | (none, later) => Sealed document start later fields ∧
      ∀ seen ∈ later, seen ∈ visited ∨ ∀ inner, HasKind document seen (.inputObject inner) →
        Sealed document start later inner

end Specification

section Search
variable {document : ServiceDocument} {start : String} {fields rest : List InputValueDefinition}
  {field : InputValueDefinition}

theorem Sealed.mono {later : List String} (grown : visited ⊆ later)
    (isSealed : Sealed document start visited fields) : Sealed document start later fields := by
  intro field member mandatory
  obtain ⟨avoids, visitedInner⟩ := isSealed field member mandatory
  exact ⟨avoids, fun inner isInput => grown (visitedInner inner isInput)⟩

/-- A field that needs no search of its own does not change the result. -/
theorem SearchResult.cons {result : Option (List String) × List String} (kept : visited ⊆ result.2)
    (first : isMandatory field = true → field.ty.baseName ≠ start ∧
      ∀ inner, HasKind document field.ty.baseName (.inputObject inner) → field.ty.baseName ∈ visited)
    (found : SearchResult document start rest visited result) :
      SearchResult document start (field :: rest) visited result := by
  obtain ⟨_ | chain, later⟩ := result
  · refine ⟨forall_mem_cons.mpr ⟨fun mandatory => ?_, found.1⟩, found.2⟩
    exact ⟨(first mandatory).1, fun inner isInput => kept ((first mandatory).2 inner isInput)⟩
  · obtain ⟨next, path, member, result⟩ := found
    exact ⟨next, path, mem_cons_of_mem _ member, result⟩

theorem referencesInputObjectRec_spec (plain : Plain document) (start : String) (fields : List InputValueDefinition)
    (visited : List String) :
    SearchResult document start fields visited
      (referencesInputObjectRec (firstPass document) start fields visited).1 := by
  fun_induction referencesInputObjectRec (firstPass document) start fields visited with
  | case1 visited => exact ⟨by simp [Sealed], fun seen member => .inl member⟩
  | case2 visited field rest mandatory typeName same =>
    exact ⟨field, [], by simp, mandatory, same, rfl⟩
  | case3 visited field rest mandatory typeName different seen ih =>
    exact ih.cons (referencesInputObjectRec _ _ _ _).2 fun _ => ⟨different, fun _ _ => seen⟩
  | case4 visited field rest mandatory typeName different fresh extend name inputFields found inner kept chain
    hasChain ih =>
    have isInput : HasKind document typeName (.inputObject inputFields) :=
      plain.kind_eq_some_iff.mp (by rw [found]; rfl)
    have result : inner.1 = (some chain, inner.1.2) := by rw [← hasChain]
    rw [result] at ih
    obtain ⟨next, path, member, nextMandatory, leads, names⟩ := ih
    exact ⟨field, next :: path, by simp, mandatory,
      ⟨inputFields, isInput, member, nextMandatory, leads⟩, by simp [names]⟩
  | case5 visited field rest mandatory typeName different fresh extend name inputFields found inner kept noChain later
    ih _ ihRest _ =>
    have isInput : HasKind document typeName (.inputObject inputFields) :=
      plain.kind_eq_some_iff.mp (by rw [found]; rfl)
    have result : inner.1 = (none, inner.1.2) := by rw [← noChain]
    rw [result] at ih
    obtain ⟨innerSealed, innerSeen⟩ := ih
    have visitedType : typeName ∈ inner.1.2 := inner.2 (by simp)
    have continued := ihRest.cons later.2 fun _ => ⟨different, fun _ _ => visitedType⟩
    -- Only what was visited before the descent may still be open: the type just searched is sealed by now.
    have grown : inner.1.2 ⊆ later.1.2 := later.2
    generalize later.1 = outcome at continued grown ⊢
    obtain ⟨_ | chain, last⟩ := outcome
    · refine ⟨continued.1, fun seen member => ?_⟩
      rcases continued.2 seen member with before | isSealed
      · rcases innerSeen seen before with atDescent | isSealed
        · rcases mem_cons.mp atDescent with rfl | earlier
          · refine .inr fun fields hasFields => ?_
            cases plain.kind_unique isInput hasFields
            exact innerSealed.mono grown
          · exact .inl earlier
        · exact .inr fun fields hasFields => (isSealed fields hasFields).mono grown
      · exact .inr isSealed
    · exact continued
  | case6 visited field rest mandatory typeName different fresh other ih =>
    refine ih.cons (referencesInputObjectRec _ _ _ _).2 fun _ => ⟨different, fun inner isInput => ?_⟩
    obtain ⟨⟨extend, name, kind⟩, found, rfl⟩ := Option.map_eq_some_iff.mp (plain.kind_eq_some_iff.mpr isInput)
    exact absurd found (other extend name inner)
  | case7 visited field rest optional ih =>
    exact ih.cons (referencesInputObjectRec _ _ _ _).2 fun mandatory => absurd mandatory optional

/-- From fields sealed in a set of input objects that are all sealed, no path leads to the start. -/
theorem Sealed.not_leads (isSealed : Sealed document start visited fields)
    (closed : ∀ seen ∈ visited, ∀ inner, HasKind document seen (.inputObject inner) →
      Sealed document start visited inner)
    (member : field ∈ fields) (mandatory : isMandatory field = true) (path : List InputValueDefinition) :
    ¬ Leads document field.ty.baseName path start := by
  induction path generalizing field fields with
  | nil => exact (isSealed field member mandatory).1
  | cons next rest ih =>
    rintro ⟨inner, isInput, nextMember, nextMandatory, leads⟩
    have visitedInner := (isSealed field member mandatory).2 inner isInput
    exact ih (closed _ visitedInner inner isInput) nextMember nextMandatory leads

end Search

/-- For every input object the search ends; it reports an error exactly when a non-empty series of mandatory fields
leads from it back to it, and what it prints is such a series in order. -/
theorem inputObjectCycles_iff {document : ServiceDocument} (plain : Plain document) {definition : TypeDefinition}
    (member : definition ∈ document) {fields : List InputValueDefinition}
      (isInput : definition.kind = .inputObject fields) :
    (inputObjectCycles (firstPass document) definition.name fields ≠ [] ↔
        ∃ chain, chain ≠ [] ∧ Leads document definition.name chain definition.name) ∧
      ∀ error ∈ inputObjectCycles (firstPass document) definition.name fields,
        ∃ chain, chain ≠ [] ∧ Leads document definition.name chain definition.name ∧
          error = "Cannot reference Input Object " ++ definition.name ++
            " within itself through a series of non-null fields: \"" ++
              ".".intercalate (chain.map InputValueDefinition.name) ++ "\"" := by
  have hasFields : HasKind document definition.name (.inputObject fields) := ⟨definition, member, rfl, isInput⟩
  have searched := referencesInputObjectRec_spec plain definition.name fields []
  unfold inputObjectCycles
  generalize (referencesInputObjectRec (firstPass document) definition.name fields []).1 = result at searched
  obtain ⟨_ | chain, visited⟩ := result
  · obtain ⟨isSealed, allSealed⟩ := searched
    have closed (seen : String) (inVisited : seen ∈ visited) (inner : List InputValueDefinition)
        (hasInner : HasKind document seen (.inputObject inner)) : Sealed document definition.name visited inner := by
      rcases allSealed seen inVisited with nothing | isSealed
      · cases nothing
      · exact isSealed inner hasInner
    refine ⟨⟨fun reported => absurd rfl reported, ?_⟩, by simp⟩
    rintro ⟨_ | ⟨field, rest⟩, nonEmpty, leads⟩
    · exact absurd rfl nonEmpty
    · obtain ⟨others, hasOthers, inFields, mandatory, leads⟩ := leads
      cases plain.kind_unique hasFields hasOthers
      exact absurd leads (isSealed.not_leads closed inFields mandatory rest)
  · obtain ⟨field, rest, inFields, mandatory, leads, names⟩ := searched
    have chainLeads : Leads document definition.name (field :: rest) definition.name :=
      ⟨fields, hasFields, inFields, mandatory, leads⟩
    refine ⟨⟨fun _ => ⟨field :: rest, by simp, chainLeads⟩, by simp⟩, ?_⟩
    intro error isError
    obtain rfl := mem_singleton.mp isError
    refine ⟨field :: rest, by simp, chainLeads, ?_⟩
    rw [← names]
    rfl

/-- `input Shelf { first: Volume! }` and `input Volume { shelf: Shelf! title: String }` -/
def shelfAndVolume : ServiceDocument :=
  [⟨false, "Shelf", .inputObject [⟨"first", .named "Volume" false, none⟩]⟩,
    ⟨false, "Volume", .inputObject [⟨"shelf", .named "Shelf" false, none⟩, ⟨"title", .named "String" true, none⟩]⟩]

theorem inputObjectCycles_shelf : Plain shelfAndVolume ∧
      inputObjectCycles (firstPass shelfAndVolume) "Shelf" [⟨"first", .named "Volume" false, none⟩] ≠ [] := by
  have plain : Plain shelfAndVolume := ⟨by simp [shelfAndVolume], by simp [shelfAndVolume]⟩
  have member : ⟨false, "Shelf", .inputObject [⟨"first", .named "Volume" false, none⟩]⟩ ∈ shelfAndVolume := by
    simp [shelfAndVolume]
  refine ⟨plain, (inputObjectCycles_iff plain member rfl).1.mpr
    ⟨[⟨"first", .named "Volume" false, none⟩, ⟨"shelf", .named "Shelf" false, none⟩], by simp, ?_⟩⟩
  refine ⟨_, ⟨_, member, rfl, rfl⟩, by simp, rfl, ?_⟩
  exact ⟨_, ⟨_, mem_cons_of_mem _ (mem_singleton_self _), rfl, rfl⟩, by simp, rfl, rfl⟩

end Grafbase.Validation
