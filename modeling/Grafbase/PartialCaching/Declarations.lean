import Grafbase.PartialCaching.QuerySubset

/-! The variables of a subset of a query.

A text declares a variable where its name is followed by a colon. The text of
a subset declares exactly the variables stored with it, in their order, and
these are all that the operation defines and the rest of the text uses.
-/

set_option autoImplicit false

namespace Grafbase.PartialCaching
open Foundation List

def declaredVariables : List Token → List String
  | [] => []
  | .leaf (.variable name) :: rest =>
    if rest.head? = some colon then name :: declaredVariables rest else declaredVariables rest
  | _ :: rest => declaredVariables rest

def variablesUsedInArguments (arguments : List Argument) : List String :=
  arguments.flatMap fun argument => variablesUsed argument.value

def variablesUsedInDirectives (directives : List Directive) : List String :=
  directives.flatMap fun directive => variablesUsedInArguments directive.arguments

def Selection.variablesUsed : Selection → List String
  | field _ _ arguments directives => variablesUsedInArguments arguments ++ variablesUsedInDirectives directives
  | inlineFragment _ directives => variablesUsedInDirectives directives
  | fragmentSpread _ directives => variablesUsedInDirectives directives

/-- The definitions of all variables that the selections, the fragments and the operation itself use. -/
def variablesRequired (partition : Partition) (document : ExecutableDocument) (operation : OperationDefinition) :
    IndexSet VariableDefinitionId :=
  let selected := IndexSet.ofList (partition.selections.items.flatMap fun id =>
    ((document.readSelection id).map Selection.variablesUsed).getD [])
  let withFragments := selected.extend (partition.fragments.items.flatMap fun id =>
    ((document.fragments[id]?).map fun fragment => variablesUsedInDirectives fragment.directives).getD [])
  let names := withFragments.extend (variablesUsedInDirectives operation.directives)
  IndexSet.ofList (names.items.filterMap fun name => operation.variableDefinitions.findIdx? (·.name = name))

section Texts
variable {front back : List Token}

theorem declaredVariables_append (separated : back.head? ≠ some colon) :
    declaredVariables (front ++ back) = declaredVariables front ++ declaredVariables back := by
  fun_induction declaredVariables front with
  | case1 => rfl
  | case2 name rest follows ih =>
    have same : (rest ++ back).head? = some colon := by simp [follows]
    simp [declaredVariables, same, ih]
  | case3 name rest follows ih =>
    have other : (rest ++ back).head? ≠ some colon := by
      cases rest with
      | nil => exact separated
      | cons head tail => simpa using follows
    rw [cons_append, declaredVariables, if_neg other, ih]
  | case4 token rest plain ih =>
    rw [cons_append, declaredVariables.eq_3 _ _ plain, ih]

/-- A text that declares nothing and can follow any other. -/
structure Silent (tokens : List Token) : Prop where
  nothing : declaredVariables tokens = []
  separated : tokens.head? ≠ some colon

namespace Silent

theorem nil : Silent [] := ⟨rfl, by simp⟩

theorem append (first : Silent front) (second : Silent back) : Silent (front ++ back) where
  nothing := by rw [declaredVariables_append second.separated, first.nothing, second.nothing]; rfl
  separated := by
    cases front with
    | nil => exact second.separated
    | cons head tail => simpa using first.separated

variable {token : Token}

theorem single (other : token ≠ colon) : Silent [token] where
  nothing := by
    cases token with
    | leaf value => cases value <;> rfl
    | _ => rfl
  separated := by simpa using other

theorem cons (other : token ≠ colon) (rest : Silent back) : Silent (token :: back) := (single other).append rest

theorem flatMap {α : Type} {items : List α} {piece : α → List Token} (each : ∀ item ∈ items, Silent (piece item)) :
    Silent (items.flatMap piece) := by
  induction items with
  | nil => exact nil
  | cons item rest ih =>
    rw [flatMap_cons]
    exact (each item (by simp)).append (ih fun other member => each other (by simp [member]))

theorem keyed (key : String) (value : Silent back) : Silent (.name key :: colon :: space :: back) where
  nothing := by simpa [declaredVariables, colon, space] using value.nothing
  separated := by simp [colon]

end Silent

theorem commaSeparated_cons (piece : List Token) (pieces : List (List Token)) : commaSeparated (piece :: pieces) =
      piece ++ if pieces.isEmpty then [] else .punctuator "," :: space :: commaSeparated pieces := by
  cases pieces with
  | nil => simp [commaSeparated]
  | cons second rest => simp [commaSeparated, List.intercalate]

theorem Silent.commaSeparated {pieces : List (List Token)} (each : ∀ piece ∈ pieces, Silent piece) :
    Silent (commaSeparated pieces) := by
  induction pieces with
  | nil => exact Silent.nil
  | cons piece rest ih =>
    have later := ih fun other member => each other (by simp [member])
    rw [commaSeparated_cons]
    refine (each piece (by simp)).append ?_
    split
    · exact Silent.nil
    · exact .cons (by decide) (.cons (by decide) later)

end Texts

section Pieces

theorem itemTokens_eq (items : List Value) : itemTokens items = items.map valueTokens := by
  induction items with
  | nil => rfl
  | cons item rest ih => rw [itemTokens, ih, map_cons]

theorem fieldTokens_eq (fields : List (String × Value)) :
    fieldTokens fields = fields.map fun field => .name field.1 :: colon :: space :: valueTokens field.2 := by
  induction fields with
  | nil => rfl
  | cons field rest ih => rw [fieldTokens, ih, map_cons]

theorem silent_value (value : Value) : Silent (valueTokens value) := by
  induction value using Literal.induct with
  | leaf value =>
    rw [valueTokens]
    exact .single (by simp [colon])
  | list items ih =>
    rw [valueTokens, itemTokens_eq]
    refine .append (.cons (by decide) (.commaSeparated ?_)) (.single (by decide))
    simpa using ih
  | object fields ih =>
    rw [valueTokens, fieldTokens_eq]
    refine .append (.cons (by decide) (.commaSeparated ?_)) (.single (by decide))
    intro piece member
    obtain ⟨field, inFields, rfl⟩ := mem_map.mp member
    exact .keyed field.1 (ih field inFields)

theorem silent_arguments (arguments : List Argument) : Silent (argumentsTokens arguments) := by
  unfold argumentsTokens
  split
  · exact Silent.nil
  · refine .append (.cons (by decide) (.commaSeparated ?_)) (.single (by decide))
    intro piece member
    obtain ⟨argument, _, rfl⟩ := mem_map.mp member
    exact .keyed argument.name (silent_value argument.value)

theorem silent_directives (directives : List Directive) : Silent (directivesTokens directives) := by
  refine .flatMap fun directive _ => ?_
  exact .cons (by decide) (.cons (by decide) (.cons (by simp [colon]) (silent_arguments directive.arguments)))

theorem silent_type (type : VariableType) : Silent type.tokens := by
  induction type with
  | named name => exact .single (by simp [colon])
  | list inner ih => exact .append (.cons (by decide) ih) (.single (by decide))
  | nonNull inner ih => exact .append ih (.single (by decide))

theorem silent_indentation (level : Nat) : Silent (indentation level) := by
  induction level with
  | zero => exact Silent.nil
  | succ level ih => exact .cons (by decide) ih

theorem silent_fieldHead (otherName : Option String) (name : String) (arguments : List Argument)
    (directives : List Directive) : Silent (fieldHeadTokens otherName name arguments directives) := by
  have head : Silent (.name name :: (argumentsTokens arguments ++ directivesTokens directives)) :=
    .cons (by simp [colon]) ((silent_arguments arguments).append (silent_directives directives))
  cases otherName with
  | none => simpa [fieldHeadTokens] using head
  | some other => simpa [fieldHeadTokens] using Silent.keyed other head

variable (visible : IndexSet SelectionId)

theorem silent_braced (level : Nat) (selections : Selections) {body : List Token} (inside : Silent body) :
    Silent (braced visible level selections body) := by
  unfold braced
  split
  · exact Silent.nil
  · refine .append (.append (.append (.append (.cons (by decide) (.single (by decide))) ?_) inside)
      (silent_indentation level)) (.single (by decide))
    split
    · exact (silent_indentation _).append (.cons (by decide) (.single (by decide)))
    · exact Silent.nil

theorem silent_selections (level : Nat) (selections : Selections) :
    Silent (selectionTokens visible level selections) := by
  induction selections generalizing level with
  | nil => exact Silent.nil
  | field id otherName name arguments directives selectionSet rest inside after =>
    rw [selectionTokens]
    refine .append ?_ (after level)
    split
    · refine .append (.append (.append (.append (silent_indentation level) (silent_fieldHead _ _ _ _)) ?_)
        (silent_braced visible level selectionSet (inside (level + 1)))) (.single (by decide))
      split
      · exact Silent.nil
      · exact .single (by decide)
    · exact Silent.nil
  | inlineFragment id typeCondition directives selectionSet rest inside after =>
    rw [selectionTokens]
    refine .append ?_ (after level)
    split
    · have condition : Silent (.punctuator "..." :: conditionTokens typeCondition) := by
        refine .cons (by decide) ?_
        cases typeCondition with
        | none => exact Silent.nil
        | some onType => exact .cons (by decide) (.cons (by decide) (.cons (by decide) (.single (by simp [colon]))))
      exact .append (.append (.append (.append (silent_indentation level) condition) (silent_directives directives))
        (.cons (by decide) (silent_braced visible level selectionSet (inside (level + 1))))) (.single (by decide))
    · exact Silent.nil
  | fragmentSpread id fragmentName directives rest after =>
    rw [selectionTokens]
    refine .append ?_ (after level)
    split
    · exact .append (.append (silent_indentation level) (.cons (by decide) (.cons (by decide)
        (.cons (by simp [colon]) (silent_directives directives))))) (.single (by decide))
    · exact Silent.nil

theorem silent_selectionSet (selections : Selections) : Silent (selectionSetTokens visible selections) :=
  silent_braced visible 0 selections (silent_selections visible 1 selections)

theorem silent_fragment (fragment : FragmentDefinition) : Silent (fragment.tokens visible) := by
  have heading : Silent [lineEnd, .name "fragment", space, .name fragment.name, space, .name "on", space,
      .name fragment.typeCondition] := by
    refine .cons (by decide) (.cons (by decide) (.cons (by decide) (.cons (by simp [colon]) ?_)))
    exact .cons (by decide) (.cons (by decide) (.cons (by decide) (.single (by simp [colon]))))
  exact .append (.append (heading.append (silent_directives _)) (.cons (by decide) (silent_selectionSet visible _)))
    (.single (by decide))

end Pieces

theorem declaredVariables_definition (definition : VariableDefinition) :
    declaredVariables definition.tokens = [definition.name] ∧ definition.tokens.head? ≠ some colon := by
  have value : Silent (defaultTokens definition.defaultValue) := by
    cases definition.defaultValue with
    | none => exact Silent.nil
    | some value => exact .cons (by decide) (.cons (by decide) (.cons (by decide) (silent_value value)))
  have after := ((silent_type definition.type).append value).append (silent_directives definition.directives)
  refine ⟨?_, by simp [VariableDefinition.tokens, colon]⟩
  -- The colon after the name is the only one that counts; what follows it declares nothing.
  simpa [VariableDefinition.tokens, declaredVariables, colon, space] using after.nothing

theorem declaredVariables_definitions (definitions : List VariableDefinition) :
    declaredVariables (commaSeparated (definitions.map VariableDefinition.tokens)) =
      definitions.map VariableDefinition.name := by
  induction definitions with
  | nil => rfl
  | cons definition rest ih =>
    rw [map_cons, commaSeparated_cons, declaredVariables_append, (declaredVariables_definition definition).1]
    · cases rest with
      | nil => rfl
      | cons second others => simpa [declaredVariables, space] using ih
    · split <;> simp [colon]

theorem declaredVariables_display (document : ExecutableDocument) (subset : QuerySubset) :
    declaredVariables (subset.display document) = subset.variableDefinitions.map VariableDefinition.name := by
  have tail : Silent (subset.bodyTokens document) := by
    refine .append (.append (silent_directives _) (.cons (by decide) (silent_selectionSet _ _))) (.cons (by decide) ?_)
    exact .flatMap fun fragment _ => silent_fragment _ fragment
  have header : declaredVariables (variablesTokens subset.variableDefinitions) =
      subset.variableDefinitions.map VariableDefinition.name := by
    unfold variablesTokens
    split
    · next none => simp [isEmpty_iff.mp none, declaredVariables]
    · rw [declaredVariables_append (by decide)]
      simpa [declaredVariables] using declaredVariables_definitions subset.variableDefinitions
  rw [QuerySubset.display, cons_append, declaredVariables, declaredVariables_append tail.separated, header,
    tail.nothing, append_nil]
  simp

section Used
variable {name : String}

def Token.variableNamed? : Token → Option String
  | .leaf value => value.variableNamed?
  | _ => none

/-- The variables of a text, declared or not. -/
def variablesIn (tokens : List Token) : List String := tokens.filterMap Token.variableNamed?

@[simp] theorem variablesIn_append (front back : List Token) :
    variablesIn (front ++ back) = variablesIn front ++ variablesIn back := filterMap_append

@[simp] theorem variablesIn_cons (token : Token) (rest : List Token) :
    variablesIn (token :: rest) = token.variableNamed?.toList ++ variablesIn rest := by
  rw [variablesIn, filterMap_cons]
  cases token.variableNamed? <;> rfl

@[simp] theorem variablesIn_nil : variablesIn [] = [] := rfl

@[simp] theorem variableNamed?_punctuator (text : String) : (Token.punctuator text).variableNamed? = none := rfl

@[simp] theorem variableNamed?_name (text : String) : (Token.name text).variableNamed? = none := rfl

@[simp] theorem variableNamed?_blank (text : String) : (Token.blank text).variableNamed? = none := rfl

@[simp] theorem variableNamed?_colon : colon.variableNamed? = none := rfl

@[simp] theorem variableNamed?_space : space.variableNamed? = none := rfl

@[simp] theorem variableNamed?_lineEnd : lineEnd.variableNamed? = none := rfl

@[simp] theorem variablesIn_indentation (level : Nat) : variablesIn (indentation level) = [] := by
  rw [indentation, variablesIn, filterMap_replicate_of_none rfl]

theorem variablesIn_flatMap {α : Type} (items : List α) (piece : α → List Token) :
    variablesIn (items.flatMap piece) = items.flatMap fun item => variablesIn (piece item) := by
  rw [variablesIn, filterMap_flatMap]
  rfl

theorem variablesIn_commaSeparated (pieces : List (List Token)) :
    variablesIn (commaSeparated pieces) = pieces.flatMap variablesIn := by
  induction pieces with
  | nil => rfl
  | cons piece rest ih =>
    rw [commaSeparated_cons, variablesIn_append, flatMap_cons, ← ih]
    cases rest with
    | nil => rfl
    | cons => simp

theorem variablesIn_value (value : Value) : variablesIn (valueTokens value) = variablesUsed value := by
  induction value using Literal.induct with
  | leaf value =>
    rw [valueTokens, variablesUsed, Literal.leaves, variablesIn]
    rfl
  | list items ih =>
    have each : items.flatMap (fun item => variablesIn (valueTokens item)) = items.flatMap variablesUsed :=
      flatMap_congr ih
    simpa [valueTokens, itemTokens_eq, variablesIn_commaSeparated, flatMap_map, variablesUsed, Literal.leaves,
      Literal.leavesOfItems_eq, filterMap_flatMap] using! each
  | object fields ih =>
    have each : fields.flatMap (fun field => variablesIn (valueTokens field.2)) =
        fields.flatMap (fun field => variablesUsed field.2) := flatMap_congr ih
    simpa [valueTokens, fieldTokens_eq, variablesIn_commaSeparated, flatMap_map, variablesUsed, Literal.leaves,
      Literal.leavesOfFields_eq, filterMap_flatMap] using each

theorem variablesIn_arguments (arguments : List Argument) :
    variablesIn (argumentsTokens arguments) = variablesUsedInArguments arguments := by
  cases arguments with
  | nil => rfl
  | cons => simp [argumentsTokens, variablesIn_commaSeparated, variablesUsedInArguments, Argument.tokens,
      variablesIn_value, flatMap_map]

theorem variablesIn_directives (directives : List Directive) :
    variablesIn (directivesTokens directives) = variablesUsedInDirectives directives := by
  simp [directivesTokens, variablesIn_flatMap, Directive.tokens, variablesIn_arguments, variablesUsedInDirectives]

variable (visible : IndexSet SelectionId)

theorem mem_variablesIn_braced {level : Nat} {selections : Selections} {body : List Token}
    (member : name ∈ variablesIn (braced visible level selections body)) : name ∈ variablesIn body := by
  unfold braced at member
  split at member
  · cases member
  · split at member <;> simpa using member

theorem mem_variablesIn_item {shown : Prop} [Decidable shown] {tokens rest : List Token}
    (member : name ∈ variablesIn ((if shown then tokens else []) ++ rest)) :
    shown ∧ name ∈ variablesIn tokens ∨ name ∈ variablesIn rest := by
  rw [variablesIn_append, mem_append] at member
  refine member.imp_left fun here => ?_
  split at here
  · next isShown => exact ⟨isShown, here⟩
  · cases here

theorem mem_variablesIn_selections {level : Nat} {selections : Selections}
    (member : name ∈ variablesIn (selectionTokens visible level selections)) :
    ∃ entry ∈ selections.all, entry.1 ∈ visible ∧ name ∈ entry.2.variablesUsed := by
  induction selections generalizing level with
  | nil => cases member
  | field id otherName fieldName arguments directives selectionSet rest inside after =>
    rcases mem_variablesIn_item member with ⟨shown, here⟩ | later
    · have parts : name ∈ variablesUsedInArguments arguments ++ variablesUsedInDirectives directives ∨
          name ∈ variablesIn (braced visible level selectionSet
            (selectionTokens visible (level + 1) selectionSet)) := by
        have blank : variablesIn (if selectionSet.isEmpty then [] else [space]) = [] := by split <;> rfl
        cases otherName <;>
          simpa [fieldHeadTokens, variablesIn_arguments, variablesIn_directives, or_assoc, blank] using here
      rcases parts with own | below
      · exact ⟨_, mem_cons_self, shown, own⟩
      · obtain ⟨entry, inside, used⟩ := inside (mem_variablesIn_braced visible below)
        exact ⟨entry, by simp [Selections.all, inside], used⟩
    · obtain ⟨entry, after, used⟩ := after later
      exact ⟨entry, by simp [Selections.all, after], used⟩
  | inlineFragment id typeCondition directives selectionSet rest inside after =>
    rcases mem_variablesIn_item member with ⟨shown, here⟩ | later
    · have parts : name ∈ variablesUsedInDirectives directives ∨
          name ∈ variablesIn (braced visible level selectionSet
            (selectionTokens visible (level + 1) selectionSet)) := by
        cases typeCondition <;> simpa [conditionTokens, variablesIn_directives] using here
      rcases parts with own | below
      · exact ⟨_, mem_cons_self, shown, own⟩
      · obtain ⟨entry, inside, used⟩ := inside (mem_variablesIn_braced visible below)
        exact ⟨entry, by simp [Selections.all, inside], used⟩
    · obtain ⟨entry, after, used⟩ := after later
      exact ⟨entry, by simp [Selections.all, after], used⟩
  | fragmentSpread id fragmentName directives rest after =>
    rcases mem_variablesIn_item member with ⟨shown, here⟩ | later
    · exact ⟨_, mem_cons_self, shown, by simpa [variablesIn_directives, Selection.variablesUsed] using here⟩
    · obtain ⟨entry, after, used⟩ := after later
      exact ⟨entry, by simp [Selections.all, after], used⟩

variable {document : ExecutableDocument} {operation : OperationDefinition} {partition : Partition}

theorem readSelection_of_mem {entry : SelectionId × Selection} (member : entry ∈ document.selections) :
    document.readSelection entry.1 = some entry.2 := by
  refine lookup_eq_some_of_mem ?_ member
  simpa [ExecutableDocument.selections, map_flatMap, Selections.ids] using document.distinct

/-- Every variable that the text of a subset uses and the operation defines is required. -/
theorem mem_variablesRequired (inDocument : operation ∈ document.operations)
    {variableIds : IndexSet VariableDefinitionId}
    (used : name ∈ variablesIn (QuerySubset.bodyTokens document ⟨operation, partition, variableIds⟩)) {index : Nat}
    (defined : operation.variableDefinitions.findIdx? (·.name = name) = some index) :
    index ∈ variablesRequired partition document operation := by
  have shown {entry : SelectionId × Selection} (member : entry ∈ document.selections)
      (visible : entry.1 ∈ partition.selections) (used : name ∈ entry.2.variablesUsed) :
      ∃ id ∈ partition.selections, name ∈ ((document.readSelection id).map Selection.variablesUsed).getD [] :=
    ⟨entry.1, visible, by simpa [readSelection_of_mem member] using used⟩
  simp only [variablesRequired, IndexSet.mem_ofList, mem_filterMap, IndexSet.mem_items,
    IndexSet.mem_extend, mem_flatMap]
  refine ⟨name, ?_, defined⟩
  simp only [QuerySubset.bodyTokens, variablesIn_append, variablesIn_cons, variableNamed?_space, variableNamed?_lineEnd,
    Option.toList_none, nil_append, variablesIn_directives, variablesIn_flatMap, mem_append, mem_flatMap] at used
  rcases used with (own | inOperation) | ⟨fragment, isFragment, inFragment⟩
  · exact .inr own
  · obtain ⟨entry, inSelections, visible, used⟩ :=
      mem_variablesIn_selections partition.selections (mem_variablesIn_braced _ inOperation)
    refine .inl (.inl (shown ?_ visible used))
    exact mem_append_left _ (mem_flatMap.mpr ⟨operation, inDocument, inSelections⟩)
  · obtain ⟨id, inPartition, isDefinition⟩ := mem_filterMap.mp isFragment
    have parts : name ∈ variablesUsedInDirectives fragment.directives ∨
        name ∈ variablesIn (selectionSetTokens partition.selections fragment.selectionSet) := by
      simpa [FragmentDefinition.tokens, variablesIn_directives] using inFragment
    rcases parts with own | inSet
    · exact .inl (.inr ⟨id, inPartition, by simpa [isDefinition] using own⟩)
    · obtain ⟨entry, inSelections, visible, used⟩ :=
        mem_variablesIn_selections partition.selections (mem_variablesIn_braced _ inSet)
      refine .inl (.inl (shown ?_ visible used))
      exact mem_append_right _ (mem_flatMap.mpr ⟨fragment, mem_of_getElem? isDefinition, inSelections⟩)

end Used
end Grafbase.PartialCaching
