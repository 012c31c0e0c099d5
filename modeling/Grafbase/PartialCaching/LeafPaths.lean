import Grafbase.PartialCaching.PlannedPartitions

/-! The leaves of an expanded query.

A leaf occurrence is a path through fields, inline fragments and spreads that
ends in a field without selections. Its cache control is that of the innermost
field on the path that has one. The events of the places that the planner
visits are the pieces of such paths.
-/

set_option autoImplicit false

namespace Grafbase.PartialCaching
open Foundation List

inductive Step where
  | field (id : SelectionId) (control : Option CacheControl)
  | inlineFragment (id : SelectionId)
  | fragmentSpread (id : SelectionId) (fragment : FragmentDefinitionId)

namespace Step

def id : Step → SelectionId
  | field id _ | inlineFragment id | fragmentSpread id _ => id

/-- The cache control of the field itself, or else of its type. -/
def control : Step → Option CacheControl
  | field _ control => control
  | inlineFragment _ | fragmentSpread _ _ => none

end Step

/-- The cache control at the end of a path that starts where `around` is active. -/
def pathControl (around : Option CacheControl) (steps : List Step) : Option CacheControl :=
  (steps.filterMap Step.control).getLast?.or around

theorem pathControl_append (around : Option CacheControl) (before after : List Step) :
    pathControl around (before ++ after) = pathControl (pathControl around before) after := by
  simp only [pathControl, filterMap_append, getLast?_append, Option.or_assoc]

theorem pathControl_cons (around : Option CacheControl) (step : Step) (rest : List Step) :
    pathControl around (step :: rest) = pathControl (step.control.or around) rest := by
  have single : pathControl around [step] = step.control.or around := by
    cases own : step.control <;> simp [pathControl, own]
  rw [← single, ← pathControl_append, singleton_append]

/-- The paths to the leaves of what is shown; a field of which no selection is shown is a leaf. -/
inductive LeafPath (registry : PartialCacheRegistry) (document : ExecutableDocument) (shows : SelectionId → Prop)
    (includes : FragmentDefinitionId → Prop) : Option MetaType → Selections → List Step → Prop where
  | leaf {container id otherName name arguments directives selectionSet rest} (shown : shows id)
      (bare : ∀ entry ∈ selectionSet.members, ¬ shows entry.1) :
      LeafPath registry document shows includes container
        (.field id otherName name arguments directives selectionSet rest)
        [.field id (fieldEdge registry container name selectionSet).cacheControl]
  | inField {container id otherName name arguments directives selectionSet rest steps} (shown : shows id)
      (inside : LeafPath registry document shows includes (fieldEdge registry container name selectionSet).fieldType
        selectionSet steps) :
      LeafPath registry document shows includes container
        (.field id otherName name arguments directives selectionSet rest)
        (.field id (fieldEdge registry container name selectionSet).cacheControl :: steps)
  | afterField {container id otherName name arguments directives selectionSet rest steps}
      (later : LeafPath registry document shows includes container rest steps) :
      LeafPath registry document shows includes container
        (.field id otherName name arguments directives selectionSet rest) steps
  | inInlineFragment {container id typeCondition directives selectionSet rest steps} (shown : shows id)
      (inside : LeafPath registry document shows includes (innerContainer registry container typeCondition)
        selectionSet steps) :
      LeafPath registry document shows includes container
        (.inlineFragment id typeCondition directives selectionSet rest) (.inlineFragment id :: steps)
  | afterInlineFragment {container id typeCondition directives selectionSet rest steps}
      (later : LeafPath registry document shows includes container rest steps) :
      LeafPath registry document shows includes container
        (.inlineFragment id typeCondition directives selectionSet rest) steps
  | inFragmentSpread {container id fragmentName directives rest fragment steps} (shown : shows id)
      (named : document.fragmentNamed fragmentName = some fragment) (included : includes fragment)
      (inside : LeafPath registry document shows includes
        (registry.lookupType (document.readFragment fragment).typeCondition)
        (document.readFragment fragment).selectionSet steps) :
      LeafPath registry document shows includes container (.fragmentSpread id fragmentName directives rest)
        (.fragmentSpread id fragment :: steps)
  | afterFragmentSpread {container id fragmentName directives rest steps}
      (later : LeafPath registry document shows includes container rest steps) :
      LeafPath registry document shows includes container (.fragmentSpread id fragmentName directives rest) steps

abbrev WholePath (registry : PartialCacheRegistry) (document : ExecutableDocument) :
    Option MetaType → Selections → List Step → Prop :=
  LeafPath registry document (fun _ => True) (fun _ => True)

theorem Selections.isEmpty_iff_members {selections : Selections} :
    selections.isEmpty ↔ ∀ entry ∈ selections.members, ¬ True := by
  simp only [not_true_eq_false]
  rw [← eq_nil_iff_forall_not_mem]
  cases selections <;> simp [isEmpty, members]

section Pieces
variable {registry : PartialCacheRegistry} {document : ExecutableDocument} {around : Option CacheControl}
  {container : Option MetaType} {selections : Selections} {path : List SelectionId} {met : List Event}
  {steps : List Step}

/-- There is a path to the leaf within the place, or one that leads on to the paths of the fragment. -/
def Reaches (registry : PartialCacheRegistry) (document : ExecutableDocument) (container : Option MetaType)
    (around : Option CacheControl) (selections : Selections) : Event → Prop
  | .leaf path control => ∃ steps, WholePath registry document container selections steps ∧ steps.map Step.id = path ∧
      pathControl around steps = control
  | .spread path name control => ∀ fragment, document.fragmentNamed name = some fragment → ∃ before,
      before.map Step.id = path ∧ pathControl around before = control ∧
        ∀ steps, WholePath registry document (registry.lookupType (document.readFragment fragment).typeCondition)
            (document.readFragment fragment).selectionSet steps →
          WholePath registry document container selections (before ++ steps)

variable {inner : Option MetaType} {selectionSet : Selections} {event : Event}

theorem Reaches.within (step : Step)
    (reaches : Reaches registry document inner (step.control.or around) selectionSet event)
    (lifts : ∀ steps, WholePath registry document inner selectionSet steps →
      WholePath registry document container selections (step :: steps)) :
    Reaches registry document container around selections (event.under step.id) := by
  cases event with
  | leaf path control =>
    obtain ⟨steps, whole, rfl, rfl⟩ := reaches
    exact ⟨_, lifts steps whole, rfl, pathControl_cons ..⟩
  | spread path name control =>
    intro fragment named
    obtain ⟨before, rfl, rfl, onward⟩ := reaches fragment named
    exact ⟨step :: before, rfl, pathControl_cons .., fun steps below => lifts _ (onward steps below)⟩

theorem Reaches.later (reaches : Reaches registry document container around selectionSet event)
    (lifts : ∀ steps, WholePath registry document container selectionSet steps →
      WholePath registry document container selections steps) :
    Reaches registry document container around selections event := by
  cases event with
  | leaf path control => exact reaches.imp fun steps => And.imp_left (lifts steps)
  | spread path name control =>
    intro fragment named
    obtain ⟨before, sameIds, sameControl, onward⟩ := reaches fragment named
    exact ⟨before, sameIds, sameControl, fun steps below => lifts _ (onward steps below)⟩

theorem reaches_of_met (met : event ∈ events registry container around selections) :
    Reaches registry document container around selections event := by
  induction selections generalizing container around event with
  | nil => cases met
  | field id otherName name arguments directives selectionSet rest inside after =>
    rcases mem_append.mp met with here | later
    · obtain ⟨event, found, rfl⟩ := mem_map.mp here
      rcases mem_append.mp found with isLeaf | nested
      · unfold leafEvents at isLeaf
        split at isLeaf
        · next empty =>
          cases mem_singleton.mp isLeaf
          exact ⟨_, .leaf trivial (Selections.isEmpty_iff_members.mp empty), rfl, pathControl_cons ..⟩
        · cases isLeaf
      · exact .within (.field id _) (inside nested) fun _ => .inField trivial
    · exact (after later).later fun _ => .afterField
  | inlineFragment id typeCondition directives selectionSet rest inside after =>
    rcases mem_append.mp met with here | later
    · obtain ⟨event, found, rfl⟩ := mem_map.mp here
      exact .within (.inlineFragment id) (inside found) fun _ => .inInlineFragment trivial
    · exact (after later).later fun _ => .afterInlineFragment
  | fragmentSpread id fragmentName directives rest after =>
    rcases mem_cons.mp met with rfl | later
    · intro fragment named
      exact ⟨[.fragmentSpread id fragment], rfl, rfl, fun steps below => .inFragmentSpread trivial named trivial below⟩
    · exact (after later).later fun _ => .afterFragmentSpread

/-- A path ends within the place, or leaves it through the spread of a fragment. -/
inductive FirstPiece (registry : PartialCacheRegistry) (document : ExecutableDocument) (met : List Event)
    (around : Option CacheControl) (steps : List Step) : Prop where
  | leaf (found : .leaf (steps.map Step.id) (pathControl around steps) ∈ met)
      (noSpread : ∀ id fragment, .fragmentSpread id fragment ∉ steps)
  | spread (before after : List Step) (name : String) (fragment : FragmentDefinitionId)
      (parts : steps = before ++ after)
      (found : .spread (before.map Step.id) name (pathControl around before) ∈ met)
      (named : document.fragmentNamed name = some fragment)
      (only : ∀ id other, .fragmentSpread id other ∈ before → other = fragment)
      (nonempty : before ≠ [])
      (inside : WholePath registry document (registry.lookupType (document.readFragment fragment).typeCondition)
        (document.readFragment fragment).selectionSet after)

theorem FirstPiece.mono {more : List Event} (subset : ∀ event ∈ met, event ∈ more)
    (piece : FirstPiece registry document met around steps) : FirstPiece registry document more around steps := by
  cases piece with
  | leaf found noSpread => exact .leaf (subset _ found) noSpread
  | spread before after name fragment parts found named only nonempty inside =>
    exact .spread before after name fragment parts (subset _ found) named only nonempty inside

theorem FirstPiece.under (step : Step) (noSpread : ∀ id fragment, step ≠ .fragmentSpread id fragment)
    (piece : FirstPiece registry document met (step.control.or around) steps) :
    FirstPiece registry document (met.map (Event.under step.id)) around (step :: steps) := by
  cases piece with
  | leaf found none =>
    refine .leaf ?_ fun id fragment member => ?_
    · rw [pathControl_cons]
      exact mem_map_of_mem found
    · rcases mem_cons.mp member with same | later
      · exact noSpread id fragment same.symm
      · exact none id fragment later
  | spread before after name fragment parts found named only nonempty inside =>
    refine .spread (step :: before) after name fragment (by rw [parts, cons_append]) ?_ named ?_ (by simp) inside
    · rw [pathControl_cons]
      exact mem_map_of_mem found
    · intro id other member
      rcases mem_cons.mp member with same | later
      · exact absurd same.symm (noSpread id other)
      · exact only id other later

theorem firstPiece_of_wholePath
    (whole : WholePath registry document container selections steps) (around : Option CacheControl) :
    FirstPiece registry document (events registry container around selections) around steps := by
  induction whole generalizing around with
  | leaf shown bare =>
    refine .leaf ?_ (by simp)
    rw [events, pathControl_cons, leafEvents, if_pos (Selections.isEmpty_iff_members.mpr bare)]
    exact mem_append_left _ (mem_cons_self ..)
  | @inField container id otherName name arguments directives selectionSet rest steps shown inside ih =>
    have piece := (ih ((fieldEdge registry container name selectionSet).cacheControl.or around)).under
      (.field id (fieldEdge registry container name selectionSet).cacheControl) (by simp)
    refine piece.mono fun event member => ?_
    rw [events, map_append, append_assoc]
    exact mem_append_right _ (mem_append_left _ member)
  | afterField later ih | afterInlineFragment later ih => exact (ih around).mono fun event => mem_append_right _
  | @inInlineFragment container id typeCondition directives selectionSet rest steps shown inside ih =>
    have piece := (ih around).under (.inlineFragment id) (by simp)
    exact piece.mono fun event => mem_append_left _
  | @inFragmentSpread container id fragmentName directives rest fragment steps shown named included inside ih =>
    refine .spread [.fragmentSpread id fragment] steps fragmentName fragment rfl ?_ named ?_ (by simp) inside
    · exact mem_cons_self ..
    · intro other otherFragment member
      cases mem_singleton.mp member
      rfl
  | afterFragmentSpread later ih => exact (ih around).mono fun event => mem_cons_of_mem _

end Pieces

section Sites
variable (registry : PartialCacheRegistry) (document : ExecutableDocument) (operation : OperationDefinition)

def SitePath : Option FragmentKey → List Step → Prop
  | none => WholePath registry document (some registry.queryType) operation.selectionSet
  | some key =>
    WholePath registry document (registry.lookupType (document.readFragment key.id).typeCondition)
      (document.readFragment key.id).selectionSet

def siteControl : Option FragmentKey → Option CacheControl
  | none => registry.queryType.cacheControl
  | some key => key.spreadCacheControl

variable {registry document operation} {site : Option FragmentKey} {control : Option CacheControl}
  {steps before : List Step} {path : List SelectionId} {key : FragmentKey}

theorem firstPiece_of_sitePath (path : SitePath registry document operation site steps) :
    FirstPiece registry document (siteEvents registry document operation site) (siteControl registry site) steps := by
  cases site with
  | none | some key => exact firstPiece_of_wholePath path _

theorem sitePath_of_leaf (met : .leaf path control ∈ siteEvents registry document operation site) :
    ∃ steps, SitePath registry document operation site steps ∧ steps.map Step.id = path ∧
      pathControl (siteControl registry site) steps = control := by
  cases site with
  | none | some key => exact reaches_of_met met

theorem sitePath_of_spread
    (spreads : FragmentTracker.Spreads document (siteEvents registry document operation site) key path) :
    ∃ before, before.map Step.id = path ∧ pathControl (siteControl registry site) before = key.spreadCacheControl ∧
      ∀ steps, SitePath registry document operation (some key) steps →
        SitePath registry document operation site (before ++ steps) := by
  obtain ⟨name, met, named⟩ := spreads
  cases site with
  | none | some other => exact reaches_of_met met _ named

theorem sitePath_of_live (live : Live registry document operation control key) :
    ∃ steps, SitePath registry document operation (some key) steps ∧
      pathControl key.spreadCacheControl steps = control := by
  obtain ⟨last, below, path, met⟩ := live
  induction below using Relation.ReflTransGen.head_induction_on with
  | refl =>
    obtain ⟨steps, isPath, _, sameControl⟩ := sitePath_of_leaf met
    exact ⟨steps, isPath, sameControl⟩
  | head step _ ih =>
    obtain ⟨steps, isPath, sameControl⟩ := ih
    obtain ⟨around, spreads⟩ := mem_siteKeys.mp step
    obtain ⟨before, _, reached, onward⟩ := sitePath_of_spread spreads
    refine ⟨before ++ steps, onward steps isPath, ?_⟩
    rw [pathControl_append, ← sameControl, ← reached]
    rfl

theorem prefix_of_visited (visited : VisitedSite registry document operation site) :
    ∃ before, pathControl registry.queryType.cacheControl before = siteControl registry site ∧
      ∀ steps, SitePath registry document operation site steps →
        SitePath registry document operation none (before ++ steps) := by
  cases site with
  | none => exact ⟨[], rfl, fun steps path => path⟩
  | some key =>
    obtain ⟨root, inRoots, path⟩ := visited
    induction path with
    | refl =>
      obtain ⟨around, spreads⟩ := mem_siteKeys.mp inRoots
      obtain ⟨before, _, reached, onward⟩ := sitePath_of_spread spreads
      exact ⟨before, reached, onward⟩
    | tail _ step ih =>
      obtain ⟨before, reached, onward⟩ := ih
      obtain ⟨around, spreads⟩ := mem_siteKeys.mp step
      obtain ⟨between, _, reachedNext, onwardNext⟩ := sitePath_of_spread spreads
      refine ⟨before ++ between, ?_, fun steps path => ?_⟩
      · rw [pathControl_append, reached]
        exact reachedNext
      · rw [append_assoc]
        exact onward _ (onwardNext steps path)

theorem piece_shorter {after : List Step} {length : Nat} (bound : steps.length = length)
    (parts : steps = before ++ after) (nonempty : before ≠ []) : after.length < length := by
  have positive := length_pos_iff.mpr nonempty
  rw [← bound, parts, length_append]
  omega

theorem live_of_sitePath (path : SitePath registry document operation (some key) steps) :
    Live registry document operation (pathControl key.spreadCacheControl steps) key := by
  -- The induction is on the length: each spread on the way uses up at least one step.
  induction bound : steps.length using Nat.strongRecOn generalizing key steps with
  | _ length ih =>
    cases firstPiece_of_sitePath path with
    | leaf found noSpread => exact ⟨key, .refl, _, found⟩
    | spread before after name fragment parts found named only nonempty inside =>
      have pathNext : SitePath registry document operation
        (some ⟨fragment, pathControl key.spreadCacheControl before⟩) after := inside
      obtain ⟨last, below, leafPath, met⟩ := ih after.length (piece_shorter bound parts nonempty) pathNext rfl
      rw [parts, pathControl_append]
      exact ⟨last, below.head (mem_siteKeys.mpr ⟨_, name, found, named⟩), leafPath, met⟩

theorem visible_of_sitePath
    (visited : VisitedSite registry document operation site) (path : SitePath registry document operation site steps) :
    (∀ id ∈ steps.map Step.id, Visible registry document operation (pathControl (siteControl registry site) steps) id) ∧
      ∀ id fragment, .fragmentSpread id fragment ∈ steps →
        Included registry document operation (pathControl (siteControl registry site) steps) fragment := by
  induction bound : steps.length using Nat.strongRecOn generalizing site steps with
  | _ length ih =>
    cases firstPiece_of_sitePath path with
    | leaf found noSpread =>
      exact ⟨fun id onPath => ⟨site, visited, .inl ⟨_, found, onPath⟩⟩,
        fun id fragment member => absurd member (noSpread id fragment)⟩
    | spread before after name fragment parts found named only nonempty inside =>
      have visitedNext : VisitedSite registry document operation
          (some ⟨fragment, pathControl (siteControl registry site) before⟩) :=
        visited_of_mem_siteKeys visited (mem_siteKeys.mpr ⟨_, name, found, named⟩)
      have pathNext : SitePath registry document operation
        (some ⟨fragment, pathControl (siteControl registry site) before⟩) after := inside
      have live := live_of_sitePath pathNext
      obtain ⟨visibleLater, includedLater⟩ := ih after.length (piece_shorter bound parts nonempty)
        visitedNext pathNext rfl
      rw [parts, pathControl_append]
      refine ⟨fun id onPath => ?_, fun id other member => ?_⟩
      · rw [map_append] at onPath
        rcases mem_append.mp onPath with here | later
        · exact ⟨site, visited, .inr ⟨_, _, ⟨name, found, named⟩, here, live⟩⟩
        · exact visibleLater id later
      · rcases mem_append.mp member with here | later
        · cases only id other here
          exact ⟨_, visitedNext, live, rfl⟩
        · exact includedLater id other later

/-- The partition of a cache control holds the selections on the paths to its leaves. -/
theorem visible_iff {id : SelectionId} : Visible registry document operation control id ↔
      ∃ steps, SitePath registry document operation none steps ∧
        pathControl registry.queryType.cacheControl steps = control ∧ id ∈ steps.map Step.id := by
  constructor
  · rintro ⟨site, visited, ⟨path, met, onPath⟩ | ⟨key, path, spreads, onPath, live⟩⟩
    · obtain ⟨before, reached, onward⟩ := prefix_of_visited visited
      obtain ⟨steps, isPath, rfl, sameControl⟩ := sitePath_of_leaf met
      refine ⟨before ++ steps, onward steps isPath, ?_, ?_⟩
      · rw [pathControl_append, reached, sameControl]
      · rw [map_append]
        exact mem_append_right _ onPath
    · obtain ⟨before, reached, onward⟩ := prefix_of_visited visited
      obtain ⟨between, rfl, reachedNext, onwardNext⟩ := sitePath_of_spread spreads
      obtain ⟨steps, isPath, sameControl⟩ := sitePath_of_live live
      refine ⟨before ++ (between ++ steps), onward _ (onwardNext steps isPath), ?_, ?_⟩
      · rw [pathControl_append, reached, pathControl_append, reachedNext, sameControl]
      · rw [map_append, map_append]
        exact mem_append_right _ (mem_append_left _ onPath)
  · rintro ⟨steps, isPath, rfl, onPath⟩
    have visited : VisitedSite registry document operation none := trivial
    exact (visible_of_sitePath visited isPath).1 id onPath

end Sites
end Grafbase.PartialCaching
