import Grafbase.Execution.Headers
import Mathlib.Data.String.Basic

/-! Rules for the headers of subgraph requests.

Rules are applied in order to the headers that a subgraph request starts with.
Some names must never be sent to a subgraph; each kind of rule has its own
checks for them.
-/

set_option autoImplicit false

namespace Grafbase.Execution
open Foundation List
open HeaderName (fromStr)
open Headers (keys iter get getAll append remove mem_keys_remove mem_keys_iff)

inductive NameOrPattern where
  | name (name : String)
  | pattern (isMatch : String → Bool)

inductive HeaderRule where
  | forward (name : NameOrPattern) (default rename : Option String)
  | insert (name value : String)
  | remove (name : NameOrPattern)
  | renameDuplicate (name : String) (default : Option String) (rename : String)

def denyList : List String := [
  "accept",
  "accept-charset",
  "accept-encoding",
  "accept-ranges",
  "content-length",
  "content-type",
  -- hop-by-hop headers
  "connection",
  "keep-alive",
  "proxy-authenticate",
  "proxy-authorization",
  "te",
  "trailer",
  "transfer-encoding",
  "upgrade",
  "host"]

def isHeaderDenied (name : HeaderName) : Bool :=
  match binarySearch (denyList.mergeSort fun first second => decide (first ≤ second)) name.text with
  | .ok _ => true
  | .error _ => false

section Handlers
variable {μ : Type} [Headers μ] (request headers : μ)

def handleRenameDuplicate (name : String) (default : Option String) (rename : String) : μ :=
  match fromStr name, fromStr rename with
  | some name, some rename =>
    if isHeaderDenied rename then headers
    else
      match (get request name).or (default.bind HeaderValue.fromStr) with
      | some value => append (append headers name value) rename value
      | none => headers
  | _, _ => headers

def handleRemove : NameOrPattern → μ
  | .pattern isMatch => ((keys headers).filter fun key => isMatch key.text).foldl remove headers
  | .name name =>
    match fromStr name with
    | some name => remove headers name
    | none => headers

def handleInsert (name value : String) : μ :=
  match fromStr name, HeaderValue.fromStr value with
  | some name, some value => if isHeaderDenied name then headers else append headers name value
  | _, _ => headers

def forwardedAs (rename : Option String) (name : HeaderName) : HeaderName := (rename.bind fromStr).getD name

def handleForward (name : NameOrPattern) (default rename : Option String) : μ :=
  match name with
  | .pattern isMatch =>
    let filtered := (iter request).filter fun (name, _) => !isHeaderDenied name && isMatch name.text
    filtered.foldl (fun headers (name, value) => append headers (forwardedAs rename name) value) headers
  | .name name =>
    match fromStr name with
    | none => headers
    | some name =>
      -- If a previous rule added a header with the same name, the old one is removed.
      let headers := remove headers name
      let found := getAll request name
      match rename.elim (some name) fromStr with
      | none => headers
      | some name =>
        if isHeaderDenied name then headers
        else
          match found, default.bind HeaderValue.fromStr with
          | [], some value => Headers.insert headers name value
          | found, _ => found.foldl (fun headers header => append headers name header) headers

def applyRule : HeaderRule → μ
  | .forward name default rename => handleForward request headers name default rename
  | .insert name value => handleInsert headers name value
  | .remove name => handleRemove headers name
  | .renameDuplicate name default rename => handleRenameDuplicate request headers name default rename

def createSubgraphHeadersWithRules (rules : List HeaderRule) (default : μ) : μ :=
  rules.foldl (applyRule request) default

end Handlers

section Names
variable {μ : Type} [Headers μ] {headers : μ} {name : HeaderName}

theorem isHeaderDenied_iff : isHeaderDenied name = true ↔ name.text ∈ denyList := by
  have sorted : (denyList.mergeSort fun first second => decide (first ≤ second)).Pairwise (· ≤ ·) := by
    have pairwise : (denyList.mergeSort fun first second => decide (first ≤ second)).Pairwise
        fun first second => decide (first ≤ second) = true :=
      pairwise_mergeSort (fun first second third => by simpa using le_trans)
        (fun first second => by simpa using le_total first second) denyList
    exact pairwise.imp fun ordered => of_decide_eq_true ordered
  rw [← (mergeSort_perm denyList fun first second => decide (first ≤ second)).mem_iff,
    ← binarySearch_ok_iff sorted, isHeaderDenied]
  cases binarySearch (denyList.mergeSort fun first second => decide (first ≤ second)) name.text <;> simp

theorem mem_keys_foldl_append {α : Type} {items : List α} (target : α → HeaderName) (value : α → HeaderValue) :
    name ∈ keys (items.foldl (fun headers item => append headers (target item) (value item)) headers) ↔
      name ∈ keys headers ∨ ∃ item ∈ items, name = target item := by
  induction items generalizing headers with
  | nil => simp
  | cons item rest ih => simp [ih, or_assoc]

theorem mem_keys_foldl_remove {names : List HeaderName} :
    name ∈ keys (names.foldl remove headers) ↔ name ∈ keys headers ∧ name ∉ names := by
  induction names generalizing headers with
  | nil => simp
  | cons first rest ih => simp [ih, and_assoc]

end Names

/-- The denied names a rule adds: a duplicated header keeps its name whatever it is, and a pattern does not look at
the name it renames to. -/
def Adds {μ : Type} [Headers μ] (request : μ) : HeaderRule → HeaderName → Prop
  | .renameDuplicate name default rename, denied =>
    fromStr name = some denied ∧
    (∃ target, fromStr rename = some target ∧ isHeaderDenied target = false) ∧
    ((get request denied).or (default.bind HeaderValue.fromStr)).isSome = true
  | .forward (.pattern isMatch) _ rename, denied =>
    rename.bind fromStr = some denied ∧
    ∃ source ∈ keys request, isHeaderDenied source = false ∧ isMatch source.text = true
  | _, _ => False

def Removes : HeaderRule → HeaderName → Prop
  | .remove (.name name), removed => fromStr name = some removed
  | .remove (.pattern isMatch), removed => isMatch removed.text = true
  | .forward (.name name) _ _, removed => fromStr name = some removed
  | _, _ => False

theorem handleRemove_keys {μ : Type} [Headers μ] {headers : μ} {removed : HeaderName} (rule : NameOrPattern) :
    removed ∈ keys (handleRemove headers rule) ↔ removed ∈ keys headers ∧ ¬ Removes (.remove rule) removed := by
  cases rule with
  | pattern isMatch =>
    simp only [handleRemove, Removes, mem_keys_foldl_remove, mem_filter]
    tauto
  | name name =>
    simp only [handleRemove, Removes]
    cases fromStr name with
    | none => simp
    | some name => rw [Option.some.injEq, ← ne_eq, ne_comm, ← mem_keys_remove]

section Steps
variable {μ : Type} [Headers μ] {request headers : μ} {denied : HeaderName} (isDenied : isHeaderDenied denied = true)
include isDenied

theorem ne_of_allowed {name : HeaderName} (allowed : isHeaderDenied name = false) : denied ≠ name := by
  rintro rfl
  rw [isDenied] at allowed
  cases allowed

theorem handleRenameDuplicate_keys (name : String) (default : Option String) (rename : String) :
    denied ∈ keys (handleRenameDuplicate request headers name default rename) ↔
      denied ∈ keys headers ∨ Adds request (.renameDuplicate name default rename) denied := by
  rw [handleRenameDuplicate, Adds]
  cases fromStr name with
  | none => simp
  | some source =>
    cases fromStr rename with
    | none => simp
    | some target =>
      cases allowed : isHeaderDenied target with
      | true => simp [allowed]
      | false =>
        have different := ne_of_allowed isDenied allowed
        by_cases same : source = denied
        · subst same
          cases found : (get request source).or (default.bind HeaderValue.fromStr) with
          | none | some value => simp only [found]; simp [allowed]
        · have other := Ne.symm same
          cases found : (get request source).or (default.bind HeaderValue.fromStr) with
          | none => simp only [found]; simp [allowed, same]
          | some value => simp only [found]; simp [allowed, different, same, other]

theorem handleInsert_keys (name value : String) :
    denied ∈ keys (handleInsert headers name value) ↔ denied ∈ keys headers := by
  rw [handleInsert]
  split
  · next name _ _ _ =>
    cases allowed : isHeaderDenied name with
    | true => simp
    | false => simp [ne_of_allowed isDenied allowed]
  · rfl

theorem handleForward_keys (rule : NameOrPattern) (default rename : Option String) :
    denied ∈ keys (handleForward request headers rule default rename) ↔ denied ∈ keys headers ∧
    ¬ Removes (.forward rule default rename) denied ∨ Adds request (.forward rule default rename) denied := by
  cases rule with
  | pattern isMatch =>
    have added : (∃ item ∈ (iter request).filter fun (name, _) => !isHeaderDenied name && isMatch name.text,
        denied = forwardedAs rename item.1) ↔ Adds request (.forward (.pattern isMatch) default rename) denied := by
      simp only [Adds, mem_keys_iff, mem_filter, Bool.and_eq_true, Bool.not_eq_true']
      constructor
      · rintro ⟨⟨source, value⟩, ⟨member, allowed, matched⟩, same⟩
        refine ⟨?_, source, ⟨value, member⟩, allowed, matched⟩
        -- An unchanged name is not denied, so the header was renamed.
        cases target : rename.bind fromStr with
        | none => exact absurd (by simpa [forwardedAs, target] using same) (ne_of_allowed isDenied allowed)
        | some target => simp_all [forwardedAs]
      · rintro ⟨target, source, ⟨value, member⟩, allowed, matched⟩
        exact ⟨(source, value), ⟨member, allowed, matched⟩, by simp [forwardedAs, target]⟩
    refine (@mem_keys_foldl_append μ _ headers denied _ _ (fun item => forwardedAs rename item.1) Prod.snd).trans ?_
    rw [added]
    simp [Removes]
  | name name =>
    simp only [handleForward, Removes, Adds, or_false]
    cases fromStr name with
    | none => simp
    | some source =>
      rw [Option.some.injEq, ← ne_eq, ne_comm, ← mem_keys_remove]
      dsimp only
      split
      · rfl
      · next target _ =>
        cases allowed : isHeaderDenied target with
        | true => rfl
        | false =>
          have different := ne_of_allowed isDenied allowed
          simp only [Bool.false_eq_true, if_false]
          split
          · simp [different]
          · refine (mem_keys_foldl_append (fun _ => target) id).trans ?_
            simp [different]

theorem applyRule_keys (rule : HeaderRule) : denied ∈ keys (applyRule request headers rule) ↔
      denied ∈ keys headers ∧ ¬ Removes rule denied ∨ Adds request rule denied := by
  cases rule with
  | forward name default rename => exact handleForward_keys isDenied name default rename
  | insert name value => simp [applyRule, handleInsert_keys isDenied, Removes, Adds]
  | remove name => simp [applyRule, handleRemove_keys, Adds]
  | renameDuplicate name default rename => simp [applyRule, handleRenameDuplicate_keys isDenied, Removes]

/-- A denied name is sent if a rule adds it, or it was there before, and no later rule takes it out. -/
theorem createSubgraphHeadersWithRules_keys (rules : List HeaderRule) :
    denied ∈ keys (createSubgraphHeadersWithRules request rules headers) ↔ denied ∈ keys headers ∧
    (∀ rule ∈ rules, ¬ Removes rule denied) ∨ ∃ before rule after, rules = before ++ rule :: after ∧
    Adds request rule denied ∧ ∀ later ∈ after, ¬ Removes later denied := by
  induction rules generalizing headers with
  | nil => simp [createSubgraphHeadersWithRules]
  | cons first rest ih =>
    change denied ∈ keys (createSubgraphHeadersWithRules request rest _) ↔ _
    rw [ih, applyRule_keys isDenied]
    constructor
    · rintro (⟨⟨kept, stays⟩ | added, quiet⟩ | ⟨before, rule, after, rfl, added, quiet⟩)
      · exact .inl ⟨kept, forall_mem_cons.mpr ⟨stays, quiet⟩⟩
      · exact .inr ⟨[], first, rest, rfl, added, quiet⟩
      · exact .inr ⟨first :: before, rule, after, rfl, added, quiet⟩
    · rintro (⟨kept, quiet⟩ | ⟨before, rule, after, split, added, quiet⟩)
      · rw [forall_mem_cons] at quiet
        exact .inl ⟨.inl ⟨kept, quiet.1⟩, quiet.2⟩
      · cases before with
        | nil =>
          obtain ⟨rfl, rfl⟩ := List.cons.inj split
          exact .inl ⟨.inr added, quiet⟩
        | cons head before =>
          obtain ⟨rfl, rfl⟩ := List.cons.inj split
          exact .inr ⟨before, rule, after, rfl, added, quiet⟩

end Steps

/-- No denied header is sent exactly when every denied name that a rule adds is taken out by a later rule. -/
theorem noDeniedHeader_iff {μ : Type} [Headers μ] (request : μ) (rules : List HeaderRule)
    (default : μ) (allowed : ∀ name ∈ keys default, isHeaderDenied name = false) :
    (∀ name ∈ keys (createSubgraphHeadersWithRules request rules default), isHeaderDenied name = false) ↔
      ∀ before rule after, rules = before ++ rule :: after → ∀ name, isHeaderDenied name = true →
        Adds request rule name → ∃ later ∈ after, Removes later name := by
  constructor
  · intro clean before rule after split name denied adds
    by_contra quiet
    push Not at quiet
    have sent : name ∈ keys (createSubgraphHeadersWithRules request rules default) :=
      (createSubgraphHeadersWithRules_keys denied rules).mpr (.inr ⟨before, rule, after, split, adds, quiet⟩)
    exact absurd (clean name sent) (by simp [denied])
  · intro removed name sent
    by_contra denied
    rw [Bool.not_eq_false] at denied
    rcases (createSubgraphHeadersWithRules_keys denied rules).mp sent with ⟨kept, _⟩ | found
    · exact absurd (allowed name kept) (by simp [denied])
    · obtain ⟨before, rule, after, split, adds, quiet⟩ := found
      obtain ⟨later, member, removes⟩ := removed before rule after split name denied adds
      exact quiet later member removes

/-- A request with the header `host`. -/
def hostRequest : HeaderMap where
  entries := [(⟨"host", by decide⟩, [⟨asBytes "example"⟩])]
  distinct := by simp
  filled := by simp

/-- The value of `host` is duplicated under another name, and sent under its own as well. -/
theorem deniedHeader_sent_by_renameDuplicate : HeaderMap.empty.keys = [] ∧
      ∃ name ∈ (createSubgraphHeadersWithRules hostRequest [.renameDuplicate "host" none "x-host"] .empty).keys,
        isHeaderDenied name = true := by
  have denied : isHeaderDenied ⟨"host", by decide⟩ = true := isHeaderDenied_iff.mpr (by decide)
  have adds : Adds hostRequest (.renameDuplicate "host" none "x-host") ⟨"host", by decide⟩ := by
    refine ⟨by decide, ⟨⟨"x-host", by decide⟩, by decide, ?_⟩, by decide⟩
    exact Bool.eq_false_iff.mpr (isHeaderDenied_iff.not.mpr (by decide))
  refine ⟨rfl, ⟨"host", by decide⟩, ?_, denied⟩
  exact (createSubgraphHeadersWithRules_keys denied _).mpr (.inr ⟨[], _, [], rfl, adds, by simp⟩)

/-- With a rule that removes `host` afterwards, nothing denied is left. -/
theorem noDeniedHeader_removed_later : HeaderMap.empty.keys = [] ∧ ∀ name ∈ (createSubgraphHeadersWithRules hostRequest
      [.renameDuplicate "host" none "x-host", .remove (.name "host")] .empty).keys, isHeaderDenied name = false := by
  refine ⟨rfl, (noDeniedHeader_iff hostRequest _ .empty (forall_mem_nil _)).mpr ?_⟩
  intro before rule after split name denied adds
  rcases before with _ | ⟨first, _ | ⟨second, before⟩⟩
  · obtain ⟨rfl, rfl⟩ := List.cons.inj split
    exact ⟨_, mem_cons_self, adds.1⟩
  · obtain ⟨_, rfl, _⟩ := split
    exact adds.elim
  · simp at split

end Grafbase.Execution
