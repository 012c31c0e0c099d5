import Grafbase.Sources.EntityCache

/-! How long subgraph responses are cached.

The lifetime is what is left of the freshness the subgraph announces, or the
default of the subgraph. Root fields store the body of the response, entities
are stored one by one.
-/

set_option autoImplicit false

namespace Grafbase.Sources
open Foundation Execution

structure Duration where
  nanos : Nat
  deriving DecidableEq

namespace Duration

def fromSecs (secs : Nat) : Duration := ⟨secs * 10 ^ 9⟩

/-- The operator `-`, which aborts rather than going below zero. -/
def sub (first second : Duration) : Checked Duration :=
  if second.nanos ≤ first.nanos then .ok ⟨first.nanos - second.nanos⟩
  else .error (.expect "overflow when subtracting durations")

theorem sub_fromSecs (first second : Nat) : (fromSecs first).sub (fromSecs second) =
    if second ≤ first then .ok (fromSecs (first - second))
    else .error (.expect "overflow when subtracting durations") := by
  by_cases atMost : second ≤ first
  · have nanos : second * 10 ^ 9 ≤ first * 10 ^ 9 := Nat.mul_le_mul_right _ atMost
    simp only [sub, fromSecs, nanos, atMost, if_true, Nat.sub_mul]
  · have nanos : ¬ second * 10 ^ 9 ≤ first * 10 ^ 9 := by omega
    simp only [sub, fromSecs, nanos, atMost, if_false]

end Duration

inductive GraphqlResponseStatus where
  | success
  | fieldError (count : Nat) (dataIsNull : Bool)
  | requestError (count : Nat)
  | refusedRequest

def GraphqlResponseStatus.isSuccess : GraphqlResponseStatus → Bool
  | .success => true
  | _ => false

structure CacheControl where
  isPrivate : Bool
  noStore : Bool
  maxAge : Option Nat

/-- The headers that `typed_get` finds and decodes, with their seconds. -/
structure ResponseHeaders where
  cacheControl : Option CacheControl
  age : Option Nat

section Ttl
variable (status : GraphqlResponseStatus) (headers : ResponseHeaders) (subgraphDefaultTtl : Option Duration)

def calculateCacheTtl : Checked (Option Duration) :=
  match subgraphDefaultTtl with
  -- Entity caching is disabled for the subgraph.
  | none => .ok none
  | some subgraphDefaultTtl =>
    if !status.isSuccess then .ok none
    else match headers.cacheControl with
      | none => .ok (some subgraphDefaultTtl)
      | some cacheControl =>
        if cacheControl.isPrivate || cacheControl.noStore then .ok none
        else match cacheControl.maxAge with
          | none => .ok (some subgraphDefaultTtl)
          | some maxAge => some <$> (Duration.fromSecs maxAge).sub (.fromSecs (headers.age.getD 0))

structure CachePut where
  key : String
  data : Bytes
  ttl : Duration

/-- What the ingestion of root fields stores: the body, under the key of the request if it has one. -/
def rootFieldPuts (cacheKey : Option String) (body : Bytes) : Checked (List CachePut) :=
  match cacheKey with
  | none => .ok []
  | some key => do
      let cacheTtl ← calculateCacheTtl status headers subgraphDefaultTtl
      .ok (cacheTtl.toList.map fun ttl => ⟨key, body, ttl⟩)

/-- What the ingestion of entities stores. `entities` are those of the body, if it can be read again. -/
def entityPuts (cacheEntries : Option (List CacheEntry)) (entities : Option (List Bytes)) :
    Checked (List CachePut) := do
  let cacheTtl ← calculateCacheTtl status headers subgraphDefaultTtl
  match cacheTtl, cacheEntries, entities with
  | some ttl, some cacheEntries, some entities =>
    .ok (((cacheUpdates cacheEntries entities).getD []).map fun update => ⟨update.1, update.2, ttl⟩)
  | _, _, _ => .ok []

/-- The response is not to be stored at all. -/
def Uncacheable : Prop :=
  subgraphDefaultTtl = none ∨ status.isSuccess = false ∨
    ∃ cacheControl ∈ headers.cacheControl, cacheControl.isPrivate = true ∨ cacheControl.noStore = true

/-- The response may be stored, and the lifetime ends with its freshness or is the default when none is announced. -/
def Allowed (ttl : Duration) : Prop :=
  ¬ Uncacheable status headers subgraphDefaultTtl ∧
    match headers.cacheControl.bind CacheControl.maxAge with
    | some maxAge => ttl.nanos ≤ (Duration.fromSecs (maxAge - headers.age.getD 0)).nanos
    | none => subgraphDefaultTtl = some ttl

/-- A lifetime is calculated within the limits of the response, and whatever is stored keeps to them. -/
structure RespectsCacheControl : Prop where
  returns : ∃ cacheTtl, calculateCacheTtl status headers subgraphDefaultTtl = .ok cacheTtl ∧
    (∀ ttl ∈ cacheTtl, Allowed status headers subgraphDefaultTtl ttl) ∧
    (¬ Uncacheable status headers subgraphDefaultTtl → headers.cacheControl.bind CacheControl.maxAge = none →
      cacheTtl = subgraphDefaultTtl)
  rootFields : ∀ cacheKey body, ∃ puts, rootFieldPuts status headers subgraphDefaultTtl cacheKey body = .ok puts ∧
    ∀ put ∈ puts, Allowed status headers subgraphDefaultTtl put.ttl
  entities : ∀ cacheEntries entities, ∃ puts,
    entityPuts status headers subgraphDefaultTtl cacheEntries entities = .ok puts ∧
      ∀ put ∈ puts, Allowed status headers subgraphDefaultTtl put.ttl

end Ttl

section Freshness
variable {status : GraphqlResponseStatus} {headers : ResponseHeaders} {subgraphDefaultTtl : Option Duration}

theorem calculateCacheTtl_of_uncacheable (uncacheable : Uncacheable status headers subgraphDefaultTtl) :
    calculateCacheTtl status headers subgraphDefaultTtl = .ok none := by
  rcases uncacheable with rfl | failed | ⟨cacheControl, found, forbidden⟩
  · rfl
  · cases subgraphDefaultTtl <;> simp [calculateCacheTtl, failed]
  · have found : headers.cacheControl = some cacheControl := found
    cases subgraphDefaultTtl <;> simp [calculateCacheTtl, found, forbidden]

theorem calculateCacheTtl_of_cacheable (cacheable : ¬ Uncacheable status headers subgraphDefaultTtl) :
    calculateCacheTtl status headers subgraphDefaultTtl =
      match headers.cacheControl.bind CacheControl.maxAge with
      | none => .ok subgraphDefaultTtl
      | some maxAge => some <$> (Duration.fromSecs maxAge).sub (.fromSecs (headers.age.getD 0)) := by
  rw [Uncacheable, not_or, not_or] at cacheable
  obtain ⟨enabled, success, allowed⟩ := cacheable
  obtain ⟨defaultTtl, rfl⟩ := Option.ne_none_iff_exists'.mp enabled
  cases found : headers.cacheControl with
  | none => simp [calculateCacheTtl, found, success]
  | some cacheControl =>
    have allowed : (cacheControl.isPrivate || cacheControl.noStore) = false := by
      simpa [found] using allowed
    cases announced : cacheControl.maxAge with
    | none | some maxAge => simp [calculateCacheTtl, found, success, allowed, announced]

/-- Both ways of storing a response inherit what is known about its lifetime. -/
theorem respectsCacheControl_of_returns {cacheTtl : Option Duration}
    (returns : calculateCacheTtl status headers subgraphDefaultTtl = .ok cacheTtl)
    (allowed : ∀ ttl ∈ cacheTtl, Allowed status headers subgraphDefaultTtl ttl)
    (default : ¬ Uncacheable status headers subgraphDefaultTtl →
      headers.cacheControl.bind CacheControl.maxAge = none → cacheTtl = subgraphDefaultTtl) :
    RespectsCacheControl status headers subgraphDefaultTtl := by
  refine ⟨⟨cacheTtl, returns, allowed, default⟩, fun cacheKey body => ?_, fun cacheEntries entities => ?_⟩
  · cases cacheKey with
    | none => exact ⟨[], rfl, by simp⟩
    | some key =>
      refine ⟨_, by rw [rootFieldPuts, returns]; rfl, fun put member => ?_⟩
      obtain ⟨ttl, isTtl, rfl⟩ := List.mem_map.mp member
      exact allowed ttl (Option.mem_toList.mp isTtl)
  · simp only [entityPuts, returns, bind, Except.bind]
    split
    · refine ⟨_, rfl, fun put member => ?_⟩
      obtain ⟨update, _, rfl⟩ := List.mem_map.mp member
      exact allowed _ rfl
    · exact ⟨[], rfl, by simp⟩

/-- Lifetimes are respected exactly when a response that may be stored is not older than its freshness: the
subtraction of its age aborts otherwise. -/
theorem respectsCacheControl_iff (status : GraphqlResponseStatus) (headers : ResponseHeaders)
    (subgraphDefaultTtl : Option Duration) : RespectsCacheControl status headers subgraphDefaultTtl ↔
      (¬ Uncacheable status headers subgraphDefaultTtl →
        ∀ maxAge ∈ headers.cacheControl.bind CacheControl.maxAge, headers.age.getD 0 ≤ maxAge) := by
  by_cases uncacheable : Uncacheable status headers subgraphDefaultTtl
  · refine iff_of_true ?_ (absurd uncacheable)
    exact respectsCacheControl_of_returns (calculateCacheTtl_of_uncacheable uncacheable) (by simp) (absurd uncacheable)
  have computed := calculateCacheTtl_of_cacheable uncacheable
  cases announced : headers.cacheControl.bind CacheControl.maxAge with
  | none =>
    rw [announced] at computed
    refine iff_of_true (respectsCacheControl_of_returns computed (fun ttl isTtl => ?_) fun _ _ => rfl) (by simp)
    rw [Allowed, announced]
    exact ⟨uncacheable, isTtl⟩
  | some maxAge =>
    rw [announced] at computed
    dsimp only at computed
    rw [Duration.sub_fromSecs] at computed
    by_cases young : headers.age.getD 0 ≤ maxAge
    · rw [if_pos young] at computed
      refine iff_of_true (respectsCacheControl_of_returns computed ?_ (by simp [announced])) ?_
      · rintro ttl ⟨⟩
        rw [Allowed, announced]
        exact ⟨uncacheable, le_refl _⟩
      · rintro _ _ ⟨⟩
        exact young
    · -- The age exceeds what is announced, so there is no lifetime at all.
      rw [if_neg young] at computed
      refine iff_of_false (fun respects => ?_) (fun within => young (within uncacheable maxAge rfl))
      obtain ⟨cacheTtl, returns, _⟩ := respects.returns
      cases computed.symm.trans returns

/-- A response that spent ten seconds in another cache and is fresh for five. -/
theorem not_respectsCacheControl_of_stale :
    let headers : ResponseHeaders := ⟨some ⟨false, false, some 5⟩, some 10⟩
    calculateCacheTtl .success headers (some (.fromSecs 60)) =
        .error (.expect "overflow when subtracting durations") ∧
      ¬ RespectsCacheControl .success headers (some (.fromSecs 60)) := by
  refine ⟨by decide, fun respects => ?_⟩
  obtain ⟨cacheTtl, returns, _⟩ := respects.returns
  cases returns

end Freshness
end Grafbase.Sources
