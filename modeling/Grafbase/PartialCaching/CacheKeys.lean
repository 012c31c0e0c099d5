import Grafbase.Execution.Headers
import Grafbase.PartialCaching.Planning

/-! The keys under which the partitions of a query are stored.

A key is computed from the text of a partition, from what its cache control
says about access, and from the values of the variables the text declares.
Equal keys therefore mean equal texts, scopes and values. A header or claim
that the request does not have is a missing value in the list of scopes; it
does not keep the partition from getting a key.
-/

set_option autoImplicit false

namespace Grafbase.PartialCaching
open Foundation Execution

structure Operations where
  create : Bool
  get : Bool
  list : Bool
  update : Bool
  delete : Bool
  introspection : Bool

namespace Operations

def all : Operations := ⟨true, true, true, true, true, true⟩

def none : Operations := ⟨false, false, false, false, false, false⟩

def union (first second : Operations) : Operations where
  create := first.create || second.create
  get := first.get || second.get
  list := first.list || second.list
  update := first.update || second.update
  delete := first.delete || second.delete
  introspection := first.introspection || second.introspection

def display (operations : Operations) : String :=
  " | ".intercalate ([(operations.create, "create"), (operations.get, "get"), (operations.list, "list"),
    (operations.update, "update"), (operations.delete, "delete"),
    (operations.introspection, "introspection")].filterMap fun (set, name) => if set then some name else .none)

end Operations

section Keys
variable {Json Variable Key : Type}

structure ExecutionAuthToken (Json : Type) where
  privatePublicAndGroupOps : Operations
  groupsFromToken : List String
  subjectAndOwnerOps : Option (String × Operations)
  tokenClaims : List (String × Json)
  distinct : (tokenClaims.map Prod.fst).Nodup

inductive ExecutionAuth (Json : Type) where
  | apiKey
  | token (token : ExecutionAuthToken Json)
  | publicAccess (globalOps : Operations)

def ExecutionAuthToken.ownerOps (token : ExecutionAuthToken Json) : Operations :=
  (token.subjectAndOwnerOps.map Prod.snd).getD .none

def ExecutionAuth.globalOps : ExecutionAuth Json → Operations
  | apiKey => .all
  | token held => held.privatePublicAndGroupOps.union held.ownerOps
  | publicAccess globalOps => globalOps

def ExecutionAuth.asToken : ExecutionAuth Json → Option (ExecutionAuthToken Json)
  | token held => some held
  | _ => none

structure Request (Json Variable : Type) where
  auth : ExecutionAuth Json
  headers : HeaderMap
  variableValues : List (String × Variable)

inductive CacheAccess (Json : Type) where
  | scoped (values : List (Option String))
  | default (auth : ExecutionAuth Json)

structure CacheKeySerializer (Json Variable : Type) where
  query : List Token
  scopes : CacheAccess Json
  variableValues : List (String × Variable)

def isVisible (byte : UInt8) : Bool := (32 ≤ byte.toNat && byte.toNat < 127) || byte.toNat = 9

def headerText (value : HeaderValue) : Option String :=
  if value.bytes.all isVisible
  then some (String.ofList (value.bytes.map fun byte => Char.ofNat byte.toNat)) else none

variable (claimText : Json → String)

def scopeValue (request : Request Json Variable) : CacheAccessScope → Option String
  | .publicScope => some request.auth.globalOps.display
  | .apiKey => some request.auth.globalOps.display
  | .jwt claim => request.auth.asToken.bind fun token => (token.tokenClaims.lookup claim).map claimText
  | .header header => ((HeaderName.fromStr header).bind request.headers.get).bind headerText

def cacheScopes (control : CacheControl) (request : Request Json Variable) : Option (CacheAccess Json) :=
  match control.accessScopes with
  | none => some (.default request.auth)
  | some scopes =>
    let actualScopes := scopes.map (scopeValue claimText request)
    if actualScopes.isEmpty then none else some (.scoped actualScopes)

def requiredValues (subset : QuerySubset) (request : Request Json Variable) : List (String × Variable) :=
  subset.variableDefinitions.filterMap fun definition =>
    (request.variableValues.lookup definition.name).map (definition.name, ·)

variable (keyOf : CacheKeySerializer Json Variable → Key)

/-- Neither the serialiser nor the hasher fails on these values. -/
def cacheKey (document : ExecutableDocument) (request : Request Json Variable)
    (part : CacheControl × QuerySubset) : Option Key :=
  (cacheScopes claimText part.1 request).map fun scopes =>
    keyOf ⟨part.2.display document, scopes, requiredValues part.2 request⟩

def buildCacheKeys (plan : CachingPlan) (request : Request Json Variable) : List (Option Key) :=
  plan.cachePartitions.map (cacheKey claimText keyOf plan.document request)

section Separates

/-- What a scope says about a request: the permissions of the caller, a claim of its token, or the first value of a
header, as far as the request has it. -/
def Resolves (request : Request Json Variable) (scope : CacheAccessScope) (text : String) : Prop :=
  match scope with
  | .publicScope | .apiKey => text = request.auth.globalOps.display
  | .jwt claim => ∃ token value, request.auth = .token token ∧ (claim, value) ∈ token.tokenClaims ∧
    text = claimText value
  | .header header => ∃ name value others, name.text.toList = header.toList.map Char.toLower ∧
      (name, value :: others) ∈ request.headers.entries ∧ (∀ byte ∈ value.bytes, isVisible byte) ∧
      text.toList.map Char.toNat = value.bytes.map UInt8.toNat

/-- Either the whole authentication counts, or the listed scopes have the same values one after the other. -/
def SameScopes (request : Request Json Variable) (control : CacheControl) (otherRequest : Request Json Variable)
    (otherControl : CacheControl) : Prop :=
  match control.accessScopes, otherControl.accessScopes with
  | none, none => request.auth = otherRequest.auth
  | some scopes, some otherScopes => List.Forall₂ (fun scope otherScope => ∀ text,
      Resolves claimText request scope text ↔ Resolves claimText otherRequest otherScope text) scopes otherScopes
  | _, _ => False

/-- Two partitions of two requests ask for the same data on behalf of the same scopes. -/
structure SameEntry (document : ExecutableDocument) (request : Request Json Variable)
    (part : CacheControl × QuerySubset) (otherDocument : ExecutableDocument)
    (otherRequest : Request Json Variable) (otherPart : CacheControl × QuerySubset) : Prop where
  text : part.2.display document = otherPart.2.display otherDocument
  scopes : SameScopes claimText request part.1 otherRequest otherPart.1
  values : ∀ name ∈ declaredVariables (part.2.display document),
    request.variableValues.lookup name = otherRequest.variableValues.lookup name
  used : ∀ definition ∈ part.2.operation.variableDefinitions,
    definition.name ∈ variablesIn (part.2.bodyTokens document) →
      request.variableValues.lookup definition.name = otherRequest.variableValues.lookup definition.name

/-- The request has every header and claim that a cache control lists. -/
def ScopesDetermined (request : Request Json Variable) (control : CacheControl) : Prop :=
  ∀ scopes, control.accessScopes = some scopes → ∀ scope ∈ scopes, ∃ text, Resolves claimText request scope text

/-- Equal keys mean equal entries, and no partition gets a key without its scopes. -/
structure KeysSeparate (plan : CachingPlan) (request : Request Json Variable) (otherPlan : CachingPlan)
    (otherRequest : Request Json Variable) : Prop where
  entries : ∀ part ∈ plan.cachePartitions, ∀ otherPart ∈ otherPlan.cachePartitions, ∀ key,
    cacheKey claimText keyOf plan.document request part = some key →
    cacheKey claimText keyOf otherPlan.document otherRequest otherPart = some key →
    SameEntry claimText plan.document request part otherPlan.document otherRequest otherPart
  determined : ∀ part ∈ plan.cachePartitions, (cacheKey claimText keyOf plan.document request part).isSome →
    ScopesDetermined claimText request part.1
  otherDetermined : ∀ part ∈ otherPlan.cachePartitions,
    (cacheKey claimText keyOf otherPlan.document otherRequest part).isSome →
    ScopesDetermined claimText otherRequest part.1

end Separates

section Separation
variable {claimText keyOf} {document otherDocument : ExecutableDocument} {request otherRequest : Request Json Variable}
  {part otherPart : CacheControl × QuerySubset}

theorem fromStr_eq_some {header : String} {name : HeaderName} :
    HeaderName.fromStr header = some name ↔ name.text.toList = header.toList.map Char.toLower := by
  have same : name.text = String.ofList (header.toList.map Char.toLower) ↔
      name.text.toList = header.toList.map Char.toLower := by
    rw [← String.toList_inj, String.toList_ofList]
  rw [← same, HeaderName.fromStr]
  split
  · rw [Option.some_inj, HeaderName.ext_iff, eq_comm]
  · next invalid =>
    refine ⟨fun isSome => absurd isSome (Option.some_ne_none name).symm, fun isText => absurd ?_ invalid⟩
    rw [← isText]
    exact name.valid

theorem get_eq_some {headers : HeaderMap} {name : HeaderName} {value : HeaderValue} :
    headers.get name = some value ↔ ∃ others, (name, value :: others) ∈ headers.entries := by
  have found (entry : HeaderName × List HeaderValue) :
      headers.entries.find? (·.1 = name) = some entry ↔ entry ∈ headers.entries ∧ entry.1 = name :=
    find?_eq_some_iff_of_nodup headers.distinct
  rw [HeaderMap.get, HeaderMap.getAll]
  cases isEntry : headers.entries.find? (·.1 = name) with
  | none =>
    simp only [isEntry, reduceCtorEq, false_iff] at found
    simpa using fun others member => found _ ⟨member, rfl⟩
  | some entry =>
    obtain ⟨member, rfl⟩ := (found entry).mp isEntry
    have unique (values : List HeaderValue) : (entry.1, values) ∈ headers.entries ↔ values = entry.2 := by
      constructor
      · exact fun other => congrArg Prod.snd (Option.some.inj (((found _).mpr ⟨other, rfl⟩).symm.trans isEntry))
      · rintro rfl
        exact member
    simp only [unique, Option.map_some, Option.getD_some]
    cases entry.2 <;> simp [eq_comm]

theorem headerText_eq_some {value : HeaderValue} {text : String} : headerText value = some text ↔
    (∀ byte ∈ value.bytes, isVisible byte) ∧ text.toList.map Char.toNat = value.bytes.map UInt8.toNat := by
  have valid (byte : UInt8) : (Char.ofNat byte.toNat).toNat = byte.toNat := by
    have small := byte.toNat_lt
    have isChar : byte.toNat.isValidChar := .inl (by omega)
    rw [Char.ofNat, dif_pos isChar]
    rfl
  have codes (bytes : List UInt8) : text = String.ofList (bytes.map fun byte => Char.ofNat byte.toNat) ↔
      text.toList.map Char.toNat = bytes.map UInt8.toNat := by
    rw [← String.toList_inj, String.toList_ofList,
      ← (List.map_injective_iff.mpr fun _ _ => Char.toNat_inj.mp).eq_iff, List.map_map]
    simp only [Function.comp_def, valid]
  rw [headerText, ← List.all_eq_true]
  split
  · next visible => simp [visible, ← codes, eq_comm]
  · next hidden => simp [hidden]

theorem resolves_iff {scope : CacheAccessScope} {text : String} :
    Resolves claimText request scope text ↔ scopeValue claimText request scope = some text := by
  cases scope with
  | publicScope | apiKey => simp [Resolves, scopeValue, eq_comm]
  | jwt claim =>
    simp only [Resolves, scopeValue, Option.bind_eq_some_iff, Option.map_eq_some_iff]
    constructor
    · rintro ⟨token, value, isToken, member, rfl⟩
      exact ⟨token, by rw [isToken]; rfl, value, lookup_eq_some_of_mem token.distinct member, rfl⟩
    · rintro ⟨token, isToken, value, found, rfl⟩
      refine ⟨token, value, ?_, mem_of_lookup_eq_some found, rfl⟩
      cases auth : request.auth with
      | token held =>
        rw [auth] at isToken
        exact congrArg _ (Option.some.inj isToken)
      | apiKey | publicAccess => rw [auth] at isToken; cases isToken
  | header header =>
    simp only [Resolves, scopeValue, Option.bind_eq_some_iff, fromStr_eq_some, get_eq_some, headerText_eq_some]
    constructor
    · rintro ⟨name, value, others, named, member, visible, codes⟩
      exact ⟨value, ⟨name, named, others, member⟩, visible, codes⟩
    · rintro ⟨value, ⟨name, named, others, member⟩, visible, codes⟩
      exact ⟨name, value, others, named, member, visible, codes⟩

theorem cacheScopes_eq_some {control : CacheControl} {access : CacheAccess Json}
    (resolved : cacheScopes claimText control request = some access) :
    (control.accessScopes = none ∧ access = .default request.auth) ∨
      ∃ scopes, control.accessScopes = some scopes ∧ access = .scoped (scopes.map (scopeValue claimText request)) := by
  unfold cacheScopes at resolved
  split at resolved
  · next unlisted => exact .inl ⟨unlisted, (Option.some.inj resolved).symm⟩
  · next scopes listed =>
    dsimp only at resolved
    split at resolved
    · cases resolved
    · exact .inr ⟨scopes, listed, (Option.some.inj resolved).symm⟩

theorem sameScopes_of_eq {access : CacheAccess Json} {control otherControl : CacheControl}
    (resolved : cacheScopes claimText control request = some access)
    (otherResolved : cacheScopes claimText otherControl otherRequest = some access) :
    SameScopes claimText request control otherRequest otherControl := by
  rw [SameScopes]
  rcases cacheScopes_eq_some resolved with ⟨listed, rfl⟩ | ⟨scopes, listed, rfl⟩
  · rcases cacheScopes_eq_some otherResolved with ⟨otherListed, same⟩ | ⟨_, _, same⟩
    · rw [listed, otherListed]
      exact CacheAccess.default.inj same
    · cases same
  · rcases cacheScopes_eq_some otherResolved with ⟨_, same⟩ | ⟨otherScopes, otherListed, same⟩
    · cases same
    · rw [listed, otherListed]
      simp only [resolves_iff]
      have values := List.forall₂_eq_eq_eq ▸ CacheAccess.scoped.inj same
      exact (List.forall₂_map_right_iff.mp (List.forall₂_map_left_iff.mp values)).imp
        fun scope other equal text => by rw [equal]

theorem mem_requiredValues {subset : QuerySubset} {name : String} {value : Variable} :
    (name, value) ∈ requiredValues subset request ↔ name ∈ subset.variableDefinitions.map VariableDefinition.name ∧
        request.variableValues.lookup name = some value := by
  constructor
  · intro member
    obtain ⟨definition, listed, found⟩ := List.mem_filterMap.mp member
    obtain ⟨stored, known, same⟩ := Option.map_eq_some_iff.mp found
    cases same
    exact ⟨List.mem_map_of_mem listed, known⟩
  · rintro ⟨listed, known⟩
    obtain ⟨definition, inSubset, rfl⟩ := List.mem_map.mp listed
    exact List.mem_filterMap.mpr ⟨definition, inSubset, by rw [known, Option.map_some]⟩

/-- A subset stores every variable that its text uses and its operation defines. -/
theorem mem_variableDefinitions {operation : OperationDefinition} {partition : Partition}
    (inDocument : operation ∈ document.operations) {definition : VariableDefinition}
    (defined : definition ∈ operation.variableDefinitions)
    (used : definition.name ∈ variablesIn ((querySubset document operation partition).bodyTokens document)) :
    definition.name ∈ (querySubset document operation partition).variableDefinitions.map VariableDefinition.name := by
  have found : (operation.variableDefinitions.findIdx? (·.name = definition.name)).isSome := by
    simpa using ⟨definition, defined, rfl⟩
  obtain ⟨index, isIndex⟩ := Option.isSome_iff_exists.mp found
  obtain ⟨bound, sameName, _⟩ := List.findIdx?_eq_some_iff_getElem.mp isIndex
  refine List.mem_map.mpr ⟨operation.variableDefinitions[index], List.mem_filterMap.mpr ⟨index, ?_, ?_⟩, ?_⟩
  · exact mem_variablesRequired inDocument used isIndex
  · exact List.getElem?_eq_getElem bound
  · simpa using sameName

theorem sameEntry_of_key_eq (injective : Function.Injective keyOf) {operation : OperationDefinition}
    {partition : Partition} (inDocument : operation ∈ document.operations)
    (isSubset : part.2 = querySubset document operation partition) {key : Key}
    (found : cacheKey claimText keyOf document request part = some key)
    (again : cacheKey claimText keyOf otherDocument otherRequest otherPart = some key) :
    SameEntry claimText document request part otherDocument otherRequest otherPart := by
  obtain ⟨scopes, resolved, hashed⟩ := Option.map_eq_some_iff.mp found
  obtain ⟨otherScopes, otherResolved, otherHashed⟩ := Option.map_eq_some_iff.mp again
  obtain ⟨text, rfl, values⟩ := CacheKeySerializer.mk.inj (injective (hashed.trans otherHashed.symm))
  have declaredValues (name : String) (declared : name ∈ declaredVariables (part.2.display document)) :
      request.variableValues.lookup name = otherRequest.variableValues.lookup name := by
    -- Both texts declare the name, so its value is in both lists as soon as one request has it.
    have declaredToo : name ∈ declaredVariables (otherPart.2.display otherDocument) := text ▸ declared
    rw [declaredVariables_display] at declared declaredToo
    refine Option.ext fun value => ?_
    calc request.variableValues.lookup name = some value
        ↔ (name, value) ∈ requiredValues part.2 request := by simp [mem_requiredValues, declared]
      _ ↔ (name, value) ∈ requiredValues otherPart.2 otherRequest := by rw [values]
      _ ↔ otherRequest.variableValues.lookup name = some value := by simp [mem_requiredValues, declaredToo]
  refine ⟨text, sameScopes_of_eq resolved otherResolved, declaredValues, fun definition defined used => ?_⟩
  refine declaredValues _ ?_
  rw [declaredVariables_display, isSubset]
  rw [isSubset] at defined used
  exact mem_variableDefinitions inDocument defined used

theorem cacheKey_isSome_of_scopes {scopes : List CacheAccessScope} (listed : part.1.accessScopes = some scopes)
    (filled : scopes ≠ []) : (cacheKey claimText keyOf document request part).isSome := by
  simp [cacheKey, cacheScopes, listed, filled]

theorem scopesDetermined_of_keyed
    (keyed : (cacheKey claimText keyOf document request part).isSome → ScopesDetermined claimText request part.1) :
    ScopesDetermined claimText request part.1 := by
  intro scopes listed scope member
  exact keyed (cacheKey_isSome_of_scopes listed (List.ne_nil_of_mem member)) scopes listed scope member

end Separation

/-- Keys separate two requests exactly when every scope that a partition lists
can be determined for its request. -/
theorem keysSeparate_iff (injective : Function.Injective keyOf) {registry : PartialCacheRegistry}
    {document : ExecutableDocument} {operationName : Option String} {plan : CachingPlan}
    (planned : buildPlan registry document operationName = some (.ok (some plan))) (otherPlan : CachingPlan)
    (request otherRequest : Request Json Variable) :
    KeysSeparate claimText keyOf plan request otherPlan otherRequest ↔
      (∀ part ∈ plan.cachePartitions, ScopesDetermined claimText request part.1) ∧
      ∀ part ∈ otherPlan.cachePartitions, ScopesDetermined claimText otherRequest part.1 := by
  obtain ⟨rfl, operation, inDocument, subsets⟩ := buildPlan_parts planned
  constructor
  · intro separate
    exact ⟨fun part member => scopesDetermined_of_keyed (separate.determined part member),
      fun part member => scopesDetermined_of_keyed (separate.otherDetermined part member)⟩
  · rintro ⟨determined, otherDetermined⟩
    refine ⟨fun part member otherPart _ key found again => ?_, fun part member _ => determined part member,
      fun part member _ => otherDetermined part member⟩
    obtain ⟨partition, isSubset⟩ := subsets part member
    exact sameEntry_of_key_eq injective inDocument isSubset found again

end Keys

/-- A query for the orders of a tenant that is named by a header, each with its comments. -/
def tenantOrders : OperationDefinition where
  operationType := .query
  name := none
  variableDefinitions := [⟨"first", .named "Int", none, []⟩, ⟨"last", .named "Int", none, []⟩]
  directives := []
  selectionSet := .field 0 none "orders" [⟨"first", .leaf (.variable "first")⟩] [] (.field 1 none "id" [] [] .nil .nil)
    (.field 2 none "news" [⟨"last", .leaf (.variable "last")⟩] [] .nil .nil)

def tenantDocument : ExecutableDocument := ⟨[tenantOrders], [], by decide⟩

def tenantControl : CacheControl where
  isPublic := false
  maxAge := 60
  staleWhileRevalidate := 0
  invalidationPolicy := none
  accessScopes := some [.header "X-Tenant"]

def tenantRegistry : PartialCacheRegistry where
  types := [.object "Query" [⟨"news", 1, none⟩, ⟨"orders", 1, some tenantControl⟩] none,
    .object "Order" [⟨"id", 2, none⟩] none,
    .other "ID"]
  queryType := .object "Query" [⟨"news", 1, none⟩, ⟨"orders", 1, some tenantControl⟩] none
  rooted := by simp

theorem buildPlan_tenant : ∃ plan subset, buildPlan tenantRegistry tenantDocument none = some (.ok (some plan)) ∧
    plan.cachePartitions = [(tenantControl, subset)] := by
  have controls : ((buildPlan tenantRegistry tenantDocument none).bind Except.toOption).join.map
      (·.cachePartitions.map Prod.fst) = some [tenantControl] := by decide +kernel
  obtain ⟨plan, isPlan, isControl⟩ := Option.map_eq_some_iff.mp controls
  obtain ⟨result, built, isOk⟩ := Option.bind_eq_some_iff.mp (Option.join_eq_some_iff.mp isPlan)
  cases result with
  | error error => cases isOk
  | ok result =>
    cases isOk
    obtain ⟨⟨_, subset⟩, isSingle, rfl⟩ := List.map_eq_singleton_iff.mp isControl
    exact ⟨plan, subset, built, isSingle⟩

def tenantRequest (tenant : String) : Request Nat Nat where
  auth := .apiKey
  headers := HeaderMap.empty.append ⟨"x-tenant", by decide⟩ ⟨asBytes tenant⟩
  variableValues := [("first", 10)]

theorem keysSeparate_tenantRequest : ∃ plan, buildPlan tenantRegistry tenantDocument none = some (.ok (some plan)) ∧
    Function.Injective (id : CacheKeySerializer Nat Nat → CacheKeySerializer Nat Nat) ∧
    KeysSeparate toString id plan (tenantRequest "north") plan (tenantRequest "south") := by
  obtain ⟨plan, subset, planned, isSingle⟩ := buildPlan_tenant
  have determined (tenant : String) (text : scopeValue toString (tenantRequest tenant)
    (.header "X-Tenant") = some tenant) :
      ∀ part ∈ plan.cachePartitions, ScopesDetermined toString (tenantRequest tenant) part.1 := by
    intro part member scopes listed scope inScopes
    obtain rfl : part = (tenantControl, subset) := by simpa [isSingle] using member
    obtain rfl : scopes = [.header "X-Tenant"] := by simpa [tenantControl] using listed.symm
    obtain rfl : scope = .header "X-Tenant" := by simpa using inScopes
    exact ⟨tenant, resolves_iff.mpr text⟩
  exact ⟨plan, planned, Function.injective_id, (keysSeparate_iff toString id Function.injective_id planned _ _ _).mpr
    ⟨determined "north" (by decide), determined "south" (by decide)⟩⟩

def requestOf (auth : ExecutionAuth Nat) : Request Nat Nat := ⟨auth, .empty, [("first", 10)]⟩

/-- Two requests of different callers, neither with the header, share an entry. -/
theorem buildCacheKeys_shared_without_header :
    ¬ ScopesDetermined toString (requestOf .apiKey) tenantControl ∧
    ¬ ScopesDetermined toString (requestOf (.publicAccess .none)) tenantControl ∧
    ∃ plan key, buildPlan tenantRegistry tenantDocument none = some (.ok (some plan)) ∧
      buildCacheKeys toString id plan (requestOf .apiKey) = [some key] ∧
      buildCacheKeys toString id plan (requestOf (.publicAccess .none)) = [some key] := by
  have missing (auth : ExecutionAuth Nat) : scopeValue toString (requestOf auth) (.header "X-Tenant") = none := by
    cases found : HeaderName.fromStr "X-Tenant" with
    | none => simp [scopeValue, found]
    | some name => simp [scopeValue, found, show (requestOf auth).headers.get name = none from rfl]
  have undetermined (auth : ExecutionAuth Nat) : ¬ ScopesDetermined toString (requestOf auth) tenantControl := by
    intro determined
    obtain ⟨text, resolved⟩ := determined [.header "X-Tenant"] rfl (.header "X-Tenant") (by simp)
    cases (missing auth).symm.trans (resolves_iff.mp resolved)
  obtain ⟨plan, subset, planned, isSingle⟩ := buildPlan_tenant
  have keys (auth : ExecutionAuth Nat) : buildCacheKeys toString id plan (requestOf auth) =
      [some ⟨subset.display plan.document, .scoped [none], requiredValues subset (requestOf auth)⟩] := by
    simp [buildCacheKeys, cacheKey, cacheScopes, isSingle, tenantControl, missing]
  exact ⟨undetermined _, undetermined _, plan, _, planned, keys _, keys _⟩

end Grafbase.PartialCaching
