import Grafbase.Execution.Headers
import Grafbase.Foundation.Encoding

/-! The cache of federation entities.

Entities are fetched by their representations. With caching, the data of each
representation is kept under a key, the hash of what the request is made of,
and only the representations without data are sent to the subgraph.
-/

set_option autoImplicit false

namespace Grafbase.Sources
open Foundation Execution List

/-- A request for entities; what is in memory has less than `2 ^ 56` bytes. -/
structure FederationEntityRequest where
  subgraphName : String
  headers : HeaderMap
  additionalScopes : List String
  query : String
  /-- The variables of the query apart from the representations. -/
  subgraphVariables : List (String × String)
  headersFit : headers.iter.length < 2 ^ 56
  valuesFit : ∀ header ∈ headers.iter, header.2.bytes.length < 2 ^ 56
  scopesFit : additionalScopes.length < 2 ^ 56
  scopeFits : ∀ scope ∈ additionalScopes, (asBytes scope).length < 2 ^ 56

section Key

def headerBytes (header : HeaderName × HeaderValue) : Bytes := block (asBytes header.1.text) ++ block header.2.bytes

def headersBytes (headers : HeaderMap) : Bytes := leBytes 8 headers.iter.length ++ headers.iter.flatMap headerBytes

def scopesBytes (scopes : List String) : Bytes :=
  leBytes 8 scopes.length ++ scopes.flatMap fun scope => block (asBytes scope)

variable (hash : Bytes → String)

def cacheKeyBytes (subgraphName : String) (headers : HeaderMap) (repr : String) (additionalScopes : List String) :
    Bytes :=
  asBytes "v1" ++ (asBytes subgraphName ++ (headersBytes headers ++ (scopesBytes additionalScopes ++ asBytes repr)))

def buildCacheKey (subgraphName : String) (headers : HeaderMap) (repr : String) (additionalScopes : List String) :
    String :=
  hash (cacheKeyBytes subgraphName headers repr additionalScopes)

def FederationEntityRequest.key (request : FederationEntityRequest) (repr : String) : String :=
  buildCacheKey hash request.subgraphName request.headers repr request.additionalScopes

end Key

section Boundary

/-- Bytes that go on with a number: of headers, or of scopes when there is no header. -/
structure Framed (stream : Bytes) (count : Nat) : Prop where
  fits : count < 2 ^ 56
  counted : ∀ index < 8, stream[index]? = some (UInt8.ofNat (count / 256 ^ index))
  /-- The number that comes next, of scopes or of the bytes of the first header name. -/
  next : ∃ number < 2 ^ 56, (∀ index < 8, stream[8 + index]? = some (UInt8.ofNat (number / 256 ^ index))) ∧
    (count ≠ 0 → 0 < number ∧ number < 2 ^ 16 ∧
      (∀ index < number, ∃ byte, stream[16 + index]? = some byte ∧ byte ≠ 0) ∧
      ∃ size < 2 ^ 56, ∀ index < 8, stream[16 + number + index]? = some (UInt8.ofNat (size / 256 ^ index)))

variable {value : Nat} {rest : Bytes}

theorem le_of_nonzero {found : Option UInt8} {byte : UInt8} {bound : Nat} (isByte : found = some byte)
    (nonzero : byte ≠ 0) (isDigit : found = some (UInt8.ofNat (value / bound))) : bound ≤ value := by
  by_contra small
  have zero : UInt8.ofNat (value / bound) = 0 := by
    rw [Nat.div_eq_of_lt (not_le.mp small)]
    rfl
  rw [isByte, Option.some.injEq] at isDigit
  exact nonzero (isDigit.trans zero)

/-- A framed stream is not a framed stream after further bytes that are not zero. -/
theorem Framed.eq_nil_of_append {stream extra : Bytes} {count restCount : Nat} (framed : Framed stream count)
    (restFramed : Framed rest restCount) (nonzero : ∀ byte ∈ extra, byte ≠ 0) (same : stream = extra ++ rest) :
    extra = [] := by
  by_contra filled
  have positive : 0 < extra.length := length_pos_iff.mpr filled
  have early (index : Nat) (bound : index < extra.length) : ∃ byte, stream[index]? = some byte ∧ byte ≠ 0 := by
    refine ⟨extra[index], ?_, nonzero _ (getElem_mem bound)⟩
    rw [same, getElem?_append_left bound, getElem?_eq_getElem bound]
  have shifted (index position : Nat) (isShifted : position = extra.length + index) :
      rest[index]? = stream[position]? := by
    rw [same, isShifted, getElem?_append_right (Nat.le_add_right _ _), Nat.add_sub_cancel_left]
  have short : extra.length ≤ 7 := by
    by_contra long
    obtain ⟨byte, found, isNonzero⟩ := early 7 (by omega)
    exact absurd framed.fits (not_lt.mpr (le_of_nonzero found isNonzero (framed.counted 7 (by omega))))
  have some : count ≠ 0 := by
    obtain ⟨byte, found, isNonzero⟩ := early 0 positive
    have := le_of_nonzero found isNonzero (framed.counted 0 (by omega))
    omega
  obtain ⟨number, _, digits, named⟩ := framed.next
  obtain ⟨numberPositive, numberSmall, name, size, sizeFits, sized⟩ := named some
  obtain ⟨first, firstFound, firstNonzero⟩ := name 0 numberPositive
  obtain ⟨restNumber, restFits, restDigits, restNamed⟩ := restFramed.next
  -- Shifted by one, the first byte of the name is the highest one of a number.
  by_cases one : extra.length = 1
  · have top := le_of_nonzero ((shifted 15 16 (by omega)).trans firstFound) firstNonzero (restDigits 7 (by omega))
    exact absurd restFits (not_lt.mpr top)
  have low (index : Nat) (bound : index < 2) :
      UInt8.ofNat (restCount / 256 ^ (8 + index - extra.length)) = UInt8.ofNat (number / 256 ^ index) := by
    have found := (shifted (8 + index - extra.length) (8 + index) (by omega)).trans (digits index (by omega))
    rw [restFramed.counted _ (by omega)] at found
    exact Option.some.inj found
  have restSome : restCount ≠ 0 := by
    rintro rfl
    have lowZero : 0 = number % 256 := by simpa using congrArg UInt8.toNat (low 0 (by omega))
    have highZero : 0 = number / 256 % 256 := by simpa using congrArg UInt8.toNat (low 1 (by omega))
    omega
  obtain ⟨_, restSmall, restName, _⟩ := restNamed restSome
  -- Shifted by less than seven, it is one of the higher bytes of the length of a name.
  by_cases seven : extra.length = 7
  · by_cases single : number = 1
    · subst single
      have long := le_of_nonzero ((shifted 9 16 (by omega)).trans firstFound) firstNonzero (restDigits 1 (by omega))
      obtain ⟨second, secondFound, secondNonzero⟩ := restName 1 (by omega)
      have top := le_of_nonzero ((shifted 17 24 (by omega)).symm.trans secondFound) secondNonzero (sized 7 (by omega))
      exact absurd sizeFits (not_lt.mpr top)
    · obtain ⟨second, secondFound, secondNonzero⟩ := name 1 (by omega)
      have third := le_of_nonzero ((shifted 10 17 (by omega)).trans secondFound) secondNonzero
        (restDigits 2 (by omega))
      exact absurd restSmall (not_lt.mpr third)
  · have upper := le_of_nonzero ((shifted (8 + (8 - extra.length)) 16 (by omega)).trans firstFound) firstNonzero
      (restDigits (8 - extra.length) (by omega))
    have power : 256 ^ 2 ≤ 256 ^ (8 - extra.length) := Nat.pow_le_pow_right (by omega) (by omega)
    exact absurd restSmall (not_lt.mpr (power.trans upper))

theorem leBytes_append_left {index : Nat} (bound : index < 8) :
    (leBytes 8 value ++ rest)[index]? = some (UInt8.ofNat (value / 256 ^ index)) := by
  rw [getElem?_append_left (by simpa using bound), leBytes_getElem? _ bound]

theorem leBytes_append_right {index : Nat} : (leBytes 8 value ++ rest)[8 + index]? = rest[index]? := by
  rw [getElem?_append_right (by simp), leBytes_length, Nat.add_sub_cancel_left]

theorem framed_headersBytes (request : FederationEntityRequest) (rest : Bytes) :
    Framed (headersBytes request.headers ++ (scopesBytes request.additionalScopes ++ rest))
      request.headers.iter.length := by
  rw [headersBytes, append_assoc]
  refine ⟨request.headersFit, fun index bound => leBytes_append_left bound, ?_⟩
  cases headers : request.headers.iter with
  | nil =>
    refine ⟨request.additionalScopes.length, request.scopesFit, fun index bound => ?_, fun some => absurd rfl some⟩
    rw [leBytes_append_right, flatMap_nil, nil_append, scopesBytes, append_assoc, leBytes_append_left bound]
  | cons header others =>
    obtain ⟨name, value⟩ := header
    have valueFits := request.valuesFit (name, value) (by simp [headers])
    simp only [flatMap_cons, headerBytes, block, append_assoc]
    refine ⟨(asBytes name.text).length, name.length_lt.trans (by decide), fun index bound => ?_, fun _ =>
      ⟨name.length_pos, name.length_lt, fun index bound => ?_, value.bytes.length, valueFits, fun index bound => ?_⟩⟩
    · rw [leBytes_append_right, leBytes_append_left bound]
    · refine ⟨(asBytes name.text)[index], ?_, name.nonzero _ (getElem_mem bound)⟩
      rw [show 16 + index = 8 + (8 + index) by omega, leBytes_append_right, leBytes_append_right,
        getElem?_append_left bound, getElem?_eq_getElem bound]
    · rw [show 16 + (asBytes name.text).length + index = 8 + (8 + ((asBytes name.text).length + index)) by omega,
        leBytes_append_right, leBytes_append_right, getElem?_append_right (Nat.le_add_right _ _),
        Nat.add_sub_cancel_left, leBytes_append_left bound]

end Boundary

section Equivalence
variable {first second : FederationEntityRequest} {firstRepr secondRepr : String}

theorem headerBytes_append_inj (first second : HeaderName × HeaderValue) (rest other : Bytes)
    (firstFits : first.2.bytes.length < 2 ^ 56) (secondFits : second.2.bytes.length < 2 ^ 56)
    (same : headerBytes first ++ rest = headerBytes second ++ other) : first = second ∧ rest = other := by
  rw [headerBytes, headerBytes, append_assoc, append_assoc] at same
  obtain ⟨names, tail⟩ := block_append_inj (first.1.length_lt.trans (by decide))
    (second.1.length_lt.trans (by decide)) same
  obtain ⟨values, rest⟩ := block_append_inj (firstFits.trans (by decide)) (secondFits.trans (by decide)) tail
  refine ⟨Prod.ext ?_ ?_, rest⟩
  · exact HeaderName.ext (asBytes_inj names)
  · exact HeaderValue.ext values

/-- The bytes that are hashed determine the subgraph, the headers, the scopes and the representation. -/
theorem cacheKeyBytes_inj (firstNulFree : ∀ c ∈ first.subgraphName.toList, c.toNat ≠ 0)
    (secondNulFree : ∀ c ∈ second.subgraphName.toList, c.toNat ≠ 0)
    (same : cacheKeyBytes first.subgraphName first.headers firstRepr first.additionalScopes =
      cacheKeyBytes second.subgraphName second.headers secondRepr second.additionalScopes) :
    first.subgraphName = second.subgraphName ∧ first.headers.iter = second.headers.iter ∧
      first.additionalScopes = second.additionalScopes ∧ firstRepr = secondRepr := by
  have tail := append_cancel_left same
  have names : asBytes first.subgraphName = asBytes second.subgraphName := by
    rcases append_eq_append_iff.mp tail with ⟨extra, longer, rest⟩ | ⟨extra, longer, rest⟩
    · have empty := (framed_headersBytes first (asBytes firstRepr)).eq_nil_of_append
        (framed_headersBytes second (asBytes secondRepr)) (fun byte member =>
          ne_zero_of_mem_asBytes secondNulFree byte (by rw [longer]; exact mem_append_right _ member)) rest
      rw [longer, empty, append_nil]
    · have empty := (framed_headersBytes second (asBytes secondRepr)).eq_nil_of_append
        (framed_headersBytes first (asBytes firstRepr)) (fun byte member =>
          ne_zero_of_mem_asBytes firstNulFree byte (by rw [longer]; exact mem_append_right _ member)) rest
      rw [longer, empty, append_nil]
  rw [names] at tail
  have headers := append_cancel_left tail
  simp only [headersBytes, append_assoc] at headers
  obtain ⟨count, lines⟩ := leBytes_append_inj (first.headersFit.trans (by decide)) (second.headersFit.trans (by decide))
    headers
  obtain ⟨sameHeaders, scopes⟩ := flatMap_append_inj headerBytes_append_inj first.valuesFit second.valuesFit count lines
  simp only [scopesBytes, append_assoc] at scopes
  obtain ⟨scopeCount, blocks⟩ := leBytes_append_inj (first.scopesFit.trans (by decide))
    (second.scopesFit.trans (by decide)) scopes
  obtain ⟨sameScopes, reprs⟩ := flatMap_append_inj
    (fun scope other rest tail scopeFits otherFits same => by
      obtain ⟨bytes, rest⟩ := block_append_inj (scopeFits.trans (by decide)) (otherFits.trans (by decide)) same
      exact ⟨asBytes_inj bytes, rest⟩)
    first.scopeFits second.scopeFits scopeCount blocks
  exact ⟨asBytes_inj names, sameHeaders, sameScopes, asBytes_inj reprs⟩

/-- What the subgraph is asked for the representation is the same. -/
structure Equivalent (first : FederationEntityRequest) (firstRepr : String) (second : FederationEntityRequest)
    (secondRepr : String) : Prop where
  subgraphName : first.subgraphName = second.subgraphName
  headers : first.headers.iter = second.headers.iter
  additionalScopes : first.additionalScopes = second.additionalScopes
  repr : firstRepr = secondRepr
  query : first.query = second.query
  subgraphVariables : first.subgraphVariables = second.subgraphVariables

/-- Two fetches that share a key are equivalent exactly when those with the same subgraph, headers, scopes and
representation have the same query and variables; the key knows nothing about these. -/
theorem equivalent_of_key_iff (hash : Bytes → String) (injective : Function.Injective hash)
    (first second : FederationEntityRequest) (firstRepr secondRepr : String)
    (firstNulFree : ∀ c ∈ first.subgraphName.toList, c.toNat ≠ 0)
    (secondNulFree : ∀ c ∈ second.subgraphName.toList, c.toNat ≠ 0) :
    (first.key hash firstRepr = second.key hash secondRepr → Equivalent first firstRepr second secondRepr) ↔
      (first.subgraphName = second.subgraphName → first.headers.iter = second.headers.iter →
        first.additionalScopes = second.additionalScopes → firstRepr = secondRepr →
        first.query = second.query ∧ first.subgraphVariables = second.subgraphVariables) := by
  constructor
  · intro equivalent names headers scopes reprs
    have shared : first.key hash firstRepr = second.key hash secondRepr := by
      simp only [FederationEntityRequest.key, buildCacheKey, cacheKeyBytes, headersBytes, names, headers, scopes, reprs]
    exact ⟨(equivalent shared).query, (equivalent shared).subgraphVariables⟩
  · intro agree shared
    obtain ⟨names, headers, scopes, reprs⟩ := cacheKeyBytes_inj firstNulFree secondNulFree (injective shared)
    obtain ⟨query, subgraphVariables⟩ := agree names headers scopes reprs
    exact ⟨names, headers, scopes, reprs, query, subgraphVariables⟩

/-- A fetch of products without headers and scopes. -/
def productsRequest (query : String) : FederationEntityRequest where
  subgraphName := "products"
  headers := .empty
  additionalScopes := []
  query := query
  subgraphVariables := []
  headersFit := by decide
  valuesFit := by simp [HeaderMap.empty, HeaderMap.iter]
  scopesFit := by decide
  scopeFits := by simp

def plainHash (bytes : Bytes) : String := String.ofList (bytes.map fun byte => Char.ofNat byte.toNat)

theorem plainHash_injective : Function.Injective plainHash := by
  intro first second same
  refine map_injective_iff.mpr (fun byte other same => ?_) (String.ofList_injective same)
  have toNat (byte : UInt8) : (Char.ofNat byte.toNat).toNat = byte.toNat := by
    have small := byte.toNat_lt
    rw [Char.ofNat, dif_pos (.inl (by omega))]
    rfl
  exact UInt8.toNat_inj.mp (by rw [← toNat byte, ← toNat other, same])

/-- Fetches of `upc` and of `name` for the same product share their data. -/
theorem key_shared_by_different_queries :
    let upc := productsRequest "... on Product \x7b upc \x7d"
    let name := productsRequest "... on Product \x7b name \x7d"
    let repr := "\x7b\"__typename\":\"Product\",\"upc\":\"top-1\"\x7d"
    Function.Injective plainHash ∧ upc.key plainHash repr = name.key plainHash repr ∧
      ¬ Equivalent upc repr name repr := by
  refine ⟨plainHash_injective, rfl, fun equivalent => ?_⟩
  exact absurd equivalent.query (by decide)

/-- Fetches of the same product and of two products with the same query and scopes. -/
theorem equivalent_of_same_query :
    let upc := { productsRequest "... on Product \x7b upc \x7d" with
      additionalScopes := ["read", "admin"], scopesFit := by decide, scopeFits := by decide }
    let repr := "\x7b\"__typename\":\"Product\",\"upc\":\"top-1\"\x7d"
    let other := "\x7b\"__typename\":\"Product\",\"upc\":\"top-2\"\x7d"
    (upc.key plainHash repr = upc.key plainHash repr → Equivalent upc repr upc repr) ∧
      (upc.key plainHash repr = upc.key plainHash other → Equivalent upc repr upc other) :=
  have nulFree : ∀ c ∈ "products".toList, c.toNat ≠ 0 := by simp
  ⟨(equivalent_of_key_iff plainHash plainHash_injective _ _ _ _ nulFree nulFree).mpr fun _ _ _ _ => ⟨rfl, rfl⟩,
    (equivalent_of_key_iff plainHash plainHash_injective _ _ _ _ nulFree nulFree).mpr fun _ _ _ _ => ⟨rfl, rfl⟩⟩

end Equivalence

section Cache
variable (hash : Bytes → String)

inductive CacheEntry where
  | miss (key : String)
  | hit (data : Bytes)

def CacheEntry.isMiss : CacheEntry → Bool
  | .miss _ => true
  | .hit _ => false

abbrev EntityCache := List (String × Bytes)

def cacheFetch (cache : EntityCache) (request : FederationEntityRequest) (repr : String) : CacheEntry :=
  match cache.find? (·.1 = request.key hash repr) with
  | some (_, data) => .hit data
  | none => .miss (request.key hash repr)

/-- The entry of each representation, and the representations that have to be fetched. -/
def cacheFetches (cache : EntityCache) (request : FederationEntityRequest) (representations : List String) :
    List CacheEntry × List String :=
  let entries := representations.map (cacheFetch hash cache request)
  (entries, ((representations.zip entries).filter (·.2.isMiss)).map Prod.fst)

/-- What is written when the entities arrived; nothing, if there are too few of them. -/
def cacheUpdates : List CacheEntry → List Bytes → Option (List (String × Bytes))
  | [], _ => some []
  | .hit _ :: entries, entities => cacheUpdates entries entities
  | .miss _ :: _, [] => none
  | .miss key :: entries, data :: entities => (cacheUpdates entries entities).map ((key, data) :: ·)

def updateCache (cache : EntityCache) (entries : List CacheEntry) (entities : List Bytes) : EntityCache :=
  ((cacheUpdates entries entities).getD []).foldl (fun cache (key, data) => upsert key [] (fun _ => data) cache) cache

/-- A request with the entities the subgraph returned for the representations that were sent. -/
structure EntityExchange where
  request : FederationEntityRequest
  representations : List String
  entities : List Bytes

def EntityExchange.run (cache : EntityCache) (exchange : EntityExchange) : EntityCache :=
  updateCache cache (cacheFetches hash cache exchange.request exchange.representations).1 exchange.entities

variable (answers : FederationEntityRequest → String → Bytes → Prop)

/-- The subgraph answers the representations it was sent, in their order. -/
def EntityExchange.Answered (cache : EntityCache) (exchange : EntityExchange) : Prop :=
  List.Forall₂ (answers exchange.request)
    (cacheFetches hash cache exchange.request exchange.representations).2 exchange.entities

/-- All data was an answer to some fetch with that key. -/
def Coherent (cache : EntityCache) : Prop :=
  ∀ key data, (key, data) ∈ cache → ∃ request repr, key = request.key hash repr ∧ answers request repr data

inductive Reachable : EntityCache → Prop where
  | empty : Reachable []
  | run {cache : EntityCache} {exchange : EntityExchange} (before : Reachable cache)
      (answered : exchange.Answered hash answers cache) : Reachable (exchange.run hash cache)

variable {hash answers} {cache : EntityCache} {request : FederationEntityRequest} {updates : List (String × Bytes)}
  {representations : List String} {entities : List Bytes}

/-- With an entity for each representation that was sent, each is stored under the key of its own. -/
theorem cacheUpdates_eq (each : entities.length = (cacheFetches hash cache request representations).2.length) :
    cacheUpdates (cacheFetches hash cache request representations).1 entities =
      some (((cacheFetches hash cache request representations).2.map (request.key hash)).zip entities) := by
  simp only [cacheFetches] at each ⊢
  induction representations generalizing entities with
  | nil => rfl
  | cons repr rest ih =>
    simp only [map_cons, zip_cons_cons] at each ⊢
    cases entry : cacheFetch hash cache request repr with
    | hit data =>
      rw [entry, filter_cons_of_neg (by simp [CacheEntry.isMiss])] at each
      exact ih each
    | miss key =>
      have isKey : key = request.key hash repr := by
        rw [cacheFetch] at entry
        split at entry
        · cases entry
        · cases entry
          rfl
      rw [entry, filter_cons_of_pos (by rfl), map_cons, length_cons] at each
      obtain ⟨data, entities, rfl⟩ := exists_cons_of_length_eq_add_one each
      rw [cacheUpdates, ih (Nat.succ.inj each), filter_cons_of_pos (by rfl), isKey]
      rfl

theorem Coherent.put (coherent : Coherent hash answers cache)
    (answered : ∀ update ∈ updates, ∃ request repr, update.1 = FederationEntityRequest.key hash request repr ∧
      answers request repr update.2) : Coherent hash answers
      (updates.foldl (fun cache (update : String × Bytes) => upsert update.1 [] (fun _ => update.2) cache) cache) := by
  induction updates generalizing cache with
  | nil => exact coherent
  | cons update rest ih =>
    rw [forall_mem_cons] at answered
    refine ih (fun key data member => ?_) answered.2
    exact forall_mem_upsert (fun entry => coherent entry.1 entry.2) answered.1 (fun _ _ => answered.1)
      (key, data) member

theorem EntityExchange.run_coherent {exchange : EntityExchange} (coherent : Coherent hash answers cache)
    (answered : exchange.Answered hash answers cache) : Coherent hash answers (exchange.run hash cache) := by
  obtain ⟨each, answered⟩ := forall₂_iff_zip.mp answered
  refine coherent.put fun update member => ?_
  rw [cacheUpdates_eq each.symm, Option.getD_some, zip_map_left] at member
  obtain ⟨⟨repr, data⟩, sent, rfl⟩ := mem_map.mp member
  exact ⟨exchange.request, repr, rfl, answered sent⟩

theorem Reachable.coherent (reachable : Reachable hash answers cache) : Coherent hash answers cache := by
  induction reachable with
  | empty => simp [Coherent]
  | run _ answered ih => exact EntityExchange.run_coherent ih answered

/-- After any number of requests, data is served to a fetch only if it answered one with the same key. -/
theorem answered_of_hit (reachable : Reachable hash answers cache) {repr : String} {data : Bytes}
    (hit : cacheFetch hash cache request repr = .hit data) :
    ∃ source sourceRepr, FederationEntityRequest.key hash source sourceRepr = request.key hash repr ∧
      answers source sourceRepr data := by
  rw [cacheFetch] at hit
  split at hit
  · next key stored found =>
    cases hit
    have isKey : key = request.key hash repr := by simpa using find?_some found
    obtain ⟨source, sourceRepr, sourceKey, answered⟩ := reachable.coherent key _ (mem_of_find?_eq_some found)
    exact ⟨source, sourceRepr, sourceKey.symm.trans isKey, answered⟩
  · cases hit

theorem answered_by_first_fetch : ∃ source repr, FederationEntityRequest.key plainHash source repr =
    (productsRequest "").key plainHash "1" ∧ repr = "1" :=
  have reachable : Reachable plainHash (fun _ repr _ => repr = "1")
      (EntityExchange.run plainHash [] ⟨productsRequest "", ["1"], [[]]⟩) := .run .empty (.cons rfl .nil)
  answered_of_hit reachable rfl

end Cache
end Grafbase.Sources
