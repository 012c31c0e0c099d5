import Grafbase.Foundation.Slices
import Mathlib.Data.List.Induction

/-! The keys that tokens are verified with, and the cache they are kept in.

A cached key is found by a tag, a URL and the key id of the token, joined by a
separator that the URL may contain as well. What the servers answer during a
call and what the cache still holds are parameters of the call. A key that is
used after any calls was served in one of them.
-/

set_option autoImplicit false

namespace Grafbase.JwtVerifier
open Foundation List

abbrev Text := List Char

/-- URLs are compared by their text. -/
abbrev Url := Text

/-- How URLs are parsed, and joined with a path. -/
structure UrlLibrary where
  parse : Text → Option Url
  join : Url → Text → Url

def oidcDiscoveryPath : Text := ".well-known/openid-configuration".toList

def joinableUrl (url : Url) : Url := if url.getLast? = some '/' then url else url ++ ['/']

def UrlLibrary.discoveryUrl (urls : UrlLibrary) (issuerBaseUrl : Url) : Url :=
  urls.join (joinableUrl issuerBaseUrl) oidcDiscoveryPath

structure OidcConfig where
  issuer : Text
  jwksUri : Url

structure ExtendedJsonWebKey (κ : Type) where
  base : κ
  id : Text

inductive VerificationError where
  | invalidToken
  | unsupportedAlgorithm (algorithm : String)
  | httpRequest
  | issuerFormat
  | issuerClaimMismatch
  | jwkNotFound (kid : Text)

inductive CachingKey where
  | oidc (discoveryUrl : Url) (kid : Text)
  | jwks (jwksEndpointUrl : Url) (kid : Text)

def cachingSeparator : Char := '|'

def CachingKey.key : CachingKey → Text
  | .oidc discoveryUrl kid => ['O', 'I', 'D', 'C'] ++ cachingSeparator :: (discoveryUrl ++ cachingSeparator :: kid)
  | .jwks jwksEndpointUrl kid => ['J', 'W', 'K', 'S'] ++
    cachingSeparator :: (jwksEndpointUrl ++ cachingSeparator :: kid)

/-- Which of the two functions is called, with its arguments. -/
inductive Provider where
  | oidcDiscovery (issuerBaseUrl : Url) (expectedIssuer : Text)
  | jwksEndpoint (jwksEndpointUrl : Url)

structure Call (κ : Type) where
  provider : Provider
  /-- What the header of the token gives. -/
  kid : Except VerificationError Text
  oidcConfig : Url → Option OidcConfig
  jwks : Url → Option (List (ExtendedJsonWebKey κ))
  /-- Which of the values put under a key the cache returns, if any. -/
  recalled : Option Nat
  stored : Bool

section Verify
variable {κ : Type} (urls : UrlLibrary) (call : Call κ) (kid : Text) (cache : List (Text × ExtendedJsonWebKey κ))

def verifyIssuer (expected actual : Text × Option Url) : Except VerificationError Unit :=
  if expected.1 = actual.1 then .ok ()
  else
    match expected.2.or (urls.parse expected.1), actual.2.or (urls.parse actual.1) with
    | some expectedUrl, some actualUrl => if expectedUrl = actualUrl then .ok () else .error .issuerClaimMismatch
    | _, _ => .error .issuerFormat

def cachingKey : Provider → CachingKey
  | .oidcDiscovery issuerBaseUrl _ => .oidc (urls.discoveryUrl issuerBaseUrl) kid
  | .jwksEndpoint jwksEndpointUrl => .jwks jwksEndpointUrl kid

def getJwkFromCache (key : CachingKey) : Option (ExtendedJsonWebKey κ) := do
  ((cache.filter (·.1 = key.key)).map Prod.snd)[← call.recalled]?

def findJwk (url : Url) : Except VerificationError (ExtendedJsonWebKey κ) :=
  match call.jwks url with
  | none => .error .httpRequest
  | some keys =>
    match keys.find? (·.id = kid) with
    | none => .error (.jwkNotFound kid)
    | some jwk => .ok jwk

def fetchJwk : Except VerificationError (ExtendedJsonWebKey κ) :=
  match call.provider with
  | .jwksEndpoint jwksEndpointUrl => findJwk call kid jwksEndpointUrl
  | .oidcDiscovery issuerBaseUrl expectedIssuer =>
    match call.oidcConfig (urls.discoveryUrl issuerBaseUrl) with
    | none => .error .httpRequest
    | some config => do
      verifyIssuer urls (expectedIssuer, some issuerBaseUrl) (config.issuer, none)
      findJwk call kid config.jwksUri

/-- The key that the signature of the token is checked with, and the cache after the call. -/
def verifyRsToken : Except VerificationError (ExtendedJsonWebKey κ) × List (Text × ExtendedJsonWebKey κ) :=
  match call.kid with
  | .error error => (.error error, cache)
  | .ok kid =>
    let key := cachingKey urls kid call.provider
    match getJwkFromCache call cache key with
    | some jwk => (.ok jwk, cache)
    | none =>
      match fetchJwk urls call kid with
      | .error error => (.error error, cache)
      | .ok jwk => (.ok jwk, if call.stored then cache ++ [(key.key, jwk)] else cache)

def verifyAll (calls : List (Call κ)) : List (Text × ExtendedJsonWebKey κ) :=
  calls.foldl (fun cache call => (verifyRsToken urls call cache).2) []

def Accepts (issuerBaseUrl : Url) (expectedIssuer issuer : Text) : Prop :=
  verifyIssuer urls (expectedIssuer, some issuerBaseUrl) (issuer, none) = .ok ()

/-- The call asks the servers, because the cache that the calls before it left holds nothing for it. -/
def Asks (before : List (Call κ)) : Prop :=
  ∃ kid, call.kid = .ok kid ∧
    getJwkFromCache call (verifyAll urls before) (cachingKey urls kid call.provider) = none

/-- During the call, the key was among the answers of where the provider says. -/
def Answered (jwk : ExtendedJsonWebKey κ) : Provider → Prop
  | .jwksEndpoint url => call.provider = .jwksEndpoint url ∧ ∃ keys, call.jwks url = some keys ∧ jwk ∈ keys
  | .oidcDiscovery base expected => ∃ config, call.oidcConfig (urls.discoveryUrl base) = some config ∧
      Accepts urls base expected config.issuer ∧
      (∃ asked issuer, call.provider = .oidcDiscovery asked issuer ∧
        urls.discoveryUrl asked = urls.discoveryUrl base ∧ Accepts urls asked issuer config.issuer) ∧
      ∃ keys, call.jwks config.jwksUri = some keys ∧ jwk ∈ keys

/-- The key was served under the key id from where the provider says, in one of the calls. -/
def Served (calls : List (Call κ)) (jwk : ExtendedJsonWebKey κ) (provider : Provider) : Prop :=
  jwk.id = kid ∧ ∃ before call after, calls = before ++ call :: after ∧ Asks urls call before ∧
    Answered urls call jwk provider

/-- A call after any others checks its token with a key that was served for it. -/
def KeysStay (κ : Type) (providers : Provider → Prop) : Prop :=
  ∀ (calls : List (Call κ)) (call : Call κ), (∀ other ∈ calls ++ [call], providers other.provider) →
    ∀ kid jwk, call.kid = .ok kid → (verifyRsToken urls call (verifyAll urls calls)).1 = .ok jwk →
      Served urls kid (calls ++ [call]) jwk call.provider

/-- No URL is another one with something behind a separator, and a discovery URL stands for the same issuers. -/
structure Separated (providers : Provider → Prop) : Prop where
  jwks : ∀ url more, providers (.jwksEndpoint url) → ¬ providers (.jwksEndpoint (url ++ cachingSeparator :: more))
  oidc : ∀ base issuer other otherIssuer, providers (.oidcDiscovery base issuer) →
    providers (.oidcDiscovery other otherIssuer) →
      (∀ more, urls.discoveryUrl other ≠ urls.discoveryUrl base ++ cachingSeparator :: more) ∧
      (urls.discoveryUrl base = urls.discoveryUrl other →
        ∀ actual, Accepts urls base issuer actual → Accepts urls other otherIssuer actual)

/-- Every key that the calls leave in the cache was served for a provider with its caching key. -/
def Sound (providers : Provider → Prop) (calls : List (Call κ)) : Prop :=
  ∀ entry ∈ verifyAll urls calls, ∃ provider kid, providers provider ∧
    entry.1 = (cachingKey urls kid provider).key ∧ Served urls kid calls entry.2 provider

variable {urls call kid} {providers : Provider → Prop} {jwk : ExtendedJsonWebKey κ} {provider : Provider}
  {calls : List (Call κ)}

theorem verifyAll_concat : verifyAll urls (calls ++ [call]) = (verifyRsToken urls call (verifyAll urls calls)).2 := by
  rw [verifyAll, foldl_append, foldl_cons, foldl_nil, ← verifyAll]

theorem Served.append (served : Served urls kid calls jwk provider) (later : List (Call κ)) :
    Served urls kid (calls ++ later) jwk provider := by
  obtain ⟨sameId, before, other, after, rfl, asks, answered⟩ := served
  exact ⟨sameId, before, other, after ++ later, by simp, asks, answered⟩

theorem findJwk_ok {url : Url} (ran : findJwk call kid url = .ok jwk) :
    jwk.id = kid ∧ ∃ keys, call.jwks url = some keys ∧ jwk ∈ keys := by
  unfold findJwk at ran
  split at ran
  · cases ran
  · next keys isAnswer =>
    split at ran
    · cases ran
    · next isFound =>
      cases ran
      exact ⟨by simpa using find?_some isFound, keys, isAnswer, mem_of_find?_eq_some isFound⟩

theorem fetchJwk_ok (ran : fetchJwk urls call kid = .ok jwk) : jwk.id = kid ∧ Answered urls call jwk call.provider := by
  unfold fetchJwk at ran
  cases isProvider : call.provider with
  | jwksEndpoint url =>
    obtain ⟨sameId, served⟩ := findJwk_ok (by simpa [isProvider] using ran)
    exact ⟨sameId, isProvider, served⟩
  | oidcDiscovery base expected =>
    simp only [isProvider] at ran
    split at ran
    · cases ran
    · next config isConfig =>
      obtain ⟨_, accepts, ran⟩ := bind_eq_ok.mp ran
      obtain ⟨sameId, served⟩ := findJwk_ok ran
      exact ⟨sameId, config, isConfig, accepts, ⟨base, expected, isProvider, rfl, accepts⟩, served⟩

theorem eq_of_separated {url other otherKid : Text} (free : ∀ more, other ≠ url ++ cachingSeparator :: more)
    (otherFree : ∀ more, url ≠ other ++ cachingSeparator :: more)
    (same : url ++ cachingSeparator :: kid = other ++ cachingSeparator :: otherKid) : url = other ∧ kid = otherKid := by
  obtain ⟨rest, isOther, split⟩ | ⟨rest, isUrl, split⟩ := append_eq_append_iff.mp same
  · cases rest with
    | nil => simp_all
    | cons head tail => exact absurd ((cons.inj split).1 ▸ isOther) (free tail)
  · cases rest with
    | nil => simp_all
    | cons head tail => exact absurd ((cons.inj split).1 ▸ isUrl) (otherFree tail)

section
variable (separated : Separated urls providers)
include separated

/-- What is cached under the caching key of a provider was served for it. -/
theorem Separated.served {other : Provider} {otherKid : Text} (listed : providers provider)
    (otherListed : providers other)
    (same : (cachingKey urls otherKid other).key = (cachingKey urls kid provider).key)
    (served : Served urls otherKid calls jwk other) : Served urls kid calls jwk provider := by
  cases provider with
  | jwksEndpoint url =>
    cases other with
    | oidcDiscovery => simp [cachingKey, CachingKey.key] at same
    | jwksEndpoint otherUrl =>
      obtain ⟨rfl, rfl⟩ := eq_of_separated (fun more isUrl => separated.jwks otherUrl more otherListed (isUrl ▸ listed))
        (fun more isUrl => separated.jwks url more listed (isUrl ▸ otherListed))
        (by simpa [cachingKey, CachingKey.key] using same)
      exact served
  | oidcDiscovery base issuer =>
    cases other with
    | jwksEndpoint => simp [cachingKey, CachingKey.key] at same
    | oidcDiscovery otherBase otherIssuer =>
      obtain ⟨free, issuers⟩ := separated.oidc _ _ _ _ otherListed listed
      obtain ⟨sameUrl, rfl⟩ := eq_of_separated free (separated.oidc _ _ _ _ listed otherListed).1
        (by simpa [cachingKey, CachingKey.key] using same)
      obtain ⟨sameId, before, call, after, split, asks, config, isConfig, accepts, asked, keys⟩ := served
      exact ⟨sameId, before, call, after, split, asks, config, sameUrl ▸ isConfig, issuers sameUrl _ accepts,
        sameUrl ▸ asked, keys⟩

theorem Sound.step (sound : Sound urls providers calls) (listed : providers call.provider) :
    Sound urls providers (calls ++ [call]) ∧ ∀ kid jwk, call.kid = .ok kid →
      (verifyRsToken urls call (verifyAll urls calls)).1 = .ok jwk →
        Served urls kid (calls ++ [call]) jwk call.provider := by
  have kept : ∀ entry ∈ verifyAll urls calls, ∃ provider kid, providers provider ∧
      entry.1 = (cachingKey urls kid provider).key ∧ Served urls kid (calls ++ [call]) entry.2 provider := by
    intro entry member
    obtain ⟨provider, kid, ofList, isKey, served⟩ := sound entry member
    exact ⟨provider, kid, ofList, isKey, served.append [call]⟩
  unfold Sound
  rw [verifyAll_concat, verifyRsToken]
  cases isKid : call.kid with
  | error error => exact ⟨kept, nofun⟩
  | ok kid =>
    dsimp only
    split
    · next jwk cached =>
      refine ⟨kept, fun otherKid other sameKid same => ?_⟩
      obtain rfl := Except.ok.inj sameKid
      obtain rfl := Except.ok.inj same
      obtain ⟨index, _, atIndex⟩ := Option.bind_eq_some_iff.mp cached
      obtain ⟨entry, member, rfl⟩ := mem_map.mp (mem_of_getElem? atIndex)
      obtain ⟨member, isKey⟩ := mem_filter.mp member
      obtain ⟨provider, otherKid, otherListed, isOther, served⟩ := kept entry member
      exact separated.served listed otherListed (isOther.symm.trans (of_decide_eq_true isKey)) served
    · next missed =>
      split
      · exact ⟨kept, fun _ _ _ => nofun⟩
      · next jwk ran =>
        obtain ⟨sameId, answered⟩ := fetchJwk_ok ran
        have served : Served urls kid (calls ++ [call]) jwk call.provider :=
          ⟨sameId, calls, call, [], rfl, ⟨kid, isKid, missed⟩, answered⟩
        refine ⟨?_, fun otherKid other sameKid same => Except.ok.inj sameKid ▸ Except.ok.inj same ▸ served⟩
        dsimp only
        split
        · intro entry member
          rcases mem_push.mp member with old | rfl
          · exact kept entry old
          · exact ⟨call.provider, kid, listed, rfl, served⟩
        · exact kept

/-- Under separated providers a key stays with the provider it was served for. -/
theorem keysStay_of_separated : KeysStay urls κ providers := by
  intro calls call listed
  have earlier : Sound urls providers calls := by
    have listed : ∀ other ∈ calls, providers other.provider := fun other member =>
      listed other (mem_append_left _ member)
    clear * - listed separated
    induction calls using reverseRecOn with
    | nil => exact nofun
    | append_singleton calls call ih =>
      obtain ⟨before, last⟩ := forall_mem_append.mp listed
      exact ((ih before).step separated (last call mem_cons_self)).1
  exact (earlier.step separated (listed call mem_concat_self)).2

end
end Verify

def twoProviders : List Provider :=
  [.jwksEndpoint "https://idp.example/keys".toList, .jwksEndpoint "https://login.example/keys".toList,
    .oidcDiscovery "https://idp.example".toList "https://idp.example/".toList,
    .oidcDiscovery "https://login.example".toList "https://login.example/".toList]

/-- Two endpoints and two issuers, whose URLs hold no separator. -/
theorem keysStay_endpoints_and_issuers : KeysStay ⟨some, (· ++ ·)⟩ Unit (· ∈ twoProviders) := by
  have free {url other : Url} (free : cachingSeparator ∉ other) (more : Text) :
      other ≠ url ++ cachingSeparator :: more := by
    rintro rfl
    simp at free
  refine keysStay_of_separated ⟨fun url more listed other => ?_, fun _ _ _ _ listed otherListed => ?_⟩
  · have known : ∀ provider ∈ twoProviders, ∀ url, provider = .jwksEndpoint url → cachingSeparator ∉ url := by
      simp +decide [twoProviders]
    exact free (known _ other _ rfl) more rfl
  · simp only [twoProviders, mem_cons, reduceCtorEq, false_or, Provider.oidcDiscovery.injEq, not_mem_nil, or_false]
      at listed otherListed
    obtain ⟨rfl, rfl⟩ | ⟨rfl, rfl⟩ := listed <;> obtain ⟨rfl, rfl⟩ | ⟨rfl, rfl⟩ := otherListed
    all_goals refine ⟨free (by decide +kernel), fun same => ?_⟩
    · exact fun _ => id
    · exact absurd same (by decide +kernel)
    · exact absurd same (by decide +kernel)
    · exact fun _ => id

/-- A key that the endpoint `k` serves for `a|i` is used for a token with the key id `i` at the endpoint `k|a`. -/
theorem not_keysStay_separator_in_url : ¬ KeysStay ⟨some, (· ++ ·)⟩ Unit fun _ => True := by
  intro stays
  let first : Call Unit := ⟨.jwksEndpoint ['k'], .ok ['a', '|', 'i'], fun _ => none,
    fun url => if url = ['k'] then some [⟨(), ['a', '|', 'i']⟩] else none, none, true⟩
  let second : Call Unit := ⟨.jwksEndpoint ['k', '|', 'a'], .ok ['i'], fun _ => none, fun _ => none, some 0, true⟩
  obtain ⟨sameId, _⟩ := stays [first] second (fun _ _ => trivial) ['i'] ⟨(), ['a', '|', 'i']⟩ rfl rfl
  exact absurd sameId (by decide)

end Grafbase.JwtVerifier

