import Grafbase.Sources.CacheControl
import Mathlib.Tactic.Linarith

/-! Rate limits kept in memory.

A limit for a duration becomes a quota of whole requests per second. Where that
comes to nothing there is no limiter, and the key is not limited at all. Of
governor only the quota is relied on: its decisions are a parameter.
-/

set_option autoImplicit false

namespace Grafbase.RateLimiting
open List
open Sources (Duration)

inductive RateLimitKey where
  | global
  | subgraph (name : String)

structure GraphRateLimit where
  limit : Nat
  duration : Duration

structure Config where
  globalRateLimit : Option GraphRateLimit
  subgraphs : List (String × Option GraphRateLimit)

/-- Hash maps are the functions that look a key up. -/
def asKeyedRateLimitConfig (config : Config) : RateLimitKey → Option GraphRateLimit
  | .global => config.globalRateLimit
  | .subgraph name => (config.subgraphs.lookup name).join

def asSecs (duration : Duration) : Nat := duration.nanos / 10 ^ 9

/-- The quota of the limiter. -/
def createLimiter (config : GraphRateLimit) : Option Nat :=
  if asSecs config.duration = 0 then none
  else
    let quota := config.limit / asSecs config.duration % 2 ^ 32
    if quota = 0 then none else some quota

def runtime (config : Config) (key : RateLimitKey) : Option Nat :=
  (asKeyedRateLimitConfig config key).bind createLimiter

/-- Whether a limiter with a quota lets a request through, after those it let through at the instants before. -/
abbrev Governor := Nat → List Nat → Nat → Bool

inductive Error where
  | exceededCapacity

/-- A request without a key is not limited. -/
def limit (governor : Governor) (limiters : RateLimitKey → Option Nat) (key : Option RateLimitKey) (admitted : List Nat)
    (now : Nat) : Except Error Unit :=
  match key.bind limiters with
  | none => .ok ()
  | some quota => if governor quota admitted now then .ok () else .error .exceededCapacity

/-- The instants of the requests that pass when each is checked after those that passed before it. -/
def passing (check : List Nat → Nat → Bool) : List Nat → List Nat → List Nat
  | _, [] => []
  | earlier, now :: rest =>
    if check earlier now then now :: passing check (earlier ++ [now]) rest else passing check earlier rest

/-- What passes of the requests for a key. -/
def admitted (governor : Governor) (limiters : RateLimitKey → Option Nat) (key : RateLimitKey) : List Nat → List Nat :=
  passing (fun earlier now => (limit governor limiters (some key) earlier now).isOk) []

def inWindow (start length : Nat) (instants : List Nat) : List Nat :=
  instants.filter fun instant => start ≤ instant ∧ instant ≤ start + length

/-- At most `quota * (t + 1)` in any `t` seconds. -/
def WithinQuota (quota : Nat) (instants : List Nat) : Prop :=
  ∀ start length, (inWindow start length instants).length * 10 ^ 9 ≤ quota * (length + 10 ^ 9)

def PerSecond (governor : Governor) : Prop :=
  ∀ quota > 0, ∀ instants : List Nat, instants.Pairwise (· ≤ ·) →
    WithinQuota quota (passing (governor quota) [] instants)

/-- Every key with a limit has a limiter, which admits at most twice the limit in any window of the duration. -/
def EnforcesLimits (config : Config) : Prop :=
  ∀ key limits, asKeyedRateLimitConfig config key = some limits → 1 ≤ limits.limit → 0 < limits.duration.nanos →
    runtime config key ≠ none ∧ ∀ governor, PerSecond governor → ∀ instants : List Nat, instants.Pairwise (· ≤ ·) →
      ∀ start, (inWindow start limits.duration.nanos (admitted governor (runtime config) key instants)).length ≤
        2 * limits.limit

/-- The duration has whole seconds, each of which allows a request, and in a duration between one and two seconds the
quota is not refilled for another request. -/
def Enforceable (limits : GraphRateLimit) : Prop :=
  asSecs limits.duration ≠ 0 ∧ limits.limit / asSecs limits.duration % 2 ^ 32 ≠ 0 ∧
    (asSecs limits.duration = 1 → limits.limit < 2 ^ 32 → limits.limit * (limits.duration.nanos % 10 ^ 9) < 10 ^ 9)

theorem admitted_of_some (governor : Governor) {limiters : RateLimitKey → Option Nat} {key : RateLimitKey} {quota : Nat}
    (limited : limiters key = some quota) : admitted governor limiters key = passing (governor quota) [] := by
  have same : (fun earlier now => (limit governor limiters (some key) earlier now).isOk) = governor quota := by
    funext earlier now
    cases passes : governor quota earlier now <;> simp [limit, limited, passes, Except.isOk, Except.toBool]
  rw [admitted, same]

theorem createLimiter_eq_some {limits : GraphRateLimit} {quota : Nat} : createLimiter limits = some quota ↔
    asSecs limits.duration ≠ 0 ∧ quota ≠ 0 ∧ limits.limit / asSecs limits.duration % 2 ^ 32 = quota := by
  rw [createLimiter]
  grind

theorem asSecs_add_mod (duration : Duration) :
    10 ^ 9 * asSecs duration + duration.nanos % 10 ^ 9 = duration.nanos := Nat.div_add_mod _ _

theorem count_le {limits : GraphRateLimit} {quota count : Nat} (created : createLimiter limits = some quota)
    (enforceable : Enforceable limits) (within : count * 10 ^ 9 ≤ quota * (limits.duration.nanos + 10 ^ 9)) :
    count ≤ 2 * limits.limit := by
  obtain ⟨lasting, positive, isQuota⟩ := createLimiter_eq_some.mp created
  obtain ⟨_, _, fraction⟩ := enforceable
  have slow : quota * asSecs limits.duration ≤ limits.limit :=
    isQuota ▸ (Nat.mul_le_mul_right _ (Nat.mod_le _ _)).trans (Nat.div_mul_le_self _ _)
  have nanos := asSecs_add_mod limits.duration
  have below := Nat.mod_lt limits.duration.nanos (show 0 < 10 ^ 9 by decide)
  rw [← nanos] at within
  generalize asSecs limits.duration = secs at *
  generalize limits.duration.nanos % 10 ^ 9 = rest at *
  by_contra exceeded
  rcases Nat.lt_or_ge 1 secs with long | short
  · nlinarith [Nat.pos_of_ne_zero positive]
  · obtain rfl : secs = 1 := by omega
    rw [Nat.div_one] at isQuota
    by_cases small : limits.limit < 2 ^ 32
    · rw [Nat.mod_eq_of_lt small] at isQuota
      have := fraction rfl small
      subst isQuota
      nlinarith
    · have : quota + 2 ^ 32 ≤ limits.limit := by omega
      have : quota < 2 ^ 32 := by omega
      nlinarith

section Bursts
variable {rest quota : Nat} {earlier : List Nat}

/-- Two quotas one second apart, and what is refilled in the rest of the duration. -/
def bursts (rest quota : Nat) : List Nat :=
  replicate quota 0 ++ replicate quota (10 ^ 9) ++ replicate (quota * rest / 10 ^ 9) (10 ^ 9 + rest)

def bursting (rest : Nat) : Governor := fun quota earlier now => decide (earlier ++ [now] <+: bursts rest quota)

theorem append_passing_bursting (instants : List Nat) (prior : earlier <+: bursts rest quota) :
    earlier ++ passing (bursting rest quota) earlier instants <+: bursts rest quota := by
  induction instants generalizing earlier with
  | nil => simpa [passing] using prior
  | cons now later ih =>
    rw [passing]
    split
    · next passes => simpa using ih (of_decide_eq_true passes)
    · exact ih prior

theorem passing_bursts {instants : List Nat} (all : earlier ++ instants = bursts rest quota) :
    passing (bursting rest quota) earlier instants = instants := by
  induction instants generalizing earlier with
  | nil => rfl
  | cons now later ih =>
    have all : (earlier ++ [now]) ++ later = bursts rest quota := by simpa using all
    have passes : bursting rest quota earlier now = true := decide_eq_true ⟨later, all⟩
    rw [passing, if_pos passes, ih all]

theorem perSecond_bursting (below : rest < 10 ^ 9) : PerSecond (bursting rest) := by
  intro quota _ instants _ start length
  have empty : [] <+: bursts rest quota := nil_prefix
  have prior := append_passing_bursting instants empty
  have fewer := (prior.sublist.filter fun instant => start ≤ instant ∧ instant ≤ start + length).length_le
  refine (Nat.mul_le_mul_right _ fewer).trans ?_
  have refilled := Nat.div_mul_le_self (quota * rest) (10 ^ 9)
  simp only [bursts, filter_append, filter_replicate, length_append]
  -- Each burst is in the window or not.
  split_ifs <;> simp_all <;> nlinarith

end Bursts

/-- The limits are enforced exactly when every one is enforceable. -/
theorem enforcesLimits_iff (config : Config) : EnforcesLimits config ↔
    ∀ key limits, asKeyedRateLimitConfig config key = some limits → 1 ≤ limits.limit → 0 < limits.duration.nanos →
      Enforceable limits := by
  refine forall₂_congr fun key limits => forall₃_congr fun configured atLeastOne _ => ?_
  have created : runtime config key = createLimiter limits := by simp [runtime, configured]
  constructor
  · rintro ⟨limited, bounded⟩
    obtain ⟨quota, isQuota⟩ := Option.ne_none_iff_exists'.mp (created ▸ limited)
    obtain ⟨lasting, positive, rfl⟩ := createLimiter_eq_some.mp isQuota
    refine ⟨lasting, positive, fun second small => ?_⟩
    by_contra enough
    have isQuota : createLimiter limits = some limits.limit := by
      rw [createLimiter_eq_some, second, Nat.div_one, Nat.mod_eq_of_lt small]
      exact ⟨by decide, by omega, rfl⟩
    have nanos := asSecs_add_mod limits.duration
    have below := Nat.mod_lt limits.duration.nanos (show 0 < 10 ^ 9 by decide)
    generalize limits.duration.nanos % 10 ^ 9 = rest at *
    have total := bounded (bursting rest) (perSecond_bursting below) (bursts rest limits.limit)
      (by simp [bursts, pairwise_append]) 0
    have all : inWindow 0 limits.duration.nanos (bursts rest limits.limit) = bursts rest limits.limit :=
      filter_eq_self.mpr fun instant member => by
        simp only [bursts, mem_append, mem_replicate] at member
        simp only [decide_eq_true_eq]
        omega
    have another : 0 < limits.limit * rest / 10 ^ 9 := Nat.div_pos (Nat.not_lt.mp enough) (by decide)
    rw [admitted_of_some _ (created.trans isQuota), passing_bursts (nil_append _), all] at total
    simp only [bursts, length_append, length_replicate] at total
    omega
  · intro enforceable
    obtain ⟨lasting, positive, _⟩ := id enforceable
    have isQuota := createLimiter_eq_some.mpr ⟨lasting, positive, rfl⟩
    refine ⟨by simp [created, isQuota], fun governor perSecond instants sorted start => ?_⟩
    rw [admitted_of_some _ (created.trans isQuota)]
    exact count_le isQuota enforceable (perSecond _ (Nat.pos_of_ne_zero positive) instants sorted start _)

/-- `limit = 10` and `duration = "1m"` for the gateway. -/
def tenPerMinute : Config := ⟨some ⟨10, .fromSecs 60⟩, []⟩

/-- Ten requests a minute come to none a second, and so to no limiter. -/
theorem not_enforcesLimits_tenPerMinute : runtime tenPerMinute .global = none ∧ ¬ EnforcesLimits tenPerMinute :=
  ⟨rfl, fun enforces => (enforces .global ⟨10, .fromSecs 60⟩ rfl (by decide) (by decide)).1 rfl⟩

end Grafbase.RateLimiting
