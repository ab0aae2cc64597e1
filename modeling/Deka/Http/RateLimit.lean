/-
Deka/Http/RateLimit.lean

The request limiter: a token bucket for each address, and the janitor that forgets idle ones.

Instants and tokens are rationals, so the arithmetic is exact; instants count seconds.  A run is
a list of events with their instants: requests of any address, and janitor runs.

An address without a bucket is as good as one with a full bucket.  The janitor keeps the books
only if every bucket it drops is full by then; `windowBound_iff` says when.
-/
import Mathlib
import Deka.Lib.Metered

namespace Deka.Http

open Deka.Lib

/-! ### The limiter -/

inductive IpAddr where
  | v4 (bits : BitVec 32)
  | v6 (bits : BitVec 128)
deriving DecidableEq

structure RateLimitConfig where
  requestsPerMinute : Nat
  burst : Nat
  disabled : Bool

def RateLimitConfig.refillPerSecond (config : RateLimitConfig) : ℚ :=
  config.requestsPerMinute / 60

/-- An idle bucket is kept for ten minutes. -/
def staleAfter : ℚ := 10 * 60

inductive RateLimitDecision where
  | allowed
  | limited (retryAfterSecs : Nat)
deriving DecidableEq

/-- `RateLimitConfig::default` -/
def RateLimitConfig.standard : RateLimitConfig := ⟨600, 60, false⟩

structure TokenBucket where
  tokens : ℚ
  lastRefill : ℚ
  lastSeen : ℚ

/-- `Instant::duration_since`, which is never negative. -/
def durationSince (now earlier : ℚ) : ℚ := max (now - earlier) 0

def retryAfterSecs (tokens refillPerSecond : ℚ) : Nat :=
  if refillPerSecond ≤ 0 then 60
  else (max ⌈max (1 - tokens) 0 / refillPerSecond⌉ 1).toNat

namespace TokenBucket

def new (capacity now : ℚ) : TokenBucket := ⟨capacity, now, now⟩

def refill (bucket : TokenBucket) (now capacity refillPerSecond : ℚ) : TokenBucket :=
  let elapsed := durationSince now bucket.lastRefill
  if elapsed ≤ 0 then bucket
  else { bucket with
    tokens := min (bucket.tokens + elapsed * refillPerSecond) capacity, lastRefill := now }

def check (bucket : TokenBucket) (now capacity refillPerSecond : ℚ) :
    RateLimitDecision × TokenBucket :=
  let bucket := { bucket.refill now capacity refillPerSecond with lastSeen := now }
  if 1 ≤ bucket.tokens then (.allowed, { bucket with tokens := bucket.tokens - 1 })
  else (.limited (retryAfterSecs bucket.tokens refillPerSecond), bucket)

end TokenBucket

structure RateLimiter where
  config : RateLimitConfig
  buckets : IpAddr → Option TokenBucket

namespace RateLimiter

def new (config : RateLimitConfig) : RateLimiter := ⟨config, fun _ => none⟩

def checkAt (limiter : RateLimiter) (ip : IpAddr) (now : ℚ) : RateLimitDecision × RateLimiter :=
  if limiter.config.disabled then (.allowed, limiter)
  else
    let burst : ℚ := limiter.config.burst
    let bucket := (limiter.buckets ip).getD (TokenBucket.new burst now)
    let (decision, bucket) := bucket.check now burst limiter.config.refillPerSecond
    (decision, { limiter with buckets := Function.update limiter.buckets ip (some bucket) })

def removeStale (limiter : RateLimiter) (now staleAfter : ℚ) : RateLimiter :=
  { limiter with
    buckets := fun ip => (limiter.buckets ip).filter fun bucket =>
      decide (durationSince now bucket.lastSeen < staleAfter) }

end RateLimiter

/-! ### Runs -/

inductive Event where
  | request (ip : IpAddr)
  | janitor
deriving DecidableEq

namespace RateLimiter

/-- What is made of the event, and whether it was a request let through. -/
def step (limiter : RateLimiter) (now : ℚ) : Event → RateLimiter
  | .request ip => (limiter.checkAt ip now).2
  | .janitor => limiter.removeStale now staleAfter

def run : RateLimiter → List (ℚ × Event) → RateLimiter
  | limiter, [] => limiter
  | limiter, (now, event) :: events => run (limiter.step now event) events

/-- The decisions about the requests of one address. -/
def log (ip : IpAddr) : RateLimiter → List (ℚ × Event) → List (ℚ × Bool)
  | _, [] => []
  | limiter, (now, event) :: events =>
      if event = .request ip then
        (now, decide ((limiter.checkAt ip now).1 = .allowed)) ::
          log ip (limiter.step now event) events
      else log ip (limiter.step now event) events

end RateLimiter

/-- The instants never go back. -/
def InOrder (events : List (ℚ × Event)) : Prop := (events.map Prod.fst).Pairwise (· ≤ ·)

/-- In any window of length `T` an address is let through at most `burst + rate * T` times. -/
def RateLimitConfig.WindowBound (config : RateLimitConfig) : Prop :=
  ∀ events, InOrder events → ∀ ip s T, 0 ≤ T →
    (granted s (s + T) ((RateLimiter.new config).log ip events) : ℚ) ≤
      config.burst + config.refillPerSecond * T

/-- A refused client that stays away for the seconds it was told is let through. -/
def RateLimitConfig.RetryHolds (config : RateLimitConfig) : Prop :=
  ∀ before ip t retry after t',
    InOrder (before ++ (t, .request ip) :: after ++ [(t', .request ip)]) →
    (((RateLimiter.new config).run before).checkAt ip t).1 = .limited retry →
    (∀ event ∈ after, event.2 ≠ .request ip) → t + retry ≤ t' →
      (((RateLimiter.new config).run (before ++ (t, .request ip) :: after)).checkAt ip t').1 =
        .allowed

/-! ### What a bucket is worth -/

namespace RateLimiter

/-- The tokens an address could draw at `u`: no bucket stands for a full one. -/
def budget (limiter : RateLimiter) (ip : IpAddr) (u : ℚ) : ℚ :=
  match limiter.buckets ip with
  | none => limiter.config.burst
  | some bucket => min (bucket.tokens + (u - bucket.lastRefill) * limiter.config.refillPerSecond)
      limiter.config.burst

/-- The budget of a bucket that was refilled at `u` is what it holds. -/
theorem budget_update (limiter : RateLimiter) (ip : IpAddr) (k u : ℚ) :
    ({ limiter with buckets := Function.update limiter.buckets ip (some ⟨k, u, u⟩) } :
      RateLimiter).budget ip u = min k limiter.config.burst := by
  simp [budget]

/-- A bucket as the limiter keeps it until `t`. -/
structure Holds (config : RateLimitConfig) (t : ℚ) (bucket : TokenBucket) : Prop where
  nonneg : 0 ≤ bucket.tokens
  capped : bucket.tokens ≤ config.burst
  seen : bucket.lastSeen = bucket.lastRefill
  past : bucket.lastRefill ≤ t

/-- Every bucket is in order. -/
def Sound (limiter : RateLimiter) (t : ℚ) : Prop :=
  ∀ ip bucket, limiter.buckets ip = some bucket → Holds limiter.config t bucket

theorem Sound.mono {limiter : RateLimiter} {t u : ℚ} (h : limiter.Sound t) (ht : t ≤ u) :
    limiter.Sound u := fun ip bucket hb =>
  { h ip bucket hb with past := (h ip bucket hb).past.trans ht }

theorem sound_new (config : RateLimitConfig) (t : ℚ) : (new config).Sound t := fun _ _ h => by
  cases h

theorem refillPerSecond_nonneg (config : RateLimitConfig) : 0 ≤ config.refillPerSecond := by
  rw [RateLimitConfig.refillPerSecond]
  positivity

theorem budget_le (limiter : RateLimiter) (ip : IpAddr) (u : ℚ) :
    limiter.budget ip u ≤ limiter.config.burst := by
  rw [budget]
  split
  · exact le_refl _
  · exact min_le_right _ _

theorem Sound.budget_nonneg {limiter : RateLimiter} {t : ℚ} (h : limiter.Sound t) (ip : IpAddr) :
    0 ≤ limiter.budget ip t := by
  rw [budget]
  split
  · exact Nat.cast_nonneg _
  · next bucket hb =>
    have hheld := h ip bucket hb
    have hin : 0 ≤ (t - bucket.lastRefill) * limiter.config.refillPerSecond :=
      mul_nonneg (sub_nonneg.mpr hheld.past) (refillPerSecond_nonneg _)
    exact le_min (add_nonneg hheld.nonneg hin) (Nat.cast_nonneg _)

/-- Waiting fills the bucket at the rate of the configuration. -/
theorem budget_le_wait (limiter : RateLimiter) (ip : IpAddr) {t u : ℚ} (h : t ≤ u) :
    limiter.budget ip u ≤ limiter.budget ip t + limiter.config.refillPerSecond * (u - t) := by
  have hrate := refillPerSecond_nonneg limiter.config
  have hin : 0 ≤ limiter.config.refillPerSecond * (u - t) :=
    mul_nonneg hrate (sub_nonneg.mpr h)
  rw [budget, budget]
  split
  · linarith
  · next bucket hb =>
    rcases min_cases (bucket.tokens + (t - bucket.lastRefill) * limiter.config.refillPerSecond)
      (limiter.config.burst : ℚ) with ⟨heq, -⟩ | ⟨heq, -⟩
    · rw [heq]
      refine (min_le_left _ _).trans (le_of_eq ?_)
      ring
    · rw [heq]
      exact (min_le_right _ _).trans (by linarith)

/-- The tokens of a bucket after a refill are the budget. -/
theorem refill_spec {config : RateLimitConfig} {t u : ℚ} {bucket : TokenBucket}
    (h : Holds config t bucket) (ht : t ≤ u) :
    bucket.refill u config.burst config.refillPerSecond = { bucket with
      tokens := min (bucket.tokens + (u - bucket.lastRefill) * config.refillPerSecond) config.burst
      lastRefill := u } := by
  have hpast := h.past.trans ht
  have helapsed : durationSince u bucket.lastRefill = u - bucket.lastRefill :=
    max_eq_left (sub_nonneg.mpr hpast)
  rw [TokenBucket.refill]
  simp only [helapsed]
  split
  · next hle =>
    have hnow : u = bucket.lastRefill := le_antisymm (by linarith) hpast
    rw [hnow, sub_self, zero_mul, add_zero, min_eq_left h.capped]
  · rfl

/-- A request is let through exactly if the budget holds a token, which it then takes. -/
theorem checkAt_spec {limiter : RateLimiter} {t u : ℚ} (h : limiter.Sound t) (ht : t ≤ u)
    (hon : limiter.config.disabled = false) (ip : IpAddr) :
    limiter.checkAt ip u =
      if 1 ≤ limiter.budget ip u then
        (.allowed, { limiter with
          buckets := Function.update limiter.buckets ip (some ⟨limiter.budget ip u - 1, u, u⟩) })
      else
        (.limited (retryAfterSecs (limiter.budget ip u) limiter.config.refillPerSecond),
          { limiter with
            buckets := Function.update limiter.buckets ip (some ⟨limiter.budget ip u, u, u⟩) }) := by
  have hrefilled : ((limiter.buckets ip).getD (TokenBucket.new limiter.config.burst u)).refill u
      limiter.config.burst limiter.config.refillPerSecond =
        { (limiter.buckets ip).getD (TokenBucket.new limiter.config.burst u) with
          tokens := limiter.budget ip u, lastRefill := u } := by
    rw [budget]
    rcases hb : limiter.buckets ip with - | bucket
    · have hnew : Holds limiter.config u (TokenBucket.new limiter.config.burst u) :=
        ⟨Nat.cast_nonneg _, le_refl _, rfl, le_refl _⟩
      rw [Option.getD_none, refill_spec hnew (le_refl u)]
      simp [TokenBucket.new]
    · exact refill_spec (h ip bucket hb) ht
  rw [checkAt, hon]
  simp only [Bool.false_eq_true, if_false, TokenBucket.check, hrefilled]
  split <;> rfl

theorem checkAt_config (limiter : RateLimiter) (ip : IpAddr) (u : ℚ) :
    (limiter.checkAt ip u).2.config = limiter.config := by
  rw [checkAt]
  split <;> rfl

theorem step_config (limiter : RateLimiter) (u : ℚ) (event : Event) :
    (limiter.step u event).config = limiter.config := by
  cases event with
  | request ip => exact checkAt_config limiter ip u
  | janitor => rfl

/-- A request leaves the buckets of the other addresses alone. -/
theorem checkAt_buckets_ne {limiter : RateLimiter} {ip jp : IpAddr} {u : ℚ} (h : jp ≠ ip) :
    (limiter.checkAt ip u).2.buckets jp = limiter.buckets jp := by
  rw [checkAt]
  split
  · rfl
  · exact Function.update_of_ne h _ _

theorem Sound.step {limiter : RateLimiter} {t u : ℚ} (h : limiter.Sound t) (ht : t ≤ u)
    (event : Event) : (limiter.step u event).Sound u := by
  intro jp bucket hb
  rw [step_config]
  cases event with
  | janitor =>
    obtain ⟨hold, -⟩ := Option.filter_eq_some_iff.mp hb
    exact h.mono ht jp bucket hold
  | request ip =>
    by_cases hjp : jp = ip
    · subst hjp
      cases hon : limiter.config.disabled with
      | true =>
        have hsame : (limiter.step u (.request jp)) = limiter := by
          simp [RateLimiter.step, checkAt, hon]
        rw [hsame] at hb
        exact h.mono ht jp bucket hb
      | false =>
        have hcap := limiter.budget_le jp u
        have hpos := (h.mono ht).budget_nonneg jp
        rw [RateLimiter.step, checkAt_spec h ht hon jp] at hb
        split at hb
        · next hone =>
          simp only [Function.update_self, Option.some.injEq] at hb
          subst hb
          exact ⟨sub_nonneg.mpr hone, by linarith, rfl, le_refl u⟩
        · simp only [Function.update_self, Option.some.injEq] at hb
          subst hb
          exact ⟨hpos, hcap, rfl, le_refl u⟩
    · rw [RateLimiter.step, checkAt_buckets_ne hjp] at hb
      exact h.mono ht jp bucket hb

/-- A request takes the token it was granted out of its own budget. -/
theorem budget_checkAt {limiter : RateLimiter} {t u : ℚ} (h : limiter.Sound t) (ht : t ≤ u)
    (hon : limiter.config.disabled = false) (ip : IpAddr) :
    unit (decide ((limiter.checkAt ip u).1 = .allowed)) ≤ limiter.budget ip u ∧
      (limiter.checkAt ip u).2.budget ip u =
        limiter.budget ip u - unit (decide ((limiter.checkAt ip u).1 = .allowed)) := by
  have hcap := limiter.budget_le ip u
  have hpos := (h.mono ht).budget_nonneg ip
  rw [checkAt_spec h ht hon ip]
  split
  · next hone =>
    rw [budget_update, decide_eq_true rfl]
    exact ⟨hone, min_eq_left (by linarith)⟩
  · rw [budget_update, decide_eq_false (by simp), unit, if_neg (by simp), sub_zero]
    exact ⟨hpos, min_eq_left hcap⟩

/-- The janitor drops a bucket only when it has been idle. -/
theorem removeStale_buckets (limiter : RateLimiter) (ip : IpAddr) (u s : ℚ) :
    (limiter.removeStale u s).buckets ip = limiter.buckets ip ∨
      ∃ bucket, limiter.buckets ip = some bucket ∧ s ≤ durationSince u bucket.lastSeen ∧
        (limiter.removeStale u s).buckets ip = none := by
  show (limiter.buckets ip).filter _ = _ ∨ ∃ bucket, _ ∧ _ ∧ (limiter.buckets ip).filter _ = none
  rcases limiter.buckets ip with - | bucket
  · exact .inl rfl
  · by_cases hfresh : durationSince u bucket.lastSeen < s
    · exact .inl (if_pos (decide_eq_true hfresh))
    · exact .inr ⟨bucket, rfl, not_lt.mp hfresh,
        if_neg fun h => hfresh (of_decide_eq_true h)⟩

/-- An event that is no request of the address leaves its budget alone, if every bucket the
janitor drops is full. -/
theorem budget_step_of_ne {limiter : RateLimiter} {t u : ℚ} (h : limiter.Sound t) (ht : t ≤ u)
    (hfull : (limiter.config.burst : ℚ) ≤ limiter.config.refillPerSecond * staleAfter)
    {event : Event} {ip : IpAddr} (hne : event ≠ .request ip) :
    (limiter.step u event).budget ip u = limiter.budget ip u := by
  cases event with
  | request jp =>
    have hip : ip ≠ jp := fun heq => hne (by rw [heq])
    rw [budget, budget, step_config, step, checkAt_buckets_ne hip]
  | janitor =>
    rw [budget, budget, step_config, step]
    rcases removeStale_buckets limiter ip u staleAfter with hkept | ⟨bucket, hb, hstale, hgone⟩
    · rw [hkept]
    · rw [hgone, hb]
      have hheld := h ip bucket hb
      have hidle : staleAfter ≤ u - bucket.lastRefill := by
        rwa [durationSince, hheld.seen,
          max_eq_left (sub_nonneg.mpr (hheld.past.trans ht))] at hstale
      have hin : limiter.config.refillPerSecond * staleAfter ≤
          (u - bucket.lastRefill) * limiter.config.refillPerSecond := by
        rw [mul_comm]
        exact mul_le_mul_of_nonneg_right hidle (refillPerSecond_nonneg _)
      exact (min_eq_right (by linarith [hheld.nonneg])).symm

/-- The requests of an address are paid for out of its budget. -/
theorem Sound.metered_log {limiter : RateLimiter} {t : ℚ} (h : limiter.Sound t)
    (hon : limiter.config.disabled = false)
    (hfull : (limiter.config.burst : ℚ) ≤ limiter.config.refillPerSecond * staleAfter)
    (ip : IpAddr) {events : List (ℚ × Event)} (horder : InOrder events)
    (hlater : ∀ e ∈ events, t ≤ e.1) :
    Metered limiter.config.refillPerSecond limiter.config.burst t (limiter.budget ip t)
      (limiter.log ip events) := by
  induction events generalizing limiter t with
  | nil => exact .nil
  | cons e events ih =>
    obtain ⟨u, event⟩ := e
    have ht : t ≤ u := hlater (u, event) List.mem_cons_self
    obtain ⟨hfirst, horder⟩ := List.pairwise_cons.mp horder
    have hrest := ih (h.step ht event) (by rw [step_config]; exact hon)
      (by rw [step_config]; exact hfull) horder fun e he => hfirst e.1 (List.mem_map_of_mem he)
    rw [step_config] at hrest
    have hwait := limiter.budget_le_wait ip ht
    rw [log]
    split
    · next heq =>
      subst heq
      obtain ⟨hpaid, hleft⟩ := budget_checkAt h ht hon ip
      rw [RateLimiter.step, hleft] at hrest
      exact .cons ht hwait (limiter.budget_le ip u) hpaid hrest
    · next hne =>
      rw [budget_step_of_ne h ht hfull hne] at hrest
      exact hrest.mono ht hwait

theorem run_config (limiter : RateLimiter) (events : List (ℚ × Event)) :
    (limiter.run events).config = limiter.config := by
  induction events generalizing limiter with
  | nil => rfl
  | cons e events ih => exact (ih _).trans (step_config limiter e.1 e.2)

theorem run_append (limiter : RateLimiter) (before after : List (ℚ × Event)) :
    limiter.run (before ++ after) = (limiter.run before).run after := by
  induction before generalizing limiter with
  | nil => rfl
  | cons e before ih => exact ih _

theorem log_append (limiter : RateLimiter) (ip : IpAddr) (before after : List (ℚ × Event)) :
    limiter.log ip (before ++ after) =
      limiter.log ip before ++ (limiter.run before).log ip after := by
  induction before generalizing limiter with
  | nil => rfl
  | cons e before ih =>
    rw [List.cons_append, log, log, ih]
    split <;> rfl

theorem Sound.run {limiter : RateLimiter} {t u : ℚ} (h : limiter.Sound t) (htu : t ≤ u)
    {events : List (ℚ × Event)} (horder : InOrder events)
    (hlater : ∀ e ∈ events, t ≤ e.1 ∧ e.1 ≤ u) : (limiter.run events).Sound u := by
  induction events generalizing limiter t with
  | nil => exact h.mono htu
  | cons e events ih =>
    obtain ⟨ht, hu⟩ := hlater e List.mem_cons_self
    obtain ⟨hfirst, horder⟩ := List.pairwise_cons.mp horder
    refine ih (h.step ht e.2) hu horder fun d hd => ?_
    exact ⟨hfirst d.1 (List.mem_map_of_mem hd), (hlater d (List.mem_cons_of_mem _ hd)).2⟩

theorem sound_run_new (config : RateLimitConfig) {u : ℚ} {events : List (ℚ × Event)}
    (horder : InOrder events) (hpast : ∀ e ∈ events, e.1 ≤ u) :
    ((new config).run events).Sound u := by
  cases events with
  | nil => exact sound_new config u
  | cons e events =>
    refine (sound_new config e.1).run (hpast e List.mem_cons_self) horder fun d hd => ⟨?_, hpast d hd⟩
    rcases List.mem_cons.mp hd with rfl | hd
    · exact le_refl _
    · exact (List.pairwise_cons.mp horder).1 d.1 (List.mem_map_of_mem hd)

/-! ### Waiting -/

/-- While it stays away, an address keeps its bucket or loses it. -/
theorem run_buckets {limiter : RateLimiter} {ip : IpAddr} {events : List (ℚ × Event)}
    (haway : ∀ e ∈ events, e.2 ≠ .request ip) :
    (limiter.run events).buckets ip = limiter.buckets ip ∨
      (limiter.run events).buckets ip = none := by
  induction events generalizing limiter with
  | nil => exact .inl rfl
  | cons e events ih =>
    obtain ⟨u, event⟩ := e
    have hstep : (limiter.step u event).buckets ip = limiter.buckets ip ∨
        (limiter.step u event).buckets ip = none := by
      cases event with
      | request jp =>
        have hne : ip ≠ jp := fun heq => haway _ List.mem_cons_self (by rw [heq])
        exact .inl (checkAt_buckets_ne hne)
      | janitor =>
        rcases removeStale_buckets limiter ip u staleAfter with hkept | ⟨_, -, -, hgone⟩
        · exact .inl hkept
        · exact .inr hgone
    have hrest : ((limiter.step u event).run events).buckets ip =
        (limiter.step u event).buckets ip ∨
          ((limiter.step u event).run events).buckets ip = none :=
      ih fun e he => haway e (List.mem_cons_of_mem _ he)
    rcases hstep with hsame | hgone
    · rwa [hsame] at hrest
    · rw [hgone, or_self] at hrest
      exact .inr hrest

/-- The advertised seconds are enough for what is missing of a token. -/
theorem le_retryAfterSecs {tokens rate : ℚ} (hrate : 0 < rate) :
    1 ≤ tokens + retryAfterSecs tokens rate * rate := by
  have hceil : (1 - tokens) / rate ≤ (retryAfterSecs tokens rate : ℚ) := by
    rw [retryAfterSecs, if_neg (not_le.mpr hrate)]
    have hmissing : (1 - tokens) / rate ≤ max (1 - tokens) 0 / rate :=
      (div_le_div_iff_of_pos_right hrate).mpr (le_max_left _ _)
    have hwhole : (⌈max (1 - tokens) 0 / rate⌉ : ℤ) ≤
        ((max ⌈max (1 - tokens) 0 / rate⌉ 1).toNat : ℤ) :=
      (le_max_left _ _).trans (Int.self_le_toNat _)
    calc (1 - tokens) / rate ≤ (⌈max (1 - tokens) 0 / rate⌉ : ℚ) :=
          hmissing.trans (Int.le_ceil _)
      _ ≤ _ := by exact_mod_cast hwhole
  have := (div_le_iff₀ hrate).mp hceil
  linarith

end RateLimiter

open RateLimiter

theorem RateLimitConfig.retryHolds {config : RateLimitConfig} (hrate : 0 < config.requestsPerMinute)
    (hburst : 1 ≤ config.burst) : config.RetryHolds := by
  intro before ip t retry after t' horder hrefused haway hwait
  have hone : (1 : ℚ) ≤ config.burst := by exact_mod_cast hburst
  have hpos : 0 < config.refillPerSecond := by
    rw [RateLimitConfig.refillPerSecond]
    positivity
  have hconfig : ∀ events, ((RateLimiter.new config).run events).config = config := fun events =>
    run_config (RateLimiter.new config) events
  cases hon : config.disabled with
  | true =>
    rw [checkAt, hconfig, hon] at hrefused
    cases hrefused
  | false =>
    rw [InOrder, List.map_append, List.map_append, List.map_cons] at horder
    obtain ⟨hrun, -, hlast⟩ := List.pairwise_append.mp horder
    obtain ⟨hbefore, -, hcross⟩ := List.pairwise_append.mp hrun
    have hsound : ((RateLimiter.new config).run before).Sound t :=
      sound_run_new config hbefore fun e he =>
        hcross e.1 (List.mem_map_of_mem he) t List.mem_cons_self
    have hsound' : ((RateLimiter.new config).run (before ++ (t, .request ip) :: after)).Sound t' :=
      sound_run_new config (by rwa [InOrder, List.map_append, List.map_cons]) fun e he =>
        hlast e.1 (by
          rw [← List.map_cons, ← List.map_append]
          exact List.mem_map_of_mem he) t' List.mem_cons_self
    have htold := hrefused
    rw [checkAt_spec hsound (le_refl t) (by rw [hconfig]; exact hon)] at htold
    split at htold
    · cases htold
    · next hempty =>
      rw [hconfig, RateLimitDecision.limited.injEq] at htold
      have hafter : (RateLimiter.new config).run (before ++ (t, .request ip) :: after) =
          (((RateLimiter.new config).run before).checkAt ip t).2.run after :=
        run_append (RateLimiter.new config) before _
      have hleft : (((RateLimiter.new config).run before).checkAt ip t).2.buckets ip =
          some ⟨((RateLimiter.new config).run before).budget ip t, t, t⟩ := by
        rw [checkAt_spec hsound (le_refl t) (by rw [hconfig]; exact hon), if_neg hempty]
        exact Function.update_self ip _ _
      have henough : 1 ≤ ((RateLimiter.new config).run
          (before ++ (t, .request ip) :: after)).budget ip t' := by
        rw [budget, hconfig, hafter]
        -- the bucket of the refusal is still there, or the address starts over
        rcases run_buckets haway with hsame | hgone
        · rw [hsame, hleft]
          refine le_min ?_ hone
          have hmissing :=
            @le_retryAfterSecs (((RateLimiter.new config).run before).budget ip t) _ hpos
          rw [htold] at hmissing
          have hin : retry * config.refillPerSecond ≤ (t' - t) * config.refillPerSecond :=
            mul_le_mul_of_nonneg_right (by linarith) hpos.le
          exact hmissing.trans (by linarith)
        · rw [hgone]
          exact hone
      rw [checkAt_spec hsound' (le_refl t') (by rw [hconfig]; exact hon), if_pos henough]

/-! ### The window -/

theorem RateLimitConfig.windowBound {config : RateLimitConfig} (hon : config.disabled = false)
    (hfull : (config.burst : ℚ) ≤ config.refillPerSecond * staleAfter) : config.WindowBound := by
  intro events horder ip s T hT
  cases events with
  | nil =>
    rw [log, granted_nil, Nat.cast_zero]
    have hin := mul_nonneg (refillPerSecond_nonneg config) hT
    positivity
  | cons e events =>
    have hpaid := (sound_new config e.1).metered_log hon hfull ip horder fun d hd => by
      rcases List.mem_cons.mp hd with rfl | hd
      · exact le_refl _
      · exact (List.pairwise_cons.mp horder).1 d.1 (List.mem_map_of_mem hd)
    have hbound := hpaid.window_le (s := s) (refillPerSecond_nonneg config) (Nat.cast_nonneg _)
      (le_add_of_nonneg_right hT)
    rwa [add_sub_cancel_left] at hbound

namespace RateLimiter

/-- As many requests at once as there are tokens. -/
theorem Sound.log_replicate {limiter : RateLimiter} {t : ℚ} (h : limiter.Sound t)
    (hon : limiter.config.disabled = false) (ip : IpAddr) (n : Nat)
    (hn : (n : ℚ) ≤ limiter.budget ip t) :
    limiter.log ip (List.replicate n (t, .request ip)) = List.replicate n (t, true) := by
  induction n generalizing limiter with
  | zero => rfl
  | succ n ih =>
    push_cast at hn
    have hone : 1 ≤ limiter.budget ip t := by
      have : (0 : ℚ) ≤ n := Nat.cast_nonneg n
      linarith
    obtain ⟨-, hleft⟩ := budget_checkAt h (le_refl t) hon ip
    have hallowed : (limiter.checkAt ip t).1 = .allowed := by
      rw [checkAt_spec h (le_refl t) hon, if_pos hone]
    rw [hallowed] at hleft
    rw [List.replicate_succ, List.replicate_succ, log, if_pos rfl, hallowed]
    refine congrArg _ (ih (h.step (le_refl t) (.request ip)) ?_ ?_)
    · rw [step_config]
      exact hon
    · rw [RateLimiter.step, hleft]
      have : unit (decide (RateLimitDecision.allowed = .allowed)) = (1 : ℚ) := rfl
      linarith

theorem log_replicate_disabled {limiter : RateLimiter} (hoff : limiter.config.disabled = true)
    (ip : IpAddr) (t : ℚ) (n : Nat) :
    limiter.log ip (List.replicate n (t, .request ip)) = List.replicate n (t, true) := by
  induction n with
  | zero => rfl
  | succ n ih =>
    have hcheck : limiter.checkAt ip t = (.allowed, limiter) := by rw [checkAt, if_pos hoff]
    rw [List.replicate_succ, List.replicate_succ, log, if_pos rfl, step, hcheck, ih]
    rfl

theorem inOrder_replicate (n : Nat) (t : ℚ) (event : Event) :
    InOrder (List.replicate n (t, event)) := by
  rw [InOrder, List.map_replicate]
  exact List.pairwise_replicate.mpr (.inr (le_refl t))

/-- After a burst, a janitor run ten minutes later makes the address start over. -/
theorem budget_forgotten {config : RateLimitConfig} (hon : config.disabled = false)
    (ip : IpAddr) (n : Nat) :
    ((new config).run (List.replicate (n + 1) (0, .request ip) ++
      [(staleAfter, .janitor)])).budget ip staleAfter = config.burst := by
  have hsound : ((new config).run (List.replicate n (0, .request ip))).Sound 0 :=
    sound_run_new config (inOrder_replicate n 0 _) fun e he =>
      le_of_eq (congrArg Prod.fst (List.eq_of_mem_replicate he))
  have hon' : ((new config).run (List.replicate n (0, .request ip))).config.disabled = false := by
    rw [run_config]
    exact hon
  have hseen : ∃ bucket, ((new config).run (List.replicate (n + 1) (0, .request ip))).buckets ip =
      some bucket ∧ bucket.lastSeen = 0 := by
    rw [List.replicate_succ', run_append]
    show ∃ bucket, (((new config).run (List.replicate n (0, .request ip))).checkAt ip 0).2.buckets
      ip = some bucket ∧ bucket.lastSeen = 0
    rw [checkAt_spec hsound (le_refl 0) hon']
    split <;> exact ⟨_, Function.update_self ip _ _, rfl⟩
  obtain ⟨bucket, hb, hzero⟩ := hseen
  rw [run_append]
  show (((new config).run (List.replicate (n + 1) (0, .request ip))).removeStale staleAfter
    staleAfter).budget ip staleAfter = config.burst
  have hgone : (((new config).run (List.replicate (n + 1) (0, .request ip))).removeStale staleAfter
      staleAfter).buckets ip = none := by
    show (((new config).run (List.replicate (n + 1) (0, .request ip))).buckets ip).filter _ = none
    rw [hb]
    refine if_neg fun h => absurd (of_decide_eq_true h) ?_
    rw [durationSince, hzero, sub_zero, not_lt]
    exact le_max_left _ _
  rw [budget, hgone]
  exact congrArg (fun c : RateLimitConfig => (c.burst : ℚ)) (run_config (new config) _)

end RateLimiter

theorem granted_replicate {s e t : ℚ} (n : Nat) (hs : s ≤ t) (he : t ≤ e) :
    granted s e (List.replicate n (t, true)) = n := by
  rw [granted, List.filter_replicate_of_pos (by simp [hs, he]), List.length_replicate]

theorem granted_append (s e : ℚ) (early late : List (ℚ × Bool)) :
    granted s e (early ++ late) = granted s e early + granted s e late := by
  rw [granted, granted, granted, List.filter_append, List.length_append]

/-- The bound fails for a limiter that is off. -/
theorem RateLimitConfig.WindowBound.enabled {config : RateLimitConfig} (h : config.WindowBound) :
    config.disabled = false := by
  cases hon : config.disabled with
  | false => rfl
  | true =>
    have hbound := h (List.replicate (config.burst + 1) (0, .request (.v4 0)))
      (inOrder_replicate _ 0 _) (.v4 0) 0 0 (le_refl 0)
    rw [log_replicate_disabled hon, granted_replicate _ (le_refl _) (by simp)] at hbound
    push_cast at hbound
    linarith

/-- The bound fails where the janitor forgets a bucket before it is full. -/
theorem RateLimitConfig.WindowBound.full {config : RateLimitConfig} (h : config.WindowBound)
    (hburst : 1 ≤ config.burst) : (config.burst : ℚ) ≤ config.refillPerSecond * staleAfter := by
  have hon := h.enabled
  obtain ⟨n, hn⟩ : ∃ n, config.burst = n + 1 := ⟨config.burst - 1, by omega⟩
  have hall : ((n + 1 : Nat) : ℚ) ≤ config.burst := by rw [hn]
  have horder : InOrder (List.replicate (n + 1) (0, .request (.v4 0)) ++ [(staleAfter, .janitor)] ++
      List.replicate (n + 1) (staleAfter, .request (.v4 0))) := by
    have hlong : (0 : ℚ) ≤ staleAfter := by norm_num [staleAfter]
    simp [InOrder, List.pairwise_append, List.pairwise_replicate, hlong]
  have hbound := h _ horder (.v4 0) 0 staleAfter (by norm_num [staleAfter])
  have hearly : ((RateLimiter.new config).log (.v4 0) (List.replicate (n + 1) (0, .request (.v4 0)) ++
      [(staleAfter, .janitor)])) = List.replicate (n + 1) (0, true) := by
    rw [log_append, (sound_new config 0).log_replicate hon (.v4 0) (n + 1) hall]
    exact List.append_nil _
  have hsound := sound_run_new (u := staleAfter) config (List.pairwise_append.mp (by
    rwa [InOrder, List.map_append] at horder)).1 fun e he => by
      rcases List.mem_append.mp he with he | he
      · rw [List.eq_of_mem_replicate he]
        norm_num [staleAfter]
      · rw [List.mem_singleton.mp he]
  have hlate := hsound.log_replicate (by rw [run_config]; exact hon) (.v4 0) (n + 1)
    (hall.trans_eq (budget_forgotten hon (.v4 0) n).symm)
  rw [log_append, hearly, hlate, granted_append, granted_replicate _ (le_refl _)
    (by norm_num [staleAfter]), granted_replicate _ (by norm_num [staleAfter]) (by simp)] at hbound
  rw [hn] at hbound ⊢
  push_cast at hbound ⊢
  linarith

/-- The limiter keeps its bound, and what it tells a client it refuses holds, exactly if it is
on and an idle bucket is full by the time the janitor drops it. -/
theorem RateLimitConfig.bounded_iff (config : RateLimitConfig)
    (hrate : 0 < config.requestsPerMinute) (hburst : 1 ≤ config.burst) :
    config.WindowBound ∧ config.RetryHolds ↔
      config.disabled = false ∧ (config.burst : ℚ) ≤ config.refillPerSecond * staleAfter := by
  constructor
  · rintro ⟨h, -⟩
    exact ⟨h.enabled, h.full hburst⟩
  · rintro ⟨hon, hfull⟩
    exact ⟨windowBound hon hfull, retryHolds hrate hburst⟩

theorem standard_bounded :
    RateLimitConfig.standard.WindowBound ∧ RateLimitConfig.standard.RetryHolds :=
  (RateLimitConfig.bounded_iff .standard (by decide) (by decide)).mpr
    ⟨rfl, by norm_num [RateLimitConfig.standard, RateLimitConfig.refillPerSecond, staleAfter]⟩

/-- One request a minute in bursts of sixty: ten minutes fill a sixth of the bucket. -/
theorem slow_refill_unbounded :
    ¬ ((⟨1, 60, false⟩ : RateLimitConfig).WindowBound ∧
      (⟨1, 60, false⟩ : RateLimitConfig).RetryHolds) := by
  rintro ⟨h, -⟩
  have hfull := h.full (by decide)
  norm_num [RateLimitConfig.refillPerSecond, staleAfter] at hfull

end Deka.Http
