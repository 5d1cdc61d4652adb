import SocialScraper.Lib.Runs
import SocialScraper.Lib.TokenBucket
import SocialScraper.Settings
/-!
# The rate limiter

`app.network.rate_limiter`. A pass of the loop in `acquire` runs under the lock
without an await, so at one instant; a caller that finds too few tokens sleeps
and takes another pass when it wakes. Arithmetic is exact.
-/
open Lib

namespace SocialScraper

/-- What `__init__` fixes. -/
structure LimiterConfig where
  rate : ℚ
  capacity : ℚ
deriving DecidableEq

/-- The bounds the settings enforce and the keyword arguments are used with. -/
structure LimiterConfig.Valid (c : LimiterConfig) : Prop where
  rate : 0 < c.rate
  capacity : 1 ≤ c.capacity

structure RateLimiter where
  tokens : ℚ
  updatedAt : ℚ
deriving DecidableEq

namespace RateLimiter

/-- The configuration `RateLimiter(requests_per_second=..., burst=...)` ends up with. -/
def config (settings : Settings) (requestsPerSecond : Option ℚ) (burst : Option ℕ) : LimiterConfig where
  rate := orDefault requestsPerSecond settings.rateLimitRequestsPerSecond
  capacity := (orDefault burst settings.rateLimitBurst : ℕ)

theorem config_valid (settings : Settings) (rps : Option ℚ) (burst : Option ℕ) (hr : ∀ r, rps = some r → 0 ≤ r) :
    (config settings rps burst).Valid where
  rate := orDefault_pos settings.requestsPerSecond_gt fun r h hne => lt_of_le_of_ne (hr r h) (Ne.symm hne)
  capacity := by
    have : 0 < orDefault burst settings.rateLimitBurst := orDefault_pos settings.burst_ge fun _ _ => Nat.pos_of_ne_zero
    exact Nat.one_le_cast.2 this

/-- `__init__` at time `now`: a full bucket. -/
def new (c : LimiterConfig) (now : ℚ) : RateLimiter := ⟨c.capacity, now⟩

/-- One pass of the loop in `acquire`: the limiter after it, and `none` if the
tokens were granted or the `wait_time` to sleep. -/
def acquire (c : LimiterConfig) (now tokens : ℚ) (l : RateLimiter) : RateLimiter × Option ℚ :=
  let elapsed := now - l.updatedAt
  let l := { l with tokens := min c.capacity (l.tokens + elapsed * c.rate), updatedAt := now }
  if l.tokens ≥ tokens then ({ l with tokens := l.tokens - tokens }, none)
  else
    let deficit := tokens - l.tokens
    (l, some (deficit / c.rate))

/-- The limiter as a token bucket. -/
def bucket (l : RateLimiter) : Bucket ℚ := ⟨l.tokens, l.updatedAt⟩

/-- A pass for one token refills the bucket, then takes from it or waits. -/
theorem acquire_spec (c : LimiterConfig) (now : ℚ) (l : RateLimiter) :
    (1 ≤ (l.bucket.refill c.rate c.capacity now).tokens ∧ (l.acquire c now 1).2 = none ∧
      (l.acquire c now 1).1.bucket = (l.bucket.refill c.rate c.capacity now).take) ∨
    (∃ w, (l.acquire c now 1).2 = some w ∧ (l.acquire c now 1).1.bucket = l.bucket.refill c.rate c.capacity now) := by
  unfold acquire
  dsimp only
  split_ifs with h
  · exact .inl ⟨h, rfl, rfl⟩
  · exact .inr ⟨_, rfl, rfl⟩

theorem acquire_updatedAt (c : LimiterConfig) (now tokens : ℚ) (l : RateLimiter) :
    (l.acquire c now tokens).1.updatedAt = now := by
  unfold acquire
  dsimp only
  split_ifs <;> rfl

/-- Whoever sleeps for `wait_time` finds a token, if nobody took one meanwhile. -/
theorem acquire_after_wait {c : LimiterConfig} (hc : c.Valid) {l l' : RateLimiter} {now wait : ℚ}
    (h : l.acquire c now 1 = (l', some wait)) : 0 ≤ wait ∧ (l'.acquire c (now + wait) 1).2 = none := by
  unfold acquire at h
  dsimp only at h
  split_ifs at h with henough
  · cases (Prod.mk.inj h).2
  · obtain ⟨rfl, hwait⟩ := Prod.mk.inj h
    obtain rfl := Option.some.inj hwait
    generalize min c.capacity (l.tokens + (now - l.updatedAt) * c.rate) = tokens at henough
    have hrate := hc.rate
    have hrefill : tokens + (now + (1 - tokens) / c.rate - now) * c.rate = 1 := by
      rw [add_sub_cancel_left, div_mul_cancel₀ _ hrate.ne', add_sub_cancel]
    refine ⟨div_nonneg (by linarith [not_le.1 henough]) hrate.le, ?_⟩
    unfold acquire
    dsimp only
    rw [hrefill, if_pos (le_min hc.capacity le_rfl)]

/-- The books of a limiter that granted a token at each of the times `grants`. -/
def Account (c : LimiterConfig) (l : RateLimiter) (grants : List ℚ) : Prop :=
  Bucket.Account c.rate c.capacity l.bucket grants

theorem account_new {c : LimiterConfig} (hc : c.Valid) (now : ℚ) : Account c (new c now) [] :=
  Bucket.Account.full hc.rate.le (zero_le_one.trans hc.capacity) now

/-- The times of the grants after a pass at `now`. -/
def granted (now : ℚ) (wait : Option ℚ) (grants : List ℚ) : List ℚ :=
  if wait = none then now :: grants else grants

theorem account_acquire {c : LimiterConfig} (hc : c.Valid) {l : RateLimiter} {grants : List ℚ} (h : Account c l grants)
    {now : ℚ} (hn : l.updatedAt ≤ now) :
    Account c (l.acquire c now 1).1 (granted now (l.acquire c now 1).2 grants) := by
  have hf := Bucket.Account.refill h hc.rate.le hn
  unfold Account
  rcases acquire_spec c now l with ⟨h1, hw, hb⟩ | ⟨w, hw, hb⟩
  · rw [hw, hb, granted, if_pos rfl]
    exact hf.take hc.rate.le h1
  · rw [hw, hb, granted, if_neg (Option.some_ne_none w)]
    exact hf

end RateLimiter

/-! ## Concurrent acquires -/

/-- A caller asleep in `acquire`. -/
structure Waiter where
  id : ℕ
  wakeAt : ℚ
deriving DecidableEq

inductive AcquireAction where
  | acquire (id : ℕ)
  | wake (w : Waiter)
  /-- The sleep is cancelled. -/
  | cancel (w : Waiter)
deriving DecidableEq

structure AcquireEvent where
  time : ℚ
  action : AcquireAction
deriving DecidableEq

/-- A limiter with the calls of `acquire()` on it; `grants` is history. -/
structure Acquires where
  limiter : RateLimiter
  now : ℚ
  waiting : List Waiter := []
  grants : List ℚ := []
deriving DecidableEq

namespace Acquires

/-- A pass of the caller `id` at `now`. -/
def pass (c : LimiterConfig) (s : Acquires) (now : ℚ) (id : ℕ) : Acquires :=
  let r := s.limiter.acquire c now 1
  { limiter := r.1, now := now
    waiting := match r.2 with
      | none => s.waiting
      | some w => ⟨id, now + w⟩ :: s.waiting
    grants := RateLimiter.granted now r.2 s.grants }

def step (c : LimiterConfig) (s : Acquires) (e : AcquireEvent) : Option Acquires :=
  if s.now ≤ e.time then
    match e.action with
    | .acquire id => some (s.pass c e.time id)
    | .wake w =>
      if w ∈ s.waiting ∧ w.wakeAt ≤ e.time then some ({ s with waiting := s.waiting.erase w }.pass c e.time w.id)
      else none
    | .cancel w => if w ∈ s.waiting then some { s with now := e.time, waiting := s.waiting.erase w } else none
  else none

/-- A fresh limiter, nobody waiting. -/
def init (c : LimiterConfig) (now : ℚ) : Acquires := { limiter := .new c now, now := now }

structure Inv (c : LimiterConfig) (s : Acquires) : Prop where
  account : RateLimiter.Account c s.limiter s.grants
  past : s.limiter.updatedAt ≤ s.now

theorem inv_pass {c : LimiterConfig} (hc : c.Valid) {s : Acquires} (hi : Inv c s) {t : ℚ} (ht : s.now ≤ t) (id : ℕ) :
    Inv c (s.pass c t id) where
  account := RateLimiter.account_acquire hc hi.account (hi.past.trans ht)
  past := (RateLimiter.acquire_updatedAt c t 1 s.limiter).le

theorem inv_step {c : LimiterConfig} (hc : c.Valid) {s s' : Acquires} {e : AcquireEvent} (hi : Inv c s)
    (h : step c s e = some s') : Inv c s' := by
  unfold step at h
  split_ifs at h with ht
  cases ha : e.action with
  | acquire id =>
    simp only [ha, Option.some.injEq] at h
    exact h ▸ inv_pass hc hi ht id
  | wake w =>
    simp only [ha] at h
    split_ifs at h with hw
    simp only [Option.some.injEq] at h
    exact h ▸ inv_pass hc (s := { s with waiting := s.waiting.erase w }) ⟨hi.account, hi.past⟩ ht w.id
  | cancel w =>
    simp only [ha] at h
    split_ifs at h with hw
    simp only [Option.some.injEq] at h
    exact h ▸ ⟨hi.account, hi.past.trans ht⟩

theorem inv_reachable {c : LimiterConfig} (hc : c.Valid) {now : ℚ} {s : Acquires}
    (h : Reachable (Fires (step c)) (init c now) s) : Inv c s :=
  h.inv (Inv c) ⟨RateLimiter.account_new hc now, le_refl _⟩ fun _ _ _ hi hs => inv_step hc hi hs

/-- However acquires interleave, at most `capacity + rate * (t - s)` of them
are granted in `[s, t]`, and the level stays between 0 and the capacity. -/
theorem grants_bounded (c : LimiterConfig) (hr : 0 < c.rate) (hc : 1 ≤ c.capacity) (now : ℚ) (a : Acquires)
    (h : Reachable (Fires (step c)) (init c now) a) :
    (∀ s t, s ≤ t → ((a.grants.countP fun g => s ≤ g && g ≤ t : ℕ) : ℚ) ≤ c.capacity + c.rate * (t - s)) ∧
    0 ≤ a.limiter.tokens ∧ a.limiter.tokens ≤ c.capacity := by
  have hi := (inv_reachable ⟨hr, hc⟩ h).account
  exact ⟨hi.window, hi.nonneg, hi.le_cap⟩

/-- One token per second, two at once: two acquires at 0 are granted, the
third waits until 1. -/
theorem grants_bounded_burst :
    let c : LimiterConfig := ⟨1, 2⟩
    let a : Acquires := { limiter := ⟨0, 1⟩, now := 1, grants := [1, 0, 0] }
    (∀ s t, s ≤ t → ((a.grants.countP fun g => s ≤ g && g ≤ t : ℕ) : ℚ) ≤ c.capacity + c.rate * (t - s)) ∧
    0 ≤ a.limiter.tokens ∧ a.limiter.tokens ≤ c.capacity :=
  grants_bounded ⟨1, 2⟩ (by decide +kernel) (by decide +kernel) 0 _
    (reachable_of_exec [⟨0, .acquire 0⟩, ⟨0, .acquire 1⟩, ⟨0, .acquire 2⟩, ⟨1, .wake ⟨2, 1⟩⟩] (by decide +kernel))

end Acquires

end SocialScraper
