import SocialScraper.Lib.Runs
import SocialScraper.Network.CircuitBreaker
/-!
# Concurrent calls through one breaker

`CircuitBreaker.call` is an admission (`_before_call`), then the wrapped
function for any time, then its end: `_on_success`, `_on_failure`, or nothing
when it is cancelled (`CancelledError` is no `Exception`). Calls interleave at
will; the clock never goes back.

`Effect` is everything one event can do. The theorems are case analyses over it.
-/

namespace SocialScraper

/-- A call between its admission and its end. -/
structure InFlight where
  id : ℕ
  /-- The breaker's state that admitted it: CLOSED or HALF_OPEN. -/
  admittedIn : CircuitState
  /-- The half-open period it was admitted in (or after). -/
  period : ℕ
deriving DecidableEq

/-- How a wrapped function ends. -/
inductive Ending where
  | returned | raised | cancelled
deriving DecidableEq

inductive CallAction where
  | call (id : ℕ)
  | finish (f : InFlight) (e : Ending)
deriving DecidableEq

structure CallEvent where
  time : ℚ
  action : CallAction
deriving DecidableEq

/-- A breaker with the calls on it. The last four fields are history. -/
structure Calls where
  breaker : CircuitBreaker := {}
  now : ℚ
  inFlight : List InFlight := []
  /-- How often the breaker went from OPEN to HALF_OPEN. -/
  period : ℕ := 0
  /-- Trials of the running half-open period cancelled while it runs. -/
  lostTrials : ℕ := 0
  /-- When the breaker entered OPEN. -/
  openings : List ℚ := []
  /-- When a call was admitted. -/
  admissions : List ℚ := []
deriving DecidableEq

namespace Calls

/-- A call that holds a slot of the half-open period `p`. -/
def isTrialOf (p : ℕ) (f : InFlight) : Bool := f.admittedIn = .halfOpen && f.period = p

/-- A call admitted in HALF_OPEN, in whatever period. -/
def isTrial (f : InFlight) : Bool := f.admittedIn = .halfOpen

def trials (s : Calls) : ℕ := s.inFlight.countP isTrial

/-- The breaker becomes `b` at time `t`; the history follows. -/
def move (s : Calls) (t : ℚ) (b : CircuitBreaker) : Calls :=
  let recovers := s.breaker.state = .open ∧ b.state = .halfOpen
  { s with
    breaker := b, now := t
    period := if recovers then s.period + 1 else s.period
    lostTrials := if recovers then 0 else s.lostTrials
    openings := if s.breaker.state ≠ .open ∧ b.state = .open then t :: s.openings else s.openings }

/-- `CircuitBreaker.call` up to the wrapped function. A rejected call is over. -/
def call (c : BreakerConfig) (s : Calls) (t : ℚ) (id : ℕ) : Calls :=
  match s.breaker.beforeCall c t with
  | (b, .ok ()) =>
    let s' := s.move t b
    { s' with inFlight := ⟨id, b.state, s'.period⟩ :: s.inFlight, admissions := t :: s.admissions }
  | (b, .error _) => s.move t b

/-- `CircuitBreaker.call` from the end of the wrapped function. -/
def finish (c : BreakerConfig) (s : Calls) (t : ℚ) (f : InFlight) : Ending → Calls
  | .returned => { s.move t s.breaker.onSuccess with inFlight := s.inFlight.erase f }
  | .raised => { s.move t (s.breaker.onFailure c t) with inFlight := s.inFlight.erase f }
  | .cancelled =>
    { s.move t s.breaker with
      inFlight := s.inFlight.erase f
      lostTrials := if s.breaker.state = .halfOpen ∧ isTrialOf s.period f then s.lostTrials + 1 else s.lostTrials }

def step (c : BreakerConfig) (s : Calls) (e : CallEvent) : Option Calls :=
  if s.now ≤ e.time then
    match e.action with
    | .call id => some (s.call c e.time id)
    | .finish f how => if f ∈ s.inFlight then some (s.finish c e.time f how) else none
  else none

/-- A fresh breaker, no calls. -/
def init (now : ℚ) : Calls := { now := now }

/-- Everything an event can do. -/
inductive Effect (c : BreakerConfig) (s : Calls) : CallEvent → Calls → Prop
  | rejected {t i} (ht : s.now ≤ t)
      (why : (s.breaker.state = .open ∧ t < s.breaker.openedAt + c.recoveryTimeout) ∨
        (s.breaker.state = .halfOpen ∧ c.halfOpenMaxCalls ≤ s.breaker.halfOpenCalls)) :
      Effect c s ⟨t, .call i⟩ { s with now := t }
  | admitted {t i} (ht : s.now ≤ t) (hb : s.breaker.state = .closed) :
      Effect c s ⟨t, .call i⟩
        { s with now := t, inFlight := ⟨i, .closed, s.period⟩ :: s.inFlight, admissions := t :: s.admissions }
  | recovers {t i} (ht : s.now ≤ t) (hb : s.breaker.state = .open)
      (hr : s.breaker.openedAt + c.recoveryTimeout ≤ t) :
      Effect c s ⟨t, .call i⟩
        { s with
          breaker := { s.breaker with state := .halfOpen, halfOpenCalls := 1 }, now := t, period := s.period + 1
          lostTrials := 0, inFlight := ⟨i, .halfOpen, s.period + 1⟩ :: s.inFlight, admissions := t :: s.admissions }
  | slot {t i} (ht : s.now ≤ t) (hb : s.breaker.state = .halfOpen)
      (hs : s.breaker.halfOpenCalls < c.halfOpenMaxCalls) :
      Effect c s ⟨t, .call i⟩
        { s with
          breaker := { s.breaker with halfOpenCalls := s.breaker.halfOpenCalls + 1 }, now := t
          inFlight := ⟨i, .halfOpen, s.period⟩ :: s.inFlight, admissions := t :: s.admissions }
  | succeeds {t f} (ht : s.now ≤ t) (hf : f ∈ s.inFlight) :
      Effect c s ⟨t, .finish f .returned⟩
        { s with
          breaker := { s.breaker with failureCount := 0, state := .closed }, now := t, inFlight := s.inFlight.erase f }
  | opens {t f} (ht : s.now ≤ t) (hf : f ∈ s.inFlight) :
      Effect c s ⟨t, .finish f .raised⟩
        { s with
          breaker := { s.breaker with failureCount := s.breaker.failureCount + 1, state := .open, openedAt := t }
          now := t, inFlight := s.inFlight.erase f
          openings := if s.breaker.state = .open then s.openings else t :: s.openings }
  | counts {t f} (ht : s.now ≤ t) (hf : f ∈ s.inFlight) (hb : s.breaker.state ≠ .halfOpen)
      (hc : s.breaker.failureCount + 1 < c.failureThreshold) :
      Effect c s ⟨t, .finish f .raised⟩
        { s with
          breaker := { s.breaker with failureCount := s.breaker.failureCount + 1 }, now := t
          inFlight := s.inFlight.erase f }
  | cancels {t f} (ht : s.now ≤ t) (hf : f ∈ s.inFlight) :
      Effect c s ⟨t, .finish f .cancelled⟩
        { s with
          now := t, inFlight := s.inFlight.erase f
          lostTrials := if s.breaker.state = .halfOpen ∧ isTrialOf s.period f then s.lostTrials + 1 else s.lostTrials }

theorem move_same (s : Calls) (t : ℚ) (b : CircuitBreaker) (h : b.state = s.breaker.state) :
    s.move t b = { s with breaker := b, now := t } := by
  unfold move
  rw [h]
  cases s.breaker.state <;> simp

theorem effect_call {c : BreakerConfig} (hm : 1 ≤ c.halfOpenMaxCalls) {s : Calls} {t : ℚ} (ht : s.now ≤ t) (id : ℕ) :
    Effect c s ⟨t, .call id⟩ (s.call c t id) := by
  have h := CircuitBreaker.beforeCall_spec c t s.breaker hm
  unfold call
  generalize s.breaker.beforeCall c t = r at h ⊢
  cases h with
  | closed hb => simpa [move_same, hb] using Effect.admitted (c := c) (i := id) ht hb
  | recovers hb hr => simpa [move, hb] using Effect.recovers (c := c) (i := id) ht hb hr
  | slot hb hs => simpa [move_same, hb] using Effect.slot (i := id) ht hb hs
  | isOpen hb hr => simpa [move_same] using Effect.rejected (i := id) ht (.inl ⟨hb, hr⟩)
  | atCapacity hb hs => simpa [move_same] using Effect.rejected (i := id) ht (.inr ⟨hb, hs⟩)

theorem effect_finish (c : BreakerConfig) {s : Calls} {t : ℚ} (ht : s.now ≤ t) {f : InFlight} (hf : f ∈ s.inFlight)
    (e : Ending) : Effect c s ⟨t, .finish f e⟩ (s.finish c t f e) := by
  cases e with
  | returned => simpa [finish, move, CircuitBreaker.onSuccess] using Effect.succeeds (c := c) ht hf
  | raised =>
    rcases CircuitBreaker.onFailure_spec c t s.breaker with h | ⟨hb, hc, h⟩
    · by_cases ho : s.breaker.state = .open <;>
        simpa [finish, h, move, ho] using Effect.opens (c := c) ht hf
    · simpa [finish, h, move_same] using Effect.counts ht hf hb hc
  | cancelled => simpa [finish, move_same] using Effect.cancels (c := c) ht hf

/-- An event does one of the things `Effect` lists. -/
theorem effect_of {c : BreakerConfig} (hm : 1 ≤ c.halfOpenMaxCalls) {s s' : Calls} {e : CallEvent}
    (h : step c s e = some s') : Effect c s e s' := by
  obtain ⟨t, a⟩ := e
  unfold step at h
  split_ifs at h with ht
  cases a with
  | call id =>
    simp only [Option.some.injEq] at h
    exact h ▸ effect_call hm ht id
  | finish f how =>
    dsimp only at h
    split_ifs at h with hf
    simp only [Option.some.injEq] at h
    exact h ▸ effect_finish c ht hf how

theorem effect_time {c : BreakerConfig} {s s' : Calls} {e : CallEvent} (h : Effect c s e s') :
    s.now ≤ e.time ∧ s'.now = e.time := by
  cases h <;> exact ⟨‹_›, rfl⟩

end Calls

end SocialScraper
