import SocialScraper.Network.BreakerCalls
/-!
# Closed exactly below the threshold

A failure is counted in every state and only a success forgets, so the count is
that of the failures since the last success. The state follows it: HALF_OPEN
comes only from OPEN, and the count stays at the threshold or above until a
success (`AtThreshold`).
-/
open Lib

namespace SocialScraper

namespace CircuitBreaker

/-- CLOSED below the threshold, and only there. -/
def AtThreshold (c : BreakerConfig) (b : CircuitBreaker) : Prop := b.state = .closed ↔ b.failureCount < c.failureThreshold

variable {c : BreakerConfig} {b : CircuitBreaker}

/-- `_before_call` counts nothing, and neither leaves CLOSED nor enters it. -/
theorem beforeCall_count (c : BreakerConfig) (now : ℚ) (b : CircuitBreaker) :
    (b.beforeCall c now).1.failureCount = b.failureCount ∧
      ((b.beforeCall c now).1.state = .closed ↔ b.state = .closed) := by
  unfold beforeCall takeSlot
  split_ifs with ho <;> simp_all

theorem atThreshold_onSuccess (ht : 1 ≤ c.failureThreshold) : AtThreshold c b.onSuccess := iff_of_true rfl ht

theorem onFailure_count (c : BreakerConfig) (now : ℚ) (b : CircuitBreaker) :
    (b.onFailure c now).failureCount = b.failureCount + 1 := by
  rcases onFailure_spec c now b with h | ⟨-, -, h⟩ <;> rw [h]

theorem atThreshold_onFailure (now : ℚ) (h : AtThreshold c b) : AtThreshold c (b.onFailure c now) := by
  unfold onFailure
  dsimp only
  split_ifs with hh hf
  · -- HALF_OPEN: the threshold was passed before the breaker opened.
    have hge : ¬ b.failureCount < c.failureThreshold := fun hlt => by
      rw [h.2 hlt] at hh
      cases hh
    exact iff_of_false nofun (by dsimp only; omega)
  · exact iff_of_false nofun (not_lt.2 hf)
  · exact iff_of_true (h.2 (by omega)) (not_le.1 hf)

end CircuitBreaker

/-! ## Along a run -/

/-- The wrapped function raised an `Exception`. -/
def CallEvent.raised (e : CallEvent) : Bool :=
  match e.action with
  | .finish _ .raised => true
  | _ => false

/-- The wrapped function returned. -/
def CallEvent.returned (e : CallEvent) : Bool :=
  match e.action with
  | .finish _ .returned => true
  | _ => false

/-- The calls of a run that completed with an `Exception` since the last one that returned. -/
def failuresSinceSuccess (events : List CallEvent) : ℕ := (events.reverse.takeWhile (!·.returned)).countP CallEvent.raised

theorem failuresSinceSuccess_concat (events : List CallEvent) (e : CallEvent) : failuresSinceSuccess (events ++ [e]) =
    if e.returned then 0 else failuresSinceSuccess events + if e.raised then 1 else 0 := by
  unfold failuresSinceSuccess
  rw [List.reverse_append, List.reverse_singleton, List.singleton_append, List.takeWhile_cons]
  cases e.returned with
  | true => rfl
  | false => exact List.countP_cons

namespace Calls

variable {c : BreakerConfig} {s s' : Calls}

theorem call_breaker (t : ℚ) (id : ℕ) : (s.call c t id).breaker = (s.breaker.beforeCall c t).1 := by
  unfold call
  rcases s.breaker.beforeCall c t with ⟨b, _ | _⟩ <;> rfl

/-- What an event does to the count and to the threshold. -/
theorem count_step {e : CallEvent} (h : step c s e = some s') :
    s'.breaker.failureCount = (if e.returned then 0 else s.breaker.failureCount + if e.raised then 1 else 0) ∧
      (1 ≤ c.failureThreshold → s.breaker.AtThreshold c → s'.breaker.AtThreshold c) := by
  obtain ⟨t, a⟩ := e
  obtain ⟨-, h⟩ := Option.ite_none_right_eq_some.1 h
  cases a with
  | call i =>
    obtain rfl := Option.some.inj h
    obtain ⟨hcount, hclosed⟩ := CircuitBreaker.beforeCall_count c t s.breaker
    unfold CircuitBreaker.AtThreshold
    rw [call_breaker, hcount, hclosed]
    exact ⟨rfl, fun _ => id⟩
  | finish f how =>
    obtain ⟨-, h⟩ := Option.ite_none_right_eq_some.1 h
    obtain rfl := Option.some.inj h
    cases how with
    | returned => exact ⟨rfl, fun ht _ => CircuitBreaker.atThreshold_onSuccess ht⟩
    | raised => exact ⟨CircuitBreaker.onFailure_count c t s.breaker, fun _ => CircuitBreaker.atThreshold_onFailure t⟩
    | cancelled => exact ⟨rfl, fun _ => id⟩

/-- After every run, `_failure_count` is the number of calls that failed since the last one that returned, and the
breaker is CLOSED exactly while that is below the threshold. A rejected call never ran, so it is no failure. -/
theorem closed_iff_below_threshold (c : BreakerConfig) (hc : c.Valid) (now : ℚ) (events : List CallEvent) (s : Calls)
    (h : Steps (Fires (step c)) (init now) events s) :
    s.breaker.failureCount = failuresSinceSuccess events ∧
      (s.breaker.state = .closed ↔ failuresSinceSuccess events < c.failureThreshold) := by
  have both : s.breaker.failureCount = failuresSinceSuccess events ∧ s.breaker.AtThreshold c := by
    induction h with
    | nil => exact ⟨rfl, iff_of_true rfl hc.failureThreshold⟩
    | snoc _ hs ih =>
      obtain ⟨hcount, hthreshold⟩ := count_step hs
      refine ⟨?_, hthreshold hc.failureThreshold ih.2⟩
      rw [hcount, failuresSinceSuccess_concat, ih.1]
  obtain ⟨hcount, hthreshold⟩ := both
  rw [← hcount]
  exact ⟨rfl, hthreshold⟩

/-- Two calls fail, the second when the breaker is open already; the third was let through by the half-open breaker and
is cancelled. -/
theorem closed_iff_below_threshold_late :
    let c : BreakerConfig := ⟨"host".toList, 1, 10, 1⟩
    let events : List CallEvent := [⟨0, .call 0⟩, ⟨0, .call 1⟩, ⟨1, .finish ⟨0, .closed, 0⟩ .raised⟩,
      ⟨2, .finish ⟨1, .closed, 0⟩ .raised⟩, ⟨12, .call 2⟩, ⟨13, .finish ⟨2, .halfOpen, 1⟩ .cancelled⟩]
    ∃ s, Steps (Fires (step c)) (init 0) events s ∧ s.breaker.failureCount = failuresSinceSuccess events ∧
      (s.breaker.state = .closed ↔ failuresSinceSuccess events < 1) := by
  intro c events
  obtain ⟨s, hs⟩ : ∃ s, exec (step c) (init 0) events = some s := Option.isSome_iff_exists.1 (by decide +kernel)
  exact ⟨s, steps_of_exec hs, closed_iff_below_threshold c ⟨by decide, by decide +kernel, by decide⟩ 0 events s
    (steps_of_exec hs)⟩

end Calls

end SocialScraper
