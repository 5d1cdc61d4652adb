import Mathlib.Tactic.Linarith
import SocialScraper.Settings
/-!
# The circuit breaker

`app.network.circuit_breaker`. The lock is only held over code without an
await, so each of `_before_call`, `_on_success` and `_on_failure` runs at one
instant, the `now` of its `time.monotonic()`.
-/

namespace SocialScraper

inductive CircuitState where
  | closed | open | halfOpen
deriving DecidableEq, Repr

/-- What `__init__` fixes. -/
structure BreakerConfig where
  name : Str
  failureThreshold : ℕ
  recoveryTimeout : ℚ
  halfOpenMaxCalls : ℕ
deriving DecidableEq

/-- The bounds the settings enforce and the keyword arguments are used with. -/
structure BreakerConfig.Valid (c : BreakerConfig) : Prop where
  failureThreshold : 1 ≤ c.failureThreshold
  recoveryTimeout : 0 < c.recoveryTimeout
  halfOpenMaxCalls : 1 ≤ c.halfOpenMaxCalls

/-- What calls change. -/
structure CircuitBreaker where
  state : CircuitState := .closed
  failureCount : ℕ := 0
  openedAt : ℚ := 0
  halfOpenCalls : ℕ := 0
deriving DecidableEq

/-- The exception `CircuitOpen`. -/
structure CircuitOpen where
  message : Str
deriving DecidableEq

namespace CircuitBreaker

/-- The configuration `CircuitBreaker(name=..., ...)` ends up with. -/
def config (settings : Settings) (name : Str) (failureThreshold : Option ℕ) (recoveryTimeoutSeconds : Option ℚ)
    (halfOpenMaxCalls : Option ℕ) : BreakerConfig where
  name := name
  failureThreshold := orDefault failureThreshold settings.circuitBreakerFailureThreshold
  recoveryTimeout := orDefault recoveryTimeoutSeconds settings.circuitBreakerRecoveryTimeoutSeconds
  halfOpenMaxCalls := orDefault halfOpenMaxCalls settings.circuitBreakerHalfOpenMaxCalls

theorem config_valid (settings : Settings) (name : Str) (ft : Option ℕ) (rt : Option ℚ) (hm : Option ℕ)
    (hrt : ∀ t, rt = some t → 0 ≤ t) : (config settings name ft rt hm).Valid where
  failureThreshold := orDefault_pos settings.failureThreshold_ge fun _ _ => Nat.pos_of_ne_zero
  recoveryTimeout := orDefault_pos settings.recoveryTimeout_gt fun t h hne => lt_of_le_of_ne (hrt t h) (Ne.symm hne)
  halfOpenMaxCalls := orDefault_pos settings.halfOpenMaxCalls_ge fun _ _ => Nat.pos_of_ne_zero

variable (c : BreakerConfig) (now : ℚ) (b : CircuitBreaker)

/-- The second `if` of `_before_call`: in HALF_OPEN a call takes a slot. -/
def takeSlot : CircuitBreaker × Except CircuitOpen Unit :=
  if b.state = .halfOpen then
    if b.halfOpenCalls ≥ c.halfOpenMaxCalls then
      (b, .error ⟨"Circuit '".toList ++ c.name ++ "' is half-open and at capacity".toList⟩)
    else ({ b with halfOpenCalls := b.halfOpenCalls + 1 }, .ok ())
  else (b, .ok ())

/-- `_before_call`: the breaker after it, and whether it raised. -/
def beforeCall : CircuitBreaker × Except CircuitOpen Unit :=
  if b.state = .open then
    if now - b.openedAt ≥ c.recoveryTimeout then
      -- The second `if` sees the new state.
      takeSlot c { b with state := .halfOpen, halfOpenCalls := 0 }
    else (b, .error ⟨"Circuit '".toList ++ c.name ++ "' is open".toList⟩)
  else takeSlot c b

/-- `_on_success`, whatever the state. -/
def onSuccess : CircuitBreaker := { b with failureCount := 0, state := .closed }

/-- `_on_failure`. -/
def onFailure : CircuitBreaker :=
  let b := { b with failureCount := b.failureCount + 1 }
  if b.state = .halfOpen then { b with state := .open, openedAt := now }
  else if b.failureCount ≥ c.failureThreshold then { b with state := .open, openedAt := now }
  else b

/-- Whether `_before_call` lets a call through. -/
def admits : Bool := (beforeCall c now b).2.isOk

/-- Everything `_before_call` can do: let the call through as it is (CLOSED),
as the first of a new half-open period, or on a free slot; or reject it and
change nothing. -/
inductive BeforeCall (c : BreakerConfig) (now : ℚ) (b : CircuitBreaker) : CircuitBreaker × Except CircuitOpen Unit → Prop
  | closed (h : b.state = .closed) : BeforeCall c now b (b, .ok ())
  | recovers (h : b.state = .open) (ht : b.openedAt + c.recoveryTimeout ≤ now) :
      BeforeCall c now b ({ b with state := .halfOpen, halfOpenCalls := 1 }, .ok ())
  | slot (h : b.state = .halfOpen) (hs : b.halfOpenCalls < c.halfOpenMaxCalls) :
      BeforeCall c now b ({ b with halfOpenCalls := b.halfOpenCalls + 1 }, .ok ())
  | isOpen (h : b.state = .open) (ht : now < b.openedAt + c.recoveryTimeout) (e : CircuitOpen) :
      BeforeCall c now b (b, .error e)
  | atCapacity (h : b.state = .halfOpen) (hs : c.halfOpenMaxCalls ≤ b.halfOpenCalls) (e : CircuitOpen) :
      BeforeCall c now b (b, .error e)

theorem beforeCall_spec (hm : 1 ≤ c.halfOpenMaxCalls) : BeforeCall c now b (beforeCall c now b) := by
  unfold beforeCall
  split_ifs with ho ht
  · have hm0 : ¬ c.halfOpenMaxCalls = 0 := by omega
    simpa [takeSlot, hm0] using BeforeCall.recovers (c := c) ho (by linarith)
  · exact .isOpen ho (by linarith) _
  · unfold takeSlot
    split_ifs with hh hs
    · exact .atCapacity hh hs _
    · exact .slot hh (by omega)
    · cases hb : b.state with
      | closed => exact .closed hb
      | «open» => exact absurd hb ho
      | halfOpen => exact absurd hb hh

/-- Everything `_on_failure` can do: count, or count and (re)open. -/
theorem onFailure_spec :
    (onFailure c now b = { b with failureCount := b.failureCount + 1, state := .open, openedAt := now }) ∨
    (b.state ≠ .halfOpen ∧ b.failureCount + 1 < c.failureThreshold ∧
      onFailure c now b = { b with failureCount := b.failureCount + 1 }) := by
  unfold onFailure
  dsimp only
  split_ifs with hh hf
  · exact .inl rfl
  · exact .inl rfl
  · exact .inr ⟨hh, by omega, rfl⟩

end CircuitBreaker

end SocialScraper
