import SocialScraper.Lib.Runs
import SocialScraper.Network.CircuitBreaker
import SocialScraper.Network.RateLimiter
import SocialScraper.Network.RetryStrategy
import SocialScraper.Url
/-!
# The session manager

`app.network.session_manager` with `app.network.network_metrics`. A call of
`request()` suspends at three places: asleep in the rate limiter, in the
transport, and asleep before a retry. An event runs one call from one of them to
the next, at one instant; events of different calls interleave at will.

The locks are held over code without an await, so taking one never suspends.
-/
open Lib

namespace SocialScraper

structure NetworkMetrics where
  totalRequests : ℕ := 0
  successfulRequests : ℕ := 0
  failedRequests : ℕ := 0
  retryCount : ℕ := 0
  totalLatencyMs : ℚ := 0
  openConnections : ℕ := 0
deriving DecidableEq

namespace NetworkMetrics

def recordRequestStart (m : NetworkMetrics) : NetworkMetrics := { m with openConnections := m.openConnections + 1 }

/-- `max(0, open_connections - 1)` is the subtraction of `ℕ`. -/
def recordRequestEnd (m : NetworkMetrics) (startTime now : ℚ) (success : Bool) : NetworkMetrics :=
  { m with
    openConnections := m.openConnections - 1
    totalRequests := m.totalRequests + 1
    totalLatencyMs := m.totalLatencyMs + (now - startTime) * 1000
    successfulRequests := if success then m.successfulRequests + 1 else m.successfulRequests
    failedRequests := if success then m.failedRequests else m.failedRequests + 1 }

def recordRetry (m : NetworkMetrics) : NetworkMetrics := { m with retryCount := m.retryCount + 1 }

end NetworkMetrics

/-- Where a call of `request()` stands. -/
inductive Phase where
  /-- Asleep in `rate_limiter.acquire()` until then. -/
  | acquiring (wakeAt : ℚ)
  /-- In `_client_manager.request`, as the given attempt. -/
  | transport (attempt : ℕ)
  /-- Asleep after the given attempt until then. -/
  | backoff (attempt : ℕ) (wakeAt : ℚ)
  | returned
  | raised (e : NetworkError)
  | cancelled
deriving DecidableEq

def Phase.running : Phase → Bool
  | .acquiring _ | .transport _ | .backoff _ _ => true
  | _ => false

def Phase.inTransport : Phase → Bool
  | .transport _ => true
  | _ => false

structure Request where
  host : Str
  policy : RetryPolicy
  startTime : ℚ
  phase : Phase

/-- An HTTP attempt handed to the transport. -/
structure Attempt where
  host : Str
  time : ℚ
  request : ℕ
  /-- The round of its request's retry loop, from 1; the breaker may have rejected the ones before. -/
  number : ℕ
deriving DecidableEq

/-- What `self._client_manager.request` does. -/
inductive Outcome where
  | response
  /-- `httpx.TimeoutException`. -/
  | timeout
  /-- Any other `httpx.HTTPError`. -/
  | httpError
  | otherException
deriving DecidableEq

/-- `_call`: the exception the outcome becomes. -/
def Outcome.error : Outcome → Option NetworkError
  | .response => none
  | .timeout => some .networkTimeout
  | .httpError => some .networkConnectionError
  | .otherException => some .other

structure SessionConfig where
  settings : Settings
  lib : Stdlib
  /-- `self._retry_policy`. -/
  retryPolicy : RetryPolicy

/-- `except (NetworkConnectionError, NetworkTimeout)`. -/
def networkErrors : NetworkError → Bool
  | .networkConnectionError | .networkTimeout => true
  | _ => false

/-- A session built without arguments. -/
def SessionConfig.default (settings : Settings) (lib : Stdlib) : SessionConfig :=
  ⟨settings, lib, defaultRetryPolicy settings networkErrors⟩

/-- The session with all its calls, the finished ones too. The last two fields are history. -/
structure Session where
  rateLimiters : Str → Option RateLimiter := fun _ => none
  circuitBreakers : Str → Option CircuitBreaker := fun _ => none
  metrics : NetworkMetrics := {}
  requests : List Request := []
  now : ℚ
  attempts : List Attempt := []
  /-- Which breakers entered OPEN, and when; the latest first. -/
  openings : List (Str × ℚ) := []

namespace Session

variable (c : SessionConfig)

/-- `_host_for`. -/
def hostFor (url : Str) : Option Str :=
  (extractDomain c.lib url).map fun d => if d = [] then "default".toList else d

def limiterConfig : LimiterConfig := RateLimiter.config c.settings none none

def breakerConfig (host : Str) : BreakerConfig := CircuitBreaker.config c.settings host none none none

/-- `rate_limiter_for`, for the limiter alone. -/
def limiter (s : Session) (host : Str) : RateLimiter := (s.rateLimiters host).getD (.new (limiterConfig c) s.now)

/-- `circuit_breaker_for`, for the breaker alone. -/
def breaker (s : Session) (host : Str) : CircuitBreaker := (s.circuitBreakers host).getD {}

def setLimiter (s : Session) (host : Str) (l : RateLimiter) : Session :=
  { s with rateLimiters := Function.update s.rateLimiters host (some l) }

/-- The breaker of `host` becomes `b`. -/
def setBreaker (s : Session) (host : Str) (b : CircuitBreaker) : Session :=
  { s with
    circuitBreakers := Function.update s.circuitBreakers host (some b)
    openings := if (s.breaker host).state ≠ .open ∧ b.state = .open then (host, s.now) :: s.openings else s.openings }

def setPhase (s : Session) (k : ℕ) (r : Request) (p : Phase) : Session :=
  { s with requests := s.requests.set k { r with phase := p } }

def setMetrics (s : Session) (m : NetworkMetrics) : Session := { s with metrics := m }

def logAttempt (s : Session) (a : Attempt) : Session := { s with attempts := a :: s.attempts }

/-- The end of `request()`: by a return, or by an exception that is passed on. -/
def leave (s : Session) (k : ℕ) (r : Request) (p : Phase) (success : Bool) : Session :=
  (s.setPhase k r p).setMetrics (s.metrics.recordRequestEnd r.startTime s.now success)

/-- `execute` after the exception `e` of the given attempt. -/
def failAttempt (s : Session) (k : ℕ) (r : Request) (attempt : ℕ) (jitter : ℚ) (e : NetworkError) : Session :=
  match r.policy.afterFailure attempt e with
  | .propagate => s.leave k r (.raised e) false
  | .exceeded => s.leave k r (.raised .retryExceeded) false
  | .backoff =>
    let s := s.setMetrics s.metrics.recordRetry
    if RetryPolicy.delayOverflows attempt then s.leave k r (.raised .other) false
    else s.setPhase k r (.backoff attempt (s.now + r.policy.computeDelay attempt jitter))

/-- `_guarded_call` up to the transport. -/
def guardedCall (s : Session) (k : ℕ) (r : Request) (attempt : ℕ) (jitter : ℚ) : Session :=
  match (s.breaker r.host).beforeCall (breakerConfig c r.host) s.now with
  | (b, .ok ()) =>
    ((s.setBreaker r.host b).setPhase k r (.transport attempt)).logAttempt ⟨r.host, s.now, k, attempt⟩
  -- `CircuitOpen` comes out of the attempt as any other exception does.
  | (b, .error _) => (s.setBreaker r.host b).failAttempt k r attempt jitter .circuitOpen

/-- `execute` from its first attempt. -/
def execute (s : Session) (k : ℕ) (r : Request) (jitter : ℚ) : Session :=
  if 1 ≤ r.policy.maxAttempts then s.guardedCall c k r 1 jitter
  else s.leave k r (.raised .retryExceeded) false

/-- `_rate_limited_call` from a pass of the limiter's loop on. -/
def rateLimitedCall (s : Session) (k : ℕ) (r : Request) (jitter : ℚ) : Session :=
  match (s.limiter c r.host).acquire (limiterConfig c) s.now 1 with
  | (l, none) => (s.setLimiter r.host l).execute c k r jitter
  | (l, some waitTime) => (s.setLimiter r.host l).setPhase k r (.acquiring (s.now + waitTime))

/-- The breaker's and `execute`'s part after the transport is done. -/
def afterTransport (s : Session) (k : ℕ) (r : Request) (attempt : ℕ) (jitter : ℚ) (o : Outcome) : Session :=
  match o.error with
  | none => (s.setBreaker r.host (s.breaker r.host).onSuccess).leave k r .returned true
  | some e =>
    (s.setBreaker r.host ((s.breaker r.host).onFailure (breakerConfig c r.host) s.now)).failAttempt k r attempt jitter e

/-- `request()` before `_rate_limited_call`: the host has a breaker and a limiter from here on. -/
def register (s : Session) (r : Request) : Session :=
  let s := (s.setBreaker r.host (s.breaker r.host)).setLimiter r.host (s.limiter c r.host)
  { s with requests := s.requests ++ [r], metrics := s.metrics.recordRequestStart }

/-- `request()` up to its first suspension; `none` for a URL that `_host_for` cannot parse. -/
def start (s : Session) (url : Str) (policy : Option RetryPolicy) (jitter : ℚ) : Option Session :=
  (hostFor c url).map fun host =>
    let r : Request := ⟨host, policy.getD c.retryPolicy, s.now, .acquiring s.now⟩
    (s.register c r).rateLimitedCall c s.requests.length r jitter

end Session

inductive SessionAction where
  | start (url : Str) (policy : Option RetryPolicy)
  /-- The sleep of a call in the rate limiter is over. -/
  | wakeLimiter (request : ℕ)
  | transportDone (request : ℕ) (o : Outcome)
  /-- The sleep of a call before a retry is over. -/
  | wakeRetry (request : ℕ)
  /-- The task running the call is cancelled. -/
  | cancel (request : ℕ)

structure SessionEvent where
  time : ℚ
  /-- What `random.uniform` returns, if the event draws a backoff. -/
  jitter : ℚ
  action : SessionAction

namespace Session

variable (c : SessionConfig)

/-- The call `k` goes on from its suspension. -/
def resumeFrom (s : Session) (k : ℕ) (r : Request) (jitter : ℚ) : SessionAction → Phase → Option Session
  | .wakeLimiter _, .acquiring wakeAt => if wakeAt ≤ s.now then some (s.rateLimitedCall c k r jitter) else none
  | .transportDone _ o, .transport attempt => some (s.afterTransport c k r attempt jitter o)
  | .wakeRetry _, .backoff attempt wakeAt =>
    if wakeAt ≤ s.now then some (s.guardedCall c k r (attempt + 1) jitter) else none
  | .cancel _, p => if p.running then some (s.setPhase k r .cancelled) else none
  | _, _ => none

def resume (s : Session) (k : ℕ) (jitter : ℚ) (a : SessionAction) : Option Session :=
  s.requests[k]?.bind fun r =>
    if Uniform 0 r.policy.jitter jitter then s.resumeFrom c k r jitter a r.phase else none

def step (s : Session) (e : SessionEvent) : Option Session :=
  if s.now ≤ e.time then
    let s := { s with now := e.time }
    match e.action with
    | .start url policy =>
      if Uniform 0 (policy.getD c.retryPolicy).jitter e.jitter then s.start c url policy e.jitter else none
    | .wakeLimiter k | .transportDone k _ | .wakeRetry k | .cancel k => s.resume c k e.jitter e.action
  else none

/-- A fresh session. -/
def init (now : ℚ) : Session := { now := now }

end Session

end SocialScraper
