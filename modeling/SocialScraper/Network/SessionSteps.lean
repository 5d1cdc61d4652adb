import SocialScraper.Network.Session
/-!
# What a session event can do

`Effect` is everything an event does to a session, in terms of the pieces of
`request()`; the lemmas after it say what each piece leaves alone.
-/
open Lib

namespace SocialScraper.Session

variable (c : SessionConfig)

/-- Everything a session event can do, at its time. -/
inductive Effect (s : Session) : SessionEvent → Session → Prop
  | starts {t j url policy host s'} (ht : s.now ≤ t) (hu : hostFor c url = some host)
      (hs : { s with now := t }.start c url policy j = some s') : Effect s ⟨t, j, .start url policy⟩ s'
  | acquires {t j k r w} (ht : s.now ≤ t) (hk : s.requests[k]? = some r) (hp : r.phase = .acquiring w) :
      Effect s ⟨t, j, .wakeLimiter k⟩ ({ s with now := t }.rateLimitedCall c k r j)
  | finishes {t j k r n o} (ht : s.now ≤ t) (hk : s.requests[k]? = some r) (hp : r.phase = .transport n) :
      Effect s ⟨t, j, .transportDone k o⟩ ({ s with now := t }.afterTransport c k r n j o)
  | retries {t j k r n w} (ht : s.now ≤ t) (hk : s.requests[k]? = some r) (hp : r.phase = .backoff n w) :
      Effect s ⟨t, j, .wakeRetry k⟩ ({ s with now := t }.guardedCall c k r (n + 1) j)
  | cancels {t j k r} (ht : s.now ≤ t) (hk : s.requests[k]? = some r) (hp : r.phase.running = true) :
      Effect s ⟨t, j, .cancel k⟩ ({ s with now := t }.setPhase k r .cancelled)

theorem resume_some {s s' : Session} {k : ℕ} {j : ℚ} {a : SessionAction} (h : s.resume c k j a = some s') :
    ∃ r, s.requests[k]? = some r ∧ s.resumeFrom c k r j a r.phase = some s' := by
  obtain ⟨r, hk, h⟩ := Option.bind_eq_some_iff.1 h
  split_ifs at h
  exact ⟨r, hk, h⟩

theorem effect_of {s s' : Session} {e : SessionEvent} (h : step c s e = some s') : Effect c s e s' := by
  obtain ⟨t, j, a⟩ := e
  unfold step at h
  split_ifs at h with ht
  cases a with
  | start url policy =>
    dsimp only at h
    split_ifs at h
    obtain ⟨host, hu, -⟩ := Option.map_eq_some_iff.1 h
    exact .starts ht hu h
  | wakeLimiter k =>
    obtain ⟨r, hk, h⟩ := resume_some c h
    cases hp : r.phase <;> simp only [hp, resumeFrom, reduceCtorEq, Option.ite_none_right_eq_some] at h
    exact Option.some.inj h.2 ▸ .acquires ht hk hp
  | transportDone k o =>
    obtain ⟨r, hk, h⟩ := resume_some c h
    cases hp : r.phase <;> simp only [hp, resumeFrom, reduceCtorEq] at h
    exact Option.some.inj h ▸ .finishes ht hk hp
  | wakeRetry k =>
    obtain ⟨r, hk, h⟩ := resume_some c h
    cases hp : r.phase <;> simp only [hp, resumeFrom, reduceCtorEq, Option.ite_none_right_eq_some] at h
    exact Option.some.inj h.2 ▸ .retries ht hk hp
  | cancel k =>
    obtain ⟨r, hk, h⟩ := resume_some c h
    simp only [resumeFrom, Option.ite_none_right_eq_some] at h
    exact Option.some.inj h.2 ▸ .cancels ht hk h.1

/-! ## What the pieces leave alone -/

section Pieces
variable {c} (s : Session) (host : Str) (k : ℕ) (r : Request) (n : ℕ) (j : ℚ)

@[simp] theorem setLimiter_attempts (l : RateLimiter) : (s.setLimiter host l).attempts = s.attempts := rfl
@[simp] theorem setLimiter_requests (l : RateLimiter) : (s.setLimiter host l).requests = s.requests := rfl
@[simp] theorem setLimiter_now (l : RateLimiter) : (s.setLimiter host l).now = s.now := rfl

@[simp] theorem setBreaker_attempts (b : CircuitBreaker) : (s.setBreaker host b).attempts = s.attempts := rfl
@[simp] theorem setBreaker_requests (b : CircuitBreaker) : (s.setBreaker host b).requests = s.requests := rfl
@[simp] theorem setBreaker_now (b : CircuitBreaker) : (s.setBreaker host b).now = s.now := rfl
@[simp] theorem setBreaker_rateLimiters (b : CircuitBreaker) :
    (s.setBreaker host b).rateLimiters = s.rateLimiters := rfl
@[simp] theorem setBreaker_breaker (b : CircuitBreaker) : (s.setBreaker host b).breaker host = b := by
  simp [setBreaker, breaker]

/-- Storing a breaker that is not newly OPEN leaves the history alone. -/
theorem setBreaker_openings {b : CircuitBreaker} (h : b.state = .open → (s.breaker host).state = .open) :
    (s.setBreaker host b).openings = s.openings := by
  unfold setBreaker
  exact if_neg fun ho => ho.1 (h ho.2)

theorem setBreaker_opens {b : CircuitBreaker} (ho : (s.breaker host).state ≠ .open) (h : b.state = .open) :
    (s.setBreaker host b).openings = (host, s.now) :: s.openings := if_pos ⟨ho, h⟩

@[simp] theorem setPhase_attempts (p : Phase) : (s.setPhase k r p).attempts = s.attempts := rfl
@[simp] theorem setPhase_now (p : Phase) : (s.setPhase k r p).now = s.now := rfl
@[simp] theorem setPhase_rateLimiters (p : Phase) : (s.setPhase k r p).rateLimiters = s.rateLimiters := rfl
@[simp] theorem setPhase_openings (p : Phase) : (s.setPhase k r p).openings = s.openings := rfl
@[simp] theorem setPhase_breaker (p : Phase) (h : Str) : (s.setPhase k r p).breaker h = s.breaker h := rfl
@[simp] theorem setPhase_requests (p : Phase) :
    (s.setPhase k r p).requests = s.requests.set k { r with phase := p } := rfl

@[simp] theorem setMetrics_attempts (m : NetworkMetrics) : (s.setMetrics m).attempts = s.attempts := rfl
@[simp] theorem setMetrics_requests (m : NetworkMetrics) : (s.setMetrics m).requests = s.requests := rfl
@[simp] theorem setMetrics_now (m : NetworkMetrics) : (s.setMetrics m).now = s.now := rfl
@[simp] theorem setMetrics_rateLimiters (m : NetworkMetrics) : (s.setMetrics m).rateLimiters = s.rateLimiters := rfl
@[simp] theorem setMetrics_breaker (m : NetworkMetrics) (h : Str) : (s.setMetrics m).breaker h = s.breaker h := rfl

@[simp] theorem logAttempt_attempts (a : Attempt) : (s.logAttempt a).attempts = a :: s.attempts := rfl
@[simp] theorem logAttempt_requests (a : Attempt) : (s.logAttempt a).requests = s.requests := rfl
@[simp] theorem logAttempt_now (a : Attempt) : (s.logAttempt a).now = s.now := rfl
@[simp] theorem logAttempt_rateLimiters (a : Attempt) : (s.logAttempt a).rateLimiters = s.rateLimiters := rfl
@[simp] theorem logAttempt_openings (a : Attempt) : (s.logAttempt a).openings = s.openings := rfl
@[simp] theorem logAttempt_breaker (a : Attempt) (h : Str) : (s.logAttempt a).breaker h = s.breaker h := rfl

/-- After a failed attempt only the call's phase and the metrics differ, and the
call is no longer in the transport. -/
theorem failAttempt_spec (e : NetworkError) :
    ∃ p m, p.inTransport = false ∧ (∀ i w, p = .backoff i w → i = n) ∧
      s.failAttempt k r n j e = (s.setPhase k r p).setMetrics m := by
  unfold failAttempt
  cases r.policy.afterFailure n e with
  | propagate => exact ⟨.raised e, _, rfl, by simp, rfl⟩
  | exceeded => exact ⟨.raised .retryExceeded, _, rfl, by simp, rfl⟩
  | backoff =>
    dsimp only
    split_ifs
    · exact ⟨.raised .other, _, rfl, by simp, rfl⟩
    · exact ⟨.backoff n _, _, rfl, by simp, rfl⟩

/-- A guarded call hands an attempt to the transport, or the breaker rejects it. -/
theorem guardedCall_spec :
    (∃ b, (s.breaker r.host).beforeCall (breakerConfig c r.host) s.now = (b, .ok ()) ∧
      s.guardedCall c k r n j =
        ((s.setBreaker r.host b).setPhase k r (.transport n)).logAttempt ⟨r.host, s.now, k, n⟩) ∨
    (∃ b e, (s.breaker r.host).beforeCall (breakerConfig c r.host) s.now = (b, .error e) ∧
      s.guardedCall c k r n j = (s.setBreaker r.host b).failAttempt k r n j .circuitOpen) := by
  unfold guardedCall
  cases h : (s.breaker r.host).beforeCall (breakerConfig c r.host) s.now with
  | mk b o =>
    cases o with
    | ok u => exact .inl ⟨b, rfl, rfl⟩
    | error e => exact .inr ⟨b, e, rfl, rfl⟩

/-- A guarded call takes no time and leaves the rate limiters alone. -/
theorem guardedCall_frame : (s.guardedCall c k r n j).rateLimiters = s.rateLimiters ∧ (s.guardedCall c k r n j).now = s.now := by
  rcases guardedCall_spec (c := c) s k r n j with ⟨b, -, h⟩ | ⟨b, e, -, h⟩
  · simp [h]
  · obtain ⟨p, m, -, -, hf⟩ := failAttempt_spec (s.setBreaker r.host b) k r n j .circuitOpen
    simp [h, hf]

theorem guardedCall_attempts :
    (s.guardedCall c k r n j).attempts = ⟨r.host, s.now, k, n⟩ :: s.attempts ∨
      (s.guardedCall c k r n j).attempts = s.attempts := by
  rcases guardedCall_spec (c := c) s k r n j with ⟨b, -, h⟩ | ⟨b, e, -, h⟩
  · exact .inl (by simp [h])
  · obtain ⟨p, m, -, -, hf⟩ := failAttempt_spec (s.setBreaker r.host b) k r n j .circuitOpen
    exact .inr (by simp [h, hf])

/-- A guarded call leaves its request in the transport or after a failure, as the attempt `n`. -/
theorem guardedCall_requests :
    ∃ p, (∀ i, p = .transport i → i = n) ∧ (∀ i w, p = .backoff i w → i = n) ∧
      (s.guardedCall c k r n j).requests = s.requests.set k { r with phase := p } := by
  rcases guardedCall_spec (c := c) s k r n j with ⟨b, -, h⟩ | ⟨b, e, -, h⟩
  · exact ⟨.transport n, by simp, by simp, by simp [h]⟩
  · obtain ⟨p, m, ht, hb, hf⟩ := failAttempt_spec (s.setBreaker r.host b) k r n j .circuitOpen
    exact ⟨p, fun i hi => by simp [hi, Phase.inTransport] at ht, hb, by simp [h, hf]⟩

end Pieces

end SocialScraper.Session
