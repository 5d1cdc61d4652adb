import SocialScraper.Lib.Workers
import SocialScraper.Network.SessionSteps
/-!
# What the metrics count

`record_request_start` and `record_request_end` run on different paths through
`request()`. `metrics_conserved_iff` says on which runs the books balance: the
handler of `request()` catches `Exception`, so a cancelled call stays open in
them for ever.
-/
open Lib

namespace SocialScraper

/-- The session, with the calls that `_host_for` ended by a `ValueError`. -/
structure Served where
  session : Session
  refused : ℕ := 0

namespace Served

variable (c : SessionConfig)

/-- The call does not get past `_host_for`. -/
def refuses (e : SessionEvent) : Bool :=
  match e.action with
  | .start url _ => (Session.hostFor c url).isNone
  | _ => false

/-- The call is cancelled at the await it is suspended at. -/
def cancels (e : SessionEvent) : Bool :=
  match e.action with
  | .cancel _ => true
  | _ => false

def step (v : Served) (e : SessionEvent) : Option Served :=
  if refuses c e then
    if v.session.now ≤ e.time then some ⟨{ v.session with now := e.time }, v.refused + 1⟩ else none
  else (v.session.step c e).map fun s => { v with session := s }

def init (now : ℚ) : Served := ⟨.init now, 0⟩

/-- The calls that have passed `record_request_start` and are still in `request()`. -/
def inFlight (v : Served) : ℕ := v.session.requests.countP (·.phase.running)

/-- The calls that have left `request()`. -/
def left (v : Served) : ℕ := v.session.requests.countP (!·.phase.running) + v.refused

/-- The metrics account for every call. -/
def Conserved (v : Served) : Prop :=
  v.session.metrics.openConnections = v.inFlight ∧
  v.session.metrics.totalRequests = v.session.metrics.successfulRequests + v.session.metrics.failedRequests ∧
  v.session.metrics.successfulRequests + v.session.metrics.failedRequests = v.left

instance : DecidablePred Conserved := fun _ => inferInstanceAs (Decidable (_ ∧ _ ∧ _))

end Served

namespace Session

/-! ## How a call goes on -/

/-- A call goes on to its next suspension, or leaves through `record_request_end`. -/
inductive Progress (s : Session) (k : ℕ) (r : Request) (s' : Session) : Prop
  | goesOn {p} (hp : p.running = true) (hr : s'.requests = s.requests.set k { r with phase := p })
      (hm : s'.metrics = s.metrics ∨ s'.metrics = s.metrics.recordRetry)
  | leaves {p m start now success} (hp : p.running = false) (hr : s'.requests = s.requests.set k { r with phase := p })
      (hm : m = s.metrics ∨ m = s.metrics.recordRetry) (hm' : s'.metrics = m.recordRequestEnd start now success)

section Progress
variable {c : SessionConfig} (s : Session) (k : ℕ) (r : Request) (n : ℕ) (j : ℚ)

@[simp] theorem setBreaker_metrics (host : Str) (b : CircuitBreaker) : (s.setBreaker host b).metrics = s.metrics := rfl
@[simp] theorem setLimiter_metrics (host : Str) (l : RateLimiter) : (s.setLimiter host l).metrics = s.metrics := rfl

theorem leave_progress {p : Phase} (hp : p.running = false) (success : Bool) : Progress s k r (s.leave k r p success) :=
  .leaves hp rfl (.inl rfl) rfl

theorem failAttempt_progress (e : NetworkError) : Progress s k r (s.failAttempt k r n j e) := by
  unfold failAttempt
  cases r.policy.afterFailure n e with
  | propagate => exact leave_progress s k r rfl false
  | exceeded => exact leave_progress s k r rfl false
  | backoff =>
    dsimp only
    split_ifs
    · exact .leaves rfl rfl (.inr rfl) rfl
    · exact .goesOn rfl rfl (.inr rfl)

/-- Storing a breaker or a limiter first makes no difference. -/
theorem Progress.of_stored {s s₁ s' : Session} {k : ℕ} {r : Request} (h : Progress s₁ k r s')
    (hr : s₁.requests = s.requests) (hm : s₁.metrics = s.metrics) : Progress s k r s' := by
  cases h with
  | goesOn hp hr' hm' => exact .goesOn hp (hr ▸ hr') (hm ▸ hm')
  | leaves hp hr' hm₁ hm₂ => exact .leaves hp (hr ▸ hr') (hm ▸ hm₁) hm₂

theorem guardedCall_progress : Progress s k r (s.guardedCall c k r n j) := by
  rcases guardedCall_spec (c := c) s k r n j with ⟨b, -, h⟩ | ⟨b, e, -, h⟩
  · rw [h]
    exact .goesOn rfl rfl (.inl rfl)
  · rw [h]
    exact (failAttempt_progress _ k r n j _).of_stored rfl rfl

theorem rateLimitedCall_progress : Progress s k r (s.rateLimitedCall c k r j) := by
  unfold rateLimitedCall
  split
  · rename_i l _
    have hexec : Progress (s.setLimiter r.host l) k r ((s.setLimiter r.host l).execute c k r j) := by
      unfold execute
      split_ifs
      · exact guardedCall_progress _ k r 1 j
      · exact leave_progress _ k r rfl false
    exact hexec.of_stored rfl rfl
  · exact .goesOn rfl rfl (.inl rfl)

theorem afterTransport_progress (o : Outcome) : Progress s k r (s.afterTransport c k r n j o) := by
  unfold afterTransport
  cases o.error with
  | none => exact (leave_progress _ k r rfl true).of_stored rfl rfl
  | some e => exact (failAttempt_progress _ k r n j e).of_stored rfl rfl

theorem start_progress {s s' : Session} {url : Str} {policy : Option RetryPolicy} {j : ℚ} (h : s.start c url policy j = some s') :
    ∃ r, r.phase.running = true ∧ Progress (s.register c r) s.requests.length r s' := by
  obtain ⟨host, -, rfl⟩ := Option.map_eq_some_iff.1 h
  exact ⟨⟨host, policy.getD c.retryPolicy, s.now, .acquiring s.now⟩, rfl, rateLimitedCall_progress _ _ _ _⟩

/-- The call's own change of phase, in the two counts. -/
theorem counts_set {s : Session} {k : ℕ} {r : Request} (hk : s.requests[k]? = some r) (hrun : r.phase.running = true) (p : Phase) :
    (s.requests.set k { r with phase := p }).countP (·.phase.running) + 1 =
        s.requests.countP (·.phase.running) + (if p.running then 1 else 0) ∧
      (s.requests.set k { r with phase := p }).countP (!·.phase.running) =
        s.requests.countP (!·.phase.running) + (if p.running then 0 else 1) := by
  have h₁ := countP_slot (fun r : Request => r.phase.running) hk { r with phase := p }
  have h₂ := countP_slot (fun r : Request => !r.phase.running) hk { r with phase := p }
  cases hp : p.running <;> simp_all

/-- While a call goes on, the metrics and the calls change alike. -/
theorem Progress.balanced {s s' : Session} {k : ℕ} {r : Request} (h : Progress s k r s') (hk : s.requests[k]? = some r)
    (hrun : r.phase.running = true) (hopen : 1 ≤ s.metrics.openConnections) :
    s'.metrics.openConnections + s.requests.countP (·.phase.running) =
        s.metrics.openConnections + s'.requests.countP (·.phase.running) ∧
      s'.metrics.totalRequests + s.requests.countP (!·.phase.running) =
        s.metrics.totalRequests + s'.requests.countP (!·.phase.running) ∧
      s'.metrics.successfulRequests + s'.metrics.failedRequests + s.metrics.totalRequests =
        s.metrics.successfulRequests + s.metrics.failedRequests + s'.metrics.totalRequests := by
  cases h with
  | @goesOn p hp hr hm =>
    obtain ⟨h₁, h₂⟩ := counts_set hk hrun p
    simp only [hp, reduceIte] at h₁ h₂
    have hbooks : s'.metrics.openConnections = s.metrics.openConnections ∧
        s'.metrics.totalRequests = s.metrics.totalRequests ∧
        s'.metrics.successfulRequests = s.metrics.successfulRequests ∧
        s'.metrics.failedRequests = s.metrics.failedRequests := by
      rcases hm with hm | hm <;> rw [hm]
      · exact ⟨rfl, rfl, rfl, rfl⟩
      · exact ⟨rfl, rfl, rfl, rfl⟩
    rw [hr]
    omega
  | @leaves p m start now success hp hr hm hm' =>
    obtain ⟨h₁, h₂⟩ := counts_set hk hrun p
    simp only [hp, Bool.false_eq_true, if_false] at h₁ h₂
    have hbooks : m.openConnections = s.metrics.openConnections ∧ m.totalRequests = s.metrics.totalRequests ∧
        m.successfulRequests = s.metrics.successfulRequests ∧ m.failedRequests = s.metrics.failedRequests := by
      rcases hm with rfl | rfl
      · exact ⟨rfl, rfl, rfl, rfl⟩
      · exact ⟨rfl, rfl, rfl, rfl⟩
    rw [hr, h₂, hm']
    simp only [NetworkMetrics.recordRequestEnd]
    -- Either counter goes up by one, and the total with it.
    cases success <;> simp <;> omega

end Progress

end Session

namespace Served

variable {c : SessionConfig}

/-! ## The books -/

/-- What the metrics are after a run: each cancelled call is still open, and
neither it nor a refused one is among the finished. -/
structure Books (c : SessionConfig) (as : List SessionEvent) (v : Served) : Prop where
  connections : v.session.metrics.openConnections = v.inFlight + as.countP cancels
  total : v.session.metrics.totalRequests = v.session.metrics.successfulRequests + v.session.metrics.failedRequests
  finished : v.session.metrics.totalRequests + as.countP cancels + as.countP (refuses c) = v.left

variable {as : List SessionEvent} {v : Served} {s' : Session} {e : SessionEvent}

/-- A step in which the call `k` goes on from `s₁`, where the books balance. -/
theorem Books.progress {s₁ : Session} {k : ℕ} {r : Request} (hb : Books c as { v with session := s₁ })
    (h : Session.Progress s₁ k r s') (hk : s₁.requests[k]? = some r) (hrun : r.phase.running = true)
    (he : cancels e = false) (hr : refuses c e = false) : Books c (as ++ [e]) { v with session := s' } := by
  obtain ⟨hc, ht, hf⟩ := hb
  simp only [inFlight, left] at hc ht hf
  have hpos : 0 < s₁.requests.countP (·.phase.running) := countP_pos_of_slot hk hrun
  obtain ⟨h₁, h₂, h₃⟩ := h.balanced hk hrun (by omega)
  constructor <;> simp only [inFlight, left, List.countP_append, List.countP_singleton, he, hr, Bool.false_eq_true, if_false]
  all_goals omega

/-- Time alone changes no book. -/
theorem Books.at_time (hb : Books c as v) (t : ℚ) : Books c as ⟨{ v.session with now := t }, v.refused⟩ :=
  ⟨hb.connections, hb.total, hb.finished⟩

theorem books_effect (hb : Books c as v) (hr : refuses c e = false) (h : Session.Effect c v.session e s') :
    Books c (as ++ [e]) { v with session := s' } := by
  cases h with
  | @starts t j url policy host _ ht hu hs =>
    obtain ⟨r, hrun, hp⟩ := Session.start_progress hs
    obtain ⟨hc, htot, hf⟩ := hb
    -- `record_request_start` counts the call that is new in the list.
    have hstart : Books c as ⟨({ v.session with now := t } : Session).register c r, v.refused⟩ := by
      simp only [inFlight, left] at hc hf
      constructor <;> simp only [inFlight, left, Session.register, NetworkMetrics.recordRequestStart, List.countP_append,
        List.countP_singleton, hrun] <;> simp <;> omega
    exact hstart.progress hp List.getElem?_concat_length hrun rfl hr
  | @acquires t j k r w ht hk hp =>
    exact (hb.at_time t).progress (Session.rateLimitedCall_progress _ k r j) hk (by simp [hp, Phase.running]) rfl hr
  | @finishes t j k r n o ht hk hp =>
    exact (hb.at_time t).progress (Session.afterTransport_progress _ k r n j o) hk (by simp [hp, Phase.running]) rfl hr
  | @retries t j k r n w ht hk hp =>
    exact (hb.at_time t).progress (Session.guardedCall_progress _ k r (n + 1) j) hk (by simp [hp, Phase.running]) rfl hr
  | @cancels t j k r ht hk hp =>
    obtain ⟨hc, ht, hf⟩ := hb
    obtain ⟨h₁, h₂⟩ := Session.counts_set hk hp .cancelled
    have hrun : Phase.cancelled.running = false := rfl
    simp only [inFlight, left, hrun, Bool.false_eq_true, if_false] at hc hf h₁ h₂
    -- The metrics hear nothing of it.
    constructor <;> simp only [inFlight, left, Session.setPhase, List.countP_append, List.countP_singleton, cancels, hr,
      Bool.false_eq_true, if_true, if_false] <;> omega

theorem books_step {v' : Served} (hb : Books c as v) (h : step c v e = some v') : Books c (as ++ [e]) v' := by
  unfold step at h
  split_ifs at h with hr ht
  · obtain rfl := Option.some.inj h
    obtain ⟨hc, htot, hf⟩ := hb
    have hcancel : cancels e = false := by
      unfold refuses at hr
      unfold cancels
      split at hr <;> simp_all
    simp only [inFlight, left] at hc hf
    constructor <;> simp only [inFlight, left, List.countP_append, List.countP_singleton, hcancel, hr, Bool.false_eq_true,
      if_true, if_false] <;> omega
  · obtain ⟨s', hs, rfl⟩ := Option.map_eq_some_iff.1 h
    exact books_effect hb (eq_false_of_ne_true hr) (Session.effect_of c hs)

theorem books_run {t₀ : ℚ} (h : Steps (Fires (step c)) (init t₀) as v) : Books c as v := by
  induction h with
  | nil => exact ⟨rfl, rfl, rfl⟩
  | snoc _ hr ih => exact books_step ih hr

/-- After every run, the metrics account for every call if and only if no call
was cancelled inside `request()` and none was refused by `_host_for`. -/
theorem metrics_conserved_iff (c : SessionConfig) (t₀ : ℚ) (as : List SessionEvent) (v : Served)
    (h : Steps (Fires (step c)) (init t₀) as v) :
    v.Conserved ↔ ∀ e ∈ as, cancels e = false ∧ refuses c e = false := by
  obtain ⟨hc, ht, hf⟩ := books_run h
  constructor
  · rintro ⟨ho, -, hl⟩
    have hcancels : as.countP cancels = 0 := by omega
    have hrefused : as.countP (refuses c) = 0 := by omega
    intro e he
    exact ⟨eq_false_of_ne_true (List.countP_eq_zero.1 hcancels e he), eq_false_of_ne_true (List.countP_eq_zero.1 hrefused e he)⟩
  · intro hall
    have hcancels : as.countP cancels = 0 := List.countP_eq_zero.2 fun e he => by simp [(hall e he).1]
    have hrefused : as.countP (refuses c) = 0 := List.countP_eq_zero.2 fun e he => by simp [(hall e he).2]
    refine ⟨?_, ?_, ?_⟩ <;> omega

def plainSession : SessionConfig := .default .defaults .plain

def cafeUrl : Str := "https://cafe.test/menu".toList

/-- Two requests, one of which times out once and is retried. -/
def servedCalls : List SessionEvent :=
  [⟨0, 0, .start cafeUrl none⟩, ⟨0, 0, .start cafeUrl none⟩, ⟨1, 0, .transportDone 0 .timeout⟩,
    ⟨1, 0, .transportDone 1 .response⟩, ⟨2, 0, .wakeRetry 0⟩, ⟨3, 0, .transportDone 0 .response⟩]

theorem metrics_conserved_served :
    ∃ v, exec (step plainSession) (init 0) servedCalls = some v ∧ v.session.metrics.retryCount = 1 ∧ v.Conserved := by
  obtain ⟨v, hv, hr⟩ := exec_ends (f := step plainSession) (Q := fun v => v.session.metrics.retryCount = 1)
    (s := init 0) servedCalls (by decide +kernel)
  exact ⟨v, hv, hr, (metrics_conserved_iff plainSession 0 servedCalls v (steps_of_exec hv)).2 (by decide +kernel)⟩

/-- A call that is cancelled in the transport stays open in the metrics, and is never counted. -/
theorem cancelled_call_unaccounted :
    ¬ ∀ v, Reachable (Fires (step plainSession)) (init 0) v → v.Conserved :=
  refutes_of_exec [⟨0, 0, .start cafeUrl none⟩, ⟨1, 0, .cancel 0⟩] (by decide +kernel)

end Served

end SocialScraper
