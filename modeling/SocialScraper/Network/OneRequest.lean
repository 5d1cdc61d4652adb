import SocialScraper.Network.Conservation
import SocialScraper.Urllib.Parse
/-!
# One request, end to end

A call of `request()` is watched through a run of its session, whatever the
other calls do: how its attempts end, and what its own events add to the
metrics. `Stage` says for every phase of the call what its record is then;
`request_end_to_end_iff` reads off the end of the call.
-/
open Lib

namespace SocialScraper

/-- How an attempt of `execute` ends. -/
inductive AttemptEnd where
  | response | timeout | connectionError
  /-- The breaker rejects it. -/
  | rejected
  | other
deriving DecidableEq

namespace AttemptEnd

def ofOutcome : Outcome → AttemptEnd
  | .response => .response
  | .timeout => .timeout
  | .httpError => .connectionError
  | .otherException => .other

/-- The exception that comes out of the attempt. -/
def error : AttemptEnd → Option NetworkError
  | .response => none
  | .timeout => some .networkTimeout
  | .connectionError => some .networkConnectionError
  | .rejected => some .circuitOpen
  | .other => some .other

/-- It fails with `NetworkTimeout` or `NetworkConnectionError`. -/
def retryable (a : AttemptEnd) : Bool := a.error.any networkErrors

theorem error_ofOutcome (o : Outcome) : (ofOutcome o).error = o.error := by cases o <;> rfl

end AttemptEnd

/-- What a call did: how its attempts ended, in order, and what it added to the history and to the metrics. -/
structure RequestRecord where
  ends : List AttemptEnd := []
  transports : ℕ := 0
  retries : ℕ := 0
  successes : ℕ := 0
  failures : ℕ := 0
deriving DecidableEq

/-- The record after an event of the call. -/
def RequestRecord.note (v : RequestRecord) (ended : Option AttemptEnd) (s s' : Session) : RequestRecord where
  ends := v.ends ++ ended.toList
  transports := v.transports + (s'.attempts.length - s.attempts.length)
  retries := v.retries + (s'.metrics.retryCount - s.metrics.retryCount)
  successes := v.successes + (s'.metrics.successfulRequests - s.metrics.successfulRequests)
  failures := v.failures + (s'.metrics.failedRequests - s.metrics.failedRequests)

namespace Session

variable (c : SessionConfig)

/-- The limiter of the host grants a token at once. -/
def passesLimiter (s : Session) (host : Str) : Bool := ((s.limiter c host).acquire (limiterConfig c) s.now 1).2.isNone

/-- The breaker of the host rejects a call. -/
def rejects (s : Session) (host : Str) : Bool := !(s.breaker host).admits (breakerConfig c host) s.now

/-- How an attempt at the host ends in the event, if one does. An attempt that is not rejected waits for the transport. -/
def attemptEnd (s : Session) (host : Str) : SessionAction → Option AttemptEnd
  | .start _ _ | .wakeLimiter _ => if s.passesLimiter c host && s.rejects c host then some .rejected else none
  | .wakeRetry _ => if s.rejects c host then some .rejected else none
  | .transportDone _ o => some (.ofOutcome o)
  | .cancel _ => none

end Session

/-- The call whose task the event runs; a call that starts has no number yet. -/
def SessionAction.request : SessionAction → Option ℕ
  | .start _ _ => none
  | .wakeLimiter k | .transportDone k _ | .wakeRetry k | .cancel k => some k

/-- A session, and the record of one of its calls. -/
structure Watched where
  session : Session
  request : ℕ
  record : RequestRecord := {}

namespace Watched

variable (c : SessionConfig)

/-- The call starts, under the session's own policy. -/
def start (s : Session) (time jitter : ℚ) (url : Str) : Option Watched :=
  (Session.hostFor c url).bind fun host =>
    (s.step c ⟨time, jitter, .start url none⟩).map fun s' =>
      ⟨s', s.requests.length,
        RequestRecord.note {} ({ s with now := time }.attemptEnd c host (.start url none)) s s'⟩

/-- Any event of the session. -/
def step (w : Watched) (e : SessionEvent) : Option Watched :=
  (w.session.step c e).map fun s' =>
    if e.action.request = some w.request then
      let ended := w.session.requests[w.request]?.bind fun r =>
        { w.session with now := e.time }.attemptEnd c r.host e.action
      ⟨s', w.request, w.record.note ended w.session s'⟩
    else { w with session := s' }

/-- Where the call stands. -/
def phase (w : Watched) : Option Phase := w.session.requests[w.request]?.map (·.phase)

/-- The event cancels the call. -/
def cancelsCall (w : Watched) (e : SessionEvent) : Bool :=
  match e.action with
  | .cancel k => k = w.request
  | _ => false

end Watched

/-- A call to the URL has left `request()` by the phase, with the record: right away where `_host_for` raises the
`ValueError`, else after some run of the session in which it was not cancelled. -/
inductive RequestDone (c : SessionConfig) (s : Session) (url : Str) : Phase → RequestRecord → Prop
  | refused (h : Session.hostFor c url = none) : RequestDone c s url (.raised .other) {}
  | left {time jitter w w' p} (h : Watched.start c s time jitter url = some w)
      (hr : Reachable (Guarded (fun w e => w.cancelsCall e = false) (Fires (Watched.step c))) w w') (hp : w'.phase = some p)
      (hrun : p.running = false) : RequestDone c s url p w'.record

/-- The request is what `request()` promises, for a policy of `n` attempts. -/
structure EndToEnd (n : ℕ) (p : Phase) (v : RequestRecord) : Prop where
  transports : v.transports ≤ n
  /-- Nothing is tried after an attempt that does not fail with a retryable error. -/
  retried : ∀ a ∈ v.ends.dropLast, a.retryable = true
  returned : p = .returned ↔ v.ends.getLast? = some .response
  exceeded : p = .raised .retryExceeded ↔ v.ends.length = n ∧ ∀ a ∈ v.ends, a.retryable = true
  propagated : ∀ e ≠ NetworkError.retryExceeded,
    p = .raised e ↔ ∃ a ∈ v.ends.getLast?, a.retryable = false ∧ a.error = some e
  retries : v.retries + 1 = v.ends.length
  counted : v.successes = 1 ∧ v.failures = 0 ∨ v.successes = 0 ∧ v.failures = 1

/-- The first 1025 attempts fail with a retryable error, and the policy has more. -/
def OverRetried (n : ℕ) (ends : List AttemptEnd) : Prop :=
  1025 < n ∧ 1025 ≤ ends.length ∧ ∀ a ∈ ends.take 1025, a.retryable = true

/-! ## One event of the call -/

namespace Session

/-- What the call's event does: the call is in the phase then, and so much is new in the history and the metrics. -/
structure Turn (s : Session) (k : ℕ) (r : Request) (s' : Session) (p : Phase) (transports retries successes failures : ℕ) :
    Prop where
  requests : s'.requests = s.requests.set k { r with phase := p }
  attempts : s'.attempts.length = s.attempts.length + transports
  retryCount : s'.metrics.retryCount = s.metrics.retryCount + retries
  successful : s'.metrics.successfulRequests = s.metrics.successfulRequests + successes
  failed : s'.metrics.failedRequests = s.metrics.failedRequests + failures

theorem Turn.note {s s' : Session} {k : ℕ} {r : Request} {p : Phase} {a b x y : ℕ} (h : Turn s k r s' p a b x y)
    (v : RequestRecord) (ended : Option AttemptEnd) :
    v.note ended s s' = ⟨v.ends ++ ended.toList, v.transports + a, v.retries + b, v.successes + x, v.failures + y⟩ := by
  simp only [RequestRecord.note, h.attempts, h.retryCount, h.successful, h.failed, Nat.add_sub_cancel_left]

section Turns
variable {c : SessionConfig} {s s₀ s' : Session} {k : ℕ} {r : Request} {n : ℕ} {j : ℚ} {p : Phase} {a b x y : ℕ}

/-- Storing a breaker or a limiter first makes no difference. -/
theorem Turn.of_stored (h : Turn s₀ k r s' p a b x y) (hr : s₀.requests = s.requests) (ha : s₀.attempts = s.attempts)
    (hm : s₀.metrics = s.metrics) : Turn s k r s' p a b x y where
  requests := hr ▸ h.requests
  attempts := ha ▸ h.attempts
  retryCount := hm ▸ h.retryCount
  successful := hm ▸ h.successful
  failed := hm ▸ h.failed

/-- What becomes of a call whose attempt `n` failed with the exception, under a policy that retries network errors. -/
inductive AfterFailure (s : Session) (k : ℕ) (r : Request) (n : ℕ) (s' : Session) (e : NetworkError) : Prop
  | propagates (h : networkErrors e = false) (ht : Turn s k r s' (.raised e) 0 0 0 1)
  | exceeds (h : networkErrors e = true) (hn : r.policy.maxAttempts ≤ n) (ht : Turn s k r s' (.raised .retryExceeded) 0 0 0 1)
  | overflows (h : networkErrors e = true) (hn : n < r.policy.maxAttempts) (ho : 1025 ≤ n)
      (ht : Turn s k r s' (.raised .other) 0 1 0 1)
  | retries {w} (h : networkErrors e = true) (hn : n < r.policy.maxAttempts) (ho : n < 1025)
      (ht : Turn s k r s' (.backoff n w) 0 1 0 0)

theorem failAttempt_turn (hr : r.policy.retryable = networkErrors) (e : NetworkError) :
    AfterFailure s k r n (s.failAttempt k r n j e) e := by
  unfold failAttempt RetryPolicy.afterFailure
  rw [hr]
  cases he : networkErrors e with
  | false => exact .propagates he ⟨rfl, rfl, rfl, rfl, rfl⟩
  | true =>
    simp only [if_true]
    by_cases hn : n ≥ r.policy.maxAttempts
    · rw [if_pos hn]
      exact .exceeds he hn ⟨rfl, rfl, rfl, rfl, rfl⟩
    · rw [if_neg hn]
      dsimp only
      by_cases ho : RetryPolicy.delayOverflows n = true
      · rw [if_pos ho]
        have hlong : 1024 ≤ n - 1 := of_decide_eq_true ho
        exact .overflows he (by omega) (by omega) ⟨rfl, rfl, rfl, rfl, rfl⟩
      · rw [if_neg ho]
        have hshort : ¬ 1024 ≤ n - 1 := of_decide_eq_false (eq_false_of_ne_true ho)
        exact .retries he (by omega) (by omega) ⟨rfl, rfl, rfl, rfl, rfl⟩

/-- An attempt goes into the transport, or is rejected and ends the call. -/
theorem guardedCall_turn (hr : r.policy.retryable = networkErrors) :
    s.rejects c r.host = false ∧ Turn s k r (s.guardedCall c k r n j) (.transport n) 1 0 0 0 ∨
      s.rejects c r.host = true ∧ Turn s k r (s.guardedCall c k r n j) (.raised .circuitOpen) 0 0 0 1 := by
  unfold rejects CircuitBreaker.admits
  rcases guardedCall_spec (c := c) s k r n j with ⟨b, hb, h⟩ | ⟨b, e, hb, h⟩
  · rw [hb, h]
    exact .inl ⟨rfl, rfl, rfl, rfl, rfl, rfl⟩
  · rw [hb, h]
    right
    refine ⟨rfl, ?_⟩
    cases failAttempt_turn (s := s.setBreaker r.host b) (k := k) (n := n) (j := j) hr .circuitOpen with
    | propagates _ ht => exact ht.of_stored rfl rfl rfl
    | exceeds he | overflows he | retries he => cases he

/-- A call comes out of the limiter with its first attempt, or sleeps on. -/
theorem rateLimitedCall_turn (hr : r.policy.retryable = networkErrors) (hn : 1 ≤ r.policy.maxAttempts) :
    (s.passesLimiter c r.host = false ∧ ∃ w, Turn s k r (s.rateLimitedCall c k r j) (.acquiring w) 0 0 0 0) ∨
      s.passesLimiter c r.host = true ∧
        (s.rejects c r.host = false ∧ Turn s k r (s.rateLimitedCall c k r j) (.transport 1) 1 0 0 0 ∨
          s.rejects c r.host = true ∧ Turn s k r (s.rateLimitedCall c k r j) (.raised .circuitOpen) 0 0 0 1) := by
  unfold passesLimiter rateLimitedCall
  rcases (s.limiter c r.host).acquire (limiterConfig c) s.now 1 with ⟨l, _ | wait⟩
  · right
    refine ⟨rfl, ?_⟩
    simp only [execute, if_pos hn]
    have hcall := guardedCall_turn (c := c) (s := s.setLimiter r.host l) (k := k) (n := 1) (j := j) hr
    exact hcall.imp (fun h => ⟨h.1, h.2.of_stored rfl rfl rfl⟩) fun h => ⟨h.1, h.2.of_stored rfl rfl rfl⟩
  · exact .inl ⟨rfl, s.now + wait, rfl, rfl, rfl, rfl, rfl⟩

end Turns

theorem afterTransport_turn {c : SessionConfig} {s : Session} {k : ℕ} {r : Request} {n : ℕ} {j : ℚ} (o : Outcome)
    (hr : r.policy.retryable = networkErrors) :
    (o = .response ∧ Turn s k r (s.afterTransport c k r n j o) .returned 0 0 1 0) ∨
      ∃ e, o.error = some e ∧ AfterFailure s k r n (s.afterTransport c k r n j o) e := by
  unfold afterTransport
  cases ho : o.error with
  | none =>
    left
    refine ⟨?_, rfl, rfl, rfl, rfl, rfl⟩
    cases o <;> first | rfl | cases ho
  | some e =>
    right
    refine ⟨e, rfl, ?_⟩
    have hfail := failAttempt_turn (s := s.setBreaker r.host ((s.breaker r.host).onFailure (breakerConfig c r.host) s.now))
      (k := k) (n := n) (j := j) hr e
    cases hfail with
    | propagates he ht => exact .propagates he (ht.of_stored rfl rfl rfl)
    | exceeds he hn ht => exact .exceeds he hn (ht.of_stored rfl rfl rfl)
    | overflows he hn hl ht => exact .overflows he hn hl (ht.of_stored rfl rfl rfl)
    | retries he hn hl ht => exact .retries he hn hl (ht.of_stored rfl rfl rfl)

/-- The events of other calls leave the call where it is. -/
theorem other_request {c : SessionConfig} {s s' : Session} {e : SessionEvent} (h : Effect c s e s') {k : ℕ}
    (hk : k < s.requests.length) (he : e.action.request ≠ some k) : s'.requests[k]? = s.requests[k]? := by
  have other : ∀ (s₁ : Session) {i : ℕ} {r : Request}, Progress s₁ i r s' → i ≠ k → s'.requests[k]? = s₁.requests[k]? := by
    intro s₁ i r hp hi
    obtain ⟨p, hr⟩ : ∃ p, s'.requests = s₁.requests.set i { r with phase := p } := by
      cases hp with
      | goesOn _ hr => exact ⟨_, hr⟩
      | leaves _ hr => exact ⟨_, hr⟩
    rw [hr, List.getElem?_set_ne hi]
  cases h with
  | @starts t j url policy host _ ht hu hs =>
    obtain ⟨r, -, hp⟩ := start_progress hs
    have hregister : (register c { s with now := t } r).requests = s.requests ++ [r] := rfl
    rw [other _ hp (Nat.ne_of_gt hk), hregister, List.getElem?_append_left hk]
  | @acquires t j i r w ht hi hp => exact other { s with now := t } (rateLimitedCall_progress _ i r j) fun h => he (congrArg some h)
  | @finishes t j i r n o ht hi hp =>
    exact other { s with now := t } (afterTransport_progress _ i r n j o) fun h => he (congrArg some h)
  | @retries t j i r n w ht hi hp =>
    exact other { s with now := t } (guardedCall_progress _ i r (n + 1) j) fun h => he (congrArg some h)
  | @cancels t j i r ht hi hp => exact List.getElem?_set_ne fun h => he (congrArg some h)

end Session

/-! ## The call's record, by its phase -/

/-- `i` attempts have failed with a retryable error, and each was to be retried. -/
structure Tried (v : RequestRecord) (i : ℕ) : Prop where
  ends : v.ends.length = i
  retryable : ∀ a ∈ v.ends, a.retryable = true
  retries : v.retries = i
  successes : v.successes = 0
  failures : v.failures = 0

/-- What the attempt after those in `v` makes of the record when it is the last, and how the call leaves. -/
inductive LastAttempt (n : ℕ) (v : RequestRecord) : Phase → RequestRecord → Prop
  | returned {t} (ht : t ≤ v.ends.length + 1) :
      LastAttempt n v .returned { v with ends := v.ends ++ [.response], transports := t, successes := 1 }
  | propagated {a e t} (ht : t ≤ v.ends.length + 1) (ha : a.error = some e) (he : networkErrors e = false)
      (hne : e ≠ .retryExceeded) :
      LastAttempt n v (.raised e) { v with ends := v.ends ++ [a], transports := t, failures := 1 }
  | exceeded {a t} (ht : t ≤ v.ends.length + 1) (ha : a.retryable = true) (hn : v.ends.length + 1 = n) :
      LastAttempt n v (.raised .retryExceeded) { v with ends := v.ends ++ [a], transports := t, failures := 1 }
  | overflowed {a t} (ht : t ≤ v.ends.length + 1) (ha : a.retryable = true) (hl : v.ends.length = 1024)
      (hn : v.ends.length + 1 < n) :
      LastAttempt n v (.raised .other)
        { v with ends := v.ends ++ [a], transports := t, retries := v.retries + 1, failures := 1 }

/-- The record of a call that is in the phase, or has left by it. -/
def Stage (n : ℕ) (v : RequestRecord) : Phase → Prop
  | .acquiring _ => Tried v 0 ∧ v.transports = 0
  | .transport i => Tried v (i - 1) ∧ v.transports = i ∧ 1 ≤ i ∧ i ≤ n ∧ i ≤ 1025
  | .backoff i _ => Tried v i ∧ v.transports = i ∧ i < n ∧ i < 1025
  | .cancelled => False
  | p => ∃ v₀ i, Tried v₀ i ∧ i < n ∧ i < 1025 ∧ LastAttempt n v₀ p v

/-- The call's own event takes it, with its record, to another stage. -/
def Advances (n : ℕ) (v : RequestRecord) (s : Session) (k : ℕ) (r : Request) (s' : Session) (ended : Option AttemptEnd) : Prop :=
  ∃ p, s'.requests = s.requests.set k { r with phase := p } ∧ Stage n (v.note ended s s') p

section Stages
variable {n i : ℕ} {v : RequestRecord} {s s' : Session} {k : ℕ} {r : Request}

theorem tried_nil : Tried {} 0 := ⟨rfl, nofun, rfl, rfl, rfl⟩

/-- One more attempt has failed with a retryable error. -/
theorem Tried.all_retryable (h : Tried v i) {a : AttemptEnd} (ha : a.retryable = true) :
    ∀ b ∈ v.ends ++ [a], b.retryable = true := by
  intro b hb
  rcases List.mem_append.1 hb with hb | hb
  · exact h.retryable b hb
  · rw [List.mem_singleton.1 hb, ha]

/-- All attempts before the last one were to be retried, and have been. -/
theorem Tried.retried (h : Tried v i) (a : AttemptEnd) :
    (∀ b ∈ (v.ends ++ [a]).dropLast, b.retryable = true) ∧ v.retries + 1 = (v.ends ++ [a]).length := by
  rw [List.dropLast_concat, List.length_append, h.retries, h.ends]
  exact ⟨h.retryable, rfl⟩

theorem Tried.note (h : Tried v i) (t : ℕ) : Tried ⟨v.ends ++ [], t, v.retries + 0, v.successes + 0, v.failures + 0⟩ i where
  ends := by rw [List.append_nil]; exact h.ends
  retryable := by rw [List.append_nil]; exact h.retryable
  retries := h.retries
  successes := h.successes
  failures := h.failures

/-- One more attempt has failed and is to be retried. -/
theorem Tried.more (h : Tried v i) {a : AttemptEnd} (ha : a.retryable = true) (t : ℕ) :
    Tried ⟨v.ends ++ [a], t, v.retries + 1, v.successes + 0, v.failures + 0⟩ (i + 1) where
  ends := by rw [List.length_append, h.ends]; rfl
  retryable := h.all_retryable ha
  retries := congrArg (· + 1) h.retries
  successes := h.successes
  failures := h.failures

/-- The next attempt goes into the transport. -/
theorem advances_transport (h : Tried v i) (ht : v.transports = i) (hi : i < n) (hl : i < 1025)
    (hturn : s.Turn k r s' (.transport (i + 1)) 1 0 0 0) : Advances n v s k r s' none := by
  refine ⟨_, hturn.requests, ?_⟩
  rw [hturn.note]
  refine ⟨h.note _, congrArg (· + 1) ht, ?_, ?_, ?_⟩ <;> omega

/-- The next attempt is rejected, which ends the call. -/
theorem advances_rejected (h : Tried v i) (ht : v.transports = i) (hi : i < n) (hl : i < 1025)
    (hturn : s.Turn k r s' (.raised .circuitOpen) 0 0 0 1) : Advances n v s k r s' (some .rejected) := by
  refine ⟨_, hturn.requests, ?_⟩
  rw [hturn.note, h.failures]
  exact ⟨v, i, h, hi, hl, .propagated (by rw [h.ends]; omega) rfl rfl nofun⟩

theorem advances_guarded {c : SessionConfig} {j : ℚ} (h : Tried v i) (ht : v.transports = i) (hi : i < n) (hl : i < 1025)
    (hr : r.policy.retryable = networkErrors) :
    Advances n v s k r (s.guardedCall c k r (i + 1) j) (if s.rejects c r.host then some .rejected else none) := by
  rcases Session.guardedCall_turn (c := c) (s := s) (k := k) (n := i + 1) (j := j) hr with ⟨hrej, hturn⟩ | ⟨hrej, hturn⟩
  · rw [hrej]
    exact advances_transport h ht hi hl hturn
  · rw [hrej]
    exact advances_rejected h ht hi hl hturn

theorem advances_limited {c : SessionConfig} {j : ℚ} (h : Tried v 0) (ht : v.transports = 0) (hn : r.policy.maxAttempts = n)
    (hpos : 0 < n) (hr : r.policy.retryable = networkErrors) :
    Advances n v s k r (s.rateLimitedCall c k r j)
      (if s.passesLimiter c r.host && s.rejects c r.host then some .rejected else none) := by
  rcases Session.rateLimitedCall_turn (c := c) (s := s) (k := k) (j := j) hr (hn ▸ hpos) with
    ⟨hpass, w, hturn⟩ | ⟨hpass, ⟨hrej, hturn⟩ | ⟨hrej, hturn⟩⟩
  · rw [hpass]
    refine ⟨_, hturn.requests, ?_⟩
    rw [hturn.note]
    exact ⟨h.note _, ht⟩
  · rw [hpass, hrej]
    exact advances_transport h ht hpos (by omega) hturn
  · rw [hpass, hrej]
    exact advances_rejected h ht hpos (by omega) hturn

/-- The attempt in the transport fails. -/
theorem advances_failed {a : AttemptEnd} {e : NetworkError} (h : Stage n v (.transport i)) (ha : a.error = some e)
    (hne : e ≠ .retryExceeded) (hn : r.policy.maxAttempts = n) (hf : Session.AfterFailure s k r i s' e) :
    Advances n v s k r s' (some a) := by
  obtain ⟨h, ht, h1, hi, hl⟩ := h
  have hlen := h.ends
  have hretry : a.retryable = networkErrors e := by rw [AttemptEnd.retryable, ha]; rfl
  cases hf with
  | propagates he hturn =>
    refine ⟨_, hturn.requests, ?_⟩
    rw [hturn.note, h.failures]
    exact ⟨v, i - 1, h, by omega, by omega, .propagated (by omega) ha he hne⟩
  | exceeds he hmax hturn =>
    refine ⟨_, hturn.requests, ?_⟩
    rw [hturn.note, h.failures]
    exact ⟨v, i - 1, h, by omega, by omega, .exceeded (by omega) (hretry.trans he) (by omega)⟩
  | overflows he hmax ho hturn =>
    refine ⟨_, hturn.requests, ?_⟩
    rw [hturn.note, h.failures]
    exact ⟨v, i - 1, h, by omega, by omega, .overflowed (by omega) (hretry.trans he) (by omega) (by omega)⟩
  | retries he hmax ho hturn =>
    refine ⟨_, hturn.requests, ?_⟩
    rw [hturn.note]
    have hmore := h.more (hretry.trans he) (v.transports + 0)
    rw [Nat.sub_add_cancel h1] at hmore
    exact ⟨hmore, ht, by omega, ho⟩

/-- The attempt in the transport ends. -/
theorem advances_finished {c : SessionConfig} {j : ℚ} (o : Outcome) (h : Stage n v (.transport i))
    (hn : r.policy.maxAttempts = n) (hr : r.policy.retryable = networkErrors) :
    Advances n v s k r (s.afterTransport c k r i j o) (some (.ofOutcome o)) := by
  rcases Session.afterTransport_turn (c := c) (s := s) (k := k) (n := i) (j := j) o hr with ⟨rfl, hturn⟩ | ⟨e, he, hf⟩
  · obtain ⟨h, ht, h1, hi, hl⟩ := h
    have hlen := h.ends
    refine ⟨_, hturn.requests, ?_⟩
    rw [hturn.note, h.successes]
    exact ⟨v, i - 1, h, by omega, by omega, .returned (by omega)⟩
  · refine advances_failed h ((AttemptEnd.error_ofOutcome o).trans he) ?_ hn hf
    rintro rfl
    cases o <;> cases he

end Stages

namespace Watched

/-- The watched call has the policy, and its record is that of its phase. -/
def Follows (n : ℕ) (w : Watched) : Prop :=
  ∃ r, w.session.requests[w.request]? = some r ∧ r.policy.retryable = networkErrors ∧ r.policy.maxAttempts = n ∧
    Stage n w.record r.phase

variable {c : SessionConfig} {n : ℕ}

theorem follows_of_advances {s s' : Session} {k : ℕ} {r : Request} {v : RequestRecord} {ended : Option AttemptEnd}
    (hk : s.requests[k]? = some r) (hr : r.policy.retryable = networkErrors) (hn : r.policy.maxAttempts = n)
    (h : Advances n v s k r s' ended) : Follows n ⟨s', k, v.note ended s s'⟩ := by
  obtain ⟨p, hreq, hstage⟩ := h
  refine ⟨{ r with phase := p }, ?_, hr, hn, hstage⟩
  show s'.requests[k]? = _
  rw [hreq, List.getElem?_set_self (List.getElem?_eq_some_iff.1 hk).1]

theorem follows_step {w w' : Watched} {e : SessionEvent} (hpos : 0 < n) (hw : Follows n w) (hc : w.cancelsCall e = false)
    (h : w.step c e = some w') : Follows n w' := by
  obtain ⟨r, hk, hr, hn, hstage⟩ := hw
  obtain ⟨s', hs, rfl⟩ := Option.map_eq_some_iff.1 h
  by_cases he : e.action.request = some w.request
  · rw [if_pos he, hk, Option.bind_some]
    -- The time of the event is set first; the record does not see it.
    have own : ∀ {ended}, Advances n w.record { w.session with now := e.time } w.request r s' ended →
        Follows n ⟨s', w.request, w.record.note ended w.session s'⟩ := fun ha =>
      follows_of_advances (s := { w.session with now := e.time }) hk hr hn ha
    apply own
    cases Session.effect_of c hs with
    | starts => cases he
    | acquires ht hi hp =>
      obtain rfl := Option.some.inj he
      obtain rfl := Option.some.inj (hk.symm.trans hi)
      rw [hp] at hstage
      exact advances_limited hstage.1 hstage.2 hn hpos hr
    | finishes ht hi hp =>
      obtain rfl := Option.some.inj he
      obtain rfl := Option.some.inj (hk.symm.trans hi)
      rw [hp] at hstage
      exact advances_finished _ hstage hn hr
    | retries ht hi hp =>
      obtain rfl := Option.some.inj he
      obtain rfl := Option.some.inj (hk.symm.trans hi)
      rw [hp] at hstage
      obtain ⟨htried, htr, hlt, hl⟩ := hstage
      exact advances_guarded htried htr hlt hl hr
    | cancels ht hi hp =>
      obtain rfl := Option.some.inj he
      simp [cancelsCall] at hc
  · rw [if_neg he]
    have hlt := (List.getElem?_eq_some_iff.1 hk).1
    refine ⟨r, ?_, hr, hn, hstage⟩
    exact (Session.other_request (Session.effect_of c hs) hlt he).trans hk

/-- That the host is known from here on changes no decision of its limiter and breaker. -/
theorem register_decisions (s : Session) (r : Request) :
    (s.register c r).passesLimiter c r.host = s.passesLimiter c r.host ∧
      (s.register c r).rejects c r.host = s.rejects c r.host := by
  have hlimiter : (s.register c r).limiter c r.host = s.limiter c r.host := by
    show (Function.update s.rateLimiters r.host (some (s.limiter c r.host)) r.host).getD _ = _
    rw [Function.update_self]
    rfl
  have hbreaker : (s.register c r).breaker r.host = s.breaker r.host :=
    Session.setBreaker_breaker s r.host (s.breaker r.host)
  unfold Session.passesLimiter Session.rejects
  rw [hlimiter, hbreaker]
  exact ⟨rfl, rfl⟩

theorem follows_start {s : Session} {time jitter : ℚ} {url : Str} {w : Watched} (hr : c.retryPolicy.retryable = networkErrors)
    (hn : c.retryPolicy.maxAttempts = n) (hpos : 0 < n) (h : start c s time jitter url = some w) : Follows n w := by
  obtain ⟨host, hhost, h⟩ := Option.bind_eq_some_iff.1 h
  obtain ⟨s', hs, rfl⟩ := Option.map_eq_some_iff.1 h
  obtain ⟨-, hs⟩ := Option.ite_none_right_eq_some.1 hs
  obtain ⟨-, hs⟩ := Option.ite_none_right_eq_some.1 hs
  rw [Session.start, hhost, Option.map_some] at hs
  obtain rfl := Option.some.inj hs
  let s₀ : Session := { s with now := time }
  let r : Request := ⟨host, c.retryPolicy, time, .acquiring time⟩
  obtain ⟨hpass, hrej⟩ := register_decisions (c := c) s₀ r
  have hadv := advances_limited (c := c) (s := s₀.register c r) (k := s.requests.length) (r := r) (j := jitter) tried_nil rfl
    hn hpos hr
  rw [hpass, hrej] at hadv
  have hk : (s₀.register c r).requests[s.requests.length]? = some r := List.getElem?_concat_length
  have hfollows := follows_of_advances hk hr hn hadv
  exact hfollows

theorem follows_run {w w' : Watched} (hpos : 0 < n) (hw : Follows n w)
    (h : Reachable (Guarded (fun w e => w.cancelsCall e = false) (Fires (step c))) w w') : Follows n w' :=
  h.inv (Follows n) hw fun _ _ _ hf ⟨hc, hs⟩ => follows_step hpos hf hc hs

end Watched

/-! ## The end of the call -/

section End
variable {n i : ℕ} {v₀ v : RequestRecord} {p : Phase}

theorem not_overRetried {ends : List AttemptEnd} {a : AttemptEnd} (ha : a.retryable = false) (hl : ends.length < 1025) :
    ¬ OverRetried n (ends ++ [a]) := by
  rintro ⟨-, -, hall⟩
  have hmem : a ∈ (ends ++ [a]).take 1025 := by
    rw [List.take_of_length_le (by rw [List.length_append, List.length_singleton]; omega)]
    simp
  rw [hall a hmem] at ha
  cases ha

theorem eq_of_mem_getLast? {ends : List AttemptEnd} {a b : AttemptEnd} (h : b ∈ (ends ++ [a]).getLast?) : b = a := by
  rw [List.getLast?_concat] at h
  exact (Option.some.inj h).symm

section Ends
variable (h : Tried v₀ i) (hi : i < n) {t : ℕ} (ht : t ≤ v₀.ends.length + 1)
include h hi ht

theorem endToEnd_returned : EndToEnd n .returned { v₀ with ends := v₀.ends ++ [.response], transports := t, successes := 1 } where
  transports := ht.trans (h.ends ▸ hi)
  retried := (h.retried _).1
  returned := iff_of_true rfl List.getLast?_concat
  exceeded := by
    refine iff_of_false nofun fun hall => ?_
    have hlast := hall.2 .response List.mem_concat_self
    cases hlast
  propagated e _ := by
    refine iff_of_false nofun ?_
    rintro ⟨a, ha, -, he⟩
    obtain rfl := eq_of_mem_getLast? ha
    cases he
  retries := (h.retried _).2
  counted := .inl ⟨rfl, h.failures⟩

variable {a : AttemptEnd} {e : NetworkError} (ha : a.error = some e)
include ha

/-- The last attempt fails, and `p` is the exception that comes out. -/
theorem endToEnd_failed (hp : p ≠ .returned) (hexceeded : p = .raised .retryExceeded ↔ v₀.ends.length + 1 = n ∧ a.retryable = true)
    (hpropagated : ∀ e' ≠ NetworkError.retryExceeded, p = .raised e' ↔ a.retryable = false ∧ e = e') :
    EndToEnd n p { v₀ with ends := v₀.ends ++ [a], transports := t, failures := 1 } where
  transports := ht.trans (h.ends ▸ hi)
  retried := (h.retried a).1
  returned := by
    apply iff_of_false hp
    intro hlast
    obtain rfl := eq_of_mem_getLast? hlast
    cases ha
  exceeded := by
    rw [hexceeded, List.length_append]
    exact and_congr_right fun _ => ⟨h.all_retryable, fun hall => hall a List.mem_concat_self⟩
  propagated e' he' := by
    rw [hpropagated e' he']
    constructor
    · rintro ⟨hretry, rfl⟩
      exact ⟨a, List.getLast?_concat, hretry, ha⟩
    · rintro ⟨b, hb, hretry, he⟩
      obtain rfl := eq_of_mem_getLast? hb
      exact ⟨hretry, Option.some.inj (ha.symm.trans he)⟩
  retries := (h.retried a).2
  counted := .inr ⟨h.successes, rfl⟩

end Ends

/-- A call that leaves in order keeps the promise; the one whose delay overflows does not. -/
theorem endToEnd_iff_last (h : Tried v₀ i) (hi : i < n) (hl : i < 1025) (hlast : LastAttempt n v₀ p v) :
    EndToEnd n p v ↔ ¬ OverRetried n v.ends := by
  have hlen := h.ends
  cases hlast with
  | returned ht => exact iff_of_true (endToEnd_returned h hi ht) (not_overRetried rfl (by omega))
  | @propagated a e t ht ha he hne =>
    have hretry : a.retryable = false := by rw [AttemptEnd.retryable, ha]; exact he
    refine iff_of_true (endToEnd_failed h hi ht ha nofun ?_ fun e' _ => ?_) (not_overRetried hretry (by omega))
    · rw [hretry]
      exact iff_of_false (fun hp => hne (Phase.raised.inj hp)) fun hall => Bool.false_ne_true hall.2
    · rw [Phase.raised.injEq]
      exact (and_iff_right hretry).symm
  | @exceeded a t ht ha hn =>
    obtain ⟨e, he, -⟩ := (Option.any_eq_true _ _).1 ha
    refine iff_of_true (endToEnd_failed h hi ht he nofun ?_ fun e' he' => ?_) fun hover => ?_
    · exact iff_of_true rfl ⟨hn, ha⟩
    · rw [ha]
      exact iff_of_false (fun hp => he' (Phase.raised.inj hp).symm) nofun
    · have hmore := hover.1
      omega
  | @overflowed a t ht ha hlong hn =>
    refine iff_of_false (fun hend => ?_) (not_not.2 ⟨by omega, ?_, fun b hb => ?_⟩)
    · -- The retry that never comes has been counted.
      have hcount : v₀.retries + 1 + 1 = (v₀.ends ++ [a]).length := hend.retries
      rw [← (h.retried a).2] at hcount
      omega
    · rw [List.length_append, hlong]
      rfl
    · exact h.all_retryable ha b (List.mem_of_mem_take hb)

end End

/-! ## Every call can come to its end -/

/-- Every attempt in the record ended as the transport would have answered it, or was rejected. -/
def AnsweredBy (o : ℕ → Outcome) (v : RequestRecord) : Prop :=
  ∀ i, ∀ a ∈ v.ends[i]?, a = AttemptEnd.rejected ∨ a = AttemptEnd.ofOutcome (o i)

namespace Watched

variable {c : SessionConfig} {o : ℕ → Outcome} {n : ℕ}

/-- The call can be run on to its end, with these answers of the transport. -/
def CanEnd (c : SessionConfig) (o : ℕ → Outcome) (w : Watched) : Prop :=
  ∃ w' p, Reachable (Guarded (fun w e => w.cancelsCall e = false) (Fires (step c))) w w' ∧ w'.phase = some p ∧
    p.running = false ∧ AnsweredBy o w'.record

theorem CanEnd.before {w w' : Watched} {e : SessionEvent} (hc : w.cancelsCall e = false) (h : step c w e = some w')
    (hw : CanEnd c o w') : CanEnd c o w := by
  obtain ⟨w'', p, hr, hp, hrun, ha⟩ := hw
  have hone : Reachable (Guarded (fun w e => w.cancelsCall e = false) (Fires (step c))) w w' :=
    (Reachable.refl w).step (a := e) ⟨hc, h⟩
  exact ⟨w'', p, hone.trans hr, hp, hrun, ha⟩

theorem canEnd_ended {w : Watched} {p : Phase} (hp : w.phase = some p) (hrun : p.running = false) (ha : AnsweredBy o w.record) :
    CanEnd c o w := ⟨w, p, .refl w, hp, hrun, ha⟩

/-- An event of the call from its suspension. -/
theorem step_own {w : Watched} {r : Request} (hk : w.session.requests[w.request]? = some r) {t : ℚ} (ht : w.session.now ≤ t)
    {a : SessionAction} (ha : a.request = some w.request) {s' : Session}
    (hs : { w.session with now := t }.resumeFrom c w.request r 0 a r.phase = some s') :
    step c w ⟨t, 0, a⟩ =
      some ⟨s', w.request, w.record.note ({ w.session with now := t }.attemptEnd c r.host a) w.session s'⟩ := by
  have huniform : Uniform 0 r.policy.jitter 0 := ⟨min_le_left _ _, le_max_left _ _⟩
  have hresume : { w.session with now := t }.resume c w.request 0 a = some s' := by
    simp only [Session.resume, hk, Option.bind_some, if_pos huniform, hs]
  have hstep : w.session.step c ⟨t, 0, a⟩ = some s' := by
    simp only [Session.step, if_pos ht]
    cases a with
    | start => cases ha
    | wakeLimiter k | transportDone k o | wakeRetry k | cancel k =>
      obtain rfl := Option.some.inj ha
      exact hresume
  simp only [step, hstep, Option.map_some, ha, if_true, hk, Option.bind_some]

theorem Follows.at_phase {w : Watched} {p : Phase} (hw : Follows n w) (hp : w.phase = some p) :
    ∃ r, w.session.requests[w.request]? = some r ∧ r.policy.retryable = networkErrors ∧ r.policy.maxAttempts = n ∧
      r.phase = p ∧ Stage n w.record p := by
  obtain ⟨r, hk, hr, hn, hstage⟩ := hw
  rw [phase, hk] at hp
  obtain rfl := Option.some.inj hp
  exact ⟨r, hk, hr, hn, rfl, hstage⟩

theorem phase_turn {s s' : Session} {k : ℕ} {r : Request} {p : Phase} {a b x y : ℕ} (h : s.Turn k r s' p a b x y)
    (hk : s.requests[k]? = some r) (v : RequestRecord) : (⟨s', k, v⟩ : Watched).phase = some p := by
  show s'.requests[k]?.map _ = _
  rw [h.requests, List.getElem?_set_self (List.getElem?_eq_some_iff.1 hk).1]
  rfl

theorem answeredBy_note {v : RequestRecord} (ha : AnsweredBy o v) {ended : Option AttemptEnd}
    (he : ∀ a ∈ ended, a = .rejected ∨ a = .ofOutcome (o v.ends.length)) (s s' : Session) : AnsweredBy o (v.note ended s s') := by
  intro i a hi
  show a = _ ∨ a = _
  have hi : (v.ends ++ ended.toList)[i]? = some a := hi
  rw [List.getElem?_append] at hi
  split_ifs at hi with hlt
  · exact ha i a hi
  · cases ended with
    | none => cases hi
    | some b =>
      have hzero : i - v.ends.length = 0 := by
        by_contra hne
        rw [Option.toList_some, List.getElem?_eq_none (by simp; omega)] at hi
        cases hi
      rw [hzero] at hi
      obtain rfl := Option.some.inj hi
      have hlen : i = v.ends.length := by omega
      exact hlen ▸ he b rfl

/-- The actions other than the answer of the transport end an attempt only by a rejection. -/
theorem answeredBy_rejected {v : RequestRecord} (ha : AnsweredBy o v) {a : SessionAction} (hno : ∀ k x, a ≠ .transportDone k x)
    (s : Session) (host : Str) (s₁ s₂ : Session) : AnsweredBy o (v.note (s.attemptEnd c host a) s₁ s₂) := by
  refine answeredBy_note ha (fun b hb => .inl ?_) s₁ s₂
  cases a with
  | start url priority => exact (Option.some.inj (Option.ite_none_right_eq_some.1 hb).2).symm
  | wakeLimiter k => exact (Option.some.inj (Option.ite_none_right_eq_some.1 hb).2).symm
  | wakeRetry k => exact (Option.some.inj (Option.ite_none_right_eq_some.1 hb).2).symm
  | transportDone k x => exact absurd rfl (hno k x)
  | cancel k => cases hb

/-- A call can be run on, if it can after an event of its own. -/
theorem canEnd_own {w : Watched} {r : Request} {t : ℚ} {a : SessionAction} {s' : Session} (hpos : 0 < n) (hw : Follows n w)
    (hk : w.session.requests[w.request]? = some r) (ht : w.session.now ≤ t) (ha : a.request = some w.request)
    (hc : w.cancelsCall ⟨t, 0, a⟩ = false)
    (hs : { w.session with now := t }.resumeFrom c w.request r 0 a r.phase = some s')
    (hanswers : AnsweredBy o (w.record.note ({ w.session with now := t }.attemptEnd c r.host a) w.session s'))
    (hnext : ∀ v, Follows n ⟨s', w.request, v⟩ → AnsweredBy o v → CanEnd c o ⟨s', w.request, v⟩) : CanEnd c o w := by
  have hstep := step_own hk ht ha hs
  have hfollows := follows_step hpos hw hc hstep
  exact CanEnd.before hc hstep (hnext _ hfollows hanswers)

/-- A call asleep before a retry can be run on, if it could from the transport. -/
theorem canEnd_backoff {w : Watched} {i : ℕ} {wakeAt : ℚ} (hpos : 0 < n) (hw : Follows n w)
    (hp : w.phase = some (.backoff i wakeAt)) (ha : AnsweredBy o w.record)
    (hnext : ∀ w', Follows n w' → w'.phase = some (.transport (i + 1)) → AnsweredBy o w'.record → CanEnd c o w') :
    CanEnd c o w := by
  obtain ⟨r, hk, hr, hn, hphase, -⟩ := hw.at_phase hp
  let s : Session := { w.session with now := max w.session.now wakeAt }
  have hs : s.resumeFrom c w.request r 0 (.wakeRetry w.request) r.phase = some (s.guardedCall c w.request r (i + 1) 0) := by
    rw [hphase]
    exact if_pos (le_max_right _ _)
  refine canEnd_own hpos hw hk (le_max_left _ _) rfl rfl hs
    (answeredBy_rejected (a := .wakeRetry w.request) ha nofun s r.host _ _) fun v hfollows hanswers => ?_
  rcases Session.guardedCall_turn (c := c) (s := s) (k := w.request) (n := i + 1) (j := 0) hr with ⟨-, hturn⟩ | ⟨-, hturn⟩
  · exact hnext _ hfollows (phase_turn hturn hk v) hanswers
  · exact canEnd_ended (phase_turn hturn hk v) rfl hanswers

/-- A call in the transport can be run on, if it can be with another attempt, should there be one. -/
theorem canEnd_attempt {w : Watched} {i : ℕ} (hpos : 0 < n) (hw : Follows n w) (hp : w.phase = some (.transport i))
    (ha : AnsweredBy o w.record)
    (hnext : i < n → ∀ w', Follows n w' → w'.phase = some (.transport (i + 1)) → AnsweredBy o w'.record → CanEnd c o w') :
    CanEnd c o w := by
  obtain ⟨r, hk, hr, hn, hphase, -⟩ := hw.at_phase hp
  have hs : w.session.resumeFrom c w.request r 0 (.transportDone w.request (o w.record.ends.length)) r.phase =
      some (w.session.afterTransport c w.request r i 0 (o w.record.ends.length)) := by
    rw [hphase]
    rfl
  have hanswers : AnsweredBy o (w.record.note (some (.ofOutcome (o w.record.ends.length))) w.session
      (w.session.afterTransport c w.request r i 0 (o w.record.ends.length))) :=
    answeredBy_note ha (fun a hm => .inr (Option.some.inj hm).symm) _ _
  apply canEnd_own hpos hw hk le_rfl rfl rfl hs hanswers
  intro v hfollows hanswers
  rcases Session.afterTransport_turn (c := c) (s := w.session) (k := w.request) (n := i) (j := 0)
    (o w.record.ends.length) hr with ⟨-, hturn⟩ | ⟨e, -, hfail⟩
  · exact canEnd_ended (phase_turn hturn hk v) rfl hanswers
  · cases hfail with
    | propagates _ hturn => exact canEnd_ended (phase_turn hturn hk v) rfl hanswers
    | exceeds _ _ hturn => exact canEnd_ended (phase_turn hturn hk v) rfl hanswers
    | overflows _ _ _ hturn => exact canEnd_ended (phase_turn hturn hk v) rfl hanswers
    | retries _ hlt _ hturn =>
      exact canEnd_backoff hpos hfollows (phase_turn hturn hk v) hanswers (hnext (hn ▸ hlt))

/-- A call in the transport can be run on: each retry uses up an attempt. -/
theorem canEnd_transport (hpos : 0 < n) (m : ℕ) {w : Watched} {i : ℕ} (hw : Follows n w) (hp : w.phase = some (.transport i))
    (hm : n ≤ i + m) (ha : AnsweredBy o w.record) : CanEnd c o w := by
  induction m generalizing w i with
  | zero => exact canEnd_attempt hpos hw hp ha fun hlt => absurd hm (by omega)
  | succ m ih => exact canEnd_attempt hpos hw hp ha fun _ w' hw' hp' ha' => ih hw' hp' (by omega) ha'

/-- A call that wakes in the limiter with enough tokens there can be run on. -/
theorem canEnd_granted {w : Watched} {wakeAt t : ℚ} {r : Request} (hpos : 0 < n) (hw : Follows n w)
    (hp : w.phase = some (.acquiring wakeAt)) (ha : AnsweredBy o w.record) (ht : w.session.now ≤ t) (hwake : wakeAt ≤ t)
    (hk : w.session.requests[w.request]? = some r) (hpass : { w.session with now := t }.passesLimiter c r.host = true) :
    CanEnd c o w := by
  obtain ⟨r', hk', hr, hn, hphase, -⟩ := hw.at_phase hp
  obtain rfl := Option.some.inj (hk.symm.trans hk')
  let s : Session := { w.session with now := t }
  have hs : s.resumeFrom c w.request r 0 (.wakeLimiter w.request) r.phase = some (s.rateLimitedCall c w.request r 0) := by
    rw [hphase]
    exact if_pos hwake
  refine canEnd_own hpos hw hk ht rfl rfl hs
    (answeredBy_rejected (a := .wakeLimiter w.request) ha nofun s r.host _ _) fun v hfollows hanswers => ?_
  rcases Session.rateLimitedCall_turn (c := c) (s := s) (k := w.request) (j := 0) hr (hn ▸ hpos) with
    ⟨hno, -⟩ | ⟨-, ⟨-, hturn⟩ | ⟨-, hturn⟩⟩
  · rw [hpass] at hno
    cases hno
  · exact canEnd_transport hpos n hfollows (phase_turn hturn hk v) (by omega) hanswers
  · exact canEnd_ended (phase_turn hturn hk v) rfl hanswers

/-- A call that the limiter sends to sleep again has its tokens when it wakes. -/
theorem asleep_spec {s : Session} {k : ℕ} {r : Request} {j : ℚ} (hpass : s.passesLimiter c r.host = false) :
    ∃ wait s', s.rateLimitedCall c k r j = s' ∧ s'.now = s.now ∧ 0 ≤ wait ∧
      s'.requests = s.requests.set k { r with phase := .acquiring (s.now + wait) } ∧
      { s' with now := s.now + wait }.passesLimiter c r.host = true := by
  unfold Session.passesLimiter at hpass
  cases hacq : (s.limiter c r.host).acquire (Session.limiterConfig c) s.now 1 with
  | mk l granted =>
    cases granted with
    | none =>
      rw [hacq] at hpass
      cases hpass
    | some wait =>
      have hvalid : (Session.limiterConfig c).Valid := RateLimiter.config_valid c.settings none none nofun
      obtain ⟨hwait, hgrant⟩ := RateLimiter.acquire_after_wait hvalid hacq
      refine ⟨wait, (s.setLimiter r.host l).setPhase k r (.acquiring (s.now + wait)), ?_, rfl, hwait, rfl, ?_⟩
      · unfold Session.rateLimitedCall
        rw [hacq]
      · show (((Function.update s.rateLimiters r.host (some l) r.host).getD _).acquire (Session.limiterConfig c)
          (s.now + wait) 1).2.isNone = true
        rw [Function.update_self, Option.getD_some, hgrant]
        rfl

/-- A call in the limiter can be run on: after one more sleep there are tokens enough. -/
theorem canEnd_acquiring {w : Watched} {wakeAt : ℚ} (hpos : 0 < n) (hw : Follows n w)
    (hp : w.phase = some (.acquiring wakeAt)) (ha : AnsweredBy o w.record) : CanEnd c o w := by
  obtain ⟨r, hk, hr, hn, hphase, -⟩ := hw.at_phase hp
  let s : Session := { w.session with now := max w.session.now wakeAt }
  cases hpass : s.passesLimiter c r.host with
  | true => exact canEnd_granted hpos hw hp ha (le_max_left _ _) (le_max_right _ _) hk hpass
  | false =>
    obtain ⟨wait, s', hs', hnow, hwait, hreq, hgrant⟩ := asleep_spec (k := w.request) (j := 0) hpass
    have hs : s.resumeFrom c w.request r 0 (.wakeLimiter w.request) r.phase = some s' := by
      rw [hphase, ← hs']
      exact if_pos (le_max_right _ _)
    refine canEnd_own hpos hw hk (le_max_left _ _) rfl rfl hs
      (answeredBy_rejected (a := .wakeLimiter w.request) ha nofun s r.host _ _) fun v hfollows hanswers => ?_
    have hslot : s'.requests[w.request]? = some { r with phase := .acquiring (s.now + wait) } := by
      rw [hreq]
      exact List.getElem?_set_self (List.getElem?_eq_some_iff.1 hk).1
    have hphase' : (⟨s', w.request, v⟩ : Watched).phase = some (.acquiring (s.now + wait)) := congrArg (Option.map _) hslot
    have hlater : s'.now ≤ s.now + wait := hnow ▸ le_add_of_nonneg_right hwait
    exact canEnd_granted hpos hfollows hphase' hanswers hlater le_rfl hslot hgrant

theorem canEnd_follows {w : Watched} (hpos : 0 < n) (hw : Follows n w) (ha : AnsweredBy o w.record) : CanEnd c o w := by
  obtain ⟨r, hk, -, -, hstage⟩ := id hw
  have hp : w.phase = some r.phase := by rw [phase, hk]; rfl
  cases hphase : r.phase with
  | acquiring t => exact canEnd_acquiring hpos hw (hp.trans (congrArg some hphase)) ha
  | transport i => exact canEnd_transport hpos n hw (hp.trans (congrArg some hphase)) (by omega) ha
  | backoff i t =>
    exact canEnd_backoff hpos hw (hp.trans (congrArg some hphase)) ha fun w' hw' hp' ha' =>
      canEnd_transport hpos n hw' hp' (by omega) ha'
  | returned => exact canEnd_ended (hp.trans (congrArg some hphase)) rfl ha
  | raised e => exact canEnd_ended (hp.trans (congrArg some hphase)) rfl ha
  | cancelled => rw [hphase] at hstage; exact hstage.elim

end Watched

/-! ## The result -/

variable {settings : Settings} {lib : Stdlib}

/-- A call that starts and is not cancelled can come to its end, whatever the transport answers. -/
theorem requestDone_exists (s : Session) {url : Str} (h : (Session.hostFor (.default settings lib) url).isSome)
    (o : ℕ → Outcome) : ∃ p v, RequestDone (.default settings lib) s url p v ∧ AnsweredBy o v := by
  let c : SessionConfig := .default settings lib
  obtain ⟨host, hhost⟩ := Option.isSome_iff_exists.1 h
  obtain ⟨s', hs⟩ : ∃ s', s.step c ⟨s.now, 0, .start url none⟩ = some s' := by
    have huniform : Uniform 0 c.retryPolicy.jitter 0 := ⟨min_le_left _ _, le_max_left _ _⟩
    obtain ⟨s', hs⟩ : ∃ s', { s with now := s.now }.start c url none 0 = some s' := by
      rw [Session.start, hhost]
      exact ⟨_, rfl⟩
    exact ⟨s', (if_pos le_rfl).trans ((if_pos huniform).trans hs)⟩
  have hstart : Watched.start c s s.now 0 url = some ⟨s', s.requests.length, RequestRecord.note {}
      ({ s with now := s.now }.attemptEnd c host (.start url none)) s s'⟩ := by
    rw [Watched.start, hhost, Option.bind_some, hs]
    rfl
  have hfollows := Watched.follows_start (n := settings.maxRetries + 1) rfl rfl (Nat.succ_pos _) hstart
  have hnone : AnsweredBy o {} := fun i a ha => by cases ha
  have hanswers := Watched.answeredBy_rejected (c := c) hnone (a := .start url none) nofun { s with now := s.now } host s s'
  obtain ⟨w', p, hr, hp, hrun, ha⟩ := Watched.canEnd_follows (c := c) (Nat.succ_pos settings.maxRetries) hfollows hanswers
  exact ⟨p, w'.record, .left hstart hr hp hrun, ha⟩

variable (settings lib) in
/-- A request is served end to end exactly if its URL has a host to serve it and the delay before a retry never
overflows; and every request with a host comes to an end, whatever the transport answers. -/
theorem request_end_to_end_iff (s : Session) (url : Str) :
    (∀ p v, RequestDone (.default settings lib) s url p v →
      (EndToEnd (settings.maxRetries + 1) p v ↔
        (Session.hostFor (.default settings lib) url).isSome ∧ ¬ OverRetried (settings.maxRetries + 1) v.ends)) ∧
    ((Session.hostFor (.default settings lib) url).isSome →
      ∀ o, ∃ p v, RequestDone (.default settings lib) s url p v ∧ AnsweredBy o v) := by
  refine ⟨fun p v h => ?_, fun h o => requestDone_exists s h o⟩
  cases h with
  | refused hnone =>
    rw [hnone]
    refine iff_of_false (fun hend => ?_) nofun
    have hcount := hend.retries
    cases hcount
  | @left time jitter w w' p hstart hr hp hrun =>
    have hhost : (Session.hostFor (.default settings lib) url).isSome := by
      obtain ⟨host, hhost, -⟩ := Option.bind_eq_some_iff.1 hstart
      rw [hhost]
      rfl
    have hfollows := Watched.follows_run (Nat.succ_pos settings.maxRetries)
      (Watched.follows_start (c := .default settings lib) rfl rfl (Nat.succ_pos _) hstart) hr
    obtain ⟨r, -, -, -, -, hstage⟩ := hfollows.at_phase hp
    have hlast : ∃ v₀ i, Tried v₀ i ∧ i < settings.maxRetries + 1 ∧ i < 1025 ∧
        LastAttempt (settings.maxRetries + 1) v₀ p w'.record := by
      cases p with
      | acquiring | transport | backoff => cases hrun
      | cancelled => exact hstage.elim
      | returned | raised => exact hstage
    obtain ⟨v₀, i, htried, hi, hl, hlast⟩ := hlast
    rw [endToEnd_iff_last htried hi hl hlast]
    exact (and_iff_right hhost).symm

/-- A request that times out once and is served at the second attempt. -/
theorem request_end_to_end_retried : ∃ v, RequestDone (.default .defaults .plain) (.init 0) Served.cafeUrl .returned v ∧
    v.ends = [.timeout, .response] ∧ EndToEnd 4 .returned v := by
  let c : SessionConfig := .default .defaults .plain
  let events : List SessionEvent :=
    [⟨1, 0, .transportDone 0 .timeout⟩, ⟨2, 0, .wakeRetry 0⟩, ⟨3, 0, .transportDone 0 .response⟩]
  obtain ⟨w, hw⟩ := Option.isSome_iff_exists.1
    (by decide +kernel : (Watched.start c (.init 0) 0 0 Served.cafeUrl).isSome = true)
  have hrun : ((Watched.start c (.init 0) 0 0 Served.cafeUrl).bind fun w =>
      exec (guarded (fun w e => !w.cancelsCall e) (Watched.step c)) w events).any
        (fun w => decide (w.phase = some .returned ∧ w.record.ends = [.timeout, .response])) = true := by decide +kernel
  rw [hw, Option.bind_some] at hrun
  obtain ⟨w', hexec, hw'⟩ := exec_ends events hrun
  have hreach := reachable_guarded events hexec
  have hdone : RequestDone c (.init 0) Served.cafeUrl .returned w'.record :=
    .left hw (hreach.mono fun w e _ hs => ⟨by simpa using hs.1, hs.2⟩) hw'.1 rfl
  have hiff := (request_end_to_end_iff .defaults .plain (.init 0) Served.cafeUrl).1 .returned w'.record hdone
  exact ⟨w'.record, hdone, hw'.2, hiff.2 ⟨by decide +kernel, fun hover => absurd hover.1 (by decide)⟩⟩

/-- A URL that `urlparse` rejects leaves `request()` before the metrics: it is neither a success nor a failure. -/
theorem unparsable_url_uncounted : ∃ p v,
    RequestDone (.default .defaults (cpython .ascii)) (.init 0) "http://[".toList p v ∧ ¬ EndToEnd 4 p v := by
  refine ⟨.raised .other, {}, .refused (by decide +kernel), fun hend => ?_⟩
  rcases hend.counted with ⟨h, -⟩ | ⟨-, h⟩
  · cases h
  · cases h

end SocialScraper
