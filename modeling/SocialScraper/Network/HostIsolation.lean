import SocialScraper.Lib.Threads
import SocialScraper.Network.HostKeys
import SocialScraper.Network.SessionSteps
/-!
# Host isolation

The calls of a session are its threads. `exec_view`: what a run leaves of one
host, its limiter and breaker and calls, is what the calls to that host alone
would leave. So calls with another key change nothing there, and
`host_isolation_iff` says which pairs of sites have keys of their own.
-/
open Lib

namespace SocialScraper

/-- The same action, of another call. -/
def SessionAction.renumber (n : ℕ) : SessionAction → SessionAction
  | .start url policy => .start url policy
  | .wakeLimiter _ => .wakeLimiter n
  | .transportDone _ o => .transportDone n o
  | .wakeRetry _ => .wakeRetry n
  | .cancel _ => .cancel n

namespace Session

/-- The calls of a session, under their URLs. -/
def calls : Threaded SessionEvent Str where
  owner e :=
    match e.action with
    | .start url _ => .inl url
    | .wakeLimiter k | .transportDone k _ | .wakeRetry k | .cancel k => .inr k
  renumber n e := { e with action := e.action.renumber n }
  owner_renumber := by
    rintro ⟨t, j, a⟩ k h n
    cases a with
    | start url policy => cases h
    | wakeLimiter | transportDone | wakeRetry | cancel => rfl
  renumber_renumber := by
    rintro n m ⟨t, j, a⟩
    cases a <;> rfl

/-- Everything a session holds about one host. -/
structure HostView where
  limiter : Option RateLimiter
  breaker : Option CircuitBreaker
  requests : List Request
  /-- When the attempts to the host were made, and which of their calls they were. -/
  attempts : List (ℚ × ℕ)

def view (s : Session) (host : Str) : HostView where
  limiter := s.rateLimiters host
  breaker := s.circuitBreakers host
  requests := s.requests.filter (·.host = host)
  attempts := (s.attempts.filter (·.host = host)).map fun a => (a.time, a.number)

variable (c : SessionConfig)

/-- What a request to the host finds at the time `t`: how long the limiter makes
it wait, if at all, and whether the breaker lets it through. -/
def admission (s : Session) (host : Str) (t : ℚ) : Option ℚ × Bool :=
  let s := { s with now := t }
  (((s.limiter c host).acquire (limiterConfig c) t 1).2, (s.breaker host).admits (breakerConfig c host) t)

/-- What is left of a run without the calls to the host of `u`. -/
def without (u : Str) : List SessionEvent → List SessionEvent := calls.restrict (fun url => hostFor c url != hostFor c u) []

/-- The calls to one host alone. -/
def only (host : Str) : List SessionEvent → List SessionEvent := calls.restrict (fun url => hostFor c url == some host) []

/-- The limiter and breaker of `v` are not those of `u`, and nothing that happens
to the calls to the host of `u` changes what happens to those to the host of `v`. -/
structure Isolated (u v : Str) : Prop where
  apart : hostFor c u ≠ hostFor c v
  unaffected : ∀ (t₀ : ℚ) (es es' : List SessionEvent) (s s' : Session) (host : Str), hostFor c v = some host →
    exec (step c) (init t₀) es = some s → exec (step c) (init t₀) es' = some s' → without c u es = without c u es' →
      s.view host = s'.view host ∧ ∀ t, s.admission c host t = s'.admission c host t

theorem admission_eq {s s' : Session} {host : Str} (h : s.view host = s'.view host) (t : ℚ) :
    s.admission c host t = s'.admission c host t := by
  have hl : s.rateLimiters host = s'.rateLimiters host := congrArg HostView.limiter h
  have hb : s.circuitBreakers host = s'.circuitBreakers host := congrArg HostView.breaker h
  simp only [admission, limiter, breaker, hl, hb]

/-! ## A step touches one host -/

variable {c}

/-- An event of the call `k`, seen from the other hosts. -/
structure Touches (s : Session) (k : ℕ) (r : Request) (s' : Session) : Prop where
  now : s'.now = s.now
  requests : ∃ p, s'.requests = s.requests.set k { r with phase := p }
  limiters : ∀ host ≠ r.host, s'.rateLimiters host = s.rateLimiters host
  breakers : ∀ host ≠ r.host, s'.circuitBreakers host = s.circuitBreakers host
  attempts : ∀ host ≠ r.host, s'.attempts.filter (·.host = host) = s.attempts.filter (·.host = host)

section Touches
variable (s : Session) (k : ℕ) (r : Request) (n : ℕ) (j : ℚ)

theorem setPhase_touches (p : Phase) (m : NetworkMetrics) : Touches s k r ((s.setPhase k r p).setMetrics m) where
  now := rfl
  requests := ⟨p, rfl⟩
  limiters _ _ := rfl
  breakers _ _ := rfl
  attempts _ _ := rfl

theorem Touches.of_breaker {s s' : Session} {k : ℕ} {r : Request} {b : CircuitBreaker}
    (h : Touches (s.setBreaker r.host b) k r s') : Touches s k r s' where
  now := h.now
  requests := h.requests
  limiters := h.limiters
  breakers host hne := (h.breakers host hne).trans (Function.update_of_ne hne _ _)
  attempts := h.attempts

theorem Touches.of_limiter {s s' : Session} {k : ℕ} {r : Request} {l : RateLimiter}
    (h : Touches (s.setLimiter r.host l) k r s') : Touches s k r s' where
  now := h.now
  requests := h.requests
  limiters host hne := (h.limiters host hne).trans (Function.update_of_ne hne _ _)
  breakers := h.breakers
  attempts := h.attempts

theorem Touches.handed {s s' : Session} {k : ℕ} {r : Request} (h : Touches s k r s') (t : ℚ) (i n : ℕ) :
    Touches s k r (s'.logAttempt ⟨r.host, t, i, n⟩) where
  now := h.now
  requests := h.requests
  limiters := h.limiters
  breakers := h.breakers
  attempts host hne := by
    rw [logAttempt_attempts, List.filter_cons_of_neg (by simpa using hne.symm)]
    exact h.attempts host hne

theorem failAttempt_touches (e : NetworkError) : Touches s k r (s.failAttempt k r n j e) := by
  obtain ⟨p, m, -, -, h⟩ := failAttempt_spec s k r n j e
  rw [h]
  exact setPhase_touches s k r p m

theorem guardedCall_touches : Touches s k r (s.guardedCall c k r n j) := by
  rcases guardedCall_spec (c := c) s k r n j with ⟨b, -, h⟩ | ⟨b, e, -, h⟩
  · rw [h]
    exact ((setPhase_touches _ k r (.transport n) s.metrics).handed _ _ _).of_breaker
  · rw [h]
    exact (failAttempt_touches _ k r n j _).of_breaker

theorem rateLimitedCall_touches : Touches s k r (s.rateLimitedCall c k r j) := by
  unfold rateLimitedCall
  split
  · rename_i l _
    have hexec : Touches (s.setLimiter r.host l) k r ((s.setLimiter r.host l).execute c k r j) := by
      unfold execute
      split_ifs
      · exact guardedCall_touches _ k r 1 j
      · exact setPhase_touches _ k r _ _
    exact hexec.of_limiter
  · exact (setPhase_touches _ k r _ s.metrics).of_limiter

theorem afterTransport_touches (o : Outcome) : Touches s k r (s.afterTransport c k r n j o) := by
  unfold afterTransport
  cases o.error with
  | none => exact (setPhase_touches _ k r _ _).of_breaker
  | some e => exact (failAttempt_touches _ k r n j e).of_breaker

end Touches

theorem Touches.view_other {s s' : Session} {k : ℕ} {r : Request} (h : Touches s k r s') (hk : s.requests[k]? = some r)
    {host : Str} (hne : r.host ≠ host) : s'.view host = s.view host := by
  obtain ⟨p, hp⟩ := h.requests
  have hfilter : (s.requests.set k { r with phase := p }).filter (·.host = host) = s.requests.filter (·.host = host) :=
    filter_set_other hk (by simpa using hne) (by simpa using hne)
  rw [view, view, h.limiters host hne.symm, h.breakers host hne.symm, h.attempts host hne.symm, hp, hfilter]

theorem Touches.hosts {s s' : Session} {k : ℕ} {r : Request} (h : Touches s k r s') (hk : s.requests[k]? = some r) :
    s'.requests.map (·.host) = s.requests.map (·.host) := by
  obtain ⟨p, hp⟩ := h.requests
  have hk' : (s.requests.map (·.host))[k]? = some r.host := by rw [List.getElem?_map, hk, Option.map_some]
  rw [hp, List.map_set, set_cons_drop hk', ← take_cons_drop hk']

theorem resumeFrom_touches {s s' : Session} {k : ℕ} {r : Request} {j : ℚ} {a : SessionAction} {p : Phase}
    (h : s.resumeFrom c k r j a p = some s') : Touches s k r s' := by
  cases a with
  | start => cases p <;> cases h
  | wakeLimiter =>
    cases p <;> simp only [resumeFrom, reduceCtorEq, Option.ite_none_right_eq_some, Option.some.injEq] at h
    exact h.2 ▸ rateLimitedCall_touches s k r j
  | transportDone _ o =>
    cases p <;> simp only [resumeFrom, reduceCtorEq, Option.some.injEq] at h
    exact h ▸ afterTransport_touches s k r _ j o
  | wakeRetry =>
    cases p <;> simp only [resumeFrom, reduceCtorEq, Option.ite_none_right_eq_some, Option.some.injEq] at h
    exact h.2 ▸ guardedCall_touches s k r _ j
  | cancel =>
    simp only [resumeFrom, Option.ite_none_right_eq_some, Option.some.injEq] at h
    exact h.2 ▸ setPhase_touches s k r .cancelled s.metrics

/-! ## Two sessions with the same view -/

/-- The call `k` of `s` and the call `i` of `t` are the same, of one host, and
the sessions agree on that host. -/
structure Twin (s : Session) (k : ℕ) (t : Session) (i : ℕ) (r : Request) : Prop where
  now : t.now = s.now
  view : t.view r.host = s.view r.host
  left : s.requests[k]? = some r
  right : t.requests[i]? = some r
  place : rankOf (·.host = r.host) t.requests i = rankOf (·.host = r.host) s.requests k

namespace Twin

variable {s t : Session} {k i : ℕ} {r : Request}

theorem limiter_eq (h : Twin s k t i r) : t.rateLimiters r.host = s.rateLimiters r.host := congrArg HostView.limiter h.view

theorem breaker_eq (h : Twin s k t i r) : t.breaker r.host = s.breaker r.host := by
  have hb : t.circuitBreakers r.host = s.circuitBreakers r.host := congrArg HostView.breaker h.view
  rw [breaker, breaker, hb]

theorem setLimiter (h : Twin s k t i r) (l : RateLimiter) :
    Twin (s.setLimiter r.host l) k (t.setLimiter r.host l) i r where
  now := h.now
  view := by
    have hview := h.view
    simp only [Session.view, HostView.mk.injEq] at hview ⊢
    simp [Session.setLimiter, hview]
  left := h.left
  right := h.right
  place := h.place

theorem setBreaker (h : Twin s k t i r) (b : CircuitBreaker) :
    Twin (s.setBreaker r.host b) k (t.setBreaker r.host b) i r where
  now := h.now
  view := by
    have hview := h.view
    simp only [Session.view, HostView.mk.injEq] at hview ⊢
    simp [Session.setBreaker, hview]
  left := h.left
  right := h.right
  place := h.place

theorem setPhase (h : Twin s k t i r) (p : Phase) : (t.setPhase i r p).view r.host = (s.setPhase k r p).view r.host := by
  have hview := h.view
  simp only [Session.view, HostView.mk.injEq, setPhase_rateLimiters, setPhase_requests, setPhase_attempts] at hview ⊢
  obtain ⟨hl, hb, hr, ha⟩ := hview
  refine ⟨hl, hb, ?_, ha⟩
  rw [filter_set_rank h.left (by simp) (by simp), filter_set_rank h.right (by simp) (by simp), hr, h.place]

theorem handed (h : Twin s k t i r) (p : Phase) (time : ℚ) (n : ℕ) :
    ((t.setPhase i r p).logAttempt ⟨r.host, time, i, n⟩).view r.host =
      ((s.setPhase k r p).logAttempt ⟨r.host, time, k, n⟩).view r.host := by
  have hview := h.setPhase p
  simp only [Session.view, HostView.mk.injEq, logAttempt_rateLimiters, logAttempt_requests, logAttempt_attempts] at hview ⊢
  obtain ⟨hl, hb, hr, ha⟩ := hview
  refine ⟨hl, hb, hr, ?_⟩
  rw [List.filter_cons_of_pos (by simp), List.filter_cons_of_pos (by simp), List.map_cons, List.map_cons, ha]

theorem failAttempt (h : Twin s k t i r) (n : ℕ) (j : ℚ) (e : NetworkError) :
    (t.failAttempt i r n j e).view r.host = (s.failAttempt k r n j e).view r.host := by
  unfold Session.failAttempt
  cases r.policy.afterFailure n e with
  | propagate => exact h.setPhase _
  | exceeded => exact h.setPhase _
  | backoff =>
    dsimp only
    split_ifs
    · exact h.setPhase _
    · rw [setMetrics_now, setMetrics_now, h.now]
      exact h.setPhase _

theorem guardedCall (h : Twin s k t i r) (n : ℕ) (j : ℚ) :
    (t.guardedCall c i r n j).view r.host = (s.guardedCall c k r n j).view r.host := by
  unfold Session.guardedCall
  rw [h.breaker_eq, h.now]
  cases (s.breaker r.host).beforeCall (breakerConfig c r.host) s.now with
  | mk b o =>
    cases o with
    | ok => exact (h.setBreaker b).handed _ _ n
    | error => exact (h.setBreaker b).failAttempt n j _

theorem rateLimitedCall (h : Twin s k t i r) (j : ℚ) :
    (t.rateLimitedCall c i r j).view r.host = (s.rateLimitedCall c k r j).view r.host := by
  have hlimiter : t.limiter c r.host = s.limiter c r.host := by
    rw [Session.limiter, Session.limiter, h.limiter_eq, h.now]
  unfold Session.rateLimitedCall
  rw [hlimiter, h.now]
  cases (s.limiter c r.host).acquire (limiterConfig c) s.now 1 with
  | mk l o =>
    cases o with
    | some wait => exact (h.setLimiter l).setPhase _
    | none =>
      simp only [Session.execute]
      split_ifs
      · exact (h.setLimiter l).guardedCall 1 j
      · exact (h.setLimiter l).setPhase _

theorem afterTransport (h : Twin s k t i r) (n : ℕ) (j : ℚ) (o : Outcome) :
    (t.afterTransport c i r n j o).view r.host = (s.afterTransport c k r n j o).view r.host := by
  unfold Session.afterTransport
  rw [h.breaker_eq, h.now]
  cases o.error with
  | none => exact (h.setBreaker _).setPhase _
  | some e => exact (h.setBreaker _).failAttempt n j e

theorem resumeFrom (h : Twin s k t i r) {j : ℚ} {a : SessionAction} {p : Phase} {s' : Session}
    (hs : s.resumeFrom c k r j a p = some s') :
    ∃ t', t.resumeFrom c i r j (a.renumber i) p = some t' ∧ t'.view r.host = s'.view r.host := by
  cases a with
  | start => cases p <;> cases hs
  | wakeLimiter =>
    cases p <;> simp only [Session.resumeFrom, reduceCtorEq, Option.ite_none_right_eq_some, Option.some.injEq] at hs
    obtain ⟨hw, rfl⟩ := hs
    exact ⟨_, if_pos (h.now ▸ hw), h.rateLimitedCall j⟩
  | transportDone _ o =>
    cases p <;> simp only [Session.resumeFrom, reduceCtorEq, Option.some.injEq] at hs
    subst hs
    exact ⟨_, rfl, h.afterTransport _ j o⟩
  | wakeRetry =>
    cases p <;> simp only [Session.resumeFrom, reduceCtorEq, Option.ite_none_right_eq_some, Option.some.injEq] at hs
    obtain ⟨hw, rfl⟩ := hs
    exact ⟨_, if_pos (h.now ▸ hw), h.guardedCall _ j⟩
  | cancel =>
    simp only [Session.resumeFrom, Option.ite_none_right_eq_some, Option.some.injEq] at hs
    obtain ⟨hp, rfl⟩ := hs
    refine ⟨_, ?_, h.setPhase _⟩
    simp only [SessionAction.renumber, Session.resumeFrom, if_pos hp]

theorem resume (h : Twin s k t i r) {j : ℚ} {a : SessionAction} {s' : Session} (hs : s.resume c k j a = some s') :
    ∃ t', t.resume c i j (a.renumber i) = some t' ∧ t'.view r.host = s'.view r.host ∧ Touches s k r s' ∧ Touches t i r t' := by
  rw [Session.resume, h.left, Option.bind_some] at hs
  obtain ⟨hj, hs⟩ := Option.ite_none_right_eq_some.1 hs
  obtain ⟨t', ht', hview⟩ := h.resumeFrom hs
  refine ⟨t', ?_, hview, resumeFrom_touches hs, resumeFrom_touches ht'⟩
  rw [Session.resume, h.right, Option.bind_some, if_pos hj, ht']

/-- A call that starts in both sessions, on a host they agree on. -/
theorem register (hn : t.now = s.now) (hv : t.view r.host = s.view r.host) :
    Twin (s.register c r) s.requests.length (t.register c r) t.requests.length r where
  now := hn
  view := by
    simp only [Session.view, HostView.mk.injEq] at hv ⊢
    obtain ⟨hl, hb, hr, ha⟩ := hv
    have hlimiter : t.limiter c r.host = s.limiter c r.host := by rw [Session.limiter, Session.limiter, hl, hn]
    have hbreaker : t.breaker r.host = s.breaker r.host := by rw [Session.breaker, Session.breaker, hb]
    simp [Session.register, Session.setLimiter, Session.setBreaker, hlimiter, hbreaker, hr, ha]
  left := by simp [Session.register]
  right := by simp [Session.register]
  place := by
    have hr : t.requests.filter (·.host = r.host) = s.requests.filter (·.host = r.host) := congrArg HostView.requests hv
    simp [Session.register, rankOf, List.countP_eq_length_filter, hr]

end Twin

theorem register_view_other (s : Session) (r : Request) {host : Str} (hne : r.host ≠ host) :
    (s.register c r).view host = s.view host := by
  simp [view, register, setLimiter, setBreaker, hne, Function.update_of_ne hne.symm]

/-! ## Runs -/

/-- The session `t` holds of one host what `s` does, and nothing else; `names` are the calls of `s`. -/
structure Mirrors (c : SessionConfig) (host : Str) (names : List Str) (s t : Session) : Prop where
  now : t.now ≤ s.now
  view : t.view host = s.view host
  own : t.requests = s.requests.filter (·.host = host)
  names : names.map (hostFor c) = s.requests.map fun r => some r.host

namespace Mirrors

variable {host : Str} {names : List Str} {s t : Session}

/-- The request of a call, by its URL. -/
theorem request (h : Mirrors c host names s t) {k : ℕ} {r : Request} (hk : s.requests[k]? = some r) :
    ∃ url, names[k]? = some url ∧ hostFor c url = some r.host := by
  have hmap := congrArg (·[k]?) h.names
  simp only [List.getElem?_map, hk, Option.map_some] at hmap
  obtain ⟨url, hurl, hhost⟩ := Option.map_eq_some_iff.1 hmap
  exact ⟨url, hurl, hhost⟩

theorem rank_eq (h : Mirrors c host names s t) (k : ℕ) :
    rankOf (fun url => hostFor c url == some host) names k = rankOf (·.host = host) s.requests k := by
  have hmap := congrArg (fun l => (l.take k).countP (· == some host)) h.names
  simp only [← List.map_take, List.countP_map] at hmap
  refine hmap.trans (List.countP_congr ?_)
  intro r _
  simp

theorem at_time (h : Mirrors c host names s t) {time : ℚ} (ht : s.now ≤ time) :
    t.now ≤ time ∧ Mirrors c host names { s with now := time } { t with now := time } :=
  ⟨h.now.trans ht, le_rfl, h.view, h.own, h.names⟩

theorem later (h : Mirrors c host names s t) {time : ℚ} (ht : s.now ≤ time) : Mirrors c host names { s with now := time } t :=
  ⟨h.now.trans ht, h.view, h.own, h.names⟩

/-- The call `k` goes on in `s`, and in `t` if it is to the host. -/
theorem goesOn (h : Mirrors c host names s t) {k : ℕ} {r : Request} (hk : s.requests[k]? = some r) (hr : r.host = host)
    (hn : t.now = s.now) : Twin s k t (rankOf (·.host = host) s.requests k) r := by
  subst hr
  refine ⟨hn, h.view, hk, ?_, ?_⟩
  · rw [h.own]
    exact getElem?_filter_rank hk (by simp)
  · rw [h.own]
    exact rank_rank (fun _ => id) _ _

/-- An event of a call leaves the hosts of all calls as they are. -/
theorem names_after (h : Mirrors c host names s t) {k : ℕ} {r : Request} {s' : Session} (hk : s.requests[k]? = some r)
    (hs : Touches s k r s') : names.map (hostFor c) = s'.requests.map fun r => some r.host := by
  have hhosts := congrArg (List.map some) (hs.hosts hk)
  rw [List.map_map, List.map_map] at hhosts
  exact h.names.trans hhosts.symm

theorem after (h : Mirrors c host names s t) {k i : ℕ} {r : Request} {s' t' : Session} (hk : s.requests[k]? = some r)
    (hi : t.requests[i]? = some r) (hn : t.now = s.now) (hs : Touches s k r s') (ht : Touches t i r t')
    (hv : t'.view host = s'.view host) : Mirrors c host names s' t' where
  now := by rw [hs.now, ht.now, hn]
  view := hv
  own := by
    have hreq : t'.requests.filter (·.host = host) = s'.requests.filter (·.host = host) := congrArg HostView.requests hv
    have hall : ∀ x ∈ t'.requests.map (·.host), x = host := by
      rw [ht.hosts hi, h.own]
      intro x hx
      obtain ⟨y, hy, rfl⟩ := List.mem_map.1 hx
      simpa using (List.mem_filter.1 hy).2
    rw [← hreq, eq_comm, List.filter_eq_self]
    intro x hx
    simpa using hall x.host (List.mem_map_of_mem hx)
  names := h.names_after hk hs

/-- A call to the host starts in both sessions. -/
theorem starts (h : Mirrors c host names s t) (hn : t.now = s.now) {url : Str} {r : Request} (hu : hostFor c url = some host)
    (hr : r.host = host) : Mirrors c host (names ++ [url]) (s.register c r) (t.register c r) where
  now := hn.le
  view := hr ▸ (Twin.register hn (hr ▸ h.view)).view
  own := by simp [register, setLimiter, setBreaker, h.own, hr]
  names := by simp [register, setLimiter, setBreaker, h.names, hu, hr]

/-- A call to another host starts in `s` alone. -/
theorem starts_other (h : Mirrors c host names s t) {url : Str} {r : Request} (hu : hostFor c url = some r.host)
    (hr : r.host ≠ host) : Mirrors c host (names ++ [url]) (s.register c r) t where
  now := h.now
  view := h.view.trans (register_view_other s r hr).symm
  own := by simp [register, setLimiter, setBreaker, h.own, hr]
  names := by simp [register, setLimiter, setBreaker, h.names, hu]

theorem after_other (h : Mirrors c host names s t) {k : ℕ} {r : Request} {s' : Session} (hk : s.requests[k]? = some r)
    (hr : r.host ≠ host) (hs : Touches s k r s') : Mirrors c host names s' t where
  now := hs.now ▸ h.now
  view := h.view.trans (hs.view_other hk hr).symm
  own := by
    have hreq : s'.requests.filter (·.host = host) = s.requests.filter (·.host = host) :=
      congrArg HostView.requests (hs.view_other hk hr)
    rw [h.own, hreq]
  names := h.names_after hk hs

end Mirrors

theorem register_slot (s : Session) (r : Request) : (s.register c r).requests[s.requests.length]? = some r := by
  simp [register]

/-- An event of a call that was started before. -/
theorem step_acts {s : Session} {e : SessionEvent} {k : ℕ} (h : calls.owner e = .inr k) :
    step c s e = if s.now ≤ e.time then { s with now := e.time }.resume c k e.jitter e.action else none := by
  obtain ⟨time, j, a⟩ := e
  cases a with
  | start => cases h
  | wakeLimiter | transportDone | wakeRetry | cancel =>
    obtain rfl := Sum.inr.inj h
    rfl

theorem step_starts {s s' : Session} {e : SessionEvent} {url : Str} (h : calls.owner e = .inl url)
    (hs : step c s e = some s') : s.now ≤ e.time ∧ ∃ policy r, e.action = .start url policy ∧
      Uniform 0 (policy.getD c.retryPolicy).jitter e.jitter ∧ hostFor c url = some r.host ∧
      r = ⟨r.host, policy.getD c.retryPolicy, e.time, .acquiring e.time⟩ ∧
      s' = ({ s with now := e.time }.register c r).rateLimitedCall c s.requests.length r e.jitter := by
  obtain ⟨time, j, a⟩ := e
  cases a with
  | start url' policy =>
    obtain rfl := Sum.inl.inj h
    unfold step at hs
    obtain ⟨ht, hs⟩ := Option.ite_none_right_eq_some.1 hs
    obtain ⟨hj, hs⟩ := Option.ite_none_right_eq_some.1 hs
    obtain ⟨host, hhost, rfl⟩ := Option.map_eq_some_iff.1 hs
    exact ⟨ht, policy, ⟨host, policy.getD c.retryPolicy, time, .acquiring time⟩, rfl, hj, hhost, rfl, rfl⟩
  | wakeLimiter | transportDone | wakeRetry | cancel => cases h

theorem starts_step {t : Session} {e : SessionEvent} {url : Str} {policy : Option RetryPolicy} {r : Request} (ht : t.now ≤ e.time)
    (ha : e.action = .start url policy) (hj : Uniform 0 (policy.getD c.retryPolicy).jitter e.jitter)
    (hhost : hostFor c url = some r.host) (hr : r = ⟨r.host, policy.getD c.retryPolicy, e.time, .acquiring e.time⟩) :
    step c t e = some (({ t with now := e.time }.register c r).rateLimitedCall c t.requests.length r e.jitter) := by
  unfold step
  rw [if_pos ht, ha]
  dsimp only
  rw [if_pos hj, start, hhost, Option.map_some, hr]

section Step
variable {host : Str} {names : List Str} {s t s' : Session} {e : SessionEvent}

/-- An event of a call to the host, in both sessions. -/
theorem mirrors_keep (h : Mirrors c host names s t) (hs : step c s e = some s') {url : Str}
    (hname : calls.name names e = some url) (hu : hostFor c url = some host) :
    ∃ t', step c t (calls.move (fun url => hostFor c url == some host) names e) = some t' ∧
      Mirrors c host (calls.next names e) s' t' := by
  cases ho : calls.owner e with
  | inl url' =>
    obtain ⟨ht, policy, r, ha, hj, hhost, hr, rfl⟩ := step_starts ho hs
    obtain ⟨ht', hm⟩ := h.at_time ht
    rw [Threaded.name_start ho] at hname
    obtain rfl := Option.some.inj hname
    have hrhost : r.host = host := Option.some.inj (hhost.symm.trans hu)
    have hstart := hm.starts (r := r) rfl hu hrhost
    have htwin : Twin ({ s with now := e.time }.register c r) s.requests.length ({ t with now := e.time }.register c r)
        t.requests.length r := Twin.register rfl (hrhost ▸ hm.view)
    refine ⟨({ t with now := e.time }.register c r).rateLimitedCall c t.requests.length r e.jitter, ?_, ?_⟩
    · rw [Threaded.move_start ho]
      exact starts_step ht' ha hj hhost hr
    · rw [Threaded.next_start ho]
      exact hstart.after htwin.left htwin.right rfl (rateLimitedCall_touches _ _ r _) (rateLimitedCall_touches _ _ r _)
        (hrhost ▸ htwin.rateLimitedCall e.jitter)
  | inr k =>
    rw [step_acts ho] at hs
    obtain ⟨ht, hs⟩ := Option.ite_none_right_eq_some.1 hs
    obtain ⟨ht', hm⟩ := h.at_time ht
    obtain ⟨r, hk, -⟩ := resume_some c hs
    obtain ⟨url', hurl, hhost⟩ := h.request hk
    rw [Threaded.name_acts ho, hurl] at hname
    obtain rfl := Option.some.inj hname
    have hrhost : r.host = host := Option.some.inj (hhost.symm.trans hu)
    have htwin := hm.goesOn hk hrhost rfl
    obtain ⟨t', hresume, hview, htouches, htouches'⟩ := htwin.resume hs
    refine ⟨t', ?_, ?_⟩
    · rw [Threaded.move_acts ho, step_acts (calls.owner_renumber ho _), h.rank_eq k]
      exact (if_pos ht').trans hresume
    · rw [Threaded.next_acts ho]
      exact hm.after hk htwin.right rfl htouches htouches' (hrhost ▸ hview)

/-- An event of a call to another host, in one of the sessions. -/
theorem mirrors_drop (h : Mirrors c host names s t) (hs : step c s e = some s')
    (hother : ∀ url, calls.name names e = some url → (hostFor c url == some host) = false) :
    Mirrors c host (calls.next names e) s' t := by
  cases ho : calls.owner e with
  | inl url =>
    obtain ⟨ht, policy, r, -, -, hhost, -, rfl⟩ := step_starts ho hs
    have hrhost : r.host ≠ host := by
      rintro rfl
      have hne := hother url (Threaded.name_start ho names)
      simp [hhost] at hne
    rw [Threaded.next_start ho]
    exact ((h.later ht).starts_other hhost hrhost).after_other (register_slot _ r) hrhost (rateLimitedCall_touches _ _ r _)
  | inr k =>
    rw [step_acts ho] at hs
    obtain ⟨ht, hs⟩ := Option.ite_none_right_eq_some.1 hs
    obtain ⟨r, hk, hresume⟩ := resume_some c hs
    obtain ⟨url, hurl, hhost⟩ := h.request hk
    have hrhost : r.host ≠ host := by
      rintro rfl
      have hne := hother url ((Threaded.name_acts ho names).trans hurl)
      simp [hhost] at hne
    rw [Threaded.next_acts ho]
    exact (h.later ht).after_other hk hrhost (resumeFrom_touches hresume)

end Step

theorem mirrors_init (host : Str) (t₀ : ℚ) : Mirrors c host [] (init t₀) (init t₀) := ⟨le_rfl, rfl, rfl, rfl⟩

/-- What a run leaves of a host is what the calls to it alone leave. -/
theorem exec_view (host : Str) {t₀ : ℚ} {es : List SessionEvent} {s : Session} (h : exec (step c) (init t₀) es = some s) :
    ∃ t, exec (step c) (init t₀) (only c host es) = some t ∧ t.view host = s.view host := by
  obtain ⟨names, t, ht, hm⟩ := calls.exec_restrict (Mirrors c host)
    (fun _ _ _ _ _ _ hm hs hname hp => mirrors_keep hm hs hname (beq_iff_eq.1 hp))
    (fun _ _ _ _ _ hm hs hother => mirrors_drop hm hs hother) (mirrors_init host t₀) h
  exact ⟨t, ht, hm.view⟩

/-- The calls to one host are among those that are not to another one. -/
theorem only_without {u : Str} {host : Str} (h : hostFor c u ≠ some host) (es : List SessionEvent) :
    only c host (without c u es) = only c host es := by
  refine Threaded.restrict_restrict (T := calls) (fun url hurl => ?_) [] es
  have hhost : hostFor c url = some host := beq_iff_eq.1 hurl
  exact bne_iff_ne.2 fun hsame => h (hsame.symm.trans hhost)

/-- Two runs that differ in the calls to one host leave the same of another one. -/
theorem unaffected_of_apart {u : Str} {host : Str} (h : hostFor c u ≠ some host) {t₀ : ℚ} {es es' : List SessionEvent}
    {s s' : Session} (hs : exec (step c) (init t₀) es = some s) (hs' : exec (step c) (init t₀) es' = some s')
    (hsame : without c u es = without c u es') : s.view host = s'.view host := by
  obtain ⟨t, ht, hv⟩ := exec_view host hs
  obtain ⟨t', ht', hv'⟩ := exec_view host hs'
  rw [← only_without h, hsame, only_without h, ht'] at ht
  rw [← hv, ← hv', Option.some.inj ht]

/-! ## Isolation -/

theorem isolated_iff_apart {u v : Str} : Isolated c u v ↔ hostFor c u ≠ hostFor c v := by
  constructor
  · exact fun h => h.apart
  · intro h
    refine ⟨h, fun t₀ es es' s s' host hv hs hs' hsame => ?_⟩
    have hview := unaffected_of_apart (hv ▸ h) hs hs' hsame
    exact ⟨hview, fun t => admission_eq c hview t⟩

theorem hostFor_valid {uc : Unicode} {url : Str} (hc : c.lib = cpython uc) (h : isValidUrl (cpython uc) url = true) :
    hostFor c url = some (keyOf uc url) := by
  obtain ⟨hkey, hne, -⟩ := key_spec h
  rw [hostFor, hc, hkey, Option.map_some, if_neg hne]

/-- Valid URLs of different sites are isolated from each other unless the scheme
of one is taken for its host, and the other one has the same key. -/
theorem host_isolation_iff (uc : Unicode) (c : SessionConfig) (hc : c.lib = cpython uc) (u v : Str)
    (hu : isValidUrl c.lib u = true) (hv : isValidUrl c.lib v = true) (hsites : siteOf c.lib u ≠ siteOf c.lib v) :
    Isolated c u v ↔ ¬ (Confused c.lib u v ∨ Confused c.lib v u) := by
  rw [hc] at hu hv hsites ⊢
  rw [isolated_iff_apart, hostFor_valid hc hu, hostFor_valid hc hv, ← keyOf_ne_iff hu hv hsites]
  simp

def unsetSession : SessionConfig := .default .defaults (cpython .ascii)

theorem host_isolation_ports : Isolated unsetSession "HTTPS://cafe.test/".toList "http://me@www.bar.test:8080/menu".toList :=
  (host_isolation_iff .ascii unsetSession rfl _ _ (by decide +kernel) (by decide +kernel) (by decide +kernel)).2
    (by decide +kernel)

/-- Five requests that are under way together, and time out. -/
def timeouts (url : Str) : List SessionEvent :=
  List.replicate 5 ⟨0, 0, .start url none⟩ ++ (List.range 5).map fun k => ⟨1, 0, .transportDone k .timeout⟩

/-- Two sites whose URLs spell the scheme in capitals share a breaker: timeouts on one close the other one off. -/
theorem capital_schemes_share :
    isValidUrl unsetSession.lib "HTTP://cafe.test/".toList = true ∧ isValidUrl unsetSession.lib "HTTP://bar.test/".toList = true ∧
      siteOf unsetSession.lib "HTTP://cafe.test/".toList ≠ siteOf unsetSession.lib "HTTP://bar.test/".toList ∧
      ¬ Isolated unsetSession "HTTP://cafe.test/".toList "HTTP://bar.test/".toList := by
  refine ⟨by decide +kernel, by decide +kernel, by decide +kernel, fun h => ?_⟩
  obtain ⟨s, hs, hrejects⟩ := exec_ends (f := step unsetSession)
    (Q := fun s : Session => (s.admission unsetSession "http:".toList 2).2 = false) (s := init 0)
    (timeouts "HTTP://cafe.test/".toList) (by decide +kernel)
  have hwithout : without unsetSession "HTTP://cafe.test/".toList (timeouts "HTTP://cafe.test/".toList) = [] :=
    List.isEmpty_iff.1 (by decide +kernel)
  have hsame := (h.unaffected 0 _ [] s (init 0) "http:".toList (by decide +kernel) hs rfl hwithout).2 2
  rw [hsame] at hrejects
  exact absurd hrejects (by decide +kernel)

end Session

end SocialScraper
