import Mathlib.Data.Rat.Floor
import SocialScraper.Lib.Pacing
import SocialScraper.Lib.Workers
import SocialScraper.Network.SessionSteps
/-!
# A dead host

One request after the other to a host whose every attempt fails. The breaker
opens after `failure_threshold` attempts, and from then on a whole recovery
timeout passes between two attempts (`dead_host_not_hammered`), whether they
are first attempts or retries.
-/
open Lib

namespace SocialScraper.Session

variable (c : SessionConfig)

/-- The requests to `host` come one after the other, their attempts all fail,
and no call is cancelled. -/
def DeadHost (host : Str) (s : Session) (e : SessionEvent) : Bool :=
  match e.action with
  | .start url _ => hostFor c url = some host && s.requests.all fun r => !r.phase.running
  | .transportDone _ o => o = .timeout || o = .httpError
  | .cancel _ => false
  | .wakeLimiter _ | .wakeRetry _ => true

/-- When the breaker of `host` first entered OPEN. -/
def firstOpening (s : Session) (host : Str) : Option ℚ :=
  ((s.openings.filter fun o => o.1 = host).getLast?).map (·.2)

/-- The attempts at `host` up to `t`. -/
def attemptsUpTo (s : Session) (host : Str) (t : ℚ) : ℕ := s.attempts.countP fun a => a.host = host ∧ a.time ≤ t

def times (s : Session) : List ℚ := s.attempts.map (·.time)

def running (s : Session) : ℕ := s.requests.countP (·.phase.running)

def inTransport (s : Session) : ℕ := s.requests.countP (·.phase.inTransport)

/-- One request at a time, all to `host`. -/
structure Serial (host : Str) (s : Session) : Prop where
  requests : ∀ r ∈ s.requests, r.host = host
  attempts : ∀ a ∈ s.attempts, a.host = host
  one : s.running ≤ 1

/-- How the attempts and the breaker of `host` go together, by its state. -/
inductive Paces (F : ℕ) (T : ℚ) (host : Str) (s : Session) : Prop
  /-- Each attempt so far is a counted failure or in the transport. -/
  | closed (hb : (s.breaker host).state = .closed) (ho : s.openings = [])
      (hn : s.times.length = (s.breaker host).failureCount + s.inTransport) (hf : (s.breaker host).failureCount < F)
  | «open» {t₀ : ℚ} (hb : (s.breaker host).state = .open) (ho : s.firstOpening host = some t₀)
      (hp : Paced F T t₀ s.times (s.breaker host).openedAt) (hnow : (s.breaker host).openedAt ≤ s.now)
      (hw : s.inTransport = 0)
  /-- The trial is in the transport. -/
  | halfOpen {t₀ t : ℚ} (hb : (s.breaker host).state = .halfOpen) (ho : s.firstOpening host = some t₀)
      (hp : Paced F T t₀ s.times t) (hnow : t ≤ s.now) (hw : s.inTransport = 1)

/-- The invariant of a run against a dead host. -/
structure DeadInv (host : Str) (s : Session) : Prop where
  serial : Serial host s
  paces : Paces (breakerConfig c host).failureThreshold (breakerConfig c host).recoveryTimeout host s

theorem breakerConfig_valid (host : Str) : (breakerConfig c host).Valid :=
  CircuitBreaker.config_valid c.settings host none none none (by simp)

/-! ## The calls of one request at a time -/

section Calls
variable {c} {s : Session} {host : Str} {k : ℕ} {r : Request}

theorem inTransport_le_running (s : Session) : s.inTransport ≤ s.running :=
  List.countP_mono_left fun r _ h => by cases hp : r.phase <;> simp_all [Phase.inTransport, Phase.running]

theorem setPhase_running (hk : s.requests[k]? = some r) (p : Phase) :
    (s.setPhase k r p).running + (if r.phase.running then 1 else 0) = s.running + (if p.running then 1 else 0) :=
  countP_slot (fun r : Request => r.phase.running) hk { r with phase := p }

theorem setPhase_inTransport (hk : s.requests[k]? = some r) (p : Phase) :
    (s.setPhase k r p).inTransport + (if r.phase.inTransport then 1 else 0) =
      s.inTransport + (if p.inTransport then 1 else 0) :=
  countP_slot (fun r : Request => r.phase.inTransport) hk { r with phase := p }

theorem Serial.setPhase (h : Serial host s) (hk : s.requests[k]? = some r) (hr : r.phase.running) (p : Phase) :
    Serial host (s.setPhase k r p) where
  requests := forall_slot h.requests (y := { r with phase := p }) (h.requests r (List.mem_of_getElem? hk))
  attempts := h.attempts
  one := by
    have := setPhase_running hk p
    have := h.one
    rw [if_pos hr] at *
    split_ifs at * <;> omega

/-- The one running request is not in the transport: no attempt is. -/
theorem Serial.none_inTransport (h : Serial host s) (hk : s.requests[k]? = some r) (hr : r.phase.running)
    (ht : r.phase.inTransport = false) : s.inTransport = 0 := by
  have hrun := setPhase_running hk .returned
  have hin := setPhase_inTransport hk .returned
  have hle := inTransport_le_running (s.setPhase k r .returned)
  have := h.one
  rw [if_pos hr, if_neg (by decide)] at hrun
  rw [if_neg (by simp [ht]), if_neg (by decide)] at hin
  omega

/-- The one running request is in the transport: no other attempt is. -/
theorem Serial.one_inTransport (h : Serial host s) (hk : s.requests[k]? = some r)
    (ht : r.phase.inTransport = true) : s.inTransport = 1 := by
  have hin := setPhase_inTransport hk .returned
  have hle := inTransport_le_running s
  have := h.one
  rw [if_pos ht, if_neg (by decide)] at hin
  omega

/-- What the books do not look at may change. -/
theorem Paces.frame {F : ℕ} {T : ℚ} {s' : Session} (h : Paces F T host s) (hb : s'.breaker host = s.breaker host)
    (ho : s'.openings = s.openings) (ha : s'.attempts = s.attempts) (hw : s'.inTransport = s.inTransport)
    (hnow : s.now ≤ s'.now) : Paces F T host s' := by
  have hf : s'.firstOpening host = s.firstOpening host := by rw [firstOpening, ho, firstOpening]
  have ht : s'.times = s.times := by rw [times, ha, times]
  cases h with
  | closed hs hn hl hc => exact .closed (hb ▸ hs) (ho.trans hn) (by rw [ht, hb, hw]; exact hl) (hb ▸ hc)
  | «open» hs hn hp hu h0 =>
    exact .open (hb ▸ hs) (hf.trans hn) (by rw [ht, hb]; exact hp) (by rw [hb]; exact hu.trans hnow) (hw.trans h0)
  | halfOpen hs hn hp hu h1 =>
    exact .halfOpen (hb ▸ hs) (hf.trans hn) (by rw [ht]; exact hp) (hu.trans hnow) (hw.trans h1)

/-- What the invariant does not look at may change. -/
theorem DeadInv.frame {s' : Session} (hi : DeadInv c host s) (hr : s'.requests = s.requests)
    (ha : s'.attempts = s.attempts) (ho : s'.openings = s.openings) (hb : s'.breaker host = s.breaker host)
    (hnow : s.now ≤ s'.now) : DeadInv c host s' where
  serial := ⟨hr ▸ hi.serial.requests, ha ▸ hi.serial.attempts, by rw [running, hr]; exact hi.serial.one⟩
  paces := hi.paces.frame hb ho ha (by rw [inTransport, hr, inTransport]) hnow

theorem setPhase_inTransport_eq (hk : s.requests[k]? = some r) (ht : r.phase.inTransport = false) {p : Phase}
    (hp : p.inTransport = false) : (s.setPhase k r p).inTransport = s.inTransport := by
  simpa [ht, hp] using setPhase_inTransport hk p

/-- A call that is not in the transport and does not get there. -/
theorem DeadInv.aside (hi : DeadInv c host s) (hk : s.requests[k]? = some r) (hr : r.phase.running)
    (ht : r.phase.inTransport = false) {p : Phase} (hp : p.inTransport = false) : DeadInv c host (s.setPhase k r p) :=
  ⟨hi.serial.setPhase hk hr p, hi.paces.frame rfl rfl rfl (setPhase_inTransport_eq hk ht hp) (le_refl _)⟩

/-- The breaker lets an attempt pass only when it is CLOSED or its timeout is over. -/
theorem deadInv_handed (hi : DeadInv c host s) (hk : s.requests[k]? = some r) (hr : r.phase.running)
    (ht : r.phase.inTransport = false) (n : ℕ) {b : CircuitBreaker}
    (hb : (s.breaker host).beforeCall (breakerConfig c host) s.now = (b, .ok ())) :
    DeadInv c host (((s.setBreaker host b).setPhase k r (.transport n)).logAttempt ⟨host, s.now, k, n⟩) := by
  have hv := breakerConfig_valid c host
  have h0 := hi.serial.none_inTransport hk hr ht
  have h1 : ((s.setBreaker host b).setPhase k r (.transport n)).inTransport = 1 := by
    have := setPhase_inTransport (s := s.setBreaker host b) hk (.transport n)
    rw [if_neg (by simp [ht]), if_pos (show (Phase.transport n).inTransport = true from rfl)] at this
    exact this.trans (congrArg (· + 1) h0)
  have hser := hi.serial.setPhase hk hr (.transport n)
  refine ⟨⟨hser.requests, ?_, hser.one⟩, ?_⟩
  · intro a ha
    rcases List.mem_cons.1 ha with rfl | ha
    · rfl
    · exact hi.serial.attempts a ha
  have spec := CircuitBreaker.beforeCall_spec (breakerConfig c host) s.now (s.breaker host) hv.halfOpenMaxCalls
  rw [hb] at spec
  cases spec with
  | closed hs =>
    cases hi.paces with
    | closed _ ho hn hf =>
      -- One more attempt, in the transport and not counted yet.
      refine .closed (by simpa using hs) ?_ ?_ (by simpa using hf)
      · exact (s.setBreaker_openings host fun h => h).trans ho
      · have hlen : s.times.length + 1 = (s.breaker host).failureCount + 1 := by omega
        have hw := h1
        simp only [inTransport, logAttempt_requests, logAttempt_breaker, setPhase_breaker, setBreaker_breaker] at hw ⊢
        rw [hw]
        exact hlen
    | «open» ho => simp [hs] at ho
    | halfOpen ho => simp [hs] at ho
  | recovers hs hlate =>
    cases hi.paces with
    | «open» _ ho hp hnow =>
      -- The trial comes a whole timeout after the last opening.
      have hopen := s.setBreaker_openings host
        (b := { s.breaker host with state := .halfOpen, halfOpenCalls := 1 }) (by simp)
      have hfirst : s.firstOpening host = _ := ho
      exact .halfOpen (by simp) (by simpa [firstOpening, hopen] using hfirst) (hp.push hv.recoveryTimeout hlate)
        (le_refl _) h1
    | closed ho => simp [hs] at ho
    | halfOpen ho => simp [hs] at ho
  | slot hs =>
    -- In HALF_OPEN the one running request is the trial, and this is another.
    cases hi.paces with
    | halfOpen _ _ _ _ hw => omega
    | closed ho => simp [hs] at ho
    | «open» ho => simp [hs] at ho

/-- A rejected attempt leaves the breaker as it is. -/
theorem beforeCall_rejected {b b' : CircuitBreaker} {e : CircuitOpen} {now : ℚ}
    (h : b.beforeCall (breakerConfig c host) now = (b', .error e)) : b' = b := by
  have spec := CircuitBreaker.beforeCall_spec (breakerConfig c host) now b (breakerConfig_valid c host).halfOpenMaxCalls
  rw [h] at spec
  cases spec <;> rfl

theorem deadInv_guardedCall (hi : DeadInv c host s) (hk : s.requests[k]? = some r) (hr : r.phase.running)
    (ht : r.phase.inTransport = false) (n : ℕ) (j : ℚ) : DeadInv c host (s.guardedCall c k r n j) := by
  obtain rfl : r.host = host := hi.serial.requests r (List.mem_of_getElem? hk)
  rcases guardedCall_spec (c := c) s k r n j with ⟨b, hb, h⟩ | ⟨b, e, hb, h⟩
  · rw [h]
    exact deadInv_handed hi hk hr ht n hb
  · obtain rfl := beforeCall_rejected hb
    obtain ⟨p, m, hp, -, hf⟩ := failAttempt_spec (s.setBreaker r.host (s.breaker r.host)) k r n j .circuitOpen
    rw [h, hf]
    exact (hi.aside hk hr ht hp).frame rfl rfl (s.setBreaker_openings r.host fun h => h) (by simp) (le_refl _)

theorem deadInv_rateLimitedCall (hi : DeadInv c host s) (hk : s.requests[k]? = some r) (hr : r.phase.running)
    (ht : r.phase.inTransport = false) (j : ℚ) : DeadInv c host (s.rateLimitedCall c k r j) := by
  have hlim : ∀ l, DeadInv c host (s.setLimiter r.host l) := fun _ => hi.frame rfl rfl rfl rfl (le_refl _)
  unfold rateLimitedCall
  split
  · unfold execute
    split_ifs
    · exact deadInv_guardedCall (hlim _) hk hr ht 1 j
    · exact ((hlim _).aside hk hr ht (p := .raised .retryExceeded) rfl).frame rfl rfl rfl rfl (le_refl _)
  · exact (hlim _).aside hk hr ht rfl

/-! ## A failed attempt -/

theorem firstOpening_first {s' : Session} {t : ℚ} (h : s.openings = []) (h' : s'.openings = (host, t) :: s.openings) :
    s'.firstOpening host = some t := by
  simp [firstOpening, h', h]

theorem firstOpening_later {s' : Session} {t t₀ : ℚ} (h : s.firstOpening host = some t₀)
    (h' : s'.openings = (host, t) :: s.openings) : s'.firstOpening host = some t₀ := by
  obtain ⟨o, ho, rfl⟩ := Option.map_eq_some_iff.1 h
  simp [firstOpening, h', List.getLast?_cons, ho]

/-- The failed attempt is counted, and opens the breaker at the threshold or as a trial. -/
theorem deadInv_failed (hi : DeadInv c host s) (hk : s.requests[k]? = some r) (ht : r.phase.inTransport = true)
    {p : Phase} (hp : p.inTransport = false) :
    DeadInv c host
      ((s.setBreaker host ((s.breaker host).onFailure (breakerConfig c host) s.now)).setPhase k r p) := by
  have hv := breakerConfig_valid c host
  have h1 := hi.serial.one_inTransport hk ht
  have hr : r.phase.running := by cases hph : r.phase <;> simp_all [Phase.inTransport, Phase.running]
  have h0 : (s.setPhase k r p).inTransport = 0 := by
    have := setPhase_inTransport hk p
    rw [if_pos ht, if_neg (by simp [hp]), h1] at this
    omega
  have hser := hi.serial.setPhase hk hr p
  refine ⟨⟨hser.requests, hser.attempts, hser.one⟩, ?_⟩
  have spec := CircuitBreaker.onFailure_spec (breakerConfig c host) s.now (s.breaker host)
  cases hi.paces with
  | closed hb ho hn hf =>
    rcases spec with hopen | ⟨-, hlow, hcount⟩
    · -- All attempts so far are counted failures now.
      rw [hopen]
      have hlen : s.times.length ≤ (breakerConfig c host).failureThreshold := by omega
      have hops := s.setBreaker_opens host (b := { s.breaker host with
        failureCount := (s.breaker host).failureCount + 1, state := .open, openedAt := s.now }) (by simp [hb]) rfl
      refine .open (by simp) (firstOpening_first ho hops) ?_ (by simp) h0
      simpa [times] using Paced.init hv.recoveryTimeout s.now hlen
    · rw [hcount]
      refine .closed (by simpa using hb) ?_ ?_ (by simpa using hlow)
      · exact (s.setBreaker_openings host fun h => h).trans ho
      · have hlen : s.times.length = (s.breaker host).failureCount + 1 := by omega
        have hw : (s.requests.set k { r with phase := p }).countP (·.phase.inTransport) = 0 := h0
        simpa [inTransport, hw, times] using hlen
  | «open» _ _ _ _ hw => omega
  | halfOpen hb ho hp' hnow =>
    rcases spec with hopen | ⟨hne, -⟩
    · -- The trial has failed: a new pause starts now.
      rw [hopen]
      have hops := s.setBreaker_opens host (b := { s.breaker host with
        failureCount := (s.breaker host).failureCount + 1, state := .open, openedAt := s.now }) (by simp [hb]) rfl
      refine .open (by simp) (firstOpening_later ho hops) ?_ (by simp) h0
      simpa [times] using hp'.rearm hv.recoveryTimeout hnow
    · exact absurd hb hne

theorem deadInv_start {s' : Session} (hi : DeadInv c host s) {url : Str} {policy : Option RetryPolicy} {j : ℚ}
    (hu : hostFor c url = some host) (hidle : ∀ r ∈ s.requests, r.phase.running = false)
    (h : s.start c url policy j = some s') : DeadInv c host s' := by
  obtain ⟨host', hu', rfl⟩ := Option.map_eq_some_iff.1 h
  obtain rfl : host = host' := Option.some.inj (hu.symm.trans hu')
  have hidle' : s.running = 0 := List.countP_eq_zero.2 fun r hr => by simp [hidle r hr]
  have hreg : ∀ r : Request, r.host = host → r.phase.inTransport = false → DeadInv c host (s.register c r) := by
    rintro r rfl ht
    refine ⟨⟨fun r' hr' => ?_, hi.serial.attempts, ?_⟩, ?_⟩
    · rcases List.mem_append.1 hr' with hm | hm
      · exact hi.serial.requests r' hm
      · rw [List.mem_singleton.1 hm]
    · have hone : s.running + (if r.phase.running then 1 else 0) ≤ 1 := by split_ifs <;> omega
      simpa [running, register, List.countP_cons] using hone
    · have hops := s.setBreaker_openings r.host (b := s.breaker r.host) fun h => h
      exact hi.paces.frame (s.setBreaker_breaker r.host _) hops rfl (by simp [inTransport, register, ht]) (le_refl _)
  exact deadInv_rateLimitedCall (hreg _ rfl rfl) (by simp [register]) rfl rfl j

end Calls

theorem deadInv_effect {c : SessionConfig} {host : Str} {s s' : Session} {e : SessionEvent} (hi : DeadInv c host s)
    (hd : DeadHost c host s e) (h : Effect c s e s') : DeadInv c host s' := by
  have later : ∀ t, s.now ≤ t → DeadInv c host { s with now := t } :=
    fun t ht => hi.frame rfl rfl rfl rfl ht
  cases h with
  | starts ht hu hs =>
    simp only [DeadHost, Bool.and_eq_true, decide_eq_true_eq, List.all_eq_true, Bool.not_eq_true'] at hd
    exact deadInv_start (later _ ht) hd.1 hd.2 hs
  | acquires ht hk hp =>
    exact deadInv_rateLimitedCall (later _ ht) hk (by simp [hp, Phase.running]) (by simp [hp, Phase.inTransport]) _
  | @finishes t j k r n o ht hk hp =>
    obtain ⟨e, he⟩ : ∃ e, o.error = some e := by
      simp only [DeadHost, Bool.or_eq_true, decide_eq_true_eq] at hd
      rcases hd with rfl | rfl <;> exact ⟨_, rfl⟩
    obtain rfl : r.host = host := hi.serial.requests r (List.mem_of_getElem? hk)
    unfold afterTransport
    rw [he]
    dsimp only
    obtain ⟨p, m, hp', -, hf⟩ := failAttempt_spec (setBreaker { s with now := t } r.host _) k r n j e
    rw [hf]
    exact (deadInv_failed (later t ht) hk (by simp [hp, Phase.inTransport]) hp').frame rfl rfl rfl rfl (le_refl _)
  | retries ht hk hp =>
    exact deadInv_guardedCall (later _ ht) hk (by simp [hp, Phase.running]) (by simp [hp, Phase.inTransport]) _ _
  | cancels => simp [DeadHost] at hd

theorem deadInv_init (c : SessionConfig) (host : Str) (now : ℚ) : DeadInv c host (init now) where
  serial := ⟨by simp [init], by simp [init], by simp [init, running]⟩
  paces := .closed rfl rfl rfl (breakerConfig_valid c host).failureThreshold

/-- With at most one attempt in the transport: at most `F` attempts and no opening, or paced ones from the first on. -/
theorem Paces.summary {F : ℕ} {T : ℚ} {host : Str} {s : Session} (h : Paces F T host s) (h1 : s.inTransport ≤ 1) :
    (s.firstOpening host = none ∧ s.times.length ≤ F) ∨
      ∃ t₀ t, s.firstOpening host = some t₀ ∧ Paced F T t₀ s.times t := by
  cases h with
  | closed _ ho hn hf => exact .inl ⟨by simp [firstOpening, ho], by omega⟩
  | «open» _ ho hp => exact .inr ⟨_, _, ho, hp⟩
  | halfOpen _ ho hp => exact .inr ⟨_, _, ho, hp⟩

theorem attemptsUpTo_eq {host : Str} {s : Session} (h : ∀ a ∈ s.attempts, a.host = host) (t : ℚ) :
    s.attemptsUpTo host t = upTo t s.times := by
  rw [attemptsUpTo, upTo, times, List.countP_map]
  exact List.countP_congr fun a ha => by simp [h a ha]

/-- Until its breaker first opens, a dead host gets at most `failure_threshold`
attempts, and from then on at most one more for each recovery timeout. -/
theorem dead_host_not_hammered (c : SessionConfig) (host : Str) (now : ℚ) (s : Session)
    (h : Reachable (Guarded (fun s e => DeadHost c host s e) (Fires (step c))) (init now) s) (t : ℚ) :
    ((∀ t₀, s.firstOpening host = some t₀ → t < t₀) →
      s.attemptsUpTo host t ≤ (breakerConfig c host).failureThreshold) ∧
    ∀ t₀, s.firstOpening host = some t₀ → t₀ ≤ t →
      s.attemptsUpTo host t ≤
        (breakerConfig c host).failureThreshold + ⌊(t - t₀) / (breakerConfig c host).recoveryTimeout⌋₊ := by
  have hv := breakerConfig_valid c host
  have hi : DeadInv c host s := h.inv (DeadInv c host) (deadInv_init c host now)
    fun _ _ _ hi hs => deadInv_effect hi hs.1 (effect_of c hs.2)
  simp only [attemptsUpTo_eq hi.serial.attempts]
  rcases hi.paces.summary ((inTransport_le_running s).trans hi.serial.one) with ⟨ho, hn⟩ | ⟨t₁, armed, ho, hp⟩
  · exact ⟨fun _ => (upTo_le_length t s.times).trans hn, fun t₀ h₀ => by simp [ho] at h₀⟩
  · have hfloor := fun t (ht : t₁ ≤ t) => hp.floor_bound hv.recoveryTimeout ht
    constructor
    · intro hbefore
      calc upTo t s.times ≤ upTo t₁ s.times := upTo_mono (hbefore t₁ ho).le _
        _ ≤ _ := by simpa using hfloor t₁ (le_refl _)
    · intro t₀ h₀ ht
      obtain rfl : t₁ = t₀ := Option.some.inj (ho.symm.trans h₀)
      exact hfloor t ht

/-- A breaker that opens at the first failure; no retries. -/
def touchySession : SessionConfig :=
  .default
    { Settings.defaults with
      circuitBreakerFailureThreshold := 1
      maxRetries := 0
      failureThreshold_ge := Nat.zero_lt_one }
    .plain

/-- An attempt that opens the breaker, and after the timeout a trial that opens it again. -/
def twoAttempts : List SessionEvent :=
  [⟨0, 0, .start "http://a.test/".toList none⟩, ⟨0, 0, .transportDone 0 .timeout⟩,
    ⟨30, 0, .start "http://a.test/".toList none⟩, ⟨31, 0, .transportDone 1 .httpError⟩]

theorem dead_host_not_hammered_twice :
    ∃ s, exec (guarded (DeadHost touchySession "a.test".toList) (step touchySession)) (init 0) twoAttempts = some s ∧
      s.firstOpening "a.test".toList = some 0 ∧
      s.attemptsUpTo "a.test".toList 31 ≤
        (breakerConfig touchySession "a.test".toList).failureThreshold +
          ⌊(31 - 0) / (breakerConfig touchySession "a.test".toList).recoveryTimeout⌋₊ := by
  obtain ⟨s, hs, ho⟩ := exec_ends (f := guarded (DeadHost touchySession "a.test".toList) (step touchySession))
    (Q := fun s : Session => s.firstOpening "a.test".toList = some 0) (s := init 0) twoAttempts (by decide +kernel)
  exact ⟨s, hs, ho, (dead_host_not_hammered touchySession "a.test".toList 0 s (reachable_guarded _ hs) 31).2 0 ho
    (by decide +kernel)⟩

end SocialScraper.Session
