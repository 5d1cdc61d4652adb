import Mathlib.Data.List.Perm.Subperm
import SocialScraper.Network.SessionSteps
/-!
# How fast a host is asked

`request()` takes its token once, outside the retry loop, so the token bucket
bounds what goes to the transport on the first round of that loop, and with it
the requests that reach the transport unless a rejected first round is retried
(`first_attempts_bounded`). It does not bound the attempts: `retries_exceed_rate`
is a run with more of those.
-/
open Lib

namespace SocialScraper

/-- The policy of a request retries a rejection by the breaker. -/
def Request.RetriesOpen (r : Request) : Prop := r.policy.retryable .circuitOpen = true

def Phase.tried : Phase → Bool
  | .transport _ | .backoff _ _ => true
  | _ => false

namespace Session

variable {c : SessionConfig}

/-- When requests to `host` were handed to the transport on the first round of their retry loop. -/
def firstRounds (s : Session) (host : Str) : List ℚ :=
  (s.attempts.filter fun a => a.host = host ∧ a.number = 1).map (·.time)

def Numbered : Phase → Prop
  | .transport n | .backoff n _ => 1 ≤ n
  | _ => True

/-- Rounds are numbered from 1, and the attempts at a host on a first round are
among the grants of its limiter. -/
structure RateInv (c : SessionConfig) (s : Session) : Prop where
  numbered : ∀ r ∈ s.requests, Numbered r.phase
  fresh : ∀ host, s.rateLimiters host = none → s.firstRounds host = []
  limited : ∀ host l, s.rateLimiters host = some l →
    ∃ grants, RateLimiter.Account (limiterConfig c) l grants ∧ l.updatedAt ≤ s.now ∧ (s.firstRounds host).Sublist grants

theorem limiterConfig_valid (c : SessionConfig) : (limiterConfig c).Valid :=
  RateLimiter.config_valid c.settings none none (by simp)

/-- The books of a host's limiter, also before it exists. -/
theorem RateInv.books {s : Session} (hi : RateInv c s) (host : Str) :
    ∃ grants, RateLimiter.Account (limiterConfig c) (s.limiter c host) grants ∧ (s.limiter c host).updatedAt ≤ s.now ∧
      (s.firstRounds host).Sublist grants := by
  unfold limiter
  cases hl : s.rateLimiters host with
  | none => exact ⟨[], RateLimiter.account_new (limiterConfig_valid c) s.now, le_refl _, by simp [hi.fresh host hl]⟩
  | some l => exact hi.limited host l hl

theorem numbered_set {l : List Request} (h : ∀ r ∈ l, Numbered r.phase) {k : ℕ} {r : Request} (hr : Numbered r.phase) :
    ∀ r' ∈ l.set k r, Numbered r'.phase := by
  intro r' hr'
  rcases List.mem_or_eq_of_mem_set hr' with hm | rfl
  · exact h r' hm
  · exact hr

/-- A step that touches no limiter and makes no attempt on a first round. -/
theorem RateInv.frame {s s' : Session} (hi : RateInv c s) (hn : s.now ≤ s'.now) (hl : s'.rateLimiters = s.rateLimiters)
    (hf : ∀ host, s'.firstRounds host = s.firstRounds host) (hr : ∀ r ∈ s'.requests, Numbered r.phase) :
    RateInv c s' where
  numbered := hr
  fresh host h := by rw [hf]; exact hi.fresh host (hl ▸ h)
  limited host l h := by
    obtain ⟨grants, ha, hu, hs⟩ := hi.limited host l (hl ▸ h)
    exact ⟨grants, ha, hu.trans hn, by rwa [hf]⟩

theorem numbered_of {p : Phase} {n : ℕ} (hn : 1 ≤ n) (ht : ∀ i, p = .transport i → i = n)
    (hb : ∀ i w, p = .backoff i w → i = n) : Numbered p := by
  cases p with
  | transport i => exact (ht i rfl) ▸ hn
  | backoff i w => exact (hb i w rfl) ▸ hn
  | _ => trivial

theorem rateInv_failAttempt {s : Session} (hi : RateInv c s) (k : ℕ) (r : Request) {n : ℕ} (hn : 1 ≤ n) (j : ℚ)
    (e : NetworkError) : RateInv c (s.failAttempt k r n j e) := by
  obtain ⟨p, m, ht, hb, h⟩ := failAttempt_spec s k r n j e
  rw [h]
  have ht' : ∀ i, p = .transport i → i = n := fun i hp => by simp [hp, Phase.inTransport] at ht
  exact hi.frame (le_refl _) rfl (fun _ => rfl) (numbered_set hi.numbered (numbered_of hn ht' hb))

theorem rateInv_setBreaker {s : Session} (hi : RateInv c s) (host : Str) (b : CircuitBreaker) :
    RateInv c (s.setBreaker host b) := hi.frame (le_refl _) rfl (fun _ => rfl) hi.numbered

theorem guardedCall_numbered {s : Session} (h : ∀ r ∈ s.requests, Numbered r.phase) (k : ℕ) (r : Request) {n : ℕ}
    (hn : 1 ≤ n) (j : ℚ) : ∀ r' ∈ (s.guardedCall c k r n j).requests, Numbered r'.phase := by
  obtain ⟨p, ht, hb, hp⟩ := guardedCall_requests (c := c) s k r n j
  rw [hp]
  exact numbered_set h (numbered_of hn ht hb)

/-- A retry makes no attempt on a first round. -/
theorem rateInv_retry {s : Session} (hi : RateInv c s) (k : ℕ) (r : Request) {n : ℕ} (hn : 1 ≤ n) (j : ℚ) :
    RateInv c (s.guardedCall c k r (n + 1) j) := by
  obtain ⟨hlim, hnow⟩ := guardedCall_frame (c := c) s k r (n + 1) j
  refine hi.frame hnow.ge hlim (fun host => ?_)
    (guardedCall_numbered hi.numbered k r (by omega) j)
  have h1 : n ≠ 0 := by omega
  unfold firstRounds
  rcases guardedCall_attempts (c := c) s k r (n + 1) j with h | h <;> simp [h, h1]

/-- A step that stores a limiter of `host` whose grants cover the first rounds at `host`. -/
theorem RateInv.store {s s' : Session} (hi : RateInv c s) (host : Str) {l : RateLimiter} {grants : List ℚ}
    (hn : s.now ≤ s'.now) (hl : s'.rateLimiters = Function.update s.rateLimiters host (some l))
    (ha : RateLimiter.Account (limiterConfig c) l grants) (hu : l.updatedAt ≤ s'.now)
    (hs : (s'.firstRounds host).Sublist grants) (hf : ∀ h, h ≠ host → s'.firstRounds h = s.firstRounds h)
    (hr : ∀ r ∈ s'.requests, Numbered r.phase) : RateInv c s' where
  numbered := hr
  fresh h hnone := by
    by_cases hh : h = host
    · subst hh
      simp [hl] at hnone
    · rw [hf h hh]
      exact hi.fresh h (by simpa [hl, hh] using hnone)
  limited h l' hsome := by
    by_cases hh : h = host
    · subst hh
      obtain rfl : l = l' := by simpa [hl] using hsome
      exact ⟨grants, ha, hu, hs⟩
    · obtain ⟨g, hg, hug, hsg⟩ := hi.limited h l' (by simpa [hl, hh] using hsome)
      exact ⟨g, hg, hug.trans hn, by rwa [hf h hh]⟩

/-- After a pass of its limiter that granted a token, a request may make its first round. -/
theorem rateInv_granted {s : Session} (hi : RateInv c s) (k : ℕ) (r : Request) (j : ℚ) {l : RateLimiter}
    {grants : List ℚ} (ha : RateLimiter.Account (limiterConfig c) l (s.now :: grants)) (hu : l.updatedAt ≤ s.now)
    (hs : (s.firstRounds r.host).Sublist grants) : RateInv c ((s.setLimiter r.host l).execute c k r j) := by
  unfold execute
  split_ifs
  · obtain ⟨hlim, hnow⟩ := guardedCall_frame (c := c) (s.setLimiter r.host l) k r 1 j
    have hnum := guardedCall_numbered (c := c) (s := s.setLimiter r.host l) hi.numbered k r (le_refl 1) j
    rcases guardedCall_attempts (c := c) (s.setLimiter r.host l) k r 1 j with h | h
    · -- The attempt goes to `r.host` at the time of the grant.
      have hfirst : firstRounds ((s.setLimiter r.host l).guardedCall c k r 1 j) r.host =
          s.now :: s.firstRounds r.host := by simp [firstRounds, h]
      refine hi.store r.host hnow.ge hlim ha (hnow ▸ hu) ?_ ?_ hnum
      · rw [hfirst]
        exact hs.cons_cons _
      · intro host hh
        simp [firstRounds, h, Ne.symm hh]
    · -- The breaker rejects it.
      refine hi.store r.host hnow.ge hlim ha (hnow ▸ hu) ?_ ?_ hnum
      · simpa [firstRounds, h] using hs.cons s.now
      · intro host _
        simp [firstRounds, h]
  · exact hi.store r.host (le_refl _) rfl ha hu (hs.cons _) (fun _ _ => rfl) (numbered_set hi.numbered trivial)

theorem rateInv_waiting {s : Session} (hi : RateInv c s) (k : ℕ) (r : Request) (w : ℚ) {l : RateLimiter}
    {grants : List ℚ} (ha : RateLimiter.Account (limiterConfig c) l grants) (hu : l.updatedAt ≤ s.now)
    (hs : (s.firstRounds r.host).Sublist grants) :
    RateInv c ((s.setLimiter r.host l).setPhase k r (.acquiring w)) :=
  hi.store r.host (le_refl _) rfl ha hu hs (fun _ _ => rfl) (numbered_set hi.numbered trivial)

theorem rateInv_rateLimitedCall {s : Session} (hi : RateInv c s) (k : ℕ) (r : Request) (j : ℚ) :
    RateInv c (s.rateLimitedCall c k r j) := by
  obtain ⟨grants, ha, hu, hs⟩ := hi.books r.host
  have hpass := RateLimiter.account_acquire (limiterConfig_valid c) ha hu
  have hnow := (RateLimiter.acquire_updatedAt (limiterConfig c) s.now 1 (s.limiter c r.host)).le
  unfold rateLimitedCall
  generalize (s.limiter c r.host).acquire (limiterConfig c) s.now 1 = p at hpass hnow ⊢
  obtain ⟨l, w⟩ := p
  cases w with
  | none => exact rateInv_granted hi k r j hpass hnow hs
  | some w => exact rateInv_waiting hi k r _ hpass hnow hs

theorem rateInv_register {s : Session} (hi : RateInv c s) (r : Request) (hr : Numbered r.phase) :
    RateInv c (s.register c r) := by
  obtain ⟨grants, ha, hu, hs⟩ := hi.books r.host
  refine hi.store r.host (le_refl _) rfl ha hu hs (fun _ _ => rfl) ?_
  intro r' hr'
  rcases List.mem_append.1 hr' with hm | hm
  · exact hi.numbered r' hm
  · exact List.mem_singleton.1 hm ▸ hr

theorem rateInv_start {s s' : Session} (hi : RateInv c s) {url : Str} {policy : Option RetryPolicy} {j : ℚ}
    (h : s.start c url policy j = some s') : RateInv c s' := by
  obtain ⟨host, -, rfl⟩ := Option.map_eq_some_iff.1 h
  exact rateInv_rateLimitedCall (rateInv_register hi _ (show Numbered (.acquiring s.now) from trivial)) _ _ _

theorem rateInv_effect {s s' : Session} {e : SessionEvent} (hi : RateInv c s) (h : Effect c s e s') : RateInv c s' := by
  have later : ∀ t, s.now ≤ t → RateInv c { s with now := t } :=
    fun t ht => hi.frame ht rfl (fun _ => rfl) hi.numbered
  cases h with
  | starts ht _ hs => exact rateInv_start (later _ ht) hs
  | acquires ht => exact rateInv_rateLimitedCall (later _ ht) _ _ _
  | @finishes t j k r n o ht hk hp =>
    have hn : 1 ≤ n := by simpa [hp, Numbered] using hi.numbered r (List.mem_of_getElem? hk)
    unfold afterTransport
    cases o.error with
    | none =>
      have hb := rateInv_setBreaker (later t ht) r.host (Session.breaker { s with now := t } r.host).onSuccess
      exact hb.frame (le_refl _) rfl (fun _ => rfl) (numbered_set hb.numbered trivial)
    | some e => exact rateInv_failAttempt (rateInv_setBreaker (later t ht) r.host _) k r hn j e
  | @retries t j k r n w ht hk hp =>
    have hn : 1 ≤ n := by simpa [hp, Numbered] using hi.numbered r (List.mem_of_getElem? hk)
    exact rateInv_retry (later t ht) k r hn j
  | cancels ht =>
    exact (later _ ht).frame (le_refl _) rfl (fun _ => rfl) (numbered_set hi.numbered trivial)

theorem rateInv_reachable {now : ℚ} {s : Session} (h : Reachable (Fires (step c)) (init now) s) : RateInv c s :=
  h.inv (RateInv c) ⟨by simp [init], by simp [init, firstRounds], by simp [init]⟩
    fun _ _ _ hi hs => rateInv_effect hi (effect_of c hs)

/-- The bucket bounds the first rounds in a window, under any policies. -/
theorem first_rounds_bounded {now : ℚ} {s : Session} (h : Reachable (Fires (step c)) (init now) s) (host : Str) {t T : ℚ}
    (hT : 0 ≤ T) :
    ((s.attempts.countP fun a => a.host = host ∧ a.number = 1 ∧ t ≤ a.time ∧ a.time ≤ t + T : ℕ) : ℚ) ≤
      c.settings.rateLimitBurst + c.settings.rateLimitRequestsPerSecond * T := by
  obtain ⟨grants, ha, -, hs⟩ := (rateInv_reachable h).books host
  have hwin := ha.window t (t + T) (by linarith)
  have hcount : (s.attempts.countP fun a => a.host = host ∧ a.number = 1 ∧ t ≤ a.time ∧ a.time ≤ t + T) =
      Bucket.inWindow t (t + T) (s.firstRounds host) := by
    simp only [Bucket.inWindow, firstRounds, List.countP_map, List.countP_filter]
    exact List.countP_congr fun a _ => by simp; tauto
  have hle : (Bucket.inWindow t (t + T) (s.firstRounds host) : ℚ) ≤ Bucket.inWindow t (t + T) grants := by
    exact_mod_cast hs.countP_le
  rw [hcount]
  calc (Bucket.inWindow t (t + T) (s.firstRounds host) : ℚ) ≤ Bucket.inWindow t (t + T) grants := hle
    _ ≤ (limiterConfig c).capacity + (limiterConfig c).rate * (t + T - t) := hwin
    _ = c.settings.rateLimitBurst + c.settings.rateLimitRequestsPerSecond * T := by
      simp [limiterConfig, RateLimiter.config, orDefault]

/-! ## The first attempt of a request -/

/-- The first HTTP attempt of a request; the attempts are logged with the latest first. -/
def firstAttempt (s : Session) (k : ℕ) : Option Attempt := (s.attempts.filter (·.request = k)).getLast?

theorem mem_of_firstAttempt {s : Session} {k : ℕ} {a : Attempt} (h : s.firstAttempt k = some a) :
    a ∈ s.attempts ∧ a.request = k := by
  obtain ⟨hmem, hk⟩ := List.mem_filter.1 (List.mem_of_getLast? h)
  exact ⟨hmem, of_decide_eq_true hk⟩

theorem firstAttempt_cons {s s' : Session} {a : Attempt} (h : s'.attempts = a :: s.attempts) (k : ℕ) :
    s'.firstAttempt k = if a.request = k then some ((s.firstAttempt k).getD a) else s.firstAttempt k := by
  unfold firstAttempt
  rw [h]
  split_ifs with hk
  · rw [List.filter_cons_of_pos (by simpa using hk), List.getLast?_cons]
  · rw [List.filter_cons_of_neg (by simpa using hk)]

/-- The attempt is one of a request whose policy retries a rejection. -/
def RetriedOpen (s : Session) (a : Attempt) : Prop :=
  ∃ r, s.requests[a.request]? = some r ∧ r.host = a.host ∧ r.RetriesOpen

/-- A request past its first round has made an attempt, and it was on that round; or else its policy retries a
rejection. -/
structure FirstInv (s : Session) : Prop where
  tried : ∀ k r, s.requests[k]? = some r → r.phase.tried = true → r.RetriesOpen ∨ (s.firstAttempt k).isSome = true
  first : ∀ k a, s.firstAttempt k = some a → a.number = 1 ∨ s.RetriedOpen a

section
variable {s s' : Session} {k : ℕ} {r : Request} {p : Phase}

theorem RetriedOpen.set {a : Attempt} (h : s.RetriedOpen a) (hk : s.requests[k]? = some r)
    (hr : s'.requests = s.requests.set k { r with phase := p }) : s'.RetriedOpen a := by
  obtain ⟨r', hr', hhost, hopen⟩ := h
  unfold RetriedOpen
  rw [hr]
  by_cases hi : k = a.request
  · rw [hi] at hk ⊢
    obtain rfl := Option.some.inj (hk.symm.trans hr')
    exact ⟨_, List.getElem?_set_self (List.getElem?_eq_some_iff.1 hk).1, hhost, hopen⟩
  · exact ⟨r', (List.getElem?_set_ne hi).trans hr', hhost, hopen⟩

theorem request_of_set {i : ℕ} {r' : Request} (h : (s.requests.set k { r with phase := p })[i]? = some r') :
    i = k ∧ r' = { r with phase := p } ∨ i ≠ k ∧ s.requests[i]? = some r' := by
  by_cases hi : k = i
  · subst hi
    obtain ⟨hlt, hr'⟩ := List.getElem?_eq_some_iff.1 h
    exact .inl ⟨rfl, by rw [← hr', List.getElem_set_self]⟩
  · exact .inr ⟨Ne.symm hi, by rwa [List.getElem?_set_ne hi] at h⟩

/-- A step that makes no attempt. -/
theorem FirstInv.frame (hi : FirstInv s) (hk : s.requests[k]? = some r) (ha : s'.attempts = s.attempts)
    (hr : s'.requests = s.requests.set k { r with phase := p })
    (hp : p.tried = true → r.RetriesOpen ∨ (s.firstAttempt k).isSome = true) : FirstInv s' := by
  have hfirst : ∀ i, s'.firstAttempt i = s.firstAttempt i := fun i => by rw [firstAttempt, ha, firstAttempt]
  constructor
  · intro i r' hr' ht
    rw [hfirst]
    rcases request_of_set (hr ▸ hr') with ⟨rfl, rfl⟩ | ⟨-, hr'⟩
    · exact hp ht
    · exact hi.tried i r' hr' ht
  · intro i a hfa
    exact (hi.first i a (hfirst i ▸ hfa)).imp_right fun h => h.set hk hr

/-- A step that makes an attempt, on the first round of its request or on a later one that has made one before. -/
theorem FirstInv.attempt (hi : FirstInv s) (hk : s.requests[k]? = some r) {a : Attempt} (ha : s'.attempts = a :: s.attempts)
    (hak : a.request = k) (hhost : r.host = a.host) (hr : s'.requests = s.requests.set k { r with phase := p })
    (hn : a.number = 1 ∨ r.RetriesOpen ∨ (s.firstAttempt k).isSome = true) : FirstInv s' := by
  have hfirst := firstAttempt_cons ha
  constructor
  · intro i r' hr' ht
    rw [hfirst]
    rcases request_of_set (hr ▸ hr') with ⟨rfl, -⟩ | ⟨hne, hr'⟩
    · exact .inr (by rw [if_pos hak]; rfl)
    · rw [if_neg fun h => hne (h.symm.trans hak)]
      exact hi.tried i r' hr' ht
  · intro i a' hfa
    have hkept : s.firstAttempt i = some a' → a'.number = 1 ∨ s'.RetriedOpen a' := fun h =>
      (hi.first i a' h).imp_right fun h => h.set hk hr
    rw [hfirst] at hfa
    split_ifs at hfa with hai
    · cases hf : s.firstAttempt i with
      | some a₀ =>
        rw [hf, Option.getD_some] at hfa
        exact hkept (hf.trans hfa)
      | none =>
        rw [hf, Option.getD_none] at hfa
        obtain rfl := Option.some.inj hfa
        refine hn.imp_right fun hn => ?_
        have hopen : r.RetriesOpen := hn.resolve_right (by rw [← hak, hai, hf]; exact Bool.false_ne_true)
        exact RetriedOpen.set ⟨r, hak ▸ hk, hhost, hopen⟩ hk hr
    · exact hkept hfa

theorem failAttempt_tried (s : Session) (k : ℕ) (r : Request) (n : ℕ) (j : ℚ) (e : NetworkError) :
    ∃ p, (s.failAttempt k r n j e).attempts = s.attempts ∧
      (s.failAttempt k r n j e).requests = s.requests.set k { r with phase := p } ∧
      (p.tried = true → r.policy.retryable e = true) := by
  unfold failAttempt
  cases hafter : r.policy.afterFailure n e with
  | propagate => exact ⟨.raised e, rfl, rfl, nofun⟩
  | exceeded => exact ⟨.raised .retryExceeded, rfl, rfl, nofun⟩
  | backoff =>
    have hretryable : r.policy.retryable e = true := by
      unfold RetryPolicy.afterFailure at hafter
      by_contra h
      rw [if_neg h] at hafter
      cases hafter
    dsimp only
    split_ifs
    · exact ⟨.raised .other, rfl, rfl, nofun⟩
    · exact ⟨.backoff n _, rfl, rfl, fun _ => hretryable⟩

theorem firstInv_guardedCall (hi : FirstInv s) (hk : s.requests[k]? = some r) {n : ℕ}
    (hn : n = 1 ∨ r.RetriesOpen ∨ (s.firstAttempt k).isSome = true) (j : ℚ) : FirstInv (s.guardedCall c k r n j) := by
  rcases guardedCall_spec (c := c) s k r n j with ⟨b, -, h⟩ | ⟨b, e, -, h⟩
  · rw [h]
    exact hi.attempt hk rfl rfl rfl rfl hn
  · obtain ⟨p, ha, hr, hp⟩ := failAttempt_tried (s.setBreaker r.host b) k r n j .circuitOpen
    rw [h]
    exact hi.frame hk ha hr fun ht => .inl (hp ht)

theorem firstInv_rateLimitedCall (hi : FirstInv s) (hk : s.requests[k]? = some r) (j : ℚ) :
    FirstInv (s.rateLimitedCall c k r j) := by
  have stored : ∀ l, FirstInv (s.setLimiter r.host l) := fun l => ⟨hi.tried, hi.first⟩
  unfold rateLimitedCall
  rcases (s.limiter c r.host).acquire (limiterConfig c) s.now 1 with ⟨l, _ | wait⟩
  · dsimp only [execute]
    split_ifs
    · exact firstInv_guardedCall (stored l) hk (.inl rfl) j
    · exact hi.frame hk rfl rfl nofun
  · exact hi.frame hk rfl rfl nofun

/-- A new request has tried nothing. -/
theorem firstInv_register (hi : FirstInv s) (hr : r.phase.tried = false) : FirstInv (s.register c r) := by
  have hreq : (s.register c r).requests = s.requests ++ [r] := rfl
  constructor
  · intro i r' hr' ht
    rw [hreq, List.getElem?_append] at hr'
    split_ifs at hr' with hlt
    · exact hi.tried i r' hr' ht
    · obtain rfl := List.mem_singleton.1 (List.mem_of_getElem? hr')
      rw [hr] at ht
      cases ht
  · intro i a hfa
    refine (hi.first i a hfa).imp_right ?_
    rintro ⟨r', hr', h⟩
    exact ⟨r', by rw [hreq, List.getElem?_append_left (List.getElem?_eq_some_iff.1 hr').1, hr'], h⟩

end

theorem firstInv_effect {s s' : Session} {e : SessionEvent} (hi : FirstInv s) (h : Effect c s e s') : FirstInv s' := by
  have later : ∀ t, FirstInv { s with now := t } := fun t => ⟨hi.tried, hi.first⟩
  cases h with
  | @starts t j url policy host _ ht hu hs =>
    obtain ⟨host', -, rfl⟩ := Option.map_eq_some_iff.1 hs
    exact firstInv_rateLimitedCall (firstInv_register (later t) rfl) List.getElem?_concat_length j
  | @acquires t j k r w ht hk hp => exact firstInv_rateLimitedCall (later t) hk j
  | @finishes t j k r n o ht hk hp =>
    unfold afterTransport
    cases o.error with
    | none => exact (later t).frame hk rfl rfl nofun
    | some e =>
      obtain ⟨p, ha, hr, -⟩ := failAttempt_tried (Session.setBreaker { s with now := t } r.host
        ((Session.breaker { s with now := t } r.host).onFailure (breakerConfig c r.host) t)) k r n j e
      exact (later t).frame hk ha hr fun _ => hi.tried k r hk (by rw [hp]; rfl)
  | @retries t j k r n w ht hk hp =>
    exact firstInv_guardedCall (later t) hk (.inr (hi.tried k r hk (by rw [hp]; rfl))) j
  | @cancels t j k r ht hk hp => exact (later t).frame hk rfl rfl nofun

/-- Distinct requests have distinct first attempts, so those picked by a test are no more than the attempts it picks. -/
theorem countP_firstAttempt_le (s : Session) (n : ℕ) {p q : Attempt → Bool}
    (h : ∀ k a, s.firstAttempt k = some a → p a = true → q a = true) :
    ((List.range n).countP fun k => (s.firstAttempt k).any p) ≤ s.attempts.countP q := by
  rw [List.countP_eq_length_filter, List.countP_eq_length_filter, ← List.length_map Attempt.request]
  refine (List.subperm_of_subset (List.nodup_range.filter _) fun k hk => ?_).length_le
  have hany := (List.mem_filter.1 hk).2
  cases hf : s.firstAttempt k with
  | none =>
    rw [hf] at hany
    cases hany
  | some a =>
    rw [hf] at hany
    obtain ⟨hmem, hak⟩ := mem_of_firstAttempt hf
    exact List.mem_map.2 ⟨a, List.mem_filter.2 ⟨hmem, h k a hf hany⟩, hak⟩

/-- In every window of length `T`, at most `burst + requests_per_second * T` HTTP attempts at a host are on the first round
of their request's retry loop, whatever the transport does and however often requests are retried. Unless a policy
retries a rejection by the breaker, so many requests at most make their first HTTP attempt in it. -/
theorem first_attempts_bounded (c : SessionConfig) (now : ℚ) (s : Session)
    (h : Reachable (Fires (step c)) (init now) s) (host : Str) (t T : ℚ) (hT : 0 ≤ T) :
    ((s.attempts.countP fun a => a.host = host ∧ a.number = 1 ∧ t ≤ a.time ∧ a.time ≤ t + T : ℕ) : ℚ) ≤
        c.settings.rateLimitBurst + c.settings.rateLimitRequestsPerSecond * T ∧
      ((∀ r ∈ s.requests, r.host = host → r.policy.retryable .circuitOpen = false) →
        (((List.range s.requests.length).countP fun k =>
            (s.firstAttempt k).any fun a => a.host = host ∧ t ≤ a.time ∧ a.time ≤ t + T : ℕ) : ℚ) ≤
          c.settings.rateLimitBurst + c.settings.rateLimitRequestsPerSecond * T) := by
  have hrounds := first_rounds_bounded h host (t := t) hT
  refine ⟨hrounds, fun hpolicies => le_trans ?_ hrounds⟩
  have hi : FirstInv s := h.inv FirstInv ⟨by simp [init], by simp [init, firstAttempt]⟩
    fun _ _ _ hi hs => firstInv_effect hi (effect_of c hs)
  refine Nat.cast_le.2 (countP_firstAttempt_le s _ fun k a hfa hp => ?_)
  obtain ⟨hhost, hwindow⟩ := of_decide_eq_true hp
  rcases hi.first k a hfa with hone | ⟨r, hr, hsame, hopen⟩
  · exact decide_eq_true ⟨hhost, hone, hwindow⟩
  · have hnot := hpolicies r (List.mem_of_getElem? hr) (hsame.trans hhost)
    rw [Request.RetriesOpen, hnot] at hopen
    cases hopen

/-- One token every ten seconds, and one to begin with. -/
def slowSettings : Settings :=
  { Settings.defaults with
    rateLimitRequestsPerSecond := 1 / 10
    rateLimitBurst := 1
    requestsPerSecond_gt := by decide +kernel
    burst_ge := Nat.zero_lt_one }

def slowSession : SessionConfig := .default slowSettings .plain

/-- A request whose first attempt fails at once and is retried after half a second. -/
def retriedRequest : List SessionEvent :=
  [⟨0, 0, .start "http://a.test/".toList none⟩, ⟨0, 0, .transportDone 0 .timeout⟩, ⟨1 / 2, 0, .wakeRetry 0⟩]

theorem first_attempts_bounded_retried :
    ∃ s, exec (step slowSession) (init 0) retriedRequest = some s ∧
      (((List.range s.requests.length).countP fun k =>
          (s.firstAttempt k).any fun a => a.host = "a.test".toList ∧ 0 ≤ a.time ∧ a.time ≤ 0 + 1 / 2 : ℕ) : ℚ) ≤
        slowSettings.rateLimitBurst + slowSettings.rateLimitRequestsPerSecond * (1 / 2) := by
  have hrun : (exec (step slowSession) (init 0) retriedRequest).any
      (·.requests.all fun r => !r.policy.retryable .circuitOpen) = true := by decide +kernel
  obtain ⟨s, hs, hpolicies⟩ := (Option.any_eq_true _ _).1 hrun
  exact ⟨s, hs, (first_attempts_bounded slowSession 0 s (reachable_of_exec _ hs) "a.test".toList 0 (1 / 2)
    (by decide +kernel)).2 fun r hr _ => by simpa using List.all_eq_true.1 hpolicies r hr⟩

/-- The retry takes no token: two attempts in half a second, where the bucket grants one. -/
theorem retries_exceed_rate :
    ¬ ∀ (c : SessionConfig) (now : ℚ) (s : Session), Reachable (Fires (step c)) (init now) s →
      ∀ (host : Str) (t T : ℚ), 0 ≤ T →
        ((s.attempts.countP fun a => a.host = host ∧ t ≤ a.time ∧ a.time ≤ t + T : ℕ) : ℚ) ≤
          c.settings.rateLimitBurst + c.settings.rateLimitRequestsPerSecond * T := by
  intro h
  refine refutes_of_exec (f := step slowSession) (Q := fun s : Session =>
    ((s.attempts.countP fun a => a.host = "a.test".toList ∧ 0 ≤ a.time ∧ a.time ≤ 0 + 1 / 2 : ℕ) : ℚ) ≤
      slowSettings.rateLimitBurst + slowSettings.rateLimitRequestsPerSecond * (1 / 2)) (s := init 0) retriedRequest ?_ ?_
  · decide +kernel
  · exact fun s hs => h slowSession 0 s hs "a.test".toList 0 (1 / 2) (by decide +kernel)

end Session

end SocialScraper
