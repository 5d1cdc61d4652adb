import Mathlib.Data.List.Count
import SocialScraper.Network.BreakerCalls
/-!
# What concurrent calls can do to a breaker

- `open_means_open`: OPEN admits nothing until the recovery timeout, unless a
  call admitted before it returns successfully first. `stale_success_reopens`
  is such a run.
- `half_open_slots`: a half-open period can only run out of calls when as many
  of its trials are cancelled as it has slots. `cancelled_trial_wedges` is such a run.
- `half_open_trials_bounded`: at most `halfOpenMaxCalls` trials are in flight,
  unless a half-open period begins with a trial of an earlier one still
  running. `stale_failure_adds_trial` is such a run.
-/
open Lib

namespace SocialScraper.Calls

/-! ## Open means open -/

/-- No call is admitted strictly between an opening and its recovery timeout. -/
def OpenMeansOpen (c : BreakerConfig) (s : Calls) : Prop :=
  ∀ t₀ ∈ s.openings, ∀ t ∈ s.admissions, ¬ (t₀ < t ∧ t < t₀ + c.recoveryTimeout)

instance (c : BreakerConfig) : DecidablePred (OpenMeansOpen c) := fun s => by
  unfold OpenMeansOpen; infer_instance

/-- A call that returns while the breaker is OPEN does so after the recovery
timeout of every opening so far. -/
def NoEarlySuccess (c : BreakerConfig) (s : Calls) (e : CallEvent) : Prop :=
  ∀ f, e.action = .finish f .returned → s.breaker.state = .open → ∀ t₀ ∈ s.openings, t₀ + c.recoveryTimeout ≤ e.time

/-- History lies in the past. -/
structure Past (s : Calls) : Prop where
  openings : ∀ t ∈ s.openings, t ≤ s.now
  admissions : ∀ t ∈ s.admissions, t ≤ s.now
  periods : ∀ f ∈ s.inFlight, f.period ≤ s.period

theorem past_effect {c : BreakerConfig} {s s' : Calls} {e : CallEvent} (hp : Past s) (h : Effect c s e s') :
    Past s' := by
  have hle : s.now ≤ s'.now := (effect_time h).2 ▸ (effect_time h).1
  have ho : ∀ t ∈ s.openings, t ≤ s'.now := fun t ht => (hp.openings t ht).trans hle
  have ha : ∀ t ∈ s.admissions, t ≤ s'.now := fun t ht => (hp.admissions t ht).trans hle
  have he : ∀ f g : InFlight, g ∈ s.inFlight.erase f → g.period ≤ s.period :=
    fun f g hg => hp.periods g (List.mem_of_mem_erase hg)
  cases h with
  | rejected => exact ⟨ho, ha, hp.periods⟩
  | admitted | slot => exact ⟨ho, by simpa using ha, by simpa using hp.periods⟩
  | recovers =>
    exact ⟨ho, by simpa using ha, by simpa using fun f hf => (hp.periods f hf).trans (Nat.le_succ _)⟩
  | succeeds | counts | cancels => exact ⟨ho, ha, he _⟩
  | opens =>
    refine ⟨?_, ha, he _⟩
    dsimp only
    split_ifs
    · exact ho
    · simpa using ho

theorem past_reachable {c : BreakerConfig} (hm : 1 ≤ c.halfOpenMaxCalls) {t₀ : ℚ} {s : Calls}
    (h : Reachable (Fires (step c)) (init t₀) s) : Past s :=
  h.inv Past ⟨by simp [init], by simp [init], by simp [init]⟩ fun _ _ _ hp hs => past_effect hp (effect_of hm hs)

/-- An opening is over, or the breaker is still OPEN and was armed no earlier. -/
def Armed (c : BreakerConfig) (s : Calls) : Prop :=
  ∀ t₀ ∈ s.openings, t₀ + c.recoveryTimeout ≤ s.now ∨ (s.breaker.state = .open ∧ t₀ ≤ s.breaker.openedAt)

/-- The opening is over once a call is admitted. -/
theorem armed_admission {c : BreakerConfig} {s : Calls} (ha : Armed c s) {t : ℚ} (ht : s.now ≤ t)
    (h : s.breaker.state = .open → s.breaker.openedAt + c.recoveryTimeout ≤ t) :
    ∀ t₀ ∈ s.openings, t₀ + c.recoveryTimeout ≤ t := by
  intro t₀ h0
  rcases ha t₀ h0 with hd | ⟨ho, hle⟩
  · exact hd.trans ht
  · linarith [h ho]

theorem armed_effect {c : BreakerConfig} {s s' : Calls} {e : CallEvent} (hp : Past s) (ha : Armed c s)
    (hn : NoEarlySuccess c s e) (h : Effect c s e s') : Armed c s' := by
  have later : ∀ t, s.now ≤ t → ∀ t₀ ∈ s.openings,
      t₀ + c.recoveryTimeout ≤ t ∨ (s.breaker.state = .open ∧ t₀ ≤ s.breaker.openedAt) :=
    fun t ht t₀ h0 => (ha t₀ h0).imp_left (·.trans ht)
  cases h with
  | rejected ht => exact later _ ht
  | admitted ht | slot ht => exact later _ ht
  | recovers ht hb hr => exact fun t₀ h0 => .inl (armed_admission ha ht (fun _ => hr) t₀ h0)
  | @succeeds t f ht hf =>
    intro t₀ h0
    rcases later t ht t₀ h0 with hd | ⟨ho, -⟩
    · exact .inl hd
    · exact .inl (hn f rfl ho t₀ h0)
  | @opens t f ht hf =>
    intro t₀ h0
    have : t₀ ≤ t := by
      dsimp only at h0
      split_ifs at h0 with ho
      · exact (hp.openings t₀ h0).trans ht
      · rcases List.mem_cons.1 h0 with rfl | h0
        · exact le_refl _
        · exact (hp.openings t₀ h0).trans ht
    exact .inr ⟨rfl, this⟩
  | counts ht => exact later _ ht
  | cancels ht => exact later _ ht

theorem open_effect {c : BreakerConfig} {s s' : Calls} {e : CallEvent} (hp : Past s) (ha : Armed c s)
    (hi : OpenMeansOpen c s) (h : Effect c s e s') : OpenMeansOpen c s' := by
  -- An admission at `t` comes after every opening's timeout.
  have admits : ∀ t, (∀ t₀ ∈ s.openings, t₀ + c.recoveryTimeout ≤ t) →
      ∀ t₀ ∈ s.openings, ∀ u ∈ t :: s.admissions, ¬ (t₀ < u ∧ u < t₀ + c.recoveryTimeout) := by
    intro t ht t₀ h0 u hu
    rcases List.mem_cons.1 hu with rfl | hu
    · exact fun hb => absurd (ht t₀ h0) (not_le.2 hb.2)
    · exact hi t₀ h0 u hu
  cases h with
  | rejected | succeeds | counts | cancels => exact hi
  | admitted ht hb => exact admits _ (armed_admission ha ht fun ho => by simp [hb] at ho)
  | recovers ht hb hr => exact admits _ (armed_admission ha ht fun _ => hr)
  | slot ht hb => exact admits _ (armed_admission ha ht fun ho => by simp [hb] at ho)
  | @opens t f ht hf =>
    intro t₀ h0 u hu
    dsimp only at h0
    split_ifs at h0 with ho
    · exact hi t₀ h0 u hu
    · rcases List.mem_cons.1 h0 with rfl | h0
      · exact fun hb => absurd ((hp.admissions u hu).trans ht) (not_le.2 hb.1)
      · exact hi t₀ h0 u hu

/-- OPEN means open in every run where no call returns successfully while the
breaker is OPEN and the recovery timeout of its opening still runs. And only
there: such a return can be followed by an admission inside the timeout. -/
theorem open_means_open (c : BreakerConfig) (hm : 1 ≤ c.halfOpenMaxCalls) (hr : 0 < c.recoveryTimeout) (now : ℚ) :
    (∀ s, Reachable (Guarded (NoEarlySuccess c) (Fires (step c))) (init now) s → OpenMeansOpen c s) ∧
    ∀ s e s', Reachable (Fires (step c)) (init now) s → step c s e = some s' → ¬ NoEarlySuccess c s e →
      ∃ s'', Reachable (Fires (step c)) s' s'' ∧ ¬ OpenMeansOpen c s'' := by
  constructor
  · intro s h
    have hI : Armed c s ∧ OpenMeansOpen c s := by
      refine h.inv_with Past (fun s => Armed c s ∧ OpenMeansOpen c s)
        (fun u hu => past_reachable hm hu.of_guarded) ⟨by simp [Armed, init], by simp [OpenMeansOpen, init]⟩ ?_
      rintro t e u hp ⟨ha, hi⟩ ⟨hn, hs⟩
      have he := effect_of hm hs
      exact ⟨armed_effect hp ha hn he, open_effect hp ha hi he⟩
    exact hI.2
  · intro s e s' h hs hn
    simp only [NoEarlySuccess, not_forall, not_le] at hn
    obtain ⟨f, hf, ho, t₀, h0, hlt⟩ := hn
    obtain ⟨t, a⟩ := e
    dsimp only at hf hlt
    subst hf
    have he := effect_of hm hs
    have hp := past_reachable hm h
    cases he with
    | succeeds ht hfm =>
      -- CLOSED again: a call between the return and the end of the timeout gets in.
      have h0t : t₀ ≤ t := (hp.openings t₀ h0).trans ht
      let u := (t + (t₀ + c.recoveryTimeout)) / 2
      have hu : t ≤ u := by simp only [u]; linarith
      have hu0 : t₀ < u := by simp only [u]; linarith
      have hu1 : u < t₀ + c.recoveryTimeout := by simp only [u]; linarith
      refine ⟨_, .step (.refl _) (a := ⟨u, .call 0⟩) (by
        simp [Fires, step, hu, call, CircuitBreaker.beforeCall, CircuitBreaker.takeSlot]; rfl), fun hoo => ?_⟩
      exact hoo t₀ (by simpa [move] using h0) u (by simp) ⟨hu0, hu1⟩

/-- A breaker that opens at the first failure, for 10 seconds, with one trial. -/
def oneShot : BreakerConfig := ⟨"host".toList, 1, 10, 1⟩

theorem open_means_open_oneShot :
    (∀ s, Reachable (Guarded (NoEarlySuccess oneShot) (Fires (step oneShot))) (init 0) s → OpenMeansOpen oneShot s) ∧
    ∀ s e s', Reachable (Fires (step oneShot)) (init 0) s → step oneShot s e = some s' →
      ¬ NoEarlySuccess oneShot s e → ∃ s'', Reachable (Fires (step oneShot)) s' s'' ∧ ¬ OpenMeansOpen oneShot s'' :=
  open_means_open oneShot (by decide) (by decide +kernel) 0

/-- Calls 0 and 1 start while CLOSED. 0 fails at time 1 and opens the breaker,
1 returns at time 2 and closes it, and call 2 is admitted at time 3. -/
theorem stale_success_reopens : ¬ ∀ s, Reachable (Fires (step oneShot)) (init 0) s → OpenMeansOpen oneShot s :=
  refutes_of_exec
    [⟨0, .call 0⟩, ⟨0, .call 1⟩, ⟨1, .finish ⟨0, .closed, 0⟩ .raised⟩, ⟨2, .finish ⟨1, .closed, 0⟩ .returned⟩,
      ⟨3, .call 2⟩] (by decide +kernel)

/-! ## The slots of a half-open period -/

/-- The slots of the running half-open period are its trials in flight and its
cancelled ones: while it runs, no trial ends in any other way. -/
def Slots (c : BreakerConfig) (s : Calls) : Prop :=
  s.breaker.state = .halfOpen →
    s.inFlight.countP (isTrialOf s.period) + s.lostTrials = s.breaker.halfOpenCalls ∧
    s.breaker.halfOpenCalls ≤ c.halfOpenMaxCalls

theorem slots_effect {c : BreakerConfig} (hm : 1 ≤ c.halfOpenMaxCalls) {s s' : Calls} {e : CallEvent} (hp : Past s)
    (hi : Slots c s) (h : Effect c s e s') : Slots c s' := by
  cases h with
  | rejected | admitted => simpa [Slots, isTrialOf] using hi
  | recovers =>
    -- No earlier call belongs to the new period.
    have h0 : s.inFlight.countP (isTrialOf (s.period + 1)) = 0 := by
      rw [List.countP_eq_zero]
      intro f hf
      have := hp.periods f hf
      simp only [isTrialOf, Bool.and_eq_true, decide_eq_true_eq, not_and]
      omega
    exact fun _ => ⟨by simp [h0, isTrialOf], hm⟩
  | slot ht hb hs =>
    obtain ⟨h1, h2⟩ := hi hb
    refine fun _ => ⟨?_, hs⟩
    simp only [List.countP_cons, isTrialOf] at h1 ⊢
    simp only [decide_true, Bool.and_self, if_true]
    omega
  | succeeds | opens => exact fun hb => by cases hb
  | counts _ _ hb => exact fun hb' => absurd hb' hb
  | @cancels t f ht hf =>
    intro hb
    obtain ⟨h1, h2⟩ := hi hb
    refine ⟨?_, h2⟩
    dsimp only at hb ⊢
    rw [List.countP_erase]
    by_cases hfp : isTrialOf s.period f = true
    · have : 0 < s.inFlight.countP (isTrialOf s.period) := List.countP_pos_iff.2 ⟨f, hf, hfp⟩
      simp only [hb, hfp, hf, and_self, if_true]
      omega
    · simp only [hfp, and_false, Bool.false_eq_true, if_false]
      omega

/-- A full half-open period has a trial in flight, and a breaker without calls
admits one once the recovery timeout is over. -/
structure NotWedged (c : BreakerConfig) (s : Calls) : Prop where
  full : s.breaker.state = .halfOpen → c.halfOpenMaxCalls ≤ s.breaker.halfOpenCalls →
    ∃ f ∈ s.inFlight, isTrialOf s.period f = true
  readmits : s.inFlight = [] → ∀ t, s.now ≤ t → s.breaker.openedAt + c.recoveryTimeout ≤ t →
    s.breaker.admits c t = true

theorem admits_idle {c : BreakerConfig} (hm : 1 ≤ c.halfOpenMaxCalls) {b : CircuitBreaker} {t : ℚ}
    (ht : b.openedAt + c.recoveryTimeout ≤ t) (hs : b.state = .halfOpen → b.halfOpenCalls < c.halfOpenMaxCalls) :
    b.admits c t = true := by
  have h := CircuitBreaker.beforeCall_spec c t b hm
  unfold CircuitBreaker.admits
  generalize b.beforeCall c t = r at h
  cases h with
  | closed | recovers | slot => rfl
  | isOpen _ hlt => exact absurd ht (not_le.2 hlt)
  | atCapacity hb hge => exact absurd (hs hb) (not_lt.2 hge)

/-- The half-open breaker is wedged exactly when every slot of the running
half-open period went to a trial that was cancelled. -/
theorem notWedged_iff {c : BreakerConfig} (hm : 1 ≤ c.halfOpenMaxCalls) {now : ℚ} {s : Calls}
    (h : Reachable (Fires (step c)) (init now) s) :
    NotWedged c s ↔ (s.breaker.state = .halfOpen → s.lostTrials < c.halfOpenMaxCalls) := by
  have hI : Slots c s := h.inv_with Past (Slots c) (fun u hu => past_reachable hm hu)
    (by simp [Slots, init]) fun _ _ _ hp hi hs => slots_effect hm hp hi (effect_of hm hs)
  constructor
  · intro hw hb
    by_contra hl
    obtain ⟨h1, h2⟩ := hI hb
    obtain ⟨f, hf, hft⟩ := hw.full hb (by omega)
    have : 0 < s.inFlight.countP (isTrialOf s.period) := List.countP_pos_iff.2 ⟨f, hf, hft⟩
    omega
  · intro hl
    constructor
    · intro hb hfull
      obtain ⟨h1, h2⟩ := hI hb
      have := hl hb
      have hpos : 0 < s.inFlight.countP (isTrialOf s.period) := by omega
      obtain ⟨f, hf, hft⟩ := List.countP_pos_iff.1 hpos
      exact ⟨f, hf, hft⟩
    · intro hidle t _ ht
      apply admits_idle hm ht
      intro hb
      obtain ⟨h1, h2⟩ := hI hb
      have := hl hb
      have h0 : s.inFlight.countP (isTrialOf s.period) = 0 := by rw [hidle]; rfl
      omega

/-- A trial of the running half-open period is cancelled only while the period
has lost fewer than `halfOpenMaxCalls - 1` others. -/
def SparesASlot (c : BreakerConfig) (s : Calls) (e : CallEvent) : Prop :=
  ∀ f, e.action = .finish f .cancelled → s.breaker.state = .halfOpen → isTrialOf s.period f = true →
    s.lostTrials + 1 < c.halfOpenMaxCalls

theorem spared_effect {c : BreakerConfig} (hm : 1 ≤ c.halfOpenMaxCalls) {s s' : Calls} {e : CallEvent}
    (hi : s.breaker.state = .halfOpen → s.lostTrials < c.halfOpenMaxCalls) (hn : SparesASlot c s e)
    (h : Effect c s e s') : s'.breaker.state = .halfOpen → s'.lostTrials < c.halfOpenMaxCalls := by
  cases h with
  | rejected | admitted | slot => exact hi
  | recovers => exact fun _ => hm
  | succeeds | opens => exact fun hb => by cases hb
  | counts _ _ hb => exact fun hb' => absurd hb' hb
  | @cancels t f =>
    intro hb
    dsimp only at hb ⊢
    split_ifs with hf
    · exact hn f rfl hf.1 hf.2
    · exact hi hb

/-- The half-open breaker does not wedge in any run that loses at most
`halfOpenMaxCalls - 1` trials of a half-open period to cancellation. And only
there: once the last slot is lost, it is wedged. -/
theorem half_open_slots (c : BreakerConfig) (hm : 1 ≤ c.halfOpenMaxCalls) (now : ℚ) :
    (∀ s, Reachable (Guarded (SparesASlot c) (Fires (step c))) (init now) s → NotWedged c s) ∧
    ∀ s e s', Reachable (Fires (step c)) (init now) s → step c s e = some s' → ¬ SparesASlot c s e →
      ¬ NotWedged c s' := by
  constructor
  · intro s h
    rw [notWedged_iff hm h.of_guarded]
    exact h.inv (fun s => s.breaker.state = .halfOpen → s.lostTrials < c.halfOpenMaxCalls)
      (fun hb => by cases hb) fun _ _ _ hi ⟨hn, hs⟩ => spared_effect hm hi hn (effect_of hm hs)
  · intro s e s' h hs hn hw
    have hlost := (notWedged_iff hm (h.step hs)).1 hw
    simp only [SparesASlot, not_forall, not_lt] at hn
    obtain ⟨f, hf, hb, hft, hlast⟩ := hn
    obtain ⟨t, a⟩ := e
    dsimp only at hf
    subst hf
    cases effect_of hm hs with
    | cancels ht hfm =>
      have hlt := hlost hb
      dsimp only at hlt
      rw [if_pos ⟨hb, hft⟩] at hlt
      omega

theorem half_open_slots_oneShot :
    (∀ s, Reachable (Guarded (SparesASlot oneShot) (Fires (step oneShot))) (init 0) s → NotWedged oneShot s) ∧
    ∀ s e s', Reachable (Fires (step oneShot)) (init 0) s → step oneShot s e = some s' →
      ¬ SparesASlot oneShot s e → ¬ NotWedged oneShot s' :=
  half_open_slots oneShot (by decide) 0

/-- The breaker opens at time 1 and lets call 1 try at time 11. Call 1 is
cancelled and its slot is never given back. -/
theorem cancelled_trial_wedges : ¬ ∀ s, Reachable (Fires (step oneShot)) (init 0) s → NotWedged oneShot s := by
  intro hall
  refine refutes_of_exec (f := step oneShot) (s := init 0)
    (Q := fun s => ¬ (s.breaker.state = .halfOpen ∧ oneShot.halfOpenMaxCalls ≤ s.breaker.halfOpenCalls ∧ s.inFlight = []))
    [⟨0, .call 0⟩, ⟨1, .finish ⟨0, .closed, 0⟩ .raised⟩, ⟨11, .call 1⟩, ⟨12, .finish ⟨1, .halfOpen, 1⟩ .cancelled⟩]
    (by decide +kernel) fun s hs => ?_
  rintro ⟨hb, hfull, hidle⟩
  obtain ⟨f, hf, -⟩ := (hall s hs).full hb hfull
  simp [hidle] at hf

/-! ## Trials in flight -/

/-- A half-open period begins when no trial of an earlier one is in flight. -/
def FreshPeriods (c : BreakerConfig) (s : Calls) (e : CallEvent) : Prop :=
  ∀ i, e.action = .call i → s.breaker.state = .open → s.breaker.openedAt + c.recoveryTimeout ≤ e.time → s.trials = 0

/-- The trials in flight never outnumber the slots, and in HALF_OPEN each of
them holds one. -/
structure TrialInv (c : BreakerConfig) (s : Calls) : Prop where
  bounded : s.trials ≤ c.halfOpenMaxCalls
  slots : s.breaker.state = .halfOpen →
    s.trials ≤ s.breaker.halfOpenCalls ∧ s.breaker.halfOpenCalls ≤ c.halfOpenMaxCalls

theorem trials_erase_le (l : List InFlight) (f : InFlight) : (l.erase f).countP isTrial ≤ l.countP isTrial :=
  List.Sublist.countP_le List.erase_sublist

theorem trialInv_effect {c : BreakerConfig} (hm : 1 ≤ c.halfOpenMaxCalls) {s s' : Calls} {e : CallEvent}
    (hi : TrialInv c s) (hf : FreshPeriods c s e) (h : Effect c s e s') : TrialInv c s' := by
  obtain ⟨hb, hs⟩ := hi
  unfold trials at hb hs
  cases h with
  | rejected => exact ⟨hb, hs⟩
  | admitted _ hc => exact ⟨by simpa [trials, isTrial] using hb, by simp [hc]⟩
  | @recovers t i ht ho hr =>
    have h0 : s.inFlight.countP isTrial = 0 := hf i rfl ho hr
    exact ⟨by simpa [trials, isTrial, h0] using hm, fun _ => ⟨by simp [trials, isTrial, h0], hm⟩⟩
  | slot ht hh hlt =>
    obtain ⟨h1, h2⟩ := hs hh
    refine ⟨?_, fun _ => ⟨?_, hlt⟩⟩ <;> simp only [trials, isTrial, List.countP_cons, decide_true, if_true] at h1 ⊢ <;>
      omega
  | succeeds | opens => exact ⟨(trials_erase_le _ _).trans hb, fun hh => by cases hh⟩
  | counts _ _ hh => exact ⟨(trials_erase_le _ _).trans hb, fun hh' => absurd hh' hh⟩
  | cancels =>
    exact ⟨(trials_erase_le _ _).trans hb, fun hh => ⟨(trials_erase_le _ _).trans (hs hh).1, (hs hh).2⟩⟩

/-- `n` more calls at one instant of a half-open period with `n` free slots. -/
theorem fill_slots (c : BreakerConfig) (n : ℕ) (s : Calls) (hh : s.breaker.state = .halfOpen)
    (hn : s.breaker.halfOpenCalls + n ≤ c.halfOpenMaxCalls) :
    ∃ s', Reachable (Fires (step c)) s s' ∧ s'.trials = s.trials + n := by
  induction n generalizing s with
  | zero => exact ⟨s, .refl s, rfl⟩
  | succ n ih =>
    have hlt : ¬ c.halfOpenMaxCalls ≤ s.breaker.halfOpenCalls := by omega
    have hstep : step c s ⟨s.now, .call 0⟩ = some (s.call c s.now 0) := by simp [step]
    have hcall : s.call c s.now 0 =
        { s with
          breaker := { s.breaker with halfOpenCalls := s.breaker.halfOpenCalls + 1 }
          inFlight := ⟨0, .halfOpen, s.period⟩ :: s.inFlight, admissions := s.now :: s.admissions } := by
      simp [call, CircuitBreaker.beforeCall, CircuitBreaker.takeSlot, hh, hlt, move]
    obtain ⟨s', hr, ht⟩ := ih (s.call c s.now 0) (by simp [hcall, hh]) (by simp only [hcall]; omega)
    refine ⟨s', (Reachable.refl s).step hstep |>.trans hr, ?_⟩
    rw [ht, hcall]
    simp only [trials, isTrial, List.countP_cons, decide_true, if_true]
    omega

/-- At most `halfOpenMaxCalls` trials are in flight in every run whose
half-open periods begin with none in flight. And only there: a period that
begins with one can be filled beyond the bound. -/
theorem half_open_trials_bounded (c : BreakerConfig) (hm : 1 ≤ c.halfOpenMaxCalls) (now : ℚ) :
    (∀ s, Reachable (Guarded (FreshPeriods c) (Fires (step c))) (init now) s → s.trials ≤ c.halfOpenMaxCalls) ∧
    ∀ s e s', Reachable (Fires (step c)) (init now) s → step c s e = some s' → ¬ FreshPeriods c s e →
      ∃ s'', Reachable (Fires (step c)) s' s'' ∧ c.halfOpenMaxCalls < s''.trials := by
  constructor
  · intro s h
    exact (h.inv (TrialInv c) ⟨by simp [init, trials], by simp [init]⟩
      fun _ _ _ hi ⟨hf, hs⟩ => trialInv_effect hm hi hf (effect_of hm hs)).bounded
  · intro s e s' h hs hf
    simp only [FreshPeriods, not_forall] at hf
    obtain ⟨i, ha, ho, hr, h0⟩ := hf
    obtain ⟨t, a⟩ := e
    dsimp only at ha hr
    subst ha
    -- The new period has one slot taken and the old trials on top of it.
    have hnew : s'.breaker.state = .halfOpen ∧ s'.breaker.halfOpenCalls = 1 ∧ s'.trials = s.trials + 1 := by
      cases effect_of hm hs with
      | rejected _ why =>
        rcases why with ⟨-, hlt⟩ | ⟨hh, -⟩
        · exact absurd hr (not_le.2 hlt)
        · simp [ho] at hh
      | admitted _ hc => simp [ho] at hc
      | slot _ hh => simp [ho] at hh
      | recovers => exact ⟨rfl, rfl, by simp [trials, isTrial]⟩
    obtain ⟨hb, hc, ht⟩ := hnew
    obtain ⟨s'', hr', ht'⟩ := fill_slots c (c.halfOpenMaxCalls - 1) s' hb (by omega)
    exact ⟨s'', hr', by omega⟩

theorem half_open_trials_bounded_oneShot :
    (∀ s, Reachable (Guarded (FreshPeriods oneShot) (Fires (step oneShot))) (init 0) s →
      s.trials ≤ oneShot.halfOpenMaxCalls) ∧
    ∀ s e s', Reachable (Fires (step oneShot)) (init 0) s → step oneShot s e = some s' → ¬ FreshPeriods oneShot s e →
      ∃ s'', Reachable (Fires (step oneShot)) s' s'' ∧ oneShot.halfOpenMaxCalls < s''.trials :=
  half_open_trials_bounded oneShot (by decide) 0

/-- Call 1, admitted while CLOSED, fails during the trial of call 2 and reopens
the breaker. The next period lets call 3 try while call 2 still runs. -/
theorem stale_failure_adds_trial :
    ¬ ∀ s, Reachable (Fires (step oneShot)) (init 0) s → s.trials ≤ oneShot.halfOpenMaxCalls :=
  refutes_of_exec
    [⟨0, .call 0⟩, ⟨0, .call 1⟩, ⟨1, .finish ⟨0, .closed, 0⟩ .raised⟩, ⟨11, .call 2⟩,
      ⟨12, .finish ⟨1, .closed, 0⟩ .raised⟩, ⟨22, .call 3⟩] (by decide +kernel)

end SocialScraper.Calls
