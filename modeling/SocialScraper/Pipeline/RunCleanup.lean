import SocialScraper.Pipeline.Orchestrator
/-!
# What a run leaves behind

However a run ends, its `finally` block has stopped what the run had started:
the pool once, and the manager once unless stopping the pool was cancelled. An
injected manager may have been running; with an injected pool it is left alone.
-/
open Lib

namespace SocialScraper

namespace BrowserManager

/-- The drivers of `mine`: the one behind the handle, and others that were asked to stop and have ended. -/
def Accounted (m : BrowserManager) (mine : ℕ → Prop) : Prop :=
  ∀ (j : ℕ) (d : Driver), m.drivers[j]? = some d → mine j → (d.stopRequested = true ∧ d.running = false) ∨ m.playwright = some j

variable {m : BrowserManager} {mine : ℕ → Prop}

theorem ended_stop {d : Driver} (h : d.running = false) (o : DriverStop) : (d.stop o).running = false := by
  cases o with
  | ends => rfl
  | raises ended => simp [Driver.stop, h]

theorem Accounted.stopPlaywright (h : m.Accounted mine) (o : DriverStop) : (m.stopPlaywright o).Accounted mine := by
  intro j d' hd' hmine
  obtain ⟨d, hd, rfl⟩ := driver_stopPlaywright m o hd'
  rw [stopPlaywright_handle]
  rcases h j d hd hmine with ⟨hrequested, hended⟩ | hheld
  · left
    split_ifs
    · exact ⟨stop_requested o d, ended_stop hended o⟩
    · exact ⟨hrequested, hended⟩
  · rw [if_pos hheld]
    cases o with
    | ends => exact .inl ⟨rfl, rfl⟩
    | raises ended => exact .inr hheld

/-- After a `stop()` that `Browser.close` does not break off, every driver has been asked. -/
theorem Accounted.stop_requested (h : m.Accounted mine) (o : DriverStop) {j : ℕ} {d : Driver}
    (hd : (m.stop false o).drivers[j]? = some d) (hj : mine j) : d.stopRequested = true := by
  simp only [stop, Bool.and_false, Bool.false_eq_true, if_false] at hd
  obtain ⟨d₀, hd₀, rfl⟩ := driver_stopPlaywright { m with browser := none } o hd
  split_ifs with hp
  · exact BrowserManager.stop_requested o d₀
  · exact ((h j d₀ hd₀ hj).resolve_right hp).1

/-- Where `Playwright.stop` ends the driver as well, none runs. -/
theorem Accounted.stop_running (h : m.Accounted mine) {j : ℕ} {d : Driver} (hd : (m.stop false .ends).drivers[j]? = some d)
    (hj : mine j) : d.running = false := by
  simp only [stop, Bool.and_false, Bool.false_eq_true, if_false] at hd
  obtain ⟨d₀, hd₀, rfl⟩ := driver_stopPlaywright { m with browser := none } .ends hd
  split_ifs with hp
  · rfl
  · exact ((h j d₀ hd₀ hj).resolve_right hp).2

@[simp] theorem length_stop (m : BrowserManager) (closeRaises : Bool) (o : DriverStop) :
    (m.stop closeRaises o).drivers.length = m.drivers.length := by
  unfold stop
  split_ifs
  · rfl
  · exact length_stopPlaywright _ o

end BrowserManager

namespace Orchestrator

variable {ι : Type} [DecidableEq ι]

/-- The drivers that the run's `stop()` is for, where it was called with `manager`: those that the run has started, and
the one of a manager that was running. -/
def Mine (manager : BrowserManager) (j : ℕ) : Prop :=
  manager.drivers.length ≤ j ∨ manager.isRunning = true ∧ manager.playwright = some j

/-- What the run has started and stopped of its browser: at most one driver, and none where one was running. -/
structure Keeps (manager : BrowserManager) (s : Orchestrator ι) (poolStops managerStops : ℕ) : Prop where
  accounted : s.manager.Accounted (Mine manager)
  one : s.manager.drivers.length ≤ manager.drivers.length + if manager.isRunning then 0 else 1
  pool : s.poolStops = poolStops
  manager : s.managerStops = managerStops

/-- How the `finally` block has gone. -/
inductive Cleared (manager : BrowserManager) (as : List (OrchestratorAction ι)) (s : Orchestrator ι) : RunEnd → Prop
  /-- The task was cancelled while it stopped the pool; the manager is never stopped. -/
  | cutShort (ha : .poolStops .cancelled ∈ as) (hm : s.managerStops = 0) : Cleared manager as s .cancelled
  | stopped {closeRaises o cancelled e} (ha : .managerStops closeRaises o cancelled ∈ as) (hm : s.managerStops = 1)
      (he : cancelled = true → e = .cancelled)
      (hrequested : closeRaises = false → ∀ (j : ℕ) (d : Driver), s.manager.drivers[j]? = some d → Mine manager j → d.stopRequested = true)
      (hrunning : closeRaises = false → o = .ends →
        ∀ (j : ℕ) (d : Driver), s.manager.drivers[j]? = some d → Mine manager j → d.running = false) : Cleared manager as s e

/-- What holds of a run with its own pool in each phase. -/
def Owned (manager : BrowserManager) (as : List (OrchestratorAction ι)) (s : Orchestrator ι) : Prop :=
  match s.phase with
  | .startingDriver => Keeps manager s 0 0 ∧ manager.isRunning = false ∧ s.manager.isRunning = false ∧
      s.manager.drivers = manager.drivers
  | .launching | .startingPool | .discovering | .streaming => Keeps manager s 0 0
  | .stoppingPool _ => Keeps manager s 1 0
  | .stoppingManager _ => Keeps manager s 1 1
  | .ended e => s.poolStops = 1 ∧
      s.manager.drivers.length ≤ manager.drivers.length + (if manager.isRunning then 0 else 1) ∧ Cleared manager as s e

/-- With an injected pool the run has no browser to care for. -/
structure Injected (manager : BrowserManager) (s : Orchestrator ι) : Prop where
  phase : s.phase = .discovering ∨ s.phase = .streaming ∨ ∃ e, s.phase = .ended e
  drivers : s.manager.drivers = manager.drivers
  pool : s.poolStops = 0
  managerStops : s.managerStops = 0

section Steps
variable {c : PipelineConfig} {manager : BrowserManager} {s s' : Orchestrator ι} {fields : ι → BusinessLead}
variable {as : List (OrchestratorAction ι)}

omit [DecidableEq ι]

theorem Cleared.later {e : RunEnd} (h : Cleared manager as s e) (hd : s'.manager.drivers = s.manager.drivers)
    (hm : s'.managerStops = s.managerStops) (a : OrchestratorAction ι) : Cleared manager (as ++ [a]) s' e := by
  cases h with
  | cutShort ha hm' => exact .cutShort (List.mem_append_left _ ha) (hm.trans hm')
  | stopped ha hm' he hrequested hrunning =>
    rw [← hd] at hrequested hrunning
    exact .stopped (List.mem_append_left _ ha) (hm.trans hm') he hrequested hrunning

/-- The browser is started up to here, and the run comes to the `finally` block. -/
theorem Keeps.finish (h : Keeps manager s 0 0) (next : RunEnd) : Owned manager as (s.finish true next) :=
  ⟨h.accounted, h.one, by simp [Orchestrator.finish, h.pool], h.manager⟩

theorem Keeps.enter (h : Keeps manager s 0 0) : Owned manager as (s.enter true) := by
  unfold Orchestrator.enter
  split_ifs
  · exact h.finish _
  · exact h.finish _
  · exact ⟨h.accounted, h.one, h.pool, h.manager⟩

theorem Keeps.afterDiscovery (h : Keeps manager s 0 0) : Owned manager as (s.afterDiscovery c true) := by
  unfold Orchestrator.afterDiscovery
  split_ifs
  · exact h.finish _
  · exact ⟨h.accounted, h.one, h.pool, h.manager⟩

theorem Keeps.advance (h : Keeps manager s 0 0) (hp : s.phase = .streaming) (st : Stream ι) :
    Owned manager as (s.advance true st) := by
  unfold Orchestrator.advance
  split
  · simp only [Owned, hp]
    exact ⟨h.accounted, h.one, h.pool, h.manager⟩
  · apply Keeps.finish
    exact ⟨h.accounted, h.one, h.pool, h.manager⟩

/-- A driver that could not launch its browser, or was not let to, is still behind the handle unless it was stopped. -/
theorem keeps_abandoned {abandoned : BrowserManager} (h : Owned manager as s) (hm : s.Abandoned abandoned) :
    Keeps manager ({ s with manager := abandoned } : Orchestrator ι) 0 0 := by
  cases hm with
  | same hp =>
    rcases hp with hp | hp
    · simp only [Owned, hp] at h
      exact h.1
    · simp only [Owned, hp] at h
      exact h
  | stopped hp o =>
    simp only [Owned, hp] at h
    refine ⟨h.accounted.stopPlaywright o, ?_, h.pool, h.manager⟩
    exact (BrowserManager.length_stopPlaywright _ o).le.trans h.one
  | cancelled hp =>
    simp only [Owned, hp] at h
    exact ⟨h.accounted, h.one, h.pool, h.manager⟩

/-- The driver of the start is the only one of the run, and behind the handle. -/
theorem keeps_started (h : Keeps manager s 0 0) (hrun : manager.isRunning = false) (hidle : s.manager.isRunning = false)
    (hd : s.manager.drivers = manager.drivers) :
    Keeps manager ({ s with phase := .launching, manager := s.manager.start } : Orchestrator ι) 0 0 := by
  have hstart : s.manager.start =
      { s.manager with playwright := some s.manager.drivers.length, drivers := s.manager.drivers ++ [{}], launching := true } :=
    if_neg (by simp [hidle])
  refine ⟨?_, ?_, h.pool, h.manager⟩
  · intro j d hj hmine
    rw [hstart] at hj ⊢
    have hnew := hmine.resolve_right fun hheld => absurd (hrun.symm.trans hheld.1) nofun
    have hlt := (List.getElem?_eq_some_iff.1 hj).1
    simp only [List.length_append, List.length_singleton, hd] at hlt
    right
    simp only [hd, Option.some.injEq]
    omega
  · simp [hstart, hrun, hd]

/-- The manager is stopped once. -/
theorem cleared_stop (h : Keeps manager s 1 1) (closeRaises cancelled : Bool) (o : DriverStop) (next : RunEnd) :
    Owned manager (as ++ [.managerStops closeRaises o cancelled])
      { s with phase := .ended (if cancelled then .cancelled else next), manager := s.manager.stop closeRaises o } := by
  refine ⟨h.pool, (BrowserManager.length_stop _ _ _).le.trans h.one, ?_⟩
  refine .stopped (List.mem_append_right _ (List.mem_singleton_self _)) h.manager (fun hc => if_pos hc) ?_ ?_
  · rintro rfl j d hd hj
    exact h.accounted.stop_requested o hd hj
  · rintro rfl rfl j d hd hj
    exact h.accounted.stop_running hd hj

/-- What changes neither the phase nor the manager's drivers. -/
theorem owned_same (s' : Orchestrator ι) (a : OrchestratorAction ι) (h : Owned manager as s) (hp : s'.phase = s.phase)
    (hh : s'.manager.playwright = s.manager.playwright) (hr : s.manager.isRunning = false → s'.manager.isRunning = false)
    (hd : s'.manager.drivers = s.manager.drivers) (hq : s'.poolStops = s.poolStops) (hn : s'.managerStops = s.managerStops) :
    Owned manager (as ++ [a]) s' := by
  have hkeeps : ∀ {m n}, Keeps manager s m n → Keeps manager s' m n := by
    intro m n hk
    refine ⟨fun j d hj hmine => ?_, hd ▸ hk.one, hq.trans hk.pool, hn.trans hk.manager⟩
    rw [hd] at hj
    rw [hh]
    exact hk.accounted j d hj hmine
  unfold Owned at h ⊢
  rw [hp]
  split at h
  · exact ⟨hkeeps h.1, h.2.1, hr h.2.2.1, hd.trans h.2.2.2⟩
  · exact hkeeps h
  · exact hkeeps h
  · exact hkeeps h
  · exact hkeeps h
  · exact hkeeps h
  · exact hkeeps h
  · exact ⟨hq.trans h.1, hd ▸ h.2.1, h.2.2.later hd hn a⟩

variable [DecidableEq ι]

theorem owned_effect {a : OrchestratorAction ι} (h : Owned manager as s) (he : Effect c true s a s') :
    Owned manager (as ++ [a]) s' := by
  cases he with
  | startsDriver hp =>
    simp only [Owned, hp] at h
    obtain ⟨hkeeps, hrun, hidle, hd⟩ := h
    exact keeps_started hkeeps hrun hidle hd
  | launches hp =>
    simp only [Owned, hp] at h
    exact ⟨h.accounted, h.one, h.pool, h.manager⟩
  | fails _ hm => exact (keeps_abandoned h hm).finish _
  | enters hp =>
    simp only [Owned, hp] at h
    exact h.enter
  | discovers hp =>
    simp only [Owned, hp] at h
    apply Keeps.afterDiscovery
    exact ⟨h.accounted, h.one, h.pool, h.manager⟩
  | discoveryRaises hp =>
    simp only [Owned, hp] at h
    apply Keeps.afterDiscovery
    exact ⟨h.accounted, h.one, h.pool, h.manager⟩
  | discoveryCancelled hp =>
    simp only [Owned, hp] at h
    exact h.finish _
  | streams hp =>
    simp only [Owned, hp] at h
    exact h.advance hp _
  | cancels hp =>
    simp only [Owned, hp] at h
    exact h.finish _
  | stopsPool hp =>
    simp only [Owned, hp] at h
    exact ⟨h.accounted, h.one, h.pool, by simp [h.manager]⟩
  | leavesPool hp =>
    simp only [Owned, hp] at h
    exact ⟨h.pool, h.one, .cutShort (List.mem_append_right _ (List.mem_singleton_self _)) h.manager⟩
  | stopsManager hp =>
    simp only [Owned, hp] at h
    exact cleared_stop h _ _ _ _
  | crashes =>
    refine owned_same _ _ h rfl rfl (fun _ => ?_) rfl rfl rfl
    cases s.manager.browser <;> simp [BrowserManager.isRunning]
  | requests => exact owned_same _ _ h rfl rfl id rfl rfl rfl

omit [DecidableEq ι] in
/-- What the caller has started is behind the handle; the run has started nothing. -/
theorem keeps_start (s : Orchestrator ι) (hs : s.manager = manager) (hpool : s.poolStops = 0) (hmanager : s.managerStops = 0) :
    Keeps manager s 0 0 := by
  refine ⟨fun j d hj hmine => ?_, ?_, hpool, hmanager⟩
  · rw [hs] at hj ⊢
    have hlt := (List.getElem?_eq_some_iff.1 hj).1
    exact .inr (hmine.resolve_left (Nat.not_le.2 hlt)).2
  · rw [hs]
    exact Nat.le_add_right _ _

theorem owned_run {cancelled raises : Bool} (h : Steps (Fires (step c true)) (start true cancelled raises manager fields) as s) :
    Owned manager as s := by
  induction h with
  | nil =>
    simp only [start, if_true]
    split_ifs with hrun
    · exact keeps_start _ rfl rfl rfl
    · have hidle := eq_false_of_ne_true hrun
      exact ⟨keeps_start _ rfl rfl rfl, hidle, hidle, rfl⟩
  | snoc _ hr ih => exact owned_effect ih (effect_of hr)

/-! ## An injected pool -/

omit [DecidableEq ι] in
theorem Injected.finish (h : Injected manager s) (next : RunEnd) : Injected manager (s.finish false next) :=
  ⟨.inr (.inr ⟨next, rfl⟩), h.drivers, h.pool, h.managerStops⟩

omit [DecidableEq ι] in
theorem Injected.afterDiscovery (h : Injected manager s) : Injected manager (s.afterDiscovery c false) := by
  unfold Orchestrator.afterDiscovery
  split_ifs
  · exact h.finish _
  · exact ⟨.inr (.inl rfl), h.drivers, h.pool, h.managerStops⟩

theorem injected_effect {a : OrchestratorAction ι} (h : Injected manager s) (he : Effect c false s a s') : Injected manager s' := by
  have hphase : ∀ {p}, s.phase = p → p = .discovering ∨ p = .streaming ∨ ∃ e, p = .ended e := by
    rintro _ rfl
    exact h.phase
  cases he with
  | startsDriver hp => rcases hphase hp with hp | hp | ⟨e, hp⟩ <;> cases hp
  | launches hp => rcases hphase hp with hp | hp | ⟨e, hp⟩ <;> cases hp
  | fails _ hm =>
    have hstart : s.phase = .startingDriver ∨ s.phase = .launching ∨ s.phase = .startingPool := by
      cases hm with
      | same hp => exact hp.imp_right .inr
      | stopped hp => exact .inr (.inl hp)
      | cancelled hp => exact .inr (.inl hp)
    rcases hstart with hp | hp | hp <;> rcases hphase hp with hp | hp | ⟨e, hp⟩ <;> cases hp
  | enters hp => rcases hphase hp with hp | hp | ⟨e, hp⟩ <;> cases hp
  | discovers =>
    apply Injected.afterDiscovery
    exact ⟨h.phase, h.drivers, h.pool, h.managerStops⟩
  | discoveryRaises =>
    apply Injected.afterDiscovery
    exact ⟨h.phase, h.drivers, h.pool, h.managerStops⟩
  | discoveryCancelled => exact h.finish _
  | streams hp =>
    unfold Orchestrator.advance
    split
    · exact ⟨h.phase, h.drivers, h.pool, h.managerStops⟩
    · exact ⟨.inr (.inr ⟨_, rfl⟩), h.drivers, h.pool, h.managerStops⟩
  | cancels => exact h.finish _
  | stopsPool hp => rcases hphase hp with hp | hp | ⟨e, hp⟩ <;> cases hp
  | leavesPool hp => rcases hphase hp with hp | hp | ⟨e, hp⟩ <;> cases hp
  | stopsManager hp => rcases hphase hp with hp | hp | ⟨e, hp⟩ <;> cases hp
  | crashes => exact ⟨h.phase, h.drivers, h.pool, h.managerStops⟩
  | requests => exact ⟨h.phase, h.drivers, h.pool, h.managerStops⟩

theorem injected_run {cancelled raises : Bool}
    (h : Steps (Fires (step c false)) (start false cancelled raises manager fields) as s) : Injected manager s := by
  refine h.inv (Injected manager) ?_ fun _ _ _ hi hs => injected_effect hi (effect_of hs)
  simp only [start, Bool.false_eq_true, if_false, enter]
  split_ifs
  · exact ⟨.inr (.inr ⟨.exception, rfl⟩), rfl, rfl, rfl⟩
  · exact ⟨.inr (.inr ⟨.result, rfl⟩), rfl, rfl, rfl⟩
  · exact ⟨.inl rfl, rfl, rfl, rfl⟩

end Steps

/-- However a run ends, it has stopped its own pool once and its manager at most once. It has started at most one driver,
and none where the manager was running. The manager is left out only where the stop of the pool was cancelled, and then
the run ends by that; else every driver that the run has started, and the one of a manager that was running, was asked
to stop, unless `Browser.close` raised, and does not run where `Playwright.stop` ends it. An injected pool, and the
manager beside it, are left alone. -/
theorem run_cleans_up (c : PipelineConfig) (owns cancelled raises : Bool) (manager : BrowserManager) (fields : ι → BusinessLead)
    (as : List (OrchestratorAction ι)) (s : Orchestrator ι) (e : RunEnd)
    (h : Steps (Fires (step c owns)) (start owns cancelled raises manager fields) as s) (hp : s.phase = .ended e) :
    if owns then
      s.poolStops = 1 ∧ s.manager.drivers.length ≤ manager.drivers.length + (if manager.isRunning then 0 else 1) ∧
        Cleared manager as s e
    else s.poolStops = 0 ∧ s.managerStops = 0 ∧ s.manager.drivers = manager.drivers := by
  cases owns with
  | true =>
    have howned := owned_run h
    simp only [Owned, hp] at howned
    exact howned
  | false =>
    have hi := injected_run h
    exact ⟨hi.pool, hi.managerStops, hi.drivers⟩

/-- The launch raises, and so does the stop of its driver; the `finally` block stops it again. -/
def failedLaunch : List (OrchestratorAction ℕ) :=
  [.driverStarts .returns, .launches .raises (.raises false), .poolStops .raises, .managerStops false .ends false]

theorem run_cleans_up_failedLaunch :
    ∃ s, exec (step Stream.onePipeline true) (start true false false {} fun _ => mapsLead) failedLaunch = some s ∧
      s.phase = .ended .exception ∧ s.manager.drivers.length ≤ 1 ∧ s.poolStops = 1 := by
  obtain ⟨s, hs, hp⟩ := exec_ends (f := step Stream.onePipeline true)
    (Q := fun s : Orchestrator ℕ => s.phase = .ended .exception) (s := start true false false {} fun _ => mapsLead)
    failedLaunch (by decide +kernel)
  have hclean := run_cleans_up Stream.onePipeline true false false {} (fun _ => mapsLead) failedLaunch s .exception (steps_of_exec hs) hp
  exact ⟨s, hs, hp, hclean.2.1, hclean.1⟩

end Orchestrator

end SocialScraper
