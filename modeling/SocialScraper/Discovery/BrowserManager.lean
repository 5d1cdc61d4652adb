import SocialScraper.Lib.Runs
import SocialScraper.Lib.Workers
/-!
# The browser manager

`app.discovery.google_maps.browser_manager`: a Playwright driver and the one
browser it launched, behind two optional handles. Drivers are numbered in the
order they start; the ones the manager has lost the handle of are still here.
-/
open Lib

namespace SocialScraper

/-- A driver process that `async_playwright().start()` has started. -/
structure Driver where
  running : Bool := true
  /-- Its `stop()` has been called. -/
  stopRequested : Bool := false
deriving DecidableEq

/-- What `Playwright.stop()` does: it ends the driver, or raises and may have ended it or not. -/
inductive DriverStop where
  | ends
  | raises (ended : Bool)
deriving DecidableEq

def Driver.stop (d : Driver) : DriverStop → Driver
  | .ends => { d with running := false, stopRequested := true }
  | .raises ended => { d with running := d.running && !ended, stopRequested := true }

structure Browser where
  /-- The driver it was launched by. -/
  driver : ℕ
  isConnected : Bool
deriving DecidableEq

/-- The manager and its drivers. `missed` is history: how many drivers each `stop()` had left without a request. -/
structure BrowserManager where
  playwright : Option ℕ := none
  browser : Option Browser := none
  /-- `start()` is at `chromium.launch`. -/
  launching : Bool := false
  drivers : List Driver := []
  missed : ℕ := 0
deriving DecidableEq

inductive ManagerAction where
  /-- `start()`, up to the launch or its return. -/
  | start
  | launched
  /-- The launch raises; `start()` stops the driver and raises as well. -/
  | launchFailed (o : DriverStop)
  /-- `stop()`; its `Browser.close` may raise. -/
  | stop (closeRaises : Bool) (o : DriverStop)
  /-- The browser disconnects. -/
  | crash
deriving DecidableEq

namespace BrowserManager

/-- `self._browser is not None and self._browser.is_connected()`. -/
def isRunning (m : BrowserManager) : Bool := m.browser.any (·.isConnected)

def start (m : BrowserManager) : BrowserManager :=
  if m.isRunning then m
  else { m with playwright := some m.drivers.length, drivers := m.drivers ++ [{}], launching := true }

def launched (m : BrowserManager) : BrowserManager :=
  { m with browser := m.playwright.map fun i => ⟨i, true⟩, launching := false }

/-- `await self._playwright.stop()` and `self._playwright = None`, which an exception skips. -/
def stopPlaywright (m : BrowserManager) (o : DriverStop) : BrowserManager :=
  match m.playwright with
  | none => m
  | some i =>
    { m with
      drivers := m.drivers.modify i (·.stop o)
      playwright := if o = .ends then none else some i }

/-- The end of a `stop()`, by a return or by an exception. -/
def stopped (m : BrowserManager) : BrowserManager := { m with missed := m.missed + m.drivers.countP (!·.stopRequested) }

def stop (m : BrowserManager) (closeRaises : Bool) (o : DriverStop) : BrowserManager :=
  if m.browser.isSome && closeRaises then m.stopped
  else ({ m with browser := none }.stopPlaywright o).stopped

def step (m : BrowserManager) : ManagerAction → Option BrowserManager
  | .start => if m.launching then none else some m.start
  | .launched => if m.launching then some m.launched else none
  | .launchFailed o => if m.launching then some { m.stopPlaywright o with launching := false } else none
  | .stop closeRaises o => if m.launching then none else some (m.stop closeRaises o)
  | .crash => some { m with browser := m.browser.map fun b => { b with isConnected := false } }

/-- Everything an action can do. -/
inductive Effect (m : BrowserManager) : ManagerAction → BrowserManager → Prop
  | returns (hl : m.launching = false) (hr : m.isRunning = true) : Effect m .start m
  | launches (hl : m.launching = false) (hr : m.isRunning = false) :
      Effect m .start { m with playwright := some m.drivers.length, drivers := m.drivers ++ [{}], launching := true }
  | launched (hl : m.launching = true) : Effect m .launched m.launched
  | fails {o} (hl : m.launching = true) : Effect m (.launchFailed o) { m.stopPlaywright o with launching := false }
  | breaksOff {o} (hl : m.launching = false) (hb : m.browser.isSome = true) : Effect m (.stop true o) m.stopped
  | stops {closeRaises o} (hl : m.launching = false) (hc : (m.browser.isSome && closeRaises) = false) :
      Effect m (.stop closeRaises o) ({ m with browser := none }.stopPlaywright o).stopped
  | crashes : Effect m .crash { m with browser := m.browser.map fun b => { b with isConnected := false } }

theorem effect_of {m m' : BrowserManager} {a : ManagerAction} (h : m.step a = some m') : Effect m a m' := by
  cases a with
  | start =>
    simp only [step, start] at h
    split_ifs at h with hl hr
    · exact Option.some.inj h ▸ .returns (eq_false_of_ne_true hl) hr
    · exact Option.some.inj h ▸ .launches (eq_false_of_ne_true hl) (eq_false_of_ne_true hr)
  | launched =>
    obtain ⟨hl, h⟩ := Option.ite_none_right_eq_some.1 h
    exact Option.some.inj h ▸ .launched hl
  | launchFailed o =>
    obtain ⟨hl, h⟩ := Option.ite_none_right_eq_some.1 h
    exact Option.some.inj h ▸ .fails hl
  | stop closeRaises o =>
    simp only [step, stop] at h
    split_ifs at h with hl hc
    · obtain ⟨hb, rfl⟩ := Bool.and_eq_true_iff.1 hc
      exact Option.some.inj h ▸ .breaksOff (eq_false_of_ne_true hl) hb
    · exact Option.some.inj h ▸ .stops (eq_false_of_ne_true hl) (eq_false_of_ne_true hc)
  | crash => exact Option.some.inj h ▸ .crashes

/-! ## No driver leaks -/

/-- At most one driver runs, and every `stop()` had requested the stop of all. -/
def NoLeak (m : BrowserManager) : Prop := m.drivers.countP (·.running) ≤ 1 ∧ m.missed = 0

instance : DecidablePred NoLeak := fun _ => inferInstanceAs (Decidable (_ ∧ _))

/-- The driver behind the handle still runs. -/
def holdsRunning (m : BrowserManager) : Bool := m.playwright.any fun i => (m.drivers[i]?.any (·.running))

/-- `start()` launches only when the handle it overwrites has no running driver,
and `stop()` is not cut short by `Browser.close`. -/
def orderly (m : BrowserManager) : ManagerAction → Bool
  | .start => m.isRunning || !m.holdsRunning
  | .stop closeRaises _ => !(m.browser.isSome && closeRaises)
  | _ => true

/-! ## What a stop does to the drivers -/

section Stop
variable (m : BrowserManager) (o : DriverStop)

@[simp] theorem stop_requested (d : Driver) : (d.stop o).stopRequested = true := by cases o <;> rfl

theorem running_of_stop {d : Driver} (h : (d.stop o).running = true) : d.running = true ∧ o ≠ .ends := by
  cases o with
  | ends => simp [Driver.stop] at h
  | raises ended => exact ⟨by simp [Driver.stop] at h; exact h.1, by simp⟩

@[simp] theorem stopPlaywright_browser : (m.stopPlaywright o).browser = m.browser := by
  unfold stopPlaywright
  cases m.playwright <;> rfl

@[simp] theorem stopPlaywright_missed : (m.stopPlaywright o).missed = m.missed := by
  unfold stopPlaywright
  cases m.playwright <;> rfl

@[simp] theorem stopPlaywright_launching : (m.stopPlaywright o).launching = m.launching := by
  unfold stopPlaywright
  cases m.playwright <;> rfl

/-- A driver after `stopPlaywright` is one from before it, stopped if it was behind the handle. -/
theorem driver_stopPlaywright {j : ℕ} {d' : Driver} (h : (m.stopPlaywright o).drivers[j]? = some d') :
    ∃ d, m.drivers[j]? = some d ∧ d' = if m.playwright = some j then d.stop o else d := by
  unfold stopPlaywright at h
  cases hp : m.playwright with
  | none => exact ⟨d', by simpa [hp] using h, by simp⟩
  | some i =>
    rw [hp] at h
    dsimp only at h
    rw [List.getElem?_modify] at h
    obtain ⟨d, hd, rfl⟩ := Option.map_eq_some_iff.1 h
    refine ⟨d, hd, ?_⟩
    by_cases hij : i = j <;> simp [hij]

theorem other_stopPlaywright {j : ℕ} {d : Driver} (hd : m.drivers[j]? = some d) (hp : m.playwright ≠ some j) :
    (m.stopPlaywright o).drivers[j]? = some d := by
  unfold stopPlaywright
  cases hi : m.playwright with
  | none => exact hd
  | some i =>
    have hij : i ≠ j := fun hij => hp (hij ▸ hi)
    dsimp only
    rw [List.getElem?_modify, hd]
    simp [hij]

theorem stopPlaywright_handle :
    (m.stopPlaywright o).playwright = if o = .ends then none else m.playwright := by
  unfold stopPlaywright
  cases hp : m.playwright with
  | none => simp [hp]
  | some i => rfl

end Stop

/-! ## Orderly runs -/

/-- Only the driver behind the handle runs; the others have been stopped. -/
structure Tidy (m : BrowserManager) : Prop where
  held : ∀ (j : ℕ) d, m.drivers[j]? = some d → d.running = true → m.playwright = some j
  ended : ∀ (j : ℕ) d, m.drivers[j]? = some d → d.running = false → d.stopRequested = true
  missed : m.missed = 0

variable {m m' : BrowserManager}

theorem Tidy.noLeak (h : Tidy m) : m.NoLeak := by
  refine ⟨countP_le_one fun i j d e hd hi he hj => ?_, h.missed⟩
  exact Option.some.inj ((h.held i d hd hi).symm.trans (h.held j e he hj))

theorem Tidy.stopPlaywright (h : Tidy m) (o : DriverStop) : Tidy (m.stopPlaywright o) where
  held j d' hd' hrun := by
    obtain ⟨d, hd, rfl⟩ := driver_stopPlaywright m o hd'
    rw [stopPlaywright_handle]
    split_ifs at hrun with hp
    · obtain ⟨-, ho⟩ := running_of_stop o hrun
      rw [if_neg ho, hp]
    · exact absurd (h.held j d hd hrun) hp
  ended j d' hd' hrun := by
    obtain ⟨d, hd, rfl⟩ := driver_stopPlaywright m o hd'
    split_ifs at hrun ⊢ with hp
    · exact stop_requested o d
    · exact h.ended j d hd hrun
  missed := by simpa using h.missed

/-- After `Playwright.stop()` was called on what the handle held, all drivers have been asked. -/
theorem Tidy.all_requested (h : Tidy m) (o : DriverStop) :
    (m.stopPlaywright o).drivers.countP (!·.stopRequested) = 0 := by
  apply List.countP_eq_zero.2
  intro d' hd'
  obtain ⟨j, hj⟩ := List.mem_iff_getElem?.1 hd'
  obtain ⟨d, hd, rfl⟩ := driver_stopPlaywright m o hj
  split_ifs with hp
  · simp
  · have hnot : d.running = false := eq_false_of_ne_true fun hr => hp (h.held j d hd hr)
    simp [h.ended j d hd hnot]

theorem tidy_effect {a : ManagerAction} (h : Tidy m) (ho : m.orderly a) (he : Effect m a m') : Tidy m' := by
  cases he with
  | returns => exact h
  | launches hl hr =>
    -- Nothing runs behind the handle, so nothing runs at all.
    have hidle : ∀ (j : ℕ) d, m.drivers[j]? = some d → d.running = false := by
      intro j d hd
      apply eq_false_of_ne_true
      intro hrun
      have hp := h.held j d hd hrun
      simp [orderly, hr, holdsRunning, hp, hd, hrun] at ho
    have hnew : ∀ (j : ℕ) d, (m.drivers ++ [({} : Driver)])[j]? = some d →
        m.drivers[j]? = some d ∨ (j = m.drivers.length ∧ d = {}) := by
      intro j d hd
      rw [List.getElem?_append] at hd
      split_ifs at hd with hj
      · exact .inl hd
      · rw [List.getElem?_singleton] at hd
        split_ifs at hd with h0
        exact .inr ⟨by omega, (Option.some.inj hd).symm⟩
    constructor
    · intro j d hd hrun
      rcases hnew j d hd with hd | ⟨rfl, -⟩
      · simp [hidle j d hd] at hrun
      · rfl
    · intro j d hd hrun
      rcases hnew j d hd with hd | ⟨-, rfl⟩
      · exact h.ended j d hd hrun
      · cases hrun
    · exact h.missed
  | launched => exact ⟨h.held, h.ended, h.missed⟩
  | @fails o hl =>
    have hstop := h.stopPlaywright o
    exact ⟨hstop.held, hstop.ended, hstop.missed⟩
  | breaksOff hl hb => simp [orderly, hb] at ho
  | @stops closeRaises o hl hc =>
    have hbrowser : Tidy { m with browser := none } := ⟨h.held, h.ended, h.missed⟩
    have hstop := hbrowser.stopPlaywright o
    exact ⟨hstop.held, hstop.ended, by rw [stopped, hbrowser.all_requested o, stopPlaywright_missed]; exact h.missed⟩
  | crashes => exact ⟨h.held, h.ended, h.missed⟩

/-! ## Any run -/

/-- The browser's own driver has not been asked to stop, and a launch has a new driver behind the handle. -/
structure Linked (m : BrowserManager) : Prop where
  handle : ∀ i, m.playwright = some i → i < m.drivers.length
  browser : ∀ b, m.browser = some b → ∃ d, m.drivers[b.driver]? = some d ∧ d.stopRequested = false
  launching : m.launching = true → ∃ (i : ℕ) (d : Driver), m.playwright = some i ∧ m.drivers[i]? = some d ∧
    d.stopRequested = false ∧ ∀ b, m.browser = some b → b.driver ≠ i

theorem length_stopPlaywright (m : BrowserManager) (o : DriverStop) :
    (m.stopPlaywright o).drivers.length = m.drivers.length := by
  unfold stopPlaywright
  cases m.playwright <;> simp

theorem handle_stopPlaywright (h : ∀ i, m.playwright = some i → i < m.drivers.length) (o : DriverStop) :
    ∀ i, (m.stopPlaywright o).playwright = some i → i < (m.stopPlaywright o).drivers.length := by
  intro i hi
  rw [stopPlaywright_handle] at hi
  split_ifs at hi
  rw [length_stopPlaywright]
  exact h i hi

theorem linked_effect {a : ManagerAction} (h : Linked m) (he : Effect m a m') : Linked m' := by
  cases he with
  | returns => exact h
  | launches hl hr =>
    refine ⟨by simp, ?_, ?_⟩
    · intro b hb
      obtain ⟨d, hd, hq⟩ := h.browser b hb
      exact ⟨d, by rw [List.getElem?_append_left (List.getElem?_eq_some_iff.1 hd).1, hd], hq⟩
    · intro _
      refine ⟨m.drivers.length, {}, rfl, by simp, rfl, fun b hb => ?_⟩
      obtain ⟨d, hd, -⟩ := h.browser b hb
      exact Nat.ne_of_lt (List.getElem?_eq_some_iff.1 hd).1
  | launched hl =>
    obtain ⟨i, d, hi, hd, hq, -⟩ := h.launching hl
    refine ⟨h.handle, ?_, nofun⟩
    intro b hb
    simp only [BrowserManager.launched, hi, Option.map_some, Option.some.injEq] at hb
    exact ⟨d, hb ▸ hd, hq⟩
  | @fails o hl =>
    obtain ⟨i, d, hi, hd, hq, hne⟩ := h.launching hl
    refine ⟨handle_stopPlaywright h.handle o, ?_, nofun⟩
    intro b hb
    have hold : m.browser = some b := by simpa using hb
    obtain ⟨e, he, hqe⟩ := h.browser b hold
    have hother : m.playwright ≠ some b.driver := by
      rw [hi]
      exact fun hbi => hne b hold (Option.some.inj hbi).symm
    exact ⟨e, other_stopPlaywright m o he hother, hqe⟩
  | breaksOff hl hb => exact ⟨h.handle, h.browser, h.launching⟩
  | @stops closeRaises o hl hc =>
    refine ⟨handle_stopPlaywright (m := { m with browser := none }) h.handle o, ?_, ?_⟩
    · intro b hb
      simp [stopped] at hb
    · intro hl'
      simp [stopped, hl] at hl'
  | crashes =>
    refine ⟨h.handle, ?_, ?_⟩
    · intro b hb
      obtain ⟨b, hold, rfl⟩ := Option.map_eq_some_iff.1 hb
      exact h.browser b hold
    · intro hl
      obtain ⟨i, d, hi, hd, hq, hne⟩ := h.launching hl
      refine ⟨i, d, hi, hd, hq, fun b hb => ?_⟩
      obtain ⟨b, hold, rfl⟩ := Option.map_eq_some_iff.1 hb
      exact hne b hold

theorem linked_reachable (h : Reachable (Fires step) {} m) : Linked m :=
  h.inv Linked ⟨nofun, nofun, nofun⟩ fun _ _ _ hi hs => linked_effect hi (effect_of hs)

/-- An action out of order leaks a driver at once. -/
theorem leaks_of_disorderly {a : ManagerAction} (h : Linked m) (ho : ¬ m.orderly a) (he : Effect m a m') : ¬ m'.NoLeak := by
  rintro ⟨hone, hmissed⟩
  cases he with
  | returns hl hr => simp [orderly, hr] at ho
  | launches hl hr =>
    -- The driver behind the handle runs on beside the new one.
    have hheld : m.holdsRunning = true := by simpa [orderly, hr] using ho
    obtain ⟨i, hi, hrun⟩ := (Option.any_eq_true _ _).1 hheld
    obtain ⟨d, hd, hrun⟩ := (Option.any_eq_true _ _).1 hrun
    have hpos : 0 < m.drivers.countP (·.running) := countP_pos_of_slot hd hrun
    dsimp only at hone
    rw [List.countP_append, List.countP_singleton, if_pos rfl] at hone
    omega
  | breaksOff hl hb =>
    obtain ⟨b, hb⟩ := Option.isSome_iff_exists.1 hb
    obtain ⟨d, hd, hq⟩ := h.browser b hb
    have hpos : 0 < m.drivers.countP (!·.stopRequested) := countP_pos_of_slot hd (by simp [hq])
    simp only [stopped] at hmissed
    omega
  | stops hl hc => simp [orderly, hc] at ho
  | launched | fails | crashes => simp [orderly] at ho

/-- In every run in which no launch overwrites the handle of a running driver and
no `stop()` is broken off by `Browser.close`, one driver runs at most and each
`stop()` has asked all of them to stop. Any other action leaks a driver at once. -/
theorem no_driver_leaks (m : BrowserManager) :
    (Reachable (Guarded (fun m a => m.orderly a) (Fires step)) {} m → m.NoLeak) ∧
    (Reachable (Fires step) {} m → ∀ a m', m.step a = some m' → ¬ m.orderly a → ¬ m'.NoLeak) := by
  constructor
  · intro h
    have htidy : Tidy m := by
      refine h.inv Tidy ⟨by simp, by simp, rfl⟩ ?_
      rintro m a m' hi ⟨ho, hs⟩
      exact tidy_effect hi ho (effect_of hs)
    exact htidy.noLeak
  · intro h a m' hs ho
    exact leaks_of_disorderly (linked_reachable h) ho (effect_of hs)

/-- A launch that fails, one whose browser crashes, a stop, and a third launch. -/
def orderlyRun : List ManagerAction :=
  [.start, .launchFailed .ends, .start, .launched, .start, .crash, .stop false .ends, .start, .launched]

theorem no_driver_leaks_restarted :
    ∃ m, exec (guarded orderly step) {} orderlyRun = some m ∧ m.drivers.length = 3 ∧ m.NoLeak := by
  obtain ⟨m, hm, hl⟩ := exec_ends (f := guarded orderly step) (Q := fun m => m.drivers.length = 3) (s := {}) orderlyRun
    (by decide)
  exact ⟨m, hm, hl, (no_driver_leaks m).1 (reachable_guarded _ hm)⟩

/-- The browser crashes and is started again: the first driver is never stopped. -/
theorem restart_leaks_driver : ¬ ∀ m, Reachable (Fires step) {} m → m.NoLeak :=
  refutes_of_exec [.start, .launched, .crash, .start] (by decide)

end BrowserManager

end SocialScraper
