import SocialScraper.Pipeline.RunResult
import SocialScraper.Pipeline.StreamEnds
/-!
# A run comes to its end

A run has the awaits of its start, of the discovery and of the `finally` block
before it, and between them those of the stream. From every moment of it there
is a way on to its end, whatever the discovery finds.
-/
open Lib

namespace SocialScraper

variable {ι : Type}

/-- How the run ends if nothing more goes wrong. -/
def Orchestrator.due (s : Orchestrator ι) : RunEnd :=
  match s.phase with
  | .startingDriver | .launching | .startingPool => if s.sessionRaises then .exception else .result
  | .discovering | .streaming => .result
  | .stoppingPool next | .stoppingManager next | .ended next => next

namespace OrchestratorAction

/-- A step of the run itself, or one of its stream with `p`. -/
def takes (p : StreamAction ι → Bool) : OrchestratorAction ι → Bool
  | .streams e => p e
  | .crashes | .requestsCancellation => false
  | _ => true

def asksPage : OrchestratorAction ι → Bool
  | .streams e => e.asksPage
  | _ => false

/-- No await fails, no call asks for a page, and a discovery that returns has found `leads`. -/
def Undisturbed (leads : List ι) (fields : ι → BusinessLead) : OrchestratorAction ι → Prop
  | .driverStarts e | .poolStarts e | .poolStops e | .launches e _ => e = .returns
  | .discovers found read => found = leads ∧ read = fields
  | .streams e => e.cancels = false ∧ e.asksPage = false
  | .managerStops closeRaises o cancelled => closeRaises = false ∧ o = .ends ∧ cancelled = false
  | .discoveryFails _ | .cancels | .crashes | .requestsCancellation => False

end OrchestratorAction

namespace Orchestrator

/-! ## What is left to do -/

/-- What the stream has before it for its workers, before any lead. -/
def ahead (c : PipelineConfig) : ℕ := 2 * c.enrichmentWorkers + 2 * c.socialWorkers + 2

/-- The steps that the run has before it, where `m` measures its stream; those for the leads come with the discovery. -/
def todo (c : PipelineConfig) (m : Stream ι → ℕ) (s : Orchestrator ι) : ℕ :=
  match s.phase with
  | .startingDriver => ahead c + 6
  | .launching => ahead c + 5
  | .startingPool => ahead c + 4
  | .discovering => ahead c + 3
  | .streaming => s.stream.elim 0 m + 2
  | .stoppingPool _ => 2
  | .stoppingManager _ => 1
  | .ended _ => 0

variable [DecidableEq ι]

/-- In the stream, which is under way. -/
structure InStream (c : PipelineConfig) (s : Orchestrator ι) (st : Stream ι) : Prop where
  stream : s.stream = some st
  run : ∃ fields, Reachable (Fires (Stream.step c)) (.start c s.leads fields) st
  unreported : st.reports = none

/-- Before its reports, the coordinator has not returned. -/
theorem InStream.waiting {c : PipelineConfig} {s : Orchestrator ι} {st : Stream ι} (h : InStream c s st) :
    st.coordinator ≠ .returned := by
  intro hret
  obtain ⟨fields, hrun⟩ := h.run
  have hreports := Stream.reported_run hrun hret
  exact Option.some_ne_none _ (hreports.symm.trans h.unreported)

/-- Where the run is: without leads before the stream. -/
def Placed (c : PipelineConfig) (s : Orchestrator ι) : Prop :=
  match s.phase with
  | .startingDriver | .launching | .startingPool | .discovering => s.leads = []
  | .streaming => ∃ st, InStream c s st
  | _ => True

section Steps
variable {c : PipelineConfig} {owns : Bool} {s s' : Orchestrator ι} {a : OrchestratorAction ι}

theorem placed_finish (next : RunEnd) : Placed c (s.finish owns next) := by cases owns <;> trivial

theorem placed_enter (h : s.leads = []) : Placed c (s.enter owns) := by
  unfold enter
  split_ifs
  · exact placed_finish _
  · exact placed_finish _
  · exact h

theorem placed_afterDiscovery (s : Orchestrator ι) : Placed c (s.afterDiscovery c owns) := by
  unfold afterDiscovery
  split_ifs
  · exact placed_finish _
  · exact ⟨_, rfl, ⟨s.fields, .refl _⟩, rfl⟩

theorem placed_advance {st st' : Stream ι} {e : StreamAction ι} (hp : s.phase = .streaming) (hi : InStream c s st)
    (hs : st.step c e = some st') : Placed c (s.advance owns st') := by
  obtain ⟨fields, hrun⟩ := hi.run
  unfold advance
  cases hr : st'.reports with
  | none =>
    simp only [Placed, hp]
    exact ⟨st', rfl, ⟨fields, hrun.step hs⟩, hr⟩
  | some r => exact placed_finish _

/-- A step that changes neither the phase nor the leads. -/
theorem placed_congr (hi : Placed c s) (hp : s'.phase = s.phase) (hl : s'.leads = s.leads)
    (hst : ∀ st, InStream c s st → ∃ st', InStream c s' st') : Placed c s' := by
  unfold Placed at hi ⊢
  rw [hp, hl]
  split at hi
  · exact hi
  · exact hi
  · exact hi
  · exact hi
  · obtain ⟨st, hstream⟩ := hi
    exact hst st hstream
  · trivial

/-- A cancellation is one of the stream's own steps. -/
theorem inStream_requests {st : Stream ι} (h : InStream c s st) :
    InStream c { s with cancelEvent := true, stream := s.stream.map fun st => { st with cancelEvent := true } }
      { st with cancelEvent := true } := by
  obtain ⟨fields, hrun⟩ := h.run
  have hcancel : Fires (Stream.step c) st .requestCancellation { st with cancelEvent := true } := rfl
  have hstream : s.stream.map (fun st => { st with cancelEvent := true }) = some { st with cancelEvent := true } := by
    rw [h.stream, Option.map_some]
  exact ⟨hstream, ⟨fields, hrun.step hcancel⟩, h.unreported⟩

theorem placed_effect (hi : Placed c s) (h : Effect c owns s a s') : Placed c s' := by
  cases h with
  | startsDriver hp | launches hp => simpa only [Placed, hp] using hi
  | fails => exact placed_finish _
  | enters hp =>
    simp only [Placed, hp] at hi
    exact placed_enter hi
  | discovers | discoveryRaises => exact placed_afterDiscovery _
  | discoveryCancelled | cancels => exact placed_finish _
  | streams hp hst hs =>
    simp only [Placed, hp] at hi
    obtain ⟨st, hstream⟩ := hi
    obtain rfl := Option.some.inj (hstream.stream.symm.trans hst)
    exact placed_advance hp hstream hs
  | stopsPool | leavesPool | stopsManager => trivial
  | crashes =>
    refine placed_congr hi rfl rfl ?_
    rintro st ⟨hst, hrun, hr⟩
    exact ⟨st, hst, hrun, hr⟩
  | requests =>
    refine placed_congr hi rfl rfl ?_
    intro st hst
    exact ⟨_, inStream_requests hst⟩

theorem placed_start (owns cancelled raises : Bool) (manager : BrowserManager) (fields : ι → BusinessLead) :
    Placed c (start owns cancelled raises manager fields) := by
  unfold start
  split_ifs
  · rfl
  · rfl
  · exact placed_enter rfl

theorem placed_run {cancelled raises : Bool} {manager : BrowserManager} {fields : ι → BusinessLead}
    {as : List (OrchestratorAction ι)} (h : Steps (Fires (step c owns)) (start owns cancelled raises manager fields) as s) :
    Placed c s :=
  h.inv (Placed c) (placed_start owns cancelled raises manager fields) fun _ _ _ hi hs => placed_effect hi (effect_of hs)

end Steps

/-! ## The number of steps -/

/-- A measure of the stream until its end: each action with `p` takes from it, and a request for a page adds at most `k`. -/
structure Measures (c : PipelineConfig) (m : Stream ι → ℕ) (p : StreamAction ι → Bool) (k : ℕ) : Prop where
  start : ∀ leads fields, m (.start c leads fields) = 6 * leads.length + ahead c
  underWay : ∀ {st : Stream ι}, st.coordinator ≠ .returned → 0 < m st
  takes : ∀ {st e st'}, Stream.Effect c st e st' → m st' + (if p e then 1 else 0) ≤ m st + (if e.asksPage then k else 0)

omit [DecidableEq ι] in
theorem left_underWay (c : PipelineConfig) {st : Stream ι} (h : st.coordinator ≠ .returned) : 0 < Stream.left c st := by
  have htasks : 0 < st.coordinator.tasksLeft c.socialWorkers := by
    cases hc : st.coordinator with
    | returned => exact absurd hc h
    | gatheringEnrichment | puttingDone | gatheringSocial => exact Nat.succ_pos _
  exact Nat.add_pos_right _ htasks

/-- The tasks of the stream. -/
theorem measures_tasks (c : PipelineConfig) : Measures (ι := ι) c (Stream.left c) (·.ofTask) 0 where
  start leads fields := by
    rw [Stream.left_start]
    unfold ahead
    omega
  underWay := left_underWay c
  takes h := by simpa using Stream.left_effect h

/-- The tasks of the stream and their calls. -/
theorem measures_all (c : PipelineConfig) :
    Measures (ι := ι) c (fun st => Stream.left c st + Stream.pagesLeft st) (fun e => !e.cancels) 3 where
  start leads fields := by
    rw [Stream.left_start, Stream.pagesLeft_start]
    unfold ahead
    omega
  underWay h := Nat.add_pos_left (left_underWay c h) _
  takes h := Stream.total_effect h

section Count
variable {c : PipelineConfig} {owns : Bool} {s s' : Orchestrator ι} {a : OrchestratorAction ι}
variable {m : Stream ι → ℕ} {p : StreamAction ι → Bool} {k : ℕ}

omit [DecidableEq ι] in
theorem todo_finish (c : PipelineConfig) (owns : Bool) (m : Stream ι → ℕ) (s : Orchestrator ι) (next : RunEnd) :
    todo c m (s.finish owns next) ≤ 2 := by
  cases owns
  · exact Nat.zero_le _
  · exact Nat.le_refl _

omit [DecidableEq ι] in
theorem todo_enter (c : PipelineConfig) (owns : Bool) (m : Stream ι → ℕ) (s : Orchestrator ι) :
    todo c m (s.enter owns) ≤ ahead c + 3 := by
  unfold enter
  split_ifs
  · exact (todo_finish c owns m s .exception).trans (by omega)
  · exact (todo_finish c owns m s .result).trans (by omega)
  · exact Nat.le_refl _

omit [DecidableEq ι] in
theorem todo_start (owns cancelled raises : Bool) (manager : BrowserManager) (fields : ι → BusinessLead) :
    todo c m (start owns cancelled raises manager fields) ≤ ahead c + 6 := by
  unfold start
  split_ifs
  · exact Nat.add_le_add_left (by decide) _
  · exact Nat.le_refl _
  · exact (todo_enter c owns m _).trans (by omega)

theorem todo_afterDiscovery (owns : Bool) (hm : Measures c m p k) (s : Orchestrator ι) :
    todo c m (s.afterDiscovery c owns) ≤ 6 * s.leads.length + ahead c + 2 := by
  unfold afterDiscovery
  split_ifs
  · exact (todo_finish c owns m s .result).trans (by omega)
  · have hstart := hm.start s.leads s.fields
    simp only [todo, Option.elim_some]
    omega

omit [DecidableEq ι] in
theorem todo_advance (owns : Bool) (hp : s.phase = .streaming) (st : Stream ι) : todo c m (s.advance owns st) ≤ m st + 2 := by
  unfold advance
  cases hr : st.reports with
  | none => simp only [todo, hp, Option.elim_some, Nat.le_refl]
  | some r => exact (todo_finish c owns m _ .result).trans (by omega)

omit [DecidableEq ι] in
theorem takes_le (a : OrchestratorAction ι) (p : StreamAction ι → Bool) : (if a.takes p then 1 else 0) ≤ 1 := by
  split_ifs <;> omega

omit [DecidableEq ι] in
theorem todo_abandoned {manager : BrowserManager} (h : s.Abandoned manager) : 3 ≤ todo c m s := by
  cases h with
  | same hp =>
    rcases hp with hp | hp <;> simp only [todo, hp] <;> omega
  | stopped hp => simp only [todo, hp]; omega
  | cancelled hp => simp only [todo, hp]; omega

omit [DecidableEq ι] in
/-- The `finally` block has two steps. -/
theorem todo_finishes (h : 3 ≤ todo c m s) (hl : s'.leads = s.leads) (next : RunEnd) :
    todo c m (s'.finish owns next) + 6 * s.leads.length + (if a.takes p then 1 else 0) ≤
      todo c m s + 6 * (s'.finish owns next).leads.length + (if a.asksPage then k else 0) := by
  have htakes := takes_le a p
  have hafter := todo_finish c owns m s' next
  rw [finish_leads, hl]
  omega

/-- The discovery hands over to the stream, with the steps of its leads. -/
theorem todo_discovers (hm : Measures c m p k) (hi : Placed c s) (hp : s.phase = .discovering) (s' : Orchestrator ι) :
    todo c m (s'.afterDiscovery c owns) + 6 * s.leads.length + (if a.takes p then 1 else 0) ≤
      todo c m s + 6 * (s'.afterDiscovery c owns).leads.length + (if a.asksPage then k else 0) := by
  have htakes := takes_le a p
  have hafter := todo_afterDiscovery owns hm s'
  have hbefore : todo c m s = ahead c + 3 := by rw [todo, hp]
  have hnone : s.leads = [] := by simpa only [Placed, hp] using hi
  rw [afterDiscovery_leads, hnone, List.length_nil]
  omega

/-- The calls of the stream have their say only in its own steps. -/
theorem todo_streams (owns : Bool) (hm : Measures c m p k) {st st' : Stream ι} {e : StreamAction ι} (hp : s.phase = .streaming)
    (hst : s.stream = some st) (h : Stream.Effect c st e st') :
    todo c m (s.advance owns st') + (if p e then 1 else 0) ≤ todo c m s + (if e.asksPage then k else 0) := by
  have htakes := hm.takes h
  have hafter := todo_advance (c := c) (m := m) owns hp st'
  have hbefore : todo c m s = m st + 2 := by rw [todo, hp, hst, Option.elim_some]
  omega

theorem todo_requests (hm : Measures c m p k) (s : Orchestrator ι) :
    todo c m { s with cancelEvent := true, stream := s.stream.map fun st => { st with cancelEvent := true } } ≤ todo c m s := by
  cases hp : s.phase with
  | streaming =>
    cases hst : s.stream with
    | none => simp only [todo, hp, hst, Option.map_none, Nat.le_refl]
    | some st =>
      have htakes := hm.takes (.cancels (s := st))
      simp only [todo, hp, hst, Option.map_some, Option.elim_some]
      exact Nat.add_le_add_right ((Nat.le_add_right _ _).trans htakes) 2
  | _ => simp only [todo, hp, Nat.le_refl]

/-- A step of the run takes from what it has to do, to which the discovery adds the steps of its leads. -/
theorem todo_effect (hm : Measures c m p k) (hi : Placed c s) (h : Effect c owns s a s') :
    todo c m s' + 6 * s.leads.length + (if a.takes p then 1 else 0) ≤
      todo c m s + 6 * s'.leads.length + (if a.asksPage then k else 0) := by
  have htakes := takes_le a p
  cases h with
  | startsDriver hp | launches hp =>
    simp only [todo, hp] at hi ⊢
    omega
  | fails _ hma => exact todo_finishes (todo_abandoned hma) (by rfl) _
  | enters hp =>
    have hbefore : todo c m s = ahead c + 4 := by rw [todo, hp]
    have hafter := todo_enter c owns m s
    rw [enter_leads]
    omega
  | discovers hp | discoveryRaises hp => exact todo_discovers hm hi hp _
  | discoveryCancelled hp =>
    have hbefore : todo c m s = ahead c + 3 := by rw [todo, hp]
    exact todo_finishes (by omega) (by rfl) _
  | streams hp hst hs =>
    have hstream := todo_streams owns hm hp hst (Stream.effect_of c hs)
    rw [advance_leads, Nat.add_right_comm, Nat.add_right_comm (todo c m s)]
    exact Nat.add_le_add_right hstream _
  | cancels hp =>
    simp only [Placed, hp] at hi
    obtain ⟨st, hstream⟩ := hi
    have hway := hm.underWay hstream.waiting
    have hbefore : todo c m s = m st + 2 := by rw [todo, hp, hstream.stream, Option.elim_some]
    exact todo_finishes (by omega) (by rfl) _
  | stopsPool hp | leavesPool hp | stopsManager hp =>
    simp only [todo, hp]
    omega
  | crashes => exact Nat.le_refl _
  | requests =>
    rw [Nat.add_right_comm, Nat.add_right_comm (todo c m s)]
    exact Nat.add_le_add_right (todo_requests hm s) _

/-- The steps of a run so far, with those it still has before it. -/
theorem count_run (hm : Measures c m p k) {cancelled raises : Bool} {manager : BrowserManager} {fields : ι → BusinessLead}
    {as : List (OrchestratorAction ι)} (h : Steps (Fires (step c owns)) (start owns cancelled raises manager fields) as s) :
    as.countP (·.takes p) + todo c m s ≤ 6 * s.leads.length + ahead c + 6 + k * as.countP (·.asksPage) := by
  induction h with
  | nil =>
    have hstart := todo_start (c := c) (m := m) owns cancelled raises manager fields
    simp only [List.countP_nil]
    omega
  | @snoc t u _ a hrun hr ih =>
    have hle := todo_effect hm (placed_run hrun) (effect_of hr)
    rw [List.countP_append, List.countP_append, List.countP_singleton, List.countP_singleton, Nat.mul_add]
    cases hask : a.asksPage <;> simp only [hask, if_true, if_false, Bool.false_eq_true] at hle ⊢ <;> omega

end Count

/-! ## A way on -/

section WayOn
variable {c : PipelineConfig} {owns : Bool} {s s' : Orchestrator ι} {a : OrchestratorAction ι}
variable {leads : List ι} {fields : ι → BusinessLead} {next : RunEnd}

/-- Undisturbed, the run can go on to this end. -/
def CanEnd (c : PipelineConfig) (owns : Bool) (leads : List ι) (fields : ι → BusinessLead) (s : Orchestrator ι) (next : RunEnd) : Prop :=
  ∃ as t, Steps (Fires (step c owns)) s as t ∧ t.phase = .ended next ∧ ∀ a ∈ as, a.Undisturbed leads fields

theorem CanEnd.after (h : CanEnd c owns leads fields s' next) (hs : s.step c owns a = some s') (ha : a.Undisturbed leads fields) :
    CanEnd c owns leads fields s next := by
  obtain ⟨as, t, hrun, hp, hall⟩ := h
  exact ⟨a :: as, t, .cons hs hrun, hp, List.forall_mem_cons.2 ⟨ha, hall⟩⟩

theorem canEnd_ended (hp : s.phase = .ended next) : CanEnd c owns leads fields s next :=
  ⟨[], s, .nil s, hp, fun _ ha => absurd ha List.not_mem_nil⟩

theorem canEnd_stoppingManager (hp : s.phase = .stoppingManager next) : CanEnd c owns leads fields s next := by
  refine (canEnd_ended ?_).after (a := .managerStops false .ends false) (by simp only [step, hp]; rfl) ⟨rfl, rfl, rfl⟩
  rfl

theorem canEnd_stoppingPool (hp : s.phase = .stoppingPool next) : CanEnd c owns leads fields s next := by
  refine (canEnd_stoppingManager ?_).after (a := .poolStops .returns) (by simp only [step, hp]; rfl) rfl
  rfl

theorem canEnd_finish (s : Orchestrator ι) (next : RunEnd) : CanEnd c owns leads fields (s.finish owns next) next := by
  cases owns
  · exact canEnd_ended rfl
  · exact canEnd_stoppingPool rfl

/-- The stream goes on to its end, by induction on what is left of it. -/
theorem canEnd_streaming (hpages : 1 ≤ c.pages) {st : Stream ι} (hp : s.phase = .streaming) (hi : InStream c s st) :
    CanEnd c owns leads fields s .result := by
  induction hm : Stream.left c st + Stream.pagesLeft st using Nat.strong_induction_on generalizing s st with
  | _ m ih =>
    obtain ⟨read, hrun⟩ := hi.run
    have henabled := Stream.enabled_of_waiting (Stream.pagesKept_reachable hrun) hpages (Stream.drained_reachable hrun) hi.waiting
    obtain ⟨e, hs, hcancel, hask⟩ := henabled.getsOn
    obtain ⟨st', hs⟩ := Option.isSome_iff_exists.1 hs
    have hlt := Stream.total_effect (Stream.effect_of c hs)
    simp only [hcancel, hask, Bool.not_false, if_true, Bool.false_eq_true, if_false] at hlt
    have hstep : s.step c owns (.streams e) = some (s.advance owns st') := by
      have hne : e ≠ .requestCancellation := by
        rintro rfl
        cases hcancel
      simp only [step, hp, hi.stream, if_neg hne, hs, Option.map_some]
    refine CanEnd.after ?_ hstep ⟨hcancel, hask⟩
    unfold advance
    cases hr : st'.reports with
    | none =>
      exact ih (Stream.left c st' + Stream.pagesLeft st') (by omega) hp ⟨rfl, ⟨read, hrun.step hs⟩, hr⟩ rfl
    | some r => exact canEnd_finish _ .result

theorem canEnd_afterDiscovery (hpages : 1 ≤ c.pages) (s : Orchestrator ι) :
    CanEnd c owns leads fields (s.afterDiscovery c owns) .result := by
  unfold afterDiscovery
  split_ifs
  · exact canEnd_finish s .result
  · exact canEnd_streaming hpages rfl ⟨rfl, ⟨s.fields, .refl _⟩, rfl⟩

theorem canEnd_discovering (hpages : 1 ≤ c.pages) (hp : s.phase = .discovering) : CanEnd c owns leads fields s .result :=
  (canEnd_afterDiscovery hpages _).after (a := .discovers leads fields) (if_pos hp) ⟨rfl, rfl⟩

theorem canEnd_enter (hpages : 1 ≤ c.pages) (s : Orchestrator ι) :
    CanEnd c owns leads fields (s.enter owns) (if s.sessionRaises then .exception else .result) := by
  unfold enter
  split_ifs
  · exact canEnd_finish s .exception
  · exact canEnd_finish s .result
  · exact canEnd_discovering hpages rfl

theorem canEnd_startingPool (hpages : 1 ≤ c.pages) (hp : s.phase = .startingPool) :
    CanEnd c owns leads fields s (if s.sessionRaises then .exception else .result) :=
  (canEnd_enter hpages s).after (a := .poolStarts .returns) (if_pos hp) rfl

theorem canEnd_launching (hpages : 1 ≤ c.pages) (hp : s.phase = .launching) :
    CanEnd c owns leads fields s (if s.sessionRaises then .exception else .result) := by
  have hnext : CanEnd c owns leads fields { s with manager := s.manager.launched, phase := .startingPool }
      (if s.sessionRaises then .exception else .result) := canEnd_startingPool hpages rfl
  exact hnext.after (a := .launches .returns .ends) (if_pos hp) rfl

theorem canEnd_startingDriver (hpages : 1 ≤ c.pages) (hp : s.phase = .startingDriver) :
    CanEnd c owns leads fields s (if s.sessionRaises then .exception else .result) := by
  have hnext : CanEnd c owns leads fields { s with manager := s.manager.start, phase := .launching }
      (if s.sessionRaises then .exception else .result) := canEnd_launching hpages rfl
  exact hnext.after (a := .driverStarts .returns) (if_pos hp) rfl

/-- Each phase can go on to its end. -/
theorem canEnd_due (hpages : 1 ≤ c.pages) (hi : Placed c s) : CanEnd c owns leads fields s s.due := by
  unfold due
  cases hp : s.phase with
  | startingDriver => exact canEnd_startingDriver hpages hp
  | launching => exact canEnd_launching hpages hp
  | startingPool => exact canEnd_startingPool hpages hp
  | discovering => exact canEnd_discovering hpages hp
  | streaming =>
    simp only [Placed, hp] at hi
    obtain ⟨st, hstream⟩ := hi
    exact canEnd_streaming hpages hp hstream
  | stoppingPool next => exact canEnd_stoppingPool hp
  | stoppingManager next => exact canEnd_stoppingManager hp
  | ended next => exact canEnd_ended hp

end WayOn

/-- Whatever fails and whenever it is cancelled, a run comes to its end: it takes at most so many steps, its calls at most
three more for each page they ask for, and every moment of it has a way on to its end, whatever the discovery finds. -/
theorem run_ends (c : PipelineConfig) (hpages : 1 ≤ c.pages) (owns cancelled raises : Bool) (manager : BrowserManager)
    (fields : ι → BusinessLead) (as : List (OrchestratorAction ι)) (s : Orchestrator ι)
    (h : Steps (Fires (step c owns)) (start owns cancelled raises manager fields) as s) :
    as.countP (·.takes (·.ofTask)) ≤ 6 * s.leads.length + 2 * c.enrichmentWorkers + 2 * c.socialWorkers + 8 ∧
      as.countP (·.takes fun e => !e.cancels) ≤
        6 * s.leads.length + 2 * c.enrichmentWorkers + 2 * c.socialWorkers + 8 + 3 * as.countP (·.asksPage) ∧
      ∀ leads read, CanEnd c owns leads read s s.due := by
  have htasks := count_run (measures_tasks c) h
  have hall := count_run (measures_all c) h
  unfold ahead at htasks hall
  exact ⟨by omega, by omega, fun leads read => canEnd_due hpages (placed_run h)⟩

/-- Two leads are found, and both workers want the only page. -/
def foundTwo : List (OrchestratorAction ℕ) :=
  .discovers [7, 8] (fun _ => mapsLead) :: Stream.pageAwaited.map .streams

theorem run_ends_foundTwo :
    ∃ s, exec (step Stream.onePagePipeline false) (start false false false {} fun _ => mapsLead) foundTwo = some s ∧
      CanEnd Stream.onePagePipeline false [] (fun _ => mapsLead) s .result := by
  obtain ⟨s, hs, hp⟩ := exec_ends (f := step Stream.onePagePipeline false) (Q := fun s : Orchestrator ℕ => s.phase = .streaming)
    (s := start false false false {} fun _ => mapsLead) foundTwo (by decide +kernel)
  have hends := (run_ends Stream.onePagePipeline (by decide) false false false {} _ foundTwo s (steps_of_exec hs)).2.2 [] fun _ => mapsLead
  rw [due, hp] at hends
  exact ⟨s, hs, hends⟩

end Orchestrator

end SocialScraper
