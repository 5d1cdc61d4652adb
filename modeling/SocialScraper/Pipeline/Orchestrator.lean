import SocialScraper.Discovery.BrowserManager
import SocialScraper.Lib.HalfEven
import SocialScraper.Pipeline.Accounts
/-!
# A whole run

`PipelineOrchestrator.run`: the browser is started, the leads are discovered
and streamed, and the `finally` block stops what was started. The task stops at
the awaits of `run()`; the one on the stream is the `Stream` itself. Progress
and metrics are those of `app.pipeline.progress` and `app.pipeline.metrics`,
without their seconds.
-/
open Lib

namespace SocialScraper

/-! ## Progress and metrics -/

/-- The stages, by their `name`. -/
inductive StageName where
  | mapsDiscovery | websiteEnrichment | socialDiscovery | urlSelection
deriving DecidableEq

/-- `PipelineProgressTracker`. -/
structure PipelineProgress where
  currentStage : Option StageName := none
  completed : ℕ := 0
  failed : ℕ := 0
deriving DecidableEq

namespace PipelineProgress

def startStage (p : PipelineProgress) (name : StageName) : PipelineProgress := { p with currentStage := some name }

def finishStage (p : PipelineProgress) (name : StageName) (report : StageReport) : PipelineProgress where
  currentStage := some name
  completed := p.completed + report.completed
  failed := p.failed + report.failed

end PipelineProgress

/-- `record_stage_time`: the stages that `_stage_times` has, in order. -/
def recordStage (times : List StageName) (name : StageName) : List StageName :=
  if name ∈ times then times else times ++ [name]

/-- The `success_rate` of `PipelineMetrics.snapshot`. -/
def successRate (total successful : ℕ) : ℚ := percentage 2 successful total

/-! ## The run -/

/-- How `run()` ends. -/
inductive RunEnd where
  | result | exception | cancelled
deriving DecidableEq

inductive OrchestratorPhase where
  /-- In `async_playwright().start()` of `browser_manager.start()`. -/
  | startingDriver
  /-- In its `chromium.launch`. -/
  | launching
  | startingPool
  /-- In `MapsDiscoveryStage.process`. -/
  | discovering
  | streaming
  /-- In the `finally` block, with what comes after it. -/
  | stoppingPool (next : RunEnd)
  | stoppingManager (next : RunEnd)
  | ended (e : RunEnd)
deriving DecidableEq

/-- `run()`, by its local variables. `poolStops` and `managerStops` are history: how often `stop()` was called. -/
structure Orchestrator (ι : Type) where
  phase : OrchestratorPhase
  cancelEvent : Bool
  /-- What `SessionManager.get_instance()` will do. -/
  sessionRaises : Bool
  manager : BrowserManager
  leads : List ι := []
  fields : ι → BusinessLead
  stream : Option (Stream ι) := none
  progress : PipelineProgress := {}
  stageTimes : List StageName := []
  poolStops : ℕ := 0
  managerStops : ℕ := 0

inductive OrchestratorAction (ι : Type) where
  | driverStarts (e : AwaitEnd)
  /-- The launch; where it raises, the driver is stopped. -/
  | launches (e : AwaitEnd) (o : DriverStop)
  | poolStarts (e : AwaitEnd)
  /-- The discovery returns its leads, as the fields give them. -/
  | discovers (leads : List ι) (fields : ι → BusinessLead)
  | discoveryFails (cancelled : Bool)
  /-- A task of the stream takes a step. -/
  | streams (e : StreamAction ι)
  /-- The task is cancelled while it awaits in the stream. -/
  | cancels
  | poolStops (e : AwaitEnd)
  /-- `browser_manager.stop()`; what `Browser.close` or `Playwright.stop` raises may be a cancellation. -/
  | managerStops (closeRaises : Bool) (o : DriverStop) (cancelled : Bool)
  | crashes
  | requestsCancellation

/-- An await of the start ends. -/
def OrchestratorAction.starts {ι : Type} : OrchestratorAction ι → Bool
  | .driverStarts _ | .launches _ _ | .poolStarts _ => true
  | _ => false

/-- The leads of a discovery that returns. -/
def OrchestratorAction.found {ι : Type} : OrchestratorAction ι → Option (List ι)
  | .discovers leads _ => some leads
  | _ => none

namespace Orchestrator

variable {ι : Type} [DecidableEq ι] (c : PipelineConfig) (owns : Bool)

/-- The `finally` block, up to its first await. -/
def finish (s : Orchestrator ι) (next : RunEnd) : Orchestrator ι :=
  if owns then { s with phase := .stoppingPool next, poolStops := s.poolStops + 1 } else { s with phase := .ended next }

/-- From the started pool on. -/
def enter (s : Orchestrator ι) : Orchestrator ι :=
  if s.sessionRaises then s.finish owns .exception
  else if s.cancelEvent then s.finish owns .result
  else { s with phase := .discovering, progress := s.progress.startStage .mapsDiscovery }

/-- The run begins, with a browser manager that is its own or injected. `cancelled` says whether `request_cancellation`
was called before. -/
def start (cancelled sessionRaises : Bool) (manager : BrowserManager) (fields : ι → BusinessLead) : Orchestrator ι :=
  let s : Orchestrator ι :=
    { phase := .startingDriver, cancelEvent := cancelled, sessionRaises := sessionRaises, manager := manager, fields := fields }
  -- A manager that is running starts nothing.
  if owns then if manager.isRunning then { s with phase := .startingPool } else s
  else s.enter owns

/-- From the end of the discovery on. -/
def afterDiscovery (s : Orchestrator ι) : Orchestrator ι :=
  if s.cancelEvent then s.finish owns .result
  else
    { s with
      phase := .streaming
      stream := some (.start c s.leads s.fields)
      progress := ((s.progress.startStage .websiteEnrichment).startStage .socialDiscovery).startStage .urlSelection }

/-- The end of `_stream_enrichment_social_selection`, from its last await on. -/
def report (s : Orchestrator ι) (r : Reports) : Orchestrator ι :=
  { s with
    stageTimes := recordStage (recordStage (recordStage s.stageTimes .websiteEnrichment) .socialDiscovery) .urlSelection
    progress := ((s.progress.finishStage .websiteEnrichment r.enrichment).finishStage .socialDiscovery r.social).finishStage
      .urlSelection r.selection }

/-- A step of the stream; its last one ends the stage. -/
def advance (s : Orchestrator ι) (st : Stream ι) : Orchestrator ι :=
  let s := { s with stream := some st, fields := st.fields }
  match st.reports with
  | none => s
  | some r => (s.report r).finish owns .result

/-- Where an await of the start ends: a failure goes to the `finally` block. -/
def startStep (s : Orchestrator ι) (e : AwaitEnd) (go : Orchestrator ι → Orchestrator ι) : Orchestrator ι :=
  match e with
  | .returns => go s
  | .raises => s.finish owns .exception
  | .cancelled => s.finish owns .cancelled

def step (s : Orchestrator ι) : OrchestratorAction ι → Option (Orchestrator ι)
  | .driverStarts e =>
    if s.phase = .startingDriver then
      some (s.startStep owns e fun s => { s with phase := .launching, manager := s.manager.start })
    else none
  | .launches e o =>
    if s.phase = .launching then
      let manager := match e with
        | .returns => s.manager.launched
        | .raises => { s.manager.stopPlaywright o with launching := false }
        | .cancelled => { s.manager with launching := false }
      some ({ s with manager := manager }.startStep owns e fun s => { s with phase := .startingPool })
    else none
  | .poolStarts e => if s.phase = .startingPool then some (s.startStep owns e (enter owns)) else none
  | .discovers leads fields =>
    if s.phase = .discovering then
      some ({ s with
        leads := leads
        fields := fields
        stageTimes := recordStage s.stageTimes .mapsDiscovery
        progress := s.progress.finishStage .mapsDiscovery ⟨leads.length, 0⟩ }.afterDiscovery c owns)
    else none
  | .discoveryFails cancelled =>
    if s.phase = .discovering then
      some (if cancelled then s.finish owns .cancelled
        else { s with progress := s.progress.finishStage .mapsDiscovery ⟨0, s.leads.length⟩ }.afterDiscovery c owns)
    else none
  | .streams e =>
    match s.phase, s.stream with
    | .streaming, some st => if e = .requestCancellation then none else (st.step c e).map (s.advance owns)
    | _, _ => none
  | .cancels => if s.phase = .streaming then some (s.finish owns .cancelled) else none
  | .poolStops e =>
    match s.phase with
    | .stoppingPool next =>
      -- An exception is logged; a cancellation leaves the block.
      some (if e = .cancelled then { s with phase := .ended .cancelled }
        else { s with phase := .stoppingManager next, managerStops := s.managerStops + 1 })
    | _ => none
  | .managerStops closeRaises o cancelled =>
    match s.phase with
    | .stoppingManager next =>
      some { s with
        phase := .ended (if cancelled then .cancelled else next)
        manager := s.manager.stop closeRaises o }
    | _ => none
  | .crashes => (s.manager.step .crash).map fun manager => { s with manager := manager }
  | .requestsCancellation =>
    some { s with cancelEvent := true, stream := s.stream.map fun st => { st with cancelEvent := true } }

/-- `PipelineResult`. -/
structure Result where
  leads : List BusinessLead
  progress : PipelineProgress
  stageTimes : List StageName
  successRate : ℚ

/-- A lead counts as successful with a website and a social URL. -/
def successful (lead : BusinessLead) : Bool := truthy lead.website && hasSocialUrl lead

/-- What `run()` returns. -/
def result (s : Orchestrator ι) : Result where
  leads := s.leads.map s.fields
  progress := s.progress
  stageTimes := s.stageTimes
  successRate := SocialScraper.successRate s.leads.length (s.leads.countP fun a => successful (s.fields a))

/-! ## What an action can do -/

/-- What becomes of the manager where an await of the start fails. -/
inductive Abandoned (s : Orchestrator ι) : BrowserManager → Prop
  | same (hp : s.phase = .startingDriver ∨ s.phase = .startingPool) : Abandoned s s.manager
  | stopped (hp : s.phase = .launching) (o : DriverStop) : Abandoned s { s.manager.stopPlaywright o with launching := false }
  | cancelled (hp : s.phase = .launching) : Abandoned s { s.manager with launching := false }

/-- Everything an action can do. -/
inductive Effect (s : Orchestrator ι) : OrchestratorAction ι → Orchestrator ι → Prop
  | startsDriver (hp : s.phase = .startingDriver) :
      Effect s (.driverStarts .returns) { s with phase := .launching, manager := s.manager.start }
  | launches {o} (hp : s.phase = .launching) :
      Effect s (.launches .returns o) { s with phase := .startingPool, manager := s.manager.launched }
  | fails {a manager next} (ha : a.starts = true) (hm : s.Abandoned manager) (hn : next ≠ .result) :
      Effect s a ({ s with manager := manager }.finish owns next)
  | enters (hp : s.phase = .startingPool) : Effect s (.poolStarts .returns) (s.enter owns)
  | discovers {leads fields} (hp : s.phase = .discovering) :
      Effect s (.discovers leads fields)
        ({ s with
          leads := leads
          fields := fields
          stageTimes := recordStage s.stageTimes .mapsDiscovery
          progress := s.progress.finishStage .mapsDiscovery ⟨leads.length, 0⟩ }.afterDiscovery c owns)
  | discoveryRaises (hp : s.phase = .discovering) :
      Effect s (.discoveryFails false)
        ({ s with progress := s.progress.finishStage .mapsDiscovery ⟨0, s.leads.length⟩ }.afterDiscovery c owns)
  | discoveryCancelled (hp : s.phase = .discovering) : Effect s (.discoveryFails true) (s.finish owns .cancelled)
  | streams {e st st'} (hp : s.phase = .streaming) (hst : s.stream = some st) (hs : st.step c e = some st')
      (he : e ≠ .requestCancellation) :
      Effect s (.streams e) (s.advance owns st')
  | cancels (hp : s.phase = .streaming) : Effect s .cancels (s.finish owns .cancelled)
  | stopsPool {e next} (hp : s.phase = .stoppingPool next) (he : e ≠ .cancelled) :
      Effect s (.poolStops e) { s with phase := .stoppingManager next, managerStops := s.managerStops + 1 }
  | leavesPool {next} (hp : s.phase = .stoppingPool next) : Effect s (.poolStops .cancelled) { s with phase := .ended .cancelled }
  | stopsManager {closeRaises o cancelled next} (hp : s.phase = .stoppingManager next) :
      Effect s (.managerStops closeRaises o cancelled)
        { s with phase := .ended (if cancelled then .cancelled else next), manager := s.manager.stop closeRaises o }
  | crashes : Effect s .crashes { s with manager := { s.manager with browser := s.manager.browser.map fun b => { b with isConnected := false } } }
  | requests : Effect s .requestsCancellation
      { s with cancelEvent := true, stream := s.stream.map fun st => { st with cancelEvent := true } }

section Inversion
variable {c : PipelineConfig} {owns : Bool} {s s' : Orchestrator ι}

theorem effect_start {a : OrchestratorAction ι} (ha : a.starts = true) (h : s.step c owns a = some s') :
    Effect c owns s a s' := by
  cases a with
  | driverStarts e =>
    obtain ⟨hp, h⟩ := Option.ite_none_right_eq_some.1 h
    obtain rfl := Option.some.inj h
    cases e with
    | returns => exact .startsDriver hp
    | raises => exact .fails rfl (.same (.inl hp)) nofun
    | cancelled => exact .fails rfl (.same (.inl hp)) nofun
  | launches e o =>
    obtain ⟨hp, h⟩ := Option.ite_none_right_eq_some.1 h
    obtain rfl := Option.some.inj h
    cases e with
    | returns => exact .launches hp
    | raises => exact .fails rfl (.stopped hp o) nofun
    | cancelled => exact .fails rfl (.cancelled hp) nofun
  | poolStarts e =>
    obtain ⟨hp, h⟩ := Option.ite_none_right_eq_some.1 h
    obtain rfl := Option.some.inj h
    cases e with
    | returns => exact .enters hp
    | raises => exact .fails rfl (.same (.inr hp)) nofun
    | cancelled => exact .fails rfl (.same (.inr hp)) nofun
  | _ => cases ha

theorem effect_finally {a : OrchestratorAction ι} (ha : (∃ e, a = .poolStops e) ∨ ∃ b o x, a = .managerStops b o x)
    (h : s.step c owns a = some s') : Effect c owns s a s' := by
  rcases ha with ⟨e, rfl⟩ | ⟨b, o, x, rfl⟩
  · simp only [step] at h
    split at h
    · rename_i next hp
      obtain rfl := Option.some.inj h
      by_cases he : e = .cancelled
      · subst he
        exact .leavesPool hp
      · rw [if_neg he]
        exact .stopsPool hp he
    · cases h
  · simp only [step] at h
    split at h
    · rename_i next hp
      exact Option.some.inj h ▸ .stopsManager hp
    · cases h

theorem effect_of {a : OrchestratorAction ι} (h : s.step c owns a = some s') : Effect c owns s a s' := by
  cases a with
  | driverStarts e => exact effect_start rfl h
  | launches e o => exact effect_start rfl h
  | poolStarts e => exact effect_start rfl h
  | discovers leads fields =>
    obtain ⟨hp, h⟩ := Option.ite_none_right_eq_some.1 h
    exact Option.some.inj h ▸ .discovers hp
  | discoveryFails cancelled =>
    obtain ⟨hp, h⟩ := Option.ite_none_right_eq_some.1 h
    cases cancelled
    · exact Option.some.inj h ▸ .discoveryRaises hp
    · exact Option.some.inj h ▸ .discoveryCancelled hp
  | streams e =>
    simp only [step] at h
    split at h
    · rename_i st hp hst
      split_ifs at h with he
      obtain ⟨st', hs, rfl⟩ := Option.map_eq_some_iff.1 h
      exact .streams hp hst hs he
    · cases h
  | cancels =>
    obtain ⟨hp, h⟩ := Option.ite_none_right_eq_some.1 h
    exact Option.some.inj h ▸ .cancels hp
  | poolStops e => exact effect_finally (.inl ⟨e, rfl⟩) h
  | managerStops b o x => exact effect_finally (.inr ⟨b, o, x, rfl⟩) h
  | crashes => exact Option.some.inj h ▸ .crashes
  | requestsCancellation => exact Option.some.inj h ▸ .requests

end Inversion

end Orchestrator

end SocialScraper
