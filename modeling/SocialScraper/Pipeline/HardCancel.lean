import SocialScraper.Pipeline.Deadlock
/-!
# Hard cancellation

The task executing `run()` is cancelled while it awaits in
`_stream_enrichment_social_selection`. What asyncio cancels with it depends on
that await: a gather passes the cancellation on to its own awaitables, a queue
put to nothing. `nothing_running_iff` says when that reaches every task.
-/
open Lib

namespace SocialScraper

/-- The tasks the coordinator creates. -/
inductive TaskGroup where
  | feeder | enrichment | social
deriving DecidableEq

/-- The tasks that a cancellation landing at this await cancels. -/
def Coordinator.cancels : Coordinator → List TaskGroup
  | .gatheringEnrichment => [.feeder, .enrichment]
  | .gatheringSocial => [.social]
  | .puttingDone _ | .returned => []

/-- Whose step it is; `none` for the coordinator, and for a caller of `request_cancellation`. -/
def StreamAction.group {ι : Type} : StreamAction ι → Option TaskGroup
  | .feed => some .feeder
  | .enrichGet _ | .enrichCall _ _ | .enrichEnd _ _ | .enrichPut _ => some .enrichment
  | .socialGet _ | .socialCall _ _ | .socialEnd _ _ => some .social
  | .enrichmentGathered | .putDone | .socialGathered | .requestCancellation => none

inductive RunPhase where
  | streaming
  /-- `CancelledError` was raised at this await; `run()` is in its `finally`. -/
  | unwinding (landed : Coordinator)
  | finished (landed : Coordinator)
deriving DecidableEq

structure PipelineRun (ι : Type) where
  stream : Stream ι
  phase : RunPhase := .streaming

inductive RunAction (ι : Type) where
  | task (e : StreamAction ι)
  /-- The task executing `run()` is cancelled. -/
  | cancel
  /-- The `finally` block is through. -/
  | unwound

namespace PipelineRun

variable {ι : Type} [DecidableEq ι] (c : PipelineConfig) (ownsBrowserResources : Bool)

def start (leads : List ι) (fields : ι → BusinessLead) : PipelineRun ι := { stream := .start c leads fields }

/-- A task cancelled in a call leaves its `async with` block. -/
def releasePages (s : Stream ι) (cancelled : List TaskGroup) : Stream ι :=
  { s with freePages := s.freePages + (if .enrichment ∈ cancelled then s.enrichers.countP (·.holdsPage) else 0) +
      (if .social ∈ cancelled then s.socials.countP (·.holdsPage) else 0) }

/-- `browser_pool.stop()`: the pool starts over with an empty queue. A call that waits for
a page waits on the old queue for ever; that it may get one here only adds runs. -/
def stopPool (s : Stream ι) : Stream ι := { s with freePages := 0 }

/-- Whether the task behind an action is still there after a cancellation that landed. -/
def survives (landed : Coordinator) (e : StreamAction ι) : Bool :=
  match e.group with
  | some g => g ∉ landed.cancels
  | none => e = .requestCancellation

/-- A task takes a step; the coordinator and the cancelled tasks no longer do. -/
def runTask (r : PipelineRun ι) (e : StreamAction ι) : Option (PipelineRun ι) :=
  let go := (r.stream.step c e).map fun s => { r with stream := s }
  match r.phase with
  | .streaming => go
  | .unwinding landed | .finished landed => if survives landed e then go else none

/-- `task.cancel()` on the task executing `run()`, at the coordinator's await. -/
def cancelRun (r : PipelineRun ι) : Option (PipelineRun ι) :=
  if r.phase = .streaming ∧ r.stream.coordinator ≠ .returned then
    some ⟨releasePages r.stream r.stream.coordinator.cancels, .unwinding r.stream.coordinator⟩
  else none

/-- The end of the `finally` block. -/
def unwound (r : PipelineRun ι) : Option (PipelineRun ι) :=
  match r.phase with
  | .unwinding landed => some ⟨if ownsBrowserResources then stopPool r.stream else r.stream, .finished landed⟩
  | .streaming | .finished _ => none

def step (r : PipelineRun ι) : RunAction ι → Option (PipelineRun ι)
  | .task e => r.runTask c e
  | .cancel => r.cancelRun
  | .unwound => r.unwound ownsBrowserResources

/-- Some task of the group has not returned. -/
def Live (s : Stream ι) : TaskGroup → Prop
  | .feeder => s.feeder ≠ []
  | .enrichment => ∃ w ∈ s.enrichers, w ≠ .returned
  | .social => ∃ w ∈ s.socials, w ≠ .returned

/-- After a cancellation that landed: every task that has not returned is cancelled,
and no task can take a step. -/
def NothingRunning (landed : Coordinator) (r : PipelineRun ι) : Prop :=
  (∀ g, Live r.stream g → g ∈ landed.cancels) ∧
    ∀ e, e.group ≠ none → step c ownsBrowserResources r (.task e) = none

/-! ## What is left running -/

/-- The await at which the cancellation has landed. -/
def landed? (r : PipelineRun ι) : Option Coordinator :=
  match r.phase with
  | .streaming => none
  | .unwinding co | .finished co => some co

/-- The stream drains as ever, and the coordinator stays where it was cancelled. -/
structure Stopped (r : PipelineRun ι) : Prop where
  drained : r.stream.Drained c
  coordinator : ∀ co, r.landed? = some co → r.stream.coordinator = co
  unreturned : r.landed? ≠ some .returned

variable {c} {ownsBrowserResources}

omit [DecidableEq ι] in
theorem drained_pages {s : Stream ι} (h : s.Drained c) (n : ℕ) : Stream.Drained c { s with freePages := n } :=
  ⟨h.enrich, h.enrichers, h.social, h.socials, h.gathered, h.finished⟩

/-- A surviving action is none of the coordinator's. -/
theorem coordinator_of_survives {s s' : Stream ι} {e : StreamAction ι} {co : Coordinator} (hs : survives co e)
    (h : s.step c e = some s') : s'.coordinator = s.coordinator := by
  cases Stream.effect_of c h with
  | gathersEnrichment | putsDone | gathersSocial => simp [survives, StreamAction.group] at hs
  | _ => rfl

/-- A step of a task, in a run whose coordinator may have been cancelled. -/
theorem runTask_spec {r r' : PipelineRun ι} {e : StreamAction ι} (h : r.runTask c e = some r') :
    ∃ s, r.stream.step c e = some s ∧ r' = { r with stream := s } ∧ ∀ co, r.landed? = some co → survives co e := by
  unfold runTask at h
  cases hp : r.phase with
  | streaming =>
    simp only [hp, Option.map_eq_some_iff] at h
    obtain ⟨s, hs, rfl⟩ := h
    exact ⟨s, hs, rfl, fun co hco => by simp [landed?, hp] at hco⟩
  | unwinding co | finished co =>
    simp only [hp, Option.ite_none_right_eq_some, Option.map_eq_some_iff] at h
    obtain ⟨hsur, s, hs, rfl⟩ := h
    refine ⟨s, hs, rfl, fun co' hco => ?_⟩
    obtain rfl : co = co' := by simpa [landed?, hp] using hco
    exact hsur

theorem stopped_step {r r' : PipelineRun ι} {a : RunAction ι} (hi : Stopped c r)
    (h : step c ownsBrowserResources r a = some r') : Stopped c r' := by
  cases a with
  | task e =>
    obtain ⟨s, hs, rfl, hsur⟩ := runTask_spec h
    refine ⟨Stream.drained_effect hi.drained (Stream.effect_of c hs), ?_, hi.unreturned⟩
    intro co hco
    exact (coordinator_of_survives (hsur co hco) hs).trans (hi.coordinator co hco)
  | cancel =>
    obtain ⟨⟨-, hne⟩, h⟩ := Option.ite_none_right_eq_some.1 h
    obtain rfl := Option.some.inj h
    exact ⟨drained_pages hi.drained _, fun co hco => Option.some.inj hco, fun hco => hne (Option.some.inj hco)⟩
  | unwound =>
    cases hp : r.phase with
    | streaming | finished => simp [step, unwound, hp] at h
    | unwinding co =>
      have hl : r.landed? = some co := by simp [landed?, hp]
      simp only [step, unwound, hp, Option.some.injEq] at h
      subst h
      have hunr : some co ≠ some .returned := hl ▸ hi.unreturned
      -- Only the pool differs, if `run()` owns it.
      cases ownsBrowserResources with
      | false =>
        refine ⟨hi.drained, ?_, hunr⟩
        rintro co' ⟨⟩
        exact hi.coordinator co hl
      | true =>
        refine ⟨drained_pages hi.drained _, ?_, hunr⟩
        rintro co' ⟨⟩
        exact hi.coordinator co hl

theorem stopped_reachable {leads : List ι} {fields : ι → BusinessLead} {r : PipelineRun ι}
    (h : Reachable (Fires (step c ownsBrowserResources)) (start c leads fields) r) : Stopped c r :=
  h.inv (Stopped c) ⟨Stream.drained_reachable (.refl _), nofun, nofun⟩ fun _ _ _ hi hs => stopped_step hi hs

omit [DecidableEq ι] in
/-- As long as a marker is to come, some social worker has not returned. -/
theorem social_live {s : Stream ι} (hd : s.Drained c) (hl : 0 < s.coordinator.left c.socialWorkers) : Live s .social := by
  have hm := hd.social.markers
  simp only [Stream.socialPending, markers_append, markers_replicate] at hm
  have hlt : s.socialsReturned < s.socials.length := by have := hd.socials; omega
  obtain ⟨w, hw, hr⟩ : ∃ w ∈ s.socials, w.isReturned = false := by
    by_contra hall
    have : s.socialsReturned = s.socials.length := List.countP_eq_length.2 fun w hw =>
      eq_true_of_ne_false fun hr => hall ⟨w, hw, hr⟩
    omega
  refine ⟨w, hw, ?_⟩
  rintro rfl
  cases hr

/-- Past the first gather, the feeder and the enrichment workers have no step left. -/
theorem upstream_done {s : Stream ι} (hd : s.Drained c) (hc : s.coordinator ≠ .gatheringEnrichment) {e : StreamAction ι}
    (he : e.group = some .feeder ∨ e.group = some .enrichment) : s.step c e = none := by
  obtain ⟨hf, hw⟩ := hd.gathered hc
  by_contra hne
  obtain ⟨s', hs⟩ := Option.ne_none_iff_exists'.1 hne
  cases Stream.effect_of c hs with
  | feeds hf' => simp [hf] at hf'
  | enricherReturns hw' | enrichBegins hw' | enrichSkips hw' | enrichUses hw' | enrichEnds hw' | forwards hw' =>
    exact absurd (hw _ (List.mem_of_getElem? hw')) (by simp)
  | _ => simp [StreamAction.group] at he

/-- Once `run()` has finished unwinding from a cancellation, nothing is left
running exactly if the cancellation landed at `gather(*social_tasks)`. -/
theorem nothing_running_iff (c : PipelineConfig) (ownsBrowserResources : Bool) (leads : List ι)
    (fields : ι → BusinessLead) (r : PipelineRun ι)
    (h : Reachable (Fires (step c ownsBrowserResources)) (start c leads fields) r) (landed : Coordinator)
    (hf : r.phase = .finished landed) :
    NothingRunning c ownsBrowserResources landed r ↔ landed = .gatheringSocial := by
  have hi := stopped_reachable h
  have hl : r.landed? = some landed := by simp [landed?, hf]
  have hco := hi.coordinator landed hl
  constructor
  · -- At every other await some social worker has not returned, and nothing cancels it.
    rintro ⟨hlive, -⟩
    cases landed with
    | gatheringSocial => rfl
    | returned => exact absurd hl hi.unreturned
    | gatheringEnrichment =>
      have := hlive .social (social_live hi.drained (by rw [hco]; exact c.socialWorkers_pos))
      simp [Coordinator.cancels] at this
    | puttingDone n =>
      have := hlive .social (social_live hi.drained (by rw [hco]; exact Nat.succ_pos n))
      simp [Coordinator.cancels] at this
  · rintro rfl
    have hne : r.stream.coordinator ≠ .gatheringEnrichment := by simp [hco]
    obtain ⟨hfeed, hwork⟩ := hi.drained.gathered hne
    constructor
    · intro g hg
      cases g with
      | feeder => exact absurd hfeed hg
      | enrichment =>
        obtain ⟨w, hw, hn⟩ := hg
        exact absurd (hwork w hw) hn
      | social => simp [Coordinator.cancels]
    · intro e he
      simp only [step, runTask, hf]
      cases hg : e.group with
      | none => exact absurd hg he
      | some g =>
        cases g with
        | social => simp [survives, hg, Coordinator.cancels]
        | feeder => simp [upstream_done hi.drained hne (.inl hg)]
        | enrichment => simp [upstream_done hi.drained hne (.inr hg)]

/-- Two enrichment workers and one social worker. -/
def smallPipeline : PipelineConfig where
  settings := .defaults
  lib := .plain
  enrichmentWorkerCount := some 2
  socialWorkerCount := some 1
  pages := 2

/-- The first lead has to be enriched, the second has a website. -/
def twoLeads (a : ℕ) : BusinessLead :=
  if a = 0 then { businessName := [], social := { googleMapsUrl := some "https://maps.test/1".toList } }
  else { businessName := [], website := some "https://cafe.test".toList }

/-- The links of the second lead are looked up while the coordinator is at its second gather, and the task is cancelled
there. -/
def cancelledLate : List (RunAction ℕ) :=
  [.task .feed, .task .feed, .task (.enrichGet 0), .task (.enrichGet 1), .task (.enrichPut 1), .task (.socialGet 0),
    .task .feed, .task .feed, .task (.enrichEnd 0 ⟨twoLeads 0, true⟩), .task (.enrichPut 0), .task (.enrichGet 0),
    .task (.enrichGet 1), .task .enrichmentGathered, .task .putDone, .cancel, .unwound]

theorem nothing_running_iff_late :
    ∃ r, exec (step smallPipeline true) (start smallPipeline [0, 1] twoLeads) cancelledLate = some r ∧
      r.stream.socials = [.discovering 1 .running] ∧ NothingRunning smallPipeline true .gatheringSocial r := by
  obtain ⟨r, hr, hp, hs⟩ := exec_ends (f := step smallPipeline true)
    (Q := fun r : PipelineRun ℕ => r.phase = .finished .gatheringSocial ∧ r.stream.socials = [.discovering 1 .running])
    (s := start smallPipeline [0, 1] twoLeads) cancelledLate (by decide +kernel)
  exact ⟨r, hr, hs, (nothing_running_iff smallPipeline true [0, 1] twoLeads r (reachable_of_exec _ hr) _ hp).2 rfl⟩

/-- `run()` is cancelled while the first lead is enriched and the links of the second are looked up. -/
def cancelledEarly : List (RunAction ℕ) :=
  [.task .feed, .task .feed, .task (.enrichGet 0), .task (.enrichGet 1), .task (.enrichPut 1), .task (.socialGet 0),
    .cancel, .unwound]

/-- The social worker is not cancelled with `run()`: after `run()` has finished it can still
end its call and write to its lead. -/
theorem social_worker_outlives_run :
    ¬ ∀ (c : PipelineConfig) (owns : Bool) (leads : List ℕ) (fields : ℕ → BusinessLead) (r : PipelineRun ℕ),
      Reachable (Fires (step c owns)) (start c leads fields) r → ∀ landed, r.phase = .finished landed →
        NothingRunning c owns landed r := by
  intro h
  obtain ⟨r, hr, hp, hs⟩ := exec_ends (f := step smallPipeline true)
    (Q := fun r : PipelineRun ℕ => r.phase = .finished .gatheringEnrichment ∧
      (step smallPipeline true r (.task (.socialEnd 0 ⟨twoLeads 1, false⟩))).isSome)
    (s := start smallPipeline [0, 1] twoLeads) cancelledEarly (by decide +kernel)
  have hnone := (h smallPipeline true [0, 1] twoLeads r (reachable_of_exec _ hr) _ hp).2
    (.socialEnd 0 ⟨twoLeads 1, false⟩) (by simp [StreamAction.group])
  simp [hnone] at hs

end PipelineRun

end SocialScraper
