import SocialScraper.Pipeline.Orchestrator
/-!
# What a run returns, and what it leaves behind

A result tells how far the run has come: `run_result` reads its leads, progress
and stage times for every run that returns. `run_cleans_up` is about every
ending, by a result, an exception or a cancellation.
-/
open Lib

namespace SocialScraper.Orchestrator

variable {ι : Type} [DecidableEq ι]

/-! ## What the result says -/

/-- The leads that the discovery has returned, if it has. -/
def discovered (as : List (OrchestratorAction ι)) : List ι := as.foldl (fun leads a => a.found.getD leads) []

/-- The stage times of a discovery that returned or failed. -/
def discoveryTimes (found : Bool) : List StageName := if found then [.mapsDiscovery] else []

/-- What the run leaves to others: the calls of the stream, and the leads that the discovery may return with their fields. -/
structure Environment (ι : Type) where
  behaviour : Behaviour ι
  cancels : behaviour.cancels
  discovers : List ι → (ι → BusinessLead) → Prop

/-- What a discovery hands on that returned or failed. -/
def Environment.HandsOn (env : Environment ι) (found : Bool) (leads : List ι) (fields : ι → BusinessLead) : Prop :=
  if found then env.discovers leads fields else leads = []

/-- What a run that returns has done: it was cancelled before the discovery, or behind it, or has streamed the leads. -/
inductive Outcome (env : Environment ι) (c : PipelineConfig) (s : Orchestrator ι) : Prop
  | cancelledFirst (hc : s.cancelEvent = true) (hl : s.leads = []) (hp : s.progress = {}) (ht : s.stageTimes = [])
  | cancelledNext (found : Bool) (hc : s.cancelEvent = true) (hl : env.HandsOn found s.leads s.fields)
      (hp : s.progress = ⟨some .mapsDiscovery, s.leads.length, 0⟩) (ht : s.stageTimes = discoveryTimes found)
  | streamed (found : Bool) (fields : ι → BusinessLead) (st : Stream ι) (r : Reports)
      (hl : env.HandsOn found s.leads fields)
      (hd : s.leads.Nodup) (hc : st.cancelEvent = true → s.cancelEvent = true)
      (hrun : Reachable (Guarded (Stream.Allows env.behaviour) (Fires (Stream.step c))) (.start c s.leads fields) st)
      (hr : st.coordinator = .returned) (hreports : st.reports = some r) (hf : s.fields = st.fields)
      (hp : s.progress = ⟨some .urlSelection,
        s.leads.length + r.enrichment.completed + r.social.completed + r.selection.completed,
        r.enrichment.failed + r.social.failed + r.selection.failed⟩)
      (ht : s.stageTimes = discoveryTimes found ++ [.websiteEnrichment, .socialDiscovery, .urlSelection])

/-- In the stream. -/
structure Streaming (env : Environment ι) (c : PipelineConfig) (s : Orchestrator ι) (st : Stream ι) : Prop where
  stream : s.stream = some st
  distinct : s.leads.Nodup
  cancelled : st.cancelEvent = true → s.cancelEvent = true
  run : ∃ found fields, env.HandsOn found s.leads fields ∧ s.stageTimes = discoveryTimes found ∧
    Reachable (Guarded (Stream.Allows env.behaviour) (Fires (Stream.step c))) (.start c s.leads fields) st
  unreported : st.reports = none
  progress : s.progress = ⟨some .urlSelection, s.leads.length, 0⟩

/-- What holds in each phase of the run. -/
def Told (env : Environment ι) (c : PipelineConfig) (s : Orchestrator ι) : Prop :=
  match s.phase with
  | .startingDriver | .launching | .startingPool => s.leads = [] ∧ s.progress = {} ∧ s.stageTimes = []
  | .discovering => s.leads = [] ∧ s.progress = ⟨some .mapsDiscovery, 0, 0⟩ ∧ s.stageTimes = []
  | .streaming => ∃ st, Streaming env c s st
  | .stoppingPool .result | .stoppingManager .result | .ended .result => Outcome env c s
  | _ => True

/-- The discovery and the calls of the stream do what the environment says. The leads are different objects. -/
def Tame (env : Environment ι) (s : Orchestrator ι) : OrchestratorAction ι → Prop
  | .discovers leads fields => leads.Nodup ∧ env.discovers leads fields
  | .streams e => ∀ st, s.stream = some st → st.Allows env.behaviour e
  | _ => True

/-! ## Steps -/

section Steps
variable {env : Environment ι} {c : PipelineConfig} {owns : Bool} {s s' : Orchestrator ι} {fields : ι → BusinessLead}

/-- Where the outcome is told from the same fields, it is the same. -/
theorem Outcome.congr (h : Outcome env c s) (hc : s.cancelEvent = true → s'.cancelEvent = true) (hl : s'.leads = s.leads)
    (hf : s'.fields = s.fields) (hp : s'.progress = s.progress) (ht : s'.stageTimes = s.stageTimes) : Outcome env c s' := by
  cases h with
  | cancelledFirst hc' hl' hp' ht' => exact .cancelledFirst (hc hc') (hl.trans hl') (hp.trans hp') (ht.trans ht')
  | cancelledNext found hc' hl' hp' ht' =>
    refine .cancelledNext found (hc hc') ?_ ?_ (ht.trans ht')
    · rw [hl, hf]
      exact hl'
    · rw [hp, hl]
      exact hp'
  | streamed found before st r hl' hd hc' hrun hr hreports hf' hp' ht' =>
    refine .streamed found before st r ?_ ?_ (fun hst => hc (hc' hst)) ?_ hr hreports (hf.trans hf') ?_ (ht.trans ht')
    · rw [hl]
      exact hl'
    · rw [hl]
      exact hd
    · rw [hl]
      exact hrun
    · rw [hp, hl]
      exact hp'

theorem told_result (h : Outcome env c s) : Told env c (s.finish owns .result) := by
  cases owns
  · exact h.congr id rfl rfl rfl rfl
  · exact h.congr id rfl rfl rfl rfl

theorem told_other {next : RunEnd} (hn : next ≠ .result) : Told env c (s.finish owns next) := by
  cases next with
  | result => exact absurd rfl hn
  | exception => cases owns <;> trivial
  | cancelled => cases owns <;> trivial

/-- The stream begins, unless the run is cancelled. -/
theorem told_afterDiscovery (found : Bool) (hd : s.leads.Nodup) (hl : env.HandsOn found s.leads s.fields)
    (hp : s.progress = ⟨some .mapsDiscovery, s.leads.length, 0⟩) (ht : s.stageTimes = discoveryTimes found) :
    Told env c (s.afterDiscovery c owns) := by
  unfold afterDiscovery
  split_ifs with hc
  · exact told_result (.cancelledNext found hc hl hp ht)
  · refine ⟨_, rfl, hd, nofun, ⟨found, s.fields, hl, ht, .refl _⟩, rfl, ?_⟩
    simp only [hp, PipelineProgress.startStage]

theorem told_enter (h : s.leads = [] ∧ s.progress = {} ∧ s.stageTimes = []) : Told env c (s.enter owns) := by
  obtain ⟨hl, hp, ht⟩ := h
  unfold enter
  split_ifs with hr hc
  · exact told_other nofun
  · exact told_result (.cancelledFirst hc hl hp ht)
  · refine ⟨hl, ?_, ht⟩
    simp only [hp, PipelineProgress.startStage]

/-- The coordinator reports when it returns. -/
theorem returned_of_reports {leads : List ι} {st : Stream ι} (h : Reachable (Fires (Stream.step c)) (.start c leads fields) st) :
    st.reports ≠ none → st.coordinator = .returned := by
  refine h.inv (fun st => st.reports ≠ none → st.coordinator = .returned) (fun hn => absurd rfl hn) ?_
  intro st e st' hi hs hn
  cases Stream.effect_of c hs with
  | gathersEnrichment hc => exact absurd ((hi hn).symm.trans hc) nofun
  | putsDone hc => exact absurd ((hi hn).symm.trans hc) nofun
  | gathersSocial => rfl
  | _ => exact hi hn

/-- The event is set from outside. -/
theorem cancelEvent_step {st st' : Stream ι} {e : StreamAction ι} (he : e ≠ .requestCancellation) (hs : st.step c e = some st') :
    st'.cancelEvent = st.cancelEvent := by
  cases Stream.effect_of c hs with
  | cancels => exact absurd rfl he
  | _ => rfl

theorem told_advance {st st' : Stream ι} {e : StreamAction ι} (hst : Streaming env c s st) (hb : st.Allows env.behaviour e)
    (hs : st.step c e = some st') (he : e ≠ .requestCancellation) (hp : s.phase = .streaming) : Told env c (s.advance owns st') := by
  obtain ⟨found, before, hl, ht, hrun⟩ := hst.run
  have hrun := hrun.step ⟨hb, hs⟩
  have hcancel : st'.cancelEvent = true → s.cancelEvent = true := by
    rw [cancelEvent_step he hs]
    exact hst.cancelled
  unfold advance
  cases hr : st'.reports with
  | none =>
    simp only [Told, hp]
    exact ⟨st', rfl, hst.distinct, hcancel, ⟨found, before, hl, ht, hrun⟩, hr, hst.progress⟩
  | some r =>
    apply told_result
    have hret := returned_of_reports hrun.of_guarded (by simp [hr])
    refine .streamed found before st' r hl hst.distinct hcancel hrun hret hr rfl ?_ ?_
    · simp [report, PipelineProgress.finishStage, hst.progress, Nat.add_assoc]
    · cases found <;> simp [report, recordStage, discoveryTimes, ht]

/-- A step that changes neither the phase nor what the outcome is told from. -/
theorem told_congr (hi : Told env c s) (hph : s'.phase = s.phase) (hc : s.cancelEvent = true → s'.cancelEvent = true)
    (hl : s'.leads = s.leads) (hf : s'.fields = s.fields) (hp : s'.progress = s.progress)
    (ht : s'.stageTimes = s.stageTimes) (hst : ∀ st, Streaming env c s st → ∃ st', Streaming env c s' st') : Told env c s' := by
  unfold Told at hi ⊢
  rw [hph]
  split at hi
  · rwa [hl, hp, ht]
  · rwa [hl, hp, ht]
  · rwa [hl, hp, ht]
  · rwa [hl, hp, ht]
  · obtain ⟨st, hstreaming⟩ := hi
    exact hst st hstreaming
  · exact hi.congr hc hl hf hp ht
  · exact hi.congr hc hl hf hp ht
  · exact hi.congr hc hl hf hp ht
  · trivial

/-- A cancellation in the stream is one of its own steps. -/
theorem streaming_requests {st : Stream ι} (h : Streaming env c s st) :
    Streaming env c { s with cancelEvent := true, stream := s.stream.map fun st => { st with cancelEvent := true } }
      { st with cancelEvent := true } := by
  obtain ⟨found, before, hl, ht, hrun⟩ := h.run
  have hcancel : Guarded (Stream.Allows env.behaviour) (Fires (Stream.step c)) st .requestCancellation
      { st with cancelEvent := true } := ⟨env.cancels, rfl⟩
  have hnext := hrun.step hcancel
  have hstream : s.stream.map (fun st => { st with cancelEvent := true }) = some { st with cancelEvent := true } := by
    rw [h.stream, Option.map_some]
  exact ⟨hstream, h.distinct, fun _ => rfl, ⟨found, before, hl, ht, hnext⟩, h.unreported, h.progress⟩

theorem told_effect {a : OrchestratorAction ι} (hi : Told env c s) (hb : s.Tame env a) (h : Effect c owns s a s') : Told env c s' := by
  cases h with
  | startsDriver hp => simpa only [Told, hp] using hi
  | launches hp => simpa only [Told, hp] using hi
  | fails _ _ hn => exact told_other hn
  | enters hp =>
    simp only [Told, hp] at hi
    exact told_enter hi
  | discovers hp =>
    simp only [Told, hp] at hi
    refine told_afterDiscovery true hb.1 hb.2 ?_ ?_
    · simp [PipelineProgress.finishStage, hi.2.1]
    · simp [recordStage, hi.2.2, discoveryTimes]
  | discoveryRaises hp =>
    simp only [Told, hp] at hi
    refine told_afterDiscovery false ?_ hi.1 ?_ hi.2.2
    · rw [hi.1]
      exact List.nodup_nil
    · simp [PipelineProgress.finishStage, hi.1, hi.2.1]
  | discoveryCancelled => exact told_other nofun
  | streams hp hst hs he =>
    simp only [Told, hp] at hi
    obtain ⟨st, hstreaming⟩ := hi
    obtain rfl := Option.some.inj (hstreaming.stream.symm.trans hst)
    exact told_advance hstreaming (hb _ hst) hs he hp
  | cancels => exact told_other nofun
  | @stopsPool e next hp he =>
    cases next with
    | result =>
      simp only [Told, hp] at hi
      exact hi.congr id rfl rfl rfl rfl
    | exception => trivial
    | cancelled => trivial
  | leavesPool => trivial
  | @stopsManager closeRaises o cancelled next hp =>
    cases cancelled with
    | true => trivial
    | false =>
      cases next with
      | result =>
        simp only [Told, hp] at hi
        exact hi.congr id rfl rfl rfl rfl
      | exception => trivial
      | cancelled => trivial
  | crashes =>
    refine told_congr hi rfl id rfl rfl rfl rfl ?_
    rintro st ⟨hst, hd, hc, hrun, hr, hp⟩
    exact ⟨st, hst, hd, hc, hrun, hr, hp⟩
  | requests =>
    refine told_congr hi rfl (fun _ => rfl) rfl rfl rfl rfl ?_
    intro st hst
    exact ⟨_, streaming_requests hst⟩

/-- Every run keeps it. -/
theorem told_run {cancelled raises : Bool} {manager : BrowserManager} {as : List (OrchestratorAction ι)}
    (h : Steps (Guarded (Tame env) (Fires (step c owns))) (start owns cancelled raises manager fields) as s) : Told env c s := by
  refine h.inv (Told env c) ?_ fun t a u hi hs => told_effect hi hs.1 (effect_of hs.2)
  unfold start
  split_ifs
  · exact ⟨rfl, rfl, rfl⟩
  · exact ⟨rfl, rfl, rfl⟩
  · exact told_enter ⟨rfl, rfl, rfl⟩

omit [DecidableEq ι] in
@[simp] theorem finish_leads (s : Orchestrator ι) (next : RunEnd) : (s.finish owns next).leads = s.leads := by
  cases owns <;> rfl

omit [DecidableEq ι] in
@[simp] theorem enter_leads (s : Orchestrator ι) : (s.enter owns).leads = s.leads := by
  unfold enter
  split_ifs
  · exact finish_leads s _
  · exact finish_leads s _
  · rfl

omit [DecidableEq ι] in
@[simp] theorem afterDiscovery_leads (s : Orchestrator ι) : (s.afterDiscovery c owns).leads = s.leads := by
  unfold afterDiscovery
  split_ifs
  · exact finish_leads s _
  · rfl

omit [DecidableEq ι] in
@[simp] theorem advance_leads (s : Orchestrator ι) (st : Stream ι) : (s.advance owns st).leads = s.leads := by
  unfold advance
  split
  · rfl
  · exact finish_leads _ _

omit [DecidableEq ι] in
theorem found_of_starts {a : OrchestratorAction ι} (ha : a.starts = true) : a.found = none := by
  cases a with
  | discovers => cases ha
  | _ => rfl

theorem leads_effect {a : OrchestratorAction ι} (h : Effect c owns s a s') : s'.leads = a.found.getD s.leads := by
  cases h with
  | fails ha =>
    rw [found_of_starts ha]
    exact finish_leads _ _
  | enters => exact enter_leads s
  | discovers => exact afterDiscovery_leads _
  | discoveryRaises => exact afterDiscovery_leads _
  | discoveryCancelled => exact finish_leads s _
  | streams => exact advance_leads s _
  | cancels => exact finish_leads s _
  | _ => rfl

/-- The leads are those that the discovery has returned. -/
theorem leads_run {cancelled raises : Bool} {manager : BrowserManager} {as : List (OrchestratorAction ι)}
    (h : Steps (Guarded (Tame env) (Fires (step c owns))) (start owns cancelled raises manager fields) as s) :
    s.leads = discovered as := by
  induction h with
  | nil =>
    unfold start
    split_ifs
    · rfl
    · rfl
    · exact enter_leads _
  | snoc _ hr ih =>
    rw [leads_effect (effect_of hr.2), ih]
    simp [discovered]

end Steps

/-! ## What it tells -/

/-- The progress of a run that returns, with its stage times: `found` are the leads as the discovery handed them on, `now`
as they are returned. -/
inductive Result.Counts (r : Result) (leads : List ι) (found now : ι → BusinessLead) (complete : Bool) : Prop
  /-- Cancelled before the discovery. -/
  | cancelledFirst (hc : complete = false) (hl : leads = []) (hp : r.progress = {}) (ht : r.stageTimes = [])
  /-- Cancelled behind it: the leads are as they were found. -/
  | cancelledNext (returned : Bool) (hc : complete = false) (hn : ∀ a ∈ leads, now a = found a)
      (hp : r.progress = ⟨some .mapsDiscovery, leads.length, 0⟩) (ht : r.stageTimes = discoveryTimes returned)
  /-- Through all stages. `called` are the leads that `enrich_one` was called for. -/
  | streamed (returned : Bool) (called : ι → Bool) (social : ℕ)
      (hcalled : ∀ a ∈ leads, called a = true → needsEnrichment (found a) = true)
      (hall : complete = true → ∀ a ∈ leads, needsEnrichment (found a) = true → called a = true)
      (hs : r.progress.currentStage = some .urlSelection)
      (hfailed : r.progress.failed = (leads.countP fun a => called a && !(now a).website.isSome) +
        leads.countP fun a => (needsSocial (found a) || hasSocialUrl (found a)) && !hasSocialUrl (now a))
      (hcompleted : r.progress.completed = leads.length + (leads.countP fun a => called a && (now a).website.isSome) +
        social + leads.countP fun a => hasSocialUrl (now a))
      (hsocial : (leads.countP fun a => needsSocial (found a) && hasSocialUrl (now a)) ≤ social ∧
        social ≤ leads.countP fun a => needsSocial (found a))
      (ht : r.stageTimes = discoveryTimes returned ++ [.websiteEnrichment, .socialDiscovery, .urlSelection])

/-- What a run that returns a result tells about its leads. -/
structure Result.Tells (r : Result) (leads : List ι) (found now : ι → BusinessLead) (complete : Bool) : Prop where
  returned : r.leads = leads.map now
  /-- The share of the leads with a website and a social URL, in percent and with two digits. -/
  rate : r.successRate = percentage 2 ((leads.countP fun a => truthy (now a).website && hasSocialUrl (now a) : ℕ) : ℚ) leads.length
  /-- The digits are right to half a unit of the last one. -/
  near : |((leads.countP fun a => truthy (now a).website && hasSocialUrl (now a)) / leads.length * 100 : ℚ) - r.successRate| ≤ 1 / 200
  percent : 0 ≤ r.successRate ∧ r.successRate ≤ 100
  counts : r.Counts leads found now complete

/-- The calls of the stream write their own fields; the discovery returns any leads, each with its fields in `found`. -/
def Environment.ownFields (found : ι → BusinessLead) : Environment ι where
  behaviour := .ownFields ι
  cancels := trivial
  discovers leads fields := ∀ a ∈ leads, fields a = found a

variable {found : ι → BusinessLead} {c : PipelineConfig} {s : Orchestrator ι}

omit [DecidableEq ι] in
theorem handed_found {returned : Bool} {leads : List ι} {fields : ι → BusinessLead}
    (h : (Environment.ownFields found).HandsOn returned leads fields) : ∀ a ∈ leads, fields a = found a := by
  cases returned with
  | true => exact h
  | false =>
    obtain rfl : leads = [] := h
    exact nofun

theorem counts_of_outcome (h : Outcome (.ownFields found) c s) : s.result.Counts s.leads found s.fields (!s.cancelEvent) := by
  cases h with
  | cancelledFirst hc hl hp ht => exact .cancelledFirst (by rw [hc, Bool.not_true]) hl hp ht
  | cancelledNext returned hc hl hp ht =>
    exact .cancelledNext returned (by rw [hc, Bool.not_true]) (handed_found hl) hp ht
  | streamed returned fields st r hl hd hc hrun hr hreports hf hp ht =>
    obtain ⟨_, called, hsame, htallies⟩ := Stream.tallies_returned hd hrun hr
    obtain rfl := Option.some.inj (hreports.symm.trans hsame)
    rw [← hf] at htallies
    have htallies := htallies.congr (handed_found hl)
    have henrichment := htallies.enrichment
    have hfailed := htallies.failed
    have hselection := htallies.selection
    have hsocial : r.social.completed ≤ s.leads.countP fun a => needsSocial (found a) :=
      (Nat.le_add_right _ _).trans_eq htallies.social
    refine .streamed returned called r.social.completed htallies.needed (fun hcomplete => htallies.all ?_) ?_ ?_ ?_
      ⟨htallies.kept, hsocial⟩ ht
    · rw [Bool.not_eq_true'] at hcomplete ⊢
      exact eq_false_of_ne_true fun hst => absurd (hcomplete.symm.trans (hc hst)) nofun
    · simp only [result, hp]
    · simp only [result, hp, henrichment, StageReport.over]
      omega
    · simp only [result, hp, henrichment, StageReport.over, hselection]

theorem tells_of_outcome (h : Outcome (.ownFields found) c s) : s.result.Tells s.leads found s.fields (!s.cancelEvent) := by
  have hle : ((s.leads.countP fun a => successful (s.fields a) : ℕ) : ℚ) ≤ s.leads.length := Nat.cast_le.2 List.countP_le_length
  have hpart : (0 : ℚ) ≤ (s.leads.countP fun a => successful (s.fields a) : ℕ) := Nat.cast_nonneg _
  refine ⟨rfl, rfl, ?_, ⟨percentage_nonneg 2 hpart (hpart.trans hle), percentage_le 2 hle (hpart.trans hle)⟩, counts_of_outcome h⟩
  refine (abs_sub_percentage 2).trans ?_
  norm_num

/-- A run that returns has the leads of its discovery, whatever it did with them, and its success rate and its counts
are true of them; what is not cancelled has gone through all stages. -/
theorem run_result (c : PipelineConfig) (owns cancelled raises : Bool) (manager : BrowserManager) (fields found : ι → BusinessLead)
    (as : List (OrchestratorAction ι)) (s : Orchestrator ι)
    (h : Steps (Guarded (Tame (.ownFields found)) (Fires (step c owns))) (start owns cancelled raises manager fields) as s)
    (hp : s.phase = .ended .result) : s.result.Tells (discovered as) found s.fields (!s.cancelEvent) := by
  have htold := told_run h
  simp only [Told, hp] at htold
  rw [← leads_run h]
  exact tells_of_outcome htold

/-- `Tame`, for a stream whose calls an oracle decides. -/
def tame (o : Oracle ι) (found : ι → BusinessLead) (s : Orchestrator ι) : OrchestratorAction ι → Bool
  | .discovers leads fields => decide (leads.Nodup ∧ ∀ a ∈ leads, fields a = found a)
  | .streams e => s.stream.all fun st => st.conforms o e
  | _ => true

/-- The discovery finds two leads, and the stream takes them to their end. -/
def foundCrossed : List (OrchestratorAction ℕ) :=
  .discovers [7, 8] (fun _ => mapsLead) :: Stream.crossedRun.map .streams

theorem tame_instagram {found : ℕ → BusinessLead} {s : Orchestrator ℕ} {a : OrchestratorAction ℕ}
    (h : s.tame Stream.instagramOracle found a) : s.Tame (.ownFields found) a := by
  cases a with
  | discovers leads fields => exact (of_decide_eq_true h : leads.Nodup ∧ ∀ a ∈ leads, fields a = found a)
  | streams e =>
    intro st hst
    simp only [tame, hst, Option.all_some] at h
    exact Stream.allows_own (fun _ l => ⟨l.website, rfl⟩) (fun _ _ => ⟨_, rfl⟩) (Stream.allows_of_conforms h)
  | _ => trivial

theorem run_result_foundCrossed :
    ∃ s, exec (guarded (tame Stream.instagramOracle fun _ => mapsLead) (step Stream.twoPipeline false))
        (start false false false {} fun _ => mapsLead) foundCrossed = some s ∧
      s.result.Tells [7, 8] (fun _ => mapsLead) s.fields true := by
  obtain ⟨s, hs, hp, hc⟩ := exec_ends (f := guarded (tame Stream.instagramOracle fun _ => mapsLead) (step Stream.twoPipeline false))
    (Q := fun s : Orchestrator ℕ => s.phase = .ended .result ∧ s.cancelEvent = false)
    (s := start false false false {} fun _ => mapsLead) foundCrossed (by decide +kernel)
  have hsteps : Steps (Guarded (Tame (.ownFields fun _ => mapsLead)) (Fires (step Stream.twoPipeline false)))
      (start false false false {} fun _ => mapsLead) foundCrossed s := by
    refine (steps_of_exec hs).mono fun _ _ _ hg => ?_
    obtain ⟨ht, hf⟩ := Option.ite_none_right_eq_some.1 hg
    exact ⟨tame_instagram ht, hf⟩
  have htells := run_result Stream.twoPipeline false false false {} (fun _ => mapsLead) (fun _ => mapsLead) foundCrossed s hsteps hp
  rw [hc] at htells
  exact ⟨s, hs, htells⟩

end SocialScraper.Orchestrator
