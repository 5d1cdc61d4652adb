import SocialScraper.Pipeline.QueueDone
/-!
# Streaming never deadlocks

A full queue waits for its workers, an empty one for its producer, a call for
a page and a gather for its tasks; `never_deadlocks` says they never all wait
at once. The page pool is accounted for by `PagesKept`.
-/
open Lib

namespace SocialScraper

variable {ι : Type}

def CallPhase.holdsPage : CallPhase → Bool
  | .holdingPage => true
  | .running | .awaitingPage => false

def EnrichmentWorker.holdsPage : EnrichmentWorker ι → Bool
  | .enriching _ p => p.holdsPage
  | _ => false

def SocialWorker.holdsPage : SocialWorker ι → Bool
  | .discovering _ p => p.holdsPage
  | _ => false

theorem CallPhase.advance_pages {u : CallStep} {free free' : ℕ} {p p' : CallPhase} (h : p.advance u free = some (free', p')) :
    free' + (if p'.holdsPage then 1 else 0) = free + (if p.holdsPage then 1 else 0) := by
  unfold advance at h
  split at h <;> cases h <;> rfl

namespace Stream

variable {c : PipelineConfig} {s : Stream ι} {i : ℕ}

/-- Each page of the pool is free or with one worker. -/
def PagesKept (c : PipelineConfig) (s : Stream ι) : Prop :=
  s.freePages + s.enrichers.countP (·.holdsPage) + s.socials.countP (·.holdsPage) = c.pages

theorem enricher_pages {w : EnrichmentWorker ι} (hw : s.enrichers[i]? = some w) (w' : EnrichmentWorker ι) :
    (s.enrichers.set i w').countP (·.holdsPage) + (if w.holdsPage then 1 else 0) =
      s.enrichers.countP (·.holdsPage) + (if w'.holdsPage then 1 else 0) :=
  countP_slot (fun w => w.holdsPage) hw w'

theorem social_pages {w : SocialWorker ι} (hw : s.socials[i]? = some w) (w' : SocialWorker ι) :
    (s.socials.set i w').countP (·.holdsPage) + (if w.holdsPage then 1 else 0) =
      s.socials.countP (·.holdsPage) + (if w'.holdsPage then 1 else 0) :=
  countP_slot (fun w => w.holdsPage) hw w'

/-- What an enrichment worker takes from the free pages, it holds. -/
theorem PagesKept.enricher_step {s' : Stream ι} (hi : PagesKept c s) {w w' : EnrichmentWorker ι}
    (hw : s.enrichers[i]? = some w) (he : s'.enrichers = s.enrichers.set i w') (hs : s'.socials = s.socials)
    (hf : s'.freePages + (if w'.holdsPage then 1 else 0) = s.freePages + (if w.holdsPage then 1 else 0)) :
    PagesKept c s' := by
  have hslot := enricher_pages hw w'
  unfold PagesKept at *
  rw [he, hs]
  omega

theorem PagesKept.social_step {s' : Stream ι} (hi : PagesKept c s) {w w' : SocialWorker ι}
    (hw : s.socials[i]? = some w) (hs : s'.socials = s.socials.set i w') (he : s'.enrichers = s.enrichers)
    (hf : s'.freePages + (if w'.holdsPage then 1 else 0) = s.freePages + (if w.holdsPage then 1 else 0)) :
    PagesKept c s' := by
  have hslot := social_pages hw w'
  unfold PagesKept at *
  rw [he, hs]
  omega

variable [DecidableEq ι]

theorem pagesKept_effect {s' : Stream ι} {e : StreamAction ι} (hi : PagesKept c s) (h : Effect c s e s') : PagesKept c s' := by
  cases h with
  | enricherReturns hw | enrichBegins hw | enrichSkips hw | enrichEnds hw | forwards hw =>
    exact hi.enricher_step hw rfl rfl rfl
  | enrichUses hw hp => exact hi.enricher_step hw rfl rfl (CallPhase.advance_pages hp)
  | socialReturns hw | socialBegins hw | socialSkips hw | socialEnds hw => exact hi.social_step hw rfl rfl rfl
  | socialUses hw hp => exact hi.social_step hw rfl rfl (CallPhase.advance_pages hp)
  | feeds | gathersEnrichment | putsDone | gathersSocial | cancels => exact hi

theorem pagesKept_reachable {leads : List ι} {fields : ι → BusinessLead}
    (h : Reachable (Fires (step c)) (start c leads fields) s) : PagesKept c s := by
  refine h.inv (PagesKept c) ?_ fun _ _ _ hi hs => pagesKept_effect hi (effect_of c hs)
  simp [PagesKept, start, List.countP_replicate, EnrichmentWorker.holdsPage, SocialWorker.holdsPage]

/-! ## What is enabled -/

/-- Some task can take a step. -/
def Enabled (c : PipelineConfig) (s : Stream ι) : Prop := ∃ e, e ≠ .requestCancellation ∧ (s.step c e).isSome

theorem enabled_feed (hf : s.feeder ≠ []) (hq : s.toEnrich.length < c.enrichCapacity) : Enabled c s := by
  obtain ⟨m, rest, hf⟩ := List.exists_cons_of_ne_nil hf
  exact ⟨.feed, by simp, by simp [step, feed, hf, hq]⟩

theorem enabled_enrichGet (hw : .getting ∈ s.enrichers) (hq : s.toEnrich ≠ []) : Enabled c s := by
  obtain ⟨i, hi⟩ := List.mem_iff_getElem?.1 hw
  obtain ⟨m, q, hq⟩ := List.exists_cons_of_ne_nil hq
  exact ⟨.enrichGet i, by simp, by cases m <;> simp [step, enrichGet, hi, hq]⟩

theorem enabled_enrichPut {a : ι} (hw : .putting a ∈ s.enrichers) (hq : s.toSocial.length < c.socialCapacity) :
    Enabled c s := by
  obtain ⟨i, hi⟩ := List.mem_iff_getElem?.1 hw
  exact ⟨.enrichPut i, by simp, by simp [step, enrichPut, hi, hq]⟩

theorem enabled_socialGet (hw : .getting ∈ s.socials) (hq : s.toSocial ≠ []) : Enabled c s := by
  obtain ⟨j, hj⟩ := List.mem_iff_getElem?.1 hw
  obtain ⟨m, q, hq⟩ := List.exists_cons_of_ne_nil hq
  exact ⟨.socialGet j, by simp, by cases m <;> simp [step, socialGet, hj, hq]⟩

/-- Whoever holds a page can give it back. -/
theorem enabled_enrichRelease {a : ι} (hw : s.enrichers[i]? = some (.enriching a .holdingPage)) : Enabled c s :=
  ⟨.enrichCall i .release, by simp, by simp [step, enrichCall, hw, CallPhase.advance]⟩

theorem enabled_socialRelease {a : ι} (hw : s.socials[i]? = some (.discovering a .holdingPage)) : Enabled c s :=
  ⟨.socialCall i .release, by simp, by simp [step, socialCall, hw, CallPhase.advance]⟩

theorem enabled_of_holder (h : 0 < s.enrichers.countP (·.holdsPage) + s.socials.countP (·.holdsPage)) : Enabled c s := by
  rcases Nat.add_pos_iff_pos_or_pos.1 h with h | h
  · obtain ⟨w, hw, hh⟩ := List.countP_pos_iff.1 h
    obtain ⟨i, hi⟩ := List.mem_iff_getElem?.1 hw
    rcases w with _ | ⟨a, _ | _ | _⟩ | _ | _ <;> try cases hh
    exact enabled_enrichRelease hi
  · obtain ⟨w, hw, hh⟩ := List.countP_pos_iff.1 h
    obtain ⟨j, hj⟩ := List.mem_iff_getElem?.1 hw
    rcases w with _ | ⟨a, _ | _ | _⟩ | _ <;> try cases hh
    exact enabled_socialRelease hj

/-- A call waits for a page only while others hold all of them. -/
theorem enabled_of_awaiting (hi : PagesKept c s) (hp : 1 ≤ c.pages) (hfree : 0 < s.freePages → Enabled c s) : Enabled c s := by
  by_cases h : 0 < s.freePages
  · exact hfree h
  · exact enabled_of_holder (by unfold PagesKept at hi; omega)

theorem enabled_of_enriching (hi : PagesKept c s) (hp : 1 ≤ c.pages) {a : ι} {p : CallPhase}
    (hw : .enriching a p ∈ s.enrichers) : Enabled c s := by
  obtain ⟨i, hw'⟩ := List.mem_iff_getElem?.1 hw
  cases p with
  | running => exact ⟨.enrichEnd i ⟨s.fields a, false⟩, by simp, by simp [step, enrichEnd, hw']⟩
  | holdingPage => exact enabled_enrichRelease hw'
  | awaitingPage =>
    apply enabled_of_awaiting hi hp
    intro hfree
    obtain ⟨n, hn⟩ := Nat.exists_eq_succ_of_ne_zero hfree.ne'
    exact ⟨.enrichCall i .acquire, by simp, by simp [step, enrichCall, hw', CallPhase.advance, hn]⟩

theorem enabled_of_discovering (hi : PagesKept c s) (hp : 1 ≤ c.pages) {a : ι} {p : CallPhase}
    (hw : .discovering a p ∈ s.socials) : Enabled c s := by
  obtain ⟨j, hw'⟩ := List.mem_iff_getElem?.1 hw
  cases p with
  | running => exact ⟨.socialEnd j ⟨s.fields a, false⟩, by simp, by simp [step, socialEnd, hw']⟩
  | holdingPage => exact enabled_socialRelease hw'
  | awaitingPage =>
    apply enabled_of_awaiting hi hp
    intro hfree
    obtain ⟨n, hn⟩ := Nat.exists_eq_succ_of_ne_zero hfree.ne'
    exact ⟨.socialCall j .acquire, by simp, by simp [step, socialCall, hw', CallPhase.advance, hn]⟩

/-! ## No circular wait -/

/-- Where no call is under way, an enrichment worker gets, puts, or has returned. -/
theorem enricher_cases (hi : PagesKept c s) (hp : 1 ≤ c.pages) (hn : ¬ Enabled c s) {w : EnrichmentWorker ι}
    (hw : w ∈ s.enrichers) : w = .getting ∨ (∃ a, w = .putting a) ∨ w = .returned := by
  cases w with
  | getting => exact .inl rfl
  | enriching a p => exact absurd (enabled_of_enriching hi hp hw) hn
  | putting a => exact .inr (.inl ⟨a, rfl⟩)
  | returned => exact .inr (.inr rfl)

theorem social_cases (hi : PagesKept c s) (hp : 1 ≤ c.pages) (hn : ¬ Enabled c s) {w : SocialWorker ι}
    (hw : w ∈ s.socials) : w = .getting ∨ w = .returned := by
  cases w with
  | getting => exact .inl rfl
  | discovering a p => exact absurd (enabled_of_discovering hi hp hw) hn
  | returned => exact .inr rfl

/-- If not all social workers have returned, one of them waits in `get`. -/
theorem social_getting (hi : PagesKept c s) (hp : 1 ≤ c.pages) (hn : ¬ Enabled c s) (hd : Drained c s)
    (hr : s.socialsReturned < c.socialWorkers) : .getting ∈ s.socials := by
  by_contra hg
  have hall : ∀ w ∈ s.socials, w.isReturned := fun w hw => by
    rcases social_cases hi hp hn hw with rfl | rfl
    · exact absurd hw hg
    · rfl
  have : s.socialsReturned = s.socials.length := List.countP_eq_length.2 hall
  have := hd.socials
  omega

/-- If no enrichment worker puts and not all have returned, one of them waits in `get`. -/
theorem enricher_getting (hi : PagesKept c s) (hp : 1 ≤ c.pages) (hn : ¬ Enabled c s) (hd : Drained c s)
    (hput : ∀ a, .putting a ∉ s.enrichers) (hr : s.enrichersReturned < c.enrichmentWorkers) : .getting ∈ s.enrichers := by
  by_contra hg
  have hall : ∀ w ∈ s.enrichers, w.isReturned := fun w hw => by
    rcases enricher_cases hi hp hn hw with rfl | ⟨a, rfl⟩ | rfl
    · exact absurd hw hg
    · exact absurd hw (hput a)
    · rfl
  have : s.enrichersReturned = s.enrichers.length := List.countP_eq_length.2 hall
  have := hd.enrichers
  omega

theorem enabled_gatheringEnrichment (hi : PagesKept c s) (hp : 1 ≤ c.pages) (hd : Drained c s)
    (hc : s.coordinator = .gatheringEnrichment) : Enabled c s := by
  by_contra hn
  -- No marker is in `to_social` yet, so all social workers wait for a lead and the queue is empty.
  have hs := hd.social
  simp only [socialPending, hc, Coordinator.left] at hs
  have hnone : s.socialsReturned = 0 := (hs.none_put (by simp)).2
  have hsg := social_getting hi hp hn hd (by have := c.socialWorkers_pos; omega)
  have hempty : s.toSocial = [] := by_contra fun hq => hn (enabled_socialGet hsg hq)
  have hput : ∀ a, .putting a ∉ s.enrichers := fun a hw =>
    hn (enabled_enrichPut hw (by simp [hempty, PipelineConfig.socialCapacity]))
  rcases Nat.lt_or_ge s.enrichersReturned c.enrichmentWorkers with hr | hr
  · -- A worker waits for a lead, so `to_enrich` is empty, and the feeder can put what is left.
    have hget := enricher_getting hi hp hn hd hput hr
    have hq : s.toEnrich = [] := by_contra fun hq => hn (enabled_enrichGet hget hq)
    have hf : s.feeder = [] := by_contra fun hf =>
      hn (enabled_feed hf (by simp [hq, PipelineConfig.enrichCapacity]))
    have hm := hd.enrich.markers
    simp [hq, hf] at hm
    omega
  · -- All have returned, and with them the feeder.
    have hE : s.enrichersReturned = c.enrichmentWorkers := by have := hd.enrich.markers; omega
    have hpend := (hE ▸ hd.enrich).all_returned c.enrichmentWorkers_pos
    have hall : ∀ w ∈ s.enrichers, w.isReturned := List.countP_eq_length.1 (hE.trans hd.enrichers.symm)
    have hret : ∀ w ∈ s.enrichers, w = .returned := fun w hw => EnrichmentWorker.isReturned_iff.1 (hall w hw)
    exact hn ⟨.enrichmentGathered, by simp,
      by simp [step, enrichmentGathered, hc, (List.append_eq_nil_iff.1 hpend).2]; exact hret⟩

theorem enabled_puttingDone (hi : PagesKept c s) (hp : 1 ≤ c.pages) (hd : Drained c s) {n : ℕ}
    (hc : s.coordinator = .puttingDone n) : Enabled c s := by
  by_contra hn
  have hfull : ¬ s.toSocial.length < c.socialCapacity := fun hq =>
    hn ⟨.putDone, by simp, by simp [step, putDone, hc, hq]⟩
  have hne : s.toSocial ≠ [] := fun hq => hfull (by simp [hq, PipelineConfig.socialCapacity])
  have hm := hd.social.markers
  simp only [socialPending, hc, Coordinator.left, markers_append, markers_replicate] at hm
  exact hn (enabled_socialGet (social_getting hi hp hn hd (by omega)) hne)

theorem enabled_gatheringSocial (hi : PagesKept c s) (hp : 1 ≤ c.pages) (hd : Drained c s)
    (hc : s.coordinator = .gatheringSocial) : Enabled c s := by
  by_contra hn
  have hm := hd.social.markers
  simp only [socialPending, hc, Coordinator.left, markers_append, markers_replicate] at hm
  rcases Nat.lt_or_ge s.socialsReturned c.socialWorkers with hr | hr
  · have hne : s.toSocial ≠ [] := fun hq => by simp [hq] at hm; omega
    exact hn (enabled_socialGet (social_getting hi hp hn hd hr) hne)
  · have hS : s.socialsReturned = s.socials.length := by have := hd.socials; omega
    have hret : ∀ w ∈ s.socials, w = .returned := fun w hw =>
      SocialWorker.isReturned_iff.1 (List.countP_eq_length.1 hS w hw)
    exact hn ⟨.socialGathered, by simp, by simp [step, socialGathered, hc]; exact hret⟩

/-- The four places of the coordinator: before its return, something is enabled. -/
theorem enabled_of_waiting (hi : PagesKept c s) (hp : 1 ≤ c.pages) (hd : Drained c s) (hc : s.coordinator ≠ .returned) :
    Enabled c s := by
  cases hco : s.coordinator with
  | gatheringEnrichment => exact enabled_gatheringEnrichment hi hp hd hco
  | puttingDone n => exact enabled_puttingDone hi hp hd hco
  | gatheringSocial => exact enabled_gatheringSocial hi hp hd hco
  | returned => exact absurd hco hc

/-- Until the coordinator has returned some task can take a step: the feeder,
the workers and the coordinator never all wait at once. -/
theorem never_deadlocks (c : PipelineConfig) (hp : 1 ≤ c.pages) (leads : List ι) (fields : ι → BusinessLead)
    (s : Stream ι) (h : Reachable (Fires (step c)) (start c leads fields) s) (hc : s.coordinator ≠ .returned) :
    Enabled c s := by
  have hi := pagesKept_reachable h
  have hd := drained_reachable h
  exact enabled_of_waiting hi hp hd hc

/-- One page for two enrichment workers. -/
def onePagePipeline : PipelineConfig where
  settings := .defaults
  lib := .plain
  enrichmentWorkerCount := some 2
  socialWorkerCount := some 1
  pages := 1

/-- Both workers are in a call and want the page; one has it. -/
def pageAwaited : List (StreamAction ℕ) :=
  [.feed, .feed, .enrichGet 0, .enrichGet 1, .enrichCall 0 .ask, .enrichCall 1 .ask, .enrichCall 0 .acquire]

theorem never_deadlocks_onePage :
    ∃ s, exec (step onePagePipeline) (start onePagePipeline [7, 8] fun _ => mapsLead) pageAwaited = some s ∧
      s.freePages = 0 ∧ Enabled onePagePipeline s := by
  obtain ⟨s, hs, hp, hr⟩ := exec_ends (f := step onePagePipeline)
    (Q := fun s : Stream ℕ => s.freePages = 0 ∧ s.coordinator ≠ .returned)
    (s := start onePagePipeline [7, 8] fun _ => mapsLead) pageAwaited (by decide +kernel)
  exact ⟨s, hs, hp, never_deadlocks onePagePipeline (by decide) [7, 8] _ s (reachable_of_exec _ hs) hr⟩

end Stream

end SocialScraper
