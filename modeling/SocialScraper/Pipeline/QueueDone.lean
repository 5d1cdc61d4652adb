import SocialScraper.Lib.Workers
import SocialScraper.Pipeline.StreamSteps
/-!
# The end markers

The feeder closes `to_enrich` and the coordinator closes `to_social`, each with
one `_QUEUE_DONE` for every worker of the queue. `Drained` is the invariant.
-/
open Lib

namespace SocialScraper

variable {ι : Type}

def EnrichmentWorker.isReturned : EnrichmentWorker ι → Bool
  | .returned => true
  | _ => false

def SocialWorker.isReturned : SocialWorker ι → Bool
  | .returned => true
  | _ => false

theorem EnrichmentWorker.isReturned_iff {w : EnrichmentWorker ι} : w.isReturned = true ↔ w = .returned := by
  cases w <;> simp [isReturned]

theorem SocialWorker.isReturned_iff {w : SocialWorker ι} : w.isReturned = true ↔ w = .returned := by
  cases w <;> simp [isReturned]

/-- The markers the coordinator has not put yet. -/
def Coordinator.left (total : ℕ) : Coordinator → ℕ
  | .gatheringEnrichment => total
  | .puttingDone n => n + 1
  | .gatheringSocial | .returned => 0

@[simp] theorem left_putLoop (total n : ℕ) : (Coordinator.putLoop n).left total = n := by cases n <;> rfl

theorem putLoop_ne (n : ℕ) : Coordinator.putLoop n ≠ .gatheringEnrichment ∧ Coordinator.putLoop n ≠ .returned := by
  cases n <;> exact ⟨nofun, nofun⟩

namespace Stream

variable (c : PipelineConfig)

/-- What the social workers will still get: the queue, and the markers to come. -/
def socialPending (s : Stream ι) : List (Message ι) :=
  s.toSocial ++ List.replicate (s.coordinator.left c.socialWorkers) .done

def enrichersReturned (s : Stream ι) : ℕ := s.enrichers.countP (·.isReturned)

def socialsReturned (s : Stream ι) : ℕ := s.socials.countP (·.isReturned)

/-- Both queues drain, and the coordinator does not run ahead of the workers. -/
structure Drained (s : Stream ι) : Prop where
  enrich : Drains (s.toEnrich ++ s.feeder) s.enrichersReturned c.enrichmentWorkers
  enrichers : s.enrichers.length = c.enrichmentWorkers
  social : Drains (s.socialPending c) s.socialsReturned c.socialWorkers
  socials : s.socials.length = c.socialWorkers
  gathered : s.coordinator ≠ .gatheringEnrichment → s.feeder = [] ∧ ∀ w ∈ s.enrichers, w = .returned
  finished : s.coordinator = .returned → ∀ w ∈ s.socials, w = .returned

variable {c} {s : Stream ι} {i : ℕ}

theorem enrichersReturned_set {w : EnrichmentWorker ι} (hw : s.enrichers[i]? = some w) (w' : EnrichmentWorker ι) :
    (s.enrichers.set i w').countP (·.isReturned) + (if w.isReturned then 1 else 0) =
      s.enrichersReturned + (if w'.isReturned then 1 else 0) :=
  countP_slot (fun w => w.isReturned) hw w'

theorem socialsReturned_set {w : SocialWorker ι} (hw : s.socials[i]? = some w) (w' : SocialWorker ι) :
    (s.socials.set i w').countP (·.isReturned) + (if w.isReturned then 1 else 0) =
      s.socialsReturned + (if w'.isReturned then 1 else 0) :=
  countP_slot (fun w => w.isReturned) hw w'

/-- While an enrichment worker is at work, the coordinator waits for it. -/
theorem Drained.gathering (hi : Drained c s) {w : EnrichmentWorker ι} (hw : s.enrichers[i]? = some w) (hr : w ≠ .returned) :
    s.coordinator = .gatheringEnrichment := by
  by_contra hc
  exact hr ((hi.gathered hc).2 w (List.mem_of_getElem? hw))

theorem Drained.not_finished (hi : Drained c s) {w : SocialWorker ι} (hw : s.socials[i]? = some w) (hr : w ≠ .returned) :
    s.coordinator ≠ .returned := fun hc => hr (hi.finished hc w (List.mem_of_getElem? hw))

theorem returned_enricher (hw : s.enrichers[i]? = some .getting) :
    (s.enrichers.set i .returned).countP (·.isReturned) = s.enrichersReturned + 1 :=
  enrichersReturned_set hw .returned

theorem returned_social (hw : s.socials[i]? = some .getting) :
    (s.socials.set i .returned).countP (·.isReturned) = s.socialsReturned + 1 :=
  socialsReturned_set hw .returned

/-- A worker that takes a marker leaves no lead behind in its queue. -/
theorem Drained.no_lead_left {q : List (Message ι)} (hi : Drained c s) :
    (s.toEnrich = .done :: q → ∀ a, .item a ∉ s.toEnrich) ∧ (s.toSocial = .done :: q → ∀ a, .item a ∉ s.toSocial) := by
  constructor
  · intro hq a ha
    have hc := hi.enrich.closing
    rw [hq] at hc ha
    exact hc a (List.mem_append_left _ (by simpa using ha))
  · intro hq a ha
    have hc := hi.social.closing
    rw [socialPending, hq] at hc
    rw [hq] at ha
    exact hc a (List.mem_append_left _ (by simpa using ha))

/-- A step of an enrichment worker that stays: only `to_enrich` may have lost its first lead. -/
theorem Drained.enricher_step {s' : Stream ι} (hi : Drained c s) {w w' : EnrichmentWorker ι}
    (hw : s.enrichers[i]? = some w) (hr : w.isReturned = false) (hr' : w'.isReturned = false)
    (he : s'.enrichers = s.enrichers.set i w') (hd : Drains (s'.toEnrich ++ s'.feeder) s.enrichersReturned c.enrichmentWorkers)
    (hs : Drains (s'.socialPending c) s.socialsReturned c.socialWorkers) (hsoc : s'.socials = s.socials)
    (hc : s'.coordinator = s.coordinator) : Drained c s' := by
  have hg : s'.coordinator = .gatheringEnrichment := hc.trans (hi.gathering hw (by rintro rfl; cases hr))
  have hret : s'.enrichersReturned = s.enrichersReturned := by
    rw [enrichersReturned, he]
    simpa [hr, hr'] using enrichersReturned_set hw w'
  exact ⟨hret ▸ hd, by rw [he, List.length_set, hi.enrichers], by rw [socialsReturned, hsoc]; exact hs, hsoc ▸ hi.socials,
    fun h => absurd hg h, fun h => by rw [hg] at h; cases h⟩

/-- A step of a social worker that stays. -/
theorem Drained.social_step {s' : Stream ι} (hi : Drained c s) {w w' : SocialWorker ι} (hw : s.socials[i]? = some w)
    (hr : w.isReturned = false) (hr' : w'.isReturned = false) (hsoc : s'.socials = s.socials.set i w')
    (hs : Drains (s'.socialPending c) s.socialsReturned c.socialWorkers) (hq : s'.toEnrich = s.toEnrich)
    (hf : s'.feeder = s.feeder) (he : s'.enrichers = s.enrichers) (hc : s'.coordinator = s.coordinator) : Drained c s' := by
  have hn : s'.coordinator ≠ .returned := hc ▸ hi.not_finished hw (by rintro rfl; cases hr)
  have hret : s'.socialsReturned = s.socialsReturned := by
    rw [socialsReturned, hsoc]
    simpa [hr, hr'] using socialsReturned_set hw w'
  exact ⟨by rw [enrichersReturned, he, hq, hf]; exact hi.enrich, he ▸ hi.enrichers, hret ▸ hs,
    by rw [hsoc, List.length_set, hi.socials], by rw [hc, hf, he]; exact hi.gathered, fun h => absurd h hn⟩

variable [DecidableEq ι]

theorem drained_effect {s' : Stream ι} {e : StreamAction ι} (hi : Drained c s) (h : Effect c s e s') : Drained c s' := by
  cases h with
  | @feeds m rest hf hq =>
    -- The feeder is not through, so the coordinator still gathers.
    have hg : s.coordinator = .gatheringEnrichment := by
      by_contra hc
      simp [(hi.gathered hc).1] at hf
    have hd : Drains ((s.toEnrich ++ [m]) ++ rest) s.enrichersReturned c.enrichmentWorkers := by
      simpa [hf] using hi.enrich
    exact ⟨hd, hi.enrichers, hi.social, hi.socials, fun h => absurd hg h, hi.finished⟩
  | @enricherReturns i q hw hq =>
    have hg := hi.gathering hw (by simp)
    have hd := hi.enrich
    rw [hq] at hd
    have hret : Drains (q ++ s.feeder) ((s.enrichers.set i .returned).countP (·.isReturned)) c.enrichmentWorkers := by
      rw [returned_enricher hw]
      exact hd.take_done
    exact ⟨hret, by simpa [setEnricher] using hi.enrichers, hi.social, hi.socials, fun h => absurd hg h, hi.finished⟩
  | enrichBegins hw hq =>
    have hd := hi.enrich
    rw [hq] at hd
    exact hi.enricher_step hw rfl rfl rfl hd.take_item hi.social rfl rfl
  | enrichSkips hw hq =>
    have hd := hi.enrich
    rw [hq] at hd
    exact hi.enricher_step hw rfl rfl rfl hd.take_item hi.social rfl rfl
  | enrichUses hw => exact hi.enricher_step hw rfl rfl rfl hi.enrich hi.social rfl rfl
  | enrichEnds hw => exact hi.enricher_step hw rfl rfl rfl hi.enrich hi.social rfl rfl
  | @forwards i a hw =>
    -- All markers of `to_social` are still to come, so the lead is put before them.
    have hg := hi.gathering hw (by simp)
    have hs := hi.social
    simp only [socialPending, hg, Coordinator.left] at hs
    refine hi.enricher_step hw rfl rfl rfl hi.enrich ?_ rfl rfl
    simpa [socialPending, setEnricher, hg, Coordinator.left] using hs.insert (by simp) a
  | @socialReturns j q hw hq =>
    have hs := hi.social
    rw [socialPending, hq] at hs
    have hret : Drains (q ++ List.replicate (s.coordinator.left c.socialWorkers) .done)
        ((s.socials.set j .returned).countP (·.isReturned)) c.socialWorkers := by
      rw [returned_social hw]
      exact hs.take_done
    exact ⟨hi.enrich, hi.enrichers, hret, by simpa [setSocial] using hi.socials, hi.gathered,
      fun h => absurd h (hi.not_finished hw (by simp))⟩
  | socialBegins hw hq =>
    have hs := hi.social
    rw [socialPending, hq] at hs
    exact hi.social_step hw rfl rfl rfl hs.take_item rfl rfl rfl rfl
  | socialSkips hw hq =>
    have hs := hi.social
    rw [socialPending, hq] at hs
    exact hi.social_step hw rfl rfl rfl hs.take_item rfl rfl rfl rfl
  | socialUses hw => exact hi.social_step hw rfl rfl rfl hi.social rfl rfl rfl rfl
  | socialEnds hw => exact hi.social_step hw rfl rfl rfl hi.social rfl rfl rfl rfl
  | gathersEnrichment hc hf hw =>
    have hs := hi.social
    simp only [socialPending, hc, Coordinator.left] at hs
    exact ⟨hi.enrich, hi.enrichers, by simpa [socialPending, socialsReturned] using hs, hi.socials, fun _ => ⟨hf, hw⟩,
      fun h => absurd h (putLoop_ne _).2⟩
  | @putsDone n hc hq =>
    have hs := hi.social
    simp only [socialPending, hc, Coordinator.left] at hs
    exact ⟨hi.enrich, hi.enrichers, by simpa [socialPending, socialsReturned, List.replicate_succ] using hs, hi.socials,
      fun _ => hi.gathered (by simp [hc]), fun h => absurd h (putLoop_ne _).2⟩
  | gathersSocial hc hw =>
    have hs := hi.social
    simp only [socialPending, hc, Coordinator.left] at hs
    exact ⟨hi.enrich, hi.enrichers, hs, hi.socials, fun _ => hi.gathered (by simp [hc]), fun _ => hw⟩
  | cancels => exact ⟨hi.enrich, hi.enrichers, hi.social, hi.socials, hi.gathered, hi.finished⟩

theorem drained_reachable {leads : List ι} {fields : ι → BusinessLead} (h : Reachable (Fires (step c)) (start c leads fields) s) :
    Drained c s := by
  refine h.inv (Drained c) ⟨?_, by simp [start], ?_, by simp [start], fun h => absurd rfl h, nofun⟩
    fun _ _ _ hi hs => drained_effect hi (effect_of c hs)
  · simpa [start, enrichersReturned, List.countP_replicate, EnrichmentWorker.isReturned] using
      Drains.load leads c.enrichmentWorkers
  · simpa [start, socialPending, socialsReturned, List.countP_replicate, SocialWorker.isReturned, Coordinator.left] using
      Drains.load ([] : List ι) c.socialWorkers

end Stream

end SocialScraper
