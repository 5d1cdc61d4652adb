import SocialScraper.Lib.Gather
import SocialScraper.Pipeline.StreamSteps
/-!
# The batch stages

`WebsiteEnrichmentStage`, `SocialDiscoveryStage` and `UrlSelectionStage` run
one after the other over the whole list. The first two gather one call for
each lead that needs it, with a bound on how many run at once.
-/
open Lib

namespace SocialScraper

variable {ι : Type} [DecidableEq ι]

/-- The per-lead calls, as functions of the lead's identity and fields. -/
structure Oracle (ι : Type) where
  enrichOne : ι → BusinessLead → CallOutcome
  discoverSocialLinksOne : ι → BusinessLead → CallOutcome

/-- What a stage leaves behind: the list, the store, and its `finish_stage` call. -/
structure StageResult (ι : Type) where
  leads : List ι
  fields : ι → BusinessLead
  report : StageReport

/-- The counts over the leads a stage was needed for. -/
def StageReport.of (needed : List ι) (succeeded : ι → Bool) : StageReport where
  completed := needed.countP succeeded
  failed := needed.length - needed.countP succeeded

/-- `gather_with_concurrency(limit, *(task(lead) for lead in needed))`, for tasks that
catch every exception. -/
def GatherWithConcurrency (limit : ℕ) (call : ι → BusinessLead → CallOutcome) (needed : List ι)
    (before after : ι → BusinessLead) : Prop :=
  ∃ g, Reachable (Fires (Gather.step limit fun a l => (call a l).fields)) (Gather.start needed before) g ∧ g.done ∧
    g.store = after

section Stages
variable (c : PipelineConfig) (o : Oracle ι) (leads : List ι) (before : ι → BusinessLead)

/-- `WebsiteEnrichmentStage.process` with `enrich_batch`. -/
inductive WebsiteEnrichmentStage : StageResult ι → Prop
  | process {after}
      (h : GatherWithConcurrency c.enrichmentWorkers o.enrichOne (leads.filter fun a => needsEnrichment (before a)) before
        after) :
      WebsiteEnrichmentStage ⟨leads, after,
        .of (leads.filter fun a => (before a).website.isNone && truthy (before a).social.googleMapsUrl)
          fun a => (after a).website.isSome⟩

/-- `SocialDiscoveryStage.process` with `discover_social_batch`. -/
inductive SocialDiscoveryStage : StageResult ι → Prop
  | process {after}
      (h : GatherWithConcurrency c.socialWorkers o.discoverSocialLinksOne (leads.filter fun a => needsSocial (before a))
        before after) :
      SocialDiscoveryStage ⟨leads, after,
        .of (leads.filter fun a => needsSocial (before a)) fun a => hasSocialUrl (after a)⟩

/-- The loop of `UrlSelectionStage.process`. -/
def selectAll (fields : ι → BusinessLead) (leads : List ι) : Option (ι → BusinessLead) :=
  leads.foldlM (fun fields a => (selectLead c.lib c.settings (fields a)).map fun l => Function.update fields a l) fields

/-- `UrlSelectionStage.process`; `none` if a selection raises. -/
def urlSelectionStage : Option (StageResult ι) :=
  (selectAll c before leads).map fun after =>
    let selectedBefore := leads.countP fun a => hasSocialUrl (before a)
    let selectedAfter := leads.countP fun a => hasSocialUrl (after a)
    ⟨leads, after, ⟨selectedAfter, selectedBefore - selectedAfter⟩⟩

/-- The three stages one after the other, with what they report. -/
inductive BatchRun : StageResult ι → Reports → Prop
  | stages {r₁ r₂ r₃ : StageResult ι} (h₁ : WebsiteEnrichmentStage c o leads before r₁)
      (h₂ : SocialDiscoveryStage c o r₁.leads r₁.fields r₂) (h₃ : urlSelectionStage c r₂.leads r₂.fields = some r₃) :
      BatchRun r₃ ⟨r₁.report, r₂.report, r₃.report⟩

end Stages

/-! ## The stages lead by lead -/

namespace Oracle

variable (c : PipelineConfig) (o : Oracle ι)

/-- A lead after the enrichment, given whether it is needed. -/
def enriched (needed : Bool) (a : ι) (l : BusinessLead) : BusinessLead :=
  if needed then (o.enrichOne a l).fields else l

/-- A lead after the social discovery. -/
def discovered (a : ι) (l : BusinessLead) : BusinessLead :=
  if needsSocial l then (o.discoverSocialLinksOne a l).fields else l

end Oracle

section Results
variable {c : PipelineConfig} {o : Oracle ι} {leads : List ι} {before after : ι → BusinessLead}

theorem gather_eq {limit : ℕ} {call : ι → BusinessLead → CallOutcome} {needed : List ι} (hn : needed.Nodup)
    (h : GatherWithConcurrency limit call needed before after) :
    after = fun a => if a ∈ needed then (call a (before a)).fields else before a := by
  obtain ⟨g, hg, hd, rfl⟩ := h
  exact Gather.gather_result hn hg hd

theorem gather_exists {limit : ℕ} (hl : 1 ≤ limit) (call : ι → BusinessLead → CallOutcome) (needed : List ι)
    (before : ι → BusinessLead) : ∃ after, GatherWithConcurrency limit call needed before after := by
  obtain ⟨g, hg, hd⟩ := Gather.gather_completes (fun a l => (call a l).fields) hl needed before
  exact ⟨_, g, hg, hd, rfl⟩

/-- The selection loop treats each lead by itself, and does not raise. -/
theorem selectAll_eq (c : PipelineConfig) (hd : leads.Nodup) (fields : ι → BusinessLead) :
    selectAll c fields leads = some fun a => if a ∈ leads then Stream.selected c (fields a) else fields a := by
  induction leads generalizing fields with
  | nil => simp [selectAll]
  | cons a leads ih =>
    obtain ⟨ha, hd⟩ := List.nodup_cons.1 hd
    obtain ⟨l, hl⟩ := Option.isSome_iff_exists.1 (selectLead_isSome c.lib c.settings (fields a))
    -- The first lead is none of the others, so they see the old fields.
    have hfirst : selectAll c fields (a :: leads) = selectAll c (Function.update fields a l) leads := by
      simp [selectAll, List.foldlM_cons, hl]
    rw [hfirst, ih hd]
    congr 1
    funext b
    by_cases hb : b = a
    · subst hb
      simp [ha, Stream.selected, hl]
    · simp [hb]

theorem enrichment_fields (hd : leads.Nodup) {r : StageResult ι} (h : WebsiteEnrichmentStage c o leads before r) :
    r.leads = leads ∧ ∀ a, r.fields a =
      if a ∈ leads then o.enriched (needsEnrichment (before a)) a (before a) else before a := by
  cases h with
  | process h =>
    rw [gather_eq (hd.filter _) h]
    exact ⟨rfl, fun a => by by_cases ha : a ∈ leads <;> simp [ha, Oracle.enriched]⟩

theorem social_fields (hd : leads.Nodup) {r : StageResult ι} (h : SocialDiscoveryStage c o leads before r) :
    r.leads = leads ∧ ∀ a, r.fields a = if a ∈ leads then o.discovered a (before a) else before a := by
  cases h with
  | process h =>
    rw [gather_eq (hd.filter _) h]
    exact ⟨rfl, fun a => by by_cases ha : a ∈ leads <;> simp [ha, Oracle.discovered]⟩

theorem selection_fields (hd : leads.Nodup) {r : StageResult ι} (h : urlSelectionStage c leads before = some r) :
    r.leads = leads ∧ ∀ a, r.fields a = if a ∈ leads then Stream.selected c (before a) else before a := by
  simp only [urlSelectionStage, selectAll_eq c hd, Option.map_some, Option.some.injEq] at h
  subst h
  exact ⟨rfl, fun _ => rfl⟩

/-- What the batch stages make of each lead. -/
theorem batch_fields (hd : leads.Nodup) {r : StageResult ι} {p : Reports} (h : BatchRun c o leads before r p) :
    r.leads = leads ∧ ∀ a, r.fields a =
      if a ∈ leads then
        Stream.selected c (o.discovered a (o.enriched (needsEnrichment (before a)) a (before a)))
      else before a := by
  obtain ⟨h₁, h₂, h₃⟩ := h
  obtain ⟨hl₁, hf₁⟩ := enrichment_fields hd h₁
  rw [hl₁] at h₂
  obtain ⟨hl₂, hf₂⟩ := social_fields hd h₂
  rw [hl₂] at h₃
  obtain ⟨hl₃, hf₃⟩ := selection_fields hd h₃
  refine ⟨hl₃, fun a => ?_⟩
  by_cases ha : a ∈ leads <;> simp [hf₃, hf₂, hf₁, ha]

/-- The batch stages come to an end. -/
theorem batch_completes (c : PipelineConfig) (o : Oracle ι) (hd : leads.Nodup) (before : ι → BusinessLead) :
    ∃ r p, BatchRun c o leads before r p := by
  obtain ⟨f₁, h₁⟩ := gather_exists c.enrichmentWorkers_pos o.enrichOne (leads.filter fun a => needsEnrichment (before a)) before
  obtain ⟨f₂, h₂⟩ := gather_exists c.socialWorkers_pos o.discoverSocialLinksOne (leads.filter fun a => needsSocial (f₁ a)) f₁
  exact ⟨_, _, .stages (.process h₁) (.process h₂) (by rw [urlSelectionStage, selectAll_eq c hd]; rfl)⟩

end Results

end SocialScraper
