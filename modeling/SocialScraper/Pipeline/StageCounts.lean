import SocialScraper.Pipeline.Cancellation
/-!
# What the stages report

The streaming workers count while leads pass them, the batch stages count over
the list. Every count of the stream is a fold over the marks (`tally`), so at
the end it is a count over the leads as well; `reports_agree_iff` compares the two.
-/
open Lib

namespace SocialScraper

variable {ι : Type} [DecidableEq ι]

namespace Oracle

variable (c : PipelineConfig) (o : Oracle ι) (fields : ι → BusinessLead)

/-- The lead behind its enrichment. -/
def afterEnrichment (a : ι) : BusinessLead := o.enriched (needsEnrichment (fields a)) a (fields a)

/-- The lead behind its social discovery. -/
def afterDiscovery (a : ι) : BusinessLead := o.discovered a (o.afterEnrichment fields a)

end Oracle

/-- `enrichment_worker` counts a lead after its enrichment. -/
def countEnriched (n : Counts) (lead : BusinessLead) : Counts :=
  if lead.website.isSome then { n with enrichmentCompleted := n.enrichmentCompleted + 1 }
  else { n with enrichmentFailed := n.enrichmentFailed + 1 }

/-- What the workers count when a lead passes the mark. -/
def countMark (c : PipelineConfig) (o : Oracle ι) (fields : ι → BusinessLead) (n : Counts) : ι × Mark → Counts
  | (a, .enrichEnd) => if needsEnrichment (fields a) then countEnriched n (o.afterEnrichment fields a) else n
  | (a, .socialEnd) =>
    let found := o.afterDiscovery fields a
    Stream.countSelected (Stream.countDiscovered n (needsSocial (o.afterEnrichment fields a)) found) (Stream.selected c found)
  | _ => n

/-- The counts after the marks of the log. -/
def tally (c : PipelineConfig) (o : Oracle ι) (fields : ι → BusinessLead) (log : List (ι × Mark)) : Counts :=
  log.foldl (countMark c o fields) {}

/-! ## Reports over a list -/

/-- The report of a stage over the leads of the list that need it. -/
def StageReport.over (leads : List ι) (needed succeeded : ι → Bool) : StageReport where
  completed := leads.countP fun a => needed a && succeeded a
  failed := leads.countP fun a => needed a && !succeeded a

section Reports
variable {leads : List ι} {needed needed' succeeded : ι → Bool}

omit [DecidableEq ι] in
theorem countP_split (leads : List ι) (p q : ι → Bool) :
    leads.countP p = (leads.countP fun a => p a && q a) + leads.countP fun a => p a && !q a := by
  induction leads with
  | nil => rfl
  | cons a leads ih =>
    simp only [List.countP_cons, ih]
    cases p a <;> cases q a <;> simp <;> omega

omit [DecidableEq ι] in
theorem over_total (leads : List ι) (needed succeeded : ι → Bool) :
    (StageReport.over leads needed succeeded).completed + (StageReport.over leads needed succeeded).failed =
      leads.countP needed := (countP_split leads needed succeeded).symm

omit [DecidableEq ι] in
theorem over_congr {succeeded' : ι → Bool} (hn : ∀ a ∈ leads, needed a = needed' a)
    (hs : ∀ a ∈ leads, succeeded a = succeeded' a) :
    StageReport.over leads needed succeeded = .over leads needed' succeeded' := by
  simp only [StageReport.over, StageReport.mk.injEq]
  constructor
  · exact List.countP_congr fun a ha => by rw [hn a ha, hs a ha]
  · exact List.countP_congr fun a ha => by rw [hn a ha, hs a ha]

omit [DecidableEq ι] in
/-- The batch stages' report, which subtracts. -/
theorem of_filter (leads : List ι) (needed succeeded : ι → Bool) :
    StageReport.of (leads.filter needed) succeeded = .over leads needed succeeded := by
  have hsplit := countP_split leads needed succeeded
  simp only [StageReport.of, StageReport.over, List.countP_filter, ← List.countP_eq_length_filter, StageReport.mk.injEq]
  have hcomm : (leads.countP fun a => succeeded a && needed a) = leads.countP fun a => needed a && succeeded a := by
    simp only [Bool.and_comm]
  omega

omit [DecidableEq ι] in
/-- Needing a lead more shows in the report, whether it succeeds or not. -/
theorem over_eq_iff (hsub : ∀ a, needed' a = true → needed a = true) :
    StageReport.over leads needed succeeded = .over leads needed' succeeded ↔ ∀ a ∈ leads, needed a = true → needed' a = true := by
  constructor
  · intro heq a ha hn
    have htotal : leads.countP needed = leads.countP needed' := by
      rw [← over_total leads needed succeeded, heq, over_total]
    have hsplit := countP_split leads needed needed'
    have hboth : (leads.countP fun a => needed a && needed' a) = leads.countP needed' := by
      refine congrArg (List.countP · leads) (funext fun b => ?_)
      cases hb : needed' b with
      | true => simp [hsub b hb]
      | false => simp
    have hnone : (leads.countP fun a => needed a && !needed' a) = 0 := by omega
    have hnot := List.countP_eq_zero.1 hnone a ha
    simpa [hn] using hnot
  · intro hall
    exact over_congr (fun a ha => Bool.eq_iff_iff.2 ⟨hall a ha, hsub a⟩) fun _ _ => rfl

end Reports

namespace Stream

section Steps
variable {c : PipelineConfig} {s s' : Stream ι} {i j : ℕ} {a : ι}

/-! ## What an action counts -/

theorem finishSocial_counts (s : Stream ι) (j : ℕ) (a : ι) (needed : Bool) :
    (s.finishSocial c j a needed).counts =
      countSelected (countDiscovered s.counts needed (s.fields a)) (selected c (s.fields a)) := by
  simp [finishSocial, selected, selectLead_eq, setSocial, mark, setFields]

theorem enrichEnd_counts {o : CallOutcome} (hw : s.enrichers[i]? = some (.enriching a .running))
    (h : s.step c (.enrichEnd i o) = some s') : s'.counts = countEnriched s.counts o.fields := by
  simp only [step, enrichEnd, hw, Option.some.injEq] at h
  subst h
  rfl

theorem socialSkip_counts {q : List (Message ι)} (hw : s.socials[j]? = some .getting) (hq : s.toSocial = .item a :: q)
    (hn : needsSocial (s.fields a) = false) (h : s.step c (.socialGet j) = some s') :
    s'.counts = countSelected (countDiscovered s.counts false (s.fields a)) (selected c (s.fields a)) := by
  have hf : (({ s with toSocial := q }.mark a .socialStart).fields a) = s.fields a := rfl
  simp only [step, socialGet, hw, hq, hf, hn, Bool.false_eq_true, false_and, if_false, Option.some.injEq] at h
  rw [← h, finishSocial_counts]
  rfl

theorem socialEnd_counts {o : CallOutcome} (hw : s.socials[j]? = some (.discovering a .running))
    (h : s.step c (.socialEnd j o) = some s') :
    s'.counts = countSelected (countDiscovered s.counts true o.fields) (selected c o.fields) := by
  simp only [step, socialEnd, hw, Option.some.injEq] at h
  rw [← h, finishSocial_counts]
  simp [setFields]

end Steps

/-! ## The counts are a tally of the marks -/

section Tally
variable {c : PipelineConfig} {o : Oracle ι} {leads : List ι} {fields : ι → BusinessLead} {s s' : Stream ι} {k : Conveyor ι}
  {e : StreamAction ι}

/-- The lead `a` is found at the station, so it has the fields of the station. -/
theorem fields_at (hr : Refines leads (leads.filter fun a => needsEnrichment (fields a)) s k)
    (hk : Conveyor.Computed c o (leads.filter fun a => needsEnrichment (fields a)) fields k) {a : ι} {x : Station}
    (hx : 0 < s.occurrences a x) :
    a ∈ leads ∧ s.fields a = Conveyor.fieldsAt c o (leads.filter fun a => needsEnrichment (fields a)) fields a x ∧
      Conveyor.InCall (leads.filter fun a => needsEnrichment (fields a)) a (s.fields a) x := by
  obtain ⟨ha, hs⟩ := hr.placed.found hx
  refine ⟨ha, ?_, ?_⟩
  · rw [hr.fields, hk.fields a, hs]
  · rw [hr.fields, ← hs]
    exact hk.inCall a

omit [DecidableEq ι] in
theorem needed_iff {a : ι} (ha : a ∈ leads) : a ∈ leads.filter (fun a => needsEnrichment (fields a)) ↔ needsEnrichment (fields a) := by
  simp [ha]

/-- The fields between the two bodies, for a lead of the list. -/
theorem fieldsAt_between {a : ι} (ha : a ∈ leads) {x : Station} (hx : x = .queuedSocial ∨ x = .discovering) :
    Conveyor.fieldsAt c o (leads.filter fun a => needsEnrichment (fields a)) fields a x = o.afterEnrichment fields a := by
  have hdec : decide (a ∈ leads.filter fun a => needsEnrichment (fields a)) = needsEnrichment (fields a) := by
    rw [Bool.eq_iff_iff, decide_eq_true_iff]
    exact needed_iff ha
  rcases hx with rfl | rfl <;> simp only [Conveyor.fieldsAt, hdec, Oracle.afterEnrichment]

omit [DecidableEq ι] in
theorem tally_append (log ms : List (ι × Mark)) :
    tally c o fields (log ++ ms) = ms.foldl (countMark c o fields) (tally c o fields log) := List.foldl_append

/-- One step keeps the counts a tally of the log. -/
theorem counted_step (hr : Refines leads (leads.filter fun a => needsEnrichment (fields a)) s k)
    (hk : Conveyor.Computed c o (leads.filter fun a => needsEnrichment (fields a)) fields k) (he : s.conforms o e)
    (hi : s.counts = tally c o fields s.log) (h : s.step c e = some s') : s'.counts = tally c o fields s'.log := by
  cases effect_of c h with
  | @enrichSkips i a q hw hq hn =>
    obtain ⟨ha, -, -⟩ := fields_at hr hk (a := a) (x := .queued) (by simp [occurrences, hq])
    -- Without a cancellation, only a lead that needs no enrichment is passed on.
    have hneed : needsEnrichment (fields a) = false := by
      rcases hn with hn | hn
      · rw [hr.needed, needed_iff ha] at hn
        exact eq_false_of_ne_true hn
      · rw [hr.cancelled, hk.uncancelled] at hn
        cases hn
    simp [setEnricher, mark, tally_append, countMark, hneed, hi]
  | @enrichEnds i a out counts hw =>
    obtain ⟨ha, hf, hin⟩ := fields_at hr hk (a := a) (x := .enriching) (countP_pos_of_slot hw (by simp))
    have hneed : needsEnrichment (fields a) = true := (needed_iff ha).1 hin
    have hout : out = o.enrichOne a (fields a) := by
      simp only [conforms, hw, decide_eq_true_eq] at he
      rw [he, hf]
      rfl
    have hcounts := enrichEnd_counts hw h
    simp only [setEnricher, mark, setFields] at hcounts ⊢
    simp [hcounts, tally_append, countMark, hneed, hi, Oracle.afterEnrichment, Oracle.enriched, hout]
  | @socialSkips j a q counts hw hq hn =>
    obtain ⟨ha, hf, -⟩ := fields_at hr hk (a := a) (x := .queuedSocial) (by simp [occurrences, hq])
    rw [fieldsAt_between ha (.inl rfl)] at hf
    have hneed : needsSocial (s.fields a) = false := by
      apply hn.resolve_right
      intro hn
      rw [hr.cancelled, hk.uncancelled] at hn
      cases hn
    have hcounts := socialSkip_counts hw hq hneed h
    rw [hf] at hneed
    simp only [setSocial, mark, setFields] at hcounts ⊢
    simp [hcounts, tally_append, countMark, hneed, hi, hf, Oracle.afterDiscovery, Oracle.discovered]
  | @socialEnds j a out counts hw =>
    obtain ⟨ha, hf, hin⟩ := fields_at hr hk (a := a) (x := .discovering) (countP_pos_of_slot hw (by simp))
    rw [fieldsAt_between ha (.inr rfl)] at hf
    have hneed : needsSocial (o.afterEnrichment fields a) = true := hf ▸ hin
    have hout : out = o.discoverSocialLinksOne a (o.afterEnrichment fields a) := by
      simp only [conforms, hw, decide_eq_true_eq] at he
      rw [he, hf]
    have hcounts := socialEnd_counts hw h
    simp only [setSocial, mark, setFields] at hcounts ⊢
    simp [hcounts, tally_append, countMark, hneed, hi, Oracle.afterDiscovery, Oracle.discovered, hout]
  | enrichBegins | socialBegins => simpa [setEnricher, setSocial, mark, tally_append, countMark] using hi
  | _ => exact hi

/-- After any run the counts are a tally of the log. -/
theorem counted_run (hd : leads.Nodup)
    (h : Reachable (Guarded (fun s e => s.conforms o e) (Fires (step c))) (start c leads fields) s) :
    s.counts = tally c o fields s.log := by
  refine h.inv_with
    (fun u => ∃ k, Refines leads (leads.filter fun a => needsEnrichment (fields a)) u k ∧
      Conveyor.Computed c o (leads.filter fun a => needsEnrichment (fields a)) fields k)
    (fun u => u.counts = tally c o fields u.log) ?_ rfl ?_
  · intro u hu
    obtain ⟨k, hk, hr⟩ := stream_refines hd (hu.mono fun _ _ _ hg => ⟨allows_of_conforms hg.1, hg.2⟩)
    exact ⟨k, hr, Conveyor.computed_reachable hk⟩
  · rintro u e u' ⟨k, hr, hk⟩ hi ⟨he, hs⟩
    exact counted_step hr hk he hi hs

/-- What the coordinator has reported stays the counts of the run. -/
theorem reported_run (h : Reachable (Fires (step c)) (start c leads fields) s) (hr : s.coordinator = .returned) :
    s.reports = some s.counts.reports := by
  refine h.inv_with (Drained c) (fun u => u.coordinator = .returned → u.reports = some u.counts.reports)
    (fun u hu => drained_reachable hu) nofun ?_ hr
  intro u e u' hd hi hs hret
  -- A worker that counts has not returned, so the coordinator has not either.
  cases effect_of c hs with
  | enrichEnds hw =>
    have hg := hd.gathering hw (by simp)
    exact absurd (hg.symm.trans hret) (by simp)
  | socialSkips hw => exact absurd hret (hd.not_finished hw (by simp))
  | socialEnds hw => exact absurd hret (hd.not_finished hw (by simp))
  | gathersEnrichment => exact absurd hret (putLoop_ne _).2
  | putsDone => exact absurd hret (putLoop_ne _).2
  | gathersSocial => rfl
  | _ => exact hi hret

/-! ## The tally over the leads -/

omit [DecidableEq ι] in
/-- A count that each mark raises by one or not is a count over the log. -/
theorem tally_field (f : Counts → ℕ) (p : ι × Mark → Bool) (h0 : f {} = 0)
    (hf : ∀ n x, f (countMark c o fields n x) = f n + if p x then 1 else 0) (log : List (ι × Mark)) :
    f (tally c o fields log) = log.countP p := by
  have fold : ∀ n, f (log.foldl (countMark c o fields) n) = f n + log.countP p := by
    induction log with
    | nil => intro n; rfl
    | cons x log ih =>
      intro n
      rw [List.foldl_cons, ih, hf, List.countP_cons]
      omega
  rw [tally, fold, h0, Nat.zero_add]

/-- Once every lead has passed the mark, a count over the marks is one over the leads. -/
theorem countP_marks {log : List (ι × Mark)} {m : Mark} (hall : ∀ a, log.count (a, m) = leads.count a) (p : ι → Bool) :
    (log.countP fun x => decide (x.2 = m) && p x.1) = leads.countP p := by
  have hperm : ((log.filter fun x => x.2 = m).map (·.1)).Perm leads := by
    rw [List.perm_iff_count]
    intro a
    rw [← hall a, List.count_eq_countP, List.countP_map, List.countP_filter, List.count_eq_countP]
    refine congrArg (List.countP · log) (funext fun x => ?_)
    rw [Bool.eq_iff_iff]
    simp [Prod.ext_iff]
  rw [← hperm.countP_eq, List.countP_map, List.countP_filter]
  refine congrArg (List.countP · log) (funext fun x => ?_)
  simp [Bool.and_comm]

/-- The report of the last stage, over the leads. -/
def selectionReport (c : PipelineConfig) (o : Oracle ι) (leads : List ι) (fields : ι → BusinessLead) : StageReport :=
  let before := leads.countP fun a => hasSocialUrl (o.afterDiscovery fields a)
  let after := leads.countP fun a => hasSocialUrl (selected c (o.afterDiscovery fields a))
  ⟨after, before - after⟩

omit [DecidableEq ι] in
/-- What a mark raises, count by count. -/
theorem countMark_eq (n : Counts) (a : ι) (m : Mark) :
    countMark c o fields n (a, m) =
      { enrichmentCompleted := n.enrichmentCompleted +
          if m = .enrichEnd ∧ (needsEnrichment (fields a) && (o.afterEnrichment fields a).website.isSome) then 1 else 0
        enrichmentFailed := n.enrichmentFailed +
          if m = .enrichEnd ∧ (needsEnrichment (fields a) && !(o.afterEnrichment fields a).website.isSome) then 1 else 0
        socialCompleted := n.socialCompleted +
          if m = .socialEnd ∧ (needsSocial (o.afterEnrichment fields a) && hasSocialUrl (o.afterDiscovery fields a)) then 1
          else 0
        socialFailed := n.socialFailed +
          if m = .socialEnd ∧ (needsSocial (o.afterEnrichment fields a) && !hasSocialUrl (o.afterDiscovery fields a)) then 1
          else 0
        selectionBefore := n.selectionBefore +
          if m = .socialEnd ∧ hasSocialUrl (o.afterDiscovery fields a) then 1 else 0
        selectionAfter := n.selectionAfter +
          if m = .socialEnd ∧ hasSocialUrl (selected c (o.afterDiscovery fields a)) then 1 else 0 } := by
  cases m <;> simp [countMark, countEnriched, countDiscovered, countSelected]
  · split_ifs <;> simp_all
  · split_ifs <;> simp_all

/-- What a tally over a delivered log reports. -/
theorem tally_reports {log : List (ι × Mark)} (hall : ∀ a m, log.count (a, m) = leads.count a) :
    (tally c o fields log).reports =
      ⟨.over leads (fun a => needsEnrichment (fields a)) fun a => (o.afterEnrichment fields a).website.isSome,
        .over leads (fun a => needsSocial (o.afterEnrichment fields a)) fun a => hasSocialUrl (o.afterDiscovery fields a),
        selectionReport c o leads fields⟩ := by
  -- Each of the six counts is raised at one mark, under one condition on the lead.
  have count : ∀ (m : Mark) (f : Counts → ℕ) (p : ι → Bool), f {} = 0 →
      (∀ n a m', f (countMark c o fields n (a, m')) = f n + if m' = m ∧ p a then 1 else 0) →
      f (tally c o fields log) = leads.countP p := fun m f p h0 hf =>
    (tally_field f _ h0 (fun n x => by simpa using hf n x.1 x.2) log).trans (countP_marks (fun a => hall a m) p)
  simp only [Counts.reports, StageReport.over, selectionReport, Reports.mk.injEq, StageReport.mk.injEq]
  have hbefore := count .socialEnd (·.selectionBefore) (fun a => hasSocialUrl (o.afterDiscovery fields a)) rfl
    fun n a m => by rw [countMark_eq]
  have hafter := count .socialEnd (·.selectionAfter) (fun a => hasSocialUrl (selected c (o.afterDiscovery fields a))) rfl
    fun n a m => by rw [countMark_eq]
  refine ⟨⟨?_, ?_⟩, ⟨?_, ?_⟩, hafter, by rw [hbefore, hafter]⟩
  · exact count .enrichEnd (·.enrichmentCompleted) _ rfl fun n a m => by rw [countMark_eq]
  · exact count .enrichEnd (·.enrichmentFailed) _ rfl fun n a m => by rw [countMark_eq]
  · exact count .socialEnd (·.socialCompleted) _ rfl fun n a m => by rw [countMark_eq]
  · exact count .socialEnd (·.socialFailed) _ rfl fun n a m => by rw [countMark_eq]

end Tally

/-! ## Both sides -/

section Agree
variable {c : PipelineConfig} {o : Oracle ι} {leads : List ι} {fields : ι → BusinessLead} {s : Stream ι}

/-- Whether `WebsiteEnrichmentStage` counts the lead: it tests for `None`. -/
def countedByStage (lead : BusinessLead) : Bool := lead.website.isNone && truthy lead.social.googleMapsUrl

theorem batch_reports (hd : leads.Nodup) {r : StageResult ι} {p : Reports} (h : BatchRun c o leads fields r p) :
    p = ⟨.over leads (fun a => countedByStage (fields a)) fun a => (o.afterEnrichment fields a).website.isSome,
      .over leads (fun a => needsSocial (o.afterEnrichment fields a)) fun a => hasSocialUrl (o.afterDiscovery fields a),
      selectionReport c o leads fields⟩ := by
  obtain ⟨h₁, h₂, h₃⟩ := h
  rename_i r₁ r₂
  obtain ⟨hl₁, hf₁⟩ := enrichment_fields hd h₁
  have he : ∀ a ∈ leads, r₁.fields a = o.afterEnrichment fields a := fun a ha => by rw [hf₁, if_pos ha]; rfl
  have hr₁ : r₁.report = .of (leads.filter fun a => countedByStage (fields a)) fun a => (r₁.fields a).website.isSome := by
    cases h₁
    rfl
  rw [hl₁] at h₂
  obtain ⟨hl₂, hf₂⟩ := social_fields hd h₂
  have hs : ∀ a ∈ leads, r₂.fields a = o.afterDiscovery fields a := fun a ha => by
    rw [hf₂, if_pos ha, he a ha]
    rfl
  have hr₂ : r₂.report = .of (leads.filter fun a => needsSocial (r₁.fields a)) fun a => hasSocialUrl (r₂.fields a) := by
    cases h₂
    rfl
  rw [hl₂] at h₃
  simp only [urlSelectionStage, selectAll_eq c hd, Option.map_some, Option.some.injEq] at h₃
  rw [← h₃, hr₁, hr₂, of_filter, of_filter]
  simp only [selectionReport, Reports.mk.injEq, StageReport.mk.injEq]
  have hbefore : (leads.countP fun a => hasSocialUrl (r₂.fields a)) =
      leads.countP fun a => hasSocialUrl (o.afterDiscovery fields a) :=
    List.countP_congr fun a ha => by rw [hs a ha]
  have hafter : (leads.countP fun a => hasSocialUrl (if a ∈ leads then selected c (r₂.fields a) else r₂.fields a)) =
      leads.countP fun a => hasSocialUrl (selected c (o.afterDiscovery fields a)) :=
    List.countP_congr fun a ha => by rw [if_pos ha, hs a ha]
  refine ⟨over_congr (fun _ _ => rfl) fun a ha => by rw [he a ha], ?_, hafter, by rw [hbefore, hafter]⟩
  exact over_congr (fun a ha => by rw [he a ha]) fun a ha => by rw [hs a ha]

theorem stream_reports (hd : leads.Nodup)
    (h : Reachable (Guarded (fun s e => s.conforms o e) (Fires (step c))) (start c leads fields) s)
    (hr : s.coordinator = .returned) :
    s.reports = some
      ⟨.over leads (fun a => needsEnrichment (fields a)) fun a => (o.afterEnrichment fields a).website.isSome,
        .over leads (fun a => needsSocial (o.afterEnrichment fields a)) fun a => hasSocialUrl (o.afterDiscovery fields a),
        selectionReport c o leads fields⟩ := by
  have hall := (tallied_reachable h.of_guarded).delivered (drained_reachable h.of_guarded) hr
  rw [reported_run h.of_guarded hr, counted_run hd h, tally_reports hall]

/-- The two tests for a missing website differ on the empty one. -/
theorem needs_more (lead : BusinessLead) :
    (needsEnrichment lead = true → countedByStage lead = true) ↔
      (lead.website = some [] → truthy lead.social.googleMapsUrl = false) := by
  rcases hw : lead.website with _ | _ | ⟨x, w⟩ <;> simp [needsEnrichment, countedByStage, hw, truthy]

end Agree

/-- Whatever the interleaving, the stream reports what the batch stages report if
and only if no lead has an empty website together with a Maps URL. -/
theorem reports_agree_iff (c : PipelineConfig) (o : Oracle ι) (leads : List ι) (hd : leads.Nodup)
    (fields : ι → BusinessLead) (s : Stream ι)
    (h : Reachable (Guarded (fun s e => s.conforms o e) (Fires (step c))) (start c leads fields) s)
    (hr : s.coordinator = .returned) :
    (∃ r p, BatchRun c o leads fields r p) ∧
      ∀ r p, BatchRun c o leads fields r p →
        (s.reports = some p ↔
          ∀ a ∈ leads, (fields a).website = some [] → truthy (fields a).social.googleMapsUrl = false) := by
  refine ⟨batch_completes c o hd fields, fun r p hb => ?_⟩
  have hsub : ∀ a, countedByStage (fields a) = true → needsEnrichment (fields a) = true := by
    intro a ha
    simp only [countedByStage, Bool.and_eq_true, Option.isNone_iff_eq_none] at ha
    rw [needsEnrichment, ha.1, ha.2]
    rfl
  rw [stream_reports hd h hr, batch_reports hd hb]
  simp only [Option.some.injEq, Reports.mk.injEq, and_true]
  rw [over_eq_iff hsub]
  exact forall₂_congr fun a _ => needs_more (fields a)

theorem reports_agree_crossed :
    ∃ s, exec (guarded (conforms instagramOracle) (step twoPipeline)) (start twoPipeline [7, 8] fun _ => mapsLead) crossedRun =
        some s ∧
      ∀ r p, BatchRun twoPipeline instagramOracle [7, 8] (fun _ => mapsLead) r p → s.reports = some p := by
  obtain ⟨s, hs, hr⟩ := exec_ends (f := guarded (conforms instagramOracle) (step twoPipeline))
    (Q := fun s : Stream ℕ => s.coordinator = .returned) (s := start twoPipeline [7, 8] fun _ => mapsLead) crossedRun
    (by decide +kernel)
  obtain ⟨-, hall⟩ := reports_agree_iff twoPipeline instagramOracle [7, 8] (by decide) (fun _ => mapsLead) s
    (reachable_guarded _ hs) hr
  exact ⟨s, hs, fun r p hb => (hall r p hb).2 (by decide)⟩

/-- A lead whose card had an empty website. -/
def emptyWebsiteLead : BusinessLead := { mapsLead with website := some [] }

/-- The stream counts the lead as enriched, although its enrichment raises; the stage does not count it. -/
theorem empty_website_counted :
    ¬ ∀ s, Reachable (Guarded (fun s e => s.conforms instagramOracle e) (Fires (step onePipeline)))
        (start onePipeline [7] fun _ => emptyWebsiteLead) s → s.coordinator = .returned →
      ∀ r p, BatchRun onePipeline instagramOracle [7] (fun _ => emptyWebsiteLead) r p → s.reports = some p := by
  obtain ⟨s, hs, hr, hreports⟩ := exec_ends (f := guarded (conforms instagramOracle) (step onePipeline))
    (Q := fun s : Stream ℕ => s.coordinator = .returned ∧ s.reports = some ⟨⟨1, 0⟩, ⟨1, 0⟩, ⟨1, 0⟩⟩)
    (s := start onePipeline [7] fun _ => emptyWebsiteLead)
    [.feed, .enrichGet 0, .enrichEnd 0 ⟨emptyWebsiteLead, true⟩, .feed, .enrichPut 0, .socialGet 0, .enrichGet 0,
      .enrichmentGathered, .putDone, .socialEnd 0
        ⟨{ emptyWebsiteLead with social := instagramLead.social }, false⟩, .socialGet 0, .socialGathered] (by decide +kernel)
  obtain ⟨r, p, hb⟩ := batch_completes onePipeline instagramOracle (List.nodup_singleton 7) fun _ => emptyWebsiteLead
  intro hall
  have heq := hall s (reachable_guarded _ hs) hr r p hb
  rw [hreports, batch_reports (by decide) hb] at heq
  exact absurd heq (by decide +kernel)

end Stream

end SocialScraper
