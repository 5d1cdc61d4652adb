import SocialScraper.Lib.Overtaking
import SocialScraper.Pipeline.Deadlock
import SocialScraper.Pipeline.Delivery
/-!
# The order of the leads

The workers take the leads up in the order of the list, and both queues keep
theirs; what comes out of order was with another worker meanwhile. So a lead
overtakes no more than the other workers can hold (`few_overtaken`), and with
one worker of each kind none.
-/
open Lib

namespace SocialScraper.Stream

variable {ι : Type}

/-- The leads that have passed the mark, in order. -/
def passed (log : List (ι × Mark)) (m : Mark) : List ι := log.filterMap fun e => if e.2 = m then some e.1 else none

@[simp] theorem passed_nil (m : Mark) : passed ([] : List (ι × Mark)) m = [] := rfl
@[simp] theorem passed_append (p q : List (ι × Mark)) (m : Mark) : passed (p ++ q) m = passed p m ++ passed q m :=
  List.filterMap_append
@[simp] theorem passed_cons (a : ι) (x : Mark) (log : List (ι × Mark)) (m : Mark) :
    passed ((a, x) :: log) m = if x = m then a :: passed log m else passed log m := by
  by_cases h : x = m <;> simp [passed, h]

/-- The leads that were put to `to_social`, in order. -/
def forwarded (s : Stream ι) : List ι := passed s.log .socialStart ++ items s.toSocial

variable [DecidableEq ι]

/-- The order in which the leads come to `to_social`. -/
structure EnrichOrder (c : PipelineConfig) (leads : List ι) (s : Stream ι) : Prop where
  started : passed s.log .enrichStart ++ (items s.toEnrich ++ items s.feeder) = leads
  held : (passed s.log .enrichStart).Perm (s.forwarded ++ s.enrichers.filterMap (·.lead))
  overtaken : Overtaken (c.enrichmentWorkers - 1) leads s.forwarded

/-- The order in which they are finished, against that. -/
structure SocialOrder (c : PipelineConfig) (s : Stream ι) : Prop where
  held : (passed s.log .socialStart).Perm (passed s.log .socialEnd ++ s.socials.filterMap (·.lead))
  overtaken : Overtaken (c.socialWorkers - 1) s.forwarded (passed s.log .socialEnd)

variable {c : PipelineConfig} {leads : List ι} {s s' : Stream ι} {e : StreamAction ι}

omit [DecidableEq ι] in
theorem perm_last (l : List ι) (a : ι) (r : List ι) : (l ++ r ++ [a]).Perm (l ++ a :: r) := by
  rw [List.append_assoc]
  exact (List.perm_append_singleton a r).append_left l

namespace EnrichOrder

theorem same (hi : EnrichOrder c leads s) (hp : passed s'.log .enrichStart = passed s.log .enrichStart)
    (hq : items s'.toEnrich ++ items s'.feeder = items s.toEnrich ++ items s.feeder) (hf : s'.forwarded = s.forwarded)
    (hh : (s'.enrichers.filterMap (·.lead)).Perm (s.enrichers.filterMap (·.lead))) : EnrichOrder c leads s' where
  started := by
    rw [hp, hq]
    exact hi.started
  held := by
    rw [hp, hf]
    exact hi.held.trans (hh.symm.append_left _)
  overtaken := by
    rw [hf]
    exact hi.overtaken

theorem begun (hi : EnrichOrder c leads s) : passed s.log .enrichStart <+: leads := ⟨_, hi.started⟩

theorem nodup (hi : EnrichOrder c leads s) (hd : leads.Nodup) : s.forwarded.Nodup := by
  have hstarted := hd.sublist hi.begun.sublist
  exact (List.nodup_append.1 (hi.held.nodup_iff.1 hstarted)).1

/-- A worker takes a lead up. -/
theorem begins (hi : EnrichOrder c leads s) {i : ℕ} {a : ι} {w : EnrichmentWorker ι} {q : List (Message ι)}
    (hw : s.enrichers[i]? = some .getting) (hq : s.toEnrich = .item a :: q) (hl : w.lead = some a)
    (he : s'.enrichers = s.enrichers.set i w) (hp : passed s'.log .enrichStart = passed s.log .enrichStart ++ [a])
    (hto : s'.toEnrich = q) (hfeed : s'.feeder = s.feeder) (hf : s'.forwarded = s.forwarded) : EnrichOrder c leads s' := by
  obtain ⟨rest, -, hbefore, hafter⟩ := filterMap_slot (·.lead) hw
  have hheld := hi.held.trans (hbefore.append_left _)
  have hnow := hafter w
  rw [hl] at hnow
  constructor
  · have hstarted := hi.started
    rw [hq] at hstarted
    rw [hp, hto, hfeed, ← hstarted]
    simp
  · rw [hp, hf, he]
    refine List.Perm.trans ?_ (hnow.symm.append_left _)
    exact (hheld.append_right [a]).trans (perm_last _ a rest)
  · rw [hf]
    exact hi.overtaken

/-- A worker puts its lead to `to_social`; the others hold the leads that it overtakes. -/
theorem forwards (hi : EnrichOrder c leads s) (hn : leads.Nodup) (hd : Drained c s) {i : ℕ} {a : ι}
    (hw : s.enrichers[i]? = some (.putting a)) (he : s'.enrichers = s.enrichers.set i .getting) (hl : s'.log = s.log)
    (hto : s'.toEnrich = s.toEnrich) (hfeed : s'.feeder = s.feeder) (hf : s'.forwarded = s.forwarded ++ [a]) :
    EnrichOrder c leads s' := by
  obtain ⟨rest, hrest, hbefore, hafter⟩ := filterMap_slot (·.lead) hw
  have hperm : (passed s.log .enrichStart).Perm (s.forwarded ++ a :: rest) := hi.held.trans (hbefore.append_left _)
  constructor
  · rw [hl, hto, hfeed]
    exact hi.started
  · rw [hl, hf, he, List.append_assoc]
    exact hperm.trans (((hafter .getting).symm.append_left [a]).append_left _)
  · rw [hf]
    have hworkers := hd.enrichers
    exact hi.overtaken.leave hn hi.begun hperm (by omega)

end EnrichOrder

theorem enrichOrder_effect (hi : EnrichOrder c leads s) (hn : leads.Nodup) (hd : Drained c s) (h : Effect c s e s') :
    EnrichOrder c leads s' := by
  cases h with
  | @feeds m rest hf hq =>
    refine hi.same rfl ?_ rfl (.refl _)
    cases m <;> simp [hf]
  | @enricherReturns i q hw hq =>
    obtain ⟨rest, -, hbefore, hafter⟩ := filterMap_slot (·.lead) hw
    exact hi.same rfl (by simp [setEnricher, hq]) rfl ((hafter .returned).trans hbefore.symm)
  | @enrichUses i a p u free p' hw hp =>
    obtain ⟨rest, -, hbefore, hafter⟩ := filterMap_slot (·.lead) hw
    exact hi.same rfl rfl rfl ((hafter (.enriching a p')).trans hbefore.symm)
  | @enrichEnds i a o counts hw =>
    obtain ⟨rest, -, hbefore, hafter⟩ := filterMap_slot (·.lead) hw
    refine hi.same ?_ rfl ?_ ((hafter (.putting a)).trans hbefore.symm)
    · simp [setEnricher, mark, setFields]
    · simp [forwarded, setEnricher, mark, setFields]
  | @enrichBegins i a q hw hq hneeds hc =>
    refine hi.begins hw hq rfl rfl ?_ rfl rfl ?_
    · simp [setEnricher, mark]
    · simp [forwarded, setEnricher, mark]
  | @enrichSkips i a q hw hq hneeds =>
    refine hi.begins hw hq rfl rfl ?_ rfl rfl ?_
    · simp [setEnricher, mark]
    · simp [forwarded, setEnricher, mark]
  | @forwards i a hw hq =>
    refine hi.forwards hn hd hw rfl rfl rfl rfl ?_
    simp [forwarded, setEnricher]
  | socialReturns hw hq | socialBegins hw hq | socialSkips hw hq | socialEnds hw =>
    refine hi.same ?_ rfl ?_ (.refl _)
    · simp [setSocial, mark, setFields]
    · simp [forwarded, setSocial, mark, setFields, *]
  | socialUses | gathersEnrichment | gathersSocial | cancels => exact hi.same rfl rfl rfl (.refl _)
  | putsDone hc hq =>
    refine hi.same rfl rfl ?_ (.refl _)
    simp [forwarded]

namespace SocialOrder

theorem ended (hi : SocialOrder c s) : passed s.log .socialEnd ⊆ s.forwarded := by
  intro a ha
  exact List.mem_append_left _ (hi.held.symm.subset (List.mem_append_left _ ha))

theorem same (hi : SocialOrder c s) (hp : passed s'.log .socialStart = passed s.log .socialStart)
    (he : passed s'.log .socialEnd = passed s.log .socialEnd) (hf : s.forwarded <+: s'.forwarded)
    (hh : (s'.socials.filterMap (·.lead)).Perm (s.socials.filterMap (·.lead))) : SocialOrder c s' where
  held := by
    rw [hp, he]
    exact hi.held.trans (hh.symm.append_left _)
  overtaken := by
    obtain ⟨r, hr⟩ := hf
    rw [he, ← hr]
    exact hi.overtaken.grow hi.ended

/-- One of the leads that were taken up is finished; the other workers hold the leads that it overtakes. -/
theorem ends (hi : SocialOrder c s) (hn : s.forwarded.Nodup) (hd : Drained c s) {a : ι} {rest : List ι}
    (hrest : rest.length + 1 ≤ s.socials.length) (hh : (s'.socials.filterMap (·.lead)).Perm rest)
    (hp : (passed s'.log .socialStart).Perm (passed s.log .socialEnd ++ a :: rest))
    (he : passed s'.log .socialEnd = passed s.log .socialEnd ++ [a]) (hf : s'.forwarded = s.forwarded) : SocialOrder c s' := by
  constructor
  · rw [he, List.append_assoc]
    exact hp.trans ((hh.symm.append_left [a]).append_left _)
  · rw [he, hf]
    have hworkers := hd.socials
    refine hi.overtaken.leave hn ?_ hp (by omega)
    rw [← hf]
    exact List.prefix_append _ _

end SocialOrder

theorem socialOrder_effect (hi : SocialOrder c s) (hn : s.forwarded.Nodup) (hd : Drained c s) (h : Effect c s e s') :
    SocialOrder c s' := by
  cases h with
  | @socialReturns j q hw hq =>
    obtain ⟨rest, -, hbefore, hafter⟩ := filterMap_slot (·.lead) hw
    refine hi.same rfl rfl ?_ ((hafter .returned).trans hbefore.symm)
    simp [forwarded, setSocial, hq]
  | @socialBegins j a q hw hq =>
    obtain ⟨rest, -, hbefore, hafter⟩ := filterMap_slot (·.lead) hw
    have hheld := hi.held.trans (hbefore.append_left _)
    constructor
    · have hnow := (hafter (.discovering a .running)).symm.append_left (passed s.log .socialEnd)
      simp only [setSocial, mark, passed_append, passed_cons, passed_nil, reduceCtorEq, if_true, if_false, List.append_nil]
      exact ((hheld.append_right [a]).trans (perm_last _ a rest)).trans hnow
    · simpa [forwarded, setSocial, mark, hq] using hi.overtaken
  | @socialSkips j a q counts hw hq =>
    obtain ⟨rest, hrest, hbefore, hafter⟩ := filterMap_slot (·.lead) hw
    have hheld := hi.held.trans (hbefore.append_left _)
    refine hi.ends hn hd (a := a) hrest (hafter .getting) ?_ ?_ ?_
    · simp only [setSocial, mark, setFields, passed_append, passed_cons, passed_nil, reduceCtorEq, if_true, if_false,
        List.append_nil]
      exact (hheld.append_right [a]).trans (perm_last _ a rest)
    · simp [setSocial, mark, setFields]
    · simp [forwarded, setSocial, mark, setFields, hq]
  | @socialUses j a p u free p' hw hp =>
    obtain ⟨rest, -, hbefore, hafter⟩ := filterMap_slot (·.lead) hw
    exact hi.same rfl rfl (List.prefix_refl _) ((hafter (.discovering a p')).trans hbefore.symm)
  | @socialEnds j a o counts hw =>
    obtain ⟨rest, hrest, hbefore, hafter⟩ := filterMap_slot (·.lead) hw
    refine hi.ends hn hd (a := a) hrest (hafter .getting) ?_ ?_ ?_
    · simp only [setSocial, mark, setFields, passed_append, passed_cons, passed_nil, reduceCtorEq, if_false, List.append_nil]
      exact hi.held.trans (hbefore.append_left _)
    · simp [setSocial, mark, setFields]
    · simp [forwarded, setSocial, mark, setFields]
  | feeds | enricherReturns | enrichUses | gathersEnrichment | gathersSocial | cancels =>
    exact hi.same rfl rfl (List.prefix_refl _) (.refl _)
  | enrichBegins | enrichSkips | enrichEnds =>
    refine hi.same ?_ ?_ ?_ (.refl _)
    all_goals simp [forwarded, setEnricher, mark, setFields]
  | forwards hw hq | putsDone hc hq =>
    refine hi.same rfl rfl ?_ (.refl _)
    simp [forwarded, setEnricher]

/-! ## Runs -/

theorem orders_reachable (hn : leads.Nodup) {fields : ι → BusinessLead}
    (h : Reachable (Fires (step c)) (start c leads fields) s) : EnrichOrder c leads s ∧ SocialOrder c s := by
  refine h.inv_with (Drained c) (fun s => EnrichOrder c leads s ∧ SocialOrder c s) (fun _ hu => drained_reachable hu) ?_ ?_
  · refine ⟨⟨?_, ?_, .nil⟩, ⟨?_, .nil⟩⟩
    · exact items_load leads c.enrichmentWorkers
    · simp [start, forwarded, EnrichmentWorker.lead]
    · simp [start, SocialWorker.lead]
  · rintro s e s' hd ⟨hi, hj⟩ hs
    have heff := effect_of c hs
    exact ⟨enrichOrder_effect hi hn hd heff, socialOrder_effect hj (hi.nodup hn) hd heff⟩

/-- The leads are taken up in the order of the list. On the way to the social workers a lead overtakes at most as many as
there are other enrichment workers, and until it is finished at most as many more as there are other social workers. -/
theorem few_overtaken (c : PipelineConfig) (leads : List ι) (hn : leads.Nodup) (fields : ι → BusinessLead) (s : Stream ι)
    (h : Reachable (Fires (step c)) (start c leads fields) s) :
    passed s.log .enrichStart <+: leads ∧
    Overtaken (c.enrichmentWorkers - 1) leads (passed s.log .socialStart) ∧
    Overtaken (c.enrichmentWorkers - 1 + (c.socialWorkers - 1)) leads (passed s.log .socialEnd) := by
  obtain ⟨hi, hj⟩ := orders_reachable hn h
  refine ⟨hi.begun, hi.overtaken.of_prefix (List.prefix_append _ _), ?_⟩
  exact hi.overtaken.trans hj.overtaken hn (hi.nodup hn) hj.ended

/-- The second lead is finished while the first is still with the other enrichment worker. -/
def overtakes : List (StreamAction ℕ) :=
  [.feed, .feed, .enrichGet 0, .enrichGet 1, .enrichEnd 1 ⟨mapsLead, false⟩, .enrichPut 1, .socialGet 0,
    .socialEnd 0 ⟨mapsLead, false⟩]

theorem few_overtaken_one :
    ∃ s, exec (step onePagePipeline) (start onePagePipeline [7, 8] fun _ => mapsLead) overtakes = some s ∧
      passed s.log .socialEnd = [8] ∧ Overtaken 1 [7, 8] (passed s.log .socialEnd) := by
  obtain ⟨s, hs, hp⟩ := exec_ends (f := step onePagePipeline) (Q := fun s : Stream ℕ => passed s.log .socialEnd = [8])
    (s := start onePagePipeline [7, 8] fun _ => mapsLead) overtakes (by decide +kernel)
  exact ⟨s, hs, hp, (few_overtaken onePagePipeline [7, 8] (by decide) _ s (reachable_of_exec _ hs)).2.2⟩

end SocialScraper.Stream
