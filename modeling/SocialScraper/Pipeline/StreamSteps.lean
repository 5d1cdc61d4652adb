import SocialScraper.Pipeline.Stream
/-!
# What an action of the stream can do

`Effect` is everything an action does, guards included; later proofs split on
it and never unfold `step`.
-/
open Lib

namespace SocialScraper.Stream

variable {ι : Type} [DecidableEq ι] (c : PipelineConfig)

/-- The lead after the selection step. -/
def selected (lead : BusinessLead) : BusinessLead := (selectLead c.lib c.settings lead).getD lead

/-- Everything an action can do. -/
inductive Effect (s : Stream ι) : StreamAction ι → Stream ι → Prop
  | feeds {m rest} (hf : s.feeder = m :: rest) (hq : s.toEnrich.length < c.enrichCapacity) :
      Effect s .feed { s with feeder := rest, toEnrich := s.toEnrich ++ [m] }
  | enricherReturns {i q} (hw : s.enrichers[i]? = some .getting) (hq : s.toEnrich = .done :: q) :
      Effect s (.enrichGet i) ({ s with toEnrich := q }.setEnricher i .returned)
  | enrichBegins {i a q} (hw : s.enrichers[i]? = some .getting) (hq : s.toEnrich = .item a :: q)
      (hn : a ∈ s.enrichmentNeededIds) (hc : s.cancelEvent = false) :
      Effect s (.enrichGet i) (({ s with toEnrich := q }.mark a .enrichStart).setEnricher i (.enriching a .running))
  | enrichSkips {i a q} (hw : s.enrichers[i]? = some .getting) (hq : s.toEnrich = .item a :: q)
      (hn : a ∉ s.enrichmentNeededIds ∨ s.cancelEvent = true) :
      Effect s (.enrichGet i)
        ((({ s with toEnrich := q }.mark a .enrichStart).mark a .enrichEnd).setEnricher i (.putting a))
  | enrichUses {i a p u free p'} (hw : s.enrichers[i]? = some (.enriching a p))
      (hp : p.advance u s.freePages = some (free, p')) :
      Effect s (.enrichCall i u) ({ s with freePages := free }.setEnricher i (.enriching a p'))
  | enrichEnds {i a o counts} (hw : s.enrichers[i]? = some (.enriching a .running)) :
      Effect s (.enrichEnd i o)
        ((({ s with counts := counts }.setFields a o.fields).mark a .enrichEnd).setEnricher i (.putting a))
  | forwards {i a} (hw : s.enrichers[i]? = some (.putting a)) (hq : s.toSocial.length < c.socialCapacity) :
      Effect s (.enrichPut i) ({ s with toSocial := s.toSocial ++ [Message.item a] }.setEnricher i .getting)
  | socialReturns {j q} (hw : s.socials[j]? = some .getting) (hq : s.toSocial = .done :: q) :
      Effect s (.socialGet j) ({ s with toSocial := q }.setSocial j .returned)
  | socialBegins {j a q} (hw : s.socials[j]? = some .getting) (hq : s.toSocial = .item a :: q)
      (hn : needsSocial (s.fields a) = true) (hc : s.cancelEvent = false) :
      Effect s (.socialGet j) (({ s with toSocial := q }.mark a .socialStart).setSocial j (.discovering a .running))
  | socialSkips {j a q counts} (hw : s.socials[j]? = some .getting) (hq : s.toSocial = .item a :: q)
      (hn : needsSocial (s.fields a) = false ∨ s.cancelEvent = true) :
      Effect s (.socialGet j)
        (((({ s with toSocial := q, counts := counts }.mark a .socialStart).setFields a
          (selected c (s.fields a))).mark a .socialEnd).setSocial j .getting)
  | socialUses {j a p u free p'} (hw : s.socials[j]? = some (.discovering a p))
      (hp : p.advance u s.freePages = some (free, p')) :
      Effect s (.socialCall j u) ({ s with freePages := free }.setSocial j (.discovering a p'))
  | socialEnds {j a o counts} (hw : s.socials[j]? = some (.discovering a .running)) :
      Effect s (.socialEnd j o)
        ((({ s with counts := counts }.setFields a (selected c o.fields)).mark a .socialEnd).setSocial j .getting)
  | gathersEnrichment (hc : s.coordinator = .gatheringEnrichment) (hf : s.feeder = [])
      (hw : ∀ w ∈ s.enrichers, w = .returned) :
      Effect s .enrichmentGathered { s with coordinator := .putLoop c.socialWorkers }
  | putsDone {n} (hc : s.coordinator = .puttingDone n) (hq : s.toSocial.length < c.socialCapacity) :
      Effect s .putDone { s with toSocial := s.toSocial ++ [.done], coordinator := .putLoop n }
  | gathersSocial (hc : s.coordinator = .gatheringSocial) (hw : ∀ w ∈ s.socials, w = .returned) :
      Effect s .socialGathered { s with coordinator := .returned, reports := some s.counts.reports }
  | cancels : Effect s .requestCancellation { s with cancelEvent := true }

/-- The selection never raises, so the body of `social_worker` always gets to its end. -/
theorem finishSocial_eq (s : Stream ι) (j : ℕ) (a : ι) (needed : Bool) :
    ∃ counts, s.finishSocial c j a needed =
      (({ s with counts := counts }.setFields a (selected c (s.fields a))).mark a .socialEnd).setSocial j .getting := by
  obtain ⟨lead, hl⟩ := Option.isSome_iff_exists.1 (selectLead_isSome c.lib c.settings (s.fields a))
  exact ⟨_, by simp only [finishSocial, selected, hl, Option.getD_some]; rfl⟩

section Pieces
variable {c} {s s' : Stream ι}

theorem effect_feed (h : s.feed c = some s') : Effect c s .feed s' := by
  unfold feed at h
  cases hf : s.feeder with
  | nil => simp [hf] at h
  | cons m rest =>
    simp only [hf, Option.ite_none_right_eq_some] at h
    exact Option.some.inj h.2 ▸ .feeds hf h.1

theorem effect_enrichGet {i : ℕ} (h : s.enrichGet i = some s') : Effect c s (.enrichGet i) s' := by
  unfold enrichGet at h
  split at h
  · rename_i q hw hq
    exact Option.some.inj h ▸ .enricherReturns hw hq
  · rename_i a q hw hq
    obtain rfl := Option.some.inj h
    split_ifs with hn
    · exact .enrichBegins hw hq hn.1 hn.2
    · refine .enrichSkips hw hq ?_
      by_cases ha : a ∈ s.enrichmentNeededIds
      · exact .inr (eq_true_of_ne_false fun hc => hn ⟨ha, hc⟩)
      · exact .inl ha
  · cases h

theorem effect_enrichCall {i : ℕ} {u : CallStep} (h : s.enrichCall i u = some s') : Effect c s (.enrichCall i u) s' := by
  unfold enrichCall at h
  split at h
  · rename_i a p hw
    obtain ⟨⟨free, p'⟩, hp, rfl⟩ := Option.map_eq_some_iff.1 h
    exact .enrichUses hw hp
  · cases h

theorem effect_enrichEnd {i : ℕ} {o : CallOutcome} (h : s.enrichEnd i o = some s') : Effect c s (.enrichEnd i o) s' := by
  unfold enrichEnd at h
  split at h
  · rename_i a hw
    exact Option.some.inj h ▸ .enrichEnds hw
  · cases h

theorem effect_enrichPut {i : ℕ} (h : s.enrichPut c i = some s') : Effect c s (.enrichPut i) s' := by
  unfold enrichPut at h
  split at h
  · rename_i a hw
    obtain ⟨hq, h⟩ := Option.ite_none_right_eq_some.1 h
    exact Option.some.inj h ▸ .forwards hw hq
  · cases h

theorem effect_socialGet {j : ℕ} (h : s.socialGet c j = some s') : Effect c s (.socialGet j) s' := by
  unfold socialGet at h
  split at h
  · rename_i q hw hq
    exact Option.some.inj h ▸ .socialReturns hw hq
  · rename_i a q hw hq
    obtain rfl := Option.some.inj h
    split_ifs with hn
    · exact .socialBegins hw hq hn.1 hn.2
    · obtain ⟨counts, he⟩ := finishSocial_eq c ({ s with toSocial := q }.mark a .socialStart) j a (needsSocial (s.fields a))
      have hskip : needsSocial (s.fields a) = false ∨ s.cancelEvent = true := by
        by_cases ha : needsSocial (s.fields a) = true
        · exact .inr (eq_true_of_ne_false fun hc => hn ⟨ha, hc⟩)
        · exact .inl (by simpa using ha)
      exact he ▸ .socialSkips hw hq hskip
  · cases h

theorem effect_socialCall {j : ℕ} {u : CallStep} (h : s.socialCall j u = some s') : Effect c s (.socialCall j u) s' := by
  unfold socialCall at h
  split at h
  · rename_i a p hw
    obtain ⟨⟨free, p'⟩, hp, rfl⟩ := Option.map_eq_some_iff.1 h
    exact .socialUses hw hp
  · cases h

theorem effect_socialEnd {j : ℕ} {o : CallOutcome} (h : s.socialEnd c j o = some s') : Effect c s (.socialEnd j o) s' := by
  unfold socialEnd at h
  split at h
  · rename_i a hw
    obtain ⟨counts, he⟩ := finishSocial_eq c (s.setFields a o.fields) j a true
    have hsel : Effect c s (.socialEnd j o) ((s.setFields a o.fields).finishSocial c j a true) := by
      rw [he]
      simpa [setFields, Function.update_self, Function.update_idem] using
        @Effect.socialEnds ι _ c s j a o counts hw
    exact Option.some.inj h ▸ hsel
  · cases h

theorem effect_coordinator {e : StreamAction ι} (he : e = .enrichmentGathered ∨ e = .putDone ∨ e = .socialGathered)
    (h : s.step c e = some s') : Effect c s e s' := by
  rcases he with rfl | rfl | rfl
  · obtain ⟨⟨hc, hf, hw⟩, h⟩ := Option.ite_none_right_eq_some.1 h
    exact Option.some.inj h ▸ .gathersEnrichment hc hf hw
  · simp only [step, putDone] at h
    split at h
    · rename_i n hc
      obtain ⟨hq, h⟩ := Option.ite_none_right_eq_some.1 h
      exact Option.some.inj h ▸ .putsDone hc hq
    · cases h
  · obtain ⟨⟨hc, hw⟩, h⟩ := Option.ite_none_right_eq_some.1 h
    exact Option.some.inj h ▸ .gathersSocial hc hw

end Pieces

theorem effect_of {s s' : Stream ι} {e : StreamAction ι} (h : s.step c e = some s') : Effect c s e s' := by
  cases e with
  | feed => exact effect_feed h
  | enrichGet i => exact effect_enrichGet h
  | enrichCall i u => exact effect_enrichCall h
  | enrichEnd i o => exact effect_enrichEnd h
  | enrichPut i => exact effect_enrichPut h
  | socialGet j => exact effect_socialGet h
  | socialCall j u => exact effect_socialCall h
  | socialEnd j o => exact effect_socialEnd h
  | enrichmentGathered => exact effect_coordinator (by simp) h
  | putDone => exact effect_coordinator (by simp) h
  | socialGathered => exact effect_coordinator (by simp) h
  | requestCancellation => exact Option.some.inj h ▸ .cancels

end SocialScraper.Stream
