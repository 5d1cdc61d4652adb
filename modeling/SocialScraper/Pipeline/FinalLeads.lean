import SocialScraper.Pipeline.StageCounts
import SocialScraper.Social.Pairing
import SocialScraper.Validators
/-!
# What a run makes of a lead

With the calls of the source in the place of arbitrary ones, the stream only
fills a lead in: its name, its Maps URL and a website it came with stay, and a
confidence stands only beside a URL. A social URL behind the selection is a
normal form that is valid (`leads_only_filled`).
-/
open Lib

namespace SocialScraper

/-! ## The calls of the source -/

@[simp] theorem SocialLead.found_googleMapsUrl (s : SocialLead) (url : Str) (tier : Confidence) (p : Platform) :
    (s.found url tier p).googleMapsUrl = s.googleMapsUrl := by
  cases p <;> rfl

namespace DiscoverCall

variable {c : DiscoverConfig}

theorem websiteAsPlatform_maps (s : DiscoverCall) :
    (s.websiteAsPlatform c).lead.social.googleMapsUrl = s.lead.social.googleMapsUrl := by
  unfold websiteAsPlatform
  split
  · rfl
  · rfl
  · split
    · rfl
    · dsimp only
      split_ifs
      · split
        · rfl
        · exact SocialLead.found_googleMapsUrl _ _ _ _
      · rfl

theorem matchCandidate_maps (candidates : List LinkCandidate) (s : DiscoverCall) (p : Platform) :
    (s.matchCandidate c candidates p).lead.social.googleMapsUrl = s.lead.social.googleMapsUrl := by
  unfold matchCandidate
  split_ifs
  · split
    · rfl
    · exact SocialLead.found_googleMapsUrl _ _ _ _
  · rfl

theorem takeFallback_maps (results : Platform → FallbackResult) (s : DiscoverCall) (p : Platform) :
    (s.takeFallback results p).lead.social.googleMapsUrl = s.lead.social.googleMapsUrl := by
  unfold takeFallback
  split_ifs
  · split
    · rfl
    · rfl
    · rfl
    · exact SocialLead.found_googleMapsUrl _ _ _ _
  · rfl

theorem matchAll_maps (s : DiscoverCall) (candidates : List LinkCandidate) :
    (s.matchAll c candidates).lead.social.googleMapsUrl = s.lead.social.googleMapsUrl := by
  have hboth := (matchCandidate_maps (c := c) candidates (s.matchCandidate c candidates .instagram) .facebook).trans
    (matchCandidate_maps candidates s .instagram)
  unfold matchAll
  dsimp only
  split_ifs
  · exact hboth
  · rw [search_lead]
    exact hboth

theorem begin_maps (s : DiscoverCall) : (s.begin c).lead.social.googleMapsUrl = s.lead.social.googleMapsUrl := by
  have hwebsite := websiteAsPlatform_maps (c := c) { s with needs := fun p => (s.lead.social.slot p).1.isNone }
  unfold DiscoverCall.begin
  dsimp only
  split_ifs
  · exact hwebsite
  · exact (matchAll_maps _ []).trans hwebsite

theorem readHtml_maps (s : DiscoverCall) (html : Option Str) :
    (s.readHtml c html).lead.social.googleMapsUrl = s.lead.social.googleMapsUrl := by
  unfold readHtml
  split
  · exact matchAll_maps s []
  · exact matchAll_maps s []
  · split
    · rfl
    · exact matchAll_maps s _

theorem takeResults_maps (s : DiscoverCall) (results : Platform → FallbackResult) :
    (s.takeResults c results).lead.social.googleMapsUrl = s.lead.social.googleMapsUrl := by
  have hboth := (takeFallback_maps results (s.takeFallback results .instagram) .facebook).trans
    (takeFallback_maps results s .instagram)
  unfold takeResults finish
  dsimp only
  split_ifs
  · exact hboth
  · exact hboth
  · exact hboth

theorem reselect_maps (lib : Stdlib) (social : SocialLead) : (reselect lib social).googleMapsUrl = social.googleMapsUrl := by
  unfold reselect
  split_ifs <;> rfl

theorem step_maps {s s' : DiscoverCall} {a : DiscoverAction} (h : s.step c a = some s') :
    s'.lead.social.googleMapsUrl = s.lead.social.googleMapsUrl := by
  cases a with
  | recorded =>
    cases hp : s.phase <;> simp only [step, hp, reduceCtorEq, Option.some.injEq] at h <;> subst h
    · exact begin_maps s
    · exact readHtml_maps s _
    · rw [search_lead]
    · rfl
    · rfl
  | fetched html =>
    simp only [step] at h
    split_ifs at h
    all_goals obtain rfl := Option.some.inj h
    · rfl
    · exact readHtml_maps s html
  | found results =>
    simp only [step] at h
    split_ifs at h
    obtain rfl := Option.some.inj h
    exact takeResults_maps s results
  | raises =>
    simp only [step] at h
    split_ifs at h
    obtain rfl := Option.some.inj h
    rfl
  | cancel =>
    simp only [step] at h
    split_ifs at h
    obtain rfl := Option.some.inj h
    rfl
  | select =>
    simp only [step] at h
    split_ifs at h
    rw [selectLead_eq] at h
    obtain rfl := Option.some.inj h
    exact reselect_maps c.lib _

theorem maps_kept (c : DiscoverConfig) (lead : BusinessLead) {s : DiscoverCall} (h : Reachable (Fires (step c)) (start c lead) s) :
    s.lead.social.googleMapsUrl = lead.social.googleMapsUrl := by
  refine h.inv (fun s => s.lead.social.googleMapsUrl = lead.social.googleMapsUrl) ?_
    fun _ _ _ hi hs => (step_maps hs).trans hi
  unfold start
  split_ifs
  · rfl
  · exact begin_maps _

end DiscoverCall

/-- `enrich_one` without a cache: it leaves the lead alone, or stores what is left of the website it has read. -/
def Enriches (lib : Stdlib) (lead lead' : BusinessLead) : Prop :=
  lead' = lead ∨ ∃ raw website, validateAndNormalizeWebsite lib raw = .ok website ∧ lead' = { lead with website := website }

/-- The calls end as those of the source can, with a return or with an exception. -/
def Behaviour.ofSource (ι : Type) (lib : Stdlib) (d : DiscoverConfig) : Behaviour ι where
  enriches _ lead lead' := Enriches lib lead lead'
  discovers _ lead lead' := ∃ call, Reachable (Fires (DiscoverCall.step d)) (DiscoverCall.start d lead) call ∧
    (call.phase = .returned ∨ call.phase = .raised) ∧ lead' = call.lead
  cancels := True

/-! ## What is kept and what is found -/

/-- The lead is as it came, but for a missing website that was found and for its social URLs. -/
structure Filled (lib : Stdlib) (before now : BusinessLead) : Prop where
  businessName : now.businessName = before.businessName
  googleMapsUrl : now.social.googleMapsUrl = before.social.googleMapsUrl
  website : now.website = before.website ∨
    needsEnrichment before = true ∧ ∃ raw, validateAndNormalizeWebsite lib raw = .ok now.website
  paired : ∀ p, Paired (now.social.slot p)

/-- Each social URL of the lead is a normal form, and valid. -/
def Usable (lib : Stdlib) (lead : BusinessLead) : Prop :=
  ∀ p, truthy (lead.social.slot p).1 = true →
    ∃ u n, normalizeSocialUrl lib u = some n ∧ isValidUrl lib n = true ∧ (lead.social.slot p).1 = some n

section Selection
variable {lib : Stdlib}

theorem keptUrl_spec {url : Option Str} {n : Str} (h : keptUrl lib url = some n) :
    ∃ u, normalizeSocialUrl lib u = some n ∧ isValidUrl lib n = true := by
  unfold keptUrl at h
  split at h
  · cases h
  · cases h
  · rename_i u _
    obtain ⟨hn, hv⟩ := Option.filter_eq_some_iff.1 h
    exact ⟨u, hn, (Bool.and_eq_true_iff.1 hv).1⟩

theorem paired_reselect {social : SocialLead} {p : Platform} (h : Paired (social.slot p)) :
    Paired ((reselect lib social).slot p) := by
  rw [DiscoverCall.slot_reselect]
  split_ifs with hany hkept
  · intro _ hnone
    dsimp only at hnone
    rw [hnone] at hkept
    cases hkept
  · exact fun hn => absurd rfl hn
  · exact h

theorem usable_reselect (lib : Stdlib) (lead : BusinessLead) : Usable lib { lead with social := reselect lib lead.social } := by
  intro p hp
  rw [DiscoverCall.slot_reselect] at hp ⊢
  split_ifs at hp ⊢ with hany hkept
  · obtain ⟨n, hn⟩ := Option.isSome_iff_exists.1 hkept
    obtain ⟨u, hu, hv⟩ := keptUrl_spec hn
    exact ⟨u, n, hu, hv, hn⟩
  · rw [truthy_keptUrl] at hp
    exact absurd hp hkept
  · -- Without any URL the selection is skipped.
    exfalso
    apply hany
    cases p
    · exact Bool.or_eq_true_iff.2 (.inl hp)
    · exact Bool.or_eq_true_iff.2 (.inr hp)

theorem Filled.reselect {before now : BusinessLead} (h : Filled lib before now) :
    Filled lib before { now with social := reselect lib now.social } where
  businessName := h.businessName
  googleMapsUrl := (DiscoverCall.reselect_maps lib now.social).trans h.googleMapsUrl
  website := h.website
  paired p := paired_reselect (h.paired p)

theorem Filled.enriches {before now now' : BusinessLead} (h : Filled lib before now) (hn : needsEnrichment before = true)
    (he : Enriches lib now now') : Filled lib before now' := by
  rcases he with rfl | ⟨raw, website, hv, rfl⟩
  · exact h
  · exact ⟨h.businessName, h.googleMapsUrl, .inr ⟨hn, raw, hv⟩, h.paired⟩

theorem Filled.discovers {before now : BusinessLead} {d : DiscoverConfig} {call : DiscoverCall} (h : Filled lib before now)
    (hcall : Reachable (Fires (DiscoverCall.step d)) (DiscoverCall.start d now) call)
    (hend : call.phase = .returned ∨ call.phase = .raised) : Filled lib before call.lead := by
  obtain ⟨social, hsocial⟩ := DiscoverCall.discovers_own d () now hcall
  have hselected : call.phase ≠ .selected := by
    rcases hend with hp | hp
    · simp [hp]
    · simp [hp]
  constructor
  · rw [hsocial]
    exact h.businessName
  · rw [DiscoverCall.maps_kept d now hcall]
    exact h.googleMapsUrl
  · rw [hsocial]
    exact h.website
  · intro p
    exact ((DiscoverCall.inv_reachable d now hcall).slots hselected p).paired (h.paired p)

end Selection

/-! ## Runs -/

namespace Stream

variable {ι : Type} [DecidableEq ι] {c : PipelineConfig} {d : DiscoverConfig} {leads : List ι} {fields : ι → BusinessLead}

/-- Whoever is in a call of `enrich_one` needs it. -/
structure Called (leads : List ι) (fields : ι → BusinessLead) (s : Stream ι) : Prop where
  needed : s.enrichmentNeededIds = leads.filter fun b => needsEnrichment (fields b)
  inCall : ∀ (i : ℕ) (b : ι) (p : CallPhase), s.enrichers[i]? = some (.enriching b p) → b ∈ s.enrichmentNeededIds

variable {s s' : Stream ι} {a : ι} {e : StreamAction ι}

theorem called_effect (hc : Called leads fields s) (h : Effect c s e s') : Called leads fields s' := by
  have hneeded : s'.enrichmentNeededIds = s.enrichmentNeededIds := by
    cases h <;> rfl
  refine ⟨hneeded.trans hc.needed, fun k b p hk => ?_⟩
  rw [hneeded]
  cases h with
  | enrichBegins _ _ hn =>
    rcases slot_after hk with ⟨rfl, he⟩ | hk
    · cases he
      exact hn
    · exact hc.inCall k b p hk
  | enrichUses hw =>
    rcases slot_after hk with ⟨rfl, he⟩ | hk
    · cases he
      exact hc.inCall _ _ _ hw
    · exact hc.inCall k b p hk
  | enricherReturns | enrichSkips | enrichEnds | forwards =>
    rcases slot_after hk with ⟨rfl, he⟩ | hk
    · cases he
    · exact hc.inCall k b p hk
  | _ => exact hc.inCall k b p hk

theorem called_reachable (h : Reachable (Fires (step c)) (start c leads fields) s) : Called leads fields s := by
  refine h.inv (Called leads fields) ⟨rfl, fun i b p hw => ?_⟩ fun _ _ _ hc hs => called_effect hc (effect_of c hs)
  cases List.eq_of_mem_replicate (List.mem_of_getElem? hw)

omit [DecidableEq ι] in
theorem Called.needs (hc : Called leads fields s) {i : ℕ} {p : CallPhase} (hw : s.enrichers[i]? = some (.enriching a p)) :
    needsEnrichment (fields a) = true := by
  have hmem := hc.inCall i a p hw
  rw [hc.needed] at hmem
  exact (List.mem_filter.1 hmem).2

/-- What holds of the lead `a` throughout the run. -/
structure LeadInv (c : PipelineConfig) (fields : ι → BusinessLead) (a : ι) (s : Stream ι) : Prop where
  filled : Filled c.lib (fields a) (s.fields a)
  usable : (a, Mark.socialEnd) ∈ s.log → Usable c.lib (s.fields a)

theorem leadInv_effect (hc : Called leads fields s) (hi : LeadInv c fields a s) (hb : Allows (.ofSource ι c.lib d) s e)
    (h : Effect c s e s') : LeadInv c fields a s' := by
  cases h with
  | @enrichEnds i b o counts hw =>
    refine ⟨?_, ?_⟩
    · by_cases hab : a = b
      · subst hab
        simpa [setEnricher, mark, setFields] using hi.filled.enriches (hc.needs hw) (hb a _ hw)
      · simpa [setEnricher, mark, setFields, hab] using hi.filled
    · intro hlog
      have husable := hi.usable (by simpa [setEnricher, mark, setFields] using hlog)
      by_cases hab : a = b
      · subst hab
        -- The enrichment writes no social field.
        rcases hb a _ hw with ho | ⟨raw, website, -, ho⟩
        · simpa [setEnricher, mark, setFields, ho] using husable
        · simpa [setEnricher, mark, setFields, ho, Usable] using husable
      · simpa [setEnricher, mark, setFields, hab] using husable
  | @socialSkips j b q counts hw hq hn =>
    refine ⟨?_, ?_⟩
    · by_cases hab : a = b
      · subst hab
        simpa [setSocial, mark, setFields, selected_eq] using hi.filled.reselect
      · simpa [setSocial, mark, setFields, hab] using hi.filled
    · intro hlog
      by_cases hab : a = b
      · subst hab
        simpa [setSocial, mark, setFields, selected_eq] using usable_reselect c.lib (s.fields a)
      · have hlog : (a, Mark.socialEnd) ∈ s.log := by simpa [setSocial, mark, setFields, hab] using hlog
        simpa [setSocial, mark, setFields, hab] using hi.usable hlog
  | @socialEnds j b o counts hw =>
    refine ⟨?_, ?_⟩
    · by_cases hab : a = b
      · subst hab
        obtain ⟨call, hcall, hend, ho⟩ := hb a _ hw
        simpa [setSocial, mark, setFields, selected_eq, ho] using (hi.filled.discovers hcall hend).reselect
      · simpa [setSocial, mark, setFields, hab] using hi.filled
    · intro hlog
      by_cases hab : a = b
      · subst hab
        simpa [setSocial, mark, setFields, selected_eq] using usable_reselect c.lib o.fields
      · have hlog : (a, Mark.socialEnd) ∈ s.log := by simpa [setSocial, mark, setFields, hab] using hlog
        simpa [setSocial, mark, setFields, hab] using hi.usable hlog
  | enrichBegins | enrichSkips | socialBegins =>
    refine ⟨hi.filled, fun hlog => hi.usable ?_⟩
    simpa [setEnricher, setSocial, mark] using hlog
  | _ => exact ⟨hi.filled, hi.usable⟩

theorem leadInv_reachable (hp : ∀ p, Paired ((fields a).social.slot p))
    (h : Reachable (Guarded (Allows (.ofSource ι c.lib d)) (Fires (step c))) (start c leads fields) s) :
    LeadInv c fields a s := by
  refine h.inv_with (Called leads fields) (LeadInv c fields a) (fun _ hu => called_reachable hu.of_guarded)
    ⟨⟨rfl, rfl, .inl rfl, hp⟩, fun hlog => absurd hlog List.not_mem_nil⟩ ?_
  rintro t e t' hc hi ⟨hb, hs⟩
  exact leadInv_effect hc hi hb (effect_of c hs)

/-- Every lead of the list is behind its selection at the end. -/
theorem usable_returned (hp : ∀ p, Paired ((fields a).social.slot p))
    (h : Reachable (Guarded (Allows (.ofSource ι c.lib d)) (Fires (step c))) (start c leads fields) s)
    (hr : s.coordinator = .returned) (ha : a ∈ leads) : Usable c.lib (s.fields a) := by
  have hcount := (tallied_reachable h.of_guarded).delivered (drained_reachable h.of_guarded) hr a .socialEnd
  apply (leadInv_reachable hp h).usable
  apply List.count_pos_iff.1
  rw [hcount]
  exact List.count_pos_iff.2 ha

/-- Whatever the interleaving, the calls and a cancellation: a lead is only filled in, its URLs and their confidences
stay paired, and behind its selection, so at the end for every lead of the list, its social URLs are valid normal forms. -/
theorem leads_only_filled (c : PipelineConfig) (d : DiscoverConfig) (leads : List ι) (fields : ι → BusinessLead) (s : Stream ι)
    (h : Reachable (Guarded (Allows (.ofSource ι c.lib d)) (Fires (step c))) (start c leads fields) s) (a : ι)
    (hp : ∀ p, Paired ((fields a).social.slot p)) :
    Filled c.lib (fields a) (s.fields a) ∧
    ((a, Mark.socialEnd) ∈ s.log → Usable c.lib (s.fields a)) ∧
    (s.coordinator = .returned → a ∈ leads → Usable c.lib (s.fields a)) := by
  have hi := leadInv_reachable hp h
  exact ⟨hi.filled, hi.usable, usable_returned hp h⟩

/-- The search for a lead with a Maps URL only, and what it leaves. -/
def plainDiscovery : DiscoverConfig := ⟨.plain, .defaults, false, fun _ => none⟩

def foundCafe (p : Platform) : FallbackResult :=
  if p = .instagram then some (some "https://instagram.com/cafe/".toList, true) else none

def searchedLead : BusinessLead :=
  { mapsLead with social := mapsLead.social.found "https://instagram.com/cafe/".toList .medium .instagram }

def searchedRun : List (StreamAction ℕ) :=
  [.feed, .enrichGet 0, .feed, .enrichEnd 0 ⟨mapsLead, true⟩, .enrichPut 0, .socialGet 0, .enrichGet 0,
    .enrichmentGathered, .putDone, .socialEnd 0 ⟨searchedLead, false⟩, .socialGet 0, .socialGathered]

/-- The enrichment raises, the discovery of a lead as it came finds the link. -/
def asSearched (s : Stream ℕ) : StreamAction ℕ → Bool
  | .enrichEnd i o =>
    match s.enrichers[i]? with
    | some (.enriching a _) => o.fields = s.fields a
    | _ => true
  | .socialEnd j o =>
    match s.socials[j]? with
    | some (.discovering a _) => s.fields a = mapsLead && o.fields = searchedLead
    | _ => true
  | _ => true

theorem allows_searched {s : Stream ℕ} {e : StreamAction ℕ} (h : asSearched s e) :
    Allows (.ofSource ℕ .plain plainDiscovery) s e := by
  cases e with
  | enrichEnd i o =>
    intro a p hw
    simp only [asSearched, hw, decide_eq_true_eq] at h
    exact .inl h
  | socialEnd j o =>
    intro a p hw
    simp only [asSearched, hw, Bool.and_eq_true, decide_eq_true_eq] at h
    obtain ⟨call, hcall, hend, hlead⟩ := exec_ends (f := DiscoverCall.step plainDiscovery)
      (Q := fun call => call.phase = .returned ∧ call.lead = searchedLead) (s := DiscoverCall.start plainDiscovery mapsLead)
      [.found foundCafe] (by decide +kernel)
    exact ⟨call, by rw [h.1]; exact reachable_of_exec _ hcall, .inl hend, by rw [hlead]; exact h.2⟩
  | requestCancellation => trivial
  | _ => trivial

theorem leads_only_filled_searched :
    ∃ s, exec (guarded asSearched (step onePipeline)) (start onePipeline [7] fun _ => mapsLead)
        searchedRun = some s ∧
      Filled .plain mapsLead (s.fields 7) ∧ Usable .plain (s.fields 7) := by
  obtain ⟨s, hs, hr⟩ := exec_ends (f := guarded asSearched (step onePipeline)) (Q := fun s : Stream ℕ => s.coordinator = .returned)
    (s := start onePipeline [7] fun _ => mapsLead) searchedRun (by decide +kernel)
  have hrun := (reachable_guarded _ hs).mono fun _ _ _ hg =>
    (⟨allows_searched hg.1, hg.2⟩ : Guarded (Allows (.ofSource ℕ .plain plainDiscovery)) (Fires (step onePipeline)) _ _ _)
  have hpaired : ∀ p, Paired (mapsLead.social.slot p) := by
    intro p
    cases p
    · exact fun h => absurd rfl h
    · exact fun h => absurd rfl h
  obtain ⟨hfilled, -, hall⟩ := leads_only_filled onePipeline plainDiscovery [7] (fun _ => mapsLead) s hrun 7 hpaired
  exact ⟨s, hs, hfilled, hall hr (List.mem_singleton_self 7)⟩

end Stream

end SocialScraper
