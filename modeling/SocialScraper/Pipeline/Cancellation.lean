import Mathlib.Data.List.Count
import SocialScraper.Pipeline.Deadlock
import SocialScraper.Pipeline.Refinement
import SocialScraper.Reselect
/-!
# Graceful cancellation

After `request_cancellation` the workers go on, but only forward and select:
`graceful_cancellation`. Leads may occur in the list more than once, so
delivery is a matter of counting here (`Tallied`).
-/
open Lib

namespace SocialScraper

variable {ι : Type} [DecidableEq ι]

/-- All stations. -/
def Station.all : List Station := [.waiting, .queued, .enriching, .putting, .queuedSocial, .discovering, .finished]

/-- The stations behind a mark. -/
def Station.behind (m : Mark) : List Station := Station.all.filter fun x => m ∈ x.passed

theorem Station.mem_all (x : Station) : x ∈ Station.all := by cases x <;> decide

theorem Station.mem_behind {x : Station} {m : Mark} : x ∈ Station.behind m ↔ m ∈ x.passed := by
  simp [behind, mem_all]

/-- A lead passes each mark at most once. -/
theorem Station.count_passed (x : Station) (m : Mark) : x.passed.count m = if m ∈ x.passed then 1 else 0 := by
  cases x <;> cases m <;> rfl

/-- What the source's calls write: `enrich_one` the website, `discover_social_links_one` the social fields. -/
def Behaviour.ownFields (ι : Type) : Behaviour ι where
  enriches _ l l' := ∃ website, l' = { l with website := website }
  discovers _ l l' := ∃ social, l' = { l with social := social }
  cancels := True

namespace Stream

/-! ## Every occurrence is somewhere -/

/-- Each occurrence of a lead in the list is at one station and has passed the marks before it. -/
structure Tallied (leads : List ι) (s : Stream ι) : Prop where
  all : ∀ a, total Station.all s.occurrences a = leads.count a
  marks : ∀ a m, s.log.count (a, m) = total (Station.behind m) s.occurrences a

section Tally
variable {c : PipelineConfig} {leads : List ι} {s s' : Stream ι}

theorem count_marks (log : List (ι × Mark)) (a b : ι) (ms : List Mark) (m : Mark) :
    (log ++ ms.map (a, ·)).count (b, m) = log.count (b, m) + if b = a then ms.count m else 0 := by
  rw [List.count_append]
  by_cases hb : b = a
  · subst hb
    rw [if_pos rfl, List.count_map_of_injective _ _ (Prod.mk_right_injective b)]
  · have hnot : (b, m) ∉ ms.map (a, ·) := by simp [Ne.symm hb]
    rw [if_neg hb, List.count_eq_zero_of_not_mem hnot]

theorem tallied_effect {e : StreamAction ι} (hi : Tallied leads s) (h : Effect c s e s') : Tallied leads s' := by
  rcases travels h with ⟨ho, hl⟩ | ⟨a, p, q, ms, hm, hq, hl⟩
  · exact ⟨fun a => ho ▸ hi.all a, fun a m => by rw [hl, ho, hi.marks]⟩
  · constructor
    · intro b
      have hall : Station.all.Nodup := by decide
      have hb := hm.total hall b
      simp only [Station.mem_all, and_true] at hb
      have := hi.all b
      omega
    · intro b m
      have hbehind : (Station.behind m).Nodup := List.Nodup.filter _ (by decide)
      have hb := hm.total hbehind b
      -- The marks between the two stations are those the lead has newly behind it.
      have hcount : (q.passed).count m = p.passed.count m + ms.count m := by rw [hq, List.count_append]
      rw [Station.count_passed, Station.count_passed] at hcount
      simp only [Station.mem_behind] at hb
      rw [hl, count_marks, hi.marks]
      by_cases hba : b = a
      · simp only [hba, true_and, if_true] at hb ⊢
        omega
      · simpa [hba] using hb.symm

theorem tallied_reachable {fields : ι → BusinessLead} (h : Reachable (Fires (step c)) (start c leads fields) s) :
    Tallied leads s := by
  refine h.inv (Tallied leads) ⟨fun a => ?_, fun a m => ?_⟩ fun _ _ _ hi hs => tallied_effect hi (effect_of c hs)
  · have hload := count_load leads c.enrichmentWorkers a
    simpa [total, Station.all, occurrences, start, List.countP_replicate] using hload
  · cases m <;> simp [total, Station.behind, Station.all, Station.passed, occurrences, start, List.countP_replicate]

/-- At the end, every occurrence has passed every mark. -/
theorem Tallied.delivered (hi : Tallied leads s) (hd : Drained c s) (hr : s.coordinator = .returned) (a : ι) (m : Mark) :
    s.log.count (a, m) = leads.count a := by
  have hzero := fun x hx => hd.nothing_left hr a (x := x) hx
  rw [hi.marks a m, ← hi.all a]
  cases m <;> simp [total, Station.behind, Station.all, Station.passed, hzero]

theorem Tallied.at_most (hi : Tallied leads s) (a : ι) (m : Mark) : s.log.count (a, m) ≤ leads.count a := by
  rw [hi.marks a m, ← hi.all a]
  cases m <;> simp [total, Station.behind, Station.all, Station.passed] <;> omega

end Tally

/-! ## After the cancellation -/

/-- A worker enters a call that it was not in before. -/
def BeginsCall (s s' : Stream ι) : Prop :=
  (∃ (i : ℕ) (a : ι) (p : CallPhase), s'.enrichers[i]? = some (.enriching a p) ∧ ∀ q, s.enrichers[i]? ≠ some (.enriching a q)) ∨
  (∃ (j : ℕ) (a : ι) (p : CallPhase), s'.socials[j]? = some (.discovering a p) ∧ ∀ q, s.socials[j]? ≠ some (.discovering a q))

section After
variable {c : PipelineConfig} {s s' : Stream ι} {e : StreamAction ι}

theorem cancelled_stays (hc : s.cancelEvent = true) (h : Effect c s e s') : s'.cancelEvent = true := by
  cases h <;> first | exact hc | rfl

theorem no_call_begins (hc : s.cancelEvent = true) (h : Effect c s e s') : ¬ BeginsCall s s' := by
  rintro (⟨i, a, p, hs, hn⟩ | ⟨j, a, p, hs, hn⟩)
  · cases h with
    | enrichBegins _ _ _ hf => simp [hf] at hc
    | enrichUses hw =>
      rcases slot_after hs with ⟨rfl, he⟩ | hs
      · cases he
        exact hn _ hw
      · exact hn p hs
    | enricherReturns | enrichSkips | enrichEnds | forwards =>
      rcases slot_after hs with ⟨rfl, he⟩ | hs
      · cases he
      · exact hn p hs
    | _ => exact hn p hs
  · cases h with
    | socialBegins _ _ _ hf => simp [hf] at hc
    | socialUses hw =>
      rcases slot_after hs with ⟨rfl, he⟩ | hs
      · cases he
        exact hn _ hw
      · exact hn p hs
    | socialReturns | socialSkips | socialEnds =>
      rcases slot_after hs with ⟨rfl, he⟩ | hs
      · cases he
      · exact hn p hs
    | _ => exact hn p hs

/-- The lead is in no call of `enrich_one`. -/
def NotEnriching (s : Stream ι) (a : ι) : Prop := ∀ (i : ℕ) (p : CallPhase), s.enrichers[i]? ≠ some (.enriching a p)

/-- The lead is in no call of `discover_social_links_one`. -/
def NotDiscovering (s : Stream ι) (a : ι) : Prop := ∀ (j : ℕ) (p : CallPhase), s.socials[j]? ≠ some (.discovering a p)

omit [DecidableEq ι] in
theorem not_enriching_stays {a : ι} (hn : NotEnriching s a) (hb : ¬ BeginsCall s s') : NotEnriching s' a :=
  fun i p hs => hb (.inl ⟨i, a, p, hs, fun q => hn i q⟩)

omit [DecidableEq ι] in
theorem not_discovering_stays {a : ι} (hn : NotDiscovering s a) (hb : ¬ BeginsCall s s') : NotDiscovering s' a :=
  fun j p hs => hb (.inr ⟨j, a, p, hs, fun q => hn j q⟩)

theorem selected_eq (c : PipelineConfig) (lead : BusinessLead) :
    selected c lead = { lead with social := reselect c.lib lead.social } := by
  rw [selected, selectLead_eq, Option.getD_some]

/-- Only a lead's own call of `enrich_one` writes its website. -/
theorem website_kept {a : ι} (hb : Allows (.ownFields ι) s e) (h : Effect c s e s') (hn : NotEnriching s a) :
    (s'.fields a).website = (s.fields a).website := by
  cases h with
  | @enrichEnds i b o counts hw =>
    have hne : a ≠ b := fun he => hn i _ (he ▸ hw)
    simp [setEnricher, mark, setFields, hne]
  | @socialSkips j b q counts hw hq hn =>
    by_cases hab : a = b
    · subst hab
      simp [setSocial, mark, setFields, selected_eq]
    · simp [setSocial, mark, setFields, hab]
  | @socialEnds j b o counts hw =>
    by_cases hab : a = b
    · subst hab
      obtain ⟨social, ho⟩ := hb _ _ hw
      simp [setSocial, mark, setFields, selected_eq, ho]
    · simp [setSocial, mark, setFields, hab]
  | _ => rfl

/-- Without a call of `discover_social_links_one`, a lead's social fields change by its selections only. -/
theorem social_kept {a : ι} (hb : Allows (.ownFields ι) s e) (h : Effect c s e s') (hn : NotDiscovering s a) :
    ∃ k, s'.log.count (a, .socialEnd) = s.log.count (a, .socialEnd) + k ∧
      (s'.fields a).social = (reselect c.lib)^[k] (s.fields a).social := by
  cases h with
  | @enrichEnds i b o counts hw =>
    refine ⟨0, by simp [setEnricher, mark, setFields], ?_⟩
    by_cases hab : a = b
    · subst hab
      obtain ⟨website, ho⟩ := hb _ _ hw
      simp [setEnricher, mark, setFields, ho]
    · simp [setEnricher, mark, setFields, hab]
  | @socialSkips j b q counts hw hq hn =>
    by_cases hab : a = b
    · subst hab
      exact ⟨1, by simp [setSocial, mark, setFields], by simp [setSocial, mark, setFields, selected_eq]⟩
    · exact ⟨0, by simp [setSocial, mark, setFields, Ne.symm hab], by simp [setSocial, mark, setFields, hab]⟩
  | @socialEnds j b o counts hw =>
    have hne : a ≠ b := fun he => hn j _ (he ▸ hw)
    exact ⟨0, by simp [setSocial, mark, setFields, Ne.symm hne], by simp [setSocial, mark, setFields, hne]⟩
  | enrichBegins | enrichSkips | socialBegins => exact ⟨0, by simp [setEnricher, setSocial, mark], rfl⟩
  | _ => exact ⟨0, rfl, rfl⟩

/-- What the run since the cancellation in `s` has left of the lead `a`. -/
structure KeptSince (c : PipelineConfig) (s : Stream ι) (a : ι) (t : Stream ι) : Prop where
  cancelled : t.cancelEvent = true
  website : NotEnriching s a → NotEnriching t a ∧ (t.fields a).website = (s.fields a).website
  social : NotDiscovering s a → NotDiscovering t a ∧
    ∃ k, t.log.count (a, .socialEnd) = s.log.count (a, .socialEnd) + k ∧
      (t.fields a).social = (reselect c.lib)^[k] (s.fields a).social

theorem keptSince_effect {a : ι} {t t' : Stream ι} (hk : KeptSince c s a t) (hb : Allows (.ownFields ι) t e)
    (h : Effect c t e t') : KeptSince c s a t' where
  cancelled := cancelled_stays hk.cancelled h
  website hn := by
    obtain ⟨hnt, hw⟩ := hk.website hn
    exact ⟨not_enriching_stays hnt (no_call_begins hk.cancelled h), (website_kept hb h hnt).trans hw⟩
  social hn := by
    obtain ⟨hnt, k, hcount, hs⟩ := hk.social hn
    obtain ⟨k', hcount', hs'⟩ := social_kept hb h hnt
    refine ⟨not_discovering_stays hnt (no_call_begins hk.cancelled h), k' + k, by omega, ?_⟩
    rw [hs', hs, Function.iterate_add_apply]

theorem keptSince_run {t : Stream ι}
    (h : Reachable (Guarded (Allows (.ownFields ι)) (Fires (step c))) { s with cancelEvent := true } t) (a : ι) :
    KeptSince c s a t := by
  refine h.inv (KeptSince c s a) ⟨rfl, fun hn => ⟨hn, rfl⟩, fun hn => ⟨hn, 0, rfl, rfl⟩⟩ ?_
  rintro t e t' hk ⟨hb, hs⟩
  exact keptSince_effect hk hb (effect_of c hs)

end After

/-- Graceful cancellation in any reachable state `s`, and any run from there to `t`:
no call begins; a lead not in a call keeps its website and, but for the selections
it passes, its social fields; and the run still ends, with every occurrence of a
lead through both bodies once. -/
theorem graceful_cancellation (c : PipelineConfig) (hp : 1 ≤ c.pages) (leads : List ι) (fields : ι → BusinessLead)
    (s t : Stream ι) (h : Reachable (Fires (step c)) (start c leads fields) s)
    (ht : Reachable (Guarded (Allows (.ownFields ι)) (Fires (step c))) { s with cancelEvent := true } t) :
    (∀ e t', t.step c e = some t' → ¬ BeginsCall t t') ∧
    (∀ a, NotEnriching s a → (t.fields a).website = (s.fields a).website) ∧
    (∀ a, NotDiscovering s a → ∃ k, t.log.count (a, .socialEnd) = s.log.count (a, .socialEnd) + k ∧
      (t.fields a).social = (reselect c.lib)^[k] (s.fields a).social) ∧
    (∀ a m, t.log.count (a, m) ≤ leads.count a) ∧
    (¬ Enabled c t → t.coordinator = .returned) ∧
    (t.coordinator = .returned → ∀ a m, t.log.count (a, m) = leads.count a) := by
  have hcancel : Fires (step c) s .requestCancellation { s with cancelEvent := true } := rfl
  have hall : Reachable (Fires (step c)) (start c leads fields) t := (h.step hcancel).trans ht.of_guarded
  have hd := drained_reachable hall
  have hi := tallied_reachable hall
  have hk := keptSince_run ht
  refine ⟨?_, fun a hn => ((hk a).website hn).2, fun a hn => ((hk a).social hn).2, hi.at_most, ?_, ?_⟩
  · -- The event is set in every later state, whoever the run is about.
    intro e t' hs hb
    have hset : t.cancelEvent = true := by
      refine ht.inv (fun u => u.cancelEvent = true) rfl ?_
      rintro u e u' hu ⟨-, hs⟩
      exact cancelled_stays hu (effect_of c hs)
    exact no_call_begins hset (effect_of c hs) hb
  · intro hn
    by_contra hr
    exact hn (enabled_of_waiting (pagesKept_reachable hall) hp hd hr)
  · intro hr a m
    exact hi.delivered hd hr a m

omit [DecidableEq ι] in
theorem allows_own {o : Oracle ι} (he : ∀ a l, ∃ website, (o.enrichOne a l).fields = { l with website := website })
    (hd : ∀ a l, ∃ social, (o.discoverSocialLinksOne a l).fields = { l with social := social }) {s : Stream ι}
    {e : StreamAction ι} (h : Allows (.ofOracle o) s e) : Allows (.ownFields ι) s e := by
  cases e with
  | enrichEnd i out =>
    intro a p hw
    obtain ⟨website, ho⟩ := he a (s.fields a)
    exact ⟨website, (h a p hw).trans ho⟩
  | socialEnd j out =>
    intro a p hw
    obtain ⟨social, ho⟩ := hd a (s.fields a)
    exact ⟨social, (h a p hw).trans ho⟩
  | _ => trivial

/-- The same lead twice; the run is cancelled while the first is being enriched. -/
def cancelledInCall : List (StreamAction ℕ) := [.feed, .enrichGet 0, .feed]

/-- The call ends, the second lead is only forwarded, and neither is discovered. -/
def afterCancellation : List (StreamAction ℕ) :=
  [.enrichEnd 0 ⟨mapsLead, true⟩, .enrichPut 0, .enrichGet 0, .feed, .socialGet 0, .enrichPut 0, .enrichGet 0, .socialGet 0,
    .enrichmentGathered, .putDone, .socialGet 0, .socialGathered]

theorem graceful_cancellation_twice :
    ∃ s t, exec (step onePipeline) (start onePipeline [7, 7] fun _ => mapsLead) cancelledInCall = some s ∧
      exec (guarded (conforms instagramOracle) (step onePipeline)) { s with cancelEvent := true } afterCancellation = some t ∧
      t.coordinator = .returned ∧ ∀ m, t.log.count (7, m) = 2 := by
  obtain ⟨s, hs, ht⟩ := exec_ends (f := step onePipeline)
    (Q := fun s : Stream ℕ => ((exec (guarded (conforms instagramOracle) (step onePipeline)) { s with cancelEvent := true }
      afterCancellation).any fun t => decide (t.coordinator = .returned)) = true)
    (s := start onePipeline [7, 7] fun _ => mapsLead) cancelledInCall (by decide +kernel)
  obtain ⟨t, ht, hr⟩ := exec_ends (Q := fun t : Stream ℕ => t.coordinator = .returned) afterCancellation ht
  have hown := (reachable_guarded _ ht).mono fun _ _ _ hg =>
    (⟨allows_own (fun _ l => ⟨l.website, rfl⟩) (fun _ _ => ⟨_, rfl⟩) (allows_of_conforms hg.1), hg.2⟩ :
      Guarded (Allows (.ownFields ℕ)) (Fires (step onePipeline)) _ _ _)
  obtain ⟨-, -, -, -, -, hall⟩ := graceful_cancellation onePipeline (by decide) [7, 7] (fun _ => mapsLead) s t
    (reachable_of_exec _ hs) hown
  exact ⟨s, t, hs, ht, hr, fun m => by simpa using hall hr 7 m⟩

end Stream

end SocialScraper
