import SocialScraper.Pipeline.QueueDone
import SocialScraper.Pipeline.StreamRefines
/-!
# Streaming delivery

Whatever the interleaving and the outcome of each call: a lead is in exactly
one place, its social step comes after its enrichment step, no worker stops
before its queue is empty of leads, and at the end every lead has been through
both bodies once (`streaming_delivery`).
-/
open Lib

namespace SocialScraper

variable {ι : Type} [DecidableEq ι]

/-- Where a lead can be: at a position of the feeder's list or of a queue, with a worker, or finished. -/
inductive Place where
  | notFed (k : ℕ)
  | toEnrich (k : ℕ)
  | enricher (i : ℕ)
  | toSocial (k : ℕ)
  | social (j : ℕ)
  | finished
deriving DecidableEq

/-- The places of a station. -/
def Station.place (n : ℕ) : Station → Place
  | .waiting => .notFed n
  | .queued => .toEnrich n
  | .enriching | .putting => .enricher n
  | .queuedSocial => .toSocial n
  | .discovering => .social n
  | .finished => .finished

def EnrichmentWorker.lead : EnrichmentWorker ι → Option ι
  | .enriching a _ | .putting a => some a
  | .getting | .returned => none

def SocialWorker.lead : SocialWorker ι → Option ι
  | .discovering a _ => some a
  | .getting | .returned => none

theorem EnrichmentWorker.lead_eq {w : EnrichmentWorker ι} {a : ι} :
    w.lead = some a ↔ w.enriches a ∨ w.puts a := by
  cases w <;> simp [lead]

theorem SocialWorker.lead_eq {w : SocialWorker ι} {a : ι} : w.lead = some a ↔ w.discovers a := by
  cases w <;> simp [lead]

namespace Stream

/-- The lead `a` is at the place. -/
def At (s : Stream ι) (a : ι) : Place → Prop
  | .notFed k => s.feeder[k]? = some (.item a)
  | .toEnrich k => s.toEnrich[k]? = some (.item a)
  | .enricher i => ∃ w, s.enrichers[i]? = some w ∧ w.lead = some a
  | .toSocial k => s.toSocial[k]? = some (.item a)
  | .social j => ∃ w, s.socials[j]? = some w ∧ w.lead = some a
  | .finished => (a, .socialEnd) ∈ s.log

/-- The marks the lead has passed, in order. -/
def marks (s : Stream ι) (a : ι) : List Mark := Conveyor.marksOf s.log a

section Places
variable {ls : List ι} {station : ι → Station} {s : Stream ι} {a : ι}

theorem place_of_at (h : Placed ls station s.occurrences) {p : Place} (hp : s.At a p) : ∃ n, p = (station a).place n := by
  have found : ∀ x, 0 < s.occurrences a x → station a = x := fun x hx => (h.found hx).2
  cases p with
  | notFed k => exact ⟨k, by rw [found .waiting (List.count_pos_iff.2 (List.mem_of_getElem? hp))]; rfl⟩
  | toEnrich k => exact ⟨k, by rw [found .queued (List.count_pos_iff.2 (List.mem_of_getElem? hp))]; rfl⟩
  | enricher i =>
    obtain ⟨w, hw, hl⟩ := hp
    rcases EnrichmentWorker.lead_eq.1 hl with he | hp
    · exact ⟨i, by rw [found .enriching (countP_pos_of_slot hw he)]; rfl⟩
    · exact ⟨i, by rw [found .putting (countP_pos_of_slot hw hp)]; rfl⟩
  | toSocial k => exact ⟨k, by rw [found .queuedSocial (List.count_pos_iff.2 (List.mem_of_getElem? hp))]; rfl⟩
  | social j =>
    obtain ⟨w, hw, hl⟩ := hp
    exact ⟨j, by rw [found .discovering (countP_pos_of_slot hw (SocialWorker.lead_eq.1 hl))]; rfl⟩
  | finished => exact ⟨0, by rw [found .finished (List.count_pos_iff.2 hp)]; rfl⟩

theorem at_some_place (h : Placed ls station s.occurrences) (ha : a ∈ ls) : ∃ n, s.At a ((station a).place n) := by
  have hpos : 0 < s.occurrences a (station a) := by simp [h a (station a), ha]
  cases hs : station a <;> rw [hs] at hpos
  case waiting | queued | queuedSocial => exact List.mem_iff_getElem?.1 (List.count_pos_iff.1 hpos)
  case enriching =>
    obtain ⟨w, hw, he⟩ := List.countP_pos_iff.1 hpos
    obtain ⟨i, hi⟩ := List.mem_iff_getElem?.1 hw
    exact ⟨i, w, hi, EnrichmentWorker.lead_eq.2 (.inl he)⟩
  case putting =>
    obtain ⟨w, hw, hp⟩ := List.countP_pos_iff.1 hpos
    obtain ⟨i, hi⟩ := List.mem_iff_getElem?.1 hw
    exact ⟨i, w, hi, EnrichmentWorker.lead_eq.2 (.inr hp)⟩
  case discovering =>
    obtain ⟨w, hw, hd⟩ := List.countP_pos_iff.1 hpos
    obtain ⟨j, hj⟩ := List.mem_iff_getElem?.1 hw
    exact ⟨j, w, hj, SocialWorker.lead_eq.2 hd⟩
  case finished => exact ⟨0, List.count_pos_iff.1 hpos⟩

/-- An enrichment worker that holds the lead does so as its station says. -/
theorem holds_of_lead (h : Placed ls station s.occurrences) {i : ℕ} {w : EnrichmentWorker ι} (hw : s.enrichers[i]? = some w)
    (hl : w.lead = some a) : (station a = .enriching ∧ w.enriches a) ∨ (station a = .putting ∧ w.puts a) := by
  rcases EnrichmentWorker.lead_eq.1 hl with he | hp
  · exact .inl ⟨(h.found (a := a) (p := Station.enriching) (countP_pos_of_slot hw he)).2, he⟩
  · exact .inr ⟨(h.found (a := a) (p := Station.putting) (countP_pos_of_slot hw hp)).2, hp⟩

theorem at_same_place (h : Placed ls station s.occurrences) {n m : ℕ} (hn : s.At a ((station a).place n))
    (hm : s.At a ((station a).place m)) : (station a).place n = (station a).place m := by
  have hone := h.le_one a (station a)
  cases hs : station a <;> rw [hs] at hn hm hone
  case waiting | queued | queuedSocial =>
    simp only [Station.place, Place.notFed.injEq, Place.toEnrich.injEq, Place.toSocial.injEq]
    exact slot_unique hone hn (by simp) hm (by simp)
  case enriching =>
    obtain ⟨w, hw, hl⟩ := hn
    obtain ⟨v, hv, hl'⟩ := hm
    have he : w.enriches a := by simpa [hs] using holds_of_lead h hw hl
    have he' : v.enriches a := by simpa [hs] using holds_of_lead h hv hl'
    exact congrArg Place.enricher (slot_unique hone hw he hv he')
  case putting =>
    obtain ⟨w, hw, hl⟩ := hn
    obtain ⟨v, hv, hl'⟩ := hm
    have hp : w.puts a := by simpa [hs] using holds_of_lead h hw hl
    have hp' : v.puts a := by simpa [hs] using holds_of_lead h hv hl'
    exact congrArg Place.enricher (slot_unique hone hw hp hv hp')
  case discovering =>
    obtain ⟨w, hw, hl⟩ := hn
    obtain ⟨v, hv, hl'⟩ := hm
    exact congrArg Place.social (slot_unique hone hw (SocialWorker.lead_eq.1 hl) hv (SocialWorker.lead_eq.1 hl'))
  case finished => rfl

theorem exactly_one_place (h : Placed ls station s.occurrences) (ha : a ∈ ls) : ∃! p, s.At a p := by
  obtain ⟨n, hn⟩ := at_some_place h ha
  refine ⟨_, hn, fun p hp => ?_⟩
  obtain ⟨m, rfl⟩ := place_of_at h hp
  exact at_same_place h hp hn

end Places

section Delivery
variable {c : PipelineConfig} {leads : List ι} {fields : ι → BusinessLead} {s : Stream ι}

/-- The conveyor behind a run without restrictions. -/
theorem placed_reachable (hd : leads.Nodup) (h : Reachable (Fires (step c)) (start c leads fields) s) :
    ∃ station, Placed leads station s.occurrences ∧ ∀ a, s.marks a = (station a).passed := by
  have hany : Reachable (Guarded (Allows (.any ι)) (Fires (step c))) (start c leads fields) s :=
    h.mono fun _ e _ hr => ⟨by cases e <;> simp [Allows, Behaviour.any], hr⟩
  obtain ⟨k, hk, hr⟩ := stream_refines hd hany
  exact ⟨k.station, hr.placed, fun a => by rw [marks, hr.log]; exact Conveyor.passed_reachable hk a⟩

/-- Once the coordinator has returned, nothing is found before the last station. -/
theorem Drained.nothing_left (hi : Drained c s) (hr : s.coordinator = .returned) (a : ι) {x : Station} (hx : x ≠ .finished) :
    s.occurrences a x = 0 := by
  obtain ⟨hfeed, hwork⟩ := hi.gathered (by simp [hr])
  have hsoc := hi.finished hr
  have hE : s.enrichersReturned = c.enrichmentWorkers := by
    rw [← hi.enrichers]
    exact List.countP_eq_length.2 fun w hw => EnrichmentWorker.isReturned_iff.2 (hwork w hw)
  have hS : s.socialsReturned = c.socialWorkers := by
    rw [← hi.socials]
    exact List.countP_eq_length.2 fun w hw => SocialWorker.isReturned_iff.2 (hsoc w hw)
  have hq1 : s.toEnrich ++ s.feeder = [] := (hE ▸ hi.enrich).all_returned c.enrichmentWorkers_pos
  have hq2 : s.socialPending c = [] := (hS ▸ hi.social).all_returned c.socialWorkers_pos
  cases x with
  | waiting => simp [occurrences, hfeed]
  | queued => simp [occurrences, (List.append_eq_nil_iff.1 hq1).1]
  | enriching | putting =>
    apply List.countP_eq_zero.2
    intro w hw
    simp [hwork w hw]
  | queuedSocial => simp [occurrences, (List.append_eq_nil_iff.1 hq2).1]
  | discovering =>
    apply List.countP_eq_zero.2
    intro w hw
    simp [hsoc w hw]
  | finished => exact absurd rfl hx

theorem Drained.all_finished (hi : Drained c s) (hr : s.coordinator = .returned) {station : ι → Station}
    (hp : Placed leads station s.occurrences) {a : ι} (ha : a ∈ leads) : station a = .finished := by
  by_contra hs
  have hpos : 0 < s.occurrences a (station a) := by simp [hp a (station a), ha]
  rw [hi.nothing_left hr a hs] at hpos
  omega

/-- Streaming delivery: each lead is in exactly one place and passes its marks
in order, no worker takes a marker while its queue holds a lead, and once the
coordinator has returned each lead has been through both bodies exactly once. -/
theorem streaming_delivery (c : PipelineConfig) (leads : List ι) (hd : leads.Nodup) (fields : ι → BusinessLead)
    (s : Stream ι) (h : Reachable (Fires (step c)) (start c leads fields) s) :
    (∀ a ∈ leads, ∃! p, s.At a p) ∧
    (∀ a ∈ leads, s.marks a <+: [.enrichStart, .enrichEnd, .socialStart, .socialEnd]) ∧
    (∀ i s', s.step c (.enrichGet i) = some s' → s'.enrichers[i]? = some .returned → ∀ a, .item a ∉ s.toEnrich) ∧
    (∀ j s', s.step c (.socialGet j) = some s' → s'.socials[j]? = some .returned → ∀ a, .item a ∉ s.toSocial) ∧
    (s.coordinator = .returned → ∀ a ∈ leads, s.marks a = [.enrichStart, .enrichEnd, .socialStart, .socialEnd]) := by
  obtain ⟨station, hp, hm⟩ := placed_reachable hd h
  have hi := drained_reachable h
  refine ⟨fun a ha => exactly_one_place hp ha, ?_, ?_, ?_, ?_⟩
  · intro a _
    rw [hm a]
    cases station a <;> decide
  · -- A worker that has taken a lead goes on with it.
    intro i s' hs hr
    cases effect_of c hs with
    | enricherReturns hw hq => exact hi.no_lead_left.1 hq
    | enrichBegins hw | enrichSkips hw =>
      obtain ⟨hlt, -⟩ := List.getElem?_eq_some_iff.1 hw
      simp [setEnricher, mark, hlt] at hr
  · intro j s' hs hr
    cases effect_of c hs with
    | socialReturns hw hq => exact hi.no_lead_left.2 hq
    | socialBegins hw | socialSkips hw =>
      obtain ⟨hlt, -⟩ := List.getElem?_eq_some_iff.1 hw
      simp [setSocial, mark, setFields, hlt] at hr
  · intro hr a ha
    rw [hm a, hi.all_finished hr hp ha]
    rfl

end Delivery

/-- One worker of each kind, and one page. -/
def onePipeline : PipelineConfig where
  settings := .defaults
  lib := .plain
  enrichmentWorkerCount := some 1
  socialWorkerCount := some 1
  pages := 1

/-- Two workers of each kind, and a page for either enrichment worker. -/
def twoPipeline : PipelineConfig where
  settings := .defaults
  lib := .plain
  enrichmentWorkerCount := some 2
  socialWorkerCount := some 2
  pages := 2

def instagramLead : BusinessLead :=
  { mapsLead with social := { mapsLead.social with instagramUrl := some "https://instagram.com/cafe/".toList } }

/-- A whole run over two leads. Both enrichments raise, the second lead overtakes the first, and each discovery finds a
link; that of the first lead is the first to end. -/
def crossedRun : List (StreamAction ℕ) :=
  [.feed, .feed, .enrichGet 0, .enrichGet 1, .enrichCall 0 .ask, .enrichCall 1 .ask, .enrichCall 1 .acquire,
    .enrichCall 0 .acquire, .feed, .enrichCall 1 .release, .enrichEnd 1 ⟨mapsLead, true⟩, .enrichPut 1, .socialGet 1, .feed,
    .enrichGet 1, .enrichCall 0 .release, .enrichEnd 0 ⟨mapsLead, true⟩, .enrichPut 0, .socialGet 0, .enrichGet 0,
    .enrichmentGathered, .putDone, .socialEnd 0 ⟨instagramLead, false⟩, .socialGet 0, .putDone,
    .socialEnd 1 ⟨instagramLead, false⟩, .socialGet 1, .socialGathered]

theorem streaming_delivery_crossed :
    ∃ s, exec (step twoPipeline) (start twoPipeline [7, 8] fun _ => mapsLead) crossedRun = some s ∧
      ∀ a ∈ [7, 8], s.marks a = [.enrichStart, .enrichEnd, .socialStart, .socialEnd] := by
  obtain ⟨s, hs, hr⟩ := exec_ends (f := step twoPipeline) (Q := fun s : Stream ℕ => s.coordinator = .returned)
    (s := start twoPipeline [7, 8] fun _ => mapsLead) crossedRun (by decide +kernel)
  exact ⟨s, hs, (streaming_delivery twoPipeline [7, 8] (by decide) (fun _ => mapsLead) s (reachable_of_exec _ hs)).2.2.2.2 hr⟩

end Stream

end SocialScraper
