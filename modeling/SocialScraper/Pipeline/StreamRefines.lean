import SocialScraper.Pipeline.Conveyor
/-!
# The stream refines the conveyor

A lead's station is read off the stream by counting its occurrences in the
queues and workers. Each action takes one lead to its next station, or none.
-/
open Lib

namespace SocialScraper

variable {ι : Type} [DecidableEq ι]

def EnrichmentWorker.enriches (a : ι) : EnrichmentWorker ι → Bool
  | .enriching b _ => b = a
  | _ => false

def EnrichmentWorker.puts (a : ι) : EnrichmentWorker ι → Bool
  | .putting b => b = a
  | _ => false

def SocialWorker.discovers (a : ι) : SocialWorker ι → Bool
  | .discovering b _ => b = a
  | _ => false

section Workers
variable (a b : ι) (p : CallPhase)

@[simp] theorem enriches_getting : (EnrichmentWorker.getting : EnrichmentWorker ι).enriches a = false := rfl
@[simp] theorem enriches_enriching : (EnrichmentWorker.enriching b p).enriches a = decide (b = a) := rfl
@[simp] theorem enriches_putting : (EnrichmentWorker.putting b).enriches a = false := rfl
@[simp] theorem enriches_returned : (EnrichmentWorker.returned : EnrichmentWorker ι).enriches a = false := rfl
@[simp] theorem puts_getting : (EnrichmentWorker.getting : EnrichmentWorker ι).puts a = false := rfl
@[simp] theorem puts_enriching : (EnrichmentWorker.enriching b p).puts a = false := rfl
@[simp] theorem puts_putting : (EnrichmentWorker.putting b).puts a = decide (b = a) := rfl
@[simp] theorem puts_returned : (EnrichmentWorker.returned : EnrichmentWorker ι).puts a = false := rfl
@[simp] theorem discovers_getting : (SocialWorker.getting : SocialWorker ι).discovers a = false := rfl
@[simp] theorem discovers_discovering : (SocialWorker.discovering b p).discovers a = decide (b = a) := rfl
@[simp] theorem discovers_returned : (SocialWorker.returned : SocialWorker ι).discovers a = false := rfl

end Workers

namespace Stream

/-- How often the lead `a` is found at the station. -/
def occurrences (s : Stream ι) (a : ι) : Station → ℕ
  | .waiting => s.feeder.count (.item a)
  | .queued => s.toEnrich.count (.item a)
  | .enriching => s.enrichers.countP (·.enriches a)
  | .putting => s.enrichers.countP (·.puts a)
  | .queuedSocial => s.toSocial.count (.item a)
  | .discovering => s.socials.countP (·.discovers a)
  | .finished => s.log.count (a, .socialEnd)

/-- The stream's leads are where the conveyor has them, with the same fields and marks. -/
structure Refines (ls needed : List ι) (s : Stream ι) (k : Conveyor ι) : Prop where
  leads : s.leads = ls
  needed : s.enrichmentNeededIds = needed
  placed : Placed ls k.station s.occurrences
  others : ∀ a, a ∉ ls → k.station a = .waiting
  fields : s.fields = k.fields
  cancelled : s.cancelEvent = k.cancelled
  log : s.log = k.log

section Moves
variable {c : PipelineConfig} {s : Stream ι} {i : ℕ} {a : ι}

@[simp] theorem count_item (m : Message ι) (q : List (Message ι)) (b : ι) :
    (m :: q).count (.item b) = q.count (.item b) + if m = .item b then 1 else 0 := by
  simp [List.count_cons]

@[simp] theorem count_mark (a b : ι) (m : Mark) :
    [(a, m)].count (b, .socialEnd) = if a = b ∧ m = .socialEnd then 1 else 0 := by
  simp only [List.count_singleton, beq_iff_eq, Prod.mk.injEq]

/-- What worker `i` gives up and takes, at the two stations of the enrichment workers. -/
theorem enricher_slots {w : EnrichmentWorker ι} (hw : s.enrichers[i]? = some w) (w' : EnrichmentWorker ι) (b : ι) :
    ((s.enrichers.set i w').countP (·.enriches b) + (if w.enriches b then 1 else 0) =
      s.enrichers.countP (·.enriches b) + (if w'.enriches b then 1 else 0)) ∧
    ((s.enrichers.set i w').countP (·.puts b) + (if w.puts b then 1 else 0) =
      s.enrichers.countP (·.puts b) + (if w'.puts b then 1 else 0)) :=
  ⟨countP_slot (fun w => w.enriches b) hw w', countP_slot (fun w => w.puts b) hw w'⟩

theorem social_slot {w : SocialWorker ι} (hw : s.socials[i]? = some w) (w' : SocialWorker ι) (b : ι) :
    (s.socials.set i w').countP (·.discovers b) + (if w.discovers b then 1 else 0) =
      s.socials.countP (·.discovers b) + (if w'.discovers b then 1 else 0) :=
  countP_slot (fun w => w.discovers b) hw w'

theorem moves_feed {rest : List (Message ι)} (hf : s.feeder = .item a :: rest) :
    Moves a .waiting .queued s.occurrences
      { s with feeder := rest, toEnrich := s.toEnrich ++ [Message.item a] }.occurrences := by
  intro b x
  cases x <;> simp_all [occurrences, eq_comm]

theorem moves_enrichBegins {q : List (Message ι)} (hw : s.enrichers[i]? = some .getting) (hq : s.toEnrich = .item a :: q) :
    Moves a .queued .enriching s.occurrences
      (({ s with toEnrich := q }.mark a .enrichStart).setEnricher i (.enriching a .running)).occurrences := by
  intro b x
  obtain ⟨he, hp⟩ := enricher_slots hw (.enriching a .running) b
  cases x <;> simp_all [occurrences, setEnricher, mark, eq_comm]

theorem moves_enrichSkips {q : List (Message ι)} (hw : s.enrichers[i]? = some .getting) (hq : s.toEnrich = .item a :: q) :
    Moves a .queued .putting s.occurrences
      ((({ s with toEnrich := q }.mark a .enrichStart).mark a .enrichEnd).setEnricher i (.putting a)).occurrences := by
  intro b x
  obtain ⟨he, hp⟩ := enricher_slots hw (.putting a) b
  cases x <;> simp_all [occurrences, setEnricher, mark, eq_comm]

theorem moves_enrichEnds {l : BusinessLead} {counts : Counts} (hw : s.enrichers[i]? = some (.enriching a .running)) :
    Moves a .enriching .putting s.occurrences
      ((({ s with counts := counts }.setFields a l).mark a .enrichEnd).setEnricher i (.putting a)).occurrences := by
  intro b x
  obtain ⟨he, hp⟩ := enricher_slots hw (.putting a) b
  cases x <;> simp_all [occurrences, setEnricher, mark, setFields, eq_comm]

theorem moves_forwards (hw : s.enrichers[i]? = some (.putting a)) :
    Moves a .putting .queuedSocial s.occurrences
      ({ s with toSocial := s.toSocial ++ [Message.item a] }.setEnricher i .getting).occurrences := by
  intro b x
  obtain ⟨he, hp⟩ := enricher_slots hw .getting b
  cases x <;> simp_all [occurrences, setEnricher, eq_comm]

theorem moves_socialBegins {q : List (Message ι)} (hw : s.socials[i]? = some .getting) (hq : s.toSocial = .item a :: q) :
    Moves a .queuedSocial .discovering s.occurrences
      (({ s with toSocial := q }.mark a .socialStart).setSocial i (.discovering a .running)).occurrences := by
  intro b x
  have hd := social_slot hw (.discovering a .running) b
  cases x <;> simp_all [occurrences, setSocial, mark, eq_comm]

theorem moves_socialSkips {q : List (Message ι)} {l : BusinessLead} {counts : Counts}
    (hw : s.socials[i]? = some .getting) (hq : s.toSocial = .item a :: q) :
    Moves a .queuedSocial .finished s.occurrences
      (((({ s with toSocial := q, counts := counts }.mark a .socialStart).setFields a l).mark a .socialEnd).setSocial i
        .getting).occurrences := by
  intro b x
  have hd := social_slot hw .getting b
  cases x <;> simp_all [occurrences, setSocial, mark, setFields, eq_comm]

theorem moves_socialEnds {l : BusinessLead} {counts : Counts} (hw : s.socials[i]? = some (.discovering a .running)) :
    Moves a .discovering .finished s.occurrences
      ((({ s with counts := counts }.setFields a l).mark a .socialEnd).setSocial i .getting).occurrences := by
  intro b x
  have hd := social_slot hw .getting b
  cases x <;> simp_all [occurrences, setSocial, mark, setFields, eq_comm]

/-! ## Actions that move no lead -/

theorem still_feed {rest : List (Message ι)} (hf : s.feeder = .done :: rest) :
    { s with feeder := rest, toEnrich := s.toEnrich ++ [Message.done] }.occurrences = s.occurrences := by
  funext b x
  cases x <;> simp_all [occurrences]

theorem still_enricherReturns {q : List (Message ι)} (hw : s.enrichers[i]? = some .getting) (hq : s.toEnrich = .done :: q) :
    ({ s with toEnrich := q }.setEnricher i .returned).occurrences = s.occurrences := by
  funext b x
  obtain ⟨he, hp⟩ := enricher_slots hw .returned b
  cases x <;> simp_all [occurrences, setEnricher]

theorem still_enrichUses {p p' : CallPhase} {free : ℕ} (hw : s.enrichers[i]? = some (.enriching a p)) :
    ({ s with freePages := free }.setEnricher i (.enriching a p')).occurrences = s.occurrences := by
  funext b x
  obtain ⟨he, hp⟩ := enricher_slots hw (.enriching a p') b
  cases x <;> simp_all [occurrences, setEnricher]

theorem still_socialReturns {q : List (Message ι)} (hw : s.socials[i]? = some .getting) (hq : s.toSocial = .done :: q) :
    ({ s with toSocial := q }.setSocial i .returned).occurrences = s.occurrences := by
  funext b x
  have hd := social_slot hw .returned b
  cases x <;> simp_all [occurrences, setSocial]

theorem still_socialUses {p p' : CallPhase} {free : ℕ} (hw : s.socials[i]? = some (.discovering a p)) :
    ({ s with freePages := free }.setSocial i (.discovering a p')).occurrences = s.occurrences := by
  funext b x
  have hd := social_slot hw (.discovering a p') b
  cases x <;> simp_all [occurrences, setSocial]

theorem still_putsDone {n : ℕ} :
    { s with toSocial := s.toSocial ++ [Message.done], coordinator := .putLoop n }.occurrences = s.occurrences := by
  funext b x
  cases x <;> simp [occurrences]

/-- Each action leaves every lead where it is, or takes one a station further with the marks between. -/
theorem travels {s' : Stream ι} {e : StreamAction ι} (h : Effect c s e s') :
    (s'.occurrences = s.occurrences ∧ s'.log = s.log) ∨
    ∃ a p q ms, Moves a p q s.occurrences s'.occurrences ∧ q.passed = p.passed ++ ms ∧ s'.log = s.log ++ ms.map (a, ·) := by
  cases h with
  | @feeds m rest hf hq =>
    cases m with
    | item a => exact .inr ⟨a, _, _, [], moves_feed hf, rfl, by simp⟩
    | done => exact .inl ⟨still_feed hf, rfl⟩
  | enricherReturns hw hq => exact .inl ⟨still_enricherReturns hw hq, rfl⟩
  | enrichBegins hw hq => exact .inr ⟨_, _, _, [.enrichStart], moves_enrichBegins hw hq, rfl, rfl⟩
  | enrichSkips hw hq =>
    exact .inr ⟨_, _, _, [.enrichStart, .enrichEnd], moves_enrichSkips hw hq, rfl, by simp [setEnricher, mark]⟩
  | enrichUses hw => exact .inl ⟨still_enrichUses hw, rfl⟩
  | enrichEnds hw => exact .inr ⟨_, _, _, [.enrichEnd], moves_enrichEnds hw, rfl, rfl⟩
  | forwards hw => exact .inr ⟨_, _, _, [], moves_forwards hw, rfl, by simp [setEnricher]⟩
  | socialReturns hw hq => exact .inl ⟨still_socialReturns hw hq, rfl⟩
  | socialBegins hw hq => exact .inr ⟨_, _, _, [.socialStart], moves_socialBegins hw hq, rfl, rfl⟩
  | socialSkips hw hq =>
    exact .inr ⟨_, _, _, [.socialStart, .socialEnd], moves_socialSkips hw hq, rfl, by simp [setSocial, mark, setFields]⟩
  | socialUses hw => exact .inl ⟨still_socialUses hw, rfl⟩
  | socialEnds hw => exact .inr ⟨_, _, _, [.socialEnd], moves_socialEnds hw, rfl, rfl⟩
  | gathersEnrichment | gathersSocial | cancels => exact .inl ⟨rfl, rfl⟩
  | putsDone => exact .inl ⟨still_putsDone, rfl⟩

end Moves

/-! ## The simulation -/

/-- The action stays within the behaviour. -/
def Allows (B : Behaviour ι) (s : Stream ι) : StreamAction ι → Prop
  | .enrichEnd i o => ∀ a p, s.enrichers[i]? = some (.enriching a p) → B.enriches a (s.fields a) o.fields
  | .socialEnd j o => ∀ a p, s.socials[j]? = some (.discovering a p) → B.discovers a (s.fields a) o.fields
  | .requestCancellation => B.cancels
  | _ => True

section Simulation
variable {c : PipelineConfig} {B : Behaviour ι} {ls needed : List ι} {s s' : Stream ι} {k : Conveyor ι}

theorem Refines.still (hr : Refines ls needed s k) (ho : s'.occurrences = s.occurrences) (hl : s'.leads = s.leads)
    (hn : s'.enrichmentNeededIds = s.enrichmentNeededIds) (hf : s'.fields = s.fields)
    (hc : s'.cancelEvent = s.cancelEvent) (hg : s'.log = s.log) :
    ∃ k', Reachable (Conveyor.Hop c B needed) k k' ∧ Refines ls needed s' k' :=
  ⟨k, .refl k, hl.trans hr.leads, hn.trans hr.needed, ho ▸ hr.placed, hr.others, hf.trans hr.fields,
    hc.trans hr.cancelled, hg.trans hr.log⟩

theorem Refines.hop (hr : Refines ls needed s k) {a : ι} {p q : Station} {ms : List Mark} {l : BusinessLead}
    (hm : Moves a p q s.occurrences s'.occurrences) (hp : 0 < s.occurrences a p) (hpq : p ≠ q)
    (hh : k.station a = p → Conveyor.Hop c B needed k (some a) (k.move a q ms l)) (hl : s'.leads = s.leads)
    (hn : s'.enrichmentNeededIds = s.enrichmentNeededIds) (hf : s'.fields = Function.update s.fields a l)
    (hc : s'.cancelEvent = s.cancelEvent) (hg : s'.log = s.log ++ ms.map (a, ·)) :
    ∃ k', Reachable (Conveyor.Hop c B needed) k k' ∧ Refines ls needed s' k' := by
  obtain ⟨ha, hs⟩ := hr.placed.found hp
  have ho : ∀ b, b ∉ ls → Function.update k.station a q b = .waiting := fun b hb => by
    rw [Function.update_of_ne (by rintro rfl; exact hb ha)]
    exact hr.others b hb
  exact ⟨_, (Reachable.refl k).step (hh hs), hl.trans hr.leads, hn.trans hr.needed, hr.placed.move hm hp hpq, ho,
    by rw [hf, hr.fields]; rfl, hc.trans hr.cancelled, by rw [hg, hr.log]; rfl⟩

theorem refines_effect {e : StreamAction ι} (hr : Refines ls needed s k) (hb : Allows B s e) (h : Effect c s e s') :
    ∃ k', Reachable (Conveyor.Hop c B needed) k k' ∧ Refines ls needed s' k' := by
  -- A step that writes no field leaves the lead's fields to it.
  have keep : ∀ a, Function.update s.fields a (k.fields a) = s.fields := fun a => by
    rw [← hr.fields, Function.update_eq_self]
  cases h with
  | @feeds m rest hf hq =>
    cases m with
    | item a =>
      exact hr.hop (moves_feed hf) (by simp [occurrences, hf]) (by decide) .fed rfl rfl (keep a).symm rfl (by simp)
    | done => exact hr.still (still_feed hf) rfl rfl rfl rfl rfl
  | enricherReturns hw hq => exact hr.still (still_enricherReturns hw hq) rfl rfl rfl rfl rfl
  | @enrichBegins i a q hw hq hn hc =>
    exact hr.hop (moves_enrichBegins hw hq) (by simp [occurrences, hq]) (by decide)
      (fun hs => .enrichBegins hs (hr.needed ▸ hn) (hr.cancelled ▸ hc)) rfl rfl (keep a).symm rfl rfl
  | @enrichSkips i a q hw hq hn =>
    rw [hr.needed, hr.cancelled] at hn
    exact hr.hop (moves_enrichSkips hw hq) (by simp [occurrences, hq]) (by decide) (fun hs => .enrichSkips hs hn) rfl rfl
      (keep a).symm rfl (by simp [setEnricher, mark])
  | enrichUses hw => exact hr.still (still_enrichUses hw) rfl rfl rfl rfl rfl
  | @enrichEnds i a o counts hw =>
    have hl := hb a _ hw
    rw [hr.fields] at hl
    exact hr.hop (moves_enrichEnds hw) (countP_pos_of_slot hw (by simp)) (by decide) (fun hs => .enriched hs hl) rfl rfl
      rfl rfl rfl
  | @forwards i a hw =>
    exact hr.hop (moves_forwards hw) (countP_pos_of_slot hw (by simp)) (by decide) .forwarded rfl rfl (keep a).symm rfl
      (by simp [setEnricher])
  | socialReturns hw hq => exact hr.still (still_socialReturns hw hq) rfl rfl rfl rfl rfl
  | @socialBegins j a q hw hq hn hc =>
    rw [hr.fields] at hn
    exact hr.hop (moves_socialBegins hw hq) (by simp [occurrences, hq]) (by decide)
      (fun hs => .socialBegins hs hn (hr.cancelled ▸ hc)) rfl rfl (keep a).symm rfl rfl
  | @socialSkips j a q counts hw hq hn =>
    rw [hr.fields, hr.cancelled] at hn
    exact hr.hop (moves_socialSkips hw hq) (by simp [occurrences, hq]) (by decide) (fun hs => .socialSkips hs hn) rfl rfl
      (by rw [← hr.fields]; rfl) rfl (by simp [setSocial, mark, setFields])
  | socialUses hw => exact hr.still (still_socialUses hw) rfl rfl rfl rfl rfl
  | @socialEnds j a o counts hw =>
    have hl := hb a _ hw
    rw [hr.fields] at hl
    exact hr.hop (moves_socialEnds hw) (countP_pos_of_slot hw (by simp)) (by decide) (fun hs => .discovered hs hl) rfl rfl
      rfl rfl rfl
  | gathersEnrichment => exact hr.still rfl rfl rfl rfl rfl rfl
  | putsDone => exact hr.still still_putsDone rfl rfl rfl rfl rfl
  | gathersSocial => exact hr.still rfl rfl rfl rfl rfl rfl
  | cancels =>
    exact ⟨_, (Reachable.refl k).step (.cancel hb), hr.leads, hr.needed, hr.placed, hr.others, hr.fields, rfl, hr.log⟩

theorem refines_start (hd : ls.Nodup) (fields : ι → BusinessLead) :
    Refines ls (ls.filter fun a => needsEnrichment (fields a)) (start c ls fields) (.start fields) where
  leads := rfl
  needed := rfl
  placed a x := by
    cases x with
    | waiting =>
      -- The feeder has each lead once, as they are distinct.
      have hload := count_load ls c.enrichmentWorkers a
      by_cases ha : a ∈ ls
      · simpa [occurrences, start, Conveyor.start, ha, List.count_eq_one_of_mem hd ha] using hload
      · simpa [occurrences, start, Conveyor.start, ha, List.count_eq_zero_of_not_mem ha] using hload
    | _ => simp [occurrences, start, Conveyor.start, List.countP_replicate]
  others _ _ := rfl
  fields := rfl
  cancelled := rfl
  log := rfl

/-- Every run of the stream is a run of the conveyor. -/
theorem stream_refines (hd : ls.Nodup) {fields : ι → BusinessLead}
    (h : Reachable (Guarded (Allows B) (Fires (step c))) (start c ls fields) s) :
    ∃ k, Reachable (Conveyor.Hop c B (ls.filter fun a => needsEnrichment (fields a))) (.start fields) k ∧
      Refines ls (ls.filter fun a => needsEnrichment (fields a)) s k :=
  h.simulate (Refines ls _) (refines_start hd fields) fun _ _ _ _ hr hs => refines_effect hr hs.1 (effect_of c hs.2)

end Simulation

end Stream

end SocialScraper
