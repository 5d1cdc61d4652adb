import SocialScraper.Pipeline.Batch
import SocialScraper.Pipeline.Delivery
/-!
# Streaming against the batch stages

With the per-lead calls as oracles and no cancellation, every interleaving of
the stream ends with the fields the batch stages end with
(`stream_refines_batch`): a lead's fields are a function of its station.
-/
open Lib

namespace SocialScraper

variable {ι : Type} [DecidableEq ι]

/-- The calls do what the oracle says, and nobody cancels the run. -/
def Behaviour.ofOracle (o : Oracle ι) : Behaviour ι where
  enriches a l l' := l' = (o.enrichOne a l).fields
  discovers a l l' := l' = (o.discoverSocialLinksOne a l).fields
  cancels := False

namespace Conveyor

variable {c : PipelineConfig} {o : Oracle ι} {needed : List ι} {fields : ι → BusinessLead}

/-- The fields of the lead `a` at its station. -/
def fieldsAt (c : PipelineConfig) (o : Oracle ι) (needed : List ι) (fields : ι → BusinessLead) (a : ι) : Station → BusinessLead
  | .waiting | .queued | .enriching => fields a
  | .putting | .queuedSocial | .discovering => o.enriched (decide (a ∈ needed)) a (fields a)
  | .finished => Stream.selected c (o.discovered a (o.enriched (decide (a ∈ needed)) a (fields a)))

/-- A lead in a call is one that needs it. -/
def InCall (needed : List ι) (a : ι) (l : BusinessLead) : Station → Prop
  | .enriching => a ∈ needed
  | .discovering => needsSocial l = true
  | _ => True

/-- Each lead has the fields of its station. -/
structure Computed (c : PipelineConfig) (o : Oracle ι) (needed : List ι) (fields : ι → BusinessLead) (k : Conveyor ι) : Prop where
  uncancelled : k.cancelled = false
  fields : ∀ a, k.fields a = fieldsAt c o needed fields a (k.station a)
  inCall : ∀ a, InCall needed a (k.fields a) (k.station a)

theorem Computed.move {k : Conveyor ι} (hk : Computed c o needed fields k) {a : ι} {q : Station} {ms : List Mark}
    {l : BusinessLead} (hl : l = fieldsAt c o needed fields a q) (hq : InCall needed a l q) :
    Computed c o needed fields (k.move a q ms l) where
  uncancelled := hk.uncancelled
  fields b := by
    by_cases hb : b = a
    · subst hb
      simpa [Conveyor.move] using hl
    · simpa [Conveyor.move, hb] using hk.fields b
  inCall b := by
    by_cases hb : b = a
    · subst hb
      simpa [Conveyor.move] using hq
    · simpa [Conveyor.move, hb] using hk.inCall b

theorem computed_hop {k k' : Conveyor ι} {e : Option ι} (hk : Computed c o needed fields k)
    (h : Hop c (.ofOracle o) needed k e k') : Computed c o needed fields k' := by
  -- What the lead has at its old station.
  have old : ∀ {a x}, k.station a = x → k.fields a = fieldsAt c o needed fields a x := fun hx => hx ▸ hk.fields _
  cases h with
  | fed h => exact hk.move ((old h).trans rfl) trivial
  | enrichBegins h hn => exact hk.move ((old h).trans rfl) hn
  | enrichSkips h hn =>
    have hna := hn.resolve_right (by simp [hk.uncancelled])
    exact hk.move (by rw [old h]; simp [fieldsAt, Oracle.enriched, hna]) trivial
  | @enriched a l h hl =>
    have hna : a ∈ needed := by simpa [InCall, h] using hk.inCall a
    have hla : l = (o.enrichOne a (k.fields a)).fields := hl
    exact hk.move (by rw [hla, old h]; simp [fieldsAt, Oracle.enriched, hna]) trivial
  | forwarded h => exact hk.move ((old h).trans rfl) trivial
  | socialBegins h hn => exact hk.move ((old h).trans rfl) hn
  | socialSkips h hn =>
    have hna := hn.resolve_right (by simp [hk.uncancelled])
    rw [old h] at hna ⊢
    exact hk.move (by simp only [fieldsAt] at hna ⊢; rw [Oracle.discovered, hna]; rfl) trivial
  | @discovered a l h hl =>
    have hna : needsSocial (k.fields a) = true := by simpa [InCall, h] using hk.inCall a
    have hla : l = (o.discoverSocialLinksOne a (k.fields a)).fields := hl
    rw [old h] at hna hla
    exact hk.move (by simp only [fieldsAt] at hna hla ⊢; rw [Oracle.discovered, if_pos hna, hla]) trivial
  | cancel hb => exact hb.elim

theorem computed_reachable {k : Conveyor ι} (h : Reachable (Hop c (.ofOracle o) needed) (start fields) k) :
    Computed c o needed fields k :=
  h.inv (Computed c o needed fields) ⟨rfl, fun _ => rfl, fun _ => trivial⟩ fun _ _ _ hk hs => computed_hop hk hs

end Conveyor

namespace Stream

/-- The action is one the oracle allows: its calls end as it says, and nobody cancels. -/
def conforms (o : Oracle ι) (s : Stream ι) : StreamAction ι → Bool
  | .enrichEnd i out =>
    match s.enrichers[i]? with
    | some (.enriching a _) => out = o.enrichOne a (s.fields a)
    | _ => true
  | .socialEnd j out =>
    match s.socials[j]? with
    | some (.discovering a _) => out = o.discoverSocialLinksOne a (s.fields a)
    | _ => true
  | .requestCancellation => false
  | _ => true

omit [DecidableEq ι] in
theorem allows_of_conforms {o : Oracle ι} {s : Stream ι} {e : StreamAction ι} (h : s.conforms o e) :
    Allows (.ofOracle o) s e := by
  cases e with
  | enrichEnd i out =>
    intro a p hw
    simp only [conforms, hw, decide_eq_true_eq] at h
    exact h ▸ rfl
  | socialEnd j out =>
    intro a p hw
    simp only [conforms, hw, decide_eq_true_eq] at h
    exact h ▸ rfl
  | requestCancellation => simp [conforms] at h
  | _ => trivial

/-- Streaming refines the batch stages: whatever the interleaving, the leads end
in the same order and with the same fields as after the three stages. -/
theorem stream_refines_batch (c : PipelineConfig) (o : Oracle ι) (leads : List ι) (hd : leads.Nodup)
    (fields : ι → BusinessLead) (s : Stream ι)
    (h : Reachable (Guarded (fun s e => s.conforms o e) (Fires (step c))) (start c leads fields) s)
    (hr : s.coordinator = .returned) :
    (∃ r p, BatchRun c o leads fields r p) ∧
      ∀ r p, BatchRun c o leads fields r p → s.leads = r.leads ∧ ∀ a, s.fields a = r.fields a := by
  refine ⟨batch_completes c o hd fields, fun r p hb => ?_⟩
  obtain ⟨k, hk, hs⟩ := stream_refines hd (h.mono fun _ _ _ hg => ⟨allows_of_conforms hg.1, hg.2⟩)
  have hcomp := Conveyor.computed_reachable hk
  -- Every lead is at its last station, and has the fields of that.
  have hfin := fun a ha => (drained_reachable h.of_guarded).all_finished hr hs.placed (a := a) ha
  obtain ⟨hleads, hbatch⟩ := batch_fields hd hb
  refine ⟨hs.leads.trans hleads.symm, fun a => ?_⟩
  rw [hs.fields, hcomp.fields a, hbatch a]
  by_cases ha : a ∈ leads
  · simp [hfin a ha, Conveyor.fieldsAt, ha]
  · simp [hs.others a ha, Conveyor.fieldsAt, ha]

/-- Every enrichment raises, every discovery finds an Instagram link. -/
def instagramOracle : Oracle ℕ where
  enrichOne _ l := ⟨l, true⟩
  discoverSocialLinksOne _ l :=
    ⟨{ l with social := { l.social with instagramUrl := some "https://instagram.com/cafe/".toList } }, false⟩

theorem stream_refines_batch_crossed :
    ∃ s, exec (guarded (conforms instagramOracle) (step twoPipeline)) (start twoPipeline [7, 8] fun _ => mapsLead) crossedRun =
        some s ∧
      ∀ r p, BatchRun twoPipeline instagramOracle [7, 8] (fun _ => mapsLead) r p →
        s.leads = r.leads ∧ ∀ a, s.fields a = r.fields a := by
  obtain ⟨s, hs, hr⟩ := exec_ends (f := guarded (conforms instagramOracle) (step twoPipeline))
    (Q := fun s : Stream ℕ => s.coordinator = .returned) (s := start twoPipeline [7, 8] fun _ => mapsLead) crossedRun
    (by decide +kernel)
  exact ⟨s, hs, (stream_refines_batch twoPipeline instagramOracle [7, 8] (by decide) (fun _ => mapsLead) s
    (reachable_guarded _ hs) hr).2⟩

end Stream

end SocialScraper
