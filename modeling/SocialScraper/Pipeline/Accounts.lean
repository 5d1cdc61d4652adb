import SocialScraper.Pipeline.FinalLeads
/-!
# The reports and the leads that are returned

`StageCounts` compares the reports of an uncancelled run with those of the
batch stages. Here they are read against the leads the run ends with, for
calls that do anything and for cancelled runs as well (`reports_account`).
-/
open Lib

namespace SocialScraper.Stream

variable {ι : Type} [DecidableEq ι] {c : PipelineConfig} {leads : List ι} {fields : ι → BusinessLead} {s s' : Stream ι} {a : ι}

/-! ## The leads behind a mark -/

/-- The lead has passed the mark. -/
def Past (s : Stream ι) (m : Mark) (a : ι) : Bool := (a, m) ∈ s.log

/-- A lead found at a station is one of the list, and has not passed the marks behind it. -/
theorem not_past (hd : leads.Nodup) (h : Reachable (Fires (step c)) (start c leads fields) s) {x : Station}
    (hx : 0 < s.occurrences a x) : a ∈ leads ∧ ∀ m, m ∉ x.passed → s.Past m a = false := by
  obtain ⟨station, hp, hm⟩ := placed_reachable hd h
  obtain ⟨ha, hs⟩ := hp.found hx
  refine ⟨ha, fun m hnot => decide_eq_false fun hlog => hnot ?_⟩
  rw [← hs, ← hm a]
  exact List.mem_map.2 ⟨(a, m), List.mem_filter.2 ⟨hlog, by simp⟩, rfl⟩

omit [DecidableEq ι] in
/-- A social worker counts a lead as completed or as failed, and only if it needed the discovery. -/
theorem countDiscovered_spec (n : Counts) (needed : Bool) (lead : BusinessLead) :
    countDiscovered n needed lead =
      { n with
        socialCompleted := n.socialCompleted + if needed && hasSocialUrl lead then 1 else 0
        socialFailed := n.socialFailed + if needed && !hasSocialUrl lead then 1 else 0
        selectionBefore := n.selectionBefore + if hasSocialUrl lead then 1 else 0 } := by
  cases needed <;> cases h : hasSocialUrl lead <;> simp [countDiscovered, h]

omit [DecidableEq ι] in
theorem countSelected_spec (n : Counts) (lead : BusinessLead) :
    countSelected n lead = { n with selectionAfter := n.selectionAfter + if hasSocialUrl lead then 1 else 0 } := by
  cases h : hasSocialUrl lead <;> simp [countSelected, h]

omit [DecidableEq ι] in
theorem countEnriched_spec (n : Counts) (lead : BusinessLead) :
    countEnriched n lead =
      { n with
        enrichmentCompleted := n.enrichmentCompleted + if lead.website.isSome then 1 else 0
        enrichmentFailed := n.enrichmentFailed + if !lead.website.isSome then 1 else 0 } := by
  cases h : lead.website <;> simp [countEnriched, h]

/-- What a social worker counts for a lead it does not discover. -/
theorem socialSkip_spec {j : ℕ} {q : List (Message ι)} (hw : s.socials[j]? = some .getting) (hq : s.toSocial = .item a :: q)
    (hn : needsSocial (s.fields a) = false ∨ s.cancelEvent = true) (h : s.step c (.socialGet j) = some s') :
    s'.counts = countSelected (countDiscovered s.counts (needsSocial (s.fields a)) (s.fields a)) (selected c (s.fields a)) := by
  have hf : (({ s with toSocial := q }.mark a .socialStart).fields a) = s.fields a := rfl
  have hskip : ¬ (needsSocial (s.fields a) = true ∧ ({ s with toSocial := q }.mark a .socialStart).cancelEvent = false) := by
    rintro ⟨hneeds, hcancel⟩
    rcases hn with hn | hn
    · rw [hn] at hneeds
      cases hneeds
    · cases hn.symm.trans hcancel
  simp only [step, socialGet, hw, hq, hf, if_neg hskip, Option.some.injEq] at h
  rw [← h, finishSocial_counts]
  rfl

omit [DecidableEq ι] in
/-- The selection brings no lead a URL. -/
theorem hasSocialUrl_selected {lead : BusinessLead} (h : hasSocialUrl (selected c lead) = true) : hasSocialUrl lead = true := by
  by_contra hnone
  have hsame : reselect c.lib lead.social = lead.social := if_neg hnone
  rw [selected_eq, hsame] at h
  exact hnone h

/-- How many leads of the list have passed the mark and meet the test. -/
def behind (s : Stream ι) (leads : List ι) (m : Mark) (p : ι → Bool) : ℕ := leads.countP fun a => s.Past m a && p a

variable (leads) in
/-- Nothing passes the mark, and the test says the same of what has. -/
theorem behind_same {m : Mark} {p q : ι → Bool} (hm : ∀ b, s'.Past m b = s.Past m b)
    (hq : ∀ b, s.Past m b = true → q b = p b) : s'.behind leads m q = s.behind leads m p := by
  apply List.countP_congr
  intro b _
  rw [hm]
  cases hb : s.Past m b with
  | false => rfl
  | true => rw [hq b hb]

/-- One lead passes the mark. -/
theorem behind_pass (hd : leads.Nodup) (ha : a ∈ leads) {m : Mark} (hnot : s.Past m a = false)
    (hm : ∀ b, s'.Past m b = (s.Past m b || decide (b = a))) {p q : ι → Bool} (hq : ∀ b, b ≠ a → q b = p b) :
    s'.behind leads m q = s.behind leads m p + if q a then 1 else 0 := by
  have hbefore : (s.Past m a && p a) = false := by
    rw [hnot]
    rfl
  have hafter : (s'.Past m a && q a) = q a := by
    rw [hm, decide_eq_true rfl, Bool.or_true, Bool.true_and]
  have hrest : ∀ b ∈ leads, b ≠ a → (s'.Past m b && q b) = (s.Past m b && p b) := by
    intro b _ hb
    rw [hm, hq b hb, decide_eq_false hb, Bool.or_false]
  rw [behind, behind, countP_change (p := fun b => s.Past m b && p b) hd ha hbefore hrest, hafter]

/-- What a step marks for the lead `a`. -/
theorem past_append {ms : List Mark} (hl : s'.log = s.log ++ ms.map (a, ·)) (m : Mark) (b : ι) :
    s'.Past m b = (s.Past m b || decide (b = a) && decide (m ∈ ms)) := by
  rw [Bool.eq_iff_iff]
  simp only [Past, hl, List.mem_append, List.mem_map, Prod.mk.injEq, Bool.or_eq_true, Bool.and_eq_true, decide_eq_true_eq]
  constructor
  · rintro (h | ⟨m', hm, hb, rfl⟩)
    · exact .inl h
    · exact .inr ⟨hb.symm, hm⟩
  · rintro (h | ⟨rfl, hm⟩)
    · exact .inl h
    · exact .inr ⟨m, hm, rfl, rfl⟩

/-- A step that marks no end. -/
theorem past_still {ms : List Mark} {b : ι} (hl : s'.log = s.log ++ ms.map (b, ·)) {m : Mark} (hm : m ∉ ms) (a : ι) :
    s'.Past m a = s.Past m a := by
  rw [past_append hl, decide_eq_false hm, Bool.and_false, Bool.or_false]

/-! ## As the leads were found -/

omit [DecidableEq ι] in
theorem needsSocial_congr {lead lead' : BusinessLead} (h : lead.social = lead'.social) : needsSocial lead = needsSocial lead' := by
  unfold needsSocial
  rw [h]

omit [DecidableEq ι] in
theorem hasSocialUrl_congr {lead lead' : BusinessLead} (h : lead.social = lead'.social) :
    hasSocialUrl lead = hasSocialUrl lead' := by
  unfold hasSocialUrl
  rw [h]

/-- What becomes of a lead's social fields: they stay as it was found with up to its social body, and a URL behind that
was looked for there, or had come with the lead. -/
structure AsFound (fields : ι → BusinessLead) (a : ι) (s : Stream ι) : Prop where
  before : s.Past .socialEnd a = false → (s.fields a).social = (fields a).social
  inCall : ∀ (j : ℕ) (p : CallPhase), s.socials[j]? = some (.discovering a p) → needsSocial (fields a) = true
  after : s.Past .socialEnd a = true → hasSocialUrl (s.fields a) = true →
    (needsSocial (fields a) || hasSocialUrl (fields a)) = true

/-- A step that leaves the social fields and the mark alone; who is in a discovery has been in one. -/
theorem AsFound.same (hi : AsFound fields a s) (hf : (s'.fields a).social = (s.fields a).social)
    (hp : s'.Past .socialEnd a = s.Past .socialEnd a)
    (hc : ∀ (j : ℕ) (p : CallPhase), s'.socials[j]? = some (.discovering a p) →
      ∃ (k : ℕ) (q : CallPhase), s.socials[k]? = some (.discovering a q)) : AsFound fields a s' where
  before h := hf.trans (hi.before (hp.symm.trans h))
  inCall j p h := by
    obtain ⟨k, q, hk⟩ := hc j p h
    exact hi.inCall k q hk
  after h hu := hi.after (hp.symm.trans h) ((hasSocialUrl_congr hf).symm.trans hu)

/-- A social worker selects a lead, which it has discovered or which is as it was found. -/
theorem asFound_selects (c : PipelineConfig) (hi : ∀ b, AsFound fields b s) (lead : BusinessLead)
    (hlead : needsSocial (fields a) = true ∨ lead.social = (fields a).social) (hfa : s'.fields a = selected c lead)
    (hf : ∀ b, b ≠ a → s'.fields b = s.fields b) (hs : ∀ b, s'.Past .socialEnd b = (s.Past .socialEnd b || decide (b = a)))
    {j : ℕ} (hw : s'.socials = s.socials.set j .getting) (b : ι) : AsFound fields b s' := by
  have hslot : ∀ (k : ℕ) (p : CallPhase), s'.socials[k]? = some (.discovering b p) → s.socials[k]? = some (.discovering b p) := by
    intro k p hk
    rw [hw] at hk
    exact (slot_after hk).resolve_left (by simp)
  by_cases hba : b = a
  · subst hba
    refine ⟨fun hp => ?_, fun k p hk => (hi b).inCall k p (hslot k p hk), fun _ hu => ?_⟩
    · rw [hs, decide_eq_true rfl, Bool.or_true] at hp
      cases hp
    · rw [hfa] at hu
      have hfound := hasSocialUrl_selected hu
      rcases hlead with hneeds | hsame
      · rw [hneeds, Bool.true_or]
      · rw [← hasSocialUrl_congr hsame, hfound, Bool.or_true]
  · refine (hi b).same (by rw [hf b hba]) ?_ fun k p hk => ⟨k, p, hslot k p hk⟩
    rw [hs, decide_eq_false hba, Bool.or_false]

theorem asFound_step (hd : leads.Nodup) (h : Reachable (Fires (step c)) (start c leads fields) s)
    (hi : ∀ a, AsFound fields a s) {e : StreamAction ι} (hb : Allows (.ownFields ι) s e) (hs : s.step c e = some s') (b : ι) :
    AsFound fields b s' := by
  cases effect_of c hs with
  | @enrichEnds i a o counts hw =>
    have hl : ((({ s with counts := counts }.setFields a o.fields).mark a .enrichEnd).setEnricher i (.putting a)).log =
        s.log ++ [Mark.enrichEnd].map (a, ·) := rfl
    refine (hi b).same ?_ (past_still hl (by simp) b) fun j p hj => ⟨j, p, hj⟩
    obtain ⟨website, ho⟩ := hb a _ hw
    by_cases hba : b = a
    · subst hba
      simp [setEnricher, mark, setFields, ho]
    · simp [setEnricher, mark, setFields, hba]
  | @enrichBegins i a q =>
    have hl : (({ s with toEnrich := q }.mark a .enrichStart).setEnricher i (.enriching a .running)).log =
        s.log ++ [Mark.enrichStart].map (a, ·) := rfl
    exact (hi b).same rfl (past_still hl (by simp) b) fun j p hj => ⟨j, p, hj⟩
  | @enrichSkips i a q =>
    have hl : ((({ s with toEnrich := q }.mark a .enrichStart).mark a .enrichEnd).setEnricher i (.putting a)).log =
        s.log ++ [Mark.enrichStart, .enrichEnd].map (a, ·) := by
      simp [setEnricher, mark]
    exact (hi b).same rfl (past_still hl (by simp) b) fun j p hj => ⟨j, p, hj⟩
  | @socialBegins j a q hw hq hn =>
    obtain ⟨-, hnot⟩ := not_past (a := a) (x := .queuedSocial) hd h (by simp [occurrences, hq])
    have hl : (({ s with toSocial := q }.mark a .socialStart).setSocial j (.discovering a .running)).log =
        s.log ++ [Mark.socialStart].map (a, ·) := rfl
    have hstill : ∀ b, _ = s.Past .socialEnd b := past_still hl (by simp)
    refine ⟨fun hp => (hi b).before ((hstill b).symm.trans hp), fun k p hk => ?_,
      fun hp => (hi b).after ((hstill b).symm.trans hp)⟩
    rcases slot_after hk with ⟨-, he⟩ | hk
    · cases he
      rw [← needsSocial_congr ((hi b).before (hnot _ (by simp [Station.passed])))]
      exact hn
    · exact (hi b).inCall k p hk
  | @socialUses j a p u free p' hw =>
    refine (hi b).same rfl rfl fun k q hk => ?_
    rcases slot_after hk with ⟨-, he⟩ | hk
    · cases he
      exact ⟨j, p, hw⟩
    · exact ⟨k, q, hk⟩
  | @socialSkips j a q counts hw hq hn =>
    obtain ⟨-, hnot⟩ := not_past (a := a) (x := .queuedSocial) hd h (by simp [occurrences, hq])
    have hl : (((({ s with toSocial := q, counts := counts }.mark a .socialStart).setFields a
        (selected c (s.fields a))).mark a .socialEnd).setSocial j .getting).log =
          s.log ++ [Mark.socialStart, .socialEnd].map (a, ·) := by
      simp [setSocial, mark, setFields]
    refine asFound_selects c hi (s.fields a) (.inr ((hi a).before (hnot _ (by simp [Station.passed])))) ?_ ?_ ?_ rfl b
    · simp [setSocial, mark, setFields]
    · intro b hba
      simp [setSocial, mark, setFields, hba]
    · intro b
      rw [past_append hl]
      simp
  | @socialEnds j a o counts hw =>
    have hl : ((({ s with counts := counts }.setFields a (selected c o.fields)).mark a .socialEnd).setSocial j .getting).log =
        s.log ++ [Mark.socialEnd].map (a, ·) := rfl
    refine asFound_selects c hi o.fields (.inl ((hi a).inCall j _ hw)) ?_ ?_ ?_ rfl b
    · simp [setSocial, mark, setFields]
    · intro b hba
      simp [setSocial, mark, setFields, hba]
    · intro b
      rw [past_append hl]
      simp
  | @socialReturns j q =>
    refine (hi b).same rfl rfl fun k p hk => ?_
    exact ⟨k, p, (slot_after hk).resolve_left (by simp)⟩
  | _ => exact (hi b).same rfl rfl fun j p hj => ⟨j, p, hj⟩

theorem asFound_run (hd : leads.Nodup)
    (h : Reachable (Guarded (Allows (.ownFields ι)) (Fires (step c))) (start c leads fields) s) (a : ι) : AsFound fields a s := by
  refine h.inv_with (fun u => Reachable (Fires (step c)) (start c leads fields) u) (fun u => ∀ b, AsFound fields b u)
    (fun _ hu => hu.of_guarded) (fun b => ?_) (fun u e u' hu hi hs => asFound_step hd hu hi hs.1 hs.2) a
  refine ⟨fun _ => rfl, fun j p hj => ?_, fun hp => ?_⟩
  · cases List.eq_of_mem_replicate (List.mem_of_getElem? hj)
  · simp [start, Past] at hp

/-! ## The accounts -/

/-- The counts of the workers, over the leads of the list; `called` are those that `enrich_one` was called for. -/
structure Accounts (leads : List ι) (fields : ι → BusinessLead) (called : ι → Bool) (s : Stream ι) : Prop where
  needed : ∀ a, called a = true → needsEnrichment (fields a) = true
  all : s.cancelEvent = false → ∀ a, s.Past .enrichEnd a = true → needsEnrichment (fields a) = true → called a = true
  completed : s.counts.enrichmentCompleted = s.behind leads .enrichEnd fun a => called a && (s.fields a).website.isSome
  failed : s.counts.enrichmentFailed = s.behind leads .enrichEnd fun a => called a && !(s.fields a).website.isSome
  social : s.counts.socialCompleted + s.counts.socialFailed = s.behind leads .socialEnd fun a => needsSocial (fields a)
  before : s.counts.selectionBefore =
    s.counts.socialCompleted + s.behind leads .socialEnd fun a => !needsSocial (fields a) && hasSocialUrl (fields a)
  discovered : (s.behind leads .socialEnd fun a => needsSocial (fields a) && hasSocialUrl (s.fields a)) ≤ s.counts.socialCompleted
  kept : s.counts.selectionAfter ≤ s.counts.selectionBefore
  after : s.counts.selectionAfter = s.behind leads .socialEnd fun a => hasSocialUrl (s.fields a)

variable {called : ι → Bool}

/-- A step that counts nothing, marks no end and writes no field. -/
theorem Accounts.same (hi : Accounts leads fields called s) (hn : s'.counts = s.counts) (hf : s'.fields = s.fields)
    (he : ∀ a, s'.Past .enrichEnd a = s.Past .enrichEnd a) (hs : ∀ a, s'.Past .socialEnd a = s.Past .socialEnd a)
    (hc : s'.cancelEvent = false → s.cancelEvent = false) : Accounts leads fields called s' where
  needed := hi.needed
  all h a hp := hi.all (hc h) a ((he a).symm.trans hp)
  completed := by
    rw [hn, hf, behind_same leads he fun _ _ => rfl]
    exact hi.completed
  failed := by
    rw [hn, hf, behind_same leads he fun _ _ => rfl]
    exact hi.failed
  social := by
    rw [hn, behind_same leads hs fun _ _ => rfl]
    exact hi.social
  before := by
    rw [hn, behind_same leads hs fun _ _ => rfl]
    exact hi.before
  discovered := by
    rw [hn, hf, behind_same leads hs fun _ _ => rfl]
    exact hi.discovered
  kept := by
    rw [hn]
    exact hi.kept
  after := by
    rw [hn, hf, behind_same leads hs fun _ _ => rfl]
    exact hi.after

/-- An enrichment worker passes a lead on; `now` says whether `enrich_one` was called for it. -/
theorem Accounts.enrichment_ends (hi : Accounts leads fields called s) (hd : leads.Nodup) (ha : a ∈ leads)
    (hnot : s.Past .enrichEnd a = false) (hsocial : s.Past .socialEnd a = false) (now : Bool)
    (hcalled : now = true → needsEnrichment (fields a) = true)
    (hskip : now = false → needsEnrichment (fields a) = false ∨ s'.cancelEvent = true)
    (hn : s'.counts = if now then countEnriched s.counts (s'.fields a) else s.counts)
    (hf : ∀ b, b ≠ a → s'.fields b = s.fields b) (he : ∀ b, s'.Past .enrichEnd b = (s.Past .enrichEnd b || decide (b = a)))
    (hs : ∀ b, s'.Past .socialEnd b = s.Past .socialEnd b) (hc : s'.cancelEvent = s.cancelEvent) :
    Accounts leads fields (Function.update called a now) s' := by
  have hother : ∀ b, s.Past .socialEnd b = true → s'.fields b = s.fields b := fun b hb =>
    hf b fun hba => by rw [hba, hsocial] at hb; cases hb
  have hcounts : s'.counts =
      { s.counts with
        enrichmentCompleted := s.counts.enrichmentCompleted + if now && (s'.fields a).website.isSome then 1 else 0
        enrichmentFailed := s.counts.enrichmentFailed + if now && !(s'.fields a).website.isSome then 1 else 0 } := by
    rw [hn]
    cases now with
    | false => simp
    | true => simp [countEnriched_spec]
  have hpass := fun (p q : ι → Bool) (hq : ∀ b, b ≠ a → q b = p b) => behind_pass hd ha hnot he hq
  have hkeep := fun (p q : ι → Bool) (hq : ∀ b, s.Past .socialEnd b = true → q b = p b) =>
    behind_same leads hs hq
  constructor
  · intro b hb
    by_cases hba : b = a
    · subst hba
      exact hcalled (by simpa using hb)
    · exact hi.needed b (by simpa [hba] using hb)
  · intro huncancelled b hb hneeds
    by_cases hba : b = a
    · subst hba
      rw [Function.update_self]
      by_contra hnow
      rcases hskip (eq_false_of_ne_true hnow) with hneedless | hcancel
      · exact absurd (hneedless.symm.trans hneeds) nofun
      · exact absurd (hcancel.symm.trans huncancelled) nofun
    · rw [Function.update_of_ne hba]
      refine hi.all (hc ▸ huncancelled) b ?_ hneeds
      simpa [he, hba] using hb
  · rw [hpass (fun b => called b && (s.fields b).website.isSome) _ fun b hb => by rw [hf b hb, Function.update_of_ne hb],
      ← hi.completed, hcounts, Function.update_self]
  · rw [hpass (fun b => called b && !(s.fields b).website.isSome) _ fun b hb => by rw [hf b hb, Function.update_of_ne hb],
      ← hi.failed, hcounts, Function.update_self]
  · rw [hkeep _ _ fun _ _ => rfl, hcounts]
    exact hi.social
  · rw [hkeep _ _ fun _ _ => rfl, hcounts]
    exact hi.before
  · rw [hkeep (fun b => needsSocial (fields b) && hasSocialUrl (s.fields b)) _ fun b hb => by rw [hother b hb], hcounts]
    exact hi.discovered
  · rw [hcounts]
    exact hi.kept
  · rw [hkeep (fun b => hasSocialUrl (s.fields b)) _ fun b hb => by rw [hother b hb], hcounts]
    exact hi.after

/-- A social worker ends its body: it has found `lead`, and leaves what is selected of it. -/
theorem Accounts.social_ends (hi : Accounts leads fields called s) (hd : leads.Nodup) (ha : a ∈ leads)
    (hnot : s.Past .socialEnd a = false) (lead : BusinessLead)
    (hn : s'.counts = countSelected (countDiscovered s.counts (needsSocial (fields a)) lead) (selected c lead))
    (hlead : needsSocial (fields a) = false → hasSocialUrl lead = hasSocialUrl (fields a))
    (hfa : s'.fields a = selected c lead) (hf : ∀ b, b ≠ a → s'.fields b = s.fields b)
    (hw : (s'.fields a).website = (s.fields a).website) (he : ∀ b, s'.Past .enrichEnd b = s.Past .enrichEnd b)
    (hs : ∀ b, s'.Past .socialEnd b = (s.Past .socialEnd b || decide (b = a))) (hc : s'.cancelEvent = s.cancelEvent) :
    Accounts leads fields called s' := by
  have hwebsite : ∀ b, (s'.fields b).website = (s.fields b).website := by
    intro b
    by_cases hb : b = a
    · rw [hb, hw]
    · rw [hf b hb]
  have hpass := fun (p q : ι → Bool) (hq : ∀ b, b ≠ a → q b = p b) => behind_pass hd ha hnot hs hq
  have hkeep := fun (p q : ι → Bool) (hq : ∀ b, s.Past .enrichEnd b = true → q b = p b) =>
    behind_same leads he hq
  rw [countDiscovered_spec, countSelected_spec] at hn
  constructor
  · exact hi.needed
  · intro huncancelled b hb
    exact hi.all (hc ▸ huncancelled) b ((he b).symm.trans hb)
  · rw [hkeep (fun b => called b && (s.fields b).website.isSome) _ fun b _ => by rw [hwebsite b], hn]
    exact hi.completed
  · rw [hkeep (fun b => called b && !(s.fields b).website.isSome) _ fun b _ => by rw [hwebsite b], hn]
    exact hi.failed
  · rw [hpass (fun b => needsSocial (fields b)) _ fun _ _ => rfl, ← hi.social, hn]
    cases needsSocial (fields a) <;> cases hasSocialUrl lead <;> simp <;> omega
  · rw [hpass (fun b => !needsSocial (fields b) && hasSocialUrl (fields b)) _ fun _ _ => rfl, hn]
    have hbefore := hi.before
    cases hneeds : needsSocial (fields a) with
    | false =>
      rw [← hlead hneeds]
      cases hasSocialUrl lead <;> simp <;> omega
    | true => cases hasSocialUrl lead <;> simp <;> omega
  · rw [hpass (fun b => needsSocial (fields b) && hasSocialUrl (s.fields b)) _ fun b hb => by rw [hf b hb], hfa, hn]
    have hdiscovered := hi.discovered
    -- What has a URL behind the selection had one before it.
    cases hsel : hasSocialUrl (selected c lead) with
    | false => simpa using Nat.le_add_right_of_le hdiscovered
    | true => simpa [hasSocialUrl_selected hsel] using hdiscovered
  · rw [hn]
    have hkept := hi.kept
    cases hsel : hasSocialUrl (selected c lead) with
    | false => cases hasSocialUrl lead <;> simp <;> omega
    | true => simpa [hasSocialUrl_selected hsel] using hkept
  · rw [hpass (fun b => hasSocialUrl (s.fields b)) _ fun b hb => by rw [hf b hb], hfa, hn, ← hi.after]

theorem accounts_step (hd : leads.Nodup) (h : Reachable (Fires (step c)) (start c leads fields) s)
    (hfound : ∀ a, AsFound fields a s) (hi : Accounts leads fields called s) {e : StreamAction ι}
    (hb : Allows (.ownFields ι) s e) (hs : s.step c e = some s') : ∃ called', Accounts leads fields called' s' := by
  cases effect_of c hs with
  | @enrichSkips i a q hw hq hn =>
    obtain ⟨ha, hnot⟩ := not_past (a := a) (x := .queued) hd h (by simp [occurrences, hq])
    have hl : ((({ s with toEnrich := q }.mark a .enrichStart).mark a .enrichEnd).setEnricher i (.putting a)).log =
        s.log ++ [Mark.enrichStart, .enrichEnd].map (a, ·) := by
      simp [setEnricher, mark]
    refine ⟨_, hi.enrichment_ends hd ha (hnot _ (by simp [Station.passed])) (hnot _ (by simp [Station.passed])) false
      (fun hf => Bool.noConfusion hf) (fun _ => ?_) rfl (fun _ _ => rfl) ?_ ?_ rfl⟩
    · -- A lead that is not needed, or a cancelled run.
      apply hn.imp_left
      intro hout
      rw [(called_reachable h).needed] at hout
      exact eq_false_of_ne_true fun hneeds => hout (List.mem_filter.2 ⟨ha, hneeds⟩)
    · intro b
      rw [past_append hl]
      simp
    · exact past_still hl (by simp)
  | @enrichEnds i a o counts hw =>
    obtain ⟨ha, hnot⟩ := not_past (a := a) (x := .enriching) hd h (countP_pos_of_slot hw (by simp))
    have hcounts := enrichEnd_counts hw hs
    have hl : ((({ s with counts := counts }.setFields a o.fields).mark a .enrichEnd).setEnricher i (.putting a)).log =
        s.log ++ [Mark.enrichEnd].map (a, ·) := rfl
    refine ⟨_, hi.enrichment_ends hd ha (hnot _ (by simp [Station.passed])) (hnot _ (by simp [Station.passed])) true
      (fun _ => (called_reachable h).needs hw) (fun hf => Bool.noConfusion hf) ?_ ?_ ?_ ?_ rfl⟩
    · rw [hcounts, if_pos rfl]
      simp [setEnricher, mark, setFields]
    · intro b hba
      simp [setEnricher, mark, setFields, hba]
    · intro b
      rw [past_append hl]
      simp
    · exact past_still hl (by simp)
  | @socialSkips j a q counts hw hq hn =>
    obtain ⟨ha, hnot⟩ := not_past (a := a) (x := .queuedSocial) hd h (by simp [occurrences, hq])
    have hl : (((({ s with toSocial := q, counts := counts }.mark a .socialStart).setFields a
        (selected c (s.fields a))).mark a .socialEnd).setSocial j .getting).log =
          s.log ++ [Mark.socialStart, .socialEnd].map (a, ·) := by
      simp [setSocial, mark, setFields]
    have hsame := (hfound a).before (hnot _ (by simp [Station.passed]))
    have hcounts := socialSkip_spec hw hq hn hs
    rw [needsSocial_congr hsame] at hcounts
    refine ⟨_, hi.social_ends hd ha (hnot _ (by simp [Station.passed])) (s.fields a) hcounts
      (fun _ => hasSocialUrl_congr hsame) ?_ ?_ ?_ ?_ ?_ rfl⟩
    · simp [setSocial, mark, setFields]
    · intro b hba
      simp [setSocial, mark, setFields, hba]
    · simp [setSocial, mark, setFields, selected_eq]
    · exact past_still hl (by simp)
    · intro b
      rw [past_append hl]
      simp
  | @socialEnds j a o counts hw =>
    obtain ⟨ha, hnot⟩ := not_past (a := a) (x := .discovering) hd h (countP_pos_of_slot hw (by simp))
    obtain ⟨social, ho⟩ := hb a _ hw
    have hl : ((({ s with counts := counts }.setFields a (selected c o.fields)).mark a .socialEnd).setSocial j .getting).log =
        s.log ++ [Mark.socialEnd].map (a, ·) := rfl
    have hneeds := (hfound a).inCall j _ hw
    have hcounts := socialEnd_counts hw hs
    rw [← hneeds] at hcounts
    refine ⟨_, hi.social_ends hd ha (hnot _ (by simp [Station.passed])) o.fields hcounts
      (fun hneedless => (Bool.false_ne_true (hneedless.symm.trans hneeds)).elim) ?_ ?_ ?_ ?_ ?_ rfl⟩
    · simp [setSocial, mark, setFields]
    · intro b hba
      simp [setSocial, mark, setFields, hba]
    · simp [setSocial, mark, setFields, selected_eq, ho]
    · exact past_still hl (by simp)
    · intro b
      rw [past_append hl]
      simp
  | @enrichBegins i a q =>
    have hl : (({ s with toEnrich := q }.mark a .enrichStart).setEnricher i (.enriching a .running)).log =
        s.log ++ [Mark.enrichStart].map (a, ·) := rfl
    exact ⟨_, hi.same rfl rfl (past_still hl (by simp)) (past_still hl (by simp)) id⟩
  | @socialBegins j a q =>
    have hl : (({ s with toSocial := q }.mark a .socialStart).setSocial j (.discovering a .running)).log =
        s.log ++ [Mark.socialStart].map (a, ·) := rfl
    exact ⟨_, hi.same rfl rfl (past_still hl (by simp)) (past_still hl (by simp)) id⟩
  | cancels => exact ⟨_, hi.same rfl rfl (fun _ => rfl) (fun _ => rfl) fun hf => Bool.noConfusion hf⟩
  | _ => exact ⟨_, hi.same rfl rfl (fun _ => rfl) (fun _ => rfl) id⟩

theorem accounts_run (hd : leads.Nodup)
    (h : Reachable (Guarded (Allows (.ownFields ι)) (Fires (step c))) (start c leads fields) s) :
    ∃ called, Accounts leads fields called s := by
  refine h.inv_with (fun u => Reachable (Guarded (Allows (.ownFields ι)) (Fires (step c))) (start c leads fields) u)
    (fun u => ∃ called, Accounts leads fields called u) (fun _ hu => hu) ?_ ?_
  · refine ⟨fun _ => false, ?_⟩
    constructor <;> simp [start, behind, Past]
  · rintro u e u' hu ⟨called, hi⟩ ⟨hb, hs⟩
    exact accounts_step hd hu.of_guarded (asFound_run hd hu) hi hb hs

theorem past_all (h : Reachable (Fires (step c)) (start c leads fields) s) (hr : s.coordinator = .returned) (a : ι) (ha : a ∈ leads)
    (m : Mark) : s.Past m a = true := by
  apply decide_eq_true
  apply List.count_pos_iff.1
  rw [(tallied_reachable h).delivered (drained_reachable h) hr a m]
  exact List.count_pos_iff.2 ha

/-- Every lead is behind every mark when the coordinator has returned. -/
theorem behind_all (h : Reachable (Fires (step c)) (start c leads fields) s) (hr : s.coordinator = .returned) (m : Mark)
    (p : ι → Bool) : s.behind leads m p = leads.countP p := by
  apply List.countP_congr
  intro a ha
  rw [past_all h hr a ha m, Bool.true_and]

/-- The reports of a run, over the leads as they were found and as they are now. -/
structure Tallies (leads : List ι) (found now : ι → BusinessLead) (called : ι → Bool) (complete : Bool) (r : Reports) : Prop where
  needed : ∀ a ∈ leads, called a = true → needsEnrichment (found a) = true
  all : complete = true → ∀ a ∈ leads, needsEnrichment (found a) = true → called a = true
  enrichment : r.enrichment = .over leads called fun a => (now a).website.isSome
  social : r.social.completed + r.social.failed = leads.countP fun a => needsSocial (found a)
  discovered : r.social.completed + (leads.countP fun a => !needsSocial (found a) && hasSocialUrl (found a)) =
    r.selection.completed + r.selection.failed
  kept : (leads.countP fun a => needsSocial (found a) && hasSocialUrl (now a)) ≤ r.social.completed
  selection : r.selection.completed = leads.countP fun a => hasSocialUrl (now a)
  /-- The social stages fail for a lead that has no URL at the end, if it needed one or had come with one. -/
  failed : r.social.failed + r.selection.failed =
    leads.countP fun a => (needsSocial (found a) || hasSocialUrl (found a)) && !hasSocialUrl (now a)

omit [DecidableEq ι] in
/-- It does not matter what is not in the list. -/
theorem Tallies.congr {found found' now : ι → BusinessLead} {complete : Bool} {r : Reports}
    (h : Tallies leads found now called complete r) (hf : ∀ a ∈ leads, found a = found' a) : Tallies leads found' now called complete r where
  needed a ha hc := by
    rw [← hf a ha]
    exact h.needed a ha hc
  all hc a ha hn := h.all hc a ha (by rwa [hf a ha])
  enrichment := h.enrichment
  social := h.social.trans (List.countP_congr fun a ha => by rw [hf a ha])
  discovered := by
    rw [← h.discovered]
    exact congrArg _ (List.countP_congr fun a ha => by rw [hf a ha])
  kept := by
    refine Eq.trans_le (List.countP_congr fun a ha => ?_) h.kept
    rw [hf a ha]
  selection := h.selection
  failed := h.failed.trans (List.countP_congr fun a ha => by rw [hf a ha])

theorem tallies_returned (hd : leads.Nodup)
    (h : Reachable (Guarded (Allows (.ownFields ι)) (Fires (step c))) (start c leads fields) s) (hr : s.coordinator = .returned) :
    ∃ r called, s.reports = some r ∧ Tallies leads fields s.fields called (!s.cancelEvent) r := by
  obtain ⟨called, hi⟩ := accounts_run hd h
  have hall := behind_all h.of_guarded hr
  have hpast := past_all h.of_guarded hr
  have hsocial := hi.social
  have hbefore := hi.before
  have hafter := hi.after
  have hkept := hi.kept
  have hdiscovered := hi.discovered
  rw [hall] at hsocial hbefore hafter hdiscovered
  refine ⟨_, called, reported_run h.of_guarded hr, fun a _ => hi.needed a, fun hc a ha => ?_, ?_, hsocial, ?_, hdiscovered,
    hafter, ?_⟩
  · exact hi.all (by simpa using hc) a (hpast a ha .enrichEnd)
  · show (⟨s.counts.enrichmentCompleted, s.counts.enrichmentFailed⟩ : StageReport) = _
    rw [hi.completed, hi.failed, hall, hall]
    rfl
  · show s.counts.socialCompleted + _ = s.counts.selectionAfter + (s.counts.selectionBefore - s.counts.selectionAfter)
    omega
  · show s.counts.socialFailed + (s.counts.selectionBefore - s.counts.selectionAfter) = _
    -- A lead with a URL at the end is one of those that are counted.
    have hcounted := countP_split leads (fun a => needsSocial (fields a) || hasSocialUrl (fields a)) fun a => needsSocial (fields a)
    have hended := countP_split leads (fun a => needsSocial (fields a) || hasSocialUrl (fields a)) fun a => hasSocialUrl (s.fields a)
    have hneeds : (leads.countP fun a => (needsSocial (fields a) || hasSocialUrl (fields a)) && needsSocial (fields a)) =
        leads.countP fun a => needsSocial (fields a) := by
      refine List.countP_congr fun a _ => ?_
      cases needsSocial (fields a) <;> simp
    have hhad : (leads.countP fun a => (needsSocial (fields a) || hasSocialUrl (fields a)) && !needsSocial (fields a)) =
        leads.countP fun a => !needsSocial (fields a) && hasSocialUrl (fields a) := by
      refine List.countP_congr fun a _ => ?_
      cases needsSocial (fields a) <;> simp
    have hurl : (leads.countP fun a => (needsSocial (fields a) || hasSocialUrl (fields a)) && hasSocialUrl (s.fields a)) =
        leads.countP fun a => hasSocialUrl (s.fields a) := by
      refine List.countP_congr fun a ha => ?_
      cases hu : hasSocialUrl (s.fields a) with
      | false => rw [Bool.and_false]
      | true => rw [(asFound_run hd h a).after (hpast a ha .socialEnd) hu, Bool.and_true]
    omega

/-- At the end of any run, a cancelled one as well, the reports account for the leads: the last stage reports exactly the
returned leads with a social URL, no stage reports more than the leads it had to do with, and without a cancellation
the first one reports exactly the leads that needed a website, by whether they have one. -/
theorem reports_account (c : PipelineConfig) (leads : List ι) (hd : leads.Nodup) (fields : ι → BusinessLead) (s : Stream ι)
    (h : Reachable (Guarded (Allows (.ownFields ι)) (Fires (step c))) (start c leads fields) s) (hr : s.coordinator = .returned) :
    ∃ r, s.reports = some r ∧
      r.selection.completed = (leads.countP fun a => hasSocialUrl (s.fields a)) ∧
      r.social.completed ≤ r.selection.completed + r.selection.failed ∧
      r.selection.completed + r.selection.failed ≤ leads.length ∧
      r.social.completed + r.social.failed ≤ leads.length ∧
      r.enrichment.completed + r.enrichment.failed ≤ (leads.countP fun a => needsEnrichment (fields a)) ∧
      (s.cancelEvent = false →
        r.enrichment = .over leads (fun a => needsEnrichment (fields a)) fun a => (s.fields a).website.isSome) := by
  obtain ⟨r, called, hreports, ht⟩ := tallies_returned hd h hr
  have hsocial : r.social.completed + r.social.failed ≤ leads.length := ht.social.trans_le List.countP_le_length
  have hdiscovered := ht.discovered
  have hselection : r.selection.completed + r.selection.failed ≤ leads.length := by
    have hneeds := ht.social
    have hrest : (leads.countP fun a => !needsSocial (fields a) && hasSocialUrl (fields a)) ≤
        leads.countP fun a => !needsSocial (fields a) :=
      List.countP_mono_left fun a _ ha => (Bool.and_eq_true_iff.1 ha).1
    have htotal := leads.length_eq_countP_add_countP fun a => needsSocial (fields a)
    simp only [Bool.not_eq_true, Bool.decide_eq_false] at htotal
    omega
  refine ⟨r, hreports, ht.selection, by omega, hselection, hsocial, ?_, fun huncancelled => ?_⟩
  · rw [ht.enrichment, over_total]
    exact List.countP_mono_left ht.needed
  · rw [ht.enrichment]
    have hcomplete : (!s.cancelEvent) = true := by rw [huncancelled, Bool.not_false]
    exact over_congr (fun a ha => Bool.eq_iff_iff.2 ⟨ht.needed a ha, ht.all hcomplete a ha⟩) fun _ _ => rfl

theorem reports_account_crossed :
    ∃ s r, exec (guarded (conforms instagramOracle) (step twoPipeline)) (start twoPipeline [7, 8] fun _ => mapsLead) crossedRun =
        some s ∧ s.reports = some r ∧ r.selection.completed = 2 ∧ r.enrichment = ⟨0, 2⟩ := by
  obtain ⟨s, hs, hr, hurls, hsites, hc⟩ := exec_ends (f := guarded (conforms instagramOracle) (step twoPipeline))
    (Q := fun s : Stream ℕ => s.coordinator = .returned ∧ (∀ a ∈ ([7, 8] : List ℕ), hasSocialUrl (s.fields a) = true) ∧
      (∀ a ∈ ([7, 8] : List ℕ), (s.fields a).website = none) ∧ s.cancelEvent = false)
    (s := start twoPipeline [7, 8] fun _ => mapsLead) crossedRun (by decide +kernel)
  have hown := (reachable_guarded _ hs).mono fun _ _ _ hg =>
    (⟨allows_own (fun _ l => ⟨l.website, rfl⟩) (fun _ _ => ⟨_, rfl⟩) (allows_of_conforms hg.1), hg.2⟩ :
      Guarded (Allows (.ownFields ℕ)) (Fires (step twoPipeline)) _ _ _)
  obtain ⟨r, hreports, hselection, -, -, -, -, henrichment⟩ :=
    reports_account twoPipeline [7, 8] (by decide) (fun _ => mapsLead) s hown hr
  refine ⟨s, r, hs, hreports, ?_, ?_⟩
  · rw [hselection]
    exact List.countP_eq_length.2 hurls
  · rw [henrichment hc]
    have h7 := hsites 7 (by decide)
    have h8 := hsites 8 (by decide)
    simp [StageReport.over, needsEnrichment, mapsLead, truthy, h7, h8]

end SocialScraper.Stream
