import SocialScraper.Pipeline.Cancellation
import SocialScraper.Social.DiscoverOne
import SocialScraper.Social.NormalizeTwice
/-!
# URL and confidence stay paired

Whatever the call awaits does, the two fields of a platform are either as they
were or have both been found since (`FoundSince`), and only a platform without
a URL is searched for (`Discovering`). `url_confidence_paired` is the result,
with the selection step behind.
-/
open Lib

namespace SocialScraper

/-- The fields of a platform are as they were, or there was no URL and now there is one with its tier. -/
def FoundSince (before now : Option Str × Option Str) : Prop :=
  now = before ∨ before.1 = none ∧
    ∃ url, ∃ tier ∈ [Confidence.high, .medium, .low], now = (some url, some tier.value)

/-- A confidence stands only beside a URL. -/
def Paired (fields : Option Str × Option Str) : Prop := fields.2 ≠ none → fields.1 ≠ none

theorem FoundSince.paired {before now : Option Str × Option Str} (h : FoundSince before now) (hb : Paired before) :
    Paired now := by
  rcases h with rfl | ⟨-, url, tier, -, rfl⟩
  · exact hb
  · intro _ hnone
    cases hnone

theorem FoundSince.kept {before now : Option Str × Option Str} (h : FoundSince before now) {u : Str}
    (hu : before.1 = some u) : now = before := by
  rcases h with h | ⟨hnone, -⟩
  · exact h
  · rw [hnone] at hu
    cases hu

/-- A phase with a write still ahead. -/
def DiscoverPhase.writes : DiscoverPhase → Bool
  | .fetching | .recordingFetch _ | .recordingWebsite | .searching => true
  | _ => false

/-- A phase behind the last write, before the selection. -/
def DiscoverPhase.idle : DiscoverPhase → Bool
  | .recordingFallback | .finishing | .returned | .raised | .cancelled => true
  | _ => false

namespace DiscoverCall

variable {c : DiscoverConfig} {social : SocialLead} {s s' : DiscoverCall}

/-- In the middle of the discovery of a lead that started with the given fields. -/
structure Discovering (social : SocialLead) (s : DiscoverCall) : Prop where
  slots : ∀ p, FoundSince (social.slot p) (s.lead.social.slot p)
  needs : ∀ p, s.needs p = true → s.lead.social.slot p = social.slot p ∧ (social.slot p).1 = none

/-- What holds of a call from its first await on. -/
structure Inv (c : DiscoverConfig) (social : SocialLead) (s : DiscoverCall) : Prop where
  starting : s.phase = .starting → s.lead.social = social
  needs : s.phase.writes = true → Discovering social s
  slots : s.phase ≠ .selected → ∀ p, FoundSince (social.slot p) (s.lead.social.slot p)
  selected : s.phase = .selected →
    ∃ found : SocialLead, (∀ p, FoundSince (social.slot p) (found.slot p)) ∧ s.lead.social = reselect c.lib found

theorem Inv.of_writes (hd : Discovering social s) (hp : s.phase.writes = true) : Inv c social s where
  starting h := by simp [h, DiscoverPhase.writes] at hp
  needs _ := hd
  slots _ := hd.slots
  selected h := by simp [h, DiscoverPhase.writes] at hp

theorem Inv.of_idle (hd : ∀ p, FoundSince (social.slot p) (s.lead.social.slot p))
    (hp : s.phase.idle = true) : Inv c social s where
  starting h := by simp [h, DiscoverPhase.idle] at hp
  needs h := by cases hs : s.phase <;> simp [hs, DiscoverPhase.idle, DiscoverPhase.writes] at hp h
  slots _ := hd
  selected h := by simp [h, DiscoverPhase.idle] at hp

/-! ## The writes -/

theorem foundOnWebsite_discovering (hd : Discovering social s) {p : Platform} (hp : s.needs p = true) (url : Str)
    {tier : Confidence} (ht : tier ∈ [Confidence.high, .medium, .low]) :
    Discovering social (s.foundOnWebsite p url tier) where
  slots q := by
    by_cases hq : q = p
    · subst hq
      exact .inr ⟨(hd.needs q hp).2, url, tier, ht, SocialLead.slot_found _ _ _ _⟩
    · have hslot : (s.foundOnWebsite p url tier).lead.social.slot q = s.lead.social.slot q :=
        SocialLead.slot_found_of_ne _ _ _ hq
      rw [hslot]
      exact hd.slots q
  needs q hn := by
    have hq : q ≠ p := by
      rintro rfl
      simp [foundOnWebsite] at hn
    have hslot : (s.foundOnWebsite p url tier).lead.social.slot q = s.lead.social.slot q :=
      SocialLead.slot_found_of_ne _ _ _ hq
    rw [hslot]
    exact hd.needs q (by simpa [foundOnWebsite, hq] using hn)

theorem websiteAsPlatform_discovering (hd : Discovering social s) : Discovering social (s.websiteAsPlatform c) := by
  unfold websiteAsPlatform
  split
  · exact hd
  · exact hd
  · split
    · exact hd
    · rename_i p _
      have hd' : Discovering social { s with websiteIsSocialPlatform := true } := ⟨hd.slots, hd.needs⟩
      dsimp only
      split_ifs with hp
      · split
        · exact hd'
        · exact foundOnWebsite_discovering hd' hp _ (List.mem_cons_self ..)
      · exact hd'

theorem matchCandidate_discovering (hd : Discovering social s) (candidates : List LinkCandidate) (p : Platform) :
    Discovering social (s.matchCandidate c candidates p) := by
  unfold matchCandidate
  split_ifs with hp
  · split
    · exact hd
    · apply foundOnWebsite_discovering hd hp _
      split_ifs <;> simp
  · exact hd

/-- What the search found is written to a platform that is still as it was. -/
theorem takeFallback_slots (hd : ∀ q, FoundSince (social.slot q) (s.lead.social.slot q)) {p : Platform}
    (hp : s.needs p = true → (social.slot p).1 = none) (results : Platform → FallbackResult) (q : Platform) :
    FoundSince (social.slot q) ((s.takeFallback results p).lead.social.slot q) := by
  unfold takeFallback
  split_ifs with hneeds
  · split
    · exact hd q
    · exact hd q
    · exact hd q
    · rename_i url isCanonical _ _
      by_cases hq : q = p
      · subst hq
        refine .inr ⟨hp hneeds, url, if isCanonical then .medium else .low, ?_, SocialLead.slot_found _ _ _ _⟩
        split_ifs <;> simp
      · dsimp only
        rw [SocialLead.slot_found_of_ne _ _ _ hq]
        exact hd q
  · exact hd q

/-! ## Up to the next await -/

theorem finish_inv (hd : ∀ q, FoundSince (social.slot q) (s.lead.social.slot q)) : Inv c social (s.finish c) := by
  unfold finish
  split_ifs
  · exact .of_idle hd rfl
  · exact .of_idle hd rfl

theorem search_inv (hd : Discovering social s) : Inv c social (s.search c) := by
  unfold search
  split_ifs
  · exact .of_writes ⟨hd.slots, hd.needs⟩ rfl
  · exact finish_inv hd.slots

theorem matchAll_inv (hd : Discovering social s) (candidates : List LinkCandidate) :
    Inv c social (s.matchAll c candidates) := by
  have hboth := matchCandidate_discovering (c := c)
    (matchCandidate_discovering (c := c) hd candidates .instagram) candidates .facebook
  unfold matchAll
  dsimp only
  split_ifs
  · exact .of_writes ⟨hboth.slots, hboth.needs⟩ rfl
  · exact search_inv hboth

theorem begin_inv (h : s.lead.social = social) : Inv c social (s.begin c) := by
  have hopen : Discovering social { s with needs := fun p => (s.lead.social.slot p).1.isNone } := by
    constructor
    · intro p
      exact .inl (by rw [← h])
    · intro p hp
      rw [← h]
      exact ⟨rfl, Option.isNone_iff_eq_none.1 hp⟩
  have hd := websiteAsPlatform_discovering (c := c) hopen
  unfold begin
  dsimp only
  split_ifs
  · exact .of_writes ⟨hd.slots, hd.needs⟩ rfl
  · exact matchAll_inv hd []

theorem readHtml_inv (hd : Discovering social s) (html : Option Str) : Inv c social (s.readHtml c html) := by
  unfold readHtml
  split
  · exact matchAll_inv hd []
  · exact matchAll_inv hd []
  · split
    · exact .of_idle hd.slots rfl
    · exact matchAll_inv hd _

theorem takeResults_inv (hd : Discovering social s) (results : Platform → FallbackResult) :
    Inv c social (s.takeResults c results) := by
  have hneeds : (s.takeFallback results .instagram).needs = s.needs := by
    unfold takeFallback
    split_ifs
    · split <;> rfl
    · rfl
  have hfirst := takeFallback_slots hd.slots (fun hp => (hd.needs .instagram hp).2) results
  have hboth := takeFallback_slots hfirst (p := .facebook) (fun hp => (hd.needs .facebook (hneeds ▸ hp)).2) results
  unfold takeResults
  dsimp only
  split_ifs
  · exact .of_idle hboth rfl
  · exact finish_inv hboth

/-! ## Runs -/

theorem start_inv (c : DiscoverConfig) (lead : BusinessLead) : Inv c lead.social (start c lead) := by
  unfold start
  split_ifs
  · exact { starting := fun _ => rfl, needs := nofun, slots := fun _ _ => .inl rfl, selected := nofun }
  · exact begin_inv rfl

theorem step_inv (hi : Inv c social s) {a : DiscoverAction} (h : s.step c a = some s') : Inv c social s' := by
  cases a with
  | recorded =>
    cases hp : s.phase <;> simp only [step, hp, reduceCtorEq, Option.some.injEq] at h <;> subst h
    · exact begin_inv (hi.starting hp)
    · exact readHtml_inv (hi.needs (by rw [hp]; rfl)) _
    · exact search_inv (hi.needs (by rw [hp]; rfl))
    · exact finish_inv (hi.slots (by simp [hp]))
    · exact .of_idle (hi.slots (by simp [hp])) rfl
  | fetched html =>
    simp only [step] at h
    split_ifs at h with hp hm
    all_goals
      obtain rfl := Option.some.inj h
      have hd := hi.needs (by rw [hp]; rfl)
    · exact .of_writes ⟨hd.slots, hd.needs⟩ rfl
    · exact readHtml_inv hd html
  | found results =>
    simp only [step] at h
    split_ifs at h with hp
    obtain rfl := Option.some.inj h
    exact takeResults_inv (hi.needs (by rw [hp]; rfl)) results
  | raises =>
    simp only [step] at h
    split_ifs at h with hp
    obtain rfl := Option.some.inj h
    refine .of_idle (hi.slots ?_) rfl
    intro hs
    simp [awaits, hs] at hp
  | cancel =>
    simp only [step] at h
    split_ifs at h with hp
    obtain rfl := Option.some.inj h
    refine .of_idle (hi.slots ?_) rfl
    intro hs
    simp [awaits, hs] at hp
  | select =>
    simp only [step] at h
    split_ifs at h with hp
    rw [selectLead_eq] at h
    obtain rfl := Option.some.inj h
    have hslots := hi.slots (by rcases hp with hp | hp <;> simp [hp])
    exact { starting := nofun, needs := nofun, slots := fun hn => absurd rfl hn, selected := fun _ => ⟨_, hslots, rfl⟩ }

theorem inv_reachable (c : DiscoverConfig) (lead : BusinessLead) {s : DiscoverCall}
    (h : Reachable (Fires (step c)) (start c lead) s) : Inv c lead.social s :=
  h.inv (Inv c lead.social) (start_inv c lead) fun _ _ _ hi hs => step_inv hi hs

/-! ## The selection step -/

/-- The fields of a platform after the selection step. -/
theorem slot_reselect (lib : Stdlib) (social : SocialLead) (p : Platform) :
    (reselect lib social).slot p =
      if truthy social.instagramUrl || truthy social.facebookUrl then
        (keptUrl lib (social.slot p).1, if (keptUrl lib (social.slot p).1).isSome then (social.slot p).2 else none)
      else social.slot p := by
  unfold reselect
  by_cases h : (truthy social.instagramUrl || truthy social.facebookUrl) = true
  · rw [if_pos h, if_pos h]
    cases p <;> rfl
  · rw [if_neg h, if_neg h]

/-- What was a URL with its tier is its normal form with that tier, or nothing. -/
theorem slot_reselect_cases (uc : Unicode) {social : SocialLead} {p : Platform} {u : Str} (hu : (social.slot p).1 = some u) :
    (∃ n, normalizeSocialUrl (cpython uc) u = some n ∧
      (reselect (cpython uc) social).slot p = (some n, (social.slot p).2)) ∨
    (reselect (cpython uc) social).slot p = (none, none) := by
  rw [slot_reselect]
  by_cases hany : (truthy social.instagramUrl || truthy social.facebookUrl) = true
  · rw [if_pos hany]
    cases hk : keptUrl (cpython uc) (social.slot p).1 with
    | none => exact .inr rfl
    | some n =>
      rw [hu] at hk
      unfold keptUrl at hk
      split at hk
      · cases hk
      · cases hk
      · rename_i u' _ hu'
        obtain rfl := Option.some.inj hu'
        exact .inl ⟨n, (Option.filter_eq_some_iff.1 hk).1, rfl⟩
  · -- Without any URL the selection is skipped, so this one is empty.
    rw [if_neg hany]
    left
    have hempty : u = [] := by
      have hfalse : truthy (social.slot p).1 = false := by
        simp only [Bool.or_eq_true, not_or, Bool.not_eq_true] at hany
        cases p
        · exact hany.1
        · exact hany.2
      rw [hu] at hfalse
      simpa [truthy] using hfalse
    subst hempty
    exact ⟨[], normalizeSocialUrl_nil, Prod.ext hu rfl⟩

theorem slot_reselect_none {lib : Stdlib} {social : SocialLead} {p : Platform} (h : social.slot p = (none, none)) :
    (reselect lib social).slot p = (none, none) := by
  rw [slot_reselect, h]
  split_ifs <;> rfl

/-- At every await, at every exit and behind the selection step the fields of a platform are paired; a URL found is
tiered, and a URL the lead came with keeps its tier and ends as its normal form or not at all. -/
theorem url_confidence_paired (uc : Unicode) (c : DiscoverConfig) (hlib : c.lib = cpython uc) (lead : BusinessLead)
    (hlead : ∀ p, Paired (lead.social.slot p)) (s : DiscoverCall) (h : Reachable (Fires (step c)) (start c lead) s)
    (p : Platform) :
    Paired (s.lead.social.slot p) ∧
    (∀ u, (lead.social.slot p).1 = some u → s.phase ≠ .selected → s.lead.social.slot p = lead.social.slot p) ∧
    (s.phase = .selected →
      ((lead.social.slot p).1 = none → (s.lead.social.slot p).1 ≠ none →
        ∃ tier ∈ [Confidence.high, .medium, .low], (s.lead.social.slot p).2 = some tier.value) ∧
      ∀ u, (lead.social.slot p).1 = some u →
        (∃ n, normalizeSocialUrl c.lib u = some n ∧ s.lead.social.slot p = (some n, (lead.social.slot p).2)) ∨
        s.lead.social.slot p = (none, none)) := by
  have hi := inv_reachable c lead h
  by_cases hs : s.phase = .selected
  · obtain ⟨found, hfound, hsocial⟩ := hi.selected hs
    rw [hsocial, hlib]
    have hnone : (found.slot p).1 = none → (reselect (cpython uc) found).slot p = (none, none) := by
      intro hu
      apply slot_reselect_none
      have hk : (found.slot p).2 = none := by
        by_contra hk
        exact (hfound p).paired (hlead p) hk hu
      exact Prod.ext hu hk
    refine ⟨?_, fun u _ hn => absurd hs hn, fun _ => ⟨?_, ?_⟩⟩
    · cases hu : (found.slot p).1 with
      | none =>
        rw [hnone hu]
        exact fun hk => absurd rfl hk
      | some u =>
        rcases slot_reselect_cases uc hu with ⟨n, -, hslot⟩ | hslot
        · rw [hslot]
          exact fun _ hn => by cases hn
        · rw [hslot]
          exact fun hk => absurd rfl hk
    · intro hbefore hafter
      cases hu : (found.slot p).1 with
      | none =>
        rw [hnone hu] at hafter
        exact absurd rfl hafter
      | some u =>
        rcases hfound p with hsame | ⟨-, url, tier, ht, hslot⟩
        · rw [← hsame, hu] at hbefore
          cases hbefore
        · rcases slot_reselect_cases uc hu with ⟨n, -, hkept⟩ | hdropped
          · exact ⟨tier, ht, by rw [hkept, hslot]⟩
          · rw [hdropped] at hafter
            exact absurd rfl hafter
    · intro u hu
      have hkept := (hfound p).kept hu
      rw [← hkept] at hu ⊢
      exact slot_reselect_cases _ hu
  · have hslots := hi.slots hs p
    exact ⟨hslots.paired (hlead p), fun u hu _ => hslots.kept hu, fun h => absurd h hs⟩

/-- A lead with a Facebook URL, and a homepage with an Instagram link. -/
def cafeLead : BusinessLead where
  businessName := "Cafe".toList
  website := some "https://cafe.test".toList
  social := { facebookUrl := some "http://m.facebook.com/cafe/".toList, facebookConfidence := some "low".toList }

def cafeDiscovery : DiscoverConfig where
  lib := cpython .ascii
  settings := .defaults
  metrics := false
  extract _ := some [⟨"//instagram.com/cafe?igsh=1".toList, "instagram".toList, "footer".toList⟩]

theorem url_confidence_paired_cafe : ∃ s, exec (step cafeDiscovery) (start cafeDiscovery cafeLead)
    [.fetched (some "<html>".toList), .select] = some s ∧ s.phase = .selected ∧
    ∀ p, Paired (s.lead.social.slot p) := by
  obtain ⟨s, hs, hp⟩ := exec_ends (f := step cafeDiscovery) (Q := fun s => s.phase = .selected)
    (s := start cafeDiscovery cafeLead) [.fetched (some "<html>".toList), .select] (by decide +kernel)
  refine ⟨s, hs, hp, fun p => ?_⟩
  have hlead : ∀ p, Paired (cafeLead.social.slot p) := by
    intro p
    cases p
    · exact fun h => absurd rfl h
    · exact fun _ h => by cases h
  exact (url_confidence_paired .ascii cafeDiscovery rfl cafeLead hlead s (reachable_of_exec _ hs) p).1

/-! ## Nothing else is written -/

/-- The lead of the second call is that of the first, but for its social fields. -/
def Writes (s s' : DiscoverCall) : Prop := ∃ social, s'.lead = { s.lead with social := social }

theorem Writes.same {s s' : DiscoverCall} (h : s'.lead = s.lead) : Writes s s' := ⟨s.lead.social, h⟩

theorem Writes.trans {s t u : DiscoverCall} (h : Writes s t) (h' : Writes t u) : Writes s u := by
  obtain ⟨a, ha⟩ := h
  obtain ⟨b, hb⟩ := h'
  exact ⟨b, by rw [hb, ha]⟩

theorem websiteAsPlatform_writes (s : DiscoverCall) : Writes s (s.websiteAsPlatform c) := by
  unfold websiteAsPlatform
  split
  · exact .same rfl
  · exact .same rfl
  · split
    · exact .same rfl
    · dsimp only
      split_ifs
      · split
        · exact .same rfl
        · exact ⟨_, rfl⟩
      · exact .same rfl

theorem matchCandidate_writes (candidates : List LinkCandidate) (s : DiscoverCall) (p : Platform) :
    Writes s (s.matchCandidate c candidates p) := by
  unfold matchCandidate
  split_ifs
  · split
    · exact .same rfl
    · exact ⟨_, rfl⟩
  · exact .same rfl

theorem takeFallback_writes (results : Platform → FallbackResult) (s : DiscoverCall) (p : Platform) :
    Writes s (s.takeFallback results p) := by
  unfold takeFallback
  split_ifs
  · split
    · exact .same rfl
    · exact .same rfl
    · exact .same rfl
    · exact ⟨_, rfl⟩
  · exact .same rfl

theorem search_lead (s : DiscoverCall) : (s.search c).lead = s.lead := by
  unfold search finish
  split_ifs <;> rfl

theorem matchAll_writes (s : DiscoverCall) (candidates : List LinkCandidate) : Writes s (s.matchAll c candidates) := by
  refine (matchCandidate_writes (c := c) candidates s .instagram).trans
    ((matchCandidate_writes (c := c) candidates _ .facebook).trans (.same ?_))
  unfold matchAll
  dsimp only
  split_ifs
  · rfl
  · exact search_lead _

theorem readHtml_writes (s : DiscoverCall) (html : Option Str) : Writes s (s.readHtml c html) := by
  unfold readHtml
  split
  · exact matchAll_writes s []
  · exact matchAll_writes s []
  · split
    · exact .same rfl
    · exact matchAll_writes s _

theorem begin_writes (s : DiscoverCall) : Writes s (s.begin c) := by
  have hwebsite := websiteAsPlatform_writes (c := c) { s with needs := fun p => (s.lead.social.slot p).1.isNone }
  unfold begin
  dsimp only
  split_ifs
  · exact hwebsite
  · exact hwebsite.trans (matchAll_writes _ [])

theorem step_writes {a : DiscoverAction} (h : s.step c a = some s') : Writes s s' := by
  cases a with
  | recorded =>
    cases hp : s.phase <;> simp only [step, hp, reduceCtorEq, Option.some.injEq] at h <;> subst h
    · exact begin_writes s
    · exact readHtml_writes s _
    · exact .same (search_lead s)
    · exact .same rfl
    · exact .same rfl
  | fetched html =>
    simp only [step] at h
    split_ifs at h
    all_goals obtain rfl := Option.some.inj h
    · exact .same rfl
    · exact readHtml_writes s html
  | found results =>
    simp only [step] at h
    split_ifs at h
    obtain rfl := Option.some.inj h
    refine (takeFallback_writes results s .instagram).trans ((takeFallback_writes results _ .facebook).trans (.same ?_))
    unfold takeResults finish
    dsimp only
    split_ifs <;> rfl
  | raises =>
    simp only [step] at h
    split_ifs at h
    exact .same (Option.some.inj h ▸ rfl)
  | cancel =>
    simp only [step] at h
    split_ifs at h
    exact .same (Option.some.inj h ▸ rfl)
  | select =>
    simp only [step] at h
    split_ifs at h
    rw [selectLead_eq] at h
    exact ⟨_, (congrArg DiscoverCall.lead (Option.some.inj h)).symm⟩

/-- A call writes what the pipeline's model lets it write, wherever it stops. -/
theorem discovers_own {ι : Type} (c : DiscoverConfig) (a : ι) (lead : BusinessLead) {s : DiscoverCall}
    (h : Reachable (Fires (step c)) (start c lead) s) : (Behaviour.ownFields ι).discovers a lead s.lead := by
  refine h.inv (fun s => Writes { lead := lead } s) ?_ fun _ _ _ hi hs => hi.trans (step_writes hs)
  unfold start
  split_ifs
  · exact .same rfl
  · exact begin_writes _

end DiscoverCall

end SocialScraper
