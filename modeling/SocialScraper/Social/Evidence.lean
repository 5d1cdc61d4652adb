import SocialScraper.Social.DiscoverOne
/-!
# Which evidence is stored

What the website, the homepage and the search say about a platform is an
`Evidence`. The call goes through them in this order and keeps the first
(`Settled`), and it asks the network only for what is still missing
(`evidence_precedence`).
-/
open Lib

namespace SocialScraper

/-! ## Evidence -/

/-- A URL and its tier, for each platform that there is one for. -/
abbrev Evidence := Platform → Option (Str × Confidence)

/-- The evidence of the first, and of the second where the first has none. -/
def Evidence.orElse (e e' : Evidence) : Evidence := fun p => (e p).or (e' p)

/-- The website is itself the profile. -/
def websiteEvidence (lib : Stdlib) (lead : BusinessLead) : Evidence := fun p =>
  match lead.website with
  | none | some [] => none
  | some website =>
    if classifyPlatform website = some p then (normalizeSocialUrl lib website).map fun url => (url, .high) else none

def candidateTier (lib : Stdlib) (url : Str) (p : Platform) : Confidence :=
  if DiscoverCall.isCanonicalSocialUrl lib url p then .high else .medium

/-- The first candidate of the platform. -/
def homepageEvidence (lib : Stdlib) (candidates : List LinkCandidate) : Evidence := fun p =>
  (candidates.find? fun candidate => candidate.platform = p.name).map fun candidate =>
    (candidate.url, candidateTier lib candidate.url p)

/-- The URL that the search has found. -/
def searchEvidence (results : Platform → FallbackResult) : Evidence := fun p =>
  match results p with
  | none | some (none, _) | some (some [], _) => none
  | some (some url, isCanonical) => some (url, if isCanonical then .medium else .low)

/-- The fields of a platform once the evidence is in: a URL that was there stays. -/
def settle (fields : Option Str × Option Str) : Option (Str × Confidence) → Option Str × Option Str
  | none => fields
  | some (url, tier) => if fields.1 = none then (some url, some tier.value) else fields

namespace DiscoverCall

variable {c : DiscoverConfig} {lead : BusinessLead} {e : Evidence} {s : DiscoverCall}

/-- The evidence is in, and what is needed is what it leaves missing. -/
structure Settled (lead : BusinessLead) (e : Evidence) (s : DiscoverCall) : Prop where
  slots : ∀ p, s.lead.social.slot p = settle (lead.social.slot p) (e p)
  needs : ∀ p, s.needs p = ((lead.social.slot p).1.isNone && (e p).isNone)
  website : s.lead.website = lead.website

/-- A platform that is needed gets its evidence. -/
theorem Settled.found (hs : Settled lead e s) {p : Platform} (hp : s.needs p = true) (url : Str) (tier : Confidence) :
    Settled lead (Function.update e p (some (url, tier))) (s.foundOnWebsite p url tier) where
  slots q := by
    by_cases hq : q = p
    · subst hq
      have hnone : (lead.social.slot q).1 = none := by
        rw [hs.needs, Bool.and_eq_true, Option.isNone_iff_eq_none] at hp
        exact hp.1
      rw [Function.update_self, settle, if_pos hnone]
      exact SocialLead.slot_found _ _ _ _
    · rw [Function.update_of_ne hq, ← hs.slots q]
      exact SocialLead.slot_found_of_ne _ _ _ hq
  needs q := by
    by_cases hq : q = p
    · subst hq
      simp [foundOnWebsite]
    · rw [Function.update_of_ne hq, ← hs.needs q]
      exact Function.update_of_ne hq _ _
  website := hs.website

/-- Evidence for a platform that is not needed changes nothing. -/
theorem Settled.congr (hs : Settled lead e s) {e' : Evidence}
    (h : ∀ p, (lead.social.slot p).1 = none → e' p = e p) : Settled lead e' s where
  slots p := by
    rw [hs.slots p]
    cases hp : (lead.social.slot p).1 with
    | none => rw [h p hp]
    | some u =>
      have hkept : ∀ o : Option (Str × Confidence), settle (lead.social.slot p) o = lead.social.slot p := by
        intro o
        cases o with
        | none => rfl
        | some ev => rw [settle, if_neg (by rw [hp]; nofun)]
      rw [hkept, hkept]
  needs p := by
    rw [hs.needs p]
    cases hp : (lead.social.slot p).1 with
    | none => rw [h p hp]
    | some u => rfl
  website := hs.website

/-! ## The three sources -/

theorem websiteAsPlatform_settled (hs : Settled lead (fun _ => none) s) :
    Settled lead (websiteEvidence c.lib lead) (s.websiteAsPlatform c) := by
  unfold websiteAsPlatform
  rw [hs.website]
  split
  · rename_i hw
    exact hs.congr fun p _ => by rw [websiteEvidence, hw]
  · rename_i hw
    exact hs.congr fun p _ => by rw [websiteEvidence, hw]
  · rename_i website hne hw
    have hev : ∀ p, websiteEvidence c.lib lead p =
        if classifyPlatform website = some p then (normalizeSocialUrl c.lib website).map fun url => (url, .high) else none := by
      intro p
      cases website with
      | nil => exact absurd rfl hne
      | cons x w => rw [websiteEvidence, hw]
    split
    · rename_i hclass
      exact hs.congr fun p _ => by rw [hev, hclass, if_neg nofun]
    · rename_i p hclass
      have hs' : Settled lead (fun _ => none) { s with websiteIsSocialPlatform := true } := ⟨hs.slots, hs.needs, hs.website⟩
      have hother : ∀ q, q ≠ p → websiteEvidence c.lib lead q = none := fun q hq => by
        rw [hev, hclass, if_neg fun h => hq (Option.some.inj h).symm]
      dsimp only
      split_ifs with hp
      · split
        · rename_i hn
          apply hs'.congr
          intro q _
          rw [hev, hn]
          split_ifs <;> rfl
        · rename_i url hn
          apply (hs'.found hp url .high).congr
          intro q _
          by_cases hq : q = p
          · rw [hq, Function.update_self, hev, hclass, if_pos rfl, hn]
            rfl
          · rw [Function.update_of_ne hq, hother q hq]
      · -- The platform has a URL already.
        refine hs'.congr fun q hnone => hother q fun hq => hp ?_
        rw [← hq, hs.needs, hnone]
        rfl

theorem matchCandidate_settled (hs : Settled lead e s) (candidates : List LinkCandidate) (p : Platform) :
    Settled lead (Function.update e p ((e p).or (homepageEvidence c.lib candidates p))) (s.matchCandidate c candidates p) := by
  unfold matchCandidate
  split_ifs with hp
  · have hnone : e p = none := by
      rw [hs.needs, Bool.and_eq_true, Option.isNone_iff_eq_none, Option.isNone_iff_eq_none] at hp
      exact hp.2
    rw [hnone, Option.none_or, homepageEvidence]
    split
    · rename_i hf
      rw [hf, Option.map_none, ← hnone, Function.update_eq_self]
      exact hs
    · rename_i candidate hf
      rw [hf]
      exact hs.found hp _ _
  · apply hs.congr
    intro q hq
    by_cases hqp : q = p
    · subst hqp
      have hsome : (e q).isNone = false := by
        rw [hs.needs, hq] at hp
        exact eq_false_of_ne_true hp
      rw [Function.update_self]
      cases he : e q with
      | none => simp [he] at hsome
      | some ev => rfl
    · exact Function.update_of_ne hqp _ _

theorem matchBoth_settled (hs : Settled lead e s) (candidates : List LinkCandidate) :
    Settled lead (e.orElse (homepageEvidence c.lib candidates))
      ((s.matchCandidate c candidates .instagram).matchCandidate c candidates .facebook) := by
  have h := matchCandidate_settled (c := c) (matchCandidate_settled (c := c) hs candidates .instagram) candidates .facebook
  apply h.congr
  intro p _
  cases p <;> rfl

theorem takeFallback_eq (results : Platform → FallbackResult) (s : DiscoverCall) (p : Platform) : s.takeFallback results p =
    if s.needs p = true then
      match searchEvidence results p with
      | none => s
      | some (url, tier) => { s with lead := { s.lead with social := s.lead.social.found url tier p }, usedFallback := true }
    else s := by
  unfold takeFallback searchEvidence
  rcases results p with _ | ⟨_ | _ | ⟨x, url⟩, isCanonical⟩ <;> rfl

/-- What the search found goes to its own platform, if that is needed. -/
theorem takeFallback_spec (results : Platform → FallbackResult) (s : DiscoverCall) (p : Platform) :
    (s.takeFallback results p).needs = s.needs ∧ ∀ q, (s.takeFallback results p).lead.social.slot q =
      if q = p ∧ s.needs p = true then
        match searchEvidence results p with
        | none => s.lead.social.slot q
        | some (url, tier) => (some url, some tier.value)
      else s.lead.social.slot q := by
  rw [takeFallback_eq]
  by_cases hp : s.needs p = true
  · rw [if_pos hp]
    cases searchEvidence results p with
    | none => exact ⟨rfl, fun q => (ite_self _).symm⟩
    | some found =>
      refine ⟨rfl, fun q => ?_⟩
      by_cases hq : q = p
      · subst hq
        rw [if_pos ⟨rfl, hp⟩]
        exact SocialLead.slot_found _ _ _ _
      · rw [if_neg fun h => hq h.1]
        exact SocialLead.slot_found_of_ne _ _ _ hq
  · rw [if_neg hp]
    exact ⟨rfl, fun q => (if_neg fun h => hp h.2).symm⟩

theorem takeBoth_slots (hs : Settled lead e s) (results : Platform → FallbackResult) (p : Platform) :
    ((s.takeFallback results .instagram).takeFallback results .facebook).lead.social.slot p =
      settle (lead.social.slot p) (e.orElse (searchEvidence results) p) := by
  obtain ⟨hn₁, h₁⟩ := takeFallback_spec results s .instagram
  obtain ⟨-, h₂⟩ := takeFallback_spec results (s.takeFallback results .instagram) .facebook
  have hslot : ((s.takeFallback results .instagram).takeFallback results .facebook).lead.social.slot p =
      if s.needs p = true then
        match searchEvidence results p with
        | none => s.lead.social.slot p
        | some (url, tier) => (some url, some tier.value)
      else s.lead.social.slot p := by
    rw [h₂, hn₁, h₁]
    cases p <;> simp
  rw [hslot, hs.needs p, hs.slots p]
  unfold Evidence.orElse
  cases he : e p with
  | some ev => simp
  | none =>
    cases hu : (lead.social.slot p).1 with
    | some u =>
      cases hr : searchEvidence results p with
      | none => simp
      | some ev => simp [settle, hu]
    | none =>
      cases hr : searchEvidence results p with
      | none => simp
      | some ev => simp [settle, hu]

/-! ## The calls to the network -/

inductive NetworkCall where
  /-- `fetcher.fetch(lead.website)`. -/
  | fetch
  /-- `fallback.find(lead.business_name, platform)`. -/
  | find (p : Platform)
deriving DecidableEq

/-- The calls that have been made on entering the phase. -/
def opened (s : DiscoverCall) : List NetworkCall :=
  match s.phase with
  | .fetching => [.fetch]
  | .searching => ([Platform.instagram, .facebook].filter s.needs).map .find
  | _ => []

/-- The machine with the log of its calls. -/
def logged (c : DiscoverConfig) (x : DiscoverCall × List NetworkCall) (a : DiscoverAction) :
    Option (DiscoverCall × List NetworkCall) := (x.1.step c a).map fun s => (s, x.2 ++ opened s)

def startLogged (c : DiscoverConfig) (lead : BusinessLead) : DiscoverCall × List NetworkCall :=
  (start c lead, opened (start c lead))

/-- Nothing raises, and the network returns what is given. -/
def Answers (html : Option Str) (results : Platform → FallbackResult) : DiscoverAction → Prop
  | .recorded => True
  | .fetched html' => html' = html
  | .found results' => results' = results
  | .raises | .cancel | .select => False

/-- The website of the lead is a link to a profile. -/
def websiteIsProfile (lead : BusinessLead) : Bool := lead.website.any fun website => (classifyPlatform website).isSome

/-- Whether the homepage is fetched: the lead has a website that is no social link, and a platform is missing. -/
def fetches (lead : BusinessLead) : Bool :=
  truthy lead.website && !websiteIsProfile lead &&
    ((lead.social.slot .instagram).1.isNone || (lead.social.slot .facebook).1.isNone)

/-- What the homepage has, if it is fetched. -/
def homepageCandidates (c : DiscoverConfig) (html : Option Str) (lead : BusinessLead) : List LinkCandidate :=
  if fetches lead then
    match html with
    | none | some [] => []
    | some html => deduplicateCandidates c.lib ((c.extract html).getD [])
  else []

/-- What the website and the homepage say. -/
def pageEvidence (c : DiscoverConfig) (html : Option Str) (lead : BusinessLead) : Evidence :=
  (websiteEvidence c.lib lead).orElse (homepageEvidence c.lib (homepageCandidates c html lead))

/-- The platforms that are searched for. -/
def searches (c : DiscoverConfig) (html : Option Str) (lead : BusinessLead) : List Platform :=
  [Platform.instagram, .facebook].filter fun p => (lead.social.slot p).1.isNone && (pageEvidence c html lead p).isNone

/-- What is true at each await of a call that nothing raises in. -/
def At (c : DiscoverConfig) (html : Option Str) (results : Platform → FallbackResult) (lead : BusinessLead)
    (x : DiscoverCall × List NetworkCall) : Prop :=
  let fetch := if fetches lead then [NetworkCall.fetch] else []
  match x.1.phase with
  | .starting => x = ({ lead := lead }, [])
  | .fetching => Settled lead (websiteEvidence c.lib lead) x.1 ∧ fetches lead ∧ x.2 = fetch
  | .recordingFetch html' => Settled lead (websiteEvidence c.lib lead) x.1 ∧ fetches lead ∧ x.2 = fetch ∧ html' = html
  | .recordingWebsite => Settled lead (pageEvidence c html lead) x.1 ∧ x.2 = fetch
  | .searching =>
    Settled lead (pageEvidence c html lead) x.1 ∧ x.2 = fetch ++ (searches c html lead).map .find
  | .recordingFallback | .finishing | .returned =>
    (∀ p, x.1.lead.social.slot p =
      settle (lead.social.slot p) ((pageEvidence c html lead).orElse (searchEvidence results) p)) ∧
    x.2 = fetch ++ (searches c html lead).map .find
  | .raised | .cancelled | .selected => False

variable {html : Option Str} {results : Platform → FallbackResult} {log : List NetworkCall}

theorem finish_at
    (hs : ∀ p, s.lead.social.slot p =
      settle (lead.social.slot p) ((pageEvidence c html lead).orElse (searchEvidence results) p))
    (hlog : log = (if fetches lead then [NetworkCall.fetch] else []) ++ (searches c html lead).map .find) :
    At c html results lead (s.finish c, log ++ opened (s.finish c)) := by
  unfold finish
  split_ifs
  · exact ⟨hs, (List.append_nil _).trans hlog⟩
  · exact ⟨hs, (List.append_nil _).trans hlog⟩

theorem search_at (hs : Settled lead (pageEvidence c html lead) s)
    (hlog : log = if fetches lead then [NetworkCall.fetch] else []) :
    At c html results lead (s.search c, log ++ opened (s.search c)) := by
  have hneeds : s.needs = fun p => (lead.social.slot p).1.isNone && (pageEvidence c html lead p).isNone := funext hs.needs
  unfold search
  split_ifs with hn
  · refine ⟨⟨hs.slots, hs.needs, hs.website⟩, ?_⟩
    show log ++ ([Platform.instagram, .facebook].filter s.needs).map .find = _
    rw [hlog, searches, hneeds]
  · rw [Bool.or_eq_true, not_or] at hn
    have hnone : ∀ p, s.needs p = false := by
      rintro (_ | _)
      · exact eq_false_of_ne_true hn.1
      · exact eq_false_of_ne_true hn.2
    refine finish_at (fun p => ?_) ?_
    · -- The search would have been for nothing.
      have hp := hnone p
      rw [hs.slots p]
      rw [hs.needs p] at hp
      unfold Evidence.orElse
      cases he : pageEvidence c html lead p with
      | some ev => rfl
      | none =>
        obtain ⟨u, hu⟩ : ∃ u, (lead.social.slot p).1 = some u := by
          cases hu : (lead.social.slot p).1 with
          | none => simp [hu, he] at hp
          | some u => exact ⟨u, rfl⟩
        cases searchEvidence results p with
        | none => rfl
        | some ev => exact (if_neg (by rw [hu]; nofun)).symm
    · have hnil : searches c html lead = [] := by
        rw [searches, ← hneeds, List.filter_eq_nil_iff]
        intro p _ hp
        rw [hnone p] at hp
        cases hp
      rw [hlog, hnil]
      exact (List.append_nil _).symm

theorem matchAll_at (hs : Settled lead (websiteEvidence c.lib lead) s)
    (hlog : log = if fetches lead then [NetworkCall.fetch] else []) :
    At c html results lead (s.matchAll c (homepageCandidates c html lead),
      log ++ opened (s.matchAll c (homepageCandidates c html lead))) := by
  have hboth := matchBoth_settled (c := c) hs (homepageCandidates c html lead)
  unfold matchAll
  dsimp only
  split_ifs
  · exact ⟨⟨hboth.slots, hboth.needs, hboth.website⟩, (List.append_nil _).trans hlog⟩
  · exact search_at hboth hlog

theorem websiteAsPlatform_social (hw : s.lead.website = lead.website) (hs : s.websiteIsSocialPlatform = false) :
    (s.websiteAsPlatform c).websiteIsSocialPlatform = websiteIsProfile lead := by
  unfold websiteAsPlatform websiteIsProfile
  rw [hw]
  split
  · rename_i h
    rw [h, hs]
    rfl
  · rename_i h
    rw [h, hs]
    decide
  · rename_i website _ h
    rw [h, Option.any_some]
    split
    · rename_i hclass
      rw [hclass, hs]
      rfl
    · rename_i p hclass
      rw [hclass]
      dsimp only
      split_ifs
      · split <;> rfl
      · rfl

/-- Without a profile as its website, a lead misses what it missed at the start. -/
theorem websiteEvidence_none (lib : Stdlib) (h : websiteIsProfile lead = false) (p : Platform) :
    websiteEvidence lib lead p = none := by
  unfold websiteEvidence
  split
  · rfl
  · rfl
  · rename_i website _ hw
    rw [websiteIsProfile, hw, Option.any_some, Option.isSome_eq_false_iff, Option.isNone_iff_eq_none] at h
    rw [h, if_neg nofun]

theorem begin_at (c : DiscoverConfig) (html : Option Str) (results : Platform → FallbackResult) (lead : BusinessLead) :
    At c html results lead (DiscoverCall.begin c { lead := lead }, opened (DiscoverCall.begin c { lead := lead })) := by
  have hopen : Settled lead (fun _ => none)
      { lead := lead, needs := fun p => (lead.social.slot p).1.isNone } :=
    ⟨fun _ => rfl, fun p => (Bool.and_true _).symm, rfl⟩
  have hs := websiteAsPlatform_settled (c := c) hopen
  have hsocial := websiteAsPlatform_social (c := c) hopen.website rfl
  have hfetch : (((websiteAsPlatform c { lead := lead, needs := fun p => (lead.social.slot p).1.isNone }).needs .instagram ||
      (websiteAsPlatform c { lead := lead, needs := fun p => (lead.social.slot p).1.isNone }).needs .facebook) &&
        truthy (websiteAsPlatform c { lead := lead, needs := fun p => (lead.social.slot p).1.isNone }).lead.website &&
        !(websiteAsPlatform c { lead := lead, needs := fun p => (lead.social.slot p).1.isNone }).websiteIsSocialPlatform) =
      fetches lead := by
    rw [hs.website, hsocial, hs.needs, hs.needs]
    unfold fetches
    cases hp : websiteIsProfile lead with
    | true => simp
    | false =>
      rw [websiteEvidence_none c.lib hp, websiteEvidence_none c.lib hp]
      simp [Bool.and_comm]
  unfold DiscoverCall.begin
  dsimp only
  rw [hfetch]
  split_ifs with hf
  · exact ⟨⟨hs.slots, hs.needs, hs.website⟩, hf, (if_pos hf).symm⟩
  · have hcandidates : homepageCandidates c html lead = [] := if_neg hf
    rw [← hcandidates]
    have hlog : [] = if fetches lead then [NetworkCall.fetch] else [] := (if_neg hf).symm
    exact matchAll_at hs hlog

theorem readHtml_at (hext : ∀ page, (c.extract page).isSome) (hs : Settled lead (websiteEvidence c.lib lead) s)
    (hf : fetches lead) (hlog : log = if fetches lead then [NetworkCall.fetch] else []) :
    At c html results lead (s.readHtml c html, log ++ opened (s.readHtml c html)) := by
  have hread : s.readHtml c html = s.matchAll c (homepageCandidates c html lead) := by
    unfold readHtml homepageCandidates
    rw [if_pos hf]
    split
    · rfl
    · rfl
    · rename_i page hne
      obtain ⟨candidates, hc⟩ := Option.isSome_iff_exists.1 (hext page)
      cases page with
      | nil => exact absurd rfl hne
      | cons x page => simp only [hc, Option.getD_some]
  rw [hread]
  exact matchAll_at hs hlog

theorem takeResults_at (hs : Settled lead (pageEvidence c html lead) s)
    (hlog : log = (if fetches lead then [NetworkCall.fetch] else []) ++ (searches c html lead).map .find) :
    At c html results lead (s.takeResults c results, log ++ opened (s.takeResults c results)) := by
  unfold takeResults
  dsimp only
  split_ifs
  · exact ⟨takeBoth_slots hs results, (List.append_nil _).trans hlog⟩
  · exact finish_at (takeBoth_slots hs results) hlog

theorem step_at (hext : ∀ page, (c.extract page).isSome) {x y : DiscoverCall × List NetworkCall} {a : DiscoverAction}
    (hx : At c html results lead x) (ha : Answers html results a) (h : logged c x a = some y) :
    At c html results lead y := by
  obtain ⟨s, log⟩ := x
  obtain ⟨s', hstep, rfl⟩ := Option.map_eq_some_iff.1 h
  clear h
  unfold At at hx
  dsimp only at hx hstep ⊢
  cases a with
  | recorded =>
    cases hp : s.phase <;> simp only [step, hp, reduceCtorEq, Option.some.injEq] at hstep hx <;> subst hstep
    · obtain ⟨rfl, rfl⟩ := Prod.mk.inj hx
      exact begin_at c html results lead
    · obtain ⟨hs, hf, hlog, rfl⟩ := hx
      exact readHtml_at hext hs hf hlog
    · exact search_at hx.1 hx.2
    · exact finish_at hx.1 hx.2
    · exact ⟨hx.1, (List.append_nil _).trans hx.2⟩
  | fetched html' =>
    obtain rfl : html' = html := ha
    simp only [step] at hstep
    split_ifs at hstep with hp hm
    · rw [hp] at hx
      obtain rfl := Option.some.inj hstep
      obtain ⟨hs, hf, hlog⟩ := hx
      exact ⟨⟨hs.slots, hs.needs, hs.website⟩, hf, (List.append_nil _).trans hlog, rfl⟩
    · rw [hp] at hx
      obtain rfl := Option.some.inj hstep
      obtain ⟨hs, hf, hlog⟩ := hx
      exact readHtml_at hext hs hf hlog
  | found results' =>
    obtain rfl : results' = results := ha
    simp only [step] at hstep
    split_ifs at hstep with hp
    rw [hp] at hx
    obtain rfl := Option.some.inj hstep
    exact takeResults_at hx.1 hx.2
  | raises => exact ha.elim
  | cancel => exact ha.elim
  | select => exact ha.elim

theorem start_at (c : DiscoverConfig) (html : Option Str) (results : Platform → FallbackResult) (lead : BusinessLead) :
    At c html results lead (startLogged c lead) := by
  unfold startLogged start
  split_ifs
  · rfl
  · exact begin_at c html results lead

/-- The awaits still ahead, at most. -/
def ahead (s : DiscoverCall) : ℕ :=
  match s.phase with
  | .starting => 7
  | .fetching => 6
  | .recordingFetch _ => 5
  | .recordingWebsite => 4
  | .searching => 3
  | .recordingFallback => 2
  | .finishing => 1
  | .returned | .raised | .cancelled | .selected => 0

/-- A step that does not raise is a step further. -/
theorem ahead_step {a : DiscoverAction} {s' : DiscoverCall} (ha : Answers html results a) (h : s.step c a = some s') :
    ahead s' < ahead s := by
  have hfinish : ∀ s : DiscoverCall, ahead (s.finish c) ≤ 1 := by
    intro s
    unfold finish
    split_ifs
    · exact le_rfl
    · exact Nat.zero_le _
  have hsearch : ∀ s : DiscoverCall, ahead (s.search c) ≤ 3 := by
    intro s
    unfold search
    split_ifs
    · exact le_rfl
    · exact (hfinish s).trans (by omega)
  have hmatch : ∀ (s : DiscoverCall) (candidates : List LinkCandidate), ahead (s.matchAll c candidates) ≤ 4 := by
    intro s candidates
    unfold matchAll
    dsimp only
    split_ifs
    · exact le_rfl
    · exact (hsearch _).trans (by omega)
  have hread : ∀ (s : DiscoverCall) (html : Option Str), ahead (s.readHtml c html) ≤ 4 := by
    intro s html
    unfold readHtml
    split
    · exact hmatch s []
    · exact hmatch s []
    · split
      · exact Nat.zero_le _
      · exact hmatch s _
  cases a with
  | recorded =>
    cases hp : s.phase <;> simp only [step, hp, reduceCtorEq, Option.some.injEq] at h <;> subst h <;>
      simp only [ahead.eq_def s, hp]
    · unfold DiscoverCall.begin
      dsimp only
      split_ifs
      · exact Nat.lt_succ_self 6
      · exact (hmatch _ _).trans_lt (by omega)
    · exact (hread s _).trans_lt (by omega)
    · exact (hsearch s).trans_lt (by omega)
    · exact (hfinish s).trans_lt (by omega)
    · exact Nat.zero_lt_one
  | fetched html' =>
    simp only [step] at h
    split_ifs at h with hp hm
    · obtain rfl := Option.some.inj h
      rw [ahead.eq_def s, hp]
      exact Nat.lt_succ_self 5
    · obtain rfl := Option.some.inj h
      rw [ahead.eq_def s, hp]
      exact (hread s _).trans_lt (Nat.lt_of_sub_eq_succ rfl)
  | found results' =>
    simp only [step] at h
    split_ifs at h with hp
    obtain rfl := Option.some.inj h
    rw [ahead.eq_def s, hp]
    unfold takeResults
    dsimp only
    split_ifs
    · exact Nat.lt_succ_self 2
    · exact (hfinish _).trans_lt (Nat.lt_of_sub_eq_succ rfl)
  | raises => exact ha.elim
  | cancel => exact ha.elim
  | select => exact ha.elim

/-- A call that has not returned goes on with an answer. -/
theorem goes_on {x : DiscoverCall × List NetworkCall} (hx : At c html results lead x) (hr : x.1.phase ≠ .returned) :
    ∃ a y, Answers html results a ∧ logged c x a = some y := by
  obtain ⟨s, log⟩ := x
  unfold At at hx
  dsimp only at hx hr
  cases hp : s.phase with
  | starting => exact ⟨.recorded, _, trivial, by rw [logged, step, hp]; rfl⟩
  | fetching =>
    cases hm : c.metrics with
    | true => exact ⟨.fetched html, _, rfl, by rw [logged, step, if_pos hp, if_pos hm]; rfl⟩
    | false => exact ⟨.fetched html, _, rfl, by rw [logged, step, if_pos hp, if_neg (by simp [hm])]; rfl⟩
  | recordingFetch html' => exact ⟨.recorded, _, trivial, by rw [logged, step, hp]; rfl⟩
  | recordingWebsite => exact ⟨.recorded, _, trivial, by rw [logged, step, hp]; rfl⟩
  | searching => exact ⟨.found results, _, rfl, by rw [logged, step, if_pos hp]; rfl⟩
  | recordingFallback => exact ⟨.recorded, _, trivial, by rw [logged, step, hp]; rfl⟩
  | finishing => exact ⟨.recorded, _, trivial, by rw [logged, step, hp]; rfl⟩
  | returned => exact absurd hp hr
  | raised | cancelled | selected => simp [hp] at hx

theorem reachable_at (hext : ∀ page, (c.extract page).isSome) {x : DiscoverCall × List NetworkCall}
    (h : Reachable (Guarded (fun _ => Answers html results) (Fires (logged c))) (startLogged c lead) x) :
    At c html results lead x :=
  h.inv (At c html results lead) (start_at c html results lead) fun _ _ _ hx ha => step_at hext hx ha.1 ha.2

theorem run_length_le {x : DiscoverCall × List NetworkCall} {as : List DiscoverAction}
    (h : Steps (Guarded (fun _ => Answers html results) (Fires (logged c))) (startLogged c lead) as x) : as.length ≤ 7 := by
  have hle := h.length_le (fun x => ahead x.1) (fun _ => True) trivial ?_
  · have hstart : ahead (startLogged c lead).1 ≤ 7 := by
      unfold ahead
      split <;> decide
    omega
  · intro x a y _ hr
    obtain ⟨s', hs, rfl⟩ := Option.map_eq_some_iff.1 hr.2
    exact ⟨trivial, ahead_step hr.1 hs⟩

end DiscoverCall

open DiscoverCall in
/-- The fields of a platform when the call has returned. -/
theorem returned_slot {c : DiscoverConfig} {html : Option Str} {results : Platform → FallbackResult} {lead : BusinessLead}
    {s : DiscoverCall} {log : List NetworkCall} (hext : ∀ page, (c.extract page).isSome)
    (h : Reachable (Guarded (fun _ => Answers html results) (Fires (logged c))) (startLogged c lead) (s, log))
    (hr : s.phase = .returned) (p : Platform) : s.lead.social.slot p =
      settle (lead.social.slot p) ((pageEvidence c html lead).orElse (searchEvidence results) p) := by
  have hat := reachable_at hext h
  simp only [At, hr] at hat
  exact hat.1 p

theorem settle_kept {fields : Option Str × Option Str} (h : fields.1 ≠ none) (o : Option (Str × Confidence)) :
    settle fields o = fields := by
  cases o with
  | none => rfl
  | some ev => exact if_neg h

theorem settle_url {fields : Option Str × Option Str} (h : fields.1 = none) (o : Option (Str × Confidence)) :
    (settle fields o).1 = o.map (·.1) := by
  cases o with
  | none => exact h
  | some ev => rw [settle, if_pos h]; rfl

open DiscoverCall in
theorem searches_count (c : DiscoverConfig) (html : Option Str) (lead : BusinessLead) (p : Platform) :
    ((searches c html lead).map NetworkCall.find).count (.find p) =
      if (lead.social.slot p).1.isNone && (pageEvidence c html lead p).isNone then 1 else 0 := by
  have hnodup : ((searches c html lead).map NetworkCall.find).Nodup := by
    apply List.Nodup.map fun _ _ h => NetworkCall.find.inj h
    exact List.Nodup.filter _ (by decide)
  have hmem : .find p ∈ (searches c html lead).map NetworkCall.find ↔
      ((lead.social.slot p).1.isNone && (pageEvidence c html lead p).isNone) = true := by
    rw [List.mem_map_of_injective fun _ _ h => NetworkCall.find.inj h, searches, List.mem_filter]
    apply and_iff_right
    cases p <;> decide
  rw [hnodup.count]
  exact if_congr hmem rfl rfl

open DiscoverCall in
/-- Evidence precedence and minimal search. However often it awaits, a call that nothing raises in returns; then each
platform missing at the start has the URL of the website, else of the homepage, else of the search, the others are as
they were, and the network has been asked for nothing else. -/
theorem evidence_precedence (lib : Stdlib) (settings : Settings) (metrics : Bool) (extract : Str → List LinkCandidate)
    (html : Option Str) (results : Platform → FallbackResult) (lead : BusinessLead) :
    let c : DiscoverConfig := ⟨lib, settings, metrics, fun page => some (extract page)⟩
    let Step := Guarded (fun _ => Answers html results) (Fires (logged c))
    let website := websiteEvidence lib lead
    let homepage := homepageEvidence lib (homepageCandidates c html lead)
    (∀ as x, Steps Step (startLogged c lead) as x → as.length ≤ 7 ∧ (x.1.phase = .returned ∨ ∃ a y, Step x a y)) ∧
    ∀ s log, Reachable Step (startLogged c lead) (s, log) → s.phase = .returned →
      (∀ p, (lead.social.slot p).1 = none →
        (s.lead.social.slot p).1 = (((website p).or (homepage p)).or (searchEvidence results p)).map (·.1)) ∧
      (∀ p, (lead.social.slot p).1 ≠ none → s.lead.social.slot p = lead.social.slot p) ∧
      log.count .fetch = (if fetches lead then 1 else 0) ∧
      ∀ p, log.count (.find p) =
        if (lead.social.slot p).1 = none ∧ website p = none ∧ homepage p = none then 1 else 0 := by
  intro c Step website homepage
  have hext : ∀ page, (c.extract page).isSome := fun _ => rfl
  refine ⟨fun as x h => ⟨run_length_le h, ?_⟩, fun s log h hr => ?_⟩
  · by_cases hr : x.1.phase = .returned
    · exact .inl hr
    · obtain ⟨a, y, ha, hy⟩ := goes_on (reachable_at hext ⟨as, h⟩) hr
      exact .inr ⟨a, y, ha, hy⟩
  · have hat := reachable_at hext h
    simp only [At, hr] at hat
    obtain ⟨hslots, rfl⟩ := hat
    refine ⟨fun p hp => ?_, fun p hp => ?_, ?_, fun p => ?_⟩
    · rw [hslots p, settle_url hp]
      rfl
    · rw [hslots p, settle_kept hp]
    · have hfinds : ((searches c html lead).map NetworkCall.find).count .fetch = 0 := by
        rw [List.count_eq_zero, List.mem_map]
        rintro ⟨p, -, hp⟩
        cases hp
      rw [List.count_append, hfinds]
      split_ifs <;> rfl
    · have hfetch : (if fetches lead then [NetworkCall.fetch] else []).count (.find p) = 0 := by
        split_ifs <;> rfl
      rw [List.count_append, hfetch, searches_count, Nat.zero_add]
      refine if_congr ?_ rfl rfl
      rw [Bool.and_eq_true, Option.isNone_iff_eq_none, Option.isNone_iff_eq_none]
      exact and_congr_right' Option.or_eq_none_iff

end SocialScraper
