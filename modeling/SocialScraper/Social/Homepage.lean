import SocialScraper.BestCandidates
import SocialScraper.Social.Evidence
import SocialScraper.Urllib.Parse
/-!
# The link that is kept of a homepage

Discovery keeps the first link of a platform, and the selection engine would
keep the best. They agree exactly if nothing outranks the first link
(`homepage_best_iff`).
-/
open Lib

namespace SocialScraper

variable (lib : Stdlib) (settings : Settings)

/-! ## What the engine would be given -/

/-- `is_canonical_social_url`, with the platform of the link. -/
def LinkCandidate.canonical (link : LinkCandidate) : Bool := (canonicalSlug lib link.url link.platform).isSome

/-- The candidate of a link, with its own source and the tier that discovery would give it. -/
def linkCandidate (link : LinkCandidate) : Candidate :=
  makeCandidate lib link.platform link.url link.source (if link.canonical lib then .high else .medium)

/-- The engine selects the URL, up to equal rank scores: a candidate with this normal form scores as the chosen one. -/
def EngineAgrees (links : List LinkCandidate) (p : Platform) (url : Str) : Prop :=
  ∃ result chosen, select lib settings (links.map (linkCandidate lib)) = some result ∧
    Wins lib settings (links.map (linkCandidate lib)) p chosen ∧ chosen.normalizedUrl = result.url p ∧
    ∃ c, Stands (links.map (linkCandidate lib)) p c ∧ c.normalizedUrl = some url ∧
      rankScore lib settings c = rankScore lib settings chosen

/-- A usable candidate with the URL for its normal form is outranked by no other of the platform. -/
def TopRanked (links : List LinkCandidate) (p : Platform) (url : Str) : Prop :=
  ∃ c, Stands (links.map (linkCandidate lib)) p c ∧ c.normalizedUrl = some url ∧
    ∀ d, Stands (links.map (linkCandidate lib)) p d → d.score lib settings ≤ c.score lib settings

variable {lib settings}

theorem rankScore_linkCandidate {links : List LinkCandidate} {c : Candidate} (h : c ∈ links.map (linkCandidate lib)) :
    rankScore lib settings c = some (c.score lib settings) := by
  obtain ⟨link, -, rfl⟩ := List.mem_map.1 h
  have hsome : (rankScore lib settings (linkCandidate lib link)).isSome := rankScore_makeCandidate _ _ _ _
  obtain ⟨score, hc⟩ := Option.isSome_iff_exists.1 hsome
  rw [Candidate.score_of_rankScore hc, hc]

theorem engineAgrees_iff {links : List LinkCandidate} {p : Platform} {url : Str} :
    EngineAgrees lib settings links p url ↔ TopRanked lib settings links p url := by
  constructor
  · rintro ⟨result, chosen, -, ⟨-, score, hs, hmax⟩, -, c, hc, hurl, heq⟩
    refine ⟨c, hc, hurl, fun d hd => ?_⟩
    obtain ⟨t, ht, hd⟩ := hmax d hd
    rwa [Candidate.score_of_rankScore hd, Candidate.score_of_rankScore (heq.trans hs)]
  · rintro ⟨c, hc, hurl, hmax⟩
    have hscored : ∀ d ∈ links.map (linkCandidate lib), (rankScore lib settings d).isSome := by
      intro d hd
      rw [rankScore_linkCandidate hd]
      rfl
    obtain ⟨result, hr⟩ := Option.isSome_iff_exists.1 (select_isSome hscored)
    rcases select_cases hr p with ⟨hnone, -⟩ | ⟨chosen, hw, hchosen⟩
    · exact absurd hc (hnone c)
    · refine ⟨result, chosen, hr, hw, hchosen.symm, c, hc, hurl, ?_⟩
      -- The best candidate and the chosen one are each at least as good as the other.
      obtain ⟨hs, score, hscore, hall⟩ := hw
      obtain ⟨t, hle, ht⟩ := hall c hc
      have hge := hmax chosen hs
      rw [Candidate.score_of_rankScore hscore, Candidate.score_of_rankScore ht] at hge
      rw [ht, hscore, le_antisymm hle hge]

open DiscoverCall in
/-- What is stored for a platform that the homepage has a link of. -/
theorem homepage_slot {c : DiscoverConfig} {page : Str} {results : Platform → FallbackResult} {lead : BusinessLead}
    {s : DiscoverCall} {log : List NetworkCall} (hext : ∀ page, (c.extract page).isSome)
    (h : Reachable (Guarded (fun _ => Answers (some page) results) (Fires (logged c))) (startLogged c lead) (s, log))
    (hr : s.phase = .returned) (hf : fetches lead) (hpage : page ≠ []) {p : Platform} (hp : (lead.social.slot p).1 = none)
    {link : LinkCandidate} (hlink : (deduplicateCandidates c.lib ((c.extract page).getD [])).find?
      (fun link => link.platform = p.name) = some link) :
    (s.lead.social.slot p).1 = some link.url := by
  have hprofile : websiteIsProfile lead = false := by
    unfold fetches at hf
    simp only [Bool.and_eq_true, Bool.not_eq_true'] at hf
    exact hf.1.2
  have hcandidates : homepageCandidates c (some page) lead = deduplicateCandidates c.lib ((c.extract page).getD []) := by
    unfold homepageCandidates
    rw [if_pos hf]
    split
    · contradiction
    · rename_i hnil
      exact absurd (Option.some.inj hnil) hpage
    · rename_i html _ hhtml
      rw [Option.some.inj hhtml]
  have hev : pageEvidence c (some page) lead p = some (link.url, candidateTier c.lib link.url p) := by
    rw [pageEvidence, Evidence.orElse, websiteEvidence_none c.lib hprofile, hcandidates, homepageEvidence, hlink]
    rfl
  rw [returned_slot hext h hr p, settle_url hp, Evidence.orElse, hev]
  rfl

open DiscoverCall in
/-- The URL stored for a platform is the one the engine would select, and a canonical one if the page has any, exactly
if the URL of the platform's first link is the normal form of a candidate that none outranks, and the link is canonical
if any is. -/
theorem homepage_best_iff (lib : Stdlib) (settings : Settings) (metrics : Bool) (extract : Str → List LinkCandidate)
    (page : Str) (results : Platform → FallbackResult) (lead : BusinessLead) (p : Platform) (link : LinkCandidate)
    (hf : fetches lead) (hpage : page ≠ []) (hp : (lead.social.slot p).1 = none)
    (hlink : (deduplicateCandidates lib (extract page)).find? (fun link => link.platform = p.name) = some link)
    (s : DiscoverCall) (log : List NetworkCall)
    (h : Reachable (Guarded (fun _ => Answers (some page) results)
        (Fires (logged ⟨lib, settings, metrics, fun page => some (extract page)⟩)))
      (startLogged ⟨lib, settings, metrics, fun page => some (extract page)⟩ lead) (s, log))
    (hr : s.phase = .returned) :
    let links := deduplicateCandidates lib (extract page)
    (∃ url, (s.lead.social.slot p).1 = some url ∧ EngineAgrees lib settings links p url ∧
        (isCanonicalSocialUrl lib url p ∨ ∀ other ∈ links, other.platform = p.name → ¬ other.canonical lib)) ↔
      TopRanked lib settings links p link.url ∧
        (link.canonical lib ∨ ∀ other ∈ links, other.platform = p.name → ¬ other.canonical lib) := by
  intro links
  have hstored := homepage_slot (fun _ => rfl) h hr hf hpage hp hlink
  have hname : link.platform = p.name := by simpa using List.find?_some hlink
  have hcanonical : isCanonicalSocialUrl lib link.url p = link.canonical lib := by
    rw [isCanonicalSocialUrl, LinkCandidate.canonical, hname]
  constructor
  · rintro ⟨url, hurl, hagree, hcan⟩
    obtain rfl := Option.some.inj (hstored.symm.trans hurl)
    rw [hcanonical] at hcan
    exact ⟨engineAgrees_iff.1 hagree, hcan⟩
  · rintro ⟨htop, hcan⟩
    rw [← hcanonical] at hcan
    exact ⟨link.url, hstored, engineAgrees_iff.2 htop, hcan⟩

/-- A homepage with a post in its footer and the profile in its text. -/
def postAndProfile : List LinkCandidate :=
  [⟨"https://www.instagram.com/p/C1".toList, "instagram".toList, "footer".toList⟩,
    ⟨"https://www.instagram.com/cafe".toList, "instagram".toList, "anchor".toList⟩]

/-- A lead of which only the Instagram profile is missing. -/
def halfLead : BusinessLead where
  businessName := "Cafe".toList
  website := some "https://cafe.test".toList
  social := { facebookUrl := some "https://www.facebook.com/cafe".toList }

abbrev halfDiscovery : DiscoverConfig := ⟨cpython .ascii, .defaults, false, fun _ => some postAndProfile⟩

open DiscoverCall in
theorem halfLead_returns : ∃ s log,
    Reachable (Guarded (fun _ => Answers (some "<html>".toList) fun _ => none) (Fires (logged halfDiscovery)))
      (startLogged halfDiscovery halfLead) (s, log) ∧ s.phase = .returned := by
  obtain ⟨⟨s, log⟩, hs, hr⟩ := exec_ends (f := logged halfDiscovery) (Q := fun x => x.1.phase = .returned)
    (s := startLogged halfDiscovery halfLead) [.fetched (some "<html>".toList)] (by decide +kernel)
  obtain ⟨x, hx, hend⟩ := Option.bind_eq_some_iff.1 hs
  obtain rfl := Option.some.inj hend
  have ha : Answers (some "<html>".toList) (fun _ => none) (.fetched (some "<html>".toList)) := rfl
  exact ⟨s, log, ⟨_, .one ⟨ha, hx⟩⟩, hr⟩

theorem homepage_links : deduplicateCandidates (cpython .ascii) postAndProfile = postAndProfile := by decide +kernel

open DiscoverCall in
theorem homepage_best_half : ∃ s log,
    Reachable (Guarded (fun _ => Answers (some "<html>".toList) fun _ => none) (Fires (logged halfDiscovery)))
      (startLogged halfDiscovery halfLead) (s, log) ∧
    (let links := deduplicateCandidates (cpython .ascii) postAndProfile
    (∃ url, (s.lead.social.slot .instagram).1 = some url ∧ EngineAgrees (cpython .ascii) .defaults links .instagram url ∧
        (isCanonicalSocialUrl (cpython .ascii) url .instagram ∨
          ∀ other ∈ links, other.platform = Platform.instagram.name → ¬ other.canonical (cpython .ascii))) ↔
      TopRanked (cpython .ascii) .defaults links .instagram "https://www.instagram.com/p/C1".toList ∧
        (LinkCandidate.canonical (cpython .ascii)
            ⟨"https://www.instagram.com/p/C1".toList, "instagram".toList, "footer".toList⟩ ∨
          ∀ other ∈ links, other.platform = Platform.instagram.name → ¬ other.canonical (cpython .ascii))) := by
  obtain ⟨s, log, h, hr⟩ := halfLead_returns
  refine ⟨s, log, h, ?_⟩
  exact homepage_best_iff (cpython .ascii) .defaults false (fun _ => postAndProfile) "<html>".toList (fun _ => none) halfLead
    .instagram _ (by decide +kernel) (by decide) rfl (by rw [homepage_links]; rfl) s log h hr

open DiscoverCall in
/-- The post is kept, though the page has the profile, which the engine ranks higher. -/
theorem post_kept : ∃ s log,
    Reachable (Guarded (fun _ => Answers (some "<html>".toList) fun _ => none) (Fires (logged halfDiscovery)))
      (startLogged halfDiscovery halfLead) (s, log) ∧ s.phase = .returned ∧
    (s.lead.social.slot .instagram).1 = some "https://www.instagram.com/p/C1".toList ∧
    ¬ EngineAgrees (cpython .ascii) .defaults (deduplicateCandidates (cpython .ascii) postAndProfile) .instagram
      "https://www.instagram.com/p/C1".toList ∧
    ¬ isCanonicalSocialUrl (cpython .ascii) "https://www.instagram.com/p/C1".toList .instagram ∧
    ∃ link ∈ deduplicateCandidates (cpython .ascii) postAndProfile, link.platform = Platform.instagram.name ∧
      link.canonical (cpython .ascii) := by
  obtain ⟨s, log, h, hr⟩ := halfLead_returns
  rw [homepage_links]
  have hlink : (deduplicateCandidates (cpython .ascii) postAndProfile).find?
      (fun link => link.platform = Platform.instagram.name) =
        some ⟨"https://www.instagram.com/p/C1".toList, "instagram".toList, "footer".toList⟩ := by
    rw [homepage_links]
    rfl
  refine ⟨s, log, h, hr, ?_, ?_, by decide +kernel, by decide +kernel⟩
  · exact homepage_slot (fun _ => rfl) h hr (by decide +kernel) (by decide) rfl hlink
  · rw [engineAgrees_iff]
    rintro ⟨c, ⟨hc, -, -⟩, hurl, hmax⟩
    have hlower : ∀ c ∈ postAndProfile.map (linkCandidate (cpython .ascii)),
        c.normalizedUrl = some "https://www.instagram.com/p/C1".toList →
        ∃ d ∈ postAndProfile.map (linkCandidate (cpython .ascii)), d.platform = Platform.instagram.name ∧ d.usable ∧
          c.score (cpython .ascii) .defaults < d.score (cpython .ascii) .defaults := by
      decide +kernel
    obtain ⟨d, hd, hdp, hdu, hlt⟩ := hlower c hc hurl
    exact absurd (hmax d ⟨hd, hdp, hdu⟩) (not_le.2 hlt)

end SocialScraper
