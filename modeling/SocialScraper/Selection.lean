import Mathlib.Data.List.Sort
import SocialScraper.Settings
import SocialScraper.Url
/-!
# The URL selection engine

`app.selection` with `app.enrichment.social.confidence`, and the leads it
works on (`app.models.domain`). The ranking parses URLs again, so it could
raise: `none` is the `ValueError`. `select_isSome` says it does not, for the
candidates `make_candidate` builds.
-/

namespace SocialScraper

/-! ## Leads -/

structure SocialLead where
  instagramUrl : Option Str := none
  facebookUrl : Option Str := none
  googleMapsUrl : Option Str := none
  instagramConfidence : Option Str := none
  facebookConfidence : Option Str := none
deriving DecidableEq

structure BusinessLead where
  businessName : Str
  website : Option Str := none
  social : SocialLead := {}
deriving DecidableEq

/-! ## Confidence -/

inductive Confidence where
  | high | medium | low | none
deriving DecidableEq

/-- `Confidence.value`. -/
def Confidence.value : Confidence → Str
  | .high => "high".toList
  | .medium => "medium".toList
  | .low => "low".toList
  | .none => "none".toList

/-- `Confidence(value)`; `none` is the `ValueError`. -/
def Confidence.ofValue (value : Str) : Option Confidence :=
  [Confidence.high, .medium, .low, .none].find? fun c => c.value = value

def confidenceScore (settings : Settings) : Confidence → ℕ
  | .high => settings.confidenceScoreHigh
  | .medium => settings.confidenceScoreMedium
  | .low => settings.confidenceScoreLow
  | .none => settings.confidenceScoreNone

/-- Group 1 of `re.match(r"^<start>([<chars>]{1,<max>})/?$", url)`; the `$` also
matches before a final newline. -/
def slugMatch (start : Str) (chars : Char → Bool) (max : ℕ) (url : Str) : Option Str :=
  if start.isPrefixOf url then
    let rest := url.drop start.length
    let slug := rest.takeWhile chars
    if 1 ≤ slug.length ∧ slug.length ≤ max ∧ [[], ['/'], ['\n'], ['/', '\n']].contains (rest.dropWhile chars) then some slug
    else none
  else none

/-- `_CANONICAL_INSTAGRAM_RE`. -/
def canonicalInstagramRe : Str → Option Str :=
  slugMatch "https://www.instagram.com/".toList (fun c => c.isAlphanum || c == '_' || c == '.') 30

/-- `_CANONICAL_FACEBOOK_RE`. -/
def canonicalFacebookRe : Str → Option Str :=
  slugMatch "https://www.facebook.com/".toList (fun c => c.isAlphanum || c == '.' || c == '-') 100

/-- `_FACEBOOK_NON_PROFILE_SLUGS`. -/
def facebookNonProfileSlugs : List Str :=
  ["groups".toList, "events".toList, "watch".toList, "marketplace".toList, "permalink.php".toList, "sharer".toList,
    "sharer.php".toList, "pages".toList]

variable (lib : Stdlib)

def canonicalSlug (url platform : Str) : Option Str :=
  if platform = "instagram".toList then canonicalInstagramRe url
  else if platform = "facebook".toList then
    if "https://www.facebook.com/profile.php?id=".toList.isPrefixOf url then
      some ((afterLast "id=".toList url).getD url)
    else
      match canonicalFacebookRe url with
      | some slug => if facebookNonProfileSlugs.contains (lib.lower slug) then none else some slug
      | none => none
  else none

/-! ## Candidates -/

structure Candidate where
  platform : Str
  url : Str
  source : Str
  confidence : Confidence
  /-- `None` if the URL is unusable. -/
  normalizedUrl : Option Str := none
deriving DecidableEq

def makeCandidate (platform url source : Str) (confidence : Confidence) : Candidate :=
  ⟨platform, url, source, confidence, (normalizeSocialUrl lib url).filter (isValidUrl lib)⟩

/-! ## Ranking -/

/-- `_SOURCE_WEIGHTS.get(source, 0)`. -/
def sourceWeight (source : Str) : ℕ :=
  if source = "json_ld".toList ∨ source = "meta".toList then 15
  else if source = "footer".toList ∨ source = "header".toList then 10
  else if source = "anchor".toList then 5
  else 0

/-- `_CANONICAL_DOMAINS.get(platform)`. -/
def canonicalDomain (platform : Str) : Option Str :=
  if platform = "instagram".toList then some "www.instagram.com".toList
  else if platform = "facebook".toList then some "www.facebook.com".toList
  else none

def canonicalBonus (normalizedUrl platform : Str) : ℕ := if truthy (canonicalSlug lib normalizedUrl platform) then 20 else 0

def domainQualityScore (parsed : ParseResult) (platform : Str) : ℕ :=
  if some parsed.netloc = canonicalDomain platform then 10 else 0

def cleanlinessScore (parsed : ParseResult) : ℕ :=
  let pathSegments := (parsed.path.splitOn '/').filter (· ≠ [])
  (if parsed.query = [] then 5 else 0) + (if pathSegments.length ≤ 1 then 5 else 0)

/-- `rank_score`; the scores above are 0 without a normalized URL. -/
def rankScore (settings : Settings) (c : Candidate) : Option ℕ :=
  match c.normalizedUrl with
  | none => some 0
  | some url =>
    if url = [] then some 0
    else
      (lib.urlparse url).map fun parsed =>
        confidenceScore settings c.confidence + sourceWeight c.source + canonicalBonus lib url c.platform +
          domainQualityScore parsed c.platform + cleanlinessScore parsed

variable (settings : Settings)

/-- `sorted(items, key=rank_score, reverse=True)`, which is stable. -/
def rank (items : List Candidate) : Option (List Candidate) :=
  (items.mapM fun c => (rankScore lib settings c).map fun score => (score, c)).map fun keyed =>
    (keyed.insertionSort fun a b => b.1 ≤ a.1).map (·.2)

/-! ## Deduplication -/

/-- The local variables of `deduplicate`. -/
structure Dedup where
  bestByKey : Dict (Str × Str) Candidate := []
  unnormalizable : List Candidate := []
  duplicateCount : ℕ := 0

/-- The body of its loop. -/
def Dedup.add (d : Dedup) (candidate : Candidate) : Option Dedup :=
  match candidate.normalizedUrl with
  | none | some [] => some { d with unnormalizable := d.unnormalizable ++ [candidate] }
  | some url =>
    let key := (candidate.platform, url)
    match d.bestByKey.get key with
    | none => some { d with bestByKey := d.bestByKey.set key candidate }
    | some existing =>
      (rankScore lib settings candidate).bind fun score =>
        (rankScore lib settings existing).map fun best =>
          { d with
            duplicateCount := d.duplicateCount + 1
            bestByKey := if score > best then d.bestByKey.set key candidate else d.bestByKey }

def deduplicate (candidates : List Candidate) : Option (List Candidate × ℕ) :=
  (candidates.foldlM (Dedup.add lib settings) {}).map fun d => (d.bestByKey.values ++ d.unnormalizable, d.duplicateCount)

/-! ## Selection -/

structure SelectionResult where
  instagramUrl : Option Str := none
  facebookUrl : Option Str := none
deriving DecidableEq

/-- One pass of the loop over `_PLATFORMS`: the URL it sets for the platform. -/
def best (usable : List Candidate) (platform : Str) : Option (Option Str) :=
  let platformCandidates := usable.filter fun c => c.platform = platform
  if platformCandidates = [] then some none
  else (rank lib settings platformCandidates).map fun ranked => ranked.head?.bind (·.normalizedUrl)

/-- `SelectionEngine.select`. -/
def select (candidates : List Candidate) : Option SelectionResult :=
  (deduplicate lib settings candidates).bind fun (deduped, _) =>
    let usable := deduped.filter fun c => truthy c.normalizedUrl
    (best lib settings usable "instagram".toList).bind fun instagramUrl =>
      (best lib settings usable "facebook".toList).map fun facebookUrl => ⟨instagramUrl, facebookUrl⟩

/-! ## The selection step of the pipeline -/

/-- `_parse_confidence`. -/
def parseConfidence (value : Option Str) : Confidence := (value.bind Confidence.ofValue).getD .low

/-- The candidate of one platform in `_candidates_from_lead`, if the lead has its URL. -/
def discoveredCandidate (platform : Str) (url confidence : Option Str) : List Candidate :=
  match url with
  | none | some [] => []
  | some url => [makeCandidate lib platform url "social_discovery".toList (parseConfidence confidence)]

/-- `_candidates_from_lead`. -/
def candidatesFromLead (lead : BusinessLead) : List Candidate :=
  discoveredCandidate lib "instagram".toList lead.social.instagramUrl lead.social.instagramConfidence ++
    discoveredCandidate lib "facebook".toList lead.social.facebookUrl lead.social.facebookConfidence

/-- Selection on one lead, as in `social_worker` and in `UrlSelectionStage`. -/
def selectLead (lead : BusinessLead) : Option BusinessLead :=
  let candidates := candidatesFromLead lib lead
  if candidates = [] then some lead
  else
    (select lib settings candidates).map fun result =>
      { lead with
        social := { lead.social with
          instagramUrl := result.instagramUrl
          instagramConfidence := if truthy result.instagramUrl then lead.social.instagramConfidence else none
          facebookUrl := result.facebookUrl
          facebookConfidence := if truthy result.facebookUrl then lead.social.facebookConfidence else none } }

/-! ## Selection does not raise -/

section Total
variable {lib} {settings}

theorem mapM_isSome {α β : Type} {f : α → Option β} {l : List α} (h : ∀ a ∈ l, (f a).isSome) : (l.mapM f).isSome := by
  induction l with
  | nil => rfl
  | cons a l ih =>
    obtain ⟨b, hb⟩ := Option.isSome_iff_exists.1 (h a (by simp))
    obtain ⟨bs, hbs⟩ := Option.isSome_iff_exists.1 (ih fun x hx => h x (by simp [hx]))
    simp [List.mapM_cons, hb, hbs]

theorem rank_isSome {items : List Candidate} (h : ∀ c ∈ items, (rankScore lib settings c).isSome) :
    (rank lib settings items).isSome := by
  unfold rank
  rw [Option.isSome_map]
  exact mapM_isSome fun c hc => by simpa using h c hc

/-- Every candidate that `deduplicate` holds can be ranked. -/
def Dedup.Ranked (lib : Stdlib) (settings : Settings) (d : Dedup) : Prop :=
  ∀ c ∈ d.bestByKey.values ++ d.unnormalizable, (rankScore lib settings c).isSome

theorem Dedup.ranked_set {d : Dedup} {c : Candidate} (hd : d.Ranked lib settings) (hc : (rankScore lib settings c).isSome)
    (key : Str × Str) (n : ℕ) : Ranked lib settings { d with bestByKey := d.bestByKey.set key c, duplicateCount := n } := by
  intro x hx
  rcases List.mem_append.1 hx with hx | hx
  · rcases Dict.mem_values_set hx with rfl | hx
    · exact hc
    · exact hd x (List.mem_append_left _ hx)
  · exact hd x (List.mem_append_right _ hx)

theorem Dedup.add_isSome {d : Dedup} {c : Candidate} (hd : d.Ranked lib settings) (hc : (rankScore lib settings c).isSome) :
    ∃ d', d.add lib settings c = some d' ∧ d'.Ranked lib settings := by
  have hpass : Ranked lib settings { d with unnormalizable := d.unnormalizable ++ [c] } := by
    intro x hx
    simp only [← List.append_assoc, List.mem_append (t := [c]), List.mem_singleton] at hx
    rcases hx with hx | rfl
    · exact hd x hx
    · exact hc
  unfold add
  split
  · exact ⟨_, rfl, hpass⟩
  · exact ⟨_, rfl, hpass⟩
  · dsimp only
    split
    · exact ⟨_, rfl, ranked_set hd hc _ _⟩
    · -- A duplicate: both candidates have a rank.
      rename_i existing hget
      obtain ⟨score, hscore⟩ := Option.isSome_iff_exists.1 hc
      obtain ⟨best, hbest⟩ := Option.isSome_iff_exists.1 (hd existing (List.mem_append_left _ (Dict.mem_of_get hget)))
      simp only [hscore, hbest, Option.bind_some, Option.map_some]
      refine ⟨_, rfl, ?_⟩
      split_ifs
      · exact ranked_set hd hc _ _
      · exact hd

theorem deduplicate_isSome {candidates : List Candidate} (h : ∀ c ∈ candidates, (rankScore lib settings c).isSome) :
    ∃ deduped n, deduplicate lib settings candidates = some (deduped, n) ∧
      ∀ c ∈ deduped, (rankScore lib settings c).isSome := by
  have fold : ∀ d : Dedup, d.Ranked lib settings →
      ∃ d', candidates.foldlM (Dedup.add lib settings) d = some d' ∧ d'.Ranked lib settings := by
    induction candidates with
    | nil => exact fun d hd => ⟨d, rfl, hd⟩
    | cons c cs ih =>
      intro d hd
      obtain ⟨d₁, h₁, hd₁⟩ := Dedup.add_isSome hd (h c (by simp))
      obtain ⟨d₂, h₂, hd₂⟩ := ih (fun x hx => h x (by simp [hx])) d₁ hd₁
      exact ⟨d₂, by simp [List.foldlM_cons, h₁, h₂], hd₂⟩
  obtain ⟨d, hd, hr⟩ := fold {} (by simp [Dedup.Ranked, Dict.values])
  exact ⟨_, _, by rw [deduplicate, hd]; rfl, hr⟩

theorem best_isSome {usable : List Candidate} (h : ∀ c ∈ usable, (rankScore lib settings c).isSome) (platform : Str) :
    (best lib settings usable platform).isSome := by
  unfold best
  dsimp only
  split_ifs
  · rfl
  · rw [Option.isSome_map]
    exact rank_isSome fun c hc => h c (List.mem_of_mem_filter hc)

theorem select_isSome {candidates : List Candidate} (h : ∀ c ∈ candidates, (rankScore lib settings c).isSome) :
    (select lib settings candidates).isSome := by
  obtain ⟨deduped, n, hd, hr⟩ := deduplicate_isSome h
  have hu : ∀ p, (best lib settings (deduped.filter fun c => truthy c.normalizedUrl) p).isSome :=
    best_isSome fun c hc => hr c (List.mem_of_mem_filter hc)
  obtain ⟨i, hi⟩ := Option.isSome_iff_exists.1 (hu "instagram".toList)
  obtain ⟨f, hf⟩ := Option.isSome_iff_exists.1 (hu "facebook".toList)
  simp only [select, hd, Option.bind_some, hi, hf, Option.map_some, Option.isSome_some]

/-- What `make_candidate` keeps has been parsed, so its rank can be computed. -/
theorem rankScore_makeCandidate (platform url source : Str) (confidence : Confidence) :
    (rankScore lib settings (makeCandidate lib platform url source confidence)).isSome := by
  unfold rankScore makeCandidate
  cases hn : (normalizeSocialUrl lib url).filter (isValidUrl lib) with
  | none => rfl
  | some u =>
    have hv : isValidUrl lib u = true := (Option.filter_eq_some_iff.1 hn).2
    cases hp : lib.urlparse u with
    | none => simp [isValidUrl, hp] at hv
    | some parsed => dsimp only; split_ifs <;> simp [hp]

theorem rankScore_discovered {platform : Str} {url confidence : Option Str} {c : Candidate}
    (hc : c ∈ discoveredCandidate lib platform url confidence) : (rankScore lib settings c).isSome := by
  unfold discoveredCandidate at hc
  split at hc
  · exact absurd hc List.not_mem_nil
  · exact absurd hc List.not_mem_nil
  · exact List.mem_singleton.1 hc ▸ rankScore_makeCandidate _ _ _ _

variable (lib settings) in
/-- The selection step never raises, whatever URLs the lead carries. -/
theorem selectLead_isSome (lead : BusinessLead) : (selectLead lib settings lead).isSome := by
  unfold selectLead
  dsimp only
  split_ifs
  · rfl
  · rw [Option.isSome_map]
    apply select_isSome
    intro c hc
    rcases List.mem_append.1 hc with hc | hc <;> exact rankScore_discovered hc

end Total

end SocialScraper
