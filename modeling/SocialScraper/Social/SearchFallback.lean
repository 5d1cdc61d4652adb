import Mathlib.Data.List.Infix
import SocialScraper.Social.CanonicalSlug
import SocialScraper.Social.Classifier
/-!
# The search fallback

`SocialSearchFallback.find` takes the first profile among the search results
that is related to the business, or else the first result that spells the
platform's domain anywhere. The latter stays on the platform exactly if it
leads there; the former is the first of all results if none that does not spell
the domain was passed over (`search_fallback_iff`).
-/

namespace SocialScraper

/-! ## `find` -/

/-- `[a-z0-9]`. -/
def wordLetter (c : Char) : Bool := c.isLower || c.isDigit

/-- `re.findall(r"[a-z0-9]+", s)`. -/
def findWords (s : Str) : List Str := (s.splitOnP fun c => !wordLetter c).filter (· ≠ [])

section Find

variable (lib : Stdlib)

/-- `_looks_related`. -/
def looksRelated (businessName slug : Str) : Bool :=
  match findWords (lib.lower businessName) with
  | [] => true
  | firstWord :: _ =>
    let normalizedSlug := (lib.lower slug).filter wordLetter
    firstWord <:+: normalizedSlug

/-- The test of the first pass. -/
def isRelatedProfile (businessName : Str) (p : Platform) (url : Str) : Bool :=
  match canonicalSlug lib url p.name with
  | some slug => slug ≠ [] && looksRelated lib businessName slug
  | none => false

/-- The domain is somewhere in the text. -/
def spellsDomain (p : Platform) (rawUrl : Str) : Bool := p.domain <:+: rawUrl

def searchQuery (p : Platform) (businessName : Str) : Str :=
  "site:".toList ++ p.domain ++ " \"".toList ++ businessName ++ "\"".toList

/-- `SocialSearchFallback.find`, with the provider's `discover` and `SOCIAL_SEARCH_RESULT_LIMIT`. -/
def SocialSearchFallback.find (discover : Str → Str → ℕ → List Str) (limit : ℕ) (businessName : Str) (p : Platform) :
    Option Str × Bool :=
  let rawUrls := discover (searchQuery p businessName) [] limit
  let platformUrls := (rawUrls.filter (spellsDomain p)).filterMap (normalizeSocialUrl lib)
  match platformUrls.find? (isRelatedProfile lib businessName p) with
  | some url => (some url, true)
  | none =>
    match platformUrls with
    | url :: _ => (some url, false)
    | [] => (none, false)

end Find

example : findWords "joe's coffee 24".toList = ["joe".toList, "s".toList, "coffee".toList, "24".toList] := by decide

example : looksRelated (cpython .ascii) "Rosa's Bar".toList "la.rosa".toList = true := by decide +kernel

example : (let results := ["https://www.instagram.com/starbucks/reels/".toList, "https://www.instagram.com/starbucks/".toList]
    SocialSearchFallback.find (cpython .ascii) (fun _ _ limit => results.take limit) 10 "Starbucks".toList .instagram) =
      (some "https://www.instagram.com/starbucks".toList, true) := by decide +kernel

/-! ## Domains -/

variable (uc : Unicode)

def HasHost (url host : Str) : Prop := ∃ r, urlparse uc url = some r ∧ hostname uc r = some host

/-- The host is the domain of the platform or a subdomain. -/
def Platform.owns (p : Platform) (host : Str) : Prop := host = p.domain ∨ '.' :: p.domain <:+ host

def OnDomain (p : Platform) (url : Str) : Prop := ∃ host, HasHost uc url host ∧ p.owns host

/-- The host of what is read. -/
def Reading.HasHost (a : Reading) (host : Str) : Prop :=
  hostname uc ⟨[], (a.canonical uc).location, [], [], [], []⟩ = some host

/-- The host a result leads to: its own, or that of the target in its query if it is a link shim. -/
def LeadsToHost (rawUrl host : Str) : Prop :=
  ∃ r, urlparse uc (HttpUrl.withScheme rawUrl) = some r ∧
    match linkTarget uc r with
    | none => (hrefReading r).HasHost uc host
    | some target => ∃ rt, urlparse uc target = some rt ∧
      (rt.scheme ∈ httpSchemes ∧ (targetReading rt).HasHost uc host ∨
        rt.scheme ∉ httpSchemes ∧ HasHost uc (HttpUrl.withScheme (urlunparse rt)) host)

def LeadsToDomain (p : Platform) (rawUrl : Str) : Prop := ∃ host, LeadsToHost uc rawUrl host ∧ p.owns host

variable {uc}

/-! ## The host of a normal form -/

theorem hasHost_text (w : HttpUrl uc) {host : Str} : HasHost uc w.text host ↔ hostname uc w.parts = some host :=
  exists_some_iff w.urlparse_text

theorem hasHost_cleaned (w : HttpUrl uc) {host : Str} : HasHost uc w.cleaned.text host ↔ hostname uc w.parts = some host := by
  rw [hasHost_text, HttpUrl.parts_cleaned]
  rfl

theorem not_hasHost_nil (host : Str) : ¬ HasHost uc [] host := by
  rintro ⟨r, hr, hhost⟩
  rw [HttpUrl.urlparse_nil] at hr
  obtain rfl := Option.some.inj hr
  cases hhost

theorem hasHost_normal {v : HttpUrl uc} {n host : Str} (hn : v.Normal n) {netloc : Str} (h : v.netloc = netloc) :
    HasHost uc n host ↔ hostname uc ⟨[], netloc, [], [], [], []⟩ = some host := by
  have hname : hostname uc v.trimmed.parts = hostname uc ⟨[], netloc, [], [], [], []⟩ :=
    hostname_congr (v.trimmed_netloc.trans h)
  rw [hn.text, hasHost_cleaned, hname]

/-- The text behind the scheme is read to the same host, whatever the host of the target is. -/
theorem hasHost_anew {t : Str} {r r' : ParseResult} (hr : urlparse uc t = some r) (hother : r.scheme ∉ httpSchemes)
    (hr' : urlparse uc (HttpUrl.withScheme (urlunparse { r with netloc := HttpUrl.canonicalHost uc r.netloc })) = some r')
    {host : Str} : HasHost uc (HttpUrl.withScheme (urlunparse r)) host ↔ hostname uc r' = some host := by
  by_cases hnetloc : r.netloc = []
  · rw [canonical_self hnetloc] at hr'
    exact exists_some_iff hr'
  · -- Both locations are read as the start of a path.
    obtain ⟨tail, htext⟩ := foreign_text hr hother hnetloc
    obtain ⟨r₀, hr₀, hnetloc₀⟩ := urlparse_netloc https_mem (schemeHost_ok hr) ('/' :: tail)
    rw [HasHost, htext, exists_some_iff hr₀]
    rw [hostname_congr (hnetloc₀.trans (foreign_netloc hr hother (canonicalHost_ne_nil hnetloc) hr').symm)]

/-- The host of the normal form is the one the result leads to. -/
theorem hasHost_iff {rawUrl n host : Str} (hn : normalizeSocialUrl (cpython uc) rawUrl = some n) :
    HasHost uc n host ↔ LeadsToHost uc rawUrl host := by
  unfold LeadsToHost
  cases passes_read hn with
  | blank hblank hnil =>
    rw [hnil, exists_some_iff (urlparse_blank hblank), linkTarget_nil]
    refine iff_of_false (not_hasHost_nil host) ?_
    dsimp only [Reading.HasHost]
    rw [canonical_nil]
    exact nofun
  | href hr ht _ hv hn =>
    rw [exists_some_iff hr, ht]
    exact hasHost_normal hn hv.netloc
  | target hr ht hrt hhttp _ hv hn =>
    rw [exists_some_iff hr, ht]
    dsimp only
    rw [exists_some_iff hrt, or_iff_left fun h => h.1 hhttp, and_iff_right hhttp]
    exact hasHost_normal hn hv.netloc
  | anew hr ht hrt hother hread =>
    rw [exists_some_iff hr, ht]
    dsimp only
    rw [exists_some_iff hrt, or_iff_right fun h => hother h.1, and_iff_right hother]
    rcases hread with ⟨hblank, hnil⟩ | ⟨v, r', hr', hparts, hn⟩
    · rw [hnil, hasHost_anew hrt hother (urlparse_blank hblank)]
      exact iff_of_false (not_hasHost_nil host) nofun
    · rw [hasHost_anew hrt hother hr']
      exact hasHost_normal hn (congrArg ParseResult.netloc hparts).symm

theorem onDomain_iff {p : Platform} {rawUrl n : Str} (hn : normalizeSocialUrl (cpython uc) rawUrl = some n) :
    OnDomain uc p n ↔ LeadsToDomain uc p rawUrl := by
  unfold OnDomain LeadsToDomain
  simp only [hasHost_iff hn]

/-! ## Canonical URLs -/

theorem canonicalSlug_base {lib : Stdlib} {p : Platform} {url s : Str} (h : canonicalSlug lib url p.name = some s) :
    p.base <+: url := by
  by_cases hpage : p = .facebook ∧ profilePage.isPrefixOf url
  · obtain ⟨rfl, hpage⟩ := hpage
    have hbase : Platform.facebook.base <+: profilePage := ⟨"profile.php?id=".toList, by decide⟩
    exact hbase.trans (List.isPrefixOf_iff_prefix.1 hpage)
  · obtain ⟨-, tail, -, rfl⟩ := (canonicalSlug_pattern hpage).1 h
    exact List.prefix_append _ _

theorem netlocOk_host (p : Platform) : NetlocOk uc p.host := by
  have hmobile : ∃ name, mobileHosts name = some p.host := by
    cases p with
    | instagram => exact ⟨"instagram.com".toList, rfl⟩
    | facebook => exact ⟨"facebook.com".toList, rfl⟩
  obtain ⟨name, hname⟩ := hmobile
  exact HttpUrl.netlocOk_canonical hname

/-- What is behind the base of a platform is behind its www host. -/
theorem base_append (p : Platform) (rest : Str) :
    p.base ++ rest = "https".toList ++ ("://".toList ++ (p.host ++ '/' :: rest)) := by
  have hbase : p.base = "https".toList ++ ("://".toList ++ (p.host ++ ['/'])) := by
    cases p <;> decide
  rw [hbase, List.append_assoc, List.append_assoc, List.append_assoc]
  rfl

/-- A canonical URL is on the www host of the platform. -/
theorem onDomain_canonical {lib : Stdlib} {p : Platform} {url s : Str} (h : canonicalSlug lib url p.name = some s) :
    OnDomain uc p url := by
  obtain ⟨rest, rfl⟩ := canonicalSlug_base h
  have hok : NetlocOk uc p.host := netlocOk_host p
  obtain ⟨r, hr, hnetloc⟩ := urlparse_netloc https_mem hok rest
  refine ⟨p.host, ⟨r, base_append p rest ▸ hr, hostname_host p hnetloc⟩, .inr ?_⟩
  cases p with
  | instagram => exact ⟨"www".toList, rfl⟩
  | facebook => exact ⟨"www".toList, rfl⟩

/-! ## The choice -/

section Choice

variable (lib : Stdlib) (businessName : Str) (p : Platform)

/-- The result is that of a profile related to the business. -/
def leadsToProfile (rawUrl : Str) : Bool := (normalizeSocialUrl lib rawUrl).any (isRelatedProfile lib businessName p)

/-- The first of the results that can be normalized. -/
def firstUsable (results : List Str) : Option Str := results.find? fun rawUrl => (normalizeSocialUrl lib rawUrl).isSome

/-- A URL returned as canonical is that of the first of the results that leads to a related profile. -/
def TakesFirst (results : List Str) (result : Option Str × Bool) : Prop :=
  result.2 = true → ∃ rawUrl url, results.find? (leadsToProfile lib businessName p) = some rawUrl ∧
    normalizeSocialUrl lib rawUrl = some url ∧ result.1 = some url

theorem findSome?_eq (results : List Str) :
    results.findSome? (normalizeSocialUrl lib) = (firstUsable lib results).bind (normalizeSocialUrl lib) := by
  induction results with
  | nil => rfl
  | cons rawUrl results ih =>
    rw [List.findSome?_cons, firstUsable, List.find?_cons]
    cases hn : normalizeSocialUrl lib rawUrl with
    | none => exact ih
    | some url => exact hn.symm

/-- The result is the first related profile or, without one, the first URL at all. -/
def Chosen (usable : List Str) (result : Option Str × Bool) : Prop :=
  (∃ rawUrl url, usable.find? (leadsToProfile lib businessName p) = some rawUrl ∧
    normalizeSocialUrl lib rawUrl = some url ∧ isRelatedProfile lib businessName p url = true ∧ result = (some url, true)) ∨
  usable.find? (leadsToProfile lib businessName p) = none ∧
    result = ((firstUsable lib usable).bind (normalizeSocialUrl lib), false)

/-- What `find` chooses from the results that spell the domain. -/
theorem find_chosen (discover : Str → Str → ℕ → List Str) (limit : ℕ) :
    Chosen lib businessName p ((discover (searchQuery p businessName) [] limit).filter (spellsDomain p))
      (SocialSearchFallback.find lib discover limit businessName p) := by
  generalize husable : (discover (searchQuery p businessName) [] limit).filter (spellsDomain p) = usable
  have hfirst : (usable.filterMap (normalizeSocialUrl lib)).find? (isRelatedProfile lib businessName p) =
      (usable.find? (leadsToProfile lib businessName p)).bind (normalizeSocialUrl lib) := List.find?_filterMap
  cases hfind : usable.find? (leadsToProfile lib businessName p) with
  | some rawUrl =>
    have hleads : leadsToProfile lib businessName p rawUrl = true := List.find?_some hfind
    obtain ⟨url, hurl, hrelated⟩ := (Option.any_eq_true _ _).1 hleads
    refine .inl ⟨rawUrl, url, hfind, hurl, hrelated, ?_⟩
    rw [hfind, Option.bind_some, hurl] at hfirst
    simp only [SocialSearchFallback.find, husable]
    rw [hfirst]
  | none =>
    refine .inr ⟨hfind, ?_⟩
    rw [hfind, Option.bind_none] at hfirst
    have hhead : (usable.filterMap (normalizeSocialUrl lib)).head? =
        (firstUsable lib usable).bind (normalizeSocialUrl lib) := by
      rw [List.head?_filterMap]
      exact findSome?_eq lib usable
    simp only [SocialSearchFallback.find, husable]
    rw [hfirst, ← hhead]
    cases usable.filterMap (normalizeSocialUrl lib) <;> rfl

variable {lib businessName p}

theorem isRelatedProfile_slug {url : Str} (h : isRelatedProfile lib businessName p url = true) :
    ∃ s, canonicalSlug lib url p.name = some s := by
  unfold isRelatedProfile at h
  split at h
  · exact ⟨_, ‹_›⟩
  · cases h

namespace Chosen

variable {usable : List Str} {result : Option Str × Bool}

/-- The profile is the first of more results, too, if the first of them leads to the same. -/
theorem takesFirst_iff (h : Chosen lib businessName p usable result) {results : List Str} (hsub : usable ⊆ results) :
    TakesFirst lib businessName p results result ↔
      ∀ rawUrl first, usable.find? (leadsToProfile lib businessName p) = some rawUrl →
        results.find? (leadsToProfile lib businessName p) = some first →
        normalizeSocialUrl lib first = normalizeSocialUrl lib rawUrl := by
  rcases h with ⟨rawUrl, url, hfind, hurl, -, rfl⟩ | ⟨hnone, rfl⟩
  · constructor
    · intro htakes rawUrl' first hfind' hfirst
      obtain ⟨first', url', hfirst', hurl', hsame⟩ := htakes rfl
      obtain rfl := Option.some.inj (hfind.symm.trans hfind')
      obtain rfl := Option.some.inj (hfirst.symm.trans hfirst')
      obtain rfl := Option.some.inj hsame
      exact hurl'.trans hurl.symm
    · intro hsame _
      have hleads : leadsToProfile lib businessName p rawUrl = true := List.find?_some hfind
      have hsome : (results.find? (leadsToProfile lib businessName p)).isSome :=
        List.find?_isSome.2 ⟨rawUrl, hsub (List.mem_of_find?_eq_some hfind), hleads⟩
      obtain ⟨first, hfirst⟩ := Option.isSome_iff_exists.1 hsome
      exact ⟨first, url, hfirst, (hsame rawUrl first hfind hfirst).trans hurl, rfl⟩
  · refine iff_of_true (fun hcanonical => absurd hcanonical Bool.false_ne_true) ?_
    intro rawUrl first hfind
    rw [hnone] at hfind
    cases hfind

theorem stays_iff (h : Chosen (cpython uc) businessName p usable result) :
    (∀ url, result.1 = some url → OnDomain uc p url) ↔
      (∃ rawUrl ∈ usable, leadsToProfile (cpython uc) businessName p rawUrl = true) ∨
        ∀ rawUrl, firstUsable (cpython uc) usable = some rawUrl → LeadsToDomain uc p rawUrl := by
  rcases h with ⟨rawUrl, url, hfind, -, hrelated, rfl⟩ | ⟨hnone, rfl⟩
  · refine iff_of_true ?_ (.inl ⟨rawUrl, List.mem_of_find?_eq_some hfind, List.find?_some hfind⟩)
    rintro _ ⟨⟩
    obtain ⟨s, hs⟩ := isRelatedProfile_slug hrelated
    exact onDomain_canonical hs
  · rw [or_iff_right]
    · constructor
      · intro hstays rawUrl hfirst
        have husable : (normalizeSocialUrl (cpython uc) rawUrl).isSome = true :=
          List.find?_some (p := fun rawUrl => (normalizeSocialUrl (cpython uc) rawUrl).isSome) hfirst
        obtain ⟨url, hurl⟩ := Option.isSome_iff_exists.1 husable
        refine (onDomain_iff hurl).1 (hstays url ?_)
        rw [hfirst]
        exact hurl
      · intro hleads url hurl
        obtain ⟨rawUrl, hfirst, hn⟩ := Option.bind_eq_some_iff.1 hurl
        exact (onDomain_iff hn).2 (hleads rawUrl hfirst)
    · rintro ⟨rawUrl, hmem, hleads⟩
      exact List.find?_eq_none.1 hnone rawUrl hmem hleads

end Chosen

end Choice

/-- The fallback does what it is for exactly if it finds a related profile, or else the first result that it can use leads
to the platform, and no profile before that one, in a result that does not spell the domain, has another URL. -/
theorem search_fallback_iff (uc : Unicode) (discover : Str → Str → ℕ → List Str) (limit : ℕ) (businessName : Str)
    (p : Platform) :
    let lib := cpython uc
    let results := discover (searchQuery p businessName) [] limit
    let usable := results.filter (spellsDomain p)
    let result := SocialSearchFallback.find lib discover limit businessName p
    ((∀ url, result.1 = some url → OnDomain uc p url) ∧ TakesFirst lib businessName p results result) ↔
      ((∃ rawUrl ∈ usable, leadsToProfile lib businessName p rawUrl = true) ∨
        ∀ rawUrl, firstUsable lib usable = some rawUrl → LeadsToDomain uc p rawUrl) ∧
      ∀ rawUrl first, usable.find? (leadsToProfile lib businessName p) = some rawUrl →
        results.find? (leadsToProfile lib businessName p) = some first →
        normalizeSocialUrl lib first = normalizeSocialUrl lib rawUrl := by
  intro lib results usable result
  have hchosen : Chosen lib businessName p usable result := find_chosen lib businessName p discover limit
  exact and_congr hchosen.stays_iff (hchosen.takesFirst_iff List.filter_sublist.subset)

/-- An advertisement with the domain in its query is taken for a result of the platform, and a profile with a capital
letter in its domain for none. -/
theorem advertisement_found : (let lib := cpython .ascii
    let advertisement := fun _ _ _ => ["https://ads.test/?ad_domain=instagram.com".toList]
    let capital := fun _ _ _ => ["https://Instagram.com/cafe".toList, "https://www.instagram.com/cafe2".toList]
    SocialSearchFallback.find lib advertisement 10 "Cafe Rosa".toList .instagram =
        (some "https://ads.test?ad_domain=instagram.com".toList, false) ∧
      SocialSearchFallback.find lib capital 10 "Cafe".toList .instagram =
        (some "https://www.instagram.com/cafe2".toList, true) ∧
      leadsToProfile lib "Cafe".toList .instagram "https://Instagram.com/cafe".toList = true) ∧
    ¬ OnDomain .ascii .instagram "https://ads.test?ad_domain=instagram.com".toList := by
  refine ⟨by decide +kernel, ?_⟩
  rintro ⟨host, ⟨r, hr, hhost⟩, howns⟩
  have hparts : urlparse .ascii "https://ads.test?ad_domain=instagram.com".toList =
      some ⟨"https".toList, "ads.test".toList, [], [], "ad_domain=instagram.com".toList, []⟩ := by decide +kernel
  rw [hparts] at hr
  obtain rfl := Option.some.inj hr
  have hads : hostname .ascii ⟨"https".toList, "ads.test".toList, [], [], "ad_domain=instagram.com".toList, []⟩ =
      some "ads.test".toList := by decide +kernel
  obtain rfl := Option.some.inj (hads.symm.trans hhost)
  rcases howns with hdomain | hsub
  · exact absurd hdomain (by decide)
  · exact absurd hsub (by decide)

end SocialScraper
