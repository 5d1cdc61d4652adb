import SocialScraper.Social.LinkExtractor
import SocialScraper.Social.Reading
import SocialScraper.Urllib.Hostname
/-!
# Where an href leads

The platform the normal form of an href is on, read from the parts of the href
itself, or of the target in its query if it is a link shim (`onPlatform_iff`).
-/

namespace SocialScraper

/-! ## Definitions -/

/-- The host of the platform's normal forms. -/
def Platform.host : Platform → Str
  | .instagram => "www.instagram.com".toList
  | .facebook => "www.facebook.com".toList

/-- The hosts that `_MOBILE_HOSTS` maps to it. -/
def Platform.otherHosts : Platform → List Str
  | .instagram => ["instagram.com".toList]
  | .facebook => ["facebook.com".toList, "m.facebook.com".toList, "mobile.facebook.com".toList]

/-- The first segment of the path is not empty. -/
def hasSegment : Str → Bool
  | '/' :: c :: _ => c != '/'
  | _ => false

/-- The URL is on the host of the platform and has a first segment. -/
def OnPlatform (lib : Stdlib) (p : Platform) (url : Str) : Prop :=
  ∃ r, lib.urlparse url = some r ∧ lib.hostname r = some p.host ∧ hasSegment r.path = true

variable (uc : Unicode)

/-- The host of the parsed href is one of the platform's. -/
def Hosted (p : Platform) (r : ParseResult) : Prop := uc.lower r.netloc ∈ p.otherHosts ∨ hostname uc r = some p.host

/-- The target of a link shim is on the platform. Without an http scheme it gets one, but no canonical host. -/
def TargetOn (p : Platform) (target : Str) : Prop :=
  ∃ rt, urlparse uc target = some rt ∧
    (rt.scheme ∈ httpSchemes ∧ Hosted uc p rt ∧ hasSegment (targetReading rt).trimmed.1 = true ∨
      rt.scheme ∉ httpSchemes ∧ rt.netloc = [] ∧ ∃ r', urlparse uc (HttpUrl.withScheme (urlunparse rt)) = some r' ∧
        hostname uc r' = some p.host ∧ hasSegment (trimmedPath r').1 = true)

/-- The href leads to the platform. -/
def Reaches (p : Platform) (href : Str) : Prop :=
  ∃ r, urlparse uc (HttpUrl.withScheme href) = some r ∧
    match linkTarget uc r with
    | some target => TargetOn uc p target
    | none => Hosted uc p r ∧ hasSegment (hrefReading r).trimmed.1 = true

variable {uc}

/-! ## Hosts -/

theorem host_injective {p q : Platform} (h : p.host = q.host) : p = q := by
  revert h
  cases p <;> cases q <;> decide

theorem mobileHosts_iff {host : Str} {p : Platform} : mobileHosts host = some p.host ↔ host ∈ p.otherHosts := by
  constructor
  · intro h
    unfold mobileHosts at h
    split_ifs at h with hf hi
    · obtain rfl : Platform.facebook = p := host_injective (Option.some.inj h)
      simp only [Platform.otherHosts, List.mem_cons, List.not_mem_nil, or_false]
      exact hf
    · obtain rfl : Platform.instagram = p := host_injective (Option.some.inj h)
      simp only [Platform.otherHosts, List.mem_cons, List.not_mem_nil, or_false]
      exact hi
  · intro h
    have hall : ∀ host ∈ p.otherHosts, mobileHosts host = some p.host := by cases p <;> decide
    exact hall host h

theorem mobileHosts_host {host canonical : Str} (h : mobileHosts host = some canonical) : ∃ q : Platform, canonical = q.host := by
  have hmem := HttpUrl.mobileHosts_mem h
  simp only [HttpUrl.canonicalHosts, List.mem_cons, List.not_mem_nil, or_false] at hmem
  rcases hmem with rfl | rfl
  · exact ⟨.facebook, rfl⟩
  · exact ⟨.instagram, rfl⟩

/-- The host of a network location that is nothing else. -/
theorem hostname_plain {r : ParseResult} (hu : '@' ∉ r.netloc) (hb : '[' ∉ r.netloc) (hp : ':' ∉ r.netloc) {host : Str}
    (h : hostname uc r = some host) : '%' ∈ host ∨ host = uc.lower r.netloc := by
  rcases hostname_spec uc r with hnone | ⟨zoned, hz, hmem⟩ | hlower
  · rw [hnone] at h
    cases h
  · left
    rw [hz] at h
    exact Option.some.inj h ▸ hmem
  · right
    rw [hlower, hostinfo_plain hu hb, partition_of_not_mem hp] at h
    exact (Option.some.inj h).symm

theorem hostname_lower {p : Platform} {r : ParseResult} (hu : '@' ∉ r.netloc) (hb : '[' ∉ r.netloc) (hp : ':' ∉ r.netloc)
    (h : uc.lower r.netloc = p.host) : hostname uc r = some p.host := by
  have hparts : p.host ≠ [] ∧ '%' ∉ p.host := by cases p <;> decide
  have hne : r.netloc ≠ [] := by
    intro hnil
    rw [hnil, Unicode.lower_nil] at h
    exact hparts.1 h.symm
  have hzone : '%' ∉ r.netloc := fun hc => hparts.2 (h ▸ (Unicode.mem_lowerFrom rfl [] r.netloc).2 hc)
  rw [hostname, hostinfo_plain hu hb, partition_of_not_mem hp, partition_of_not_mem hzone]
  simp [hne, hzone, h]

theorem hostname_host (p : Platform) {r : ParseResult} (h : r.netloc = p.host) : hostname uc r = some p.host := by
  have hparts : hostinfo p.host = p.host ∧ p.host ≠ [] ∧ '%' ∉ p.host ∧ p.host.all isAscii = true ∧
      p.host.map Char.toLower = p.host := by
    cases p <;> decide
  obtain ⟨hinfo, hne, hzone, hascii, hlower⟩ := hparts
  rw [hostname, h, hinfo, partition_of_not_mem hzone]
  simp [hne, hzone, Unicode.lower_ascii (forall_of_all hascii), hlower]

theorem hostname_canonical (p : Platform) (r : ParseResult) :
    hostname uc { r with netloc := HttpUrl.canonicalHost uc r.netloc } = some p.host ↔ Hosted uc p r := by
  unfold Hosted HttpUrl.canonicalHost
  rw [← mobileHosts_iff]
  cases hm : mobileHosts (uc.lower r.netloc) with
  | none => simp
  | some canonical =>
    obtain ⟨q, rfl⟩ := mobileHosts_host hm
    have hq : hostname uc { r with netloc := q.host } = some q.host := hostname_host q rfl
    rw [Option.getD_some, hq]
    constructor
    · exact .inl
    · rintro (h | h)
      · exact h
      · -- The location is one of the other hosts, so it is no canonical one.
        exfalso
        have hplain : ∀ c, uncased c = true → (∀ host ∈ q.otherHosts, c ∉ host) → c ∉ r.netloc :=
          fun c hc hnone hmem => hnone _ (mobileHosts_iff.1 hm) ((Unicode.mem_lowerFrom hc [] r.netloc).2 hmem)
        have hcases := hostname_plain (hplain '@' rfl (by cases q <;> decide)) (hplain '[' rfl (by cases q <;> decide))
          (hplain ':' rfl (by cases q <;> decide)) h
        have hother : '%' ∉ p.host ∧ p.host ∉ q.otherHosts := by cases p <;> cases q <;> decide
        rcases hcases with hzone | hlower
        · exact hother.1 hzone
        · exact hother.2 (hlower ▸ mobileHosts_iff.1 hm)

theorem not_reaches_blank {p : Platform} {href : Str} (h : strip href = []) : ¬ Reaches uc p href := by
  rintro ⟨r, hr, hreach⟩
  rw [urlparse_blank h] at hr
  obtain rfl := Option.some.inj hr
  have hnone : [] ∉ p.otherHosts := by cases p <;> decide
  rcases hreach with ⟨hother | hhost, -⟩
  · exact hnone hother
  · cases hhost

/-! ## Normal forms -/

theorem not_onPlatform_nil (p : Platform) : ¬ OnPlatform (cpython uc) p [] := by
  rintro ⟨r, hr, hhost, -⟩
  rw [cpython_urlparse, HttpUrl.urlparse_nil] at hr
  obtain rfl := Option.some.inj hr
  cases hhost

theorem onPlatform_unique {lib : Stdlib} {p q : Platform} {url : Str} (hp : OnPlatform lib p url) (hq : OnPlatform lib q url) :
    p = q := by
  obtain ⟨r, hr, hhost, -⟩ := hp
  obtain ⟨r', hr', hhost', -⟩ := hq
  obtain rfl := Option.some.inj (hr.symm.trans hr')
  exact host_injective (Option.some.inj (hhost.symm.trans hhost'))

theorem onPlatform_cleaned {p : Platform} (w : HttpUrl uc) : OnPlatform (cpython uc) p w.cleaned.text ↔
    hostname uc w.parts = some p.host ∧ hasSegment (splitParams w.path).1 = true := by
  unfold OnPlatform
  rw [cpython_urlparse, w.cleaned.urlparse_text, HttpUrl.parts_cleaned]
  exact exists_some_iff rfl

/-- The normal form of what is read is on the platform of its host, if a segment is left of its path. -/
theorem Reading.ReadAs.onPlatform_iff {p : Platform} {a : Reading} {v : HttpUrl uc} {n : Str} (hv : (a.canonical uc).ReadAs v)
    (hn : v.Normal n) {r : ParseResult} (hr : r.netloc = a.netloc) :
    OnPlatform (cpython uc) p n ↔ Hosted uc p r ∧ hasSegment a.trimmed.1 = true := by
  have htrimmed : splitParams v.trimmed.path = a.trimmed := hv.trimmed
  rw [hn.text, onPlatform_cleaned, htrimmed]
  by_cases hpath : a.path = []
  · -- Without a path there is no segment.
    have hnil : hasSegment a.trimmed.1 = false := by
      rw [Reading.trimmed, hpath, Reading.cut]
      split_ifs <;> rfl
    simp [hnil]
  · have hlocation : v.netloc = HttpUrl.canonicalHost uc r.netloc := by
      rw [hv.netloc, hr]
      exact if_neg fun h => hpath h.1
    have hnetloc : v.trimmed.parts.netloc = HttpUrl.canonicalHost uc r.netloc := v.trimmed_netloc.trans hlocation
    rw [hostname_of_netloc hnetloc, ← hostname_canonical]

theorem hasSegment_slashes (path : Str) : hasSegment ("//".toList ++ path) = false := rfl

/-- A path from two slashes has no first segment. -/
theorem noSegment {r : ParseResult} {path : Str} (h : r.path = "//".toList ++ path) (hparams : '/' ∉ r.params) :
    hasSegment (trimmedPath r).1 = false := by
  rw [trimmedPath, h, HttpUrl.rstrip_append]
  split_ifs with hnil
  · have hslashes : rstrip (· == '/') "//".toList = [] := by decide
    rw [hslashes, List.nil_append, behind]
    split_ifs
    · rfl
    · -- All that is left is the parameters, in the segment behind the slash.
      have hseg : '/' ∉ ';' :: r.params := fun hc => (List.mem_cons.1 hc).elim (by decide) hparams
      have hdir : ∀ c ∈ "/".toList.getLast?, c = '/' := fun c hc => (Option.some.inj hc).symm
      obtain ⟨hlast, hdirName⟩ := span_segment hseg hdir
      have hrooted : rooted (';' :: r.params) = "/".toList ++ ';' :: r.params := rfl
      rw [hrooted, splitParams, hlast, hdirName]
      rfl
  · rw [List.append_assoc]
    have hrooted : ∀ s, rooted ("//".toList ++ s) = "//".toList ++ s := fun s => rfl
    rw [hrooted, splitParams_append (by decide)]
    exact hasSegment_slashes _

/-- The normal form of an href is on the platform the href leads to. -/
theorem onPlatform_iff {p : Platform} {h n : Str} (hn : normalizeSocialUrl (cpython uc) h = some n) :
    OnPlatform (cpython uc) p n ↔ Reaches uc p h := by
  unfold Reaches
  cases passes_read hn with
  | blank hblank hnil =>
    rw [hnil]
    exact iff_of_false (not_onPlatform_nil p) (not_reaches_blank hblank)
  | href hr ht _ hv hn =>
    rw [exists_some_iff hr, ht]
    exact hv.onPlatform_iff hn rfl
  | target hr ht hrt hhttp _ hv hn =>
    rw [exists_some_iff hr, ht]
    dsimp only [TargetOn]
    rw [exists_some_iff hrt, or_iff_left fun h => h.1 hhttp, and_iff_right hhttp]
    exact hv.onPlatform_iff hn rfl
  | @anew r t rt hr ht hrt hother hread =>
    rw [exists_some_iff hr, ht]
    dsimp only [TargetOn]
    rw [exists_some_iff hrt, or_iff_right fun h => hother h.1, and_iff_right hother]
    rcases hread with ⟨hblank, hnil⟩ | ⟨v, r', hr', hparts, hn⟩
    · rw [hnil]
      apply iff_of_false (not_onPlatform_nil p)
      rintro ⟨hnetloc, r', hr', hhost, -⟩
      rw [canonical_self hnetloc] at hblank
      rw [urlparse_blank hblank] at hr'
      obtain rfl := Option.some.inj hr'
      cases hhost
    · have hpath : trimmedPath r' = splitParams v.trimmed.path := by
        rw [v.trimmed_path, ← trimmedPath_parts, ← hparts]
        rfl
      have hhost : hostname uc v.trimmed.parts = hostname uc r' :=
        hostname_congr (v.trimmed_netloc.trans (congrArg ParseResult.netloc hparts).symm)
      rw [hn.text, onPlatform_cleaned, ← hpath, hhost]
      by_cases hnetloc : rt.netloc = []
      · rw [canonical_self hnetloc] at hr'
        rw [and_iff_right hnetloc, exists_some_iff hr']
      · -- The location of the target is in the path then.
        obtain ⟨⟨path, hslashes⟩, hparams⟩ := foreign_path hrt hother (canonicalHost_ne_nil hnetloc) hr'
        simp [noSegment hslashes hparams, hnetloc]

end SocialScraper
