import SocialScraper.Social.Reading
/-!
# Hrefs at rest

A second `normalize_social_url` changes nothing exactly if what the href spells
is at rest (`normalizeSocialUrl_idempotent_iff`): a link shim's target gets only
one trim after it is unwrapped, and no host if it has no scheme, and what the
tracking parameters hide at the end of a URL is never trimmed.
-/

namespace SocialScraper

/-- There is nothing to take off a URL of these parts, but for its tracking parameters. -/
structure AtRest (uc : Unicode) (netloc : Str) (path : Str × Str) (query : Str) : Prop where
  /-- The host is none that stands for another. -/
  host : mobileHosts (uc.lower netloc) = none
  /-- The URL is no link shim with a target. -/
  noShim : uc.lower netloc = "l.facebook.com".toList → path.1 = "/l.php".toList → ∀ kv ∈ parseQsl query, kv.1 ≠ "u".toList
  /-- The path does not end in a slash, but for a lone one in front of parameters. -/
  slashes : Trimmed path.1 path.2
  /-- Without a parameter to keep, nothing blank is in front of the query. -/
  blanks : HttpUrl.keptBoth uc (parseQsl query) = [] →
    ∀ c ∈ (netloc ++ (path.1 ++ behind ';' path.2)).getLast?, isSpace c = false

def Reading.AtRest (uc : Unicode) (a : Reading) : Prop := SocialScraper.AtRest uc a.location a.trimmed (a.cut a.query)

/-- The href, or the target in it if it is a link shim, spells a URL at rest. -/
def StaysPut (uc : Unicode) (href : Str) : Prop :=
  ∃ r, urlparse uc (HttpUrl.withScheme href) = some r ∧
    match linkTarget uc r with
    | none => ((hrefReading r).canonical uc).AtRest uc
    | some target => ∃ rt, urlparse uc target = some rt ∧
      (rt.scheme ∈ httpSchemes ∧ ((targetReading rt).canonical uc).AtRest uc ∨
        rt.scheme ∉ httpSchemes ∧ ∃ r', urlparse uc (HttpUrl.withScheme (urlunparse
          { rt with netloc := HttpUrl.canonicalHost uc rt.netloc })) = some r' ∧ r'.scheme = "https".toList ∧
          AtRest uc r'.netloc (trimmedPath r') r'.query)

variable {uc : Unicode}

theorem shimTarget_eq_none {r : ParseResult} : HttpUrl.shimTarget uc r = none ↔
    (uc.lower r.netloc = "l.facebook.com".toList → r.path = "/l.php".toList → ∀ kv ∈ parseQsl r.query, kv.1 ≠ "u".toList) := by
  unfold HttpUrl.shimTarget
  split_ifs with h
  · simp only [Option.map_eq_none_iff, List.find?_eq_none, decide_eq_true_eq]
    exact ⟨fun hall _ _ => hall, fun hall => hall h.1 h.2⟩
  · exact iff_of_true rfl fun hl hp => absurd ⟨hl, hp⟩ h

theorem settled_iff {r : ParseResult} :
    Settled uc r ↔ r.scheme = "https".toList ∧ AtRest uc r.netloc (r.path, r.params) r.query := by
  constructor
  · exact fun h => ⟨h.https, h.host, shimTarget_eq_none.1 h.noShim, h.trimmed, h.ends⟩
  · exact fun h => ⟨h.1, h.2.host, shimTarget_eq_none.2 h.2.noShim, h.2.slashes, h.2.blanks⟩

/-- A normal form is given back if the URL it was made of is at rest. -/
theorem HttpUrl.Normal.fixed_iff {v : HttpUrl uc} {n : Str} (h : v.Normal n) :
    normalizeSocialUrl (cpython uc) n = some n ↔
      v.scheme = "https".toList ∧ AtRest uc v.netloc (splitParams v.trimmed.path) v.query := by
  have hclean : Clean v.trimmed.cleaned := clean_cleaned (v.trimmed_query.symm ▸ h.encodes)
  have hsettled : normalizeSocialUrl (cpython uc) n = some n ↔ Settled uc v.trimmed.parts := by
    rw [h.text, ← settled_kept, ← parts_cleaned]
    exact ⟨fixed_settled hclean, settled_fixed hclean⟩
  rw [hsettled, settled_iff]
  simp only [parts, trimmed_scheme, trimmed_netloc, trimmed_query]

theorem Reading.ReadAs.fixed_iff {a : Reading} {v : HttpUrl uc} {n : Str} (hv : a.ReadAs v) (hs : v.scheme = "https".toList)
    (hn : v.Normal n) : normalizeSocialUrl (cpython uc) n = some n ↔ a.AtRest uc := by
  rw [hn.fixed_iff, hv.trimmed, hv.netloc, hv.query, and_iff_right hs]
  rfl

theorem atRest_nil : AtRest uc [] ([], []) [] where
  host := by
    rw [Unicode.lower_nil]
    decide
  noShim h := by
    rw [Unicode.lower_nil] at h
    cases h
  slashes := .inl rfl
  blanks _ c hc := by cases hc

/-- Normalizing a normalized URL again gives it back exactly if the href spells a URL at rest. -/
theorem normalizeSocialUrl_idempotent_iff (uc : Unicode) (u n : Str) (h : normalizeSocialUrl (cpython uc) u = some n) :
    normalizeSocialUrl (cpython uc) n = some n ↔ StaysPut uc u := by
  unfold StaysPut
  cases passes_read h with
  | blank hblank hn =>
    rw [hn, exists_some_iff (urlparse_blank hblank), linkTarget_nil]
    dsimp only
    rw [canonical_nil]
    exact iff_of_true normalizeSocialUrl_nil atRest_nil
  | href hr ht hs hv hn =>
    rw [exists_some_iff hr, ht]
    exact hv.fixed_iff hs hn
  | target hr ht hrt hhttp hs hv hn =>
    rw [exists_some_iff hr, ht]
    dsimp only
    rw [exists_some_iff hrt, or_iff_left fun h => h.1 hhttp, and_iff_right hhttp]
    exact hv.fixed_iff hs hn
  | anew hr ht hrt hother hread =>
    rw [exists_some_iff hr, ht]
    dsimp only
    rw [exists_some_iff hrt, or_iff_right fun h => hother h.1, and_iff_right hother]
    rcases hread with ⟨hblank, hn⟩ | ⟨v, r', hr', hparts, hn⟩
    · rw [hn, exists_some_iff (urlparse_blank hblank)]
      exact iff_of_true normalizeSocialUrl_nil ⟨rfl, atRest_nil⟩
    · have hpath : trimmedPath r' = splitParams v.trimmed.path := by
        rw [v.trimmed_path, ← trimmedPath_parts, ← hparts]
        rfl
      rw [exists_some_iff hr', hn.fixed_iff, hpath, show r'.scheme = v.scheme from congrArg ParseResult.scheme hparts,
        show r'.netloc = v.netloc from congrArg ParseResult.netloc hparts,
        show r'.query = v.query from congrArg ParseResult.query hparts]

theorem normalizeSocialUrl_idempotent_profile :
    normalizeSocialUrl (cpython .ascii) "https://www.facebook.com/foo".toList = some "https://www.facebook.com/foo".toList := by
  have hfirst : normalizeSocialUrl (cpython .ascii)
      "https://l.facebook.com/l.php?u=http%3A%2F%2FM.facebook.com%2Ffoo%2F%3Ffbclid%3D1%23x".toList =
        some "https://www.facebook.com/foo".toList := by decide +kernel
  have hparse : urlparse .ascii
      "https://l.facebook.com/l.php?u=http%3A%2F%2FM.facebook.com%2Ffoo%2F%3Ffbclid%3D1%23x".toList = some ⟨"https".toList,
        "l.facebook.com".toList, "/l.php".toList, [],
        "u=http%3A%2F%2FM.facebook.com%2Ffoo%2F%3Ffbclid%3D1%23x".toList, []⟩ := by decide +kernel
  have htarget : linkTarget .ascii ⟨"https".toList, "l.facebook.com".toList, "/l.php".toList, [],
      "u=http%3A%2F%2FM.facebook.com%2Ffoo%2F%3Ffbclid%3D1%23x".toList, []⟩ =
        some "http://M.facebook.com/foo/?fbclid=1#x".toList := by decide +kernel
  have hread : urlparse .ascii "http://M.facebook.com/foo/?fbclid=1#x".toList = some ⟨"http".toList,
      "M.facebook.com".toList, "/foo/".toList, [], "fbclid=1".toList, "x".toList⟩ := by decide +kernel
  have hcanonical : (targetReading ⟨"http".toList, "M.facebook.com".toList, "/foo/".toList, [], "fbclid=1".toList,
      "x".toList⟩).canonical .ascii = ⟨"www.facebook.com".toList, "/foo/".toList, "fbclid=1".toList, false⟩ := by decide +kernel
  have htrimmed : Reading.trimmed ⟨"www.facebook.com".toList, "/foo/".toList, "fbclid=1".toList, false⟩ = ("/foo".toList, []) := by
    decide +kernel
  have hrest : Reading.AtRest .ascii ⟨"www.facebook.com".toList, "/foo/".toList, "fbclid=1".toList, false⟩ := by
    rw [Reading.AtRest, htrimmed]
    refine ⟨by decide +kernel, fun hshim => ?_, .inl (by decide), fun _ c hc => ?_⟩
    · exact absurd hshim (by decide +kernel)
    · obtain rfl : 'o' = c := Option.some.inj hc
      decide
  refine (normalizeSocialUrl_idempotent_iff .ascii _ _ hfirst).2 ⟨_, hparse, ?_⟩
  rw [htarget]
  refine ⟨_, hread, .inl ⟨by decide, ?_⟩⟩
  rw [hcanonical]
  exact hrest

/-- The target of a link shim comes out of the first normalization without its canonical host. -/
theorem normalizeSocialUrl_not_idempotent : ¬ ∀ u n, normalizeSocialUrl (cpython .ascii) u = some n →
    normalizeSocialUrl (cpython .ascii) n = some n := by
  intro hall
  have hfirst : normalizeSocialUrl (cpython .ascii) "https://l.facebook.com/l.php?u=m.facebook.com%2Ffoo".toList =
      some "https://m.facebook.com/foo".toList := by decide +kernel
  have hsecond : normalizeSocialUrl (cpython .ascii) "https://m.facebook.com/foo".toList =
      some "https://www.facebook.com/foo".toList := by decide +kernel
  have hback := hall _ _ hfirst
  rw [hsecond] at hback
  exact absurd hback (by decide +kernel)

end SocialScraper
