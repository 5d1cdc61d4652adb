import SocialScraper.Social.SearchFallback
/-!
# Canonical profiles rank first

The pattern of a canonical URL fixes what `urlparse` sees: the www host and a
path of one segment (`canonical_parsed`). That is worth at least what the best
source is worth to a link without a slug, so at one tier it never falls behind.
-/

namespace SocialScraper

variable {uc : Unicode} {settings : Settings}

/-! ## What `urlparse` sees -/

/-- The path behind a host, up to the parameters. -/
theorem path_http {scheme : Str} (hs : scheme ∈ httpSchemes) {host rest : Str} {r : ParseResult}
    (hchars : ∀ c ∈ host, netlocEnd c = false ∧ unsafeByte c = false)
    (h : urlparse uc (scheme ++ ("://".toList ++ (host ++ '/' :: rest))) = some r) :
    r.path = (splitParams (partition '?' (partition '#' ('/' :: rest.filter (!unsafeByte ·))).1).1).1 := by
  obtain ⟨split, hsplit, -⟩ := Option.map_eq_some_iff.1 h
  have hurl := urlsplit_http uc hs (host ++ '/' :: rest)
  rw [hsplit] at hurl
  have hclean : (host ++ '/' :: rest).filter (!unsafeByte ·) = host ++ '/' :: rest.filter (!unsafeByte ·) := by
    rw [List.filter_append, List.filter_eq_self.2 fun c hc => by simp [(hchars c hc).2]]
    rfl
  have hdrop : (host ++ '/' :: rest.filter (!unsafeByte ·)).dropWhile (!netlocEnd ·) = '/' :: rest.filter (!unsafeByte ·) :=
    (span_append (fun c hc => by simp [(hchars c hc).1]) fun c hc => by obtain rfl := Option.some.inj hc; rfl).2
  simp only [hclean, hdrop] at hurl
  split_ifs at hurl
  obtain rfl := Option.some.inj hurl
  have hparse := urlparse_http hs hsplit
  rw [h] at hparse
  exact congrArg ParseResult.path (Option.some.inj hparse)

/-- A path of one segment, with or without a slash behind it. -/
def OneSegment (path : Str) : Prop := ∃ segment tail, '/' ∉ segment ∧ tail ∈ [[], ['/']] ∧ path = '/' :: (segment ++ tail)

theorem oneSegment_length {path : Str} (h : OneSegment path) : ((path.splitOn '/').filter (· ≠ [])).length ≤ 1 := by
  obtain ⟨segment, tail, hs, htail, rfl⟩ := h
  simp only [List.mem_cons, List.not_mem_nil, or_false] at htail
  rcases htail with rfl | rfl
  · have hjoin : '/' :: (segment ++ []) = ['/'].intercalate [[], segment] := by simp [List.intercalate]
    rw [hjoin, List.splitOn_intercalate '/' (by simp [hs]) (by simp)]
    exact List.length_filter_le (· ≠ []) [segment]
  · have hjoin : '/' :: (segment ++ ['/']) = ['/'].intercalate [[], segment, []] := by simp [List.intercalate]
    rw [hjoin, List.splitOn_intercalate '/' (by simp [hs]) (by simp)]
    have hfilter : ([[], segment, []] : List Str).filter (· ≠ []) = [segment].filter (· ≠ []) := by
      simp [List.filter_cons]
    rw [hfilter]
    exact List.length_filter_le (· ≠ []) [segment]

/-- No character of a slug ends the path or a segment, or is dropped. -/
theorem slugChar_plain {p : Platform} {c : Char} (h : p.slugChar c = true) :
    unsafeByte c = false ∧ c ≠ '/' ∧ c ≠ '?' ∧ c ≠ '#' ∧ c ≠ ';' := by
  have hnone : ['\t', '\r', '\n', '/', '?', '#', ';'].all (!p.slugChar ·) = true := by cases p <;> decide
  have hother : ∀ d ∈ ['\t', '\r', '\n', '/', '?', '#', ';'], c ≠ d := by
    rintro d hd rfl
    have hd' := forall_of_all hnone c hd
    rw [h] at hd'
    cases hd'
  refine ⟨eq_false_of_ne_true fun hu => ?_, hother _ (by simp), hother _ (by simp), hother _ (by simp), hother _ (by simp)⟩
  exact hother c (List.mem_append_left ['/', '?', '#', ';'] (List.contains_iff_mem.1 hu)) rfl

/-- The path of a URL that the pattern matches. -/
theorem path_slug {p : Platform} {s tail : Str} (hs : ∀ c ∈ s, p.slugChar c = true)
    (htail : tail ∈ [[], ['/'], ['\n'], ['/', '\n']]) :
    OneSegment (splitParams (partition '?' (partition '#' ('/' :: (s ++ tail).filter (!unsafeByte ·))).1).1).1 := by
  have hclean : s.filter (!unsafeByte ·) = s := List.filter_eq_self.2 fun c hc => by simp [(slugChar_plain (hs c hc)).1]
  have hline : tail.filter (!unsafeByte ·) ∈ [[], ['/']] := by
    simp only [List.mem_cons, List.not_mem_nil, or_false] at htail
    rcases htail with rfl | rfl | rfl | rfl <;> decide
  rw [List.filter_append, hclean]
  generalize tail.filter (!unsafeByte ·) = slash at hline
  have hmem : ∀ c ∈ '/' :: (s ++ slash), c = '/' ∨ p.slugChar c = true := by
    intro c hc
    simp only [List.mem_cons, List.mem_append] at hc
    rcases hc with rfl | hc | hc
    · exact .inl rfl
    · exact .inr (hs c hc)
    · simp only [List.mem_cons, List.not_mem_nil, or_false] at hline
      rcases hline with rfl | rfl
      · cases hc
      · exact .inl (List.mem_singleton.1 hc)
  have hnot : ∀ d ∈ ['?', '#', ';'], d ∉ '/' :: (s ++ slash) := by
    intro d hd hc
    rcases hmem d hc with rfl | hc
    · exact absurd hd (by decide)
    · obtain ⟨-, -, hq, hf, hp⟩ := slugChar_plain hc
      simp only [List.mem_cons, List.not_mem_nil, or_false] at hd
      rcases hd with rfl | rfl | rfl
      · exact hq rfl
      · exact hf rfl
      · exact hp rfl
  rw [partition_of_not_mem (hnot '#' (by simp)), partition_of_not_mem (hnot '?' (by simp)),
    splitParams_plain (hnot ';' (by simp))]
  exact ⟨s, slash, fun hc => (slugChar_plain (hs _ hc)).2.1 rfl, hline, rfl⟩

/-- The path of a profile page, whatever is behind its prefix. -/
theorem path_page (tail : Str) : OneSegment
    (splitParams (partition '?' (partition '#'
      ('/' :: ("profile.php?id=".toList ++ tail).filter (!unsafeByte ·))).1).1).1 := by
  have hclean : ("profile.php?id=".toList ++ tail).filter (!unsafeByte ·) =
      "profile.php?id=".toList ++ tail.filter (!unsafeByte ·) := List.filter_append ..
  have hpath : ∀ t : Str, (partition '?' (partition '#' ('/' :: ("profile.php?id=".toList ++ t))).1).1 =
      "/profile.php".toList := fun _ => rfl
  rw [hclean, hpath]
  exact ⟨"profile.php".toList, [], by decide, List.mem_cons_self, by decide⟩

/-- A canonical URL is read as the www host and a path of one segment. -/
theorem canonical_parsed {lib : Stdlib} {p : Platform} {url s : Str} (h : canonicalSlug lib url p.name = some s)
    {r : ParseResult} (hr : urlparse uc url = some r) : r.netloc = p.host ∧ OneSegment r.path := by
  have hok : NetlocOk uc p.host := netlocOk_host p
  obtain ⟨rest, rfl⟩ := canonicalSlug_base h
  rw [base_append] at hr
  refine ⟨netloc_http https_mem hok.chars hr, ?_⟩
  rw [path_http https_mem hok.chars hr]
  by_cases hpage : p = .facebook ∧ profilePage.isPrefixOf (p.base ++ rest)
  · obtain ⟨rfl, hpage⟩ := hpage
    obtain ⟨tail, htail⟩ := List.isPrefixOf_iff_prefix.1 hpage
    have hjoin : profilePage ++ tail = Platform.facebook.base ++ ("profile.php?id=".toList ++ tail) := by
      rw [← List.append_assoc]
      exact congrArg (· ++ tail) (by decide)
    obtain rfl := List.append_cancel_left (hjoin.symm.trans htail)
    exact path_page tail
  · obtain ⟨hs, tail, htail, hurl⟩ := (canonicalSlug_pattern hpage).1 h
    obtain rfl := List.append_cancel_left hurl
    exact path_slug hs.1 htail

/-! ## The scores -/

/-- The platforms of the engine. -/
theorem platform_of_slug {lib : Stdlib} {url platform : Str} (h : truthy (canonicalSlug lib url platform) = true) :
    ∃ p : Platform, platform = p.name := by
  by_cases hi : platform = "instagram".toList
  · exact ⟨.instagram, hi⟩
  · by_cases hf : platform = "facebook".toList
    · exact ⟨.facebook, hf⟩
    · rw [canonicalSlug, if_neg hi, if_neg hf] at h
      cases h

theorem rankScore_usable {lib : Stdlib} {c : Candidate} {n : Str} (hn : c.normalizedUrl = some n) (hne : n ≠ []) :
    rankScore lib settings c = (lib.urlparse n).map fun r =>
      confidenceScore settings c.confidence + sourceWeight c.source + canonicalBonus lib n c.platform +
        domainQualityScore r c.platform + cleanlinessScore r := by
  simp only [rankScore, hn, if_neg hne]

theorem sourceWeight_le (source : Str) : sourceWeight source ≤ 15 := by
  unfold sourceWeight
  split_ifs <;> omega

theorem domainQualityScore_le (r : ParseResult) (platform : Str) : domainQualityScore r platform ≤ 10 := by
  unfold domainQualityScore
  split_ifs <;> omega

theorem cleanlinessScore_le (r : ParseResult) : cleanlinessScore r ≤ 10 := by
  unfold cleanlinessScore
  dsimp only
  split_ifs <;> omega

/-- A path of one segment is clean, whatever the query. -/
theorem le_cleanlinessScore {r : ParseResult} (h : OneSegment r.path) : 5 ≤ cleanlinessScore r := by
  unfold cleanlinessScore
  dsimp only
  rw [if_pos (oneSegment_length h)]
  omega

/-- What a slug is worth at least. -/
theorem rankScore_canonical {c : Candidate} {n : Str} (hn : c.normalizedUrl = some n) (hne : n ≠ [])
    (hslug : truthy (canonicalSlug (cpython uc) n c.platform) = true) {score : ℕ}
    (hs : rankScore (cpython uc) settings c = some score) : confidenceScore settings c.confidence + 35 ≤ score := by
  rw [rankScore_usable hn hne] at hs
  obtain ⟨r, hr, rfl⟩ := Option.map_eq_some_iff.1 hs
  obtain ⟨p, hp⟩ := platform_of_slug hslug
  obtain ⟨slug, hc⟩ : ∃ slug, canonicalSlug (cpython uc) n p.name = some slug := by
    rw [← hp]
    cases h : canonicalSlug (cpython uc) n c.platform with
    | none =>
      rw [h] at hslug
      cases hslug
    | some slug => exact ⟨slug, rfl⟩
  obtain ⟨hnetloc, hpath⟩ := canonical_parsed hc hr
  have hbonus : canonicalBonus (cpython uc) n c.platform = 20 := if_pos hslug
  have hdomain : domainQualityScore r c.platform = 10 := by
    rw [domainQualityScore, hnetloc, hp]
    cases p <;> rfl
  have hclean := le_cleanlinessScore hpath
  omega

/-- What a link without one is worth at most. -/
theorem rankScore_other {lib : Stdlib} {c : Candidate} {n : Str} (hn : c.normalizedUrl = some n) (hne : n ≠ [])
    (hnone : truthy (canonicalSlug lib n c.platform) = false) {score : ℕ} (hs : rankScore lib settings c = some score) :
    score ≤ confidenceScore settings c.confidence + 35 := by
  rw [rankScore_usable hn hne] at hs
  obtain ⟨r, hr, rfl⟩ := Option.map_eq_some_iff.1 hs
  have hbonus : canonicalBonus lib n c.platform = 0 := if_neg (by simp [hnone])
  have hsource := sourceWeight_le c.source
  have hdomain := domainQualityScore_le r c.platform
  have hclean := cleanlinessScore_le r
  omega

variable (uc settings) in
/-- Whatever the sources and the raw URLs, a usable candidate with a slug ranks at least as high as one without, of the
same platform and tier. -/
theorem canonical_not_below (platform url url' source source' : Str) (confidence : Confidence) (n n' : Str)
    (hn : (makeCandidate (cpython uc) platform url source confidence).normalizedUrl = some n) (hne : n ≠ [])
    (hn' : (makeCandidate (cpython uc) platform url' source' confidence).normalizedUrl = some n') (hne' : n' ≠ [])
    (hslug : truthy (canonicalSlug (cpython uc) n platform) = true)
    (hnone : truthy (canonicalSlug (cpython uc) n' platform) = false) :
    ∃ s t, rankScore (cpython uc) settings (makeCandidate (cpython uc) platform url source confidence) = some s ∧
      rankScore (cpython uc) settings (makeCandidate (cpython uc) platform url' source' confidence) = some t ∧ t ≤ s := by
  have hscored : ∀ url source, ∃ s, rankScore (cpython uc) settings (makeCandidate (cpython uc) platform url source confidence) =
      some s := fun url source => Option.isSome_iff_exists.1 (rankScore_makeCandidate platform url source confidence)
  obtain ⟨s, hs⟩ := hscored url source
  obtain ⟨t, ht⟩ := hscored url' source'
  have hlow := rankScore_canonical hn hne hslug hs
  have hhigh := rankScore_other hn' hne' hnone ht
  exact ⟨s, t, hs, ht, hhigh.trans hlow⟩

/-- The bound is tight: a profile page found by the search ties with a post in the structured data. -/
theorem canonical_not_below_tie :
    ∃ s t, rankScore (cpython .ascii) .defaults (makeCandidate (cpython .ascii) "facebook".toList
        "https://m.facebook.com/profile.php?id=61".toList "search_fallback".toList .high) = some s ∧
      rankScore (cpython .ascii) .defaults (makeCandidate (cpython .ascii) "facebook".toList
        "https://www.facebook.com/groups/".toList "json_ld".toList .high) = some t ∧ t ≤ s :=
  canonical_not_below .ascii .defaults "facebook".toList _ _ _ _ .high
    "https://www.facebook.com/profile.php?id=61".toList "https://www.facebook.com/groups".toList
    (by decide +kernel) (by decide) (by decide +kernel) (by decide) (by decide +kernel) (by decide +kernel)

end SocialScraper
