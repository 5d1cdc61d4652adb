import SocialScraper.NormalForms
import SocialScraper.Urllib.QueryPart
/-!
# Normalizing twice

A second `normalize_social_url` changes nothing exactly if the URL was settled
when the tracking parameters came off (`settled_fixed`, `fixed_settled`).
-/

namespace SocialScraper

variable {uc : Unicode}

/-- The passes of `normalize_social_url` up to the first that drops parameters. -/
def lastForm (lib : Stdlib) (rawUrl : Str) : Option Str := do
  let url ← normalizeUrl lib rawUrl
  let url ← unwrapFacebookLinkShim lib url
  let url ← canonicalizeDomain lib url
  normalizeUrl lib url

/-- Nothing is left to do on the URL, but to drop its tracking parameters. -/
structure Settled (uc : Unicode) (r : ParseResult) : Prop where
  https : r.scheme = "https".toList
  host : mobileHosts (uc.lower r.netloc) = none
  noShim : HttpUrl.shimTarget uc r = none
  trimmed : Trimmed r.path r.params
  /-- Without parameters the URL does not end in whitespace. -/
  ends : HttpUrl.keptBoth uc (parseQsl r.query) = [] →
    ∀ c ∈ (r.netloc ++ (r.path ++ behind ';' r.params)).getLast?, isSpace c = false

theorem lastForm_passes {lib : Stdlib} {rawUrl m : Str} (h : lastForm lib rawUrl = some m) :
    ∃ n₁ n₂ n₃, normalizeUrl lib rawUrl = some n₁ ∧ unwrapFacebookLinkShim lib n₁ = some n₂ ∧
      canonicalizeDomain lib n₂ = some n₃ ∧ normalizeUrl lib n₃ = some m := by
  unfold lastForm at h
  obtain ⟨n₁, hn₁, h⟩ := Option.bind_eq_some_iff.1 h
  obtain ⟨n₂, hn₂, h⟩ := Option.bind_eq_some_iff.1 h
  obtain ⟨n₃, hn₃, hm⟩ := Option.bind_eq_some_iff.1 h
  exact ⟨n₁, n₂, n₃, hn₁, hn₂, hn₃, hm⟩

theorem normalizeSocialUrl_eq (lib : Stdlib) (rawUrl : Str) : normalizeSocialUrl lib rawUrl =
    (lastForm lib rawUrl).bind fun url => (stripParams lib trackingParams url).bind fun url =>
      stripSocialTrackingParams lib url := by
  unfold normalizeSocialUrl lastForm normalizeBusinessUrl
  cases normalizeUrl lib rawUrl with
  | none => rfl
  | some url =>
    cases hu : unwrapFacebookLinkShim lib url with
    | none => simp [hu]
    | some url =>
      cases hc : canonicalizeDomain lib url with
      | none => simp [hu, hc]
      | some url =>
        cases hn : normalizeUrl lib url with
        | none => simp [hu, hc, hn]
        | some url => simp [hu, hc, hn]

namespace HttpUrl

theorem text_congr {w w' : HttpUrl uc} (hs : w.scheme = w'.scheme) (hn : w.netloc = w'.netloc) (hp : w.path = w'.path)
    (hq : w.query = w'.query) : w.text = w'.text := by
  rw [text, text, rest, rest, hs, hn, hp, hq]

theorem keptBoth_idem (l : List (Str × Str)) : keptBoth uc (keptBoth uc l) = keptBoth uc l := by
  simp only [keptBoth, kept, List.filter_filter]
  congr 1
  funext kv
  cases trackingParams.contains (uc.lower kv.1) <;> cases socialTrackingParams.contains (uc.lower kv.1) <;> rfl

theorem find?_kept {params : List Str} {key : Str} (hlower : uc.lower key = key) (hk : key ∉ params)
    (l : List (Str × Str)) : (kept uc params l).find? (fun kv => kv.1 = key) = l.find? fun kv => kv.1 = key := by
  rw [kept_eq, List.find?_filter]
  congr 1
  funext kv
  by_cases h : kv.1 = key
  · simp [h, hlower, hk]
  · simp [h]

/-- The target of a link shim is not a tracking parameter. -/
theorem find?_keptBoth (l : List (Str × Str)) :
    (keptBoth uc l).find? (fun kv => kv.1 = "u".toList) = l.find? fun kv => kv.1 = "u".toList := by
  have hlower : uc.lower "u".toList = "u".toList := Unicode.lower_ascii (forall_of_all rfl)
  rw [keptBoth, find?_kept hlower (by decide), find?_kept hlower (by decide)]

/-! ## Settled URLs -/

/-- A URL that has been through the tracking passes. -/
structure Clean (w : HttpUrl uc) : Prop where
  path : w.path = (splitParams w.path).1 ++ behind ';' (splitParams w.path).2
  query : w.query = queryText (parseQsl w.query)
  kept : keptBoth uc (parseQsl w.query) = parseQsl w.query
  encodes : uc.encodes (parseQsl w.query) = true

theorem clean_cleaned {w : HttpUrl uc} (henc : uc.encodes (HttpUrl.kept uc trackingParams (parseQsl w.query)) = true) :
    Clean w.cleaned where
  path := by rw [splitParams_cleaned, cleaned_path]
  query := by
    rw [parseQsl_cleaned]
    rfl
  kept := by rw [parseQsl_cleaned, keptBoth_idem]
  encodes := by
    rw [parseQsl_cleaned]
    exact encodes_kept henc

theorem parts_cleaned (w : HttpUrl uc) :
    w.cleaned.parts = { w.parts with query := queryText (keptBoth uc (parseQsl w.parts.query)) } := by
  simp only [parts, splitParams_cleaned, cleaned_scheme, cleaned_netloc, cleaned_query]

theorem shimTarget_kept (r : ParseResult) :
    shimTarget uc { r with query := queryText (keptBoth uc (parseQsl r.query)) } = shimTarget uc r := by
  unfold shimTarget
  rw [parseQsl_keptBoth, find?_keptBoth]

theorem settled_kept {r : ParseResult} : Settled uc { r with query := queryText (keptBoth uc (parseQsl r.query)) } ↔
    Settled uc r := by
  have hquery : keptBoth uc (parseQsl (queryText (keptBoth uc (parseQsl r.query)))) = keptBoth uc (parseQsl r.query) := by
    rw [parseQsl_keptBoth, keptBoth_idem]
  constructor
  · intro h
    exact ⟨h.https, h.host, (shimTarget_kept r).symm.trans h.noShim, h.trimmed, fun hl => h.ends (hquery.trans hl)⟩
  · intro h
    exact ⟨h.https, h.host, (shimTarget_kept r).trans h.noShim, h.trimmed, fun hl => h.ends (hquery.symm.trans hl)⟩

theorem query_ends {w : HttpUrl uc} (h : Clean w) : ∀ c ∈ w.query.getLast?, isSpace c = false := by
  intro c hc
  rw [h.query] at hc
  rcases mem_queryText (List.mem_of_getLast? hc) with hc | rfl | rfl
  · have hall := ascii_forall (P := fun c => quoted c = true → isSpace c = false) (by decide) (isAscii_of_quoted hc)
    exact hall hc
  · rfl
  · rfl

theorem strip_settled {w : HttpUrl uc} (hc : Clean w) (h : Settled uc w.parts) : strip w.text = w.text := by
  rw [text, strip_http w.scheme_mem, rstrip_self]
  intro c hlast
  by_cases hquery : w.query = []
  · have hl : keptBoth uc (parseQsl w.parts.query) = [] := by
      show keptBoth uc (parseQsl w.query) = []
      rw [hquery]
      rfl
    rw [rest, hquery, behind_nil, List.append_nil, hc.path] at hlast
    exact h.ends hl c hlast
  · -- The last character is in the query.
    obtain ⟨d, hd⟩ : ∃ d, w.query.getLast? = some d := Option.isSome_iff_exists.1 (by simpa using hquery)
    rw [rest, behind, if_neg hquery, List.getLast?_append, List.getLast?_append, List.getLast?_cons, hd] at hlast
    obtain rfl := Option.some.inj hlast
    exact query_ends hc d hd

/-- A settled URL, once clean, is what every pass makes of it. -/
theorem settled_fixed {w : HttpUrl uc} (hc : Clean w) (h : Settled uc w.parts) :
    normalizeSocialUrl (cpython uc) w.text = some w.text := by
  have hrejoined : w.rejoined.path = w.path := w.rejoined_path.trans hc.path.symm
  have htrimmed : w.trimmed.text = w.text :=
    text_congr w.trimmed_scheme w.trimmed_netloc
      (w.trimmed_path.trans ((trimPath_of_trimmed w.path_rooted h.trimmed).trans hc.path.symm)) w.trimmed_query
  have hcanonical : w.canonical.text = w.text := by
    have hhost : mobileHosts (uc.lower w.netloc) = none := h.host
    have hnetloc : canonicalHost uc w.netloc = w.netloc := by
      rw [canonicalHost, hhost]
      rfl
    exact text_congr (w.canonical_scheme.trans h.https.symm) (w.canonical_netloc.trans hnetloc)
      (w.canonical_path.trans hrejoined) w.canonical_query
  have hcleaned : w.cleaned.text = w.text := by
    apply text_congr w.cleaned_scheme w.cleaned_netloc (w.cleaned_path.trans hc.path.symm)
    rw [cleaned_query, hc.kept, ← hc.query]
  have hnormalize : normalizeUrl (cpython uc) w.text = some w.text := by
    rw [normalizeUrl_text (strip_settled hc h), htrimmed]
  have hunwrap : unwrapFacebookLinkShim (cpython uc) w.text = some w.text := by
    rw [unwrap_eq w.urlparse_text, h.noShim]
    rfl
  have hdomain : canonicalizeDomain (cpython uc) w.text = some w.text := by
    rw [canonicalizeDomain_text, hcanonical]
  have hlast : lastForm (cpython uc) w.text = some w.text := by
    simp [lastForm, hnormalize, hunwrap, hdomain]
  rw [normalizeSocialUrl_eq, hlast, Option.bind_some, strips_text, if_pos (encodes_kept hc.encodes), hcleaned]

/-! ## A link shim is never a fixed point -/

theorem queryOf_withScheme (s : Str) : (queryOf (withScheme s)).length ≤ (queryOf s).length := by
  have hspace : ∀ c ∈ s.takeWhile isSpace, plain c = true := by
    intro c hc
    have hs := List.mem_takeWhile_imp hc
    cases hp : plain c with
    | true => rfl
    | false =>
      simp only [plain, Bool.and_eq_false_iff, bne_eq_false_iff_eq] at hp
      rcases hp with rfl | rfl <;> exact absurd hs (by decide)
  have hdrop : queryOf (s.dropWhile isSpace) = queryOf s := by
    conv_rhs => rw [← List.takeWhile_append_dropWhile (p := isSpace) (l := s), queryOf_append hspace]
  have hstrip : (queryOf (strip s)).length ≤ (queryOf s).length :=
    hdrop ▸ queryOf_initial (rstrip_initial isSpace (s.dropWhile isSpace))
  have hhttps : ∀ c ∈ "https://".toList, plain c = true := forall_of_all rfl
  unfold withScheme
  split_ifs
  · exact hstrip
  · rwa [queryOf_append hhttps]

theorem queryOf_canonicalizeDomain {t c : Str} (h : canonicalizeDomain (cpython uc) t = some c) :
    (queryOf c).length ≤ (queryOf t).length := by
  unfold canonicalizeDomain at h
  rw [cpython_urlparse] at h
  obtain ⟨r, hr, rfl⟩ := Option.map_eq_some_iff.1 h
  obtain ⟨hquery, hscheme, hnetloc, hpath, hfragment⟩ := urlparse_spec hr
  have hhttps : ∀ c ∈ "https".toList, plain c = true := forall_of_all rfl
  have hcanonical : ∀ host canonical, mobileHosts host = some canonical → ∀ c ∈ canonical, plain c = true := by
    intro host canonical hm c hc
    have hok : NetlocOk uc canonical := netlocOk_canonical hm
    exact plain_of_not_netlocEnd (hok.chars c hc).1
  have hwritten : ∀ scheme netloc : Str, (∀ c ∈ scheme, plain c = true) → (∀ c ∈ netloc, plain c = true) →
      (queryOf (urlunparse { r with scheme := scheme, netloc := netloc })).length ≤ (queryOf t).length := by
    intro scheme netloc hs hn
    have hwrite := queryOf_urlunparse (r := { r with scheme := scheme, netloc := netloc }) hs hn hpath hfragment
    rw [hwrite]
    exact hquery
  dsimp only
  rw [cpython_urlunparse]
  cases hm : mobileHosts ((cpython uc).lower r.netloc) with
  | none =>
    dsimp only
    split_ifs
    · exact hwritten _ _ hhttps hnetloc
    · exact hwritten _ _ hscheme hnetloc
  | some canonical =>
    dsimp only
    split_ifs
    · exact hwritten _ _ hhttps (hcanonical _ _ hm)
    · exact hwritten _ _ hscheme (hcanonical _ _ hm)

/-- The last passes, from the target of a shim on, do not lead back to a URL with that target in its query. -/
theorem shim_not_fixed {w : HttpUrl uc} {t c m : Str} {k : Str} (ht : (k, t) ∈ parseQsl w.query)
    (hc : canonicalizeDomain (cpython uc) t = some c) (hm : normalizeUrl (cpython uc) c = some m)
    (hs : ((stripParams (cpython uc) trackingParams m).bind fun url => stripSocialTrackingParams (cpython uc) url) =
      some w.text) : False := by
  have hne : t ≠ [] := (mem_parseQsl ht).1
  rcases normalizeUrl_spec hm with ⟨-, rfl⟩ | ⟨v, r, hr, hparts, rfl⟩
  · rw [stripParams_nil, Option.bind_some, stripSocialTrackingParams, stripParams_nil] at hs
    exact w.text_ne_nil (Option.some.inj hs).symm
  · obtain ⟨-, htext⟩ := strips_some hs
    obtain ⟨-, -, -, hquery⟩ := text_injective htext.symm
    have hr' : r.query = v.query := congrArg ParseResult.query hparts
    have hmem : (k, t) ∈ parseQsl v.query := by
      rw [← hquery, parseQsl_cleaned] at ht
      exact List.mem_of_mem_filter (List.mem_of_mem_filter ht)
    have hlength : t.length < t.length :=
      calc t.length ≤ v.query.length := (mem_parseQsl hmem).2
        _ = r.query.length := by rw [hr']
        _ ≤ (queryOf (withScheme c)).length := (urlparse_spec hr).1
        _ ≤ (queryOf c).length := queryOf_withScheme c
        _ ≤ (queryOf t).length := queryOf_canonicalizeDomain hc
        _ < t.length := queryOf_length hne
    exact absurd hlength (lt_irrefl _)

/-! ## Fixed points are settled -/

/-- No longer than the other text, or the same. -/
def Shrinks (a b : Str) : Prop := a.length < b.length ∨ a = b

theorem Shrinks.length_le {a b : Str} (h : Shrinks a b) : a.length ≤ b.length := by
  rcases h with h | rfl
  · exact h.le
  · exact le_rfl

theorem Shrinks.trans {a b c : Str} (h : Shrinks a b) (h' : Shrinks b c) : Shrinks a c := by
  rcases h with h | rfl
  · exact .inl (h.trans_le h'.length_le)
  · exact h'

theorem Shrinks.antisymm {a b : Str} (h : Shrinks a b) (h' : b.length ≤ a.length) : a = b :=
  h.resolve_left (not_lt.2 h')

theorem Shrinks.of_initial {a b : Str} (h : a <+: b) : Shrinks a b :=
  (Nat.lt_or_eq_of_le h.length_le).imp id h.eq_of_length

theorem shrinks_join (path : Str) : Shrinks ((splitParams path).1 ++ behind ';' (splitParams path).2) path := join_length path

theorem shrinks_trimPath {path : Str} (h : Rooted path) : Shrinks (trimPath path) path := by
  by_cases ht : Trimmed (splitParams path).1 (splitParams path).2
  · rw [trimPath_of_trimmed h ht]
    exact shrinks_join path
  · exact .inl ((trimPath_length h ht).trans_le (shrinks_join path).length_le)

theorem trimmed_of_trimPath {path : Str} (h : Rooted path) (ht : trimPath path = path) :
    Trimmed (splitParams path).1 (splitParams path).2 := by
  by_contra hn
  have hshort := trimPath_length h hn
  have hjoin := (shrinks_join path).length_le
  rw [ht] at hshort
  omega

theorem canonicalHost_fixed {netloc host : Str} (hm : mobileHosts (uc.lower netloc) = some host) :
    rstrip isSpace host = host ∧ mobileHosts (uc.lower host) = none := by
  have hall : ∀ h ∈ canonicalHosts, h.all isAscii = true ∧ rstrip isSpace h = h ∧
      mobileHosts (h.map Char.toLower) = none := by decide
  obtain ⟨ha, hr, hnone⟩ := hall host (mobileHosts_mem hm)
  refine ⟨hr, ?_⟩
  rw [Unicode.lower_ascii (forall_of_all ha)]
  exact hnone

/-- A host that comes back from two strips and the canonical host between them was not touched by any of the three. -/
theorem host_fixed {netloc first last : Str} (h1 : first = netloc ∨ first = rstrip isSpace netloc)
    (h2 : last = canonicalHost uc first ∨ last = rstrip isSpace (canonicalHost uc first)) (h : last = netloc) :
    first = netloc ∧ mobileHosts (uc.lower netloc) = none := by
  have hfirst : Shrinks first netloc := by
    rcases h1 with rfl | rfl
    · exact .inr rfl
    · exact .of_initial (rstrip_initial _ _)
  cases hm : mobileHosts (uc.lower first) with
  | none =>
    have hcanonical : canonicalHost uc first = first := by rw [canonicalHost, hm]; rfl
    have hlast : Shrinks last first := by
      rw [hcanonical] at h2
      rcases h2 with rfl | rfl
      · exact .inr rfl
      · exact .of_initial (rstrip_initial _ _)
    have heq : first = netloc := hfirst.antisymm (h ▸ hlast.length_le)
    exact ⟨heq, heq ▸ hm⟩
  | some host =>
    obtain ⟨hstrip, hnone⟩ := canonicalHost_fixed hm
    have hcanonical : canonicalHost uc first = host := by rw [canonicalHost, hm]; rfl
    rw [hcanonical, hstrip, or_self] at h2
    subst h2 h
    rw [hstrip, or_self] at h1
    rw [h1, hnone] at hm
    cases hm

theorem rstrip_ends {p : Char → Bool} {s : Str} (h : rstrip p s = s) : ∀ c ∈ s.getLast?, p c = false := by
  intro c hc
  rw [← h, rstrip, List.getLast?_reverse] at hc
  have hstop := List.head?_dropWhile_not p s.reverse
  rw [Option.mem_def.1 hc] at hstop
  simpa using hstop

theorem mem_of_shimTarget {r : ParseResult} {t : Str} (h : shimTarget uc r = some t) : ∃ k, (k, t) ∈ parseQsl r.query := by
  unfold shimTarget at h
  split_ifs at h
  obtain ⟨⟨k, t⟩, hfind, rfl⟩ := Option.map_eq_some_iff.1 h
  exact ⟨k, List.mem_of_find?_eq_some hfind⟩

/-- A clean URL that `normalize_social_url` gives back is settled. -/
theorem fixed_settled {w : HttpUrl uc} (hc : Clean w) (h : normalizeSocialUrl (cpython uc) w.text = some w.text) :
    Settled uc w.parts := by
  rw [normalizeSocialUrl_eq] at h
  obtain ⟨m, hlast, hstrips⟩ := Option.bind_eq_some_iff.1 h
  obtain ⟨n₁, n₂, n₃, hn₁, hn₂, hn₃, hm⟩ := lastForm_passes hlast
  -- The first trim.
  obtain ⟨w₁, rfl, hscheme₁, hquery₁, hnetloc₁, hpath₁, hends₁⟩ := normalizeUrl_parsed hn₁
  rw [rstrip_self (query_ends hc)] at hquery₁
  rw [unwrap_eq w₁.trimmed.urlparse_text] at hn₂
  obtain rfl := Option.some.inj hn₂
  cases hshim : shimTarget uc w₁.trimmed.parts with
  | some t =>
    exfalso
    rw [hshim, Option.getD_some] at hn₃
    obtain ⟨k, hk⟩ := mem_of_shimTarget hshim
    have hquery : w₁.trimmed.parts.query = w.query := hquery₁
    rw [hquery] at hk
    exact shim_not_fixed hk hn₃ hm hstrips
  | none =>
    rw [hshim, Option.getD_none, canonicalizeDomain_text] at hn₃
    obtain rfl := Option.some.inj hn₃
    -- The second trim.
    obtain ⟨w₃, rfl, hscheme₃, -, hnetloc₃, hpath₃, -⟩ := normalizeUrl_parsed hm
    obtain ⟨-, htext⟩ := strips_some hstrips
    obtain ⟨hscheme, hnetloc, hpath, -⟩ := text_injective htext.symm
    simp only [cleaned_scheme, cleaned_netloc, trimmed_scheme, trimmed_netloc, canonical_scheme, canonical_netloc,
      canonical_path] at hscheme hscheme₃ hnetloc hnetloc₃ hpath₃
    obtain ⟨hnetloc₁, hhost⟩ := host_fixed (hnetloc₁.imp_right And.left) (hnetloc₃.imp_right And.left) hnetloc
    have hlast : Shrinks w.path (trimPath w₁.path) := by
      have hinitial₃ : Shrinks w₃.path w₁.trimmed.rejoined.path := by
        apply Shrinks.of_initial
        rw [hpath₃]
        exact stripped_initial _ _
      rw [rejoined_path] at hinitial₃
      rw [← hpath, cleaned_path, ← trimmed_path]
      apply (shrinks_join w₃.trimmed.path).trans
      rw [trimmed_path w₃]
      exact (shrinks_trimPath w₃.path_rooted).trans (hinitial₃.trans (shrinks_join w₁.trimmed.path))
    have hfirst : Shrinks w₁.path w.path := by
      apply Shrinks.of_initial
      rw [hpath₁]
      exact stripped_initial _ _
    have htrim : Shrinks (trimPath w₁.path) w₁.path := shrinks_trimPath w₁.path_rooted
    -- The path came back, so no pass has touched it.
    have heq₁ : w₁.path = w.path := hfirst.antisymm (hlast.trans htrim).length_le
    have heq : trimPath w.path = w.path := by
      rw [← heq₁]
      exact htrim.antisymm (hfirst.trans hlast).length_le
    exact {
      https := hscheme.symm.trans hscheme₃
      host := hhost
      noShim := by
        have htrimmed : w₁.trimmed.path = w.path := by rw [trimmed_path, heq₁, heq]
        have hsplit : w₁.trimmed.parts.path = w.parts.path := congrArg (fun path => (splitParams path).1) htrimmed
        rw [← hshim, shimTarget, shimTarget, hsplit, show w₁.trimmed.parts.netloc = w.parts.netloc from hnetloc₁,
          show w₁.trimmed.parts.query = w.parts.query from hquery₁]
      trimmed := trimmed_of_trimPath w.path_rooted heq
      ends := by
        intro hl
        have hquery : w.query = [] := by
          rw [hc.query, ← hc.kept]
          exact queryText_eq_nil.2 hl
        have hstrip := hends₁ hquery
        rw [hnetloc₁, heq₁] at hstrip
        have hpath : w.parts.path ++ behind ';' w.parts.params = w.path := hc.path.symm
        rw [hpath]
        exact rstrip_ends hstrip.symm }

end HttpUrl

/-! ## The empty text -/

theorem normalizeSocialUrl_nil : normalizeSocialUrl (cpython uc) [] = some [] := by
  have hunwrap : unwrapFacebookLinkShim (cpython uc) [] = some [] := by
    rw [HttpUrl.unwrap_eq HttpUrl.urlparse_nil]
    rfl
  have hdomain : canonicalizeDomain (cpython uc) [] = some [] := by
    rw [canonicalizeDomain, cpython_urlparse, HttpUrl.urlparse_nil]
    rfl
  have hlast : lastForm (cpython uc) [] = some [] := by
    have hnormalize : normalizeUrl (cpython uc) [] = some [] := rfl
    simp [lastForm, hnormalize, hunwrap, hdomain]
  rw [normalizeSocialUrl_eq, hlast, Option.bind_some, HttpUrl.stripParams_nil, Option.bind_some,
    stripSocialTrackingParams, HttpUrl.stripParams_nil]

end SocialScraper
