import SocialScraper.Url
import SocialScraper.Urllib.HttpUrl
/-!
# The URL passes on parsed URLs

What `normalize_url` and the passes of the normalizers do to the parts of an
http URL. Each pass but the unwrapping of a link shim turns one `HttpUrl` into
another.
-/

namespace SocialScraper

variable {uc : Unicode}

/-! ## Whitespace -/

theorem dropWhile_filter {p q : Char → Bool} (hpq : ∀ c, p c = false → q c = true) (s : Str) :
    (s.dropWhile q).filter p = (s.filter p).dropWhile q := by
  induction s with
  | nil => rfl
  | cons c s ih =>
    cases hq : q c with
    | true =>
      rw [List.dropWhile_cons_of_pos hq, ih, List.filter_cons]
      split_ifs
      · rw [List.dropWhile_cons_of_pos hq]
      · rfl
    | false =>
      have hp : p c = true := by
        by_contra h
        rw [hpq c (Bool.eq_false_iff.2 h)] at hq
        cases hq
      rw [List.dropWhile_cons_of_neg (by simp [hq]), List.filter_cons_of_pos hp, List.dropWhile_cons_of_neg (by simp [hq])]

theorem isSpace_of_unsafeByte {c : Char} (h : unsafeByte c = true) : isSpace c = true := by
  simp only [unsafeByte, List.contains_iff_mem, List.mem_cons, List.not_mem_nil, or_false] at h
  rcases h with rfl | rfl | rfl <;> rfl

theorem isSpace_of_removed (c : Char) (h : (!unsafeByte c) = false) : isSpace c = true :=
  isSpace_of_unsafeByte (by simpa using h)

/-- What `urlsplit` removes from a text may as well be removed before the blanks at its end. -/
theorem rstrip_filter (s : Str) : (rstrip isSpace s).filter (!unsafeByte ·) = rstrip isSpace (s.filter (!unsafeByte ·)) := by
  rw [rstrip, rstrip, List.filter_reverse, dropWhile_filter isSpace_of_removed, List.filter_reverse]

namespace HttpUrl

/-! ## Dropping parameters -/

/-- The parameters of a query that are not dropped. -/
def kept (uc : Unicode) (params : List Str) (l : List (Str × Str)) : List (Str × Str) :=
  l.filter fun kv => !params.contains (uc.lower kv.1)

theorem kept_eq (params : List Str) (l : List (Str × Str)) :
    kept uc params l = l.filter fun kv => uc.lower kv.1 ∉ params := by
  simp [kept]

theorem stripParams_text (w : HttpUrl uc) (params : List Str) : stripParams (cpython uc) params w.text =
    if uc.encodes (kept uc params (parseQsl w.query)) then
      some (w.rejoined.withQuery (kept uc params (parseQsl w.query))).text
    else none := by
  have hwritten : ∀ query, urlunparse { w.parts with query := query } =
      w.scheme ++ ("://".toList ++ (w.netloc ++ (rooted ((splitParams w.path).1 ++ behind ';' (splitParams w.path).2) ++
        behind '?' query))) := by
    intro query
    rw [urlunparse_http (by exact w.scheme_mem)]
    simp only [parts, behind_nil, List.append_nil]
  rw [stripParams, cpython_urlparse, w.urlparse_text, Option.bind_some]
  show (urlencode uc ((parseQsl w.query).filter fun kv => uc.lower kv.1 ∉ params)).map
    (fun query => urlunparse { w.parts with query := query }) = _
  rw [← kept_eq, urlencode]
  split_ifs
  · rw [Option.map_some, hwritten]
    rfl
  · rfl

theorem stripParams_some {w : HttpUrl uc} {params : List Str} {v : Str} (h : stripParams (cpython uc) params w.text = some v) :
    uc.encodes (kept uc params (parseQsl w.query)) = true ∧
      v = (w.rejoined.withQuery (kept uc params (parseQsl w.query))).text := by
  rw [stripParams_text] at h
  split_ifs at h with henc
  exact ⟨henc, (Option.some.inj h).symm⟩

theorem urlparse_nil : urlparse uc [] = some ⟨[], [], [], [], [], []⟩ := rfl

theorem stripParams_nil (params : List Str) : stripParams (cpython uc) params [] = some [] := by
  rw [stripParams, cpython_urlparse, urlparse_nil]
  rfl

/-! ## Whitespace around a URL -/

theorem rstrip_append (p : Char → Bool) (a b : Str) : rstrip p (a ++ b) = if rstrip p b = [] then rstrip p a else a ++ rstrip p b := by
  simp only [rstrip, List.reverse_append, List.reverse_eq_nil_iff]
  split_ifs with h
  · rw [List.dropWhile_append, h]
    simp
  · rw [List.dropWhile_append, if_neg (by simpa using h), List.reverse_append, List.reverse_reverse]

theorem rstrip_cons {p : Char → Bool} {c : Char} (h : p c = false) (s : Str) : rstrip p (c :: s) = c :: rstrip p s := by
  have hsplit := rstrip_append p [c] s
  rw [List.singleton_append] at hsplit
  rw [hsplit]
  split_ifs with hs
  · rw [hs]
    simp [rstrip, h]
  · rfl

theorem rstrip_rooted {path : Str} (h : Rooted path) (hn : path ≠ []) : rstrip isSpace path ≠ [] := by
  obtain ⟨c, path, rfl⟩ := List.exists_cons_of_ne_nil hn
  obtain rfl := Option.some.inj (h.resolve_left hn)
  rw [rstrip_cons rfl]
  exact List.cons_ne_nil _ _

theorem text_ne_nil (w : HttpUrl uc) : w.text ≠ [] := by
  simp [text]

theorem startsWithHttp_iff {s : Str} :
    startsWithHttp s = true ↔ ∃ scheme ∈ httpSchemes, ∃ rest, s = scheme ++ ("://".toList ++ rest) := by
  simp only [startsWithHttp, Bool.or_eq_true, List.isPrefixOf_iff_prefix]
  constructor
  · rintro (⟨rest, rfl⟩ | ⟨rest, rfl⟩)
    · exact ⟨"http".toList, http_mem, rest, rfl⟩
    · exact ⟨"https".toList, https_mem, rest, rfl⟩
  · rintro ⟨scheme, hs, rest, rfl⟩
    simp only [httpSchemes, List.mem_cons, List.not_mem_nil, or_false] at hs
    rcases hs with rfl | rfl
    · exact .inl ⟨rest, rfl⟩
    · exact .inr ⟨rest, rfl⟩

/-- The text `normalize_url` parses. -/
def withScheme (s : Str) : Str := if startsWithHttp (strip s) then strip s else "https://".toList ++ strip s

theorem withScheme_http (s : Str) : ∃ scheme ∈ httpSchemes, ∃ rest, withScheme s = scheme ++ ("://".toList ++ rest) := by
  unfold withScheme
  split_ifs with h
  · exact startsWithHttp_iff.1 h
  · exact ⟨"https".toList, https_mem, strip s, rfl⟩

/-- Whatever `normalize_url` returns is empty or an http URL with its path trimmed. -/
theorem normalizeUrl_spec {s m : Str} (h : normalizeUrl (cpython uc) s = some m) :
    strip s = [] ∧ m = [] ∨ ∃ (w : HttpUrl uc) (r : ParseResult), urlparse uc (withScheme s) = some r ∧
      { r with fragment := [] } = w.parts ∧ m = w.trimmed.text := by
  unfold normalizeUrl at h
  dsimp only at h
  split_ifs at h with hs hhttp
  · exact .inl ⟨hs, (Option.some.inj h).symm.trans hs⟩
  all_goals
    right
    obtain ⟨r, hr, rfl⟩ := Option.map_eq_some_iff.1 h
    have hparse : urlparse uc (withScheme s) = some r := by
      simp only [withScheme, hhttp]
      exact hr
    obtain ⟨scheme, hmem, rest, hrest⟩ := withScheme_http s
    obtain ⟨w, -, hparts⟩ := parse_http hmem (hrest ▸ hparse)
    refine ⟨w, r, hparse, hparts, ?_⟩
    rw [← w.urlunparse_trimmed, ← hparts]
    rfl

theorem startsWithHttp_text (w : HttpUrl uc) : startsWithHttp w.text = true :=
  startsWithHttp_iff.2 ⟨w.scheme, w.scheme_mem, w.rest, rfl⟩

/-- A parsed URL without whitespace at its end only has its path trimmed. -/
theorem normalizeUrl_text {w : HttpUrl uc} (h : strip w.text = w.text) :
    normalizeUrl (cpython uc) w.text = some w.trimmed.text := by
  simp only [normalizeUrl, h, if_neg w.text_ne_nil, w.startsWithHttp_text, if_true, cpython_urlparse, cpython_urlunparse,
    w.urlparse_text, Option.map_some]
  rw [← w.urlunparse_trimmed]
  rfl

theorem strip_colon (head rest : Str) :
    strip (head ++ ("://".toList ++ rest)) = head.dropWhile isSpace ++ ("://".toList ++ rstrip isSpace rest) := by
  have hstart : (head ++ ("://".toList ++ rest)).dropWhile isSpace = head.dropWhile isSpace ++ ("://".toList ++ rest) := by
    rw [List.dropWhile_append]
    split_ifs with h
    · rw [List.isEmpty_iff.1 h]
      rfl
    · rfl
  have htail : rstrip isSpace ("://".toList ++ rest) = "://".toList ++ rstrip isSpace rest := by
    change rstrip isSpace (':' :: '/' :: '/' :: rest) = _
    rw [rstrip_cons rfl, rstrip_cons rfl, rstrip_cons rfl]
    rfl
  rw [strip, hstart, rstrip_append, htail, if_neg (by simp)]

theorem strip_http {scheme : Str} (hs : scheme ∈ httpSchemes) (rest : Str) :
    strip (scheme ++ ("://".toList ++ rest)) = scheme ++ ("://".toList ++ rstrip isSpace rest) := by
  have hscheme : ∀ scheme ∈ httpSchemes, scheme.dropWhile isSpace = scheme := by decide
  rw [strip_colon, hscheme scheme hs]

theorem rstrip_self {p : Char → Bool} {s : Str} (h : ∀ c ∈ s.getLast?, p c = false) : rstrip p s = s := by
  have hdrop : s.reverse.dropWhile p = s.reverse := by
    cases hr : s.reverse with
    | nil => rfl
    | cons c t =>
      have hlast : s.getLast? = some c := by rw [← List.head?_reverse, hr]; rfl
      simp [h c hlast]
  rw [rstrip, hdrop, List.reverse_reverse]

theorem stripped_initial (P : Prop) [Decidable P] (path : Str) : (if P then rstrip isSpace path else path) <+: path := by
  split_ifs
  · exact rstrip_initial _ _
  · exact List.prefix_refl _

/-- A URL without the whitespace at its end: its query loses some or, without one, its path, or else its host. -/
theorem strip_text (w : HttpUrl uc) :
    ∃ netloc path tail, strip w.text = w.scheme ++ ("://".toList ++ (netloc ++ (path ++ tail))) ∧
      (tail = '?' :: rstrip isSpace w.query ∧ w.query ≠ [] ∨ tail = [] ∧ w.query = []) ∧
      (netloc = w.netloc ∨ netloc = rstrip isSpace w.netloc ∧ w.path = [] ∧ w.query = []) ∧
      path = (if w.query = [] then rstrip isSpace w.path else w.path) ∧
      (w.query = [] → netloc ++ path = rstrip isSpace (w.netloc ++ w.path)) := by
  rw [text, strip_http w.scheme_mem, rest]
  by_cases hquery : w.query = []
  · rw [hquery, behind_nil, List.append_nil, rstrip_append, if_pos rfl]
    by_cases hpath : w.path = []
    · refine ⟨rstrip isSpace w.netloc, [], [], ?_, .inr ⟨rfl, rfl⟩, .inr ⟨rfl, hpath, rfl⟩, ?_, fun _ => ?_⟩
      all_goals simp [hpath, rstrip]
    · rw [if_neg (rstrip_rooted w.path_rooted hpath)]
      exact ⟨w.netloc, rstrip isSpace w.path, [], by simp, .inr ⟨rfl, rfl⟩, .inl rfl, rfl, fun _ => rfl⟩
  · -- The query is behind a character that is no whitespace, so nothing in front of it is lost.
    refine ⟨w.netloc, w.path, '?' :: rstrip isSpace w.query, ?_, .inl ⟨rfl, hquery⟩, .inl rfl, (if_neg hquery).symm,
      fun h => absurd h hquery⟩
    have htail : rstrip isSpace (behind '?' w.query) = '?' :: rstrip isSpace w.query := by
      rw [behind, if_neg hquery]
      exact rstrip_cons rfl w.query
    rw [← List.append_assoc w.netloc, rstrip_append, htail, if_neg (List.cons_ne_nil _ _), List.append_assoc]

theorem netlocOk_of_parse {scheme : Str} (hs : scheme ∈ httpSchemes) {netloc : Str} {r : ParseResult}
    (hc : ∀ c ∈ netloc, netlocEnd c = false ∧ unsafeByte c = false)
    (h : urlparse uc (scheme ++ ("://".toList ++ netloc)) = some r) : NetlocOk uc netloc := by
  have hclean : netloc.filter (!unsafeByte ·) = netloc := List.filter_eq_self.2 fun c h => by simp [(hc c h).2]
  have hall : netloc.takeWhile (!netlocEnd ·) = netloc := List.takeWhile_eq_self_iff.2 fun c h => by simp [(hc c h).1]
  have hleading : leadingNetloc netloc = netloc := by rw [leadingNetloc, hclean, hall]
  exact hleading ▸ netlocOk_leading hs h

/-- What `normalize_url` makes of a parsed URL. -/
theorem normalizeUrl_parsed {w : HttpUrl uc} {m : Str} (h : normalizeUrl (cpython uc) w.text = some m) :
    ∃ w' : HttpUrl uc, m = w'.trimmed.text ∧ w'.scheme = w.scheme ∧ w'.query = rstrip isSpace w.query ∧
      (w'.netloc = w.netloc ∨ w'.netloc = rstrip isSpace w.netloc ∧ w.path = [] ∧ w.query = []) ∧
      w'.path = (if w.query = [] then rstrip isSpace w.path else w.path) ∧
      (w.query = [] → w'.netloc ++ w'.path = rstrip isSpace (w.netloc ++ w.path)) := by
  obtain ⟨netloc, path, tail, hstrip, htail, hnetloc, hpath, hends⟩ := w.strip_text
  have hscheme : withScheme w.text = strip w.text := by
    rw [withScheme, if_pos]
    exact startsWithHttp_iff.2 ⟨w.scheme, w.scheme_mem, _, hstrip⟩
  rcases normalizeUrl_spec h with ⟨hnil, -⟩ | ⟨w₀, r, hr, hparts, rfl⟩
  · rw [hstrip] at hnil
    simp at hnil
  rw [hscheme, hstrip] at hr
  have hinitial : path <+: w.path := hpath ▸ stripped_initial _ w.path
  have hchars : ∀ c ∈ rstrip isSpace w.query, c ≠ '#' ∧ unsafeByte c = false :=
    fun c hc => w.query_chars c ((rstrip_initial _ _).subset hc)
  have same : ∀ w' : HttpUrl uc, w'.scheme = w.scheme → w'.netloc = netloc → w'.path = path →
      w'.query = rstrip isSpace w.query → w₀.trimmed.text = w'.trimmed.text := by
    rintro w' h1 h2 h3 h4
    have htail' : tail = '?' :: w'.query ∨ tail = [] ∧ w'.query = [] := by
      rw [h4]
      refine htail.imp And.left fun h => ⟨h.1, ?_⟩
      rw [h.2]
      rfl
    have hp := w'.urlparse_query htail' w'.query_chars
    rw [h1, h2, h3, hr] at hp
    obtain rfl := Option.some.inj hp
    rw [← urlunparse_trimmed, ← urlunparse_trimmed, ← hparts]
    rfl
  rcases hnetloc with rfl | ⟨rfl, hnil, hquery⟩
  · let w' : HttpUrl uc := { w with
      path := path
      query := rstrip isSpace w.query
      path_rooted := w.path_rooted.initial hinitial
      path_chars := fun c hc => w.path_chars c (hinitial.subset hc)
      query_chars := hchars }
    exact ⟨w', same w' rfl rfl rfl rfl, rfl, rfl, .inl rfl, hpath, hends⟩
  · -- Without a path and a query, the host is what is left of the text.
    obtain ⟨htail', -⟩ := htail.resolve_left fun h => h.2 hquery
    have hpath' : path = [] := by
      rw [hpath, hnil, if_pos hquery]
      rfl
    have hr' : urlparse uc (w.scheme ++ ("://".toList ++ rstrip isSpace w.netloc)) = some r := by
      simpa [htail', hpath'] using hr
    let w' : HttpUrl uc := { w with
      netloc := rstrip isSpace w.netloc
      netloc_ok := netlocOk_of_parse w.scheme_mem
        (fun c hc => w.netloc_ok.chars c ((rstrip_initial _ _).subset hc)) hr'
      path := path
      query := rstrip isSpace w.query
      path_rooted := .inl hpath'
      path_chars := by simp [hpath']
      query_chars := hchars }
    exact ⟨w', same w' rfl rfl rfl rfl, rfl, rfl, .inr ⟨rfl, hnil, hquery⟩, hpath, hends⟩

/-! ## The host -/

def canonicalHosts : List Str := ["www.facebook.com".toList, "www.instagram.com".toList]

theorem mobileHosts_mem {host canonical : Str} (h : mobileHosts host = some canonical) : canonical ∈ canonicalHosts := by
  unfold mobileHosts at h
  split_ifs at h
  · simp [canonicalHosts, ← Option.some.inj h]
  · simp [canonicalHosts, ← Option.some.inj h]

theorem netlocOk_canonical {host canonical : Str} (h : mobileHosts host = some canonical) : NetlocOk uc canonical := by
  have hall : ∀ netloc ∈ canonicalHosts, netloc.all (fun c => !netlocEnd c && !unsafeByte c) = true ∧
      bracketsOk netloc = true ∧ netloc.all isAscii = true := by decide
  obtain ⟨hchars, hbrackets, hascii⟩ := hall canonical (mobileHosts_mem h)
  refine ⟨fun c hc => ?_, hbrackets, ?_⟩
  · simpa using forall_of_all hchars c hc
  · rw [checkNetloc, hascii]
    rfl

/-- The host as `_canonicalize_domain` leaves it. -/
def canonicalHost (uc : Unicode) (netloc : Str) : Str := (mobileHosts (uc.lower netloc)).getD netloc

/-- The URL on https and its canonical host. -/
def canonical (w : HttpUrl uc) : HttpUrl uc :=
  { w.rejoined with
    scheme := "https".toList
    scheme_mem := by decide
    netloc := canonicalHost uc w.netloc
    netloc_ok := by
      unfold canonicalHost
      cases h : mobileHosts (uc.lower w.netloc) with
      | none => exact w.netloc_ok
      | some host => exact netlocOk_canonical h }

@[simp] theorem canonical_scheme (w : HttpUrl uc) : w.canonical.scheme = "https".toList := by dsimp only [canonical]
@[simp] theorem canonical_netloc (w : HttpUrl uc) : w.canonical.netloc = canonicalHost uc w.netloc := by dsimp only [canonical]
@[simp] theorem canonical_path (w : HttpUrl uc) : w.canonical.path = w.rejoined.path := by dsimp only [canonical]
@[simp] theorem canonical_query (w : HttpUrl uc) : w.canonical.query = w.query := by dsimp only [canonical, rejoined, withPath]

theorem canonicalizeDomain_text (w : HttpUrl uc) : canonicalizeDomain (cpython uc) w.text = some w.canonical.text := by
  have hscheme : w.scheme = "http".toList ∨ w.scheme = "https".toList := by simpa [httpSchemes] using w.scheme_mem
  have hparts : ∀ netloc, (if w.scheme = "http".toList then { w.parts with netloc := netloc, scheme := "https".toList }
      else { w.parts with netloc := netloc }) = { w.parts with netloc := netloc, scheme := "https".toList } := by
    intro netloc
    split_ifs with hs
    · rfl
    · have hhttps := hscheme.resolve_left hs
      simp [parts, hhttps]
  have htext : urlunparse { w.parts with netloc := canonicalHost uc w.netloc, scheme := "https".toList } =
      w.canonical.text := by
    rw [urlunparse_http https_mem]
    simp [text, rest, canonical, rejoined, withPath, parts]
  simp only [canonicalizeDomain, cpython_urlparse, cpython_urlunparse, cpython_lower, w.urlparse_text, Option.map_some, Option.some.injEq]
  rw [← htext]
  cases hm : mobileHosts (uc.lower w.netloc) with
  | none =>
    rw [canonicalHost, hm, Option.getD_none, ← hparts]
    simp [parts, hm]
  | some host =>
    rw [canonicalHost, hm, Option.getD_some, ← hparts]
    simp [parts, hm]

/-! ## Link shims -/

/-- The target of a Facebook link shim. -/
def shimTarget (uc : Unicode) (r : ParseResult) : Option Str :=
  if uc.lower r.netloc = "l.facebook.com".toList ∧ r.path = "/l.php".toList then
    ((parseQsl r.query).find? fun kv => kv.1 = "u".toList).map (·.2)
  else none

theorem unwrap_eq {s : Str} {r : ParseResult} (h : urlparse uc s = some r) :
    unwrapFacebookLinkShim (cpython uc) s = some ((shimTarget uc r).getD s) := by
  unfold unwrapFacebookLinkShim
  rw [cpython_urlparse, h, Option.map_some]
  by_cases hshim : uc.lower r.netloc = "l.facebook.com".toList ∧ r.path = "/l.php".toList
  · have htarget : shimTarget uc r = ((parseQsl r.query).find? fun kv => kv.1 = "u".toList).map (·.2) := if_pos hshim
    rw [if_pos (by exact hshim), htarget, cpython_parseQsl]
    cases (parseQsl r.query).find? fun kv => kv.1 = "u".toList <;> rfl
  · have htarget : shimTarget uc r = none := if_neg hshim
    rw [if_neg (by exact hshim), htarget]
    rfl

/-! ## Both tracking passes -/

def keptBoth (uc : Unicode) (l : List (Str × Str)) : List (Str × Str) :=
  kept uc socialTrackingParams (kept uc trackingParams l)

/-- The URL without its tracking parameters. -/
def cleaned (w : HttpUrl uc) : HttpUrl uc := w.rejoined.rejoined.withQuery (keptBoth uc (parseQsl w.query))

@[simp] theorem cleaned_scheme (w : HttpUrl uc) : w.cleaned.scheme = w.scheme := by
  dsimp only [cleaned, withQuery, rejoined, withPath]

@[simp] theorem cleaned_netloc (w : HttpUrl uc) : w.cleaned.netloc = w.netloc := by
  dsimp only [cleaned, withQuery, rejoined, withPath]

@[simp] theorem cleaned_query (w : HttpUrl uc) : w.cleaned.query = queryText (keptBoth uc (parseQsl w.query)) := by
  dsimp only [cleaned, withQuery]

theorem parseQsl_kept (params : List Str) (qs : Str) :
    parseQsl (queryText (kept uc params (parseQsl qs))) = kept uc params (parseQsl qs) :=
  parseQsl_queryText fun _ hkv => (mem_parseQsl (List.mem_of_mem_filter hkv)).1

theorem encodes_kept {params : List Str} {l : List (Str × Str)} (h : uc.encodes l = true) :
    uc.encodes (kept uc params l) = true :=
  List.all_eq_true.2 fun kv hkv => List.all_eq_true.1 h kv (List.mem_of_mem_filter hkv)

/-- The second pass drops more of what the first could encode. -/
theorem strips_text (w : HttpUrl uc) : ((stripParams (cpython uc) trackingParams w.text).bind
    fun url => stripSocialTrackingParams (cpython uc) url) =
      if uc.encodes (kept uc trackingParams (parseQsl w.query)) then some w.cleaned.text else none := by
  rw [stripParams_text]
  split_ifs with henc
  · have hquery : (w.rejoined.withQuery (kept uc trackingParams (parseQsl w.query))).query =
        queryText (kept uc trackingParams (parseQsl w.query)) := rfl
    rw [Option.bind_some, stripSocialTrackingParams, stripParams_text, hquery, parseQsl_kept, if_pos (encodes_kept henc)]
    rfl
  · rfl

theorem strips_some {w : HttpUrl uc} {n : Str} (h : ((stripParams (cpython uc) trackingParams w.text).bind
    fun url => stripSocialTrackingParams (cpython uc) url) = some n) :
    uc.encodes (kept uc trackingParams (parseQsl w.query)) = true ∧ n = w.cleaned.text := by
  rw [strips_text] at h
  split_ifs at h with henc
  exact ⟨henc, (Option.some.inj h).symm⟩

theorem parseQsl_keptBoth (qs : Str) :
    parseQsl (queryText (keptBoth uc (parseQsl qs))) = keptBoth uc (parseQsl qs) :=
  parseQsl_queryText fun _ hkv => (mem_parseQsl (List.mem_of_mem_filter (List.mem_of_mem_filter hkv))).1

theorem parseQsl_cleaned (w : HttpUrl uc) : parseQsl w.cleaned.query = keptBoth uc (parseQsl w.query) :=
  parseQsl_keptBoth w.query

theorem splitParams_cleaned (w : HttpUrl uc) : splitParams w.cleaned.path = splitParams w.path := by
  have hpath : w.cleaned.path = w.rejoined.rejoined.path := by dsimp only [cleaned, withQuery]
  rw [hpath, splitParams_rejoined, splitParams_rejoined]

theorem cleaned_path (w : HttpUrl uc) : w.cleaned.path = (splitParams w.path).1 ++ behind ';' (splitParams w.path).2 := by
  have hpath : w.cleaned.path = w.rejoined.rejoined.path := by dsimp only [cleaned, withQuery]
  rw [hpath, rejoined_path, splitParams_rejoined]

end HttpUrl

end SocialScraper
