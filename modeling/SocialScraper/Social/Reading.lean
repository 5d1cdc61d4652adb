import SocialScraper.Social.NormalizeTwice
/-!
# What an href spells

The location, the path and the query of an href, or of the target in its query
if it is a link shim, and the URL that the passes of `normalize_social_url` read
from them (`passes_read`).
-/

namespace SocialScraper

/-! ## Readings -/

/-- What a text spells of a URL: the location, the path with its parameters and the query. -/
structure Reading where
  netloc : Str
  path : Str
  query : Str
  /-- The text ends there: no fragment is behind it. -/
  last : Bool
deriving DecidableEq

namespace Reading

variable (a : Reading)

/-- Without the blanks at its end, if the text ends with it. -/
def cut (s : Str) : Str := if a.last then rstrip isSpace s else s

/-- The location. Blanks are cut off its end if there is nothing else. -/
def location : Str := if a.path = [] ∧ a.query = [] then a.cut a.netloc else a.netloc

/-- The path and its parameters, with the slashes at the end of the path off. Blanks are cut off if there is no query. -/
def trimmed : Str × Str := splitParams (trimPath (if a.query = [] then a.cut a.path else a.path))

end Reading

/-- The path and the parameters of a parsed href, the slashes at the end of the path off. -/
def trimmedPath (r : ParseResult) : Str × Str := splitParams (rooted (rstrip (· == '/') r.path ++ behind ';' r.params))

/-- The target of an href that is a link shim. -/
def linkTarget (uc : Unicode) (r : ParseResult) : Option Str := HttpUrl.shimTarget uc { r with path := (trimmedPath r).1 }

/-- An href that is no link shim: its path has been trimmed once before it is read. -/
def hrefReading (r : ParseResult) : Reading :=
  ⟨r.netloc, (trimmedPath r).1 ++ behind ';' (trimmedPath r).2, r.query, true⟩

/-- A target with an http scheme. -/
def targetReading (r : ParseResult) : Reading := ⟨r.netloc, rooted (r.path ++ behind ';' r.params), r.query, r.fragment = []⟩

variable {uc : Unicode}

/-- The URL is the one that the last passes read from a text. -/
structure Reading.ReadAs (a : Reading) (v : HttpUrl uc) : Prop where
  netloc : v.netloc = a.location
  path : v.path = if a.query = [] then a.cut a.path else a.path
  query : v.query = a.cut a.query

theorem Reading.ReadAs.trimmed {a : Reading} {v : HttpUrl uc} (h : a.ReadAs v) : splitParams v.trimmed.path = a.trimmed := by
  rw [HttpUrl.trimmed_path, h.path, Reading.trimmed]

/-! ## Locations -/

/-- The location that is read ends at the slash. -/
theorem span_netloc {host : Str} (hchars : ∀ c ∈ host, netlocEnd c = false ∧ unsafeByte c = false) (rest : Str) :
    ((host ++ '/' :: rest).filter (!unsafeByte ·)).takeWhile (!netlocEnd ·) = host ∧
      ((host ++ '/' :: rest).filter (!unsafeByte ·)).dropWhile (!netlocEnd ·) = '/' :: rest.filter (!unsafeByte ·) := by
  have hclean : host.filter (!unsafeByte ·) = host := List.filter_eq_self.2 fun c hc => by simp [(hchars c hc).2]
  have hslash : (host ++ '/' :: rest).filter (!unsafeByte ·) = host ++ '/' :: rest.filter (!unsafeByte ·) := by
    rw [List.filter_append, hclean]
    rfl
  rw [hslash]
  exact span_append (fun c hc => by simp [(hchars c hc).1]) fun c hc => by obtain rfl := Option.some.inj hc; rfl

theorem netloc_http {scheme : Str} (hs : scheme ∈ httpSchemes) {host rest : Str} {r : ParseResult}
    (hchars : ∀ c ∈ host, netlocEnd c = false ∧ unsafeByte c = false)
    (h : urlparse uc (scheme ++ ("://".toList ++ (host ++ '/' :: rest))) = some r) : r.netloc = host := by
  obtain ⟨split, hsplit, rfl⟩ := Option.map_eq_some_iff.1 h
  have hurl := urlsplit_http uc hs (host ++ '/' :: rest)
  rw [hsplit] at hurl
  simp only [(span_netloc hchars rest).1] at hurl
  split_ifs at hurl
  exact congrArg SplitResult.netloc (Option.some.inj hurl)

theorem urlparse_netloc {scheme : Str} (hs : scheme ∈ httpSchemes) {host : Str} (hok : NetlocOk uc host) (rest : Str) :
    ∃ r, urlparse uc (scheme ++ ("://".toList ++ (host ++ '/' :: rest))) = some r ∧ r.netloc = host := by
  have hurl := urlsplit_http uc hs (host ++ '/' :: rest)
  simp only [(span_netloc hok.chars rest).1, hok.brackets, hok.check, Bool.and_self, if_true] at hurl
  obtain ⟨r, hr⟩ : ∃ r, urlparse uc (scheme ++ ("://".toList ++ (host ++ '/' :: rest))) = some r := by
    rw [urlparse, hurl]
    exact ⟨_, rfl⟩
  exact ⟨r, hr, netloc_http hs hok.chars hr⟩

/-! ## Fragments -/

theorem span_stop {p : Char → Bool} {c : Char} (hc : p c = false) (s t : Str) :
    (s ++ c :: t).takeWhile p = s.takeWhile p ∧ (s ++ c :: t).dropWhile p = s.dropWhile p ++ c :: t := by
  induction s with
  | nil => simp [hc]
  | cons d s ih =>
    cases hd : p d with
    | true => simp [hd, ih]
    | false => simp [hd]

/-- What is behind the first number sign is the fragment, and nothing else. -/
theorem urlparse_fragment {scheme : Str} (hs : scheme ∈ httpSchemes) {rest : Str} (hrest : '#' ∉ rest) (f : Str) :
    urlparse uc (scheme ++ ("://".toList ++ (rest ++ '#' :: f))) =
      (urlparse uc (scheme ++ ("://".toList ++ rest))).map fun r => { r with fragment := f.filter (!unsafeByte ·) } := by
  have hclean : (rest ++ '#' :: f).filter (!unsafeByte ·) =
      rest.filter (!unsafeByte ·) ++ '#' :: f.filter (!unsafeByte ·) := by
    rw [List.filter_append]
    rfl
  obtain ⟨htake, hdrop⟩ := span_stop (p := (!netlocEnd ·)) (c := '#') rfl (rest.filter (!unsafeByte ·))
    (f.filter (!unsafeByte ·))
  have hmark : '#' ∉ (rest.filter (!unsafeByte ·)).dropWhile (!netlocEnd ·) :=
    fun hc => hrest (List.mem_of_mem_filter ((List.dropWhile_sublist _).subset hc))
  rw [urlparse, urlparse, urlsplit_http uc hs, urlsplit_http uc hs]
  simp only [hclean, htake, hdrop, partition_append hmark, partition_of_not_mem hmark]
  split_ifs <;> rfl

/-! ## What is written -/

namespace HttpUrl

theorem mark_not_mem (w : HttpUrl uc) : '#' ∉ w.rest := by
  intro hc
  rcases List.mem_append.1 hc with hc | hc
  · exact absurd (w.netloc_ok.chars _ hc).1 (by decide)
  · rcases List.mem_append.1 hc with hc | hc
    · exact (w.path_chars _ hc).2.1 rfl
    · rcases mem_behind hc with hc | hc
      · exact absurd hc (by decide)
      · exact (w.query_chars _ hc).1 rfl

/-- `normalize_url` on a URL with a fragment, or with none. -/
theorem normalizeUrl_written {w : HttpUrl uc} {f m : Str} (h : normalizeUrl (cpython uc) (w.text ++ behind '#' f) = some m) :
    ∃ v : HttpUrl uc, m = v.trimmed.text ∧ v.scheme = w.scheme ∧ Reading.ReadAs ⟨w.netloc, w.path, w.query, f = []⟩ v := by
  by_cases hf : f = []
  · rw [hf, behind_nil, List.append_nil] at h
    obtain ⟨v, hm, hscheme, hquery, hnetloc, hpath, hends⟩ := normalizeUrl_parsed h
    refine ⟨v, hm, hscheme, ?_, ?_, ?_⟩
    · simp only [Reading.location, Reading.cut, hf, decide_true, if_true]
      split_ifs with hbare
      · -- Without a path, the blanks were cut off the location.
        have hnil : v.path = [] := by
          rw [hpath, if_pos hbare.2, hbare.1]
          rfl
        have hlast := hends hbare.2
        rwa [hnil, hbare.1, List.append_nil, List.append_nil] at hlast
      · exact hnetloc.resolve_right fun h => hbare h.2
    · simp only [Reading.cut, hf, decide_true, if_true]
      exact hpath
    · simp only [Reading.cut, hf, decide_true, if_true]
      exact hquery
  · have htext : w.text ++ behind '#' f = w.scheme ++ ("://".toList ++ (w.rest ++ '#' :: f)) := by
      rw [behind, if_neg hf, text, List.append_assoc, List.append_assoc]
    have hstrip : strip (w.text ++ behind '#' f) = w.scheme ++ ("://".toList ++ (w.rest ++ '#' :: rstrip isSpace f)) := by
      rw [htext, strip_http w.scheme_mem, rstrip_append, rstrip_cons rfl, if_neg (List.cons_ne_nil _ _)]
    have hstart : startsWithHttp (strip (w.text ++ behind '#' f)) = true :=
      startsWithHttp_iff.2 ⟨w.scheme, w.scheme_mem, _, hstrip⟩
    have hne : strip (w.text ++ behind '#' f) ≠ [] := by
      rw [hstrip]
      simp
    have hparse : urlparse uc (w.scheme ++ ("://".toList ++ (w.rest ++ '#' :: rstrip isSpace f))) = _ :=
      urlparse_fragment w.scheme_mem w.mark_not_mem (rstrip isSpace f)
    rw [← hstrip, show w.scheme ++ ("://".toList ++ w.rest) = w.text from rfl, w.urlparse_text] at hparse
    simp only [normalizeUrl, if_neg hne, if_pos hstart, cpython_urlparse, hparse] at h
    refine ⟨w, ?_, rfl, ?_, ?_, ?_⟩
    · rw [← urlunparse_trimmed]
      exact (Option.some.inj h).symm
    all_goals simp [Reading.location, Reading.cut, hf]

/-- The text is what the tracking passes leave of the URL, its path trimmed. -/
structure Normal (v : HttpUrl uc) (n : Str) : Prop where
  text : n = v.trimmed.cleaned.text
  encodes : uc.encodes (kept uc trackingParams (parseQsl v.query)) = true

theorem Normal.of_strips {v : HttpUrl uc} {n : Str} (h : ((stripParams (cpython uc) trackingParams v.trimmed.text).bind
    fun url => stripSocialTrackingParams (cpython uc) url) = some n) : v.Normal n := by
  obtain ⟨henc, htext⟩ := strips_some h
  rw [trimmed_query] at henc
  exact ⟨htext, henc⟩

end HttpUrl

/-! ## Targets -/

theorem splitScheme_subset (url : Str) : (splitScheme url).2 ⊆ url := by
  unfold splitScheme
  dsimp only
  split_ifs
  · exact fun c hc => mem_partition_snd hc
  · exact List.Subset.refl _

theorem splitNetloc_ok {url netloc rest : Str} (h : splitNetloc url = some (netloc, rest)) :
    (∀ c ∈ netloc, netlocEnd c = false) ∧ bracketsOk netloc = true ∧ netloc ⊆ url ∧ rest ⊆ url := by
  unfold splitNetloc at h
  dsimp only at h
  split_ifs at h with hslashes hbrackets
  · obtain ⟨rfl, rfl⟩ := Prod.mk.inj (Option.some.inj h)
    refine ⟨fun c hc => by simpa using List.mem_takeWhile_imp hc, hbrackets, ?_, ?_⟩
    · exact fun c hc => List.mem_of_mem_drop ((List.takeWhile_sublist _).subset hc)
    · exact fun c hc => List.mem_of_mem_drop ((List.dropWhile_sublist _).subset hc)
  · obtain ⟨rfl, rfl⟩ := Prod.mk.inj (Option.some.inj h)
    exact ⟨nofun, rfl, List.nil_subset _, List.Subset.refl _⟩

/-- What is parsed can be written into a URL. -/
theorem urlsplit_ok {s : Str} {r : SplitResult} (h : urlsplit uc s = some r) :
    NetlocOk uc r.netloc ∧ (∀ c ∈ r.path, c ≠ '?' ∧ c ≠ '#' ∧ unsafeByte c = false) ∧
      ∀ c ∈ r.query, c ≠ '#' ∧ unsafeByte c = false := by
  unfold urlsplit at h
  dsimp only at h
  have hsafe : ∀ c ∈ (splitScheme ((s.dropWhile (·.toNat ≤ 0x20)).filter (!unsafeByte ·))).2, unsafeByte c = false :=
    fun c hc => by simpa using (List.mem_filter.1 (splitScheme_subset _ hc)).2
  generalize splitScheme ((s.dropWhile (·.toNat ≤ 0x20)).filter (!unsafeByte ·)) = split at h hsafe
  obtain ⟨⟨netloc, url⟩, hnetloc, h⟩ := Option.bind_eq_some_iff.1 h
  dsimp only at h
  split_ifs at h with hcheck
  obtain rfl := Option.some.inj h
  obtain ⟨hends, hbrackets, hhost, hrest⟩ := splitNetloc_ok hnetloc
  refine ⟨⟨fun c hc => ⟨hends c hc, hsafe c (hhost hc)⟩, hbrackets, hcheck⟩, fun c hc => ?_, fun c hc => ?_⟩
  · obtain ⟨hq, hc⟩ := mem_partition_fst hc
    obtain ⟨hf, hc⟩ := mem_partition_fst hc
    exact ⟨hq, hf, hsafe c (hrest hc)⟩
  · obtain ⟨hf, hc⟩ := mem_partition_fst (mem_partition_snd hc)
    exact ⟨hf, hsafe c (hrest hc)⟩

theorem urlparse_ok {s : Str} {r : ParseResult} (h : urlparse uc s = some r) :
    NetlocOk uc r.netloc ∧ (∀ c ∈ r.path ++ behind ';' r.params, c ≠ '?' ∧ c ≠ '#' ∧ unsafeByte c = false) ∧
      ∀ c ∈ r.query, c ≠ '#' ∧ unsafeByte c = false := by
  obtain ⟨split, hsplit, rfl⟩ := Option.map_eq_some_iff.1 h
  obtain ⟨hnetloc, hpath, hquery⟩ := urlsplit_ok hsplit
  refine ⟨hnetloc, fun c hc => ?_, hquery⟩
  dsimp only at hc
  split_ifs at hc
  · rcases splitParams_spec split.path with hs | ⟨hs, ha⟩
    · exact hpath c (hs ▸ hc)
    · rw [ha, behind_nil, List.append_nil] at hc
      exact hpath c (hs ▸ List.mem_append_left _ hc)
  · exact hpath c (by simpa using hc)

theorem netlocOk_canonicalHost {netloc : Str} (h : NetlocOk uc netloc) : NetlocOk uc (HttpUrl.canonicalHost uc netloc) := by
  unfold HttpUrl.canonicalHost
  cases hm : mobileHosts (uc.lower netloc) with
  | none => exact h
  | some host => exact HttpUrl.netlocOk_canonical hm

/-- The reading of a text whose host has been made canonical. -/
def Reading.canonical (uc : Unicode) (a : Reading) : Reading := { a with netloc := HttpUrl.canonicalHost uc a.netloc }

theorem canonicalizeDomain_eq {t : Str} {r : ParseResult} (hr : urlparse uc t = some r) :
    canonicalizeDomain (cpython uc) t = some (urlunparse { r with
      scheme := if r.scheme = "http".toList then "https".toList else r.scheme
      netloc := HttpUrl.canonicalHost uc r.netloc }) := by
  rw [canonicalizeDomain, cpython_urlparse, hr, Option.map_some, HttpUrl.canonicalHost, cpython_lower, cpython_urlunparse]
  cases mobileHosts (uc.lower r.netloc) with
  | none =>
    dsimp only [Option.getD_none]
    split_ifs <;> rfl
  | some host =>
    dsimp only [Option.getD_some]
    split_ifs <;> rfl

/-- What `_canonicalize_domain` writes of a target: a URL on its canonical host, or a text without an http scheme. -/
theorem canonicalizeDomain_written {t c : Str} (h : canonicalizeDomain (cpython uc) t = some c) :
    ∃ r, urlparse uc t = some r ∧
      ((r.scheme ∈ httpSchemes ∧ ∃ w : HttpUrl uc, c = w.text ++ behind '#' r.fragment ∧ w.scheme = "https".toList ∧
          w.netloc = HttpUrl.canonicalHost uc r.netloc ∧ w.path = (targetReading r).path ∧ w.query = r.query) ∨
        r.scheme ∉ httpSchemes ∧ c = urlunparse { r with netloc := HttpUrl.canonicalHost uc r.netloc }) := by
  obtain ⟨r, hr⟩ : ∃ r, urlparse uc t = some r := by
    obtain ⟨r, hr, -⟩ := Option.map_eq_some_iff.1 h
    exact ⟨r, hr⟩
  rw [canonicalizeDomain_eq hr] at h
  obtain rfl := Option.some.inj h
  refine ⟨r, hr, ?_⟩
  by_cases hs : r.scheme ∈ httpSchemes
  · left
    obtain ⟨hnetloc, hpath, hquery⟩ := urlparse_ok hr
    let w : HttpUrl uc := {
      scheme := "https".toList
      netloc := HttpUrl.canonicalHost uc r.netloc
      path := rooted (r.path ++ behind ';' r.params)
      query := r.query
      scheme_mem := https_mem
      netloc_ok := netlocOk_canonicalHost hnetloc
      path_rooted := rooted_rooted _
      path_chars := fun c hc => (mem_rooted hc).elim (fun h => h ▸ by decide) (hpath c)
      query_chars := hquery }
    refine ⟨hs, w, ?_, rfl, rfl, rfl, rfl⟩
    have hsecure : (if r.scheme = "http".toList then "https".toList else r.scheme) = "https".toList := by
      simp only [httpSchemes, List.mem_cons, List.not_mem_nil, or_false] at hs
      split_ifs with hhttp
      · rfl
      · exact hs.resolve_left hhttp
    rw [hsecure, urlunparse_http https_mem]
    simp only [w, HttpUrl.text, HttpUrl.rest, List.append_assoc]
  · right
    have hkept : (if r.scheme = "http".toList then "https".toList else r.scheme) = r.scheme :=
      if_neg fun h => hs (by rw [h]; exact http_mem)
    exact ⟨hs, by rw [hkept]⟩

/-! ## Targets without an http scheme -/

theorem canonicalHost_nil : HttpUrl.canonicalHost uc [] = [] := by
  rw [HttpUrl.canonicalHost, Unicode.lower_nil]
  rfl

theorem canonical_self {r : ParseResult} (h : r.netloc = []) : { r with netloc := HttpUrl.canonicalHost uc r.netloc } = r := by
  rw [h, canonicalHost_nil, ← h]

theorem canonicalHost_ne_nil {netloc : Str} (h : netloc ≠ []) : HttpUrl.canonicalHost uc netloc ≠ [] := by
  unfold HttpUrl.canonicalHost
  cases hm : mobileHosts (uc.lower netloc) with
  | none => exact h
  | some host =>
    have hall : ∀ host ∈ HttpUrl.canonicalHosts, host ≠ [] := by decide
    exact hall host (HttpUrl.mobileHosts_mem hm)

theorem splitParams_append {a : Str} (ha : ';' ∉ a) (s : Str) :
    splitParams (a ++ s) = (a ++ (splitParams s).1, (splitParams s).2) := by
  obtain ⟨hjoin, hslash, hdir⟩ := segment_spec s
  by_cases hnil : dirName s = []
  · -- The last segment goes on from the one of `a`.
    obtain ⟨hjoin', hslash', hdir'⟩ := segment_spec a
    rw [hnil, List.nil_append] at hjoin
    have hseg : '/' ∉ lastSegment a ++ lastSegment s := fun hc => (List.mem_append.1 hc).elim hslash' hslash
    obtain ⟨hlast, hdirName⟩ := span_segment hseg hdir'
    have hsub : ';' ∉ lastSegment a := fun hc => ha (hjoin' ▸ List.mem_append_right _ hc)
    have hwhole : a ++ s = dirName a ++ (lastSegment a ++ lastSegment s) := by
      rw [← List.append_assoc, hjoin', hjoin]
    simp only [splitParams, hwhole, hlast, hdirName, partition_append_of_not_mem hsub, hnil, List.nil_append]
    rw [← List.append_assoc, hjoin']
  · have hends : ∀ c ∈ (a ++ dirName s).getLast?, c = '/' := by
      intro c hc
      rw [List.getLast?_append_of_ne_nil _ hnil] at hc
      exact hdir c hc
    obtain ⟨hlast, hdirName⟩ := span_segment hslash hends
    have hwhole : a ++ s = a ++ dirName s ++ lastSegment s := by rw [List.append_assoc, hjoin]
    rw [splitParams, hwhole, hlast, hdirName]
    exact congrArg (fun path => (path, (splitParams s).2)) (List.append_assoc _ _ _)

theorem scheme_chars {t : Str} {r : ParseResult} (h : urlparse uc t = some r) : ∀ c ∈ r.scheme, schemeChar c = true := by
  obtain ⟨split, hsplit, rfl⟩ := Option.map_eq_some_iff.1 h
  unfold urlsplit at hsplit
  generalize (t.dropWhile (·.toNat ≤ 0x20)).filter (!unsafeByte ·) = url at hsplit
  obtain ⟨⟨netloc, rest⟩, -, hsplit⟩ := Option.bind_eq_some_iff.1 hsplit
  dsimp only at hsplit
  split_ifs at hsplit
  obtain rfl := Option.some.inj hsplit
  intro c hc
  change c ∈ (splitScheme url).1 at hc
  unfold splitScheme at hc
  dsimp only at hc
  split_ifs at hc with hscheme
  · obtain ⟨d, hd, rfl⟩ := List.mem_map.1 hc
    have hchar := List.all_eq_true.1 (Bool.and_eq_true_iff.1 hscheme).2 d hd
    exact forall_schemeChar (P := fun c => schemeChar c.toLower = true) (by decide) hchar
  · cases hc

/-- What stands for the location when a scheme is read behind another one. -/
def schemeHost (r : ParseResult) : Str := if r.scheme = [] then [] else r.scheme ++ [':']

theorem schemeHost_chars {t : Str} {r : ParseResult} (hr : urlparse uc t = some r) :
    ∀ c ∈ schemeHost r, schemeChar c = true ∨ c = ':' := by
  intro c hc
  unfold schemeHost at hc
  split_ifs at hc
  · cases hc
  · exact (List.mem_append.1 hc).imp (scheme_chars hr c) List.mem_singleton.1

/-- A scheme and a colon, or nothing, in front of two slashes is no start with an http scheme, unless it is one. -/
theorem startsWithHttp_foreign {r : ParseResult} (hother : r.scheme ∉ httpSchemes) (hcolon : ':' ∉ r.scheme) (tail : Str) :
    startsWithHttp (schemeHost r ++ '/' :: '/' :: tail) = false := by
  rw [Bool.eq_false_iff]
  intro h
  obtain ⟨scheme, hs, rest, heq⟩ := HttpUrl.startsWithHttp_iff.1 h
  have hnone : ∀ scheme ∈ httpSchemes, ':' ∉ scheme ∧ scheme.head? ≠ some '/' ∧ scheme ≠ [] := by decide
  obtain ⟨hsep, hslash, hne⟩ := hnone scheme hs
  unfold schemeHost at heq
  split_ifs at heq with hnil
  · have hhead := congrArg List.head? heq
    rw [List.head?_append_of_ne_nil _ hne] at hhead
    exact hslash hhead.symm
  · rw [List.append_assoc] at heq
    have hparts := congrArg (fun s => (partition ':' s).1) heq
    simp only [List.singleton_append] at hparts
    rw [partition_append hcolon, show "://".toList ++ rest = ':' :: ("//".toList ++ rest) from rfl, partition_append hsep] at hparts
    exact hother (by rw [show r.scheme = scheme from hparts]; exact hs)

/-- A target with a location and another scheme: the scheme is read as the location, and the location as the path. -/
theorem foreign_text {t : Str} {r : ParseResult} (hr : urlparse uc t = some r) (hother : r.scheme ∉ httpSchemes)
    {netloc : Str} (hn : netloc ≠ []) : ∃ tail, HttpUrl.withScheme (urlunparse { r with netloc := netloc }) =
      "https".toList ++ ("://".toList ++ (schemeHost r ++ '/' :: '/' :: tail)) := by
  have htext : urlunparse { r with netloc := netloc } = schemeHost r ++ '/' :: '/' :: (netloc ++
      (rooted (r.path ++ behind ';' r.params) ++ (behind '?' r.query ++ behind '#' r.fragment))) := by
    unfold urlunparse urlunsplit schemeHost
    split_ifs <;> simp_all
  generalize netloc ++ (rooted (r.path ++ behind ';' r.params) ++ (behind '?' r.query ++ behind '#' r.fragment)) = x at htext
  have hcolon : ':' ∉ r.scheme := fun hc => absurd (scheme_chars hr _ hc) (by decide)
  have hspace : ∀ c ∈ schemeHost r, isSpace c = false := by
    intro c hc
    rcases schemeHost_chars hr c hc with hchar | rfl
    · exact forall_schemeChar (P := fun c => isSpace c = false) (by decide) hchar
    · rfl
  have hstrip : strip (urlunparse { r with netloc := netloc }) = schemeHost r ++ '/' :: '/' :: rstrip isSpace x := by
    have hstart : (schemeHost r ++ '/' :: '/' :: x).dropWhile isSpace = schemeHost r ++ '/' :: '/' :: x := by
      cases hhost : schemeHost r with
      | nil => rfl
      | cons c host =>
        rw [hhost] at hspace
        rw [List.cons_append, List.dropWhile_cons_of_neg (by simp [hspace c List.mem_cons_self])]
    rw [strip, htext, hstart, HttpUrl.rstrip_append, HttpUrl.rstrip_cons rfl, HttpUrl.rstrip_cons rfl,
      if_neg (List.cons_ne_nil _ _)]
  refine ⟨rstrip isSpace x, ?_⟩
  rw [HttpUrl.withScheme, hstrip, startsWithHttp_foreign hother hcolon]
  rfl

theorem schemeHost_plain {t : Str} {r : ParseResult} (hr : urlparse uc t = some r) :
    ∀ c ∈ schemeHost r, netlocEnd c = false ∧ unsafeByte c = false := by
  intro c hc
  rcases schemeHost_chars hr c hc with hchar | rfl
  · exact forall_schemeChar (P := fun c => netlocEnd c = false ∧ unsafeByte c = false) (by decide) hchar
  · decide

theorem schemeHost_ok {t : Str} {r : ParseResult} (hr : urlparse uc t = some r) : NetlocOk uc (schemeHost r) where
  chars := schemeHost_plain hr
  brackets := by
    have hnone : ∀ c, schemeChar c = false → c ≠ ':' → (schemeHost r).contains c = false := by
      intro c hchar hcolon
      rw [List.contains_eq_mem, decide_eq_false_iff_not]
      intro hc
      rcases schemeHost_chars hr c hc with h | h
      · exact absurd (h.symm.trans hchar) (by decide)
      · exact hcolon h
    rw [bracketsOk, hnone '[' rfl (by decide), hnone ']' rfl (by decide)]
    rfl
  check := by
    have hascii : (schemeHost r).all isAscii = true := List.all_eq_true.2 fun c hc =>
      (schemeHost_chars hr c hc).elim isAscii_of_schemeChar fun h => h ▸ rfl
    rw [checkNetloc, hascii]
    rfl

theorem foreign_netloc {t : Str} {r r' : ParseResult} (hr : urlparse uc t = some r) (hother : r.scheme ∉ httpSchemes)
    {netloc : Str} (hn : netloc ≠ []) (hr' : urlparse uc (HttpUrl.withScheme (urlunparse { r with netloc := netloc })) = some r') :
    r'.netloc = schemeHost r := by
  obtain ⟨tail, htext⟩ := foreign_text hr hother hn
  rw [htext] at hr'
  exact netloc_http https_mem (schemeHost_plain hr) hr'

theorem foreign_path {t : Str} {r r' : ParseResult} (hr : urlparse uc t = some r) (hother : r.scheme ∉ httpSchemes)
    {netloc : Str} (hn : netloc ≠ []) (hr' : urlparse uc (HttpUrl.withScheme (urlunparse { r with netloc := netloc })) = some r') :
    (∃ path, r'.path = "//".toList ++ path) ∧ '/' ∉ r'.params := by
  obtain ⟨tail, htext⟩ := foreign_text hr hother hn
  obtain ⟨htake, hdrop⟩ := span_netloc (schemeHost_plain hr) ('/' :: tail)
  have hslash : ('/' :: tail).filter (!unsafeByte ·) = '/' :: tail.filter (!unsafeByte ·) := rfl
  have hsplit := urlsplit_http uc https_mem (schemeHost r ++ '/' :: '/' :: tail)
  have hslashes : ∀ (sep : Char) (s : Str), sep ≠ '/' →
      (partition sep ('/' :: '/' :: s)).1 = '/' :: '/' :: (partition sep s).1 := by
    intro sep s hsep
    rw [partition_cons, if_neg hsep.symm, partition_cons, if_neg hsep.symm]
  simp only [htake, hdrop, hslash] at hsplit
  rw [hslashes '#' _ (by decide), hslashes '?' _ (by decide)] at hsplit
  split_ifs at hsplit with hok
  · have hparse := urlparse_http https_mem hsplit
    rw [htext] at hr'
    obtain rfl := Option.some.inj (hparse.symm.trans hr')
    refine ⟨⟨_, congrArg Prod.fst (splitParams_append (a := "//".toList) (by decide) _)⟩, fun hc => ?_⟩
    exact (segment_spec _).2.1 (mem_partition_snd hc)
  · rw [htext, urlparse, hsplit] at hr'
    cases hr'

/-! ## The passes -/

theorem urlparse_blank {s : Str} (h : strip s = []) :
    urlparse uc (HttpUrl.withScheme s) = some ⟨"https".toList, [], [], [], [], []⟩ := by
  rw [HttpUrl.withScheme, h]
  rfl

theorem linkTarget_nil : linkTarget uc ⟨"https".toList, [], [], [], [], []⟩ = none := by
  unfold linkTarget HttpUrl.shimTarget
  rw [if_neg]
  rintro ⟨h, -⟩
  rw [Unicode.lower_nil] at h
  cases h

theorem canonical_nil : (hrefReading ⟨"https".toList, [], [], [], [], []⟩).canonical uc = ⟨[], [], [], true⟩ := by
  rw [Reading.canonical, show (hrefReading ⟨"https".toList, [], [], [], [], []⟩).netloc = [] from rfl, canonicalHost_nil]
  rfl

theorem trimmedPath_parts (w : HttpUrl uc) : trimmedPath w.parts = splitParams (trimPath w.path) := rfl

/-- A link shim is one on the parts of the URL that an href is read into. -/
theorem shimTarget_trimmed {r : ParseResult} {w : HttpUrl uc} (hparts : { r with fragment := [] } = w.parts) :
    HttpUrl.shimTarget uc w.trimmed.parts = linkTarget uc r := by
  have htrimmed : w.trimmed.parts.path = (trimmedPath w.parts).1 := by rw [trimmedPath_parts, ← w.trimmed_path]; rfl
  have hnetloc : w.trimmed.parts.netloc = w.parts.netloc := w.trimmed_netloc
  have hquery : w.trimmed.parts.query = w.parts.query := w.trimmed_query
  unfold linkTarget HttpUrl.shimTarget
  rw [htrimmed, hnetloc, hquery, ← hparts]
  rfl

theorem normalizeSocialUrl_blank {h : Str} (hn : normalizeUrl (cpython uc) h = some []) :
    normalizeSocialUrl (cpython uc) h = some [] := by
  have hnil : normalizeUrl (cpython uc) [] = some [] := rfl
  have hsame : normalizeSocialUrl (cpython uc) h = normalizeSocialUrl (cpython uc) [] := by
    unfold normalizeSocialUrl
    rw [hn, hnil]
  exact hsame.trans normalizeSocialUrl_nil

/-- What the last passes make of a text that `normalize_url` reads anew. -/
theorem lastPasses_read {c m n : Str} (hm : normalizeUrl (cpython uc) c = some m)
    (hn : ((stripParams (cpython uc) trackingParams m).bind fun url => stripSocialTrackingParams (cpython uc) url) = some n) :
    strip c = [] ∧ n = [] ∨ ∃ (v : HttpUrl uc) (r : ParseResult), urlparse uc (HttpUrl.withScheme c) = some r ∧
      { r with fragment := [] } = v.parts ∧ v.Normal n := by
  rcases HttpUrl.normalizeUrl_spec hm with ⟨hnil, rfl⟩ | ⟨w, r, hr, hparts, rfl⟩
  · rw [HttpUrl.stripParams_nil, Option.bind_some, stripSocialTrackingParams, HttpUrl.stripParams_nil] at hn
    exact .inl ⟨hnil, (Option.some.inj hn).symm⟩
  · exact .inr ⟨w, r, hr, hparts, .of_strips hn⟩

/-- How the passes get from an href to its normal form. -/
inductive Passes (uc : Unicode) (href n : Str) : Prop
  | blank (hblank : strip href = []) (hn : n = [])
  /-- The href is no link shim. -/
  | href {r} {v : HttpUrl uc} (hr : urlparse uc (HttpUrl.withScheme href) = some r) (ht : linkTarget uc r = none)
      (hs : v.scheme = "https".toList) (hv : ((hrefReading r).canonical uc).ReadAs v) (hn : v.Normal n)
  /-- The target of a link shim is a URL. -/
  | target {r t rt} {v : HttpUrl uc} (hr : urlparse uc (HttpUrl.withScheme href) = some r) (ht : linkTarget uc r = some t)
      (hrt : urlparse uc t = some rt) (hhttp : rt.scheme ∈ httpSchemes) (hs : v.scheme = "https".toList)
      (hv : ((targetReading rt).canonical uc).ReadAs v) (hn : v.Normal n)
  /-- The target has no http scheme, so it is read anew behind one. -/
  | anew {r t rt} (hr : urlparse uc (HttpUrl.withScheme href) = some r) (ht : linkTarget uc r = some t)
      (hrt : urlparse uc t = some rt) (hother : rt.scheme ∉ httpSchemes)
      (hread : strip (urlunparse { rt with netloc := HttpUrl.canonicalHost uc rt.netloc }) = [] ∧ n = [] ∨
        ∃ (v : HttpUrl uc) (r' : ParseResult), urlparse uc (HttpUrl.withScheme (urlunparse
          { rt with netloc := HttpUrl.canonicalHost uc rt.netloc })) = some r' ∧ { r' with fragment := [] } = v.parts ∧ v.Normal n)

theorem passes_read {href n : Str} (hn : normalizeSocialUrl (cpython uc) href = some n) : Passes uc href n := by
  have hpasses := hn
  rw [normalizeSocialUrl_eq] at hpasses
  obtain ⟨m, hlast, hstrips⟩ := Option.bind_eq_some_iff.1 hpasses
  obtain ⟨n₁, n₂, n₃, hn₁, hn₂, hn₃, hm⟩ := lastForm_passes hlast
  rcases HttpUrl.normalizeUrl_spec hn₁ with ⟨hnil, rfl⟩ | ⟨w, r, hr, hparts, rfl⟩
  · exact .blank hnil (Option.some.inj (hn.symm.trans (normalizeSocialUrl_blank hn₁)))
  rw [HttpUrl.unwrap_eq w.trimmed.urlparse_text, shimTarget_trimmed hparts] at hn₂
  obtain rfl := Option.some.inj hn₂
  cases ht : linkTarget uc r with
  | none =>
    rw [ht, Option.getD_none, HttpUrl.canonicalizeDomain_text] at hn₃
    obtain rfl := Option.some.inj hn₃
    obtain ⟨v, rfl, hs, hv⟩ := HttpUrl.normalizeUrl_written (f := []) ((List.append_nil w.trimmed.canonical.text).symm ▸ hm)
    have hreading : Reading.mk w.trimmed.canonical.netloc w.trimmed.canonical.path w.trimmed.canonical.query true =
        (hrefReading r).canonical uc := by
      have hfst : trimmedPath r = splitParams w.trimmed.path := by
        rw [w.trimmed_path, ← trimmedPath_parts, ← hparts]
        rfl
      rw [HttpUrl.canonical_netloc, HttpUrl.canonical_path, HttpUrl.rejoined_path, HttpUrl.canonical_query, w.trimmed_netloc,
        w.trimmed_query, ← hfst]
      simp only [Reading.canonical, hrefReading, show r.netloc = w.netloc from congrArg ParseResult.netloc hparts,
        show r.query = w.query from congrArg ParseResult.query hparts]
    exact .href hr ht (hs.trans w.trimmed.canonical_scheme) (hreading ▸ hv) (.of_strips hstrips)
  | some t =>
    rw [ht, Option.getD_some] at hn₃
    obtain ⟨rt, hrt, ⟨hhttp, w', rfl, hs', hnetloc, hpath, hquery⟩ | ⟨hother, rfl⟩⟩ := canonicalizeDomain_written hn₃
    · obtain ⟨v, rfl, hs, hv⟩ := HttpUrl.normalizeUrl_written hm
      rw [hnetloc, hpath, hquery] at hv
      exact .target hr ht hrt hhttp (hs.trans hs') hv (.of_strips hstrips)
    · exact .anew hr ht hrt hother (lastPasses_read hm hstrips)

end SocialScraper
