import SocialScraper.BusinessUrl
import SocialScraper.Network.HostKeys
/-!
# Website validation

`validate_url` of `app.validators.url_validator`, and
`validate_and_normalize_website`, which guards it. The guard is for a
`ValidationError`: a text that `urlparse` refuses makes both raise a
`ValueError`, and a parameter that cannot be encoded makes the latter raise one
(`validation_total_iff`).
-/

namespace SocialScraper

/-- `app.exceptions.errors.ValidationError`, with its details. -/
structure ValidationError where
  message : Str
  field : Str
  value : Str
deriving DecidableEq

inductive ValidateError where
  | validation (e : ValidationError)
  /-- The `ValueError` of a parse, or of text that cannot be encoded. -/
  | value
deriving DecidableEq

section
variable (lib : Stdlib)

def validateUrl (value : Str) (fieldName : Str := "url".toList) : Except ValidateError Str :=
  match normalizeUrl lib value with
  | none => .error .value
  | some normalized =>
    if isValidUrl lib normalized then .ok normalized
    else .error (.validation ⟨"'".toList ++ value ++ "' is not a valid ".toList ++ fieldName, fieldName, value⟩)

def validateAndNormalizeWebsite (rawUrl : Option Str) : Except ValidateError (Option Str) :=
  match rawUrl with
  | none | some [] => .ok none
  | some rawUrl =>
    match validateUrl lib rawUrl "website".toList with
    | .error (.validation _) => .ok none
    | .error .value => .error .value
    | .ok _ =>
      match normalizeBusinessUrl lib rawUrl with
      | none => .error .value
      | some website => .ok (some website)

/-- The hostname of a URL, if it has one. -/
def hostnameOf (url : Str) : Option Str := (lib.urlparse url).bind lib.hostname

end

/-! ## What is parsed -/

/-- What `normalize_url` has behind the scheme, be it one of its own. -/
def behindScheme (s : Str) : Str :=
  if "http://".toList.isPrefixOf s then s.drop 7 else if "https://".toList.isPrefixOf s then s.drop 8 else s

/-- The network location of a text, as `normalize_url` has it parsed. -/
def locationOf (raw : Str) : Str := leadingNetloc (behindScheme (strip raw))

theorem withScheme_behind (s : Str) :
    ∃ scheme ∈ httpSchemes, HttpUrl.withScheme s = scheme ++ ("://".toList ++ behindScheme (strip s)) := by
  unfold HttpUrl.withScheme startsWithHttp behindScheme
  by_cases hhttp : "http://".toList.isPrefixOf (strip s) = true
  · obtain ⟨rest, hrest⟩ := List.isPrefixOf_iff_prefix.1 hhttp
    rw [if_pos hhttp, if_pos (Bool.or_eq_true_iff.2 (.inl hhttp)), ← hrest]
    exact ⟨_, http_mem, rfl⟩
  · rw [if_neg hhttp]
    by_cases hhttps : "https://".toList.isPrefixOf (strip s) = true
    · obtain ⟨rest, hrest⟩ := List.isPrefixOf_iff_prefix.1 hhttps
      rw [if_pos hhttps, if_pos (Bool.or_eq_true_iff.2 (.inr hhttps)), ← hrest]
      exact ⟨_, https_mem, rfl⟩
    · rw [if_neg hhttps, if_neg fun h => (Bool.or_eq_true_iff.1 h).elim hhttp hhttps]
      exact ⟨_, https_mem, rfl⟩

variable {uc : Unicode}

/-- `normalize_url` raises only over the network location. -/
theorem normalizeUrl_some_iff {raw : Str} :
    (∃ m, normalizeUrl (cpython uc) raw = some m) ↔ NetlocOk uc (locationOf raw) := by
  obtain ⟨scheme, hs, hscheme⟩ := withScheme_behind raw
  by_cases hblank : strip raw = []
  · refine iff_of_true ⟨[], ?_⟩ ?_
    · rw [normalizeUrl, hblank]
      rfl
    · rw [locationOf, hblank]
      exact ⟨leadingNetloc_chars, rfl, rfl⟩
  · constructor
    · rintro ⟨m, hm⟩
      rcases HttpUrl.normalizeUrl_spec hm with ⟨hnil, -⟩ | ⟨w, r, hr, -, -⟩
      · exact absurd hnil hblank
      · exact netlocOk_leading hs (hscheme ▸ hr)
    · intro h
      obtain ⟨r, hr, -, -⟩ := parse_netloc hs h
      rw [← hscheme] at hr
      simp only [normalizeUrl, if_neg hblank, cpython_urlparse]
      exact ⟨_, congrArg (Option.map _) hr⟩

/-! ## What is validated -/

/-- A text names a host that is valid, in what `normalize_url` parses of it. -/
def NamesHost (uc : Unicode) (raw : Str) : Prop :=
  ∃ r, urlparse uc (HttpUrl.withScheme raw) = some r ∧ ValidHost ((hostname uc r).getD [])

theorem netloc_ne_nil {r : ParseResult} (h : ValidHost ((hostname uc r).getD [])) : r.netloc ≠ [] := by
  intro hnil
  have hnone : hostname uc r = none := by
    rw [hostname, hnil]
    rfl
  rw [hnone] at h
  exact absurd h (by decide)

theorem isValidUrl_trimmed {w : HttpUrl uc} :
    isValidUrl (cpython uc) w.trimmed.text = true ↔ ValidHost ((hostname uc w.parts).getD []) := by
  have hname : hostname uc w.trimmed.parts = hostname uc w.parts := hostname_congr w.trimmed_netloc
  rw [isValidUrl_iff, exists_some_iff w.trimmed.urlparse_text, hname]
  constructor
  · exact fun h => h.2.2
  · exact fun h => ⟨w.trimmed.scheme_mem, netloc_ne_nil (hname.symm ▸ h), h⟩

/-- The normal form of a text is valid if and only if the text names a valid host. -/
theorem isValidUrl_normal_iff {raw m : Str} (hm : normalizeUrl (cpython uc) raw = some m) :
    isValidUrl (cpython uc) m = true ↔ NamesHost uc raw := by
  rcases HttpUrl.normalizeUrl_spec hm with ⟨hblank, rfl⟩ | ⟨w, r, hr, hparts, rfl⟩
  · refine iff_of_false nofun ?_
    rintro ⟨r, hr, hvalid⟩
    have hwith : HttpUrl.withScheme raw = "https://".toList := by
      rw [HttpUrl.withScheme, hblank]
      rfl
    rw [hwith] at hr
    obtain rfl := Option.some.inj hr
    exact netloc_ne_nil hvalid rfl
  · have hnetloc : w.parts.netloc = r.netloc := (congrArg ParseResult.netloc hparts).symm
    rw [isValidUrl_trimmed, NamesHost, exists_some_iff hr, hostname_congr hnetloc]

/-- What is kept of the query of a text can be encoded. -/
def KeptEncodes (uc : Unicode) (raw : Str) : Prop :=
  ∀ r, urlparse uc (HttpUrl.withScheme raw) = some r →
    uc.encodes (HttpUrl.kept uc trackingParams (parseQsl r.query)) = true

/-- What validation returns is the normal form without its tracking parameters: on the same host, and valid, too. -/
theorem normalizeBusinessUrl_valid {raw m : Str} (hm : normalizeUrl (cpython uc) raw = some m)
    (hvalid : isValidUrl (cpython uc) m = true) (hkept : KeptEncodes uc raw) :
    ∃ v after, normalizeBusinessUrl (cpython uc) raw = some v ∧ isValidUrl (cpython uc) v = true ∧
      hostnameOf (cpython uc) v = hostnameOf (cpython uc) m ∧ urlparse uc v = some after ∧
      ∀ kv ∈ parseQslKeepingBlank after.query, uc.lower kv.1 ∉ trackingParams := by
  rcases HttpUrl.normalizeUrl_spec hm with ⟨-, rfl⟩ | ⟨w, r, hr, hparts, rfl⟩
  · cases hvalid
  · let w' := w.trimmed.rejoined.withQuery (HttpUrl.kept uc trackingParams (parseQsl w.trimmed.query))
    have hscheme : w'.parts.scheme = w.trimmed.parts.scheme := by
      simp only [w', HttpUrl.parts, HttpUrl.withQuery, HttpUrl.rejoined_scheme]
    have hnetloc : w'.parts.netloc = w.trimmed.parts.netloc := by
      simp only [w', HttpUrl.parts, HttpUrl.withQuery, HttpUrl.rejoined_netloc]
    have henc : uc.encodes (HttpUrl.kept uc trackingParams (parseQsl w.trimmed.query)) = true := by
      have hquery : r.query = w.trimmed.query := congrArg ParseResult.query hparts
      rw [← hquery]
      exact hkept r hr
    have hparse := w'.urlparse_text
    have hbefore := w.trimmed.urlparse_text
    refine ⟨w'.text, w'.parts, ?_, ?_, ?_, hparse, ?_⟩
    · rw [normalizeBusinessUrl, hm, Option.bind_some, HttpUrl.stripParams_text, if_pos henc]
    · rw [isValidUrl_iff, exists_some_iff hbefore] at hvalid
      rw [isValidUrl_iff, exists_some_iff hparse, hscheme, hnetloc, hostname_congr hnetloc]
      exact hvalid
    · rw [hostnameOf, hostnameOf, cpython_urlparse, hparse, hbefore, Option.bind_some, Option.bind_some, cpython_hostname]
      exact hostname_congr hnetloc
    · intro kv hkv
      have hquery : w'.parts.query = queryText (HttpUrl.kept uc trackingParams (parseQsl w.trimmed.query)) := rfl
      rw [hquery, parseQslKeepingBlank_queryText, HttpUrl.kept_eq] at hkv
      exact of_decide_eq_true (List.mem_filter.1 hkv).2

/-- `normalize_business_url` raises over what is kept of the query, too. -/
theorem keptEncodes_of_some {raw m v : Str} (hm : normalizeUrl (cpython uc) raw = some m)
    (hvalid : isValidUrl (cpython uc) m = true) (hv : normalizeBusinessUrl (cpython uc) raw = some v) : KeptEncodes uc raw := by
  intro r hr
  rcases HttpUrl.normalizeUrl_spec hm with ⟨-, rfl⟩ | ⟨w, r', hr', hparts, rfl⟩
  · cases hvalid
  · obtain rfl := Option.some.inj (hr'.symm.trans hr)
    have hquery : r'.query = w.trimmed.query := congrArg ParseResult.query hparts
    rw [normalizeBusinessUrl, hm, Option.bind_some] at hv
    rw [hquery]
    exact (HttpUrl.stripParams_some hv).1

/-! ## Outcomes -/

section
variable {raw m : Str} (fieldName : Str)

theorem validateUrl_none (h : normalizeUrl (cpython uc) raw = none) : validateUrl (cpython uc) raw fieldName = .error .value := by
  rw [validateUrl, h]

theorem validateUrl_invalid (h : normalizeUrl (cpython uc) raw = some m) (hm : isValidUrl (cpython uc) m = false) :
    ∃ e, validateUrl (cpython uc) raw fieldName = .error (.validation e) := by
  rw [validateUrl, h]
  simp only [hm]
  exact ⟨_, rfl⟩

theorem validateUrl_valid (h : normalizeUrl (cpython uc) raw = some m) (hm : isValidUrl (cpython uc) m = true) :
    validateUrl (cpython uc) raw fieldName = .ok m := by
  rw [validateUrl, h]
  simp only [hm, if_true]

theorem website_invalid (h : normalizeUrl (cpython uc) raw = some m) (hm : isValidUrl (cpython uc) m = false) :
    validateAndNormalizeWebsite (cpython uc) (some raw) = .ok none := by
  obtain ⟨e, he⟩ := validateUrl_invalid "website".toList h hm
  cases raw with
  | nil => rfl
  | cons c raw => simp only [validateAndNormalizeWebsite, he]

theorem website_raises (h : normalizeUrl (cpython uc) raw = some m) (hm : isValidUrl (cpython uc) m = true)
    (hv : normalizeBusinessUrl (cpython uc) raw = none) : validateAndNormalizeWebsite (cpython uc) (some raw) = .error .value := by
  cases raw with
  | nil =>
    obtain rfl := Option.some.inj h
    cases hm
  | cons c raw => simp only [validateAndNormalizeWebsite, validateUrl_valid _ h hm, hv]

theorem website_valid (h : normalizeUrl (cpython uc) raw = some m) (hm : isValidUrl (cpython uc) m = true) {v : Str}
    (hv : normalizeBusinessUrl (cpython uc) raw = some v) : validateAndNormalizeWebsite (cpython uc) (some raw) = .ok (some v) := by
  cases raw with
  | nil =>
    obtain rfl := Option.some.inj h
    cases hm
  | cons c raw => simp only [validateAndNormalizeWebsite, validateUrl_valid _ h hm, hv]

end

variable (uc) in
/-- Validation raises nothing but its own error and what it returns is sound, if and only if `urlparse` accepts the
network location of the text and, with a valid host in it, what is kept of its query can be encoded. -/
theorem validation_total_iff (raw fieldName : Str) :
    (((∃ m, validateUrl (cpython uc) raw fieldName = .ok m ∧ isValidUrl (cpython uc) m = true) ∨
        ∃ e, validateUrl (cpython uc) raw fieldName = .error (.validation e)) ∧
      (validateAndNormalizeWebsite (cpython uc) (some raw) = .ok none ∨
        ∃ m v after, validateUrl (cpython uc) raw fieldName = .ok m ∧
          validateAndNormalizeWebsite (cpython uc) (some raw) = .ok (some v) ∧ isValidUrl (cpython uc) v = true ∧
          hostnameOf (cpython uc) v = hostnameOf (cpython uc) m ∧ urlparse uc v = some after ∧
          ∀ kv ∈ parseQslKeepingBlank after.query, uc.lower kv.1 ∉ trackingParams)) ↔
      NetlocOk uc (locationOf raw) ∧ (NamesHost uc raw → KeptEncodes uc raw) := by
  rw [← normalizeUrl_some_iff]
  constructor
  · rintro ⟨hvalidate, hwebsite⟩
    cases hm : normalizeUrl (cpython uc) raw with
    | none =>
      rw [validateUrl_none fieldName hm] at hvalidate
      rcases hvalidate with ⟨m, h, -⟩ | ⟨e, h⟩ <;> cases h
    | some m =>
      refine ⟨⟨m, rfl⟩, fun hhost => ?_⟩
      have hvalid := (isValidUrl_normal_iff hm).2 hhost
      cases hv : normalizeBusinessUrl (cpython uc) raw with
      | none =>
        rw [website_raises hm hvalid hv] at hwebsite
        rcases hwebsite with h | ⟨-, v, -, -, h, -⟩ <;> cases h
      | some v => exact keptEncodes_of_some hm hvalid hv
  · rintro ⟨⟨m, hm⟩, hkept⟩
    cases hvalid : isValidUrl (cpython uc) m with
    | false => exact ⟨.inr (validateUrl_invalid fieldName hm hvalid), .inl (website_invalid hm hvalid)⟩
    | true =>
      have hok := validateUrl_valid fieldName hm hvalid
      obtain ⟨v, after, hv, hvalid', hhost, hparse, hclean⟩ :=
        normalizeBusinessUrl_valid hm hvalid (hkept ((isValidUrl_normal_iff hm).1 hvalid))
      exact ⟨.inl ⟨m, hok, hvalid⟩, .inr ⟨m, v, after, hok, website_valid hm hvalid hv, hvalid', hhost, hparse, hclean⟩⟩

/-- The bracket of an IPv6 address is not closed; a parameter of a valid URL cannot be encoded. -/
theorem unclosed_bracket_escapes :
    validateUrl (cpython .ascii) "http://[".toList = .error .value ∧
      validateAndNormalizeWebsite (cpython .ascii) (some "http://[".toList) = .error .value ∧
      validateAndNormalizeWebsite (cpython .ascii) (some ("https://shop.test/?q=".toList ++ [Char.ofNat 0x10FFFF])) = .error .value := by
  decide +kernel

/-! ## Valid URLs -/

/-- What `urlsplit` removes from a text is whitespace, so it may as well be removed before the text is stripped. -/
theorem strip_filter (s : Str) : (strip s).filter (!unsafeByte ·) = strip (s.filter (!unsafeByte ·)) := by
  rw [strip, strip, rstrip_filter, dropWhile_filter isSpace_of_removed]

theorem strip_eq (s : Str) : ∃ start finish, s = start ++ (strip s ++ finish) ∧ (∀ c ∈ start, isSpace c = true) ∧
    ∀ c ∈ finish, isSpace c = true := by
  have hend := List.takeWhile_append_dropWhile (p := isSpace) (l := (s.dropWhile isSpace).reverse)
  refine ⟨s.takeWhile isSpace, ((s.dropWhile isSpace).reverse.takeWhile isSpace).reverse, ?_, ?_, ?_⟩
  · rw [strip, rstrip, ← List.reverse_append, hend, List.reverse_reverse, List.takeWhile_append_dropWhile]
  · exact fun c hc => List.mem_takeWhile_imp hc
  · exact fun c hc => List.mem_takeWhile_imp (List.mem_reverse.1 hc)

/-- A valid URL that does not start as `normalize_url` tests for gets its scheme taken for its host. -/
theorem invalid_of_scheme {u m : Str} (hu : isValidUrl (cpython uc) u = true) (hs : startsWithHttp (strip u) = false)
    (hm : normalizeUrl (cpython uc) u = some m) : isValidUrl (cpython uc) m = false := by
  obtain ⟨r, hr, hscheme, hnetloc, -⟩ := isValidUrl_iff.1 hu
  obtain ⟨head, rest, hclean, hhead, -, start, hlower, hstart⟩ := schemeAsHost_spec hr hscheme hnetloc
  have hsub : ∀ c ∈ head.dropWhile isSpace, c ∈ head := fun c hc => (List.dropWhile_sublist _).subset hc
  have hhead' : ∀ c ∈ head.dropWhile isSpace, headChar c = true := fun c hc => hhead c (hsub c hc)
  have hstrip : (strip u).filter (!unsafeByte ·) = head.dropWhile isSpace ++ ("://".toList ++ rstrip isSpace rest) := by
    rw [strip_filter, hclean, HttpUrl.strip_colon]
  obtain ⟨r', hparse, -, hn⟩ := parse_head uc hhead' hstrip
  rcases HttpUrl.normalizeUrl_spec hm with ⟨-, rfl⟩ | ⟨w, r₁, hr₁, hparts, rfl⟩
  · rfl
  · rw [HttpUrl.withScheme, if_neg (by simp [hs]), hparse] at hr₁
    obtain rfl := Option.some.inj hr₁
    have hw : w.netloc = head.dropWhile isSpace ++ [':'] := hn ▸ (congrArg ParseResult.netloc hparts).symm
    apply Bool.eq_false_iff.2
    intro hvalid
    obtain ⟨r₂, hr₂, -, -, -, hhost⟩ := isValidUrl_spec hvalid
    rw [w.trimmed.urlparse_text] at hr₂
    obtain rfl := Option.some.inj hr₂
    have hnetloc' : w.trimmed.parts.netloc = head.dropWhile isSpace ++ [':'] := w.trimmed_netloc.trans hw
    rw [hnetloc', lower_head hhead'] at hhost
    refine not_validHost_head hscheme hstart (fun c hc => ?_) hhost
    rw [← hlower]
    exact List.map_subset _ hsub hc

/-! ### The whitespace behind a URL -/

section
variable {blank : Str} (hblank : ∀ c ∈ blank, isSpace c = true)
include hblank

theorem partition_blank {sep : Char} (hsep : isSpace sep = false) (s : Str) :
    (partition sep (s ++ blank)).1 = (partition sep s).1 ∨ (partition sep (s ++ blank)).1 = (partition sep s).1 ++ blank := by
  have hnot : sep ∉ blank := fun hc => by
    rw [hblank sep hc] at hsep
    cases hsep
  by_cases hs : sep ∈ s
  · obtain ⟨a, b, rfl, ha⟩ := List.eq_append_cons_of_mem hs
    rw [List.append_assoc, List.cons_append, partition_append ha, partition_append ha]
    exact .inl rfl
  · rw [partition_of_not_mem hs, partition_of_not_mem fun hc => (List.mem_append.1 hc).elim hs hnot]
    exact .inr rfl

/-- Whitespace behind a network location is behind its host, or at the end of it. -/
theorem hostinfo_blank (s : Str) : hostinfo (s ++ blank) = hostinfo s ∨ hostinfo (s ++ blank) = hostinfo s ++ blank := by
  have hnot : ∀ c, isSpace c = false → c ∉ blank := fun c hc hmem => by
    rw [hblank c hmem] at hc
    cases hc
  have houter : ∀ s : Str, '@' ∉ s → hostinfo (s ++ blank) = hostinfo s ∨ hostinfo (s ++ blank) = hostinfo s ++ blank := by
    intro s hs
    have hat : '@' ∉ s ++ blank := fun hc => (List.mem_append.1 hc).elim hs (hnot '@' rfl)
    rcases netloc_cases s with ⟨a, b, rfl, -⟩ | ⟨-, a, b, rfl, ha⟩ | ⟨-, hb⟩
    · exact absurd (by simp) hs
    · rw [List.append_assoc, List.cons_append] at hat ⊢
      rw [hostinfo_bracketed hat ha, hostinfo_bracketed hs ha]
      exact partition_blank hblank rfl b
    · rw [hostinfo_plain hat fun hc => (List.mem_append.1 hc).elim hb (hnot '[' rfl), hostinfo_plain hs hb]
      exact partition_blank hblank rfl s
  rcases netloc_cases s with ⟨a, b, rfl, hb⟩ | ⟨hs, -⟩ | ⟨hs, -⟩
  · rw [List.append_assoc, List.cons_append, hostinfo_user fun hc => (List.mem_append.1 hc).elim hb (hnot '@' rfl),
      hostinfo_user hb]
    exact houter b hb
  · exact houter s hs
  · exact houter s hs

theorem leadingNetloc_blank (rest : Str) : ∃ tail, leadingNetloc (rest ++ blank) = leadingNetloc rest ++ tail ∧
    ∀ c ∈ tail, isSpace c = true ∧ unsafeByte c = false := by
  have hkept : ∀ c ∈ (blank.filter (!unsafeByte ·)).takeWhile (!netlocEnd ·), isSpace c = true ∧ unsafeByte c = false := by
    intro c hc
    obtain ⟨hmem, hsafe⟩ := List.mem_filter.1 ((List.takeWhile_sublist _).subset hc)
    exact ⟨hblank c hmem, by simpa using hsafe⟩
  unfold leadingNetloc
  rw [List.filter_append, List.takeWhile_append]
  split_ifs with hall
  · refine ⟨_, ?_, hkept⟩
    rw [List.takeWhile_eq_self_iff.2 (List.takeWhile_eq_self_iff.1 ((List.takeWhile_prefix _).eq_of_length hall))]
  · exact ⟨[], (List.append_nil _).symm, nofun⟩

end

theorem mem_lowerFrom_self {c : Char} (hc : uc.lowerChar c = [c]) (hsigma : c ≠ 'Σ') {s : Str} (h : c ∈ s) (before : Str) :
    c ∈ uc.lowerFrom before s := by
  induction s generalizing before with
  | nil => cases h
  | cons d s ih =>
    rw [Unicode.lowerFrom, List.mem_append]
    rcases List.mem_cons.1 h with rfl | h
    · rw [if_neg hsigma, hc]
      exact .inl (List.mem_singleton_self c)
    · exact .inr (ih h _)

/-- No whitespace that `urlsplit` leaves is in a valid host. -/
theorem blank_nil {h tail : Str} (hspace : ∀ c, isSpace c = true → uc.lowerChar c = [c])
    (htail : ∀ c ∈ tail, isSpace c = true ∧ unsafeByte c = false) (hvalid : ValidHost (uc.lower (h ++ tail))) : tail = [] := by
  apply List.eq_nil_iff_forall_not_mem.2
  intro c hc
  obtain ⟨hs, hsafe⟩ := htail c hc
  have hsigma : c ≠ 'Σ' := by
    rintro rfl
    cases hs
  have hchar := hvalid.chars c (mem_lowerFrom_self (hspace c hs) hsigma (List.mem_append_right h hc) [])
  have hall := ascii_forall (P := fun c => hostChar c = true → isSpace c = true → unsafeByte c = true) (by decide)
    (hostChar_ascii hchar)
  rw [hall hchar hs] at hsafe
  cases hsafe

theorem urlparse_skipped {start : Str} (hstart : ∀ c ∈ start, c.toNat ≤ 0x20) (s : Str) :
    urlparse uc (start ++ s) = urlparse uc s := by
  have hskip : (start ++ s).dropWhile (·.toNat ≤ 0x20) = s.dropWhile (·.toNat ≤ 0x20) :=
    List.dropWhile_append_of_pos fun c hc => decide_eq_true (hstart c hc)
  rw [urlparse, urlparse, urlsplit, urlsplit, hskip]

/-- The whitespace in front of a URL with an http scheme is such as `urlparse` skips. -/
theorem skipped_of_parse {start s : Str} {r : ParseResult} (hr : urlparse uc (start ++ s) = some r)
    (hscheme : r.scheme ∈ httpSchemes) (hnetloc : r.netloc ≠ []) (hstart : ∀ c ∈ start, isSpace c = true) :
    ∀ c ∈ start, c.toNat ≤ 0x20 := by
  obtain ⟨scheme, rest, hurl, hlower, hchars⟩ := urlparse_scheme hr hscheme hnetloc
  by_contra hnot
  obtain ⟨c, tail, htail⟩ := List.exists_cons_of_ne_nil (l := start.dropWhile (·.toNat ≤ 0x20)) fun hnil =>
    hnot fun c hc => of_decide_eq_true (List.dropWhile_eq_nil_iff.1 hnil c hc)
  have hprinted : ¬ c.toNat ≤ 0x20 := by
    have hhead := List.head?_dropWhile_not (fun c : Char => decide (c.toNat ≤ 0x20)) start
    rw [htail] at hhead
    simpa using hhead
  have hspace : isSpace c = true := hstart c ((List.dropWhile_sublist _).subset (htail ▸ List.mem_cons_self))
  have hkept : (!unsafeByte c) = true := by
    cases h : unsafeByte c with
    | false => rfl
    | true =>
      simp only [unsafeByte, List.contains_iff_mem, List.mem_cons, List.not_mem_nil, or_false] at h
      rcases h with rfl | rfl | rfl <;> exact absurd (by decide) hprinted
  have hdrop : (start ++ s).dropWhile (·.toNat ≤ 0x20) = c :: (tail ++ s) := by
    rw [List.dropWhile_append, htail]
    rfl
  rw [hdrop, List.filter_cons_of_pos (p := (!unsafeByte ·)) hkept] at hurl
  -- The scheme would start with that whitespace.
  have hfirst : schemeChar c = true := by
    cases scheme with
    | nil =>
      rw [← hlower] at hscheme
      exact absurd hscheme (by decide)
    | cons d scheme =>
      obtain ⟨rfl, -⟩ := List.cons.inj hurl
      exact hchars c List.mem_cons_self
  rw [forall_schemeChar (P := fun c => isSpace c = false) (by decide) hfirst] at hspace
  cases hspace

/-- A valid URL that starts as `normalize_url` tests for is normalized to one of its host. -/
theorem valid_of_start {u m : Str} (hspace : ∀ c, isSpace c = true → uc.lowerChar c = [c])
    (hu : isValidUrl (cpython uc) u = true) (hs : startsWithHttp (strip u) = true)
    (hm : normalizeUrl (cpython uc) u = some m) :
    isValidUrl (cpython uc) m = true ∧ hostnameOf (cpython uc) m = hostnameOf (cpython uc) u := by
  obtain ⟨r, hr, hscheme, hnetloc, hvalid⟩ := isValidUrl_iff.1 hu
  obtain ⟨scheme, hmem, hwith⟩ := withScheme_behind u
  have hstrip : strip u = scheme ++ ("://".toList ++ behindScheme (strip u)) := by
    rw [← hwith, HttpUrl.withScheme, if_pos hs]
  obtain ⟨start, finish, hsplit, hstart, hfinish⟩ := strip_eq u
  have hparse : urlparse uc (scheme ++ ("://".toList ++ (behindScheme (strip u) ++ finish))) = some r := by
    rw [hsplit] at hr
    have hskipped := skipped_of_parse hr hscheme hnetloc hstart
    rw [urlparse_skipped hskipped, hstrip, List.append_assoc, List.append_assoc] at hr
    exact hr
  obtain ⟨r₁, hr₁, -, hn₁⟩ := parse_netloc hmem (netlocOk_leading hmem hparse)
  obtain rfl := Option.some.inj (hparse.symm.trans hr₁)
  obtain ⟨tail, htail, hblank⟩ := leadingNetloc_blank hfinish (behindScheme (strip u))
  rw [htail] at hn₁
  -- The host of the URL has no whitespace, so it is the one of the stripped URL.
  have hhost : hostinfo r.netloc = hostinfo (locationOf u) := by
    have hname := hostname_of_validHost hvalid
    rw [hname, Option.getD_some] at hvalid
    rw [hn₁] at hvalid ⊢
    rcases hostinfo_blank (fun c hc => (hblank c hc).1) (leadingNetloc (behindScheme (strip u))) with h | h
    · exact h
    · rw [h] at hvalid ⊢
      rw [blank_nil hspace hblank hvalid, List.append_nil]
      rfl
  have hnames : ∀ r' : ParseResult, r'.netloc = locationOf u → hostname uc r' = hostname uc r := by
    intro r' hr'
    unfold hostname
    rw [hhost, hr']
  rcases HttpUrl.normalizeUrl_spec hm with ⟨hnil, -⟩ | ⟨w, r₂, hr₂, hparts, rfl⟩
  · rw [hnil] at hs
    cases hs
  · rw [hwith] at hr₂
    obtain ⟨r₃, hr₃, -, hn₃⟩ := parse_netloc hmem (netlocOk_leading hmem hr₂)
    obtain rfl := Option.some.inj (hr₂.symm.trans hr₃)
    have hw : w.parts.netloc = locationOf u := (congrArg ParseResult.netloc hparts).symm.trans hn₃
    constructor
    · rw [isValidUrl_trimmed, hnames _ hw]
      exact hvalid
    · rw [hostnameOf, hostnameOf, cpython_urlparse, w.trimmed.urlparse_text, hr]
      exact hnames _ (w.trimmed_netloc.trans hw)

/-- A valid URL is accepted, as one of its host, if and only if it starts with `http://` or `https://` as they stand,
`urlparse` accepts its network location without the whitespace behind it, and what is kept of its query can be
encoded. -/
theorem valid_accepted_iff (hspace : ∀ c, isSpace c = true → uc.lowerChar c = [c]) (u fieldName : Str)
    (hu : isValidUrl (cpython uc) u = true) :
    ((∃ m, validateUrl (cpython uc) u fieldName = .ok m ∧ isValidUrl (cpython uc) m = true ∧
        (hostnameOf (cpython uc) m).map uc.lower = (hostnameOf (cpython uc) u).map uc.lower) ∧
      ∃ v, validateAndNormalizeWebsite (cpython uc) (some u) = .ok (some v)) ↔
      startsWithHttp (strip u) = true ∧ NetlocOk uc (locationOf u) ∧ KeptEncodes uc u := by
  rw [← normalizeUrl_some_iff]
  constructor
  · rintro ⟨⟨m, hok, -⟩, v, hwebsite⟩
    cases hm : normalizeUrl (cpython uc) u with
    | none =>
      rw [validateUrl_none fieldName hm] at hok
      cases hok
    | some m' =>
      have hs : startsWithHttp (strip u) = true := by
        by_contra hs
        obtain ⟨e, he⟩ := validateUrl_invalid fieldName hm (invalid_of_scheme hu (Bool.eq_false_iff.2 hs) hm)
        rw [he] at hok
        cases hok
      obtain ⟨hvalid, -⟩ := valid_of_start hspace hu hs hm
      refine ⟨hs, ⟨m', rfl⟩, ?_⟩
      cases hv : normalizeBusinessUrl (cpython uc) u with
      | none =>
        rw [website_raises hm hvalid hv] at hwebsite
        cases hwebsite
      | some v' => exact keptEncodes_of_some hm hvalid hv
  · rintro ⟨hs, ⟨m, hm⟩, hkept⟩
    obtain ⟨hvalid, hhost⟩ := valid_of_start hspace hu hs hm
    obtain ⟨v, -, hv, -⟩ := normalizeBusinessUrl_valid hm hvalid hkept
    exact ⟨⟨m, validateUrl_valid fieldName hm hvalid, hvalid, by rw [hhost]⟩, v, website_valid hm hvalid hv⟩

theorem valid_accepted_shop :
    ((∃ m, validateUrl (cpython .ascii) "https://shop.test/a".toList "url".toList = .ok m ∧ isValidUrl (cpython .ascii) m = true ∧
        (hostnameOf (cpython .ascii) m).map Unicode.ascii.lower =
          (hostnameOf (cpython .ascii) "https://shop.test/a".toList).map Unicode.ascii.lower) ∧
      ∃ v, validateAndNormalizeWebsite (cpython .ascii) (some "https://shop.test/a".toList) = .ok (some v)) ↔
      startsWithHttp (strip "https://shop.test/a".toList) = true ∧ NetlocOk .ascii (locationOf "https://shop.test/a".toList) ∧
        KeptEncodes .ascii "https://shop.test/a".toList := by
  apply valid_accepted_iff
  · intro c hc
    by_cases ha : isAscii c = true
    · have hlower := ascii_forall (P := fun c => isSpace c = true → [c.toLower] = [c]) (by decide) ha hc
      exact (if_pos ha).trans hlower
    · exact if_neg ha
  · decide +kernel

/-- A scheme in capitals is taken for the host. -/
theorem capital_scheme_refused :
    isValidUrl (cpython .ascii) "HTTP://shop.test".toList = true ∧
      validateUrl (cpython .ascii) "HTTP://shop.test".toList =
        .error (.validation ⟨"'HTTP://shop.test' is not a valid url".toList, "url".toList, "HTTP://shop.test".toList⟩) ∧
      validateAndNormalizeWebsite (cpython .ascii) (some "HTTP://shop.test".toList) = .ok none := by
  decide +kernel

end SocialScraper
