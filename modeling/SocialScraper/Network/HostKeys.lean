import SocialScraper.Network.Session
import SocialScraper.Urllib.Hostname
/-!
# The key of a host

`_host_for` keys the limiters and breakers by `extract_domain`, which tests for
`http://` and `https://` as they stand, while `urlparse` takes a scheme in any
case and skips what is not printed. `hostFor_ne_iff` says for which two valid
URLs of different sites the keys differ.
-/

namespace SocialScraper

section
variable (lib : Stdlib)

/-- A domain without its leading `www.`. -/
def withoutWww (s : Str) : Str := if "www.".toList.isPrefixOf s then s.drop 4 else s

/-- The hostname of a URL, which is in lower case, without its leading `www.`. -/
def siteOf (url : Str) : Option Str := (lib.urlparse url).map fun r => withoutWww ((lib.hostname r).getD [])

def netlocOf (url : Str) : Str := (lib.urlparse url).elim [] (·.netloc)

/-- What `extract_domain` finds behind the `https://` that it puts before a URL
with a scheme of its own. -/
def schemeAsHost (url : Str) : Str := ((url.filter (!unsafeByte ·)).takeWhile (· != ':')).map Char.toLower ++ [':']

/-- The scheme of `u` is taken for its host, and `v` has the same key. -/
def Confused (u v : Str) : Prop :=
  startsWithHttp u = false ∧
    ((startsWithHttp v = false ∧ schemeAsHost v = schemeAsHost u) ∨
      (startsWithHttp v = true ∧ lib.lower (netlocOf lib v) = "www.".toList ++ schemeAsHost u))

instance (u v : Str) : Decidable (Confused lib u v) := inferInstanceAs (Decidable (_ ∧ (_ ∨ _)))

end

/-! ## Valid hosts -/

def hostChar (c : Char) : Bool := c.isAlphanum || ['-', '.', '\n'].contains c

/-- What `is_valid_url` accepts as the hostname. -/
def ValidHost (h : Str) : Prop := h = "localhost".toList ∨ ('.' ∈ h ∧ hostnameRe h = true)

instance (h : Str) : Decidable (ValidHost h) := inferInstanceAs (Decidable (_ ∨ (_ ∧ _)))

theorem hostChar_of_labels {s : Str} (h : (s.splitOn '.').all hostnameLabel = true) : ∀ c ∈ s, hostChar c = true := by
  intro c hc
  have hjoin : ['.'].intercalate (s.splitOn '.') = s := List.intercalate_splitOn '.'
  rw [← hjoin] at hc
  rcases mem_intercalate hc with rfl | ⟨l, hl, hcl⟩
  · rfl
  · have hlabel := List.all_eq_true.1 h l hl
    simp only [hostnameLabel, Bool.and_eq_true, List.all_eq_true] at hlabel
    have hchar := hlabel.1.1.2 c hcl
    simp only [Bool.or_eq_true, beq_iff_eq] at hchar
    rcases hchar with hchar | rfl
    · simp [hostChar, hchar]
    · rfl

theorem ValidHost.chars {h : Str} (hv : ValidHost h) : ∀ c ∈ h, hostChar c = true := by
  rcases hv with rfl | ⟨-, hre⟩
  · exact forall_of_all rfl
  · simp only [hostnameRe, Bool.or_eq_true, Bool.and_eq_true, beq_iff_eq] at hre
    rcases hre with hre | ⟨hlast, hre⟩
    · exact hostChar_of_labels hre
    · intro c hc
      have hsplit := List.dropLast_append_getLast? _ (Option.mem_def.2 hlast)
      rw [← hsplit] at hc
      rcases List.mem_append.1 hc with hc | hc
      · exact hostChar_of_labels hre c hc
      · rw [List.mem_singleton.1 hc]
        rfl

variable {uc : Unicode}

theorem hostChar_ascii {c : Char} (h : hostChar c = true) : isAscii c = true := by
  simp only [hostChar, Bool.or_eq_true, List.contains_iff_mem, List.mem_cons, List.not_mem_nil, or_false] at h
  rcases h with h | rfl | rfl | rfl
  · exact isAscii_of_alphanum h
  all_goals rfl

variable (uc) in
theorem sigma_lowerFrom (before : Str) {s : Str} (h : 'Σ' ∈ s) : ∃ c ∈ uc.lowerFrom before s, isAscii c = false := by
  obtain ⟨a, b, rfl, -⟩ := List.eq_append_cons_of_mem h
  obtain ⟨a', hs, -⟩ := uc.lowerFrom_split before a ('Σ' :: b)
  refine ⟨if uc.finalSigma (a.reverse ++ before) b then 'ς' else 'σ', ?_, ?_⟩
  · rw [hs, Unicode.lowerFrom, if_pos rfl]
    simp
  · split_ifs <;> rfl

/-- What `is_valid_url` tests. -/
theorem isValidUrl_iff {url : Str} : isValidUrl (cpython uc) url = true ↔
    ∃ r, urlparse uc url = some r ∧ r.scheme ∈ httpSchemes ∧ r.netloc ≠ [] ∧ ValidHost ((hostname uc r).getD []) := by
  unfold isValidUrl
  rw [cpython_urlparse, cpython_hostname]
  cases hr : urlparse uc url with
  | none => simp
  | some r =>
    rw [exists_some_iff rfl]
    have hbad : (r.scheme != "http".toList && r.scheme != "https".toList || r.netloc == []) = true ↔
        ¬ (r.scheme ∈ httpSchemes ∧ r.netloc ≠ []) := by
      simp only [httpSchemes, Bool.or_eq_true, Bool.and_eq_true, bne_iff_ne, beq_iff_eq, List.mem_cons, List.not_mem_nil,
        or_false, not_and_or, not_or, not_not, ne_eq]
    dsimp only
    by_cases hok : r.scheme ∈ httpSchemes ∧ r.netloc ≠ []
    · rw [if_neg (by rw [hbad]; exact not_not_intro hok)]
      simp [ValidHost, hok]
    · rw [if_pos (by rw [hbad]; exact hok)]
      exact iff_of_false Bool.false_ne_true fun h => hok ⟨h.1, h.2.1⟩

/-- The host of a valid URL is the lower case of the one in its network location. -/
theorem hostname_of_validHost {r : ParseResult} (h : ValidHost ((hostname uc r).getD [])) :
    hostname uc r = some (uc.lower (hostinfo r.netloc)) := by
  rcases hostname_spec uc r with hn | ⟨name, hn, hzone⟩ | hn
  · rw [hn] at h
    exact absurd h (by decide)
  · rw [hn] at h
    exact absurd (h.chars '%' hzone) (by decide)
  · exact hn

/-- The host of a valid URL, read from its network location in lower case. -/
theorem isValidUrl_spec {url : Str} (h : isValidUrl (cpython uc) url = true) :
    ∃ r, urlparse uc url = some r ∧ r.scheme ∈ httpSchemes ∧ r.netloc ≠ [] ∧
      hostname uc r = some (hostinfo (uc.lower r.netloc)) ∧ ValidHost (hostinfo (uc.lower r.netloc)) := by
  obtain ⟨r, hr, hscheme, hnetloc, hvalid⟩ := isValidUrl_iff.1 h
  have hname := hostname_of_validHost hvalid
  rw [hname, Option.getD_some] at hvalid
  have hsigma : 'Σ' ∉ hostinfo r.netloc := by
    intro hc
    obtain ⟨c, hcl, hascii⟩ := sigma_lowerFrom uc [] hc
    rw [hostChar_ascii (hvalid.chars c hcl)] at hascii
    cases hascii
  rw [← hostinfo_lower hsigma] at hname hvalid
  exact ⟨r, hr, hscheme, hnetloc, hname, hvalid⟩

/-! ## The two kinds of keys -/

theorem withoutWww_append (s : Str) : withoutWww ("www.".toList ++ s) = s := rfl

theorem withoutWww_self {s : Str} (h : ¬ "www.".toList <+: s) : withoutWww s = s :=
  if_neg fun hp => h (List.isPrefixOf_iff_prefix.1 hp)

theorem withoutWww_spec (s : Str) : s = "www.".toList ++ withoutWww s ∨ (¬ "www.".toList <+: s ∧ withoutWww s = s) := by
  by_cases h : "www.".toList <+: s
  · obtain ⟨t, rfl⟩ := h
    exact .inl rfl
  · exact .inr ⟨h, withoutWww_self h⟩

/-- A leading `www.` belongs to the host, or to what stands before the host. -/
theorem hostinfo_www (s : Str) : hostinfo ("www.".toList ++ s) = hostinfo s ∨
    (hostinfo ("www.".toList ++ s) = "www.".toList ++ hostinfo s ∧ hostinfo s <+: s) := by
  have hwww : '@' ∉ "www.".toList ∧ '[' ∉ "www.".toList ∧ ':' ∉ "www.".toList := by decide
  rcases netloc_cases s with ⟨a, b, rfl, hb⟩ | ⟨hat, a, b, rfl, ha⟩ | ⟨hat, hb⟩
  · left
    rw [← List.append_assoc, hostinfo_user hb, hostinfo_user hb]
  · left
    have hat' : '@' ∉ ("www.".toList ++ a) ++ '[' :: b := by
      rw [List.append_assoc]
      exact fun h => (List.mem_append.1 h).elim hwww.1 hat
    rw [← List.append_assoc, hostinfo_bracketed hat' fun h => (List.mem_append.1 h).elim hwww.2.1 ha,
      hostinfo_bracketed hat ha]
  · right
    rw [hostinfo_plain hat hb, hostinfo_plain (fun h => (List.mem_append.1 h).elim hwww.1 hat)
      fun h => (List.mem_append.1 h).elim hwww.2.1 hb]
    exact ⟨rfl, List.takeWhile_prefix _⟩

theorem withoutWww_hostinfo_www {s : Str} (h : ¬ "www.".toList <+: s) :
    withoutWww (hostinfo ("www.".toList ++ s)) = withoutWww (hostinfo s) := by
  rcases hostinfo_www s with hs | ⟨hs, hinitial⟩
  · rw [hs]
  · rw [hs, withoutWww_append, withoutWww_self fun hw => h (hw.trans hinitial)]

/-- Network locations with one key are of one site. -/
theorem withoutWww_hostinfo {s t : Str} (h : withoutWww s = withoutWww t) :
    withoutWww (hostinfo s) = withoutWww (hostinfo t) := by
  rcases withoutWww_spec s with hs | ⟨hs, hs'⟩ <;> rcases withoutWww_spec t with ht | ⟨ht, ht'⟩
  · rw [hs, ht, h]
  · rw [hs, h, ht', withoutWww_hostinfo_www ht]
  · rw [ht, ← h, hs', withoutWww_hostinfo_www hs]
  · rw [← hs', h, ht']

/-- `extract_domain` of a URL that starts as it tests for. -/
theorem extractDomain_http {url : Str} {r : ParseResult} (hs : startsWithHttp url = true) (hr : urlparse uc url = some r) :
    extractDomain (cpython uc) url = some (withoutWww (uc.lower r.netloc)) := by
  rw [extractDomain, if_pos hs, cpython_urlparse, hr]
  rfl

/-- What may stand before the colon of a scheme, and be skipped before the scheme. -/
def headChar (c : Char) : Bool := c.toNat ≤ 0x20 || schemeChar c

theorem headChar_spec {c : Char} (h : headChar c = true) :
    isAscii c = true ∧ c ≠ ':' ∧ c ≠ '[' ∧ c ≠ ']' ∧ netlocEnd c = false := by
  have hascii : isAscii c = true := by
    simp only [headChar, Bool.or_eq_true, decide_eq_true_eq] at h
    rcases h with h | h
    · exact decide_eq_true (by omega)
    · exact isAscii_of_schemeChar h
  have hall := ascii_forall (P := fun c => headChar c = true → c ≠ ':' ∧ c ≠ '[' ∧ c ≠ ']' ∧ netlocEnd c = false)
    (by decide) hascii
  exact ⟨hascii, hall h⟩

theorem toLower_control {c : Char} (h : c.toNat ≤ 0x20) : c.toLower = c := by
  have hall := ascii_forall (c := c) (P := fun c => c.toNat ≤ 0x20 → c.toLower = c) (by decide) (decide_eq_true (by omega))
  exact hall h

theorem splitScheme_ne_nil {url : Str} (h : (splitScheme url).1 ≠ []) : ∃ scheme, url = scheme ++ ':' :: (splitScheme url).2 ∧
    scheme.map Char.toLower = (splitScheme url).1 ∧ ∀ c ∈ scheme, schemeChar c = true := by
  unfold splitScheme at h ⊢
  dsimp only at h ⊢
  split_ifs at h ⊢ with hs
  · simp only [Bool.and_eq_true, List.contains_iff_mem, List.all_eq_true] at hs
    obtain ⟨⟨hcolon, -⟩, hall⟩ := hs
    obtain ⟨a, b, rfl, ha⟩ := List.eq_append_cons_of_mem hcolon
    rw [partition_append ha] at hall ⊢
    exact ⟨a, rfl, rfl, hall⟩
  · exact absurd rfl h

/-- How a text starts that `urlparse` reads as an http URL with a network location. -/
theorem urlparse_scheme {url : Str} {r : ParseResult} (h : urlparse uc url = some r) (hs : r.scheme ∈ httpSchemes)
    (hn : r.netloc ≠ []) : ∃ scheme rest, (url.dropWhile (·.toNat ≤ 0x20)).filter (!unsafeByte ·) = scheme ++ ("://".toList ++ rest) ∧
      scheme.map Char.toLower = r.scheme ∧ ∀ c ∈ scheme, schemeChar c = true := by
  obtain ⟨split, hsplit, rfl⟩ := Option.map_eq_some_iff.1 h
  unfold urlsplit at hsplit
  dsimp only at hsplit hs hn ⊢
  generalize (url.dropWhile (·.toNat ≤ 0x20)).filter (!unsafeByte ·) = t at hsplit ⊢
  obtain ⟨⟨netloc, rest⟩, hnetloc, hsplit⟩ := Option.bind_eq_some_iff.1 hsplit
  dsimp only at hsplit
  split_ifs at hsplit
  obtain rfl := Option.some.inj hsplit
  dsimp only at hs hn ⊢
  have hne : (splitScheme t).1 ≠ [] := by
    intro hnil
    rw [hnil] at hs
    exact absurd hs (by decide)
  obtain ⟨scheme, ht, hlower, hchars⟩ := splitScheme_ne_nil hne
  have hslashes : "//".toList <+: (splitScheme t).2 := by
    unfold splitNetloc at hnetloc
    split_ifs at hnetloc with hp
    · exact List.isPrefixOf_iff_prefix.1 hp
    · cases hnetloc
      exact absurd rfl hn
  obtain ⟨rest', hrest⟩ := hslashes
  refine ⟨scheme, rest', ?_, hlower, hchars⟩
  conv_lhs => rw [ht, ← hrest]
  rfl

/-- How `extract_domain` sees a valid URL that does not start as it tests for:
up to the colon of the scheme it is `head`. -/
theorem schemeAsHost_spec {url : Str} {r : ParseResult} (hr : urlparse uc url = some r) (hscheme : r.scheme ∈ httpSchemes)
    (hnetloc : r.netloc ≠ []) : ∃ head rest, url.filter (!unsafeByte ·) = head ++ ("://".toList ++ rest) ∧
      (∀ c ∈ head, headChar c = true) ∧ schemeAsHost url = head.map Char.toLower ++ [':'] ∧
      ∃ start, head.map Char.toLower = start ++ r.scheme ∧ ∀ c ∈ start, c.toNat ≤ 0x20 := by
  obtain ⟨scheme, rest, hurl, hlower, hchars⟩ := urlparse_scheme hr hscheme hnetloc
  generalize hstart : (url.takeWhile (·.toNat ≤ 0x20)).filter (!unsafeByte ·) = start
  have hclean : url.filter (!unsafeByte ·) = (start ++ scheme) ++ ("://".toList ++ rest) := by
    conv_lhs => rw [← List.takeWhile_append_dropWhile (p := (·.toNat ≤ 0x20)) (l := url), List.filter_append, hurl, hstart]
    rw [List.append_assoc]
  have hcontrol : ∀ c ∈ start, c.toNat ≤ 0x20 := by
    intro c hc
    rw [← hstart] at hc
    have hmem := List.mem_takeWhile_imp (List.mem_filter.1 hc).1
    exact of_decide_eq_true hmem
  have hhead : ∀ c ∈ start ++ scheme, headChar c = true := by
    intro c hc
    rcases List.mem_append.1 hc with hc | hc
    · simp [headChar, hcontrol c hc]
    · simp [headChar, hchars c hc]
  have hcolon : ':' ∉ start ++ scheme := fun hc => (headChar_spec (hhead _ hc)).2.1 rfl
  refine ⟨start ++ scheme, rest, hclean, hhead, ?_, start, ?_, hcontrol⟩
  · have htake := congrArg Prod.fst (partition_append hcolon ("//".toList ++ rest))
    rw [schemeAsHost, hclean]
    exact congrArg (fun s => List.map Char.toLower s ++ [':']) htake
  · have hsame : start.map Char.toLower = start := by
      conv_rhs => rw [← List.map_id start]
      exact List.map_congr_left fun c hc => toLower_control (hcontrol c hc)
    rw [List.map_append, hsame, hlower]

/-- A key made of a scheme does not start with `www.`. -/
theorem withoutWww_scheme {start scheme s : Str} (hs : scheme ∈ httpSchemes) (hstart : ∀ c ∈ start, c.toNat ≤ 0x20) :
    withoutWww (start ++ scheme ++ s) = start ++ scheme ++ s := by
  apply withoutWww_self
  rintro ⟨t, ht⟩
  cases start with
  | nil =>
    have hhead : ∀ scheme ∈ httpSchemes, scheme.head? = some 'h' := by decide
    have hw := congrArg List.head? ht
    rw [List.nil_append, List.head?_append, List.head?_append, hhead scheme hs] at hw
    have hne : some 'w' = some 'h' := hw
    exact absurd hne (by decide)
  | cons c start =>
    have hw := Option.some.inj (congrArg List.head? ht)
    exact absurd (hw ▸ hstart c (by simp)) (by decide)

section
variable {head : Str} (hhead : ∀ c ∈ head, headChar c = true)
include hhead

theorem head_chars : ∀ c ∈ head ++ [':'], isAscii c = true ∧ c ≠ '[' ∧ c ≠ ']' ∧ netlocEnd c = false := by
  intro c hc
  rcases List.mem_append.1 hc with hc | hc
  · obtain ⟨hascii, -, hl, hr, hend⟩ := headChar_spec (hhead c hc)
    exact ⟨hascii, hl, hr, hend⟩
  · rw [List.mem_singleton.1 hc]
    decide

/-- Behind another scheme, what stands before the colon is the network location. -/
theorem leadingNetloc_head {t rest : Str} (ht : t.filter (!unsafeByte ·) = head ++ ("://".toList ++ rest)) :
    leadingNetloc t = head ++ [':'] := by
  have hspan := span_append (p := (!netlocEnd ·)) (a := head ++ [':']) (b := "//".toList ++ rest)
    (fun c hc => by simp [(head_chars hhead c hc).2.2.2]) (fun c hc => by
      obtain rfl := Option.some.inj hc
      rfl)
  rw [leadingNetloc, ht]
  simpa using hspan.1

variable (uc) in
theorem head_accepted : bracketsOk (head ++ [':']) = true ∧ checkNetloc uc (head ++ [':']) = true := by
  constructor
  · have hl : '[' ∉ head ++ [':'] := fun hc => (head_chars hhead _ hc).2.1 rfl
    have hr : ']' ∉ head ++ [':'] := fun hc => (head_chars hhead _ hc).2.2.1 rfl
    rw [bracketsOk, List.contains_eq_mem, List.contains_eq_mem, decide_eq_false hl, decide_eq_false hr]
    rfl
  · rw [checkNetloc, List.all_eq_true.2 fun c hc => (head_chars hhead c hc).1, Bool.true_or]

variable (uc) in
theorem parse_head {t rest : Str} (ht : t.filter (!unsafeByte ·) = head ++ ("://".toList ++ rest)) :
    ∃ r, urlparse uc ("https://".toList ++ t) = some r ∧ r.scheme = "https".toList ∧ r.netloc = head ++ [':'] := by
  have hleading := leadingNetloc_head hhead ht
  obtain ⟨hbrackets, hcheck⟩ := head_accepted uc hhead
  rw [← hleading] at hbrackets hcheck ⊢
  exact parse_netloc https_mem ⟨leadingNetloc_chars, hbrackets, hcheck⟩

theorem lower_head : uc.lower (head ++ [':']) = head.map Char.toLower ++ [':'] := by
  rw [Unicode.lower_ascii fun c hc => (head_chars hhead c hc).1, List.map_append]
  rfl

end

/-- `extract_domain` of a valid URL that does not start as it tests for. -/
theorem extractDomain_other {url : Str} {r : ParseResult} (hs : startsWithHttp url = false) (hr : urlparse uc url = some r)
    (hscheme : r.scheme ∈ httpSchemes) (hnetloc : r.netloc ≠ []) :
    extractDomain (cpython uc) url = some (schemeAsHost url) := by
  obtain ⟨head, rest, hclean, hhead, hkey, start, hlower, hstart⟩ := schemeAsHost_spec hr hscheme hnetloc
  obtain ⟨r', hparse, -, hn⟩ := parse_head uc hhead hclean
  rw [extractDomain, if_neg (by simp [hs]), cpython_urlparse, hparse, Option.map_some]
  change some (withoutWww (uc.lower r'.netloc)) = _
  rw [hn, lower_head hhead, hkey, hlower, withoutWww_scheme hscheme hstart]

/-! ## Keys and sites -/

/-- The key of a valid URL. -/
def keyOf (uc : Unicode) (url : Str) : Str :=
  if startsWithHttp url then withoutWww (uc.lower (netlocOf (cpython uc) url)) else schemeAsHost url

/-- A valid URL, by what its key and its site come from. -/
theorem key_spec {url : Str} (h : isValidUrl (cpython uc) url = true) :
    extractDomain (cpython uc) url = some (keyOf uc url) ∧ keyOf uc url ≠ [] ∧
      ValidHost (hostinfo (uc.lower (netlocOf (cpython uc) url))) ∧
      siteOf (cpython uc) url = some (withoutWww (hostinfo (uc.lower (netlocOf (cpython uc) url)))) := by
  obtain ⟨r, hr, hscheme, hnetloc, hname, hvalid⟩ := isValidUrl_spec h
  have hof : netlocOf (cpython uc) url = r.netloc := by
    rw [netlocOf, cpython_urlparse, hr]
    rfl
  rw [hof, siteOf, cpython_urlparse, hr, Option.map_some, cpython_hostname, hname, Option.getD_some, keyOf, hof]
  cases hs : startsWithHttp url with
  | true =>
    refine ⟨extractDomain_http hs hr, ?_, hvalid, rfl⟩
    intro hnil
    have hsite : withoutWww (hostinfo (uc.lower r.netloc)) = [] := withoutWww_hostinfo (t := []) hnil
    rcases withoutWww_spec (hostinfo (uc.lower r.netloc)) with hw | ⟨-, hw⟩
    · rw [hw, hsite] at hvalid
      exact absurd hvalid (by decide)
    · rw [← hw, hsite] at hvalid
      exact absurd hvalid (by decide)
  | false =>
    refine ⟨extractDomain_other hs hr hscheme hnetloc, ?_, hvalid, rfl⟩
    simp [schemeAsHost]

/-- What is made of a scheme, and of what is skipped before it, is no valid host. -/
theorem not_validHost_head {start scheme s : Str} (hscheme : scheme ∈ httpSchemes) (hstart : ∀ c ∈ start, c.toNat ≤ 0x20)
    (hs : ∀ c ∈ s, c ∈ start ++ scheme) : ¬ ValidHost (hostinfo (s ++ [':'])) := by
  have hnot : ∀ c : Char, 0x20 < c.toNat → (∀ scheme ∈ httpSchemes, c ∉ scheme) → c ∉ s := by
    intro c hc hnone hmem
    rcases List.mem_append.1 (hs c hmem) with hmem | hmem
    · exact absurd (hstart c hmem) (by omega)
    · exact hnone _ hscheme hmem
  have hcolon : ':' ∉ s := hnot ':' (by decide) (by decide)
  have hat : '@' ∉ s ++ [':'] := fun hc => (List.mem_append.1 hc).elim (hnot '@' (by decide) (by decide)) (by decide)
  have hbracket : '[' ∉ s ++ [':'] := fun hc => (List.mem_append.1 hc).elim (hnot '[' (by decide) (by decide)) (by decide)
  rw [hostinfo_plain hat hbracket, partition_append hcolon]
  rintro (hlocal | ⟨hdot, -⟩)
  · have hl : 'l' ∈ (s, ([] : Str)).1 := by
      rw [hlocal]
      decide
    exact hnot 'l' (by decide) (by decide) hl
  · exact hnot '.' (by decide) (by decide) hdot

/-- The key of a URL with a scheme of its own is no valid host. -/
theorem scheme_not_validHost {url : Str} (h : isValidUrl (cpython uc) url = true) : ¬ ValidHost (hostinfo (schemeAsHost url)) := by
  obtain ⟨r, hr, hscheme, hnetloc, -, -⟩ := isValidUrl_spec h
  obtain ⟨head, rest, -, -, hkey, start, hlower, hstart⟩ := schemeAsHost_spec hr hscheme hnetloc
  rw [hkey, hlower]
  exact not_validHost_head hscheme hstart fun _ hc => hc

/-- Two valid URLs of different sites have different keys unless one of them is
taken for its scheme and the other one for the same text. -/
theorem keyOf_ne_iff {u v : Str} (hu : isValidUrl (cpython uc) u = true) (hv : isValidUrl (cpython uc) v = true)
    (hne : siteOf (cpython uc) u ≠ siteOf (cpython uc) v) :
    keyOf uc u ≠ keyOf uc v ↔ ¬ (Confused (cpython uc) u v ∨ Confused (cpython uc) v u) := by
  obtain ⟨-, -, hhostu, hsiteu⟩ := key_spec hu
  obtain ⟨-, -, hhostv, hsitev⟩ := key_spec hv
  have hmixed : ∀ u v, isValidUrl (cpython uc) u = true → isValidUrl (cpython uc) v = true →
      startsWithHttp u = false → startsWithHttp v = true →
      (keyOf uc u = keyOf uc v ↔ uc.lower (netlocOf (cpython uc) v) = "www.".toList ++ schemeAsHost u) := by
    intro u v hu hv hsu hsv
    obtain ⟨-, -, hhost, -⟩ := key_spec hv
    rw [keyOf, keyOf, hsu, hsv, if_pos rfl]
    constructor
    · intro hkey
      rcases withoutWww_spec (uc.lower (netlocOf (cpython uc) v)) with hw | ⟨-, hw⟩
      · rw [hw, ← hkey]
        rfl
      · rw [← hw, ← hkey] at hhost
        exact absurd hhost (scheme_not_validHost hu)
    · intro hw
      rw [hw, withoutWww_append]
      rfl
  rw [ne_eq, not_iff_not]
  unfold Confused
  cases hsu : startsWithHttp u with
  | true =>
    cases hsv : startsWithHttp v with
    | true =>
      constructor
      · intro hkey
        rw [keyOf, keyOf, hsu, hsv] at hkey
        refine absurd ?_ hne
        rw [hsiteu, hsitev, withoutWww_hostinfo hkey]
      · rintro (⟨h, -⟩ | ⟨h, -⟩) <;> cases h
    | false =>
      rw [eq_comm, hmixed v u hv hu hsv hsu]
      simp
  | false =>
    cases hsv : startsWithHttp v with
    | true =>
      rw [hmixed u v hu hv hsu hsv]
      simp
    | false =>
      rw [keyOf, keyOf, hsu, hsv]
      simp [eq_comm]

end SocialScraper
