import SocialScraper.BestCandidates
import SocialScraper.Social.Classifier
/-!
# The links to one profile

The raw links to a profile differ in their start, the case of the host, the
slashes, the tracking parameters and the fragment. `normalize_social_url` maps
them to one URL but for three kinds (`same_profile_iff`): behind a bare `//`, on
`www.` with a capital letter, and with a lone surrogate in a parameter that
stays until the second pass.
-/
open Lib

namespace SocialScraper

/-! ## Raw links -/

inductive LinkStart where
  | bare | slashes | http | https
deriving DecidableEq

def LinkStart.text : LinkStart → Str
  | .bare => []
  | .slashes => "//".toList
  | .http => "http://".toList
  | .https => "https://".toList

/-- A slug of letters, digits, underscores, dots and hyphens. -/
structure ProfileSlug where
  text : Str
  text_ne : text ≠ []
  chars : ∀ c ∈ text, (c.isAlphanum || ['_', '.', '-'].contains c) = true

/-- A parameter that one of the two passes drops, in any letter case. -/
def TrackingKey (key : Str) : Prop := key.map Char.toLower ∈ trackingParams ++ socialTrackingParams

/-- Parameters as they stand in a query. -/
def paramsText (params : List (Str × Str)) : Str := ['&'].intercalate (params.map fun kv => kv.1 ++ '=' :: kv.2)

def fragmentText : Option Str → Str
  | none => []
  | some fragment => '#' :: fragment

/-- What stands behind the scheme of a link. -/
def linkRest (host slug : Str) (slashes : ℕ) (params : List (Str × Str)) (fragment : Option Str) : Str :=
  host ++ ('/' :: (slug ++ (List.replicate slashes '/' ++ (behind '?' (paramsText params) ++ fragmentText fragment))))

/-- A link to the profile of any slug. -/
structure RawLink (p : Platform) where
  start : LinkStart
  host : Str
  slashes : ℕ
  params : List (Str × Str)
  fragment : Option Str
  /-- The host is one of the platform's, in any letter case. -/
  host_mem : host.map Char.toLower ∈ p.host :: p.otherHosts
  params_ok : ∀ kv ∈ params, TrackingKey kv.1 ∧ kv.2 ≠ [] ∧ '&' ∉ kv.2 ∧ '#' ∉ kv.2

def RawLink.text {p : Platform} (link : RawLink p) (slug : ProfileSlug) : Str :=
  link.start.text ++ linkRest link.host slug.text link.slashes link.params link.fragment

/-- The one URL of the profile. -/
def profileUrl (p : Platform) (slug : ProfileSlug) : Str := "https://".toList ++ (p.host ++ ('/' :: slug.text))

/-! ## Characters -/

/-- The characters of a host and of a slug. -/
def wordChar (c : Char) : Bool := c.isAlphanum || ['_', '.', '-'].contains c

structure Harmless (c : Char) : Prop where
  space : isSpace c = false
  safe : unsafeByte c = false
  inNetloc : netlocEnd c = false
  ascii : isAscii c = true

theorem harmless_of_wordChar {c : Char} (h : wordChar c = true) : Harmless c := by
  have hascii : isAscii c = true := by
    simp only [wordChar, Bool.or_eq_true, List.contains_iff_mem, List.mem_cons, List.not_mem_nil, or_false] at h
    rcases h with h | rfl | rfl | rfl
    · exact isAscii_of_alphanum h
    all_goals rfl
  have hall := ascii_forall (P := fun c => wordChar c = true → isSpace c = false ∧ unsafeByte c = false ∧
    netlocEnd c = false) (by decide +kernel) hascii h
  exact ⟨hall.1, hall.2.1, hall.2.2, hascii⟩

theorem not_mem_of_word {s : Str} (h : ∀ c ∈ s, wordChar c = true) {d : Char} (hd : wordChar d = false) : d ∉ s := by
  intro hmem
  rw [h d hmem] at hd
  cases hd

/-- A text that is one of some words, in any letter case. -/
theorem wordChar_of_lower {names : List Str} (hnames : names.all fun name => name.all fun c => wordChar c && isAscii c)
    {s : Str} (h : s.map Char.toLower ∈ names) : ∀ c ∈ s, wordChar c = true := by
  intro c hc
  have hname := List.all_eq_true.1 hnames _ h
  have hlower := Bool.and_eq_true_iff.1 (List.all_eq_true.1 hname c.toLower (List.mem_map_of_mem hc))
  cases ha : isAscii c with
  | false =>
    rw [toLower_of_not_ascii ha, ha] at hlower
    cases hlower.2
  | true =>
    exact ascii_forall (P := fun c => wordChar c.toLower = true → wordChar c = true) (by decide +kernel) ha hlower.1

theorem wordChar_of_host {p : Platform} {host : Str} (h : host.map Char.toLower ∈ p.host :: p.otherHosts) :
    ∀ c ∈ host, wordChar c = true := wordChar_of_lower (by cases p <;> decide) h

theorem wordChar_of_key {key : Str} (h : TrackingKey key) : ∀ c ∈ key, wordChar c = true :=
  wordChar_of_lower (by decide) h

/-! ## Parameters -/

/-- Tracking parameters, with or without a value. -/
def ParamsOk (params : List (Str × Str)) : Prop := ∀ kv ∈ params, TrackingKey kv.1 ∧ '&' ∉ kv.2 ∧ '#' ∉ kv.2

@[simp] theorem paramsText_nil : paramsText [] = [] := rfl

@[simp] theorem paramsText_singleton (kv : Str × Str) : paramsText [kv] = kv.1 ++ '=' :: kv.2 := by
  simp [paramsText]

theorem paramsText_cons (kv kv' : Str × Str) (params : List (Str × Str)) :
    paramsText (kv :: kv' :: params) = (kv.1 ++ '=' :: kv.2) ++ '&' :: paramsText (kv' :: params) := by
  simp [paramsText, List.intercalate_cons_cons]

theorem mem_paramsText {params : List (Str × Str)} {c : Char} (h : c ∈ paramsText params) :
    c = '&' ∨ c = '=' ∨ ∃ kv ∈ params, c ∈ kv.1 ∨ c ∈ kv.2 := by
  rcases mem_intercalate h with h | ⟨field, hf, hc⟩
  · exact .inl h
  · obtain ⟨kv, hkv, rfl⟩ := List.mem_map.1 hf
    rw [List.mem_append, List.mem_cons] at hc
    rcases hc with hc | hc | hc
    · exact .inr (.inr ⟨kv, hkv, .inl hc⟩)
    · exact .inr (.inl hc)
    · exact .inr (.inr ⟨kv, hkv, .inr hc⟩)

/-- The values without the characters that a parse removes. -/
def cleanValues (params : List (Str × Str)) : List (Str × Str) :=
  params.map fun kv => (kv.1, kv.2.filter (!unsafeByte ·))

/-- The last value without the blanks at its end. -/
def stripLast : List (Str × Str) → List (Str × Str)
  | [] => []
  | [kv] => [(kv.1, rstrip isSpace kv.2)]
  | kv :: kv' :: params => kv :: stripLast (kv' :: params)

/-- The parameters as the passes have them. -/
def tidied (params : List (Str × Str)) : List (Str × Str) := stripLast (cleanValues params)

theorem cleanValues_idem (params : List (Str × Str)) : cleanValues (cleanValues params) = cleanValues params := by
  simp [cleanValues]

theorem stripLast_idem (params : List (Str × Str)) : stripLast (stripLast params) = stripLast params := by
  induction params with
  | nil => rfl
  | cons kv params ih =>
    cases params with
    | nil => simp only [stripLast, rstrip, List.reverse_reverse, List.dropWhile_idempotent]
    | cons kv' params =>
      obtain ⟨first, rest, hstrip⟩ : ∃ first rest, stripLast (kv' :: params) = first :: rest := by
        cases params with
        | nil => exact ⟨_, _, rfl⟩
        | cons _ _ => exact ⟨_, _, rfl⟩
      rw [hstrip] at ih
      rw [stripLast, hstrip, stripLast, ih]

theorem cleanValues_stripLast (params : List (Str × Str)) : cleanValues (stripLast params) = tidied params := by
  unfold tidied
  induction params with
  | nil => rfl
  | cons kv params ih =>
    cases params with
    | nil => simp [cleanValues, stripLast, rstrip_filter]
    | cons kv' params =>
      have hrest : cleanValues (stripLast (kv :: kv' :: params)) =
          (kv.1, kv.2.filter (!unsafeByte ·)) :: cleanValues (stripLast (kv' :: params)) := rfl
      rw [hrest, ih]
      rfl

theorem tidied_cleanValues (params : List (Str × Str)) : tidied (cleanValues params) = tidied params := by
  rw [tidied, cleanValues_idem, tidied]

theorem tidied_idem (params : List (Str × Str)) : tidied (tidied params) = tidied params := by
  calc tidied (tidied params) = stripLast (cleanValues (cleanValues (stripLast params))) := by
        rw [cleanValues_stripLast, tidied]
    _ = tidied params := by rw [cleanValues_idem, cleanValues_stripLast, tidied, stripLast_idem]

theorem ParamsOk.clean {params : List (Str × Str)} (h : ParamsOk params) : ParamsOk (cleanValues params) := by
  intro cleaned hcleaned
  obtain ⟨kv, hkv, rfl⟩ := List.mem_map.1 hcleaned
  obtain ⟨hk, hamp, hhash⟩ := h kv hkv
  exact ⟨hk, fun hc => hamp (List.mem_filter.1 hc).1, fun hc => hhash (List.mem_filter.1 hc).1⟩

theorem ParamsOk.stripLast {params : List (Str × Str)} (h : ParamsOk params) : ParamsOk (stripLast params) := by
  induction params with
  | nil => exact h
  | cons kv params ih =>
    obtain ⟨⟨hk, hamp, hhash⟩, hrest⟩ := List.forall_mem_cons.1 h
    cases params with
    | nil =>
      have hsub := (rstrip_initial isSpace kv.2).subset
      exact List.forall_mem_singleton.2 ⟨hk, fun hc => hamp (hsub hc), fun hc => hhash (hsub hc)⟩
    | cons kv' params => exact List.forall_mem_cons.2 ⟨⟨hk, hamp, hhash⟩, ih hrest⟩

theorem filter_of_word {s : Str} (h : ∀ c ∈ s, wordChar c = true) : s.filter (!unsafeByte ·) = s := by
  rw [List.filter_eq_self]
  intro c hc
  rw [(harmless_of_wordChar (h c hc)).safe]
  rfl

theorem filter_field {kv : Str × Str} (h : TrackingKey kv.1) :
    (kv.1 ++ '=' :: kv.2).filter (!unsafeByte ·) = kv.1 ++ '=' :: kv.2.filter (!unsafeByte ·) := by
  rw [List.filter_append, filter_of_word (wordChar_of_key h)]
  rfl

theorem filter_paramsText {params : List (Str × Str)} (h : ParamsOk params) :
    (paramsText params).filter (!unsafeByte ·) = paramsText (cleanValues params) := by
  induction params with
  | nil => rfl
  | cons kv params ih =>
    obtain ⟨⟨hk, -, -⟩, hrest⟩ := List.forall_mem_cons.1 h
    cases params with
    | nil =>
      rw [paramsText_singleton, filter_field hk]
      exact (paramsText_singleton (kv.1, kv.2.filter (!unsafeByte ·))).symm
    | cons kv' params =>
      have hclean : paramsText (cleanValues (kv :: kv' :: params)) =
          (kv.1 ++ '=' :: kv.2.filter (!unsafeByte ·)) ++ '&' :: paramsText (cleanValues (kv' :: params)) :=
        paramsText_cons _ _ _
      rw [paramsText_cons, List.filter_append, filter_field hk, hclean, ← ih hrest]
      rfl

/-- Nothing is stripped up to a character that is kept. -/
theorem rstrip_kept {p : Char → Bool} {c : Char} (h : p c = false) (a b : Str) :
    rstrip p (a ++ c :: b) = a ++ c :: rstrip p b := by
  rw [HttpUrl.rstrip_append, HttpUrl.rstrip_cons h, if_neg nofun]

theorem rstrip_paramsText (params : List (Str × Str)) :
    rstrip isSpace (paramsText params) = paramsText (stripLast params) := by
  induction params with
  | nil => rfl
  | cons kv params ih =>
    cases params with
    | nil =>
      rw [paramsText_singleton, rstrip_kept rfl]
      exact (paramsText_singleton (kv.1, rstrip isSpace kv.2)).symm
    | cons kv' params =>
      obtain ⟨first, rest, hstrip⟩ : ∃ first rest, stripLast (kv' :: params) = first :: rest := by
        cases params with
        | nil => exact ⟨_, _, rfl⟩
        | cons _ _ => exact ⟨_, _, rfl⟩
      have hcons : paramsText (stripLast (kv :: kv' :: params)) =
          (kv.1 ++ '=' :: kv.2) ++ '&' :: paramsText (stripLast (kv' :: params)) := by
        rw [stripLast, hstrip, paramsText_cons]
      rw [paramsText_cons, rstrip_kept rfl, ih, hcons]

theorem paramsText_eq_nil {params : List (Str × Str)} : paramsText params = [] ↔ params = [] := by
  rcases params with _ | ⟨kv, _ | ⟨kv', params⟩⟩
  · simp
  · simp
  · simp [paramsText_cons]

theorem stripLast_eq_nil {params : List (Str × Str)} : stripLast params = [] ↔ params = [] := by
  rcases params with _ | ⟨kv, _ | ⟨kv', params⟩⟩ <;> simp [stripLast]

theorem cleanValues_eq_nil {params : List (Str × Str)} : cleanValues params = [] ↔ params = [] := List.map_eq_nil_iff

theorem behind_of_ne_nil (sep : Char) {s : Str} (h : s ≠ []) : behind sep s = sep :: s := if_neg h

/-! ## Reading a link -/

theorem filter_query {params : List (Str × Str)} (h : ParamsOk params) :
    (behind '?' (paramsText params)).filter (!unsafeByte ·) = behind '?' (paramsText (cleanValues params)) := by
  by_cases hnil : params = []
  · subst hnil
    rfl
  · rw [behind_of_ne_nil _ (mt paramsText_eq_nil.1 hnil),
      behind_of_ne_nil _ (mt (paramsText_eq_nil.trans cleanValues_eq_nil).1 hnil), ← filter_paramsText h]
    rfl

theorem rstrip_query (params : List (Str × Str)) :
    rstrip isSpace (behind '?' (paramsText params)) = behind '?' (paramsText (stripLast params)) := by
  by_cases hnil : params = []
  · subst hnil
    rfl
  · rw [behind_of_ne_nil _ (mt paramsText_eq_nil.1 hnil),
      behind_of_ne_nil _ (mt (paramsText_eq_nil.trans stripLast_eq_nil).1 hnil), HttpUrl.rstrip_cons rfl,
      rstrip_paramsText]

/-- Blanks at the end and unsafe characters go, and the tail is one of the same form. -/
theorem tail_tidied {params : List (Str × Str)} (h : ParamsOk params) (fragment : Option Str) :
    ∃ params' fragment', ParamsOk params' ∧ (∀ c ∈ paramsText params', unsafeByte c = false) ∧
      tidied params' = tidied params ∧ (fragment = none → params' = tidied params) ∧
      (rstrip isSpace (behind '?' (paramsText params) ++ fragmentText fragment)).filter (!unsafeByte ·) =
        behind '?' (paramsText params') ++ fragmentText fragment' := by
  have hsafe : ∀ params, ParamsOk params → ∀ c ∈ paramsText (cleanValues params), unsafeByte c = false := by
    intro params hp c hc
    rw [← filter_paramsText hp] at hc
    simpa using (List.mem_filter.1 hc).2
  cases fragment with
  | none =>
    have hsame := cleanValues_stripLast params
    refine ⟨cleanValues (stripLast params), none, h.stripLast.clean, hsafe _ h.stripLast, ?_, fun _ => hsame, ?_⟩
    · rw [hsame, tidied_idem]
    rw [fragmentText, List.append_nil, List.append_nil, rstrip_query, filter_query h.stripLast]
  | some fragment =>
    refine ⟨cleanValues params, some ((rstrip isSpace fragment).filter (!unsafeByte ·)), h.clean, hsafe _ h,
      tidied_cleanValues params, nofun, ?_⟩
    rw [fragmentText, rstrip_kept rfl, List.filter_append, filter_query h]
    rfl

/-- A host and a slug of a link. -/
structure Words (host slug : Str) : Prop where
  host_ne : host ≠ []
  host : ∀ c ∈ host, wordChar c = true
  slug_ne : slug ≠ []
  slug : ∀ c ∈ slug, wordChar c = true

theorem Words.harmless {host slug : Str} (h : Words host slug) (n : ℕ) :
    ∀ c ∈ host ++ ('/' :: (slug ++ List.replicate n '/')), isSpace c = false ∧ unsafeByte c = false := by
  intro c hc
  simp only [List.mem_append, List.mem_cons] at hc
  rcases hc with hc | rfl | hc | hc
  · have hw := harmless_of_wordChar (h.host c hc)
    exact ⟨hw.space, hw.safe⟩
  · decide
  · have hw := harmless_of_wordChar (h.slug c hc)
    exact ⟨hw.space, hw.safe⟩
  · rw [List.eq_of_mem_replicate hc]
    decide

theorem linkRest_split (host slug : Str) (n : ℕ) (params : List (Str × Str)) (fragment : Option Str) :
    linkRest host slug n params fragment =
      (host ++ ('/' :: (slug ++ List.replicate n '/'))) ++ (behind '?' (paramsText params) ++ fragmentText fragment) := by
  simp [linkRest, List.append_assoc]

theorem rstrip_behind {p : Char → Bool} {a : Str} (h : ∀ c ∈ a, p c = false) (b : Str) : rstrip p (a ++ b) = a ++ rstrip p b := by
  rw [HttpUrl.rstrip_append]
  split_ifs with hb
  · rw [hb, List.append_nil]
    exact HttpUrl.rstrip_self fun c hc => h c (List.mem_of_getLast? hc)
  · rfl

/-- What is left of a link to read, without the blanks at its end. -/
theorem link_tidied {host slug : Str} (hw : Words host slug) (n : ℕ) {params : List (Str × Str)} (h : ParamsOk params)
    (fragment : Option Str) : ∃ params' fragment', ParamsOk params' ∧ (∀ c ∈ paramsText params', unsafeByte c = false) ∧
      tidied params' = tidied params ∧ (fragment = none → params' = tidied params) ∧
      (rstrip isSpace (linkRest host slug n params fragment)).filter (!unsafeByte ·) =
        linkRest host slug n params' fragment' := by
  obtain ⟨params', fragment', hok, hsafe, htidied, hnone, htail⟩ := tail_tidied h fragment
  refine ⟨params', fragment', hok, hsafe, htidied, hnone, ?_⟩
  have hbase := hw.harmless n
  have hfilter : (host ++ ('/' :: (slug ++ List.replicate n '/'))).filter (!unsafeByte ·) =
      host ++ ('/' :: (slug ++ List.replicate n '/')) := by
    rw [List.filter_eq_self]
    intro c hc
    rw [(hbase c hc).2]
    rfl
  rw [linkRest_split, rstrip_behind fun c hc => (hbase c hc).1, List.filter_append, hfilter, htail, linkRest_split]

theorem partition_fragment {s : Str} (h : '#' ∉ s) (fragment : Option Str) :
    partition '#' (s ++ fragmentText fragment) = (s, fragment.getD []) := by
  cases fragment with
  | none => rw [fragmentText, List.append_nil, partition_of_not_mem h, Option.getD_none]
  | some fragment => rw [fragmentText, partition_append h, Option.getD_some]

variable {uc : Unicode}

theorem netlocOk_word {host : Str} (h : ∀ c ∈ host, wordChar c = true) : NetlocOk uc host where
  chars c hc := ⟨(harmless_of_wordChar (h c hc)).inNetloc, (harmless_of_wordChar (h c hc)).safe⟩
  brackets := by
    have hopen : '[' ∉ host := not_mem_of_word h rfl
    have hclose : ']' ∉ host := not_mem_of_word h rfl
    simp [bracketsOk, hopen, hclose]
  check := by
    have hascii : host.all isAscii = true := List.all_eq_true.2 fun c hc => (harmless_of_wordChar (h c hc)).ascii
    simp [checkNetloc, hascii]

/-- The path of a link. -/
def linkPath (slug : Str) (n : ℕ) : Str := '/' :: (slug ++ List.replicate n '/')

theorem mem_linkPath {slug : Str} (hslug : ∀ c ∈ slug, wordChar c = true) {n : ℕ} {c : Char} (h : c ∈ linkPath slug n) :
    c = '/' ∨ wordChar c = true := by
  rw [linkPath, List.mem_cons, List.mem_append] at h
  rcases h with rfl | h | h
  · exact .inl rfl
  · exact .inr (hslug c h)
  · exact .inl (List.eq_of_mem_replicate h)

/-- The path ends where the next part of the URL starts. -/
theorem linkPath_plain {slug : Str} (hslug : ∀ c ∈ slug, wordChar c = true) (n : ℕ) :
    '?' ∉ linkPath slug n ∧ '#' ∉ linkPath slug n ∧ ';' ∉ linkPath slug n := by
  have hnot : ∀ c, wordChar c = false → c ≠ '/' → c ∉ linkPath slug n := by
    intro c hc hne hmem
    rcases mem_linkPath hslug hmem with hslash | hword
    · exact hne hslash
    · rw [hc] at hword
      cases hword
  exact ⟨hnot '?' rfl nofun, hnot '#' rfl nofun, hnot ';' rfl nofun⟩

theorem query_chars {params : List (Str × Str)} (h : ParamsOk params) : '#' ∉ paramsText params := by
  intro hc
  rcases mem_paramsText hc with hc | hc | ⟨kv, hkv, hc | hc⟩
  · cases hc
  · cases hc
  · exact not_mem_of_word (wordChar_of_key (h kv hkv).1) rfl hc
  · exact (h kv hkv).2.2 hc

/-- A link behind an http scheme, as `urlparse` reads it. -/
theorem parse_link {scheme : Str} (hs : scheme ∈ httpSchemes) {host slug : Str} (hw : Words host slug) (n : ℕ)
    {params : List (Str × Str)} (h : ParamsOk params) {fragment : Option Str} {rest : Str}
    (hrest : rest.filter (!unsafeByte ·) = linkRest host slug n params fragment) :
    urlparse uc (scheme ++ ("://".toList ++ rest)) =
      some ⟨scheme, host, linkPath slug n, [], paramsText params, fragment.getD []⟩ := by
  have hsplit : linkRest host slug n params fragment =
      host ++ (linkPath slug n ++ behind '?' (paramsText params) ++ fragmentText fragment) := by
    simp [linkRest, linkPath, List.append_assoc]
  have hinside : ∀ c ∈ host, (!netlocEnd c) = true := by
    intro c hc
    rw [(harmless_of_wordChar (hw.host c hc)).inNetloc]
    rfl
  have hend : ∀ c ∈ (linkPath slug n ++ behind '?' (paramsText params) ++ fragmentText fragment).head?, (!netlocEnd c) = false := by
    intro c hc
    have hslash : '/' = c := by simpa [linkPath] using hc
    rw [← hslash]
    rfl
  have hspan := span_append (p := (!netlocEnd ·)) (a := host)
    (b := linkPath slug n ++ behind '?' (paramsText params) ++ fragmentText fragment)
    hinside hend
  have hhash : '#' ∉ linkPath slug n ++ behind '?' (paramsText params) := by
    intro hc
    rcases List.mem_append.1 hc with hc | hc
    · exact (linkPath_plain hw.slug n).2.1 hc
    · rcases mem_behind hc with hc | hc
      · cases hc
      · exact query_chars h hc
  have hquery := partition_behind (linkPath_plain hw.slug n).1 (paramsText params)
  have hok : NetlocOk uc host := netlocOk_word hw.host
  have hurl : urlsplit uc (scheme ++ ("://".toList ++ rest)) =
      some ⟨scheme, host, linkPath slug n, paramsText params, fragment.getD []⟩ := by
    rw [urlsplit_http uc hs]
    simp only [hrest, hsplit, hspan.1, hspan.2, partition_fragment hhash, hquery, hok.brackets, hok.check, Bool.and_self,
      if_true]
  rw [urlparse_http hs hurl, splitParams_plain (linkPath_plain hw.slug n).2.2]

/-! ## The passes -/

/-- A link as `normalize_url` leaves it. -/
def linkText (scheme host slug : Str) (params : List (Str × Str)) : Str :=
  scheme ++ ("://".toList ++ linkRest host slug 0 params none)

theorem rstrip_linkPath {slug : Str} (hne : slug ≠ []) (hslug : ∀ c ∈ slug, wordChar c = true) (n : ℕ) :
    rstrip (· == '/') (linkPath slug n) = '/' :: slug := by
  have hslashes : rstrip (· == '/') (List.replicate n '/') = [] := by
    rw [rstrip, List.reverse_replicate, List.reverse_eq_nil_iff, List.dropWhile_eq_nil_iff]
    intro c hc
    rw [List.eq_of_mem_replicate hc]
    rfl
  have hsplit : linkPath slug n = ('/' :: slug) ++ List.replicate n '/' := rfl
  rw [hsplit, HttpUrl.rstrip_append, if_pos hslashes]
  apply HttpUrl.rstrip_self
  intro c hc
  obtain ⟨d, slug, rfl⟩ := List.exists_cons_of_ne_nil hne
  rw [List.getLast?_cons_cons] at hc
  rw [beq_eq_false_iff_ne]
  rintro rfl
  exact not_mem_of_word hslug rfl (List.mem_of_getLast? hc)

/-- What `normalize_url` makes of a text that it reads as a link. -/
theorem normalizeUrl_read {s scheme rest : Str} (hs : scheme ∈ httpSchemes) (hne : strip s ≠ [])
    (htext : HttpUrl.withScheme s = scheme ++ ("://".toList ++ rest)) {host slug : Str} (hw : Words host slug) {n : ℕ}
    {params : List (Str × Str)} (h : ParamsOk params) {fragment : Option Str}
    (hrest : rest.filter (!unsafeByte ·) = linkRest host slug n params fragment) :
    normalizeUrl (cpython uc) s = some (linkText scheme host slug params) := by
  have hnorm : normalizeUrl (cpython uc) s = (urlparse uc (HttpUrl.withScheme s)).map fun parsed =>
      urlunparse { parsed with path := rstrip (· == '/') parsed.path, fragment := [] } := by
    rw [normalizeUrl]
    exact if_neg hne
  rw [hnorm, htext, parse_link hs hw n h hrest, Option.map_some, urlunparse_http hs]
  dsimp only
  rw [rstrip_linkPath hw.slug_ne hw.slug]
  simp [linkText, linkRest, fragmentText, rooted, behind]

/-- A link with a scheme. -/
theorem normalizeUrl_http {scheme : Str} (hs : scheme ∈ httpSchemes) {host slug : Str} (hw : Words host slug) (n : ℕ)
    {params : List (Str × Str)} (h : ParamsOk params) (fragment : Option Str) :
    ∃ params', ParamsOk params' ∧ (∀ c ∈ paramsText params', unsafeByte c = false) ∧
      tidied params' = tidied params ∧ (fragment = none → params' = tidied params) ∧
      normalizeUrl (cpython uc) (scheme ++ ("://".toList ++ linkRest host slug n params fragment)) =
        some (linkText scheme host slug params') := by
  obtain ⟨params', fragment', hok, hsafe, htidied, hnone, hrest⟩ := link_tidied hw n h fragment
  have hstrip := HttpUrl.strip_http hs (linkRest host slug n params fragment)
  have hne : strip (scheme ++ ("://".toList ++ linkRest host slug n params fragment)) ≠ [] := by
    rw [hstrip]
    simp
  have htext : HttpUrl.withScheme (scheme ++ ("://".toList ++ linkRest host slug n params fragment)) =
      scheme ++ ("://".toList ++ rstrip isSpace (linkRest host slug n params fragment)) := by
    rw [HttpUrl.withScheme, hstrip, if_pos]
    exact HttpUrl.startsWithHttp_iff.2 ⟨scheme, hs, _, rfl⟩
  exact ⟨params', hok, hsafe, htidied, hnone, normalizeUrl_read hs hne htext hw hok hrest⟩

/-- A link without a scheme gets https, unless its host starts like one. -/
theorem normalizeUrl_bare {host slug : Str} (hw : Words host slug) (hh : host.head? ≠ some 'h') (n : ℕ)
    {params : List (Str × Str)} (h : ParamsOk params) (fragment : Option Str) :
    ∃ params', ParamsOk params' ∧ (∀ c ∈ paramsText params', unsafeByte c = false) ∧ tidied params' = tidied params ∧
      normalizeUrl (cpython uc) (linkRest host slug n params fragment) =
        some (linkText "https".toList host slug params') := by
  obtain ⟨params', fragment', hok, hsafe, htidied, -, hrest⟩ := link_tidied hw n h fragment
  obtain ⟨c, hostRest, rfl⟩ := List.exists_cons_of_ne_nil hw.host_ne
  have hc := harmless_of_wordChar (hw.host c List.mem_cons_self)
  have hstrip : strip (linkRest (c :: hostRest) slug n params fragment) =
      c :: rstrip isSpace (linkRest hostRest slug n params fragment) := by
    have hcons : linkRest (c :: hostRest) slug n params fragment = c :: linkRest hostRest slug n params fragment := rfl
    rw [strip, hcons, List.dropWhile_cons, hc.space]
    exact HttpUrl.rstrip_cons hc.space _
  have hne : strip (linkRest (c :: hostRest) slug n params fragment) ≠ [] := by
    rw [hstrip]
    exact List.cons_ne_nil _ _
  have htext : HttpUrl.withScheme (linkRest (c :: hostRest) slug n params fragment) =
      "https".toList ++ ("://".toList ++ rstrip isSpace (linkRest (c :: hostRest) slug n params fragment)) := by
    have hnot : startsWithHttp (strip (linkRest (c :: hostRest) slug n params fragment)) = false := by
      rw [Bool.eq_false_iff]
      intro hstart
      obtain ⟨scheme, hs, rest, heq⟩ := HttpUrl.startsWithHttp_iff.1 hstart
      have hfirst : ∀ scheme ∈ httpSchemes, scheme.head? = some 'h' := by decide
      rw [hstrip] at heq
      have hhead := congrArg List.head? heq
      rw [List.head?_cons, List.head?_append, hfirst scheme hs] at hhead
      exact hh hhead
    have hcons : rstrip isSpace (linkRest (c :: hostRest) slug n params fragment) =
        c :: rstrip isSpace (linkRest hostRest slug n params fragment) := HttpUrl.rstrip_cons hc.space _
    rw [HttpUrl.withScheme, hnot, hstrip, hcons]
    rfl
  exact ⟨params', hok, hsafe, htidied, normalizeUrl_read https_mem hne htext hw hok hrest⟩

/-- The parsed URL of a link. -/
def linkUrl (uc : Unicode) {scheme host slug : Str} (hs : scheme ∈ httpSchemes) (hw : Words host slug)
    {params : List (Str × Str)} (h : ParamsOk params) (hsafe : ∀ c ∈ paramsText params, unsafeByte c = false) : HttpUrl uc where
  scheme := scheme
  netloc := host
  path := linkPath slug 0
  query := paramsText params
  scheme_mem := hs
  netloc_ok := netlocOk_word hw.host
  path_rooted := .inr rfl
  path_chars c hc := by
    rcases mem_linkPath hw.slug hc with rfl | hword
    · decide
    · have hchar := harmless_of_wordChar hword
      refine ⟨?_, ?_, hchar.safe⟩
      all_goals
        rintro rfl
        exact absurd hword (by decide)
  query_chars c hc := by
    refine ⟨?_, hsafe c hc⟩
    rintro rfl
    exact query_chars h hc

theorem linkUrl_text {scheme host slug : Str} (hs : scheme ∈ httpSchemes) (hw : Words host slug) {params : List (Str × Str)}
    (h : ParamsOk params) (hsafe : ∀ c ∈ paramsText params, unsafeByte c = false) :
    (linkUrl uc hs hw h hsafe).text = linkText scheme host slug params := by
  simp [HttpUrl.text, HttpUrl.rest, linkUrl, linkText, linkRest, linkPath, fragmentText]

theorem linkPath_joined {slug : Str} (hslug : ∀ c ∈ slug, wordChar c = true) :
    (splitParams (linkPath slug 0)).1 ++ behind ';' (splitParams (linkPath slug 0)).2 = '/' :: slug := by
  rw [splitParams_plain (linkPath_plain hslug 0).2.2, behind_nil, List.append_nil, linkPath,
    List.replicate_zero, List.append_nil]

theorem lower_word {s : Str} (h : ∀ c ∈ s, wordChar c = true) : uc.lower s = s.map Char.toLower :=
  Unicode.lower_ascii fun c hc => (harmless_of_wordChar (h c hc)).ascii

theorem unquotePlus_word {s : Str} (h : ∀ c ∈ s, wordChar c = true) : unquotePlus s = s := by
  have hplus : ∀ c ∈ s, (if c = '+' then ' ' else c) = c := by
    intro c hc
    rw [if_neg]
    rintro rfl
    exact not_mem_of_word h rfl hc
  have hpercent : s.contains '%' = false := by
    rw [Bool.eq_false_iff, Ne, List.contains_iff_mem]
    exact not_mem_of_word h rfl
  rw [unquotePlus, List.map_congr_left hplus, List.map_id', unquote, hpercent]
  rfl

/-- The query, decoded: the values are. -/
theorem mem_parseQsl_params {params : List (Str × Str)} (h : ParamsOk params) {kv : Str × Str} :
    kv ∈ parseQsl (paramsText params) ↔ ∃ param ∈ params, param.2 ≠ [] ∧ kv = (param.1, unquotePlus param.2) := by
  unfold parseQsl
  split_ifs with hnil
  · obtain rfl := paramsText_eq_nil.1 hnil
    simp
  · have hfields : (paramsText params).splitOn '&' = params.map fun kv => kv.1 ++ '=' :: kv.2 := by
      apply List.splitOn_intercalate
      · intro field hfield hc
        obtain ⟨param, hparam, rfl⟩ := List.mem_map.1 hfield
        obtain ⟨hkey, hamp, -⟩ := h param hparam
        rcases List.mem_append.1 hc with hc | hc
        · exact not_mem_of_word (wordChar_of_key hkey) rfl hc
        · exact hamp ((List.mem_cons.1 hc).resolve_left (by decide))
      · intro hmap
        exact hnil (paramsText_eq_nil.2 (List.map_eq_nil_iff.1 hmap))
    have hparse : ∀ param ∈ params, parseField (param.1 ++ '=' :: param.2) =
        if param.2 = [] then none else some (param.1, unquotePlus param.2) := by
      intro param hparam
      have hkey := (h param hparam).1
      have heq : '=' ∉ param.1 := not_mem_of_word (wordChar_of_key hkey) rfl
      simp only [parseField, partition_append heq, unquotePlus_word (wordChar_of_key hkey)]
    rw [hfields, List.mem_filterMap]
    constructor
    · rintro ⟨field, hfield, hkv⟩
      obtain ⟨param, hparam, rfl⟩ := List.mem_map.1 hfield
      rw [hparse param hparam] at hkv
      split_ifs at hkv with hblank
      exact ⟨param, hparam, hblank, (Option.some.inj hkv).symm⟩
    · rintro ⟨param, hparam, hblank, rfl⟩
      exact ⟨_, List.mem_map_of_mem hparam, (hparse param hparam).trans (if_neg hblank)⟩

/-- The keys of the query, as it is decoded, are tracking parameters. -/
theorem parseQsl_params {params : List (Str × Str)} (h : ParamsOk params) {kv : Str × Str}
    (hkv : kv ∈ parseQsl (paramsText params)) : TrackingKey kv.1 := by
  obtain ⟨param, hparam, -, rfl⟩ := (mem_parseQsl_params h).1 hkv
  exact (h param hparam).1

/-- No parameter that stays until the second pass has a lone surrogate in its value. -/
def ParamsEncode (uc : Unicode) (params : List (Str × Str)) : Prop :=
  ∀ kv ∈ tidied params, kv.1.map Char.toLower ∉ trackingParams → ∀ c ∈ unquotePlus kv.2, uc.encodable c = true

theorem encodes_params {params : List (Str × Str)} (h : ParamsOk (tidied params)) :
    uc.encodes (HttpUrl.kept uc trackingParams (parseQsl (paramsText (tidied params)))) = true ↔ ParamsEncode uc params := by
  have hascii : ∀ kv ∈ tidied params, kv.1.all uc.encodable = true := fun kv hkv => List.all_eq_true.2 fun c hc =>
    uc.encodable_ascii c (harmless_of_wordChar (wordChar_of_key (h kv hkv).1 c hc)).ascii
  have hlower : ∀ kv ∈ tidied params, uc.lower kv.1 = kv.1.map Char.toLower := fun kv hkv =>
    lower_word (wordChar_of_key (h kv hkv).1)
  rw [Unicode.encodes, List.all_eq_true, HttpUrl.kept_eq]
  constructor
  · intro hall kv hkv hkey c hc
    have hblank : kv.2 ≠ [] := by
      intro hnil
      rw [hnil] at hc
      cases hc
    have hmem : (kv.1, unquotePlus kv.2) ∈ parseQsl (paramsText (tidied params)) :=
      (mem_parseQsl_params h).2 ⟨kv, hkv, hblank, rfl⟩
    have henc := hall _ (List.mem_filter.2 ⟨hmem, by simpa [hlower kv hkv] using hkey⟩)
    exact List.all_eq_true.1 (Bool.and_eq_true_iff.1 henc).2 c hc
  · intro hall field hfield
    obtain ⟨hmem, hkey⟩ := List.mem_filter.1 hfield
    obtain ⟨kv, hkv, -, rfl⟩ := (mem_parseQsl_params h).1 hmem
    refine Bool.and_eq_true_iff.2 ⟨hascii kv hkv, List.all_eq_true.2 (hall kv hkv ?_)⟩
    rw [← hlower kv hkv]
    exact of_decide_eq_true hkey

theorem keptBoth_tracking {l : List (Str × Str)} (h : ∀ kv ∈ l, TrackingKey kv.1) : HttpUrl.keptBoth uc l = [] := by
  rw [List.eq_nil_iff_forall_not_mem]
  intro kv hkv
  rw [HttpUrl.keptBoth, HttpUrl.kept_eq, HttpUrl.kept_eq, List.mem_filter, List.mem_filter, decide_eq_true_eq,
    decide_eq_true_eq] at hkv
  obtain ⟨⟨hmem, hfirst⟩, hsecond⟩ := hkv
  have hkey := h kv hmem
  rw [lower_word (wordChar_of_key hkey)] at hfirst hsecond
  rcases List.mem_append.1 hkey with hkey | hkey
  · exact hfirst hkey
  · exact hsecond hkey

/-- Both tracking passes leave nothing of the query. -/
theorem linkUrl_cleaned {scheme host slug : Str} (hs : scheme ∈ httpSchemes) (hw : Words host slug) {params : List (Str × Str)}
    (h : ParamsOk params) (hsafe : ∀ c ∈ paramsText params, unsafeByte c = false) :
    (linkUrl uc hs hw h hsafe).cleaned.text = scheme ++ ("://".toList ++ (host ++ ('/' :: slug))) := by
  have hpath : (linkUrl uc hs hw h hsafe).cleaned.path = '/' :: slug := by
    rw [HttpUrl.cleaned_path]
    exact linkPath_joined hw.slug
  have hquery : (linkUrl uc hs hw h hsafe).cleaned.query = [] := by
    rw [HttpUrl.cleaned_query]
    show queryText (HttpUrl.keptBoth uc (parseQsl (paramsText params))) = []
    rw [keptBoth_tracking fun kv hkv => parseQsl_params h hkv]
    rfl
  rw [HttpUrl.text, HttpUrl.rest, hpath, hquery, HttpUrl.cleaned_scheme, HttpUrl.cleaned_netloc, behind_nil, List.append_nil]
  rfl

open Classical in
/-- The passes on a text that is a link to `normalize_url`. -/
theorem normalizeSocialUrl_read {s scheme host slug : Str} (hs : scheme ∈ httpSchemes) (hw : Words host slug)
    (hcanonical : Words (HttpUrl.canonicalHost uc host) slug) (hshim : uc.lower host ≠ "l.facebook.com".toList)
    {params : List (Str × Str)} (h : ParamsOk params) (hsafe : ∀ c ∈ paramsText params, unsafeByte c = false)
    (hn : normalizeUrl (cpython uc) s = some (linkText scheme host slug params)) :
    normalizeSocialUrl (cpython uc) s = if ParamsEncode uc params then
      some ("https".toList ++ ("://".toList ++ (HttpUrl.canonicalHost uc host ++ ('/' :: slug)))) else none := by
  have hunwrap : unwrapFacebookLinkShim (cpython uc) (linkText scheme host slug params) =
      some (linkText scheme host slug params) := by
    have hparse := (linkUrl uc hs hw h hsafe).urlparse_text
    rw [linkUrl_text] at hparse
    rw [HttpUrl.unwrap_eq hparse, HttpUrl.shimTarget, if_neg, Option.getD_none]
    exact fun hcond => hshim hcond.1
  have hdomain : canonicalizeDomain (cpython uc) (linkText scheme host slug params) =
      some (linkText "https".toList (HttpUrl.canonicalHost uc host) slug params) := by
    have hpath : (linkUrl uc hs hw h hsafe).canonical.path = '/' :: slug := by
      rw [HttpUrl.canonical_path, HttpUrl.rejoined_path]
      exact linkPath_joined hw.slug
    rw [← linkUrl_text hs hw h hsafe, HttpUrl.canonicalizeDomain_text, HttpUrl.text, HttpUrl.rest, hpath,
      HttpUrl.canonical_scheme, HttpUrl.canonical_netloc, HttpUrl.canonical_query]
    simp [linkUrl, linkText, linkRest, fragmentText]
  obtain ⟨params', hok, hsafe', -, htidied, hagain⟩ := normalizeUrl_http https_mem hcanonical 0 h none
  obtain rfl := htidied rfl
  have hlast : lastForm (cpython uc) s =
      some (linkText "https".toList (HttpUrl.canonicalHost uc host) slug (tidied params)) := by
    rw [lastForm, hn]
    simp only [Option.bind_eq_bind, Option.bind_some, hunwrap, hdomain]
    exact hagain
  rw [normalizeSocialUrl_eq, hlast, Option.bind_some, ← linkUrl_text https_mem hcanonical hok hsafe', HttpUrl.strips_text,
    linkUrl_cleaned]
  exact if_congr (encodes_params hok) rfl rfl

/-! ## The links to a profile -/

namespace RawLink

variable {p : Platform}

/-- No bare `//` in front, no capital letter in a www host, and no lone surrogate in what is encoded. -/
structure Plain (uc : Unicode) (link : RawLink p) : Prop where
  start : link.start ≠ .slashes
  host : link.host.map Char.toLower = p.host → link.host = p.host
  encodes : ParamsEncode uc link.params

theorem words (link : RawLink p) (slug : ProfileSlug) : Words link.host slug.text where
  host_ne := by
    have hne : [] ∉ p.host :: p.otherHosts := by cases p <;> decide
    intro hnil
    have hmem := link.host_mem
    rw [hnil] at hmem
    exact hne hmem
  host := wordChar_of_host link.host_mem
  slug_ne := slug.text_ne
  slug := slug.chars

theorem paramsOk (link : RawLink p) : ParamsOk link.params := by
  intro kv hkv
  obtain ⟨hkey, -, hamp, hhash⟩ := link.params_ok kv hkv
  exact ⟨hkey, hamp, hhash⟩

theorem lower_host (link : RawLink p) : uc.lower link.host = link.host.map Char.toLower :=
  lower_word (wordChar_of_host link.host_mem)

/-- A www host is kept as it is written, the others are replaced. -/
theorem canonicalHost (link : RawLink p) :
    HttpUrl.canonicalHost uc link.host = if link.host.map Char.toLower = p.host then link.host else p.host := by
  rw [HttpUrl.canonicalHost, link.lower_host]
  split_ifs with hwww
  · have hnone : mobileHosts p.host = none := by cases p <;> decide
    rw [hwww, hnone, Option.getD_none]
  · have hother := (List.mem_cons.1 link.host_mem).resolve_left hwww
    rw [mobileHosts_iff.2 hother, Option.getD_some]

theorem words_canonical (link : RawLink p) (slug : ProfileSlug) : Words (HttpUrl.canonicalHost uc link.host) slug.text := by
  rw [link.canonicalHost]
  split_ifs
  · exact link.words slug
  · have hhost : p.host ≠ [] ∧ p.host.all wordChar = true := by cases p <;> decide
    exact ⟨hhost.1, forall_of_all hhost.2, slug.text_ne, slug.chars⟩

theorem not_shim (link : RawLink p) : uc.lower link.host ≠ "l.facebook.com".toList := by
  have hnot : "l.facebook.com".toList ∉ p.host :: p.otherHosts := by cases p <;> decide
  rw [link.lower_host]
  intro hshim
  exact hnot (hshim ▸ link.host_mem)

theorem host_head (link : RawLink p) : link.host.head? ≠ some 'h' := by
  have hnot : ∀ name ∈ p.host :: p.otherHosts, name.head? ≠ some 'h' := by cases p <;> decide
  intro hhead
  apply hnot _ link.host_mem
  rw [List.head?_map, hhead]
  rfl

open Classical in
/-- What a link with another start is mapped to. -/
theorem normalizeSocialUrl_text (link : RawLink p) (slug : ProfileSlug) (hstart : link.start ≠ .slashes) :
    normalizeSocialUrl (cpython uc) (link.text slug) = if ParamsEncode uc link.params then
      some ("https://".toList ++ (HttpUrl.canonicalHost uc link.host ++ ('/' :: slug.text))) else none := by
  have hw := link.words slug
  have hscheme : ∀ scheme ∈ httpSchemes, ∃ params, ParamsOk params ∧ (∀ c ∈ paramsText params, unsafeByte c = false) ∧
      tidied params = tidied link.params ∧ normalizeUrl (cpython uc) (scheme ++ ("://".toList ++
        linkRest link.host slug.text link.slashes link.params link.fragment)) =
          some (linkText scheme link.host slug.text params) := by
    intro scheme hs
    obtain ⟨params, hok, hsafe, htidied, -, hn⟩ := normalizeUrl_http hs hw link.slashes link.paramsOk link.fragment
    exact ⟨params, hok, hsafe, htidied, hn⟩
  have hread : ∃ scheme ∈ httpSchemes, ∃ params, ParamsOk params ∧ (∀ c ∈ paramsText params, unsafeByte c = false) ∧
      tidied params = tidied link.params ∧
      normalizeUrl (cpython uc) (link.text slug) = some (linkText scheme link.host slug.text params) := by
    rw [text]
    cases hs : link.start with
    | bare => exact ⟨"https".toList, https_mem, normalizeUrl_bare hw link.host_head link.slashes link.paramsOk link.fragment⟩
    | slashes => exact absurd hs hstart
    | http => exact ⟨"http".toList, http_mem, hscheme _ http_mem⟩
    | https => exact ⟨"https".toList, https_mem, hscheme _ https_mem⟩
  obtain ⟨scheme, hs, params, hok, hsafe, htidied, hn⟩ := hread
  have hsame : ParamsEncode uc params ↔ ParamsEncode uc link.params := by rw [ParamsEncode, ParamsEncode, htidied]
  rw [normalizeSocialUrl_read hs hw (link.words_canonical slug) link.not_shim hok hsafe hn]
  exact if_congr hsame rfl rfl

/-- The profile's URL, parsed. -/
theorem profileUrl_text (uc : Unicode) (p : Platform) (slug : ProfileSlug) : ∃ w : HttpUrl uc,
    profileUrl p slug = w.cleaned.text ∧ w.scheme = "https".toList ∧ w.netloc = p.host ∧ w.path = linkPath slug.text 0 := by
  have hhost : p.host ≠ [] ∧ p.host.all wordChar = true := by cases p <;> decide
  have hw : Words p.host slug.text := ⟨hhost.1, forall_of_all hhost.2, slug.text_ne, slug.chars⟩
  have hok : ParamsOk [] := List.forall_mem_nil _
  have hsafe : ∀ c ∈ paramsText [], unsafeByte c = false := List.forall_mem_nil _
  refine ⟨linkUrl uc https_mem hw hok hsafe, ?_, rfl, rfl, rfl⟩
  rw [linkUrl_cleaned]
  rfl

theorem onPlatform_profileUrl (p : Platform) (slug : ProfileSlug) : OnPlatform (cpython uc) p (profileUrl p slug) := by
  obtain ⟨w, htext, -, hnetloc, hpath⟩ := profileUrl_text uc p slug
  rw [htext, onPlatform_cleaned, hpath, splitParams_plain (linkPath_plain slug.chars 0).2.2]
  refine ⟨hostname_host p hnetloc, ?_⟩
  obtain ⟨c, rest, hslug⟩ := List.exists_cons_of_ne_nil slug.text_ne
  have hslash : c ≠ '/' := by
    rintro rfl
    exact not_mem_of_word slug.chars rfl (hslug ▸ List.mem_cons_self)
  rw [linkPath, hslug]
  simp [hasSegment, hslash]

theorem isValidUrl_profileUrl (p : Platform) (slug : ProfileSlug) : isValidUrl (cpython uc) (profileUrl p slug) = true := by
  obtain ⟨w, htext, hscheme, hnetloc, -⟩ := profileUrl_text uc p slug
  have hparts : w.cleaned.parts.scheme = "https".toList ∧ w.cleaned.parts.netloc = p.host :=
    ⟨w.cleaned_scheme.trans hscheme, w.cleaned_netloc.trans hnetloc⟩
  have hhost : p.host ≠ [] ∧ '.' ∈ p.host ∧ hostnameRe p.host = true := by cases p <;> decide
  simp [isValidUrl, htext, w.cleaned.urlparse_text, hparts, hostname_host p hparts.2, hhost]

theorem withScheme_slash (s : Str) :
    HttpUrl.withScheme ('/' :: s) = "https".toList ++ ("://".toList ++ ([] ++ '/' :: rstrip isSpace s)) := by
  have hstrip : strip ('/' :: s) = '/' :: rstrip isSpace s := by
    have hstart : ('/' :: s).dropWhile isSpace = '/' :: s := rfl
    rw [strip, hstart, HttpUrl.rstrip_cons rfl]
  rw [HttpUrl.withScheme, hstrip]
  rfl

/-- Behind a bare `//`, the host is read as a part of the path. -/
theorem not_profileUrl (link : RawLink p) (slug : ProfileSlug) (hstart : link.start = .slashes) :
    normalizeSocialUrl (cpython uc) (link.text slug) ≠ some (profileUrl p slug) := by
  intro hn
  obtain ⟨r, hr, hreach⟩ := (onPlatform_iff hn).1 (onPlatform_profileUrl p slug)
  have hnetloc : r.netloc = [] := by
    have htext : link.text slug = '/' :: '/' :: linkRest link.host slug.text link.slashes link.params link.fragment := by
      rw [text, hstart]
      rfl
    rw [htext, withScheme_slash] at hr
    exact netloc_http https_mem (List.forall_mem_nil _) hr
  have hlower : uc.lower r.netloc = [] := by
    rw [hnetloc]
    rfl
  have hshim : linkTarget uc r = none := by
    refine if_neg fun hcond => ?_
    have hempty : [] = "l.facebook.com".toList := hlower.symm.trans hcond.1
    cases hempty
  rw [hshim] at hreach
  rcases hreach with ⟨hother | hhost, -⟩
  · have hne : [] ∉ p.otherHosts := by cases p <;> decide
    rw [hlower] at hother
    exact hne hother
  · have hnone : hostname uc r = none := by
      rw [hostname, hnetloc]
      rfl
    rw [hnone] at hhost
    cases hhost

theorem mapped_iff (link : RawLink p) (slug : ProfileSlug) :
    normalizeSocialUrl (cpython uc) (link.text slug) = some (profileUrl p slug) ↔ link.Plain uc := by
  classical
  by_cases hstart : link.start = .slashes
  · exact iff_of_false (link.not_profileUrl slug hstart) fun h => h.start hstart
  · have hsame : normalizeSocialUrl (cpython uc) (link.text slug) = some (profileUrl p slug) ↔
        ParamsEncode uc link.params ∧ HttpUrl.canonicalHost uc link.host = p.host := by
      rw [link.normalizeSocialUrl_text slug hstart, Option.ite_none_right_eq_some]
      apply and_congr_right
      intro _
      constructor
      · intro h
        exact List.append_cancel_right (List.append_cancel_left (Option.some.inj h))
      · intro h
        rw [h]
        rfl
    rw [hsame, link.canonicalHost]
    constructor
    · rintro ⟨henc, h⟩
      refine ⟨hstart, fun hwww => ?_, henc⟩
      rwa [if_pos hwww] at h
    · rintro ⟨-, h, henc⟩
      refine ⟨henc, ?_⟩
      split_ifs with hwww
      · exact h hwww
      · rfl

/-- The candidate of a plain link carries the profile's URL. -/
theorem normalizedUrl_candidate (link : RawLink p) (slug : ProfileSlug) (hplain : link.Plain uc) (source : Str)
    (confidence : Confidence) : (makeCandidate (cpython uc) p.name (link.text slug) source confidence).normalizedUrl =
      some (profileUrl p slug) := by
  simp only [makeCandidate]
  rw [(link.mapped_iff slug).2 hplain, Option.filter_some, isValidUrl_profileUrl]
  rfl

end RawLink

/-! ## Deduplication -/

section Duplicates

variable {lib : Stdlib} {settings : Settings} {url : Str}

theorem addUnique_seen {kept link : LinkCandidate} (hkept : kept.url = url) (h : normalizeSocialUrl lib link.url = some url) :
    addUnique lib [kept] link = [kept] := by
  simp [addUnique, h, hkept]

/-- The first of some links to one URL stands for all. -/
theorem deduplicateCandidates_same {link : LinkCandidate} {links : List LinkCandidate}
    (h : ∀ l ∈ link :: links, normalizeSocialUrl lib l.url = some url) :
    deduplicateCandidates lib (link :: links) = [⟨url, link.platform, link.source⟩] := by
  have hfold : ∀ kept : LinkCandidate, kept.url = url → links.foldl (addUnique lib) [kept] = [kept] := by
    intro kept hkept
    obtain ⟨-, hlinks⟩ := List.forall_mem_cons.1 h
    clear h
    induction links with
    | nil => rfl
    | cons l links ih =>
      obtain ⟨hl, hlinks⟩ := List.forall_mem_cons.1 hlinks
      rw [List.foldl_cons, addUnique_seen hkept hl]
      exact ih hlinks
  have hfirst : addUnique lib [] link = [⟨url, link.platform, link.source⟩] := by
    rw [addUnique, h link List.mem_cons_self]
    rfl
  rw [deduplicateCandidates, List.foldl_cons, hfirst]
  exact hfold _ rfl

/-- One of some candidates with one key is kept. -/
theorem deduplicate_same {candidates : List Candidate} (hne : candidates ≠ []) {key : Str × Str}
    (h : ∀ c ∈ candidates, c.usable ∧ c.key = key) (hscored : ∀ c ∈ candidates, (rankScore lib settings c).isSome) :
    ∃ c ∈ candidates, deduplicate lib settings candidates = some ([c], candidates.length - 1) := by
  obtain ⟨deduped, n, hdedup, -⟩ := deduplicate_isSome hscored
  obtain ⟨d, hfold, hdeduped⟩ := Option.map_eq_some_iff.1 hdedup
  have ht : d.Tracks lib settings candidates := Dedup.tracks_fold Dedup.tracks_nil hfold
  have hkeys : d.bestByKey.map (·.1) = [key] := by
    have hall : ∀ k ∈ d.bestByKey.map (·.1), k = key := by
      intro k hk
      obtain ⟨c, hc, -, rfl⟩ := ht.mem_keys.1 hk
      exact (h c hc).2
    have hnodup : (d.bestByKey.map (·.1)).Nodup := by
      rw [ht.keys]
      exact firsts_nodup _
    obtain ⟨c, hc⟩ := List.exists_mem_of_ne_nil candidates hne
    obtain ⟨hu, hkey⟩ := h c hc
    have hmem : key ∈ d.bestByKey.map (·.1) := ht.mem_keys.2 ⟨c, hc, hu, hkey⟩
    obtain ⟨n, hreplicate⟩ : ∃ n, d.bestByKey.map (·.1) = List.replicate n key := ⟨_, List.eq_replicate_of_mem hall⟩
    rw [hreplicate, List.nodup_replicate] at hnodup
    rw [hreplicate] at hmem ⊢
    have hn : n = 1 := by
      have hpos : n ≠ 0 := (List.mem_replicate.1 hmem).1
      omega
    rw [hn]
    rfl
  have hrest : d.unnormalizable = [] := by
    rw [ht.rest, List.filter_eq_nil_iff]
    intro c hc
    simp [(h c hc).1]
  obtain ⟨kv, hkv, -⟩ := List.map_eq_singleton_iff.1 hkeys
  have hcount := ht.count
  rw [hkv, hrest] at hcount
  have hduplicates : d.duplicateCount = candidates.length - 1 := by
    simp only [List.length_singleton, List.length_nil] at hcount
    omega
  have hkept : kv.2 ∈ d.bestByKey.values := by
    rw [hkv]
    exact List.mem_singleton_self _
  refine ⟨kv.2, (ht.mem_of_values hkept).1, ?_⟩
  rw [hdedup, ← hdeduped, hkv, hrest, hduplicates]
  rfl

end Duplicates

/-! ## One profile, one URL -/

/-- A link is mapped to the profile's one URL exactly if it is plain, and of plain links the deduplications keep one. -/
theorem same_profile_iff (uc : Unicode) (settings : Settings) (p : Platform) (slug : ProfileSlug) :
    (∀ link : RawLink p, normalizeSocialUrl (cpython uc) (link.text slug) = some (profileUrl p slug) ↔ link.Plain uc) ∧
    (∀ links : List LinkCandidate, links ≠ [] →
      (∀ l ∈ links, ∃ link : RawLink p, link.Plain uc ∧ l.url = link.text slug) →
      (deduplicateCandidates (cpython uc) links).map (·.url) = [profileUrl p slug]) ∧
    ∀ candidates : List Candidate, candidates ≠ [] →
      (∀ c ∈ candidates, ∃ (link : RawLink p) (source : Str) (confidence : Confidence), link.Plain uc ∧
        c = makeCandidate (cpython uc) p.name (link.text slug) source confidence) →
      ∃ c ∈ candidates, c.normalizedUrl = some (profileUrl p slug) ∧
        deduplicate (cpython uc) settings candidates = some ([c], candidates.length - 1) := by
  refine ⟨fun link => link.mapped_iff slug, ?_, ?_⟩
  · intro links hne hlinks
    obtain ⟨link, links, rfl⟩ := List.exists_cons_of_ne_nil hne
    have hsame : ∀ l ∈ link :: links, normalizeSocialUrl (cpython uc) l.url = some (profileUrl p slug) := by
      intro l hl
      obtain ⟨raw, hplain, hurl⟩ := hlinks l hl
      rw [hurl]
      exact (raw.mapped_iff slug).2 hplain
    rw [deduplicateCandidates_same hsame]
    rfl
  · intro candidates hne hcandidates
    have hurl : ∀ c ∈ candidates, c.platform = p.name ∧ c.normalizedUrl = some (profileUrl p slug) := by
      intro c hc
      obtain ⟨link, source, confidence, hplain, rfl⟩ := hcandidates c hc
      exact ⟨rfl, link.normalizedUrl_candidate slug hplain source confidence⟩
    have hkey : ∀ c ∈ candidates, c.usable ∧ c.key = (p.name, profileUrl p slug) := by
      intro c hc
      obtain ⟨hp, hn⟩ := hurl c hc
      rw [Candidate.usable, Candidate.key, hp, hn]
      exact ⟨rfl, rfl⟩
    have hscored : ∀ c ∈ candidates, (rankScore (cpython uc) settings c).isSome := by
      intro c hc
      obtain ⟨link, source, confidence, -, rfl⟩ := hcandidates c hc
      exact rankScore_makeCandidate _ _ _ _
    obtain ⟨c, hc, hdedup⟩ := deduplicate_same hne hkey hscored
    exact ⟨c, hc, (hurl c hc).2, hdedup⟩

def cafeSlug : ProfileSlug := ⟨"cafe".toList, by decide, forall_of_all rfl⟩

/-- Capital letters in front of the domain, and two slashes without a scheme. -/
def capitalLink : RawLink .instagram := ⟨.bare, "WWW.instagram.com".toList, 0, [], none, by decide, List.forall_mem_nil _⟩

def slashesLink : RawLink .instagram := ⟨.slashes, "instagram.com".toList, 0, [], none, by decide, List.forall_mem_nil _⟩

/-- The character of the parameter stands for a lone surrogate. -/
def surrogateLink : RawLink .instagram where
  start := .https
  host := "www.instagram.com".toList
  slashes := 0
  params := [("igsh".toList, [Char.ofNat 0x10FFFF])]
  fragment := none
  host_mem := by decide
  params_ok := by
    rw [List.forall_mem_singleton, TrackingKey]
    decide

theorem profile_forms_apart :
    normalizeSocialUrl (cpython .ascii) (capitalLink.text cafeSlug) = some "https://WWW.instagram.com/cafe".toList ∧
    normalizeSocialUrl (cpython .ascii) (slashesLink.text cafeSlug) = some "https:////instagram.com/cafe".toList ∧
    normalizeSocialUrl (cpython .ascii) (surrogateLink.text cafeSlug) = none ∧
    ¬ ∀ link : RawLink .instagram,
      normalizeSocialUrl (cpython .ascii) (link.text cafeSlug) = some (profileUrl .instagram cafeSlug) := by
  have hcapital : normalizeSocialUrl (cpython .ascii) (capitalLink.text cafeSlug) =
      some "https://WWW.instagram.com/cafe".toList := by decide +kernel
  have hslashes : normalizeSocialUrl (cpython .ascii) (slashesLink.text cafeSlug) =
      some "https:////instagram.com/cafe".toList := by decide +kernel
  have hsurrogate : normalizeSocialUrl (cpython .ascii) (surrogateLink.text cafeSlug) = none := by decide +kernel
  refine ⟨hcapital, hslashes, hsurrogate, fun h => ?_⟩
  have hsame := Option.some.inj (hcapital.symm.trans (h capitalLink))
  exact absurd hsame (by decide)

end SocialScraper
