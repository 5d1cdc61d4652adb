import SocialScraper.NormalForms
/-!
# The parameters of a business URL

`normalize_business_url` decodes the query with `parse_qsl` and its default
options, so it drops more than the tracking parameters: a parameter without a
value goes, too (`business_params_iff`).
-/

namespace SocialScraper

/-! ## Blank values -/

/-- `parse_qsl` with `keep_blank_values=True`. -/
def parseQslKeepingBlank (qs : Str) : List (Str × Str) :=
  if qs = [] then []
  else (qs.splitOn '&').filterMap fun nameValue =>
    if nameValue = [] then none
    else some (unquotePlus (partition '=' nameValue).1, unquotePlus (partition '=' nameValue).2)

/-- The default options drop the blank values. -/
theorem parseQsl_eq_filter (qs : Str) : parseQsl qs = (parseQslKeepingBlank qs).filter fun kv => kv.2 ≠ [] := by
  unfold parseQsl parseQslKeepingBlank
  split_ifs
  · rfl
  · rw [List.filter_filterMap]
    apply List.filterMap_congr
    intro field _
    unfold parseField
    dsimp only
    by_cases hf : field = []
    · subst hf
      rfl
    · rw [if_neg hf]
      by_cases hv : (partition '=' field).2 = []
      · rw [if_pos hv, hv]
        rfl
      · rw [if_neg hv, Option.filter_some, if_pos (by simpa using unquotePlus_ne_nil hv)]

/-- What `urlencode` writes is read back whole, if blank values are kept. -/
theorem parseQslKeepingBlank_queryText (l : List (Str × Str)) : parseQslKeepingBlank (queryText l) = l := by
  by_cases hl : l = []
  · subst hl
    rfl
  · have hfield : ∀ kv ∈ l, (fun field => if field = [] then none
        else some (unquotePlus (partition '=' field).1, unquotePlus (partition '=' field).2)) (quoteField kv) = some kv := by
      intro kv _
      have hk : '=' ∉ quotePlus kv.1 := fun hc => absurd (quoted_of_mem hc) (by decide)
      have hne : quoteField kv ≠ [] := by simp [quoteField]
      dsimp only
      rw [if_neg hne, quoteField, partition_append hk, unquotePlus_quotePlus, unquotePlus_quotePlus]
    rw [parseQslKeepingBlank, if_neg (queryText_ne_nil hl), splitOn_queryText hl, List.filterMap_map]
    exact (List.filterMap_congr hfield).trans List.filterMap_some

/-! ## What is kept -/

variable {uc : Unicode}

/-- Filtering by the key makes up for the blank values only where they go anyway. -/
theorem filter_nonblank_iff (l : List (Str × Str)) (q : Str × Str → Bool) :
    (l.filter fun kv => kv.2 ≠ []).filter q = l.filter q ↔ ∀ kv ∈ l, kv.2 = [] → q kv = false := by
  rw [List.filter_comm, List.filter_eq_self]
  constructor
  · intro h kv hkv hblank
    apply eq_false_of_ne_true
    intro hq
    exact of_decide_eq_true (h kv (List.mem_filter.2 ⟨hkv, hq⟩)) hblank
  · intro h kv hkv
    obtain ⟨hmem, hq⟩ := List.mem_filter.1 hkv
    apply decide_eq_true
    intro hblank
    rw [h kv hmem hblank] at hq
    cases hq

variable (uc) in
/-- The host of a business URL stays, and exactly its tracking parameters go, if and only if no other parameter is
without a value. -/
theorem business_params_iff (u v : Str) (hv : normalizeBusinessUrl (cpython uc) u = some v) :
    ∃ m before after, normalizeUrl (cpython uc) u = some m ∧ urlparse uc m = some before ∧ urlparse uc v = some after ∧
      ((parseQslKeepingBlank after.query =
            (parseQslKeepingBlank before.query).filter (fun kv => uc.lower kv.1 ∉ trackingParams) ∧
          hostname uc after = hostname uc before) ↔
        ∀ kv ∈ parseQslKeepingBlank before.query, kv.2 = [] → uc.lower kv.1 ∈ trackingParams) := by
  obtain ⟨m, hm, hstrip⟩ := Option.bind_eq_some_iff.1 hv
  rcases HttpUrl.normalizeUrl_spec hm with ⟨-, rfl⟩ | ⟨w, -, -, -, rfl⟩
  · rw [HttpUrl.stripParams_nil] at hstrip
    obtain rfl := Option.some.inj hstrip
    exact ⟨[], _, _, hm, HttpUrl.urlparse_nil, HttpUrl.urlparse_nil, iff_of_true ⟨rfl, rfl⟩ nofun⟩
  · obtain ⟨-, rfl⟩ := HttpUrl.stripParams_some hstrip
    refine ⟨_, _, _, hm, HttpUrl.urlparse_text _, HttpUrl.urlparse_text _, ?_⟩
    have hnetloc : (w.trimmed.rejoined.withQuery (HttpUrl.kept uc trackingParams (parseQsl w.trimmed.query))).parts.netloc =
        w.trimmed.parts.netloc := by
      simp only [HttpUrl.parts, HttpUrl.withQuery, HttpUrl.rejoined_netloc]
    have hhost : hostname uc _ = hostname uc _ := hostname_congr hnetloc
    rw [and_iff_left hhost]
    show parseQslKeepingBlank (queryText (HttpUrl.kept uc trackingParams (parseQsl w.trimmed.query))) =
      (parseQslKeepingBlank w.trimmed.query).filter _ ↔ ∀ kv ∈ parseQslKeepingBlank w.trimmed.query, _
    rw [parseQslKeepingBlank_queryText, HttpUrl.kept_eq, parseQsl_eq_filter, filter_nonblank_iff]
    simp only [decide_eq_false_iff_not, not_not]

theorem business_params_page : ∃ m before after,
    normalizeUrl (cpython .ascii) "example.com/page?utm_source=fb&id=1".toList = some m ∧
    urlparse .ascii m = some before ∧ urlparse .ascii "https://example.com/page?id=1".toList = some after ∧
    ((parseQslKeepingBlank after.query =
          (parseQslKeepingBlank before.query).filter (fun kv => Unicode.ascii.lower kv.1 ∉ trackingParams) ∧
        hostname .ascii after = hostname .ascii before) ↔
      ∀ kv ∈ parseQslKeepingBlank before.query, kv.2 = [] → Unicode.ascii.lower kv.1 ∈ trackingParams) :=
  business_params_iff .ascii "example.com/page?utm_source=fb&id=1".toList _ (by decide +kernel)

/-- A parameter without a value is lost. -/
theorem contact_lost :
    normalizeUrl (cpython .ascii) "https://example.com/?contact".toList = some "https://example.com?contact".toList ∧
    normalizeBusinessUrl (cpython .ascii) "https://example.com/?contact".toList = some "https://example.com".toList ∧
    (urlparse .ascii "https://example.com".toList).map (parseQslKeepingBlank ·.query) = some [] ∧
    (urlparse .ascii "https://example.com?contact".toList).map (fun r => (parseQslKeepingBlank r.query).filter
      (fun kv => Unicode.ascii.lower kv.1 ∉ trackingParams)) = some [("contact".toList, [])] := by
  decide +kernel

end SocialScraper
