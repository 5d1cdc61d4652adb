import SocialScraper.Urllib.HttpUrl
/-!
# The query part of a text

However a text is parsed, its query is what stands between the first question
mark and the number sign, so it only gets shorter from one parse to the next.
-/

namespace SocialScraper

def queryOf (s : Str) : Str := (partition '?' (partition '#' s).1).2

theorem partition_append_of_not_mem {sep : Char} {a : Str} (h : sep ∉ a) (s : Str) :
    partition sep (a ++ s) = (a ++ (partition sep s).1, (partition sep s).2) := by
  have hne : ∀ c ∈ a, (c != sep) = true := fun c hc => bne_iff_ne.2 fun he => h (he ▸ hc)
  simp [partition, List.takeWhile_append_of_pos hne, List.dropWhile_append_of_pos hne]

/-- Neither a question mark nor a number sign. -/
def plain (c : Char) : Bool := c != '?' && c != '#'

theorem not_mem_of_plain {s : Str} (h : ∀ c ∈ s, plain c = true) : '?' ∉ s ∧ '#' ∉ s :=
  ⟨fun hc => absurd (h _ hc) (by decide), fun hc => absurd (h _ hc) (by decide)⟩

theorem queryOf_append {a : Str} (h : ∀ c ∈ a, plain c = true) (s : Str) : queryOf (a ++ s) = queryOf s := by
  obtain ⟨hq, hf⟩ := not_mem_of_plain h
  rw [queryOf, partition_append_of_not_mem hf, partition_append_of_not_mem hq]
  rfl

theorem partition_snd_length (sep : Char) {s : Str} (h : s ≠ []) : (partition sep s).2.length < s.length := by
  have hdrop := (List.dropWhile_sublist (l := s) (· != sep)).length_le
  have hpos := List.length_pos_of_ne_nil h
  simp only [partition, List.length_drop]
  omega

theorem partition_cons (sep c : Char) (s : Str) :
    partition sep (c :: s) = if c = sep then ([], s) else (c :: (partition sep s).1, (partition sep s).2) := by
  by_cases hc : c = sep <;> simp [partition, hc]

theorem partition_initial {sep : Char} {s t : Str} (h : s <+: t) :
    (partition sep s).1 <+: (partition sep t).1 ∧ (partition sep s).2.length ≤ (partition sep t).2.length := by
  obtain ⟨u, rfl⟩ := h
  induction s with
  | nil => exact ⟨List.nil_prefix, Nat.zero_le _⟩
  | cons c s ih =>
    rw [List.cons_append, partition_cons, partition_cons]
    split_ifs
    · exact ⟨List.prefix_refl _, by simp⟩
    · exact ⟨(List.prefix_cons_inj c).2 ih.1, ih.2⟩

theorem queryOf_initial {s t : Str} (h : s <+: t) : (queryOf s).length ≤ (queryOf t).length :=
  (partition_initial (partition_initial h).1).2

/-- A text is longer than its query. -/
theorem queryOf_length {s : Str} (h : s ≠ []) : (queryOf s).length < s.length := by
  have hfst : (partition '#' s).1.length ≤ s.length := (List.takeWhile_sublist _).length_le
  by_cases hnil : (partition '#' s).1 = []
  · rw [queryOf, hnil]
    exact List.length_pos_of_ne_nil h
  · exact (partition_snd_length '?' hnil).trans_le hfst

theorem partition_filter {sep : Char} {p : Char → Bool} (hp : p sep = true) (s : Str) :
    partition sep (s.filter p) = ((partition sep s).1.filter p, (partition sep s).2.filter p) := by
  induction s with
  | nil => rfl
  | cons c s ih =>
    by_cases hc : c = sep
    · subst hc
      simp [hp, partition_cons]
    · cases hpc : p c with
      | true => simp [hpc, partition_cons, hc, ih]
      | false => simp [hpc, partition_cons, hc, ih]

/-! ## Parsing and writing -/

variable {uc : Unicode}

theorem plain_of_schemeChar {c : Char} (h : schemeChar c = true) : plain c = true ∧ plain c.toLower = true :=
  forall_schemeChar (P := fun c => plain c = true ∧ plain c.toLower = true) (by decide) h

theorem splitScheme_spec (url : Str) : ∃ a : Str, (∀ c ∈ a, plain c = true) ∧ url = a ++ (splitScheme url).2 ∧
    ∀ c ∈ (splitScheme url).1, plain c = true := by
  unfold splitScheme
  dsimp only
  split_ifs with h
  · simp only [Bool.and_eq_true, List.contains_iff_mem] at h
    obtain ⟨⟨hcolon, -⟩, hall⟩ := h
    have hscheme : ∀ c ∈ (partition ':' url).1, schemeChar c = true := List.all_eq_true.1 hall
    refine ⟨(partition ':' url).1 ++ [':'], ?_, ?_, ?_⟩
    · intro c hc
      rcases List.mem_append.1 hc with hc | hc
      · exact (plain_of_schemeChar (hscheme c hc)).1
      · rw [List.mem_singleton.1 hc]
        rfl
    · obtain ⟨a, b, hab⟩ := List.append_of_mem hcolon
      rcases partition_spec ':' url with hs | ⟨hs, hnil⟩
      · by_cases hrest : (partition ':' url).2 = []
        · rw [hrest, behind_nil, List.append_nil] at hs
          rw [hs] at hcolon
          exact absurd rfl (mem_partition_fst hcolon).1
        · rw [behind, if_neg hrest] at hs
          simpa using hs
      · rw [hnil, List.append_nil]
        exact hs
    · intro c hc
      obtain ⟨d, hd, rfl⟩ := List.mem_map.1 hc
      exact (plain_of_schemeChar (hscheme d hd)).2
  · exact ⟨[], by simp, rfl, by simp⟩

theorem plain_of_not_netlocEnd {c : Char} (h : netlocEnd c = false) : plain c = true := by
  simp only [netlocEnd, List.contains_eq_mem, List.mem_cons, List.not_mem_nil, or_false, decide_eq_false_iff_not, not_or] at h
  simp [plain, h.2.1, h.2.2]

theorem splitNetloc_spec {url : Str} {r : Str × Str} (h : splitNetloc url = some r) :
    ∃ a : Str, (∀ c ∈ a, plain c = true) ∧ url = a ++ r.2 ∧ ∀ c ∈ r.1, plain c = true := by
  unfold splitNetloc at h
  split_ifs at h with hslashes
  · dsimp only at h
    split_ifs at h
    obtain rfl := Option.some.inj h
    have hnetloc : ∀ c ∈ (url.drop 2).takeWhile (!netlocEnd ·), plain c = true := by
      intro c hc
      exact plain_of_not_netlocEnd (by simpa using List.mem_takeWhile_imp hc)
    refine ⟨"//".toList ++ (url.drop 2).takeWhile (!netlocEnd ·), ?_, ?_, hnetloc⟩
    · intro c hc
      rcases List.mem_append.1 hc with hc | hc
      · have hslash : ∀ c ∈ "//".toList, plain c = true := forall_of_all rfl
        exact hslash c hc
      · exact hnetloc c hc
    · obtain ⟨t, rfl⟩ := List.isPrefixOf_iff_prefix.1 hslashes
      rw [List.append_assoc]
      congr 1
      exact (List.takeWhile_append_dropWhile).symm
  · obtain rfl := Option.some.inj h
    exact ⟨[], by simp, rfl, by simp⟩

/-- What is parsed as the query is the query part, but for characters that are removed. -/
theorem urlsplit_spec {s : Str} {r : SplitResult} (h : urlsplit uc s = some r) :
    r.query.length ≤ (queryOf s).length ∧ (∀ c ∈ r.scheme, plain c = true) ∧ (∀ c ∈ r.netloc, plain c = true) ∧
      (∀ c ∈ r.path, plain c = true) ∧ '#' ∉ r.query := by
  unfold urlsplit at h
  dsimp only at h
  generalize ht : (s.dropWhile (·.toNat ≤ 0x20)).filter (!unsafeByte ·) = t at h
  obtain ⟨⟨netloc, url⟩, hnetloc, h⟩ := Option.bind_eq_some_iff.1 h
  dsimp only at h
  split_ifs at h
  obtain rfl := Option.some.inj h
  obtain ⟨a, ha, hscheme, hschemeChars⟩ := splitScheme_spec t
  obtain ⟨b, hb, hurl, hnetlocChars⟩ := splitNetloc_spec hnetloc
  dsimp only at hurl hnetlocChars
  refine ⟨?_, hschemeChars, hnetlocChars, ?_, ?_⟩
  · have hstart : ∀ c ∈ s.takeWhile (·.toNat ≤ 0x20), plain c = true := by
      intro c hc
      have hle := List.mem_takeWhile_imp hc
      have hne : ∀ d : Char, plain d = false → ¬ d.toNat ≤ 0x20 := by
        intro d hd
        simp only [plain, Bool.and_eq_false_iff, bne_eq_false_iff_eq] at hd
        rcases hd with rfl | rfl <;> decide
      cases hp : plain c with
      | true => rfl
      | false => exact absurd (of_decide_eq_true hle) (hne c hp)
    calc (queryOf url).length = (queryOf t).length := by
          rw [hscheme, queryOf_append ha, hurl, queryOf_append hb]
      _ = ((queryOf (s.dropWhile (·.toNat ≤ 0x20))).filter (!unsafeByte ·)).length := by
          rw [← ht, queryOf, partition_filter rfl, partition_filter rfl]
          rfl
      _ ≤ (queryOf (s.dropWhile (·.toNat ≤ 0x20))).length := List.length_filter_le _ _
      _ = (queryOf s).length := by
          conv_rhs => rw [← List.takeWhile_append_dropWhile (p := (·.toNat ≤ 0x20)) (l := s), queryOf_append hstart]
  · intro c hc
    obtain ⟨hq, hc⟩ := mem_partition_fst hc
    have hf := (mem_partition_fst hc).1
    simp [plain, hq, hf]
  · intro hc
    exact (mem_partition_fst (mem_partition_snd hc)).1 rfl

theorem urlparse_spec {s : Str} {r : ParseResult} (h : urlparse uc s = some r) :
    r.query.length ≤ (queryOf s).length ∧ (∀ c ∈ r.scheme, plain c = true) ∧ (∀ c ∈ r.netloc, plain c = true) ∧
      (∀ c ∈ r.path ++ behind ';' r.params, plain c = true) ∧ '#' ∉ r.query := by
  obtain ⟨split, hsplit, rfl⟩ := Option.map_eq_some_iff.1 h
  obtain ⟨hquery, hscheme, hnetloc, hpath, hfragment⟩ := urlsplit_spec hsplit
  refine ⟨hquery, hscheme, hnetloc, ?_, hfragment⟩
  intro c hc
  dsimp only at hc
  split_ifs at hc
  · rcases splitParams_spec split.path with hs | ⟨hs, ha⟩
    · exact hpath c (hs ▸ hc)
    · rw [ha, behind_nil, List.append_nil] at hc
      exact hpath c (hs ▸ List.mem_append_left _ hc)
  · simpa using hpath c (by simpa using hc)

/-- The query of a text that is written from its parts. -/
theorem queryOf_urlunparse {r : ParseResult} (hs : ∀ c ∈ r.scheme, plain c = true) (hn : ∀ c ∈ r.netloc, plain c = true)
    (hp : ∀ c ∈ r.path ++ behind ';' r.params, plain c = true) (hq : '#' ∉ r.query) :
    queryOf (urlunparse r) = r.query := by
  have hrooted : ∀ c ∈ rooted (r.path ++ behind ';' r.params), plain c = true := by
    intro c hc
    rcases mem_rooted hc with rfl | hc
    · rfl
    · exact hp c hc
  have hslashes : ∀ c ∈ "//".toList, plain c = true := forall_of_all rfl
  have hfront : ∃ a : Str, (∀ c ∈ a, plain c = true) ∧
      urlunparse r = a ++ (behind '?' r.query ++ behind '#' r.fragment) := by
    unfold urlunparse urlunsplit
    dsimp only
    generalize hbody : (if (r.netloc != [] || (r.scheme != [] && usesNetloc.contains r.scheme) ||
      "//".toList.isPrefixOf (r.path ++ behind ';' r.params)) = true then
        "//".toList ++ r.netloc ++ rooted (r.path ++ behind ';' r.params) else r.path ++ behind ';' r.params) = body
    have hplain : ∀ c ∈ body, plain c = true := by
      rw [← hbody]
      intro c hc
      split_ifs at hc
      · rcases List.mem_append.1 hc with hc | hc
        · exact (List.mem_append.1 hc).elim (hslashes c) (hn c)
        · exact hrooted c hc
      · exact hp c hc
    split_ifs
    · exact ⟨body, hplain, List.append_assoc _ _ _⟩
    · refine ⟨r.scheme ++ ':' :: body, ?_, List.append_assoc _ _ _⟩
      intro c hc
      rcases List.mem_append.1 hc with hc | hc
      · exact hs c hc
      · rcases List.mem_cons.1 hc with rfl | hc
        · rfl
        · exact hplain c hc
  obtain ⟨a, ha, heq⟩ := hfront
  have hfragment : '#' ∉ behind '?' r.query := by
    intro hc
    rcases mem_behind hc with hc | hc
    · exact absurd hc (by decide)
    · exact hq hc
  rw [heq, queryOf_append ha, queryOf, partition_behind hfragment]
  exact congrArg Prod.snd (partition_behind (a := []) (by simp) r.query)

end SocialScraper
