import SocialScraper.Social.LinkExtractor
import SocialScraper.Urllib.HttpUrl
/-!
# What a canonical slug says of its URL

`canonical_slug` recognises the URL of a profile by a pattern, or by a prefix
with anything behind it. The slug determines the URL exactly where nothing but
the identifier stands behind the prefix, and no newline behind the pattern
(`canonical_slug_iff`).
-/

namespace SocialScraper

/-! ## Profile URLs -/

/-- The part of a canonical URL in front of the slug. -/
def Platform.base : Platform → Str
  | .instagram => "https://www.instagram.com/".toList
  | .facebook => "https://www.facebook.com/".toList

/-- The part of a Facebook URL in front of the identifier. -/
def profilePage : Str := "https://www.facebook.com/profile.php?id=".toList

/-- The characters that end a segment or a parameter. -/
def slugBreak (c : Char) : Bool := ['/', '?', '&', '=', '#'].contains c

def Platform.slugChar : Platform → Char → Bool
  | .instagram => fun c => c.isAlphanum || c == '_' || c == '.'
  | .facebook => fun c => c.isAlphanum || c == '.' || c == '-'

def Platform.maxSlug : Platform → ℕ
  | .instagram => 30
  | .facebook => 100

variable (lib : Stdlib)

/-- The slugs of the platform's pattern. -/
def IsSlug (p : Platform) (s : Str) : Prop :=
  (∀ c ∈ s, p.slugChar c = true) ∧ 1 ≤ s.length ∧ s.length ≤ p.maxSlug ∧
    (p = .facebook → lib.lower s ∉ facebookNonProfileSlugs)

/-- The URL is that of the slug's profile, up to a slash at its end. -/
def ProfileUrl (p : Platform) (s url : Str) : Prop :=
  (url = p.base ++ s ∨ url = p.base ++ (s ++ ['/'])) ∨
    p = .facebook ∧ (url = profilePage ++ s ∨ url = profilePage ++ (s ++ ['/']))

/-- The slug determines the profile. -/
def Determines (p : Platform) (s url : Str) : Prop := s ≠ [] ∧ (∀ c ∈ s, slugBreak c = false) ∧ ProfileUrl p s url

/-- Behind the prefix of an identifier there is nothing else, and no newline is behind a slug. -/
def Proper (p : Platform) (url : Str) : Prop :=
  if p = .facebook ∧ profilePage.isPrefixOf url then
    url.drop profilePage.length ≠ [] ∧ ∀ c ∈ url.drop profilePage.length, slugBreak c = false
  else ∀ s, IsSlug lib p s → url ≠ p.base ++ (s ++ ['\n']) ∧ url ≠ p.base ++ (s ++ ['/', '\n'])

/-! ## The patterns -/

/-- A slug, and what may stand behind it. -/
theorem slugMatch_iff {start : Str} {chars : Char → Bool} {max : ℕ} (hslash : chars '/' = false) (hline : chars '\n' = false)
    {url s : Str} : slugMatch start chars max url = some s ↔
      (∀ c ∈ s, chars c = true) ∧ 1 ≤ s.length ∧ s.length ≤ max ∧
        ∃ tail ∈ [[], ['/'], ['\n'], ['/', '\n']], url = start ++ (s ++ tail) := by
  unfold slugMatch
  constructor
  · intro h
    split_ifs at h with hstart
    obtain ⟨rest, rfl⟩ := List.isPrefixOf_iff_prefix.1 hstart
    rw [List.drop_left] at h
    dsimp only at h
    split_ifs at h with hmatch
    obtain rfl := Option.some.inj h
    refine ⟨fun c hc => List.mem_takeWhile_imp hc, hmatch.1, hmatch.2.1, _, List.contains_iff_mem.1 hmatch.2.2, ?_⟩
    rw [List.takeWhile_append_dropWhile]
  · rintro ⟨hall, hmin, hmax, tail, htail, rfl⟩
    have hhead : ∀ c ∈ tail.head?, chars c = false := by
      simp only [List.mem_cons, List.not_mem_nil, or_false] at htail
      rcases htail with rfl | rfl | rfl | rfl <;> simp [hslash, hline]
    have hspan := span_append hall hhead
    rw [if_pos (List.isPrefixOf_iff_prefix.2 (List.prefix_append _ _)), List.drop_left]
    simp only [hspan.1, hspan.2]
    rw [if_pos ⟨hmin, hmax, List.contains_iff_mem.2 htail⟩]

theorem slugChar_break {p : Platform} {c : Char} (h : p.slugChar c = true) : slugBreak c = false := by
  apply eq_false_of_ne_true
  intro hbreak
  have hnone : ['/', '?', '&', '=', '#'].all (!p.slugChar ·) = true := by cases p <;> decide
  have hc := forall_of_all hnone c (List.contains_iff_mem.1 hbreak)
  rw [h] at hc
  cases hc

variable {lib}

/-- Off the profile page, the slug is read by the pattern of the platform. -/
theorem canonicalSlug_pattern {p : Platform} {url : Str} (h : ¬ (p = .facebook ∧ profilePage.isPrefixOf url)) {s : Str} :
    canonicalSlug lib url p.name = some s ↔
      IsSlug lib p s ∧ ∃ tail ∈ [[], ['/'], ['\n'], ['/', '\n']], url = p.base ++ (s ++ tail) := by
  cases p with
  | instagram =>
    have hre : canonicalSlug lib url Platform.instagram.name = slugMatch Platform.instagram.base
        Platform.instagram.slugChar Platform.instagram.maxSlug url := if_pos rfl
    rw [hre, slugMatch_iff (by decide) (by decide)]
    constructor
    · rintro ⟨hall, hmin, hmax, htail⟩
      exact ⟨⟨hall, hmin, hmax, nofun⟩, htail⟩
    · rintro ⟨⟨hall, hmin, hmax, -⟩, htail⟩
      exact ⟨hall, hmin, hmax, htail⟩
  | facebook =>
    have hpage : ¬ "https://www.facebook.com/profile.php?id=".toList.isPrefixOf url := fun hp => h ⟨rfl, hp⟩
    have hre : canonicalSlug lib url Platform.facebook.name =
        (slugMatch Platform.facebook.base Platform.facebook.slugChar Platform.facebook.maxSlug url).bind fun slug =>
          if facebookNonProfileSlugs.contains (lib.lower slug) then none else some slug := by
      have hname : Platform.facebook.name = "facebook".toList := rfl
      have hmatch : canonicalFacebookRe url =
          slugMatch Platform.facebook.base Platform.facebook.slugChar Platform.facebook.maxSlug url := rfl
      unfold canonicalSlug
      rw [if_neg (by decide), if_pos hname, if_neg hpage, hmatch]
      cases slugMatch Platform.facebook.base Platform.facebook.slugChar Platform.facebook.maxSlug url <;> rfl
    rw [hre]
    constructor
    · intro hs
      obtain ⟨slug, hm, hs⟩ := Option.bind_eq_some_iff.1 hs
      split_ifs at hs with hn
      obtain rfl := Option.some.inj hs
      obtain ⟨hall, hmin, hmax, htail⟩ := (slugMatch_iff (by decide) (by decide)).1 hm
      exact ⟨⟨hall, hmin, hmax, fun _ hmem => hn (List.contains_iff_mem.2 hmem)⟩, htail⟩
    · rintro ⟨⟨hall, hmin, hmax, hn⟩, htail⟩
      have hm := (slugMatch_iff (by decide) (by decide)).2 ⟨hall, hmin, hmax, htail⟩
      rw [hm, Option.bind_some]
      exact if_neg fun hc => hn rfl (List.contains_iff_mem.1 hc)

/-! ## The profile page -/

theorem afterLast_none {s : Str} (h : '=' ∉ s) : afterLast "id=".toList s = none := by
  induction s with
  | nil => rfl
  | cons c s ih =>
    rw [afterLast, ih fun hs => h (List.mem_cons_of_mem c hs)]
    refine if_neg fun hp => h ?_
    obtain ⟨t, ht⟩ := List.isPrefixOf_iff_prefix.1 hp
    rw [← ht]
    simp

theorem afterLast_id (a : Str) {b : Str} (h : '=' ∉ b) : afterLast "id=".toList (a ++ ("id=".toList ++ b)) = some b := by
  induction a with
  | nil =>
    have hnone : afterLast ['i', 'd', '='] b = none := afterLast_none h
    show afterLast ['i', 'd', '='] ('i' :: 'd' :: '=' :: b) = some b
    simp [afterLast, hnone]
  | cons c a ih => rw [List.cons_append, afterLast, ih]

variable (lib) in
theorem canonicalSlug_page (tail : Str) : canonicalSlug lib (profilePage ++ tail) Platform.facebook.name =
    some ((afterLast "id=".toList (profilePage ++ tail)).getD (profilePage ++ tail)) := by
  have hname : Platform.facebook.name = "facebook".toList := rfl
  have hpage : "https://www.facebook.com/profile.php?id=".toList.isPrefixOf (profilePage ++ tail) = true :=
    List.isPrefixOf_iff_prefix.2 ⟨tail, rfl⟩
  unfold canonicalSlug
  rw [if_neg (by decide), if_pos hname, if_pos hpage]

theorem canonicalSlug_id {tail : Str} (h : '=' ∉ tail) :
    canonicalSlug lib (profilePage ++ tail) Platform.facebook.name = some tail := by
  have hsplit : profilePage ++ tail = "https://www.facebook.com/profile.php?".toList ++ ("id=".toList ++ tail) := by
    rw [← List.append_assoc]
    exact congrArg (· ++ tail) (by decide : profilePage = "https://www.facebook.com/profile.php?".toList ++ "id=".toList)
  rw [canonicalSlug_page, hsplit, afterLast_id _ h, Option.getD_some]

theorem not_mem_of_break {s : Str} (h : ∀ c ∈ s, slugBreak c = false) {c : Char} (hc : slugBreak c = true) : c ∉ s :=
  fun hs => absurd (h c hs) (by simp [hc])

variable (lib) in
/-- The identifier of a profile page determines it exactly if there is one and nothing else. -/
theorem determines_page (tail : Str) :
    (∀ s, canonicalSlug lib (profilePage ++ tail) Platform.facebook.name = some s →
        Determines .facebook s (profilePage ++ tail)) ↔
      tail ≠ [] ∧ ∀ c ∈ tail, slugBreak c = false := by
  constructor
  · intro h
    have hslug := canonicalSlug_page lib tail
    generalize (afterLast "id=".toList (profilePage ++ tail)).getD (profilePage ++ tail) = s at hslug
    obtain ⟨hne, hclean, hurl⟩ := h s hslug
    -- The URL is no profile of the short form, for the question mark.
    have hmark : ∀ s : Str, '?' ∉ s → profilePage ++ tail ≠ Platform.facebook.base ++ s := by
      intro s hs he
      have hpage : profilePage = Platform.facebook.base ++ "profile.php?id=".toList := by decide
      rw [hpage, List.append_assoc] at he
      rw [← List.append_cancel_left he] at hs
      exact hs (by simp)
    have hq := not_mem_of_break hclean (c := '?') rfl
    rcases hurl with (he | he) | ⟨-, he | he⟩
    · exact absurd he (hmark s hq)
    · exact absurd he (hmark _ (by simp [hq]))
    · rw [List.append_cancel_left he]
      exact ⟨hne, hclean⟩
    · have htail := List.append_cancel_left he
      have heq : '=' ∉ tail := by
        rw [htail]
        simp [not_mem_of_break hclean (c := '=') rfl]
      have hs := Option.some.inj (hslug.symm.trans (canonicalSlug_id heq))
      have hlen := congrArg List.length (hs.trans htail)
      simp at hlen
  · rintro ⟨hne, hclean⟩ s hs
    rw [canonicalSlug_id (not_mem_of_break hclean rfl)] at hs
    obtain rfl := Option.some.inj hs
    exact ⟨hne, hclean, .inr ⟨rfl, .inl rfl⟩⟩

/-! ## The result -/

theorem drop_page {url : Str} (h : profilePage.isPrefixOf url) : profilePage ++ url.drop profilePage.length = url := by
  obtain ⟨tail, rfl⟩ := List.isPrefixOf_iff_prefix.1 h
  rw [List.drop_left]

/-- Off the profile page, the slug determines the URL exactly if no newline is behind it. -/
theorem determines_pattern {p : Platform} {url : Str} (h : ¬ (p = .facebook ∧ profilePage.isPrefixOf url)) :
    (∀ s, canonicalSlug lib url p.name = some s → Determines p s url) ↔
      ∀ s, IsSlug lib p s → url ≠ p.base ++ (s ++ ['\n']) ∧ url ≠ p.base ++ (s ++ ['/', '\n']) := by
  constructor
  · intro hall s hs
    have hbad : ∀ tail ∈ [['\n'], ['/', '\n']], url ≠ p.base ++ (s ++ tail) := by
      intro tail htail hurl
      have hmem : tail ∈ [[], ['/'], ['\n'], ['/', '\n']] := by
        simp only [List.mem_cons, List.not_mem_nil, or_false] at htail ⊢
        exact .inr (.inr htail)
      obtain ⟨-, -, hprofile⟩ := hall s ((canonicalSlug_pattern h).2 ⟨hs, tail, hmem, hurl⟩)
      rcases hprofile with (he | he) | ⟨rfl, he | he⟩
      · have htail' := List.append_cancel_left (hurl.symm.trans he)
        simp only [List.mem_cons, List.not_mem_nil, or_false] at htail
        rcases htail with rfl | rfl <;> simp at htail'
      · have htail' := List.append_cancel_left (List.append_cancel_left (hurl.symm.trans he))
        simp only [List.mem_cons, List.not_mem_nil, or_false] at htail
        rcases htail with rfl | rfl <;> simp at htail'
      · exact h ⟨rfl, List.isPrefixOf_iff_prefix.2 ⟨_, he.symm⟩⟩
      · exact h ⟨rfl, List.isPrefixOf_iff_prefix.2 ⟨_, he.symm⟩⟩
    exact ⟨hbad _ (by simp), hbad _ (by simp)⟩
  · intro hall s hs
    obtain ⟨hslug, tail, htail, hurl⟩ := (canonicalSlug_pattern h).1 hs
    refine ⟨List.ne_nil_of_length_pos hslug.2.1, fun c hc => slugChar_break (hslug.1 c hc), .inl ?_⟩
    simp only [List.mem_cons, List.not_mem_nil, or_false] at htail
    rcases htail with rfl | rfl | rfl | rfl
    · left
      rw [hurl, List.append_nil]
    · exact .inr hurl
    · exact absurd hurl (hall s hslug).1
    · exact absurd hurl (hall s hslug).2

variable (lib) in
/-- The slug determines the profile exactly of the proper URLs; two proper profile pages with one slug are one URL. -/
theorem canonical_slug_iff :
    (∀ (p : Platform) (url : Str),
      (∀ s, canonicalSlug lib url p.name = some s → Determines p s url) ↔ Proper lib p url) ∧
    ∀ url url', profilePage.isPrefixOf url → profilePage.isPrefixOf url' → Proper lib .facebook url →
      Proper lib .facebook url' →
      canonicalSlug lib url Platform.facebook.name = canonicalSlug lib url' Platform.facebook.name → url = url' := by
  constructor
  · intro p url
    unfold Proper
    split_ifs with h
    · obtain ⟨rfl, hpage⟩ := h
      rw [← determines_page lib, drop_page hpage]
    · exact determines_pattern h
  · intro url url' hpage hpage' hproper hproper' heq
    rw [Proper, if_pos ⟨rfl, hpage⟩] at hproper
    rw [Proper, if_pos ⟨rfl, hpage'⟩] at hproper'
    rw [← drop_page hpage, ← drop_page hpage', canonicalSlug_id (not_mem_of_break hproper.2 rfl),
      canonicalSlug_id (not_mem_of_break hproper'.2 rfl)] at heq
    rw [← drop_page hpage, ← drop_page hpage', Option.some.inj heq]

/-- Two profile pages with other parameters have the same slug, and a newline behind a slug is not seen. -/
theorem slug_of_parameters : (let lib := Stdlib.plain
    canonicalSlug lib "https://www.facebook.com/profile.php?id=1&id=2".toList "facebook".toList = some ['2'] ∧
    canonicalSlug lib "https://www.facebook.com/profile.php?id=3&id=2".toList "facebook".toList = some ['2'] ∧
    canonicalSlug lib "https://www.facebook.com/profile.php?id=".toList "facebook".toList = some [] ∧
    canonicalSlug lib "https://www.instagram.com/cafe\n".toList "instagram".toList = some "cafe".toList) ∧
    ¬ Determines .facebook ['2'] "https://www.facebook.com/profile.php?id=1&id=2".toList := by
  refine ⟨by decide +kernel, ?_⟩
  rintro ⟨-, -, (h | h) | ⟨-, h | h⟩⟩
  all_goals exact absurd h (by decide +kernel)

end SocialScraper
