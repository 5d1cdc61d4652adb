import Mathlib.Data.List.DropRight
import Mathlib.Data.List.Forall2
import SocialScraper.Social.Reach
/-!
# The classifier against the normalizer

`classify_platform` searches the whole href for the spelling of a profile link,
`normalize_social_url` parses it. They agree exactly on the hrefs that spell
out where they lead (`classifyPlatform_agrees_iff`).
-/

namespace SocialScraper

/-! ## The patterns -/

namespace Platform

/-- What may stand in front of the domain. -/
def fronts : Platform → List Str
  | .instagram => ["www.".toList, []]
  | .facebook => ["www.".toList, "m.".toList, "mobile.".toList, []]

def domain : Platform → Str
  | .instagram => "instagram.com".toList
  | .facebook => "facebook.com".toList

/-- The pattern behind `(^|//)`. -/
def profile (p : Platform) : Str → Bool := profileAt p.fronts p.domain

end Platform

theorem classifyPlatform_instagram {href : Str} :
    classifyPlatform href = some .instagram ↔ searchProfile Platform.instagram.profile href = true := by
  have hre : instagramRe href = searchProfile Platform.instagram.profile href := rfl
  rw [classifyPlatform, hre]
  split_ifs with hi <;> simp [hi]

theorem classifyPlatform_facebook {href : Str} :
    classifyPlatform href = some .facebook ↔
      ¬ searchProfile Platform.instagram.profile href = true ∧ searchProfile Platform.facebook.profile href = true := by
  have hre : instagramRe href = searchProfile Platform.instagram.profile href := rfl
  have hre' : facebookRe href = searchProfile Platform.facebook.profile href := rfl
  rw [classifyPlatform, hre, hre']
  split_ifs with hi hf
  · simp [hi]
  · simp [hi, hf]
  · simp [hf]

/-! ## Letters -/

theorem toLower_of_not_ascii {c : Char} (h : isAscii c = false) : c.toLower = c := by
  have hbig : ¬ c.val ≤ 'Z'.val := by
    simp only [isAscii, decide_eq_false_iff_not, not_lt] at h
    intro hle
    have hle' : c.toNat ≤ 90 := UInt32.le_iff_toNat_le.1 hle
    omega
  exact dif_neg fun hc => hbig hc.2

/-- A letter that only its two cases match. -/
structure TwoCases (letter : Char) : Prop where
  ascii : isAscii letter = true
  other : letter ≠ 'i' ∧ letter ≠ 's' ∧ letter ≠ 'k'

theorem TwoCases.ignoreCase {letter c : Char} (hl : TwoCases letter) (h : ignoreCase letter c = true) :
    isAscii c = true ∧ c.toLower = letter := by
  have hlower : c.toLower = letter := by simpa [SocialScraper.ignoreCase, hl.other] using h
  refine ⟨?_, hlower⟩
  by_contra hc
  have hsame := toLower_of_not_ascii (Bool.not_eq_true _ ▸ hc)
  exact hc (hsame ▸ hlower ▸ hl.ascii)

/-- A character of a location that is neither a blank nor has a meaning in it. -/
def locationChar (c : Char) : Bool := !netlocEnd c && !unsafeByte c && !isSpace c && !(['@', '[', ':'].contains c)

theorem locationChar_of_ignoreCase {letter c : Char} (hl : schemeChar letter = true) (h : ignoreCase letter c = true) :
    locationChar c = true := by
  simp only [ignoreCase, Bool.or_eq_true, Bool.and_eq_true, beq_iff_eq] at h
  rcases h with ((h | ⟨-, rfl | rfl⟩) | ⟨-, rfl⟩) | ⟨-, rfl⟩
  · have hall := ascii_forall (c := c) (P := fun c => schemeChar c.toLower = true → locationChar c = true) (by decide)
    refine hall ?_ (h ▸ hl)
    by_contra hc
    have hsame := toLower_of_not_ascii (Bool.not_eq_true _ ▸ hc)
    exact hc (isAscii_of_schemeChar (hsame ▸ h ▸ hl))
  all_goals rfl

theorem eq_slash_of_ignoreCase {c : Char} (h : ignoreCase '/' c = true) : c = '/' := by
  have hslash : TwoCases '/' := ⟨rfl, by decide⟩
  obtain ⟨hc, hlower⟩ := hslash.ignoreCase h
  exact (toLower_uncased rfl hc).1 hlower

/-! ## Matches -/

/-- A text, letter by letter up to its case. -/
def SpelledAs (text : Str) : Str → Prop := List.Forall₂ (fun letter c => ignoreCase letter c = true) text

theorem SpelledAs.mem {text s : Str} (h : SpelledAs text s) {letter : Char} (hl : letter ∈ text) :
    ∃ c ∈ s, ignoreCase letter c = true := by
  induction h with
  | nil => cases hl
  | cons hc _ ih =>
    rcases List.mem_cons.1 hl with rfl | hl
    · exact ⟨_, List.mem_cons_self, hc⟩
    · obtain ⟨c, hmem, hc⟩ := ih hl
      exact ⟨c, List.mem_cons_of_mem _ hmem, hc⟩

theorem SpelledAs.locationChar {text s : Str} (h : SpelledAs text s) (ht : ∀ c ∈ text, schemeChar c = true) :
    ∀ c ∈ s, locationChar c = true := by
  induction h with
  | nil => simp
  | cons hc _ ih =>
    intro c hmem
    rcases List.mem_cons.1 hmem with rfl | hmem
    · exact locationChar_of_ignoreCase (ht _ List.mem_cons_self) hc
    · exact ih (fun c hc => ht c (List.mem_cons_of_mem _ hc)) c hmem

/-- A match of the text and a slash. -/
theorem matchText_slash {text s rest : Str} (h : matchText (text ++ ['/']) s = some rest) :
    ∃ t, s = t ++ '/' :: rest ∧ SpelledAs text t := by
  induction text generalizing s with
  | nil =>
    cases s with
    | nil => cases h
    | cons c s =>
      simp only [List.nil_append, matchText] at h
      split_ifs at h with hc
      obtain rfl := Option.some.inj h
      exact ⟨[], by rw [eq_slash_of_ignoreCase hc]; rfl, .nil⟩
  | cons letter text ih =>
    cases s with
    | nil => cases h
    | cons c s =>
      simp only [List.cons_append, matchText] at h
      split_ifs at h with hc
      obtain ⟨t, rfl, ht⟩ := ih h
      exact ⟨c :: t, rfl, .cons hc ht⟩

/-- A profile link starts with its location. -/
theorem profile_spec {p : Platform} {s : Str} (h : p.profile s = true) :
    ∃ front ∈ p.fronts, ∃ host rest, s = host ++ '/' :: rest ∧ SpelledAs (front ++ p.domain) host ∧
      (∀ c ∈ host, locationChar c = true) := by
  obtain ⟨front, hfront, hmatch⟩ := List.any_eq_true.1 h
  obtain ⟨rest, hrest, -⟩ := (Option.any_eq_true _ _).1 hmatch
  obtain ⟨host, rfl, hhost⟩ := matchText_slash hrest
  have hletters : ∀ front ∈ p.fronts, (front ++ p.domain).all schemeChar = true := by cases p <;> decide
  exact ⟨front, hfront, host, rest, rfl, hhost, hhost.locationChar (forall_of_all (hletters front hfront))⟩

/-! ## The href behind its scheme -/

/-- The href behind its scheme, if it has one. -/
def ownText (href : Str) : Str :=
  if startsWithHttp (strip href) then (partition ':' (href.dropWhile isSpace)).2.drop 2 else href

/-- The href starts with the spelling of a profile link, but for its scheme. -/
def Spelled (p : Platform) (href : Str) : Prop := p.profile (ownText href) = true

/-- A profile link is spelled behind two slashes further inside. -/
def Nested (p : Platform) (href : Str) : Prop :=
  behindSlashes p.profile (if startsWithHttp (strip href) then '/' :: ownText href else href) = true

theorem dropWhile_http {href : Str} (h : startsWithHttp (strip href) = true) :
    ∃ scheme ∈ httpSchemes, href.dropWhile isSpace = scheme ++ ("://".toList ++ ownText href) := by
  obtain ⟨scheme, hs, x, hx⟩ := HttpUrl.startsWithHttp_iff.1 h
  obtain ⟨t, ht⟩ := rstrip_initial isSpace (href.dropWhile isSpace)
  rw [show rstrip isSpace (href.dropWhile isSpace) = strip href from rfl, hx] at ht
  refine ⟨scheme, hs, ?_⟩
  have hcolon : ∀ scheme ∈ httpSchemes, ':' ∉ scheme := by decide
  have hown : ownText href = x ++ t := by
    rw [ownText, if_pos h, ← ht, List.append_assoc, List.append_assoc]
    exact congrArg (fun s : Str × Str => s.2.drop 2) (partition_append (hcolon scheme hs) ("//".toList ++ (x ++ t)))
  rw [hown, ← ht, List.append_assoc, List.append_assoc]

/-- An href with a scheme: no slash stands before the two behind the scheme, but a colon does. -/
theorem href_http {href : Str} (h : startsWithHttp (strip href) = true) :
    ∃ front : Str, href = front ++ '/' :: '/' :: ownText href ∧ '/' ∉ front ∧ ':' ∈ front := by
  obtain ⟨scheme, hs, hdrop⟩ := dropWhile_http h
  refine ⟨href.takeWhile isSpace ++ (scheme ++ [':']), ?_, ?_, by simp⟩
  · conv_lhs => rw [← List.takeWhile_append_dropWhile (p := isSpace) (l := href), hdrop]
    simp
  · have hslash : ∀ scheme ∈ httpSchemes, '/' ∉ scheme ++ [':'] := by decide
    intro hmem
    rcases List.mem_append.1 hmem with hmem | hmem
    · exact absurd (List.mem_takeWhile_imp hmem) (by decide)
    · exact hslash scheme hs hmem

theorem behindSlashes_skip {re : Str → Bool} {a : Str} (h : '/' ∉ a) (s : Str) :
    behindSlashes re (a ++ s) = behindSlashes re s := by
  induction a with
  | nil => rfl
  | cons c a ih =>
    have hc : c ≠ '/' := by
      rintro rfl
      exact h List.mem_cons_self
    rw [List.cons_append, ← ih fun hmem => h (List.mem_cons_of_mem _ hmem)]
    rw [behindSlashes]
    exact fun _ he _ => hc he

/-- The places of the pattern in an href: behind its scheme, and further inside. -/
theorem searchProfile_iff {p : Platform} {href : Str} :
    searchProfile p.profile href = true ↔ Spelled p href ∨ Nested p href := by
  unfold Spelled Nested
  cases h : startsWithHttp (strip href) with
  | false => simp [searchProfile, ownText, h]
  | true =>
    obtain ⟨front, hhref, hslash, hcolon⟩ := href_http h
    have hstart : p.profile href = false := by
      -- A match would end its location at the first slash, so the colon would be in it.
      rw [Bool.eq_false_iff]
      intro hmatch
      obtain ⟨-, -, host, rest, heq, -, hchars⟩ := profile_spec hmatch
      have hhost : '/' ∉ host := fun hmem => absurd (hchars _ hmem) (by decide)
      have hsame : host = front := by
        have hfirst := partition_append hhost rest
        rw [← heq, hhref, partition_append hslash] at hfirst
        exact (congrArg Prod.fst hfirst).symm
      exact absurd (hchars _ (hsame ▸ hcolon)) (by decide)
    have hbehind : behindSlashes p.profile href =
        (p.profile (ownText href) || behindSlashes p.profile ('/' :: ownText href)) := by
      conv_lhs => rw [hhref, behindSlashes_skip hslash, behindSlashes]
    rw [searchProfile, hstart, hbehind, if_pos rfl, Bool.false_or, Bool.or_eq_true]

/-! ## The location of a spelled href -/

variable {uc : Unicode}

theorem withScheme_spelled {p : Platform} {href : Str} (h : Spelled p href) :
    ∃ scheme ∈ httpSchemes, HttpUrl.withScheme href = scheme ++ ("://".toList ++ rstrip isSpace (ownText href)) := by
  cases hhttp : startsWithHttp (strip href) with
  | true =>
    obtain ⟨scheme, hs, hdrop⟩ := dropWhile_http hhttp
    refine ⟨scheme, hs, ?_⟩
    rw [HttpUrl.withScheme, if_pos hhttp, ← HttpUrl.strip_http hs, ← hdrop, strip, strip, List.dropWhile_idempotent]
  | false =>
    have hown : ownText href = href := by rw [ownText, hhttp]; rfl
    refine ⟨"https".toList, https_mem, ?_⟩
    -- The location is behind no blank.
    obtain ⟨front, -, host, rest, heq, hspelled, hchars⟩ := profile_spec h
    have hstart : href.dropWhile isSpace = href := by
      rw [← hown, heq]
      cases host with
      | nil => rfl
      | cons c host =>
        have hc := hchars c List.mem_cons_self
        simp only [locationChar, Bool.and_eq_true, Bool.not_eq_true'] at hc
        rw [List.cons_append, List.dropWhile_cons, hc.1.2]
        rfl
    rw [HttpUrl.withScheme, hhttp, hown, strip, hstart]
    rfl

/-- The location that `urlparse` finds in an href is the one spelled. -/
theorem spelled_netloc {p : Platform} {href : Str} (h : Spelled p href) {r : ParseResult}
    (hr : urlparse uc (HttpUrl.withScheme href) = some r) :
    ∃ front ∈ p.fronts, SpelledAs (front ++ p.domain) r.netloc ∧ ∀ c ∈ r.netloc, locationChar c = true := by
  obtain ⟨scheme, hs, htext⟩ := withScheme_spelled h
  obtain ⟨front, hfront, host, rest, heq, hspelled, hchars⟩ := profile_spec h
  have hstrip : rstrip isSpace (host ++ '/' :: rest) = host ++ '/' :: rstrip isSpace rest := by
    rw [HttpUrl.rstrip_append, HttpUrl.rstrip_cons rfl, if_neg (List.cons_ne_nil _ _)]
  rw [htext, heq, hstrip] at hr
  have hnetloc : r.netloc = host := by
    refine netloc_http hs (fun c hc => ?_) hr
    have hhost := hchars c hc
    simp only [locationChar, Bool.and_eq_true, Bool.not_eq_true'] at hhost
    exact hhost.1.1
  exact ⟨front, hfront, hnetloc ▸ hspelled, hnetloc ▸ hchars⟩

theorem lower_cons {c : Char} (hc : isAscii c = true) (before s : Str) :
    uc.lowerFrom before (c :: s) = c.toLower :: uc.lowerFrom (c :: before) s := by
  have hne : c ≠ 'Σ' := by
    rintro rfl
    exact absurd hc (by decide)
  rw [Unicode.lowerFrom, if_neg hne, uc.lowerChar_ascii c hc]
  rfl

theorem mem_lower {c : Char} (hc : isAscii c = true) {s : Str} (h : c ∈ s) : c.toLower ∈ uc.lower s := by
  obtain ⟨a, b, rfl⟩ := List.append_of_mem h
  obtain ⟨a', hlower, -⟩ := uc.lowerFrom_split [] a (c :: b)
  rw [Unicode.lower, hlower, lower_cons hc]
  simp

theorem SpelledAs.mem_lower {text s : Str} (h : SpelledAs text s) {letter : Char} (hl : TwoCases letter)
    (hmem : letter ∈ text) : letter ∈ uc.lower s := by
  obtain ⟨c, hc, hmatch⟩ := h.mem hmem
  obtain ⟨hascii, hlower⟩ := hl.ignoreCase hmatch
  exact hlower ▸ SocialScraper.mem_lower hascii hc

theorem SpelledAs.head_lower {letter : Char} {text s : Str} (h : SpelledAs (letter :: text) s) (hl : TwoCases letter) :
    (uc.lower s).head? = some letter := by
  obtain ⟨c, t, hmatch, -, rfl⟩ := List.forall₂_cons_left_iff.1 h
  obtain ⟨hascii, hlower⟩ := hl.ignoreCase hmatch
  rw [Unicode.lower, lower_cons hascii, hlower]
  rfl

/-! ### Where a spelled href leads -/

section
variable {p : Platform} {href : Str} (h : Spelled p href) {r : ParseResult} (hr : urlparse uc (HttpUrl.withScheme href) = some r)
include h hr

/-- The location has a letter that the shim's host lacks, or starts with another one. -/
theorem spelled_noShim : linkTarget uc r = none := by
  obtain ⟨front, hfront, hspelled, -⟩ := spelled_netloc h hr
  refine if_neg fun hshim => ?_
  have hlower : uc.lower r.netloc = "l.facebook.com".toList := hshim.1
  cases p with
  | instagram =>
    have hmem : 'n' ∈ uc.lower r.netloc := hspelled.mem_lower ⟨rfl, by decide⟩ (List.mem_append_right _ (by decide))
    rw [hlower] at hmem
    exact absurd hmem (by decide)
  | facebook =>
    have hfirst : ∃ letter text, front ++ Platform.facebook.domain = letter :: text ∧ TwoCases letter ∧ letter ≠ 'l' := by
      simp only [Platform.fronts, List.mem_cons, List.not_mem_nil, or_false] at hfront
      rcases hfront with rfl | rfl | rfl | rfl
      all_goals exact ⟨_, _, rfl, ⟨rfl, by decide⟩, by decide⟩
    obtain ⟨letter, text, htext, hcases, hne⟩ := hfirst
    have hhead : (uc.lower r.netloc).head? = some letter := SpelledAs.head_lower (htext ▸ hspelled) hcases
    rw [hlower] at hhead
    exact hne (Option.some.inj hhead).symm

/-- The location is nothing but a host, so it is one of the platform's in some letter case. -/
theorem spelled_hosted {q : Platform} : Hosted uc q r ↔ uc.lower r.netloc ∈ q.host :: q.otherHosts := by
  obtain ⟨-, -, -, hchars⟩ := spelled_netloc h hr
  have hplain : ∀ c, locationChar c = false → c ∉ r.netloc := by
    intro c hc hmem
    rw [hchars c hmem] at hc
    cases hc
  have hzone : '%' ∉ q.host := by cases q <;> decide
  rw [Hosted, or_comm, List.mem_cons]
  refine or_congr_left ⟨fun hhost => ?_, fun hlower => ?_⟩
  · have hcases := hostname_plain (hplain '@' rfl) (hplain '[' rfl) (hplain ':' rfl) hhost
    exact (hcases.resolve_left hzone).symm
  · exact hostname_lower (hplain '@' rfl) (hplain '[' rfl) (hplain ':' rfl) hlower

end

variable (uc) in
/-- The location of the href is a host of the platform, in any letter case, and a segment is left of its path. -/
def OnOwnHost (p : Platform) (href : Str) : Prop :=
  ∃ r, urlparse uc (HttpUrl.withScheme href) = some r ∧ uc.lower r.netloc ∈ p.host :: p.otherHosts ∧
    hasSegment (hrefReading r).trimmed.1 = true

theorem reaches_spelled {p q : Platform} {href : Str} (h : Spelled p href) : Reaches uc q href ↔ OnOwnHost uc q href := by
  unfold Reaches OnOwnHost
  refine exists_congr fun r => and_congr_right fun hr => ?_
  rw [spelled_noShim h hr, ← spelled_hosted h hr]

/-- An href spelled as one of Facebook does not lead to Instagram. -/
theorem not_reaches_instagram {href : Str} (h : Spelled .facebook href) : ¬ Reaches uc .instagram href := by
  rw [reaches_spelled h]
  rintro ⟨r, hr, hhost, -⟩
  obtain ⟨front, -, hspelled, -⟩ := spelled_netloc h hr
  have hf : 'f' ∈ uc.lower r.netloc := hspelled.mem_lower ⟨rfl, by decide⟩ (List.mem_append_right _ (by decide))
  have hnone : ∀ host ∈ Platform.instagram.host :: Platform.instagram.otherHosts, 'f' ∉ host := by decide
  exact hnone _ hhost hf

/-! ## Agreement -/

variable (uc) in
/-- The profile links that the href spells are those of the platform it leads to. -/
structure SpelledOut (href : Str) : Prop where
  /-- One that it starts with is on its platform's host, and if it is Facebook's, none of Instagram is further inside. -/
  own : ∀ p, Spelled p href → OnOwnHost uc p href ∧ (p = .facebook → ¬ Nested .instagram href)
  /-- Otherwise one further inside is where the href leads, the Instagram one if there are both. -/
  nested : (∀ q, ¬ Spelled q href) → ∀ p, Nested p href → Reaches uc p href ∨ p = .facebook ∧ Nested .instagram href
  /-- An href without any leads to neither platform. -/
  none : (∀ q, ¬ Spelled q href) → (∀ q, ¬ Nested q href) → ∀ p, ¬ Reaches uc p href

theorem unspelled {P : Platform → Prop} (hi : ¬ P .instagram) (hf : ¬ P .facebook) : ∀ q, ¬ P q
  | .instagram => hi
  | .facebook => hf

/-- What is searched for is where the href leads, if and only if the href is spelled out. -/
theorem spelledOut_iff {href : Str} (hunique : ∀ {p q}, Reaches uc p href → Reaches uc q href → p = q) :
    (∀ p, classifyPlatform href = some p ↔ Reaches uc p href) ↔ SpelledOut uc href := by
  have hsearch : (∀ p, classifyPlatform href = some p ↔ Reaches uc p href) ↔
      (Spelled .instagram href ∨ Nested .instagram href ↔ Reaches uc .instagram href) ∧
        (¬ (Spelled .instagram href ∨ Nested .instagram href) ∧ (Spelled .facebook href ∨ Nested .facebook href) ↔
          Reaches uc .facebook href) := by
    simp only [← searchProfile_iff]
    constructor
    · exact fun h => ⟨classifyPlatform_instagram.symm.trans (h .instagram), classifyPlatform_facebook.symm.trans (h .facebook)⟩
    · rintro ⟨hi, hf⟩ p
      cases p with
      | instagram => exact classifyPlatform_instagram.trans hi
      | facebook => exact classifyPlatform_facebook.trans hf
  rw [hsearch]
  constructor
  · rintro ⟨hi, hf⟩
    refine ⟨fun p hs => ?_, fun hs p hn => ?_, fun hs hn p hreach => ?_⟩
    · cases p with
      | instagram => exact ⟨(reaches_spelled hs).1 (hi.1 (.inl hs)), nofun⟩
      | facebook =>
        have hnot := fun h => not_reaches_instagram hs (hi.1 h)
        exact ⟨(reaches_spelled hs).1 (hf.1 ⟨hnot, .inl hs⟩), fun _ hn => hnot (.inr hn)⟩
    · cases p with
      | instagram => exact .inl (hi.1 (.inr hn))
      | facebook =>
        by_cases hother : Nested .instagram href
        · exact .inr ⟨rfl, hother⟩
        · exact .inl (hf.1 ⟨not_or.2 ⟨hs _, hother⟩, .inr hn⟩)
    · cases p with
      | instagram => exact (hi.2 hreach).elim (hs _) (hn _)
      | facebook => exact (hf.2 hreach).2.elim (hs _) (hn _)
  · intro h
    have hi : Spelled .instagram href ∨ Nested .instagram href ↔ Reaches uc .instagram href := by
      constructor
      · rintro (hs | hn)
        · exact (reaches_spelled hs).2 (h.own _ hs).1
        · by_cases hs : Spelled .instagram href
          · exact (reaches_spelled hs).2 (h.own _ hs).1
          · have hf : ¬ Spelled .facebook href := fun hf => (h.own _ hf).2 rfl hn
            exact (h.nested (unspelled hs hf) _ hn).resolve_right nofun
      · intro hreach
        by_contra hnot
        obtain ⟨hs, hn⟩ := not_or.1 hnot
        have hf : ¬ Spelled .facebook href := fun hf => not_reaches_instagram hf hreach
        by_cases hnf : Nested .facebook href
        · cases hunique hreach ((h.nested (unspelled hs hf) _ hnf).resolve_right fun h => hn h.2)
        · exact h.none (unspelled hs hf) (unspelled hn hnf) _ hreach
    refine ⟨hi, ?_⟩
    rw [hi]
    constructor
    · rintro ⟨hnot, hs | hn⟩
      · exact (reaches_spelled hs).2 (h.own _ hs).1
      · have hni : ¬ Nested .instagram href := fun h => hnot (hi.1 (.inr h))
        by_cases hs : Spelled .facebook href
        · exact (reaches_spelled hs).2 (h.own _ hs).1
        · exact (h.nested (unspelled (fun h => hnot (hi.1 (.inl h))) hs) _ hn).resolve_right fun h => hni h.2
    · intro hreach
      have hnot : ¬ Reaches uc .instagram href := fun h => by cases hunique h hreach
      refine ⟨hnot, ?_⟩
      by_contra hnone
      obtain ⟨hs, hn⟩ := not_or.1 hnone
      have hnot' := not_or.1 (hi.not.2 hnot)
      exact h.none (unspelled hnot'.1 hs) (unspelled hnot'.2 hn) _ hreach

/-- The classifier agrees with the normalizer exactly on the hrefs that spell out where they lead. -/
theorem classifyPlatform_agrees_iff (uc : Unicode) (href n : Str) (hn : normalizeSocialUrl (cpython uc) href = some n) :
    (∀ p, classifyPlatform href = some p ↔ OnPlatform (cpython uc) p n) ↔ SpelledOut uc href := by
  have hreach : ∀ p, OnPlatform (cpython uc) p n ↔ Reaches uc p href := fun p => onPlatform_iff hn
  simp only [hreach]
  exact spelledOut_iff fun hp hq => onPlatform_unique ((hreach _).2 hp) ((hreach _).2 hq)

/-- A link to share a profile is itself on Facebook. -/
theorem share_link_misread :
    normalizeSocialUrl (cpython .ascii) "https://www.facebook.com/sharer.php?u=https://instagram.com/cafe".toList =
        some "https://www.facebook.com/sharer.php?u=https%3A%2F%2Finstagram.com%2Fcafe".toList ∧
      classifyPlatform "https://www.facebook.com/sharer.php?u=https://instagram.com/cafe".toList = some .instagram ∧
      ¬ OnPlatform (cpython .ascii) .instagram
        "https://www.facebook.com/sharer.php?u=https%3A%2F%2Finstagram.com%2Fcafe".toList := by
  refine ⟨by decide +kernel, by decide +kernel, ?_⟩
  rintro ⟨r, hr, hhost, -⟩
  have hparts : urlparse .ascii "https://www.facebook.com/sharer.php?u=https%3A%2F%2Finstagram.com%2Fcafe".toList =
      some ⟨"https".toList, "www.facebook.com".toList, "/sharer.php".toList, [],
        "u=https%3A%2F%2Finstagram.com%2Fcafe".toList, []⟩ := by decide +kernel
  rw [cpython_urlparse, hparts] at hr
  obtain rfl := Option.some.inj hr
  exact absurd hhost (by decide +kernel)

theorem classifyPlatform_agrees_iff_mobile :
    (∀ p, classifyPlatform "http://m.facebook.com/cafe/?ref=page".toList = some p ↔
        OnPlatform (cpython .ascii) p "https://www.facebook.com/cafe".toList) ↔
      SpelledOut .ascii "http://m.facebook.com/cafe/?ref=page".toList :=
  classifyPlatform_agrees_iff .ascii _ _ (by decide +kernel)

end SocialScraper
