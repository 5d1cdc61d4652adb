import SocialScraper.Python
/-!
# Unicode

The tables of Unicode the code depends on are a parameter, with what is used of
their contents. Above them, `str.lower` is as CPython computes it.
-/

namespace SocialScraper

def isAscii (c : Char) : Bool := c.toNat < 0x80

theorem forall_of_all {p : Char → Bool} {s : Str} (h : s.all p = true) : ∀ c ∈ s, p c = true := List.all_eq_true.1 h

theorem ascii_forall {P : Char → Prop} (h : ∀ n < 128, P (Char.ofNat n)) {c : Char} (hc : isAscii c = true) : P c := by
  have hP := h c.toNat (of_decide_eq_true hc)
  rwa [Char.ofNat_toNat] at hP

structure Unicode where
  /-- The full lower-case mapping of a character other than the capital sigma. -/
  lowerChar : Char → Str
  cased : Char → Bool
  caseIgnorable : Char → Bool
  /-- `unicodedata.normalize('NFKC', s)`. -/
  nfkc : Str → Str
  /-- Whether UTF-8 encodes a character. The lone surrogates, which a `str` may hold and `Char` lacks, are those it does not. -/
  encodable : Char → Bool
  encodable_ascii : ∀ c, isAscii c = true → encodable c = true
  lowerChar_ascii : ∀ c, isAscii c = true → lowerChar c = [c.toLower]
  /-- `İ` and the Kelvin sign are the only other characters with an ASCII letter in their lower case. -/
  lowerChar_ik : ∀ c, isAscii c = false → ∀ d ∈ lowerChar c, isAscii d = true → d = 'i' ∨ d = 'k'

namespace Unicode

/-- The tables restricted to ASCII, for runs on concrete URLs. The last code point stands for a lone surrogate. -/
def ascii : Unicode where
  lowerChar c := if isAscii c then [c.toLower] else [c]
  cased c := c.isAlpha
  caseIgnorable c := ['\'', '.', ':', '^', '`'].contains c
  nfkc s := s
  encodable c := c.toNat < 0x10FFFF
  encodable_ascii c h := decide_eq_true ((of_decide_eq_true h : c.toNat < 0x80).trans (by decide))
  lowerChar_ascii c h := if_pos h
  lowerChar_ik c h d hd ha := by
    rw [h] at hd
    rw [List.mem_singleton.1 hd, h] at ha
    cases ha

variable (uc : Unicode)

/-- Whether a capital sigma ends a word; what stands before it is given backwards. -/
def finalSigma (before after : Str) : Bool :=
  (before.dropWhile uc.caseIgnorable).head?.any uc.cased && !(after.dropWhile uc.caseIgnorable).head?.any uc.cased

def lowerFrom (before : Str) : Str → Str
  | [] => []
  | c :: s =>
    (if c = 'Σ' then [if uc.finalSigma before s then 'ς' else 'σ'] else uc.lowerChar c) ++ lowerFrom (c :: before) s

/-- `str.lower`. -/
def lower (s : Str) : Str := uc.lowerFrom [] s

variable {uc}

variable (uc) in
theorem lowerFrom_append (before s t : Str) (hs : 'Σ' ∉ s) :
    uc.lowerFrom before (s ++ t) = s.flatMap uc.lowerChar ++ uc.lowerFrom (s.reverse ++ before) t := by
  induction s generalizing before with
  | nil => rfl
  | cons c s ih =>
    have hc : c ≠ 'Σ' := by
      rintro rfl
      exact hs (by simp)
    simp only [List.cons_append, lowerFrom, if_neg hc, List.flatMap_cons, List.append_assoc, List.reverse_cons,
      List.nil_append]
    rw [ih (c :: before) fun h => hs (by simp [h])]

theorem lower_ascii {s : Str} (h : ∀ c ∈ s, isAscii c = true) : uc.lower s = s.map Char.toLower := by
  have hsigma : 'Σ' ∉ s := fun hs => absurd (h _ hs) (by decide)
  have happ := uc.lowerFrom_append [] s [] hsigma
  simp only [List.append_nil, lowerFrom] at happ
  rw [lower, happ]
  clear happ hsigma
  induction s with
  | nil => rfl
  | cons c s ih =>
    rw [List.flatMap_cons, uc.lowerChar_ascii c (h c (by simp)), ih fun x hx => h x (by simp [hx])]
    rfl

@[simp] theorem lower_nil : uc.lower [] = [] := rfl

end Unicode

/-! ## Uncased characters -/

/-- A character that is itself in lower case, and the lower case of no other. -/
def uncased (c : Char) : Bool := isAscii c && !c.isAlpha

theorem toLower_uncased {c d : Char} (hd : uncased d = true) (hc : isAscii c = true) : c.toLower = d ↔ c = d := by
  have hcases := ascii_forall (P := fun c => c.toLower = c ∨ uncased c = false ∧ uncased c.toLower = false) (by decide) hc
  rcases hcases with h | ⟨h, h'⟩
  · rw [h]
  · constructor
    · rintro rfl
      simp [h'] at hd
    · rintro rfl
      simp [h] at hd

namespace Unicode

variable {uc : Unicode}

theorem mem_lowerChar {c d : Char} (hd : uncased d = true) : d ∈ uc.lowerChar c ↔ c = d := by
  have hascii : isAscii d = true := by
    simp only [uncased, Bool.and_eq_true] at hd
    exact hd.1
  cases hc : isAscii c with
  | true =>
    rw [uc.lowerChar_ascii c hc, List.mem_singleton, eq_comm]
    exact toLower_uncased hd hc
  | false =>
    constructor
    · intro h
      rcases uc.lowerChar_ik c hc d h hascii with rfl | rfl <;> exact absurd hd (by decide)
    · rintro rfl
      rw [hascii] at hc
      cases hc

variable (uc) in
/-- What one character becomes has an uncased character in it only if it is that character. -/
theorem lowerFrom_cons (before : Str) (c : Char) (s : Str) :
    ∃ c', uc.lowerFrom before (c :: s) = c' ++ uc.lowerFrom (c :: before) s ∧ ∀ d, uncased d = true → (d ∈ c' ↔ c = d) := by
  refine ⟨_, rfl, fun d hd => ?_⟩
  by_cases hc : c = 'Σ'
  · have hne : d ≠ 'Σ' ∧ d ≠ 'ς' ∧ d ≠ 'σ' := by
      refine ⟨?_, ?_, ?_⟩ <;> rintro rfl <;> exact absurd hd (by decide)
    rw [if_pos hc, hc]
    split_ifs <;> simp [hne, hne.1.symm]
  · rw [if_neg hc]
    exact mem_lowerChar hd

theorem lowerFrom_uncased {c : Char} (hc : uncased c = true) (before s : Str) :
    uc.lowerFrom before (c :: s) = c :: uc.lowerFrom (c :: before) s := by
  have hne : c ≠ 'Σ' := by
    rintro rfl
    exact absurd hc (by decide)
  have hascii : isAscii c = true := by
    simp only [uncased, Bool.and_eq_true] at hc
    exact hc.1
  rw [lowerFrom, if_neg hne, uc.lowerChar_ascii c hascii, (toLower_uncased hc hascii).2 rfl]
  rfl

variable (uc) in
/-- The lower case of a text, part by part: no part gains an uncased character. -/
theorem lowerFrom_split (before a b : Str) : ∃ a', uc.lowerFrom before (a ++ b) = a' ++ uc.lowerFrom (a.reverse ++ before) b ∧
    ∀ d, uncased d = true → (d ∈ a' ↔ d ∈ a) := by
  induction a generalizing before with
  | nil => exact ⟨[], rfl, fun d _ => Iff.rfl⟩
  | cons c a ih =>
    obtain ⟨c', hc, hmemc⟩ := uc.lowerFrom_cons before c (a ++ b)
    obtain ⟨a', ha, hmem⟩ := ih (c :: before)
    refine ⟨c' ++ a', ?_, ?_⟩
    · rw [List.cons_append, hc, ha, List.append_assoc, List.reverse_cons, List.append_assoc]
      rfl
    · intro d hd
      rw [List.mem_append, hmemc d hd, hmem d hd, List.mem_cons, eq_comm]

theorem mem_lowerFrom {d : Char} (hd : uncased d = true) (before s : Str) : d ∈ uc.lowerFrom before s ↔ d ∈ s := by
  obtain ⟨s', hs, hmem⟩ := uc.lowerFrom_split before s []
  rw [List.append_nil, lowerFrom, List.append_nil] at hs
  rw [hs, hmem d hd]

/-- Up to a character that is uncased, the lower case is made character by character. -/
theorem partition_lowerFrom {sep : Char} (hsep : uncased sep = true) (before : Str) {s : Str}
    (h : 'Σ' ∉ (partition sep s).1) :
    (partition sep (uc.lowerFrom before s)).1 = (partition sep s).1.flatMap uc.lowerChar := by
  have hflat : ∀ a : Str, sep ∉ a → sep ∉ a.flatMap uc.lowerChar := by
    intro a ha hmem
    obtain ⟨c, hc, hcs⟩ := List.mem_flatMap.1 hmem
    rw [mem_lowerChar hsep] at hcs
    exact ha (hcs ▸ hc)
  by_cases hs : sep ∈ s
  · obtain ⟨a, b, rfl, ha⟩ := List.eq_append_cons_of_mem hs
    rw [partition_append ha] at h ⊢
    rw [uc.lowerFrom_append before a (sep :: b) h, lowerFrom_uncased hsep, partition_append (hflat a ha)]
  · rw [partition_of_not_mem hs] at h ⊢
    have happ := uc.lowerFrom_append before s [] h
    simp only [List.append_nil, lowerFrom] at happ
    rw [happ, partition_of_not_mem (hflat s hs)]

end Unicode

end SocialScraper
