import SocialScraper.Urllib.HttpUrl
/-!
# The host of a network location

What `_hostinfo` reads from a network location in its three forms, and that it
commutes with the lower case.
-/

namespace SocialScraper

theorem info_append {a b : Str} (hb : '@' ∉ b) : ((a ++ '@' :: b).reverse.takeWhile (· != '@')).reverse = b := by
  have hne : ∀ c ∈ b.reverse, (c != '@') = true := fun c hc => bne_iff_ne.2 fun he => hb (he ▸ List.mem_reverse.1 hc)
  rw [List.reverse_append, List.reverse_cons, List.append_assoc, List.takeWhile_append_of_pos hne]
  simp

theorem info_of_not_mem {s : Str} (h : '@' ∉ s) : (s.reverse.takeWhile (· != '@')).reverse = s := by
  have hne : ∀ c ∈ s.reverse, (c != '@') = true := fun c hc => bne_iff_ne.2 fun he => h (he ▸ List.mem_reverse.1 hc)
  rw [List.takeWhile_eq_self_iff.2 hne, List.reverse_reverse]

/-- The user of a network location is not part of its host. -/
theorem hostinfo_user {a b : Str} (hb : '@' ∉ b) : hostinfo (a ++ '@' :: b) = hostinfo b := by
  rw [hostinfo, hostinfo, info_append hb, info_of_not_mem hb]

theorem hostinfo_bracketed {a b : Str} (hs : '@' ∉ a ++ '[' :: b) (ha : '[' ∉ a) :
    hostinfo (a ++ '[' :: b) = (partition ']' b).1 := by
  rw [hostinfo, info_of_not_mem hs]
  simp [partition_append ha]

theorem hostinfo_plain {s : Str} (hs : '@' ∉ s) (h : '[' ∉ s) : hostinfo s = (partition ':' s).1 := by
  rw [hostinfo, info_of_not_mem hs]
  simp [h]

/-- The three forms of a network location. -/
theorem netloc_cases (s : Str) : (∃ a b, s = a ++ '@' :: b ∧ '@' ∉ b) ∨
    ('@' ∉ s ∧ ∃ a b, s = a ++ '[' :: b ∧ '[' ∉ a) ∨ ('@' ∉ s ∧ '[' ∉ s) := by
  by_cases hat : '@' ∈ s
  · obtain ⟨b, a, hs, hb⟩ := List.eq_append_cons_of_mem (List.mem_reverse.2 hat)
    left
    refine ⟨a.reverse, b.reverse, ?_, fun h => hb (List.mem_reverse.1 h)⟩
    rw [← List.reverse_reverse s, hs]
    simp
  · by_cases hb : '[' ∈ s
    · exact .inr (.inl ⟨hat, List.eq_append_cons_of_mem hb⟩)
    · exact .inr (.inr ⟨hat, hb⟩)

variable {uc : Unicode}

variable (uc) in
/-- The property `hostname`: none, one with a zone, or the host in lower case. -/
theorem hostname_spec (r : ParseResult) : hostname uc r = none ∨ (∃ h, hostname uc r = some h ∧ '%' ∈ h) ∨
    hostname uc r = some (uc.lower (hostinfo r.netloc)) := by
  unfold hostname
  dsimp only
  split_ifs with hhost hzone
  · exact .inl rfl
  · exact .inr (.inl ⟨_, rfl, by simp⟩)
  · rw [partition_of_not_mem (by simpa using hzone), List.append_nil]
    exact .inr (.inr rfl)

theorem hostinfo_lowerFrom (before : Str) {s : Str} (h : 'Σ' ∉ hostinfo s) (hat : '@' ∉ s) :
    hostinfo (uc.lowerFrom before s) = (hostinfo s).flatMap uc.lowerChar := by
  have hat' : '@' ∉ uc.lowerFrom before s := fun hc => hat ((Unicode.mem_lowerFrom rfl before s).1 hc)
  rcases netloc_cases s with ⟨a, b, rfl, -⟩ | ⟨-, a, b, rfl, ha⟩ | ⟨-, hb⟩
  · exact absurd (by simp) hat
  · rw [hostinfo_bracketed hat ha] at h ⊢
    obtain ⟨a', hs, hmem⟩ := uc.lowerFrom_split before a ('[' :: b)
    rw [Unicode.lowerFrom_uncased rfl] at hs
    rw [hs] at hat' ⊢
    rw [hostinfo_bracketed hat' fun hc => ha ((hmem _ rfl).1 hc), Unicode.partition_lowerFrom rfl _ h]
  · rw [hostinfo_plain hat hb] at h ⊢
    rw [hostinfo_plain hat' fun hc => hb ((Unicode.mem_lowerFrom rfl before s).1 hc), Unicode.partition_lowerFrom rfl _ h]

/-- The host of the lower case is the lower case of the host. -/
theorem hostinfo_lower {s : Str} (h : 'Σ' ∉ hostinfo s) : hostinfo (uc.lower s) = uc.lower (hostinfo s) := by
  have hlower : uc.lower (hostinfo s) = (hostinfo s).flatMap uc.lowerChar := by
    have happ := uc.lowerFrom_append [] (hostinfo s) [] h
    rw [List.append_nil, Unicode.lowerFrom, List.append_nil] at happ
    exact happ
  rw [hlower, Unicode.lower]
  by_cases hat : '@' ∈ s
  · rcases netloc_cases s with ⟨a, b, rfl, hb⟩ | ⟨hs, -⟩ | ⟨hs, -⟩
    · rw [hostinfo_user hb] at h ⊢
      obtain ⟨a', hs, -⟩ := uc.lowerFrom_split [] a ('@' :: b)
      rw [Unicode.lowerFrom_uncased rfl] at hs
      rw [hs, hostinfo_user fun hc => hb ((Unicode.mem_lowerFrom rfl _ b).1 hc), hostinfo_lowerFrom _ h hb]
    · exact absurd hat hs
    · exact absurd hat hs
  · exact hostinfo_lowerFrom [] h hat

end SocialScraper
