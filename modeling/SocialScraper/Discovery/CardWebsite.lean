import SocialScraper.Discovery.Cards
import SocialScraper.Pipeline.Stream
import SocialScraper.Validators
/-!
# The website of a card

A card's website is normalized, the one of the detail panel is validated
before. So a card with an href that is no website gives its lead one, and the
lead is not enriched (`card_agrees_iff`).
-/

namespace SocialScraper

variable {uc : Unicode}

/-- The website of a lead that is built from a card. -/
theorem buildLead_website {lib : Stdlib} {raw : RawCard} {lead : BusinessLead} (h : buildLead lib raw = some lead) :
    (∀ href, raw.website = some href → href = []) ∧ lead.website = none ∨
      ∃ href website, raw.website = some href ∧ href ≠ [] ∧ normalizeBusinessUrl lib href = some website ∧
        lead.website = some website := by
  unfold buildLead at h
  split at h
  · cases h
  · cases h
  · cases h
  · cases h
  · dsimp only at h
    split at h
    · rename_i hnone
      refine .inl ⟨fun href hhref => ?_, Option.some.inj h ▸ rfl⟩
      rw [hnone] at hhref
      cases hhref
    · rename_i hempty
      refine .inl ⟨fun href hhref => ?_, Option.some.inj h ▸ rfl⟩
      exact (Option.some.inj (hempty.symm.trans hhref)).symm
    · rename_i href hne hhref
      obtain ⟨website, hwebsite, rfl⟩ := Option.map_eq_some_iff.1 h
      exact .inr ⟨href, website, hhref, hne, hwebsite, rfl⟩

/-- Without an href, no website is found. -/
theorem panel_falsy {website : Option Str} (h : ∀ href, website = some href → href = []) :
    validateAndNormalizeWebsite (cpython uc) website = .ok none := by
  cases website with
  | none => rfl
  | some href =>
    obtain rfl := h href rfl
    rfl

/-- What the panel route makes of an href that does not make the card route raise. -/
theorem panel_website {href website : Str} (h : normalizeBusinessUrl (cpython uc) href = some website) :
    NamesHost uc href ∧ validateAndNormalizeWebsite (cpython uc) (some href) = .ok (some website) ∨
      ¬ NamesHost uc href ∧ validateAndNormalizeWebsite (cpython uc) (some href) = .ok none := by
  obtain ⟨m, hm, -⟩ := Option.bind_eq_some_iff.1 h
  rw [← isValidUrl_normal_iff hm, Bool.not_eq_true]
  cases hvalid : isValidUrl (cpython uc) m with
  | true => exact .inl ⟨rfl, website_valid hm hvalid h⟩
  | false => exact .inr ⟨rfl, website_invalid hm hvalid⟩

/-- Card and detail panel agree on an href, and leave the lead to enrichment if it is no website, if and only if the
href is empty or names a valid host. -/
theorem card_agrees_iff {raw : RawCard} {lead : BusinessLead} {website : Option Str}
    (hcard : buildLead (cpython uc) raw = some lead)
    (hpanel : validateAndNormalizeWebsite (cpython uc) raw.website = .ok website) :
    (lead.website = website ∧ (website = none → lead.website = none ∧ needsEnrichment lead = true)) ↔
      ∀ href, raw.website = some href → href ≠ [] → NamesHost uc href := by
  obtain ⟨c, url, hurl⟩ := buildLead_mapsUrl hcard
  rcases buildLead_website hcard with ⟨hfalsy, hlead⟩ | ⟨href, stored, hraw, hne, hstored, hlead⟩
  · rw [panel_falsy hfalsy] at hpanel
    obtain rfl := Except.ok.inj hpanel
    have hneeds : needsEnrichment lead = true := by
      rw [needsEnrichment, hlead, hurl]
      rfl
    exact iff_of_true ⟨hlead, fun _ => ⟨hlead, hneeds⟩⟩ fun href hraw hne => absurd (hfalsy href hraw) hne
  · rw [hraw] at hpanel
    have hcond : (∀ href', raw.website = some href' → href' ≠ [] → NamesHost uc href') ↔ NamesHost uc href := by
      rw [hraw]
      constructor
      · exact fun h => h href rfl hne
      · rintro h href' he -
        exact Option.some.inj he ▸ h
    rw [hcond, hlead]
    rcases panel_website hstored with ⟨hhost, hok⟩ | ⟨hhost, hok⟩
    · rw [hok] at hpanel
      obtain rfl := Except.ok.inj hpanel
      exact iff_of_true ⟨rfl, nofun⟩ hhost
    · rw [hok] at hpanel
      obtain rfl := Except.ok.inj hpanel
      exact iff_of_false (fun h => nomatch h.1) hhost

theorem card_agrees_shop :
    let raw : RawCard := ⟨some "/maps/place/shop".toList, some "Shop".toList, some "shop.test/?utm_source=maps".toList⟩
    ∃ lead, buildLead (cpython .ascii) raw = some lead ∧
      ((lead.website = some "https://shop.test".toList ∧
          (some "https://shop.test".toList = none → lead.website = none ∧ needsEnrichment lead = true)) ↔
        ∀ href, raw.website = some href → href ≠ [] → NamesHost .ascii href) :=
  ⟨_, rfl, card_agrees_iff rfl (by decide +kernel)⟩

/-- A card whose href is no website. -/
def mailCard : RawCard := ⟨some "/maps/place/shop".toList, some "Shop".toList, some "mailto:info".toList⟩

/-- The lead keeps the href as its website, and is not enriched. -/
theorem mail_card_kept : validateAndNormalizeWebsite (cpython .ascii) mailCard.website = .ok none ∧
    ((buildLead (cpython .ascii) mailCard).map fun lead => (lead.website, needsEnrichment lead)) =
      some (some "https://mailto:info".toList, false) := by
  decide +kernel

end SocialScraper
