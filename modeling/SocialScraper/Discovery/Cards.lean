import SocialScraper.Enrichment.EnrichmentCache
import SocialScraper.Lib.Firsts
import SocialScraper.Selection
import SocialScraper.Urllib.Query
/-!
# Result cards

The stages of `app.discovery.google_maps.pipeline` behind the scrolling:
`CollectCardsStage` with `card_extractor`, and `DeduplicateStage` with `dedup`.
The leads that come out are the distinct businesses among the first `limit`
cards (`deduplicateLeads_unique`), which are the first `limit` distinct
businesses only at times (`discovery_fills_limit_iff`).
-/
open Lib

namespace SocialScraper

/-! ## `card_extractor` -/

/-- A card as the script reads it from the feed. -/
structure RawCard where
  mapsUrl : Option Str
  rawName : Option Str
  website : Option Str := none

/-- `re.sub(r"\s+", " ", text)`; `inRun` is whether the character before was whitespace. -/
def collapseWhitespace (inRun : Bool) : Str → Str
  | [] => []
  | c :: s =>
    if isSpace c then
      if inRun then collapseWhitespace true s else ' ' :: collapseWhitespace true s
    else c :: collapseWhitespace false s

def cleanWhitespace (text : Str) : Str := strip (collapseWhitespace false text)

def normalizeBusinessName (name : Str) : Str :=
  let chars (c : Char) : Bool := [' ', '-', '–', '—', '.', ','].contains c
  rstrip chars ((cleanWhitespace name).dropWhile chars)

variable (lib : Stdlib)

/-- `_build_lead`; its exceptions are caught, too. -/
def buildLead (raw : RawCard) : Option BusinessLead :=
  match raw.mapsUrl, raw.rawName with
  | none, _ | some [], _ | _, none | _, some [] => none
  | some mapsUrl, some rawName =>
    let lead (website : Option Str) : BusinessLead :=
      { businessName := normalizeBusinessName rawName, website := website, social := { googleMapsUrl := some mapsUrl } }
    match raw.website with
    | none | some [] => some (lead none)
    | some website => (normalizeBusinessUrl lib website).map fun website => lead (some website)

/-- `extract_all`, from what the script returns on. A card can be `null`. -/
def extractAll (rawCards : List (Option RawCard)) : List BusinessLead :=
  rawCards.filterMap fun raw => raw.bind (buildLead lib)

/-! ## `dedup` -/

/-- `_dedup_key`. -/
def dedupKey (mapsUrl : Str) : Str := (extractPlaceId mapsUrl).getD (rstrip (· == '/') (partition '?' mapsUrl).1)

/-- The local variables of `deduplicate_leads`. -/
structure LeadDedup where
  seen : List Str := []
  unique : List BusinessLead := []
  duplicateCount : ℕ := 0

/-- The body of its loop. -/
def LeadDedup.add (d : LeadDedup) (lead : BusinessLead) : LeadDedup :=
  match lead.social.googleMapsUrl with
  | none | some [] => { d with unique := d.unique ++ [lead] }
  | some mapsUrl =>
    let key := dedupKey mapsUrl
    if d.seen.contains key then { d with duplicateCount := d.duplicateCount + 1 }
    else { d with seen := key :: d.seen, unique := d.unique ++ [lead] }

def deduplicateLeads (leads : List BusinessLead) : List BusinessLead × ℕ :=
  let d := leads.foldl LeadDedup.add {}
  (d.unique, d.duplicateCount)

/-! ## The stages -/

structure DiscoveryContext where
  limit : ℕ
  leads : List BusinessLead := []
  duplicateCount : ℕ := 0

/-- `CollectCardsStage.process`, with the cards of the feed. -/
def collectCards (rawCards : List (Option RawCard)) (context : DiscoveryContext) : DiscoveryContext :=
  let leads := extractAll lib rawCards
  { context with leads := if leads.length > context.limit then leads.take context.limit else leads }

/-- `DeduplicateStage.process`. -/
def DiscoveryContext.deduplicate (context : DiscoveryContext) : DiscoveryContext :=
  let (unique, duplicateCount) := deduplicateLeads context.leads
  { context with leads := unique, duplicateCount := duplicateCount }

/-! ## Distinct businesses -/

/-- The key of the business of a lead, if it has one. -/
def businessKey (lead : BusinessLead) : Option Str :=
  match lead.social.googleMapsUrl with
  | none | some [] => none
  | some mapsUrl => some (dedupKey mapsUrl)

/-- What one pass of the loop does, by the key of the lead. -/
theorem LeadDedup.add_eq (d : LeadDedup) (lead : BusinessLead) : d.add lead =
    match businessKey lead with
    | none => { d with unique := d.unique ++ [lead] }
    | some key =>
      if d.seen.contains key then { d with duplicateCount := d.duplicateCount + 1 }
      else { d with seen := key :: d.seen, unique := d.unique ++ [lead] } := by
  unfold add businessKey
  split <;> rfl

theorem LeadDedup.fold_unique (leads : List BusinessLead) (d : LeadDedup) :
    (leads.foldl add d).unique = d.unique ++ firstsFrom businessKey d.seen leads := by
  induction leads generalizing d with
  | nil => exact (List.append_nil _).symm
  | cons lead leads ih =>
    rw [List.foldl_cons, ih, add_eq]
    cases hk : businessKey lead with
    | none => rw [firstsFrom_none hk, List.append_assoc, List.singleton_append]
    | some key =>
      dsimp only
      split_ifs with hs
      · rw [firstsFrom_seen hk (List.contains_iff_mem.1 hs)]
      · rw [firstsFrom_new hk fun hmem => hs (List.contains_iff_mem.2 hmem), List.append_assoc, List.singleton_append]

theorem deduplicateLeads_unique (leads : List BusinessLead) : (deduplicateLeads leads).1 = firsts businessKey leads :=
  LeadDedup.fold_unique leads {}

variable {lib}

theorem buildLead_mapsUrl {raw : RawCard} {lead : BusinessLead} (h : buildLead lib raw = some lead) :
    ∃ c url, lead.social.googleMapsUrl = some (c :: url) := by
  unfold buildLead at h
  split at h
  · cases h
  · cases h
  · cases h
  · cases h
  · rename_i mapsUrl rawName hne _ _ _
    obtain ⟨c, url, rfl⟩ := List.exists_cons_of_ne_nil fun hnil => hne (hnil ▸ rfl)
    dsimp only at h
    split at h
    · exact ⟨c, url, Option.some.inj h ▸ rfl⟩
    · exact ⟨c, url, Option.some.inj h ▸ rfl⟩
    · obtain ⟨website, -, rfl⟩ := Option.map_eq_some_iff.1 h
      exact ⟨c, url, rfl⟩

/-- A lead that is built from a card has a key. -/
theorem businessKey_isSome {rawCards : List (Option RawCard)} : ∀ lead ∈ extractAll lib rawCards, (businessKey lead).isSome := by
  intro lead hlead
  obtain ⟨raw, -, hraw⟩ := List.mem_filterMap.1 hlead
  obtain ⟨card, rfl, hbuild⟩ := Option.bind_eq_some_iff.1 hraw
  obtain ⟨c, url, hurl⟩ := buildLead_mapsUrl hbuild
  rw [businessKey, hurl]
  rfl

variable (lib)

/-- Discovery returns the first `limit` distinct businesses exactly if the first `limit` leads are all of
different businesses, or no other business is behind them. -/
theorem discovery_fills_limit_iff (rawCards : List (Option RawCard)) (limit : ℕ) :
    (collectCards lib rawCards { limit := limit }).deduplicate.leads =
        (firsts businessKey (extractAll lib rawCards)).take
          (min limit ((extractAll lib rawCards).filterMap businessKey).toFinset.card) ↔
      (((extractAll lib rawCards).take limit).filterMap businessKey).Nodup ∨
        ∀ lead ∈ (extractAll lib rawCards).drop limit,
          ∃ key ∈ businessKey lead, key ∈ ((extractAll lib rawCards).take limit).filterMap businessKey := by
  have hcollect : (collectCards lib rawCards { limit := limit }).leads = (extractAll lib rawCards).take limit := by
    unfold collectCards
    dsimp only
    split_ifs with h
    · rfl
    · exact (List.take_of_length_le (not_lt.1 h)).symm
  have hleads : (collectCards lib rawCards { limit := limit }).deduplicate.leads =
      firsts businessKey ((extractAll lib rawCards).take limit) := by
    rw [← hcollect]
    exact deduplicateLeads_unique _
  have hfirst : (firsts businessKey (extractAll lib rawCards)).take
      (min limit ((extractAll lib rawCards).filterMap businessKey).toFinset.card) =
        (firsts businessKey (extractAll lib rawCards)).take limit := by
    rw [← firsts_length businessKey_isSome]
    exact List.take_eq_take_min.symm
  rw [hleads, hfirst, firsts_take_iff]

/-- A place that is rendered twice takes the room of another one. -/
theorem duplicate_takes_place :
    let card (name id : String) : Option RawCard :=
      some { mapsUrl := some ("/maps/place/data=!1s0x".toList ++ id.toList), rawName := some name.toList }
    let cards := [card "Cafe" "1:0x1", card "Cafe" "1:0x1", card "Bar" "2:0x2"]
    let leads := (collectCards .plain cards { limit := 2 }).deduplicate.leads
    leads.map (·.businessName) = ["Cafe".toList] ∧
      leads ≠ (firsts businessKey (extractAll .plain cards)).take
        (min 2 ((extractAll .plain cards).filterMap businessKey).toFinset.card) := by
  decide +kernel

end SocialScraper
