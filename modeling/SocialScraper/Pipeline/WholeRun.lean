import SocialScraper.Discovery.RunDiscovery
import SocialScraper.Pipeline.FinalLeads
import SocialScraper.Pipeline.RunResult
/-!
# From the cards to the result

The discovery of the source under the stream of the source. Whatever the page
and the sites answer and however the tasks interleave, a result holds at most
`limit` different businesses, each a card of the feed that was only filled in
(`whole_run`).
-/
open Lib

namespace SocialScraper

section Cards
variable {lib : Stdlib}

/-- A card has no social link. -/
theorem buildLead_slot {raw : RawCard} {lead : BusinessLead} (h : buildLead lib raw = some lead) (p : Platform) :
    lead.social.slot p = (none, none) := by
  unfold buildLead at h
  split at h
  · cases h
  · cases h
  · cases h
  · cases h
  · dsimp only at h
    split at h
    · obtain rfl := Option.some.inj h
      cases p <;> rfl
    · obtain rfl := Option.some.inj h
      cases p <;> rfl
    · obtain ⟨website, -, rfl⟩ := Option.map_eq_some_iff.1 h
      cases p <;> rfl

theorem mem_extractAll {rawCards : List (Option RawCard)} {lead : BusinessLead} (h : lead ∈ extractAll lib rawCards) :
    ∃ raw, buildLead lib raw = some lead := by
  obtain ⟨raw, -, hraw⟩ := List.mem_filterMap.1 h
  obtain ⟨card, -, hbuild⟩ := Option.bind_eq_some_iff.1 hraw
  exact ⟨card, hbuild⟩

theorem Filled.businessKey {before now : BusinessLead} (h : Filled lib before now) : businessKey now = businessKey before := by
  unfold SocialScraper.businessKey
  rw [h.googleMapsUrl]

end Cards

namespace Orchestrator

variable {ι : Type}

/-- The discovery and the calls of the source. -/
def Environment.ofSource (ι : Type) (lib : Stdlib) (d : DiscoverConfig) (sc : ScrollConfig) (request : DiscoveryRequest) :
    Environment ι where
  behaviour := .ofSource ι lib d
  cancels := trivial
  discovers leads fields := ∃ as run result, Steps (Fires (DiscoveryRun.step lib sc request)) {} as run ∧
    run.phase = .returned result ∧ leads.map fields = result.leads

/-- The leads are different businesses of the feed, not more than asked for. -/
structure FromCards (lib : Stdlib) (limit : ℕ) (leads : List ι) (fields : ι → BusinessLead) : Prop where
  length : leads.length ≤ limit
  distinct : ((leads.map fields).filterMap businessKey).Nodup
  built : ∀ a ∈ leads, ∃ raw, buildLead lib raw = some (fields a)

variable {lib : Stdlib} {d : DiscoverConfig} {sc : ScrollConfig} {request : DiscoveryRequest} {leads : List ι}
  {fields : ι → BusinessLead}

theorem fromCards_discovers (h : (Environment.ofSource ι lib d sc request).discovers leads fields) :
    FromCards lib request.limit leads fields := by
  obtain ⟨as, run, result, hsteps, hp, hleads⟩ := h
  have hfound := DiscoveryRun.outcome_of_trace (DiscoveryRun.trace_run hsteps)
  simp only [DiscoveryRun.Outcome, hp] at hfound
  obtain ⟨rawCards, -, hcards, hlength⟩ := hfound.cards
  constructor
  · have hsame : leads.length = result.leads.length := by rw [← hleads, List.length_map]
    omega
  · rw [hleads]
    exact hfound.distinct.1
  · intro a ha
    have hmem : fields a ∈ result.leads := hleads ▸ List.mem_map_of_mem ha
    rw [hcards] at hmem
    exact mem_extractAll (List.mem_of_mem_take ((firsts_sublist _).subset hmem))

theorem fromCards_handsOn {found : Bool} (h : (Environment.ofSource ι lib d sc request).HandsOn found leads fields) :
    FromCards lib request.limit leads fields := by
  cases found with
  | true => exact fromCards_discovers h
  | false =>
    obtain rfl : leads = [] := h
    exact ⟨Nat.zero_le _, List.nodup_nil, nofun⟩

theorem paired_built {a : ι} (h : ∃ raw, buildLead lib raw = some (fields a)) (p : Platform) : Paired ((fields a).social.slot p) := by
  obtain ⟨raw, hraw⟩ := h
  rw [buildLead_slot hraw p]
  exact fun hn => absurd rfl hn

/-- What a run does to the leads keeps them different businesses. -/
theorem distinct_filled {now : ι → BusinessLead} (h : ∀ a ∈ leads, Filled lib (fields a) (now a)) :
    (leads.map now).filterMap businessKey = (leads.map fields).filterMap businessKey := by
  rw [List.filterMap_map, List.filterMap_map]
  apply List.filterMap_congr
  exact fun a ha => (h a ha).businessKey

/-- The result of a run, in terms of the leads that the discovery has returned. -/
theorem result_of_cards [DecidableEq ι] {c : PipelineConfig} {s : Orchestrator ι}
    (h : Outcome (.ofSource ι c.lib d sc request) c s) :
    ∃ found, FromCards c.lib request.limit s.leads found ∧
      ∀ a ∈ s.leads, Filled c.lib (found a) (s.fields a) ∧ Usable c.lib (s.fields a) := by
  cases h with
  | cancelledFirst _ hl =>
    rw [hl]
    exact ⟨s.fields, ⟨Nat.zero_le _, List.nodup_nil, nofun⟩, nofun⟩
  | cancelledNext found _ hl =>
    have hcards := fromCards_handsOn hl
    refine ⟨s.fields, hcards, fun a ha => ⟨⟨rfl, rfl, .inl rfl, paired_built (hcards.built a ha)⟩, fun p hp => ?_⟩⟩
    -- The cards have no social link.
    obtain ⟨raw, hraw⟩ := hcards.built a ha
    rw [buildLead_slot hraw p] at hp
    cases hp
  | streamed found before st r hl _ _ hrun hr _ hf =>
    have hcards := fromCards_handsOn hl
    rw [hf]
    refine ⟨before, hcards, fun a ha => ?_⟩
    have hpaired := paired_built (hcards.built a ha)
    exact ⟨(Stream.leadInv_reachable hpaired hrun).filled, Stream.usable_returned hpaired hrun hr ha⟩

/-- Whatever the page and the sites answer, however the tasks interleave and whenever the run is cancelled: a result
has at most `limit` leads, of different businesses. Each is the lead of a card, where only a missing website and the
social links were filled in, and each social link is valid and in normal form. -/
theorem whole_run [DecidableEq ι] (c : PipelineConfig) (d : DiscoverConfig) (sc : ScrollConfig) (request : DiscoveryRequest)
    (owns cancelled raises : Bool) (manager : BrowserManager) (fields : ι → BusinessLead) (as : List (OrchestratorAction ι))
    (s : Orchestrator ι)
    (h : Steps (Guarded (Tame (.ofSource ι c.lib d sc request)) (Fires (step c owns)))
      (start owns cancelled raises manager fields) as s)
    (hp : s.phase = .ended .result) :
    s.result.leads.length ≤ request.limit ∧ (s.result.leads.filterMap businessKey).Nodup ∧
      ∀ lead ∈ s.result.leads, Usable c.lib lead ∧ ∃ raw found, buildLead c.lib raw = some found ∧ Filled c.lib found lead := by
  have htold := told_run h
  simp only [Told, hp] at htold
  obtain ⟨found, hcards, hleads⟩ := result_of_cards htold
  refine ⟨?_, ?_, ?_⟩
  · have hsame : s.result.leads.length = s.leads.length := List.length_map _
    rw [hsame]
    exact hcards.length
  · have hkeys := distinct_filled fun a ha => (hleads a ha).1
    show ((s.leads.map s.fields).filterMap businessKey).Nodup
    rw [hkeys]
    exact hcards.distinct
  · intro lead hlead
    obtain ⟨a, ha, rfl⟩ := List.mem_map.1 hlead
    obtain ⟨raw, hraw⟩ := hcards.built a ha
    obtain ⟨hfilled, husable⟩ := hleads a ha
    exact ⟨husable, raw, found a, hraw, hfilled⟩

/-- One card is wanted, and the feed has it at once. -/
def cafeRequest : DiscoveryRequest := ⟨"cafe".toList, "Town".toList, 1⟩

def cafeCard : RawCard := { mapsUrl := some "https://maps.test/1".toList, rawName := some "Cafe".toList }

def cafeScrolling : ScrollConfig := .new {} none none none none nofun nofun

theorem cafe_discovered : (Environment.ofSource ℕ .plain Stream.plainDiscovery cafeScrolling cafeRequest).discovers [7] fun _ => mapsLead := by
  obtain ⟨run, hrun, result, hp, hleads⟩ : ∃ run, exec (DiscoveryRun.step .plain cafeScrolling cafeRequest) {}
      (DiscoveryRun.search ++ [.scroll (.counted 1), .collected [some cafeCard]]) = some run ∧
        ∃ result, run.phase = .returned result ∧ result.leads = [mapsLead] := ⟨_, rfl, _, rfl, by decide +kernel⟩
  exact ⟨_, run, result, steps_of_exec hrun, hp, hleads.symm⟩

def cafeRun : List (OrchestratorAction ℕ) := .discovers [7] (fun _ => mapsLead) :: Stream.searchedRun.map .streams

/-- `Tame`, for the run of the one card. -/
def cafeTame (s : Orchestrator ℕ) : OrchestratorAction ℕ → Bool
  | .discovers leads fields => leads = [7] && fields 7 = mapsLead
  | .streams e => s.stream.all fun st => Stream.asSearched st e
  | _ => true

theorem tame_cafe {s : Orchestrator ℕ} {a : OrchestratorAction ℕ} (h : cafeTame s a) :
    s.Tame (.ofSource ℕ .plain Stream.plainDiscovery cafeScrolling cafeRequest) a := by
  cases a with
  | discovers leads fields =>
    simp only [cafeTame, Bool.and_eq_true, decide_eq_true_eq] at h
    obtain ⟨rfl, hf⟩ := h
    obtain ⟨as, run, result, hsteps, hp, hleads⟩ := cafe_discovered
    refine ⟨List.nodup_singleton 7, as, run, result, hsteps, hp, ?_⟩
    rw [← hleads, List.map_singleton, List.map_singleton, hf]
  | streams e =>
    intro st hst
    simp only [cafeTame, hst, Option.all_some] at h
    exact Stream.allows_searched h
  | _ => trivial

theorem whole_run_cafe :
    ∃ s, exec (guarded cafeTame (step Stream.onePipeline false)) (start false false false {} fun _ => mapsLead)
        cafeRun = some s ∧ s.result.leads.length ≤ 1 ∧ ∀ lead ∈ s.result.leads, Usable .plain lead := by
  obtain ⟨s, hs, hp⟩ := exec_ends (f := guarded cafeTame (step Stream.onePipeline false))
    (Q := fun s : Orchestrator ℕ => s.phase = .ended .result) (s := start false false false {} fun _ => mapsLead)
    cafeRun (by decide +kernel)
  have hsteps := (steps_of_exec hs).mono fun _ _ _ hg =>
    have hg := Option.ite_none_right_eq_some.1 hg
    (⟨tame_cafe hg.1, hg.2⟩ : Guarded (Tame (.ofSource ℕ Stream.onePipeline.lib Stream.plainDiscovery cafeScrolling cafeRequest))
      (Fires (step Stream.onePipeline false)) _ _ _)
  obtain ⟨hlength, -, hleads⟩ := whole_run Stream.onePipeline Stream.plainDiscovery cafeScrolling cafeRequest false false
    false {} (fun _ => mapsLead) cafeRun s hsteps hp
  exact ⟨s, hs, hlength, fun lead hlead => (hleads lead hlead).1⟩

end Orchestrator

end SocialScraper
