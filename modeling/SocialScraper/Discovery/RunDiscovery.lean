import SocialScraper.Discovery.LeadDedup
import SocialScraper.Discovery.ScrollOutcome
/-!
# A whole discovery

`run_discovery` with its four stages: `MapsNavigator.search`, the scrolling, the
cards and their deduplication. It stops at the awaits of the navigator, at
those of the scroll engine and at the script that reads the cards.
-/
open Lib

namespace SocialScraper

/-- The awaits of `MapsNavigator.search`, in order. -/
inductive NavigatorAwait where
  | goto
  | waitForSearchBox
  | fill
  | press
  | waitForFeed
deriving DecidableEq

namespace NavigatorAwait

def next : NavigatorAwait → Option NavigatorAwait
  | .goto => some .waitForSearchBox
  | .waitForSearchBox => some .fill
  | .fill => some .press
  | .press => some .waitForFeed
  | .waitForFeed => none

/-- How many awaits have returned. -/
def passed : NavigatorAwait → ℕ
  | .goto => 0
  | .waitForSearchBox => 1
  | .fill => 2
  | .press => 3
  | .waitForFeed => 4

theorem passed_next {a b : NavigatorAwait} (h : a.next = some b) : b.passed = a.passed + 1 := by
  cases a <;> cases h <;> rfl

theorem passed_last {a : NavigatorAwait} (h : a.next = none) : a.passed + 1 = 5 := by
  cases a <;> first | rfl | cases h

end NavigatorAwait

/-- How one of them ends. -/
inductive NavigationEnd where
  | returns
  /-- By a `PlaywrightTimeoutError`. -/
  | timesOut
  | raises
  | cancelled
deriving DecidableEq

/-- What `run_discovery` raises. -/
inductive DiscoveryError where
  /-- `ScraperTimeoutError`. -/
  | scraperTimeout (message : Str)
  /-- `DiscoveryError`. -/
  | discovery (message : Str)
  /-- What the page raises behind the search, as it is. -/
  | page
deriving DecidableEq

/-- `ProgressTracker`. -/
structure ProgressTracker where
  targetLimit : ℕ
  collected : ℕ := 0
deriving DecidableEq

/-- The `remaining` of its snapshot. -/
def ProgressTracker.remaining (p : ProgressTracker) : ℕ := p.targetLimit - p.collected

/-- `DiscoveryMetrics`, without its times. -/
structure DiscoveryMetrics where
  cardsCollected : ℕ
  scrollCount : ℕ
  duplicateCount : ℕ
deriving DecidableEq

structure DiscoveryResult where
  leads : List BusinessLead
  metrics : DiscoveryMetrics

structure DiscoveryRequest where
  keyword : Str
  location : Str
  limit : ℕ

inductive DiscoveryPhase where
  | navigating (a : NavigatorAwait)
  | scrolling (call : ScrollCall)
  /-- In the script that reads the cards. -/
  | collecting (scroll : ScrollResult)
  | returned (result : DiscoveryResult)
  | raised (e : DiscoveryError)
  | cancelled

inductive DiscoveryAction where
  | navigated (e : NavigationEnd)
  | scroll (a : ScrollAction)
  /-- The script returns. -/
  | collected (rawCards : List (Option RawCard))
  /-- An await behind the search raises, or the task is cancelled there. -/
  | pageFails (cancelled : Bool)

structure DiscoveryRun where
  phase : DiscoveryPhase := .navigating .goto
  progress : Option ProgressTracker := none

namespace DiscoveryRun

variable (lib : Stdlib) (c : ScrollConfig) (request : DiscoveryRequest)

/-- `query` of `search`. -/
def query (request : DiscoveryRequest) : Str := request.keyword ++ " in ".toList ++ request.location

/-- What `search` makes of an await that does not return. -/
def searchError (request : DiscoveryRequest) : NavigationEnd → DiscoveryPhase
  | .timesOut => .raised (.scraperTimeout ("Timed out loading Google Maps results for '".toList ++ query request ++ ['\'']))
  | .cancelled => .cancelled
  | _ => .raised (.discovery ("Failed to search Google Maps for '".toList ++ query request ++ ['\'']))

/-- `CollectCardsStage` and `DeduplicateStage`, and the result. -/
def collect (scroll : ScrollResult) (rawCards : List (Option RawCard)) : DiscoveryRun :=
  let context := collectCards lib rawCards { limit := request.limit }
  let unique := context.deduplicate
  { phase := .returned
      { leads := unique.leads
        metrics := ⟨unique.leads.length, scroll.scrollCount, unique.duplicateCount⟩ }
    progress := some { targetLimit := request.limit, collected := context.leads.length } }

def step (s : DiscoveryRun) : DiscoveryAction → Option DiscoveryRun
  | .navigated e =>
    match s.phase with
    | .navigating a =>
      if e = .returns then
        match a.next with
        | some b => some { s with phase := .navigating b }
        | none => some { phase := .scrolling (.start c request.limit), progress := some { targetLimit := request.limit } }
      else some { s with phase := searchError request e }
    | _ => none
  | .scroll a =>
    match s.phase with
    | .scrolling call =>
      (call.step c a).map fun call =>
        match call.phase with
        | .returned r => { s with phase := .collecting r }
        | _ => { s with phase := .scrolling call }
    | _ => none
  | .collected rawCards =>
    match s.phase with
    | .collecting r => some (collect lib request r rawCards)
    | _ => none
  | .pageFails cancelled =>
    match s.phase with
    | .scrolling _ | .collecting _ => some { s with phase := if cancelled then .cancelled else .raised .page }
    | _ => none

/-! ## What an action can do -/

/-- Everything an action can do to the phase. -/
inductive Effect (s : DiscoveryRun) : DiscoveryAction → DiscoveryPhase → Prop
  | navigates {a b} (hp : s.phase = .navigating a) (hb : a.next = some b) : Effect s (.navigated .returns) (.navigating b)
  | searched {a} (hp : s.phase = .navigating a) (hb : a.next = none) :
      Effect s (.navigated .returns) (.scrolling (.start c request.limit))
  | fails {a e} (hp : s.phase = .navigating a) (he : e ≠ .returns) : Effect s (.navigated e) (searchError request e)
  | scrolls {call call' a} (hp : s.phase = .scrolling call) (hs : call.step c a = some call')
      (hn : ∀ r, call'.phase ≠ .returned r) : Effect s (.scroll a) (.scrolling call')
  | scrolled {call call' a r} (hp : s.phase = .scrolling call) (hs : call.step c a = some call')
      (hr : call'.phase = .returned r) : Effect s (.scroll a) (.collecting r)
  | collects {r rawCards} (hp : s.phase = .collecting r) :
      Effect s (.collected rawCards) (collect lib request r rawCards).phase
  | pageFails {cancelled} (hp : (∃ call, s.phase = .scrolling call) ∨ ∃ r, s.phase = .collecting r) :
      Effect s (.pageFails cancelled) (if cancelled then .cancelled else .raised .page)

variable {lib c request} {s s' : DiscoveryRun} {as : List DiscoveryAction}

theorem effect_of {a : DiscoveryAction} (h : s.step lib c request a = some s') : Effect lib c request s a s'.phase := by
  cases a with
  | navigated e =>
    simp only [step] at h
    split at h
    · rename_i a hp
      split_ifs at h with he
      · subst he
        split at h
        · rename_i b hb
          exact Option.some.inj h ▸ .navigates hp hb
        · rename_i hb
          exact Option.some.inj h ▸ .searched hp hb
      · exact Option.some.inj h ▸ .fails hp he
    · cases h
  | scroll a =>
    simp only [step] at h
    split at h
    · rename_i call hp
      obtain ⟨call', hs, rfl⟩ := Option.map_eq_some_iff.1 h
      cases hr : call'.phase with
      | returned r => exact .scrolled hp hs hr
      | _ => exact .scrolls hp hs (by simp [hr])
    · cases h
  | collected rawCards =>
    simp only [step] at h
    split at h
    · rename_i r hp
      exact Option.some.inj h ▸ .collects hp
    · cases h
  | pageFails cancelled =>
    simp only [step] at h
    split at h
    · rename_i call hp
      exact Option.some.inj h ▸ .pageFails (.inl ⟨call, hp⟩)
    · rename_i r hp
      exact Option.some.inj h ▸ .pageFails (.inr ⟨r, hp⟩)
    · cases h

/-! ## What a run has been -/

/-- The actions of a search that returns. -/
def search : List DiscoveryAction := List.replicate 5 (.navigated .returns)

/-- The actions that have led to the phase. -/
inductive Trace (lib : Stdlib) (c : ScrollConfig) (request : DiscoveryRequest) (as : List DiscoveryAction)
    (phase : DiscoveryPhase) : Prop
  | navigating {a} (hp : phase = .navigating a) (has : as = List.replicate a.passed (.navigated .returns))
  | scrolling {call scrolls} (hp : phase = .scrolling call) (has : as = search ++ scrolls.map .scroll)
      (h : Steps (Fires (ScrollCall.step c)) (.start c request.limit) scrolls call) (hn : ∀ r, call.phase ≠ .returned r)
  | collecting {call scrolls r} (hp : phase = .collecting r) (has : as = search ++ scrolls.map .scroll)
      (h : Steps (Fires (ScrollCall.step c)) (.start c request.limit) scrolls call) (hr : call.phase = .returned r)
  | returned {call scrolls r rawCards} (hp : phase = (collect lib request r rawCards).phase)
      (has : as = search ++ scrolls.map .scroll ++ [.collected rawCards])
      (h : Steps (Fires (ScrollCall.step c)) (.start c request.limit) scrolls call) (hr : call.phase = .returned r)
  | searchFails {a e} (hp : phase = searchError request e) (he : e ≠ .returns)
      (has : as = List.replicate (NavigatorAwait.passed a) (.navigated .returns) ++ [.navigated e])
  | pageFails {scrolls call cancelled} (hp : phase = if cancelled then .cancelled else .raised .page)
      (has : as = search ++ scrolls.map .scroll ++ [.pageFails cancelled])
      (h : Steps (Fires (ScrollCall.step c)) (.start c request.limit) scrolls call)

theorem searchError_ends (request : DiscoveryRequest) (e : NavigationEnd) :
    searchError request e = .cancelled ∨ ∃ error, searchError request e = .raised error := by
  cases e with
  | cancelled => exact .inl rfl
  | _ => exact .inr ⟨_, rfl⟩

section Trace
variable {phase : DiscoveryPhase}

/-- What has led to a phase that goes on. -/
def Going (c : ScrollConfig) (request : DiscoveryRequest) (as : List DiscoveryAction) : DiscoveryPhase → Prop
  | .navigating a => as = List.replicate a.passed (.navigated .returns)
  | .scrolling call => ∃ scrolls, as = search ++ scrolls.map .scroll ∧
      Steps (Fires (ScrollCall.step c)) (.start c request.limit) scrolls call ∧ ∀ r, call.phase ≠ .returned r
  | .collecting r => ∃ scrolls call, as = search ++ scrolls.map .scroll ∧
      Steps (Fires (ScrollCall.step c)) (.start c request.limit) scrolls call ∧ call.phase = .returned r
  | .returned _ | .raised _ | .cancelled => True

theorem Trace.going (h : Trace lib c request as phase) : Going c request as phase := by
  cases h with
  | navigating hp has =>
    rw [hp]
    exact has
  | scrolling hp has h hn =>
    rw [hp]
    exact ⟨_, has, h, hn⟩
  | collecting hp has h hr =>
    rw [hp]
    exact ⟨_, _, has, h, hr⟩
  | returned hp =>
    rw [hp]
    trivial
  | @searchFails _ e hp =>
    rw [hp]
    rcases searchError_ends request e with he | ⟨error, he⟩ <;> rw [he] <;> trivial
  | @pageFails _ _ cancelled hp =>
    rw [hp]
    cases cancelled <;> trivial

theorem trace_step {a : DiscoveryAction} (ht : Trace lib c request as s.phase) (h : Effect lib c request s a phase) :
    Trace lib c request (as ++ [a]) phase := by
  have hgoing := ht.going
  cases h with
  | navigates hp hb =>
    rw [hp] at hgoing
    refine .navigating rfl ?_
    rw [hgoing, NavigatorAwait.passed_next hb, List.replicate_succ']
  | searched hp hb =>
    rw [hp] at hgoing
    refine .scrolling rfl ?_ (.nil _) (fun r hr => by cases hr)
    rw [hgoing, ← List.replicate_succ', NavigatorAwait.passed_last hb]
    exact (List.append_nil search).symm
  | fails hp he =>
    rw [hp] at hgoing
    exact .searchFails rfl he (by rw [hgoing])
  | scrolls hp hs hn =>
    rw [hp] at hgoing
    obtain ⟨scrolls, has, hscrolls, -⟩ := hgoing
    refine .scrolling rfl ?_ (hscrolls.snoc hs) hn
    rw [has, List.map_append, List.append_assoc]
    rfl
  | scrolled hp hs hr =>
    rw [hp] at hgoing
    obtain ⟨scrolls, has, hscrolls, -⟩ := hgoing
    refine .collecting rfl ?_ (hscrolls.snoc hs) hr
    rw [has, List.map_append, List.append_assoc]
    rfl
  | collects hp =>
    rw [hp] at hgoing
    obtain ⟨scrolls, call, has, hscrolls, hr⟩ := hgoing
    exact .returned rfl (by rw [has]) hscrolls hr
  | pageFails hp =>
    rcases hp with ⟨call, hp⟩ | ⟨r, hp⟩
    · rw [hp] at hgoing
      obtain ⟨scrolls, has, hscrolls, -⟩ := hgoing
      exact .pageFails rfl (by rw [has]) hscrolls
    · rw [hp] at hgoing
      obtain ⟨scrolls, call, has, hscrolls, -⟩ := hgoing
      exact .pageFails rfl (by rw [has]) hscrolls

theorem trace_run (h : Steps (Fires (step lib c request)) {} as s) : Trace lib c request as s.phase := by
  induction h with
  | nil => exact .navigating rfl rfl
  | snoc _ hr ih => exact trace_step ih (effect_of hr)

end Trace

/-! ## What a discovery returns -/

/-- The action scrolls the feed. -/
def scrolls : DiscoveryAction → Bool
  | .scroll .scrolled => true
  | _ => false

theorem countP_scrolls (scrolled : List ScrollAction) : (scrolled.map DiscoveryAction.scroll).countP scrolls = scrolled.count .scrolled := by
  rw [List.countP_map, List.count]
  apply List.countP_congr
  intro a _
  cases a <;> simp [scrolls]

theorem countP_search : search.countP scrolls = 0 := rfl

/-- What a discovery has done that returns the result. -/
structure Found (lib : Stdlib) (c : ScrollConfig) (request : DiscoveryRequest) (as : List DiscoveryAction)
    (result : DiscoveryResult) : Prop where
  /-- The leads are the different businesses of the first cards that the script has returned, and the others are counted. -/
  cards : ∃ rawCards, as.getLast? = some (.collected rawCards) ∧
    result.leads = firsts businessKey ((extractAll lib rawCards).take request.limit) ∧
    result.leads.length + result.metrics.duplicateCount = min request.limit (extractAll lib rawCards).length
  distinct : (result.leads.filterMap businessKey).Nodup ∧ ∀ lead ∈ result.leads, (businessKey lead).isSome
  counted : result.metrics.cardsCollected = result.leads.length
  scrolled : result.metrics.scrollCount = as.countP scrolls ∧ result.metrics.scrollCount ≤ c.maxTotal

/-- How the phase has come about, and that a discovery goes on while it is not over. -/
def Outcome (lib : Stdlib) (c : ScrollConfig) (request : DiscoveryRequest) (as : List DiscoveryAction) (s : DiscoveryRun) : Prop :=
  match s.phase with
  | .navigating _ => ∀ e, (s.step lib c request (.navigated e)).isSome
  | .scrolling _ =>
    (∀ n, (s.step lib c request (.scroll (.counted n))).isSome) ∨
      (∀ found, (s.step lib c request (.scroll (.marker found))).isSome) ∨
      (s.step lib c request (.scroll .scrolled)).isSome ∨ (s.step lib c request (.scroll .slept)).isSome
  | .collecting _ => ∀ rawCards, (s.step lib c request (.collected rawCards)).isSome
  | .returned result => Found lib c request as result
  | .raised (.scraperTimeout _) => as.getLast? = some (.navigated .timesOut)
  | .raised (.discovery _) => as.getLast? = some (.navigated .raises)
  | .raised .page => as.getLast? = some (.pageFails false)
  | .cancelled => as.getLast? = some (.navigated .cancelled) ∨ as.getLast? = some (.pageFails true)

variable (lib) in
theorem collectCards_leads (rawCards : List (Option RawCard)) (limit : ℕ) :
    (collectCards lib rawCards { limit := limit }).leads = (extractAll lib rawCards).take limit := by
  unfold collectCards
  dsimp only
  split_ifs with h
  · rfl
  · exact (List.take_of_length_le (not_lt.1 h)).symm

theorem found_collect {call : ScrollCall} {scrolled : List ScrollAction} {r : ScrollResult} {rawCards : List (Option RawCard)}
    {result : DiscoveryResult} (hresult : .returned result = (collect lib request r rawCards).phase)
    (has : as = search ++ scrolled.map .scroll ++ [.collected rawCards])
    (h : Steps (Fires (ScrollCall.step c)) (.start c request.limit) scrolled call) (hr : call.phase = .returned r) :
    Found lib c request as result := by
  obtain rfl := DiscoveryPhase.returned.inj hresult
  have hcards := collectCards_leads lib rawCards request.limit
  have hleads : (collectCards lib rawCards { limit := request.limit }).deduplicate.leads =
      firsts businessKey ((extractAll lib rawCards).take request.limit) := by
    rw [← hcards]
    exact deduplicateLeads_unique _
  have hhappened := ScrollCall.happened_run h
  simp only [ScrollCall.Happened, hr] at hhappened
  obtain ⟨hended, hcount⟩ := hhappened
  constructor
  · refine ⟨rawCards, ?_, hleads, ?_⟩
    · rw [has, List.getLast?_concat]
    · have hlength := deduplicateLeads_length ((extractAll lib rawCards).take request.limit)
      rw [List.length_take] at hlength
      rw [← hcards] at hlength
      rw [← hlength]
      rfl
  · dsimp only
    rw [hleads]
    refine ⟨firsts_nodup _, fun lead hlead => ?_⟩
    have hmem : lead ∈ extractAll lib rawCards := List.mem_of_mem_take ((firsts_sublist _).subset hlead)
    exact businessKey_isSome lead hmem
  · rfl
  · have hscrolls : as.countP scrolls = call.totalAttempts := by
      rw [has, List.countP_append, List.countP_append, countP_search, countP_scrolls, hcount, Nat.zero_add]
      rfl
    rw [hscrolls]
    cases hended with
    | limit n hg ht => exact ⟨rfl, ht.le⟩
    | marker n ht => exact ⟨rfl, ht.le⟩
    | stalled n ht => exact ⟨rfl, ht⟩
    | capped n hg ht => exact ⟨rfl, ht.le⟩

theorem outcome_of_trace (ht : Trace lib c request as s.phase) : Outcome lib c request as s := by
  unfold Outcome
  cases ht with
  | navigating hp has =>
    rw [hp]
    intro e
    simp only [step, hp]
    split_ifs
    · split <;> rfl
    · rfl
  | scrolling hp has h hn =>
    rw [hp]
    have hgoes := ScrollCall.goes_on c hn
    simp only [step, hp, Option.isSome_map]
    exact hgoes
  | collecting hp =>
    rw [hp]
    intro rawCards
    simp only [step, hp, Option.isSome_some]
  | returned hp has h hr =>
    rw [hp]
    exact found_collect rfl has h hr
  | @searchFails a e hp he has =>
    rw [hp, has, List.getLast?_concat]
    cases e with
    | returns => exact absurd rfl he
    | timesOut => rfl
    | raises => rfl
    | cancelled => exact .inl rfl
  | @pageFails scrolled call cancelled hp has =>
    rw [hp, has, List.getLast?_concat]
    cases cancelled with
    | true => exact .inr rfl
    | false => rfl

/-- The search, the scrolling and the script. -/
theorem trace_length_le (ht : Trace lib c request as s.phase) :
    as.length ≤ 5 + (c.maxTotal * (2 * ScrollCall.maxPolls c + 3) + 1) + 1 := by
  cases ht with
  | @navigating a hp has =>
    rw [has, List.length_replicate]
    cases a <;> simp only [NavigatorAwait.passed] <;> omega
  | scrolling hp has h =>
    have hle := ScrollCall.run_length_le h
    simp only [has, search, List.length_append, List.length_replicate, List.length_map]
    omega
  | collecting hp has h =>
    have hle := ScrollCall.run_length_le h
    simp only [has, search, List.length_append, List.length_replicate, List.length_map]
    omega
  | returned hp has h =>
    have hle := ScrollCall.run_length_le h
    simp only [has, search, List.length_append, List.length_replicate, List.length_map, List.length_singleton]
    omega
  | @searchFails a e hp he has =>
    rw [has, List.length_append, List.length_replicate, List.length_singleton]
    cases a <;> simp only [NavigatorAwait.passed] <;> omega
  | pageFails hp has h =>
    have hle := ScrollCall.run_length_le h
    simp only [has, search, List.length_append, List.length_replicate, List.length_map, List.length_singleton]
    omega

end DiscoveryRun

open DiscoveryRun in
/-- However the page behaves, a discovery is over after a bounded number of awaits, and goes on until then. What it
returns are the different businesses of the first `limit` leads that the script has read, counted as they are;
what it raises tells the await that failed. -/
theorem run_discovery (lib : Stdlib) (c : ScrollConfig) (request : DiscoveryRequest) :
    (∃ bound, ∀ as s, Steps (Fires (step lib c request)) {} as s → as.length ≤ bound) ∧
      ∀ as s, Steps (Fires (step lib c request)) {} as s → DiscoveryRun.Outcome lib c request as s :=
  ⟨⟨_, fun _ _ h => trace_length_le (trace_run h)⟩, fun _ _ h => outcome_of_trace (trace_run h)⟩

end SocialScraper
