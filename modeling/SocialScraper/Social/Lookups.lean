import SocialScraper.Lib.FailFast
import SocialScraper.Social.Evidence
import SocialScraper.Urllib.Parse
/-!
# When a lookup raises

The searches for the two platforms run side by side, and `asyncio.gather`
joins them: it fails as soon as one raises. A call in which they may raise
leaves what `lookups_slot` says, so what is left of a platform depends on the
other one's lookup (`lookups_apart_iff`).
-/
open Lib

namespace SocialScraper

/-- What a lookup does: `none` is an exception. -/
abbrev LookupOutcome := Option FallbackResult

/-- The lookup returns a URL that is not empty. -/
def FindsUrl (outcome : LookupOutcome) : Prop :=
  ∃ url isCanonical, outcome = some (some (some url, isCanonical)) ∧ url ≠ []

namespace DiscoverCall

/-- The platforms whose lookups are awaited. -/
def awaited (s : DiscoverCall) : List Platform := [Platform.instagram, .facebook].filter s.needs

/-- The homepage is as given, and the lookups end as given, in any order. -/
def LookupsEnd (html : Option Str) (outcomes : Platform → LookupOutcome) (s : DiscoverCall) : DiscoverAction → Prop
  | .recorded => True
  | .fetched html' => html' = html
  | .found results => ∃ values, Reachable (Fires (Join.step outcomes)) (Join.start s.awaited) (.joined values) ∧
      results = fun p => (values p).getD none
  | .raises => s.phase = .searching ∧
      ∃ p, Reachable (Fires (Join.step outcomes)) (Join.start s.awaited) (.failed p)
  | .cancel | .select => False

/-- What the lookups have found, if none has raised. -/
def resultsOf (outcomes : Platform → LookupOutcome) (p : Platform) : FallbackResult := (outcomes p).getD none

def noneRaises (outcomes : Platform → LookupOutcome) : Bool := (outcomes .instagram).isSome && (outcomes .facebook).isSome

theorem noneRaises_iff {outcomes : Platform → LookupOutcome} : noneRaises outcomes = true ↔ ∀ p, (outcomes p).isSome := by
  rw [noneRaises, Bool.and_eq_true]
  constructor
  · rintro ⟨hi, hf⟩ (_ | _)
    · exact hi
    · exact hf
  · exact fun h => ⟨h .instagram, h .facebook⟩

/-- A phase behind the lookups. -/
def behindLookups (s : DiscoverCall) : Bool :=
  match s.phase with
  | .recordingFallback | .finishing | .returned => true
  | _ => false

variable {c : DiscoverConfig} {lead : BusinessLead} {html : Option Str} {outcomes : Platform → LookupOutcome}

/-- Both URLs are missing after the website steps. -/
def BothMissing (c : DiscoverConfig) (html : Option Str) (lead : BusinessLead) : Prop :=
  ∀ p, (lead.social.slot p).1 = none ∧ pageEvidence c html lead p = none

/-- What is true at each await of a call whose lookups may raise. -/
def AtLookups (c : DiscoverConfig) (html : Option Str) (outcomes : Platform → LookupOutcome) (lead : BusinessLead)
    (x : DiscoverCall × List NetworkCall) : Prop :=
  At c html (resultsOf outcomes) lead x ∧ (x.1.behindLookups → ∀ p, (outcomes p).isSome) ∨
    x.1.phase = .raised ∧ (∃ p, outcomes p = none) ∧ ∀ p, x.1.lead.social.slot p = lead.social.slot p

theorem needs_all (hb : BothMissing c html lead) {s : DiscoverCall} (hs : Settled lead (pageEvidence c html lead) s)
    (p : Platform) : s.needs p = true := by
  rw [hs.needs, (hb p).1, (hb p).2]
  rfl

theorem awaited_all (hb : BothMissing c html lead) {s : DiscoverCall} (hs : Settled lead (pageEvidence c html lead) s) :
    s.awaited = [.instagram, .facebook] := by
  rw [awaited, List.filter_eq_self]
  exact fun p _ => needs_all hb hs p

theorem searches_all (hb : BothMissing c html lead) : searches c html lead = [.instagram, .facebook] := by
  rw [searches, List.filter_eq_self]
  intro p _
  rw [(hb p).1, (hb p).2]
  rfl

/-- Before the searches, nothing has been searched for. -/
theorem find_not_mem {results : Platform → FallbackResult} {x : DiscoverCall × List NetworkCall}
    (hx : At c html results lead x) (hb : x.1.behindLookups = false) (hs : x.1.phase ≠ .searching) (p : Platform) :
    .find p ∉ x.2 := by
  have hfetch : .find p ∉ if fetches lead then [NetworkCall.fetch] else [] := by
    split_ifs <;> simp
  obtain ⟨s, log⟩ := x
  unfold At at hx
  dsimp only at hx hs
  cases hp : s.phase with
  | starting =>
    rw [hp] at hx
    rw [(Prod.mk.inj hx).2]
    exact List.not_mem_nil
  | fetching =>
    rw [hp] at hx
    rw [hx.2.2]
    exact hfetch
  | recordingFetch html' =>
    rw [hp] at hx
    rw [hx.2.2.1]
    exact hfetch
  | recordingWebsite =>
    rw [hp] at hx
    rw [hx.2]
    exact hfetch
  | searching => exact absurd hp hs
  | recordingFallback | finishing | returned => simp [behindLookups, hp] at hb
  | raised | cancelled | selected => simp [hp] at hx

/-- Behind the searches, there has been one. -/
theorem find_mem (hb : BothMissing c html lead) {results : Platform → FallbackResult}
    {x : DiscoverCall × List NetworkCall} (hx : At c html results lead x) (hbehind : x.1.behindLookups) :
    opened x.1 = [] ∧ .find .instagram ∈ x.2 := by
  have hmem : ∀ l, NetworkCall.find .instagram ∈ l ++ (searches c html lead).map .find := by
    intro l
    rw [searches_all hb]
    simp
  obtain ⟨s, log⟩ := x
  unfold At at hx
  dsimp only at hx hbehind
  unfold opened
  cases hp : s.phase with
  | recordingFallback | finishing | returned =>
    rw [hp] at hx
    refine ⟨rfl, ?_⟩
    rw [hx.2]
    exact hmem _
  | starting | fetching | recordingFetch _ | recordingWebsite | searching | raised | cancelled | selected =>
    simp [behindLookups, hp] at hbehind

/-- Only the answer to the searches leads behind them. -/
theorem behind_of_behind (hb : BothMissing c html lead) {results : Platform → FallbackResult}
    {x y : DiscoverCall × List NetworkCall} (hx : At c html results lead x) (hs : x.1.phase ≠ .searching)
    (hy : At c html results lead y) (hlog : y.2 = x.2 ++ opened y.1) (hbehind : y.1.behindLookups) :
    x.1.behindLookups := by
  by_contra hn
  obtain ⟨hopened, hfind⟩ := find_mem hb hy hbehind
  rw [hlog, hopened, List.append_nil] at hfind
  exact find_not_mem hx (eq_false_of_ne_true hn) hs .instagram hfind

theorem settled_searching {results : Platform → FallbackResult} {x : DiscoverCall × List NetworkCall}
    (hx : At c html results lead x) (hs : x.1.phase = .searching) : Settled lead (pageEvidence c html lead) x.1 := by
  unfold At at hx
  rw [hs] at hx
  exact hx.1

theorem atLookups_step (hext : ∀ page, (c.extract page).isSome) (hb : BothMissing c html lead)
    {x y : DiscoverCall × List NetworkCall} {a : DiscoverAction} (hx : AtLookups c html outcomes lead x)
    (ha : LookupsEnd html outcomes x.1 a) (h : logged c x a = some y) : AtLookups c html outcomes lead y := by
  obtain ⟨s', hstep, rfl⟩ := Option.map_eq_some_iff.1 h
  rcases hx with ⟨hat, hall⟩ | ⟨hraised, -⟩
  · -- An answer that is no exception is one of the results.
    have hgo : Answers html (resultsOf outcomes) a → (x.1.phase = .searching → ∀ p, (outcomes p).isSome) →
        AtLookups c html outcomes lead (s', x.2 ++ opened s') := by
      intro hanswer hend
      have hat' := step_at hext hat hanswer h
      refine .inl ⟨hat', fun hbehind => ?_⟩
      by_cases hs : x.1.phase = .searching
      · exact hend hs
      · exact hall (behind_of_behind hb hat hs hat' rfl hbehind)
    cases a with
    | recorded =>
      apply hgo trivial
      intro hs
      simp [step, hs] at hstep
    | fetched html' =>
      apply hgo ha
      intro hs
      simp [step, hs] at hstep
    | found results =>
      obtain ⟨values, hjoin, rfl⟩ := ha
      have hs : x.1.phase = .searching := by
        simp only [step] at hstep
        split_ifs at hstep with hs
        exact hs
      have hsettled := settled_searching hat hs
      rw [awaited_all hb hsettled, Join.joined_iff] at hjoin
      obtain ⟨hsome, rfl⟩ := hjoin
      refine hgo ?_ fun _ p => hsome p (by cases p <;> simp)
      funext p
      cases p <;> rfl
    | raises =>
      obtain ⟨hs, p, hjoin⟩ := ha
      have hsettled := settled_searching hat hs
      simp only [step] at hstep
      split_ifs at hstep
      obtain rfl := Option.some.inj hstep
      refine .inr ⟨rfl, ⟨p, (Join.failed_iff.1 hjoin).2⟩, fun q => ?_⟩
      show x.1.lead.social.slot q = _
      rw [hsettled.slots q, (hb q).2]
      rfl
    | cancel => exact ha.elim
    | select => exact ha.elim
  · -- The call is over.
    cases a with
    | recorded => simp [step, hraised] at hstep
    | fetched html' => simp [step, hraised] at hstep
    | found results => simp [step, hraised] at hstep
    | raises => simp [step, awaits, hraised] at hstep
    | cancel => exact ha.elim
    | select => exact ha.elim

theorem atLookups_reachable (hext : ∀ page, (c.extract page).isSome) (hb : BothMissing c html lead)
    {x : DiscoverCall × List NetworkCall}
    (h : Reachable (Guarded (fun x => LookupsEnd html outcomes x.1) (Fires (logged c))) (startLogged c lead) x) :
    AtLookups c html outcomes lead x := by
  apply h.inv (AtLookups c html outcomes lead)
  · have hstart := start_at c html (resultsOf outcomes) lead
    refine .inl ⟨hstart, fun hbehind => ?_⟩
    obtain ⟨hopened, hfind⟩ := find_mem hb hstart hbehind
    exact absurd (hopened ▸ hfind : NetworkCall.find .instagram ∈ []) List.not_mem_nil
  · exact fun _ _ _ hx ha => atLookups_step hext hb hx ha.1 ha.2

/-- What the call leaves of a platform when it is over: what its search has found, or nothing if a lookup has raised. -/
theorem lookups_slot (hext : ∀ page, (c.extract page).isSome) (hb : BothMissing c html lead)
    {s : DiscoverCall} {log : List NetworkCall}
    (h : Reachable (Guarded (fun x => LookupsEnd html outcomes x.1) (Fires (logged c))) (startLogged c lead) (s, log))
    (hr : s.phase = .returned ∨ s.phase = .raised) (p : Platform) : s.lead.social.slot p =
      if noneRaises outcomes then settle (lead.social.slot p) (searchEvidence (resultsOf outcomes) p)
      else lead.social.slot p := by
  rcases atLookups_reachable hext hb h with ⟨hat, hall⟩ | ⟨-, ⟨q, hq⟩, hslots⟩
  · rcases hr with hr | hr
    · have hbehind : s.behindLookups := by rw [behindLookups, hr]
      simp only [At, hr] at hat
      rw [if_pos (noneRaises_iff.2 (hall hbehind)), hat.1 p, Evidence.orElse, (hb p).2, Option.none_or]
    · simp [At, hr] at hat
  · have hnone : ¬ noneRaises outcomes := by
      intro hall
      have hsome := noneRaises_iff.1 hall q
      rw [hq] at hsome
      cases hsome
    rw [if_neg hnone]
    exact hslots p

theorem searchEvidence_of_finds {p : Platform} (h : FindsUrl (outcomes p)) :
    (outcomes p).isSome ∧ ∃ url tier, searchEvidence (resultsOf outcomes) p = some (url, tier) := by
  obtain ⟨url, isCanonical, ho, hne⟩ := h
  refine ⟨by rw [ho]; rfl, url, if isCanonical then .medium else .low, ?_⟩
  cases url with
  | nil => exact absurd rfl hne
  | cons x url =>
    rw [searchEvidence, resultsOf, ho]
    rfl

theorem searchEvidence_of_not {p : Platform} (h : ¬ FindsUrl (outcomes p)) : searchEvidence (resultsOf outcomes) p = none := by
  unfold searchEvidence resultsOf
  rcases ho : outcomes p with _ | _ | ⟨_ | _ | ⟨x, url⟩, isCanonical⟩
  · rfl
  · rfl
  · rfl
  · rfl
  · exact absurd ⟨x :: url, isCanonical, ho, nofun⟩ h

end DiscoverCall

open DiscoverCall in
/-- Two runs in which the lookup of a platform does the same leave the same of it exactly if that lookup finds no URL,
or the other lookup raises in both or in neither. -/
theorem lookups_apart_iff (c : DiscoverConfig) (hext : ∀ page, (c.extract page).isSome) (html : Option Str)
    (lead : BusinessLead) (hb : BothMissing c html lead) (p q : Platform) (hq : q ≠ p)
    (outcomes outcomes' : Platform → LookupOutcome) (hsame : outcomes p = outcomes' p)
    (s s' : DiscoverCall) (log log' : List NetworkCall)
    (h : Reachable (Guarded (fun x => LookupsEnd html outcomes x.1) (Fires (logged c))) (startLogged c lead) (s, log))
    (hr : s.phase = .returned ∨ s.phase = .raised)
    (h' : Reachable (Guarded (fun x => LookupsEnd html outcomes' x.1) (Fires (logged c))) (startLogged c lead) (s', log'))
    (hr' : s'.phase = .returned ∨ s'.phase = .raised) :
    s.lead.social.slot p = s'.lead.social.slot p ↔
      ¬ FindsUrl (outcomes p) ∨ ((outcomes q).isSome ↔ (outcomes' q).isSome) := by
  have hall : ∀ o : Platform → LookupOutcome, (o p).isSome → noneRaises o = (o q).isSome := by
    intro o hp
    unfold noneRaises
    cases p <;> cases q
    · exact absurd rfl hq
    · rw [hp, Bool.true_and]
    · rw [hp, Bool.and_true]
    · exact absurd rfl hq
  rw [lookups_slot hext hb h hr, lookups_slot hext hb h' hr']
  by_cases hfinds : FindsUrl (outcomes p)
  · obtain ⟨hsome, url, tier, hev⟩ := searchEvidence_of_finds hfinds
    have hev' : searchEvidence (resultsOf outcomes') p = some (url, tier) := by
      rw [← hev, searchEvidence, searchEvidence, resultsOf, resultsOf, hsame]
    have hurl : settle (lead.social.slot p) (some (url, tier)) ≠ lead.social.slot p := by
      intro he
      have hfirst := congrArg Prod.fst he
      rw [settle_url (hb p).1, (hb p).1] at hfirst
      cases hfirst
    rw [hev, hev', hall outcomes hsome, hall outcomes' (hsame ▸ hsome)]
    simp only [hfinds, not_true_eq_false, false_or]
    by_cases h₁ : (outcomes q).isSome <;> by_cases h₂ : (outcomes' q).isSome
    · simp [h₁, h₂]
    · rw [if_pos h₁, if_neg h₂]
      exact iff_of_false hurl fun hiff => h₂ (hiff.1 h₁)
    · rw [if_neg h₁, if_pos h₂]
      exact iff_of_false hurl.symm fun hiff => h₁ (hiff.2 h₂)
    · simp [h₁, h₂]
  · have hfinds' : ¬ FindsUrl (outcomes' p) := hsame ▸ hfinds
    rw [searchEvidence_of_not hfinds, searchEvidence_of_not hfinds']
    exact iff_of_true ((ite_self _).trans (ite_self _).symm) (.inl hfinds)

/-! ## A lookup that costs the other -/

/-- A lead with nothing but its name. -/
def loneLead : BusinessLead := { businessName := "Cafe".toList }

abbrev loneDiscovery : DiscoverConfig := ⟨cpython .ascii, .defaults, false, fun _ => some []⟩

/-- The Instagram profile is found; the Facebook lookup does as given. -/
def besideInstagram (facebook : LookupOutcome) : Platform → LookupOutcome
  | .instagram => some (some (some "https://www.instagram.com/cafe".toList, true))
  | .facebook => facebook

namespace DiscoverCall

theorem lone_missing : BothMissing loneDiscovery none loneLead := by
  intro p
  cases p <;> exact ⟨rfl, rfl⟩

theorem lone_awaited : (startLogged loneDiscovery loneLead).1.awaited = [.instagram, .facebook] := rfl

theorem lone_returns (result : FallbackResult) : ∃ s log,
    Reachable (Guarded (fun x => LookupsEnd none (besideInstagram (some result)) x.1) (Fires (logged loneDiscovery)))
      (startLogged loneDiscovery loneLead) (s, log) ∧ s.phase = .returned := by
  have ha : LookupsEnd none (besideInstagram (some result)) (startLogged loneDiscovery loneLead).1
      (.found (resultsOf (besideInstagram (some result)))) := by
    refine ⟨_, Join.joined_iff.2 ⟨fun p _ => ?_, rfl⟩, ?_⟩
    · cases p <;> rfl
    · funext p
      rw [lone_awaited]
      cases p <;> rfl
  refine ⟨_, _, ⟨_, .one ⟨ha, rfl⟩⟩, ?_⟩
  rcases result with _ | ⟨_ | _ | ⟨x, url⟩, isCanonical⟩ <;> rfl

theorem lone_raises : ∃ s log,
    Reachable (Guarded (fun x => LookupsEnd none (besideInstagram none) x.1) (Fires (logged loneDiscovery)))
      (startLogged loneDiscovery loneLead) (s, log) ∧ s.phase = .raised := by
  have ha : LookupsEnd none (besideInstagram none) (startLogged loneDiscovery loneLead).1 .raises :=
    ⟨rfl, .facebook, Join.failed_iff.2 ⟨by simp [lone_awaited], rfl⟩⟩
  exact ⟨_, _, ⟨_, .one ⟨ha, rfl⟩⟩, rfl⟩

end DiscoverCall

open DiscoverCall in
theorem lookups_apart_lone : ∃ s log s' log',
    Reachable (Guarded (fun x => LookupsEnd none (besideInstagram (some none)) x.1) (Fires (logged loneDiscovery)))
      (startLogged loneDiscovery loneLead) (s, log) ∧
    Reachable (Guarded (fun x => LookupsEnd none (besideInstagram none) x.1) (Fires (logged loneDiscovery)))
      (startLogged loneDiscovery loneLead) (s', log') ∧
    (s.lead.social.slot .instagram = s'.lead.social.slot .instagram ↔
      ¬ FindsUrl (besideInstagram (some none) .instagram) ∨
        ((besideInstagram (some none) .facebook).isSome ↔ (besideInstagram none .facebook).isSome)) := by
  obtain ⟨s, log, h, hr⟩ := lone_returns none
  obtain ⟨s', log', h', hr'⟩ := lone_raises
  exact ⟨s, log, s', log', h, h', lookups_apart_iff loneDiscovery (fun _ => rfl) none loneLead lone_missing .instagram
    .facebook nofun (besideInstagram (some none)) (besideInstagram none) rfl s s' log log' h (.inl hr) h' (.inr hr')⟩

open DiscoverCall in
/-- The Instagram lookup finds the profile in both runs, and in the second it is lost to the Facebook lookup. -/
theorem failed_lookup_costs : ∃ s log s' log',
    Reachable (Guarded (fun x => LookupsEnd none (besideInstagram (some none)) x.1) (Fires (logged loneDiscovery)))
      (startLogged loneDiscovery loneLead) (s, log) ∧ s.phase = .returned ∧
    Reachable (Guarded (fun x => LookupsEnd none (besideInstagram none) x.1) (Fires (logged loneDiscovery)))
      (startLogged loneDiscovery loneLead) (s', log') ∧ s'.phase = .raised ∧
    BothMissing loneDiscovery none loneLead ∧
    besideInstagram (some none) .instagram = besideInstagram none .instagram ∧
    s.lead.social.slot .instagram = (some "https://www.instagram.com/cafe".toList, some "medium".toList) ∧
    s'.lead.social.slot .instagram = (none, none) := by
  obtain ⟨s, log, h, hr⟩ := lone_returns none
  obtain ⟨s', log', h', hr'⟩ := lone_raises
  refine ⟨s, log, s', log', h, hr, h', hr', lone_missing, rfl, ?_, ?_⟩
  · rw [lookups_slot (fun _ => rfl) lone_missing h (.inl hr)]
    rfl
  · rw [lookups_slot (fun _ => rfl) lone_missing h' (.inr hr')]
    rfl

end SocialScraper
