import SocialScraper.Enrichment.EnrichOne
/-!
# What the cache saves

Whatever a call finds missing in the cache has expired (`CacheInv`). But a call
looks only once, and may wait for a page, or for a retry, while another call
stores the outcome: `place_reopened_iff` says that this is all that goes wrong.
-/
open Lib

namespace SocialScraper.EnrichRun

/-- No navigation starts before the entries stored earlier under its key have lived out their time. -/
def NotReopened (ttl : ℚ) : List CacheEvent → Prop
  | [] => True
  | .navigation key n :: log => (∀ t, .stored key t ∈ log → t + ttl ≤ n) ∧ NotReopened ttl log
  | .stored _ _ :: log => NotReopened ttl log

/-- The time of the event, if it is a store under the key. -/
def storedUnder (key : Str) : CacheEvent → Option ℚ
  | .stored key' t => if key' = key then some t else none
  | .navigation _ _ => none

section Guard
variable {ι : Type}

/-- When the call's key was stored since the call looked it up. -/
def storedSince (s : EnrichRun ι) (call : EnrichCall ι) : List ℚ :=
  (s.log.take (s.log.length - call.lookedUp)).filterMap (storedUnder call.key)

/-- The call's lookup is still good at the time: nothing stored since lives. -/
def upToDate (c : EnrichConfig) (s : EnrichRun ι) (call : EnrichCall ι) (time : ℚ) : Bool :=
  (s.storedSince call).all fun t => t + c.ttl ≤ time

/-- The event starts no navigation on a lookup that another call's store has overtaken. -/
def notOvertaken (c : EnrichConfig) (s : EnrichRun ι) (e : EnrichEvent ι) : Bool :=
  match e.action with
  | .pageReady k => c.maxAttempts == 0 || s.calls[k]?.all fun call => s.upToDate c call e.time
  | .retry k => s.calls[k]?.all fun call => s.upToDate c call e.time
  | _ => true

theorem mem_storedSince {s : EnrichRun ι} {call : EnrichCall ι} {t : ℚ} :
    t ∈ s.storedSince call ↔ .stored call.key t ∈ s.log.take (s.log.length - call.lookedUp) := by
  constructor
  · intro h
    obtain ⟨e, he, ht⟩ := List.mem_filterMap.1 h
    cases e with
    | navigation key n => cases ht
    | stored key n =>
      obtain ⟨rfl, hn⟩ := Option.ite_none_right_eq_some.1 ht
      exact Option.some.inj hn ▸ he
  · intro h
    exact List.mem_filterMap.2 ⟨_, h, by simp [storedUnder]⟩

end Guard

variable {ι : Type} [DecidableEq ι] {c : EnrichConfig} {s s' : EnrichRun ι}

/-! ## What an event can do -/

/-- Everything an event can do, at its time. -/
inductive Effect (c : EnrichConfig) (s : EnrichRun ι) : EnrichEvent ι → EnrichRun ι → Prop
  | calls {t a} (ht : s.now ≤ t) : Effect c s ⟨t, .call a⟩ ({ s with now := t }.enrichOne c a)
  | opens {t k call} (ht : s.now ≤ t) (hk : s.calls[k]? = some call) (hp : call.phase = .acquiring) :
      Effect c s ⟨t, .pageReady k⟩ ({ s with now := t }.openPanel c k call)
  | retries {t k call n} (ht : s.now ≤ t) (hk : s.calls[k]? = some call) (hp : call.phase = .backoff n) :
      Effect c s ⟨t, .retry k⟩ ({ s with now := t }.navigate k call (n + 1))
  | finishes {t k call o} (ht : s.now ≤ t) (hk : s.calls[k]? = some call) (hp : call.phase = .extracting) :
      Effect c s ⟨t, .extracted k o⟩ ({ s with now := t }.finish c k call o)
  /-- The call's phase changes, and the free pages. -/
  | goesOn {t a k call p n} (ht : s.now ≤ t) (hk : s.calls[k]? = some call) (hp : call.phase.inFlight = true)
      (ha : ∀ s : EnrichRun ι, s.notOvertaken c ⟨t, a⟩ = true) :
      Effect c s ⟨t, a⟩ { { s with now := t }.setCall k call p with freePages := n }

omit [DecidableEq ι] in
theorem inFlight_of_holdsPage {p : EnrichPhase} (h : p.holdsPage = true) : p.inFlight = true := by
  cases p <;> first | exact h | cases h

theorem effect_of {e : EnrichEvent ι} (h : s.step c e = some s') : Effect c s e s' := by
  obtain ⟨t, a⟩ := e
  unfold step at h
  split_ifs at h with ht
  cases a with
  | call a => exact Option.some.inj h ▸ .calls ht
  | pageReady k =>
    obtain ⟨call, hk, h⟩ := Option.bind_eq_some_iff.1 h
    cases hp : call.phase <;> simp only [hp, resumeFrom, reduceCtorEq] at h
    obtain ⟨-, h⟩ := Option.ite_none_left_eq_some.1 h
    exact Option.some.inj h ▸ .opens ht hk hp
  | navigated k =>
    obtain ⟨call, hk, h⟩ := Option.bind_eq_some_iff.1 h
    cases hp : call.phase <;> simp only [hp, resumeFrom, reduceCtorEq] at h
    exact Option.some.inj h ▸ .goesOn ht hk (by rw [hp]; rfl) fun _ => rfl
  | navigationFails k e =>
    obtain ⟨call, hk, h⟩ := Option.bind_eq_some_iff.1 h
    cases hp : call.phase <;> simp only [hp, resumeFrom, reduceCtorEq] at h
    obtain rfl := Option.some.inj h
    unfold failNavigation
    split_ifs
    · exact .goesOn ht hk (by rw [hp]; rfl) fun _ => rfl
    · exact .goesOn ht hk (by rw [hp]; rfl) fun _ => rfl
  | retry k =>
    obtain ⟨call, hk, h⟩ := Option.bind_eq_some_iff.1 h
    cases hp : call.phase <;> simp only [hp, resumeFrom, reduceCtorEq] at h
    exact Option.some.inj h ▸ .retries ht hk hp
  | extracted k o =>
    obtain ⟨call, hk, h⟩ := Option.bind_eq_some_iff.1 h
    cases hp : call.phase <;> simp only [hp, resumeFrom, reduceCtorEq] at h
    exact Option.some.inj h ▸ .finishes ht hk hp
  | cancel k =>
    obtain ⟨call, hk, h⟩ := Option.bind_eq_some_iff.1 h
    simp only [resumeFrom] at h
    split_ifs at h with hp hp
    · exact Option.some.inj h ▸ .goesOn ht hk (inFlight_of_holdsPage hp) fun _ => rfl
    · exact Option.some.inj h ▸ .goesOn ht hk (by rw [hp]; rfl) fun _ => rfl

/-! ## The invariant -/

/-- What lives in the log lives in the cache, and a call in flight found nothing alive. -/
structure CacheInv (c : EnrichConfig) (s : EnrichRun ι) : Prop where
  past : ∀ key t, .stored key t ∈ s.log → t ≤ s.now
  cache : ∀ key t, .stored key t ∈ s.log → s.now ≤ t + c.ttl → s.cache.LiveUntil key (t + c.ttl)
  lookups : ∀ call ∈ s.calls, call.phase.inFlight = true → call.lookedUp ≤ s.log.length ∧
    ∀ t, .stored call.key t ∈ s.log.drop (s.log.length - call.lookedUp) → t + c.ttl < s.now

omit [DecidableEq ι] in
theorem CacheInv.at_time (hi : CacheInv c s) {t : ℚ} (ht : s.now ≤ t) : CacheInv c { s with now := t } where
  past key t' h := (hi.past key t' h).trans ht
  cache key t' h hlive := hi.cache key t' h (ht.trans hlive)
  lookups call hc hp := by
    obtain ⟨hl, hold⟩ := hi.lookups call hc hp
    exact ⟨hl, fun t' h => (hold t' h).trans_le ht⟩

omit [DecidableEq ι] in
/-- The phase of a call in flight changes. -/
theorem CacheInv.setCall (hi : CacheInv c s) {k : ℕ} {call : EnrichCall ι} (hk : s.calls[k]? = some call)
    (hp : call.phase.inFlight = true) (p : EnrichPhase) (n : ℕ) : CacheInv c { s.setCall k call p with freePages := n } where
  past := hi.past
  cache := hi.cache
  lookups call' hc hp' := by
    rcases List.mem_or_eq_of_mem_set hc with hc | rfl
    · exact hi.lookups call' hc hp'
    · exact hi.lookups call (List.mem_of_getElem? hk) hp

omit [DecidableEq ι] in
theorem CacheInv.withPages (hi : CacheInv c s) (n : ℕ) : CacheInv c { s with freePages := n } :=
  ⟨hi.past, hi.cache, hi.lookups⟩

omit [DecidableEq ι] in
/-- The log gets longer; what a call saw of it stays. -/
theorem drop_cons_log {log : List CacheEvent} {n : ℕ} (h : n ≤ log.length) (e : CacheEvent) :
    (e :: log).drop ((e :: log).length - n) = log.drop (log.length - n) := by
  have hlen : (e :: log).length - n = (log.length - n) + 1 := by
    simp only [List.length_cons]
    omega
  rw [hlen, List.drop_succ_cons]

omit [DecidableEq ι] in
theorem CacheInv.logged (hi : CacheInv c s) (key : Str) (t : ℚ) :
    CacheInv c { s with log := .navigation key t :: s.log } where
  past key' t' h := hi.past key' t' (by simpa using h)
  cache key' t' h := hi.cache key' t' (by simpa using h)
  lookups call hc hp := by
    obtain ⟨hl, hold⟩ := hi.lookups call hc hp
    refine ⟨Nat.le_succ_of_le hl, ?_⟩
    rw [drop_cons_log hl]
    exact hold

omit [DecidableEq ι] in
theorem CacheInv.navigate (hi : CacheInv c s) {k : ℕ} {call : EnrichCall ι} (hk : s.calls[k]? = some call)
    (hp : call.phase.inFlight = true) (n : ℕ) : CacheInv c (s.navigate k call n) :=
  (hi.setCall hk hp (.navigating n) s.freePages).logged call.key s.now

omit [DecidableEq ι] in
/-- All stores under a call's key that can matter to it are those since its lookup. -/
theorem upToDate_iff (hi : CacheInv c s) {call : EnrichCall ι} (hc : call ∈ s.calls) (hp : call.phase.inFlight = true) :
    s.upToDate c call s.now = true ↔ ∀ t, .stored call.key t ∈ s.log → t + c.ttl ≤ s.now := by
  obtain ⟨-, hold⟩ := hi.lookups call hc hp
  simp only [upToDate, List.all_eq_true, decide_eq_true_eq, mem_storedSince]
  constructor
  · intro hall t ht
    rw [← List.take_append_drop (s.log.length - call.lookedUp) s.log] at ht
    rcases List.mem_append.1 ht with ht | ht
    · exact hall t ht
    · exact (hold t ht).le
  · intro hall t ht
    exact hall t (List.mem_of_mem_take ht)

/-! ## One event -/

omit [DecidableEq ι] in
theorem openPanel_inv (hi : CacheInv c s) {k : ℕ} {call : EnrichCall ι} (hk : s.calls[k]? = some call)
    (hp : call.phase.inFlight = true) : CacheInv c (s.openPanel c k call) := by
  unfold openPanel
  split_ifs
  · exact (hi.setCall hk hp (.navigating 1) (s.freePages - 1)).logged call.key s.now
  · exact hi.setCall hk hp .raised s.freePages

omit [DecidableEq ι] in
theorem navigate_iff (hi : CacheInv c s) {k : ℕ} {call : EnrichCall ι} (hk : s.calls[k]? = some call)
    (hp : call.phase.inFlight = true) (n : ℕ) : NotReopened c.ttl (s.navigate k call n).log ↔
      NotReopened c.ttl s.log ∧ s.upToDate c call s.now = true := by
  rw [upToDate_iff hi (List.mem_of_getElem? hk) hp, and_comm]
  rfl

omit [DecidableEq ι] in
theorem openPanel_iff (hi : CacheInv c s) {k : ℕ} {call : EnrichCall ι} (hk : s.calls[k]? = some call)
    (hp : call.phase.inFlight = true) : NotReopened c.ttl (s.openPanel c k call).log ↔
      NotReopened c.ttl s.log ∧ (c.maxAttempts = 0 ∨ s.upToDate c call s.now = true) := by
  unfold openPanel
  split_ifs with hn
  · have hne : c.maxAttempts ≠ 0 := by omega
    rw [or_iff_right hne]
    exact navigate_iff (s := { s with freePages := s.freePages - 1 }) (hi.withPages _) hk hp 1
  · -- With no attempt allowed there is no navigation to be late.
    have hzero : c.maxAttempts = 0 := by omega
    exact (and_iff_left (.inl hzero)).symm

theorem finish_inv (hi : CacheInv c s) {k : ℕ} {call : EnrichCall ι} (hk : s.calls[k]? = some call)
    (hp : call.phase.inFlight = true) (o : Extraction) :
    CacheInv c (s.finish c k call o) ∧ (NotReopened c.ttl (s.finish c k call o).log ↔ NotReopened c.ttl s.log) := by
  cases o with
  | raises => exact ⟨hi.setCall hk hp .raised (s.freePages + 1), .rfl⟩
  | website url =>
    refine ⟨⟨?_, ?_, ?_⟩, .rfl⟩
    · intro key t h
      rcases List.mem_cons.1 h with h | h
      · cases h
        exact le_rfl
      · exact hi.past key t h
    · intro key t h hlive
      rcases List.mem_cons.1 h with h | h
      · cases h
        exact MemoryCache.set_liveUntil le_rfl (.inr rfl)
      · have hpast := hi.past key t h
        have hle : t + c.ttl ≤ s.now + c.ttl := add_le_add_left hpast _
        exact MemoryCache.set_liveUntil hle (.inl (hi.cache key t h hlive))
    · intro call' hc hp'
      obtain ⟨hl, hold⟩ : call'.lookedUp ≤ s.log.length ∧ _ :=
        (hi.setCall hk hp .returned s.freePages).lookups call' hc hp'
      refine ⟨Nat.le_succ_of_le hl, ?_⟩
      intro t ht
      exact hold t (drop_cons_log hl _ ▸ ht)

omit [DecidableEq ι] in
/-- A call is added: one that has returned, or one that found nothing alive under its key. -/
theorem CacheInv.push (hi : CacheInv c s) (call : EnrichCall ι) (cache : MemoryCache (Option Str))
    (hcache : ∀ key t, s.cache.LiveUntil key t → s.now ≤ t → cache.LiveUntil key t)
    (hcall : call.phase.inFlight = true → call.lookedUp = s.log.length ∧
      ∀ t, .stored call.key t ∈ s.log → t + c.ttl < s.now) :
    CacheInv c { s with cache := cache, calls := s.calls ++ [call] } where
  past := hi.past
  cache key t h hlive := hcache key _ (hi.cache key t h hlive) hlive
  lookups call' hc hp := by
    rcases List.mem_append.1 hc with hc | hc
    · exact hi.lookups call' hc hp
    · obtain rfl := List.mem_singleton.1 hc
      obtain ⟨hl, hold⟩ := hcall hp
      refine ⟨hl.le, fun t ht => hold t (List.mem_of_mem_drop ht)⟩

/-- A lookup takes nothing alive out of the cache. -/
theorem get_keeps {m cache : MemoryCache (Option Str)} {key : Str} {now : ℚ} {found : Option (Option Str)}
    (h : m.get key now = (cache, found)) (key' : Str) (t : ℚ) (hm : m.LiveUntil key' t) (ht : now ≤ t) :
    cache.LiveUntil key' t := by
  have hlive : (m.get key now).1.LiveUntil key' t := MemoryCache.get_liveUntil ht hm
  rwa [h] at hlive

omit [DecidableEq ι] in
/-- Had something stored under the key been alive, the lookup would have found it. -/
theorem CacheInv.expired_of_miss (hi : CacheInv c s) {key : Str} {cache : MemoryCache (Option Str)}
    (h : s.cache.get key s.now = (cache, none)) (t : ℚ) (ht : .stored key t ∈ s.log) : t + c.ttl < s.now := by
  by_contra hlive
  obtain ⟨entry, hm, hle⟩ := hi.cache key t ht (not_lt.1 hlive)
  obtain ⟨value, hfound⟩ := MemoryCache.get_of_live ⟨entry, hm, (not_lt.1 hlive).trans hle⟩
  rw [h] at hfound
  cases hfound

theorem enrichOne_inv (hi : CacheInv c s) (a : ι) :
    CacheInv c (s.enrichOne c a) ∧ (NotReopened c.ttl (s.enrichOne c a).log ↔ NotReopened c.ttl s.log) := by
  unfold enrichOne
  dsimp only
  generalize (s.fields a).social.googleMapsUrl.getD [] = mapsUrl
  split
  · exact ⟨hi.push _ s.cache (fun _ _ h _ => h) (fun h => by cases h), .rfl⟩
  · split
    · rename_i cache website hget
      have hpush := hi.push ⟨a, mapsUrl, .returned, s.log.length⟩ cache (get_keeps hget) (fun h => by cases h)
      exact ⟨⟨hpush.past, hpush.cache, hpush.lookups⟩, .rfl⟩
    · rename_i cache hget
      have hpush := hi.push ⟨a, mapsUrl, .acquiring, s.log.length⟩ cache (get_keeps hget)
        fun _ => ⟨rfl, hi.expired_of_miss hget⟩
      split
      · exact ⟨hpush, .rfl⟩
      · -- The call goes on in the same step, so nothing has been stored since its lookup.
        have hk : (s.calls ++ [(⟨a, mapsUrl, .acquiring, s.log.length⟩ : EnrichCall ι)])[s.calls.length]? =
            some ⟨a, mapsUrl, .acquiring, s.log.length⟩ := by simp
        refine ⟨openPanel_inv hpush hk rfl, (openPanel_iff hpush hk rfl).trans ?_⟩
        exact and_iff_left (.inr (by simp [upToDate, storedSince]))

/-- Every event keeps the invariant, and the events that reopen a place are the overtaken ones. -/
theorem event (hi : CacheInv c s) {e : EnrichEvent ι} (h : s.step c e = some s') :
    CacheInv c s' ∧ (NotReopened c.ttl s'.log ↔ NotReopened c.ttl s.log ∧ s.notOvertaken c e = true) := by
  cases effect_of h with
  | calls ht =>
    obtain ⟨hinv, hlog⟩ := enrichOne_inv (hi.at_time ht) _
    exact ⟨hinv, hlog.trans (and_iff_left rfl).symm⟩
  | @opens t k call ht hk hp =>
    have hin : call.phase.inFlight = true := by rw [hp]; rfl
    refine ⟨openPanel_inv (hi.at_time ht) hk hin, (openPanel_iff (hi.at_time ht) hk hin).trans ?_⟩
    simp [notOvertaken, hk, upToDate, storedSince]
  | @retries t k call n ht hk hp =>
    have hin : call.phase.inFlight = true := by rw [hp]; rfl
    refine ⟨(hi.at_time ht).navigate hk hin _, (navigate_iff (hi.at_time ht) hk hin _).trans ?_⟩
    simp [notOvertaken, hk, upToDate, storedSince]
  | finishes ht hk hp =>
    obtain ⟨hinv, hlog⟩ := finish_inv (hi.at_time ht) hk (by rw [hp]; rfl) _
    exact ⟨hinv, hlog.trans (and_iff_left rfl).symm⟩
  | goesOn ht hk hp ha =>
    exact ⟨(hi.at_time ht).setCall hk hp _ _, (and_iff_left (ha s)).symm⟩

/-! ## The whole run -/

omit [DecidableEq ι] in
theorem start_inv (fields : ι → BusinessLead) (t₀ : ℚ) : CacheInv c (start c fields t₀) where
  past _ _ h := by cases h
  cache _ _ h := by cases h
  lookups _ h := by cases h

/-- A run reopens no place exactly as long as no navigation starts on a lookup that has been overtaken. -/
theorem place_reopened_iff (c : EnrichConfig) (fields : ι → BusinessLead) (t₀ : ℚ) :
    (∀ s, Reachable (Guarded (fun s e => s.notOvertaken c e = true) (Fires (step c))) (start c fields t₀) s →
      NotReopened c.ttl s.log) ∧
    ∀ s e s', Reachable (Fires (step c)) (start c fields t₀) s → s.step c e = some s' → ¬ s.notOvertaken c e = true →
      ¬ NotReopened c.ttl s'.log := by
  constructor
  · intro s h
    have hboth : CacheInv c s ∧ NotReopened c.ttl s.log := by
      refine h.inv (fun s => CacheInv c s ∧ NotReopened c.ttl s.log) ⟨start_inv fields t₀, trivial⟩ ?_
      rintro s e s' ⟨hi, hn⟩ ⟨hg, hs⟩
      obtain ⟨hi', hlog⟩ := event hi hs
      exact ⟨hi', hlog.2 ⟨hn, hg⟩⟩
    exact hboth.2
  · intro s e s' h hs hover hn
    have hi : CacheInv c s := h.inv (CacheInv c) (start_inv fields t₀) fun _ _ _ hi hs => (event hi hs).1
    exact hover ((event hi hs).2.1 hn).2

/-- Two leads of one place and a pool of one page: the second waits for the page until the first outcome expires. -/
def patientRun : List (EnrichEvent ℕ) :=
  [⟨0, .call 0⟩, ⟨0, .call 1⟩, ⟨1, .navigated 0⟩, ⟨2, .extracted 0 (.website none)⟩, ⟨3, .call 2⟩, ⟨302, .pageReady 1⟩,
    ⟨303, .navigationFails 1 .extraction⟩, ⟨304, .retry 1⟩]

def defaultEnrichment : EnrichConfig := .default .defaults 1

theorem place_reopened_patient : ∃ s, exec (guarded (fun s e => s.notOvertaken defaultEnrichment e) (step defaultEnrichment))
    (start defaultEnrichment (fun _ => mapsLead) 0) patientRun = some s ∧
    s.calls.map EnrichCall.phase = [.returned, .navigating 2, .returned] ∧ NotReopened 300 s.log := by
  obtain ⟨s, hs, hp⟩ := exec_ends
    (f := guarded (fun s e => s.notOvertaken defaultEnrichment e) (step defaultEnrichment))
    (Q := fun s => s.calls.map EnrichCall.phase = [.returned, .navigating 2, .returned])
    (s := start defaultEnrichment (fun _ => mapsLead) 0) patientRun (by decide +kernel)
  exact ⟨s, hs, hp, (place_reopened_iff defaultEnrichment (fun _ => mapsLead) 0).1 s (reachable_guarded _ hs)⟩

/-- The second lead gets the page when the first is done, and opens the place at once. -/
theorem waiting_call_reopens : ¬ ∀ s, Reachable (Fires (step defaultEnrichment))
    (start defaultEnrichment (fun _ : ℕ => mapsLead) 0) s → NotReopened 300 s.log := by
  let key := cacheKey (mapsLead.social.googleMapsUrl.getD [])
  obtain ⟨s, hs, hlog⟩ := exec_ends (f := step defaultEnrichment)
    (Q := fun s => s.log = [.navigation key 2, .stored key 2, .navigation key 0])
    (s := start defaultEnrichment (fun _ : ℕ => mapsLead) 0)
    [⟨0, .call 0⟩, ⟨0, .call 1⟩, ⟨1, .navigated 0⟩, ⟨2, .extracted 0 (.website none)⟩, ⟨2, .pageReady 1⟩] (by decide +kernel)
  intro hall
  have hn := hall s (reachable_of_exec _ hs)
  rw [hlog] at hn
  have hexpired : (2 : ℚ) + 300 ≤ 2 := hn.1 2 (by simp)
  exact absurd hexpired (by decide +kernel)

end SocialScraper.EnrichRun
