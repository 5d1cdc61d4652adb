import Mathlib.Data.Char
import Mathlib.Data.List.Dedup
import Mathlib.Data.List.Lex
import Mathlib.Data.List.Sort
import SocialScraper.Enrichment.TimedCache
import SocialScraper.Lib.Runs
import SocialScraper.Lib.Workers
/-!
# The DNS cache

`DNSCache.resolve` of `app.network.dns_cache`, by tasks that share a cache; a
call suspends in the resolver only. Whatever the order, a call gets the answer
of a lookup of its own name and port, and goes to the resolver only where the
last of them is over (`resolve_answers`).
-/
open Lib

namespace SocialScraper

/-- The `cache_key` of `resolve`. -/
def dnsKey (hostname : Str) (port : ℤ) : Str := hostname ++ ':' :: intText port

/-- `sorted` of the set of the strings. -/
def sortedSet (l : List Str) : List Str := l.dedup.insertionSort (· ≤ ·)

/-- What `getaddrinfo` raises. -/
inductive ResolverError where
  | gaierror | unicodeError | other
deriving DecidableEq

/-- What `resolve` raises. -/
inductive ResolveError where
  | dnsFailure (message hostname : Str)
  | resolver (e : ResolverError)
deriving DecidableEq

def dnsFailure (hostname : Str) : ResolverError → ResolveError
  | .gaierror | .unicodeError => .dnsFailure ("DNS resolution failed for '".toList ++ hostname ++ "'".toList) hostname
  | .other => .resolver .other

inductive ResolvePhase where
  | resolving
  | returned (addresses : List Str)
  | raised (e : ResolveError)
  | cancelled
deriving DecidableEq

structure ResolveCall where
  hostname : Str
  port : ℤ
  phase : ResolvePhase
deriving DecidableEq

/-- The answers of the resolver, with their times, and the `clear` calls. -/
inductive DnsEntry where
  | answered (hostname : Str) (port : ℤ) (addrinfo : List Str) (time : ℚ)
  | cleared

/-- The last answer for the name and the port since the cache was cleared. -/
def lastAnswer (hostname : Str) (port : ℤ) : List DnsEntry → Option (List Str × ℚ)
  | [] => none
  | .cleared :: _ => none
  | .answered h p addrinfo time :: log =>
    if h = hostname ∧ p = port then some (addrinfo, time) else lastAnswer hostname port log

/-- The calls, the finished ones too. `log` is history, the latest entry first. -/
structure DnsRun where
  cache : MemoryCache (List Str) := {}
  calls : List ResolveCall := []
  now : ℚ
  log : List DnsEntry := []

inductive DnsAction where
  | resolve (hostname : Str) (port : ℤ)
  /-- The resolver answers the call, with these addresses. -/
  | answered (call : ℕ) (addrinfo : List Str)
  | fails (call : ℕ) (e : ResolverError)
  | cancel (call : ℕ)
  | clear

structure DnsEvent where
  time : ℚ
  action : DnsAction

namespace DnsRun

variable (ttl : ℚ)

/-- `resolve` up to the resolver, or to its end. -/
def resolve (s : DnsRun) (hostname : Str) (port : ℤ) : DnsRun :=
  match s.cache.get (dnsKey hostname port) s.now with
  | (cache, some addresses) => { s with cache := cache, calls := s.calls ++ [⟨hostname, port, .returned addresses⟩] }
  | (cache, none) => { s with cache := cache, calls := s.calls ++ [⟨hostname, port, .resolving⟩] }

def setPhase (s : DnsRun) (k : ℕ) (call : ResolveCall) (p : ResolvePhase) : DnsRun :=
  { s with calls := s.calls.set k { call with phase := p } }

/-- From the resolver on. -/
def finish (s : DnsRun) (k : ℕ) (call : ResolveCall) (addrinfo : List Str) : DnsRun :=
  let addresses := sortedSet addrinfo
  { s.setPhase k call (.returned addresses) with
    cache := s.cache.set (dnsKey call.hostname call.port) s.now addresses ttl
    log := .answered call.hostname call.port addrinfo s.now :: s.log }

/-- The call `k`, if it is in the resolver. -/
def resolving (s : DnsRun) (k : ℕ) : Option ResolveCall := s.calls[k]?.filter (·.phase = .resolving)

def step (s : DnsRun) (e : DnsEvent) : Option DnsRun :=
  if s.now ≤ e.time then
    let s := { s with now := e.time }
    match e.action with
    | .resolve hostname port => some (s.resolve hostname port)
    | .answered k addrinfo => (s.resolving k).map fun call => s.finish ttl k call addrinfo
    | .fails k e => (s.resolving k).map fun call => s.setPhase k call (.raised (dnsFailure call.hostname e))
    | .cancel k => (s.resolving k).map fun call => s.setPhase k call .cancelled
    | .clear => some { s with cache := s.cache.clear, log := .cleared :: s.log }
  else none

end DnsRun

/-! ## Keys and answers -/

theorem colon_not_mem_toDigits (n : ℕ) : ':' ∉ Nat.toDigits 10 n := by
  intro h
  have hdigit := Nat.isDigit_of_mem_toDigits (by decide) (by decide) h
  exact absurd hdigit (by decide)

theorem colon_not_mem_intText (n : ℤ) : ':' ∉ intText n := by
  cases n with
  | ofNat n => exact colon_not_mem_toDigits n
  | negSucc n =>
    intro h
    rcases List.mem_cons.1 h with h | h
    · cases h
    · exact colon_not_mem_toDigits _ h

/-- The last colon of a text is the one with no colon behind it. -/
theorem append_colon_inj {a b u v : Str} (hu : ':' ∉ u) (hv : ':' ∉ v) (h : a ++ ':' :: u = b ++ ':' :: v) : a = b ∧ u = v := by
  rcases List.append_eq_append_iff.1 h with ⟨w, rfl, hw⟩ | ⟨w, rfl, hw⟩
  · cases w with
    | nil => exact ⟨(List.append_nil a).symm, (List.cons.inj hw).2⟩
    | cons x w =>
      obtain ⟨rfl, hrest⟩ := List.cons.inj hw
      exact absurd (hrest ▸ List.mem_append_right w List.mem_cons_self) hu
  · cases w with
    | nil => exact ⟨List.append_nil b, (List.cons.inj hw).2.symm⟩
    | cons x w =>
      obtain ⟨rfl, hrest⟩ := List.cons.inj hw
      exact absurd (hrest ▸ List.mem_append_right w List.mem_cons_self) hv

/-- No two names and ports share a key. -/
theorem dnsKey_injective {h h' : Str} {p p' : ℤ} (he : dnsKey h p = dnsKey h' p') : h = h' ∧ p = p' := by
  obtain ⟨hh, hp⟩ := append_colon_inj (colon_not_mem_intText p) (colon_not_mem_intText p') he
  exact ⟨hh, intText_injective hp⟩

theorem sortedSet_sorted (l : List Str) : (sortedSet l).Pairwise (· < ·) := by
  have hle := List.pairwise_insertionSort (· ≤ ·) l.dedup
  have hne : (sortedSet l).Nodup := (List.perm_insertionSort (· ≤ ·) l.dedup).nodup_iff.2 (List.nodup_dedup l)
  exact hle.imp₂ (fun _ _ => lt_of_le_of_ne) hne

theorem mem_sortedSet {l : List Str} {a : Str} : a ∈ sortedSet l ↔ a ∈ l :=
  (List.perm_insertionSort (· ≤ ·) l.dedup).mem_iff.trans List.mem_dedup

/-! ## The cache and the history -/

namespace DnsRun

variable {ttl : ℚ} {s s' : DnsRun}

/-- The cache holds the last answers, those that are over perhaps not any more. -/
structure Caches (ttl : ℚ) (s : DnsRun) : Prop where
  stored : ∀ hostname port entry, s.cache.store (dnsKey hostname port) = some entry →
    ∃ addrinfo time, lastAnswer hostname port s.log = some (addrinfo, time) ∧ entry = ⟨sortedSet addrinfo, time + ttl⟩
  gone : ∀ hostname port addrinfo time, lastAnswer hostname port s.log = some (addrinfo, time) →
    s.cache.store (dnsKey hostname port) = none → time + ttl < s.now

/-- The calls that have returned have an answer to show for it. -/
structure Answered (s : DnsRun) : Prop where
  calls : ∀ call ∈ s.calls, ∀ addresses, call.phase = .returned addresses →
    ∃ addrinfo time, .answered call.hostname call.port addrinfo time ∈ s.log ∧ addresses = sortedSet addrinfo
  past : ∀ hostname port addrinfo time, .answered hostname port addrinfo time ∈ s.log → time ≤ s.now

theorem mem_of_lastAnswer {hostname : Str} {port : ℤ} {log : List DnsEntry} {addrinfo : List Str} {time : ℚ}
    (h : lastAnswer hostname port log = some (addrinfo, time)) : .answered hostname port addrinfo time ∈ log := by
  induction log with
  | nil => cases h
  | cons e log ih =>
    cases e with
    | cleared => cases h
    | answered hostname' port' addrinfo' time' =>
      rw [lastAnswer] at h
      split_ifs at h with he
      · obtain ⟨rfl, rfl⟩ := he
        obtain ⟨rfl, rfl⟩ := Prod.mk.inj (Option.some.inj h)
        exact List.mem_cons_self
      · exact List.mem_cons_of_mem _ (ih h)

theorem Caches.at_time (h : Caches ttl s) {t : ℚ} (ht : s.now ≤ t) : Caches ttl { s with now := t } where
  stored := h.stored
  gone hostname port addrinfo time hlast hnone := (h.gone hostname port addrinfo time hlast hnone).trans_le ht

/-- What a lookup finds is the last answer, while it is not over. -/
def found (ttl : ℚ) (s : DnsRun) (hostname : Str) (port : ℤ) : Option (List Str) :=
  (lastAnswer hostname port s.log).bind fun (addrinfo, time) => if time + ttl < s.now then none else some (sortedSet addrinfo)

theorem Caches.get (h : Caches ttl s) (hostname : Str) (port : ℤ) :
    (s.cache.get (dnsKey hostname port) s.now).2 = found ttl s hostname port ∧
      Caches ttl { s with cache := (s.cache.get (dnsKey hostname port) s.now).1 } := by
  cases hstore : s.cache.store (dnsKey hostname port) with
  | none =>
    simp only [MemoryCache.get, hstore]
    refine ⟨?_, h⟩
    cases hlast : lastAnswer hostname port s.log with
    | none => simp only [found, hlast, Option.bind_none]
    | some last =>
      obtain ⟨addrinfo, time⟩ := last
      have hover := h.gone hostname port addrinfo time hlast hstore
      simp only [found, hlast, Option.bind_some, if_pos hover]
  | some entry =>
    obtain ⟨addrinfo, time, hlast, rfl⟩ := h.stored hostname port entry hstore
    simp only [MemoryCache.get, hstore, found, hlast, Option.bind_some]
    split_ifs with hover
    · refine ⟨rfl, fun hostname' port' entry hentry => ?_, fun hostname' port' addrinfo' time' hlast' hnone => ?_⟩
      · dsimp only at hentry
        rw [Function.update_apply] at hentry
        split_ifs at hentry
        exact h.stored hostname' port' entry hentry
      · dsimp only at hnone
        rw [Function.update_apply] at hnone
        split_ifs at hnone with hkey
        · -- The entry that was dropped.
          obtain ⟨rfl, rfl⟩ := dnsKey_injective hkey
          obtain ⟨rfl, rfl⟩ := Prod.mk.inj (Option.some.inj (hlast'.symm.trans hlast))
          exact hover
        · exact h.gone hostname' port' addrinfo' time' hlast' hnone
    · exact ⟨rfl, h⟩

theorem Caches.set (h : Caches ttl s) (call : ResolveCall) (addrinfo : List Str) (k : ℕ) :
    Caches ttl (s.finish ttl k call addrinfo) := by
  refine ⟨fun hostname port entry hentry => ?_, fun hostname port addrinfo' time hlast hnone => ?_⟩
  · simp only [finish, MemoryCache.set, Function.update_apply] at hentry
    simp only [finish, lastAnswer]
    split_ifs at hentry with hkey
    · obtain ⟨rfl, rfl⟩ := dnsKey_injective hkey
      exact ⟨addrinfo, s.now, if_pos ⟨rfl, rfl⟩, (Option.some.inj hentry).symm⟩
    · rw [if_neg]
      · exact h.stored hostname port entry hentry
      · rintro ⟨rfl, rfl⟩
        exact hkey rfl
  · simp only [finish, MemoryCache.set, Function.update_apply] at hnone
    simp only [finish, lastAnswer] at hlast
    split_ifs at hnone with hkey
    rw [if_neg] at hlast
    · exact h.gone hostname port addrinfo' time hlast hnone
    · rintro ⟨rfl, rfl⟩
      exact hkey rfl

/-- What a step does: a call starts, with what the cache has found for it, or a call ends, or the cache is cleared. -/
inductive Effect (ttl : ℚ) (s : DnsRun) : DnsRun → Prop
  | starts (hostname : Str) (port : ℤ) : Effect ttl s
      { s with
        cache := (s.cache.get (dnsKey hostname port) s.now).1
        calls := s.calls ++
          [⟨hostname, port, ((s.cache.get (dnsKey hostname port) s.now).2.map .returned).getD .resolving⟩] }
  | finishes {k : ℕ} {call : ResolveCall} (hk : s.calls[k]? = some call) (addrinfo : List Str) :
      Effect ttl s (s.finish ttl k call addrinfo)
  | ends {k : ℕ} {call : ResolveCall} (hk : s.calls[k]? = some call) {p : ResolvePhase}
      (hp : ∀ addresses, p ≠ .returned addresses) : Effect ttl s (s.setPhase k call p)
  | clears : Effect ttl s { s with cache := s.cache.clear, log := .cleared :: s.log }

theorem resolve_eq (s : DnsRun) (hostname : Str) (port : ℤ) : s.resolve hostname port =
    { s with
      cache := (s.cache.get (dnsKey hostname port) s.now).1
      calls := s.calls ++
        [⟨hostname, port, ((s.cache.get (dnsKey hostname port) s.now).2.map .returned).getD .resolving⟩] } := by
  unfold resolve
  split <;> rename_i h <;> rw [h] <;> rfl

theorem resolving_slot {k : ℕ} {call : ResolveCall} (h : s.resolving k = some call) : s.calls[k]? = some call :=
  (Option.filter_eq_some_iff.1 h).1

theorem effect_of {e : DnsEvent} (h : s.step ttl e = some s') : s.now ≤ e.time ∧ Effect ttl { s with now := e.time } s' := by
  obtain ⟨t, a⟩ := e
  unfold step at h
  split_ifs at h with ht
  refine ⟨ht, ?_⟩
  cases a with
  | resolve hostname port =>
    obtain rfl := Option.some.inj h
    dsimp only
    rw [resolve_eq]
    exact .starts hostname port
  | answered k addrinfo =>
    obtain ⟨call, hk, rfl⟩ := Option.map_eq_some_iff.1 h
    exact .finishes (resolving_slot hk) addrinfo
  | fails k e =>
    obtain ⟨call, hk, rfl⟩ := Option.map_eq_some_iff.1 h
    exact .ends (resolving_slot hk) fun _ hp => ResolvePhase.noConfusion hp
  | cancel k =>
    obtain ⟨call, hk, rfl⟩ := Option.map_eq_some_iff.1 h
    exact .ends (resolving_slot hk) fun _ hp => ResolvePhase.noConfusion hp
  | clear =>
    obtain rfl := Option.some.inj h
    exact .clears

theorem caches_effect (hc : Caches ttl s) (h : Effect ttl s s') : Caches ttl s' := by
  cases h with
  | starts hostname port =>
    have hget := (hc.get hostname port).2
    exact ⟨hget.stored, hget.gone⟩
  | finishes hk addrinfo => exact hc.set _ addrinfo _
  | ends hk hp => exact ⟨hc.stored, hc.gone⟩
  | clears =>
    constructor
    · intro hostname port entry h
      cases h
    · intro hostname port addrinfo time h
      cases h

theorem answered_effect (hc : Caches ttl s) (ha : Answered s) (h : Effect ttl s s') : Answered s' := by
  cases h with
  | starts hostname port =>
    refine ⟨fun call hcall addresses hp => ?_, ha.past⟩
    rcases List.mem_append.1 hcall with hcall | hcall
    · exact ha.calls call hcall addresses hp
    · obtain rfl := List.mem_singleton.1 hcall
      dsimp only at hp
      rw [(hc.get hostname port).1, found] at hp
      cases hlast : lastAnswer hostname port s.log with
      | none =>
        rw [hlast] at hp
        cases hp
      | some last =>
        obtain ⟨addrinfo, time⟩ := last
        rw [hlast, Option.bind_some] at hp
        dsimp only at hp
        split_ifs at hp with hover
        · cases hp
        · exact ⟨addrinfo, time, mem_of_lastAnswer hlast, (ResolvePhase.returned.inj hp).symm⟩
  | finishes hk addrinfo =>
    rename_i k call
    constructor
    · intro call' hcall addresses hp
      rcases List.mem_or_eq_of_mem_set hcall with hold | rfl
      · obtain ⟨addrinfo', time, hmem, heq⟩ := ha.calls call' hold addresses hp
        exact ⟨addrinfo', time, List.mem_cons_of_mem _ hmem, heq⟩
      · exact ⟨addrinfo, s.now, List.mem_cons_self, (ResolvePhase.returned.inj hp).symm⟩
    · intro hostname port addrinfo' time hmem
      rcases List.mem_cons.1 hmem with he | hmem
      · obtain ⟨-, -, -, rfl⟩ := DnsEntry.answered.inj he
        exact le_refl s.now
      · exact ha.past hostname port addrinfo' time hmem
  | ends hk hp =>
    refine ⟨fun call' hcall addresses hreturned => ?_, ha.past⟩
    rcases List.mem_or_eq_of_mem_set hcall with hold | rfl
    · exact ha.calls call' hold addresses hreturned
    · exact absurd hreturned (hp addresses)
  | clears =>
    constructor
    · intro call hcall addresses hp
      obtain ⟨addrinfo, time, hmem, heq⟩ := ha.calls call hcall addresses hp
      exact ⟨addrinfo, time, List.mem_cons_of_mem _ hmem, heq⟩
    · intro hostname port addrinfo time hmem
      rcases List.mem_cons.1 hmem with he | hmem
      · cases he
      · exact ha.past hostname port addrinfo time hmem

/-- An empty cache. -/
def start (now : ℚ) : DnsRun := { now := now }

theorem start_caches (now : ℚ) : Caches ttl (start now) where
  stored _ _ _ h := by cases h
  gone _ _ _ _ h := by cases h

theorem start_answered (now : ℚ) : Answered (start now) where
  calls _ h := by cases h
  past _ _ _ _ h := by cases h

theorem answered_reachable {now : ℚ} (h : Reachable (Fires (step ttl)) (start now) s) : Caches ttl s ∧ Answered s := by
  apply h.inv (fun s => Caches ttl s ∧ Answered s) ⟨start_caches now, start_answered now⟩
  rintro s e s' ⟨hc, ha⟩ hs
  obtain ⟨ht, heffect⟩ := effect_of hs
  have hcaches := hc.at_time ht
  have hanswered : Answered { s with now := e.time } :=
    ⟨ha.calls, fun hostname port addrinfo time hmem => (ha.past hostname port addrinfo time hmem).trans ht⟩
  exact ⟨caches_effect hcaches heffect, answered_effect hcaches hanswered heffect⟩

/-- In any interleaving of lookups, answers, failures, cancellations and `clear`: a call returns the addresses of an answer
that the resolver gave for its own name and port, each once and in order. A new call gets the last of them since the
last `clear` if it is not over yet, and is off to the resolver else. -/
theorem resolve_answers (ttl now : ℚ) (s : DnsRun) (h : Reachable (Fires (step ttl)) (start now) s) :
    (∀ call ∈ s.calls, ∀ addresses, call.phase = .returned addresses →
      addresses.Pairwise (· < ·) ∧ ∃ addrinfo time, .answered call.hostname call.port addrinfo time ∈ s.log ∧ time ≤ s.now ∧
        ∀ a, a ∈ addresses ↔ a ∈ addrinfo) ∧
    ∀ t hostname port s', s.step ttl ⟨t, .resolve hostname port⟩ = some s' → ∃ p, s'.calls = s.calls ++ [⟨hostname, port, p⟩] ∧
      ((∃ addrinfo time, lastAnswer hostname port s.log = some (addrinfo, time) ∧ t ≤ time + ttl ∧
          p = .returned (sortedSet addrinfo)) ∨
        (∀ addrinfo time, lastAnswer hostname port s.log = some (addrinfo, time) → time + ttl < t) ∧ p = .resolving) := by
  obtain ⟨hc, ha⟩ := answered_reachable h
  constructor
  · intro call hcall addresses hp
    obtain ⟨addrinfo, time, hmem, rfl⟩ := ha.calls call hcall addresses hp
    exact ⟨sortedSet_sorted _, addrinfo, time, hmem, ha.past _ _ _ _ hmem, fun a => mem_sortedSet⟩
  · intro t hostname port s' hs
    unfold step at hs
    split_ifs at hs with ht
    obtain rfl := Option.some.inj hs
    dsimp only
    rw [resolve_eq, ((hc.at_time ht).get hostname port).1]
    refine ⟨_, rfl, ?_⟩
    unfold found
    cases hlast : lastAnswer hostname port s.log with
    | none =>
      right
      refine ⟨?_, rfl⟩
      intro _ _ h
      cases h
    | some last =>
      obtain ⟨addrinfo, time⟩ := last
      simp only [Option.bind_some]
      split_ifs with hover
      · refine .inr ⟨fun addrinfo' time' h => ?_, rfl⟩
        obtain ⟨rfl, rfl⟩ := Prod.mk.inj (Option.some.inj h)
        exact hover
      · exact .inl ⟨addrinfo, time, rfl, not_lt.1 hover, rfl⟩

/-- Two tasks look a name up at once, and a third while the first answer lasts. -/
def sharedLookup : List DnsEvent :=
  [⟨0, .resolve "cafe.test".toList 443⟩, ⟨1, .resolve "cafe.test".toList 443⟩, ⟨2, .fails 1 .gaierror⟩,
    ⟨3, .answered 0 ["10.0.0.2".toList, "10.0.0.10".toList, "10.0.0.2".toList]⟩, ⟨63, .resolve "cafe.test".toList 443⟩]

theorem resolve_answers_shared : ∃ s, exec (step 60) (start 0) sharedLookup = some s ∧
    ∃ call ∈ s.calls, ∃ addresses, call.phase = .returned addresses ∧ addresses.Pairwise (· < ·) := by
  obtain ⟨s, hs, hcalls⟩ := exec_ends (f := step 60)
    (Q := fun s => ⟨"cafe.test".toList, 443, .returned ["10.0.0.10".toList, "10.0.0.2".toList]⟩ ∈ s.calls) (s := start 0)
    sharedLookup (by decide +kernel)
  have hanswers := (resolve_answers 60 0 s (reachable_of_exec _ hs)).1 _ hcalls _ rfl
  exact ⟨s, hs, _, hcalls, _, rfl, hanswers.1⟩

end DnsRun

end SocialScraper
