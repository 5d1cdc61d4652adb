import SocialScraper.Discovery.BrowserPool
/-!
# The contexts of the page pool

`app.discovery.google_maps.browser_pool` again, with the calls that
`_create_entry` is made of and a count of the calls of `close()` for every
context that `new_context` has returned. An entry of the pool is made when
its page is there, so some contexts never get to the pool.
-/
open Lib

namespace SocialScraper

/-- Where a `_create_entry` is. -/
inductive EntryPhase where
  | inNewContext
  /-- In `new_page()` of the context with the number. -/
  | inNewPage (context : ℕ)
  /-- In `context.close()`, `new_page()` having raised. -/
  | inClose (context : ℕ)
  | over
deriving DecidableEq

structure PoolContexts where
  pool : BrowserPool := {}
  /-- The `_create_entry` calls of the last `start()` that made any. -/
  entries : List EntryPhase := []
  /-- The context of each entry of the pool. -/
  contextOf : List ℕ := []
  /-- How often `close()` has been called on each context. -/
  closes : List ℕ := []

inductive ContextAction where
  | start
  | newContext (slot : ℕ) (succeeds : Bool)
  | newPage (slot : ℕ) (succeeds : Bool)
  /-- The `close()` behind a `new_page()` that raised is over. -/
  | closed (slot : ℕ) (raises : Bool)
  | startEnds
  | acquire
  | take (borrower : ℕ)
  | release (borrower : ℕ)
  | stop
  /-- The `close()` that a `stop()` waits for is over. -/
  | closeEnds (call : ℕ) (raises : Bool)
deriving DecidableEq

namespace PoolContexts

variable (poolSize : ℕ)

/-- `close()` is called on the context. -/
def close (s : PoolContexts) (context : ℕ) : PoolContexts := { s with closes := s.closes.modify context (· + 1) }

/-- What the `stop()` with the number does at the entry it has come to. -/
def closeNext (s : PoolContexts) (call : ℕ) : PoolContexts :=
  match s.pool.stops[call]? with
  | some (.closing _ e) =>
    match s.contextOf[e]? with
    | some context => s.close context
    | none => s
  | _ => s

def newContext (s : PoolContexts) (slot : ℕ) (succeeds : Bool) : Option PoolContexts :=
  match s.entries[slot]? with
  | some .inNewContext =>
    if succeeds then
      some { s with entries := s.entries.set slot (.inNewPage s.closes.length), closes := s.closes ++ [0] }
    else (s.pool.create slot false).map fun pool => { s with pool, entries := s.entries.set slot .over }
  | _ => none

def newPage (s : PoolContexts) (slot : ℕ) (succeeds : Bool) : Option PoolContexts :=
  match s.entries[slot]? with
  | some (.inNewPage context) =>
    if succeeds then
      (s.pool.create slot true).map fun pool =>
        { s with pool, entries := s.entries.set slot .over, contextOf := s.contextOf ++ [context] }
    else some ({ s with entries := s.entries.set slot (.inClose context) }.close context)
  | _ => none

/-- The entry fails by the error of `new_page()`, or by that of `close()`. -/
def closed (s : PoolContexts) (slot : ℕ) : Option PoolContexts :=
  match s.entries[slot]? with
  | some (.inClose _) => (s.pool.create slot false).map fun pool => { s with pool, entries := s.entries.set slot .over }
  | _ => none

def step (s : PoolContexts) : ContextAction → Option PoolContexts
  | .start =>
    (s.pool.start poolSize).map fun pool =>
      { s with pool, entries := if s.pool.started then s.entries else List.replicate poolSize .inNewContext }
  | .newContext slot succeeds => s.newContext slot succeeds
  | .newPage slot succeeds => s.newPage slot succeeds
  | .closed slot _ => s.closed slot
  | .startEnds => s.pool.startEnds.map fun pool => { s with pool }
  | .acquire => some { s with pool := s.pool.acquire }
  | .take k => (s.pool.take k).map fun pool => { s with pool }
  | .release k => (s.pool.release k).map fun pool => { s with pool }
  | .stop => some ({ s with pool := s.pool.stop }.closeNext s.pool.stops.length)
  -- An exception of `close()` is logged, and the loop goes on.
  | .closeEnds j _ => (s.pool.closeEnds j).map fun pool => { s with pool }.closeNext j

/-- A `start()` or `stop()` begins when no other is under way. -/
def apart (s : PoolContexts) : ContextAction → Bool
  | .start | .stop => s.pool.creating.isNone && !s.pool.stopping
  | _ => true

/-- Everything an action can do. -/
inductive Effect (s : PoolContexts) : ContextAction → PoolContexts → Prop
  | start {pool} (h : s.pool.start poolSize = some pool) :
      Effect s .start { s with pool, entries := if s.pool.started then s.entries else List.replicate poolSize .inNewContext }
  | context {slot} (hslot : s.entries[slot]? = some .inNewContext) :
      Effect s (.newContext slot true)
        { s with entries := s.entries.set slot (.inNewPage s.closes.length), closes := s.closes ++ [0] }
  | noContext {slot pool} (hslot : s.entries[slot]? = some .inNewContext) (h : s.pool.create slot false = some pool) :
      Effect s (.newContext slot false) { s with pool, entries := s.entries.set slot .over }
  | page {slot k pool} (hslot : s.entries[slot]? = some (.inNewPage k)) (h : s.pool.create slot true = some pool) :
      Effect s (.newPage slot true)
        { s with pool, entries := s.entries.set slot .over, contextOf := s.contextOf ++ [k] }
  | noPage {slot k} (hslot : s.entries[slot]? = some (.inNewPage k)) :
      Effect s (.newPage slot false) ({ s with entries := s.entries.set slot (.inClose k) }.close k)
  | closed {slot k raises pool} (hslot : s.entries[slot]? = some (.inClose k)) (h : s.pool.create slot false = some pool) :
      Effect s (.closed slot raises) { s with pool, entries := s.entries.set slot .over }
  | startEnds {pool} (h : s.pool.startEnds = some pool) : Effect s .startEnds { s with pool }
  | acquire : Effect s .acquire { s with pool := s.pool.acquire }
  | take {k pool} (h : s.pool.take k = some pool) : Effect s (.take k) { s with pool }
  | release {k pool} (h : s.pool.release k = some pool) : Effect s (.release k) { s with pool }
  | stop : Effect s .stop ({ s with pool := s.pool.stop }.closeNext s.pool.stops.length)
  | closeEnds {j raises pool} (h : s.pool.closeEnds j = some pool) :
      Effect s (.closeEnds j raises) ({ s with pool }.closeNext j)

variable {poolSize} {s s' : PoolContexts}

theorem effect_newContext {slot : ℕ} {succeeds : Bool} (h : s.newContext slot succeeds = some s') :
    Effect poolSize s (.newContext slot succeeds) s' := by
  unfold newContext at h
  split at h
  · rename_i hslot
    cases succeeds
    · obtain ⟨pool, hcreate, rfl⟩ := Option.map_eq_some_iff.1 h
      exact .noContext hslot hcreate
    · exact Option.some.inj h ▸ .context hslot
  · cases h

theorem effect_newPage {slot : ℕ} {succeeds : Bool} (h : s.newPage slot succeeds = some s') :
    Effect poolSize s (.newPage slot succeeds) s' := by
  unfold newPage at h
  split at h
  · rename_i k hslot
    cases succeeds
    · exact Option.some.inj h ▸ .noPage hslot
    · obtain ⟨pool, hcreate, rfl⟩ := Option.map_eq_some_iff.1 h
      exact .page hslot hcreate
  · cases h

theorem effect_closed {slot : ℕ} {raises : Bool} (h : s.closed slot = some s') : Effect poolSize s (.closed slot raises) s' := by
  unfold closed at h
  split at h
  · rename_i k hslot
    obtain ⟨pool, hcreate, rfl⟩ := Option.map_eq_some_iff.1 h
    exact .closed hslot hcreate
  · cases h

theorem effect_of {a : ContextAction} (h : s.step poolSize a = some s') : Effect poolSize s a s' := by
  cases a with
  | start =>
    obtain ⟨pool, hpool, rfl⟩ := Option.map_eq_some_iff.1 h
    exact .start hpool
  | newContext slot succeeds => exact effect_newContext h
  | newPage slot succeeds => exact effect_newPage h
  | closed slot raises => exact effect_closed h
  | startEnds =>
    obtain ⟨pool, hpool, rfl⟩ := Option.map_eq_some_iff.1 h
    exact .startEnds hpool
  | acquire => exact Option.some.inj h ▸ .acquire
  | take k =>
    obtain ⟨pool, hpool, rfl⟩ := Option.map_eq_some_iff.1 h
    exact .take hpool
  | release k =>
    obtain ⟨pool, hpool, rfl⟩ := Option.map_eq_some_iff.1 h
    exact .release hpool
  | stop => exact Option.some.inj h ▸ .stop
  | closeEnds j raises =>
    obtain ⟨pool, hpool, rfl⟩ := Option.map_eq_some_iff.1 h
    exact .closeEnds hpool

/-! ## Who has a context to close -/

/-- The entries that the `gather` of a `start()` has so far. -/
def made (s : PoolContexts) : List ℕ := (s.pool.creating.getD []).filterMap (·.entry)

/-- How many entries of `_all` a `stop()` that is under way has come to. -/
def reached (s : PoolContexts) : ℕ :=
  match s.pool.stops.getLast? with
  | some (.closing i _) => i + 1
  | _ => 0

/-- The entries whose contexts the next `stop()` or the one under way will close. -/
def toClose (s : PoolContexts) : List ℕ := s.pool.all.drop s.reached ++ s.made

/-- The `_create_entry` calls and entries that have the context to close. -/
def owners (s : PoolContexts) (context : ℕ) : ℕ :=
  s.entries.countP (· = .inNewPage context) + s.toClose.countP fun e => s.contextOf[e]? = some context

/-- Each context has been closed or has one owner, and there are no others. -/
structure Accounted (s : PoolContexts) : Prop where
  once : ∀ x, s.closes[x]?.getD 1 + s.owners x = 1
  idle : s.pool.creating = none → ∀ p ∈ s.entries, p = .over
  pending : ∀ slots : List Creation, s.pool.creating = some slots → ∀ (slot : ℕ) (p : EntryPhase),
    s.entries[slot]? = some p → p ≠ .over → slots[slot]? = some .pending
  /-- Only the last `stop()` can be under way, and then no `start()` is. -/
  last : ∀ j i e, s.pool.stops[j]? = some (.closing i e) →
    j + 1 = s.pool.stops.length ∧ s.pool.all[i]? = some e ∧ s.pool.creating = none
  known : s.contextOf.length = s.pool.contexts.length
  all : ∀ e ∈ s.pool.all ++ s.made, e < s.contextOf.length

/-- The actions of the pool that touch neither its entries nor its `start()` and `stop()` calls. -/
theorem Accounted.same (h : Accounted s) {pool : BrowserPool} (hall : pool.all = s.pool.all)
    (hcreating : pool.creating = s.pool.creating) (hstops : pool.stops = s.pool.stops)
    (hcontexts : pool.contexts = s.pool.contexts) : Accounted { s with pool } := by
  have hmade : ({ s with pool } : PoolContexts).made = s.made := by rw [made, made, hcreating]
  have hclose : ({ s with pool } : PoolContexts).toClose = s.toClose := by
    unfold toClose reached
    rw [hmade, hall, hstops]
  refine ⟨?_, ?_, ?_, ?_, ?_, ?_⟩
  · intro x
    rw [owners, hclose]
    exact h.once x
  · intro hc
    exact h.idle (hcreating ▸ hc)
  · intro slots hc
    exact h.pending slots (hcreating ▸ hc)
  · intro j i e hj
    dsimp only at hj ⊢
    rw [hstops] at hj ⊢
    rw [hall, hcreating]
    exact h.last j i e hj
  · dsimp only
    rw [hcontexts]
    exact h.known
  · intro e he
    rw [hmade] at he
    exact h.all e (by rwa [← hall])

theorem acquire_same (p : BrowserPool) :
    p.acquire.all = p.all ∧ p.acquire.creating = p.creating ∧ p.acquire.stops = p.stops ∧ p.acquire.contexts = p.contexts := by
  unfold BrowserPool.acquire
  split <;> exact ⟨rfl, rfl, rfl, rfl⟩

theorem take_same {p p' : BrowserPool} {k : ℕ} (h : p.take k = some p') :
    p'.all = p.all ∧ p'.creating = p.creating ∧ p'.stops = p.stops ∧ p'.contexts = p.contexts := by
  have heffect : BrowserPool.Effect 0 p (.take k) p' := BrowserPool.effect_take h
  cases heffect <;> exact ⟨rfl, rfl, rfl, rfl⟩

theorem release_same {p p' : BrowserPool} {k : ℕ} (h : p.release k = some p') :
    p'.all = p.all ∧ p'.creating = p.creating ∧ p'.stops = p.stops ∧ p'.contexts = p.contexts := by
  have hstep : p.step 0 (.release k) = some p' := h
  cases BrowserPool.effect_of hstep
  exact ⟨rfl, rfl, rfl, rfl⟩

/-! ## Calls of `close()` -/

/-- A call of `close()` on a context that has not been closed. -/
theorem closes_close {closes : List ℕ} {k : ℕ} (h : closes[k]?.getD 1 = 0) (x : ℕ) :
    (closes.modify k (· + 1))[x]?.getD 1 = closes[x]?.getD 1 + if k = x then 1 else 0 := by
  rw [List.getElem?_modify]
  by_cases hx : k = x
  · subst hx
    cases hk : closes[k]? with
    | none =>
      rw [hk] at h
      cases h
    | some n => simp
  · rw [if_neg hx]
    cases closes[x]? with
    | none => rfl
    | some n => simp [hx]

/-- What has an owner has not been closed. -/
theorem Accounted.open_of_owner (h : Accounted s) {x : ℕ} (hx : 0 < s.owners x) : s.closes[x]?.getD 1 = 0 := by
  have honce := h.once x
  omega

theorem Accounted.lt_of_toClose (h : Accounted s) {e : ℕ} (he : e ∈ s.toClose) : e < s.contextOf.length := by
  rcases List.mem_append.1 he with he | he
  · exact h.all e (List.mem_append_left _ (List.mem_of_mem_drop he))
  · exact h.all e (List.mem_append_right _ he)

/-! ## `_create_entry` -/

/-- What a change of phase does to the number of calls in `new_page()` of a context. -/
theorem count_inNewPage {entries : List EntryPhase} {slot : ℕ} {p : EntryPhase} (h : entries[slot]? = some p) (q : EntryPhase)
    (x : ℕ) : (entries.set slot q).countP (fun r => r = .inNewPage x) + (if p = .inNewPage x then 1 else 0) =
      entries.countP (fun r => r = .inNewPage x) + if q = .inNewPage x then 1 else 0 := by
  have hslot := countP_slot (fun r : EntryPhase => r = .inNewPage x) h q
  simpa only [decide_eq_true_eq] using hslot

/-- While a `_create_entry` is not over, the `gather` waits for it. -/
theorem Accounted.goes_on (h : Accounted s) {slot : ℕ} {p : EntryPhase} (hslot : s.entries[slot]? = some p) (hp : p ≠ .over)
    (q : EntryPhase) : (s.pool.creating = none → ∀ r ∈ s.entries.set slot q, r = .over) ∧
      ∀ slots : List Creation, s.pool.creating = some slots → ∀ (x : ℕ) (r : EntryPhase),
        (s.entries.set slot q)[x]? = some r → r ≠ .over → slots[x]? = some .pending := by
  constructor
  · intro hc
    exact absurd (h.idle hc p (List.mem_of_getElem? hslot)) hp
  · intro slots hc x r hx hr
    rcases slot_after hx with ⟨rfl, rfl⟩ | hx
    · exact h.pending slots hc x p hslot hp
    · exact h.pending slots hc x r hx hr

/-- When it is over, the `gather` has its result. -/
theorem Accounted.pending_over (h : Accounted s) {slots : List Creation} (hc : s.pool.creating = some slots) {slot : ℕ}
    {p : EntryPhase} (hslot : s.entries[slot]? = some p) (c : Creation) :
    ∀ slots' : List Creation, some (slots.set slot c) = some slots' → ∀ (x : ℕ) (r : EntryPhase),
      (s.entries.set slot .over)[x]? = some r → r ≠ .over → slots'[x]? = some .pending := by
  intro slots' hslots x r hx hr
  obtain rfl := Option.some.inj hslots
  by_cases hne : slot = x
  · subst hne
    rw [List.getElem?_set_self (List.getElem?_eq_some_iff.1 hslot).1] at hx
    exact absurd (Option.some.inj hx).symm hr
  · rw [List.getElem?_set_ne hne] at hx ⊢
    exact h.pending slots hc x r hx hr

/-- While a `start()` is under way, no `stop()` is. -/
theorem Accounted.no_stop (h : Accounted s) {slots : List Creation} (hc : s.pool.creating = some slots) (j i e : ℕ) :
    s.pool.stops[j]? ≠ some (.closing i e) := by
  intro hj
  have hnone := (h.last j i e hj).2.2
  rw [hc] at hnone
  cases hnone

theorem Accounted.newContext_step (h : Accounted s) {slot : ℕ} (hslot : s.entries[slot]? = some .inNewContext) :
    Accounted { s with entries := s.entries.set slot (.inNewPage s.closes.length), closes := s.closes ++ [0] } := by
  obtain ⟨hidle, hpending⟩ := h.goes_on hslot nofun (.inNewPage s.closes.length)
  refine ⟨?_, hidle, hpending, h.last, h.known, h.all⟩
  · intro x
    have honce := h.once x
    have hcount := count_inNewPage hslot (.inNewPage s.closes.length) x
    have hclose : ({ s with entries := s.entries.set slot (.inNewPage s.closes.length), closes := s.closes ++ [0] } :
        PoolContexts).toClose = s.toClose := rfl
    simp only [reduceCtorEq, if_false, EntryPhase.inNewPage.injEq] at hcount
    unfold owners at honce ⊢
    rw [hclose]
    dsimp only
    -- The context that is new is the only one that is accounted for anew.
    rcases Nat.lt_trichotomy x s.closes.length with hx | hx | hx
    · rw [List.getElem?_append_left hx]
      rw [if_neg (by omega)] at hcount
      omega
    · subst hx
      rw [List.getElem?_concat_length, Option.getD_some]
      rw [List.getElem?_eq_none (Nat.le_refl _), Option.getD_none] at honce
      rw [if_pos rfl] at hcount
      omega
    · rw [List.getElem?_eq_none (by rw [List.length_append]; exact hx)]
      rw [List.getElem?_eq_none (by omega)] at honce
      rw [if_neg (by omega)] at hcount
      omega

/-- A creation fails when its context is closed or was never there. -/
theorem Accounted.fails_step (h : Accounted s) {slot : ℕ} {p : EntryPhase} (hslot : s.entries[slot]? = some p)
    (hp : ∀ x, p ≠ .inNewPage x) {pool : BrowserPool} (hcreate : s.pool.create slot false = some pool) :
    Accounted { s with pool, entries := s.entries.set slot .over } := by
  have heffect : BrowserPool.Effect 0 s.pool (.create slot false) pool := BrowserPool.effect_create hcreate
  cases heffect with
  | @fails slots slot hc hpending =>
    have hmade : (slots.set slot .failed).filterMap (·.entry) = slots.filterMap (·.entry) := by
      obtain ⟨u, v, hl, hs⟩ := Lib.slot hpending
      rw [hs _, hl]
      simp [Creation.entry]
    refine ⟨?_, fun hnone => absurd hnone (Option.some_ne_none _), h.pending_over hc hslot _, ?_, h.known, ?_⟩
    · intro x
      have honce := h.once x
      have hcount := count_inNewPage hslot .over x
      simp only [hp x, reduceCtorEq, if_false] at hcount
      unfold owners toClose made reached at honce ⊢
      simp only [hc, Option.getD_some] at honce ⊢
      rw [hmade]
      omega
    · exact fun j i e hj => absurd hj (h.no_stop hc j i e)
    · intro e he
      have hall := h.all e
      unfold made at he hall
      rw [hc] at hall
      rw [Option.getD_some, hmade] at he
      exact hall he

/-- The page is there: the context goes from its creation to an entry of the pool. -/
theorem Accounted.newPage_step (h : Accounted s) {slot k : ℕ} (hslot : s.entries[slot]? = some (.inNewPage k))
    {pool : BrowserPool} (hcreate : s.pool.create slot true = some pool) :
    Accounted { s with pool, entries := s.entries.set slot .over, contextOf := s.contextOf ++ [k] } := by
  have heffect : BrowserPool.Effect 0 s.pool (.create slot true) pool := BrowserPool.effect_create hcreate
  cases heffect with
  | @creates slots slot hc hpending =>
    have hmade : ((slots.set slot (.made s.pool.contexts.length)).filterMap (·.entry)).Perm
        (s.pool.contexts.length :: slots.filterMap (·.entry)) := by
      obtain ⟨u, v, hl, hs⟩ := Lib.slot hpending
      rw [hs _, hl]
      simp [Creation.entry]
    have hperm : (s.pool.all.drop s.reached ++ (slots.set slot (.made s.pool.contexts.length)).filterMap (·.entry)).Perm
        (s.pool.contexts.length :: s.toClose) := by
      rw [toClose, made, hc]
      exact (hmade.append_left _).trans List.perm_middle
    have hknown : ∀ e ∈ s.pool.all ++ slots.filterMap (·.entry), e < s.contextOf.length := by
      have hall := h.all
      rw [made, hc] at hall
      exact hall
    refine ⟨?_, fun hnone => absurd hnone (Option.some_ne_none _), h.pending_over hc hslot _, ?_, ?_, ?_⟩
    · intro x
      have honce := h.once x
      have hcount := count_inNewPage hslot .over x
      have hold : ∀ e ∈ s.toClose, decide ((s.contextOf ++ [k])[e]? = some x) ↔ decide (s.contextOf[e]? = some x) := by
        intro e he
        rw [List.getElem?_append_left (h.lt_of_toClose he)]
      have hnew : (s.contextOf ++ [k])[s.pool.contexts.length]? = some k := by
        rw [← h.known, List.getElem?_concat_length]
      have hclose : (s.pool.all.drop s.reached ++ (slots.set slot (.made s.pool.contexts.length)).filterMap (·.entry)).countP
          (fun e => (s.contextOf ++ [k])[e]? = some x) =
            s.toClose.countP (fun e => s.contextOf[e]? = some x) + if k = x then 1 else 0 := by
        rw [hperm.countP_eq, List.countP_cons, List.countP_congr hold, hnew]
        simp only [Option.some.injEq, decide_eq_true_eq]
      simp only [reduceCtorEq, if_false, EntryPhase.inNewPage.injEq] at hcount
      unfold owners at honce ⊢
      change s.closes[x]?.getD 1 + ((s.entries.set slot .over).countP (fun p => p = .inNewPage x) +
        (s.pool.all.drop s.reached ++ (slots.set slot (.made s.pool.contexts.length)).filterMap (·.entry)).countP
          (fun e => (s.contextOf ++ [k])[e]? = some x)) = 1
      omega
    · exact fun j i e hj => absurd hj (h.no_stop hc j i e)
    · dsimp only
      rw [List.length_append, List.length_append, h.known]
      rfl
    · intro e he
      dsimp only [made] at he ⊢
      rw [List.length_append, List.length_singleton]
      rcases List.mem_append.1 he with he | he
      · exact Nat.lt_succ_of_lt (hknown e (List.mem_append_left _ he))
      · rcases List.mem_cons.1 (hmade.subset he) with rfl | he
        · rw [h.known]
          exact Nat.lt_succ_self _
        · exact Nat.lt_succ_of_lt (hknown e (List.mem_append_right _ he))

/-- The page is not there: the context is closed by its `_create_entry`. -/
theorem Accounted.noPage_step (h : Accounted s) {slot k : ℕ} (hslot : s.entries[slot]? = some (.inNewPage k)) :
    Accounted ({ s with entries := s.entries.set slot (.inClose k) }.close k) := by
  have howner : 0 < s.owners k :=
    Nat.lt_of_lt_of_le (countP_pos_of_slot hslot (decide_eq_true rfl)) (Nat.le_add_right _ _)
  obtain ⟨hidle, hpending⟩ := h.goes_on hslot nofun (.inClose k)
  refine ⟨?_, hidle, hpending, h.last, h.known, h.all⟩
  · intro x
    have honce := h.once x
    have hcloses := closes_close (h.open_of_owner howner) x
    have hcount := count_inNewPage hslot (.inClose k) x
    simp only [reduceCtorEq, if_false, EntryPhase.inNewPage.injEq] at hcount
    unfold owners at honce ⊢
    change (s.closes.modify k (· + 1))[x]?.getD 1 + ((s.entries.set slot (.inClose k)).countP (fun p => p = .inNewPage x) +
      s.toClose.countP (fun e => s.contextOf[e]? = some x)) = 1
    omega

/-! ## `start` -/

/-- While no call is under way, all is to be closed that the pool has. -/
theorem toClose_idle (hc : s.pool.creating = none) (hs : s.pool.stopping = false) :
    s.reached = 0 ∧ s.toClose = s.pool.all := by
  have hreached : s.reached = 0 := by
    unfold reached
    split
    · rename_i i e hlast
      have hactive := List.any_eq_false.1 hs _ (List.mem_of_getLast? hlast)
      exact absurd rfl hactive
    · rfl
  refine ⟨hreached, ?_⟩
  rw [toClose, hreached, made, hc]
  exact List.append_nil _

theorem Accounted.starts_step (h : Accounted s) (hc : s.pool.creating = none) (hs : s.pool.stopping = false) (n : ℕ) :
    Accounted
      { s with
        pool := { s.pool with creating := some (List.replicate n .pending) }
        entries := List.replicate n .inNewContext } := by
  obtain ⟨hreached, hclose⟩ := toClose_idle hc hs
  have hnone : (List.replicate n Creation.pending).filterMap (·.entry) = [] := by
    rw [List.filterMap_eq_nil_iff]
    intro c hmem
    rw [List.eq_of_mem_replicate hmem]
    rfl
  refine ⟨?_, nofun, ?_, ?_, h.known, ?_⟩
  · intro x
    have honce := h.once x
    have hold : s.entries.countP (fun p => p = .inNewPage x) = 0 := by
      rw [List.countP_eq_zero]
      intro p hp
      simp [h.idle hc p hp]
    have hnew : (List.replicate n EntryPhase.inNewContext).countP (fun p => p = .inNewPage x) = 0 := by
      rw [List.countP_eq_zero]
      intro p hp
      simp [List.eq_of_mem_replicate hp]
    unfold owners at honce ⊢
    rw [hold] at honce
    dsimp only
    rw [hnew]
    have hsame : ({ s with
        pool := { s.pool with creating := some (List.replicate n .pending) }
        entries := List.replicate n .inNewContext } : PoolContexts).toClose = s.toClose := by
      rw [toClose, toClose, made, made, hc, Option.getD_some, hnone]
      rfl
    rw [hsame]
    exact honce
  · rintro slots hc' slot p hp -
    obtain rfl := Option.some.inj hc'
    obtain ⟨hlt, -⟩ := List.getElem?_eq_some_iff.1 hp
    rw [List.length_replicate] at hlt
    rw [List.getElem?_replicate, if_pos hlt]
  · intro j i e hj
    exact absurd rfl (List.any_eq_false.1 hs _ (List.mem_of_getElem? hj))
  · intro e he
    rw [made, Option.getD_some, hnone, List.append_nil] at he
    exact h.all e (List.mem_append_left _ he)

/-- What the `gather` has made goes to the pool, whether or not `start()` raises then. -/
theorem Accounted.startEnds_step (h : Accounted s) {pool : BrowserPool} (hends : s.pool.startEnds = some pool) :
    Accounted { s with pool } := by
  unfold BrowserPool.startEnds at hends
  split at hends
  · cases hends
  · rename_i slots hc
    split_ifs at hends with hpending
    obtain rfl := Option.some.inj hends
    have hreached : s.reached = 0 := by
      unfold reached
      split
      · rename_i i e hlast
        obtain ⟨j, hj⟩ := List.mem_iff_getElem?.1 (List.mem_of_getLast? hlast)
        exact absurd hj (h.no_stop hc j i e)
      · rfl
    have hbefore : s.toClose = s.pool.all ++ slots.filterMap (·.entry) := by
      rw [toClose, hreached, made, hc]
      rfl
    refine ⟨?_, ?_, nofun, ?_, h.known, ?_⟩
    · intro x
      have honce := h.once x
      unfold owners at honce ⊢
      rw [hbefore] at honce
      have hafter : (s.pool.all ++ slots.filterMap (·.entry)).drop s.reached ++ [] =
          s.pool.all ++ slots.filterMap (·.entry) := by
        rw [hreached]
        exact List.append_nil _
      change s.closes[x]?.getD 1 + (s.entries.countP (fun p => p = .inNewPage x) +
        ((s.pool.all ++ slots.filterMap fun c : Creation => c.entry).drop s.reached ++ []).countP (fun e => s.contextOf[e]? = some x)) = 1
      rw [hafter]
      exact honce
    · -- All creations are over, or `start()` would still wait for them.
      intro _ p hp
      by_contra hover
      obtain ⟨slot, hslot⟩ := List.mem_iff_getElem?.1 hp
      have hmem := List.mem_of_getElem? (h.pending slots hc slot p hslot hover)
      exact hpending (List.contains_iff_mem.2 hmem)
    · exact fun j i e hj => absurd hj (h.no_stop hc j i e)
    · intro e he
      have hall := h.all e
      rw [made, hc] at hall
      exact hall (by simpa [made] using he)

/-! ## `stop` -/

@[simp] theorem closeNext_pool (s : PoolContexts) (call : ℕ) : (s.closeNext call).pool = s.pool := by
  unfold closeNext
  split
  · split <;> rfl
  · rfl

theorem reached_of_last {call i e : ℕ} (hcall : s.pool.stops[call]? = some (.closing i e))
    (hlast : call + 1 = s.pool.stops.length) : s.reached = i + 1 := by
  have hget : s.pool.stops.getLast? = some (.closing i e) := by
    rw [List.getLast?_eq_getElem?, ← hlast]
    exact hcall
  rw [reached, hget]

/-- A `stop()` comes to the next entry and calls its `close()`. -/
theorem Accounted.closeNext_step (h : Accounted s) {pool : BrowserPool} {call i e : ℕ} (hc : s.pool.creating = none)
    (hreached : s.reached = i) (hi : s.pool.all[i]? = some e) (hall : pool.all = s.pool.all) (hcreating : pool.creating = none)
    (hcontexts : pool.contexts.length = s.pool.contexts.length) (hcall : pool.stops[call]? = some (.closing i e))
    (hlast : call + 1 = pool.stops.length) (honly : ∀ j x y, pool.stops[j]? = some (.closing x y) → j = call) :
    Accounted ({ s with pool }.closeNext call) := by
  have hlt : e < s.contextOf.length := h.all e (List.mem_append_left _ (List.mem_of_getElem? hi))
  obtain ⟨k, hk⟩ : ∃ k, s.contextOf[e]? = some k := ⟨_, List.getElem?_eq_getElem hlt⟩
  have hnext : ({ s with pool } : PoolContexts).closeNext call = ({ s with pool } : PoolContexts).close k := by
    unfold closeNext
    dsimp only
    rw [hcall]
    dsimp only
    rw [hk]
  have hbefore : s.toClose = e :: s.pool.all.drop (i + 1) := by
    obtain ⟨hlen, he⟩ := List.getElem?_eq_some_iff.1 hi
    rw [toClose, hreached, made, hc, List.drop_eq_getElem_cons hlen, he]
    exact List.append_nil _
  have hafter : (({ s with pool } : PoolContexts).close k).toClose = s.pool.all.drop (i + 1) := by
    have hr : (({ s with pool } : PoolContexts).close k).reached = i + 1 := reached_of_last hcall hlast
    rw [toClose, hr, made]
    dsimp only [close]
    rw [hcreating, hall]
    exact List.append_nil _
  have howner : 0 < s.owners k := by
    have hpos : 0 < s.toClose.countP fun e => s.contextOf[e]? = some k := by
      rw [hbefore, List.countP_pos_iff]
      exact ⟨e, List.mem_cons_self, decide_eq_true hk⟩
    unfold owners
    omega
  rw [hnext]
  refine ⟨?_, ?_, ?_, ?_, ?_, ?_⟩
  · intro x
    have honce := h.once x
    have hcloses := closes_close (h.open_of_owner howner) x
    unfold owners at honce ⊢
    rw [hbefore, List.countP_cons, hk] at honce
    simp only [Option.some.injEq, decide_eq_true_eq] at honce
    rw [hafter]
    change (s.closes.modify k (· + 1))[x]?.getD 1 + (s.entries.countP (fun p => p = .inNewPage x) +
      (s.pool.all.drop (i + 1)).countP (fun e => s.contextOf[e]? = some x)) = 1
    omega
  · exact fun _ => h.idle hc
  · intro slots hc'
    exact absurd (hcreating.symm.trans hc') nofun
  · intro j x y hj
    obtain rfl := honly j x y hj
    obtain ⟨rfl, rfl⟩ := Stopping.closing.inj (Option.some.inj (hcall.symm.trans hj))
    refine ⟨hlast, ?_, hcreating⟩
    show pool.all[i]? = some e
    rw [hall]
    exact hi
  · show s.contextOf.length = pool.contexts.length
    rw [hcontexts]
    exact h.known
  · intro x hx
    apply h.all x
    have hmade : (({ s with pool } : PoolContexts).close k).made = s.made := by
      rw [made, made, hc]
      exact congrArg (fun c => (c.getD []).filterMap (·.entry)) hcreating
    rw [hmade] at hx
    have hx' : x ∈ pool.all ++ s.made := hx
    rwa [hall] at hx'

/-- When nothing is left to close, everything has been closed once. -/
theorem Accounted.closed_once (h : Accounted s) (hc : s.pool.creating = none) (hclose : s.toClose = []) : ∀ n ∈ s.closes, n = 1 := by
  intro n hn
  obtain ⟨x, hx⟩ := List.mem_iff_getElem?.1 hn
  have honce := h.once x
  have hover : s.entries.countP (fun p => p = .inNewPage x) = 0 := by
    rw [List.countP_eq_zero]
    intro p hp
    simp [h.idle hc p hp]
  rw [owners, hover, hclose, hx] at honce
  exact honce

/-- A `stop()` has come to the end of `_all`. -/
theorem Accounted.finish_step (h : Accounted s) (hc : s.pool.creating = none) (hclose : s.toClose = []) {pool : BrowserPool}
    (hall : pool.all = []) (hcreating : pool.creating = none) (hcontexts : pool.contexts.length = s.pool.contexts.length)
    (hstops : ∀ j x y : ℕ, pool.stops[j]? ≠ some (Stopping.closing x y)) : Accounted { s with pool } := by
  have hmade : ({ s with pool } : PoolContexts).made = [] := by rw [made, hcreating]; rfl
  have hafter : ({ s with pool } : PoolContexts).toClose = [] := by
    rw [toClose, hmade, hall, List.drop_nil]
    rfl
  refine ⟨?_, fun _ => h.idle hc, ?_, ?_, ?_, ?_⟩
  · intro x
    have honce := h.once x
    unfold owners at honce ⊢
    rw [hafter]
    rw [hclose] at honce
    exact honce
  · intro slots hc'
    exact absurd (hcreating.symm.trans hc') nofun
  · intro j x y hj
    exact absurd hj (hstops j x y)
  · dsimp only
    rw [hcontexts]
    exact h.known
  · intro x hx
    rw [hmade, hall] at hx
    cases hx

theorem Accounted.stop_step (h : Accounted s) (hc : s.pool.creating = none) (hs : s.pool.stopping = false) :
    Accounted ({ s with pool := s.pool.stop }.closeNext s.pool.stops.length) ∧
    (s.pool.stops.count .returned < s.pool.stop.stops.count .returned →
      ∀ n ∈ ({ s with pool := s.pool.stop }.closeNext s.pool.stops.length).closes, n = 1) := by
  obtain ⟨hreached, hclose⟩ := toClose_idle hc hs
  have hidle : ∀ j x y : ℕ, s.pool.stops[j]? ≠ some (Stopping.closing x y) := by
    intro j x y hj
    exact List.any_eq_false.1 hs _ (List.mem_of_getElem? hj) rfl
  have honly : ∀ (a : Stopping) (j x y : ℕ), (s.pool.stops ++ [a])[j]? = some (.closing x y) →
      j = s.pool.stops.length ∧ a = .closing x y := by
    intro a j x y hj
    rw [List.getElem?_append] at hj
    split_ifs at hj with hlt
    · exact absurd hj (hidle j x y)
    · obtain ⟨h0, ha⟩ := List.getElem?_eq_some_iff.1 hj
      rw [List.length_singleton] at h0
      exact ⟨by omega, by simpa using ha⟩
  unfold BrowserPool.stop
  split
  · rename_i e rest hall
    constructor
    · apply h.closeNext_step (i := 0) (e := e) hc hreached
      · rw [hall]
        rfl
      · rfl
      · exact hc
      · rfl
      · exact List.getElem?_concat_length
      · rw [List.length_append]
        rfl
      · exact fun j x y hj => (honly _ j x y hj).1
    · intro hmore
      exact absurd hmore (by simp)
  · rename_i hall
    have hsame : ({ s with pool := { s.pool with stops := s.pool.stops ++ [Stopping.returned] }.finishStop } :
        PoolContexts).closeNext s.pool.stops.length =
          { s with pool := { s.pool with stops := s.pool.stops ++ [Stopping.returned] }.finishStop } := by
      unfold closeNext
      dsimp only [BrowserPool.finishStop]
      rw [List.getElem?_concat_length]
    have hempty : s.toClose = [] := hclose.trans hall
    rw [hsame]
    refine ⟨h.finish_step hc hempty rfl hc rfl ?_, fun _ => h.closed_once hc hempty⟩
    intro j x y hj
    cases (honly _ j x y hj).2

theorem Accounted.closeEnds_step (h : Accounted s) {call : ℕ} {pool : BrowserPool} (hends : s.pool.closeEnds call = some pool) :
    Accounted ({ s with pool }.closeNext call) ∧
    (s.pool.stops.count .returned < pool.stops.count .returned → ∀ n ∈ ({ s with pool }.closeNext call).closes, n = 1) := by
  have heffect : BrowserPool.Effect 0 s.pool (.closeEnds call) pool := BrowserPool.effect_closeEnds hends
  cases heffect with
  | @closesNext call i e e' hj ha =>
    obtain ⟨hlast, -, hc⟩ := h.last call i e hj
    constructor
    · apply h.closeNext_step (i := i + 1) (e := e') hc (reached_of_last hj hlast) ha
      · rfl
      · exact hc
      · exact List.length_set
      · exact List.getElem?_set_self (List.getElem?_eq_some_iff.1 hj).1
      · rw [List.length_set]
        exact hlast
      · intro j x y hj'
        rcases slot_after hj' with ⟨rfl, -⟩ | hj'
        · rfl
        · have hlast' := (h.last j x y hj').1
          omega
    · intro hmore
      have hcount := countP_slot (· == Stopping.returned) hj (.closing (i + 1) e')
      exact absurd hmore (by simpa [List.count] using Nat.le_of_eq hcount)
  | @stops call i e hj ha =>
    obtain ⟨hlast, -, hc⟩ := h.last call i e hj
    have hclose : s.toClose = [] := by
      rw [toClose, reached_of_last hj hlast, made, hc, List.drop_eq_nil_of_le (List.getElem?_eq_none_iff.1 ha)]
      rfl
    have hreturned : (s.pool.stops.set call Stopping.returned)[call]? = some .returned :=
      List.getElem?_set_self (List.getElem?_eq_some_iff.1 hj).1
    have hsame : ({ s with
        pool := { s.pool with
          contexts := s.pool.contexts.set e false, stops := s.pool.stops.set call Stopping.returned }.finishStop } :
        PoolContexts).closeNext call =
          { s with
            pool := { s.pool with
              contexts := s.pool.contexts.set e false, stops := s.pool.stops.set call Stopping.returned }.finishStop } := by
      unfold closeNext
      dsimp only [BrowserPool.finishStop]
      rw [hreturned]
    rw [hsame]
    refine ⟨h.finish_step hc hclose rfl hc List.length_set ?_, fun _ => h.closed_once hc hclose⟩
    intro j x y hj'
    rcases slot_after hj' with ⟨-, hr⟩ | hold
    · cases hr
    · have hlast' := (h.last j x y hold).1
      obtain rfl : j = call := by omega
      exact absurd (hreturned.symm.trans hj') nofun

/-! ## Every run -/

/-- A step does to the pool what a step of the pool does, or nothing. -/
theorem pool_step {a : ContextAction} (hs : s.step poolSize a = some s') :
    Reachable (Fires (BrowserPool.step poolSize)) s.pool s'.pool := by
  have hone : ∀ {b : PoolAction} {pool : BrowserPool}, s.pool.step poolSize b = some pool →
      Reachable (Fires (BrowserPool.step poolSize)) s.pool pool := fun h => (Reachable.refl _).step h
  cases effect_of hs with
  | start h => exact hone (b := .start) h
  | context => exact .refl _
  | @noContext slot _ _ h => exact hone (b := .create slot false) h
  | @page slot _ _ _ h => exact hone (b := .create slot true) h
  | noPage => exact .refl _
  | @closed slot _ _ _ _ h => exact hone (b := .create slot false) h
  | startEnds h => exact hone (b := .startEnds) h
  | acquire => exact hone (b := .acquire) rfl
  | @take k _ h => exact hone (b := .take k) h
  | @release k _ h => exact hone (b := .release k) h
  | stop =>
    rw [closeNext_pool]
    exact hone (b := .stop) rfl
  | @closeEnds j _ _ h =>
    rw [closeNext_pool]
    exact hone (b := .closeEnds j) h

theorem pool_reachable (h : Reachable (Fires (step poolSize)) {} s) : Reachable (Fires (BrowserPool.step poolSize)) {} s.pool := by
  apply h.inv (fun s => Reachable (Fires (BrowserPool.step poolSize)) {} s.pool) (.refl _)
  intro s a s' hr hs
  exact hr.trans (pool_step hs)

/-- A step makes a `stop()` return. -/
def Returns (s s' : PoolContexts) : Prop := s.pool.stops.count .returned < s'.pool.stops.count .returned

/-- No `stop()` returns by a step that leaves them alone. -/
theorem Accounted.apart_from_stops (h : Accounted s') (hstops : s'.pool.stops = s.pool.stops) :
    Accounted s' ∧ (Returns s s' → ∀ n ∈ s'.closes, n = 1) := by
  refine ⟨h, ?_⟩
  intro hmore
  rw [Returns, hstops] at hmore
  exact absurd hmore (Nat.lt_irrefl _)

/-- A `start()` and a `stop()` find none under way. -/
theorem apart_iff : (s.pool.creating.isNone && !s.pool.stopping) = true ↔ s.pool.creating = none ∧ s.pool.stopping = false := by
  rw [Bool.and_eq_true, Option.isNone_iff_eq_none, Bool.not_eq_true']

theorem create_stops {p p' : BrowserPool} {slot : ℕ} {succeeds : Bool} (h : p.create slot succeeds = some p') :
    p'.stops = p.stops := by
  have heffect : BrowserPool.Effect 0 p (.create slot succeeds) p' := BrowserPool.effect_create h
  cases heffect <;> rfl

theorem accounted_step {a : ContextAction} (h : Accounted s) (ha : s.apart a) (hs : s.step poolSize a = some s') :
    Accounted s' ∧ (Returns s s' → ∀ n ∈ s'.closes, n = 1) := by
  cases effect_of hs with
  | start hstart =>
    obtain ⟨hc, hstop⟩ := apart_iff.1 ha
    unfold BrowserPool.start at hstart
    rw [if_neg (by simp [hc])] at hstart
    obtain rfl := Option.some.inj hstart
    by_cases hstarted : s.pool.started = true
    · rw [if_pos hstarted, if_pos hstarted]
      exact Accounted.apart_from_stops h rfl
    · rw [if_neg hstarted, if_neg hstarted]
      exact (h.starts_step hc hstop poolSize).apart_from_stops rfl
  | context hslot => exact (h.newContext_step hslot).apart_from_stops rfl
  | noContext hslot hcreate => exact (h.fails_step hslot nofun hcreate).apart_from_stops (create_stops hcreate)
  | page hslot hcreate => exact (h.newPage_step hslot hcreate).apart_from_stops (create_stops hcreate)
  | noPage hslot => exact (h.noPage_step hslot).apart_from_stops rfl
  | closed hslot hcreate => exact (h.fails_step hslot nofun hcreate).apart_from_stops (create_stops hcreate)
  | @startEnds pool hends =>
    have hstops : pool.stops = s.pool.stops := by
      have hstep : s.pool.step 0 .startEnds = some pool := hends
      cases BrowserPool.effect_of hstep
      rfl
    exact (h.startEnds_step hends).apart_from_stops hstops
  | acquire =>
    obtain ⟨hall, hcreating, hstops, hcontexts⟩ := acquire_same s.pool
    exact (h.same hall hcreating hstops hcontexts).apart_from_stops hstops
  | take htake =>
    obtain ⟨hall, hcreating, hstops, hcontexts⟩ := take_same htake
    exact (h.same hall hcreating hstops hcontexts).apart_from_stops hstops
  | release hrelease =>
    obtain ⟨hall, hcreating, hstops, hcontexts⟩ := release_same hrelease
    exact (h.same hall hcreating hstops hcontexts).apart_from_stops hstops
  | stop =>
    obtain ⟨hc, hstop⟩ := apart_iff.1 ha
    obtain ⟨hacc, hreturns⟩ := h.stop_step hc hstop
    refine ⟨hacc, ?_⟩
    intro hmore
    apply hreturns
    rwa [Returns, closeNext_pool] at hmore
  | closeEnds hends =>
    obtain ⟨hacc, hreturns⟩ := h.closeEnds_step hends
    refine ⟨hacc, ?_⟩
    intro hmore
    apply hreturns
    rwa [Returns, closeNext_pool] at hmore

theorem accounted_start : Accounted {} where
  once _ := rfl
  idle _ p hp := by cases hp
  pending slots hc := by cases hc
  last j i e hj := by simp at hj
  known := rfl
  all e he := by cases he

/-- The contexts keep their books in every run. -/
theorem accounted_run (h : Reachable (Guarded (fun s a => s.apart a) (Fires (step poolSize))) {} s) : Accounted s := by
  apply h.inv Accounted accounted_start
  rintro s a s' hacc ⟨ha, hs⟩
  exact (accounted_step hacc ha hs).1

/-- Whether or not each `close()` raises, a `stop()` gets to the end of `_all`. -/
theorem stop_ends (raises : List Bool) {call i e : ℕ} (h : Accounted s) (hcall : s.pool.stops[call]? = some (.closing i e))
    (hlen : raises.length = s.pool.all.length - i) :
    ∃ s', exec (step poolSize) s (raises.map (.closeEnds call)) = some s' ∧ s'.pool.stops[call]? = some .returned ∧
      ∀ n ∈ s'.closes, n = 1 := by
  induction raises generalizing s i e with
  | nil =>
    have hlt := (List.getElem?_eq_some_iff.1 (h.last call i e hcall).2.1).1
    simp at hlen
    omega
  | cons raise raises ih =>
    have hlt := (List.getElem?_eq_some_iff.1 hcall).1
    obtain ⟨pool, hends⟩ : ∃ pool, s.pool.closeEnds call = some pool := by
      rw [BrowserPool.closeEnds, hcall]
      exact ⟨_, rfl⟩
    have hstep : s.step poolSize (.closeEnds call raise) = some ({ s with pool }.closeNext call) := by
      rw [step, hends]
      rfl
    obtain ⟨hacc, hreturns⟩ := h.closeEnds_step hends
    rw [List.map_cons, exec, hstep, Option.bind_some]
    rw [List.length_cons] at hlen
    have heffect : BrowserPool.Effect 0 s.pool (.closeEnds call) pool := BrowserPool.effect_closeEnds hends
    cases heffect with
    | @closesNext _ x y e' hj ha =>
      obtain ⟨rfl, rfl⟩ := Stopping.closing.inj (Option.some.inj (hcall.symm.trans hj))
      apply ih hacc
      · rw [closeNext_pool]
        exact List.getElem?_set_self hlt
      · rw [closeNext_pool]
        show raises.length = s.pool.all.length - (i + 1)
        omega
    | @stops _ x y hj ha =>
      obtain ⟨rfl, rfl⟩ := Stopping.closing.inj (Option.some.inj (hcall.symm.trans hj))
      have hend := List.getElem?_eq_none_iff.1 ha
      obtain rfl : raises = [] := List.eq_nil_of_length_eq_zero (by omega)
      refine ⟨_, rfl, ?_, ?_⟩
      · rw [closeNext_pool]
        exact List.getElem?_set_self hlt
      · apply hreturns
        have hcount := countP_slot (· == Stopping.returned) hcall .returned
        have hone : s.pool.stops.count .returned + 1 = (s.pool.stops.set call .returned).count .returned := by
          simpa [List.count] using hcount.symm
        exact Nat.lt_of_lt_of_eq (Nat.lt_succ_self _) hone

/-- A `stop()` returns with every context closed once that has been created, and no `close()` that raises keeps it from
the contexts that remain. -/
theorem contexts_closed_once (poolSize : ℕ) :
    (∀ s a s', Reachable (Guarded (fun s a => s.apart a) (Fires (step poolSize))) {} s → s.apart a →
      s.step poolSize a = some s' → Returns s s' → ∀ n ∈ s'.closes, n = 1) ∧
    ∀ s call i e, Reachable (Guarded (fun s a => s.apart a) (Fires (step poolSize))) {} s →
      s.pool.stops[call]? = some (.closing i e) → ∀ raises : List Bool, raises.length = s.pool.all.length - i →
        ∃ s', exec (step poolSize) s (raises.map (.closeEnds call)) = some s' ∧
          s'.pool.stops[call]? = some .returned ∧ ∀ n ∈ s'.closes, n = 1 := by
  constructor
  · intro s a s' h ha hs
    exact (accounted_step (accounted_run h) ha hs).2
  · intro s call i e h hcall raises
    exact stop_ends raises (accounted_run h) hcall

/-- One of three pages does not come, so `start()` raises; one is borrowed, and then the pool is stopped. -/
def failedStart : List ContextAction :=
  [.start, .newContext 0 true, .newContext 1 true, .newContext 2 true, .newPage 0 true, .newPage 2 true, .newPage 1 false,
    .closed 1 false, .startEnds, .acquire, .stop]

/-- The first `close()` of the `stop()` raises. -/
theorem contexts_closed_once_failedStart :
    ∃ s s', exec (guarded apart (step 3)) {} failedStart = some s ∧ s.closes = [1, 1, 0] ∧
      exec (step 3) s [.closeEnds 0 true, .closeEnds 0 false] = some s' ∧ s'.pool.stops[0]? = some .returned ∧
      ∀ n ∈ s'.closes, n = 1 := by
  obtain ⟨s, hs, hcall, hall, hcloses⟩ := exec_ends (f := guarded apart (step 3))
    (Q := fun s => s.pool.stops[0]? = some (.closing 0 0) ∧ s.pool.all = [0, 1] ∧ s.closes = [1, 1, 0]) (s := {}) failedStart (by decide)
  obtain ⟨s', hends, hreturned, hclosed⟩ :=
    (contexts_closed_once 3).2 s 0 0 0 (reachable_guarded _ hs) hcall [true, false] (by rw [hall]; rfl)
  exact ⟨s, s', hs, hcloses, hends, hreturned, hclosed⟩

end PoolContexts

end SocialScraper
