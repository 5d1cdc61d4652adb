import SocialScraper.Lib.Runs
import SocialScraper.Lib.Workers
/-!
# The page pool

`app.discovery.google_maps.browser_pool`. Pooled pages are numbered in the
order their contexts are created. `stop()` puts a new queue in the place of
`self._pool`; a borrower that waits in the old one goes on waiting there.
-/
open Lib

namespace SocialScraper

/-- One call of `_create_entry`. -/
inductive Creation where
  | pending
  /-- It raised; the context, if it got that far, is closed. -/
  | failed
  | made (entry : ℕ)
deriving DecidableEq

/-- One `async with pool.acquire()`. -/
inductive Borrower where
  /-- Waits in `get()` of the queue with the number. -/
  | getting (queue : ℕ)
  | holding (entry : ℕ)
  | returned
deriving DecidableEq

/-- One call of `stop()`. -/
inductive Stopping where
  /-- At `context.close()` of the entry, which it found in `_all` at the index. -/
  | closing (index entry : ℕ)
  | returned
deriving DecidableEq

structure BrowserPool where
  /-- `self._pool`. -/
  pool : List ℕ := []
  /-- The queues that were `self._pool` before, by number. -/
  replaced : List (List ℕ) := []
  /-- `self._all`. -/
  all : List ℕ := []
  started : Bool := false
  /-- The `gather` of a `start()` that is under way. -/
  creating : Option (List Creation) := none
  /-- Which contexts are open, of all that were created. -/
  contexts : List Bool := []
  borrowers : List Borrower := []
  stops : List Stopping := []
  /-- History: how often `acquire` handed out a page of a closed context. -/
  staleHandouts : ℕ := 0

inductive PoolAction where
  /-- `start()`, up to its gather or its return. -/
  | start
  /-- A `_create_entry` returns or raises. -/
  | create (slot : ℕ) (succeeds : Bool)
  | startEnds
  | acquire
  /-- The `get()` of a waiting borrower returns. -/
  | take (borrower : ℕ)
  | release (borrower : ℕ)
  /-- `stop()`, up to its first `close()` or its return. -/
  | stop
  /-- The `close()` that a `stop()` waits for is over; it may have raised. -/
  | closeEnds (call : ℕ)
deriving DecidableEq

def Creation.entry : Creation → Option ℕ
  | .made e => some e
  | .pending | .failed => none

def Borrower.holds (e : ℕ) : Borrower → Bool
  | .holding x => x = e
  | _ => false

section Holds
variable (e x : ℕ)

@[simp] theorem holds_holding : (Borrower.holding e).holds x = decide (e = x) := rfl
@[simp] theorem holds_getting : (Borrower.getting e).holds x = false := rfl
@[simp] theorem holds_returned : Borrower.returned.holds x = false := rfl

end Holds

def Stopping.active : Stopping → Bool
  | .closing _ _ => true
  | .returned => false

namespace BrowserPool

variable (poolSize : ℕ)

/-- The context of the entry is open. -/
def isOpen (s : BrowserPool) (e : ℕ) : Bool := s.contexts[e]?.getD false

/-- A call of `stop()` is under way. -/
def stopping (s : BrowserPool) : Bool := s.stops.any (·.active)

def start (s : BrowserPool) : Option BrowserPool :=
  if s.creating.isSome then none
  else some (if s.started then s else { s with creating := some (List.replicate poolSize .pending) })

def create (s : BrowserPool) (slot : ℕ) (succeeds : Bool) : Option BrowserPool :=
  match s.creating with
  | none => none
  | some slots =>
    if slots[slot]? = some .pending then
      some (if succeeds then
          { s with creating := some (slots.set slot (.made s.contexts.length)), contexts := s.contexts ++ [true] }
        else { s with creating := some (slots.set slot .failed) })
    else none

/-- `start()` after its gather: it raises if a creation did. -/
def startEnds (s : BrowserPool) : Option BrowserPool :=
  match s.creating with
  | none => none
  | some slots =>
    if slots.contains .pending then none
    else
      let made := slots.filterMap (·.entry)
      some
        { s with
          creating := none, all := s.all ++ made, pool := s.pool ++ made
          started := s.started || !slots.contains .failed }

/-- The entry is handed out. -/
def handOut (s : BrowserPool) (e : ℕ) : BrowserPool :=
  { s with staleHandouts := s.staleHandouts + if s.isOpen e then 0 else 1 }

def acquire (s : BrowserPool) : BrowserPool :=
  match s.pool with
  | e :: rest => { s with pool := rest, borrowers := s.borrowers ++ [Borrower.holding e] }.handOut e
  | [] => { s with borrowers := s.borrowers ++ [.getting s.replaced.length] }

def take (s : BrowserPool) (k : ℕ) : Option BrowserPool :=
  match s.borrowers[k]? with
  | some (.getting q) =>
    if q = s.replaced.length then
      match s.pool with
      | e :: rest => some ({ s with pool := rest, borrowers := s.borrowers.set k (Borrower.holding e) }.handOut e)
      | [] => none
    else
      match s.replaced[q]? with
      | some (e :: rest) =>
        some ({ s with replaced := s.replaced.set q rest, borrowers := s.borrowers.set k (Borrower.holding e) }.handOut e)
      | _ => none
  | _ => none

/-- The end of the block: the entry goes to what is `self._pool` then. -/
def release (s : BrowserPool) (k : ℕ) : Option BrowserPool :=
  match s.borrowers[k]? with
  | some (.holding e) => some { s with pool := s.pool ++ [e], borrowers := s.borrowers.set k .returned }
  | _ => none

/-- The end of `stop()`. -/
def finishStop (s : BrowserPool) : BrowserPool :=
  { s with all := [], replaced := s.replaced ++ [s.pool], pool := [], started := false }

def stop (s : BrowserPool) : BrowserPool :=
  match s.all with
  | e :: _ => { s with stops := s.stops ++ [.closing 0 e] }
  | [] => { s with stops := s.stops ++ [Stopping.returned] }.finishStop

def closeEnds (s : BrowserPool) (j : ℕ) : Option BrowserPool :=
  match s.stops[j]? with
  | some (.closing i e) =>
    let s := { s with contexts := s.contexts.set e false }
    -- The loop reads `_all` as it is by now.
    some (match s.all[i + 1]? with
      | some e' => { s with stops := s.stops.set j (.closing (i + 1) e') }
      | none => { s with stops := s.stops.set j Stopping.returned }.finishStop)
  | _ => none

def step (s : BrowserPool) : PoolAction → Option BrowserPool
  | .start => s.start poolSize
  | .create slot succeeds => s.create slot succeeds
  | .startEnds => s.startEnds
  | .acquire => some s.acquire
  | .take k => s.take k
  | .release k => s.release k
  | .stop => some s.stop
  | .closeEnds j => s.closeEnds j

/-- Everything an action can do. -/
inductive Effect (s : BrowserPool) : PoolAction → BrowserPool → Prop
  | wasStarted (hs : s.started = true) : Effect s .start s
  | starts (hs : s.started = false) (hc : s.creating = none) :
      Effect s .start { s with creating := some (List.replicate poolSize .pending) }
  | creates {slots slot} (hc : s.creating = some slots) (hp : slots[slot]? = some .pending) :
      Effect s (.create slot true)
        { s with creating := some (slots.set slot (.made s.contexts.length)), contexts := s.contexts ++ [true] }
  | fails {slots slot} (hc : s.creating = some slots) (hp : slots[slot]? = some .pending) :
      Effect s (.create slot false) { s with creating := some (slots.set slot .failed) }
  | adds {slots started} (hc : s.creating = some slots) :
      Effect s .startEnds
        { s with
          creating := none, all := s.all ++ slots.filterMap (·.entry), pool := s.pool ++ slots.filterMap (·.entry)
          started := started }
  | acquires {e rest} (hp : s.pool = e :: rest) :
      Effect s .acquire ({ s with pool := rest, borrowers := s.borrowers ++ [Borrower.holding e] }.handOut e)
  | waits (hp : s.pool = []) : Effect s .acquire { s with borrowers := s.borrowers ++ [.getting s.replaced.length] }
  | takes {k e rest} (hk : s.borrowers[k]? = some (.getting s.replaced.length)) (hp : s.pool = e :: rest) :
      Effect s (.take k) ({ s with pool := rest, borrowers := s.borrowers.set k (Borrower.holding e) }.handOut e)
  | takesOld {k q e rest} (hk : s.borrowers[k]? = some (.getting q)) (hq : q ≠ s.replaced.length)
      (hp : s.replaced[q]? = some (e :: rest)) :
      Effect s (.take k)
        ({ s with replaced := s.replaced.set q rest, borrowers := s.borrowers.set k (Borrower.holding e) }.handOut e)
  | releases {k e} (hk : s.borrowers[k]? = some (.holding e)) :
      Effect s (.release k) { s with pool := s.pool ++ [e], borrowers := s.borrowers.set k .returned }
  | closesFirst {e rest} (ha : s.all = e :: rest) : Effect s .stop { s with stops := s.stops ++ [.closing 0 e] }
  | stopsEmpty (ha : s.all = []) : Effect s .stop { s with stops := s.stops ++ [Stopping.returned] }.finishStop
  | closesNext {j i e e'} (hj : s.stops[j]? = some (.closing i e)) (ha : s.all[i + 1]? = some e') :
      Effect s (.closeEnds j) { s with contexts := s.contexts.set e false, stops := s.stops.set j (.closing (i + 1) e') }
  | stops {j i e} (hj : s.stops[j]? = some (.closing i e)) (ha : s.all[i + 1]? = none) :
      Effect s (.closeEnds j)
        { s with contexts := s.contexts.set e false, stops := s.stops.set j Stopping.returned }.finishStop

variable {poolSize} {s s' : BrowserPool}

theorem effect_create {slot : ℕ} {succeeds : Bool} (h : s.create slot succeeds = some s') :
    Effect poolSize s (.create slot succeeds) s' := by
  unfold create at h
  split at h
  · cases h
  · rename_i slots hc
    obtain ⟨hp, h⟩ := Option.ite_none_right_eq_some.1 h
    cases succeeds
    · exact Option.some.inj h ▸ .fails hc hp
    · exact Option.some.inj h ▸ .creates hc hp

theorem effect_take {k : ℕ} (h : s.take k = some s') : Effect poolSize s (.take k) s' := by
  unfold take at h
  split at h
  · rename_i q hk
    split_ifs at h with hq
    · subst hq
      split at h
      · rename_i e rest hp
        exact Option.some.inj h ▸ .takes hk hp
      · cases h
    · split at h
      · rename_i e rest hp
        exact Option.some.inj h ▸ .takesOld hk hq hp
      · cases h
  · cases h

theorem effect_closeEnds {j : ℕ} (h : s.closeEnds j = some s') : Effect poolSize s (.closeEnds j) s' := by
  unfold closeEnds at h
  split at h
  · rename_i i e hj
    have h := Option.some.inj h
    dsimp only at h
    split at h
    · rename_i e' ha
      exact h ▸ .closesNext hj ha
    · rename_i ha
      exact h ▸ .stops hj ha
  · cases h

theorem effect_of {a : PoolAction} (h : s.step poolSize a = some s') : Effect poolSize s a s' := by
  cases a with
  | start =>
    simp only [step, start] at h
    split_ifs at h with hc hs
    · exact Option.some.inj h ▸ .wasStarted hs
    · exact Option.some.inj h ▸ .starts (eq_false_of_ne_true hs) (by simpa using hc)
  | create slot succeeds => exact effect_create h
  | startEnds =>
    simp only [step, startEnds] at h
    split at h
    · cases h
    · rename_i slots hc
      obtain ⟨-, h⟩ := Option.ite_none_left_eq_some.1 h
      exact Option.some.inj h ▸ .adds hc
  | acquire =>
    obtain rfl := Option.some.inj h
    unfold acquire
    split
    · rename_i e rest hp
      exact .acquires hp
    · rename_i hp
      exact .waits hp
  | take k => exact effect_take h
  | release k =>
    simp only [step, release] at h
    split at h
    · rename_i e hk
      exact Option.some.inj h ▸ .releases hk
    · cases h
  | stop =>
    obtain rfl := Option.some.inj h
    unfold stop
    split
    · rename_i e rest ha
      exact .closesFirst ha
    · rename_i ha
      exact .stopsEmpty ha
  | closeEnds j => exact effect_closeEnds h

variable (poolSize)

/-! ## What is promised -/

/-- Pages are with one party at a time, those handed out are live, and the pool keeps within its size. -/
structure Safe (s : BrowserPool) : Prop where
  exclusive : ∀ e, s.borrowers.countP (·.holds e) + s.pool.count e + s.replaced.flatten.count e ≤ 1
  live : s.staleHandouts = 0
  bounded : s.contexts.countP id ≤ poolSize

/-- `start()` creates contexts only when none is left open; no page is taken while
a `stop()` is under way or from a queue it has replaced; and what a borrower gives
back after a `stop()` has not been closed by it. -/
def orderly (s : BrowserPool) : PoolAction → Bool
  | .start => s.started || !s.contexts.contains true
  | .acquire => !s.stopping || s.pool.isEmpty
  | .take k => !s.stopping && s.borrowers[k]? = some (.getting s.replaced.length)
  | .release k =>
    s.stopping || match s.borrowers[k]? with
      | some (.holding e) => s.isOpen e
      | _ => true
  | _ => true

/-- The entry that the action takes from a queue. -/
def handed (s : BrowserPool) : PoolAction → Option ℕ
  | .acquire => s.pool.head?
  | .take k =>
    match s.borrowers[k]? with
    | some (.getting q) => if q = s.replaced.length then s.pool.head? else s.replaced[q]?.bind List.head?
    | _ => none
  | _ => none

variable {poolSize}

/-! ## Every page is somewhere -/

/-- How often the entry is found: with borrowers, in the queues, and among what a `start()` has made. -/
def places (s : BrowserPool) (e : ℕ) : ℕ :=
  s.borrowers.countP (·.holds e) + s.pool.count e + s.replaced.flatten.count e +
    ((s.creating.getD []).filterMap (·.entry)).count e

/-- Every entry is in one place, and there are no others. -/
def Accounted (s : BrowserPool) : Prop :=
  ∀ e, (e < s.contexts.length → s.places e = 1) ∧ (s.contexts.length ≤ e → s.places e = 0)

theorem made_set {slots : List Creation} {slot : ℕ} (hp : slots[slot]? = some .pending) (c : Creation) (e : ℕ) :
    ((slots.set slot c).filterMap (·.entry)).count e =
      (slots.filterMap (·.entry)).count e + if c.entry = some e then 1 else 0 := by
  obtain ⟨u, v, hl, hs⟩ := Lib.slot hp
  rw [hs, hl]
  cases c with
  | made x =>
    by_cases hx : x = e
    · simp [Creation.entry, List.count_append, hx]
      omega
    · simp [Creation.entry, List.count_append, hx]
  | pending | failed => simp [Creation.entry, List.count_append]

theorem flatten_take {queues : List (List ℕ)} {q e : ℕ} {rest : List ℕ} (hq : queues[q]? = some (e :: rest)) (x : ℕ) :
    (queues.set q rest).flatten.count x + (if e = x then 1 else 0) = queues.flatten.count x := by
  obtain ⟨u, v, hl, hs⟩ := Lib.slot hq
  rw [hs, hl]
  by_cases hx : e = x
  · simp [List.count_append, hx]
    omega
  · simp [List.count_append, hx]

theorem made_pending (n e : ℕ) : ((List.replicate n Creation.pending).filterMap (·.entry)).count e = 0 := by
  have hnone : (List.replicate n Creation.pending).filterMap (·.entry) = [] := by
    rw [List.filterMap_eq_nil_iff]
    intro c hc
    rw [List.eq_of_mem_replicate hc]
    rfl
  rw [hnone]
  rfl

theorem accounted_effect {a : PoolAction} (hi : Accounted s) (h : Effect poolSize s a s') : Accounted s' := by
  intro x
  have hx := hi x
  unfold places at hx ⊢
  cases h with
  | wasStarted => exact hx
  | starts hs hc =>
    rw [hc] at hx
    simpa [made_pending] using hx
  | @creates slots slot hc hp =>
    have hm := made_set hp (.made s.contexts.length) x
    simp only [hc, Option.getD_some, Creation.entry, Option.some.injEq] at hx hm ⊢
    rw [hm, List.length_append, List.length_singleton]
    by_cases hnew : s.contexts.length = x
    · simp only [hnew, if_true] at hx ⊢
      omega
    · simp only [hnew, if_false] at hx ⊢
      omega
  | @fails slots slot hc hp =>
    have hm := made_set hp .failed x
    simp only [hc, Option.getD_some, Creation.entry] at hx hm ⊢
    rw [hm]
    simpa using hx
  | adds hc =>
    simp only [hc, Option.getD_some, Option.getD_none, List.filterMap_nil, List.count_nil, List.count_append] at hx ⊢
    omega
  | @acquires e rest hp =>
    rw [hp, List.count_cons] at hx
    simp only [handOut, List.countP_append, List.countP_singleton, holds_holding, decide_eq_true_eq, beq_iff_eq] at hx ⊢
    omega
  | waits hp =>
    simp only [List.countP_append, List.countP_singleton, holds_getting]
    simpa using hx
  | @takes k e rest hk hp =>
    have hb := countP_slot (fun b : Borrower => b.holds x) hk (.holding e)
    rw [hp, List.count_cons] at hx
    simp only [handOut, holds_holding, holds_getting, Bool.false_eq_true, if_false, decide_eq_true_eq, beq_iff_eq] at hb hx ⊢
    omega
  | @takesOld k q e rest hk hq hp =>
    have hb := countP_slot (fun b : Borrower => b.holds x) hk (.holding e)
    have hf := flatten_take hp x
    simp only [handOut, holds_holding, holds_getting, Bool.false_eq_true, if_false, decide_eq_true_eq] at hb hf hx ⊢
    omega
  | @releases k e hk =>
    have hb := countP_slot (fun b : Borrower => b.holds x) hk .returned
    simp only [holds_holding, holds_returned, Bool.false_eq_true, if_false, decide_eq_true_eq] at hb
    simp only [List.count_append, List.count_cons, List.count_nil, beq_iff_eq]
    omega
  | closesFirst => exact hx
  | stopsEmpty => simpa [finishStop, Nat.add_comm, Nat.add_left_comm, Nat.add_assoc] using hx
  | closesNext => simpa using hx
  | stops => simpa [finishStop, Nat.add_comm, Nat.add_left_comm, Nat.add_assoc] using hx

theorem accounted_reachable (h : Reachable (Fires (step poolSize)) {} s) : Accounted s :=
  h.inv Accounted (fun _ => ⟨nofun, fun _ => rfl⟩) fun _ _ _ hi hs => accounted_effect hi (effect_of hs)

/-- Nobody ever shares a page, whatever the run. -/
theorem Accounted.exclusive (h : Accounted s) (e : ℕ) :
    s.borrowers.countP (·.holds e) + s.pool.count e + s.replaced.flatten.count e ≤ 1 := by
  have he := h e
  unfold places at he
  omega

/-! ## Orderly runs -/

theorem lt_of_isOpen {e : ℕ} (h : s.isOpen e = true) : e < s.contexts.length := by
  by_contra hlt
  simp [isOpen, List.getElem?_eq_none (Nat.le_of_not_lt hlt)] at h

/-- What holds in an orderly run. -/
structure Sound (poolSize : ℕ) (s : BrowserPool) : Prop where
  /-- A creation under way has room for its context. -/
  bounded : s.contexts.countP id + (s.creating.getD []).count .pending ≤ poolSize
  live : s.stopping = false → ∀ e ∈ s.pool, s.isOpen e = true
  /-- No `stop()` reaches what a `start()` has made but not added yet. -/
  made : ∀ e, .made e ∈ s.creating.getD [] → s.isOpen e = true ∧ e ∉ s.all ∧ ∀ i, .closing i e ∉ s.stops
  all : ∀ e ∈ s.all, e < s.contexts.length
  closing : ∀ i e, .closing i e ∈ s.stops → e < s.contexts.length
  stale : s.staleHandouts = 0

theorem stopping_of_mem {stops : List Stopping} {i e : ℕ} (h : .closing i e ∈ stops) : stops.any (·.active) = true :=
  List.any_eq_true.2 ⟨_, h, rfl⟩

theorem countP_close (contexts : List Bool) (e : ℕ) : (contexts.set e false).countP id ≤ contexts.countP id := by
  rcases hc : contexts[e]? with _ | b
  · have hsame : contexts.set e false = contexts := List.set_eq_of_length_le (List.getElem?_eq_none_iff.1 hc)
    exact Nat.le_of_eq (congrArg (List.countP id) hsame)
  · have := countP_slot id hc false
    simp only [id, Bool.false_eq_true, if_false] at this
    omega

/-- A creation that is over is not under way any more. -/
theorem count_pending_set {slots : List Creation} {slot : ℕ} (hp : slots[slot]? = some .pending) {c : Creation}
    (hc : c ≠ .pending) : (slots.set slot c).count .pending + 1 = slots.count .pending := by
  have hslot := countP_slot (· == Creation.pending) hp c
  simp only [beq_self_eq_true, if_true, beq_iff_eq, if_neg hc] at hslot
  exact hslot

/-- What a `stop()` may do, at a `close()` or at its end: it goes on to pages of the pool only, closes none that a
`start()` is about to add, and leaves in the pool nothing that is closed when it is over. -/
theorem Sound.stops (h : Sound poolSize s) {contexts : List Bool} {stops : List Stopping} {pool all : List ℕ}
    (hlength : contexts.length = s.contexts.length) (hopen : contexts.countP id ≤ s.contexts.countP id)
    (hmade : ∀ x, .made x ∈ s.creating.getD [] → contexts[x]? = s.contexts[x]?)
    (hstops : ∀ i x, .closing i x ∈ stops → .closing i x ∈ s.stops ∨ x ∈ s.all) (hall : ∀ e ∈ all, e ∈ s.all)
    (hpool : stops.any (·.active) = false → ∀ e ∈ pool, contexts[e]?.getD false = true) (replaced : List (List ℕ)) (started : Bool) :
    Sound poolSize { s with contexts, stops, pool, all, replaced, started } where
  bounded := Nat.le_trans (Nat.add_le_add_right hopen _) h.bounded
  live := hpool
  made x hx := by
    obtain ⟨ho, ha, hs⟩ := h.made x hx
    refine ⟨?_, fun hm => ha (hall x hm), fun i hm => ?_⟩
    · rw [isOpen, hmade x hx]
      exact ho
    · rcases hstops i x hm with hm | hm
      · exact hs i hm
      · exact ha hm
  all e he := by
    rw [hlength]
    exact h.all e (hall e he)
  closing i x hm := by
    rw [hlength]
    rcases hstops i x hm with hm | hm
    · exact h.closing i x hm
    · exact h.all x hm
  stale := h.stale

/-- A `close()` does not reach what a `start()` is about to add. -/
theorem Sound.made_after_close (h : Sound poolSize s) {j i e : ℕ} (hj : s.stops[j]? = some (.closing i e)) (x : ℕ)
    (hx : .made x ∈ s.creating.getD []) : (s.contexts.set e false)[x]? = s.contexts[x]? := by
  have hne : e ≠ x := by
    rintro rfl
    exact (h.made e hx).2.2 i (List.mem_of_getElem? hj)
  exact List.getElem?_set_ne hne

/-- While no `stop()` is under way, what the pool hands out is live. -/
theorem Sound.handOut (h : Sound poolSize s) (hs : s.stopping = false) {e : ℕ} {rest : List ℕ} (hp : s.pool = e :: rest)
    (borrowers : List Borrower) : Sound poolSize ({ s with pool := rest, borrowers := borrowers }.handOut e) := by
  have hopen : ({ s with pool := rest, borrowers := borrowers } : BrowserPool).isOpen e = true :=
    h.live hs e (by rw [hp]; exact List.mem_cons_self)
  refine ⟨h.bounded, ?_, h.made, h.all, h.closing, ?_⟩
  · intro _ x hx
    exact h.live hs x (by rw [hp]; exact List.mem_cons_of_mem e hx)
  · rw [BrowserPool.handOut, hopen]
    exact h.stale

/-- A context is created: it is younger than all that a `stop()` knows. -/
theorem Sound.creates (h : Sound poolSize s) {slots : List Creation} {slot : ℕ} (hc : s.creating = some slots)
    (hp : slots[slot]? = some .pending) :
    Sound poolSize
      { s with creating := some (slots.set slot (.made s.contexts.length)), contexts := s.contexts ++ [true] } := by
  have hkeep : ∀ x, s.isOpen x = true → ({ s with contexts := s.contexts ++ [true] } : BrowserPool).isOpen x = true := by
    intro x hx
    have hlt := lt_of_isOpen hx
    unfold isOpen at hx ⊢
    rwa [List.getElem?_append_left hlt]
  constructor
  · have hb := h.bounded
    have hleft := count_pending_set hp (c := .made s.contexts.length) nofun
    rw [hc, Option.getD_some] at hb
    simp only [Option.getD_some, List.countP_append, List.countP_singleton, id, if_true]
    omega
  · exact fun hs e hm => hkeep e (h.live hs e hm)
  · intro e hm
    rcases List.mem_or_eq_of_mem_set hm with hm | hm
    · obtain ⟨hopen, ha, hs⟩ := h.made e (by rwa [hc])
      exact ⟨hkeep e hopen, ha, hs⟩
    · obtain rfl := Creation.made.inj hm
      refine ⟨by simp [isOpen], fun hm => absurd (h.all _ hm) (by omega), fun i hm => absurd (h.closing i _ hm) (by omega)⟩
  · intro e hm
    rw [List.length_append]
    exact Nat.lt_add_right _ (h.all e hm)
  · intro i e hm
    rw [List.length_append]
    exact Nat.lt_add_right _ (h.closing i e hm)
  · exact h.stale

theorem Sound.fails (h : Sound poolSize s) {slots : List Creation} {slot : ℕ} (hc : s.creating = some slots)
    (hp : slots[slot]? = some .pending) : Sound poolSize { s with creating := some (slots.set slot .failed) } := by
  refine ⟨?_, h.live, ?_, h.all, h.closing, h.stale⟩
  · have hb := h.bounded
    have hleft := count_pending_set hp (c := .failed) nofun
    rw [hc, Option.getD_some] at hb
    simp only [Option.getD_some]
    omega
  · intro e hm
    rcases List.mem_or_eq_of_mem_set hm with hm | hm
    · exact h.made e (by rwa [hc])
    · cases hm

/-- A `start()` adds what it has made. -/
theorem Sound.adds (h : Sound poolSize s) {slots : List Creation} (hc : s.creating = some slots) (started : Bool) :
    Sound poolSize
      { s with
        creating := none, all := s.all ++ slots.filterMap (·.entry), pool := s.pool ++ slots.filterMap (·.entry)
        started := started } := by
  have hmade : ∀ e ∈ slots.filterMap (·.entry), s.isOpen e = true := by
    intro e hm
    obtain ⟨x, hx, hxe⟩ := List.mem_filterMap.1 hm
    cases x with
    | made y =>
      obtain rfl := Option.some.inj hxe
      exact (h.made y (by rwa [hc])).1
    | pending | failed => cases hxe
  refine ⟨?_, ?_, by simp, ?_, h.closing, h.stale⟩
  · have := h.bounded
    simp
    omega
  · intro hs e hm
    rcases List.mem_append.1 hm with hm | hm
    · exact h.live hs e hm
    · exact hmade e hm
  · intro e hm
    rcases List.mem_append.1 hm with hm | hm
    · exact h.all e hm
    · exact lt_of_isOpen (s := s) (hmade e hm)

theorem sound_effect {a : PoolAction} (h : Sound poolSize s) (ho : s.orderly a) (he : Effect poolSize s a s') :
    Sound poolSize s' := by
  cases he with
  | wasStarted => exact h
  | starts hs hc =>
    -- No context is left open, so there is room for all creations.
    have hnone : s.contexts.countP id = 0 := by
      apply List.countP_eq_zero.2
      intro b hb hopen
      obtain rfl : b = true := hopen
      simp [orderly, hs, hb] at ho
    refine ⟨by simp [hnone], h.live, ?_, h.all, h.closing, h.stale⟩
    intro e hm
    simp at hm
  | creates hc hp => exact h.creates hc hp
  | fails hc hp => exact h.fails hc hp
  | adds hc => exact h.adds hc _
  | @acquires e rest hp =>
    have hs : s.stopping = false := by simpa [orderly, hp] using ho
    exact h.handOut hs hp _
  | waits => exact ⟨h.bounded, h.live, h.made, h.all, h.closing, h.stale⟩
  | @takes k e rest hk hp =>
    have hs : s.stopping = false := by
      simp only [orderly, Bool.and_eq_true, Bool.not_eq_true'] at ho
      exact ho.1
    exact h.handOut hs hp _
  | takesOld hk hq hp => simp [orderly, hk, hq] at ho
  | @releases k e hk =>
    refine ⟨h.bounded, ?_, h.made, h.all, h.closing, h.stale⟩
    intro hidle x hx
    have hs : s.stopping = false := hidle
    rcases List.mem_append.1 hx with hx | hx
    · exact h.live hs x hx
    · obtain rfl := List.mem_singleton.1 hx
      rw [orderly, hs, hk] at ho
      exact ho
  | @closesFirst e rest ha =>
    refine h.stops rfl (Nat.le_refl _) (fun _ _ => rfl) (fun i x hm => ?_) (fun _ => id) (fun hidle => ?_) s.replaced s.started
    · rcases List.mem_append.1 hm with hm | hm
      · exact .inl hm
      · obtain ⟨-, rfl⟩ := Stopping.closing.inj (List.mem_singleton.1 hm)
        exact .inr (by simp [ha])
    · rw [stopping_of_mem (i := 0) (e := e) (by simp)] at hidle
      cases hidle
  | stopsEmpty ha =>
    refine h.stops rfl (Nat.le_refl _) (fun _ _ => rfl) (fun i x hm => ?_) (fun _ hm => by cases hm) (fun _ _ hm => by cases hm) _ _
    rcases List.mem_append.1 hm with hm | hm
    · exact .inl hm
    · cases List.mem_singleton.1 hm
  | @closesNext j i e e' hj ha =>
    refine h.stops List.length_set (countP_close _ e) (h.made_after_close hj) (fun n x hm => ?_) (fun _ => id) (fun hidle => ?_)
      s.replaced s.started
    · rcases List.mem_or_eq_of_mem_set hm with hm | hm
      · exact .inl hm
      · obtain ⟨-, rfl⟩ := Stopping.closing.inj hm
        exact .inr (List.mem_of_getElem? ha)
    · have hlt := (List.getElem?_eq_some_iff.1 hj).1
      rw [stopping_of_mem (i := i + 1) (e := e') (List.mem_set hlt _)] at hidle
      cases hidle
  | @stops j i e hj ha =>
    refine h.stops List.length_set (countP_close _ e) (h.made_after_close hj) (fun n x hm => ?_) (fun _ hm => by cases hm)
      (fun _ _ hm => by cases hm) _ _
    rcases List.mem_or_eq_of_mem_set hm with hm | hm
    · exact .inl hm
    · cases hm

/-! ## Out of order -/

/-- Each creation under way can succeed. -/
theorem fill_slots (poolSize n : ℕ) (s : BrowserPool) {slots : List Creation} (hc : s.creating = some slots)
    (hn : slots.count .pending = n) :
    ∃ t, Reachable (Guarded (fun s a => s.orderly a) (Fires (step poolSize))) s t ∧
      t.contexts.countP id = s.contexts.countP id + n := by
  induction n generalizing s slots with
  | zero => exact ⟨s, .refl s, rfl⟩
  | succ n ih =>
    obtain ⟨slot, hslot⟩ := List.mem_iff_getElem?.1 (List.count_pos_iff.1 (by omega : 0 < slots.count Creation.pending))
    have hstep : s.step poolSize (.create slot true) =
        some { s with creating := some (slots.set slot (.made s.contexts.length)), contexts := s.contexts ++ [true] } := by
      simp [step, create, hc, hslot]
    have hleft : (slots.set slot (.made s.contexts.length)).count .pending = n := by
      have hone := count_pending_set hslot (c := .made s.contexts.length) nofun
      omega
    obtain ⟨t, ht, hcount⟩ := ih
      { s with creating := some (slots.set slot (.made s.contexts.length)), contexts := s.contexts ++ [true] } rfl hleft
    refine ⟨t, ((Reachable.refl s).step ⟨rfl, hstep⟩).trans ht, ?_⟩
    rw [hcount, List.countP_append, List.countP_singleton]
    simp
    omega

/-- A closed entry in the queue comes to its head. -/
theorem stale_comes_out (poolSize : ℕ) (pool : List ℕ) (s : BrowserPool) (hp : s.pool = pool) (hs : s.stopping = false) {e : ℕ}
    (he : e ∈ pool) (hclosed : s.isOpen e = false) :
    ∃ t, Reachable (Guarded (fun s a => s.orderly a) (Fires (step poolSize))) s t ∧ 0 < t.staleHandouts := by
  induction pool generalizing s with
  | nil => cases he
  | cons x rest ih =>
    have hstep : s.step poolSize .acquire =
        some ({ s with pool := rest, borrowers := s.borrowers ++ [Borrower.holding x] }.handOut x) := by
      simp [step, acquire, hp]
    have horder : s.orderly .acquire = true := by simp [orderly, hs]
    have hreach : Reachable (Guarded (fun s a => s.orderly a) (Fires (step poolSize))) s
        ({ s with pool := rest, borrowers := s.borrowers ++ [Borrower.holding x] }.handOut x) :=
      (Reachable.refl s).step ⟨horder, hstep⟩
    by_cases hx : x = e
    · -- It is handed out now.
      subst hx
      refine ⟨_, hreach, ?_⟩
      have hnow : ({ s with pool := rest, borrowers := s.borrowers ++ [Borrower.holding x] } : BrowserPool).isOpen x = false :=
        hclosed
      simp [handOut, hnow]
    · have hrest : e ∈ rest := (List.mem_cons.1 he).resolve_left (Ne.symm hx)
      obtain ⟨t, ht, hstale⟩ := ih ({ s with pool := rest, borrowers := s.borrowers ++ [Borrower.holding x] }.handOut x)
        rfl hs hrest hclosed
      exact ⟨t, hreach.trans ht, hstale⟩

/-- The entry that is handed out counts as stale if its context is closed by then. -/
theorem staleHandouts_handed {a : PoolAction} {e : ℕ} (hs : s.step poolSize a = some s') (he : s.handed a = some e) :
    s'.staleHandouts = (s.staleHandouts + if s.isOpen e then 0 else 1) ∧ s'.contexts = s.contexts := by
  cases effect_of hs with
  | @acquires x rest hp =>
    obtain rfl : x = e := by simpa [handed, hp] using he
    exact ⟨rfl, rfl⟩
  | waits hp => simp [handed, hp] at he
  | @takes k x rest hk hp =>
    obtain rfl : x = e := by simpa [handed, hk, hp] using he
    exact ⟨rfl, rfl⟩
  | @takesOld k q x rest hk hq hp =>
    obtain rfl : x = e := by simpa [handed, hk, hq, hp] using he
    exact ⟨rfl, rfl⟩
  | _ => cases he

theorem sound_run (h : Reachable (Guarded (fun s a => s.orderly a) (Fires (step poolSize))) {} s) : Sound poolSize s := by
  refine h.inv (Sound poolSize) ⟨by simp, by simp, by simp, by simp, by simp, rfl⟩ ?_
  rintro s a s' hi ⟨ho, hs⟩
  exact sound_effect hi ho (effect_of hs)

theorem Sound.safe (h : Sound poolSize s) (hacc : Accounted s) : s.Safe poolSize :=
  ⟨hacc.exclusive, h.stale, (Nat.le_add_right _ _).trans h.bounded⟩

/-- In every orderly run the pool is safe. A `start()` with contexts left open and a
release of a closed page are out of order for a reason: orderly steps lead from
there to a state that is not safe. A page that is taken out of order after an orderly
run breaks the promise at once, unless its context is still open. -/
theorem pool_safe (poolSize : ℕ) :
    (∀ s, Reachable (Guarded (fun s a => s.orderly a) (Fires (step poolSize))) {} s → s.Safe poolSize) ∧
    (∀ s a s', Reachable (Fires (step poolSize)) {} s → s.step poolSize a = some s' → ¬ s.orderly a →
      (a = .start ∨ ∃ k, a = .release k) →
      ∃ t, Reachable (Guarded (fun s a => s.orderly a) (Fires (step poolSize))) s' t ∧ ¬ t.Safe poolSize) ∧
    ∀ s a s' e, Reachable (Guarded (fun s a => s.orderly a) (Fires (step poolSize))) {} s → s.step poolSize a = some s' →
      s.handed a = some e → (s'.Safe poolSize ↔ s.isOpen e = true) := by
  refine ⟨fun s h => (sound_run h).safe (accounted_reachable h.of_guarded), ?_, ?_⟩
  · rintro s a s' - hs ho (rfl | ⟨k, rfl⟩)
    · cases effect_of hs with
      | wasStarted hstarted => simp [orderly, hstarted] at ho
      | starts hstarted hc =>
        have hopen : true ∈ s.contexts := by simpa [orderly, hstarted] using ho
        have hpos : 0 < s.contexts.countP id := List.countP_pos_iff.2 ⟨true, hopen, rfl⟩
        obtain ⟨t, ht, hcount⟩ := fill_slots poolSize poolSize
          { s with creating := some (List.replicate poolSize .pending) } rfl (by simp)
        refine ⟨t, ht, fun hsafe => ?_⟩
        have hb := hsafe.bounded
        simp only at hcount
        omega
    · cases effect_of hs with
      | @releases k e hk =>
        simp only [orderly, hk, Bool.or_eq_true, not_or, Bool.not_eq_true] at ho
        have he : e ∈ s.pool ++ [e] := by simp
        obtain ⟨t, ht, hstale⟩ := stale_comes_out poolSize (s.pool ++ [e])
          { s with pool := s.pool ++ [e], borrowers := s.borrowers.set k .returned } rfl ho.1 he ho.2
        refine ⟨t, ht, fun hsafe => ?_⟩
        have hlive := hsafe.live
        omega
  · intro s a s' e h hs he
    have hsound := sound_run h
    have hsafe := hsound.safe (accounted_reachable h.of_guarded)
    obtain ⟨hstale, hcontexts⟩ := staleHandouts_handed hs he
    have hacc := accounted_reachable (h.of_guarded.step hs)
    rw [hsound.stale, Nat.zero_add] at hstale
    constructor
    · intro hnext
      by_contra hclosed
      rw [if_neg hclosed] at hstale
      exact absurd (hstale.symm.trans hnext.live) (by decide)
    · intro hopen
      rw [if_pos hopen] at hstale
      exact ⟨hacc.exclusive, hstale, hcontexts ▸ hsafe.bounded⟩

/-- A pool of two is started, used by two borrowers, stopped and started again. -/
def orderlyPool : List PoolAction :=
  [.start, .create 0 true, .create 1 true, .startEnds, .acquire, .acquire, .release 0, .acquire, .release 1, .release 2,
    .stop, .closeEnds 0, .closeEnds 0, .start, .create 1 true, .create 0 true, .startEnds, .acquire]

theorem pool_safe_restarted :
    ∃ s, exec (guarded orderly (step 2)) {} orderlyPool = some s ∧ s.contexts.length = 4 ∧ s.Safe 2 := by
  obtain ⟨s, hs, hl⟩ := exec_ends (f := guarded orderly (step 2)) (Q := fun s => s.contexts.length = 4) (s := {}) orderlyPool
    (by decide)
  exact ⟨s, hs, hl, (pool_safe 2).1 s (reachable_guarded _ hs)⟩

/-- A page is borrowed, the pool stopped, the page given back: the next borrower gets it, closed. -/
theorem closed_page_handed_out : ¬ ∀ s, Reachable (Fires (step 1)) {} s → s.Safe 1 := by
  obtain ⟨s, hs, hstale⟩ := exec_ends (f := step 1) (Q := fun s => s.staleHandouts = 1) (s := {})
    [.start, .create 0 true, .startEnds, .acquire, .stop, .closeEnds 0, .release 0, .acquire] (by decide)
  intro hall
  have hlive := (hall s (reachable_of_exec _ hs)).live
  omega

end BrowserPool

end SocialScraper
