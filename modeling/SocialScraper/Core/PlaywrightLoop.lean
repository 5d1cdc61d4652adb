import SocialScraper.Lib.Runs
import SocialScraper.Lib.Workers
/-!
# The Playwright loop

`_ensure_loop` of `app.core.playwright_loop`, by threads that share the module:
the first call starts the thread of the loop and waits, with the lock in hand,
until the loop is there. There is one loop for all calls, and none of them ever
returns if its thread fails (`one_loop`).
-/
open Lib

namespace SocialScraper

/-- Where a call of `_ensure_loop` is. -/
inductive EnsurePhase where
  /-- Before the lock. -/
  | entering
  /-- With the lock, before it looks at `_loop`. -/
  | locked
  /-- In `ready.wait()`, for the thread with the number. -/
  | waiting (thread : ℕ)
  /-- It has returned the loop of the thread. -/
  | returned (thread : ℕ)
  /-- The thread could not be started. -/
  | raised
deriving DecidableEq

def EnsurePhase.hasLock : EnsurePhase → Bool
  | .locked | .waiting _ => true
  | .entering | .returned _ | .raised => false

/-- Where `_run` is. -/
inductive LoopThread where
  | starting
  /-- The loop is in the holder, and `ready` is set. -/
  | ready
  /-- `ProactorEventLoop()` has raised. -/
  | failed
deriving DecidableEq

/-- The module: its calls and the threads it has started, in order. -/
structure PlaywrightLoop where
  /-- `_loop`, by the number of its thread. -/
  loop : Option ℕ := none
  /-- The call with the lock. -/
  lock : Option ℕ := none
  calls : List EnsurePhase := []
  threads : List LoopThread := []

inductive LoopAction where
  | call
  | locks (call : ℕ)
  /-- The call looks at `_loop`, and starts the thread if there is none. -/
  | looks (call : ℕ)
  /-- It looks, and the thread does not start. -/
  | startFails (call : ℕ)
  /-- The thread makes the loop. -/
  | makes (thread : ℕ)
  | makeFails (thread : ℕ)
  /-- `ready` is set, and the call goes on. -/
  | wakes (call : ℕ)

namespace PlaywrightLoop

def setCall (s : PlaywrightLoop) (k : ℕ) (p : EnsurePhase) : PlaywrightLoop := { s with calls := s.calls.set k p }

/-- The end of a call with the lock. -/
def leave (s : PlaywrightLoop) (k : ℕ) (p : EnsurePhase) : PlaywrightLoop := { s.setCall k p with lock := none }

def step (s : PlaywrightLoop) : LoopAction → Option PlaywrightLoop
  | .call => some { s with calls := s.calls ++ [.entering] }
  | .locks k =>
    if s.calls[k]? = some .entering ∧ s.lock = none then some { s.setCall k .locked with lock := some k } else none
  | .looks k =>
    if s.calls[k]? = some .locked then
      match s.loop with
      | some l => some (s.leave k (.returned l))
      | none => some { s.setCall k (.waiting s.threads.length) with threads := s.threads ++ [.starting] }
    else none
  | .startFails k => if s.calls[k]? = some .locked ∧ s.loop = none then some (s.leave k .raised) else none
  | .makes t => if s.threads[t]? = some .starting then some { s with threads := s.threads.set t .ready } else none
  | .makeFails t => if s.threads[t]? = some .starting then some { s with threads := s.threads.set t .failed } else none
  | .wakes k =>
    match s.calls[k]? with
    | some (.waiting t) =>
      if s.threads[t]? = some .ready then some { s.leave k (.returned t) with loop := some t } else none
    | _ => none

variable {s s' : PlaywrightLoop}

/-- What a step does, with what it needs. -/
inductive Effect (s : PlaywrightLoop) : PlaywrightLoop → Prop
  | call : Effect s { s with calls := s.calls ++ [.entering] }
  | locks {k : ℕ} (hk : s.calls[k]? = some .entering) (hl : s.lock = none) : Effect s { s.setCall k .locked with lock := some k }
  | finds {k l : ℕ} (hk : s.calls[k]? = some .locked) (hl : s.loop = some l) : Effect s (s.leave k (.returned l))
  | starts {k : ℕ} (hk : s.calls[k]? = some .locked) (hl : s.loop = none) :
      Effect s { s.setCall k (.waiting s.threads.length) with threads := s.threads ++ [.starting] }
  | startFails {k : ℕ} (hk : s.calls[k]? = some .locked) (hl : s.loop = none) : Effect s (s.leave k .raised)
  | thread {t : ℕ} (ht : s.threads[t]? = some .starting) (r : LoopThread) : Effect s { s with threads := s.threads.set t r }
  | wakes {k t : ℕ} (hk : s.calls[k]? = some (.waiting t)) (ht : s.threads[t]? = some .ready) :
      Effect s { s.leave k (.returned t) with loop := some t }

theorem effect_of {a : LoopAction} (h : s.step a = some s') : Effect s s' := by
  cases a with
  | call =>
    obtain rfl := Option.some.inj h
    exact .call
  | locks k =>
    obtain ⟨⟨hk, hl⟩, h⟩ := Option.ite_none_right_eq_some.1 h
    obtain rfl := Option.some.inj h
    exact .locks hk hl
  | looks k =>
    obtain ⟨hk, h⟩ := Option.ite_none_right_eq_some.1 h
    cases hl : s.loop with
    | some l =>
      rw [hl] at h
      obtain rfl := Option.some.inj h
      exact .finds hk hl
    | none =>
      rw [hl] at h
      obtain rfl := Option.some.inj h
      exact .starts hk hl
  | startFails k =>
    obtain ⟨⟨hk, hl⟩, h⟩ := Option.ite_none_right_eq_some.1 h
    obtain rfl := Option.some.inj h
    exact .startFails hk hl
  | makes t =>
    obtain ⟨ht, h⟩ := Option.ite_none_right_eq_some.1 h
    obtain rfl := Option.some.inj h
    exact .thread ht .ready
  | makeFails t =>
    obtain ⟨ht, h⟩ := Option.ite_none_right_eq_some.1 h
    obtain rfl := Option.some.inj h
    exact .thread ht .failed
  | wakes k =>
    simp only [step] at h
    split at h
    · rename_i t hk
      obtain ⟨ht, h⟩ := Option.ite_none_right_eq_some.1 h
      obtain rfl := Option.some.inj h
      exact .wakes hk ht
    · cases h

/-! ## One loop -/

structure Sound (s : PlaywrightLoop) : Prop where
  lock : ∀ k, s.lock = some k ↔ ∃ p, s.calls[k]? = some p ∧ p.hasLock = true
  returned : ∀ (k l : ℕ), s.calls[k]? = some (EnsurePhase.returned l) → s.loop = some l
  /-- The loop is that of the only thread. -/
  made : ∀ l, s.loop = some l → l = 0 ∧ s.threads = [.ready]
  /-- Without a loop, whoever has started the thread waits for it. -/
  waits : ∀ (k t : ℕ), s.calls[k]? = some (EnsurePhase.waiting t) → s.loop = none ∧ t = 0 ∧ s.threads.length = 1
  started : s.threads ≠ [] → s.loop = none → ∃ k : ℕ, s.calls[k]? = some (EnsurePhase.waiting 0)

/-- One call has the lock. -/
theorem Sound.owner (hi : Sound s) {k j : ℕ} {p q : EnsurePhase} (hk : s.calls[k]? = some p) (hp : p.hasLock = true)
    (hj : s.calls[j]? = some q) (hq : q.hasLock = true) : j = k := by
  have hlock := (hi.lock k).2 ⟨p, hk, hp⟩
  have hlock' := (hi.lock j).2 ⟨q, hj, hq⟩
  exact Option.some.inj (hlock'.symm.trans hlock)

/-- A call that looks finds the loop, or no thread. -/
theorem Sound.looks (hi : Sound s) {k : ℕ} (hk : s.calls[k]? = some .locked) (hl : s.loop = none) : s.threads = [] := by
  by_contra hne
  obtain ⟨j, hj⟩ := hi.started hne hl
  obtain rfl := hi.owner hk rfl hj rfl
  rw [hk] at hj
  cases hj

theorem lock_leave (hi : Sound s) {k : ℕ} {p q : EnsurePhase} (hk : s.calls[k]? = some p) (hp : p.hasLock = true)
    (hq : q.hasLock = false) (j : ℕ) : none = some j ↔ ∃ r, (s.calls.set k q)[j]? = some r ∧ r.hasLock = true := by
  constructor
  · intro h
    cases h
  · rintro ⟨r, hr, hlock⟩
    rcases (slot_iff hk).1 hr with ⟨-, rfl⟩ | ⟨hne, hj⟩
    · rw [hq] at hlock
      cases hlock
    · exact absurd (hi.owner hk hp hj hlock) hne

theorem sound_effect (hi : Sound s) (h : Effect s s') : Sound s' := by
  cases h with
  | call =>
    have hnew : ∀ (k : ℕ) (p : EnsurePhase), p ≠ .entering →
        ((s.calls ++ [EnsurePhase.entering])[k]? = some p ↔ s.calls[k]? = some p) := by
      intro k p hp
      rw [List.getElem?_append]
      split_ifs with hk
      · rfl
      · rw [List.getElem?_singleton, List.getElem?_eq_none (Nat.not_lt.1 hk)]
        split_ifs
        · exact ⟨fun he => absurd (Option.some.inj he).symm hp, fun he => by cases he⟩
        · rfl
    refine ⟨fun k => ?_, fun k l hk => ?_, hi.made, fun k t hk => ?_, fun hne hl => ?_⟩
    · refine (hi.lock k).trans ?_
      constructor
      · rintro ⟨p, hk, hp⟩
        exact ⟨p, (hnew k p (by rintro rfl; cases hp)).2 hk, hp⟩
      · rintro ⟨p, hk, hp⟩
        exact ⟨p, (hnew k p (by rintro rfl; cases hp)).1 hk, hp⟩
    · exact hi.returned k l ((hnew k _ (by simp)).1 hk)
    · exact hi.waits k t ((hnew k _ (by simp)).1 hk)
    · obtain ⟨k, hk⟩ := hi.started hne hl
      exact ⟨k, (hnew k _ (by simp)).2 hk⟩
  | locks hk hl =>
    rename_i k
    have hnone : ∀ (j : ℕ) (p : EnsurePhase), s.calls[j]? = some p → p.hasLock = false := by
      intro j p hj
      apply eq_false_of_ne_true
      intro hp
      have hlock := (hi.lock j).2 ⟨p, hj, hp⟩
      rw [hl] at hlock
      cases hlock
    refine ⟨fun j => ?_, fun j l hj => ?_, hi.made, fun j t hj => ?_, fun hne hloop => ?_⟩
    · show some k = some j ↔ ∃ p, (s.calls.set k .locked)[j]? = some p ∧ p.hasLock = true
      constructor
      · rintro he
        obtain rfl := Option.some.inj he
        exact ⟨.locked, (slot_iff hk).2 (.inl ⟨rfl, rfl⟩), rfl⟩
      · rintro ⟨p, hj, hp⟩
        rcases (slot_iff hk).1 hj with ⟨rfl, -⟩ | ⟨-, hj⟩
        · rfl
        · rw [hnone j p hj] at hp
          cases hp
    · rcases (slot_iff hk).1 hj with ⟨-, he⟩ | ⟨-, hj⟩
      · cases he
      · exact hi.returned j l hj
    · rcases (slot_iff hk).1 hj with ⟨-, he⟩ | ⟨-, hj⟩
      · cases he
      · exact hi.waits j t hj
    · obtain ⟨j, hj⟩ := hi.started hne hloop
      have hp := hnone j _ hj
      cases hp
  | finds hk hl =>
    rename_i k l
    refine ⟨lock_leave hi hk rfl rfl, fun j l' hj => ?_, hi.made, fun j t hj => ?_, fun hne hloop => ?_⟩
    · rcases (slot_iff hk).1 hj with ⟨-, he⟩ | ⟨-, hj⟩
      · obtain rfl := EnsurePhase.returned.inj he
        exact hl
      · exact hi.returned j l' hj
    · rcases (slot_iff hk).1 hj with ⟨-, he⟩ | ⟨-, hj⟩
      · cases he
      · exact hi.waits j t hj
    · exact absurd (hl.symm.trans hloop) (by simp)
  | starts hk hl =>
    rename_i k
    have hnone := hi.looks hk hl
    refine ⟨fun j => ?_, fun j l hj => ?_, fun l hloop => ?_, fun j t hj => ?_, fun _ _ => ⟨k, ?_⟩⟩
    · refine (hi.lock j).trans ?_
      constructor
      · rintro ⟨p, hj, hp⟩
        obtain rfl := hi.owner hk rfl hj hp
        exact ⟨_, (slot_iff hk).2 (.inl ⟨rfl, rfl⟩), rfl⟩
      · rintro ⟨p, hj, hp⟩
        rcases (slot_iff hk).1 hj with ⟨rfl, -⟩ | ⟨-, hj⟩
        · exact ⟨.locked, hk, rfl⟩
        · exact ⟨p, hj, hp⟩
    · rcases (slot_iff hk).1 hj with ⟨-, he⟩ | ⟨-, hj⟩
      · cases he
      · exact hi.returned j l hj
    · exact absurd (hl.symm.trans hloop) (by simp)
    · rcases (slot_iff hk).1 hj with ⟨-, he⟩ | ⟨hne, hj⟩
      · obtain rfl := EnsurePhase.waiting.inj he
        exact ⟨hl, by rw [hnone]; rfl, by rw [hnone]; rfl⟩
      · exact absurd (hi.owner hk rfl hj rfl) hne
    · rw [hnone]
      exact (slot_iff hk).2 (.inl ⟨rfl, rfl⟩)
  | startFails hk hl =>
    rename_i k
    have hnone := hi.looks hk hl
    refine ⟨lock_leave hi hk rfl rfl, fun j l' hj => ?_, hi.made, fun j t hj => ?_, fun hne _ => absurd hnone hne⟩
    · rcases (slot_iff hk).1 hj with ⟨-, he⟩ | ⟨-, hj⟩
      · cases he
      · exact hi.returned j l' hj
    · rcases (slot_iff hk).1 hj with ⟨-, he⟩ | ⟨-, hj⟩
      · cases he
      · exact hi.waits j t hj
  | thread ht r =>
    refine ⟨hi.lock, hi.returned, fun l hl => ?_, fun j t hj => ?_, fun hne hloop => ?_⟩
    · rw [(hi.made l hl).2] at ht
      cases List.mem_singleton.1 (List.mem_of_getElem? ht)
    · obtain ⟨hl, ht, hlen⟩ := hi.waits j t hj
      exact ⟨hl, ht, (List.length_set ..).trans hlen⟩
    · apply hi.started _ hloop
      rintro hnil
      rw [hnil] at ht
      cases ht
  | wakes hk ht =>
    rename_i k t
    obtain ⟨hl, rfl, hlen⟩ := hi.waits k t hk
    obtain ⟨r, hr⟩ := List.length_eq_one_iff.1 hlen
    rw [hr] at ht
    obtain rfl := Option.some.inj ht
    refine ⟨lock_leave hi hk rfl rfl, fun j l' hj => ?_, fun l he => ?_, fun j t hj => ?_, fun _ hloop => by cases hloop⟩
    · rcases (slot_iff hk).1 hj with ⟨-, he⟩ | ⟨-, hj⟩
      · rw [EnsurePhase.returned.inj he]
      · exact absurd (hl.symm.trans (hi.returned j l' hj)) (by simp)
    · exact ⟨(Option.some.inj he).symm, hr⟩
    · rcases (slot_iff hk).1 hj with ⟨-, he⟩ | ⟨hne, hj⟩
      · cases he
      · exact absurd (hi.owner hk rfl hj rfl) hne

theorem sound_reachable (h : Reachable (Fires step) {} s) : Sound s := by
  apply h.inv Sound
  · constructor
    · intro k
      simp
    · intro k l h
      cases h
    · intro l h
      cases h
    · intro k t h
      cases h
    · intro h
      exact absurd rfl h
  · intro s a s' hi hs
    exact sound_effect hi (effect_of hs)

/-! ## Who returns -/

/-- A thread that has failed stays the only one. -/
theorem failed_stays (hi : Sound s) (hf : s.threads = [.failed]) (h : Reachable (Fires step) s s') :
    Sound s' ∧ s'.threads = [.failed] := by
  apply h.inv (fun s => Sound s ∧ s.threads = [.failed]) ⟨hi, hf⟩
  rintro s a s' ⟨hi, hf⟩ hs
  have heffect := effect_of hs
  refine ⟨sound_effect hi heffect, ?_⟩
  cases heffect with
  | call | locks hk hl | finds hk hl | startFails hk hl | wakes hk ht => exact hf
  | starts hk hl =>
    rw [hi.looks hk hl] at hf
    cases hf
  | thread ht r =>
    rw [hf] at ht
    cases List.mem_singleton.1 (List.mem_of_getElem? ht)

theorem Sound.failed (hi : Sound s) (hf : LoopThread.failed ∈ s.threads) : s.threads = [.failed] := by
  have hne : s.threads ≠ [] := List.ne_nil_of_mem hf
  cases hl : s.loop with
  | some l =>
    rw [(hi.made l hl).2] at hf
    cases List.mem_singleton.1 hf
  | none =>
    obtain ⟨k, hk⟩ := hi.started hne hl
    obtain ⟨-, -, hlen⟩ := hi.waits k 0 hk
    obtain ⟨r, hr⟩ := List.length_eq_one_iff.1 hlen
    rw [hr] at hf ⊢
    rw [List.mem_singleton.1 hf]

/-- What the call with the lock leads to: it returns, and leaves the lock and the calls before it. -/
structure Unlocked (s s' : PlaywrightLoop) : Prop where
  reachable : Reachable (Fires step) s s'
  lock : s'.lock = none
  threads : LoopThread.failed ∉ s'.threads
  entering : ∀ j : ℕ, s.calls[j]? = some .entering → s'.calls[j]? = some .entering
  owner : ∀ (j : ℕ) p, s.calls[j]? = some p → p.hasLock = true → ∃ l, s'.calls[j]? = some (EnsurePhase.returned l)

theorem Unlocked.after {s₁ : PlaywrightLoop} {a : LoopAction} (h : Unlocked s₁ s') (hs : s.step a = some s₁)
    (hentering : ∀ j : ℕ, s.calls[j]? = some .entering → s₁.calls[j]? = some .entering)
    (howner : ∀ (j : ℕ) p, s.calls[j]? = some p → p.hasLock = true → ∃ q, s₁.calls[j]? = some q ∧ q.hasLock = true) :
    Unlocked s s' where
  reachable := ((Reachable.refl s).step hs).trans h.reachable
  lock := h.lock
  threads := h.threads
  entering j hj := h.entering j (hentering j hj)
  owner j p hj hp := by
    obtain ⟨q, hq, hlock⟩ := howner j p hj hp
    exact h.owner j q hq hlock

theorem unlocked_leave (hi : Sound s) {k l : ℕ} {p : EnsurePhase} {a : LoopAction} (hk : s.calls[k]? = some p)
    (hp : p.hasLock = true) (hs : s.step a = some s') (hcalls : s'.calls = s.calls.set k (.returned l))
    (hlock : s'.lock = none) (ht : LoopThread.failed ∉ s'.threads) : Unlocked s s' where
  reachable := (Reachable.refl s).step hs
  lock := hlock
  threads := ht
  entering j hj := by
    rw [hcalls]
    apply (slot_iff hk).2 (.inr ⟨?_, hj⟩)
    rintro rfl
    obtain rfl := Option.some.inj (hk.symm.trans hj)
    cases hp
  owner j q hj hq := by
    obtain rfl := hi.owner hk hp hj hq
    exact ⟨l, by rw [hcalls]; exact (slot_iff hk).2 (.inl ⟨rfl, rfl⟩)⟩

theorem waiting_unlocks (hi : Sound s) {k : ℕ} (hk : s.calls[k]? = some (.waiting 0)) (hf : LoopThread.failed ∉ s.threads) :
    ∃ s', Unlocked s s' := by
  obtain ⟨-, -, hlen⟩ := hi.waits k 0 hk
  obtain ⟨r, hr⟩ := List.length_eq_one_iff.1 hlen
  have hwakes : ∀ s : PlaywrightLoop, Sound s → s.calls[k]? = some (.waiting 0) → s.threads = [.ready] → ∃ s', Unlocked s s' := by
    intro s hi hk hr
    have hs : s.step (.wakes k) = some { s.leave k (.returned 0) with loop := some 0 } := by
      simp only [step, hk, hr]
      rfl
    refine ⟨_, unlocked_leave hi hk rfl hs rfl rfl ?_⟩
    show LoopThread.failed ∉ s.threads
    rw [hr]
    decide
  cases r with
  | ready => exact hwakes s hi hk hr
  | failed =>
    rw [hr] at hf
    exact absurd List.mem_cons_self hf
  | starting =>
    have hs : s.step (.makes 0) = some { s with threads := s.threads.set 0 .ready } := by
      simp only [step, hr]
      rfl
    obtain ⟨s', h⟩ := hwakes _ (sound_effect hi (effect_of hs)) hk (by rw [hr]; rfl)
    exact ⟨s', h.after hs (fun _ hj => hj) fun j p hj hp => ⟨p, hj, hp⟩⟩

theorem unlocks (hi : Sound s) (hf : LoopThread.failed ∉ s.threads) : ∃ s', Unlocked s s' := by
  cases hlock : s.lock with
  | none =>
    refine ⟨s, .refl s, hlock, hf, fun _ hj => hj, fun j p hj hp => ?_⟩
    rw [(hi.lock j).2 ⟨p, hj, hp⟩] at hlock
    cases hlock
  | some k =>
    obtain ⟨p, hk, hp⟩ := (hi.lock k).1 hlock
    cases p with
    | entering | returned l | raised => cases hp
    | waiting t =>
      obtain ⟨-, rfl, -⟩ := hi.waits k t hk
      exact waiting_unlocks hi hk hf
    | locked =>
      cases hl : s.loop with
      | some l =>
        have hs : s.step (.looks k) = some (s.leave k (.returned l)) := by simp only [step, hk, hl, if_true]
        exact ⟨_, unlocked_leave hi hk rfl hs rfl rfl hf⟩
      | none =>
        have hnone := hi.looks hk hl
        have hs : s.step (.looks k) = some { s.setCall k (.waiting 0) with threads := [.starting] } := by
          simp only [step, hk, hl, if_true, hnone]
          rfl
        have hself : (s.calls.set k (.waiting 0))[k]? = some (EnsurePhase.waiting 0) := (slot_iff hk).2 (.inl ⟨rfl, rfl⟩)
        have hstarting : LoopThread.failed ∉ [LoopThread.starting] := by decide
        obtain ⟨s', h⟩ := waiting_unlocks (sound_effect hi (effect_of hs)) hself hstarting
        refine ⟨s', h.after hs (fun j hj => ?_) fun j q hj hq => ?_⟩
        · apply (slot_iff hk).2 (.inr ⟨?_, hj⟩)
          rintro rfl
          cases hk.symm.trans hj
        · obtain rfl := hi.owner hk rfl hj hq
          exact ⟨.waiting 0, hself, rfl⟩

/-- There is one thread at most and one loop for all calls, whatever their order and wherever threads fail to start. If
the thread of the loop fails, no call returns, now or later; if not, every call that is on its way can still do so. -/
theorem one_loop (s : PlaywrightLoop) (h : Reachable (Fires step) {} s) :
    s.threads.length ≤ 1 ∧
    (∀ (k l : ℕ), s.calls[k]? = some (EnsurePhase.returned l) → l = 0 ∧ s.threads = [.ready]) ∧
    (LoopThread.failed ∈ s.threads → ∀ s', Reachable (Fires step) s s' → ∀ (k l : ℕ), s'.calls[k]? ≠ some (EnsurePhase.returned l)) ∧
    (LoopThread.failed ∉ s.threads → ∀ (k : ℕ) p, s.calls[k]? = some p → p = .entering ∨ p.hasLock = true →
      ∃ s', Reachable (Fires step) s s' ∧ s'.calls[k]? = some (EnsurePhase.returned 0)) := by
  have hi := sound_reachable h
  have hreturned : ∀ s : PlaywrightLoop, Sound s → ∀ (k l : ℕ), s.calls[k]? = some (EnsurePhase.returned l) →
      l = 0 ∧ s.threads = [.ready] := fun s hi k l hk => hi.made l (hi.returned k l hk)
  refine ⟨?_, hreturned s hi, fun hf s' h' k l hk => ?_, fun hf k p hk hp => ?_⟩
  · cases hl : s.loop with
    | some l =>
      rw [(hi.made l hl).2]
      exact Nat.le_refl 1
    | none =>
      by_cases hne : s.threads = []
      · rw [hne]
        exact Nat.zero_le 1
      · obtain ⟨k, hk⟩ := hi.started hne hl
        exact Nat.le_of_eq (hi.waits k 0 hk).2.2
  · obtain ⟨hi', hf'⟩ := failed_stays hi (hi.failed hf) h'
    obtain ⟨-, hready⟩ := hreturned s' hi' k l hk
    rw [hf'] at hready
    cases hready
  · have hdone : ∀ s' : PlaywrightLoop, Reachable (Fires step) s s' → (∃ l, s'.calls[k]? = some (EnsurePhase.returned l)) →
        ∃ s', Reachable (Fires step) s s' ∧ s'.calls[k]? = some (EnsurePhase.returned 0) := by
      rintro s' h' ⟨l, hl⟩
      obtain ⟨rfl, -⟩ := hreturned s' (sound_reachable (h.trans h')) k l hl
      exact ⟨s', h', hl⟩
    obtain ⟨s₁, h₁⟩ := unlocks hi hf
    rcases hp with rfl | hp
    · -- It gets the lock after the call that has it now.
      have hentering := h₁.entering k hk
      have hs : s₁.step (.locks k) = some { s₁.setCall k .locked with lock := some k } := by
        simp only [step, hentering, h₁.lock, and_self, if_true]
      have hreach := h₁.reachable.step hs
      obtain ⟨s₂, h₂⟩ := unlocks (sound_reachable (h.trans hreach)) h₁.threads
      apply hdone s₂ (hreach.trans h₂.reachable)
      exact h₂.owner k .locked ((slot_iff hentering).2 (.inl ⟨rfl, rfl⟩)) rfl
    · exact hdone s₁ h₁.reachable (h₁.owner k p hk hp)

/-- The second call finds the loop of the first. -/
def twoCalls : List LoopAction := [.call, .locks 0, .call, .looks 0, .makes 0, .wakes 0, .locks 1, .looks 1]

theorem one_loop_twoCalls : ∃ s, exec step {} twoCalls = some s ∧ s.calls = [.returned 0, .returned 0] ∧ s.threads = [.ready] := by
  obtain ⟨s, hs, hcalls⟩ := exec_ends (f := step) (Q := fun s => s.calls = [.returned 0, .returned 0]) (s := {}) twoCalls (by decide)
  obtain ⟨-, hreturned, -, -⟩ := one_loop s (reachable_of_exec _ hs)
  exact ⟨s, hs, hcalls, (hreturned 1 0 (by rw [hcalls]; rfl)).2⟩

end PlaywrightLoop

end SocialScraper
