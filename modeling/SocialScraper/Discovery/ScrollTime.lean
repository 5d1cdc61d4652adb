import Mathlib.Algebra.Order.BigOperators.Group.List
import SocialScraper.Discovery.ScrollOutcome
/-!
# How long scrolling takes

The waits of `scroll_until`: the pause is a function of the scrolls that failed
in a row (`pause_eq`), a wait sleeps through its pause at most
(`Wait.Kept`), and so the call has a bound whatever the page does
(`scroll_time`).
-/
open Lib

namespace SocialScraper

/-! ## The waits of a call -/

/-- A call of `_wait_for_progress_or_timeout` and what it has done. -/
structure Wait where
  previousCount : ℕ
  timeout : ℚ
  sleeps : List ℚ := []
  polls : List ℕ := []
  returned : Option ℕ := none

/-- The counts before and behind the wait, when it has returned. -/
def Wait.scroll (w : Wait) : Option (ℕ × ℕ) := w.returned.map fun n => (w.previousCount, n)

/-- A call of `scroll_until` with its waits, the latest first. -/
structure ScrollLog where
  call : ScrollCall
  waits : List Wait := []

/-- What the wait has returned if a step has judged a scroll. -/
def verdict (s s' : ScrollCall) : Option ℕ :=
  if s'.scrolls.length = s.scrolls.length then none else s'.scrolls.head?.map (·.2)

namespace ScrollLog

/-- The waits behind a step from `s` to `s'`. -/
def record (c : ScrollConfig) (s s' : ScrollCall) : ScrollAction → List Wait → List Wait
  | .scrolled, waits => { previousCount := s.previousCount, timeout := s.pause, returned := verdict s s' } :: waits
  | .slept, w :: waits =>
    match s.phase with
    | .sleeping elapsed => { w with sleeps := w.sleeps ++ [min c.pollInterval (s.pause - elapsed)] } :: waits
    | _ => w :: waits
  | .counted n, w :: waits =>
    match s.phase with
    | .polling _ => { w with polls := w.polls ++ [n], returned := verdict s s' } :: waits
    | _ => w :: waits
  | _, waits => waits

def start (c : ScrollConfig) (limit : ℕ) : ScrollLog := { call := .start c limit }

def step (c : ScrollConfig) (log : ScrollLog) (a : ScrollAction) : Option ScrollLog :=
  (log.call.step c a).map fun s => { call := s, waits := record c log.call s a log.waits }

end ScrollLog

/-- What holds of every wait, and of its result when it has returned. -/
structure Wait.Kept (c : ScrollConfig) (w : Wait) : Prop where
  timeout : w.timeout ≤ c.basePause * 4
  polls : w.polls.length ≤ ⌈w.timeout / c.pollInterval⌉₊
  sleeps : w.sleeps.sum ≤ w.timeout
  exact : w.returned.isSome → (∀ n ∈ w.polls, n ≤ w.previousCount) → w.sleeps.sum = w.timeout
  result : ∀ n ∈ w.returned, (w.polls.find? fun m => w.previousCount < m).or w.polls.getLast? = some n

/-- The wait that a call is in; `polls` are those that it has begun. -/
structure Wait.Under (c : ScrollConfig) (s : ScrollCall) (elapsed : ℚ) (polls : ℕ) (w : Wait) : Prop where
  previousCount : w.previousCount = s.previousCount
  timeout : w.timeout = s.pause
  slept : w.sleeps.sum = elapsed
  still : ∀ n ∈ w.polls, n ≤ w.previousCount
  running : w.returned = none
  within : elapsed ≤ s.pause
  polls : w.polls.length + polls + ScrollCall.pollsLeft c s elapsed ≤ ⌈w.timeout / c.pollInterval⌉₊

/-- The latest wait is the one that the call is in, if it is in one. -/
def Waiting (c : ScrollConfig) (s : ScrollCall) (waits : List Wait) : Prop :=
  (∀ elapsed, s.phase = .sleeping elapsed → elapsed < s.pause ∧ ∃ w ∈ waits.head?, w.Under c s elapsed 0) ∧
    ∀ elapsed, s.phase = .polling elapsed → ∃ w ∈ waits.head?, w.Under c s elapsed 1

/-! ## The pause -/

namespace ScrollCall

variable {c : ScrollConfig} {s s' : ScrollCall}

/-- The pause after so many scrolls in a row that failed. -/
def pauseAfter (c : ScrollConfig) (stalls : ℕ) : ℚ := min (c.basePause * (3 / 2) ^ stalls) (c.basePause * 4)

theorem pauseAfter_zero (c : ScrollConfig) : pauseAfter c 0 = c.basePause := by
  have hb := c.basePause_pos
  rw [pauseAfter, pow_zero, mul_one]
  exact min_eq_left (by linarith)

/-- The cap cuts the growth off for good. -/
theorem pauseAfter_succ (c : ScrollConfig) (n : ℕ) :
    pauseAfter c (n + 1) = min (pauseAfter c n * (3 / 2)) (c.basePause * 4) := by
  have hb := c.basePause_pos
  unfold pauseAfter
  rw [pow_succ, ← mul_assoc]
  rcases le_total (c.basePause * (3 / 2) ^ n) (c.basePause * 4) with h | h
  · rw [min_eq_left h]
  · rw [min_eq_right h, min_eq_right (by linarith), min_eq_right (by linarith)]

@[simp] theorem loop_pause (c : ScrollConfig) (s : ScrollCall) : (s.loop c).pause = s.pause := by
  rcases loop_spec c s with ⟨-, -, h⟩ | ⟨-, -, h⟩ | ⟨-, h⟩ <;> rw [h]

@[simp] theorem loop_scrolls (c : ScrollConfig) (s : ScrollCall) : (s.loop c).scrolls = s.scrolls := by
  rcases loop_spec c s with ⟨-, -, h⟩ | ⟨-, -, h⟩ | ⟨-, h⟩ <;> rw [h]

@[simp] theorem loop_totalAttempts (c : ScrollConfig) (s : ScrollCall) : (s.loop c).totalAttempts = s.totalAttempts := by
  rcases loop_spec c s with ⟨-, -, h⟩ | ⟨-, -, h⟩ | ⟨-, h⟩ <;> rw [h]

@[simp] theorem judge_scrolls (c : ScrollConfig) (s : ScrollCall) (n : ℕ) :
    (s.judge c n).scrolls = (s.previousCount, n) :: s.scrolls := by
  unfold judge
  dsimp only
  split_ifs <;> simp

@[simp] theorem judge_totalAttempts (c : ScrollConfig) (s : ScrollCall) (n : ℕ) :
    (s.judge c n).totalAttempts = s.totalAttempts := by
  unfold judge
  dsimp only
  split_ifs <;> simp

theorem judge_pause (c : ScrollConfig) (s : ScrollCall) (n : ℕ) : (s.judge c n).pause =
    if n ≤ s.previousCount then min (s.pause * (3 / 2)) (c.basePause * 4) else c.basePause := by
  unfold judge
  dsimp only
  split_ifs <;> simp

/-- The pause belongs to the scrolls that failed in a row. -/
def Paced (c : ScrollConfig) (s : ScrollCall) : Prop := s.pause = pauseAfter c (s.scrolls.takeWhile failed).length

theorem judge_paced (h : Paced c s) (n : ℕ) : Paced c (s.judge c n) := by
  unfold Paced at *
  rw [judge_pause, judge_scrolls]
  by_cases hn : n ≤ s.previousCount
  · have hf : failed (s.previousCount, n) = true := decide_eq_true hn
    rw [if_pos hn, List.takeWhile_cons_of_pos hf, List.length_cons, pauseAfter_succ, h]
  · have hf : ¬failed (s.previousCount, n) = true := fun hf => hn (of_decide_eq_true hf)
    rw [if_neg hn, List.takeWhile_cons_of_neg hf, List.length_nil, pauseAfter_zero]

theorem wait_paced (h : Paced c s) (elapsed : ℚ) (n : ℕ) : Paced c (s.wait c elapsed n) := by
  unfold wait
  split_ifs
  · exact h
  · exact judge_paced h n

theorem paced_step {a : ScrollAction} (hp : Paced c s) (h : s.step c a = some s') : Paced c s' := by
  cases effect_of h with
  | first n => rwa [Paced, loop_pause, loop_scrolls]
  | progress elapsed n => exact judge_paced hp n
  | still elapsed n => exact wait_paced hp elapsed n
  | marker => exact hp
  | noMarker => exact hp
  | scrolled => exact wait_paced (s := { s with totalAttempts := s.totalAttempts + 1 }) hp 0 _
  | slept => exact hp

end ScrollCall

/-! ## The waits -/

variable {c : ScrollConfig} {s s' : ScrollCall} {w : Wait} {waits : List Wait}

namespace Wait.Under

/-- A wait that has not returned keeps within its bounds. -/
theorem kept {elapsed : ℚ} {polls : ℕ} (h : w.Under c s elapsed polls) (hp : s.pause ≤ c.basePause * 4) : w.Kept c where
  timeout := h.timeout ▸ hp
  polls := by have hle := h.polls; omega
  sleeps := by rw [h.slept, h.timeout]; exact h.within
  exact hr := by rw [h.running] at hr; cases hr
  result n hn := by rw [h.running] at hn; cases hn

theorem slept_step {elapsed : ℚ} (h : w.Under c s elapsed 0) (hlt : elapsed < s.pause) :
    Wait.Under c { s with phase := .polling (elapsed + min c.pollInterval (s.pause - elapsed)) }
      (elapsed + min c.pollInterval (s.pause - elapsed)) 1
      { w with sleeps := w.sleeps ++ [min c.pollInterval (s.pause - elapsed)] } where
  previousCount := h.previousCount
  timeout := h.timeout
  slept := by rw [List.sum_append, h.slept, List.sum_singleton]
  still := h.still
  running := h.running
  within := by
    have hmin := min_le_right c.pollInterval (s.pause - elapsed)
    show elapsed + min c.pollInterval (s.pause - elapsed) ≤ s.pause
    linarith
  polls := by
    have hless := ScrollCall.pollsLeft_slept (c := c) hlt
    have hle := h.polls
    dsimp only [ScrollCall.pollsLeft] at hless hle ⊢
    omega

theorem still_step {elapsed : ℚ} {n : ℕ} (h : w.Under c s elapsed 1) (hn : n ≤ s.previousCount) :
    Wait.Under c { s with phase := .sleeping elapsed } elapsed 0 { w with polls := w.polls ++ [n], returned := none } where
  previousCount := h.previousCount
  timeout := h.timeout
  slept := h.slept
  still := by
    intro m hm
    rcases List.mem_append.1 hm with hm | hm
    · exact h.still m hm
    · rw [List.mem_singleton.1 hm]
      exact hn.trans_eq h.previousCount.symm
  running := rfl
  within := h.within
  polls := by
    have hle := h.polls
    dsimp only [ScrollCall.pollsLeft] at hle ⊢
    rw [List.length_append, List.length_singleton]
    omega

/-- The first poll above the count before is what the wait returns. -/
theorem progress {elapsed : ℚ} {n : ℕ} (h : w.Under c s elapsed 1) (hp : s.pause ≤ c.basePause * 4)
    (hn : s.previousCount < n) : Wait.Kept c { w with polls := w.polls ++ [n], returned := some n } where
  timeout := (h.kept hp).timeout
  polls := by
    have hle := h.polls
    rw [List.length_append, List.length_singleton]
    dsimp only
    omega
  sleeps := (h.kept hp).sleeps
  exact _ hall := by
    have hle := hall n (by simp)
    rw [h.previousCount] at hle
    exact absurd hle (not_le.2 hn)
  result m hm := by
    obtain rfl := Option.some.inj hm
    have hnone : w.polls.find? (fun m => w.previousCount < m) = none := by
      rw [List.find?_eq_none]
      intro k hk
      simpa using h.still k hk
    rw [List.find?_append, hnone, List.find?_singleton, h.previousCount, if_pos (decide_eq_true hn)]
    rfl

/-- A wait without such a poll has slept through its pause and returns the last one. -/
theorem timeout_over {elapsed : ℚ} {n : ℕ} (h : w.Under c s elapsed 1) (hp : s.pause ≤ c.basePause * 4)
    (hn : n ≤ s.previousCount) (hover : ¬elapsed < s.pause) :
    Wait.Kept c { w with polls := w.polls ++ [n], returned := some n } where
  timeout := (h.kept hp).timeout
  polls := by
    have hle := h.polls
    rw [List.length_append, List.length_singleton]
    dsimp only
    omega
  sleeps := (h.kept hp).sleeps
  exact _ _ := by
    show w.sleeps.sum = w.timeout
    rw [h.slept, h.timeout]
    exact le_antisymm h.within (not_lt.1 hover)
  result m hm := by
    obtain rfl := Option.some.inj hm
    have hnone : (w.polls ++ [n]).find? (fun m => w.previousCount < m) = none := by
      rw [List.find?_eq_none]
      intro k hk
      simpa using (h.still_step hn).still k hk
    rw [hnone, List.getLast?_concat]
    rfl

end Wait.Under

theorem Waiting.sleeping_cons {elapsed : ℚ} (h : Waiting c s waits) (hp : s.phase = .sleeping elapsed) :
    elapsed < s.pause ∧ ∃ w rest, waits = w :: rest ∧ w.Under c s elapsed 0 := by
  obtain ⟨hlt, w, hw, hu⟩ := h.1 elapsed hp
  obtain ⟨rest, hrest⟩ := List.head?_eq_some_iff.1 hw
  exact ⟨hlt, w, rest, hrest, hu⟩

theorem Waiting.polling_cons {elapsed : ℚ} (h : Waiting c s waits) (hp : s.phase = .polling elapsed) :
    ∃ w rest, waits = w :: rest ∧ w.Under c s elapsed 1 := by
  obtain ⟨w, hw, hu⟩ := h.2 elapsed hp
  obtain ⟨rest, hrest⟩ := List.head?_eq_some_iff.1 hw
  exact ⟨w, rest, hrest, hu⟩

theorem Wait.Under.waiting_sleeping {elapsed : ℚ} (h : w.Under c s elapsed 0) (hp : s.phase = .sleeping elapsed)
    (hlt : elapsed < s.pause) (rest : List Wait) : Waiting c s (w :: rest) := by
  constructor
  · intro e he
    obtain rfl := ScrollPhase.sleeping.inj (hp.symm.trans he)
    exact ⟨hlt, w, rfl, h⟩
  · intro e he
    rw [hp] at he
    cases he

theorem Wait.Under.waiting_polling {elapsed : ℚ} (h : w.Under c s elapsed 1) (hp : s.phase = .polling elapsed)
    (rest : List Wait) : Waiting c s (w :: rest) := by
  constructor
  · intro e he
    rw [hp] at he
    cases he
  · intro e he
    obtain rfl := ScrollPhase.polling.inj (hp.symm.trans he)
    exact ⟨w, rfl, h⟩

theorem waiting_of_phase (h : ∀ elapsed, s.phase ≠ .sleeping elapsed ∧ s.phase ≠ .polling elapsed) : Waiting c s waits :=
  ⟨fun elapsed he => absurd he (h elapsed).1, fun elapsed he => absurd he (h elapsed).2⟩

/-- A call is in no wait when a scroll has been judged. -/
theorem loop_waiting (c : ScrollConfig) (s : ScrollCall) (waits : List Wait) : Waiting c (s.loop c) waits := by
  apply waiting_of_phase
  intro elapsed
  rcases ScrollCall.loop_spec c s with ⟨-, -, h⟩ | ⟨-, -, h⟩ | ⟨-, h⟩ <;> rw [h] <;> exact ⟨nofun, nofun⟩

theorem judge_waiting (c : ScrollConfig) (s : ScrollCall) (n : ℕ) (waits : List Wait) : Waiting c (s.judge c n) waits := by
  unfold ScrollCall.judge
  dsimp only
  split_ifs
  · exact waiting_of_phase fun _ => ⟨nofun, nofun⟩
  · exact loop_waiting _ _ _
  · exact loop_waiting _ _ _

theorem verdict_judge (c : ScrollConfig) (s : ScrollCall) (n : ℕ) : verdict s (s.judge c n) = some n := by
  simp [verdict]

theorem verdict_none (h : s'.scrolls = s.scrolls) : verdict s s' = none := by
  simp [verdict, h]

namespace ScrollLog

open ScrollCall

variable {log log' : ScrollLog}

/-- The books of a call. -/
structure Books (c : ScrollConfig) (log : ScrollLog) : Prop where
  timely : Timely c log.call
  paced : Paced c log.call
  count : log.waits.length = log.call.totalAttempts
  total : log.call.totalAttempts ≤ c.maxTotal
  waiting : Waiting c log.call log.waits
  kept : ∀ w ∈ log.waits, w.Kept c
  scrolls : log.waits.filterMap Wait.scroll = log.call.scrolls

theorem pause_pos (h : Paced c s) : 0 < s.pause := by
  have hb := c.basePause_pos
  rw [Paced.eq_def] at h
  rw [h, pauseAfter]
  exact lt_min (by positivity) (by linarith)

/-- A wait that goes on is not yet among the scrolls. -/
theorem scrolls_running {elapsed : ℚ} {polls : ℕ} (hu : w.Under c s elapsed polls)
    (h : (w :: waits).filterMap Wait.scroll = s.scrolls) : waits.filterMap Wait.scroll = s.scrolls := by
  rwa [List.filterMap_cons_none (by rw [Wait.scroll, hu.running]; rfl)] at h

/-- A scroll is judged by what its wait has returned. -/
theorem scrolls_judged {elapsed : ℚ} {n : ℕ} (hu : w.Under c s elapsed 1)
    (h : (w :: waits).filterMap Wait.scroll = s.scrolls) :
    ({ w with polls := w.polls ++ [n], returned := some n } :: waits).filterMap Wait.scroll = (s.judge c n).scrolls := by
  rw [judge_scrolls, ← scrolls_running hu h, ← hu.previousCount]
  rfl

/-- The latest wait takes the place of the one that the call was in. -/
theorem kept_head {w' : Wait} (hk : ∀ v ∈ w :: waits, v.Kept c) (hw : w'.Kept c) : ∀ v ∈ w' :: waits, v.Kept c := by
  intro v hv
  rcases List.mem_cons.1 hv with rfl | hv
  · exact hw
  · exact hk v (List.mem_cons_of_mem w hv)

/-- The step that judges a scroll, whether its wait has found progress or has timed out. -/
theorem Books.judged {elapsed : ℚ} {n : ℕ} (hb : Books c ⟨s, w :: waits⟩) (hp : s.phase = .polling elapsed)
    (hu : w.Under c s elapsed 1) (hk : Wait.Kept c { w with polls := w.polls ++ [n], returned := some n })
    (htimely : Timely c (s.judge c n)) (hpaced : Paced c (s.judge c n)) :
    Books c ⟨s.judge c n, record c s (s.judge c n) (.counted n) (w :: waits)⟩ := by
  have hrec : record c s (s.judge c n) (.counted n) (w :: waits) =
      { w with polls := w.polls ++ [n], returned := some n } :: waits := by
    simp only [record, hp, verdict_judge]
  rw [hrec]
  refine ⟨htimely, hpaced, ?_, ?_, judge_waiting _ _ _ _, kept_head hb.kept hk, scrolls_judged hu hb.scrolls⟩
  · rw [judge_totalAttempts]
    exact hb.count
  · rw [judge_totalAttempts]
    exact hb.total

theorem books_step {a : ScrollAction} (hb : Books c log) (h : log.step c a = some log') : Books c log' := by
  obtain ⟨s, waits⟩ := log
  obtain ⟨s', hs, rfl⟩ := Option.map_eq_some_iff.1 h
  dsimp only at hs ⊢
  have hpause := hb.timely.pause
  have htimely := (remaining_step hb.timely hs).1
  have hpaced := paced_step hb.paced hs
  cases effect_of hs with
  | first n hp =>
    have hsame : record c s ({ s with previousCount := n }.loop c) (.counted n) waits = waits := by
      cases waits <;> simp [record, hp]
    rw [hsame]
    exact ⟨htimely, hpaced, by rw [loop_totalAttempts]; exact hb.count, by rw [loop_totalAttempts]; exact hb.total,
      loop_waiting _ _ _, hb.kept, by rw [loop_scrolls]; exact hb.scrolls⟩
  | progress elapsed n hp hn =>
    obtain ⟨w, waits, rfl, hu⟩ := hb.waiting.polling_cons hp
    exact hb.judged hp hu (hu.progress hpause hn) htimely hpaced
  | still elapsed n hp hn =>
    obtain ⟨w, waits, rfl, hu⟩ := hb.waiting.polling_cons hp
    unfold wait at htimely hpaced ⊢
    split_ifs at htimely hpaced ⊢ with hlt
    · have hrec : record c s { s with phase := .sleeping elapsed } (.counted n) (w :: waits) =
          { w with polls := w.polls ++ [n], returned := none } :: waits := by
        simp only [record, hp, verdict_none]
      have hu' := hu.still_step hn
      have hscrolls := scrolls_running hu hb.scrolls
      rw [hrec]
      exact ⟨htimely, hpaced, hb.count, hb.total, hu'.waiting_sleeping rfl hlt waits, kept_head hb.kept (hu'.kept hpause),
        hscrolls⟩
    · exact hb.judged hp hu (hu.timeout_over hpause hn hlt) htimely hpaced
  | marker hp =>
    have hsame : record c s { s with phase := .returned ⟨s.totalAttempts, true, false⟩ } (.marker true) waits = waits := by
      cases waits <;> rfl
    rw [hsame]
    exact ⟨htimely, hpaced, hb.count, hb.total, waiting_of_phase fun _ => ⟨nofun, nofun⟩, hb.kept, hb.scrolls⟩
  | noMarker hp =>
    have hsame : record c s { s with phase := .scrolling } (.marker false) waits = waits := by
      cases waits <;> rfl
    rw [hsame]
    exact ⟨htimely, hpaced, hb.count, hb.total, waiting_of_phase fun _ => ⟨nofun, nofun⟩, hb.kept, hb.scrolls⟩
  | scrolled hp =>
    -- The pause is not zero, so the wait begins with a sleep.
    have hpos : (0 : ℚ) < { s with totalAttempts := s.totalAttempts + 1 }.pause := pause_pos hb.paced
    unfold wait at htimely hpaced ⊢
    rw [if_pos hpos] at htimely hpaced ⊢
    have hrec : record c s { s with totalAttempts := s.totalAttempts + 1, phase := .sleeping 0 } .scrolled waits =
        { previousCount := s.previousCount, timeout := s.pause } :: waits := by
      simp only [record, verdict_none]
    have hu : Wait.Under c { s with totalAttempts := s.totalAttempts + 1, phase := .sleeping 0 } 0 0
        { previousCount := s.previousCount, timeout := s.pause } :=
      ⟨rfl, rfl, rfl, nofun, rfl, hpos.le, by simp [pollsLeft]⟩
    have htotal := hb.timely.total (.inr hp)
    rw [hrec]
    refine ⟨htimely, hpaced, ?_, htotal, hu.waiting_sleeping rfl hpos waits, ?_, hb.scrolls⟩
    · exact congrArg (· + 1) hb.count
    · intro v hv
      rcases List.mem_cons.1 hv with rfl | hv
      · exact hu.kept hpause
      · exact hb.kept v hv
  | slept elapsed hp =>
    obtain ⟨hlt, w, waits, rfl, hu⟩ := hb.waiting.sleeping_cons hp
    have hu' := hu.slept_step hlt
    have hrec : record c s { s with phase := .polling (elapsed + min c.pollInterval (s.pause - elapsed)) } .slept (w :: waits) =
        { w with sleeps := w.sleeps ++ [min c.pollInterval (s.pause - elapsed)] } :: waits := by
      simp only [record, hp]
    rw [hrec]
    have hscrolls := scrolls_running hu hb.scrolls
    refine ⟨htimely, hpaced, hb.count, hb.total, hu'.waiting_polling rfl waits, kept_head hb.kept (hu'.kept hpause), ?_⟩
    exact (List.filterMap_cons_none (by rw [Wait.scroll, hu.running]; rfl)).trans hscrolls

theorem books_start (c : ScrollConfig) (limit : ℕ) : Books c (start c limit) where
  timely := ⟨by have hb := c.basePause_pos; dsimp only [start, ScrollCall.start]; linarith, nofun, by simp [start, ScrollCall.start]⟩
  paced := (pauseAfter_zero c).symm
  count := rfl
  total := Nat.zero_le _
  waiting := waiting_of_phase fun _ => ⟨nofun, nofun⟩
  kept := nofun
  scrolls := rfl

theorem books_run {limit : ℕ} {as : List ScrollAction} (h : Steps (Fires (step c)) (start c limit) as log) : Books c log :=
  h.inv (Books c) (books_start c limit) fun _ _ _ => books_step

theorem log_length_le {limit : ℕ} {as : List ScrollAction} (h : Steps (Fires (step c)) (start c limit) as log) :
    as.length ≤ remaining c (ScrollCall.start c limit) := by
  have hle := h.length_le (fun log => remaining c log.call) (Books c) (books_start c limit) (by
    intro log a log' hb hs
    obtain ⟨s', hs', rfl⟩ := Option.map_eq_some_iff.1 hs
    exact ⟨books_step hb hs, (remaining_step hb.timely hs').2⟩)
  exact (Nat.le_add_right _ _).trans hle

/-- Each wait sleeps for the longest pause at most. -/
theorem slept_le (h : Books c log) : (log.waits.map fun w => w.sleeps.sum).sum ≤ 4 * c.basePause * c.maxTotal := by
  have hb := c.basePause_pos
  have hlen : log.waits.length ≤ c.maxTotal := h.count.trans_le h.total
  calc (log.waits.map fun w => w.sleeps.sum).sum
      ≤ (log.waits.map fun w => w.sleeps.sum).length • (4 * c.basePause) := by
        apply List.sum_le_card_nsmul
        intro slept hslept
        obtain ⟨w, hw, rfl⟩ := List.mem_map.1 hslept
        have hk := h.kept w hw
        linarith [hk.sleeps, hk.timeout]
    _ = 4 * c.basePause * log.waits.length := by rw [List.length_map, nsmul_eq_mul, mul_comm]
    _ ≤ 4 * c.basePause * c.maxTotal := by
        apply mul_le_mul_of_nonneg_left _ (by linarith)
        exact Nat.cast_le.2 hlen

end ScrollLog

open ScrollLog in
/-- Scrolling is bounded whatever the page does: a call ends, its pause is that of the scrolls that have failed in a row,
each wait polls and sleeps within its timeout and returns the first count above the one before, or the last one, and the
sleeps come to four base pauses for each scroll allowed at most. A limit below zero is met as zero is. -/
theorem scroll_time (c : ScrollConfig) (limit : ℤ) :
    (∃ bound, ∀ as log, Steps (Fires (step c)) (start c limit.toNat) as log → as.length ≤ bound) ∧
    ∀ as log, Steps (Fires (step c)) (start c limit.toNat) as log →
      ((∃ r, log.call.phase = .returned r) ∨ (∀ n, (log.step c (.counted n)).isSome) ∨
        (∀ found, (log.step c (.marker found)).isSome) ∨ (log.step c .scrolled).isSome ∨ (log.step c .slept).isSome) ∧
      log.call.pause = min (c.basePause * (3 / 2) ^ (log.call.scrolls.takeWhile failed).length) (4 * c.basePause) ∧
      log.waits.filterMap Wait.scroll = log.call.scrolls ∧
      (∀ w ∈ log.waits, w.polls.length ≤ ⌈w.timeout / c.pollInterval⌉₊ ∧ w.sleeps.sum ≤ w.timeout ∧
        ∀ n ∈ w.returned, ((∀ m ∈ w.polls, m ≤ w.previousCount) → w.sleeps.sum = w.timeout) ∧
          (w.polls.find? fun m => w.previousCount < m).or w.polls.getLast? = some n) ∧
      (log.waits.map fun w => w.sleeps.sum).sum ≤ 4 * c.basePause * c.maxTotal := by
  refine ⟨⟨_, fun as log h => log_length_le h⟩, ?_⟩
  intro as log h
  have hbooks := books_run h
  refine ⟨?_, ?_, hbooks.scrolls, ?_, slept_le hbooks⟩
  · by_cases hr : ∃ r, log.call.phase = .returned r
    · exact .inl hr
    · simp only [step, Option.isSome_map]
      exact .inr (ScrollCall.goes_on c (not_exists.1 hr))
  · rw [mul_comm 4]
    exact hbooks.paced
  · intro w hw
    have hk := hbooks.kept w hw
    refine ⟨hk.polls, hk.sleeps, ?_⟩
    intro n hn
    exact ⟨hk.exact (Option.isSome_iff_exists.2 ⟨n, hn⟩), hk.result n hn⟩

end SocialScraper
