import Mathlib.Algebra.Order.Floor.Ring
import Mathlib.Data.Rat.Floor
import SocialScraper.Discovery.ScrollEngine
/-!
# What a scroll result says

Every call of `scroll_until` ends, whatever the page does (`length_le`), and
its result is exact but for one case: a last scroll that is the last one
allowed and reaches the limit is not seen to (`scroll_outcome_iff`).
-/
open Lib

namespace SocialScraper

/-- The count that the page gives, if the action is one. -/
def ScrollAction.count? : ScrollAction → Option ℕ
  | .counted n => some n
  | _ => none

/-- The last card count of a run. -/
def lastCount (as : List ScrollAction) : Option ℕ := (as.filterMap ScrollAction.count?).getLast?

@[simp] theorem lastCount_counted (as : List ScrollAction) (n : ℕ) : lastCount (as ++ [.counted n]) = some n := by
  simp [lastCount, ScrollAction.count?]

theorem lastCount_other (as : List ScrollAction) {a : ScrollAction} (h : a.count? = none) :
    lastCount (as ++ [a]) = lastCount as := by
  simp [lastCount, h]

/-- A scroll that has not increased the count. -/
def failed (scroll : ℕ × ℕ) : Bool := scroll.2 ≤ scroll.1

namespace ScrollCall

variable {c : ScrollConfig} {s s' : ScrollCall} {as : List ScrollAction}

/-! ## Spec lemmas -/

/-- What the condition of the outer loop and the check of the limit lead to. -/
theorem loop_spec (c : ScrollConfig) (s : ScrollCall) :
    s.totalAttempts < c.maxTotal ∧ s.limit ≤ s.previousCount ∧
        s.loop c = { s with phase := .returned ⟨s.totalAttempts, false, true⟩ } ∨
      s.totalAttempts < c.maxTotal ∧ s.previousCount < s.limit ∧ s.loop c = { s with phase := .checking } ∨
      c.maxTotal ≤ s.totalAttempts ∧ s.loop c = { s with phase := .returned ⟨s.totalAttempts, false, false⟩ } := by
  unfold loop
  split_ifs with ht hl
  · exact .inl ⟨ht, hl, rfl⟩
  · exact .inr (.inl ⟨ht, not_le.1 hl, rfl⟩)
  · exact .inr (.inr ⟨not_lt.1 ht, rfl⟩)

@[simp] theorem loop_limit (c : ScrollConfig) (s : ScrollCall) : (s.loop c).limit = s.limit := by
  rcases loop_spec c s with ⟨-, -, h⟩ | ⟨-, -, h⟩ | ⟨-, h⟩ <;> rw [h]

@[simp] theorem judge_limit (c : ScrollConfig) (s : ScrollCall) (n : ℕ) : (s.judge c n).limit = s.limit := by
  unfold judge
  dsimp only
  split_ifs <;> simp

@[simp] theorem wait_limit (c : ScrollConfig) (s : ScrollCall) (elapsed : ℚ) (n : ℕ) : (s.wait c elapsed n).limit = s.limit := by
  unfold wait
  split_ifs <;> simp

/-- What one answer of the page does. -/
inductive Effect (c : ScrollConfig) (s : ScrollCall) : ScrollAction → ScrollCall → Prop
  | first (n : ℕ) : s.phase = .counting → Effect c s (.counted n) ({ s with previousCount := n }.loop c)
  | progress (elapsed : ℚ) (n : ℕ) : s.phase = .polling elapsed → s.previousCount < n →
      Effect c s (.counted n) (s.judge c n)
  | still (elapsed : ℚ) (n : ℕ) : s.phase = .polling elapsed → n ≤ s.previousCount →
      Effect c s (.counted n) (s.wait c elapsed n)
  | marker : s.phase = .checking →
      Effect c s (.marker true) { s with phase := .returned ⟨s.totalAttempts, true, false⟩ }
  | noMarker : s.phase = .checking → Effect c s (.marker false) { s with phase := .scrolling }
  | scrolled : s.phase = .scrolling →
      Effect c s .scrolled ({ s with totalAttempts := s.totalAttempts + 1 }.wait c 0 s.previousCount)
  | slept (elapsed : ℚ) : s.phase = .sleeping elapsed →
      Effect c s .slept { s with phase := .polling (elapsed + min c.pollInterval (s.pause - elapsed)) }

theorem effect_of {a : ScrollAction} (h : s.step c a = some s') : Effect c s a s' := by
  cases a with
  | counted n =>
    cases hp : s.phase <;> simp only [step, hp, reduceCtorEq] at h
    · obtain rfl := Option.some.inj h
      exact .first n hp
    · obtain rfl := Option.some.inj h
      split_ifs with hn
      · exact .progress _ n hp hn
      · exact .still _ n hp (not_lt.1 hn)
  | marker found =>
    cases hp : s.phase <;> simp only [step, hp, reduceCtorEq] at h
    obtain rfl := Option.some.inj h
    cases found with
    | true => exact .marker hp
    | false => exact .noMarker hp
  | scrolled =>
    cases hp : s.phase <;> simp only [step, hp, reduceCtorEq] at h
    obtain rfl := Option.some.inj h
    exact .scrolled hp
  | slept =>
    cases hp : s.phase <;> simp only [step, hp, reduceCtorEq] at h
    obtain rfl := Option.some.inj h
    exact .slept _ hp

theorem limit_kept {limit : ℕ} (h : Reachable (Fires (step c)) (start c limit) s) : s.limit = limit := by
  apply h.inv (fun s => s.limit = limit) rfl
  intro s a s' hs h
  rw [← hs]
  cases effect_of h <;> simp

/-! ## What a run has led to -/

/-- The books of a call that nothing has ended yet. -/
structure Going (c : ScrollConfig) (as : List ScrollAction) (s : ScrollCall) : Prop where
  attempts : s.totalAttempts = as.count .scrolled
  total : s.totalAttempts ≤ c.maxTotal
  stall : s.stallCount = (s.scrolls.takeWhile failed).length
  noStall : s.stallCount < c.maxStall
  noMarker : .marker true ∉ as

/-- The four ways a call returns. -/
inductive Ended (c : ScrollConfig) (as : List ScrollAction) (s : ScrollCall) : ScrollResult → Prop
  | limit (n : ℕ) : Going c as s → s.totalAttempts < c.maxTotal → lastCount as = some n → s.limit ≤ n →
      Ended c as s ⟨s.totalAttempts, false, true⟩
  | marker (n : ℕ) : s.totalAttempts < c.maxTotal → .marker true ∈ as → lastCount as = some n → n < s.limit →
      Ended c as s ⟨s.totalAttempts, true, false⟩
  | stalled (n : ℕ) : s.totalAttempts ≤ c.maxTotal → c.maxStall ≤ (s.scrolls.takeWhile failed).length →
      lastCount as = some n → n < s.limit → Ended c as s ⟨s.totalAttempts, true, false⟩
  | capped (n : ℕ) : Going c as s → s.totalAttempts = c.maxTotal → lastCount as = some n →
      Ended c as s ⟨s.totalAttempts, false, false⟩

/-- What has happened when the call is in the phase. -/
def Happened (c : ScrollConfig) (as : List ScrollAction) (s : ScrollCall) : Prop :=
  match s.phase with
  | .counting => Going c as s
  | .checking | .scrolling =>
    Going c as s ∧ s.totalAttempts < c.maxTotal ∧ s.previousCount < s.limit ∧ lastCount as = some s.previousCount
  | .sleeping _ | .polling _ =>
    Going c as s ∧ s.previousCount < s.limit ∧ ∃ n ≤ s.previousCount, lastCount as = some n
  | .returned r => Ended c as s r ∧ s.totalAttempts = as.count .scrolled

theorem loop_happened (hg : Going c as s) (hlast : lastCount as = some s.previousCount) : Happened c as (s.loop c) := by
  rcases loop_spec c s with ⟨ht, hl, h⟩ | ⟨ht, hl, h⟩ | ⟨ht, h⟩
  · rw [h]
    exact ⟨.limit _ ⟨hg.1, hg.2, hg.3, hg.4, hg.5⟩ ht hlast hl, hg.attempts⟩
  · rw [h]
    exact ⟨⟨hg.1, hg.2, hg.3, hg.4, hg.5⟩, ht, hl, hlast⟩
  · rw [h]
    exact ⟨.capped _ ⟨hg.1, hg.2, hg.3, hg.4, hg.5⟩ (le_antisymm hg.total ht) hlast, hg.attempts⟩

theorem judge_happened (hg : Going c as s) (hl : s.previousCount < s.limit) {n : ℕ} (hlast : lastCount as = some n) :
    Happened c as (s.judge c n) := by
  unfold judge
  dsimp only
  split_ifs with hn hs
  · have hfailed : failed (s.previousCount, n) = true := decide_eq_true hn
    refine ⟨.stalled n hg.total ?_ hlast (hn.trans_lt hl), hg.attempts⟩
    rw [List.takeWhile_cons_of_pos hfailed, List.length_cons, ← hg.stall]
    exact hs
  · have hfailed : failed (s.previousCount, n) = true := decide_eq_true hn
    refine loop_happened ⟨hg.attempts, hg.total, ?_, not_le.1 hs, hg.noMarker⟩ hlast
    show s.stallCount + 1 = _
    rw [List.takeWhile_cons_of_pos hfailed, List.length_cons, ← hg.stall]
  · have hfailed : ¬ failed (s.previousCount, n) = true := fun h => hn (of_decide_eq_true h)
    refine loop_happened ⟨hg.attempts, hg.total, ?_, c.maxStall_pos, hg.noMarker⟩ hlast
    rw [List.takeWhile_cons_of_neg hfailed]
    rfl

theorem wait_happened (hg : Going c as s) (hl : s.previousCount < s.limit) {n : ℕ} (hn : n ≤ s.previousCount)
    (hlast : lastCount as = some n) (elapsed : ℚ) : Happened c as (s.wait c elapsed n) := by
  unfold wait
  split_ifs
  · exact ⟨⟨hg.1, hg.2, hg.3, hg.4, hg.5⟩, hl, n, hn, hlast⟩
  · exact judge_happened hg hl hlast

/-- An answer that is no scroll and no marker leaves the books as they are. -/
theorem Going.other (hg : Going c as s) {a : ScrollAction} (hs : a ≠ .scrolled) (hm : a ≠ .marker true) :
    Going c (as ++ [a]) s where
  attempts := by rw [List.count_append, List.count_singleton, hg.attempts, beq_false_of_ne hs]; rfl
  total := hg.total
  stall := hg.stall
  noStall := hg.noStall
  noMarker h := by
    rcases List.mem_append.1 h with h | h
    · exact hg.noMarker h
    · exact hm (List.mem_singleton.1 h).symm

theorem happened_step {a : ScrollAction} (hh : Happened c as s) (h : s.step c a = some s') : Happened c (as ++ [a]) s' := by
  cases effect_of h with
  | first n hp =>
    rw [Happened, hp] at hh
    have hg := hh.other (a := .counted n) nofun nofun
    exact loop_happened ⟨hg.1, hg.2, hg.3, hg.4, hg.5⟩ (lastCount_counted as n)
  | progress elapsed n hp hn =>
    rw [Happened, hp] at hh
    exact judge_happened (hh.1.other (a := .counted n) nofun nofun) hh.2.1 (lastCount_counted as n)
  | still elapsed n hp hn =>
    rw [Happened, hp] at hh
    exact wait_happened (hh.1.other (a := .counted n) nofun nofun) hh.2.1 hn (lastCount_counted as n) elapsed
  | marker hp =>
    rw [Happened, hp] at hh
    obtain ⟨hg, ht, hl, hlast⟩ := hh
    refine ⟨.marker s.previousCount ht (by simp) ?_ hl, ?_⟩
    · rw [lastCount_other as rfl, hlast]
    · show s.totalAttempts = _
      rw [List.count_append, hg.attempts]
      rfl
  | noMarker hp =>
    rw [Happened, hp] at hh
    obtain ⟨hg, ht, hl, hlast⟩ := hh
    have hg' := hg.other (a := .marker false) nofun nofun
    refine ⟨⟨hg'.1, hg'.2, hg'.3, hg'.4, hg'.5⟩, ht, hl, ?_⟩
    rw [lastCount_other as rfl, hlast]
  | scrolled hp =>
    rw [Happened, hp] at hh
    obtain ⟨hg, ht, hl, hlast⟩ := hh
    have hg' : Going c (as ++ [.scrolled]) { s with totalAttempts := s.totalAttempts + 1 } := by
      refine ⟨?_, ht, hg.stall, hg.noStall, ?_⟩
      · rw [List.count_append, ← hg.attempts]
        rfl
      · intro h
        rcases List.mem_append.1 h with h | h
        · exact hg.noMarker h
        · cases List.mem_singleton.1 h
    exact wait_happened hg' hl le_rfl ((lastCount_other as rfl).trans hlast) 0
  | slept elapsed hp =>
    rw [Happened, hp] at hh
    obtain ⟨hg, hl, n, hn, hlast⟩ := hh
    have hg' := hg.other (a := .slept) nofun nofun
    refine ⟨⟨hg'.1, hg'.2, hg'.3, hg'.4, hg'.5⟩, hl, n, hn, ?_⟩
    rw [lastCount_other as rfl, hlast]

theorem happened_run {limit : ℕ} (h : Steps (Fires (step c)) (start c limit) as s) : Happened c as s := by
  induction h with
  | nil => exact ⟨rfl, Nat.zero_le _, rfl, c.maxStall_pos, List.not_mem_nil⟩
  | snoc _ hr ih => exact happened_step ih hr

/-! ## Every call ends -/

/-- The polls a wait has left. -/
def pollsLeft (c : ScrollConfig) (s : ScrollCall) (elapsed : ℚ) : ℕ := ⌈(s.pause - elapsed) / c.pollInterval⌉₊

/-- The polls of the longest pause. -/
def maxPolls (c : ScrollConfig) : ℕ := ⌈c.basePause * 4 / c.pollInterval⌉₊

/-- A bound on the answers still to come. -/
def remaining (c : ScrollConfig) (s : ScrollCall) : ℕ :=
  let scrolls := (c.maxTotal - s.totalAttempts) * (2 * maxPolls c + 3)
  match s.phase with
  | .counting => scrolls + 1
  | .checking => scrolls
  | .scrolling => scrolls - 1
  | .sleeping elapsed => scrolls + 2 * pollsLeft c s elapsed
  | .polling elapsed => scrolls + 2 * pollsLeft c s elapsed + 1
  | .returned _ => 0

/-- The pause stays within its bound, a wait sleeps only within the pause, and no scroll is begun past the cap. -/
structure Timely (c : ScrollConfig) (s : ScrollCall) : Prop where
  pause : s.pause ≤ c.basePause * 4
  sleeping : ∀ elapsed, s.phase = .sleeping elapsed → elapsed < s.pause
  total : s.phase = .checking ∨ s.phase = .scrolling → s.totalAttempts < c.maxTotal

theorem loop_timely (hp : s.pause ≤ c.basePause * 4) :
    Timely c (s.loop c) ∧ remaining c (s.loop c) ≤ (c.maxTotal - s.totalAttempts) * (2 * maxPolls c + 3) := by
  rcases loop_spec c s with ⟨ht, -, h⟩ | ⟨ht, -, h⟩ | ⟨-, h⟩
  · rw [h]
    exact ⟨⟨hp, nofun, by simp⟩, Nat.zero_le _⟩
  · rw [h]
    exact ⟨⟨hp, nofun, fun _ => ht⟩, le_rfl⟩
  · rw [h]
    exact ⟨⟨hp, nofun, by simp⟩, Nat.zero_le _⟩

theorem judge_timely (c : ScrollConfig) (s : ScrollCall) (n : ℕ) :
    Timely c (s.judge c n) ∧ remaining c (s.judge c n) ≤ (c.maxTotal - s.totalAttempts) * (2 * maxPolls c + 3) := by
  unfold judge
  dsimp only
  split_ifs
  · exact ⟨⟨min_le_right _ _, nofun, by simp⟩, Nat.zero_le _⟩
  · exact loop_timely (min_le_right _ _)
  · have hb := c.basePause_pos
    exact loop_timely (by dsimp only; linarith)

theorem wait_timely (hp : s.pause ≤ c.basePause * 4) (elapsed : ℚ) (n : ℕ) :
    Timely c (s.wait c elapsed n) ∧ remaining c (s.wait c elapsed n) ≤
      (c.maxTotal - s.totalAttempts) * (2 * maxPolls c + 3) + 2 * pollsLeft c s elapsed := by
  unfold wait
  split_ifs with h
  · refine ⟨⟨hp, fun e he => ?_, by simp⟩, le_rfl⟩
    obtain rfl := ScrollPhase.sleeping.inj he
    exact h
  · obtain ⟨ht, hr⟩ := judge_timely c s n
    exact ⟨ht, hr.trans (Nat.le_add_right _ _)⟩

/-- After a sleep there is a poll less. -/
theorem pollsLeft_slept {elapsed : ℚ} (h : elapsed < s.pause) :
    pollsLeft c s (elapsed + min c.pollInterval (s.pause - elapsed)) < pollsLeft c s elapsed := by
  have hq := c.pollInterval_pos
  unfold pollsLeft
  rw [Nat.lt_ceil]
  rcases le_total c.pollInterval (s.pause - elapsed) with hle | hle
  · have hleft : (s.pause - (elapsed + c.pollInterval)) / c.pollInterval = (s.pause - elapsed) / c.pollInterval - 1 := by
      field_simp
      ring
    have hnonneg : 0 ≤ (s.pause - elapsed) / c.pollInterval - 1 := by
      rw [sub_nonneg, one_le_div hq]
      exact hle
    rw [min_eq_left hle, hleft]
    have hceil := Nat.ceil_lt_add_one hnonneg
    linarith
  · rw [min_eq_right hle, add_sub_cancel, sub_self, zero_div, Nat.ceil_zero, Nat.cast_zero]
    exact div_pos (sub_pos.2 h) hq

theorem pollsLeft_le (hp : s.pause ≤ c.basePause * 4) : pollsLeft c s 0 ≤ maxPolls c := by
  unfold pollsLeft maxPolls
  rw [sub_zero]
  exact Nat.ceil_le_ceil (div_le_div_of_nonneg_right hp c.pollInterval_pos.le)

/-- As long as a scroll is allowed, so are the answers it takes. -/
theorem scrolls_pos (ht : s.totalAttempts < c.maxTotal) :
    (c.maxTotal - s.totalAttempts) * (2 * maxPolls c + 3) =
      (c.maxTotal - (s.totalAttempts + 1)) * (2 * maxPolls c + 3) + (2 * maxPolls c + 3) := by
  rw [← Nat.succ_mul]
  congr 1
  omega

theorem remaining_step {a : ScrollAction} (ht : Timely c s) (h : s.step c a = some s') :
    Timely c s' ∧ remaining c s' < remaining c s := by
  cases effect_of h with
  | first n hp =>
    obtain ⟨ht', hr⟩ := loop_timely (s := { s with previousCount := n }) ht.pause
    refine ⟨ht', ?_⟩
    rw [remaining.eq_def c s, hp]
    exact Nat.lt_succ_of_le hr
  | progress elapsed n hp =>
    obtain ⟨ht', hr⟩ := judge_timely c s n
    refine ⟨ht', hr.trans_lt ?_⟩
    rw [remaining.eq_def c s, hp]
    dsimp only
    omega
  | still elapsed n hp =>
    obtain ⟨ht', hr⟩ := wait_timely ht.pause elapsed n
    refine ⟨ht', hr.trans_lt ?_⟩
    rw [remaining.eq_def c s, hp]
    exact Nat.lt_succ_self _
  | marker hp =>
    have hpos := scrolls_pos (ht.total (.inl hp))
    refine ⟨⟨ht.pause, nofun, by simp⟩, ?_⟩
    rw [remaining.eq_def c s, hp]
    show 0 < _
    dsimp only
    omega
  | noMarker hp =>
    have hpos := scrolls_pos (ht.total (.inl hp))
    refine ⟨⟨ht.pause, nofun, fun _ => ht.total (.inl hp)⟩, ?_⟩
    rw [remaining.eq_def c s, hp]
    show _ - 1 < _
    dsimp only
    omega
  | scrolled hp =>
    have hpos := scrolls_pos (ht.total (.inr hp))
    have hpolls := pollsLeft_le (c := c) ht.pause
    obtain ⟨ht', hr⟩ := wait_timely (s := { s with totalAttempts := s.totalAttempts + 1 }) ht.pause 0 s.previousCount
    refine ⟨ht', hr.trans_lt ?_⟩
    rw [remaining.eq_def c s, hp]
    dsimp only [pollsLeft] at hpolls ⊢
    omega
  | slept elapsed hp =>
    have hless := pollsLeft_slept (c := c) (ht.sleeping elapsed hp)
    refine ⟨⟨ht.pause, nofun, by simp⟩, ?_⟩
    rw [remaining.eq_def c s, hp]
    dsimp only [remaining, pollsLeft] at hless ⊢
    omega

/-- However the page behaves, a call gets so many answers at most. -/
theorem run_length_le {limit : ℕ} (h : Steps (Fires (step c)) (start c limit) as s) :
    as.length ≤ c.maxTotal * (2 * maxPolls c + 3) + 1 := by
  have hb := c.basePause_pos
  have hstart : Timely c (start c limit) := ⟨by dsimp only [start]; linarith, nofun, by simp [start]⟩
  have hle := h.length_le (remaining c) (Timely c) hstart fun _ _ _ => remaining_step
  exact (Nat.le_add_right _ _).trans hle

/-- A call that has not returned goes on at any answer to what it has asked. -/
theorem goes_on (c : ScrollConfig) (hr : ∀ r, s.phase ≠ .returned r) :
    (∀ n, (s.step c (.counted n)).isSome) ∨ (∀ found, (s.step c (.marker found)).isSome) ∨
      (s.step c .scrolled).isSome ∨ (s.step c .slept).isSome := by
  cases hp : s.phase with
  | counting => exact .inl fun n => by simp [step, hp]
  | checking => exact .inr (.inl fun found => by simp [step, hp])
  | scrolling => exact .inr (.inr (.inl (by simp [step, hp])))
  | sleeping elapsed => exact .inr (.inr (.inr (by simp [step, hp])))
  | polling elapsed => exact .inl fun n => by simp [step, hp]
  | returned r => exact absurd hp (hr r)

/-! ## The result -/

/-- The result says what the run has been. -/
structure Exact (c : ScrollConfig) (as : List ScrollAction) (s : ScrollCall) (r : ScrollResult) : Prop where
  count : r.scrollCount ≤ c.maxTotal
  limit : r.reachedLimit = true ↔ ∃ n ∈ lastCount as, s.limit ≤ n
  endOfList : r.reachedEndOfList = true ↔ .marker true ∈ as ∨
    c.maxStall ≤ s.scrolls.length ∧ ∀ scroll ∈ s.scrolls.take c.maxStall, scroll.2 ≤ scroll.1
  neither : r.reachedLimit = false → r.reachedEndOfList = false → r.scrollCount = c.maxTotal

/-- The latest scrolls have failed exactly if that many are at the front of the history. -/
theorem failed_iff (l : List (ℕ × ℕ)) (n : ℕ) : n ≤ l.length ∧ (∀ scroll ∈ l.take n, scroll.2 ≤ scroll.1) ↔
    n ≤ (l.takeWhile failed).length := by
  induction l generalizing n with
  | nil => simp
  | cons scroll l ih =>
    cases n with
    | zero => simp
    | succ n =>
      rw [List.take_succ_cons, List.forall_mem_cons, List.length_cons, Nat.succ_le_succ_iff]
      by_cases hf : failed scroll = true
      · rw [List.takeWhile_cons_of_pos hf, List.length_cons, Nat.succ_le_succ_iff, ← ih]
        simp only [of_decide_eq_true hf, true_and]
      · rw [List.takeWhile_cons_of_neg hf]
        simp [show ¬ scroll.2 ≤ scroll.1 from fun h => hf (decide_eq_true h)]

theorem exact_iff {r : ScrollResult} (h : Ended c as s r) (hcount : s.totalAttempts = as.count .scrolled) :
    Exact c as s r ↔ (as.count .scrolled = c.maxTotal → ∀ n ∈ lastCount as, n < s.limit) := by
  rw [← hcount]
  cases h with
  | limit n hg ht hlast hl =>
    refine iff_of_true ⟨ht.le, ?_, ?_, nofun⟩ fun h => absurd h ht.ne
    · exact iff_of_true rfl ⟨n, hlast, hl⟩
    · rw [failed_iff, ← hg.stall]
      exact iff_of_false nofun fun h => h.elim hg.noMarker (not_le.2 hg.noStall)
  | marker n ht hm hlast hl =>
    refine iff_of_true ⟨ht.le, ?_, ?_, nofun⟩ fun h => absurd h ht.ne
    · rw [hlast]
      simpa using hl
    · exact iff_of_true rfl (.inl hm)
  | stalled n ht hs hlast hl =>
    refine iff_of_true ⟨ht, ?_, ?_, nofun⟩ fun _ => ?_
    · rw [hlast]
      simpa using hl
    · rw [failed_iff]
      exact iff_of_true rfl (.inr hs)
    · rw [hlast]
      simpa using hl
  | capped n hg ht hlast =>
    constructor
    · intro hex _ m hm
      exact not_le.1 fun hl => Bool.false_ne_true (hex.limit.2 ⟨m, hm, hl⟩)
    · intro hl
      refine ⟨ht.le, iff_of_false nofun ?_, ?_, fun _ _ => ht⟩
      · rintro ⟨m, hm, hle⟩
        exact absurd (hl ht m hm) (not_lt.2 hle)
      · rw [failed_iff, ← hg.stall]
        exact iff_of_false nofun fun h => h.elim hg.noMarker (not_le.2 hg.noStall)

end ScrollCall

open ScrollCall in
/-- A call always returns, and its result is exact unless the last scroll allowed brings the count to the limit. -/
theorem scroll_outcome_iff (c : ScrollConfig) (limit : ℕ) :
    (∃ bound, ∀ as s, Steps (Fires (step c)) (start c limit) as s → as.length ≤ bound) ∧
    ∀ as s, Steps (Fires (step c)) (start c limit) as s →
      match s.phase with
      | .returned r => Exact c as s r ↔ (as.count .scrolled = c.maxTotal → ∀ n ∈ lastCount as, n < limit)
      | _ => (∀ n, (s.step c (.counted n)).isSome) ∨ (∀ found, (s.step c (.marker found)).isSome) ∨
          (s.step c .scrolled).isSome ∨ (s.step c .slept).isSome := by
  refine ⟨⟨_, fun as s h => run_length_le h⟩, fun as s h => ?_⟩
  have hh := happened_run h
  have hlimit := limit_kept ⟨as, h⟩
  rw [Happened] at hh
  split
  · rename_i r hr
    rw [hr] at hh
    rw [← hlimit]
    exact exact_iff hh.1 hh.2
  · rename_i hr
    exact goes_on c hr

/-- A single scroll is allowed, and it brings ten cards where five are wanted. -/
def lastScroll : List ScrollAction := [.counted 0, .marker false, .scrolled, .slept, .counted 10]

open ScrollCall in
/-- The limit is reached by the last scroll allowed, and the result says that it is not. -/
theorem last_scroll_overlooked : ¬ ∀ (c : ScrollConfig) (limit : ℕ), 1 ≤ limit → ∀ as s r,
    Steps (Fires (step c)) (start c limit) as s → s.phase = .returned r → Exact c as s r := by
  intro hall
  let c := ScrollConfig.new {} none none none (some 1) nofun nofun
  obtain ⟨s, hs, hr, hl⟩ := exec_ends (f := step c) (s := start c 5)
    (Q := fun s => s.phase = .returned ⟨1, false, false⟩ ∧ s.limit = 5) lastScroll (by decide +kernel)
  have hex := hall c 5 (by decide) lastScroll s _ (steps_of_exec hs) hr
  exact Bool.false_ne_true (hex.limit.2 ⟨10, by decide, by omega⟩)

end SocialScraper
