import SocialScraper.Lib.Runs
import SocialScraper.Python
/-!
# The scroll engine

`app.discovery.google_maps.scroll_engine` as a machine that stops at each await.
What the page answers there is the action, so a run is a behaviour of the page.
Arithmetic is exact.
-/
open Lib

namespace SocialScraper

/-- The settings of the scrolling, within their `Field` bounds. -/
structure ScrollSettings where
  scrollPauseSeconds : ℚ := 6 / 5
  scrollMaxAttemptsWithoutProgress : ℕ := 4
  scrollMaxTotalAttempts : ℕ := 60
  scrollPollIntervalSeconds : ℚ := 1 / 4
  pauseSeconds_gt : 0 < scrollPauseSeconds := by decide +kernel
  maxAttempts_ge : 1 ≤ scrollMaxAttemptsWithoutProgress := by decide +kernel
  maxTotal_ge : 1 ≤ scrollMaxTotalAttempts := by decide +kernel
  pollInterval_gt : 0 < scrollPollIntervalSeconds := by decide +kernel

/-- What `__init__` fixes. -/
structure ScrollConfig where
  basePause : ℚ
  maxStall : ℕ
  maxTotal : ℕ
  pollInterval : ℚ
  basePause_pos : 0 < basePause
  maxStall_pos : 0 < maxStall
  maxTotal_pos : 0 < maxTotal
  pollInterval_pos : 0 < pollInterval

/-- The configuration of `ScrollEngine(page, ...)`, whose keyword arguments are not negative. -/
def ScrollConfig.new (settings : ScrollSettings) (basePauseSeconds pollIntervalSeconds : Option ℚ)
    (maxAttemptsWithoutProgress maxTotalAttempts : Option ℕ) (hb : ∀ q, basePauseSeconds = some q → 0 ≤ q)
    (hp : ∀ q, pollIntervalSeconds = some q → 0 ≤ q) : ScrollConfig where
  basePause := orDefault basePauseSeconds settings.scrollPauseSeconds
  maxStall := orDefault maxAttemptsWithoutProgress settings.scrollMaxAttemptsWithoutProgress
  maxTotal := orDefault maxTotalAttempts settings.scrollMaxTotalAttempts
  pollInterval := orDefault pollIntervalSeconds settings.scrollPollIntervalSeconds
  basePause_pos := orDefault_pos settings.pauseSeconds_gt fun q h hne => lt_of_le_of_ne (hb q h) (Ne.symm hne)
  maxStall_pos := orDefault_pos settings.maxAttempts_ge fun _ _ => Nat.pos_of_ne_zero
  maxTotal_pos := orDefault_pos settings.maxTotal_ge fun _ _ => Nat.pos_of_ne_zero
  pollInterval_pos := orDefault_pos settings.pollInterval_gt fun q h hne => lt_of_le_of_ne (hp q h) (Ne.symm hne)

structure ScrollResult where
  scrollCount : ℕ
  reachedEndOfList : Bool
  reachedLimit : Bool
deriving DecidableEq

inductive ScrollPhase where
  /-- In the first `_card_count()`. -/
  | counting
  /-- In `_is_end_of_list()`. -/
  | checking
  /-- In the scroll of the feed. -/
  | scrolling
  /-- In the sleep of `_wait_for_progress_or_timeout`, with its `elapsed` before. -/
  | sleeping (elapsed : ℚ)
  /-- In the `_card_count()` behind the sleep. -/
  | polling (elapsed : ℚ)
  | returned (result : ScrollResult)
deriving DecidableEq

inductive ScrollAction where
  | counted (n : ℕ)
  /-- Whether the end-of-list marker is there. -/
  | marker (found : Bool)
  | scrolled
  | slept
deriving DecidableEq

/-- A call of `scroll_until`. `scrolls` is history: the counts before and after each scroll, the latest first. -/
structure ScrollCall where
  limit : ℕ
  phase : ScrollPhase := .counting
  stallCount : ℕ := 0
  totalAttempts : ℕ := 0
  pause : ℚ
  previousCount : ℕ := 0
  scrolls : List (ℕ × ℕ) := []
deriving DecidableEq

namespace ScrollCall

variable (c : ScrollConfig)

def start (limit : ℕ) : ScrollCall := { limit := limit, pause := c.basePause }

/-- From the condition of the outer loop on. -/
def loop (s : ScrollCall) : ScrollCall :=
  if s.totalAttempts < c.maxTotal then
    if s.previousCount ≥ s.limit then { s with phase := .returned ⟨s.totalAttempts, false, true⟩ }
    else { s with phase := .checking }
  else { s with phase := .returned ⟨s.totalAttempts, false, false⟩ }

/-- Behind `_wait_for_progress_or_timeout`. -/
def judge (s : ScrollCall) (currentCount : ℕ) : ScrollCall :=
  let s := { s with scrolls := (s.previousCount, currentCount) :: s.scrolls }
  if currentCount ≤ s.previousCount then
    let s := { s with stallCount := s.stallCount + 1, pause := min (s.pause * (3 / 2)) (c.basePause * 4) }
    if s.stallCount ≥ c.maxStall then { s with phase := .returned ⟨s.totalAttempts, true, false⟩ }
    else { s with previousCount := currentCount }.loop c
  else { s with stallCount := 0, pause := c.basePause, previousCount := currentCount }.loop c

/-- The condition of the loop of `_wait_for_progress_or_timeout`. -/
def wait (s : ScrollCall) (elapsed : ℚ) (currentCount : ℕ) : ScrollCall :=
  if elapsed < s.pause then { s with phase := .sleeping elapsed } else s.judge c currentCount

def step (s : ScrollCall) : ScrollAction → Option ScrollCall
  | .counted n =>
    match s.phase with
    | .counting => some ({ s with previousCount := n }.loop c)
    | .polling elapsed => some (if n > s.previousCount then s.judge c n else s.wait c elapsed n)
    | _ => none
  | .marker found =>
    match s.phase with
    | .checking =>
      some { s with phase := if found then .returned ⟨s.totalAttempts, true, false⟩ else .scrolling }
    | _ => none
  | .scrolled =>
    match s.phase with
    | .scrolling => some ({ s with totalAttempts := s.totalAttempts + 1 }.wait c 0 s.previousCount)
    | _ => none
  | .slept =>
    match s.phase with
    | .sleeping elapsed =>
      let interval := min c.pollInterval (s.pause - elapsed)
      some { s with phase := .polling (elapsed + interval) }
    | _ => none

end ScrollCall

end SocialScraper
