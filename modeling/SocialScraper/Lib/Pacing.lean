import Mathlib.Algebra.Order.Field.Basic
import Mathlib.Algebra.Order.Floor.Semiring
import Mathlib.Tactic.Linarith
import Mathlib.Tactic.Positivity
import Mathlib.Tactic.FieldSimp
/-!
# Paced events

Events that happen freely up to a time `t₀`, at most `n` of them, and from then
on only after a pause of `gap` that each event starts again. `Paced` is the
invariant: `ready - gap` is how far the pauses are accounted for, and every
`t` from `t₀` on bounds the events up to `t`.
-/

namespace Lib

variable {K : Type*} [Field K] [LinearOrder K] [IsStrictOrderedRing K]

/-- The events up to `t`. -/
def upTo (t : K) (events : List K) : ℕ := events.countP fun e => decide (e ≤ t)

omit [Field K] [IsStrictOrderedRing K] in
theorem upTo_le_length (t : K) (events : List K) : upTo t events ≤ events.length := List.countP_le_length

omit [Field K] [IsStrictOrderedRing K] in
theorem upTo_mono {t u : K} (h : t ≤ u) (events : List K) : upTo t events ≤ upTo u events :=
  List.countP_mono_left fun _ _ he => decide_eq_true ((of_decide_eq_true he).trans h)

/-- At most `n` events up to `t₀`, then at most one for each `gap` up to `armed`. -/
structure Paced (n : ℕ) (gap t₀ : K) (events : List K) (armed : K) : Prop where
  start : t₀ ≤ armed
  total : (events.length : K) ≤ n + (armed - t₀) / gap
  bound : ∀ t, t₀ ≤ t → (upTo t events : K) ≤ n + (t - t₀) / gap

namespace Paced

variable {n : ℕ} {gap t₀ armed : K} {events : List K}

theorem init (hg : 0 < gap) (t₀ : K) (hn : events.length ≤ n) : Paced n gap t₀ events t₀ where
  start := le_refl _
  total := by simpa using hn
  bound t ht := by
    have hle : (upTo t events : K) ≤ n := by exact_mod_cast (upTo_le_length t events).trans hn
    have : 0 ≤ (t - t₀) / gap := div_nonneg (sub_nonneg.2 ht) hg.le
    linarith

/-- The pause may start again. -/
theorem rearm (h : Paced n gap t₀ events armed) (hg : 0 < gap) {later : K} (hl : armed ≤ later) :
    Paced n gap t₀ events later where
  start := h.start.trans hl
  total := by
    have : (armed - t₀) / gap ≤ (later - t₀) / gap := div_le_div_of_nonneg_right (by linarith) hg.le
    linarith [h.total]
  bound := h.bound

/-- An event after the pause. -/
theorem push (h : Paced n gap t₀ events armed) (hg : 0 < gap) {e : K} (he : armed + gap ≤ e) :
    Paced n gap t₀ (e :: events) e := by
  have hone : (armed - t₀) / gap + 1 ≤ (e - t₀) / gap := by
    rw [div_add_one hg.ne']
    exact div_le_div_of_nonneg_right (by linarith) hg.le
  have htot : ((e :: events).length : K) ≤ n + (e - t₀) / gap := by
    push_cast [List.length_cons]
    linarith [h.total]
  refine ⟨by linarith [h.start], htot, fun t ht => ?_⟩
  rcases le_or_gt e t with het | het
  · -- The new event counts, and so may all of them.
    have hle : (upTo t (e :: events) : K) ≤ (e :: events).length := by exact_mod_cast upTo_le_length t (e :: events)
    have : (e - t₀) / gap ≤ (t - t₀) / gap := div_le_div_of_nonneg_right (by linarith) hg.le
    linarith
  · have hsame : upTo t (e :: events) = upTo t events := by simp [upTo, het]
    rw [hsame]
    exact h.bound t ht

theorem floor_bound [FloorSemiring K] (h : Paced n gap t₀ events armed) (hg : 0 < gap) {t : K} (ht : t₀ ≤ t) :
    upTo t events ≤ n + ⌊(t - t₀) / gap⌋₊ := by
  have h0 : 0 ≤ (t - t₀) / gap := div_nonneg (sub_nonneg.2 ht) hg.le
  have : upTo t events ≤ ⌊(n : K) + (t - t₀) / gap⌋₊ := Nat.le_floor (h.bound t ht)
  rwa [add_comm (n : K), Nat.floor_add_natCast h0, add_comm] at this

end Paced

end Lib
