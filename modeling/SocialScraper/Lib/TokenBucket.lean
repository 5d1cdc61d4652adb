import Mathlib.Algebra.Order.Field.Basic
import Mathlib.Tactic.Linarith
import Mathlib.Tactic.Ring
/-!
# Token buckets

A bucket holds at most `cap` tokens and gains `rate` of them per unit of time,
computed lazily from the time of the last update. `Account` is what any mix of
refills and unit takes keeps: not only the range of the level, but a bound on
the takes of every window, which needs the level as a potential.
-/

namespace Lib

variable {K : Type*} [Field K] [LinearOrder K] [IsStrictOrderedRing K]

structure Bucket (K : Type*) where
  tokens : K
  updatedAt : K
deriving DecidableEq

namespace Bucket

/-- The level at `now`, at most `cap`. -/
def refill (rate cap now : K) (b : Bucket K) : Bucket K :=
  ⟨min cap (b.tokens + (now - b.updatedAt) * rate), now⟩

def take (b : Bucket K) : Bucket K := { b with tokens := b.tokens - 1 }

/-- The takes of the window `[s, t]`. -/
def inWindow (s t : K) (takes : List K) : ℕ := takes.countP fun g => s ≤ g && g ≤ t

/-- The takes from `s` on. -/
def since (s : K) (takes : List K) : ℕ := takes.countP fun g => decide (s ≤ g)

omit [Field K] [IsStrictOrderedRing K] in
theorem inWindow_le_since (s t : K) (takes : List K) : inWindow s t takes ≤ since s takes :=
  List.countP_mono_left fun g _ h => by simp only [Bool.and_eq_true] at h; exact h.1

omit [Field K] [IsStrictOrderedRing K] in
theorem since_eq_zero {s : K} {takes : List K} (h : ∀ g ∈ takes, g < s) : since s takes = 0 := by
  simpa [since, List.countP_eq_zero] using h

/-- The books of a bucket whose takes happened at the times `takes`. -/
structure Account (rate cap : K) (b : Bucket K) (takes : List K) : Prop where
  nonneg : 0 ≤ b.tokens
  le_cap : b.tokens ≤ cap
  past : ∀ g ∈ takes, g ≤ b.updatedAt
  /-- What was taken since `s` and what is left never exceed a full bucket and the gain since `s`. -/
  budget : ∀ s ≤ b.updatedAt, (since s takes : K) + b.tokens ≤ cap + rate * (b.updatedAt - s)
  window : ∀ s t, s ≤ t → (inWindow s t takes : K) ≤ cap + rate * (t - s)

theorem Account.full {rate cap : K} (hr : 0 ≤ rate) (hc : 0 ≤ cap) (now : K) : Account rate cap ⟨cap, now⟩ [] where
  nonneg := hc
  le_cap := le_refl cap
  past := by simp
  budget s hs := by
    have : 0 ≤ rate * (now - s) := mul_nonneg hr (sub_nonneg.2 hs)
    simpa [since] using this
  window s t hst := by
    have : 0 ≤ rate * (t - s) := mul_nonneg hr (sub_nonneg.2 hst)
    simpa [inWindow] using add_nonneg hc this

theorem Account.refill {rate cap : K} {b : Bucket K} {takes : List K} (h : Account rate cap b takes) (hr : 0 ≤ rate)
    {now : K} (hn : b.updatedAt ≤ now) : Account rate cap (b.refill rate cap now) takes where
  nonneg := le_min (h.nonneg.trans h.le_cap) (add_nonneg h.nonneg (mul_nonneg (sub_nonneg.2 hn) hr))
  le_cap := min_le_left _ _
  past g hg := (h.past g hg).trans hn
  budget s hs := by
    rcases le_or_gt s b.updatedAt with hsu | hsu
    · have hlevel : (b.refill rate cap now).tokens ≤ b.tokens + (now - b.updatedAt) * rate := min_le_right _ _
      calc (since s takes : K) + (b.refill rate cap now).tokens
          ≤ since s takes + b.tokens + (now - b.updatedAt) * rate := by linarith
        _ ≤ cap + rate * (b.updatedAt - s) + (now - b.updatedAt) * rate := by linarith [h.budget s hsu]
        _ = cap + rate * (now - s) := by ring
    · -- Nothing was taken since `s`, and a full bucket is within the budget.
      have h0 : since s takes = 0 := since_eq_zero fun g hg => (h.past g hg).trans_lt hsu
      have hgain : 0 ≤ rate * (now - s) := mul_nonneg hr (sub_nonneg.2 hs)
      calc (since s takes : K) + (b.refill rate cap now).tokens = (b.refill rate cap now).tokens := by simp [h0]
        _ ≤ cap := min_le_left _ _
        _ ≤ cap + rate * (now - s) := by linarith
  window := h.window

theorem Account.take {rate cap : K} {b : Bucket K} {takes : List K} (h : Account rate cap b takes) (hr : 0 ≤ rate)
    (h1 : 1 ≤ b.tokens) : Account rate cap b.take (b.updatedAt :: takes) where
  nonneg := sub_nonneg.2 h1
  le_cap := (sub_le_self _ zero_le_one).trans h.le_cap
  past := by simpa [Bucket.take] using h.past
  budget s hs := by
    have hs' : s ≤ b.updatedAt := hs
    have hnew : since s (b.updatedAt :: takes) = since s takes + 1 := by simp [since, hs']
    have := h.budget s hs'
    rw [hnew]
    push_cast
    simp only [Bucket.take]
    linarith
  window s t hst := by
    by_cases hu : s ≤ b.updatedAt ∧ b.updatedAt ≤ t
    · have hnew : inWindow s t (b.updatedAt :: takes) = inWindow s t takes + 1 := by
        simp [inWindow, hu.1, hu.2]
      have hle : (inWindow s t takes : K) ≤ since s takes := by exact_mod_cast inWindow_le_since s t takes
      have hgain : rate * (b.updatedAt - s) ≤ rate * (t - s) := mul_le_mul_of_nonneg_left (by linarith [hu.2]) hr
      rw [hnew]
      push_cast
      linarith [h.budget s hu.1]
    · have hsame : inWindow s t (b.updatedAt :: takes) = inWindow s t takes := by
        simpa [inWindow, List.countP_cons] using hu
      rw [hsame]
      exact h.window s t hst

end Bucket

end Lib
