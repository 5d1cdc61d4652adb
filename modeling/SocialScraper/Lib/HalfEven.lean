import Mathlib.Algebra.Order.Round
import Mathlib.Data.Rat.Floor
import Mathlib.Tactic.Linarith
import Mathlib.Tactic.NormNum
import Mathlib.Tactic.Positivity
/-!
# Rounding half to even

Rounding to a number of decimal digits, from halfway to the even digit. What is
rounded moves by half a unit of its last digit at most, and crosses no integer
(`abs_sub_roundTo`, `le_roundTo`, `roundTo_le`); so a share in percent stays
between 0 and 100.
-/

namespace Lib

variable {α : Type*} [Field α] [LinearOrder α] [IsStrictOrderedRing α] [FloorRing α]

/-- The nearest integer; halfway between two, the even one. -/
def roundHalfEven (x : α) : ℤ := if 2 * Int.fract x = 1 then ⌊x⌋ + ⌊x⌋ % 2 else round x

/-- Rounded to so many decimal digits. -/
def roundTo (digits : ℕ) (x : α) : α := roundHalfEven (x * 10 ^ digits) / 10 ^ digits

theorem abs_sub_roundHalfEven (x : α) : |x - roundHalfEven x| ≤ 1 / 2 := by
  unfold roundHalfEven
  split_ifs with h
  · have hfract : x - ⌊x⌋ = 1 / 2 := by
      rw [Int.self_sub_floor, eq_div_iff two_ne_zero, mul_comm]
      exact h
    have hsplit : x - ((⌊x⌋ + ⌊x⌋ % 2 : ℤ) : α) = 1 / 2 - ((⌊x⌋ % 2 : ℤ) : α) := by
      rw [← hfract, Int.cast_add, sub_add_eq_sub_sub]
    rw [hsplit]
    rcases Int.emod_two_eq_zero_or_one ⌊x⌋ with heven | hodd
    · rw [heven]
      norm_num
    · rw [hodd]
      norm_num
  · exact abs_sub_round x

/-- An integer that is at most half above another is no greater. -/
theorem le_of_le_add_half {m n : ℤ} (h : (m : α) ≤ n + 1 / 2) : m ≤ n := by
  have hlt : (m : α) < (n + 1 : ℤ) := by
    push_cast
    linarith
  exact Int.lt_add_one_iff.1 (Int.cast_lt.1 hlt)

theorem le_roundHalfEven {n : ℤ} {x : α} (h : n ≤ x) : n ≤ roundHalfEven x := by
  have hnear := (abs_le.1 (abs_sub_roundHalfEven x)).2
  apply le_of_le_add_half (α := α)
  linarith

theorem roundHalfEven_le {n : ℤ} {x : α} (h : x ≤ n) : roundHalfEven x ≤ n := by
  have hnear := (abs_le.1 (abs_sub_roundHalfEven x)).1
  apply le_of_le_add_half (α := α)
  linarith

variable (digits : ℕ)

theorem abs_sub_roundTo (x : α) : |x - roundTo digits x| ≤ 1 / 2 / 10 ^ digits := by
  have hpos : (0 : α) < 10 ^ digits := by positivity
  have hscale : x - roundTo digits x = (x * 10 ^ digits - roundHalfEven (x * 10 ^ digits)) / 10 ^ digits := by
    rw [roundTo, sub_div, mul_div_cancel_right₀ x hpos.ne']
  rw [hscale, abs_div, abs_of_pos hpos]
  exact div_le_div_of_nonneg_right (abs_sub_roundHalfEven _) hpos.le

theorem le_roundTo {n : ℕ} {x : α} (h : n ≤ x) : n ≤ roundTo digits x := by
  have hpos : (0 : α) < 10 ^ digits := by positivity
  have hscaled : ((n * 10 ^ digits : ℕ) : ℤ) ≤ roundHalfEven (x * 10 ^ digits) := by
    apply le_roundHalfEven
    push_cast
    exact mul_le_mul_of_nonneg_right h hpos.le
  rw [roundTo, le_div_iff₀ hpos]
  exact_mod_cast (Int.cast_le (R := α)).2 hscaled

theorem roundTo_le {n : ℕ} {x : α} (h : x ≤ n) : roundTo digits x ≤ n := by
  have hpos : (0 : α) < 10 ^ digits := by positivity
  have hscaled : roundHalfEven (x * 10 ^ digits) ≤ ((n * 10 ^ digits : ℕ) : ℤ) := by
    apply roundHalfEven_le
    push_cast
    exact mul_le_mul_of_nonneg_right h hpos.le
  rw [roundTo, div_le_iff₀ hpos]
  exact_mod_cast (Int.cast_le (R := α)).2 hscaled

example : (roundTo 2 (200 / 3 : ℚ), roundTo 2 (1 / 8 : ℚ)) = (6667 / 100, 12 / 100) := by decide +kernel

/-! ## Shares in percent -/

/-- The share in percent, rounded; of nothing it is zero. -/
def percentage (part total : α) : α := roundTo digits (if total = 0 then 0 else part / total * 100)

variable {part total : α}

theorem abs_sub_percentage : |part / total * 100 - percentage digits part total| ≤ 1 / 2 / 10 ^ digits := by
  unfold percentage
  split_ifs with h
  · rw [h, div_zero, zero_mul]
    exact abs_sub_roundTo digits 0
  · exact abs_sub_roundTo digits _

theorem percentage_nonneg (hp : 0 ≤ part) (ht : 0 ≤ total) : 0 ≤ percentage digits part total := by
  have hshare : ((0 : ℕ) : α) ≤ if total = 0 then 0 else part / total * 100 := by
    split_ifs
    · exact Nat.cast_zero.le
    · rw [Nat.cast_zero]
      positivity
  simpa [percentage] using le_roundTo digits hshare

theorem percentage_le (h : part ≤ total) (ht : 0 ≤ total) : percentage digits part total ≤ 100 := by
  have hshare : (if total = 0 then 0 else part / total * 100) ≤ ((100 : ℕ) : α) := by
    split_ifs
    · positivity
    · have hone := div_le_one_of_le₀ h ht
      push_cast
      linarith
  simpa [percentage] using roundTo_le digits hshare

end Lib
