import Mathlib.Algebra.GroupWithZero.Nat
import Mathlib.Data.List.Basic
import Mathlib.Logic.Function.Basic
/-!
# Tokens on stations

A system moves tokens between places, and only counts how often a token is
found in each. `Placed` says every token is at exactly one station, once.
-/

namespace Lib

variable {ι σ : Type*} [DecidableEq ι] [DecidableEq σ]

/-- The tokens `ts` are where `station` says, once each, and there are no others. -/
def Placed (ts : List ι) (station : ι → σ) (at_ : ι → σ → ℕ) : Prop :=
  ∀ a x, at_ a x = if a ∈ ts ∧ station a = x then 1 else 0

/-- One occurrence of `a` goes from `p` to `q`. -/
def Moves (a : ι) (p q : σ) (at_ at' : ι → σ → ℕ) : Prop :=
  ∀ b x, at' b x + (if b = a ∧ x = p then 1 else 0) = at_ b x + (if b = a ∧ x = q then 1 else 0)

/-- How often the token is found on the stations `xs`. -/
def total (xs : List σ) (at_ : ι → σ → ℕ) (a : ι) : ℕ := (xs.map (at_ a)).sum

/-- A move takes one occurrence out of the stations it leaves and adds one to those it enters. -/
theorem Moves.total {at_ at' : ι → σ → ℕ} {a : ι} {p q : σ} (hm : Moves a p q at_ at') {xs : List σ} (hx : xs.Nodup) (b : ι) :
    Lib.total xs at' b + (if b = a ∧ p ∈ xs then 1 else 0) = Lib.total xs at_ b + (if b = a ∧ q ∈ xs then 1 else 0) := by
  induction xs with
  | nil => simp [Lib.total]
  | cons x xs ih =>
    obtain ⟨hn, hx⟩ := List.nodup_cons.1 hx
    have hb := hm b x
    have ih := ih hx
    simp only [Lib.total, List.map_cons, List.sum_cons, List.mem_cons] at ih ⊢
    -- The station at the head is none of the others.
    have split : ∀ y, (if b = a ∧ (y = x ∨ y ∈ xs) then 1 else 0) =
        (if b = a ∧ x = y then 1 else 0) + if b = a ∧ y ∈ xs then 1 else 0 := by
      intro y
      by_cases hy : y = x
      · subst hy
        simp [hn]
      · simp [hy, Ne.symm hy]
    rw [split p, split q]
    omega

namespace Placed

variable {ts : List ι} {station : ι → σ} {at_ at' : ι → σ → ℕ} {a : ι} {p q : σ}

theorem found (h : Placed ts station at_) (hp : 0 < at_ a p) : a ∈ ts ∧ station a = p := by
  rw [h a p] at hp
  split_ifs at hp with hc
  · exact hc
  · omega

theorem le_one (h : Placed ts station at_) (a : ι) (x : σ) : at_ a x ≤ 1 := by
  rw [h a x]
  split_ifs <;> omega

theorem move (h : Placed ts station at_) (hm : Moves a p q at_ at') (hp : 0 < at_ a p) (hpq : p ≠ q) :
    Placed ts (Function.update station a q) at' := by
  obtain ⟨ha, hs⟩ := h.found hp
  intro b x
  have hb := hm b x
  rw [h b x] at hb
  by_cases hba : b = a
  · subst hba
    simp only [ha, true_and, hs, Function.update_self] at hb ⊢
    by_cases hxp : x = p <;> by_cases hxq : x = q <;> simp_all [eq_comm]
  · simpa [hba] using hb

end Placed

end Lib
