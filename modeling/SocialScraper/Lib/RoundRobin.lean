import Mathlib.Data.List.Basic
/-!
# Round robin

Whoever is at the head of a queue has its turn and goes to the end. Over any
number of turns, from any point on, each has its share (`turns_share`).
-/

namespace Lib

variable {α : Type*}

/-- The next `n` turns. -/
def turns : List α → ℕ → List α
  | [], _ => []
  | _, 0 => []
  | a :: q, n + 1 => a :: turns (q ++ [a]) n

theorem turns_zero (q : List α) : turns q 0 = [] := by cases q <;> rfl

/-- Once the first of the queue have had their turns, they stand behind the others. -/
theorem turns_append (p q : List α) (n : ℕ) : turns (p ++ q) (p.length + n) = p ++ turns (q ++ p) n := by
  induction p generalizing q with
  | nil => rw [List.nil_append, List.append_nil, List.length_nil, Nat.zero_add, List.nil_append]
  | cons a p ih =>
    have hlen : (a :: p).length + n = p.length + n + 1 := by
      rw [List.length_cons]
      omega
    have hq : p ++ q ++ [a] = p ++ (q ++ [a]) := List.append_assoc p q [a]
    rw [hlen, List.cons_append, turns, hq, ih, List.append_assoc, List.singleton_append, List.cons_append]

/-- After a whole round the queue is as it was. -/
theorem turns_rounds (q : List α) (k n : ℕ) : turns q (k * q.length + n) = (List.replicate k q).flatten ++ turns q n := by
  induction k with
  | zero => rw [Nat.zero_mul, Nat.zero_add, List.replicate_zero, List.flatten_nil, List.nil_append]
  | succ k ih =>
    have hround := turns_append q [] (k * q.length + n)
    have hsum : q.length + (k * q.length + n) = (k + 1) * q.length + n := by
      rw [Nat.succ_mul]
      omega
    rw [List.append_nil, List.nil_append, hsum, ih] at hround
    rw [hround, List.replicate_succ, List.flatten_cons, List.append_assoc]

theorem turns_take (q : List α) {n : ℕ} (h : n ≤ q.length) : turns q n = q.take n := by
  have hsplit := turns_append (q.take n) (q.drop n) 0
  rw [List.take_append_drop, List.length_take, Nat.min_eq_left h, Nat.add_zero, turns_zero, List.append_nil] at hsplit
  exact hsplit

/-- Everyone has a turn for each of its places in each whole round, and in the round begun at most as many more. -/
theorem turns_share [BEq α] (q : List α) (hq : q ≠ []) (n : ℕ) (a : α) :
    ∃ extra ≤ q.count a, (n % q.length = 0 → extra = 0) ∧ (turns q n).count a = n / q.length * q.count a + extra := by
  have hpos : 0 < q.length := List.length_pos_iff.2 hq
  have hturns := turns_rounds q (n / q.length) (n % q.length)
  rw [Nat.div_add_mod' n q.length, turns_take q (Nat.le_of_lt (Nat.mod_lt n hpos))] at hturns
  refine ⟨(q.take (n % q.length)).count a, (List.take_sublist _ q).count_le a, fun hmod => ?_, ?_⟩
  · rw [hmod, List.take_zero, List.count_nil]
  · rw [hturns, List.count_append, List.count_flatten, List.map_replicate, List.sum_replicate_nat]

end Lib
