import Mathlib.Algebra.Order.Ring.Nat
import Mathlib.Data.List.Basic
/-!
# Workers in a list

A pool of workers is a list of what each one is doing; worker `i` acts by
`workers.set i`. `slot` puts the list around the worker, and the counts follow.
-/

namespace Lib

variable {α : Type*}

/-- The list around its element `i`. -/
theorem slot {l : List α} {i : ℕ} {x : α} (h : l[i]? = some x) :
    ∃ u v, l = u ++ x :: v ∧ ∀ y, l.set i y = u ++ y :: v := by
  obtain ⟨hi, rfl⟩ := List.getElem?_eq_some_iff.1 h
  refine ⟨l.take i, l.drop (i + 1), by simp, fun y => ?_⟩
  rw [List.set_eq_take_append_cons_drop, if_pos hi]

/-- What a worker's action does to a count, without subtraction. -/
theorem countP_slot (p : α → Bool) {l : List α} {i : ℕ} {x : α} (h : l[i]? = some x) (y : α) :
    (l.set i y).countP p + (if p x then 1 else 0) = l.countP p + (if p y then 1 else 0) := by
  obtain ⟨u, v, hl, hs⟩ := slot h
  rw [hs, hl]
  simp only [List.countP_append, List.countP_cons]
  omega

/-- What a worker's action does to a sum over all of them, without subtraction. -/
theorem sum_slot (w : α → ℕ) {l : List α} {i : ℕ} {x : α} (h : l[i]? = some x) (y : α) :
    ((l.set i y).map w).sum + w x = (l.map w).sum + w y := by
  obtain ⟨u, v, hl, hs⟩ := slot h
  rw [hs, hl]
  simp only [List.map_append, List.map_cons, List.sum_append, List.sum_cons]
  omega

/-- What the workers hold between them, and one of them for itself. -/
theorem filterMap_slot {β : Type*} (f : α → Option β) {l : List α} {i : ℕ} {x : α} (h : l[i]? = some x) :
    ∃ rest, rest.length + 1 ≤ l.length ∧ (l.filterMap f).Perm ((f x).toList ++ rest) ∧
      ∀ y, ((l.set i y).filterMap f).Perm ((f y).toList ++ rest) := by
  obtain ⟨u, v, hl, hs⟩ := slot h
  have hperm : ∀ y, ((u ++ y :: v).filterMap f).Perm ((f y).toList ++ (u.filterMap f ++ v.filterMap f)) := by
    intro y
    rw [List.filterMap_append, ← List.append_assoc]
    cases hy : f y with
    | none => simp [hy]
    | some b => simp [hy, List.perm_middle]
  refine ⟨u.filterMap f ++ v.filterMap f, ?_, ?_, ?_⟩
  · have hu := List.length_filterMap_le f u
    have hv := List.length_filterMap_le f v
    rw [hl, List.length_append, List.length_append, List.length_cons]
    omega
  · rw [hl]
    exact hperm x
  · intro y
    rw [hs]
    exact hperm y

/-- What a slot holds after a write is the new value or what it held. -/
theorem slot_after {l : List α} {i k : ℕ} {x y : α} (h : (l.set k y)[i]? = some x) :
    (i = k ∧ x = y) ∨ l[i]? = some x := by
  rw [List.getElem?_set] at h
  split_ifs at h with hk
  · exact .inl ⟨hk.symm, (Option.some.inj h).symm⟩
  · exact .inr h

/-- What the slots hold after a write to one of them. -/
theorem slot_iff {l : List α} {i k : ℕ} {x y z : α} (hk : l[k]? = some z) :
    (l.set k y)[i]? = some x ↔ i = k ∧ x = y ∨ i ≠ k ∧ l[i]? = some x := by
  obtain ⟨hlt, -⟩ := List.getElem?_eq_some_iff.1 hk
  by_cases hi : i = k
  · subst hi
    simp [List.getElem?_set_self hlt, eq_comm]
  · simp [List.getElem?_set_ne (Ne.symm hi), hi]

theorem countP_pos_of_slot {p : α → Bool} {l : List α} {i : ℕ} {x : α} (h : l[i]? = some x) (hx : p x) :
    0 < l.countP p := List.countP_pos_iff.2 ⟨x, List.mem_of_getElem? h, hx⟩

/-- What the list holds at most once is at one place. -/
theorem slot_unique {p : α → Bool} {l : List α} (h : l.countP p ≤ 1) {i j : ℕ} {x y : α} (hi : l[i]? = some x)
    (hx : p x) (hj : l[j]? = some y) (hy : p y) : i = j := by
  induction l generalizing i j with
  | nil => simp at hi
  | cons z l ih =>
    rw [List.countP_cons] at h
    rcases i with _ | i <;> rcases j with _ | j
    · rfl
    · obtain rfl : z = x := by simpa using hi
      have := countP_pos_of_slot (l := l) (by simpa using hj) hy
      simp only [hx, if_true] at h
      omega
    · obtain rfl : z = y := by simpa using hj
      have := countP_pos_of_slot (l := l) (by simpa using hi) hx
      simp only [hy, if_true] at h
      omega
    · exact congrArg (· + 1) (ih (by omega) (by simpa using hi) (by simpa using hj))

/-- What is at one place at most, the list holds at most once. -/
theorem countP_le_one {p : α → Bool} {l : List α}
    (h : ∀ (i j : ℕ) x y, l[i]? = some x → p x → l[j]? = some y → p y → i = j) : l.countP p ≤ 1 := by
  induction l with
  | nil => simp
  | cons z l ih =>
    have hl : l.countP p ≤ 1 := ih fun i j x y hi hx hj hy =>
      Nat.succ.inj (h (i + 1) (j + 1) x y (by simpa using hi) hx (by simpa using hj) hy)
    rw [List.countP_cons]
    split_ifs with hz
    · -- The head has it, so nothing behind the head does.
      have hnone : l.countP p = 0 := by
        apply List.countP_eq_zero.2
        intro y hy hp
        obtain ⟨j, hj⟩ := List.mem_iff_getElem?.1 hy
        exact absurd (h 0 (j + 1) z y (by simp) hz (by simpa using hj) hp) (by omega)
      omega
    · omega

theorem forall_slot {p : α → Prop} {l : List α} (h : ∀ x ∈ l, p x) {i : ℕ} {y : α} (hy : p y) :
    ∀ x ∈ l.set i y, p x := by
  intro x hx
  rcases List.mem_or_eq_of_mem_set hx with hm | rfl
  · exact h x hm
  · exact hy

/-- A predicate that comes to hold at one element, of a list that has it once, is counted once more. -/
theorem countP_change {l : List α} (hn : l.Nodup) {a : α} (ha : a ∈ l) {p q : α → Bool} (hp : p a = false)
    (h : ∀ b ∈ l, b ≠ a → q b = p b) : l.countP q = l.countP p + if q a then 1 else 0 := by
  induction l with
  | nil => cases ha
  | cons b l ih =>
    obtain ⟨hb, hn⟩ := List.nodup_cons.1 hn
    rw [List.countP_cons, List.countP_cons]
    rcases List.mem_cons.1 ha with rfl | ha
    · have hrest : l.countP q = l.countP p :=
        List.countP_congr fun x hx => by rw [h x (List.mem_cons_of_mem _ hx) fun he => hb (he ▸ hx)]
      simp [hrest, hp]
    · have hba : b ≠ a := fun he => hb (he ▸ ha)
      rw [ih hn ha fun x hx => h x (List.mem_cons_of_mem b hx), h b List.mem_cons_self hba]
      omega

end Lib
