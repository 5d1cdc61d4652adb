import Mathlib.Data.List.Nodup
import Mathlib.Data.List.Perm.Subperm
import Mathlib.Data.List.TakeWhile
/-!
# Overtaking

Elements come in one order and leave in another. In `Overtaken k l o` each
element of `o` has left behind at most `k` of those that were ahead of it in
`l`. A place where `k` others can be held meanwhile lets no more than these be
overtaken (`Overtaken.leave`), and places one behind the other add up
(`Overtaken.trans`).
-/

namespace Lib

variable {α : Type*} [DecidableEq α]

/-- The elements before the first `a`. -/
def ahead (l : List α) (a : α) : List α := l.takeWhile (· ≠ a)

/-- In the order `o` each element comes before at most `k` of those that are ahead of it in `l`. -/
def Overtaken (k : ℕ) (l o : List α) : Prop :=
  ∀ p a q, o = p ++ a :: q → ((ahead l a).countP fun b => !p.contains b) ≤ k

variable {l o o' p r : List α} {a b : α} {j k : ℕ}

theorem ahead_subset : ahead l a ⊆ l := (List.takeWhile_sublist _).subset

theorem ne_of_ahead (h : b ∈ ahead l a) : b ≠ a := by
  have hb := List.mem_takeWhile_imp h
  simpa using hb

theorem ahead_append (h : a ∈ l) : ahead (l ++ r) a = ahead l a := by
  induction l with
  | nil => cases h
  | cons b l ih =>
    by_cases hb : b = a
    · simp [ahead, hb]
    · have ha : a ∈ l := (List.mem_cons.1 h).resolve_left (Ne.symm hb)
      simpa [ahead, hb] using ih ha

theorem ahead_self (h : a ∉ p) : ahead (p ++ a :: r) a = p := by
  induction p with
  | nil => simp [ahead]
  | cons b p ih =>
    have hb : b ≠ a := fun he => h (he ▸ List.mem_cons_self)
    have hp := ih fun hmem => h (List.mem_cons_of_mem _ hmem)
    simpa [ahead, hb] using hp

namespace Overtaken

theorem nil : Overtaken k l [] := by
  intro p a q h
  cases p <;> cases h

theorem of_prefix (h : Overtaken k l o) (hp : o' <+: o) : Overtaken k l o' := by
  obtain ⟨r, rfl⟩ := hp
  intro p a q he
  apply h p a (q ++ r)
  rw [he, List.append_assoc, List.cons_append]

theorem snoc (h : Overtaken k l o) (ha : ((ahead l a).countP fun b => !o.contains b) ≤ k) : Overtaken k l (o ++ [a]) := by
  intro p b q he
  rcases List.eq_nil_or_concat q with rfl | ⟨q', c, rfl⟩
  · obtain ⟨rfl, hab⟩ := List.append_inj' he rfl
    obtain rfl := List.singleton_inj.1 hab
    exact ha
  · rw [List.concat_eq_append, ← List.cons_append, ← List.append_assoc] at he
    exact h p b q' (List.append_inj' he rfl).1

/-- What comes later is not ahead of what has left. -/
theorem grow (h : Overtaken k l o) (hs : o ⊆ l) : Overtaken k (l ++ r) o := by
  intro p a q he
  rw [ahead_append (hs (by rw [he]; simp))]
  exact h p a q he

/-- One of those that have entered leaves, where `r` are held besides it. -/
theorem leave (h : Overtaken k l o) (hn : l.Nodup) (hp : p <+: l) (hperm : p.Perm (o ++ a :: r)) (hr : r.length ≤ k) :
    Overtaken k l (o ++ [a]) := by
  apply h.snoc
  have ha : a ∈ p := hperm.symm.subset (by simp)
  have hrest : (ahead l a).filter (fun b => !o.contains b) ⊆ r := by
    intro b hb
    obtain ⟨hahead, hout⟩ := List.mem_filter.1 hb
    obtain ⟨rest, hl⟩ := hp
    rw [← hl, ahead_append ha] at hahead
    have hmem := hperm.subset (ahead_subset hahead)
    have hne := ne_of_ahead hahead
    have hnot : b ∉ o := by simpa using hout
    rcases List.mem_append.1 hmem with ho | hmem
    · exact absurd ho hnot
    · exact (List.mem_cons.1 hmem).resolve_left hne
  have hnodup : ((ahead l a).filter fun b => !o.contains b).Nodup := (hn.sublist (List.takeWhile_sublist _)).filter _
  calc ((ahead l a).countP fun b => !o.contains b)
    _ = ((ahead l a).filter fun b => !o.contains b).length := List.countP_eq_length_filter
    _ ≤ r.length := (List.subperm_of_subset hnodup hrest).length_le
    _ ≤ k := hr

/-- What is ahead of an element in `l` is either ahead of it in `o` as well, or was overtaken in `o`. -/
theorem trans (h : Overtaken k l o) (h' : Overtaken j o o') (hl : l.Nodup) (ho : o.Nodup) (hs : o' ⊆ o) :
    Overtaken (k + j) l o' := by
  intro p a q he
  obtain ⟨p', q', hp'⟩ := List.append_of_mem (hs (show a ∈ o' by rw [he]; simp))
  have hnot : a ∉ p' := by
    rw [hp'] at ho
    exact fun hmem => (List.nodup_append.1 ho).2.2 a hmem a List.mem_cons_self rfl
  have hk := h p' a q' hp'
  have hj := h' p a q he
  rw [hp', ahead_self hnot, List.countP_eq_length_filter] at hj
  let late := (ahead l a).filter fun b => !p.contains b
  have hparts : late.length = (late.filter p'.contains).length + late.countP fun b => !p'.contains b := by
    rw [List.length_eq_countP_add_countP p'.contains, List.countP_eq_length_filter]
    simp
  have hfirst : (late.countP fun b => !p'.contains b) ≤ k := List.filter_sublist.countP_le.trans hk
  have hsecond : (late.filter p'.contains).length ≤ j := by
    refine (List.subperm_of_subset ?_ ?_).length_le.trans hj
    · exact ((hl.sublist (List.takeWhile_sublist _)).filter _).filter _
    · intro b hb
      obtain ⟨hlate, hmem⟩ := List.mem_filter.1 hb
      exact List.mem_filter.2 ⟨by simpa using hmem, (List.mem_filter.1 hlate).2⟩
  rw [List.countP_eq_length_filter]
  exact hparts.trans_le (by omega)

end Overtaken

end Lib
