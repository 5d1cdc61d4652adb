import Mathlib.Data.List.Basic
/-!
# Runs of a labelled step relation

A system is a relation `R s a t`: the action `a` takes the state `s` to `t`.
`Steps R s as t` is a run, the actions in the order they happened, so a theorem
about every run holds for every interleaving. `Guarded P R` keeps the steps
whose action meets `P` in the state before it.
-/

namespace Lib

variable {σ α : Type*}

/-- From `s`, the actions `as` lead to `t`. -/
inductive Steps (R : σ → α → σ → Prop) : σ → List α → σ → Prop
  | nil (s : σ) : Steps R s [] s
  | snoc {s t u : σ} {as : List α} {a : α} : Steps R s as t → R t a u → Steps R s (as ++ [a]) u

/-- Some run leads from `s` to `t`. -/
def Reachable (R : σ → α → σ → Prop) (s t : σ) : Prop := ∃ as, Steps R s as t

/-- The steps of `R` whose action meets `P` in the state before it. -/
def Guarded (P : σ → α → Prop) (R : σ → α → σ → Prop) (s : σ) (a : α) (t : σ) : Prop := P s a ∧ R s a t

variable {R R' : σ → α → σ → Prop} {P : σ → α → Prop}

namespace Steps

theorem one {s t : σ} {a : α} (h : R s a t) : Steps R s [a] t := .snoc (.nil s) h

theorem trans {s t u : σ} {as bs : List α} (h : Steps R s as t) (h' : Steps R t bs u) :
    Steps R s (as ++ bs) u := by
  induction h' with
  | nil => simpa using h
  | snoc _ hr ih => rw [← List.append_assoc]; exact .snoc ih hr

theorem cons {s t u : σ} {a : α} {as : List α} (h : R s a t) (h' : Steps R t as u) : Steps R s (a :: as) u :=
  (one h).trans h'

theorem mono (hR : ∀ s a t, R s a t → R' s a t) {s t : σ} {as : List α} (h : Steps R s as t) : Steps R' s as t := by
  induction h with
  | nil => exact .nil _
  | snoc _ hr ih => exact .snoc ih (hR _ _ _ hr)

/-- What holds at the start and is kept by every step holds after every run. -/
theorem inv (I : σ → Prop) {s t : σ} {as : List α} (h0 : I s) (hs : ∀ t a u, I t → R t a u → I u)
    (h : Steps R s as t) : I t := by
  induction h with
  | nil => exact h0
  | snoc _ hr ih => exact hs _ _ _ ih hr

/-- A measure that every step makes smaller bounds the length of a run. -/
theorem length_le (m : σ → ℕ) (I : σ → Prop) {s t : σ} {as : List α} (h0 : I s)
    (hs : ∀ t a u, I t → R t a u → I u ∧ m u < m t) (h : Steps R s as t) : as.length + m t ≤ m s := by
  have both : I t ∧ as.length + m t ≤ m s := by
    induction h with
    | nil => exact ⟨h0, by simp⟩
    | snoc _ hr ih =>
      obtain ⟨hi, hle⟩ := ih
      obtain ⟨hi', hlt⟩ := hs _ _ _ hi hr
      refine ⟨hi', ?_⟩
      rw [List.length_append, List.length_singleton]
      omega
  exact both.2

/-- A measure from which each action with `p` takes, and to which each one with `q` adds at most `k`, bounds the actions
with `p` by those with `q`. -/
theorem countP_le (m : σ → ℕ) (p q : α → Bool) (k : ℕ)
    (hs : ∀ t a u, R t a u → m u + (if p a then 1 else 0) ≤ m t + (if q a then k else 0)) {s t : σ} {as : List α}
    (h : Steps R s as t) : as.countP p + m t ≤ m s + k * as.countP q := by
  induction h with
  | nil => simp
  | @snoc _ _ _ a _ hr ih =>
    have hle := hs _ _ _ hr
    rw [List.countP_append, List.countP_append, List.countP_singleton, List.countP_singleton, Nat.mul_add]
    cases hq : q a <;> simp only [hq, if_true, if_false, Bool.false_eq_true] at hle ⊢ <;> omega

end Steps

namespace Reachable

theorem refl (s : σ) : Reachable R s s := ⟨[], .nil s⟩

theorem step {s t u : σ} {a : α} (h : Reachable R s t) (hr : R t a u) : Reachable R s u := by
  obtain ⟨as, h⟩ := h
  exact ⟨_, .snoc h hr⟩

theorem trans {s t u : σ} (h : Reachable R s t) (h' : Reachable R t u) : Reachable R s u := by
  obtain ⟨as, h⟩ := h
  obtain ⟨bs, h'⟩ := h'
  exact ⟨_, h.trans h'⟩

theorem mono (hR : ∀ s a t, R s a t → R' s a t) {s t : σ} (h : Reachable R s t) : Reachable R' s t := by
  obtain ⟨as, h⟩ := h
  exact ⟨as, h.mono hR⟩

/-- The invariant rule, for reachable states. -/
theorem inv (I : σ → Prop) {s t : σ} (h : Reachable R s t) (h0 : I s)
    (hs : ∀ t a u, I t → R t a u → I u) : I t := by
  obtain ⟨as, h⟩ := h
  exact h.inv I h0 hs

/-- A guarded run is a run. -/
theorem of_guarded {s t : σ} (h : Reachable (Guarded P R) s t) : Reachable R s t :=
  h.mono fun _ _ _ hr => hr.2

/-- The invariant rule, where each step may also use an invariant `J` proved before. -/
theorem inv_with (J I : σ → Prop) {s t : σ} (h : Reachable R s t) (hJ : ∀ u, Reachable R s u → J u) (h0 : I s)
    (hs : ∀ t a u, J t → I t → R t a u → I u) : I t := by
  obtain ⟨as, h⟩ := h
  induction h with
  | nil => exact h0
  | snoc h hr ih => exact hs _ _ _ (hJ _ ⟨_, h⟩) ih hr

/-- Forward simulation: where every step is matched by some steps of `Q`, every run is. -/
theorem simulate {τ β : Type*} {Q : τ → β → τ → Prop} (M : σ → τ → Prop) {s s₀ : σ} {t₀ : τ} (h : Reachable R s₀ s)
    (h0 : M s₀ t₀) (hs : ∀ s a s' t, M s t → R s a s' → ∃ t', Reachable Q t t' ∧ M s' t') :
    ∃ t, Reachable Q t₀ t ∧ M s t := by
  obtain ⟨as, h⟩ := h
  induction h with
  | nil => exact ⟨t₀, .refl _, h0⟩
  | snoc _ hr ih =>
    obtain ⟨t, ht, hm⟩ := ih
    obtain ⟨t', ht', hm'⟩ := hs _ _ _ _ hm hr
    exact ⟨t', ht.trans ht', hm'⟩

end Reachable

/-! ## Systems given by a function -/

/-- The relation of a step function; `none` is an action that is not enabled. -/
def Fires (f : σ → α → Option σ) (s : σ) (a : α) (t : σ) : Prop := f s a = some t

/-- Perform the actions in order; `none` as soon as one is not enabled. -/
def exec (f : σ → α → Option σ) (s : σ) : List α → Option σ
  | [] => some s
  | a :: as => (f s a).bind fun t => exec f t as

theorem steps_of_exec {f : σ → α → Option σ} {s t : σ} {as : List α} (h : exec f s as = some t) :
    Steps (Fires f) s as t := by
  induction as generalizing s with
  | nil =>
    simp only [exec, Option.some.injEq] at h
    exact h ▸ .nil s
  | cons a as ih =>
    obtain ⟨u, hu, ht⟩ := Option.bind_eq_some_iff.1 h
    exact .cons hu (ih ht)

theorem reachable_of_exec {f : σ → α → Option σ} {s t : σ} (as : List α) (h : exec f s as = some t) :
    Reachable (Fires f) s t := ⟨as, steps_of_exec h⟩

/-- The step function that refuses the actions without `P`. -/
def guarded (P : σ → α → Bool) (f : σ → α → Option σ) (s : σ) (a : α) : Option σ := if P s a then f s a else none

theorem reachable_guarded {f : σ → α → Option σ} {P : σ → α → Bool} {s t : σ} (as : List α)
    (h : exec (guarded P f) s as = some t) : Reachable (Guarded (fun s a => P s a) (Fires f)) s t :=
  (reachable_of_exec as h).mono fun _ _ _ hr => by
    obtain ⟨hp, hf⟩ := Option.ite_none_right_eq_some.1 hr
    exact ⟨hp, hf⟩

/-- A run that ends in a state with `Q`, by evaluation. -/
theorem exec_ends {f : σ → α → Option σ} {Q : σ → Prop} [DecidablePred Q] {s : σ} (as : List α)
    (h : (exec f s as).any (fun t => decide (Q t)) = true) : ∃ t, exec f s as = some t ∧ Q t := by
  obtain ⟨t, ht, hq⟩ := (Option.any_eq_true _ _).1 h
  exact ⟨t, ht, of_decide_eq_true hq⟩

/-- A run that ends in a state without `Q` refutes "`Q` in every reachable state". -/
theorem refutes_of_exec {f : σ → α → Option σ} {Q : σ → Prop} [DecidablePred Q] {s : σ} (as : List α)
    (h : (exec f s as).any (fun t => decide (¬ Q t)) = true) : ¬ ∀ t, Reachable (Fires f) s t → Q t := by
  obtain ⟨t, ht, hq⟩ := exec_ends as h
  exact fun hall => hq (hall t (reachable_of_exec as ht))

end Lib
