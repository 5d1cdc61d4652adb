import SocialScraper.Lib.Runs
/-!
# Runs with numbered threads

An action starts a thread under some name, or is one of a thread that was
started before; threads are numbered in the order of their start. `restrict p`
keeps the actions of the threads whose names meet `p`, with the threads numbered
anew. Two runs with the same restriction differ only in the other threads, so
non-interference is a statement about such pairs: `exec_restrict` gives it from
what one step does.
-/

namespace Lib

variable {α β σ : Type*}

structure Threaded (α β : Type*) where
  /-- The name of the thread that is started, or the number of the thread that acts. -/
  owner : α → β ⊕ ℕ
  /-- The same action, of the thread with another number. -/
  renumber : ℕ → α → α
  owner_renumber : ∀ {a : α} {k : ℕ}, owner a = .inr k → ∀ n, owner (renumber n a) = .inr n
  renumber_renumber : ∀ (n m : ℕ) (a : α), renumber n (renumber m a) = renumber n a

/-! ## Ranks -/

/-- How many of the names before the place `k` meet `p`. -/
def rankOf (p : β → Bool) (names : List β) (k : ℕ) : ℕ := (names.take k).countP p

theorem rank_eq_length (p : β → Bool) (names : List β) (k : ℕ) : rankOf p names k = ((names.take k).filter p).length :=
  List.countP_eq_length_filter

theorem filter_take_rank (p : β → Bool) (names : List β) (k : ℕ) :
    (names.filter p).take (rankOf p names k) = (names.take k).filter p := by
  have hsplit : names.filter p = (names.take k).filter p ++ (names.drop k).filter p := by
    rw [← List.filter_append, List.take_append_drop]
  rw [rank_eq_length, hsplit, List.take_left]

theorem take_cons_drop {l : List β} {k : ℕ} {b : β} (hk : l[k]? = some b) : l = l.take k ++ b :: l.drop (k + 1) := by
  obtain ⟨hlt, rfl⟩ := List.getElem?_eq_some_iff.1 hk
  rw [← List.drop_eq_getElem_cons hlt, List.take_append_drop]

theorem set_cons_drop {l : List β} {k : ℕ} {b : β} (hk : l[k]? = some b) (b' : β) :
    l.set k b' = l.take k ++ b' :: l.drop (k + 1) := by
  obtain ⟨hlt, -⟩ := List.getElem?_eq_some_iff.1 hk
  rw [List.set_eq_take_append_cons_drop, if_pos hlt]

theorem filter_split {p : β → Bool} {l : List β} {k : ℕ} {b : β} (hk : l[k]? = some b) (hb : p b = true) :
    l.filter p = (l.take k).filter p ++ b :: (l.drop (k + 1)).filter p := by
  conv_lhs => rw [take_cons_drop hk, List.filter_append, List.filter_cons_of_pos hb]

/-- A name that meets `p` is found at its rankOf among those that do. -/
theorem getElem?_filter_rank {p : β → Bool} {names : List β} {k : ℕ} {b : β} (hk : names[k]? = some b) (hb : p b = true) :
    (names.filter p)[rankOf p names k]? = some b := by
  rw [filter_split hk hb, rank_eq_length, List.getElem?_append_right (Nat.le_refl _)]
  simp

theorem rank_rank {p q : β → Bool} (hpq : ∀ b, p b = true → q b = true) (names : List β) (k : ℕ) :
    rankOf p (names.filter q) (rankOf q names k) = rankOf p names k := by
  rw [rankOf, filter_take_rank, List.countP_filter, rankOf]
  apply List.countP_congr
  intro b _
  simpa using hpq b

/-- A place that meets `p` before and after it is filled anew. -/
theorem filter_set_rank {p : β → Bool} {l : List β} {k : ℕ} {b b' : β} (hk : l[k]? = some b) (hb : p b = true)
    (hb' : p b' = true) : (l.set k b').filter p = (l.filter p).set (rankOf p l k) b' := by
  rw [set_cons_drop hk, filter_split hk hb, rank_eq_length, List.filter_append, List.filter_cons_of_pos hb',
    List.set_append_right _ _ (Nat.le_refl _)]
  simp

/-- A place that fails `p` before and after it is filled anew. -/
theorem filter_set_other {p : β → Bool} {l : List β} {k : ℕ} {b b' : β} (hk : l[k]? = some b) (hb : p b = false)
    (hb' : p b' = false) : (l.set k b').filter p = l.filter p := by
  conv_rhs => rw [take_cons_drop hk, List.filter_append, List.filter_cons_of_neg (by simp [hb])]
  rw [set_cons_drop hk, List.filter_append, List.filter_cons_of_neg (by simp [hb'])]

namespace Threaded

variable (T : Threaded α β)

/-- The name of the thread of an action, where `names` are the threads before it. -/
def name (names : List β) (a : α) : Option β :=
  match T.owner a with
  | .inl b => some b
  | .inr k => names[k]?

/-- The threads after an action. -/
def next (names : List β) (a : α) : List β :=
  match T.owner a with
  | .inl b => names ++ [b]
  | .inr _ => names

/-- The action, where only the threads with `p` are counted. -/
def move (p : β → Bool) (names : List β) (a : α) : α :=
  match T.owner a with
  | .inl _ => a
  | .inr k => T.renumber (rankOf p names k) a

/-- The actions of the threads with `p`; before them are the threads `names`. -/
def restrict (p : β → Bool) (names : List β) : List α → List α
  | [] => []
  | a :: as =>
    if (T.name names a).any p then T.move p names a :: restrict p (T.next names a) as
    else restrict p (T.next names a) as

variable {T}

theorem name_start {a : α} {b : β} (h : T.owner a = .inl b) (names : List β) : T.name names a = some b := by
  simp only [name, h]

theorem name_acts {a : α} {k : ℕ} (h : T.owner a = .inr k) (names : List β) : T.name names a = names[k]? := by
  simp only [name, h]

theorem next_start {a : α} {b : β} (h : T.owner a = .inl b) (names : List β) : T.next names a = names ++ [b] := by
  simp only [next, h]

theorem next_acts {a : α} {k : ℕ} (h : T.owner a = .inr k) (names : List β) : T.next names a = names := by
  simp only [next, h]

theorem move_start {a : α} {b : β} (h : T.owner a = .inl b) (p : β → Bool) (names : List β) : T.move p names a = a := by
  simp only [move, h]

theorem move_acts {a : α} {k : ℕ} (h : T.owner a = .inr k) (p : β → Bool) (names : List β) :
    T.move p names a = T.renumber (rankOf p names k) a := by
  simp only [move, h]

theorem restrict_keep {p : β → Bool} {names : List β} {a : α} {b : β} (h : T.name names a = some b) (hb : p b = true)
    (as : List α) : T.restrict p names (a :: as) = T.move p names a :: T.restrict p (T.next names a) as := by
  rw [restrict, h, Option.any_some, if_pos hb]

theorem restrict_drop {p : β → Bool} {names : List β} {a : α} (h : ∀ b, T.name names a = some b → p b = false)
    (as : List α) : T.restrict p names (a :: as) = T.restrict p (T.next names a) as := by
  have hany : ¬ (T.name names a).any p = true := by
    intro ha
    obtain ⟨b, hb, hp⟩ := (Option.any_eq_true _ _).1 ha
    rw [h b hb] at hp
    cases hp
  rw [restrict, if_neg hany]

theorem dropped_of_not_kept {p : β → Bool} {names : List β} {a : α} (h : ¬ ∃ b, T.name names a = some b ∧ p b = true) :
    ∀ b, T.name names a = some b → p b = false := by
  intro b hb
  cases hp : p b with
  | true => exact absurd ⟨b, hb, hp⟩ h
  | false => rfl

/-- A kept action keeps its name among the threads that are kept. -/
theorem name_move {p : β → Bool} {names : List β} {a : α} {b : β} (h : T.name names a = some b) (hb : p b = true) :
    T.name (names.filter p) (T.move p names a) = some b := by
  cases ho : T.owner a with
  | inl b' => rw [move_start ho, name_start ho, ← h, name_start ho]
  | inr k =>
    rw [name_acts ho] at h
    rw [move_acts ho, name_acts (T.owner_renumber ho _)]
    exact getElem?_filter_rank h hb

theorem next_move {p : β → Bool} {names : List β} {a : α} {b : β} (h : T.name names a = some b) (hb : p b = true) :
    T.next (names.filter p) (T.move p names a) = (T.next names a).filter p := by
  cases ho : T.owner a with
  | inl b' =>
    rw [name_start ho] at h
    obtain rfl := Option.some.inj h
    rw [move_start ho, next_start ho, next_start ho, List.filter_append, List.filter_singleton, hb]
    rfl
  | inr k => rw [move_acts ho, next_acts (T.owner_renumber ho _), next_acts ho]

theorem move_move {p q : β → Bool} (hpq : ∀ b, p b = true → q b = true) (names : List β) (a : α) :
    T.move p (names.filter q) (T.move q names a) = T.move p names a := by
  cases ho : T.owner a with
  | inl b => rw [move_start ho, move_start ho, move_start ho]
  | inr k => rw [move_acts ho, move_acts (T.owner_renumber ho _), move_acts ho, T.renumber_renumber, rank_rank hpq]

/-- An action that is left out adds no thread that is kept. -/
theorem next_filter {p : β → Bool} {names : List β} {a : α} (h : ∀ b, T.name names a = some b → p b = false) :
    (T.next names a).filter p = names.filter p := by
  cases ho : T.owner a with
  | inl b =>
    have hb := h b (name_start ho names)
    rw [next_start ho, List.filter_append, List.filter_singleton, hb]
    exact List.append_nil _
  | inr k => rw [next_acts ho]

/-- To keep some threads and then fewer of them is to keep the fewer at once. -/
theorem restrict_restrict {p q : β → Bool} (hpq : ∀ b, p b = true → q b = true) (names : List β) (as : List α) :
    T.restrict p (names.filter q) (T.restrict q names as) = T.restrict p names as := by
  induction as generalizing names with
  | nil => rfl
  | cons a as ih =>
    by_cases hq : ∃ b, T.name names a = some b ∧ q b = true
    · obtain ⟨b, hname, hq⟩ := hq
      rw [restrict_keep hname hq]
      cases hp : p b with
      | true =>
        rw [restrict_keep (name_move hname hq) hp, restrict_keep hname hp, move_move hpq, next_move hname hq, ih]
      | false =>
        have hdrop : ∀ b', T.name names a = some b' → p b' = false := by
          intro b' hb'
          rwa [← Option.some.inj (hname.symm.trans hb')]
        have hdrop' : ∀ b', T.name (names.filter q) (T.move q names a) = some b' → p b' = false := by
          intro b' hb'
          rwa [← Option.some.inj ((name_move hname hq).symm.trans hb')]
        rw [restrict_drop hdrop', restrict_drop hdrop, next_move hname hq, ih]
    · have hdropq := dropped_of_not_kept hq
      have hdropp : ∀ b, T.name names a = some b → p b = false := by
        intro b hb
        cases hpb : p b with
        | true => exact absurd (hpq b hpb) (by simp [hdropq b hb])
        | false => rfl
      rw [restrict_drop hdropq, restrict_drop hdropp, ← ih, next_filter hdropq]

/-- A run, seen through `M` by what is left of it when only the threads with `p`
are kept, where the kept actions are matched and the other ones are not seen. -/
theorem exec_restrict {f : σ → α → Option σ} {p : β → Bool} (M : List β → σ → σ → Prop)
    (hkeep : ∀ names s t a b s', M names s t → f s a = some s' → T.name names a = some b → p b = true →
      ∃ t', f t (T.move p names a) = some t' ∧ M (T.next names a) s' t')
    (hdrop : ∀ names s t a s', M names s t → f s a = some s' → (∀ b, T.name names a = some b → p b = false) →
      M (T.next names a) s' t)
    {names : List β} {s t s' : σ} {as : List α} (hM : M names s t) (h : exec f s as = some s') :
    ∃ names' t', exec f t (T.restrict p names as) = some t' ∧ M names' s' t' := by
  induction as generalizing names s t with
  | nil =>
    obtain rfl := Option.some.inj h
    exact ⟨names, t, rfl, hM⟩
  | cons a as ih =>
    obtain ⟨s₁, hs₁, h⟩ := Option.bind_eq_some_iff.1 h
    by_cases hp : ∃ b, T.name names a = some b ∧ p b = true
    · obtain ⟨b, hname, hp⟩ := hp
      obtain ⟨t₁, ht₁, hM₁⟩ := hkeep _ _ _ _ _ _ hM hs₁ hname hp
      obtain ⟨names', t', ht', hM'⟩ := ih hM₁ h
      refine ⟨names', t', ?_, hM'⟩
      rw [restrict_keep hname hp, exec, ht₁, Option.bind_some, ht']
    · have hdropped := dropped_of_not_kept hp
      rw [restrict_drop hdropped]
      exact ih (hdrop _ _ _ _ _ hM hs₁ hdropped) h

end Threaded

end Lib
