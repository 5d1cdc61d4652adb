import Mathlib.Data.Finset.Card
import Mathlib.Data.List.Nodup
/-!
# First occurrences

The elements of a list that repeat no key of an element before them, in order.
An element may be without a key; it repeats nothing.
-/

namespace Lib

variable {α κ : Type*} [DecidableEq κ]

/-- The elements that repeat neither a key of `seen` nor one of an element before them. -/
def firstsFrom (key : α → Option κ) (seen : List κ) : List α → List α
  | [] => []
  | a :: l =>
    match key a with
    | none => a :: firstsFrom key seen l
    | some k => if k ∈ seen then firstsFrom key seen l else a :: firstsFrom key (k :: seen) l

def firsts (key : α → Option κ) (l : List α) : List α := firstsFrom key [] l

variable {key : α → Option κ}

theorem firstsFrom_none {a : α} (h : key a = none) (seen : List κ) (l : List α) :
    firstsFrom key seen (a :: l) = a :: firstsFrom key seen l := by
  rw [firstsFrom, h]

theorem firstsFrom_seen {a : α} {k : κ} (h : key a = some k) {seen : List κ} (hk : k ∈ seen) (l : List α) :
    firstsFrom key seen (a :: l) = firstsFrom key seen l := by
  simp only [firstsFrom, h, if_pos hk]

theorem firstsFrom_new {a : α} {k : κ} (h : key a = some k) {seen : List κ} (hk : k ∉ seen) (l : List α) :
    firstsFrom key seen (a :: l) = a :: firstsFrom key (k :: seen) l := by
  simp only [firstsFrom, h, if_neg hk]

/-- Only the keys that have been seen count, not their order. -/
theorem firstsFrom_congr {seen seen' : List κ} (h : ∀ k, k ∈ seen ↔ k ∈ seen') (l : List α) :
    firstsFrom key seen l = firstsFrom key seen' l := by
  induction l generalizing seen seen' with
  | nil => rfl
  | cons a l ih =>
    cases hk : key a with
    | none => rw [firstsFrom_none hk, firstsFrom_none hk, ih h]
    | some k =>
      by_cases hs : k ∈ seen
      · rw [firstsFrom_seen hk hs, firstsFrom_seen hk ((h k).1 hs), ih h]
      · rw [firstsFrom_new hk hs, firstsFrom_new hk fun hs' => hs ((h k).2 hs')]
        refine congrArg (a :: ·) (ih fun k' => ?_)
        rw [List.mem_cons, List.mem_cons, h k']

theorem firstsFrom_append (seen : List κ) (l l' : List α) :
    firstsFrom key seen (l ++ l') = firstsFrom key seen l ++ firstsFrom key (l.filterMap key ++ seen) l' := by
  induction l generalizing seen with
  | nil => rfl
  | cons a l ih =>
    rw [List.cons_append]
    cases hk : key a with
    | none => rw [firstsFrom_none hk, firstsFrom_none hk, ih, List.filterMap_cons_none hk, List.cons_append]
    | some k =>
      rw [List.filterMap_cons_some hk]
      by_cases hs : k ∈ seen
      · rw [firstsFrom_seen hk hs, firstsFrom_seen hk hs, ih]
        refine congrArg (_ ++ ·) (firstsFrom_congr (fun k' => ?_) l')
        simp only [List.mem_append, List.mem_cons]
        constructor
        · exact fun h => h.imp .inr id
        · rintro ((rfl | h) | h)
          · exact .inr hs
          · exact .inl h
          · exact .inr h
      · rw [firstsFrom_new hk hs, firstsFrom_new hk hs, ih, List.cons_append]
        refine congrArg (fun r => a :: (_ ++ r)) (firstsFrom_congr (fun k' => ?_) l')
        simp only [List.mem_append, List.mem_cons]
        tauto

theorem firsts_append (l l' : List α) : firsts key (l ++ l') = firsts key l ++ firstsFrom key (l.filterMap key) l' := by
  rw [firsts, firstsFrom_append, List.append_nil]
  rfl

theorem firstsFrom_sublist (seen : List κ) (l : List α) : (firstsFrom key seen l).Sublist l := by
  induction l generalizing seen with
  | nil => exact List.Sublist.slnil
  | cons a l ih =>
    cases hk : key a with
    | none =>
      rw [firstsFrom_none hk]
      exact (ih seen).cons_cons a
    | some k =>
      by_cases hs : k ∈ seen
      · rw [firstsFrom_seen hk hs]
        exact (ih seen).cons a
      · rw [firstsFrom_new hk hs]
        exact (ih _).cons_cons a

theorem firsts_sublist (l : List α) : (firsts key l).Sublist l := firstsFrom_sublist [] l

/-- No key is lost but those already seen. -/
theorem mem_keys_firstsFrom {seen : List κ} {l : List α} {k : κ} :
    k ∈ (firstsFrom key seen l).filterMap key ↔ k ∈ l.filterMap key ∧ k ∉ seen := by
  induction l generalizing seen with
  | nil => simp [firstsFrom]
  | cons a l ih =>
    cases hk : key a with
    | none => rw [firstsFrom_none hk, List.filterMap_cons_none hk, List.filterMap_cons_none hk, ih]
    | some k' =>
      rw [List.filterMap_cons_some hk]
      by_cases hs : k' ∈ seen
      · rw [firstsFrom_seen hk hs, ih, List.mem_cons]
        constructor
        · exact fun h => ⟨.inr h.1, h.2⟩
        · rintro ⟨rfl | h, hn⟩
          · exact absurd hs hn
          · exact ⟨h, hn⟩
      · rw [firstsFrom_new hk hs, List.filterMap_cons_some hk, List.mem_cons, List.mem_cons, ih, List.mem_cons]
        by_cases he : k = k'
        · simp [he, hs]
        · simp [he]

theorem mem_keys_firsts {l : List α} {k : κ} : k ∈ (firsts key l).filterMap key ↔ k ∈ l.filterMap key := by
  rw [firsts, mem_keys_firstsFrom]
  simp only [List.not_mem_nil, not_false_eq_true, and_true]

/-- An element behind the list brings its key if that is new. -/
theorem keys_firsts_concat {a : α} {k : κ} (h : key a = some k) (l : List α) : (firsts key (l ++ [a])).filterMap key =
    if k ∈ (firsts key l).filterMap key then (firsts key l).filterMap key else (firsts key l).filterMap key ++ [k] := by
  rw [firsts_append, List.filterMap_append]
  split_ifs with hk
  · rw [firstsFrom_seen h (mem_keys_firsts.1 hk)]
    exact List.append_nil _
  · rw [firstsFrom_new h (mt mem_keys_firsts.2 hk), List.filterMap_cons_some h]
    rfl

/-- No key is there twice. -/
theorem firstsFrom_nodup (seen : List κ) (l : List α) : ((firstsFrom key seen l).filterMap key).Nodup := by
  induction l generalizing seen with
  | nil => exact List.nodup_nil
  | cons a l ih =>
    cases hk : key a with
    | none =>
      rw [firstsFrom_none hk, List.filterMap_cons_none hk]
      exact ih seen
    | some k =>
      by_cases hs : k ∈ seen
      · rw [firstsFrom_seen hk hs]
        exact ih seen
      · rw [firstsFrom_new hk hs, List.filterMap_cons_some hk]
        refine List.nodup_cons.2 ⟨fun h => ?_, ih _⟩
        exact (mem_keys_firstsFrom.1 h).2 List.mem_cons_self

theorem firsts_nodup (l : List α) : ((firsts key l).filterMap key).Nodup := firstsFrom_nodup [] l

/-- A list whose keys are all new and different is as it was. -/
theorem firstsFrom_eq_self {seen : List κ} {l : List α} (hn : (l.filterMap key).Nodup)
    (hs : ∀ k ∈ l.filterMap key, k ∉ seen) : firstsFrom key seen l = l := by
  induction l generalizing seen with
  | nil => rfl
  | cons a l ih =>
    cases hk : key a with
    | none =>
      rw [List.filterMap_cons_none hk] at hn hs
      rw [firstsFrom_none hk, ih hn hs]
    | some k =>
      rw [List.filterMap_cons_some hk] at hn hs
      obtain ⟨hnew, hn⟩ := List.nodup_cons.1 hn
      rw [firstsFrom_new hk (hs k List.mem_cons_self), ih hn]
      intro k' hk' hmem
      rcases List.mem_cons.1 hmem with rfl | hmem
      · exact hnew hk'
      · exact hs k' (List.mem_cons_of_mem _ hk') hmem

theorem firsts_eq_self_iff {l : List α} : firsts key l = l ↔ (l.filterMap key).Nodup := by
  constructor
  · intro h
    rw [← h]
    exact firsts_nodup l
  · exact fun h => firstsFrom_eq_self h (by simp)

theorem firsts_concat (l : List α) (a : α) :
    firsts key (l ++ [a]) = firsts key l ++ if key a = none ∨ key a ∉ l.map key then [a] else [] := by
  rw [firsts_append]
  cases hk : key a with
  | none => rw [firstsFrom_none hk, if_pos (.inl rfl), firstsFrom]
  | some k =>
    have hmem : k ∈ l.filterMap key ↔ some k ∈ l.map key := by
      rw [List.mem_filterMap, List.mem_map]
    by_cases hs : k ∈ l.filterMap key
    · rw [firstsFrom_seen hk hs, if_neg, firstsFrom]
      simp [hmem.1 hs]
    · rw [firstsFrom_new hk hs, if_pos (.inr (mt hmem.2 hs)), firstsFrom]

/-- The first element of a kind is not lost, if the kind is known from the key. -/
theorem find?_firsts {p : α → Bool} (h : ∀ a b, key a = key b → p a = p b) (l : List α) :
    (firsts key l).find? p = l.find? p := by
  induction l using List.reverseRecOn with
  | nil => rfl
  | append_singleton l a ih =>
    rw [firsts_concat, List.find?_append, List.find?_append, ih]
    split_ifs with hnew
    · rfl
    · -- One before it has its key, so it is not the first of its kind.
      have hkey : key a ∈ l.map key := by
        by_contra hn
        exact hnew (.inr hn)
      obtain ⟨b, hb, hba⟩ := List.mem_map.1 hkey
      cases ha : p a with
      | false => rw [List.find?_singleton, ha]; rfl
      | true =>
        have hsome : (l.find? p).isSome := List.find?_isSome.2 ⟨b, hb, (h b a hba).trans ha⟩
        obtain ⟨c, hc⟩ := Option.isSome_iff_exists.1 hsome
        rw [hc]
        rfl

/-- What comes behind the elements that repeat nothing finds the same keys as behind the list. -/
theorem firsts_firsts_append (l l' : List α) : firsts key (firsts key l ++ l') = firsts key (l ++ l') := by
  rw [firsts_append, firsts_append, firsts_eq_self_iff.2 (firsts_nodup l)]
  exact congrArg _ (firstsFrom_congr (fun _ => mem_keys_firsts) l')

/-- An element is among them if it has no key, or no element before its position has that key. -/
theorem firsts_eq_filter (l : List α) : firsts key l =
    (l.zipIdx.filter fun p => key p.1 = none ∨ key p.1 ∉ (l.take p.2).map key).map Prod.fst := by
  induction l using List.reverseRecOn with
  | nil => rfl
  | append_singleton l a ih =>
    have hbefore : ∀ p ∈ l.zipIdx, (l ++ [a]).take p.2 = l.take p.2 := by
      intro p hp
      exact List.take_append_of_le_length (Nat.le_of_lt (by simpa using List.snd_lt_of_mem_zipIdx hp))
    rw [firsts_concat, ih, List.zipIdx_append, List.filter_append, List.map_append]
    congr 1
    · apply congrArg (List.map Prod.fst)
      apply List.filter_congr
      intro p hp
      rw [hbefore p hp]
    · rw [List.zipIdx_singleton, List.filter_singleton]
      simp only [Nat.zero_add, List.take_left', Bool.cond_decide]
      split_ifs <;> rfl

theorem firstsFrom_eq_nil_iff {seen : List κ} {l : List α} :
    firstsFrom key seen l = [] ↔ ∀ a ∈ l, ∃ k ∈ key a, k ∈ seen := by
  induction l with
  | nil => simp [firstsFrom]
  | cons a l ih =>
    rw [List.forall_mem_cons]
    cases hk : key a with
    | none => simp [firstsFrom_none hk]
    | some k =>
      by_cases hs : k ∈ seen
      · rw [firstsFrom_seen hk hs, ih]
        simp [hs]
      · rw [firstsFrom_new hk hs]
        simp [hs]

/-- Where every element has a key, there is one element for each key. -/
theorem firsts_length {l : List α} (h : ∀ a ∈ l, (key a).isSome) :
    (firsts key l).length = (l.filterMap key).toFinset.card := by
  have hsame : (l.filterMap key).toFinset = ((firsts key l).filterMap key).toFinset := by
    ext k
    rw [List.mem_toFinset, List.mem_toFinset, mem_keys_firsts]
  have hall : ∀ l' : List α, (∀ a ∈ l', (key a).isSome) → (l'.filterMap key).length = l'.length := by
    intro l' hl'
    induction l' with
    | nil => rfl
    | cons a l' ih =>
      obtain ⟨k, hk⟩ := Option.isSome_iff_exists.1 (hl' a List.mem_cons_self)
      rw [List.filterMap_cons_some hk, List.length_cons, List.length_cons, ih fun b hb => hl' b (List.mem_cons_of_mem _ hb)]
  rw [hsame, List.toFinset_card_of_nodup (firsts_nodup l), hall _ fun a ha => h a ((firsts_sublist l).subset ha)]

/-- Cutting a list off before its repetitions are dropped costs nothing if the part that is left has none,
or if the part cut off has nothing else. -/
theorem firsts_take_iff (l : List α) (n : ℕ) : firsts key (l.take n) = (firsts key l).take n ↔
    ((l.take n).filterMap key).Nodup ∨ ∀ a ∈ l.drop n, ∃ k ∈ key a, k ∈ (l.take n).filterMap key := by
  have hsplit : firsts key l = firsts key (l.take n) ++ firstsFrom key ((l.take n).filterMap key) (l.drop n) := by
    rw [← firsts_append, List.take_append_drop]
  have hle : (firsts key (l.take n)).length ≤ (l.take n).length := (firsts_sublist _).length_le
  rw [← firsts_eq_self_iff, ← firstsFrom_eq_nil_iff, hsplit, List.take_append]
  have hwhole : (firsts key (l.take n)).take n = firsts key (l.take n) :=
    List.take_of_length_le (hle.trans (List.length_take_le n l))
  rw [hwhole, eq_comm, List.append_right_eq_self, List.take_eq_nil_iff]
  constructor
  · rintro (h | h)
    · left
      apply (firsts_sublist _).eq_of_length_le
      have hn := List.length_take_le n l
      omega
    · exact .inr h
  · rintro (h | h)
    · rw [h]
      by_cases hl : l.length ≤ n
      · right
        rw [List.drop_of_length_le hl]
        rfl
      · left
        rw [List.length_take]
        omega
    · exact .inr h

end Lib
