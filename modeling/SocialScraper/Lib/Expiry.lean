import Mathlib.Data.List.Induction
import Mathlib.Logic.Function.Basic
import Mathlib.Order.Lattice
/-!
# Maps whose entries expire

The map a history of operations leaves holds every entry with its deadline, and
forgets nothing: what is over is only not read any more. A store that drops
entries that are over, at whatever moment, reads the same from then on.
-/

namespace Lib.Expiry

variable {κ α τ : Type*}

/-- An operation on the map; a value is stored with its deadline. -/
inductive Op (κ α τ : Type*)
  | get (k : κ)
  | set (k : κ) (v : α) (deadline : τ)
  | delete (k : κ)
  | clear

variable [DecidableEq κ]

/-- The operation decides what is under the key. -/
def Op.writes (k : κ) : Op κ α τ → Bool
  | .get _ => false
  | .set k' _ _ => k' = k
  | .delete k' => k' = k
  | .clear => true

/-- What the operation makes of the map; reading leaves it alone. -/
def Op.effect (m : κ → Option (α × τ)) : Op κ α τ → κ → Option (α × τ)
  | .get _ => m
  | .set k v d => Function.update m k (some (v, d))
  | .delete k => Function.update m k none
  | .clear => fun _ => none

/-- The map after a history, from the empty one. -/
def after (ops : List (Op κ α τ)) : κ → Option (α × τ) := ops.foldl Op.effect fun _ => none

/-- What is under the key at the time: a value whose deadline has not passed. -/
def live [LinearOrder τ] (m : κ → Option (α × τ)) (now : τ) (k : κ) : Option α :=
  (m k).bind fun p => if p.2 < now then none else some p.1

/-! ## The map a history leaves -/

theorem after_concat (ops : List (Op κ α τ)) (op : Op κ α τ) : after (ops ++ [op]) = op.effect (after ops) := by
  unfold after
  rw [List.foldl_append]
  rfl

theorem effect_of_not_writes {op : Op κ α τ} {k : κ} (h : op.writes k = false) (m : κ → Option (α × τ)) :
    op.effect m k = m k := by
  cases op with
  | get => rfl
  | set k' v d => exact Function.update_of_ne (Ne.symm (of_decide_eq_false h)) _ _
  | delete k' => exact Function.update_of_ne (Ne.symm (of_decide_eq_false h)) _ _
  | clear => cases h

theorem effect_of_writes {op : Op κ α τ} {k : κ} (h : op.writes k = true) (m : κ → Option (α × τ)) {v : α} {d : τ} :
    op.effect m k = some (v, d) ↔ op = .set k v d := by
  cases op with
  | get => cases h
  | set k' v' d' =>
    obtain rfl : k' = k := of_decide_eq_true h
    show Function.update m k' (some (v', d')) k' = some (v, d) ↔ _
    simp only [Function.update_self, Option.some.injEq, Prod.mk.injEq, Op.set.injEq, true_and]
  | delete k' =>
    obtain rfl : k' = k := of_decide_eq_true h
    show Function.update m k' none k' = some (v, d) ↔ _
    simp only [Function.update_self, reduceCtorEq]
  | clear => simp only [Op.effect, reduceCtorEq]

/-- A value is under a key when the last operation that decides on the key stored it there. -/
theorem after_eq_some_iff {ops : List (Op κ α τ)} {k : κ} {v : α} {d : τ} : after ops k = some (v, d) ↔
    ∃ before rest, ops = before ++ .set k v d :: rest ∧ ∀ op ∈ rest, op.writes k = false := by
  induction ops using List.reverseRecOn with
  | nil => simp [after]
  | append_singleton ops op ih =>
    rw [after_concat]
    cases hw : op.writes k with
    | false =>
      rw [effect_of_not_writes hw, ih]
      constructor
      · rintro ⟨before, rest, rfl, hrest⟩
        refine ⟨before, rest ++ [op], by simp, fun o ho => ?_⟩
        rcases List.mem_append.1 ho with ho | ho
        · exact hrest o ho
        · exact List.mem_singleton.1 ho ▸ hw
      · rintro ⟨before, rest, he, hrest⟩
        -- The last operation decides nothing, so it is not the one that stored.
        rcases List.eq_nil_or_concat rest with rfl | ⟨rest, o, rfl⟩
        · obtain ⟨-, ho⟩ := List.append_inj' he rfl
          obtain rfl := (List.cons.inj ho).1
          simp [Op.writes] at hw
        · rw [List.concat_eq_append, ← List.cons_append, ← List.append_assoc] at he
          obtain ⟨rfl, -⟩ := List.append_inj' he rfl
          exact ⟨before, rest, rfl, fun o' ho' => hrest o' (by simp [ho'])⟩
    | true =>
      rw [effect_of_writes hw]
      constructor
      · rintro rfl
        exact ⟨ops, [], rfl, by simp⟩
      · rintro ⟨before, rest, he, hrest⟩
        rcases List.eq_nil_or_concat rest with rfl | ⟨rest, o, rfl⟩
        · obtain ⟨-, ho⟩ := List.append_inj' he rfl
          exact (List.cons.inj ho).1
        · rw [List.concat_eq_append, ← List.cons_append, ← List.append_assoc] at he
          obtain ⟨-, ho⟩ := List.append_inj' he rfl
          obtain rfl := (List.cons.inj ho).1
          rw [hrest op (by simp)] at hw
          cases hw

/-- A read in the history leaves no trace. -/
theorem after_get (before rest : List (Op κ α τ)) (k : κ) : after (before ++ .get k :: rest) = after (before ++ rest) := by
  simp only [after, List.foldl_append, List.foldl_cons, Op.effect]

/-! ## Stores that drop what is over -/

variable [LinearOrder τ]

/-- The store holds the entries of the map, but some that are over at the time. -/
def Evicted (now : τ) (store m : κ → Option (α × τ)) : Prop :=
  ∀ k, store k = m k ∨ store k = none ∧ ∀ p ∈ m k, p.2 < now

omit [DecidableEq κ] in
theorem evicted_refl (now : τ) (m : κ → Option (α × τ)) : Evicted now m m := fun _ => .inl rfl

variable {now now' : τ} {store m : κ → Option (α × τ)}

omit [DecidableEq κ] in
theorem Evicted.mono (h : Evicted now store m) (ht : now ≤ now') : Evicted now' store m := by
  intro k
  rcases h k with h | ⟨hn, hp⟩
  · exact .inl h
  · exact .inr ⟨hn, fun p hm => lt_of_lt_of_le (hp p hm) ht⟩

theorem Evicted.effect (h : Evicted now store m) (op : Op κ α τ) : Evicted now (op.effect store) (op.effect m) := by
  intro k
  cases hw : op.writes k with
  | false =>
    rw [effect_of_not_writes hw, effect_of_not_writes hw]
    exact h k
  | true =>
    left
    apply Option.ext
    intro p
    rw [effect_of_writes hw, effect_of_writes hw]

/-- Dropping an entry that is over. -/
theorem Evicted.evict (h : Evicted now store m) {k : κ} (hk : ∀ p ∈ store k, p.2 < now) :
    Evicted now (Function.update store k none) m := by
  intro k'
  by_cases he : k' = k
  · subst he
    right
    refine ⟨Function.update_self _ _ _, fun p hp => ?_⟩
    rcases h k' with hs | ⟨-, hover⟩
    · exact hk p (hs ▸ hp)
    · exact hover p hp
  · rw [Function.update_of_ne he]
    exact h k'

omit [DecidableEq κ] in
/-- What has been dropped would not be read. -/
theorem Evicted.live (h : Evicted now store m) (ht : now ≤ now') (k : κ) : live store now' k = live m now' k := by
  unfold Expiry.live
  rcases h k with hs | ⟨hn, hover⟩
  · rw [hs]
  · rw [hn]
    cases hm : m k with
    | none => rfl
    | some p => exact (if_pos (lt_of_lt_of_le (hover p hm) ht)).symm

end Lib.Expiry
