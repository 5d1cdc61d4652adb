import Mathlib.Data.List.Basic
/-!
# Loops that stop when they have enough

A loop over a list takes what it finds in each element and stops at `limit`
results. An element that raises ends it, too, but with nothing. The loop gives
the first `limit` results exactly if no element raises that it gets to
(`collect_eq_take_iff`).
-/

namespace Lib

variable {α β : Type*} (f : α → Option (Option β))

/-- What an element gives; nothing if it raises. -/
def yield (x : α) : Option β := (f x).join

/-- The loop; an element raises if it is `none`, and gives nothing if it is `some none`. -/
def collect (limit : ℕ) : List α → List β → Option (List β)
  | [], found => some found
  | x :: xs, found =>
    match f x with
    | none => none
    | some result =>
      let found := found ++ result.toList
      if limit ≤ found.length then some found else collect limit xs found

variable {f} {limit : ℕ}

theorem collect_none {x : α} (hx : f x = none) (xs : List α) (found : List β) : collect f limit (x :: xs) found = none := by
  rw [collect, hx]

theorem collect_some {x : α} {result : Option β} (hx : f x = some result) (xs : List α) (found : List β) :
    collect f limit (x :: xs) found =
      if limit ≤ (found ++ result.toList).length then some (found ++ result.toList)
      else collect f limit xs (found ++ result.toList) := by
  rw [collect, hx]

theorem filterMap_yield_cons {x : α} {result : Option β} (hx : f x = some result) (xs : List α) :
    (x :: xs).filterMap (yield f) = result.toList ++ xs.filterMap (yield f) := by
  have hyield : yield f x = result := by rw [yield, hx, Option.join_some]
  cases result with
  | none => exact List.filterMap_cons_none hyield
  | some y => exact List.filterMap_cons_some hyield

theorem collect_eq_take_iff (xs : List α) (found : List β) (hfound : found.length < limit) :
    collect f limit xs found = some ((found ++ xs.filterMap (yield f)).take limit) ↔
      ∀ before x after, xs = before ++ x :: after → f x = none →
        limit ≤ (found ++ before.filterMap (yield f)).length := by
  induction xs generalizing found with
  | nil =>
    have htake : (found ++ [].filterMap (yield f)).take limit = found := by
      rw [List.filterMap_nil, List.append_nil, List.take_of_length_le (Nat.le_of_lt hfound)]
    apply iff_of_true (congrArg some htake.symm)
    intro before x after h
    exact absurd h (List.append_ne_nil_of_right_ne_nil before (List.cons_ne_nil x after)).symm
  | cons x xs ih =>
    cases hx : f x with
    | none =>
      -- The loop gets to an element that raises.
      rw [collect_none hx]
      refine iff_of_false nofun fun h => ?_
      have hle := h [] x xs rfl hx
      rw [List.filterMap_nil, List.append_nil] at hle
      omega
    | some result =>
      have hshift : ∀ before : List α, found ++ (x :: before).filterMap (yield f) =
          (found ++ result.toList) ++ before.filterMap (yield f) := by
        intro before
        rw [filterMap_yield_cons hx, List.append_assoc]
      have hsplit : (∀ before y after, x :: xs = before ++ y :: after → f y = none →
            limit ≤ (found ++ before.filterMap (yield f)).length) ↔
          ∀ before y after, xs = before ++ y :: after → f y = none →
            limit ≤ ((found ++ result.toList) ++ before.filterMap (yield f)).length := by
        constructor
        · intro h before y after hxs hy
          rw [← hshift]
          exact h (x :: before) y after (congrArg (x :: ·) hxs) hy
        · intro h before y after hxs hy
          cases before with
          | nil =>
            obtain ⟨rfl, -⟩ := List.cons.inj hxs
            rw [hx] at hy
            cases hy
          | cons z before =>
            obtain ⟨rfl, hxs'⟩ := List.cons.inj hxs
            rw [hshift]
            exact h before y after hxs' hy
      rw [hsplit, hshift, collect_some hx]
      by_cases hfull : limit ≤ (found ++ result.toList).length
      · -- The last result fills the limit.
        have hlength : (found ++ result.toList).length = limit := by
          have hone : result.toList.length ≤ 1 := by cases result <;> simp
          rw [List.length_append] at hfull ⊢
          omega
        rw [if_pos hfull]
        refine iff_of_true (congrArg some ?_) fun before y after _ _ => ?_
        · exact (List.take_left' hlength).symm
        · rw [List.length_append, hlength]
          exact Nat.le_add_right _ _
      · rw [if_neg hfull]
        exact ih _ (Nat.lt_of_not_le hfull)

end Lib
