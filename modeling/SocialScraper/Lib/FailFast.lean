import Mathlib.Data.List.Basic
import Mathlib.Logic.Function.Basic
import SocialScraper.Lib.Runs
/-!
# A join that fails fast

Tasks run side by side and end in any order, each with a value or with an
exception. The join gives the values once all have ended, and an exception as
soon as there is one. Which of the two it gives is no matter of the order, but
for which of several exceptions it is (`joined_iff`, `failed_iff`).
-/

namespace Lib

variable {ι α : Type*}

inductive Join (ι α : Type*) where
  | waiting (pending : List ι) (values : ι → Option α)
  | joined (values : ι → Option α)
  | failed (task : ι)

namespace Join

/-- With nothing pending, the join is over. -/
def settle (pending : List ι) (values : ι → Option α) : Join ι α :=
  if pending = [] then .joined values else .waiting pending values

def start (tasks : List ι) : Join ι α := settle tasks fun _ => none

/-- What has ended has ended with a value. -/
structure Holds (outcome : ι → Option α) (tasks pending : List ι) (values : ι → Option α) : Prop where
  subset : ∀ i ∈ pending, i ∈ tasks
  ended : ∀ i ∈ tasks, i ∉ pending → (outcome i).isSome ∧ values i = outcome i
  other : ∀ i, i ∉ tasks → values i = none

/-- What holds in each state of the join. -/
def Inv (outcome : ι → Option α) (tasks : List ι) : Join ι α → Prop
  | .waiting pending values => Holds outcome tasks pending values
  | .joined values => Holds outcome tasks [] values
  | .failed i => i ∈ tasks ∧ outcome i = none

variable {outcome : ι → Option α} {tasks pending : List ι} {values : ι → Option α}

theorem inv_settle (h : Holds outcome tasks pending values) : Inv outcome tasks (settle pending values) := by
  unfold settle
  split_ifs with hnil
  · rwa [hnil] at h
  · exact h

variable [DecidableEq ι]

/-- A task ends; its outcome is `none` if it has raised. -/
def step (outcome : ι → Option α) : Join ι α → ι → Option (Join ι α)
  | .waiting pending values, i =>
    if i ∈ pending then
      match outcome i with
      | none => some (.failed i)
      | some value => some (settle (pending.erase i) (Function.update values i (some value)))
    else none
  | _, _ => none

/-- The values of the tasks. -/
def valuesOf (outcome : ι → Option α) (tasks : List ι) (i : ι) : Option α := if i ∈ tasks then outcome i else none

theorem inv_step {j j' : Join ι α} {i : ι} (hj : Inv outcome tasks j) (h : step outcome j i = some j') :
    Inv outcome tasks j' := by
  cases j with
  | joined _ => cases h
  | failed _ => cases h
  | waiting pending values =>
    obtain ⟨hi, h⟩ := Option.ite_none_right_eq_some.1 h
    cases ho : outcome i with
    | none =>
      rw [ho] at h
      obtain rfl := Option.some.inj h
      exact ⟨hj.subset i hi, ho⟩
    | some value =>
      rw [ho] at h
      obtain rfl := Option.some.inj h
      apply inv_settle
      refine ⟨fun k hk => hj.subset k (List.mem_of_mem_erase hk), fun k hk hn => ?_, fun k hk => ?_⟩
      · by_cases hki : k = i
        · rw [hki, Function.update_self, ho]
          exact ⟨rfl, rfl⟩
        · rw [Function.update_of_ne hki]
          exact hj.ended k hk fun hp => hn ((List.mem_erase_of_ne hki).2 hp)
      · have hki : k ≠ i := fun he => hk (he ▸ hj.subset i hi)
        rw [Function.update_of_ne hki]
        exact hj.other k hk

theorem inv_reachable {j : Join ι α} (h : Reachable (Fires (step outcome)) (start tasks) j) : Inv outcome tasks j := by
  apply h.inv (Inv outcome tasks)
  · exact inv_settle ⟨fun _ => id, fun _ hi hn => absurd hi hn, fun _ _ => rfl⟩
  · exact fun _ _ _ hj => inv_step hj

variable (values) in
/-- If no task raises, they can all end. -/
theorem reaches_joined (hall : ∀ i ∈ pending, (outcome i).isSome) :
    ∃ values', Reachable (Fires (step outcome)) (settle pending values) (.joined values') := by
  induction pending generalizing values with
  | nil => exact ⟨values, .refl _⟩
  | cons i pending ih =>
    obtain ⟨value, hv⟩ := Option.isSome_iff_exists.1 (hall i List.mem_cons_self)
    obtain ⟨values', h⟩ := ih (Function.update values i (some value)) fun k hk => hall k (List.mem_cons_of_mem i hk)
    refine ⟨values', Reachable.trans ?_ h⟩
    refine ⟨[i], .one ?_⟩
    show step outcome (.waiting (i :: pending) values) i = _
    rw [step, if_pos List.mem_cons_self, hv, List.erase_cons_head]

theorem joined_iff : Reachable (Fires (step outcome)) (start tasks) (.joined values) ↔
    (∀ i ∈ tasks, (outcome i).isSome) ∧ values = valuesOf outcome tasks := by
  have hvalues : ∀ {values}, Holds outcome tasks [] values → values = valuesOf outcome tasks := by
    intro values hh
    funext i
    unfold valuesOf
    split_ifs with hi
    · exact (hh.ended i hi List.not_mem_nil).2
    · exact hh.other i hi
  constructor
  · intro h
    have hh : Holds outcome tasks [] values := inv_reachable h
    exact ⟨fun i hi => (hh.ended i hi List.not_mem_nil).1, hvalues hh⟩
  · rintro ⟨hall, rfl⟩
    obtain ⟨values', h⟩ := reaches_joined (fun _ => none) hall
    have hh : Holds outcome tasks [] values' := inv_reachable h
    exact hvalues hh ▸ h

theorem failed_iff {i : ι} : Reachable (Fires (step outcome)) (start tasks) (.failed i) ↔ i ∈ tasks ∧ outcome i = none := by
  constructor
  · exact inv_reachable
  · rintro ⟨hi, ho⟩
    have hstart : (start tasks : Join ι α) = .waiting tasks fun _ => none := if_neg (List.ne_nil_of_mem hi)
    refine ⟨[i], .one ?_⟩
    rw [hstart, Fires, step, if_pos hi, ho]

end Join

end Lib
