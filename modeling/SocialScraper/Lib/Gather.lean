import Mathlib.Data.List.Nodup
import Mathlib.Logic.Function.Basic
import SocialScraper.Lib.Runs
/-!
# Gathering independent tasks

A set of tasks, at most `limit` of them running at a time, each of which
replaces its own entry of a store when it ends. Whatever the order, the end is
that of doing each task once (`gather_result`), and with `limit ≥ 1` there is
an end (`gather_completes`).
-/

namespace Lib

variable {ι σ : Type*} [DecidableEq ι]

structure Gather (ι σ : Type*) where
  pending : List ι
  running : List ι
  store : ι → σ

inductive GatherAction (ι : Type*) where
  /-- The task gets past the semaphore. -/
  | enter (a : ι)
  | leave (a : ι)

namespace Gather

def start (tasks : List ι) (store : ι → σ) : Gather ι σ := ⟨tasks, [], store⟩

def done (g : Gather ι σ) : Prop := g.pending = [] ∧ g.running = []

/-- One task begins, or ends with its work done. -/
def step (limit : ℕ) (work : ι → σ → σ) (g : Gather ι σ) : GatherAction ι → Option (Gather ι σ)
  | .enter a =>
    if a ∈ g.pending ∧ g.running.length < limit then
      some { g with pending := g.pending.erase a, running := a :: g.running }
    else none
  | .leave a =>
    if a ∈ g.running then
      some { g with running := g.running.erase a, store := Function.update g.store a (work a (g.store a)) }
    else none

/-- Each entry is as it was, or worked on once if its task has ended. -/
structure Worked (tasks : List ι) (work : ι → σ → σ) (f : ι → σ) (g : Gather ι σ) : Prop where
  nodup : (g.pending ++ g.running).Nodup
  subset : ∀ a ∈ g.pending ++ g.running, a ∈ tasks
  store : ∀ a, g.store a = if a ∈ tasks ∧ a ∉ g.pending ++ g.running then work a (f a) else f a

variable {tasks : List ι} {work : ι → σ → σ} {f : ι → σ} {limit : ℕ}

theorem worked_step {g g' : Gather ι σ} {e : GatherAction ι} (hw : Worked tasks work f g) (h : g.step limit work e = some g') :
    Worked tasks work f g' := by
  cases e with
  | enter a =>
    obtain ⟨⟨ha, -⟩, h⟩ := Option.ite_none_right_eq_some.1 h
    obtain rfl := Option.some.inj h
    -- The task only goes from one list to the other.
    have hperm : (g.pending.erase a ++ a :: g.running).Perm (g.pending ++ g.running) :=
      List.perm_middle.trans ((List.perm_cons_erase ha).symm.append_right g.running)
    refine ⟨hperm.nodup_iff.2 hw.nodup, fun b hb => hw.subset b (hperm.subset hb), fun b => ?_⟩
    simpa only [hperm.mem_iff] using hw.store b
  | leave a =>
    obtain ⟨ha, h⟩ := Option.ite_none_right_eq_some.1 h
    obtain rfl := Option.some.inj h
    have hperm : (g.pending ++ g.running).Perm (a :: (g.pending ++ g.running.erase a)) :=
      ((List.perm_cons_erase ha).append_left g.pending).trans List.perm_middle
    obtain ⟨hna, hnd⟩ := List.nodup_cons.1 (hperm.nodup_iff.1 hw.nodup)
    refine ⟨hnd, fun b hb => hw.subset b (hperm.mem_iff.2 (List.mem_cons_of_mem _ hb)), fun b => ?_⟩
    -- Its entry is still the first one, since no task is there twice.
    have hta : a ∈ tasks := hw.subset a (hperm.mem_iff.2 List.mem_cons_self)
    by_cases hb : b = a
    · subst hb
      have hst := hw.store b
      rw [if_neg (fun h => h.2 (hperm.mem_iff.2 List.mem_cons_self))] at hst
      simp only [Function.update_self, hst]
      rw [if_pos ⟨hta, hna⟩]
    · have hst := hw.store b
      simp only [hperm.mem_iff, List.mem_cons, hb, false_or] at hst
      simpa only [Function.update_of_ne hb] using hst

/-- However the tasks interleave, the end is each task's work done once. -/
theorem gather_result (hn : tasks.Nodup) {g : Gather ι σ} (h : Reachable (Fires (step limit work)) (start tasks f) g)
    (hd : g.done) : g.store = fun a => if a ∈ tasks then work a (f a) else f a := by
  have hw : Worked tasks work f g := h.inv (Worked tasks work f)
    ⟨by simpa [start] using hn, by simp [start], fun a => by simp [start]⟩ fun _ _ _ hw hs => worked_step hw hs
  funext a
  rw [hw.store a, hd.1, hd.2]
  simp

variable (work) in
theorem gather_completes (hl : 1 ≤ limit) (tasks : List ι) (f : ι → σ) :
    ∃ g, Reachable (Fires (step limit work)) (start tasks f) g ∧ g.done := by
  induction tasks generalizing f with
  | nil => exact ⟨_, .refl _, rfl, rfl⟩
  | cons a tasks ih =>
    obtain ⟨g, hg, hd⟩ := ih (Function.update f a (work a (f a)))
    have henter : Fires (step limit work) (start (a :: tasks) f) (.enter a) ⟨tasks, [a], f⟩ := by
      have : 0 < limit := hl
      simp [Fires, step, start, this]
    have hleave : Fires (step limit work) ⟨tasks, [a], f⟩ (.leave a) (start tasks (Function.update f a (work a (f a)))) := by
      simp [Fires, step, start]
    exact ⟨g, (((Reachable.refl _).step henter).step hleave).trans hg, hd⟩

end Gather

end Lib
