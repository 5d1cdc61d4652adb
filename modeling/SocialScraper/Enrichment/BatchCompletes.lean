import Mathlib.Algebra.Order.BigOperators.Group.List
import SocialScraper.Enrichment.EnrichBatch
/-!
# A batch of enrichments can always end

The tasks of `enrich_batch` wait for each other twice: before the semaphore of
the gather, and in the pool for a page. `batch_never_stuck` says that they never
all wait, by a measure that some step makes smaller.
-/
open Lib

namespace SocialScraper

/-- How many suspensions a call has before it, at most, if nothing fails. -/
def EnrichPhase.left : EnrichPhase → ℕ
  | .acquiring => 4
  | .backoff _ => 3
  | .navigating _ => 2
  | .extracting => 1
  | .returned | .raised | .cancelled => 0

namespace EnrichRun

variable {ι : Type} [DecidableEq ι] {c : EnrichConfig} {s : EnrichRun ι}

/-- A call in flight can go on, unless it waits for a page and there is none. -/
theorem resumable {k : ℕ} {call : EnrichCall ι} (hk : s.calls[k]? = some call) (hf : call.phase.inFlight = true)
    (hfree : call.phase = .acquiring → s.freePages ≠ 0) :
    ∃ e run p, (∀ a, e.action ≠ .call a) ∧ s.step c e = some run ∧ run.calls = s.calls.set k { call with phase := p } ∧
      p.left < call.phase.left := by
  cases hp : call.phase with
  | acquiring =>
    have hs : s.step c ⟨s.now, .pageReady k⟩ = some (s.openPanel c k call) := by
      simp only [step, le_refl, if_true, hk, Option.bind_some, hp, resumeFrom, if_neg (hfree hp)]
    by_cases hattempts : 1 ≤ c.maxAttempts
    · refine ⟨_, _, .navigating 1, by simp, hs, ?_, by decide⟩
      rw [openPanel, if_pos hattempts]
      rfl
    · refine ⟨_, _, .raised, by simp, hs, ?_, by decide⟩
      rw [openPanel, if_neg hattempts]
      rfl
  | navigating attempt =>
    have hs : s.step c ⟨s.now, .navigated k⟩ = some (s.setCall k call .extracting) := by
      simp only [step, le_refl, if_true, hk, Option.bind_some, hp, resumeFrom]
    exact ⟨_, _, .extracting, by simp, hs, rfl, Nat.lt_succ_self 1⟩
  | backoff attempt =>
    have hs : s.step c ⟨s.now, .retry k⟩ = some (s.navigate k call (attempt + 1)) := by
      simp only [step, le_refl, if_true, hk, Option.bind_some, hp, resumeFrom]
    exact ⟨_, _, .navigating (attempt + 1), by simp, hs, rfl, Nat.lt_succ_self 2⟩
  | extracting =>
    have hs : s.step c ⟨s.now, .extracted k (.website none)⟩ = some (s.finish c k call (.website none)) := by
      simp only [step, le_refl, if_true, hk, Option.bind_some, hp, resumeFrom]
    exact ⟨_, _, .returned, by simp, hs, rfl, Nat.lt_succ_self 0⟩
  | returned | raised | cancelled =>
    rw [hp] at hf
    cases hf

end EnrichRun

namespace EnrichBatch

variable {ι : Type} [DecidableEq ι] {c : EnrichConfig} {concurrency : ℕ} {fields : ι → BusinessLead} {b b' : EnrichBatch ι}

/-! ## The pages -/

/-- Each page of the pool is free or with one call. -/
def PagesKept (c : EnrichConfig) (b : EnrichBatch ι) : Prop :=
  b.run.freePages + b.run.calls.countP (·.phase.holdsPage) = c.pages

theorem pages_step {a : EnrichBatchAction ι} (hi : Sound concurrency fields b) (hp : PagesKept c b)
    (h : b.step c concurrency a = some b') : PagesKept c b' := by
  unfold PagesKept at *
  cases a with
  | enter i t =>
    simp only [step] at h
    split at h
    · rename_i a ht
      obtain ⟨-, h⟩ := Option.ite_none_right_eq_some.1 h
      obtain ⟨run, hrun, rfl⟩ := Option.map_eq_some_iff.1 h
      obtain ⟨call, hcall⟩ := EnrichRun.begins_of_step (hi.waiting ht) hrun
      have hpages := hcall.pages
      show run.freePages + run.calls.countP (·.phase.holdsPage) = c.pages
      rw [hcall.calls, List.countP_append, List.countP_singleton]
      omega
    · cases h
  | resumes e =>
    obtain ⟨t, a⟩ := e
    have hgoes : ∀ run, b.run.step c ⟨t, a⟩ = some run → (∀ x, a ≠ .call x) →
        run.freePages + run.calls.countP (·.phase.holdsPage) = c.pages := by
      intro run hrun hne
      obtain ⟨k, call, p, hg⟩ := EnrichRun.goesOn_of_step hne hrun
      have hslot := countP_slot (fun call : EnrichCall ι => call.phase.holdsPage) hg.found { call with phase := p }
      have hpages := hg.pages
      rw [hg.calls]
      dsimp only at hslot
      omega
    cases a with
    | call x => cases h
    | pageReady k | navigated k | navigationFails k e | retry k | extracted k o | cancel k =>
      obtain ⟨run, hrun, rfl⟩ := Option.map_eq_some_iff.1 h
      exact hgoes run hrun (fun _ he => by cases he)
  | abandons i =>
    simp only [step] at h
    split at h
    · obtain rfl := Option.some.inj h
      exact hp
    · cases h
  | records i =>
    simp only [step] at h
    split at h
    · obtain ⟨call, -, h⟩ := Option.bind_eq_some_iff.1 h
      cases hphase : call.phase <;> rw [hphase] at h <;> simp only [record, reduceCtorEq] at h
      all_goals
        obtain rfl := Option.some.inj h
        exact hp
    · cases h

/-! ## A measure -/

/-- How many steps a task has before it, at most, if nothing fails. -/
def taskLeft (run : EnrichRun ι) (task : EnrichTask ι) : ℕ :=
  match task.state with
  | .waiting => 6
  | .calling k => ((run.calls[k]?.map fun call => call.phase.left).getD 0) + 1
  | .recorded _ | .cancelled => 0

def left (b : EnrichBatch ι) : ℕ := (b.tasks.map (taskLeft b.run)).sum

/-- A task that is over. -/
def Over (task : EnrichTask ι) : Prop := task.state.isRecorded = true ∨ task.state = .cancelled

omit [DecidableEq ι] in
theorem phase_left_le (p : EnrichPhase) : p.left ≤ 4 := by
  cases p <;> simp [EnrichPhase.left]

omit [DecidableEq ι] in
/-- A task that takes another state, the others with as much before them as before. -/
theorem left_lt_of_set {run : EnrichRun ι} {i : ℕ} {task : EnrichTask ι} (ht : b.tasks[i]? = some task) (y : EnrichTask ι)
    (hother : ∀ x ∈ b.tasks, x ≠ task → taskLeft run x = taskLeft b.run x) (hd : (b.tasks.map (·.lead)).Nodup)
    (hlt : taskLeft run y < taskLeft b.run task) : ((b.tasks.set i y).map (taskLeft run)).sum < left b := by
  obtain ⟨u, v, hl, hs⟩ := slot ht
  rw [hl, List.map_append, List.map_cons] at hd
  have hnot := (List.nodup_middle.1 hd).notMem
  have hsame : ∀ x ∈ u ++ v, taskLeft run x = taskLeft b.run x := by
    intro x hx
    apply hother x
    · rw [hl]
      rcases List.mem_append.1 hx with hx | hx
      · exact List.mem_append_left _ hx
      · exact List.mem_append_right _ (List.mem_cons_of_mem _ hx)
    · rintro rfl
      apply hnot
      rw [← List.map_append]
      exact List.mem_map_of_mem hx
  rw [left, hs, hl]
  simp only [List.map_append, List.map_cons, List.sum_append, List.sum_cons]
  rw [List.map_congr_left fun x hx => hsame x (List.mem_append_left _ hx),
    List.map_congr_left fun x hx => hsame x (List.mem_append_right _ hx)]
  omega

/-- A task whose call is over is recorded, or cancelled with it. -/
theorem records_lt (hi : Sound concurrency fields b) {i k : ℕ} {a : ι} {call : EnrichCall ι}
    (ht : b.tasks[i]? = some ⟨a, .calling k⟩) (hk : b.run.calls[k]? = some call) (hf : call.phase.inFlight = false) :
    ∃ act b', b.step c concurrency act = some b' ∧ left b' < left b := by
  have hstep : ∃ state metrics, (state.isRecorded = true ∨ state = .cancelled) ∧
      b.step c concurrency (.records i) = some { b.setTask i ⟨a, .calling k⟩ state with metrics := metrics } := by
    simp only [step, ht, hk, Option.bind_some]
    cases hphase : call.phase with
    | returned => exact ⟨.recorded _, _, .inl rfl, rfl⟩
    | raised => exact ⟨.recorded false, _, .inl rfl, rfl⟩
    | cancelled => exact ⟨.cancelled, b.metrics, .inr rfl, rfl⟩
    | acquiring | navigating attempt | backoff attempt | extracting =>
      rw [hphase] at hf
      cases hf
  obtain ⟨state, metrics, hover, hs⟩ := hstep
  refine ⟨_, _, hs, left_lt_of_set ht _ (fun _ _ _ => rfl) hi.distinct ?_⟩
  rcases hover with hr | rfl
  · cases state with
    | recorded success => exact Nat.succ_pos _
    | waiting | calling k | cancelled => cases hr
  · exact Nat.succ_pos _

/-- A call in flight that does not wait for a page in vain goes on. -/
theorem resumes_lt (hi : Sound concurrency fields b) {k : ℕ} {call : EnrichCall ι} (hk : b.run.calls[k]? = some call)
    (hf : call.phase.inFlight = true) (hfree : call.phase = .acquiring → b.run.freePages ≠ 0) :
    ∃ act b', b.step c concurrency act = some b' ∧ left b' < left b := by
  obtain ⟨e, run, p, hcall, hrun, hcalls, hlt⟩ := EnrichRun.resumable (c := c) hk hf hfree
  obtain ⟨t, a⟩ := e
  have hs : b.step c concurrency (.resumes ⟨t, a⟩) = some { b with run := run } := by
    cases a with
    | call x => exact absurd rfl (hcall x)
    | pageReady j | navigated j | navigationFails j e | retry j | extracted j o | cancel j =>
      simp only [step, hrun, Option.map_some]
  have hself : run.calls[k]? = some { call with phase := p } := by
    rw [hcalls]
    exact (slot_iff hk).2 (.inl ⟨rfl, rfl⟩)
  refine ⟨_, _, hs, List.sum_lt_sum _ _ (fun task _ => ?_) ⟨_, hi.called k call hk hf, ?_⟩⟩
  · obtain ⟨x, state⟩ := task
    cases state with
    | waiting | recorded success | cancelled => exact le_refl _
    | calling j =>
      by_cases hj : j = k
      · subst hj
        simp only [taskLeft, hself, hk, Option.map_some, Option.getD_some]
        omega
      · simp only [taskLeft, hcalls, List.getElem?_set_ne (Ne.symm hj), le_refl]
  · simp only [taskLeft, hself, hk, Option.map_some, Option.getD_some]
    omega

/-- While no task is in its call, one that waits for the semaphore enters. -/
theorem enters_lt (hi : Sound concurrency fields b) (hc : 0 < concurrency) (hidle : ∀ task ∈ b.tasks, task.state.running = false)
    {i : ℕ} {a : ι} (ht : b.tasks[i]? = some ⟨a, .waiting⟩) : ∃ act b', b.step c concurrency act = some b' ∧ left b' < left b := by
  have hzero : b.tasks.countP (·.state.running) = 0 :=
    List.countP_eq_zero.2 fun task htask hr => by rw [hidle task htask] at hr; cases hr
  have hrun : b.run.step c ⟨b.run.now, .call a⟩ = some (b.run.enrichOne c a) := by
    simp only [EnrichRun.step, le_refl, if_true]
  have hs : b.step c concurrency (.enter i b.run.now) =
      some { b.setTask i ⟨a, .waiting⟩ (.calling b.run.calls.length) with run := b.run.enrichOne c a } := by
    simp only [step, ht, hzero, if_pos hc, hrun, Option.map_some]
  obtain ⟨call, hcall⟩ := EnrichRun.begins_of_step (hi.waiting ht) hrun
  refine ⟨_, _, hs, left_lt_of_set ht _ (fun task htask _ => ?_) hi.distinct ?_⟩
  · obtain ⟨x, state⟩ := task
    cases state with
    | waiting | recorded success | cancelled => rfl
    | calling k => cases hidle _ htask
  · have hleft := phase_left_le call.phase
    simp only [taskLeft, hcall.calls, List.getElem?_concat_length, Option.map_some, Option.getD_some]
    omega

omit [DecidableEq ι] in
/-- Not all calls in flight wait for a page: with none free, one of them holds it. -/
theorem no_call_of_stuck (hp : PagesKept c b) (hpages : 0 < c.pages)
    (hstuck : ∀ (k : ℕ) (call : EnrichCall ι), b.run.calls[k]? = some call → call.phase.inFlight = true →
      call.phase = .acquiring ∧ b.run.freePages = 0) {k : ℕ} {call : EnrichCall ι} (hk : b.run.calls[k]? = some call) :
    call.phase.inFlight = false := by
  apply eq_false_of_ne_true
  intro hf
  have hfree := (hstuck k call hk hf).2
  have hholds : 0 < b.run.calls.countP (·.phase.holdsPage) := by
    unfold PagesKept at hp
    omega
  obtain ⟨holder, hmem, hpage⟩ := List.countP_pos_iff.1 hholds
  obtain ⟨j, hj⟩ := List.mem_iff_getElem?.1 hmem
  have hflight : holder.phase.inFlight = true := by
    cases hphase : holder.phase <;> rw [hphase] at hpage <;> first | rfl | cases hpage
  rw [(hstuck j holder hj hflight).1] at hpage
  cases hpage

/-- Whatever is left to do, some step does a part of it. -/
theorem progress (hi : Sound concurrency fields b) (hp : PagesKept c b) (hpages : 0 < c.pages) (hc : 0 < concurrency)
    (hne : ∃ task ∈ b.tasks, ¬ Over task) : ∃ a b', b.step c concurrency a = some b' ∧ left b' < left b := by
  by_contra hnone
  have hflight : ∀ (k : ℕ) (call : EnrichCall ι), b.run.calls[k]? = some call → call.phase.inFlight = false := by
    intro k call hk
    apply no_call_of_stuck hp hpages _ hk
    intro k call hk hf
    by_contra hnot
    exact hnone (resumes_lt hi hk hf fun ha hfree => hnot ⟨ha, hfree⟩)
  have hidle : ∀ task ∈ b.tasks, task.state.running = false := by
    rintro ⟨a, state⟩ htask
    cases state with
    | waiting | recorded success | cancelled => rfl
    | calling k =>
      obtain ⟨call, hk, -⟩ := hi.told _ htask
      obtain ⟨i, ht⟩ := List.mem_iff_getElem?.1 htask
      exact absurd (records_lt hi ht hk (hflight k call hk)) hnone
  obtain ⟨⟨a, state⟩, htask, hover⟩ := hne
  obtain ⟨i, ht⟩ := List.mem_iff_getElem?.1 htask
  cases state with
  | recorded success => exact hover (.inl rfl)
  | cancelled => exact hover (.inr rfl)
  | calling k => cases hidle _ htask
  | waiting => exact hnone (enters_lt hi hc hidle ht)

/-- With at least one worker and one page, a batch is never stuck: from every moment of it, whatever has failed or was
cancelled so far, it can go on until every lead is recorded or cancelled. -/
theorem batch_never_stuck (c : EnrichConfig) (concurrency : ℕ) (leads : List ι) (fields : ι → BusinessLead)
    (cache : MemoryCache (Option Str)) (now : ℚ) (b : EnrichBatch ι) (hpages : 0 < c.pages) (hc : 0 < concurrency)
    (hn : leads.Nodup) (h : Reachable (Fires (step c concurrency)) (start c leads fields cache now) b) :
    ∃ b', Reachable (Fires (step c concurrency)) b b' ∧ ∀ task ∈ b'.tasks, Over task := by
  have hsound : Sound concurrency fields b ∧ PagesKept c b := by
    apply h.inv (fun b => Sound concurrency fields b ∧ PagesKept c b) ⟨sound_start hn fields cache now, rfl⟩
    rintro b a b' ⟨hi, hp⟩ hs
    exact ⟨sound_step hi hs, pages_step hi hp hs⟩
  obtain ⟨hi, hp⟩ := hsound
  clear h
  induction hm : left b using Nat.strong_induction_on generalizing b with
  | _ m ih =>
    by_cases hover : ∀ task ∈ b.tasks, Over task
    · exact ⟨b, .refl b, hover⟩
    · obtain ⟨task, htask, hnot⟩ : ∃ task ∈ b.tasks, ¬ Over task := by
        by_contra hall
        exact hover fun task htask => by_contra fun hnot => hall ⟨task, htask, hnot⟩
      obtain ⟨a, b₁, hs, hlt⟩ := progress hi hp hpages hc ⟨task, htask, hnot⟩
      obtain ⟨b', hreach, hall⟩ := ih (left b₁) (hm ▸ hlt) b₁ (sound_step hi hs) (pages_step hi hp hs) rfl
      exact ⟨b', ((Reachable.refl b).step hs).trans hreach, hall⟩

/-- Two leads and one worker, whose navigation has just failed. -/
theorem batch_never_stuck_retrying :
    ∃ b, exec (step (.default .defaults 1) 1) (start (.default .defaults 1) [7, 8] (fun _ => mapsLead) {} 0)
      [.enter 0 0, .resumes ⟨1, .navigationFails 0 .scraperTimeout⟩] = some b ∧
      ∃ b', Reachable (Fires (step (.default .defaults 1) 1)) b b' ∧ ∀ task ∈ b'.tasks, Over task := by
  obtain ⟨b, hb, -⟩ := exec_ends (f := step (.default .defaults 1) 1) (Q := fun b : EnrichBatch ℕ => b.tasks.length = 2)
    (s := start (.default .defaults 1) [7, 8] (fun _ => mapsLead) {} 0)
    [.enter 0 0, .resumes ⟨1, .navigationFails 0 .scraperTimeout⟩] (by decide +kernel)
  exact ⟨b, hb, batch_never_stuck (.default .defaults 1) 1 [7, 8] (fun _ => mapsLead) {} 0 b (by decide) (by decide) (by decide)
    (reachable_of_exec _ hb)⟩

end EnrichBatch

end SocialScraper
