import SocialScraper.Enrichment.EnrichOne
import SocialScraper.Lib.HalfEven
/-!
# A batch of enrichments

`enrich_batch` with a cache and a fresh `EnrichmentMetrics`: the calls of
`enrich_one` behind the semaphore of `gather_with_concurrency`. However they
interleave, the metrics account for the leads (`batch_metrics`).
-/
open Lib

namespace SocialScraper

/-- The counters of `EnrichmentMetrics`. -/
structure EnrichmentMetrics where
  total : ℕ := 0
  missing : ℕ := 0
deriving DecidableEq

def EnrichmentMetrics.finishOne (m : EnrichmentMetrics) (success : Bool) : EnrichmentMetrics where
  total := m.total + 1
  missing := if success then m.missing else m.missing + 1

/-- The `success_rate` of its snapshot. -/
def EnrichmentMetrics.successRate (m : EnrichmentMetrics) : ℚ := percentage 2 (m.total - m.missing) m.total

theorem EnrichmentMetrics.successRate_bounds {m : EnrichmentMetrics} (h : m.missing ≤ m.total) :
    0 ≤ m.successRate ∧ m.successRate ≤ 100 := by
  have htotal : (0 : ℚ) ≤ m.total := Nat.cast_nonneg _
  have hmissing : (0 : ℚ) ≤ m.missing := Nat.cast_nonneg _
  have hle : (m.missing : ℚ) ≤ m.total := Nat.cast_le.2 h
  exact ⟨percentage_nonneg 2 (sub_nonneg.2 hle) htotal, percentage_le 2 (sub_le_self _ hmissing) htotal⟩

/-- Where `_enrich_and_record` is. -/
inductive EnrichTaskState where
  /-- Before the semaphore. -/
  | waiting
  /-- In the call of `enrich_one` with the number. -/
  | calling (call : ℕ)
  /-- Behind `finish_one`. -/
  | recorded (success : Bool)
  | cancelled
deriving DecidableEq

namespace EnrichTaskState

def running : EnrichTaskState → Bool
  | .calling _ => true
  | _ => false

def isRecorded : EnrichTaskState → Bool
  | .recorded _ => true
  | _ => false

end EnrichTaskState

structure EnrichTask (ι : Type) where
  lead : ι
  state : EnrichTaskState

structure EnrichBatch (ι : Type) where
  run : EnrichRun ι
  /-- The tasks of `needs_enrichment`, in order. -/
  tasks : List (EnrichTask ι)
  metrics : EnrichmentMetrics := {}

inductive EnrichBatchAction (ι : Type) where
  /-- The task gets past the semaphore, and into `enrich_one` up to its first suspension. -/
  | enter (task : ℕ) (time : ℚ)
  /-- A call of `enrich_one` goes on. -/
  | resumes (e : EnrichEvent ι)
  /-- The task is cancelled before the semaphore. -/
  | abandons (task : ℕ)
  /-- The call of the task is over, and the task reports it. -/
  | records (task : ℕ)

namespace EnrichBatch

variable {ι : Type} [DecidableEq ι] (c : EnrichConfig) (concurrency : ℕ)

def setTask (b : EnrichBatch ι) (i : ℕ) (task : EnrichTask ι) (state : EnrichTaskState) : EnrichBatch ι :=
  { b with tasks := b.tasks.set i { task with state := state } }

/-- From the end of the call on. -/
def record (b : EnrichBatch ι) (i : ℕ) (task : EnrichTask ι) : EnrichPhase → Option (EnrichBatch ι)
  | .returned =>
    let success := (b.run.fields task.lead).website.isSome
    some { b.setTask i task (.recorded success) with metrics := b.metrics.finishOne success }
  | .raised => some { b.setTask i task (.recorded false) with metrics := b.metrics.finishOne false }
  | .cancelled => some (b.setTask i task .cancelled)
  | _ => none

def step (b : EnrichBatch ι) : EnrichBatchAction ι → Option (EnrichBatch ι)
  | .enter i t =>
    match b.tasks[i]? with
    | some ⟨a, .waiting⟩ =>
      if b.tasks.countP (·.state.running) < concurrency then
        (b.run.step c ⟨t, .call a⟩).map fun run =>
          { b.setTask i ⟨a, .waiting⟩ (.calling b.run.calls.length) with run := run }
      else none
    | _ => none
  | .resumes e =>
    match e.action with
    | .call _ => none
    | _ => (b.run.step c e).map fun run => { b with run := run }
  | .abandons i =>
    match b.tasks[i]? with
    | some ⟨a, .waiting⟩ => some (b.setTask i ⟨a, .waiting⟩ .cancelled)
    | _ => none
  | .records i =>
    match b.tasks[i]? with
    | some ⟨a, .calling k⟩ => b.run.calls[k]?.bind fun call => b.record i ⟨a, .calling k⟩ call.phase
    | _ => none

/-- `enrich_batch` up to its gather, with the cache as it is by then. -/
def start (leads : List ι) (fields : ι → BusinessLead) (cache : MemoryCache (Option Str)) (now : ℚ) : EnrichBatch ι where
  run := { EnrichRun.start c fields now with cache := cache }
  tasks := (leads.filter fun a => needsEnrichment (fields a)).map (⟨·, .waiting⟩)

end EnrichBatch

/-! ## The calls -/

namespace EnrichRun

variable {ι : Type} [DecidableEq ι] {c : EnrichConfig} {s s' : EnrichRun ι}

/-- What an event does to the calls and the leads: a call in flight goes on, and writes its lead if it returns. -/
structure GoesOn (s s' : EnrichRun ι) (k : ℕ) (call : EnrichCall ι) (p : EnrichPhase) : Prop where
  found : s.calls[k]? = some call
  inFlight : call.phase.inFlight = true
  calls : s'.calls = s.calls.set k { call with phase := p }
  pages : s'.freePages + (if p.holdsPage then 1 else 0) = s.freePages + if call.phase.holdsPage then 1 else 0
  kept : p ≠ .returned → s'.fields = s.fields
  written : p = .returned → ∃ website, s'.fields = (s.setWebsite call.lead website).fields

theorem goesOn_of_step {e : EnrichEvent ι} (he : ∀ a, e.action ≠ .call a) (h : s.step c e = some s') :
    ∃ k call p, GoesOn s s' k call p := by
  obtain ⟨t, a⟩ := e
  unfold step at h
  split_ifs at h with ht
  cases a with
  | call a => exact absurd rfl (he a)
  | pageReady k =>
    obtain ⟨call, hk, h⟩ := Option.bind_eq_some_iff.1 h
    cases hp : call.phase <;> simp only [hp, resumeFrom, reduceCtorEq] at h
    obtain ⟨hfree, h⟩ := Option.ite_none_left_eq_some.1 h
    obtain rfl := Option.some.inj h
    unfold openPanel
    split_ifs
    · refine ⟨k, call, .navigating 1, hk, by rw [hp]; rfl, rfl, ?_, fun _ => rfl, nofun⟩
      rw [hp]
      exact Nat.succ_pred_eq_of_ne_zero hfree
    · exact ⟨k, call, .raised, hk, by rw [hp]; rfl, rfl, by rw [hp]; rfl, fun _ => rfl, nofun⟩
  | navigated k =>
    obtain ⟨call, hk, h⟩ := Option.bind_eq_some_iff.1 h
    cases hp : call.phase <;> simp only [hp, resumeFrom, reduceCtorEq] at h
    obtain rfl := Option.some.inj h
    exact ⟨k, call, .extracting, hk, by rw [hp]; rfl, rfl, by rw [hp]; rfl, fun _ => rfl, nofun⟩
  | navigationFails k e =>
    obtain ⟨call, hk, h⟩ := Option.bind_eq_some_iff.1 h
    cases hp : call.phase <;> simp only [hp, resumeFrom, reduceCtorEq] at h
    obtain rfl := Option.some.inj h
    unfold failNavigation
    split_ifs
    · exact ⟨k, call, .backoff _, hk, by rw [hp]; rfl, rfl, by rw [hp]; rfl, fun _ => rfl, nofun⟩
    · exact ⟨k, call, .raised, hk, by rw [hp]; rfl, rfl, by rw [hp]; rfl, fun _ => rfl, nofun⟩
  | retry k =>
    obtain ⟨call, hk, h⟩ := Option.bind_eq_some_iff.1 h
    cases hp : call.phase <;> simp only [hp, resumeFrom, reduceCtorEq] at h
    obtain rfl := Option.some.inj h
    exact ⟨k, call, .navigating _, hk, by rw [hp]; rfl, rfl, by rw [hp]; rfl, fun _ => rfl, nofun⟩
  | extracted k o =>
    obtain ⟨call, hk, h⟩ := Option.bind_eq_some_iff.1 h
    cases hp : call.phase <;> simp only [hp, resumeFrom, reduceCtorEq] at h
    obtain rfl := Option.some.inj h
    cases o with
    | raises => exact ⟨k, call, .raised, hk, by rw [hp]; rfl, rfl, by rw [hp]; rfl, fun _ => rfl, nofun⟩
    | website url => exact ⟨k, call, .returned, hk, by rw [hp]; rfl, rfl, by rw [hp]; rfl, fun hn => absurd rfl hn, fun _ => ⟨url, rfl⟩⟩
  | cancel k =>
    obtain ⟨call, hk, h⟩ := Option.bind_eq_some_iff.1 h
    simp only [resumeFrom] at h
    split_ifs at h with hp hp
    · obtain rfl := Option.some.inj h
      have hflight : call.phase.inFlight = true := by
        cases hc : call.phase <;> rw [hc] at hp <;> first | rfl | cases hp
      exact ⟨k, call, .cancelled, hk, hflight, rfl, by rw [hp]; rfl, fun _ => rfl, nofun⟩
    · obtain rfl := Option.some.inj h
      exact ⟨k, call, .cancelled, hk, by rw [hp]; rfl, rfl, by rw [hp]; rfl, fun _ => rfl, nofun⟩

/-- What `enrich_one` has done at its first suspension, or at its end. -/
structure Begins (s s' : EnrichRun ι) (a : ι) (call : EnrichCall ι) : Prop where
  lead : call.lead = a
  calls : s'.calls = s.calls ++ [call]
  pages : s'.freePages + (if call.phase.holdsPage then 1 else 0) = s.freePages
  kept : call.phase ≠ .returned → s'.fields = s.fields
  written : call.phase = .returned → ∃ website, s'.fields = (s.setWebsite a website).fields

theorem openPanel_begins (s : EnrichRun ι) (a : ι) (call : EnrichCall ι) (hc : call.lead = a) (cache : MemoryCache (Option Str))
    (hfree : s.freePages ≠ 0) :
    ∃ call', Begins s ({ s with cache := cache, calls := s.calls ++ [call] }.openPanel c s.calls.length call) a call' := by
  unfold openPanel
  split_ifs
  · refine ⟨{ call with phase := .navigating 1 }, hc, ?_, Nat.succ_pred_eq_of_ne_zero hfree, fun _ => rfl, nofun⟩
    simp [navigate, setCall]
  · refine ⟨{ call with phase := .raised }, hc, ?_, rfl, fun _ => rfl, nofun⟩
    simp [setCall]

theorem begins_of_step {t : ℚ} {a : ι} (hn : needsEnrichment (s.fields a) = true) (h : s.step c ⟨t, .call a⟩ = some s') :
    ∃ call, Begins s s' a call := by
  unfold step at h
  split_ifs at h with ht
  obtain rfl := Option.some.inj h
  obtain ⟨hw, hm⟩ := Bool.and_eq_true_iff.1 hn
  -- The lead has no website and a Maps URL, so the call goes past its first test.
  have htest : (truthy (s.fields a).website || (s.fields a).social.googleMapsUrl.getD [] == []) = false := by
    have hfalsy : truthy (s.fields a).website = false := by simpa using hw
    rw [hfalsy, Bool.false_or]
    cases hurl : (s.fields a).social.googleMapsUrl with
    | none =>
      rw [hurl] at hm
      cases hm
    | some url =>
      rw [hurl] at hm
      exact (bne_iff_ne.1 hm) |> beq_eq_false_iff_ne.2
  dsimp only [enrichOne]
  rw [if_neg (by rw [htest]; exact Bool.false_ne_true)]
  split
  · rename_i cache website _
    exact ⟨⟨a, _, .returned, s.log.length⟩, rfl, rfl, rfl, fun hn => absurd rfl hn, fun _ => ⟨website, rfl⟩⟩
  · rename_i cache _
    split_ifs with hfree
    · exact ⟨⟨a, _, .acquiring, s.log.length⟩, rfl, rfl, rfl, fun _ => rfl, nofun⟩
    · obtain ⟨call, hcall⟩ := openPanel_begins (c := c) { s with now := t } a ⟨a, _, .acquiring, s.log.length⟩ rfl cache hfree
      exact ⟨call, hcall.lead, hcall.calls, hcall.pages, hcall.kept, hcall.written⟩

end EnrichRun

/-! ## The books of the batch -/

namespace EnrichBatch

variable {ι : Type} [DecidableEq ι] {c : EnrichConfig} {concurrency : ℕ} {fields : ι → BusinessLead} {b b' : EnrichBatch ι}

/-- A website was written, if at all, by the lead's own call: what its task has recorded is still so. -/
def Told (fields : ι → BusinessLead) (run : EnrichRun ι) (task : EnrichTask ι) : Prop :=
  match task.state with
  | .waiting | .cancelled => run.fields task.lead = fields task.lead
  | .calling k => ∃ call, run.calls[k]? = some call ∧ call.lead = task.lead ∧
      (call.phase ≠ .returned → run.fields task.lead = fields task.lead)
  | .recorded true => (run.fields task.lead).website.isSome = true
  | .recorded false => (run.fields task.lead).website = none ∨ run.fields task.lead = fields task.lead

structure Sound (concurrency : ℕ) (fields : ι → BusinessLead) (b : EnrichBatch ι) : Prop where
  distinct : (b.tasks.map (·.lead)).Nodup
  needs : ∀ task ∈ b.tasks, needsEnrichment (fields task.lead) = true
  told : ∀ task ∈ b.tasks, Told fields b.run task
  /-- Whoever is in flight is called by a task. -/
  called : ∀ (k : ℕ) call, b.run.calls[k]? = some call → call.phase.inFlight = true → ⟨call.lead, .calling k⟩ ∈ b.tasks
  /-- Only websites of leads with a task are written. -/
  own : ∀ a, ∃ website, b.run.fields a = { fields a with website := website }
  others : ∀ a, a ∉ b.tasks.map (·.lead) → b.run.fields a = fields a
  bounded : b.tasks.countP (·.state.running) ≤ concurrency
  total : b.metrics.total = b.tasks.countP (·.state.isRecorded)
  missing : b.metrics.missing = b.tasks.countP (·.state = .recorded false)

omit [DecidableEq ι] in
theorem map_lead_set {tasks : List (EnrichTask ι)} {i : ℕ} {task : EnrichTask ι} (hi : tasks[i]? = some task)
    (state : EnrichTaskState) : (tasks.set i { task with state := state }).map (·.lead) = tasks.map (·.lead) := by
  obtain ⟨u, v, hl, hs⟩ := slot hi
  rw [hs, hl, List.map_append, List.map_append]
  rfl

omit [DecidableEq ι] in
theorem countP_setTask {tasks : List (EnrichTask ι)} {i : ℕ} {task : EnrichTask ι} (p : EnrichTaskState → Bool)
    (hi : tasks[i]? = some task) (state : EnrichTaskState) :
    (tasks.set i { task with state := state }).countP (fun x => p x.state) + (if p task.state then 1 else 0) =
      tasks.countP (fun x => p x.state) + (if p state then 1 else 0) :=
  countP_slot (fun x : EnrichTask ι => p x.state) hi { task with state := state }

omit [DecidableEq ι] in
/-- The other tasks have other leads. -/
theorem Sound.mem_set (h : Sound concurrency fields b) {i : ℕ} {task : EnrichTask ι} (hi : b.tasks[i]? = some task)
    {state : EnrichTaskState} {x : EnrichTask ι} (hx : x ∈ b.tasks.set i { task with state := state }) :
    x = { task with state := state } ∨ x ∈ b.tasks ∧ x.lead ≠ task.lead := by
  obtain ⟨u, v, hl, hs⟩ := slot hi
  have hd := h.distinct
  rw [hl, List.map_append, List.map_cons] at hd
  have hnot := (List.nodup_middle.1 hd).notMem
  have hother : ∀ y ∈ u ++ v, y.lead ≠ task.lead := by
    intro y hy he
    apply hnot
    rw [← List.map_append, ← he]
    exact List.mem_map_of_mem hy
  rw [hs] at hx
  rw [hl]
  rcases List.mem_append.1 hx with hx | hx
  · exact .inr ⟨List.mem_append_left _ hx, hother x (List.mem_append_left _ hx)⟩
  · rcases List.mem_cons.1 hx with rfl | hx
    · exact .inl rfl
    · exact .inr ⟨List.mem_append_right _ (List.mem_cons_of_mem _ hx), hother x (List.mem_append_right _ hx)⟩

omit [DecidableEq ι] in
/-- A task in another state stays. -/
theorem mem_set_of_ne {tasks : List (EnrichTask ι)} {i : ℕ} {task x : EnrichTask ι} (hi : tasks[i]? = some task)
    (hx : x ∈ tasks) (hne : x ≠ task) (y : EnrichTask ι) : x ∈ tasks.set i y := by
  obtain ⟨u, v, hl, hs⟩ := slot hi
  rw [hl] at hx
  rw [hs]
  rcases List.mem_append.1 hx with hx | hx
  · exact List.mem_append_left _ hx
  · rcases List.mem_cons.1 hx with rfl | hx
    · exact absurd rfl hne
    · exact List.mem_append_right _ (List.mem_cons_of_mem _ hx)

omit [DecidableEq ι] in
/-- A lead that waits still needs its website. -/
theorem Sound.waiting (h : Sound concurrency fields b) {i : ℕ} {a : ι} (ht : b.tasks[i]? = some ⟨a, .waiting⟩) :
    needsEnrichment (b.run.fields a) = true := by
  have hmem := List.mem_of_getElem? ht
  have hsame : b.run.fields a = fields a := h.told ⟨a, .waiting⟩ hmem
  rw [hsame]
  exact h.needs ⟨a, .waiting⟩ hmem

omit [DecidableEq ι] in
theorem Sound.same (h : Sound concurrency fields b) {x y : EnrichTask ι} (hx : x ∈ b.tasks) (hy : y ∈ b.tasks)
    (hxy : x.lead = y.lead) : x = y := List.inj_on_of_nodup_map h.distinct hx hy hxy

omit [DecidableEq ι] in
/-- What another's call does leaves a task alone. -/
theorem Told.frame {run run' : EnrichRun ι} {task : EnrichTask ι} (h : Told fields run task)
    (hf : run'.fields task.lead = run.fields task.lead)
    (hc : ∀ (k : ℕ) call, run.calls[k]? = some call → call.lead = task.lead → run'.calls[k]? = some call) :
    Told fields run' task := by
  obtain ⟨a, state⟩ := task
  cases state with
  | waiting => exact hf.trans h
  | cancelled => exact hf.trans h
  | calling k =>
    obtain ⟨call, hk, hlead, hkept⟩ := h
    exact ⟨call, hc k call hk hlead, hlead, fun hp => hf.trans (hkept hp)⟩
  | recorded success =>
    cases success with
    | true => exact (congrArg (fun l : BusinessLead => l.website.isSome) hf).trans h
    | false => exact h.imp (fun hn => (congrArg BusinessLead.website hf).trans hn) fun hs => hf.trans hs

omit [DecidableEq ι] in
/-- A call in flight has left its lead alone. -/
theorem Sound.inFlight (h : Sound concurrency fields b) {k : ℕ} {call : EnrichCall ι} (hk : b.run.calls[k]? = some call)
    (hp : call.phase.inFlight = true) : b.run.fields call.lead = fields call.lead := by
  obtain ⟨call', hk', -, hkept⟩ := h.told _ (h.called k call hk hp)
  obtain rfl := Option.some.inj (hk.symm.trans hk')
  apply hkept
  intro hr
  rw [hr] at hp
  cases hp

theorem setWebsite_other (run : EnrichRun ι) {a x : ι} (hx : x ≠ a) (website : Option Str) :
    (run.setWebsite a website).fields x = run.fields x := Function.update_of_ne hx _ _

theorem setWebsite_self (run : EnrichRun ι) (a : ι) (website : Option Str) :
    (run.setWebsite a website).fields a = { run.fields a with website := website } := Function.update_self _ _ _

theorem setWebsite_own {run : EnrichRun ι} (h : ∀ x, ∃ website, run.fields x = { fields x with website := website }) (a : ι)
    (website : Option Str) (x : ι) : ∃ w, (run.setWebsite a website).fields x = { fields x with website := w } := by
  by_cases hx : x = a
  · subst hx
    obtain ⟨w, hw⟩ := h x
    exact ⟨website, by rw [setWebsite_self, hw]⟩
  · rw [setWebsite_other run hx]
    exact h x

theorem sound_resumes {run : EnrichRun ι} {k : ℕ} {call : EnrichCall ι} {p : EnrichPhase} (hi : Sound concurrency fields b)
    (h : EnrichRun.GoesOn b.run run k call p) : Sound concurrency fields { b with run := run } := by
  have htask := hi.called k call h.found h.inFlight
  have hfields : run.fields = b.run.fields ∨ ∃ website, run.fields = (b.run.setWebsite call.lead website).fields := by
    by_cases hp : p = .returned
    · exact .inr (h.written hp)
    · exact .inl (h.kept hp)
  have hother : ∀ x, x ≠ call.lead → run.fields x = b.run.fields x := by
    intro x hx
    rcases hfields with hf | ⟨website, hf⟩
    · rw [hf]
    · rw [hf, setWebsite_other _ hx]
  obtain ⟨hlt, -⟩ := List.getElem?_eq_some_iff.1 h.found
  refine ⟨hi.distinct, hi.needs, fun task ht => ?_, fun k' call' hk' hp' => ?_, fun a => ?_, fun a ha => ?_, hi.bounded,
    hi.total, hi.missing⟩
  · by_cases hlead : task.lead = call.lead
    · -- The task of the call.
      obtain rfl := hi.same ht htask hlead
      refine ⟨{ call with phase := p }, ?_, rfl, fun hp => ?_⟩
      · rw [h.calls, List.getElem?_set_self hlt]
      · rw [h.kept hp]
        exact hi.inFlight h.found h.inFlight
    · apply (hi.told task ht).frame (hother _ hlead)
      intro k' call' hk' hc'
      have hkk : k ≠ k' := by
        rintro rfl
        obtain rfl := Option.some.inj (h.found.symm.trans hk')
        exact hlead hc'.symm
      rw [h.calls, List.getElem?_set_ne hkk]
      exact hk'
  · dsimp only at hk'
    rw [h.calls] at hk'
    rcases slot_after hk' with ⟨rfl, rfl⟩ | hold
    · exact htask
    · exact hi.called k' call' hold hp'
  · rcases hfields with hf | ⟨website, hf⟩
    · dsimp only
      rw [hf]
      exact hi.own a
    · dsimp only
      rw [hf]
      exact setWebsite_own hi.own _ website a
  · refine (hother a ?_).trans (hi.others a ha)
    rintro rfl
    exact ha (List.mem_map_of_mem htask)

theorem sound_enters {run : EnrichRun ι} {i : ℕ} {a : ι} {call : EnrichCall ι} (hi : Sound concurrency fields b)
    (ht : b.tasks[i]? = some ⟨a, .waiting⟩) (hc : b.tasks.countP (·.state.running) < concurrency)
    (h : EnrichRun.Begins b.run run a call) :
    Sound concurrency fields { b.setTask i ⟨a, .waiting⟩ (.calling b.run.calls.length) with run := run } := by
  have hmem := List.mem_of_getElem? ht
  have hkept : run.fields = b.run.fields ∨ ∃ website, run.fields = (b.run.setWebsite a website).fields := by
    by_cases hp : call.phase = .returned
    · exact .inr (h.written hp)
    · exact .inl (h.kept hp)
  have hother : ∀ x, x ≠ a → run.fields x = b.run.fields x := by
    intro x hx
    rcases hkept with hf | ⟨website, hf⟩
    · rw [hf]
    · rw [hf, setWebsite_other _ hx]
  have hnew : run.calls[b.run.calls.length]? = some call := by rw [h.calls, List.getElem?_concat_length]
  have hold : ∀ (k : ℕ) call', b.run.calls[k]? = some call' → run.calls[k]? = some call' := by
    intro k call' hk
    rw [h.calls, List.getElem?_append_left (List.getElem?_eq_some_iff.1 hk).1, hk]
  have hset := map_lead_set ht (.calling b.run.calls.length)
  have hrunning : _ + 0 = _ + 1 := countP_setTask EnrichTaskState.running ht (.calling b.run.calls.length)
  have hrecorded : _ + 0 = _ + 0 := countP_setTask EnrichTaskState.isRecorded ht (.calling b.run.calls.length)
  have hmissing : _ + 0 = _ + 0 := countP_setTask (· = .recorded false) ht (.calling b.run.calls.length)
  refine ⟨?_, fun task htask => ?_, fun task htask => ?_, fun k call' hk hp => ?_, fun x => ?_, fun x hx => ?_, ?_, ?_, ?_⟩
  · exact (congrArg List.Nodup hset).mpr hi.distinct
  · rcases hi.mem_set ht htask with rfl | ⟨htask, -⟩
    · exact hi.needs ⟨a, .waiting⟩ hmem
    · exact hi.needs task htask
  · rcases hi.mem_set ht htask with rfl | ⟨htask, hlead⟩
    · refine ⟨call, hnew, h.lead, fun hp => ?_⟩
      rw [h.kept hp]
      exact hi.told ⟨a, .waiting⟩ hmem
    · exact (hi.told task htask).frame (hother _ hlead) fun k call' hk _ => hold k call' hk
  · dsimp only at hk
    rw [h.calls, List.getElem?_append] at hk
    split_ifs at hk with hlt
    · exact mem_set_of_ne ht (hi.called k call' hk hp) nofun _
    · rw [List.getElem?_singleton] at hk
      split_ifs at hk with hk0
      obtain rfl := Option.some.inj hk
      have hkl : k = b.run.calls.length := by omega
      rw [hkl, h.lead]
      exact List.mem_iff_getElem?.2 ⟨i, List.getElem?_set_self (List.getElem?_eq_some_iff.1 ht).1⟩
  · dsimp only
    rcases hkept with hf | ⟨website, hf⟩
    · rw [hf]
      exact hi.own x
    · rw [hf]
      exact setWebsite_own hi.own _ website x
  · rw [setTask, hset] at hx
    refine (hother x ?_).trans (hi.others x hx)
    rintro rfl
    exact hx (List.mem_map_of_mem hmem)
  · exact (Nat.le_of_eq hrunning).trans hc
  · exact hi.total.trans hrecorded.symm
  · exact hi.missing.trans hmissing.symm

omit [DecidableEq ι] in
theorem sound_abandons {i : ℕ} {a : ι} (hi : Sound concurrency fields b) (ht : b.tasks[i]? = some ⟨a, .waiting⟩) :
    Sound concurrency fields (b.setTask i ⟨a, .waiting⟩ .cancelled) := by
  have hset := map_lead_set ht .cancelled
  have hrunning : _ + 0 = _ + 0 := countP_setTask EnrichTaskState.running ht .cancelled
  have hrecorded : _ + 0 = _ + 0 := countP_setTask EnrichTaskState.isRecorded ht .cancelled
  have hmissing : _ + 0 = _ + 0 := countP_setTask (· = .recorded false) ht .cancelled
  refine ⟨(congrArg List.Nodup hset).mpr hi.distinct, fun task htask => ?_, fun task htask => ?_,
    fun k call hk hp => mem_set_of_ne ht (hi.called k call hk hp) nofun _, hi.own, fun x hx => ?_, ?_, ?_, ?_⟩
  · rcases hi.mem_set ht htask with rfl | ⟨htask, -⟩
    · exact hi.needs ⟨a, .waiting⟩ (List.mem_of_getElem? ht)
    · exact hi.needs task htask
  · rcases hi.mem_set ht htask with rfl | ⟨htask, -⟩
    · exact hi.told ⟨a, .waiting⟩ (List.mem_of_getElem? ht)
    · exact hi.told task htask
  · rw [setTask, hset] at hx
    exact hi.others x hx
  · exact hrunning.trans_le hi.bounded
  · exact hi.total.trans hrecorded.symm
  · exact hi.missing.trans hmissing.symm

omit [DecidableEq ι] in
/-- A task reports its call: it is counted as what it has recorded. -/
theorem sound_reports {i k : ℕ} {a : ι} {call : EnrichCall ι} {state : EnrichTaskState} {metrics : EnrichmentMetrics}
    (hi : Sound concurrency fields b) (ht : b.tasks[i]? = some ⟨a, .calling k⟩) (hk : b.run.calls[k]? = some call)
    (hp : call.phase.inFlight = false) (hstate : state.running = false) (htold : Told fields b.run ⟨a, state⟩)
    (htotal : metrics.total = b.metrics.total + if state.isRecorded then 1 else 0)
    (hmissing : metrics.missing = b.metrics.missing + if state = .recorded false then 1 else 0) :
    Sound concurrency fields { b.setTask i ⟨a, .calling k⟩ state with metrics := metrics } := by
  have hset := map_lead_set ht state
  have hrun : _ + 1 = _ + _ := countP_setTask EnrichTaskState.running ht state
  have hrec : _ + 0 = _ + _ := countP_setTask EnrichTaskState.isRecorded ht state
  have hmiss : _ + 0 = _ + _ := countP_setTask (· = .recorded false) ht state
  refine ⟨(congrArg List.Nodup hset).mpr hi.distinct, fun task htask => ?_, fun task htask => ?_,
    fun k' call' hk' hp' => ?_, hi.own, fun x hx => ?_, ?_, ?_, ?_⟩
  · rcases hi.mem_set ht htask with rfl | ⟨htask, -⟩
    · exact hi.needs ⟨a, .calling k⟩ (List.mem_of_getElem? ht)
    · exact hi.needs task htask
  · rcases hi.mem_set ht htask with rfl | ⟨htask, -⟩
    · exact htold
    · exact hi.told task htask
  · apply mem_set_of_ne ht (hi.called k' call' hk' hp')
    intro he
    obtain ⟨-, he⟩ := EnrichTask.mk.inj he
    obtain rfl := EnrichTaskState.calling.inj he
    obtain rfl := Option.some.inj (hk.symm.trans hk')
    rw [hp] at hp'
    cases hp'
  · rw [setTask, hset] at hx
    exact hi.others x hx
  · rw [hstate] at hrun
    refine Nat.le_trans ?_ hi.bounded
    exact Nat.le_of_succ_le hrun.le
  · exact htotal.trans ((congrArg (· + _) hi.total).trans hrec.symm)
  · rw [hmissing, hi.missing]
    refine Eq.trans ?_ hmiss.symm
    simp only [decide_eq_true_eq]

theorem sound_step {a : EnrichBatchAction ι} (hi : Sound concurrency fields b) (h : b.step c concurrency a = some b') :
    Sound concurrency fields b' := by
  cases a with
  | enter i t =>
    simp only [step] at h
    split at h
    · rename_i a ht
      obtain ⟨hc, h⟩ := Option.ite_none_right_eq_some.1 h
      obtain ⟨run, hrun, rfl⟩ := Option.map_eq_some_iff.1 h
      obtain ⟨call, hcall⟩ := EnrichRun.begins_of_step (hi.waiting ht) hrun
      exact sound_enters hi ht hc hcall
    · cases h
  | resumes e =>
    obtain ⟨t, a⟩ := e
    have hgoes : ∀ run, b.run.step c ⟨t, a⟩ = some run → (∀ x, a ≠ .call x) → Sound concurrency fields { b with run := run } := by
      intro run hrun hne
      obtain ⟨k, call, p, hg⟩ := EnrichRun.goesOn_of_step hne hrun
      exact sound_resumes hi hg
    cases a with
    | call x => cases h
    | pageReady k | navigated k | navigationFails k e | retry k | extracted k o | cancel k =>
      obtain ⟨run, hrun, rfl⟩ := Option.map_eq_some_iff.1 h
      exact hgoes run hrun (fun _ he => by cases he)
  | abandons i =>
    simp only [step] at h
    split at h
    · rename_i a ht
      obtain rfl := Option.some.inj h
      exact sound_abandons hi ht
    · cases h
  | records i =>
    simp only [step] at h
    split at h
    · rename_i a k ht
      obtain ⟨call, hk, h⟩ := Option.bind_eq_some_iff.1 h
      obtain ⟨call', hk', -, hkept⟩ := hi.told ⟨a, .calling k⟩ (List.mem_of_getElem? ht)
      obtain rfl := Option.some.inj (hk.symm.trans hk')
      cases hp : call.phase <;> rw [hp] at h <;> simp only [record, reduceCtorEq] at h
      case returned =>
        obtain rfl := Option.some.inj h
        cases hw : (b.run.fields a).website with
        | none => exact sound_reports hi ht hk (by rw [hp]; rfl) rfl (.inl hw) rfl rfl
        | some website => exact sound_reports hi ht hk (by rw [hp]; rfl) rfl (congrArg Option.isSome hw) rfl rfl
      case raised =>
        obtain rfl := Option.some.inj h
        exact sound_reports hi ht hk (by rw [hp]; rfl) rfl (.inr (hkept (by rw [hp]; exact nofun))) rfl rfl
      case cancelled =>
        obtain rfl := Option.some.inj h
        exact sound_reports hi ht hk (by rw [hp]; rfl) rfl (hkept (by rw [hp]; exact nofun)) rfl rfl
    · cases h

omit [DecidableEq ι] in
theorem sound_start {leads : List ι} (hn : leads.Nodup) (fields : ι → BusinessLead) (cache : MemoryCache (Option Str)) (now : ℚ) :
    Sound concurrency fields (start c leads fields cache now) where
  distinct := by
    rw [start, List.map_map]
    exact (List.map_id _).symm ▸ hn.filter _
  needs task ht := by
    obtain ⟨a, ha, rfl⟩ := List.mem_map.1 ht
    exact (List.mem_filter.1 ha).2
  told task ht := by
    obtain ⟨a, -, rfl⟩ := List.mem_map.1 ht
    rfl
  called k call hk := by cases hk
  own a := ⟨_, rfl⟩
  others _ _ := rfl
  bounded := by
    rw [start, List.countP_map]
    exact (List.countP_eq_zero.2 fun _ _ => Bool.false_ne_true).trans_le (Nat.zero_le _)
  total := by
    rw [start, List.countP_map]
    exact (List.countP_eq_zero.2 fun _ _ => Bool.false_ne_true).symm
  missing := by
    rw [start, List.countP_map]
    exact (List.countP_eq_zero.2 fun _ _ => Bool.false_ne_true).symm

theorem leads_step {a : EnrichBatchAction ι} (h : b.step c concurrency a = some b') :
    b'.tasks.map (·.lead) = b.tasks.map (·.lead) := by
  cases a with
  | enter i t =>
    simp only [step] at h
    split at h
    · rename_i a ht
      obtain ⟨-, h⟩ := Option.ite_none_right_eq_some.1 h
      obtain ⟨run, -, rfl⟩ := Option.map_eq_some_iff.1 h
      exact map_lead_set ht _
    · cases h
  | resumes e =>
    obtain ⟨t, a⟩ := e
    cases a with
    | call x => cases h
    | pageReady k | navigated k | navigationFails k e | retry k | extracted k o | cancel k =>
      obtain ⟨run, -, rfl⟩ := Option.map_eq_some_iff.1 h
      rfl
  | abandons i =>
    simp only [step] at h
    split at h
    · rename_i a ht
      obtain rfl := Option.some.inj h
      exact map_lead_set ht _
    · cases h
  | records i =>
    simp only [step] at h
    split at h
    · rename_i a k ht
      obtain ⟨call, -, h⟩ := Option.bind_eq_some_iff.1 h
      cases hp : call.phase <;> rw [hp] at h <;> simp only [record, reduceCtorEq] at h
      all_goals
        obtain rfl := Option.some.inj h
        exact map_lead_set ht _
    · cases h

omit [DecidableEq ι] in
/-- Once every task has recorded, the misses are at least the leads with no website, and no lead that has one is among them. -/
theorem Sound.misses (hi : Sound concurrency fields b) (hall : ∀ task ∈ b.tasks, task.state.isRecorded = true) :
    b.tasks.countP (fun task => (b.run.fields task.lead).website = none) ≤ b.metrics.missing ∧
      b.metrics.missing ≤ b.tasks.countP fun task => !truthy (b.run.fields task.lead).website := by
  rw [hi.missing]
  constructor
  · apply List.countP_mono_left
    intro task ht hnone
    have htold := hi.told task ht
    obtain ⟨a, state⟩ := task
    cases state with
    | recorded success =>
      cases success with
      | true =>
        have hsome : (b.run.fields a).website.isSome = true := htold
        rw [of_decide_eq_true hnone] at hsome
        cases hsome
      | false => rfl
    | waiting | calling k | cancelled => cases hall _ ht
  · apply List.countP_mono_left
    intro task ht hmissed
    have htold := hi.told task ht
    have hneeds := hi.needs task ht
    obtain ⟨a, state⟩ := task
    obtain rfl : state = .recorded false := of_decide_eq_true hmissed
    have hcases : (b.run.fields a).website = none ∨ b.run.fields a = fields a := htold
    rcases hcases with hn | hs
    · dsimp only
      rw [hn]
      rfl
    · dsimp only
      rw [hs]
      exact (Bool.and_eq_true_iff.1 hneeds).1

omit [DecidableEq ι] in
theorem Sound.missing_le (hi : Sound concurrency fields b) : b.metrics.missing ≤ b.metrics.total := by
  rw [hi.missing, hi.total]
  apply List.countP_mono_left
  intro task _ hm
  rw [of_decide_eq_true hm]
  rfl

/-- At every moment of a batch no more than `concurrency` leads are in hand, the metrics have counted each finished lead once,
and nothing but the website of a lead that needs one has changed. When all are finished they have counted them all, with
as many misses as leads without a website. -/
theorem batch_metrics (c : EnrichConfig) (concurrency : ℕ) (leads : List ι) (fields : ι → BusinessLead)
    (cache : MemoryCache (Option Str)) (now : ℚ) (b : EnrichBatch ι) (hn : leads.Nodup)
    (h : Reachable (Fires (step c concurrency)) (start c leads fields cache now) b) :
    b.tasks.map (·.lead) = leads.filter (fun a => needsEnrichment (fields a)) ∧
    b.tasks.countP (·.state.running) ≤ concurrency ∧
    b.metrics.total = b.tasks.countP (·.state.isRecorded) ∧
    (0 ≤ b.metrics.successRate ∧ b.metrics.successRate ≤ 100) ∧
    (∀ a, ∃ website, b.run.fields a = { fields a with website := website } ∧
      (website ≠ (fields a).website → a ∈ leads ∧ needsEnrichment (fields a) = true)) ∧
    ((∀ task ∈ b.tasks, task.state.isRecorded = true) →
      b.metrics.total = leads.countP (fun a => needsEnrichment (fields a)) ∧
      (leads.filter (fun a => needsEnrichment (fields a))).countP (fun a => (b.run.fields a).website = none) ≤ b.metrics.missing ∧
      b.metrics.missing ≤
        (leads.filter (fun a => needsEnrichment (fields a))).countP fun a => !truthy (b.run.fields a).website) := by
  have hi : Sound concurrency fields b := h.inv (Sound concurrency fields) (sound_start hn fields cache now)
    fun _ _ _ hi hs => sound_step hi hs
  have hleads : b.tasks.map (·.lead) = leads.filter (fun a => needsEnrichment (fields a)) := by
    apply h.inv (fun b => b.tasks.map (·.lead) = leads.filter (fun a => needsEnrichment (fields a)))
    · rw [start, List.map_map]
      exact List.map_id _
    · intro b₁ a b₂ hb hs
      exact (leads_step hs).trans hb
  refine ⟨hleads, hi.bounded, hi.total, EnrichmentMetrics.successRate_bounds hi.missing_le, fun a => ?_, fun hall => ?_⟩
  · obtain ⟨website, hw⟩ := hi.own a
    refine ⟨website, hw, fun hne => ?_⟩
    by_contra hnot
    have hsame := hi.others a fun ha => hnot (List.mem_filter.1 (hleads ▸ ha))
    exact hne (congrArg BusinessLead.website (hw.symm.trans hsame))
  · obtain ⟨hlow, hhigh⟩ := hi.misses hall
    rw [← hleads, List.countP_map, List.countP_map]
    refine ⟨?_, hlow, hhigh⟩
    rw [hi.total, List.countP_eq_length.2 hall, List.countP_eq_length_filter, ← hleads, List.length_map]

/-- One page for two leads: the first gets a website, the extraction of the second raises. -/
def oneMissed : List (EnrichBatchAction ℕ) :=
  [.enter 0 0, .enter 1 0, .resumes ⟨1, .navigated 0⟩, .resumes ⟨2, .extracted 0 (.website (some "https://cafe.test/".toList))⟩,
    .records 0, .resumes ⟨2, .pageReady 1⟩, .resumes ⟨3, .navigated 1⟩, .resumes ⟨4, .extracted 1 .raises⟩, .records 1]

theorem batch_metrics_oneMissed :
    ∃ b, exec (step (.default .defaults 1) 2) (start (.default .defaults 1) [7, 8] (fun _ => mapsLead) {} 0) oneMissed = some b ∧
      b.metrics = ⟨2, 1⟩ ∧ ([7, 8].countP fun a => (b.run.fields a).website = none) ≤ 1 := by
  obtain ⟨b, hb, hm, hall⟩ := exec_ends (f := step (.default .defaults 1) 2)
    (Q := fun b : EnrichBatch ℕ => b.metrics = ⟨2, 1⟩ ∧ ∀ task ∈ b.tasks, task.state.isRecorded = true)
    (s := start (.default .defaults 1) [7, 8] (fun _ => mapsLead) {} 0) oneMissed (by decide +kernel)
  obtain ⟨-, -, -, -, -, hdone⟩ := batch_metrics (.default .defaults 1) 2 [7, 8] (fun _ => mapsLead) {} 0 b (by decide)
    (reachable_of_exec _ hb)
  obtain ⟨-, hlow, -⟩ := hdone hall
  rw [hm] at hlow
  exact ⟨b, hb, hm, hlow⟩

end EnrichBatch

end SocialScraper
