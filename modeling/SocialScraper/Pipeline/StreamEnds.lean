import SocialScraper.Pipeline.Deadlock
/-!
# The streaming pipeline comes to its end

`left` is what the tasks have before them and `pagesLeft` what their calls have
to do with the pages they asked for. Each step but a request for a page and a
cancellation takes from one of them, so a run is as long as what its start has
left and its requests allow, and from every moment some run leads to the return
of the coordinator.
-/
open Lib

namespace SocialScraper

variable {ι : Type}

/-! ## What is left to do -/

/-- The steps that a message has before it, for a lead and for a marker. -/
def messageLeft (item done : ℕ) : Message ι → ℕ
  | .item _ => item
  | .done => done

def EnrichmentWorker.left : EnrichmentWorker ι → ℕ
  | .enriching _ _ => 4
  | .putting _ => 3
  | .getting | .returned => 0

def SocialWorker.left : SocialWorker ι → ℕ
  | .discovering _ _ => 1
  | .getting | .returned => 0

/-- With `n` social workers; each is sent a marker, which it gets. -/
def Coordinator.tasksLeft (n : ℕ) : Coordinator → ℕ
  | .gatheringEnrichment => 2 * n + 2
  | .puttingDone k => 2 * k + 3
  | .gatheringSocial => 1
  | .returned => 0

@[simp] theorem Coordinator.tasksLeft_putLoop (n k : ℕ) : (putLoop k).tasksLeft n = 2 * k + 1 := by
  cases k <;> rfl

/-- The steps of a call with the page it waits for or holds. -/
def CallPhase.left : CallPhase → ℕ
  | .running => 0
  | .awaitingPage => 2
  | .holdingPage => 1

def EnrichmentWorker.pagesLeft : EnrichmentWorker ι → ℕ
  | .enriching _ p => p.left
  | _ => 0

def SocialWorker.pagesLeft : SocialWorker ι → ℕ
  | .discovering _ p => p.left
  | _ => 0

/-- A request for a page is two steps ahead of the call: it gets the page and gives it back. -/
theorem CallPhase.advance_left {u : CallStep} {free free' : ℕ} {p p' : CallPhase} (h : p.advance u free = some (free', p')) :
    p'.left + 1 ≤ p.left + (if u = .ask then 3 else 0) := by
  unfold advance at h
  split at h <;> cases h <;> simp [left]

theorem CallPhase.running_of_ask {free free' : ℕ} {p p' : CallPhase} (h : p.advance .ask free = some (free', p')) :
    p = .running := by
  cases p with
  | running => rfl
  | awaitingPage | holdingPage => cases h

namespace StreamAction

/-- The call of a worker asks the pool for a page. -/
def asksPage : StreamAction ι → Bool
  | .enrichCall _ .ask | .socialCall _ .ask => true
  | _ => false

/-- A task goes on to its next await, other than within a call. -/
def ofTask : StreamAction ι → Bool
  | .enrichCall _ _ | .socialCall _ _ | .requestCancellation => false
  | _ => true

/-- The call of a worker asks for a page, gets it or gives it back. -/
def usesPage : StreamAction ι → Bool
  | .enrichCall _ _ | .socialCall _ _ => true
  | _ => false

def cancels : StreamAction ι → Bool
  | .requestCancellation => true
  | _ => false

end StreamAction

namespace Stream

variable {c : PipelineConfig} {s s' : Stream ι} {e : StreamAction ι} {i : ℕ}

/-- The steps before the messages in the queues. -/
def queuesLeft (s : Stream ι) : ℕ :=
  (s.feeder.map (messageLeft 6 2)).sum + (s.toEnrich.map (messageLeft 5 1)).sum + (s.toSocial.map (messageLeft 2 1)).sum

/-- The steps that the tasks have before them, at most. -/
def left (c : PipelineConfig) (s : Stream ι) : ℕ :=
  s.queuesLeft + (s.enrichers.map (·.left)).sum + (s.socials.map (·.left)).sum + s.coordinator.tasksLeft c.socialWorkers

def pagesLeft (s : Stream ι) : ℕ := (s.enrichers.map (·.pagesLeft)).sum + (s.socials.map (·.pagesLeft)).sum

/-- The steps of an enrichment worker's action are taken from the worker and the queues. -/
theorem left_enricher {w w' : EnrichmentWorker ι} (hw : s.enrichers[i]? = some w) (he : s'.enrichers = s.enrichers.set i w')
    (hs : s'.socials = s.socials) (hc : s'.coordinator = s.coordinator) {n : ℕ}
    (hq : s'.queuesLeft + w'.left + n ≤ s.queuesLeft + w.left) : left c s' + n ≤ left c s := by
  have hslot := sum_slot (·.left) hw w'
  unfold left
  rw [he, hs, hc]
  omega

theorem left_social {w w' : SocialWorker ι} (hw : s.socials[i]? = some w) (hs : s'.socials = s.socials.set i w')
    (he : s'.enrichers = s.enrichers) (hc : s'.coordinator = s.coordinator) {n : ℕ}
    (hq : s'.queuesLeft + w'.left + n ≤ s.queuesLeft + w.left) : left c s' + n ≤ left c s := by
  have hslot := sum_slot (·.left) hw w'
  unfold left
  rw [he, hs, hc]
  omega

theorem pagesLeft_enricher {w w' : EnrichmentWorker ι} (hw : s.enrichers[i]? = some w)
    (he : s'.enrichers = s.enrichers.set i w') (hs : s'.socials = s.socials) {n k : ℕ}
    (hp : w'.pagesLeft + n ≤ w.pagesLeft + k) : pagesLeft s' + n ≤ pagesLeft s + k := by
  have hslot := sum_slot (·.pagesLeft) hw w'
  unfold pagesLeft
  rw [he, hs]
  omega

theorem pagesLeft_social {w w' : SocialWorker ι} (hw : s.socials[i]? = some w) (hs : s'.socials = s.socials.set i w')
    (he : s'.enrichers = s.enrichers) {n k : ℕ} (hp : w'.pagesLeft + n ≤ w.pagesLeft + k) :
    pagesLeft s' + n ≤ pagesLeft s + k := by
  have hslot := sum_slot (·.pagesLeft) hw w'
  unfold pagesLeft
  rw [he, hs]
  omega

variable [DecidableEq ι]

/-- A step of a task takes from what is left. -/
theorem left_effect (h : Effect c s e s') : left c s' + (if e.ofTask then 1 else 0) ≤ left c s := by
  cases h with
  | @feeds m rest hf hq =>
    cases m with
    | item a | done =>
      simp only [left, queuesLeft, hf, messageLeft, List.map_append, List.map_cons, List.map_nil, List.sum_append,
        List.sum_cons, List.sum_nil, StreamAction.ofTask, if_true]
      omega
  | enricherReturns hw hq | enrichBegins hw hq | enrichSkips hw hq =>
    refine left_enricher hw (by rfl) (by rfl) (by rfl) ?_
    simp only [queuesLeft, setEnricher, mark, hq, messageLeft, List.map_cons, List.sum_cons, StreamAction.ofTask,
      EnrichmentWorker.left, if_true]
    omega
  | enrichEnds hw | enrichUses hw hp =>
    refine left_enricher hw (by rfl) (by rfl) (by rfl) ?_
    exact Nat.le_refl _
  | forwards hw hq =>
    refine left_enricher hw (by rfl) (by rfl) (by rfl) ?_
    simp only [queuesLeft, setEnricher, messageLeft, List.map_append, List.map_cons, List.map_nil, List.sum_append,
      List.sum_cons, List.sum_nil, StreamAction.ofTask, EnrichmentWorker.left, if_true]
    omega
  | socialReturns hw hq | socialBegins hw hq | socialSkips hw hq =>
    refine left_social hw (by rfl) (by rfl) (by rfl) ?_
    simp only [queuesLeft, setSocial, mark, setFields, hq, messageLeft, List.map_cons, List.sum_cons, StreamAction.ofTask,
      SocialWorker.left, if_true]
    omega
  | socialEnds hw | socialUses hw hp =>
    refine left_social hw (by rfl) (by rfl) (by rfl) ?_
    exact Nat.le_refl _
  | gathersEnrichment hc hf hw =>
    simp only [left, hc, Coordinator.tasksLeft_putLoop]
    exact Nat.le_refl _
  | putsDone hc hq =>
    simp only [left, hc, Coordinator.tasksLeft_putLoop]
    simp only [queuesLeft, messageLeft, List.map_append, List.map_cons, List.map_nil, List.sum_append, List.sum_cons,
      List.sum_nil, StreamAction.ofTask, Coordinator.tasksLeft, if_true]
    omega
  | gathersSocial hc hw =>
    simp only [left, hc]
    exact Nat.le_refl _
  | cancels => exact Nat.le_refl _

/-- A call takes a step with its page from what is left of them; a request adds three. -/
theorem pagesLeft_effect (h : Effect c s e s') :
    pagesLeft s' + (if e.usesPage then 1 else 0) ≤ pagesLeft s + (if e.asksPage then 3 else 0) := by
  cases h with
  | feeds | gathersEnrichment | putsDone | gathersSocial | cancels => exact Nat.le_refl _
  | enricherReturns hw | enrichBegins hw | enrichSkips hw | enrichEnds hw | forwards hw =>
    refine pagesLeft_enricher hw (by rfl) (by rfl) ?_
    exact Nat.le_refl _
  | @enrichUses _ _ _ u _ _ hw hp =>
    refine pagesLeft_enricher hw (by rfl) (by rfl) ?_
    have hleft := CallPhase.advance_left hp
    cases u <;> exact hleft
  | socialReturns hw | socialBegins hw | socialSkips hw | socialEnds hw =>
    refine pagesLeft_social hw (by rfl) (by rfl) ?_
    exact Nat.le_refl _
  | @socialUses _ _ _ u _ _ hw hp =>
    refine pagesLeft_social hw (by rfl) (by rfl) ?_
    have hleft := CallPhase.advance_left hp
    cases u <;> exact hleft

/-- Both together: only a request for a page and a cancellation take from neither. -/
theorem total_effect (h : Effect c s e s') :
    left c s' + pagesLeft s' + (if !e.cancels then 1 else 0) ≤ left c s + pagesLeft s + (if e.asksPage then 3 else 0) := by
  have hleft := left_effect h
  have hpages := pagesLeft_effect h
  cases e <;> simp only [StreamAction.ofTask, StreamAction.usesPage, StreamAction.cancels, if_true, if_false,
    Bool.not_false, Bool.not_true, Bool.false_eq_true] at hleft hpages ⊢ <;> omega

omit [DecidableEq ι] in
theorem left_start (c : PipelineConfig) (leads : List ι) (fields : ι → BusinessLead) :
    left c (start c leads fields) = 6 * leads.length + 2 * c.enrichmentWorkers + 2 * c.socialWorkers + 2 := by
  have hitems : (leads.map (messageLeft 6 2 ∘ Message.item)).sum = 6 * leads.length := by
    simp [Function.comp_def, messageLeft, Nat.mul_comm]
  simp [left, queuesLeft, start, hitems, messageLeft, EnrichmentWorker.left, SocialWorker.left, Coordinator.tasksLeft]
  omega

omit [DecidableEq ι] in
theorem pagesLeft_start (c : PipelineConfig) (leads : List ι) (fields : ι → BusinessLead) :
    pagesLeft (start c leads fields) = 0 := by
  simp [pagesLeft, start, EnrichmentWorker.pagesLeft, SocialWorker.pagesLeft]

/-! ## A step that gets on -/

/-- A call that could ask for a page could as well end, so a task or a call gets on. -/
theorem Enabled.getsOn (h : Enabled c s) : ∃ e, (s.step c e).isSome ∧ e.cancels = false ∧ e.asksPage = false := by
  obtain ⟨e, hne, hs⟩ := h
  cases hask : e.asksPage with
  | false => exact ⟨e, hs, by cases e <;> first | rfl | exact absurd rfl hne, hask⟩
  | true =>
    obtain ⟨s', hs⟩ := Option.isSome_iff_exists.1 hs
    cases effect_of c hs with
    | @enrichUses i a _ u _ _ hw hp =>
      cases u with
      | ask =>
        rw [CallPhase.running_of_ask hp] at hw
        exact ⟨.enrichEnd i ⟨s.fields a, false⟩, by simp [step, enrichEnd, hw], rfl, rfl⟩
      | acquire | release => cases hask
    | @socialUses j a _ u _ _ hw hp =>
      cases u with
      | ask =>
        rw [CallPhase.running_of_ask hp] at hw
        exact ⟨.socialEnd j ⟨s.fields a, false⟩, by simp [step, socialEnd, hw], rfl, rfl⟩
      | acquire | release => cases hask
    | _ => cases hask

/-- From a state that keeps its pages and its end markers, some run without another request leads to the end. -/
theorem returns (hp : 1 ≤ c.pages) (hi : PagesKept c s) (hd : Drained c s) :
    ∃ as t, Steps (Fires (step c)) s as t ∧ t.coordinator = .returned ∧ ∀ e ∈ as, e.cancels = false ∧ e.asksPage = false := by
  induction hm : left c s + pagesLeft s using Nat.strong_induction_on generalizing s with
  | _ m ih =>
    by_cases hc : s.coordinator = .returned
    · exact ⟨[], s, .nil s, hc, fun e he => absurd he List.not_mem_nil⟩
    · obtain ⟨e, hs, hcancel, hask⟩ := (enabled_of_waiting hi hp hd hc).getsOn
      obtain ⟨s', hs⟩ := Option.isSome_iff_exists.1 hs
      have heff := effect_of c hs
      have hlt := total_effect heff
      simp only [hcancel, hask, Bool.not_false, if_true, Bool.false_eq_true, if_false] at hlt
      obtain ⟨as, t, hrun, hret, hall⟩ := ih (left c s' + pagesLeft s') (by omega) (pagesKept_effect hi heff)
        (drained_effect hd heff) rfl
      exact ⟨e :: as, t, .cons hs hrun, hret, List.forall_mem_cons.2 ⟨⟨hcancel, hask⟩, hall⟩⟩

/-- Whatever the calls do, the streaming ends: its tasks take at most so many steps, the calls at most three for each page
they ask for, and from every moment some run without another request leads to the coordinator's return. -/
theorem stream_ends (c : PipelineConfig) (hp : 1 ≤ c.pages) (leads : List ι) (fields : ι → BusinessLead)
    (as : List (StreamAction ι)) (s : Stream ι) (h : Steps (Fires (step c)) (start c leads fields) as s) :
    as.countP (·.ofTask) ≤ 6 * leads.length + 2 * c.enrichmentWorkers + 2 * c.socialWorkers + 2 ∧
      as.countP (fun e => !e.cancels) ≤
        6 * leads.length + 2 * c.enrichmentWorkers + 2 * c.socialWorkers + 2 + 3 * as.countP (·.asksPage) ∧
      ∃ bs t, Steps (Fires (step c)) s bs t ∧ t.coordinator = .returned ∧
        ∀ e ∈ bs, e.cancels = false ∧ e.asksPage = false := by
  have htask := h.countP_le (left c) (·.ofTask) (fun _ => false) 0 fun _ _ _ hs => left_effect (effect_of c hs)
  have hall := h.countP_le (fun s => left c s + pagesLeft s) (fun e => !e.cancels) (·.asksPage) 3 fun _ _ _ hs =>
    total_effect (effect_of c hs)
  rw [left_start] at htask hall
  rw [pagesLeft_start] at hall
  refine ⟨by omega, by omega, ?_⟩
  exact returns hp (pagesKept_reachable ⟨as, h⟩) (drained_reachable ⟨as, h⟩)

/-- Both workers want the only page; one of them has it. -/
theorem stream_ends_onePage :
    ∃ s, exec (step onePagePipeline) (start onePagePipeline [7, 8] fun _ => mapsLead) pageAwaited = some s ∧
      ∃ bs t, Steps (Fires (step onePagePipeline)) s bs t ∧ t.coordinator = .returned ∧
        ∀ e ∈ bs, e.cancels = false ∧ e.asksPage = false := by
  obtain ⟨s, hs, -⟩ := exec_ends (f := step onePagePipeline) (Q := fun s : Stream ℕ => s.freePages = 0)
    (s := start onePagePipeline [7, 8] fun _ => mapsLead) pageAwaited (by decide +kernel)
  exact ⟨s, hs, (stream_ends onePagePipeline (by decide) [7, 8] _ pageAwaited s (steps_of_exec hs)).2.2⟩

end Stream

end SocialScraper
