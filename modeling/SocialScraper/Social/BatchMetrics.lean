import SocialScraper.Lib.Workers
import SocialScraper.Pipeline.Stream
import SocialScraper.Social.DiscoverOne
import SocialScraper.Urllib.Parse
/-!
# The metrics of a social batch

`discover_social_batch` with a fresh `SocialDiscoveryMetrics`: calls of
`discover_social_links_one` side by side, which share the counters. A call
reports itself at its very end, and its exceptions are caught one level up, so
the counters are right exactly if nothing raises (`metrics_account_iff`).
-/
open Lib

namespace SocialScraper

/-- The counters of `SocialDiscoveryMetrics`. -/
structure SocialDiscoveryMetrics where
  totalProcessed : ℕ := 0
  htmlFetchSuccess : ℕ := 0
  websiteSuccess : ℕ := 0
  searchFallbackUsed : ℕ := 0
  instagramFound : ℕ := 0
  facebookFound : ℕ := 0
deriving DecidableEq

namespace SocialDiscoveryMetrics

variable (m : SocialDiscoveryMetrics)

def recordHtmlFetch (success : Bool) : SocialDiscoveryMetrics :=
  if success then { m with htmlFetchSuccess := m.htmlFetchSuccess + 1 } else m

def recordWebsiteSuccess : SocialDiscoveryMetrics := { m with websiteSuccess := m.websiteSuccess + 1 }

def recordSearchFallbackUsed : SocialDiscoveryMetrics := { m with searchFallbackUsed := m.searchFallbackUsed + 1 }

def finishOne (instagramFound facebookFound : Bool) : SocialDiscoveryMetrics :=
  { m with
    totalProcessed := m.totalProcessed + 1
    instagramFound := if instagramFound then m.instagramFound + 1 else m.instagramFound
    facebookFound := if facebookFound then m.facebookFound + 1 else m.facebookFound }

end SocialDiscoveryMetrics

/-- The call to the metrics that a call is in, when it returns. -/
def DiscoverCall.report (s : DiscoverCall) (m : SocialDiscoveryMetrics) : SocialDiscoveryMetrics :=
  match s.phase with
  | .recordingFetch html => m.recordHtmlFetch html.isSome
  | .recordingWebsite => m.recordWebsiteSuccess
  | .recordingFallback => m.recordSearchFallbackUsed
  | .finishing => m.finishOne s.lead.social.instagramUrl.isSome s.lead.social.facebookUrl.isSome
  | _ => m

/-- The call reads a page next. -/
def DiscoverCall.readsPage (s : DiscoverCall) : Bool :=
  match s.phase with
  | .recordingFetch html => truthy html
  | _ => false

/-- A task of the gather: `_process` of a lead, before and behind the semaphore. -/
inductive SocialTask where
  | waiting (lead : BusinessLead)
  | called (call : DiscoverCall)

namespace SocialTask

def lead : SocialTask → BusinessLead
  | .waiting lead => lead
  | .called call => call.lead

def phase : SocialTask → Option DiscoverPhase
  | .waiting _ => none
  | .called call => some call.phase

def running : SocialTask → Bool
  | .waiting _ => false
  | .called call => call.awaits

def returned (t : SocialTask) : Bool := t.phase = some .returned

/-- `_process` has logged the exception of its call. -/
def raised (t : SocialTask) : Bool := t.phase = some .raised

end SocialTask

/-- What happens to a task, by its index. -/
inductive SocialBatchAction where
  /-- It gets past the semaphore. -/
  | enter (task : ℕ)
  /-- Its call to the metrics returns. -/
  | recorded (task : ℕ)
  /-- Its call to the metrics returns, and the extractor gets the page; `none` is an exception. -/
  | extracted (task : ℕ) (candidates : Option (List LinkCandidate))
  | fetched (task : ℕ) (html : Option Str)
  | found (task : ℕ) (results : Platform → FallbackResult)
  /-- The fetcher or the fallback raises. -/
  | raises (task : ℕ)

/-- The fetcher, the extractor or the fallback raises. -/
def SocialBatchAction.isException : SocialBatchAction → Bool
  | .raises _ | .extracted _ none => true
  | _ => false

/-- The tasks of `needs_processing`, in order. The leads are distinct objects, so each call has one of its own. -/
structure SocialBatch where
  tasks : List SocialTask
  metrics : SocialDiscoveryMetrics := {}

namespace SocialBatch

variable (lib : Stdlib) (settings : Settings) (concurrency : ℕ)

/-- The collaborators of a call whose extractor answers as given. -/
def config (extract : Option (List LinkCandidate)) : DiscoverConfig := ⟨lib, settings, true, fun _ => extract⟩

/-- The call of the task goes on. -/
def resume (b : SocialBatch) (i : ℕ) (extract : Option (List LinkCandidate)) (p : DiscoverCall → Bool)
    (action : DiscoverAction) (report : DiscoverCall → SocialDiscoveryMetrics → SocialDiscoveryMetrics) :
    Option SocialBatch :=
  match b.tasks[i]? with
  | some (.called call) =>
    if p call then
      (call.step (config lib settings extract) action).map fun call' =>
        ⟨b.tasks.set i (.called call'), report call b.metrics⟩
    else none
  | _ => none

def step (b : SocialBatch) : SocialBatchAction → Option SocialBatch
  | .enter i =>
    match b.tasks[i]? with
    | some (.waiting lead) =>
      if b.tasks.countP SocialTask.running < concurrency then
        some { b with tasks := b.tasks.set i (.called (DiscoverCall.start (config lib settings none) lead)) }
      else none
    | _ => none
  | .recorded i => b.resume lib settings i none (fun call => !call.readsPage) .recorded DiscoverCall.report
  | .extracted i candidates => b.resume lib settings i candidates DiscoverCall.readsPage .recorded DiscoverCall.report
  | .fetched i html => b.resume lib settings i none (fun _ => true) (.fetched html) fun _ m => m
  | .found i results => b.resume lib settings i none (fun _ => true) (.found results) fun _ m => m
  | .raises i => b.resume lib settings i none (fun call => call.phase = .fetching || call.phase = .searching) .raises fun _ m => m

/-- `discover_social_batch` up to the first suspension. -/
def start (leads : List BusinessLead) : SocialBatch := ⟨(leads.filter needsSocial).map .waiting, {}⟩

/-- The gather has returned. -/
def done (b : SocialBatch) : Bool := b.tasks.all fun t => t.returned || t.raised

end SocialBatch

/-! ## The end of a call -/

namespace DiscoverCall

variable {c : DiscoverConfig} {s s' : DiscoverCall}

theorem finish_awaits (hm : c.metrics = true) : (s.finish c).awaits = true := by
  rw [awaits, finish, hm]
  rfl

theorem search_awaits (hm : c.metrics = true) : (s.search c).awaits = true := by
  unfold search
  split_ifs
  · rfl
  · exact finish_awaits hm

theorem matchAll_awaits (hm : c.metrics = true) (candidates : List LinkCandidate) : (s.matchAll c candidates).awaits = true := by
  unfold matchAll
  dsimp only
  split_ifs
  · rfl
  · exact search_awaits hm

theorem begin_awaits (hm : c.metrics = true) : (s.begin c).awaits = true := by
  unfold DiscoverCall.begin
  dsimp only
  split_ifs
  · rfl
  · exact matchAll_awaits hm []

theorem takeResults_awaits (hm : c.metrics = true) (results : Platform → FallbackResult) :
    (s.takeResults c results).awaits = true := by
  unfold takeResults
  dsimp only
  split_ifs
  · rfl
  · exact finish_awaits hm

/-- Where no page is read, a call to the metrics is followed by another await or ends the call. -/
theorem recorded_ends (hm : c.metrics = true) (hr : s.readsPage = false) (h : s.step c .recorded = some s') :
    s.phase = .finishing ∧ s' = { s with phase := .returned } ∨ s.phase ≠ .finishing ∧ s'.awaits = true := by
  simp only [step] at h
  split at h
  · rename_i hp
    obtain rfl := Option.some.inj h
    exact .inr ⟨by rw [hp]; nofun, begin_awaits hm⟩
  · rename_i html hp
    obtain rfl := Option.some.inj h
    refine .inr ⟨by rw [hp]; nofun, ?_⟩
    rw [readsPage, hp] at hr
    cases html with
    | none => exact matchAll_awaits hm []
    | some page =>
      cases page with
      | nil => exact matchAll_awaits hm []
      | cons x page => cases hr
  · rename_i hp
    obtain rfl := Option.some.inj h
    exact .inr ⟨by rw [hp]; nofun, search_awaits hm⟩
  · rename_i hp
    obtain rfl := Option.some.inj h
    exact .inr ⟨by rw [hp]; nofun, finish_awaits hm⟩
  · rename_i hp
    exact .inl ⟨hp, (Option.some.inj h).symm⟩
  · cases h

/-- Where a page is read, the call raises if and only if the extractor does. -/
theorem recorded_reads {lib : Stdlib} {settings : Settings} {extract : Option (List LinkCandidate)} (hr : s.readsPage = true)
    (h : s.step (SocialBatch.config lib settings extract) .recorded = some s') :
    s.phase ≠ .finishing ∧ (extract = none ∧ s'.phase = .raised ∨ extract ≠ none ∧ s'.awaits = true) := by
  unfold readsPage at hr
  split at hr
  · rename_i html hp
    refine ⟨by rw [hp]; nofun, ?_⟩
    simp only [step, hp, Option.some.injEq] at h
    subst h
    cases html with
    | none => cases hr
    | some page =>
      cases page with
      | nil => cases hr
      | cons x page =>
        cases extract with
        | none => exact .inl ⟨rfl, rfl⟩
        | some candidates => exact .inr ⟨nofun, matchAll_awaits rfl _⟩
  · cases hr

theorem awaits_of_step {a : DiscoverAction} (h : s.step c a = some s') (ha : a ≠ .select) : s.awaits = true := by
  cases a with
  | recorded => cases hp : s.phase <;> simp [step, hp, awaits] at h ⊢
  | fetched html =>
    simp only [step] at h
    split_ifs at h with hp
    all_goals rw [awaits, hp]
  | found results =>
    simp only [step] at h
    split_ifs at h with hp
    rw [awaits, hp]
  | raises => exact (Option.ite_none_right_eq_some.1 h).1
  | cancel => exact (Option.ite_none_right_eq_some.1 h).1
  | select => exact absurd rfl ha

end DiscoverCall

/-! ## One step -/

/-- The reports of finished calls, in the counters. -/
structure Reported (m m' : SocialDiscoveryMetrics) (t : SocialTask) : Prop where
  total : m'.totalProcessed = m.totalProcessed + if t.returned then 1 else 0
  instagram : m'.instagramFound =
    m.instagramFound + if t.returned && t.lead.social.instagramUrl.isSome then 1 else 0
  facebook : m'.facebookFound = m.facebookFound + if t.returned && t.lead.social.facebookUrl.isSome then 1 else 0

namespace Reported

variable {m : SocialDiscoveryMetrics} {s : DiscoverCall}

/-- A task that has not returned has not reported itself. -/
theorem of_not_returned {m' : SocialDiscoveryMetrics} {t : SocialTask} (ht : t.returned = false)
    (hm : m'.totalProcessed = m.totalProcessed ∧ m'.instagramFound = m.instagramFound ∧ m'.facebookFound = m.facebookFound) :
    Reported m m' t where
  total := by simp [ht, hm]
  instagram := by simp [ht, hm]
  facebook := by simp [ht, hm]

theorem report_other (hp : s.phase ≠ .finishing) : (s.report m).totalProcessed = m.totalProcessed ∧
    (s.report m).instagramFound = m.instagramFound ∧ (s.report m).facebookFound = m.facebookFound := by
  unfold DiscoverCall.report
  split
  · unfold SocialDiscoveryMetrics.recordHtmlFetch
    split_ifs <;> exact ⟨rfl, rfl, rfl⟩
  · exact ⟨rfl, rfl, rfl⟩
  · exact ⟨rfl, rfl, rfl⟩
  · rename_i hf
    exact absurd hf hp
  · exact ⟨rfl, rfl, rfl⟩

theorem report_finishing (hp : s.phase = .finishing) : Reported m (s.report m) (.called { s with phase := .returned }) := by
  rw [DiscoverCall.report, hp]
  constructor
  · rfl
  · cases hi : s.lead.social.instagramUrl <;> simp [SocialDiscoveryMetrics.finishOne, SocialTask.returned, SocialTask.phase, SocialTask.lead, hi]
  · cases hf : s.lead.social.facebookUrl <;> simp [SocialDiscoveryMetrics.finishOne, SocialTask.returned, SocialTask.phase, SocialTask.lead, hf]

end Reported

namespace SocialTask

variable {s : DiscoverCall}

theorem ended_of_awaits (h : s.awaits = true) : (called s).returned = false ∧ (called s).raised = false := by
  cases hp : s.phase <;> simp [DiscoverCall.awaits, returned, raised, phase, hp] at h ⊢

theorem ended_of_raised (h : s.phase = .raised) : (called s).returned = false ∧ (called s).raised = true := by
  simp [returned, raised, phase, h]

end SocialTask

namespace SocialBatch

variable {lib : Stdlib} {settings : Settings} {concurrency : ℕ} {b b' : SocialBatch}

theorem resume_spec {i : ℕ} {extract : Option (List LinkCandidate)} {p : DiscoverCall → Bool} {action : DiscoverAction}
    {report : DiscoverCall → SocialDiscoveryMetrics → SocialDiscoveryMetrics}
    (h : b.resume lib settings i extract p action report = some b') :
    ∃ call call', b.tasks[i]? = some (.called call) ∧ p call = true ∧
      call.step (config lib settings extract) action = some call' ∧ b' = ⟨b.tasks.set i (.called call'), report call b.metrics⟩ := by
  unfold resume at h
  split at h
  · rename_i call ht
    split_ifs at h with hp
    obtain ⟨call', hstep, rfl⟩ := Option.map_eq_some_iff.1 h
    exact ⟨call, call', ht, hp, hstep, rfl⟩
  · cases h

/-- The task takes a step that it can take, raises if and only if its collaborator does, and reports itself if it returns. -/
def Moves (b b' : SocialBatch) (i : ℕ) (exception : Bool) : Prop :=
  ∃ t t', b.tasks[i]? = some t ∧ t.returned = false ∧ t.raised = false ∧ b'.tasks = b.tasks.set i t' ∧
    t'.raised = exception ∧ Reported b.metrics b'.metrics t'

/-- The step of a call that has not ended, by what becomes of it. -/
theorem moves_resume {i : ℕ} {extract : Option (List LinkCandidate)} {p : DiscoverCall → Bool} {action : DiscoverAction}
    {report : DiscoverCall → SocialDiscoveryMetrics → SocialDiscoveryMetrics} {exception : Bool}
    (h : b.resume lib settings i extract p action report = some b') (ha : action ≠ .select)
    (hcall : ∀ call call', p call = true → call.step (config lib settings extract) action = some call' →
      (SocialTask.called call').raised = exception ∧ Reported b.metrics (report call b.metrics) (.called call')) :
    Moves b b' i exception := by
  obtain ⟨call, call', ht, hp, hstep, rfl⟩ := resume_spec h
  obtain ⟨hr, hx⟩ := SocialTask.ended_of_awaits (DiscoverCall.awaits_of_step hstep ha)
  exact ⟨_, _, ht, hr, hx, rfl, hcall call call' hp hstep⟩

/-- Each step is that of one task. -/
theorem step_moves {e : SocialBatchAction} (h : b.step lib settings concurrency e = some b') :
    ∃ i, Moves b b' i e.isException := by
  cases e with
  | enter i =>
    simp only [step] at h
    split at h
    · rename_i lead ht
      split_ifs at h
      obtain rfl := Option.some.inj h
      obtain ⟨hr, hx⟩ := SocialTask.ended_of_awaits (s := DiscoverCall.start (config lib settings none) lead) rfl
      exact ⟨i, _, _, ht, rfl, rfl, rfl, hx, .of_not_returned hr ⟨rfl, rfl, rfl⟩⟩
    · cases h
  | recorded i =>
    rw [step] at h
    refine ⟨i, moves_resume h nofun fun call call' hreads hstep => ?_⟩
    rcases DiscoverCall.recorded_ends rfl (by simpa using hreads) hstep with ⟨hp, rfl⟩ | ⟨hp, hawaits⟩
    · exact ⟨rfl, .report_finishing hp⟩
    · obtain ⟨hr, hx⟩ := SocialTask.ended_of_awaits hawaits
      exact ⟨hx, .of_not_returned hr (Reported.report_other hp)⟩
  | extracted i candidates =>
    rw [step] at h
    refine ⟨i, moves_resume h nofun fun call call' hreads hstep => ?_⟩
    obtain ⟨hp, ⟨rfl, hraised⟩ | ⟨hsome, hawaits⟩⟩ := DiscoverCall.recorded_reads hreads hstep
    · obtain ⟨hr, hx⟩ := SocialTask.ended_of_raised hraised
      exact ⟨hx, .of_not_returned hr (Reported.report_other hp)⟩
    · obtain ⟨hr, hx⟩ := SocialTask.ended_of_awaits hawaits
      refine ⟨?_, .of_not_returned hr (Reported.report_other hp)⟩
      rw [hx]
      cases candidates with
      | none => exact absurd rfl hsome
      | some candidates => rfl
  | fetched i html =>
    rw [step] at h
    refine ⟨i, moves_resume h nofun fun call call' _ hstep => ?_⟩
    obtain ⟨-, hstep'⟩ := Option.ite_none_right_eq_some.1 hstep
    obtain rfl := Option.some.inj hstep'
    exact ⟨rfl, .of_not_returned rfl ⟨rfl, rfl, rfl⟩⟩
  | found i results =>
    rw [step] at h
    refine ⟨i, moves_resume h nofun fun call call' _ hstep => ?_⟩
    obtain ⟨-, hstep'⟩ := Option.ite_none_right_eq_some.1 hstep
    obtain rfl := Option.some.inj hstep'
    obtain ⟨hr, hx⟩ := SocialTask.ended_of_awaits
      (DiscoverCall.takeResults_awaits (c := config lib settings none) (s := call) rfl results)
    exact ⟨hx, .of_not_returned hr ⟨rfl, rfl, rfl⟩⟩
  | raises i =>
    rw [step] at h
    refine ⟨i, moves_resume h nofun fun call call' _ hstep => ?_⟩
    obtain ⟨-, hstep'⟩ := Option.ite_none_right_eq_some.1 hstep
    obtain rfl := Option.some.inj hstep'
    exact ⟨rfl, .of_not_returned rfl ⟨rfl, rfl, rfl⟩⟩

/-! ## Whole runs -/

/-- The counters as they are meant to come out: every lead that was missing a URL, and each URL it has in the end. -/
def Accounted (leads : List BusinessLead) (b : SocialBatch) : Prop :=
  b.metrics.totalProcessed = leads.countP needsSocial ∧
    b.metrics.instagramFound = b.tasks.countP (fun t => t.lead.social.instagramUrl.isSome) ∧
    b.metrics.facebookFound = b.tasks.countP fun t => t.lead.social.facebookUrl.isSome

instance (leads : List BusinessLead) (b : SocialBatch) : Decidable (Accounted leads b) :=
  inferInstanceAs (Decidable (_ ∧ _ ∧ _))

/-- What the counters are after the actions. -/
structure Books (leads : List BusinessLead) (as : List SocialBatchAction) (b : SocialBatch) : Prop where
  length : b.tasks.length = leads.countP needsSocial
  total : b.metrics.totalProcessed = b.tasks.countP SocialTask.returned
  instagram : b.metrics.instagramFound = b.tasks.countP fun t => t.returned && t.lead.social.instagramUrl.isSome
  facebook : b.metrics.facebookFound = b.tasks.countP fun t => t.returned && t.lead.social.facebookUrl.isSome
  exceptions : as.countP SocialBatchAction.isException = b.tasks.countP SocialTask.raised

variable {leads : List BusinessLead} {as : List SocialBatchAction}

theorem start_count {p : SocialTask → Bool} (hp : ∀ lead, p (.waiting lead) = false) : (start leads).tasks.countP p = 0 := by
  rw [start, List.countP_map, List.countP_eq_zero]
  intro lead _
  rw [Function.comp_apply, hp]
  exact Bool.false_ne_true

variable (leads) in
theorem books_start : Books leads [] (start leads) where
  length := by rw [start, List.length_map, List.countP_eq_length_filter]
  total := (start_count fun _ => rfl).symm
  instagram := (start_count fun _ => rfl).symm
  facebook := (start_count fun _ => rfl).symm
  exceptions := (start_count fun _ => rfl).symm

theorem books_step (hb : Books leads as b) {e : SocialBatchAction} (h : b.step lib settings concurrency e = some b') :
    Books leads (as ++ [e]) b' := by
  obtain ⟨i, t, t', ht, hr, hx, htasks, hexception, hreport⟩ := step_moves h
  -- The task that takes the step was in none of the counts before.
  have hcount : ∀ p : SocialTask → Bool, p t = false →
      b'.tasks.countP p = b.tasks.countP p + if p t' then 1 else 0 := by
    intro p hp
    have hslot := countP_slot p ht t'
    rw [hp] at hslot
    rw [htasks]
    simpa using hslot
  constructor
  · rw [htasks, List.length_set, hb.length]
  · rw [hreport.total, hcount _ hr, hb.total]
  · rw [hreport.instagram, hcount _ (by rw [hr]; rfl), hb.instagram]
  · rw [hreport.facebook, hcount _ (by rw [hr]; rfl), hb.facebook]
  · rw [List.countP_append, List.countP_singleton, hcount _ hx, hb.exceptions, hexception]

theorem books_run (h : Steps (Fires (step lib settings concurrency)) (start leads) as b) : Books leads as b := by
  induction h with
  | nil => exact books_start leads
  | snoc _ hr ih => exact books_step ih hr

theorem ended_count (hd : b.done = true) :
    b.tasks.countP SocialTask.returned + b.tasks.countP SocialTask.raised = b.tasks.length := by
  rw [List.length_eq_countP_add_countP SocialTask.returned]
  congr 1
  apply List.countP_congr
  intro t ht
  have hended := List.all_eq_true.1 hd t ht
  cases hp : t.phase with
  | none => simp [SocialTask.returned, SocialTask.raised, hp] at hended
  | some p => cases p <;> simp [SocialTask.returned, SocialTask.raised, hp] at hended ⊢

/-- When the gather has returned, the metrics account for every lead if and only if no fetcher, extractor or fallback has
raised. -/
theorem metrics_account_iff (lib : Stdlib) (settings : Settings) (concurrency : ℕ) (leads : List BusinessLead)
    (as : List SocialBatchAction) (b : SocialBatch)
    (h : Steps (Fires (step lib settings concurrency)) (start leads) as b) (hd : b.done = true) :
    Accounted leads b ↔ ∀ e ∈ as, e.isException = false := by
  have hb := books_run h
  have hended := ended_count hd
  constructor
  · rintro ⟨htotal, -, -⟩
    have hraised : as.countP SocialBatchAction.isException = 0 := by
      have hlength := hb.length
      have hreturned := hb.total
      have hexceptions := hb.exceptions
      omega
    exact fun e he => eq_false_of_ne_true (List.countP_eq_zero.1 hraised e he)
  · intro hall
    have hraised : b.tasks.countP SocialTask.raised = 0 := by
      rw [← hb.exceptions]
      exact List.countP_eq_zero.2 fun e he => by simp [hall e he]
    have hreturned : ∀ t ∈ b.tasks, t.returned = true := by
      intro t ht
      have hnot := List.countP_eq_zero.1 hraised t ht
      simpa [hnot] using List.all_eq_true.1 hd t ht
    refine ⟨?_, ?_, ?_⟩
    · rw [hb.total, ← hb.length, ← hended, hraised]
      rfl
    · rw [hb.instagram]
      exact List.countP_congr fun t ht => by rw [hreturned t ht, Bool.true_and]
    · rw [hb.facebook]
      exact List.countP_congr fun t ht => by rw [hreturned t ht, Bool.true_and]

def nameOnlyLead : BusinessLead := { businessName := "Cafe".toList }

/-- The search finds a page on Facebook. -/
def searchedRun : List SocialBatchAction :=
  [.enter 0, .recorded 0,
    .found 0 fun p => if p = .facebook then some (some "https://www.facebook.com/cafe".toList, true) else some (none, false),
    .recorded 0, .recorded 0]

theorem metrics_account_searched : ∃ b, exec (step (cpython .ascii) .defaults 1) (start [nameOnlyLead]) searchedRun = some b ∧
    b.done = true ∧ b.metrics.facebookFound = 1 ∧ Accounted [nameOnlyLead] b := by
  obtain ⟨b, hb, hd, hf⟩ := exec_ends (f := step (cpython .ascii) .defaults 1)
    (Q := fun b => b.done = true ∧ b.metrics.facebookFound = 1) (s := start [nameOnlyLead]) searchedRun (by decide +kernel)
  exact ⟨b, hb, hd, hf, (metrics_account_iff _ _ _ _ searchedRun b (steps_of_exec hb) hd).2 (by decide +kernel)⟩

/-- A lead whose website is its profile. -/
def profileLead : BusinessLead := { businessName := "Cafe".toList, website := some "https://www.instagram.com/cafe".toList }

/-- The search for the other platform raises: the profile is there, but not in the metrics. -/
theorem failed_search_uncounted : ∃ b,
    exec (step (cpython .ascii) .defaults 1) (start [profileLead]) [.enter 0, .recorded 0, .recorded 0, .raises 0] = some b ∧
      b.done = true ∧ b.tasks.map (fun t => t.lead.social.instagramUrl) = [some "https://www.instagram.com/cafe".toList] ∧
      b.metrics.totalProcessed = 0 ∧ b.metrics.instagramFound = 0 ∧ ¬ Accounted [profileLead] b :=
  exec_ends _ (by decide +kernel)

end SocialBatch

end SocialScraper
