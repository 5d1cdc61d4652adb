import SocialScraper.Lib.Channel
import SocialScraper.Lib.Runs
import SocialScraper.Selection
/-!
# The streaming pipeline

`PipelineOrchestrator._stream_enrichment_social_selection`: the feeder, the
enrichment workers, the social workers and the coordinator, each running from
one await to the next, over the two bounded queues and the shared page pool.
An action runs one of them; which one is free, so every interleaving is a run.

A lead is an object with identity `ι`; its fields are in the store `fields`. A
call of `enrich_one` or `discover_social_links_one` may return or raise with
any fields written, and borrows and gives back pages one at a time meanwhile.
-/
open Lib

namespace SocialScraper

/-- What the run is configured with. -/
structure PipelineConfig where
  settings : Settings
  lib : Stdlib
  /-- `PipelineConcurrency.enrichment_worker_count`. -/
  enrichmentWorkerCount : Option ℕ := none
  /-- `PipelineConcurrency.social_worker_count`. -/
  socialWorkerCount : Option ℕ := none
  /-- The pages of the started pool. -/
  pages : ℕ

namespace PipelineConfig

variable (c : PipelineConfig)

def enrichmentWorkers : ℕ := orDefault c.enrichmentWorkerCount c.settings.enrichmentWorkerCount

def socialWorkers : ℕ := orDefault c.socialWorkerCount c.settings.maxSearchWorkers

/-- `maxsize` of `to_enrich`. -/
def enrichCapacity : ℕ := max (2 * c.enrichmentWorkers) 1

/-- `maxsize` of `to_social`. -/
def socialCapacity : ℕ := max (2 * c.socialWorkers) 1

theorem enrichmentWorkers_pos : 1 ≤ c.enrichmentWorkers :=
  orDefault_pos c.settings.enrichmentWorkerCount_ge fun _ _ => Nat.pos_of_ne_zero

theorem socialWorkers_pos : 1 ≤ c.socialWorkers :=
  orDefault_pos c.settings.maxSearchWorkers_ge fun _ _ => Nat.pos_of_ne_zero

end PipelineConfig

/-! ## The parties -/

/-- How a running call stands with the page pool. -/
inductive CallPhase where
  | running | awaitingPage | holdingPage
deriving DecidableEq

inductive CallStep where
  /-- `pool.acquire()`. -/
  | ask
  /-- The pool has a page for it. -/
  | acquire
  /-- The end of the `async with` block. -/
  | release
deriving DecidableEq

/-- A call's use of the pool: the free pages and the call's phase after it. -/
def CallPhase.advance : CallStep → ℕ → CallPhase → Option (ℕ × CallPhase)
  | .ask, free, .running => some (free, .awaitingPage)
  | .acquire, free + 1, .awaitingPage => some (free, .holdingPage)
  | .release, free, .holdingPage => some (free + 1, .running)
  | _, _, _ => none

/-- What a call leaves behind. -/
structure CallOutcome where
  fields : BusinessLead
  /-- It ended with an `Exception`. -/
  raised : Bool := false
deriving DecidableEq

inductive EnrichmentWorker (ι : Type) where
  /-- At `to_enrich.get()`. -/
  | getting
  /-- In `enrich_one`. -/
  | enriching (lead : ι) (call : CallPhase)
  /-- At `to_social.put(lead)`. -/
  | putting (lead : ι)
  | returned
deriving DecidableEq

inductive SocialWorker (ι : Type) where
  /-- At `to_social.get()`. -/
  | getting
  /-- In `discover_social_links_one`. -/
  | discovering (lead : ι) (call : CallPhase)
  | returned
deriving DecidableEq

inductive Coordinator where
  /-- At `gather(feeder_task, *enrichment_tasks)`. -/
  | gatheringEnrichment
  /-- At `to_social.put(_QUEUE_DONE)`, with so many more of them to put. -/
  | puttingDone (after : ℕ)
  /-- At `gather(*social_tasks)`. -/
  | gatheringSocial
  | returned
deriving DecidableEq

/-- The loop that puts the markers, with `n` of them left. -/
def Coordinator.putLoop : ℕ → Coordinator
  | 0 => .gatheringSocial
  | n + 1 => .puttingDone n

structure Counts where
  enrichmentCompleted : ℕ := 0
  enrichmentFailed : ℕ := 0
  socialCompleted : ℕ := 0
  socialFailed : ℕ := 0
  selectionBefore : ℕ := 0
  selectionAfter : ℕ := 0
deriving DecidableEq

/-- The `completed` and `failed` of a `finish_stage` call. -/
structure StageReport where
  completed : ℕ
  failed : ℕ
deriving DecidableEq

/-- The `finish_stage` calls for the three stages. -/
structure Reports where
  enrichment : StageReport
  social : StageReport
  selection : StageReport
deriving DecidableEq

/-- What the coordinator reports at the end. -/
def Counts.reports (n : Counts) : Reports where
  enrichment := ⟨n.enrichmentCompleted, n.enrichmentFailed⟩
  social := ⟨n.socialCompleted, n.socialFailed⟩
  selection := ⟨n.selectionAfter, n.selectionBefore - n.selectionAfter⟩

/-- Where a lead enters and leaves the two worker bodies. -/
inductive Mark where
  | enrichStart | enrichEnd | socialStart | socialEnd
deriving DecidableEq

/-- The state of the run. `log` is history: the marks in the order they were passed. -/
structure Stream (ι : Type) where
  leads : List ι
  fields : ι → BusinessLead
  enrichmentNeededIds : List ι
  /-- What `feed_enrichment` has still to put. -/
  feeder : List (Message ι)
  toEnrich : List (Message ι) := []
  enrichers : List (EnrichmentWorker ι)
  toSocial : List (Message ι) := []
  socials : List (SocialWorker ι)
  coordinator : Coordinator := .gatheringEnrichment
  freePages : ℕ
  /-- `_cancel_event.is_set()`. -/
  cancelEvent : Bool := false
  counts : Counts := {}
  reports : Option Reports := none
  log : List (ι × Mark) := []

inductive StreamAction (ι : Type) where
  | feed
  | enrichGet (worker : ℕ)
  | enrichCall (worker : ℕ) (s : CallStep)
  | enrichEnd (worker : ℕ) (o : CallOutcome)
  | enrichPut (worker : ℕ)
  | socialGet (worker : ℕ)
  | socialCall (worker : ℕ) (s : CallStep)
  | socialEnd (worker : ℕ) (o : CallOutcome)
  | enrichmentGathered
  | putDone
  | socialGathered
  | requestCancellation
deriving DecidableEq

/-! ## The steps -/

/-- Whether a lead is in `enrichment_needed_ids`. -/
def needsEnrichment (lead : BusinessLead) : Bool := !truthy lead.website && truthy lead.social.googleMapsUrl

def needsSocial (lead : BusinessLead) : Bool := lead.social.instagramUrl.isNone || lead.social.facebookUrl.isNone

def hasSocialUrl (lead : BusinessLead) : Bool := truthy lead.social.instagramUrl || truthy lead.social.facebookUrl

/-- A lead with a Maps URL and nothing else, for runs on concrete leads. -/
def mapsLead : BusinessLead := { businessName := "Cafe".toList, social := { googleMapsUrl := some "https://maps.test/1".toList } }

namespace Stream

variable {ι : Type} [DecidableEq ι] (c : PipelineConfig)

/-- The state once all tasks are created. -/
def start (leads : List ι) (fields : ι → BusinessLead) : Stream ι where
  leads := leads
  fields := fields
  enrichmentNeededIds := leads.filter fun a => needsEnrichment (fields a)
  feeder := leads.map .item ++ List.replicate c.enrichmentWorkers .done
  enrichers := List.replicate c.enrichmentWorkers .getting
  socials := List.replicate c.socialWorkers .getting
  freePages := c.pages

def mark (s : Stream ι) (a : ι) (m : Mark) : Stream ι := { s with log := s.log ++ [(a, m)] }

def setEnricher (s : Stream ι) (i : ℕ) (w : EnrichmentWorker ι) : Stream ι := { s with enrichers := s.enrichers.set i w }

def setSocial (s : Stream ι) (j : ℕ) (w : SocialWorker ι) : Stream ι := { s with socials := s.socials.set j w }

def setFields (s : Stream ι) (a : ι) (l : BusinessLead) : Stream ι := { s with fields := Function.update s.fields a l }

/-- One `put` of `feed_enrichment`. -/
def feed (s : Stream ι) : Option (Stream ι) :=
  match s.feeder with
  | [] => none
  | m :: rest =>
    if s.toEnrich.length < c.enrichCapacity then some { s with feeder := rest, toEnrich := s.toEnrich ++ [m] } else none

/-- `enrichment_worker` from its `get` to the next await. -/
def enrichGet (s : Stream ι) (i : ℕ) : Option (Stream ι) :=
  match s.enrichers[i]?, s.toEnrich with
  | some .getting, .done :: q => some ({ s with toEnrich := q }.setEnricher i .returned)
  | some .getting, .item a :: q =>
    let s := { s with toEnrich := q }.mark a .enrichStart
    -- A lead that is not needed, or that comes after a cancellation, is forwarded as it is.
    some (if a ∈ s.enrichmentNeededIds ∧ s.cancelEvent = false then s.setEnricher i (.enriching a .running)
      else (s.mark a .enrichEnd).setEnricher i (.putting a))
  | _, _ => none

/-- `enrich_one` uses the page pool. -/
def enrichCall (s : Stream ι) (i : ℕ) (u : CallStep) : Option (Stream ι) :=
  match s.enrichers[i]? with
  | some (.enriching a p) =>
    (p.advance u s.freePages).map fun (free, p) => { s with freePages := free }.setEnricher i (.enriching a p)
  | _ => none

/-- `enrich_one` returns or raises; the worker counts and goes on to its `put`. -/
def enrichEnd (s : Stream ι) (i : ℕ) (o : CallOutcome) : Option (Stream ι) :=
  match s.enrichers[i]? with
  | some (.enriching a .running) =>
    let counts := if o.fields.website.isSome then
        { s.counts with enrichmentCompleted := s.counts.enrichmentCompleted + 1 }
      else { s.counts with enrichmentFailed := s.counts.enrichmentFailed + 1 }
    some ((({ s with counts := counts }.setFields a o.fields).mark a .enrichEnd).setEnricher i (.putting a))
  | _ => none

/-- `to_social.put(lead)`. -/
def enrichPut (s : Stream ι) (i : ℕ) : Option (Stream ι) :=
  match s.enrichers[i]? with
  | some (.putting a) =>
    if s.toSocial.length < c.socialCapacity then
      some ({ s with toSocial := s.toSocial ++ [Message.item a] }.setEnricher i .getting)
    else none
  | _ => none

/-- `social_worker` counts the lead after its discovery, and before its selection. -/
def countDiscovered (n : Counts) (needed : Bool) (lead : BusinessLead) : Counts :=
  let n := if needed then
      if hasSocialUrl lead then { n with socialCompleted := n.socialCompleted + 1 }
      else { n with socialFailed := n.socialFailed + 1 }
    else n
  if hasSocialUrl lead then { n with selectionBefore := n.selectionBefore + 1 } else n

/-- `social_worker` counts the lead after its selection. -/
def countSelected (n : Counts) (lead : BusinessLead) : Counts :=
  if hasSocialUrl lead then { n with selectionAfter := n.selectionAfter + 1 } else n

/-- `social_worker` from the end of the discovery to its next `get`. An exception of
the selection ends the body early. -/
def finishSocial (s : Stream ι) (j : ℕ) (a : ι) (needed : Bool) : Stream ι :=
  let s := { s with counts := countDiscovered s.counts needed (s.fields a) }
  let s := match selectLead c.lib c.settings (s.fields a) with
    | some lead => { s with counts := countSelected s.counts lead }.setFields a lead
    | none => s
  (s.mark a .socialEnd).setSocial j .getting

/-- `social_worker` from its `get` to the next await. -/
def socialGet (s : Stream ι) (j : ℕ) : Option (Stream ι) :=
  match s.socials[j]?, s.toSocial with
  | some .getting, .done :: q => some ({ s with toSocial := q }.setSocial j .returned)
  | some .getting, .item a :: q =>
    let s := { s with toSocial := q }.mark a .socialStart
    let needed := needsSocial (s.fields a)
    -- Selection runs on every lead, discovery or not.
    some (if needed ∧ s.cancelEvent = false then s.setSocial j (.discovering a .running)
      else s.finishSocial c j a needed)
  | _, _ => none

/-- `discover_social_links_one` uses the page pool. -/
def socialCall (s : Stream ι) (j : ℕ) (u : CallStep) : Option (Stream ι) :=
  match s.socials[j]? with
  | some (.discovering a p) =>
    (p.advance u s.freePages).map fun (free, p) => { s with freePages := free }.setSocial j (.discovering a p)
  | _ => none

/-- `discover_social_links_one` returns or raises. -/
def socialEnd (s : Stream ι) (j : ℕ) (o : CallOutcome) : Option (Stream ι) :=
  match s.socials[j]? with
  | some (.discovering a .running) => some ((s.setFields a o.fields).finishSocial c j a true)
  | _ => none

/-- The feeder and the enrichment workers have returned. -/
def enrichmentGathered (s : Stream ι) : Option (Stream ι) :=
  if s.coordinator = .gatheringEnrichment ∧ s.feeder = [] ∧ ∀ w ∈ s.enrichers, w = .returned then
    some { s with coordinator := .putLoop c.socialWorkers }
  else none

/-- `to_social.put(_QUEUE_DONE)`. -/
def putDone (s : Stream ι) : Option (Stream ι) :=
  match s.coordinator with
  | .puttingDone n =>
    if s.toSocial.length < c.socialCapacity then
      some { s with toSocial := s.toSocial ++ [.done], coordinator := .putLoop n }
    else none
  | _ => none

/-- The social workers have returned: the coordinator reports and returns. -/
def socialGathered (s : Stream ι) : Option (Stream ι) :=
  if s.coordinator = .gatheringSocial ∧ ∀ w ∈ s.socials, w = .returned then
    some { s with coordinator := .returned, reports := some s.counts.reports }
  else none

def step (s : Stream ι) : StreamAction ι → Option (Stream ι)
  | .feed => s.feed c
  | .enrichGet i => s.enrichGet i
  | .enrichCall i u => s.enrichCall i u
  | .enrichEnd i o => s.enrichEnd i o
  | .enrichPut i => s.enrichPut c i
  | .socialGet j => s.socialGet c j
  | .socialCall j u => s.socialCall j u
  | .socialEnd j o => s.socialEnd c j o
  | .enrichmentGathered => s.enrichmentGathered c
  | .putDone => s.putDone c
  | .socialGathered => s.socialGathered
  | .requestCancellation => some { s with cancelEvent := true }

end Stream

end SocialScraper
