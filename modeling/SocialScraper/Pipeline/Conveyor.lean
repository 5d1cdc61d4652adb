import SocialScraper.Lib.Tokens
import SocialScraper.Lib.Workers
import SocialScraper.Pipeline.StreamSteps
/-!
# The conveyor

What the stream is for: each lead goes from station to station by itself, is
enriched and gets its social links on the way, and loses nothing. The
`Conveyor` has no queues, workers or pages. `Refines` connects the stream to
it, and `stream_refines` is the simulation.
-/
open Lib

namespace SocialScraper

inductive Station where
  | waiting | queued | enriching | putting | queuedSocial | discovering | finished
deriving DecidableEq

/-- The marks a lead has passed. -/
def Station.passed : Station → List Mark
  | .waiting | .queued => []
  | .enriching => [.enrichStart]
  | .putting | .queuedSocial => [.enrichStart, .enrichEnd]
  | .discovering => [.enrichStart, .enrichEnd, .socialStart]
  | .finished => [.enrichStart, .enrichEnd, .socialStart, .socialEnd]

structure Conveyor (ι : Type) where
  station : ι → Station
  fields : ι → BusinessLead
  cancelled : Bool
  log : List (ι × Mark)

/-- What the calls may do to a lead, and whether the run may be cancelled. -/
structure Behaviour (ι : Type) where
  enriches : ι → BusinessLead → BusinessLead → Prop
  discovers : ι → BusinessLead → BusinessLead → Prop
  cancels : Prop

/-- Nothing is ruled out. -/
def Behaviour.any (ι : Type) : Behaviour ι := ⟨fun _ _ _ => True, fun _ _ _ => True, True⟩

namespace Conveyor

variable {ι : Type} [DecidableEq ι] (c : PipelineConfig) (B : Behaviour ι) (needed : List ι)

def start (fields : ι → BusinessLead) : Conveyor ι := ⟨fun _ => .waiting, fields, false, []⟩

/-- The lead `a` passes the marks `ms` to the station `q`, with the fields `l`. -/
def move (k : Conveyor ι) (a : ι) (q : Station) (ms : List Mark) (l : BusinessLead) : Conveyor ι where
  station := Function.update k.station a q
  fields := Function.update k.fields a l
  cancelled := k.cancelled
  log := k.log ++ ms.map (a, ·)

/-- One lead goes on by itself, or the run is cancelled. -/
inductive Hop (k : Conveyor ι) : Option ι → Conveyor ι → Prop
  | fed {a} (h : k.station a = .waiting) : Hop k (some a) (k.move a .queued [] (k.fields a))
  | enrichBegins {a} (h : k.station a = .queued) (hn : a ∈ needed) (hc : k.cancelled = false) :
      Hop k (some a) (k.move a .enriching [.enrichStart] (k.fields a))
  | enrichSkips {a} (h : k.station a = .queued) (hn : a ∉ needed ∨ k.cancelled = true) :
      Hop k (some a) (k.move a .putting [.enrichStart, .enrichEnd] (k.fields a))
  | enriched {a l} (h : k.station a = .enriching) (hl : B.enriches a (k.fields a) l) :
      Hop k (some a) (k.move a .putting [.enrichEnd] l)
  | forwarded {a} (h : k.station a = .putting) : Hop k (some a) (k.move a .queuedSocial [] (k.fields a))
  | socialBegins {a} (h : k.station a = .queuedSocial) (hn : needsSocial (k.fields a) = true)
      (hc : k.cancelled = false) : Hop k (some a) (k.move a .discovering [.socialStart] (k.fields a))
  | socialSkips {a} (h : k.station a = .queuedSocial) (hn : needsSocial (k.fields a) = false ∨ k.cancelled = true) :
      Hop k (some a) (k.move a .finished [.socialStart, .socialEnd] (Stream.selected c (k.fields a)))
  | discovered {a l} (h : k.station a = .discovering) (hl : B.discovers a (k.fields a) l) :
      Hop k (some a) (k.move a .finished [.socialEnd] (Stream.selected c l))
  | cancel (hb : B.cancels) : Hop k none { k with cancelled := true }

/-- The marks of the lead `a`, in order. -/
def marksOf (log : List (ι × Mark)) (a : ι) : List Mark := (log.filter fun e => e.1 = a).map (·.2)

theorem marksOf_append (log : List (ι × Mark)) (a b : ι) (ms : List Mark) :
    marksOf (log ++ ms.map (b, ·)) a = marksOf log a ++ if a = b then ms else [] := by
  by_cases h : a = b
  · subst h
    simp [marksOf, List.filter_append, List.filter_map, Function.comp_def]
  · simp [marksOf, List.filter_append, List.filter_map, Function.comp_def, h, Ne.symm h]

/-- Every lead has passed exactly the marks before its station. -/
def Passed (k : Conveyor ι) : Prop := ∀ a, marksOf k.log a = (k.station a).passed

variable {c B needed}

theorem passed_move {k : Conveyor ι} (h : Passed k) (a : ι) (q : Station) (ms : List Mark) (l : BusinessLead)
    (hq : (k.station a).passed ++ ms = q.passed) : Passed (k.move a q ms l) := by
  intro b
  rw [move, marksOf_append, h b]
  by_cases hb : b = a
  · subst hb
    simpa using hq
  · simp [hb]

theorem passed_hop {k k' : Conveyor ι} {a : Option ι} (hp : Passed k) (h : Hop c B needed k a k') : Passed k' := by
  cases h with
  | cancel => exact hp
  | fed h | enrichBegins h | enrichSkips h | enriched h | forwarded h | socialBegins h | socialSkips h | discovered h =>
    exact passed_move hp _ _ _ _ (by rw [h]; rfl)

theorem passed_reachable {fields : ι → BusinessLead} {k : Conveyor ι}
    (h : Reachable (Hop c B needed) (start fields) k) : Passed k :=
  h.inv Passed (fun _ => rfl) fun _ _ _ hp hr => passed_hop hp hr

end Conveyor

end SocialScraper
