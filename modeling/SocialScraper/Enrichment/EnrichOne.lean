import SocialScraper.Enrichment.EnrichmentCache
import SocialScraper.Lib.Runs
import SocialScraper.Lib.Workers
import SocialScraper.Network.RetryStrategy
import SocialScraper.Pipeline.Stream
/-!
# Enriching leads

`enrich_one` of `app.enrichment.google_maps.batch`, with the retries of
`DetailPanelNavigator.open`: calls that share a cache and a page pool. A call
suspends in the pool's `acquire`, in a navigation, in the sleep before the next
one, and in the extraction.
-/
open Lib

namespace SocialScraper

/-- What `_navigate` raises. -/
inductive NavigationError where
  | scraperTimeout | extraction
deriving DecidableEq

structure EnrichConfig where
  /-- `default_ttl_seconds` of the cache. -/
  ttl : ℚ
  /-- The pages of the pool. -/
  pages : ℕ
  /-- `max_attempts` of the navigator's retry policy. -/
  maxAttempts : ℕ
  /-- Whether the policy's `retryable_exceptions` has the exception. -/
  retryable : NavigationError → Bool

/-- `default_detail_retry_policy`, and a cache as `EnrichmentCache()` makes it. -/
def EnrichConfig.default (settings : Settings) (pages : ℕ) : EnrichConfig where
  ttl := 300
  pages := pages
  maxAttempts := settings.maxRetries + 1
  retryable _ := true

inductive EnrichPhase where
  /-- In `pool.acquire()`. -/
  | acquiring
  /-- In the given navigation attempt. -/
  | navigating (attempt : ℕ)
  /-- Asleep after the given attempt. -/
  | backoff (attempt : ℕ)
  | extracting
  | returned
  | raised
  | cancelled
deriving DecidableEq

/-- Whether a call holds a page. -/
def EnrichPhase.holdsPage : EnrichPhase → Bool
  | .navigating _ | .backoff _ | .extracting => true
  | .acquiring | .returned | .raised | .cancelled => false

/-- Whether a call has looked its key up in vain and not ended yet. -/
def EnrichPhase.inFlight : EnrichPhase → Bool
  | .acquiring => true
  | p => p.holdsPage

/-- A call. `lookedUp` is history: how long the log was at its lookup. -/
structure EnrichCall (ι : Type) where
  lead : ι
  mapsUrl : Str
  phase : EnrichPhase
  lookedUp : ℕ

def EnrichCall.key {ι : Type} (c : EnrichCall ι) : Str := cacheKey c.mapsUrl

/-- The navigations and the stores, with their keys and times. -/
inductive CacheEvent where
  | navigation (key : Str) (time : ℚ)
  | stored (key : Str) (time : ℚ)
deriving DecidableEq

/-- The calls, the finished ones too. `log` is history, the latest event first. -/
structure EnrichRun (ι : Type) where
  fields : ι → BusinessLead
  cache : MemoryCache (Option Str) := {}
  freePages : ℕ
  calls : List (EnrichCall ι) := []
  now : ℚ
  log : List CacheEvent := []

/-- What comes of the extraction: an exception, or a website that has been validated and normalized. -/
inductive Extraction where
  | raises
  | website (url : Option Str)
deriving DecidableEq

inductive EnrichAction (ι : Type) where
  | call (lead : ι)
  /-- The pool has a page for the call. -/
  | pageReady (call : ℕ)
  | navigated (call : ℕ)
  | navigationFails (call : ℕ) (e : NavigationError)
  /-- The sleep before the next attempt is over. -/
  | retry (call : ℕ)
  | extracted (call : ℕ) (o : Extraction)
  | cancel (call : ℕ)
deriving DecidableEq

structure EnrichEvent (ι : Type) where
  time : ℚ
  action : EnrichAction ι

namespace EnrichRun

variable {ι : Type} [DecidableEq ι] (c : EnrichConfig)

def setCall (s : EnrichRun ι) (k : ℕ) (call : EnrichCall ι) (p : EnrichPhase) : EnrichRun ι :=
  { s with calls := s.calls.set k { call with phase := p } }

def setWebsite (s : EnrichRun ι) (a : ι) (website : Option Str) : EnrichRun ι :=
  { s with fields := Function.update s.fields a { s.fields a with website := website } }

/-- `page.goto` of the given attempt. -/
def navigate (s : EnrichRun ι) (k : ℕ) (call : EnrichCall ι) (attempt : ℕ) : EnrichRun ι :=
  { s.setCall k call (.navigating attempt) with log := .navigation call.key s.now :: s.log }

/-- The end of a call that holds a page: the page goes back. -/
def giveBack (s : EnrichRun ι) (k : ℕ) (call : EnrichCall ι) (p : EnrichPhase) : EnrichRun ι :=
  { s.setCall k call p with freePages := s.freePages + 1 }

/-- With a page in hand: `navigator.open` up to its first navigation. -/
def openPanel (s : EnrichRun ι) (k : ℕ) (call : EnrichCall ι) : EnrichRun ι :=
  if 1 ≤ c.maxAttempts then { s with freePages := s.freePages - 1 }.navigate k call 1
  else s.setCall k call .raised

/-- `enrich_one` up to its first suspension. -/
def enrichOne (s : EnrichRun ι) (a : ι) : EnrichRun ι :=
  let lead := s.fields a
  let mapsUrl := lead.social.googleMapsUrl.getD []
  let call (p : EnrichPhase) : EnrichCall ι := ⟨a, mapsUrl, p, s.log.length⟩
  if truthy lead.website || mapsUrl == [] then { s with calls := s.calls ++ [call .returned] }
  else
    match s.cache.get (cacheKey mapsUrl) s.now with
    | (cache, some website) => { s with cache := cache, calls := s.calls ++ [call .returned] }.setWebsite a website
    | (cache, none) =>
      let s' := { s with cache := cache, calls := s.calls ++ [call .acquiring] }
      if s.freePages = 0 then s' else s'.openPanel c s.calls.length (call .acquiring)

/-- After an attempt failed. -/
def failNavigation (s : EnrichRun ι) (k : ℕ) (call : EnrichCall ι) (attempt : ℕ) (e : NavigationError) : EnrichRun ι :=
  if c.retryable e && attempt < c.maxAttempts && !RetryPolicy.delayOverflows attempt then s.setCall k call (.backoff attempt)
  else s.giveBack k call .raised

/-- After the extraction: the website is written and the outcome stored. -/
def finish (s : EnrichRun ι) (k : ℕ) (call : EnrichCall ι) : Extraction → EnrichRun ι
  | .raises => s.giveBack k call .raised
  | .website url =>
    let s' := (s.giveBack k call .returned).setWebsite call.lead url
    { s' with cache := s.cache.set call.key s.now url c.ttl, log := .stored call.key s.now :: s.log }

/-- The call `k` goes on from its suspension. -/
def resumeFrom (s : EnrichRun ι) (k : ℕ) (call : EnrichCall ι) : EnrichAction ι → EnrichPhase → Option (EnrichRun ι)
  | .pageReady _, .acquiring => if s.freePages = 0 then none else some (s.openPanel c k call)
  | .navigated _, .navigating _ => some (s.setCall k call .extracting)
  | .navigationFails _ e, .navigating attempt => some (s.failNavigation c k call attempt e)
  | .retry _, .backoff attempt => some (s.navigate k call (attempt + 1))
  | .extracted _ o, .extracting => some (s.finish c k call o)
  | .cancel _, p =>
    if p.holdsPage then some (s.giveBack k call .cancelled)
    else if p = .acquiring then some (s.setCall k call .cancelled)
    else none
  | _, _ => none

def step (s : EnrichRun ι) (e : EnrichEvent ι) : Option (EnrichRun ι) :=
  if s.now ≤ e.time then
    let s := { s with now := e.time }
    match e.action with
    | .call a => some (s.enrichOne c a)
    | .pageReady k | .navigated k | .navigationFails k _ | .retry k | .extracted k _ | .cancel k =>
      s.calls[k]?.bind fun call => s.resumeFrom c k call e.action call.phase
  else none

/-- Before any call, with the pool started. -/
def start (fields : ι → BusinessLead) (now : ℚ) : EnrichRun ι where
  fields := fields
  freePages := c.pages
  now := now

end EnrichRun

end SocialScraper
