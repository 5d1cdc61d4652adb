import Mathlib.Logic.Function.Basic
import SocialScraper.Lib.Runs
import SocialScraper.Reselect
import SocialScraper.Social.LinkExtractor
/-!
# Social discovery of one lead

`discover_social_links_one` of `app.enrichment.social.batch` as a machine that
stops at each await, and the selection step the pipeline's social worker takes
behind it, after a return and after an exception. The two platforms go through
the same code, so it is written once, over a `Platform`.
-/
open Lib

namespace SocialScraper

/-! ## The fields of a platform -/

namespace SocialLead

/-- The URL and the confidence of a platform. -/
def slot (s : SocialLead) : Platform → Option Str × Option Str
  | .instagram => (s.instagramUrl, s.instagramConfidence)
  | .facebook => (s.facebookUrl, s.facebookConfidence)

/-- Both fields of a platform are written. -/
def found (s : SocialLead) (url : Str) (tier : Confidence) : Platform → SocialLead
  | .instagram => { s with instagramUrl := some url, instagramConfidence := some tier.value }
  | .facebook => { s with facebookUrl := some url, facebookConfidence := some tier.value }

@[simp] theorem slot_found (s : SocialLead) (url : Str) (tier : Confidence) (p : Platform) :
    (s.found url tier p).slot p = (some url, some tier.value) := by
  cases p <;> rfl

theorem slot_found_of_ne (s : SocialLead) (url : Str) (tier : Confidence) {p q : Platform} (h : q ≠ p) :
    (s.found url tier p).slot q = s.slot q := by
  cases p <;> cases q <;> first | rfl | exact absurd rfl h

end SocialLead

/-! ## The machine -/

structure DiscoverConfig where
  lib : Stdlib
  settings : Settings
  /-- Whether there is a `SocialDiscoveryMetrics` to report to. -/
  metrics : Bool
  /-- `extractor.extract`; `none` is an exception. -/
  extract : Str → Option (List LinkCandidate)

inductive DiscoverPhase where
  /-- In `metrics.start_one()`. -/
  | starting
  /-- In `fetcher.fetch(lead.website)`. -/
  | fetching
  /-- In `metrics.record_html_fetch`, with what was fetched. -/
  | recordingFetch (html : Option Str)
  /-- In `metrics.record_website_success()`. -/
  | recordingWebsite
  /-- In `fallback.find`, for one platform or for both. -/
  | searching
  /-- In `metrics.record_search_fallback_used()`. -/
  | recordingFallback
  /-- In `metrics.finish_one`. -/
  | finishing
  | returned
  | raised
  | cancelled
  /-- The selection step has been taken. -/
  | selected
deriving DecidableEq

/-- What `fallback.find` returns for a platform: a URL and whether it is canonical. -/
abbrev FallbackResult := Option (Option Str × Bool)

/-- A call, by its lead and its local variables. -/
structure DiscoverCall where
  lead : BusinessLead
  phase : DiscoverPhase := .starting
  /-- `needs_instagram` and `needs_facebook`. -/
  needs : Platform → Bool := fun _ => false
  websiteIsSocialPlatform : Bool := false
  websiteFoundAny : Bool := false
  usedFallback : Bool := false

inductive DiscoverAction where
  /-- The call to the metrics returns. -/
  | recorded
  | fetched (html : Option Str)
  /-- Every search that was started has returned. -/
  | found (results : Platform → FallbackResult)
  /-- What the call awaits raises. -/
  | raises
  | cancel
  /-- The selection step of the pipeline. -/
  | select

namespace DiscoverCall

variable (c : DiscoverConfig)

/-- The lead gets a URL from its website. -/
def foundOnWebsite (s : DiscoverCall) (p : Platform) (url : Str) (tier : Confidence) : DiscoverCall :=
  { s with
    lead := { s.lead with social := s.lead.social.found url tier p }
    needs := Function.update s.needs p false
    websiteFoundAny := true }

/-- The website is itself a profile. -/
def websiteAsPlatform (s : DiscoverCall) : DiscoverCall :=
  match s.lead.website with
  | none | some [] => s
  | some website =>
    match classifyPlatform website with
    | none => s
    | some p =>
      let s := { s with websiteIsSocialPlatform := true }
      if s.needs p then
        match normalizeSocialUrl c.lib website with
        -- The exception is caught and logged.
        | none => s
        | some url => s.foundOnWebsite p url .high
      else s

def isCanonicalSocialUrl (lib : Stdlib) (url : Str) (p : Platform) : Bool := (canonicalSlug lib url p.name).isSome

/-- The first candidate of the platform from the homepage. -/
def matchCandidate (websiteCandidates : List LinkCandidate) (s : DiscoverCall) (p : Platform) : DiscoverCall :=
  if s.needs p then
    match websiteCandidates.find? fun candidate => candidate.platform = p.name with
    | none => s
    | some candidate =>
      s.foundOnWebsite p candidate.url (if isCanonicalSocialUrl c.lib candidate.url p then .high else .medium)
  else s

/-- The result of the search for the platform. -/
def takeFallback (results : Platform → FallbackResult) (s : DiscoverCall) (p : Platform) : DiscoverCall :=
  if s.needs p then
    match results p with
    | none | some (none, _) | some (some [], _) => s
    | some (some url, isCanonical) =>
      { s with
        lead := { s.lead with social := s.lead.social.found url (if isCanonical then .medium else .low) p }
        usedFallback := true }
  else s

def finish (s : DiscoverCall) : DiscoverCall := { s with phase := if c.metrics then .finishing else .returned }

/-- Up to the search. -/
def search (s : DiscoverCall) : DiscoverCall :=
  if s.needs .instagram || s.needs .facebook then { s with phase := .searching } else s.finish c

/-- From the candidates of the homepage on. -/
def matchAll (s : DiscoverCall) (websiteCandidates : List LinkCandidate) : DiscoverCall :=
  let s := s.matchCandidate c websiteCandidates .instagram
  let s := s.matchCandidate c websiteCandidates .facebook
  if s.websiteFoundAny && c.metrics then { s with phase := .recordingWebsite } else s.search c

/-- From `metrics.start_one()` on. -/
def begin (s : DiscoverCall) : DiscoverCall :=
  let s := { s with needs := fun p => (s.lead.social.slot p).1.isNone }
  let s := s.websiteAsPlatform c
  if (s.needs .instagram || s.needs .facebook) && truthy s.lead.website && !s.websiteIsSocialPlatform then
    { s with phase := .fetching }
  else s.matchAll c []

/-- With the homepage in hand. -/
def readHtml (s : DiscoverCall) (html : Option Str) : DiscoverCall :=
  match html with
  | none | some [] => s.matchAll c []
  | some html =>
    match c.extract html with
    | none => { s with phase := .raised }
    | some candidates => s.matchAll c (deduplicateCandidates c.lib candidates)

/-- With the results of the searches in hand. -/
def takeResults (s : DiscoverCall) (results : Platform → FallbackResult) : DiscoverCall :=
  let s := s.takeFallback results .instagram
  let s := s.takeFallback results .facebook
  if s.usedFallback && c.metrics then { s with phase := .recordingFallback } else s.finish c

/-- `discover_social_links_one` up to its first await. -/
def start (lead : BusinessLead) : DiscoverCall :=
  if c.metrics then { lead := lead } else DiscoverCall.begin c { lead := lead }

/-- Whether the call is in an await. -/
def awaits (s : DiscoverCall) : Bool :=
  match s.phase with
  | .returned | .raised | .cancelled | .selected => false
  | _ => true

def step (s : DiscoverCall) : DiscoverAction → Option DiscoverCall
  | .recorded =>
    match s.phase with
    | .starting => some (s.begin c)
    | .recordingFetch html => some (s.readHtml c html)
    | .recordingWebsite => some (s.search c)
    | .recordingFallback => some (s.finish c)
    | .finishing => some { s with phase := .returned }
    | _ => none
  | .fetched html =>
    if s.phase = .fetching then
      if c.metrics then some { s with phase := .recordingFetch html } else some (s.readHtml c html)
    else none
  | .found results => if s.phase = .searching then some (s.takeResults c results) else none
  | .raises => if s.awaits then some { s with phase := .raised } else none
  | .cancel => if s.awaits then some { s with phase := .cancelled } else none
  | .select =>
    -- A cancellation goes through the worker, an exception does not.
    if s.phase = .returned ∨ s.phase = .raised then
      (selectLead c.lib c.settings s.lead).map fun lead => { s with lead := lead, phase := .selected }
    else none

end DiscoverCall

end SocialScraper
