import SocialScraper.Lib.Runs
import SocialScraper.Lib.Workers
import SocialScraper.Python
import Mathlib.Logic.Function.Basic
/-!
# Homepages through the shared pages

`app.enrichment.social.browser_html_fetcher`: a fetch borrows a page of the
pool, blocks its heavy resources while it is there, and gives it back. Others
borrow the same pages as they are: the discovery, and `enrich_one`.
-/
open Lib

namespace SocialScraper

/-- `route.request.resource_type`. -/
inductive ResourceType where
  | document | script | xhr | image | media | font | stylesheet | other
deriving DecidableEq

/-- `_BLOCKED_RESOURCE_TYPES`. -/
def blockedResourceTypes : List ResourceType := [.image, .media, .font, .stylesheet]

/-- How a fetch ends: what it returns, or by a cancellation. -/
inductive FetchEnd where
  | returned (html : Option Str)
  | cancelled
deriving DecidableEq

/-- One `async with pool.acquire()`, of a fetch or of another. -/
inductive PageUse where
  /-- Waits for a page, for a fetch or not. -/
  | getting (fetches : Bool)
  /-- A fetch in `page.route`. -/
  | routing (page : ℕ)
  /-- In `page.goto`. -/
  | navigating (page : ℕ)
  /-- In `page.wait_for_load_state`. -/
  | settling (page : ℕ)
  /-- In `page.content`. -/
  | reading (page : ℕ)
  /-- In `page.unroute`, with what the fetch does then. -/
  | unrouting (page : ℕ) (next : FetchEnd)
  | fetched (e : FetchEnd)
  /-- Another has the page. -/
  | using (page : ℕ)
  | used
deriving DecidableEq

namespace PageUse

def page : PageUse → Option ℕ
  | .routing p | .navigating p | .settling p | .reading p | .unrouting p _ | .using p => some p
  | .getting _ | .fetched _ | .used => none

/-- The fetch has the page's heavy resources blocked. -/
def blocks : PageUse → Bool
  | .navigating _ | .settling _ | .reading _ | .unrouting _ _ => true
  | _ => false

end PageUse

/-- The pages of a started pool. -/
structure SharedPages where
  /-- The queue of the pool. -/
  idle : List ℕ
  /-- `_block_heavy_resources` is a route of the page. -/
  routed : ℕ → Bool := fun _ => false
  uses : List PageUse := []
  /-- History: the pages whose last `route` or `unroute` did not return. -/
  interrupted : List ℕ := []

/-- An await of a fetch ends. -/
inductive FetchStep where
  /-- `page.route`; where it does not return, the route may be there or not. -/
  | route (e : AwaitEnd) (routed : Bool)
  | goto (e : AwaitEnd)
  | waitForLoadState (e : AwaitEnd)
  | content (e : AwaitEnd) (html : Str)
  /-- `page.unroute`; where it does not return, the route may be there or not. -/
  | unroute (e : AwaitEnd) (routed : Bool)
deriving DecidableEq

inductive PageAction where
  /-- A fetch, or another use, asks for a page. -/
  | acquire (fetches : Bool)
  | take (i : ℕ)
  /-- The task is cancelled while it waits for a page. -/
  | giveUp (i : ℕ)
  | fetch (i : ℕ) (u : FetchStep)
  /-- Another gives its page back, however its use ended. -/
  | release (i : ℕ)
deriving DecidableEq

/-- Where an await ends other than by a return: `None` for an exception. -/
def AwaitEnd.fetchEnd : AwaitEnd → FetchEnd
  | .cancelled => .cancelled
  | _ => .returned none

namespace SharedPages

/-- A started pool of `n` pages. -/
def start (n : ℕ) : SharedPages := { idle := List.range n }

/-- `_block_heavy_resources` aborts the request, if it is a route of the page. -/
def aborts (s : SharedPages) (p : ℕ) (t : ResourceType) : Bool := s.routed p && decide (t ∈ blockedResourceTypes)

def setUse (s : SharedPages) (i : ℕ) (u : PageUse) : SharedPages := { s with uses := s.uses.set i u }

/-- The end of the `acquire` block: the page goes back to the pool. -/
def giveBack (s : SharedPages) (i p : ℕ) (u : PageUse) : SharedPages := { s.setUse i u with idle := s.idle ++ [p] }

/-- The route of the page is there now, or not; `e` says whether the call for it returned. -/
def setRouted (s : SharedPages) (p : ℕ) (e : AwaitEnd) (routed : Bool) : SharedPages :=
  { s with
    routed := Function.update s.routed p routed
    interrupted := if e = .returns then s.interrupted.filter (· ≠ p) else p :: s.interrupted }

/-- The body of `fetch`, from one await to the next. -/
def fetch (s : SharedPages) (i : ℕ) (w : PageUse) (u : FetchStep) : Option SharedPages :=
  match w, u with
  | .routing p, .route .returns _ => some ((s.setRouted p .returns true).setUse i (.navigating p))
  -- The `finally` block begins behind `route`, so the route stays as it is.
  | .routing p, .route e routed => some ((s.setRouted p e (routed || s.routed p)).giveBack i p (.fetched e.fetchEnd))
  | .navigating p, .goto .returns => some (s.setUse i (.settling p))
  | .navigating p, .goto e => some (s.setUse i (.unrouting p e.fetchEnd))
  | .settling p, .waitForLoadState .cancelled => some (s.setUse i (.unrouting p .cancelled))
  | .settling p, .waitForLoadState _ => some (s.setUse i (.reading p))
  | .reading p, .content .returns html => some (s.setUse i (.unrouting p (.returned (some html))))
  | .reading p, .content e _ => some (s.setUse i (.unrouting p e.fetchEnd))
  | .unrouting p next, .unroute .returns _ => some ((s.setRouted p .returns false).giveBack i p (.fetched next))
  -- What `unroute` raises takes the place of a result or of a cancellation.
  | .unrouting p _, .unroute e routed => some ((s.setRouted p e (routed && s.routed p)).giveBack i p (.fetched e.fetchEnd))
  | _, _ => none

def step (s : SharedPages) : PageAction → Option SharedPages
  | .acquire fetches => some { s with uses := s.uses ++ [.getting fetches] }
  | .take i =>
    match s.uses[i]?, s.idle with
    | some (.getting fetches), p :: rest => some ({ s with idle := rest }.setUse i (if fetches then .routing p else .using p))
    | _, _ => none
  | .giveUp i =>
    match s.uses[i]? with
    | some (.getting fetches) => some (s.setUse i (if fetches then .fetched .cancelled else .used))
    | _ => none
  | .fetch i u =>
    match s.uses[i]? with
    | some w => s.fetch i w u
    | none => none
  | .release i =>
    match s.uses[i]? with
    | some (.using p) => some (s.giveBack i p .used)
    | _ => none

/-! ## What an action can do -/

/-- Everything an action can do. -/
inductive Effect (s : SharedPages) : PageAction → SharedPages → Prop
  | asks {fetches} : Effect s (.acquire fetches) { s with uses := s.uses ++ [.getting fetches] }
  | takes {i fetches p rest} (hi : s.uses[i]? = some (.getting fetches)) (hp : s.idle = p :: rest) :
      Effect s (.take i) ({ s with idle := rest }.setUse i (if fetches then .routing p else .using p))
  | givesUp {i fetches} (hi : s.uses[i]? = some (.getting fetches)) :
      Effect s (.giveUp i) (s.setUse i (if fetches then .fetched .cancelled else .used))
  | routes {i p routed} (hi : s.uses[i]? = some (.routing p)) :
      Effect s (.fetch i (.route .returns routed)) ((s.setRouted p .returns true).setUse i (.navigating p))
  | fails {i p e routed} (hi : s.uses[i]? = some (.routing p)) (he : e ≠ .returns) :
      Effect s (.fetch i (.route e routed)) ((s.setRouted p e (routed || s.routed p)).giveBack i p (.fetched e.fetchEnd))
  /-- From one await with the route to the next. -/
  | goesOn {i p w w' u} (hi : s.uses[i]? = some w) (hw : w.page = some p) (hw' : w'.page = some p) (hb : w.blocks = true)
      (hb' : w'.blocks = true) : Effect s (.fetch i u) (s.setUse i w')
  | unroutes {i p next routed} (hi : s.uses[i]? = some (.unrouting p next)) :
      Effect s (.fetch i (.unroute .returns routed)) ((s.setRouted p .returns false).giveBack i p (.fetched next))
  | leaves {i p next e routed} (hi : s.uses[i]? = some (.unrouting p next)) (he : e ≠ .returns) :
      Effect s (.fetch i (.unroute e routed)) ((s.setRouted p e (routed && s.routed p)).giveBack i p (.fetched e.fetchEnd))
  | releases {i p} (hi : s.uses[i]? = some (.using p)) : Effect s (.release i) (s.giveBack i p .used)

variable {s s' : SharedPages} {n : ℕ}

theorem effect_fetch {i : ℕ} {w : PageUse} {u : FetchStep} (hi : s.uses[i]? = some w) (h : s.fetch i w u = some s') :
    Effect s (.fetch i u) s' := by
  cases w with
  | routing p =>
    cases u with
    | route e routed =>
      cases e with
      | returns => exact Option.some.inj h ▸ .routes hi
      | raises => exact Option.some.inj h ▸ .fails hi nofun
      | cancelled => exact Option.some.inj h ▸ .fails hi nofun
    | _ => cases h
  | navigating p =>
    cases u with
    | goto e => cases e <;> exact Option.some.inj h ▸ .goesOn hi rfl rfl rfl rfl
    | _ => cases h
  | settling p =>
    cases u with
    | waitForLoadState e => cases e <;> exact Option.some.inj h ▸ .goesOn hi rfl rfl rfl rfl
    | _ => cases h
  | reading p =>
    cases u with
    | content e html => cases e <;> exact Option.some.inj h ▸ .goesOn hi rfl rfl rfl rfl
    | _ => cases h
  | unrouting p next =>
    cases u with
    | unroute e routed =>
      cases e with
      | returns => exact Option.some.inj h ▸ .unroutes hi
      | raises => exact Option.some.inj h ▸ .leaves hi nofun
      | cancelled => exact Option.some.inj h ▸ .leaves hi nofun
    | _ => cases h
  | _ => cases u <;> cases h

theorem effect_of {a : PageAction} (h : s.step a = some s') : Effect s a s' := by
  cases a with
  | acquire fetches => exact Option.some.inj h ▸ .asks
  | take i =>
    simp only [step] at h
    split at h
    · rename_i fetches p rest hi hp
      exact Option.some.inj h ▸ .takes hi hp
    · cases h
  | giveUp i =>
    simp only [step] at h
    split at h
    · rename_i fetches hi
      exact Option.some.inj h ▸ .givesUp hi
    · cases h
  | fetch i u =>
    simp only [step] at h
    split at h
    · rename_i w hi
      exact effect_fetch hi h
    · cases h
  | release i =>
    simp only [step] at h
    split at h
    · rename_i p hi
      exact Option.some.inj h ▸ .releases hi
    · cases h

/-! ## Where the pages are -/

/-- Who has the page. -/
def holds (p : ℕ) (u : PageUse) : Bool := u.page = some p

/-- Each page is idle or with one. -/
def Placed (n : ℕ) (s : SharedPages) : Prop :=
  ∀ p, s.idle.count p + s.uses.countP (holds p) = if p < n then 1 else 0

theorem Placed.same (h : Placed n s) {i : ℕ} {u : PageUse} (u' : PageUse) (hi : s.uses[i]? = some u) (hu : u'.page = u.page)
    (hidle : s'.idle = s.idle) (huses : s'.uses = s.uses.set i u') : Placed n s' := by
  intro p
  have hsame : holds p u' = holds p u := by rw [holds, holds, hu]
  have hslot := countP_slot (holds p) hi u'
  have hp := h p
  rw [hsame] at hslot
  rw [hidle, huses]
  omega

/-- A page goes back to the pool. -/
theorem Placed.back (h : Placed n s) {i p : ℕ} {u u' : PageUse} (hi : s.uses[i]? = some u) (hu : u.page = some p)
    (hu' : u'.page = none) (hidle : s'.idle = s.idle ++ [p]) (huses : s'.uses = s.uses.set i u') : Placed n s' := by
  intro q
  have hbefore : holds q u = decide (p = q) := by simp [holds, hu]
  have hafter : holds q u' = false := by simp [holds, hu']
  have hslot := countP_slot (holds q) hi u'
  have hq := h q
  rw [hbefore, hafter] at hslot
  rw [hidle, huses, List.count_append, List.count_singleton]
  by_cases hpq : p = q
  · simp [hpq] at hslot ⊢
    omega
  · simp [hpq] at hslot ⊢
    omega

theorem placed_effect {a : PageAction} (hi : Placed n s) (h : Effect s a s') : Placed n s' := by
  cases h with
  | asks =>
    intro p
    have hp := hi p
    simpa [holds, PageUse.page] using hp
  | @takes i fetches p rest hw hp =>
    intro q
    have hslot := countP_slot (holds q) hw (if fetches then .routing p else .using p)
    have hq := hi q
    rw [hp, List.count_cons] at hq
    have hhas : holds q (if fetches then .routing p else .using p) = decide (p = q) := by
      cases fetches <;> simp [holds, PageUse.page]
    have hwas : holds q (.getting fetches) = false := rfl
    rw [hhas, hwas] at hslot
    simp only [setUse, beq_iff_eq, decide_eq_true_eq, Bool.false_eq_true, if_false] at hslot hq ⊢
    omega
  | @givesUp i fetches hw => exact hi.same _ hw (by cases fetches <;> rfl) rfl rfl
  | @routes i p routed hw => exact hi.same (.navigating p) hw rfl rfl rfl
  | goesOn hw hp hp' => exact hi.same _ hw (hp'.trans hp.symm) rfl rfl
  | fails hw => exact hi.back hw rfl rfl rfl rfl
  | unroutes hw => exact hi.back hw rfl rfl rfl rfl
  | leaves hw => exact hi.back hw rfl rfl rfl rfl
  | releases hw => exact hi.back hw rfl rfl rfl rfl

theorem placed_reachable (h : Reachable (Fires step) (start n) s) : Placed n s := by
  refine h.inv (Placed n) ?_ fun _ _ _ hi hs => placed_effect hi (effect_of hs)
  intro p
  simp [start, List.count_range]

/-- A page is with one at a time. -/
theorem Placed.once (h : Placed n s) {i j p : ℕ} {u v : PageUse} (hi : s.uses[i]? = some u) (hu : u.page = some p)
    (hj : s.uses[j]? = some v) (hv : v.page = some p) : i = j := by
  have hp := h p
  have hone : s.uses.countP (holds p) ≤ 1 := by
    split_ifs at hp <;> omega
  exact slot_unique hone hi (by simp [holds, hu]) hj (by simp [holds, hv])

/-- An idle page is with nobody. -/
theorem Placed.idle (h : Placed n s) {p : ℕ} (hp : p ∈ s.idle) {u : PageUse} (hu : u ∈ s.uses) : u.page ≠ some p := by
  intro hpage
  have hcount := h p
  have hidle : 0 < s.idle.count p := List.count_pos_iff.2 hp
  have huse : 0 < s.uses.countP (holds p) := List.countP_pos_iff.2 ⟨u, hu, by simp [holds, hpage]⟩
  split_ifs at hcount <;> omega

/-! ## What is blocked -/

/-- A fetch has its page blocked from its `route` on, and no other page is, but for interrupted calls. -/
structure Blocked (s : SharedPages) : Prop where
  during : ∀ u ∈ s.uses, ∀ p, u.page = some p → u.blocks = true → s.routed p = true
  only : ∀ p, s.routed p = true → p ∉ s.interrupted → ∃ u ∈ s.uses, u.page = some p ∧ u.blocks = true

/-- A step of one that blocks nothing before and behind it. -/
theorem Blocked.aside (h : Blocked s) {i : ℕ} {u u' : PageUse} (hi : s.uses[i]? = some u) (hu : u.blocks = false)
    (hu' : u'.blocks = false) (huses : s'.uses = s.uses.set i u') (hrouted : s'.routed = s.routed)
    (hinterrupted : s'.interrupted = s.interrupted) : Blocked s' := by
  constructor
  · rw [huses, hrouted]
    intro v hv p hp hb
    rcases List.mem_or_eq_of_mem_set hv with hv | rfl
    · exact h.during v hv p hp hb
    · rw [hu'] at hb
      cases hb
  · rw [huses, hrouted, hinterrupted]
    intro p hp hn
    obtain ⟨v, hv, hpage, hb⟩ := h.only p hp hn
    obtain ⟨j, hj⟩ := List.mem_iff_getElem?.1 hv
    have hij : i ≠ j := by
      rintro rfl
      obtain rfl := Option.some.inj (hi.symm.trans hj)
      rw [hu] at hb
      cases hb
    exact ⟨v, List.mem_of_getElem? (by rw [List.getElem?_set_ne hij, hj]), hpage, hb⟩

/-- A step of the one that has the page `p`. -/
theorem Blocked.own (h : Blocked s) (hplaced : Placed n s) {i p : ℕ} {u : PageUse} (u' : PageUse) (hi : s.uses[i]? = some u)
    (hu : u.page = some p) (hu' : ∀ q, u'.page = some q → q = p) (huses : s'.uses = s.uses.set i u')
    (hrouted : ∀ q, q ≠ p → s'.routed q = s.routed q) (hinterrupted : ∀ q, q ≠ p → q ∈ s.interrupted → q ∈ s'.interrupted)
    (hduring : u'.blocks = true → s'.routed p = true)
    (honly : s'.routed p = true → p ∉ s'.interrupted → u'.page = some p ∧ u'.blocks = true) : Blocked s' := by
  obtain ⟨hlt, -⟩ := List.getElem?_eq_some_iff.1 hi
  constructor
  · rw [huses]
    intro v hv q hq hb
    obtain ⟨j, hj⟩ := List.mem_iff_getElem?.1 hv
    rcases slot_after hj with ⟨-, rfl⟩ | hold
    · rw [hu' q hq]
      exact hduring hb
    · by_cases hqp : q = p
      · -- Only the one that takes the step has the page.
        subst hqp
        obtain rfl := hplaced.once hi hu hold hq
        rw [List.getElem?_set_self hlt] at hj
        obtain rfl := Option.some.inj hj
        exact hduring hb
      · rw [hrouted q hqp]
        exact h.during v (List.mem_of_getElem? hold) q hq hb
  · rw [huses]
    intro q hq hn
    by_cases hqp : q = p
    · subst hqp
      exact ⟨u', List.mem_iff_getElem?.2 ⟨i, List.getElem?_set_self hlt⟩, honly hq hn⟩
    · rw [hrouted q hqp] at hq
      obtain ⟨v, hv, hpage, hb⟩ := h.only q hq fun hmem => hn (hinterrupted q hqp hmem)
      obtain ⟨j, hj⟩ := List.mem_iff_getElem?.1 hv
      have hij : i ≠ j := by
        rintro rfl
        obtain rfl := Option.some.inj (hi.symm.trans hj)
        exact hqp (Option.some.inj (hpage.symm.trans hu))
      exact ⟨v, List.mem_of_getElem? (by rw [List.getElem?_set_ne hij, hj]), hpage, hb⟩

section SetRouted
variable (s : SharedPages) (p : ℕ) (e : AwaitEnd) (routed : Bool)

theorem setRouted_other {q : ℕ} (h : q ≠ p) : (s.setRouted p e routed).routed q = s.routed q := by
  simp only [setRouted, Function.update_of_ne h]

theorem setRouted_self : (s.setRouted p e routed).routed p = routed := by
  simp only [setRouted, Function.update_self]

theorem setRouted_interrupted {q : ℕ} (hq : q ≠ p) (h : q ∈ s.interrupted) : q ∈ (s.setRouted p e routed).interrupted := by
  unfold setRouted
  dsimp only
  split_ifs
  · exact List.mem_filter.2 ⟨h, decide_eq_true hq⟩
  · exact List.mem_cons_of_mem p h

theorem setRouted_marks (he : e ≠ .returns) : p ∈ (s.setRouted p e routed).interrupted := by
  unfold setRouted
  rw [if_neg he]
  exact List.mem_cons_self

end SetRouted

theorem blocked_effect {a : PageAction} (hp : Placed n s) (hi : Blocked s) (h : Effect s a s') : Blocked s' := by
  cases h with
  | asks =>
    constructor
    · intro u hu p hpage hb
      rcases List.mem_append.1 hu with hu | hu
      · exact hi.during u hu p hpage hb
      · rw [List.mem_singleton.1 hu] at hb
        cases hb
    · intro p hr hn
      obtain ⟨u, hu, hpage, hb⟩ := hi.only p hr hn
      exact ⟨u, List.mem_append_left _ hu, hpage, hb⟩
  | @takes i fetches p rest hw => exact hi.aside hw rfl (by cases fetches <;> rfl) rfl rfl rfl
  | @givesUp i fetches hw => exact hi.aside hw rfl (by cases fetches <;> rfl) rfl rfl rfl
  | @routes i p routed hw =>
    refine hi.own hp (.navigating p) hw rfl ?_ rfl ?_ ?_ ?_ ?_
    · intro q hq
      exact (Option.some.inj hq).symm
    · exact fun q hq => setRouted_other s p .returns true hq
    · exact fun q hq hmem => setRouted_interrupted s p .returns true hq hmem
    · exact fun _ => setRouted_self s p .returns true
    · exact fun _ _ => ⟨rfl, rfl⟩
  | @fails i p e routed hw he =>
    refine hi.own hp (.fetched e.fetchEnd) hw rfl nofun rfl ?_ ?_ nofun ?_
    · exact fun q hq => setRouted_other s p e (routed || s.routed p) hq
    · exact fun q hq hmem => setRouted_interrupted s p e (routed || s.routed p) hq hmem
    · exact fun _ hn => absurd (setRouted_marks s p e (routed || s.routed p) he) hn
  | goesOn hw hpage hpage' hb hb' =>
    refine hi.own hp _ hw hpage ?_ rfl (fun _ _ => rfl) (fun _ _ hq => hq) ?_ ?_
    · intro q hq
      exact Option.some.inj (hq.symm.trans hpage')
    · exact fun _ => hi.during _ (List.mem_of_getElem? hw) _ hpage hb
    · exact fun _ _ => ⟨hpage', hb'⟩
  | @unroutes i p next routed hw =>
    refine hi.own hp (.fetched next) hw rfl nofun rfl ?_ ?_ nofun ?_
    · exact fun q hq => setRouted_other s p .returns false hq
    · exact fun q hq hmem => setRouted_interrupted s p .returns false hq hmem
    · intro hr
      exact absurd ((setRouted_self s p .returns false).symm.trans hr) nofun
  | @leaves i p next e routed hw he =>
    refine hi.own hp (.fetched e.fetchEnd) hw rfl nofun rfl ?_ ?_ nofun ?_
    · exact fun q hq => setRouted_other s p e (routed && s.routed p) hq
    · exact fun q hq hmem => setRouted_interrupted s p e (routed && s.routed p) hq hmem
    · exact fun _ hn => absurd (setRouted_marks s p e (routed && s.routed p) he) hn
  | @releases i p hw => exact hi.aside hw rfl rfl rfl rfl rfl

theorem blocked_reachable (h : Reachable (Fires step) (start n) s) : Blocked s := by
  refine h.inv_with (Placed n) Blocked (fun _ hu => placed_reachable hu) ?_ ?_
  · constructor <;> simp [start]
  · exact fun _ _ _ hp hi hs => blocked_effect hp hi (effect_of hs)

/-- In any interleaving, each page is idle or with one. A fetch that is on its page has exactly the heavy resources of
it blocked. An idle page and one that another has taken load everything, unless the last fetch on it was cut
short in `route` or `unroute`. -/
theorem heavy_resources (n : ℕ) (s : SharedPages) (h : Reachable (Fires step) (start n) s) :
    (∀ p, s.idle.count p + s.uses.countP (holds p) = if p < n then 1 else 0) ∧
      (∀ u ∈ s.uses, ∀ p, u.page = some p → u.blocks = true → ∀ t, s.aborts p t = decide (t ∈ blockedResourceTypes)) ∧
      ∀ p, p ∈ s.idle ∨ .using p ∈ s.uses → p ∉ s.interrupted → ∀ t, s.aborts p t = false := by
  have hplaced := placed_reachable h
  have hblocked := blocked_reachable h
  refine ⟨hplaced, ?_, ?_⟩
  · intro u hu p hp hb t
    rw [aborts, hblocked.during u hu p hp hb, Bool.true_and]
  · intro p hp hn t
    have hfree : s.routed p = false := by
      apply eq_false_of_ne_true
      intro hr
      obtain ⟨u, hu, hpage, hb⟩ := hblocked.only p hr hn
      rcases hp with hidle | husing
      · exact hplaced.idle hidle hu hpage
      · obtain ⟨i, hi⟩ := List.mem_iff_getElem?.1 hu
        obtain ⟨j, hj⟩ := List.mem_iff_getElem?.1 husing
        obtain rfl := hplaced.once hi hpage hj rfl
        obtain rfl := Option.some.inj (hi.symm.trans hj)
        cases hb
    rw [aborts, hfree, Bool.false_and]

/-- One page: a fetch is cancelled in its `unroute`, another use has the page then, and the next fetch clears it. -/
def cancelledUnroute : List PageAction :=
  [.acquire true, .take 0, .fetch 0 (.route .returns true), .fetch 0 (.goto .raises), .fetch 0 (.unroute .cancelled true),
    .acquire false, .take 1]

theorem heavy_resources_cancelled :
    ∃ s, exec step (start 1) cancelledUnroute = some s ∧ s.aborts 0 .image = true ∧ s.idle.count 0 = 0 := by
  obtain ⟨s, hs, hu, ha⟩ := exec_ends (f := step)
    (Q := fun s => PageUse.using 0 ∈ s.uses ∧ s.aborts 0 .image = true) (s := start 1) cancelledUnroute (by decide)
  have hcount := (heavy_resources 1 s (reachable_of_exec _ hs)).1 0
  have huse : 0 < s.uses.countP (holds 0) := List.countP_pos_iff.2 ⟨_, hu, rfl⟩
  refine ⟨s, hs, ha, ?_⟩
  simp only [Nat.zero_lt_one, if_true] at hcount
  omega

end SharedPages

end SocialScraper
