import SocialScraper.Lib.Runs
import SocialScraper.Lib.Workers
import SocialScraper.Python
/-!
# The life of the shared session

`SessionManager` as a singleton: `get_instance`, `startup`, `shutdown` and
`reset_instance`, with the client of `app.network.http_client`. A closed
`httpx` client says so from the first moment of its `aclose`, before the
await that closes the connections. Sessions are numbered as they are made.
-/
open Lib

namespace SocialScraper

/-- A `SessionManager`, as far as it starts and stops. -/
structure ManagedSession where
  started : Bool := false
  /-- `self._client_manager.is_closed`. -/
  closed : Bool := false
deriving DecidableEq

/-- One call of `shutdown()`. -/
inductive ShutdownCall where
  /-- In the `aclose` of the session's client. -/
  | closing (session : ℕ)
  | returned (session : ℕ)
  /-- An exception or a cancellation ended it. -/
  | brokenOff (session : ℕ)
deriving DecidableEq

def ShutdownCall.session : ShutdownCall → ℕ
  | .closing i | .returned i | .brokenOff i => i

structure SessionManagers where
  sessions : List ManagedSession := []
  /-- `SessionManager._instance`. -/
  registered : Option ℕ := none
  shutdowns : List ShutdownCall := []
deriving DecidableEq

inductive LifecycleAction where
  | getInstance
  | startup (session : ℕ)
  /-- `shutdown()`, up to the await of `aclose` or its return. -/
  | shutdown (session : ℕ)
  /-- `reset_instance()`, which reads `_instance` once. -/
  | resetInstance
  /-- The `aclose` that a `shutdown()` awaits ends. -/
  | acloseEnds (call : ℕ) (e : AwaitEnd)
deriving DecidableEq

namespace SessionManagers

/-- `get_instance()` with `__init__`, which refuses a second session. -/
def getInstance (m : SessionManagers) : SessionManagers :=
  if m.registered.isSome then m
  else { m with sessions := m.sessions ++ [{}], registered := some m.sessions.length }

def startup (m : SessionManagers) (i : ℕ) : SessionManagers :=
  { m with sessions := m.sessions.modify i fun x => { x with started := true } }

/-- `if SessionManager._instance is self: SessionManager._instance = None`. -/
def unregister (m : SessionManagers) (i : ℕ) : SessionManagers := if m.registered = some i then { m with registered := none } else m

/-- `self._started = False`. -/
def stopped (m : SessionManagers) (i : ℕ) : SessionManagers :=
  { m with sessions := m.sessions.modify i fun x => { x with started := false } }

def shutdown (m : SessionManagers) (i : ℕ) : Option SessionManagers :=
  match m.sessions[i]? with
  | none => none
  | some x =>
    some (
      if x.closed then
        -- `aclose` has nothing to do and does not suspend.
        { m.stopped i with shutdowns := m.shutdowns ++ [ShutdownCall.returned i] }.unregister i
      else
        { m with
          sessions := m.sessions.modify i fun x => { x with closed := true }
          shutdowns := m.shutdowns ++ [.closing i] })

def acloseEnds (m : SessionManagers) (k : ℕ) (e : AwaitEnd) : Option SessionManagers :=
  match m.shutdowns[k]? with
  | some (.closing i) =>
    some (if e = .returns then { m.stopped i with shutdowns := m.shutdowns.set k (ShutdownCall.returned i) }.unregister i
      else { m with shutdowns := m.shutdowns.set k (.brokenOff i) })
  | _ => none

def step (m : SessionManagers) : LifecycleAction → Option SessionManagers
  | .getInstance => some m.getInstance
  | .startup i => if i < m.sessions.length then some (m.startup i) else none
  | .shutdown i => m.shutdown i
  | .resetInstance =>
    match m.registered with
    | none => some m
    | some i => m.shutdown i
  | .acloseEnds k e => m.acloseEnds k e

/-- The client of the session is open. -/
def isOpen (m : SessionManagers) (i : ℕ) : Bool := m.sessions[i]?.any (!·.closed)

/-! ## What an action can do -/

/-- Everything an action can do, but for `started`. -/
inductive Effect (m : SessionManagers) : SessionManagers → Prop
  | same {m'} (hlength : m'.sessions.length = m.sessions.length) (hopen : ∀ j, m'.isOpen j = m.isOpen j)
      (hregistered : m'.registered = m.registered) (hcalls : m'.shutdowns = m.shutdowns) : Effect m m'
  | registers (hn : m.registered = none) :
      Effect m { m with sessions := m.sessions ++ [{}], registered := some m.sessions.length }
  /-- A `shutdown()` closes the client. -/
  | closes {i} (hi : m.isOpen i = true) :
      Effect m
        { m with
          sessions := m.sessions.modify i fun x => { x with closed := true }
          shutdowns := m.shutdowns ++ [.closing i] }
  /-- A `shutdown()` finds the client closed. -/
  | returns {i} (hl : i < m.sessions.length) (hi : m.isOpen i = false) :
      Effect m ({ m.stopped i with shutdowns := m.shutdowns ++ [ShutdownCall.returned i] }.unregister i)
  | finishes {k i} (hk : m.shutdowns[k]? = some (.closing i)) :
      Effect m ({ m.stopped i with shutdowns := m.shutdowns.set k (ShutdownCall.returned i) }.unregister i)
  | breaksOff {k i} (hk : m.shutdowns[k]? = some (.closing i)) :
      Effect m { m with shutdowns := m.shutdowns.set k (.brokenOff i) }

section Sessions
variable (m : SessionManagers) (i j : ℕ)

@[simp] theorem length_stopped : (m.stopped i).sessions.length = m.sessions.length := by
  simp [stopped]

@[simp] theorem isOpen_stopped : (m.stopped i).isOpen j = m.isOpen j := by
  simp only [isOpen, stopped, List.getElem?_modify]
  cases m.sessions[j]? <;> by_cases hij : i = j <;> simp [hij]

@[simp] theorem length_startup : (m.startup i).sessions.length = m.sessions.length := by
  simp [startup]

@[simp] theorem isOpen_startup : (m.startup i).isOpen j = m.isOpen j := by
  simp only [isOpen, startup, List.getElem?_modify]
  cases m.sessions[j]? <;> by_cases hij : i = j <;> simp [hij]

@[simp] theorem unregister_sessions : (m.unregister i).sessions = m.sessions := by
  unfold unregister
  split_ifs <;> rfl

@[simp] theorem unregister_shutdowns : (m.unregister i).shutdowns = m.shutdowns := by
  unfold unregister
  split_ifs <;> rfl

theorem unregister_registered : (m.unregister i).registered = some j ↔ m.registered = some j ∧ j ≠ i := by
  unfold unregister
  split_ifs with h
  · rw [h]
    constructor
    · exact nofun
    · rintro ⟨hij, hji⟩
      exact absurd (Option.some.inj hij).symm hji
  · constructor
    · intro hj
      refine ⟨hj, ?_⟩
      rintro rfl
      exact h hj
    · exact And.left

end Sessions

variable {m m' : SessionManagers}

theorem effect_shutdown {i : ℕ} (h : m.shutdown i = some m') : Effect m m' := by
  unfold shutdown at h
  split at h
  · cases h
  · rename_i x hx
    obtain ⟨hl, -⟩ := List.getElem?_eq_some_iff.1 hx
    split_ifs at h with hc
    · exact Option.some.inj h ▸ .returns hl (by simp [isOpen, hx, hc])
    · exact Option.some.inj h ▸ .closes (by simp [isOpen, hx, hc])

theorem effect_of {a : LifecycleAction} (h : m.step a = some m') : Effect m m' := by
  cases a with
  | getInstance =>
    obtain rfl := Option.some.inj h
    unfold getInstance
    split_ifs with hr
    · exact .same rfl (fun _ => rfl) rfl rfl
    · exact .registers (by simpa using hr)
  | startup i =>
    obtain ⟨-, h⟩ := Option.ite_none_right_eq_some.1 h
    exact Option.some.inj h ▸ .same (length_startup m i) (isOpen_startup m i) rfl rfl
  | shutdown i => exact effect_shutdown h
  | resetInstance =>
    simp only [step] at h
    split at h
    · exact Option.some.inj h ▸ .same rfl (fun _ => rfl) rfl rfl
    · exact effect_shutdown h
  | acloseEnds k e =>
    simp only [step, acloseEnds] at h
    split at h
    · rename_i i hk
      split_ifs at h with he
      · exact Option.some.inj h ▸ .finishes hk
      · exact Option.some.inj h ▸ .breaksOff hk
    · cases h

/-! ## Who is registered -/

/-- A session is registered until a `shutdown()` of it returns, and its client is open until one is called. -/
structure Lives (m : SessionManagers) : Prop where
  registered : ∀ j, m.registered = some j ↔ j < m.sessions.length ∧ .returned j ∉ m.shutdowns
  isOpen : ∀ j, m.isOpen j = true ↔ j < m.sessions.length ∧ ∀ c ∈ m.shutdowns, c.session ≠ j
  known : ∀ c ∈ m.shutdowns, c.session < m.sessions.length

theorem returned_set {k i : ℕ} (hk : m.shutdowns[k]? = some (.closing i)) (c' : ShutdownCall) (j : ℕ) :
    .returned j ∈ m.shutdowns.set k c' ↔ c' = .returned j ∨ .returned j ∈ m.shutdowns := by
  obtain ⟨u, v, hl, hs⟩ := slot hk
  rw [hs, hl]
  simp only [List.mem_append, List.mem_cons, reduceCtorEq, false_or]
  constructor
  · rintro (h | h | h)
    · exact .inr (.inl h)
    · exact .inl h.symm
    · exact .inr (.inr h)
  · rintro (h | h | h)
    · exact .inr (.inl h.symm)
    · exact .inl h
    · exact .inr (.inr h)

theorem session_set {k i : ℕ} (hk : m.shutdowns[k]? = some (.closing i)) {c' : ShutdownCall} (hc : c'.session = i)
    (P : ℕ → Prop) : (∀ c ∈ m.shutdowns.set k c', P c.session) ↔ ∀ c ∈ m.shutdowns, P c.session := by
  obtain ⟨u, v, hl, hs⟩ := slot hk
  rw [hs, hl]
  simp only [List.forall_mem_append, List.forall_mem_cons, hc]
  rfl

theorem isOpen_close (m : SessionManagers) (i j : ℕ) (calls : List ShutdownCall) :
    ({ m with sessions := m.sessions.modify i fun x => { x with closed := true }, shutdowns := calls } :
      SessionManagers).isOpen j = (m.isOpen j && decide (j ≠ i)) := by
  simp only [isOpen, List.getElem?_modify]
  cases m.sessions[j]? with
  | none => simp
  | some x =>
    by_cases hij : i = j
    · simp [hij]
    · simp [hij, Ne.symm hij]

theorem lives_effect (hi : Lives m) (h : Effect m m') : Lives m' := by
  cases h with
  | same hlength hopen hregistered hcalls =>
    refine ⟨fun j => ?_, fun j => ?_, ?_⟩
    · rw [hregistered, hlength, hcalls]
      exact hi.registered j
    · rw [hopen, hlength, hcalls]
      exact hi.isOpen j
    · rw [hcalls, hlength]
      exact hi.known
  | registers hn =>
    have hpast : ∀ j, .returned j ∈ m.shutdowns ↔ j < m.sessions.length := by
      intro j
      constructor
      · exact fun hj => hi.known _ hj
      · intro hj
        by_contra hnot
        have hreg := (hi.registered j).2 ⟨hj, hnot⟩
        rw [hn] at hreg
        cases hreg
    refine ⟨fun j => ?_, fun j => ?_, fun c hc => ?_⟩
    · rw [hpast, List.length_append, List.length_singleton, Option.some.injEq]
      omega
    · have hopen := hi.isOpen j
      simp only [isOpen, List.length_append, List.length_singleton] at hopen ⊢
      rcases Nat.lt_trichotomy j m.sessions.length with hj | rfl | hj
      · rw [List.getElem?_append_left hj, hopen]
        constructor <;> rintro ⟨-, hc⟩ <;> exact ⟨by omega, hc⟩
      · rw [List.getElem?_concat_length]
        constructor
        · exact fun _ => ⟨by omega, fun c hc => (hi.known c hc).ne⟩
        · exact fun _ => rfl
      · rw [List.getElem?_eq_none (by rw [List.length_append, List.length_singleton]; omega)]
        constructor
        · exact nofun
        · rintro ⟨hlt, -⟩
          omega
    · have := hi.known c hc
      simp only [List.length_append, List.length_singleton]
      omega
  | @closes i hopen =>
    refine ⟨fun j => ?_, fun j => ?_, ?_⟩
    · have hreg := hi.registered j
      simpa using hreg
    · rw [isOpen_close, Bool.and_eq_true, hi.isOpen j, decide_eq_true_eq, List.forall_mem_append, List.length_modify]
      simp only [List.forall_mem_singleton, ShutdownCall.session, ne_comm, and_assoc]
    · simp only [List.forall_mem_append, List.length_modify, List.forall_mem_singleton]
      exact ⟨hi.known, ((hi.isOpen i).1 hopen).1⟩
  | @returns i hl hopen =>
    refine ⟨fun j => ?_, fun j => ?_, ?_⟩
    · rw [unregister_registered, unregister_sessions, unregister_shutdowns]
      have hreg := hi.registered j
      simp only [stopped, List.length_modify, List.mem_append, List.mem_singleton, ShutdownCall.returned.injEq, not_or]
      rw [hreg, and_assoc]
    · have hsame : ∀ calls, (({ m.stopped i with shutdowns := calls } : SessionManagers).unregister i).isOpen j = m.isOpen j := by
        intro calls
        unfold isOpen
        rw [unregister_sessions]
        exact isOpen_stopped m i j
      rw [hsame, unregister_sessions, unregister_shutdowns, length_stopped, List.forall_mem_append,
        List.forall_mem_singleton, hi.isOpen j]
      constructor
      · rintro ⟨hj, hc⟩
        refine ⟨hj, hc, ?_⟩
        rintro rfl
        rw [(hi.isOpen i).2 ⟨hj, hc⟩] at hopen
        cases hopen
      · exact fun h => ⟨h.1, h.2.1⟩
    · rw [unregister_sessions, unregister_shutdowns, length_stopped, List.forall_mem_append, List.forall_mem_singleton]
      exact ⟨hi.known, hl⟩
  | @finishes k i hk =>
    refine ⟨fun j => ?_, fun j => ?_, ?_⟩
    · rw [unregister_registered, unregister_sessions, unregister_shutdowns]
      have hreg := hi.registered j
      simp only [stopped, List.length_modify, returned_set hk, ShutdownCall.returned.injEq, not_or]
      rw [hreg, and_assoc, and_comm (a := _ ∉ _), ne_comm]
    · have hsame : ∀ calls, (({ m.stopped i with shutdowns := calls } : SessionManagers).unregister i).isOpen j = m.isOpen j := by
        intro calls
        unfold isOpen
        rw [unregister_sessions]
        exact isOpen_stopped m i j
      rw [hsame, unregister_sessions, unregister_shutdowns, length_stopped, session_set hk rfl (· ≠ j)]
      exact hi.isOpen j
    · rw [unregister_sessions, unregister_shutdowns, length_stopped]
      exact (session_set hk rfl (· < m.sessions.length)).2 hi.known
  | @breaksOff k i hk =>
    refine ⟨fun j => ?_, fun j => ?_, ?_⟩
    · rw [returned_set hk]
      simpa using hi.registered j
    · rw [session_set hk rfl (· ≠ j)]
      exact hi.isOpen j
    · exact (session_set hk rfl (· < m.sessions.length)).2 hi.known

theorem lives_reachable (h : Reachable (Fires step) {} m) : Lives m := by
  refine h.inv Lives ?_ fun _ _ _ hi hs => lives_effect hi (effect_of hs)
  constructor <;> simp [isOpen]

/-- Over any calls of the singleton's life cycle, however they interleave: a session is registered from when it is made
until a `shutdown()` of it returns, so the late end of another's never takes its place away; at most the
registered one has an open client; and a registered session with a closed client has a `shutdown()` that is still
in its `aclose`, or that was broken off there. -/
theorem session_lifecycle (m : SessionManagers) (h : Reachable (Fires step) {} m) :
    (∀ j, m.registered = some j ↔ j < m.sessions.length ∧ .returned j ∉ m.shutdowns) ∧
      (∀ j, m.isOpen j = true → m.registered = some j) ∧
      ∀ j, m.registered = some j → m.isOpen j = false → .closing j ∈ m.shutdowns ∨ .brokenOff j ∈ m.shutdowns := by
  have hi := lives_reachable h
  refine ⟨hi.registered, fun j hj => ?_, fun j hj hc => ?_⟩
  · obtain ⟨hlt, hcalls⟩ := (hi.isOpen j).1 hj
    exact (hi.registered j).2 ⟨hlt, fun hret => hcalls _ hret rfl⟩
  · obtain ⟨hlt, hnot⟩ := (hi.registered j).1 hj
    by_contra hnone
    obtain ⟨hclosing, hbroken⟩ := not_or.1 hnone
    have hopen : m.isOpen j = true := by
      apply (hi.isOpen j).2
      refine ⟨hlt, ?_⟩
      rintro c hcall rfl
      cases c with
      | closing i => exact hclosing hcall
      | returned i => exact hnot hcall
      | brokenOff i => exact hbroken hcall
    rw [hopen] at hc
    cases hc

/-- Two tasks shut a session down, and a third has a new one before the first of them is done. -/
def lateShutdown : List LifecycleAction :=
  [.getInstance, .startup 0, .shutdown 0, .shutdown 0, .getInstance, .acloseEnds 0 .returns]

theorem session_lifecycle_late :
    ∃ m, exec step {} lateShutdown = some m ∧ m.registered = some 1 ∧ m.isOpen 0 = false := by
  obtain ⟨m, hm, hopen⟩ := exec_ends (f := step) (Q := fun m : SessionManagers => m.isOpen 1 = true) (s := {}) lateShutdown
    (by decide)
  obtain ⟨-, hreg, -⟩ := session_lifecycle m (reachable_of_exec _ hm)
  refine ⟨m, hm, hreg 1 hopen, eq_false_of_ne_true fun h0 => ?_⟩
  exact absurd ((hreg 0 h0).symm.trans (hreg 1 hopen)) nofun

end SessionManagers

end SocialScraper
