import SocialScraper.Lib.RoundRobin
import SocialScraper.Python
/-!
# The user agents

`UserAgentManager` of `app.network.user_agent`, which gives each request of the
shared client its `User-Agent` (`rotate_user_agent`). Whatever is registered
and drawn in between, the requests take turns with the agents (`rotation`).
-/
open Lib

namespace SocialScraper

/-- `itertools.cycle` on a list: what is left of a pass over it, and what the pass has given. -/
structure Cycle where
  rest : List Str
  given : List Str := []

/-- The manager: the pool is never empty, and the cycle is on it. -/
structure UserAgentManager where
  userAgents : List Str
  cycle : Cycle
  nonempty : userAgents ≠ []
  cycles : cycle.given ++ cycle.rest = userAgents

inductive UserAgentOp where
  | next
  /-- `random`, with the index that is drawn. -/
  | random (drawn : ℕ)
  | register (userAgents : List Str)

namespace UserAgentManager

def cycleOn (userAgents : List Str) (h : userAgents ≠ []) : UserAgentManager := ⟨userAgents, ⟨userAgents, []⟩, h, rfl⟩

/-- `UserAgentManager(user_agents)`; `none` is the `ValueError`. -/
def new (default : List Str) (userAgents : Option (List Str)) : Option UserAgentManager :=
  let pool := userAgents.getD default
  if h : pool ≠ [] then some (cycleOn pool h) else none

def next : UserAgentManager → Str × UserAgentManager
  | ⟨pool, ⟨agent :: rest, given⟩, hne, hc⟩ => (agent, ⟨pool, ⟨rest, given ++ [agent]⟩, hne, by simpa using hc⟩)
  | ⟨pool, ⟨[], agent :: given⟩, hne, hc⟩ => (agent, ⟨pool, ⟨given, [agent]⟩, hne, by simpa using hc⟩)
  | ⟨_, ⟨[], []⟩, hne, hc⟩ => absurd hc.symm hne

def random (m : UserAgentManager) (drawn : ℕ) : Option Str := m.userAgents[drawn]?

/-- `register`: a pool that grows is cycled through from its start. -/
def register (m : UserAgentManager) (userAgents : List Str) : UserAgentManager :=
  let newAgents := userAgents.filter fun ua => !m.userAgents.contains ua
  if newAgents = [] then m else cycleOn (m.userAgents ++ newAgents) (List.append_ne_nil_of_left_ne_nil m.nonempty _)

def after (m : UserAgentManager) : List UserAgentOp → UserAgentManager
  | [] => m
  | .next :: ops => m.next.2.after ops
  | .random _ :: ops => m.after ops
  | .register userAgents :: ops => (m.register userAgents).after ops

/-- What the `next` calls among the operations return, in order. -/
def sent (m : UserAgentManager) : List UserAgentOp → List Str
  | [] => []
  | .next :: ops => m.next.1 :: m.next.2.sent ops
  | .random _ :: ops => m.sent ops
  | .register userAgents :: ops => (m.register userAgents).sent ops

/-! ## Taking turns -/

/-- The agents in the order of their next turns. -/
def queue (m : UserAgentManager) : List Str := m.cycle.rest ++ m.cycle.given

theorem queue_perm (m : UserAgentManager) : m.queue.Perm m.userAgents := by
  rw [← m.cycles]
  exact List.perm_append_comm

/-- The first of the queue has its turn and goes to its end. -/
theorem next_queue (m : UserAgentManager) :
    ∃ q, m.queue = m.next.1 :: q ∧ m.next.2.queue = q ++ [m.next.1] ∧ m.next.2.userAgents = m.userAgents := by
  obtain ⟨pool, ⟨rest, given⟩, hne, hc⟩ := m
  cases rest with
  | cons agent rest =>
    refine ⟨rest ++ given, rfl, ?_, rfl⟩
    exact (List.append_assoc rest given [agent]).symm
  | nil =>
    cases given with
    | cons agent given => exact ⟨given, rfl, rfl, rfl⟩
    | nil => exact absurd hc.symm hne

theorem register_known {m : UserAgentManager} {userAgents : List Str} (h : userAgents ⊆ m.userAgents) : m.register userAgents = m := by
  have hnil : userAgents.filter (fun ua => !m.userAgents.contains ua) = [] := by
    apply List.filter_eq_nil_iff.2
    intro ua hua
    simpa using h hua
  simp only [register, hnil, if_true]

theorem mem_register {m : UserAgentManager} {userAgents : List Str} {a : Str} :
    a ∈ (m.register userAgents).userAgents ↔ a ∈ m.userAgents ∨ a ∈ userAgents := by
  unfold register
  dsimp only
  split_ifs with hnil
  · refine ⟨.inl, fun h => h.elim id fun hua => ?_⟩
    have hknown := List.filter_eq_nil_iff.1 hnil a hua
    simpa using hknown
  · simp only [cycleOn, List.mem_append, List.mem_filter, Bool.not_eq_true', List.contains_eq_mem, decide_eq_false_iff_not]
    tauto

theorem prefix_register (m : UserAgentManager) (userAgents : List Str) : m.userAgents <+: (m.register userAgents).userAgents := by
  unfold register
  dsimp only
  split_ifs
  · exact List.prefix_refl _
  · exact List.prefix_append _ _

theorem prefix_after (m : UserAgentManager) (ops : List UserAgentOp) : m.userAgents <+: (m.after ops).userAgents := by
  induction ops generalizing m with
  | nil => exact List.prefix_refl _
  | cons op ops ih =>
    cases op with
    | next =>
      obtain ⟨-, -, -, hpool⟩ := next_queue m
      rw [← hpool]
      exact ih m.next.2
    | random drawn => exact ih m
    | register userAgents => exact (prefix_register m userAgents).trans (ih _)

theorem mem_after {m : UserAgentManager} {ops : List UserAgentOp} {a : Str} :
    a ∈ (m.after ops).userAgents ↔ a ∈ m.userAgents ∨ ∃ userAgents, .register userAgents ∈ ops ∧ a ∈ userAgents := by
  induction ops generalizing m with
  | nil => simp [after]
  | cons op ops ih =>
    cases op with
    | next =>
      obtain ⟨-, -, -, hpool⟩ := next_queue m
      rw [after, ih, hpool]
      simp
    | random drawn =>
      rw [after, ih]
      simp
    | register userAgents =>
      rw [after, ih, mem_register]
      simp only [List.mem_cons, UserAgentOp.register.injEq]
      constructor
      · rintro ((h | h) | ⟨new, hnew, h⟩)
        · exact .inl h
        · exact .inr ⟨userAgents, .inl rfl, h⟩
        · exact .inr ⟨new, .inr hnew, h⟩
      · rintro (h | ⟨new, rfl | hnew, h⟩)
        · exact .inl (.inl h)
        · exact .inl (.inr h)
        · exact .inr ⟨new, hnew, h⟩

def isNext : UserAgentOp → Bool
  | .next => true
  | _ => false

/-- Where nothing new is registered, the requests take the next turns. -/
theorem sent_eq (m : UserAgentManager) (ops : List UserAgentOp)
    (h : ∀ userAgents, .register userAgents ∈ ops → userAgents ⊆ m.userAgents) : m.sent ops = turns m.queue (ops.countP isNext) := by
  induction ops generalizing m with
  | nil => rw [sent, List.countP_nil, turns_zero]
  | cons op ops ih =>
    have hops : ∀ userAgents, .register userAgents ∈ ops → userAgents ⊆ m.userAgents :=
      fun userAgents hua => h userAgents (List.mem_cons_of_mem _ hua)
    cases op with
    | next =>
      obtain ⟨q, hq, hq', hpool⟩ := next_queue m
      have hrest := ih m.next.2 (by rw [hpool]; exact hops)
      rw [sent, List.countP_cons_of_pos (p := isNext) rfl, hq, turns, hrest, hq']
    | random drawn =>
      rw [sent, List.countP_cons_of_neg (p := isNext) (by simp [isNext])]
      exact ih m hops
    | register userAgents =>
      rw [sent, register_known (h userAgents List.mem_cons_self), List.countP_cons_of_neg (p := isNext) (by simp [isNext])]
      exact ih m hops

/-- The pool only grows, by what is registered. From any moment on until something new is, every agent of the pool has its
share of the requests: one for each of its places in each whole round, and at most as many more in the last one. -/
theorem rotation (default : List Str) (userAgents : Option (List Str)) (m : UserAgentManager)
    (h : new default userAgents = some m) (ops later : List UserAgentOp) :
    userAgents.getD default <+: (m.after ops).userAgents ∧
    (∀ a, a ∈ (m.after ops).userAgents ↔
      a ∈ userAgents.getD default ∨ ∃ registered, .register registered ∈ ops ∧ a ∈ registered) ∧
    ((∀ registered, .register registered ∈ later → registered ⊆ (m.after ops).userAgents) → ∀ a,
      let pool := (m.after ops).userAgents
      ∃ extra ≤ pool.count a, (later.countP isNext % pool.length = 0 → extra = 0) ∧
        ((m.after ops).sent later).count a = later.countP isNext / pool.length * pool.count a + extra) := by
  have hpool : m.userAgents = userAgents.getD default := by
    unfold new at h
    dsimp only at h
    split_ifs at h with hne
    obtain rfl := Option.some.inj h
    rfl
  rw [← hpool]
  refine ⟨prefix_after m ops, fun a => mem_after, fun hlater a => ?_⟩
  have hperm := queue_perm (m.after ops)
  have hne : (m.after ops).queue ≠ [] := fun hnil => (m.after ops).nonempty (List.nil_perm.1 (hnil ▸ hperm))
  have hshare := turns_share (m.after ops).queue hne (later.countP isNext) a
  rw [hperm.length_eq, hperm.count_eq, ← sent_eq (m.after ops) later hlater] at hshare
  exact hshare

/-- A request, an agent registered twice, and four requests more. -/
theorem rotation_two : ∃ m, new [] (some ["a".toList, "b".toList]) = some m ∧
    1 ≤ ((m.after [.next, .register ["b".toList, "c".toList]]).sent [.next, .random 1, .next, .next, .next]).count "b".toList := by
  have hnew : new [] (some ["a".toList, "b".toList]) = some (cycleOn ["a".toList, "b".toList] (by decide)) := rfl
  obtain ⟨-, -, hshare⟩ := rotation [] (some ["a".toList, "b".toList]) _ hnew
    [.next, .register ["b".toList, "c".toList]] [.next, .random 1, .next, .next, .next]
  have hquiet : ∀ registered, UserAgentOp.register registered ∉ [.next, .random 1, .next, .next, .next] := by simp
  obtain ⟨extra, -, -, hcount⟩ := hshare (fun registered h => absurd h (hquiet registered)) "b".toList
  refine ⟨_, hnew, ?_⟩
  rw [hcount]
  exact Nat.le_add_right 1 extra

end UserAgentManager

end SocialScraper
