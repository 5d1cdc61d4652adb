import Mathlib.Tactic.NormNum
import SocialScraper.Enrichment.EnrichmentCache
import SocialScraper.Lib.Expiry
/-!
# The cache is a timestamped map

`get` deletes what it finds expired, so the store falls behind the map its
history leaves. `run_evicted` relates the two after every sequence of calls
(`Lib.Expiry`): whatever is missing in the store is over.
-/
open Lib.Expiry

namespace SocialScraper

/-- A call of the cache, with its arguments. -/
inductive CacheOp (α : Type)
  | get (key : Str)
  | set (key : Str) (value : α) (ttlSeconds : Option ℚ)
  | delete (key : Str)
  | clear

/-- A call, and the time it reads from the clock. -/
structure CacheCall (α : Type) where
  time : ℚ
  op : CacheOp α

namespace MemoryCache

variable {α : Type}

/-- `delete`. -/
def delete (m : MemoryCache α) (key : Str) : MemoryCache α where
  store := Function.update m.store key none

/-- `clear`. -/
def clear (_ : MemoryCache α) : MemoryCache α where
  store := fun _ => none

/-- What a call leaves, and what it returns. -/
def call (defaultTtl : ℚ) (m : MemoryCache α) (c : CacheCall α) : MemoryCache α × Option α :=
  match c.op with
  | .get key => m.get key c.time
  | .set key value ttlSeconds => (m.set key c.time value (ttlSeconds.getD defaultTtl), none)
  | .delete key => (m.delete key, none)
  | .clear => (m.clear, none)

/-- The calls in order, on a new cache. -/
def run (defaultTtl : ℚ) (calls : List (CacheCall α)) : MemoryCache α :=
  calls.foldl (fun m c => (m.call defaultTtl c).1) {}

/-- What the call returns after the others. -/
def answer (defaultTtl : ℚ) (calls : List (CacheCall α)) (c : CacheCall α) : Option α :=
  ((run defaultTtl calls).call defaultTtl c).2

end MemoryCache

/-! ## The history -/

/-- The call stores under the key or removes what is there, live or not. -/
def CacheOp.touches {α : Type} (key : Str) : CacheOp α → Bool
  | .get _ => false
  | .set key' _ _ => key' = key
  | .delete key' => key' = key
  | .clear => true

/-- The clock never goes back. -/
def Clocked {α : Type} (calls : List (CacheCall α)) : Prop := calls.Pairwise fun c c' => c.time ≤ c'.time

/-- The last `set` of the key stored the value at the time, to live so long; no `delete` of it and no `clear` followed. -/
def LastSet {α : Type} (defaultTtl : ℚ) (calls : List (CacheCall α)) (key : Str) (value : α) (time ttl : ℚ) : Prop :=
  ∃ before rest ttlSeconds, calls = before ++ ⟨time, .set key value ttlSeconds⟩ :: rest ∧
    ttlSeconds.getD defaultTtl = ttl ∧ ∀ c ∈ rest, c.op.touches key = false

namespace MemoryCache

variable {α : Type} {defaultTtl : ℚ} {m : MemoryCache α} {calls : List (CacheCall α)}

/-- The call as an operation on a map with deadlines. -/
def mapOp (defaultTtl : ℚ) (c : CacheCall α) : Op Str α ℚ :=
  match c.op with
  | .get key => .get key
  | .set key value ttlSeconds => .set key value (c.time + ttlSeconds.getD defaultTtl)
  | .delete key => .delete key
  | .clear => .clear

/-- The store, its entries with their deadlines. -/
def entries (m : MemoryCache α) (key : Str) : Option (α × ℚ) := (m.store key).map fun e => (e.value, e.expiresAt)

variable (defaultTtl) in
theorem writes_mapOp (c : CacheCall α) (key : Str) : (mapOp defaultTtl c).writes key = c.op.touches key := by
  obtain ⟨time, op⟩ := c
  cases op <;> rfl

theorem entries_update (key : Str) (e : Option (CacheEntry α)) :
    entries { store := Function.update m.store key e } = Function.update m.entries key (e.map fun e => (e.value, e.expiresAt)) := by
  funext key'
  show (Function.update m.store key e key').map _ = _
  by_cases h : key' = key
  · subst h
    rw [Function.update_self, Function.update_self]
  · rw [Function.update_of_ne h, Function.update_of_ne h]
    rfl

/-- `get` reads the store as a map. -/
theorem get_live (key : Str) (now : ℚ) : (m.get key now).2 = live m.entries now key := by
  unfold get live entries
  cases m.store key with
  | none => rfl
  | some entry =>
    show (if _ then _ else _ : MemoryCache α × Option α).2 = if _ then _ else _
    split_ifs <;> rfl

/-- What `get` does to the store: nothing, or it drops an entry that is over. -/
theorem get_entries (key : Str) (now : ℚ) : (m.get key now).1.entries = m.entries ∨
    (∀ p ∈ m.entries key, p.2 < now) ∧ (m.get key now).1.entries = Function.update m.entries key none := by
  cases hm : m.store key with
  | none =>
    left
    simp only [get, hm]
  | some entry =>
    by_cases hexp : entry.expiresAt < now
    · right
      refine ⟨?_, ?_⟩
      · intro p hp
        obtain rfl : (entry.value, entry.expiresAt) = p := by simpa [entries, hm] using hp
        exact hexp
      · simp only [get, hm, if_pos hexp]
        exact entries_update key none
    · left
      simp only [get, hm, if_neg hexp]

/-- One call keeps the store and the map together. -/
theorem call_evicted {c : CacheCall α} {f : Str → Option (α × ℚ)} (h : Evicted c.time m.entries f) :
    Evicted c.time (m.call defaultTtl c).1.entries ((mapOp defaultTtl c).effect f) := by
  obtain ⟨time, op⟩ := c
  cases op with
  | get key =>
    rcases get_entries (m := m) key time with he | ⟨hover, he⟩
    · exact he ▸ h
    · exact he ▸ h.evict hover
  | set key value ttlSeconds =>
    have hset := h.effect (.set key value (time + ttlSeconds.getD defaultTtl))
    exact (entries_update (m := m) key (some ⟨value, time + ttlSeconds.getD defaultTtl⟩)).symm ▸ hset
  | delete key => exact (entries_update (m := m) key none).symm ▸ h.effect (.delete key)
  | clear => exact h.effect .clear

variable (defaultTtl) in
/-- After every sequence of calls, what is missing in the store is over. -/
theorem run_evicted (hc : Clocked calls) {now : ℚ} (hnow : ∀ c ∈ calls, c.time ≤ now) :
    Evicted now (run defaultTtl calls).entries (after (calls.map (mapOp defaultTtl))) := by
  induction calls using List.reverseRecOn generalizing now with
  | nil => exact evicted_refl _ _
  | append_singleton calls c ih =>
    obtain ⟨hc, -, hlast⟩ := List.pairwise_append.1 hc
    have hrun : run defaultTtl (calls ++ [c]) = ((run defaultTtl calls).call defaultTtl c).1 := by
      unfold run
      rw [List.foldl_append]
      rfl
    rw [hrun, List.map_append, List.map_singleton, after_concat]
    have hbefore := ih hc fun c' hc' => hlast c' hc' c (List.mem_singleton_self c)
    exact (call_evicted hbefore).mono (hnow c (by simp))

/-- A `get` reads the map its history leaves. -/
theorem answer_get {key : Str} {t : ℚ} (hc : Clocked (calls ++ [⟨t, .get key⟩])) :
    answer defaultTtl calls ⟨t, .get key⟩ = live (after (calls.map (mapOp defaultTtl))) t key := by
  obtain ⟨hcalls, -, hlast⟩ := List.pairwise_append.1 hc
  have hev := run_evicted defaultTtl hcalls fun c hc => hlast c hc _ (List.mem_singleton_self _)
  show ((run defaultTtl calls).get key t).2 = _
  rw [get_live, hev.live le_rfl]

/-- The map holds what was stored last. -/
theorem after_iff {key : Str} {value : α} {d : ℚ} : after (calls.map (mapOp defaultTtl)) key = some (value, d) ↔
    ∃ time ttl, LastSet defaultTtl calls key value time ttl ∧ time + ttl = d := by
  rw [after_eq_some_iff]
  constructor
  · rintro ⟨before, rest, he, hrest⟩
    obtain ⟨before, tail, rfl, rfl, htail⟩ := List.map_eq_append_iff.1 he
    obtain ⟨c, rest, rfl, hset, rfl⟩ := List.map_eq_cons_iff.1 htail
    obtain ⟨time, op⟩ := c
    cases op with
    | set key' value' ttlSeconds =>
      obtain ⟨rfl, rfl, rfl⟩ := Op.set.inj hset
      refine ⟨time, _, ⟨before, rest, ttlSeconds, rfl, rfl, fun c hc => ?_⟩, rfl⟩
      rw [← writes_mapOp defaultTtl]
      exact hrest _ (List.mem_map_of_mem hc)
    | get => cases hset
    | delete => cases hset
    | clear => cases hset
  · rintro ⟨time, _, ⟨before, rest, ttlSeconds, rfl, rfl, hrest⟩, rfl⟩
    refine ⟨before.map (mapOp defaultTtl), rest.map (mapOp defaultTtl), by simp [mapOp], fun op hop => ?_⟩
    obtain ⟨c, hc, rfl⟩ := List.mem_map.1 hop
    rw [writes_mapOp]
    exact hrest c hc

/-- Whatever the calls before: a `get` returns what the last `set` of the key stored, if nothing removed it and
it is not over yet. That an earlier `get` may have dropped it makes no difference. -/
theorem get_iff_last_set (defaultTtl : ℚ) (calls : List (CacheCall α)) (key : Str) (t : ℚ)
    (hc : Clocked (calls ++ [⟨t, .get key⟩])) :
    (∀ value, answer defaultTtl calls ⟨t, .get key⟩ = some value ↔
      ∃ time ttl, LastSet defaultTtl calls key value time ttl ∧ t ≤ time + ttl) ∧
    ∀ before rest key' t', calls = before ++ ⟨t', .get key'⟩ :: rest →
      answer defaultTtl (before ++ rest) ⟨t, .get key⟩ = answer defaultTtl calls ⟨t, .get key⟩ := by
  constructor
  · intro value
    rw [answer_get hc, live, Option.bind_eq_some_iff]
    constructor
    · rintro ⟨⟨value', d⟩, hm, hr⟩
      obtain ⟨hlive, hv⟩ := Option.ite_none_left_eq_some.1 hr
      obtain rfl := Option.some.inj hv
      obtain ⟨time, ttl, hlast, rfl⟩ := after_iff.1 hm
      exact ⟨time, ttl, hlast, not_lt.1 hlive⟩
    · rintro ⟨time, ttl, hlast, hle⟩
      exact ⟨(value, time + ttl), after_iff.2 ⟨time, ttl, hlast, rfl⟩, if_neg (not_lt.2 hle)⟩
  · rintro before rest key' t' rfl
    have hsub : (before ++ rest).Sublist (before ++ ⟨t', .get key'⟩ :: rest) :=
      (List.sublist_cons_self _ rest).append_left before
    have hc' : Clocked (before ++ rest ++ [⟨t, .get key⟩]) := List.Pairwise.sublist (hsub.append_right _) hc
    rw [answer_get hc', answer_get hc, List.map_append, List.map_append, List.map_cons]
    congr 1
    exact (after_get _ _ key').symm

/-- An entry that is over is looked up, and dropped, before the key is set again. -/
theorem get_after_second_set :
    let calls : List (CacheCall ℕ) :=
      [⟨0, .set "k".toList 1 (some 5)⟩, ⟨6, .get "k".toList⟩, ⟨7, .set "k".toList 2 none⟩]
    Clocked (calls ++ [⟨8, .get "k".toList⟩]) ∧ answer 60 calls ⟨8, .get "k".toList⟩ = some 2 := by
  have hc : Clocked ([⟨0, .set "k".toList 1 (some 5)⟩, ⟨6, .get "k".toList⟩, ⟨7, .set "k".toList 2 none⟩] ++
      [⟨8, .get "k".toList⟩] : List (CacheCall ℕ)) := by
    norm_num [Clocked]
  refine ⟨hc, ((get_iff_last_set 60 _ _ 8 hc).1 2).2 ⟨7, 60, ?_, by norm_num⟩⟩
  exact ⟨[⟨0, .set "k".toList 1 (some 5)⟩, ⟨6, .get "k".toList⟩], [], none, rfl, rfl, by simp⟩

end MemoryCache

end SocialScraper
