import Mathlib.Data.List.MinMax
import SocialScraper.Lib.Firsts
import SocialScraper.Reselect
import SocialScraper.Social.LinkExtractor
/-!
# What selection selects

`deduplicate` keeps the best candidate of each key (`tracks_fold`), so nothing
is lost to the ranking behind it: the URL selected for a platform belongs to a
candidate that none of the platform outranks (`select_maximum`).
-/
open Lib

namespace SocialScraper

variable {lib : Stdlib} {settings : Settings}

/-! ## Deduplication -/

variable (lib settings) in
/-- `rank_score` of a candidate it can be computed for. -/
def Candidate.score (c : Candidate) : ℕ := (rankScore lib settings c).getD 0

theorem Candidate.score_of_rankScore {c : Candidate} {s : ℕ} (h : rankScore lib settings c = some s) :
    c.score lib settings = s := by
  rw [score, h]
  rfl

def candidateKey (c : Candidate) : Option (Str × Str) := some c.key

/-- The usable candidates with the key. -/
def rivals (candidates : List Candidate) (key : Str × Str) : List Candidate :=
  candidates.filter fun c => c.usable && c.key = key

theorem rivals_own (candidates : List Candidate) {c : Candidate} (hu : c.usable) :
    rivals (candidates ++ [c]) c.key = rivals candidates c.key ++ [c] := by
  simp [rivals, List.filter_append, hu]

theorem rivals_other (candidates : List Candidate) {c : Candidate} {key : Str × Str} (h : c.usable = false ∨ c.key ≠ key) :
    rivals (candidates ++ [c]) key = rivals candidates key := by
  rcases h with h | h <;> simp [rivals, List.filter_append, h]

/-- What `deduplicate` holds after the candidates it has seen. -/
structure Dedup.Tracks (lib : Stdlib) (settings : Settings) (seen : List Candidate) (d : Dedup) : Prop where
  keys : d.bestByKey.map (·.1) = (firsts candidateKey (seen.filter (·.usable))).filterMap candidateKey
  best : ∀ kv ∈ d.bestByKey, (rivals seen kv.1).argmax (Candidate.score lib settings) = some kv.2
  rest : d.unnormalizable = seen.filter (!·.usable)
  count : d.bestByKey.length + d.unnormalizable.length + d.duplicateCount = seen.length
  scored : ∀ c ∈ seen, c.usable → c ∈ d.bestByKey.values ∨ (rankScore lib settings c).isSome

/-- What one pass of the loop does. -/
theorem Dedup.add_cases {d d' : Dedup} {c : Candidate} (h : d.add lib settings c = some d') :
    c.usable = false ∧ d' = { d with unnormalizable := d.unnormalizable ++ [c] } ∨
    c.usable ∧ d.bestByKey.get c.key = none ∧ d' = { d with bestByKey := d.bestByKey.set c.key c } ∨
    c.usable ∧ ∃ existing score best, d.bestByKey.get c.key = some existing ∧
      rankScore lib settings c = some score ∧ rankScore lib settings existing = some best ∧
      d' = { d with
        duplicateCount := d.duplicateCount + 1
        bestByKey := if score > best then d.bestByKey.set c.key c else d.bestByKey } := by
  cases hu : c.usable with
  | false =>
    rw [add_unusable hu] at h
    exact .inl ⟨rfl, (Option.some.inj h).symm⟩
  | true =>
    right
    cases hg : d.bestByKey.get c.key with
    | none =>
      rw [add_new hu hg, ← Dict.set_new hg] at h
      exact .inl ⟨rfl, rfl, (Option.some.inj h).symm⟩
    | some existing =>
      rw [add_known hu hg] at h
      obtain ⟨score, hs, h⟩ := Option.bind_eq_some_iff.1 h
      obtain ⟨best, hb, h⟩ := Option.map_eq_some_iff.1 h
      exact .inr ⟨rfl, existing, score, best, rfl, hs, hb, h.symm⟩

theorem filter_usable_concat (seen : List Candidate) {c : Candidate} (hu : c.usable) :
    (seen ++ [c]).filter (·.usable) = seen.filter (·.usable) ++ [c] := by
  rw [List.filter_append, List.filter_singleton, hu, cond_true]

namespace Dedup.Tracks

variable {seen : List Candidate} {d : Dedup} {c : Candidate}

theorem mem_keys (ht : d.Tracks lib settings seen) {key : Str × Str} :
    key ∈ d.bestByKey.map (·.1) ↔ ∃ c ∈ seen, c.usable ∧ c.key = key := by
  rw [ht.keys, mem_keys_firsts]
  simp [candidateKey, and_assoc]

/-- Nothing with a new key is held. -/
theorem rivals_nil (ht : d.Tracks lib settings seen) (h : d.bestByKey.get c.key = none) : rivals seen c.key = [] := by
  rw [rivals, List.filter_eq_nil_iff]
  intro x hx hxc
  rw [Bool.and_eq_true, decide_eq_true_eq] at hxc
  exact Dict.get_eq_none_iff.1 h (ht.mem_keys.2 ⟨x, hx, hxc⟩)

theorem pass (ht : d.Tracks lib settings seen) (hu : c.usable = false) :
    Tracks lib settings (seen ++ [c]) { d with unnormalizable := d.unnormalizable ++ [c] } where
  keys := by
    rw [ht.keys, List.filter_append]
    simp [hu]
  best kv hkv := by
    rw [rivals_other seen (.inl hu)]
    exact ht.best kv hkv
  rest := by
    rw [ht.rest, List.filter_append]
    simp [hu]
  count := by
    have hcount := ht.count
    simp only [List.length_append, List.length_singleton]
    omega
  scored x hx hxu := by
    rcases List.mem_append.1 hx with hx | hx
    · exact ht.scored x hx hxu
    · rw [List.mem_singleton.1 hx, hu] at hxu
      cases hxu

/-- The keys when a usable candidate has come. -/
theorem keys_concat (ht : d.Tracks lib settings seen) (hu : c.usable) :
    (firsts candidateKey ((seen ++ [c]).filter (·.usable))).filterMap candidateKey = (d.bestByKey.set c.key c).map (·.1) := by
  have hkey : candidateKey c = some c.key := rfl
  rw [filter_usable_concat seen hu, keys_firsts_concat hkey, Dict.keys_set, ht.keys]

/-- The candidate takes the place of its key. -/
theorem best_set (ht : d.Tracks lib settings seen)
    (hc : (rivals (seen ++ [c]) c.key).argmax (Candidate.score lib settings) = some c) :
    ∀ kv ∈ d.bestByKey.set c.key c, (rivals (seen ++ [c]) kv.1).argmax (Candidate.score lib settings) = some kv.2 := by
  intro kv hkv
  rcases Dict.mem_set.1 hkv with rfl | ⟨hkv, hne⟩
  · exact hc
  · rw [rivals_other seen (.inr hne.symm)]
    exact ht.best kv hkv

theorem rest_concat (ht : d.Tracks lib settings seen) (hu : c.usable) :
    d.unnormalizable = (seen ++ [c]).filter (!·.usable) := by
  rw [ht.rest, List.filter_append]
  simp [hu]

theorem new (ht : d.Tracks lib settings seen) (hu : c.usable) (hg : d.bestByKey.get c.key = none) :
    Tracks lib settings (seen ++ [c]) { d with bestByKey := d.bestByKey.set c.key c } where
  keys := (ht.keys_concat hu).symm
  best := by
    apply ht.best_set
    rw [rivals_own seen hu, ht.rivals_nil hg]
    rfl
  rest := ht.rest_concat hu
  count := by
    have hcount := ht.count
    have hlen : (d.bestByKey.set c.key c).length = d.bestByKey.length + 1 := by
      rw [← List.length_map (·.1), Dict.keys_set, if_neg (Dict.get_eq_none_iff.1 hg), List.length_append, List.length_map]
      rfl
    simp only [List.length_append, List.length_singleton, hlen]
    omega
  scored x hx hxu := by
    rcases List.mem_append.1 hx with hx | hx
    · apply (ht.scored x hx hxu).imp_left
      intro hmem
      obtain ⟨kv, hkv, rfl⟩ := List.mem_map.1 hmem
      refine List.mem_map_of_mem (Dict.mem_set.2 (.inr ⟨hkv, fun he => ?_⟩))
      exact Dict.get_eq_none_iff.1 hg (he ▸ List.mem_map_of_mem hkv)
    · rw [List.mem_singleton.1 hx]
      exact .inl (List.mem_map_of_mem (Dict.mem_set.2 (.inl rfl)))

theorem duplicate (ht : d.Tracks lib settings seen) (hu : c.usable) {existing : Candidate} {score best : ℕ}
    (hg : d.bestByKey.get c.key = some existing) (hs : rankScore lib settings c = some score)
    (hb : rankScore lib settings existing = some best) :
    Tracks lib settings (seen ++ [c])
      { d with
        duplicateCount := d.duplicateCount + 1
        bestByKey := if score > best then d.bestByKey.set c.key c else d.bestByKey } := by
  have hmem := Dict.mem_of_get_eq hg
  have hkey : c.key ∈ d.bestByKey.map (·.1) := List.mem_map_of_mem hmem
  have hkeys : (d.bestByKey.set c.key c).map (·.1) = d.bestByKey.map (·.1) := by rw [Dict.keys_set, if_pos hkey]
  have hlen : (d.bestByKey.set c.key c).length = d.bestByKey.length := by
    rw [← List.length_map (·.1), hkeys, List.length_map]
  have hmax : (rivals (seen ++ [c]) c.key).argmax (Candidate.score lib settings) =
      if score > best then some c else some existing := by
    rw [rivals_own seen hu, List.argmax_concat, ht.best _ hmem, Candidate.score_of_rankScore hs]
    show (if Candidate.score lib settings existing < score then some c else some existing) = _
    rw [Candidate.score_of_rankScore hb]
  refine ⟨?_, ?_, ht.rest_concat hu, ?_, ?_⟩
  · rw [ht.keys_concat hu]
    split_ifs
    · rfl
    · exact hkeys.symm
  · split_ifs at hmax ⊢
    · exact ht.best_set hmax
    · intro kv hkv
      by_cases he : c.key = kv.1
      · have hsame : some kv.2 = some existing := by rw [← ht.best kv hkv, ← he, ht.best _ hmem]
        rw [← he, hmax, hsame]
      · rw [rivals_other seen (.inr he)]
        exact ht.best kv hkv
  · have hcount := ht.count
    split_ifs <;> simp only [List.length_append, List.length_singleton, hlen] <;> omega
  · intro x hx hxu
    rcases List.mem_append.1 hx with hx | hx
    · rcases ht.scored x hx hxu with hv | hv
      · obtain ⟨kv, hkv, rfl⟩ := List.mem_map.1 hv
        by_cases he : c.key = kv.1
        · have hsame : some kv.2 = some existing := by rw [← ht.best kv hkv, ← he, ht.best _ hmem]
          rw [Option.some.inj hsame, hb]
          exact .inr rfl
        · refine .inl ?_
          split_ifs
          · exact List.mem_map_of_mem (Dict.mem_set.2 (.inr ⟨hkv, Ne.symm he⟩))
          · exact hv
      · exact .inr hv
    · rw [List.mem_singleton.1 hx, hs]
      exact .inr rfl

end Dedup.Tracks

theorem Dedup.tracks_step {seen : List Candidate} {d d' : Dedup} {c : Candidate} (ht : d.Tracks lib settings seen)
    (h : d.add lib settings c = some d') : d'.Tracks lib settings (seen ++ [c]) := by
  rcases Dedup.add_cases h with ⟨hu, rfl⟩ | ⟨hu, hg, rfl⟩ | ⟨hu, existing, score, best, hg, hs, hb, rfl⟩
  · exact ht.pass hu
  · exact ht.new hu hg
  · exact ht.duplicate hu hg hs hb

theorem Dedup.tracks_fold {candidates seen : List Candidate} {d d' : Dedup} (ht : d.Tracks lib settings seen)
    (h : candidates.foldlM (Dedup.add lib settings) d = some d') : d'.Tracks lib settings (seen ++ candidates) := by
  induction candidates generalizing seen d with
  | nil =>
    obtain rfl := Option.some.inj h
    rwa [List.append_nil]
  | cons c candidates ih =>
    rw [List.foldlM_cons] at h
    obtain ⟨d₁, h₁, h⟩ := Option.bind_eq_some_iff.1 h
    rw [List.append_cons]
    exact ih (Dedup.tracks_step ht h₁) h

theorem Dedup.tracks_nil : Dedup.Tracks lib settings [] {} := ⟨rfl, nofun, rfl, rfl, nofun⟩

/-! ## Ranking -/

theorem keyed_of_mapM {items : List Candidate} {keyed : List (ℕ × Candidate)}
    (h : (items.mapM fun c => (rankScore lib settings c).map fun score => (score, c)) = some keyed) :
    keyed.map (·.2) = items ∧ ∀ kc ∈ keyed, rankScore lib settings kc.2 = some kc.1 := by
  induction items generalizing keyed with
  | nil =>
    obtain rfl := Option.some.inj h
    exact ⟨rfl, nofun⟩
  | cons c items ih =>
    rw [List.mapM_cons] at h
    obtain ⟨kc, hkc, h⟩ := Option.bind_eq_some_iff.1 h
    obtain ⟨rest, hrest, h⟩ := Option.bind_eq_some_iff.1 h
    obtain ⟨score, hs, rfl⟩ := Option.map_eq_some_iff.1 hkc
    obtain rfl := Option.some.inj h
    obtain ⟨hitems, hscores⟩ := ih hrest
    exact ⟨by rw [List.map_cons, hitems], List.forall_mem_cons.2 ⟨hs, hscores⟩⟩

/-- The first of the ranking is one of the items, and every item has a score that is no higher. -/
theorem rank_head {items ranked : List Candidate} (h : rank lib settings items = some ranked) (hne : items ≠ []) :
    ∃ c ∈ items, ranked.head? = some c ∧
      ∃ s, rankScore lib settings c = some s ∧ ∀ d ∈ items, ∃ t ≤ s, rankScore lib settings d = some t := by
  obtain ⟨keyed, hkeyed, rfl⟩ := Option.map_eq_some_iff.1 h
  obtain ⟨rfl, hscores⟩ := keyed_of_mapM hkeyed
  have : IsTrans (ℕ × Candidate) fun a b => b.1 ≤ a.1 := ⟨fun _ _ _ hab hbc => hbc.trans hab⟩
  have : Std.Total fun a b : ℕ × Candidate => b.1 ≤ a.1 := ⟨fun a b => le_total b.1 a.1⟩
  have hsorted := List.pairwise_insertionSort (fun a b : ℕ × Candidate => b.1 ≤ a.1) keyed
  have hperm := List.perm_insertionSort (fun a b : ℕ × Candidate => b.1 ≤ a.1) keyed
  cases hl : keyed.insertionSort fun a b => b.1 ≤ a.1 with
  | nil =>
    rw [hl] at hperm
    exact absurd (congrArg (List.map (·.2)) hperm.symm.eq_nil) hne
  | cons top rest =>
    rw [hl] at hsorted hperm
    have htop : top ∈ keyed := hperm.subset List.mem_cons_self
    refine ⟨top.2, List.mem_map_of_mem htop, rfl, top.1, hscores top htop, ?_⟩
    intro d hd
    obtain ⟨kc, hkc, rfl⟩ := List.mem_map.1 hd
    refine ⟨kc.1, ?_, hscores kc hkc⟩
    rcases List.mem_cons.1 (hperm.symm.subset hkc) with rfl | hrest
    · exact le_rfl
    · exact List.rel_of_pairwise_cons hsorted hrest

/-! ## Selection -/

/-- The URL of the platform. -/
def SelectionResult.url (result : SelectionResult) : Platform → Option Str
  | .instagram => result.instagramUrl
  | .facebook => result.facebookUrl

/-- The candidate can be selected for the platform. -/
def Stands (candidates : List Candidate) (p : Platform) (c : Candidate) : Prop :=
  c ∈ candidates ∧ c.platform = p.name ∧ c.usable

variable (lib settings) in
/-- No candidate of the platform has a higher score. -/
def Wins (candidates : List Candidate) (p : Platform) (c : Candidate) : Prop :=
  Stands candidates p c ∧
    ∃ s, rankScore lib settings c = some s ∧ ∀ d, Stands candidates p d → ∃ t ≤ s, rankScore lib settings d = some t

theorem select_bests {candidates : List Candidate} {result : SelectionResult} (h : select lib settings candidates = some result) :
    ∃ d, Dedup.Tracks lib settings candidates d ∧ ∀ p : Platform,
      best lib settings ((d.bestByKey.values ++ d.unnormalizable).filter (·.usable)) p.name = some (result.url p) := by
  obtain ⟨⟨deduped, n⟩, hd, h⟩ := Option.bind_eq_some_iff.1 h
  obtain ⟨d, hfold, hdeduped⟩ := Option.map_eq_some_iff.1 hd
  obtain ⟨rfl, -⟩ := Prod.mk.inj hdeduped
  obtain ⟨instagramUrl, hi, h⟩ := Option.bind_eq_some_iff.1 h
  obtain ⟨facebookUrl, hf, rfl⟩ := Option.map_eq_some_iff.1 h
  refine ⟨d, Dedup.tracks_fold Dedup.tracks_nil hfold, ?_⟩
  rintro (_ | _)
  · exact hi
  · exact hf

namespace Dedup.Tracks

variable {candidates : List Candidate} {d : Dedup}

theorem mem_of_values (ht : d.Tracks lib settings candidates) {c : Candidate} (h : c ∈ d.bestByKey.values) :
    c ∈ candidates ∧ c.usable := by
  obtain ⟨kv, hkv, rfl⟩ := List.mem_map.1 h
  have hmem := List.mem_filter.1 (List.argmax_mem (ht.best kv hkv))
  exact ⟨hmem.1, (Bool.and_eq_true_iff.1 hmem.2).1⟩

/-- What can be selected after deduplication are the candidates held. -/
theorem stands_iff (ht : d.Tracks lib settings candidates) {p : Platform} {c : Candidate} :
    c ∈ ((d.bestByKey.values ++ d.unnormalizable).filter (·.usable)).filter (fun c => c.platform = p.name) ↔
      c ∈ d.bestByKey.values ∧ c.platform = p.name := by
  rw [List.mem_filter, List.mem_filter, List.mem_append, decide_eq_true_eq, ht.rest, List.mem_filter]
  constructor
  · rintro ⟨⟨hv | ⟨-, hn⟩, hu⟩, hp⟩
    · exact ⟨hv, hp⟩
    · simp [hu] at hn
  · exact fun ⟨hv, hp⟩ => ⟨⟨.inl hv, (ht.mem_of_values hv).2⟩, hp⟩

/-- For every candidate that can be selected, one is held that is as good. -/
theorem covers (ht : d.Tracks lib settings candidates) {p : Platform} {c : Candidate} (h : Stands candidates p c) :
    ∃ b ∈ d.bestByKey.values, b.platform = p.name ∧ c.score lib settings ≤ b.score lib settings := by
  obtain ⟨hc, hp, hu⟩ := h
  obtain ⟨kv, hkv, hkey⟩ := List.mem_map.1 (ht.mem_keys.2 ⟨c, hc, hu, rfl⟩)
  have hmax := ht.best kv hkv
  have hb := List.mem_filter.1 (List.argmax_mem hmax)
  have hbkey : kv.2.key = kv.1 := of_decide_eq_true (Bool.and_eq_true_iff.1 hb.2).2
  refine ⟨kv.2, List.mem_map_of_mem hkv, ?_, ?_⟩
  · rw [← hp]
    exact congrArg Prod.fst (hbkey.trans hkey)
  · exact List.le_of_mem_argmax (List.mem_filter.2 ⟨hc, by simp [hu, hkey]⟩) hmax

end Dedup.Tracks

/-- What `select` returns for a platform: nothing if nothing can be selected, else the URL of a winner. -/
theorem select_cases {candidates : List Candidate} {result : SelectionResult}
    (h : select lib settings candidates = some result) (p : Platform) :
    (∀ c, ¬ Stands candidates p c) ∧ result.url p = none ∨
      ∃ c, Wins lib settings candidates p c ∧ result.url p = c.normalizedUrl := by
  obtain ⟨d, ht, hbest⟩ := select_bests h
  have hp := hbest p
  unfold best at hp
  dsimp only at hp
  split_ifs at hp with hnil
  · refine .inl ⟨fun c hc => ?_, (Option.some.inj hp).symm⟩
    obtain ⟨b, hb, hbp, -⟩ := ht.covers hc
    exact List.not_mem_nil (hnil ▸ ht.stands_iff.2 ⟨hb, hbp⟩)
  · right
    obtain ⟨ranked, hr, hurl⟩ := Option.map_eq_some_iff.1 hp
    obtain ⟨c, hc, hhead, s, hs, hmax⟩ := rank_head hr hnil
    obtain ⟨hv, hcp⟩ := ht.stands_iff.1 hc
    refine ⟨c, ⟨⟨(ht.mem_of_values hv).1, hcp, (ht.mem_of_values hv).2⟩, s, hs, ?_⟩, ?_⟩
    · intro x hx
      obtain ⟨b, hb, hbp, hle⟩ := ht.covers hx
      obtain ⟨t, hts, hbt⟩ := hmax b (ht.stands_iff.2 ⟨hb, hbp⟩)
      have hscored : ∃ u, rankScore lib settings x = some u := by
        rcases ht.scored x hx.1 hx.2.2 with hxv | hxs
        · obtain ⟨u, -, hu⟩ := hmax x (ht.stands_iff.2 ⟨hxv, hx.2.1⟩)
          exact ⟨u, hu⟩
        · exact Option.isSome_iff_exists.1 hxs
      obtain ⟨u, hu⟩ := hscored
      rw [Candidate.score_of_rankScore hu, Candidate.score_of_rankScore hbt] at hle
      exact ⟨u, hle.trans hts, hu⟩
    · rw [← hurl, hhead]
      rfl

theorem Stands.isSome {candidates : List Candidate} {p : Platform} {c : Candidate} (h : Stands candidates p c) :
    c.normalizedUrl.isSome := by
  have hu := h.2.2
  rcases hn : c.normalizedUrl with _ | url
  · simp [Candidate.usable, hn, truthy] at hu
  · rfl

theorem Stands.perm {candidates others : List Candidate} (hp : others.Perm candidates) {p : Platform} {c : Candidate} :
    Stands others p c ↔ Stands candidates p c := and_congr_left' hp.mem_iff

theorem Wins.perm {candidates others : List Candidate} (hp : others.Perm candidates) {p : Platform} {c : Candidate} :
    Wins lib settings others p c ↔ Wins lib settings candidates p c := by
  simp only [Wins, Stands.perm hp]

variable (lib settings) in
/-- Selection is a true maximum. On what `make_candidate` builds it does not raise; what it returns for a platform is
nothing exactly if no candidate of it is usable, else the URL of one with the highest score of all, and if they all
have one URL, then that one in any order of the candidates. -/
theorem select_maximum (candidates : List Candidate) :
    ((∀ c ∈ candidates, ∃ platform url source confidence, c = makeCandidate lib platform url source confidence) →
      (select lib settings candidates).isSome) ∧
    ∀ result, select lib settings candidates = some result → ∀ p : Platform,
      (result.url p = none ↔ ∀ c ∈ candidates, ¬ (c.platform = p.name ∧ truthy c.normalizedUrl)) ∧
      (∀ url, result.url p = some url → ∃ c, Wins lib settings candidates p c ∧ c.normalizedUrl = some url) ∧
      ((∀ c d, Wins lib settings candidates p c → Wins lib settings candidates p d → c.normalizedUrl = d.normalizedUrl) →
        ∀ others, others.Perm candidates → ∀ result', select lib settings others = some result' →
          result'.url p = result.url p) := by
  refine ⟨fun hmade => ?_, fun result h p => ⟨?_, ?_, ?_⟩⟩
  · apply select_isSome
    intro c hc
    obtain ⟨platform, url, source, confidence, rfl⟩ := hmade c hc
    exact rankScore_makeCandidate platform url source confidence
  · rcases select_cases h p with ⟨hnone, hurl⟩ | ⟨c, hc, hurl⟩
    · exact iff_of_true hurl fun c hc hcp => hnone c ⟨hc, hcp⟩
    · rw [hurl]
      refine iff_of_false (fun hn => ?_) fun hall => hall c hc.1.1 hc.1.2
      have hsome := hc.1.isSome
      rw [hn] at hsome
      cases hsome
  · intro url hu
    rcases select_cases h p with ⟨-, hurl⟩ | ⟨c, hc, hurl⟩
    · rw [hu] at hurl
      cases hurl
    · exact ⟨c, hc, hurl.symm.trans hu⟩
  · intro hone others hperm result' h'
    rcases select_cases h p with ⟨hnone, hurl⟩ | ⟨c, hc, hurl⟩
    · rcases select_cases h' p with ⟨-, hurl'⟩ | ⟨c', hc', -⟩
      · rw [hurl, hurl']
      · exact absurd ((Stands.perm hperm).1 hc'.1) (hnone c')
    · rcases select_cases h' p with ⟨hnone', -⟩ | ⟨c', hc', hurl'⟩
      · exact absurd ((Stands.perm hperm).2 hc.1) (hnone' c)
      · rw [hurl, hurl', hone c' c ((Wins.perm hperm).1 hc') hc]

end SocialScraper
