import SocialScraper.BestCandidates
import SocialScraper.Urllib.Hostname
/-!
# What deduplication keeps

`Dedup.Tracks` is the invariant of the loop. It leaves one thing open: where a
key comes again, two candidates are ranked, and `rank_score` parses the URL once
more. `deduplicate_isSome_iff` says when that goes well.
-/
open Lib

namespace SocialScraper

variable {lib : Stdlib} {settings : Settings}

/-! ## When it returns -/

variable (lib settings) in
/-- Where a usable candidate repeats a key, its `rank_score` can be computed. -/
def Rankable (candidates : List Candidate) : Prop :=
  ∀ before c after, candidates = before ++ c :: after → c.usable → (∃ x ∈ before, x.usable ∧ x.key = c.key) →
    (rankScore lib settings c).isSome

theorem Candidate.normalizedUrl_of_usable {c : Candidate} (hu : c.usable) : c.normalizedUrl = some c.key.2 := by
  obtain ⟨x, u, hn, hkey⟩ := usable_spec hu
  rw [hn, hkey]

/-- Whether the score can be computed depends on the URL only. -/
theorem rankScore_isSome_congr {c x : Candidate} (hc : c.usable) (hx : x.usable) (h : x.key = c.key) :
    (rankScore lib settings x).isSome = (rankScore lib settings c).isSome := by
  have hcu := Candidate.normalizedUrl_of_usable hc
  have hxu := Candidate.normalizedUrl_of_usable hx
  rw [h] at hxu
  simp only [rankScore, hcu, hxu]
  split_ifs
  · rfl
  · rw [Option.isSome_map, Option.isSome_map]

namespace Dedup

variable {seen : List Candidate} {d : Dedup} {c : Candidate}

/-- One pass of the loop goes through unless a key comes again that cannot be ranked. -/
theorem add_isSome_iff (ht : d.Tracks lib settings seen) : (d.add lib settings c).isSome ↔
    (c.usable → (∃ x ∈ seen, x.usable ∧ x.key = c.key) → (rankScore lib settings c).isSome) := by
  cases hu : c.usable with
  | false =>
    rw [add_unusable hu]
    exact iff_of_true rfl nofun
  | true =>
    rw [← ht.mem_keys]
    cases hg : d.bestByKey.get c.key with
    | none =>
      rw [add_new hu hg]
      exact iff_of_true rfl fun _ hk => absurd hk (Dict.get_eq_none_iff.1 hg)
    | some existing =>
      have hmem := Dict.mem_of_get_eq hg
      have hheld := List.mem_filter.1 (List.argmax_mem (ht.best _ hmem))
      obtain ⟨heu, hek⟩ := Bool.and_eq_true_iff.1 hheld.2
      have hsame : (rankScore lib settings existing).isSome = (rankScore lib settings c).isSome :=
        rankScore_isSome_congr hu heu (of_decide_eq_true hek)
      constructor
      · intro h _ _
        obtain ⟨d', hd'⟩ := Option.isSome_iff_exists.1 h
        rcases add_cases hd' with ⟨hn, -⟩ | ⟨-, hn, -⟩ | ⟨-, _, score, _, -, hs, -⟩
        · rw [hu] at hn
          cases hn
        · rw [hg] at hn
          cases hn
        · rw [hs]
          rfl
      · intro h
        have hs := h rfl (List.mem_map_of_mem hmem)
        rw [hs] at hsame
        obtain ⟨score, hscore⟩ := Option.isSome_iff_exists.1 hs
        obtain ⟨best, hbest⟩ := Option.isSome_iff_exists.1 hsame
        rw [add_known hu hg, hscore, hbest]
        rfl

/-- The loop, on what is still to come. -/
theorem fold_isSome_iff {candidates : List Candidate} (ht : d.Tracks lib settings seen) :
    (candidates.foldlM (Dedup.add lib settings) d).isSome ↔
      ∀ before c after, candidates = before ++ c :: after → c.usable → (∃ x ∈ seen ++ before, x.usable ∧ x.key = c.key) →
        (rankScore lib settings c).isSome := by
  induction candidates generalizing seen d with
  | nil => exact iff_of_true rfl fun before c after h => absurd h (by simp)
  | cons c candidates ih =>
    have hfirst := add_isSome_iff (c := c) ht
    rw [List.foldlM_cons]
    constructor
    · intro h before x after he hx hrep
      obtain ⟨d', hd'⟩ := Option.isSome_iff_exists.1 h
      obtain ⟨d₁, h₁, h₂⟩ := Option.bind_eq_some_iff.1 hd'
      rcases before with _ | ⟨y, before⟩
      · obtain ⟨rfl, -⟩ := List.cons.inj he
        rw [List.append_nil] at hrep
        exact hfirst.1 (by rw [h₁]; rfl) hx hrep
      · obtain ⟨rfl, rfl⟩ := List.cons.inj he
        have hrest := (ih (tracks_step ht h₁)).1 (by rw [h₂]; rfl)
        apply hrest before x after rfl hx
        rwa [List.append_assoc]
    · intro h
      obtain ⟨d₁, h₁⟩ := Option.isSome_iff_exists.1
        (hfirst.2 fun hu hrep => h [] c candidates rfl hu (by rwa [List.append_nil]))
      rw [h₁]
      apply (ih (tracks_step ht h₁)).2
      intro before x after he hx hrep
      apply h (c :: before) x after (by rw [he]; rfl) hx
      rwa [List.append_assoc] at hrep

end Dedup

theorem deduplicate_isSome_iff {candidates : List Candidate} :
    (deduplicate lib settings candidates).isSome ↔ Rankable lib settings candidates := by
  rw [deduplicate, Option.isSome_map, Dedup.fold_isSome_iff Dedup.tracks_nil]
  rfl

/-! ## What is kept -/

variable (lib settings) in
/-- The candidate is the earliest of those with its key that have the highest `rank_score`. -/
def EarliestBest (candidates : List Candidate) (c : Candidate) : Prop :=
  ∃ before after, candidates = before ++ c :: after ∧
    (∀ x ∈ before, x.usable → x.key = c.key →
      ∃ s t, rankScore lib settings x = some s ∧ rankScore lib settings c = some t ∧ s < t) ∧
    ∀ x ∈ after, x.usable → x.key = c.key →
      ∃ s t, rankScore lib settings x = some s ∧ rankScore lib settings c = some t ∧ s ≤ t

/-- `List.argmax` is the first of the maxima. -/
theorem argmax_split {α : Type} {f : α → ℕ} {l : List α} {m : α} (h : l.argmax f = some m) :
    ∃ before after, l = before ++ m :: after ∧ (∀ x ∈ before, f x < f m) ∧ ∀ x ∈ after, f x ≤ f m := by
  induction l using List.reverseRecOn generalizing m with
  | nil => cases h
  | append_singleton l a ih =>
    rw [List.argmax_concat] at h
    cases hl : l.argmax f with
    | none =>
      obtain rfl := List.argmax_eq_none.1 hl
      obtain rfl := Option.some.inj h
      exact ⟨[], [], rfl, nofun, nofun⟩
    | some b =>
      simp only [hl] at h
      split_ifs at h with hlt
      · obtain rfl := Option.some.inj h
        refine ⟨l, [], rfl, fun x hx => ?_, nofun⟩
        exact (List.le_of_mem_argmax hx hl).trans_lt hlt
      · obtain rfl := Option.some.inj h
        obtain ⟨before, after, rfl, hbefore, hafter⟩ := ih hl
        refine ⟨before, after ++ [a], by simp, hbefore, fun x hx => ?_⟩
        rcases List.mem_append.1 hx with hx | hx
        · exact hafter x hx
        · rw [List.mem_singleton.1 hx]
          exact not_lt.1 hlt

/-- Two candidates in a row with one key have their scores, if the second can be ranked. -/
theorem scores_of_repeat {candidates before mid after : List Candidate} {x c : Candidate}
    (hr : Rankable lib settings candidates) (he : candidates = before ++ x :: mid ++ c :: after) (hx : x.usable) (hc : c.usable)
    (hk : x.key = c.key) :
    rankScore lib settings x = some (x.score lib settings) ∧ rankScore lib settings c = some (c.score lib settings) := by
  have hcs := hr (before ++ x :: mid) c after he hc ⟨x, by simp, hx, hk⟩
  have hxs := hcs
  rw [← rankScore_isSome_congr hc hx hk] at hxs
  obtain ⟨s, hs⟩ := Option.isSome_iff_exists.1 hxs
  obtain ⟨t, ht⟩ := Option.isSome_iff_exists.1 hcs
  rw [Candidate.score_of_rankScore hs, Candidate.score_of_rankScore ht]
  exact ⟨hs, ht⟩

/-- What the loop holds for a key is the earliest best. -/
theorem Dedup.Tracks.earliest {candidates : List Candidate} {d : Dedup} (ht : d.Tracks lib settings candidates)
    (hr : Rankable lib settings candidates) {kv : (Str × Str) × Candidate} (hkv : kv ∈ d.bestByKey) :
    kv.2.key = kv.1 ∧ EarliestBest lib settings candidates kv.2 := by
  have hmem := List.mem_filter.1 (List.argmax_mem (ht.best kv hkv))
  obtain ⟨hu, hk⟩ := Bool.and_eq_true_iff.1 hmem.2
  have hk : kv.2.key = kv.1 := of_decide_eq_true hk
  obtain ⟨before, after, hsplit, hbefore, hafter⟩ := argmax_split (ht.best kv hkv)
  -- The rivals are part of the list, so the split is one of the whole list.
  obtain ⟨front, back, rfl, rfl, hback⟩ := List.filter_eq_append_iff.1 hsplit
  obtain ⟨mid, back, rfl, hmid, -, rfl⟩ := List.filter_eq_cons_iff.1 hback
  have rival : ∀ {x : Candidate}, x.usable → x.key = kv.2.key → (x.usable && x.key = kv.1) = true := by
    intro x hxu hxk
    rw [hxu, decide_eq_true (hxk.trans hk)]
    rfl
  refine ⟨hk, front ++ mid, back, by simp, fun x hx hxu hxk => ?_, fun x hx hxu hxk => ?_⟩
  · obtain ⟨l, r, hlr⟩ := List.append_of_mem hx
    have he : front ++ (mid ++ kv.2 :: back) = l ++ x :: r ++ kv.2 :: back := by rw [← hlr, List.append_assoc]
    obtain ⟨hs, ht⟩ := scores_of_repeat hr he hxu hu hxk
    refine ⟨_, _, hs, ht, hbefore x ?_⟩
    rcases List.mem_append.1 hx with hx | hx
    · exact List.mem_filter.2 ⟨hx, rival hxu hxk⟩
    · exact absurd (rival hxu hxk) (hmid x hx)
  · obtain ⟨l, r, rfl⟩ := List.append_of_mem hx
    have he : front ++ (mid ++ kv.2 :: (l ++ x :: r)) = front ++ mid ++ kv.2 :: l ++ x :: r := by simp
    obtain ⟨hs, ht⟩ := scores_of_repeat hr he hu hxu hxk.symm
    exact ⟨_, _, ht, hs, hafter x (List.mem_filter.2 ⟨hx, rival hxu hxk⟩)⟩

variable (lib settings) in
/-- Deduplication is exact: it returns unless a repeated key cannot be ranked, which no candidate of `make_candidate`
brings about; then there is one candidate for each key, the earliest best, in the order the keys first came. -/
theorem deduplicate_exact (candidates : List Candidate) :
    ((deduplicate lib settings candidates).isSome ↔ Rankable lib settings candidates) ∧
    ((∀ c ∈ candidates, ∃ platform url source confidence, c = makeCandidate lib platform url source confidence) →
      Rankable lib settings candidates) ∧
    ∀ unique n, deduplicate lib settings candidates = some (unique, n) →
      ∃ kept, unique = kept ++ candidates.filter (!·.usable) ∧
        (∀ c ∈ kept, c.usable ∧ EarliestBest lib settings candidates c) ∧
        (kept.map Candidate.key).Nodup ∧
        (∀ key, key ∈ kept.map Candidate.key ↔ ∃ c ∈ candidates, c.usable ∧ c.key = key) ∧
        kept.map Candidate.key = (firsts candidateKey (candidates.filter (·.usable))).map Candidate.key ∧
        unique.length + n = candidates.length ∧
        deduplicate lib settings unique = some (unique, 0) := by
  refine ⟨deduplicate_isSome_iff, fun hmade => ?_, fun unique n h => ?_⟩
  · rintro before c after rfl - -
    obtain ⟨platform, url, source, confidence, rfl⟩ := hmade c (by simp)
    exact rankScore_makeCandidate platform url source confidence
  · have hr : Rankable lib settings candidates := deduplicate_isSome_iff.1 (by rw [h]; rfl)
    obtain ⟨d, hfold, hd⟩ := Option.map_eq_some_iff.1 h
    obtain ⟨rfl, rfl⟩ := Prod.mk.inj hd
    have ht : d.Tracks lib settings candidates := Dedup.tracks_fold Dedup.tracks_nil hfold
    have hkeys : d.bestByKey.values.map Candidate.key = d.bestByKey.map (·.1) := by
      rw [Dict.values, List.map_map]
      exact List.map_congr_left fun kv hkv => (ht.earliest hr hkv).1
    have hnodup : (d.bestByKey.values.map Candidate.key).Nodup := by
      rw [hkeys, ht.keys]
      exact firsts_nodup _
    have hkept : ∀ c ∈ d.bestByKey.values, c.usable := fun c hc => (ht.mem_of_values hc).2
    have hrest : ∀ c ∈ d.unnormalizable, c.usable = false := by
      rw [ht.rest]
      intro c hc
      simpa using (List.mem_filter.1 hc).2
    refine ⟨d.bestByKey.values, by rw [ht.rest], ?_, hnodup, ?_, ?_, ?_, ?_⟩
    · intro c hc
      obtain ⟨kv, hkv, rfl⟩ := List.mem_map.1 hc
      exact ⟨hkept _ hc, (ht.earliest hr hkv).2⟩
    · intro key
      rw [hkeys, ht.mem_keys]
    · rw [hkeys, ht.keys, ← List.filterMap_eq_map]
      rfl
    · rw [List.length_append, Dict.values, List.length_map]
      exact ht.count
    · have husable : (d.bestByKey.values ++ d.unnormalizable).filter (·.usable) = d.bestByKey.values := by
        rw [List.filter_append, List.filter_eq_self.2 hkept, List.filter_eq_nil_iff.2 fun c hc => by simp [hrest c hc],
          List.append_nil]
      have hunusable : (d.bestByKey.values ++ d.unnormalizable).filter (!·.usable) = d.unnormalizable := by
        rw [List.filter_append, List.filter_eq_nil_iff.2 fun c hc => by simp [hkept c hc],
          List.filter_eq_self.2 fun c hc => by simp [hrest c hc], List.nil_append]
      rw [deduplicate_distinct (by rw [husable]; exact hnodup), husable, hunusable]

/-- A URL that `urlparse` rejects is ranked as soon as it comes twice. -/
theorem unparsable_duplicate_raises :
    let c : Candidate := ⟨"instagram".toList, "http://[".toList, "anchor".toList, .high, some "http://[".toList⟩
    deduplicate (cpython .ascii) .defaults [c, c] = none := by
  decide +kernel

end SocialScraper
