import Mathlib.Algebra.Order.Ring.Nat
import Mathlib.Data.List.Dedup
import SocialScraper.BestCandidates
/-!
# Counting selections

`SelectionEngine.select` with a `SelectionMetrics` that one engine keeps over
many leads. The counters account for every candidate (`selection_counts`), also
where a call has raised.
-/
open Lib

namespace SocialScraper

structure SelectionMetrics where
  candidates : ℕ := 0
  duplicates : ℕ := 0
  rejected : ℕ := 0
  selected : ℕ := 0
deriving DecidableEq

variable (lib : Stdlib) (settings : Settings)

/-- How many URLs a result has. -/
def SelectionResult.count (result : SelectionResult) : ℕ := [result.instagramUrl, result.facebookUrl].countP truthy

/-- `select` with metrics: what they are behind it, and what it returns; `none` if it raises. -/
def SelectionMetrics.select (m : SelectionMetrics) (candidates : List Candidate) : SelectionMetrics × Option SelectionResult :=
  let m := { m with candidates := m.candidates + candidates.length }
  let m := { m with rejected := m.rejected + candidates.countP fun c => !truthy c.normalizedUrl }
  match deduplicate lib settings candidates with
  | none => (m, none)
  | some (deduped, duplicateCount) =>
    let m := { m with duplicates := m.duplicates + duplicateCount }
    let usable := deduped.filter fun c => truthy c.normalizedUrl
    let result := (best lib settings usable "instagram".toList).bind fun instagramUrl =>
      (best lib settings usable "facebook".toList).map fun facebookUrl => (⟨instagramUrl, facebookUrl⟩ : SelectionResult)
    match result with
    | none => (m, none)
    | some result => ({ m with selected := m.selected + result.count }, some result)

/-- The metrics after the calls. -/
def SelectionMetrics.run (calls : List (List Candidate)) : SelectionMetrics :=
  calls.foldl (fun m candidates => (m.select lib settings candidates).1) {}

/-- The usable candidates, those with one platform and normalized URL once. -/
def distinctUsable (candidates : List Candidate) : ℕ := ((candidates.filter (·.usable)).map Candidate.key).dedup.length

/-- The platforms with a usable candidate. -/
def platformsFound (candidates : List Candidate) : ℕ :=
  [Platform.instagram, .facebook].countP fun p => candidates.any fun c => c.platform = p.name && c.usable

variable {lib settings}

variable (lib settings) in
/-- The metrics change nothing. -/
theorem select_withMetrics (m : SelectionMetrics) (candidates : List Candidate) :
    (m.select lib settings candidates).2 = select lib settings candidates := by
  unfold SelectionMetrics.select select
  cases deduplicate lib settings candidates with
  | none => rfl
  | some deduped =>
    dsimp only [Option.bind_some]
    split <;> rename_i h <;> exact h.symm

theorem Dedup.Tracks.length_eq {candidates : List Candidate} {d : Dedup} (ht : d.Tracks lib settings candidates) :
    d.bestByKey.length = distinctUsable candidates := by
  have hnodup : (d.bestByKey.map (·.1)).Nodup := by
    rw [ht.keys]
    exact firsts_nodup _
  have hperm : (d.bestByKey.map (·.1)).Perm ((candidates.filter (·.usable)).map Candidate.key).dedup := by
    apply (List.perm_ext_iff_of_nodup hnodup (List.nodup_dedup _)).2
    intro key
    rw [ht.mem_keys, List.mem_dedup, List.mem_map]
    simp only [List.mem_filter, and_assoc]
  rw [distinctUsable, ← hperm.length_eq, List.length_map]

theorem count_result {candidates : List Candidate} {result : SelectionResult}
    (h : select lib settings candidates = some result) : result.count = platformsFound candidates := by
  have hplatform : ∀ p, truthy (result.url p) = candidates.any fun c => c.platform = p.name && c.usable := by
    intro p
    rcases select_cases h p with ⟨hnone, hurl⟩ | ⟨c, hwins, hurl⟩
    · rw [hurl]
      symm
      apply List.any_eq_false.2
      intro c hc hstands
      obtain ⟨hp, hu⟩ := Bool.and_eq_true_iff.1 hstands
      exact hnone c ⟨hc, of_decide_eq_true hp, hu⟩
    · obtain ⟨hc, hp, hu⟩ := hwins.1
      rw [hurl]
      have hany : (candidates.any fun c => c.platform = p.name && c.usable) = true :=
        List.any_eq_true.2 ⟨c, hc, Bool.and_eq_true_iff.2 ⟨decide_eq_true hp, hu⟩⟩
      rw [hany]
      exact hu
  have hi := hplatform .instagram
  have hf := hplatform .facebook
  simp only [SelectionResult.url] at hi hf
  simp only [SelectionResult.count, platformsFound, List.countP_cons, List.countP_nil, hi, hf]

/-- Each platform found has a key of its own. -/
theorem platformsFound_le {candidates : List Candidate} : platformsFound candidates ≤ distinctUsable candidates := by
  let found := [Platform.instagram, .facebook].filter fun p => candidates.any fun c => c.platform = p.name && c.usable
  let keys := ((candidates.filter (·.usable)).map Candidate.key).dedup
  have hnodup : (found.map Platform.name).Nodup := by
    have hnames : ([Platform.instagram, .facebook].map Platform.name).Nodup := by decide
    exact hnames.sublist (List.filter_sublist.map _)
  have hsubset : found.map Platform.name ⊆ keys.map (·.1) := by
    intro name hname
    obtain ⟨p, hp, rfl⟩ := List.mem_map.1 hname
    obtain ⟨c, hc, hcp⟩ := List.any_eq_true.1 (List.mem_filter.1 hp).2
    obtain ⟨hplatform, hu⟩ := Bool.and_eq_true_iff.1 hcp
    rw [← of_decide_eq_true hplatform]
    have hkey : c.key ∈ keys := List.mem_dedup.2 (List.mem_map_of_mem (List.mem_filter.2 ⟨hc, hu⟩))
    exact List.mem_map_of_mem hkey
  have hle := (List.subperm_of_subset hnodup hsubset).length_le
  rw [List.length_map, List.length_map] at hle
  rwa [platformsFound, List.countP_eq_length_filter]

def rejectedOf (candidates : List Candidate) : ℕ := candidates.countP fun c => !c.usable

variable (lib settings) in
/-- What a call counts as duplicates and as selected. -/
structure Counted (candidates : List Candidate) (duplicates selected : ℕ) : Prop where
  atMost : rejectedOf candidates + duplicates + selected ≤ candidates.length
  returns : (select lib settings candidates).isSome →
    candidates.length = rejectedOf candidates + duplicates + distinctUsable candidates ∧ selected = platformsFound candidates

variable (lib settings) in
theorem counted (m : SelectionMetrics) (candidates : List Candidate) :
    ∃ duplicates selected, Counted lib settings candidates duplicates selected ∧ (m.select lib settings candidates).1 =
      ⟨m.candidates + candidates.length, m.duplicates + duplicates, m.rejected + rejectedOf candidates, m.selected + selected⟩ := by
  have hresult := select_withMetrics lib settings m candidates
  have hraises : (none : Option SelectionResult) = select lib settings candidates → ¬ (select lib settings candidates).isSome := by
    intro h hsome
    rw [← h] at hsome
    cases hsome
  unfold SelectionMetrics.select at hresult ⊢
  cases hd : deduplicate lib settings candidates with
  | none =>
    rw [hd] at hresult
    exact ⟨0, 0, ⟨List.countP_le_length, fun hsome => absurd hsome (hraises hresult)⟩, rfl⟩
  | some deduped =>
    obtain ⟨deduped, n⟩ := deduped
    rw [hd] at hresult
    obtain ⟨d, hfold, hdeduped⟩ := Option.map_eq_some_iff.1 hd
    obtain ⟨-, rfl⟩ := Prod.mk.inj hdeduped
    have ht : d.Tracks lib settings candidates := Dedup.tracks_fold Dedup.tracks_nil hfold
    have hrest : d.unnormalizable.length = rejectedOf candidates := by
      rw [ht.rest, rejectedOf, List.countP_eq_length_filter]
    have hcount : distinctUsable candidates + rejectedOf candidates + d.duplicateCount = candidates.length := by
      rw [← ht.length_eq, ← hrest]
      exact ht.count
    dsimp only at hresult ⊢
    split <;> rename_i hs <;> rw [hs] at hresult
    · exact ⟨d.duplicateCount, 0, ⟨by omega, fun hsome => absurd hsome (hraises hresult)⟩, rfl⟩
    · have hplatforms := @platformsFound_le candidates
      refine ⟨d.duplicateCount, platformsFound candidates, ⟨by omega, fun _ => ⟨by omega, rfl⟩⟩, ?_⟩
      rw [count_result hresult.symm]
      rfl

variable (lib settings) in
/-- Over any calls, also where some raise: no candidate is counted twice. If all return, each was rejected or merged or is
one of the distinct usable ones, and what was selected is one URL for each platform that has any. -/
theorem selection_counts (calls : List (List Candidate)) :
    let m := SelectionMetrics.run lib settings calls
    m.candidates = (calls.map List.length).sum ∧
    m.rejected = (calls.map rejectedOf).sum ∧
    m.rejected + m.duplicates + m.selected ≤ m.candidates ∧
    ((∀ candidates ∈ calls, (select lib settings candidates).isSome) →
      m.candidates = m.rejected + m.duplicates + (calls.map distinctUsable).sum ∧
      m.selected = (calls.map platformsFound).sum) := by
  induction calls using List.reverseRecOn with
  | nil => exact ⟨rfl, rfl, Nat.le_refl 0, fun _ => ⟨rfl, rfl⟩⟩
  | append_singleton calls candidates ih =>
    obtain ⟨hcandidates, hrejected, hatMost, hexact⟩ := ih
    have hrun : SelectionMetrics.run lib settings (calls ++ [candidates]) =
        ((SelectionMetrics.run lib settings calls).select lib settings candidates).1 := by
      unfold SelectionMetrics.run
      rw [List.foldl_append]
      rfl
    obtain ⟨duplicates, selected, hcounted, hstep⟩ :=
      counted lib settings (SelectionMetrics.run lib settings calls) candidates
    have hatMost' := hcounted.atMost
    rw [hrun, hstep]
    simp only [List.map_append, List.sum_append, List.map_singleton, List.sum_singleton]
    refine ⟨by rw [hcandidates], by rw [hrejected], by omega, fun hall => ?_⟩
    obtain ⟨hsum, hselected⟩ := hexact fun cs hcs => hall cs (List.mem_append_left _ hcs)
    obtain ⟨hlength, hplatforms⟩ := hcounted.returns (hall candidates (by simp))
    constructor
    · omega
    · rw [hplatforms, hselected]

end SocialScraper
