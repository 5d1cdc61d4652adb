import SocialScraper.Selection
/-!
# What the selection step does to a lead

A lead brings at most one candidate for a platform, so nothing is deduplicated
and nothing competes: each URL the lead has ends as its own normal form, or is
dropped with its confidence (`selectLead_eq`).
-/

namespace SocialScraper

variable (lib : Stdlib) (settings : Settings)

/-- The normal form of a URL the lead has, if it can be used. -/
def keptUrl (url : Option Str) : Option Str :=
  match url with
  | none | some [] => none
  | some url => (normalizeSocialUrl lib url).filter fun n => isValidUrl lib n && n != []

/-- The social fields after the selection step. -/
def reselect (social : SocialLead) : SocialLead :=
  if truthy social.instagramUrl || truthy social.facebookUrl then
    { social with
      instagramUrl := keptUrl lib social.instagramUrl
      instagramConfidence := if (keptUrl lib social.instagramUrl).isSome then social.instagramConfidence else none
      facebookUrl := keptUrl lib social.facebookUrl
      facebookConfidence := if (keptUrl lib social.facebookUrl).isSome then social.facebookConfidence else none }
  else social

variable {lib settings}

/-! ## Candidates of different platforms -/

theorem Dict.set_new {κ α : Type} [DecidableEq κ] {d : Dict κ α} {k : κ} (h : d.get k = none) (v : α) :
    d.set k v = d ++ [(k, v)] := by
  have hk : ∀ kv ∈ d, ¬ kv.1 = k := by simpa [get] using h
  have hany : ¬ d.any fun kv => kv.1 = k := by
    rw [List.any_eq_true]
    rintro ⟨kv, hkv, he⟩
    exact hk kv hkv (of_decide_eq_true he)
  rw [set, if_neg hany]

/-- The candidate can be used: it has a normal form that is not empty. -/
def Candidate.usable (c : Candidate) : Bool := truthy c.normalizedUrl

def Candidate.key (c : Candidate) : Str × Str := (c.platform, c.normalizedUrl.getD [])

theorem Candidate.usable_spec {c : Candidate} (hu : c.usable) :
    ∃ x u, c.normalizedUrl = some (x :: u) ∧ c.key = (c.platform, x :: u) := by
  rcases hc : c.normalizedUrl with _ | _ | ⟨x, u⟩
  · simp [usable, hc, truthy] at hu
  · simp [usable, hc, truthy] at hu
  · exact ⟨x, u, rfl, by simp [key, hc]⟩

theorem Dedup.add_new {d : Dedup} {c : Candidate} (hu : c.usable) (hn : d.bestByKey.get c.key = none) :
    d.add lib settings c = some { d with bestByKey := d.bestByKey ++ [(c.key, c)] } := by
  obtain ⟨x, u, hc, hkey⟩ := Candidate.usable_spec hu
  simp [add, hc, ← hkey, hn, Dict.set_new hn]

theorem Dedup.add_unusable {d : Dedup} {c : Candidate} (hu : c.usable = false) :
    d.add lib settings c = some { d with unnormalizable := d.unnormalizable ++ [c] } := by
  rcases hc : c.normalizedUrl with _ | _ | ⟨x, u⟩
  · simp [add, hc]
  · simp [add, hc]
  · simp [Candidate.usable, hc, truthy] at hu

theorem Dedup.add_known {d : Dedup} {c existing : Candidate} (hu : c.usable) (hg : d.bestByKey.get c.key = some existing) :
    d.add lib settings c =
      (rankScore lib settings c).bind fun score =>
        (rankScore lib settings existing).map fun best =>
          { d with
            duplicateCount := d.duplicateCount + 1
            bestByKey := if score > best then d.bestByKey.set c.key c else d.bestByKey } := by
  obtain ⟨x, u, hc, hkey⟩ := Candidate.usable_spec hu
  simp only [add, hc, ← hkey, hg]

theorem Dedup.fold_distinct {candidates : List Candidate} (hd : ((candidates.filter (·.usable)).map Candidate.key).Nodup)
    (d : Dedup) (hn : ∀ c ∈ candidates, c.usable → d.bestByKey.get c.key = none) :
    candidates.foldlM (Dedup.add lib settings) d = some
      { d with
        bestByKey := d.bestByKey ++ (candidates.filter (·.usable)).map fun c => (c.key, c)
        unnormalizable := d.unnormalizable ++ candidates.filter (!·.usable) } := by
  induction candidates generalizing d with
  | nil => simp
  | cons c cs ih =>
    have hrest : ∀ y ∈ cs, y.usable → d.bestByKey.get y.key = none := fun y hy => hn y (List.mem_cons_of_mem c hy)
    cases hu : c.usable with
    | true =>
      rw [List.filter_cons_of_pos hu, List.map_cons, List.nodup_cons] at hd
      obtain ⟨hc, hcs⟩ := hd
      -- The others have other keys, so theirs stay new.
      have hnew : ∀ y ∈ cs, y.usable → Dict.get (d.bestByKey ++ [(c.key, c)]) y.key = none := by
        intro y hy hyu
        have hother : c.key ≠ y.key := fun he => hc (he ▸ List.mem_map_of_mem (List.mem_filter.2 ⟨hy, hyu⟩))
        have hy' := hrest y hy hyu
        simp only [Dict.get, Option.map_eq_none_iff] at hy' ⊢
        simp [List.find?_append, hy', hother]
      rw [List.foldlM_cons, Dedup.add_new hu (hn c (by simp) hu)]
      simp [ih hcs { d with bestByKey := d.bestByKey ++ [(c.key, c)] } hnew, hu]
    | false =>
      rw [List.filter_cons_of_neg (by simp [hu])] at hd
      rw [List.foldlM_cons, Dedup.add_unusable hu]
      simp [ih hd { d with unnormalizable := d.unnormalizable ++ [c] } hrest, hu]

/-- `deduplicate` finds no duplicate; it only puts the usable candidates first. -/
theorem deduplicate_distinct {candidates : List Candidate} (hd : ((candidates.filter (·.usable)).map Candidate.key).Nodup) :
    deduplicate lib settings candidates =
      some (candidates.filter (·.usable) ++ candidates.filter (!·.usable), 0) := by
  rw [deduplicate, Dedup.fold_distinct hd {} (by simp [Dict.get])]
  simp [Dict.values, Function.comp_def]

/-- Candidates of different platforms have different keys. -/
theorem keys_distinct {candidates : List Candidate} (hd : (candidates.map (·.platform)).Nodup) :
    ((candidates.filter (·.usable)).map Candidate.key).Nodup := by
  have hsub : (candidates.filter (·.usable)).Sublist candidates := List.filter_sublist
  have hplatforms := hd.sublist (hsub.map _)
  apply List.Nodup.of_map Prod.fst
  rw [List.map_map]
  exact hplatforms

theorem filter_usable (candidates : List Candidate) :
    (candidates.filter (·.usable) ++ candidates.filter (!·.usable)).filter (truthy ·.normalizedUrl) =
      candidates.filter (·.usable) := by
  have hu : (fun c : Candidate => truthy c.normalizedUrl) = Candidate.usable := rfl
  rw [List.filter_append, hu]
  simp [List.filter_filter]

/-- A candidate without rivals is the best of its platform. -/
theorem best_distinct {usable : List Candidate} (hd : (usable.map (·.platform)).Nodup)
    (hr : ∀ c ∈ usable, (rankScore lib settings c).isSome) (platform : Str) :
    best lib settings usable platform = some ((usable.find? fun c => c.platform = platform).bind (·.normalizedUrl)) := by
  induction usable with
  | nil => rfl
  | cons c cs ih =>
    obtain ⟨hc, hcs⟩ := List.nodup_cons.1 hd
    have hrest := ih hcs fun y hy => hr y (List.mem_cons_of_mem c hy)
    by_cases hp : c.platform = platform
    · have hnone : cs.filter (fun y => y.platform = platform) = [] := by
        rw [List.filter_eq_nil_iff]
        intro y hy he
        exact hc (List.mem_map.2 ⟨y, hy, (of_decide_eq_true he).trans hp.symm⟩)
      obtain ⟨score, hs⟩ := Option.isSome_iff_exists.1 (hr c (by simp))
      simp [best, hp, hnone, rank, hs]
    · simpa [best, hp] using hrest

/-! ## The candidates of a lead -/

theorem usable_discovered (platform : Str) (url confidence : Option Str) :
    ((discoveredCandidate lib platform url confidence).filter (·.usable)).map (fun c => (c.platform, c.normalizedUrl)) =
      ((keptUrl lib url).map fun n => (platform, some n)).toList := by
  rcases url with _ | _ | ⟨x, u⟩
  · rfl
  · rfl
  · simp only [discoveredCandidate, makeCandidate, keptUrl]
    cases hn : normalizeSocialUrl lib (x :: u) with
    | none => rfl
    | some n => cases hv : isValidUrl lib n <;> cases n <;> simp [Candidate.usable, truthy, Option.filter, hv]

theorem platform_discovered {platform : Str} {url confidence : Option Str} {c : Candidate}
    (hc : c ∈ discoveredCandidate lib platform url confidence) : c.platform = platform := by
  unfold discoveredCandidate at hc
  split at hc
  · cases hc
  · cases hc
  · rw [List.mem_singleton.1 hc]
    rfl

theorem platforms_distinct (lead : BusinessLead) : ((candidatesFromLead lib lead).map (·.platform)).Nodup := by
  have one : ∀ (p : Str) (u k : Option Str), ((discoveredCandidate lib p u k).map (·.platform)).Nodup := by
    intro p u k
    unfold discoveredCandidate
    split <;> simp
  unfold candidatesFromLead
  rw [List.map_append]
  refine List.nodup_append.2 ⟨one _ _ _, one _ _ _, ?_⟩
  intro x hx y hy
  obtain ⟨c, hc, rfl⟩ := List.mem_map.1 hx
  obtain ⟨d, hd, rfl⟩ := List.mem_map.1 hy
  rw [platform_discovered hc, platform_discovered hd]
  decide

/-- Whether the lead has a candidate at all. -/
theorem candidates_nil (lead : BusinessLead) :
    candidatesFromLead lib lead = [] ↔
      (truthy lead.social.instagramUrl || truthy lead.social.facebookUrl) = false := by
  have one : ∀ (p : Str) (u k : Option Str), discoveredCandidate lib p u k = [] ↔ truthy u = false := by
    intro p u k
    rcases u with _ | _ | ⟨x, u⟩ <;> simp [discoveredCandidate, truthy]
  simp [candidatesFromLead, one]

/-- The engine's answer on the candidates of a lead. -/
theorem select_lead (lead : BusinessLead) :
    select lib settings (candidatesFromLead lib lead) =
      some ⟨keptUrl lib lead.social.instagramUrl, keptUrl lib lead.social.facebookUrl⟩ := by
  have hranked : ∀ c ∈ candidatesFromLead lib lead, (rankScore lib settings c).isSome := fun c hc => by
    rcases List.mem_append.1 hc with hc | hc <;> exact rankScore_discovered hc
  have husable : ((candidatesFromLead lib lead).filter (·.usable)).map (fun c => (c.platform, c.normalizedUrl)) =
      ((keptUrl lib lead.social.instagramUrl).map fun n => ("instagram".toList, some n)).toList ++
        ((keptUrl lib lead.social.facebookUrl).map fun n => ("facebook".toList, some n)).toList := by
    simp only [candidatesFromLead, List.filter_append, List.map_append, usable_discovered]
  have hbest : ∀ p, best lib settings ((candidatesFromLead lib lead).filter (·.usable)) p =
      some (((((keptUrl lib lead.social.instagramUrl).map fun n => ("instagram".toList, some n)).toList ++
        ((keptUrl lib lead.social.facebookUrl).map fun n => ("facebook".toList, some n)).toList).find?
          fun e => e.1 = p).bind (·.2)) := by
    intro p
    have hsub : ((candidatesFromLead lib lead).filter (·.usable)).Sublist (candidatesFromLead lib lead) :=
      List.filter_sublist
    rw [best_distinct ((platforms_distinct lead).sublist (hsub.map _)) (fun c hc => hranked c (List.mem_of_mem_filter hc)), ← husable, List.find?_map]
    simp [Option.bind_map]
  rw [select, deduplicate_distinct (keys_distinct (platforms_distinct lead)), Option.bind_some]
  dsimp only
  rw [filter_usable, hbest, hbest]
  cases keptUrl lib lead.social.instagramUrl <;> cases keptUrl lib lead.social.facebookUrl <;> rfl

theorem truthy_keptUrl (url : Option Str) : truthy (keptUrl lib url) = (keptUrl lib url).isSome := by
  cases hk : keptUrl lib url with
  | none => rfl
  | some n =>
    unfold keptUrl at hk
    split at hk
    · cases hk
    · cases hk
    · obtain ⟨-, hn⟩ := Option.filter_eq_some_iff.1 hk
      simp only [Bool.and_eq_true] at hn
      simpa [truthy] using hn.2

/-- The selection step in closed form: it never raises, and each URL of the lead
ends as its own normal form or is dropped together with its confidence. -/
theorem selectLead_eq (lead : BusinessLead) :
    selectLead lib settings lead = some { lead with social := reselect lib lead.social } := by
  unfold selectLead reselect
  dsimp only
  by_cases hnil : candidatesFromLead lib lead = []
  · rw [if_pos hnil, (candidates_nil lead).1 hnil]
    rfl
  · have hurl : (truthy lead.social.instagramUrl || truthy lead.social.facebookUrl) = true :=
      eq_true_of_ne_false fun hf => hnil ((candidates_nil lead).2 hf)
    simp only [if_neg hnil, hurl, select_lead, Option.map_some, truthy_keptUrl, if_true]

end SocialScraper
