import SocialScraper.Discovery.Cards
/-!
# Deduplication of leads

What `app.discovery.google_maps.dedup` returns: a lead is dropped exactly if
one before it has its key, and the key is the first place identifier of the
Maps URL where it has one (`extractPlaceId_eq_some_iff`).
-/
open Lib

namespace SocialScraper

/-! ## The place identifier -/

/-- `0x` and hexadecimal digits, at least one. -/
def HexNumber (s : Str) : Prop := ∃ digits, s = "0x".toList ++ digits ∧ digits ≠ [] ∧ ∀ c ∈ digits, isHexDigit c

def PlaceId (id : Str) : Prop := ∃ first second, id = first ++ ':' :: second ∧ HexNumber first ∧ HexNumber second

/-- The text has the identifier behind `before`, with all the digits that are there. -/
def PlaceIdAt (text before id : Str) : Prop :=
  ∃ behind, text = before ++ "!1s".toList ++ id ++ behind ∧ PlaceId id ∧ ∀ c ∈ behind.head?, isHexDigit c = false

/-- The identifier is the first one in the text. -/
def FirstPlaceId (text id : Str) : Prop :=
  ∃ before, PlaceIdAt text before id ∧ ∀ before' id', PlaceIdAt text before' id' → before.length ≤ before'.length

theorem span_hexDigits {digits rest : Str} (hd : ∀ c ∈ digits, isHexDigit c) (hr : ∀ c ∈ rest.head?, isHexDigit c = false) :
    (digits ++ rest).takeWhile isHexDigit = digits ∧ (digits ++ rest).dropWhile isHexDigit = rest := by
  rw [List.takeWhile_append_of_pos hd, List.dropWhile_append_of_pos hd]
  cases rest with
  | nil => simp
  | cons c rest =>
    have hc := hr c rfl
    simp [hc]

theorem hexNumber_eq_some_iff {s number rest : Str} : hexNumber s = some (number, rest) ↔
    s = number ++ rest ∧ HexNumber number ∧ ∀ c ∈ rest.head?, isHexDigit c = false := by
  constructor
  · intro h
    unfold hexNumber at h
    split_ifs at h with hpre
    obtain ⟨tail, rfl⟩ := List.isPrefixOf_iff_prefix.1 hpre
    dsimp only at h
    split_ifs at h with hnil
    obtain ⟨rfl, rfl⟩ := Prod.mk.inj (Option.some.inj h)
    refine ⟨?_, ⟨_, rfl, hnil, ?_⟩, ?_⟩
    · rw [List.append_assoc, List.takeWhile_append_dropWhile]
      rfl
    · exact fun c hc => List.mem_takeWhile_imp hc
    · intro c hc
      have hhead := List.head?_dropWhile_not isHexDigit (("0x".toList ++ tail).drop 2)
      rw [Option.mem_def.1 hc] at hhead
      exact hhead
  · rintro ⟨rfl, ⟨digits, rfl, hne, hd⟩, hr⟩
    obtain ⟨htake, hdrop⟩ := span_hexDigits hd hr
    have hpre : "0x".toList.isPrefixOf ("0x".toList ++ digits ++ rest) := by simp
    have hbehind : ("0x".toList ++ digits ++ rest).drop 2 = digits ++ rest := rfl
    unfold hexNumber
    rw [if_pos hpre, hbehind, htake, hdrop, if_neg hne]

theorem placeIdRe_eq_some_iff {s id : Str} : placeIdRe s = some id ↔ PlaceIdAt s [] id := by
  unfold placeIdRe PlaceIdAt
  constructor
  · intro h
    split_ifs at h with hpre
    obtain ⟨tail, rfl⟩ := List.isPrefixOf_iff_prefix.1 hpre
    obtain ⟨⟨first, rest⟩, hfirst, h⟩ := Option.bind_eq_some_iff.1 h
    dsimp only at h
    split_ifs at h with hcolon
    obtain ⟨⟨second, behind⟩, hsecond, rfl⟩ := Option.map_eq_some_iff.1 h
    obtain ⟨hsplit, hnum, -⟩ := hexNumber_eq_some_iff.1 hfirst
    obtain ⟨hsplit', hnum', hend⟩ := hexNumber_eq_some_iff.1 hsecond
    refine ⟨behind, ?_, ⟨first, second, rfl, hnum, hnum'⟩, hend⟩
    obtain ⟨rest, rfl⟩ : ∃ rest', rest = ':' :: rest' := by
      cases rest with
      | nil => cases hcolon
      | cons c rest => exact ⟨rest, by rw [Option.some.inj hcolon]⟩
    have htail : tail = first ++ ':' :: rest := hsplit
    have hrest : rest = second ++ behind := hsplit'
    rw [htail, hrest]
    simp
  · rintro ⟨behind, rfl, ⟨first, second, rfl, hnum, hnum'⟩, hend⟩
    have hfirst : hexNumber (first ++ ':' :: second ++ behind) = some (first, ':' :: second ++ behind) := by
      apply hexNumber_eq_some_iff.2
      refine ⟨by simp, hnum, ?_⟩
      intro c hc
      obtain rfl : ':' = c := by simpa using hc
      rfl
    have hsecond : hexNumber (second ++ behind) = some (second, behind) := hexNumber_eq_some_iff.2 ⟨rfl, hnum', hend⟩
    have hpre : "!1s".toList.isPrefixOf ([] ++ "!1s".toList ++ (first ++ ':' :: second) ++ behind) := by simp
    have hbehind : ([] ++ "!1s".toList ++ (first ++ ':' :: second) ++ behind).drop 3 = first ++ ':' :: second ++ behind := rfl
    rw [if_pos hpre, hbehind, hfirst]
    show ((hexNumber (second ++ behind)).map _) = _
    rw [hsecond]
    rfl

/-- The identifiers behind the first character are those of the rest of the text. -/
theorem placeIdAt_cons {c : Char} {text before id : Str} : PlaceIdAt (c :: text) (c :: before) id ↔ PlaceIdAt text before id := by
  constructor
  · rintro ⟨behind, h, hid⟩
    exact ⟨behind, (List.cons.inj h).2, hid⟩
  · rintro ⟨behind, rfl, hid⟩
    exact ⟨behind, rfl, hid⟩

theorem eq_cons_of_placeIdAt {c d : Char} {text before id : Str} (h : PlaceIdAt (c :: text) (d :: before) id) : d = c := by
  obtain ⟨behind, h, -⟩ := h
  exact (List.cons.inj h).1.symm

theorem firstPlaceId_cons {c : Char} {text id : Str} (h : ∀ id', ¬PlaceIdAt (c :: text) [] id') :
    FirstPlaceId (c :: text) id ↔ FirstPlaceId text id := by
  constructor
  · rintro ⟨before, hat, hfirst⟩
    cases before with
    | nil => exact absurd hat (h id)
    | cons d before =>
      obtain rfl := eq_cons_of_placeIdAt hat
      refine ⟨before, placeIdAt_cons.1 hat, ?_⟩
      intro before' id' hat'
      exact Nat.le_of_succ_le_succ (hfirst (d :: before') id' (placeIdAt_cons.2 hat'))
  · rintro ⟨before, hat, hfirst⟩
    refine ⟨c :: before, placeIdAt_cons.2 hat, ?_⟩
    intro before' id' hat'
    cases before' with
    | nil => exact absurd hat' (h id')
    | cons d before' =>
      obtain rfl := eq_cons_of_placeIdAt hat'
      exact Nat.succ_le_succ (hfirst before' id' (placeIdAt_cons.1 hat'))

/-- The search finds the first identifier. -/
theorem extractPlaceId_eq_some_iff {text id : Str} : extractPlaceId text = some id ↔ FirstPlaceId text id := by
  induction text with
  | nil =>
    constructor
    · intro h
      cases h
    · rintro ⟨before, ⟨behind, h, -⟩, -⟩
      simp at h
  | cons c text ih =>
    rw [extractPlaceId]
    cases hre : placeIdRe (c :: text) with
    | none =>
      have hnone : ∀ id', ¬PlaceIdAt (c :: text) [] id' := by
        intro id' hat
        rw [placeIdRe_eq_some_iff.2 hat] at hre
        cases hre
      rw [firstPlaceId_cons hnone, ← ih]
      rfl
    | some first =>
      have hat : PlaceIdAt (c :: text) [] first := placeIdRe_eq_some_iff.1 hre
      constructor
      · intro h
        obtain rfl := Option.some.inj h
        exact ⟨[], hat, fun _ _ _ => Nat.zero_le _⟩
      · rintro ⟨before, hat', hfirst⟩
        obtain rfl := List.eq_nil_of_length_eq_zero (Nat.le_zero.1 (hfirst [] first hat))
        rw [← hre, placeIdRe_eq_some_iff.2 hat']
        rfl

example : FirstPlaceId "https://maps.test/place/Cafe/data=!4m7!1s0x:1!1s0x47a:0xB1f!8m2?hl=en".toList "0x47a:0xB1f".toList :=
  extractPlaceId_eq_some_iff.1 (by decide)

/-- The key does not depend on what is around the identifier. -/
theorem dedupKey_of_firstPlaceId {mapsUrl id : Str} (h : FirstPlaceId mapsUrl id) : dedupKey mapsUrl = id := by
  rw [dedupKey, extractPlaceId_eq_some_iff.2 h]
  rfl

/-! ## The leads -/

theorem LeadDedup.fold_length (leads : List BusinessLead) (d : LeadDedup) :
    (leads.foldl add d).unique.length + (leads.foldl add d).duplicateCount =
      d.unique.length + d.duplicateCount + leads.length := by
  induction leads generalizing d with
  | nil => rfl
  | cons lead leads ih =>
    have hadd : (d.add lead).unique.length + (d.add lead).duplicateCount = d.unique.length + d.duplicateCount + 1 := by
      rw [add_eq]
      split
      · simp only [List.length_append, List.length_singleton]
        omega
      · split_ifs
        · rfl
        · simp only [List.length_append, List.length_singleton]
          omega
    rw [List.foldl_cons, ih, hadd, List.length_cons]
    omega

/-- Each lead is kept or counted. -/
theorem deduplicateLeads_length (leads : List BusinessLead) :
    (deduplicateLeads leads).1.length + (deduplicateLeads leads).2 = leads.length := by
  rw [deduplicateLeads, LeadDedup.fold_length]
  exact Nat.zero_add _

theorem deduplicateLeads_again (leads : List BusinessLead) :
    deduplicateLeads (deduplicateLeads leads).1 = ((deduplicateLeads leads).1, 0) := by
  have hsame : (deduplicateLeads (deduplicateLeads leads).1).1 = (deduplicateLeads leads).1 := by
    rw [deduplicateLeads_unique, deduplicateLeads_unique]
    exact firsts_eq_self_iff.2 (firsts_nodup leads)
  have hlength := deduplicateLeads_length (deduplicateLeads leads).1
  have hcount : (deduplicateLeads (deduplicateLeads leads).1).2 = 0 := by
    rw [hsame] at hlength
    omega
  exact Prod.ext hsame hcount

/-- Deduplication keeps each lead without a Maps URL and the first lead of each key in order, and counts
the others; it has nothing to do a second time, and can be done bit by bit. The key is the
first place identifier of the URL whatever is around it. -/
theorem deduplicateLeads_exact :
    (∀ leads : List BusinessLead,
      (deduplicateLeads leads).1 =
          (leads.zipIdx.filter fun p =>
            businessKey p.1 = none ∨ businessKey p.1 ∉ (leads.take p.2).map businessKey).map Prod.fst ∧
        (deduplicateLeads leads).1.length + (deduplicateLeads leads).2 = leads.length ∧
        ((deduplicateLeads leads).1.filterMap businessKey).Nodup ∧
        deduplicateLeads (deduplicateLeads leads).1 = ((deduplicateLeads leads).1, 0)) ∧
    (∀ xs ys : List BusinessLead, (deduplicateLeads ((deduplicateLeads xs).1 ++ ys)).1 = (deduplicateLeads (xs ++ ys)).1) ∧
    ∀ url url' id : Str, FirstPlaceId url id → FirstPlaceId url' id → dedupKey url = dedupKey url' := by
  refine ⟨?_, ?_, ?_⟩
  · intro leads
    refine ⟨?_, deduplicateLeads_length leads, ?_, deduplicateLeads_again leads⟩
    · rw [deduplicateLeads_unique, firsts_eq_filter]
      apply congrArg (List.map Prod.fst)
      apply List.filter_congr
      exact fun p _ => decide_eq_decide.2 Iff.rfl
    · rw [deduplicateLeads_unique]
      exact firsts_nodup leads
  · intro xs ys
    rw [deduplicateLeads_unique xs, deduplicateLeads_unique, deduplicateLeads_unique]
    exact firsts_firsts_append xs ys
  · intro url url' id h h'
    rw [dedupKey_of_firstPlaceId h, dedupKey_of_firstPlaceId h']

end SocialScraper
