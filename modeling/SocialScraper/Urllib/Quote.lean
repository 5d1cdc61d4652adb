import SocialScraper.Urllib.Query
/-!
# `quote`

`quote` of `urllib.parse` with any characters that may stand as they are in the
value of a query. What it writes, `parse_qsl` reads back.
-/
open Lib

namespace SocialScraper

/-- A byte as `_Quoter(safe)` writes it. -/
def quoteByteBut (safe : Str) (b : ℕ) : Str :=
  if b < 128 ∧ (alwaysSafe (Char.ofNat b) || safe.contains (Char.ofNat b)) then [Char.ofNat b]
  else ['%', hexDigit (b / 16), hexDigit (b % 16)]

/-- `quote(s, safe)`. -/
def quote (safe : Str) (s : Str) : Str := (Utf8.encode s).flatMap (quoteByteBut safe)

/-- A character with a meaning in the value of a query, or in a URL behind its path. -/
def special (c : Char) : Bool := ['%', '+', '&', '#', '\t', '\r', '\n'].contains c

/-! ## Reading a query -/

theorem parseQsl_eq (qs : Str) : parseQsl qs = (qs.splitOn '&').filterMap parseField := by
  unfold parseQsl
  split_ifs with h
  · rw [h]
    rfl
  · rfl

theorem parseQsl_cons {field : Str} (h : '&' ∉ field) (rest : Str) :
    parseQsl (field ++ '&' :: rest) = (parseField field).toList ++ parseQsl rest := by
  have hsplit : (field ++ '&' :: rest).splitOn '&' = field :: rest.splitOn '&' := by
    have hfield : field.splitOnP (· == '&') = [field] :=
      List.splitOnP_eq_singleton fun c hc => beq_eq_false_iff_ne.2 fun he => h (he ▸ hc)
    rw [List.splitOn, List.splitOnP_append_cons (p := (· == '&')) field rest rfl, hfield]
    rfl
  rw [parseQsl_eq, parseQsl_eq, hsplit]
  cases hf : parseField field with
  | none => exact List.filterMap_cons_none hf
  | some kv => exact List.filterMap_cons_some hf

theorem unquotePlus_eq_unquote {s : Str} (h : '+' ∉ s) : unquotePlus s = unquote s := by
  have hplus : s.map plusToSpace = s := by
    conv_rhs => rw [← List.map_id s]
    refine List.map_congr_left fun c hc => if_neg ?_
    rintro rfl
    exact h hc
  exact congrArg unquote hplus

theorem unquotePlus_safe {s : Str} (h : ∀ c ∈ s, alwaysSafe c = true) : unquotePlus s = s := by
  have hplus : '+' ∉ s := fun hc => absurd (h _ hc) (by decide)
  have hpercent : '%' ∉ s := fun hc => absurd (h _ hc) (by decide)
  rw [unquotePlus_eq_unquote hplus, unquote, if_neg (by simpa using hpercent)]

/-! ## Reading what is quoted -/

variable {safe : Str} (hsafe : ∀ c ∈ safe, special c = false)
include hsafe

theorem mem_quoteByteBut {b : ℕ} (hb : b < 256) {c : Char} (hc : c ∈ quoteByteBut safe b) :
    isAscii c = true ∧ (special c = false ∨ c = '%') := by
  have hplain : ∀ n, n < 128 → alwaysSafe (Char.ofNat n) = true → special (Char.ofNat n) = false := by decide
  have hascii : ∀ n, n < 128 → isAscii (Char.ofNat n) = true := by decide
  have hdigit : ∀ n, n < 16 → isAscii (hexDigit n) = true ∧ special (hexDigit n) = false := by decide
  unfold quoteByteBut at hc
  split_ifs at hc with h
  · rw [List.mem_singleton.1 hc]
    refine ⟨hascii b h.1, .inl ?_⟩
    rcases Bool.or_eq_true_iff.1 h.2 with hs | hs
    · exact hplain b h.1 hs
    · exact hsafe _ (List.contains_iff_mem.1 hs)
  · simp only [List.mem_cons, List.not_mem_nil, or_false] at hc
    rcases hc with rfl | rfl | rfl
    · exact ⟨rfl, .inr rfl⟩
    · exact (hdigit (b / 16) (by omega)).imp_right .inl
    · exact (hdigit (b % 16) (by omega)).imp_right .inl

theorem mem_quote {s : Str} {c : Char} (hc : c ∈ quote safe s) : isAscii c = true ∧ (special c = false ∨ c = '%') := by
  obtain ⟨b, hb, hc⟩ := List.mem_flatMap.1 hc
  exact mem_quoteByteBut hsafe (encode_byte hb) hc

theorem unquoteToBytes_quoteByteBut {b : ℕ} (hb : b < 256) (s : Str) :
    unquoteToBytes (quoteByteBut safe b ++ s) = b :: unquoteToBytes s := by
  unfold quoteByteBut
  split_ifs with h
  · have hnat : ∀ n, n < 128 → (Char.ofNat n).toNat = n := by decide
    have hpercent : Char.ofNat b ≠ '%' := by
      intro he
      rcases Bool.or_eq_true_iff.1 h.2 with hs | hs
      · rw [he] at hs
        exact absurd hs (by decide)
      · have hnot := hsafe _ (List.contains_iff_mem.1 hs)
        rw [he] at hnot
        exact absurd hnot (by decide)
    rw [List.singleton_append, unquoteToBytes_cons hpercent, hnat b h.1]
  · have hvalue : 16 * (b / 16) + b % 16 = b := by omega
    simp only [List.cons_append, List.nil_append]
    rw [unquoteToBytes, hexValue_hexDigit (by omega), hexValue_hexDigit (by omega)]
    simp only [hvalue]

theorem unquoteToBytes_quote {bs : List ℕ} (h : ∀ b ∈ bs, b < 256) : unquoteToBytes (bs.flatMap (quoteByteBut safe)) = bs := by
  induction bs with
  | nil => rfl
  | cons b bs ih =>
    rw [List.flatMap_cons, unquoteToBytes_quoteByteBut hsafe (h b (by simp)), ih fun x hx => h x (by simp [hx])]

theorem unquotePlus_quote (s : Str) : unquotePlus (quote safe s) = s := by
  have hplus : '+' ∉ quote safe s := fun hc => by
    rcases (mem_quote hsafe hc).2 with h | h <;> exact absurd h (by decide)
  calc unquotePlus (quote safe s) = unquote (quote safe s) := unquotePlus_eq_unquote hplus
    _ = Utf8.decode (unquoteToBytes (quote safe s)) := unquote_ascii fun c hc => (mem_quote hsafe hc).1
    _ = Utf8.decode (Utf8.encode s) := by rw [quote, unquoteToBytes_quote hsafe fun b hb => encode_byte hb]
    _ = s := Utf8.decode_encode s

/-- A quoted value is the first that is read, whatever stands behind it. -/
theorem parseQsl_quote {name value : Str} (hname : ∀ c ∈ name, alwaysSafe c = true) (hvalue : value ≠ []) (rest : Str) :
    parseQsl (name ++ '=' :: quote safe value ++ '&' :: rest) = (name, value) :: parseQsl rest := by
  have hnot : ∀ c, special c = true → c ≠ '%' → c ∉ quote safe value := by
    intro c hc hne hmem
    rcases (mem_quote hsafe hmem).2 with h | h
    · rw [h] at hc
      cases hc
    · exact hne h
  have hamp : '&' ∉ name ++ '=' :: quote safe value := by
    intro hc
    rcases List.mem_append.1 hc with hc | hc
    · exact absurd (hname _ hc) (by decide)
    · exact (List.mem_cons.1 hc).elim (by decide) (hnot '&' rfl (by decide))
  have hequals : '=' ∉ name := fun hc => absurd (hname _ hc) (by decide)
  have hquoted : quote safe value ≠ [] := by
    intro hnil
    have hback := unquotePlus_quote hsafe value
    rw [hnil] at hback
    exact hvalue hback.symm
  have hfield : parseField (name ++ '=' :: quote safe value) = some (name, value) := by
    simp only [parseField, partition_append hequals, if_neg hquoted, unquotePlus_safe hname, unquotePlus_quote hsafe]
  rw [parseQsl_cons hamp, hfield]
  rfl

end SocialScraper
