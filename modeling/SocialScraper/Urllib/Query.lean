import Mathlib.Data.List.SplitBy
import SocialScraper.Lib.Utf8
import SocialScraper.Unicode
/-!
# Query strings

`unquote`, `quote_plus`, `parse_qsl` and `urlencode` of `urllib.parse`, with
their default options. What `urlencode` writes, `parse_qsl` reads back.
-/
open Lib

namespace SocialScraper

/-! ## `unquote` -/

def hexValue (c : Char) : Option ℕ :=
  let n := c.toNat
  if 48 ≤ n ∧ n ≤ 57 then some (n - 48)
  else if 65 ≤ n ∧ n ≤ 70 then some (n - 55)
  else if 97 ≤ n ∧ n ≤ 102 then some (n - 87)
  else none

/-- `unquote_to_bytes` of an ASCII text. -/
def unquoteToBytes : Str → List ℕ
  | '%' :: a :: b :: s =>
    match hexValue a, hexValue b with
    | some x, some y => (16 * x + y) :: unquoteToBytes s
    | _, _ => 37 :: unquoteToBytes (a :: b :: s)
  | c :: s => c.toNat :: unquoteToBytes s
  | [] => []

/-- A maximal run of ASCII or of other characters: only the former is decoded. -/
def unquoteRun (run : Str) : Str := if run.all isAscii then Utf8.decode (unquoteToBytes run) else run

def unquote (s : Str) : Str :=
  if s.contains '%' then (s.splitBy fun a b => isAscii a == isAscii b).flatMap unquoteRun else s

def unquotePlus (s : Str) : Str := unquote (s.map fun c => if c = '+' then ' ' else c)

/-! ## `quote_plus` -/

/-- `_ALWAYS_SAFE`. -/
def alwaysSafe (c : Char) : Bool := c.isAlphanum || ['_', '.', '-', '~'].contains c

def hexDigit (n : ℕ) : Char := if n < 10 then Char.ofNat (48 + n) else Char.ofNat (55 + n)

/-- A byte as `_Quoter` writes it, with the space as a plus. -/
def quoteByte (b : ℕ) : Str :=
  if b = 32 then ['+']
  else if b < 128 ∧ alwaysSafe (Char.ofNat b) then [Char.ofNat b]
  else ['%', hexDigit (b / 16), hexDigit (b % 16)]

/-- `quote_plus` of a text that can be encoded. -/
def quotePlus (s : Str) : Str := (Utf8.encode s).flatMap quoteByte

/-! ## Queries -/

/-- One `name=value` of a query; those without a value are dropped. -/
def parseField (nameValue : Str) : Option (Str × Str) :=
  let (name, value) := partition '=' nameValue
  if value = [] then none else some (unquotePlus name, unquotePlus value)

def parseQsl (qs : Str) : List (Str × Str) := if qs = [] then [] else (qs.splitOn '&').filterMap parseField

/-- The fields of a query as `urlencode` writes them. -/
def queryText (query : List (Str × Str)) : Str :=
  ['&'].intercalate (query.map fun (k, v) => quotePlus k ++ '=' :: quotePlus v)

/-- All of a query can be encoded. -/
def Unicode.encodes (uc : Unicode) (query : List (Str × Str)) : Bool :=
  query.all fun (k, v) => k.all uc.encodable && v.all uc.encodable

/-- A lone surrogate in a field raises a `UnicodeEncodeError`. -/
def urlencode (uc : Unicode) (query : List (Str × Str)) : Option Str :=
  if uc.encodes query then some (queryText query) else none

example : queryText [("a b".toList, "ü/".toList), ("c".toList, "1&2".toList)] = "a+b=%C3%BC%2F&c=1%262".toList := by decide

example : parseQsl "a+b=%C3%BC%2f&x=&y&c=%ff=%4".toList = [("a b".toList, "ü/".toList), ("c".toList, "\uFFFD=%4".toList)] := by
  decide

/-! ## What is written -/

/-- The characters of a quoted text. -/
def quoted (c : Char) : Bool := alwaysSafe c || c == '+' || c == '%'

theorem hexDigit_safe {n : ℕ} (h : n < 16) : alwaysSafe (hexDigit n) = true := by
  revert n
  decide

theorem hexValue_hexDigit {n : ℕ} (h : n < 16) : hexValue (hexDigit n) = some n := by
  revert n
  decide

theorem quoted_of_mem_quoteByte {b : ℕ} (hb : b < 256) {c : Char} (hc : c ∈ quoteByte b) : quoted c = true := by
  have hhigh : alwaysSafe (hexDigit (b / 16)) = true := hexDigit_safe (by omega)
  have hlow : alwaysSafe (hexDigit (b % 16)) = true := hexDigit_safe (by omega)
  unfold quoteByte at hc
  split_ifs at hc with h1 h2
  · rw [List.mem_singleton.1 hc]
    rfl
  · rw [List.mem_singleton.1 hc, quoted, h2.2]
    rfl
  · simp only [List.mem_cons, List.not_mem_nil, or_false] at hc
    rcases hc with rfl | rfl | rfl
    · rfl
    · simp [quoted, hhigh]
    · simp [quoted, hlow]

theorem encode_byte {s : Str} {b : ℕ} (h : b ∈ Utf8.encode s) : b < 256 := by
  obtain ⟨c, -, hb⟩ := List.mem_flatMap.1 h
  have hvalid : c.toNat < 0xD800 ∨ 0xDFFF < c.toNat ∧ c.toNat < 0x110000 := c.valid
  unfold Utf8.encodeChar at hb
  dsimp only at hb
  split_ifs at hb <;> simp only [List.mem_cons, List.not_mem_nil, or_false] at hb <;> omega

theorem quoted_of_mem {s : Str} {c : Char} (hc : c ∈ quotePlus s) : quoted c = true := by
  obtain ⟨b, hb, hc⟩ := List.mem_flatMap.1 hc
  exact quoted_of_mem_quoteByte (encode_byte hb) hc

theorem quotePlus_eq_nil {s : Str} : quotePlus s = [] ↔ s = [] := by
  constructor
  · intro h
    cases s with
    | nil => rfl
    | cons c s =>
      have hbyte : ∀ b, quoteByte b ≠ [] := by
        intro b
        unfold quoteByte
        split_ifs <;> simp
      have hchar : Utf8.encodeChar c ≠ [] := by
        unfold Utf8.encodeChar
        dsimp only
        split_ifs <;> simp
      obtain ⟨b, bs, hb⟩ := List.exists_cons_of_ne_nil hchar
      rw [quotePlus, Utf8.encode, List.flatMap_cons, hb, List.cons_append, List.flatMap_cons] at h
      exact absurd (List.append_eq_nil_iff.1 h).1 (hbyte b)
  · rintro rfl
    rfl

/-! ## What is read back -/

theorem unquoteToBytes_cons {c : Char} (h : c ≠ '%') (s : Str) : unquoteToBytes (c :: s) = c.toNat :: unquoteToBytes s := by
  rw [unquoteToBytes]
  rintro a b t rfl
  exact absurd rfl h

theorem unquoteToBytes_plain {s : Str} (h : '%' ∉ s) : unquoteToBytes s = s.map Char.toNat := by
  induction s with
  | nil => rfl
  | cons c s ih =>
    have hc : c ≠ '%' := by
      rintro rfl
      exact h (by simp)
    rw [unquoteToBytes_cons hc, ih fun hs => h (by simp [hs])]
    rfl

theorem unquoteToBytes_length (s : Str) : (unquoteToBytes s).length ≤ s.length := by
  fun_induction unquoteToBytes s with
  | case1 a b s x y hx hy ih => simp only [List.length_cons]; omega
  | case2 a b s hno ih => simpa using ih
  | case3 c s hno ih => simpa using ih
  | case4 => rfl

theorem unquoteToBytes_ne_nil {s : Str} (h : s ≠ []) : unquoteToBytes s ≠ [] := by
  fun_cases unquoteToBytes s with
  | case1 => simp
  | case2 => simp
  | case3 => simp
  | case4 => exact absurd rfl h

/-- The plus signs of a query are spaces. -/
def plusToSpace (c : Char) : Char := if c = '+' then ' ' else c

theorem unquoteToBytes_quoteByte {b : ℕ} (hb : b < 256) (s : Str) :
    unquoteToBytes ((quoteByte b).map plusToSpace ++ s) = b :: unquoteToBytes s := by
  unfold quoteByte
  split_ifs with h1 h2
  · subst h1
    exact unquoteToBytes_cons (by decide) s
  · obtain ⟨hlt, hsafe⟩ := h2
    have hnat : ∀ n, n < 128 → (Char.ofNat n).toNat = n := by decide
    have hpercent : Char.ofNat b ≠ '%' := by
      intro h
      rw [h] at hsafe
      exact absurd hsafe (by decide)
    have hplus : Char.ofNat b ≠ '+' := by
      intro h
      rw [h] at hsafe
      exact absurd hsafe (by decide)
    simp only [List.map_cons, List.map_nil, plusToSpace, if_neg hplus, List.cons_append, List.nil_append]
    rw [unquoteToBytes_cons hpercent, hnat b hlt]
  · have hdigit : ∀ n, n < 16 → plusToSpace (hexDigit n) = hexDigit n := by decide
    have hvalue : 16 * (b / 16) + b % 16 = b := by omega
    simp only [List.map_cons, List.map_nil, List.cons_append, List.nil_append, hdigit (b / 16) (by omega),
      hdigit (b % 16) (by omega), show plusToSpace '%' = '%' from rfl]
    rw [unquoteToBytes, hexValue_hexDigit (by omega), hexValue_hexDigit (by omega)]
    simp only [hvalue]

theorem unquoteToBytes_quotePlus {bs : List ℕ} (h : ∀ b ∈ bs, b < 256) :
    unquoteToBytes ((bs.flatMap quoteByte).map plusToSpace) = bs := by
  induction bs with
  | nil => rfl
  | cons b bs ih =>
    rw [List.flatMap_cons, List.map_append, unquoteToBytes_quoteByte (h b (by simp)), ih fun x hx => h x (by simp [hx])]

/-- The shortcut for texts without a percent sign changes nothing. -/
theorem unquote_eq (s : Str) : unquote s = (s.splitBy fun a b => isAscii a == isAscii b).flatMap unquoteRun := by
  unfold unquote
  split_ifs with h
  · rfl
  · have hrun : ∀ run ∈ s.splitBy fun a b => isAscii a == isAscii b, unquoteRun run = run := by
      intro run hr
      unfold unquoteRun
      split_ifs with ha
      · have hpercent : '%' ∉ run := by
          intro hp
          have hs : '%' ∈ (s.splitBy fun a b => isAscii a == isAscii b).flatten := List.mem_flatten.2 ⟨run, hr, hp⟩
          rw [List.flatten_splitBy] at hs
          exact h (by simpa using hs)
        have hbound : ∀ c ∈ run, c.toNat < 0x80 := fun c hc => of_decide_eq_true (List.all_eq_true.1 ha c hc)
        rw [unquoteToBytes_plain hpercent, ← Utf8.encode_ascii hbound, Utf8.decode_encode]
      · rfl
    rw [List.flatMap_def, List.map_congr_left hrun, List.map_id', List.flatten_splitBy]

theorem unquote_ascii {s : Str} (h : ∀ c ∈ s, isAscii c = true) : unquote s = Utf8.decode (unquoteToBytes s) := by
  by_cases hs : s = []
  · subst hs
    rfl
  · have hchain : s.IsChain fun a b => (isAscii a == isAscii b) = true := by
      apply List.Pairwise.isChain
      rw [List.pairwise_iff_forall_sublist]
      intro a b hab
      rw [h a (hab.subset (by simp)), h b (hab.subset (by simp))]
      rfl
    rw [unquote_eq, List.splitBy_of_isChain hs hchain]
    have hall : s.all isAscii = true := List.all_eq_true.2 h
    simp [unquoteRun, hall]

theorem isAscii_of_alphanum {c : Char} (h : c.isAlphanum = true) : isAscii c = true := by
  have hle : ∀ n : UInt32, n.toNat < 128 → c.val ≤ n → isAscii c = true := fun n hn hc =>
    decide_eq_true (Nat.lt_of_le_of_lt (UInt32.le_iff_toNat_le.1 hc) hn)
  rcases Bool.or_eq_true_iff.1 h with h | h
  · rcases Bool.or_eq_true_iff.1 h with h | h
    · have hrange : c.val ≥ 'A'.val ∧ c.val ≤ 'Z'.val := of_decide_eq_true h
      exact hle _ (by decide) hrange.2
    · have hlast : c.val ≤ 'z'.val := of_decide_eq_true (Bool.and_eq_true_iff.1 h).2
      exact hle _ (by decide) hlast
  · have hlast : c.val ≤ '9'.val := of_decide_eq_true (Bool.and_eq_true_iff.1 h).2
    exact hle _ (by decide) hlast

theorem isAscii_of_quoted {c : Char} (h : quoted c = true) : isAscii c = true := by
  simp only [quoted, alwaysSafe, Bool.or_eq_true, beq_iff_eq, List.contains_iff_mem, List.mem_cons, List.not_mem_nil,
    or_false] at h
  rcases h with (((h | rfl | rfl | rfl | rfl) | rfl) | rfl)
  · exact isAscii_of_alphanum h
  all_goals rfl

theorem unquotePlus_quotePlus (s : Str) : unquotePlus (quotePlus s) = s := by
  have hascii : ∀ c ∈ (quotePlus s).map plusToSpace, isAscii c = true := by
    intro c hc
    obtain ⟨d, hd, rfl⟩ := List.mem_map.1 hc
    unfold plusToSpace
    split_ifs
    · rfl
    · exact isAscii_of_quoted (quoted_of_mem hd)
  calc unquotePlus (quotePlus s) = unquote ((quotePlus s).map plusToSpace) := rfl
    _ = Utf8.decode (unquoteToBytes ((quotePlus s).map plusToSpace)) := unquote_ascii hascii
    _ = Utf8.decode (Utf8.encode s) := by rw [quotePlus, unquoteToBytes_quotePlus fun b hb => encode_byte hb]
    _ = s := Utf8.decode_encode s

theorem flatMap_unquoteRun_length (runs : List Str) : (runs.flatMap unquoteRun).length ≤ runs.flatten.length := by
  induction runs with
  | nil => rfl
  | cons run runs ih =>
    have hrun : (unquoteRun run).length ≤ run.length := by
      unfold unquoteRun
      split_ifs
      · exact (Utf8.decode_length _).trans (unquoteToBytes_length run)
      · rfl
    simp only [List.flatMap_cons, List.flatten_cons, List.length_append]
    omega

/-- Unquoting makes no text longer. -/
theorem unquotePlus_length (s : Str) : (unquotePlus s).length ≤ s.length := by
  have hlength := flatMap_unquoteRun_length ((s.map plusToSpace).splitBy fun a b => isAscii a == isAscii b)
  rw [List.flatten_splitBy, List.length_map] at hlength
  exact (congrArg List.length (unquote_eq (s.map plusToSpace))).le.trans hlength

theorem unquotePlus_ne_nil {s : Str} (h : s ≠ []) : unquotePlus s ≠ [] := by
  have hruns : (s.map plusToSpace).splitBy (fun a b => isAscii a == isAscii b) ≠ [] :=
    List.splitBy_ne_nil.2 (by simpa using h)
  have hrun : ∀ run ∈ (s.map plusToSpace).splitBy fun a b => isAscii a == isAscii b, unquoteRun run ≠ [] := by
    intro run hr
    have hne := List.ne_nil_of_mem_splitBy hr
    unfold unquoteRun
    split_ifs
    · exact Utf8.decode_ne_nil (unquoteToBytes_ne_nil hne)
    · exact hne
  obtain ⟨run, runs, hr⟩ := List.exists_cons_of_ne_nil hruns
  rw [hr] at hrun
  intro hnil
  rw [unquotePlus, show (fun c => if c = '+' then ' ' else c) = plusToSpace from rfl, unquote_eq, hr, List.flatMap_cons] at hnil
  exact hrun run (by simp) (List.append_eq_nil_iff.1 hnil).1

/-! ## Queries there and back -/

theorem parseField_quoted {k v : Str} (h : v ≠ []) : parseField (quotePlus k ++ '=' :: quotePlus v) = some (k, v) := by
  have hk : '=' ∉ quotePlus k := fun hc => absurd (quoted_of_mem hc) (by decide)
  have hv : quotePlus v ≠ [] := fun hv => h (quotePlus_eq_nil.1 hv)
  simp [parseField, partition_append hk, hv, unquotePlus_quotePlus]

/-- One `name=value` of them. -/
def quoteField (kv : Str × Str) : Str := quotePlus kv.1 ++ '=' :: quotePlus kv.2

theorem splitOn_queryText {l : List (Str × Str)} (hl : l ≠ []) : (queryText l).splitOn '&' = l.map quoteField := by
  have hamp : ∀ field ∈ l.map quoteField, '&' ∉ field := by
    intro field hf hc
    obtain ⟨kv, -, rfl⟩ := List.mem_map.1 hf
    simp only [quoteField, List.mem_append, List.mem_cons] at hc
    rcases hc with hc | hc | hc
    · exact absurd (quoted_of_mem hc) (by decide)
    · exact absurd hc (by decide)
    · exact absurd (quoted_of_mem hc) (by decide)
  exact List.splitOn_intercalate '&' hamp (by simpa using hl)

theorem queryText_ne_nil {l : List (Str × Str)} (hl : l ≠ []) : queryText l ≠ [] := by
  intro hnil
  have hsplit := splitOn_queryText hl
  rw [hnil] at hsplit
  obtain ⟨kv, rest, rfl⟩ := List.exists_cons_of_ne_nil hl
  simp [quoteField] at hsplit

/-- What is written, `parse_qsl` reads, if no value is blank. -/
theorem parseQsl_queryText {l : List (Str × Str)} (h : ∀ kv ∈ l, kv.2 ≠ []) : parseQsl (queryText l) = l := by
  by_cases hl : l = []
  · subst hl
    rfl
  · rw [parseQsl, if_neg (queryText_ne_nil hl), splitOn_queryText hl, List.filterMap_map]
    have hfield : ∀ kv ∈ l, (parseField ∘ quoteField) kv = some kv := fun kv hkv => parseField_quoted (h kv hkv)
    rw [List.filterMap_congr hfield, List.filterMap_some]

theorem queryText_eq_nil {l : List (Str × Str)} : queryText l = [] ↔ l = [] := by
  constructor
  · exact fun h => not_not.1 fun hl => queryText_ne_nil hl h
  · rintro rfl
    rfl

theorem mem_intercalate {α : Type} {sep a : α} {ls : List (List α)} (h : a ∈ [sep].intercalate ls) :
    a = sep ∨ ∃ l ∈ ls, a ∈ l := by
  induction ls with
  | nil => cases h
  | cons l ls ih =>
    cases ls with
    | nil => exact .inr ⟨l, by simp, by simpa using h⟩
    | cons l' ls =>
      rw [List.intercalate_cons_cons, List.mem_append, List.mem_append, List.mem_singleton] at h
      rcases h with (h | h) | h
      · exact .inr ⟨l, by simp, h⟩
      · exact .inl h
      · exact (ih h).imp_right fun ⟨m, hm, ha⟩ => ⟨m, List.mem_cons_of_mem l hm, ha⟩

theorem length_le_intercalate {α : Type} (sep : α) {l : List α} {ls : List (List α)} (h : l ∈ ls) :
    l.length ≤ ([sep].intercalate ls).length := by
  induction ls with
  | nil => cases h
  | cons m ls ih =>
    cases ls with
    | nil => simp_all
    | cons m' ls =>
      rw [List.intercalate_cons_cons, List.length_append, List.length_append]
      rcases List.mem_cons.1 h with rfl | h
      · omega
      · have hrest := ih h
        omega

/-- The characters of a query as `urlencode` writes it. -/
theorem mem_queryText {l : List (Str × Str)} {c : Char} (h : c ∈ queryText l) : quoted c = true ∨ c = '=' ∨ c = '&' := by
  rcases mem_intercalate h with h | ⟨field, hf, hc⟩
  · exact .inr (.inr h)
  · obtain ⟨⟨k, v⟩, -, rfl⟩ := List.mem_map.1 hf
    rcases List.mem_append.1 hc with hc | hc
    · exact .inl (quoted_of_mem hc)
    · rcases List.mem_cons.1 hc with hc | hc
      · exact .inr (.inl hc)
      · exact .inl (quoted_of_mem hc)

/-- A value that is read is not blank, and no longer than the query. -/
theorem mem_parseQsl {qs : Str} {kv : Str × Str} (h : kv ∈ parseQsl qs) : kv.2 ≠ [] ∧ kv.2.length ≤ qs.length := by
  unfold parseQsl at h
  split_ifs at h
  · cases h
  · obtain ⟨field, hf, hkv⟩ := List.mem_filterMap.1 h
    unfold parseField at hkv
    dsimp only at hkv
    split_ifs at hkv with hv
    obtain rfl := Option.some.inj hkv
    have hfield : field.length ≤ qs.length := by
      have hlength := length_le_intercalate '&' hf
      rwa [List.intercalate_splitOn] at hlength
    have hvalue : (partition '=' field).2.length ≤ field.length := by
      have hdrop := (List.dropWhile_sublist (l := field) (· != '=')).length_le
      simp only [partition, List.length_drop]
      omega
    exact ⟨unquotePlus_ne_nil hv, (unquotePlus_length _).trans (hvalue.trans hfield)⟩

end SocialScraper
