import Mathlib.Data.List.Basic
import Mathlib.Tactic.SplitIfs
/-!
# UTF-8

The encoding, and the decoding that puts U+FFFD for what is not UTF-8: one for
each longest beginning of a sequence that breaks off, one for each other stray
byte. Bytes are natural numbers; only those below 256 occur in an encoding.
-/

namespace Lib.Utf8

def encodeChar (c : Char) : List ℕ :=
  let n := c.toNat
  if n < 0x80 then [n]
  else if n < 0x800 then [0xC0 + n / 64, 0x80 + n % 64]
  else if n < 0x10000 then [0xE0 + n / 4096, 0x80 + n / 64 % 64, 0x80 + n % 64]
  else [0xF0 + n / 262144, 0x80 + n / 4096 % 64, 0x80 + n / 64 % 64, 0x80 + n % 64]

def encode (s : List Char) : List ℕ := s.flatMap encodeChar

def replacement : Char := '\uFFFD'

/-- A sequence that has begun: the bits so far, how many bytes follow the next one, and the bounds of the next one. -/
structure Begun where
  bits : ℕ
  more : ℕ
  low : ℕ := 0x80
  high : ℕ := 0xBF

/-- A byte where no sequence has begun. -/
def first (b : ℕ) : List Char × Option Begun :=
  if b < 0x80 then ([Char.ofNat b], none)
  else if b < 0xC2 then ([replacement], none)
  else if b < 0xE0 then ([], some { bits := b - 0xC0, more := 0 })
  else if b < 0xF0 then
    ([], some { bits := b - 0xE0, more := 1, low := if b = 0xE0 then 0xA0 else 0x80, high := if b = 0xED then 0x9F else 0xBF })
  else if b < 0xF5 then
    ([], some { bits := b - 0xF0, more := 2, low := if b = 0xF0 then 0x90 else 0x80, high := if b = 0xF4 then 0x8F else 0xBF })
  else ([replacement], none)

/-- A byte where the given sequence has begun. -/
def next (p : Begun) (b : ℕ) : List Char × Option Begun :=
  if p.low ≤ b ∧ b ≤ p.high then
    let bits := 64 * p.bits + (b - 0x80)
    match p.more with
    | 0 => ([Char.ofNat bits], none)
    | n + 1 => ([], some { bits := bits, more := n })
  else (replacement :: (first b).1, (first b).2)

def decodeFrom : Option Begun → List ℕ → List Char
  | none, [] => []
  | some _, [] => [replacement]
  | none, b :: bs => (first b).1 ++ decodeFrom (first b).2 bs
  | some p, b :: bs => (next p b).1 ++ decodeFrom (next p b).2 bs

def decode (bs : List ℕ) : List Char := decodeFrom none bs

/-! ## The round trip -/

theorem next_last {p : Begun} {b : ℕ} (h : p.low ≤ b ∧ b ≤ p.high) (hm : p.more = 0) :
    next p b = ([Char.ofNat (64 * p.bits + (b - 0x80))], none) := by
  simp [next, h, hm]

theorem next_more {p : Begun} {b n : ℕ} (h : p.low ≤ b ∧ b ≤ p.high) (hm : p.more = n + 1) :
    next p b = ([], some { bits := 64 * p.bits + (b - 0x80), more := n }) := by
  simp [next, h, hm]

theorem decodeFrom_encodeChar (c : Char) (bs : List ℕ) :
    decodeFrom none (encodeChar c ++ bs) = c :: decodeFrom none bs := by
  have hvalid : c.toNat < 0xD800 ∨ 0xDFFF < c.toNat ∧ c.toNat < 0x110000 := c.valid
  have hback : ∀ n, n = c.toNat → Char.ofNat n = c := by
    rintro n rfl
    exact Char.ofNat_toNat c
  unfold encodeChar
  dsimp only
  generalize c.toNat = n at hvalid hback ⊢
  have htail : ∀ m, 0x80 ≤ 0x80 + m % 64 ∧ 0x80 + m % 64 ≤ 0xBF := by omega
  split_ifs with h1 h2 h3
  · simp [decodeFrom, first, h1, hback]
  · have hlead : ¬ 0xC0 + n / 64 < 0x80 ∧ ¬ 0xC0 + n / 64 < 0xC2 ∧ 0xC0 + n / 64 < 0xE0 := by omega
    have hbits : 64 * (0xC0 + n / 64 - 0xC0) + (0x80 + n % 64 - 0x80) = n := by omega
    simp only [List.cons_append, List.nil_append, decodeFrom, first, hlead, if_true, if_false]
    rw [next_last (htail n) rfl, hback _ hbits]
    rfl
  · have hlead : ¬ 0xE0 + n / 4096 < 0x80 ∧ ¬ 0xE0 + n / 4096 < 0xC2 ∧ ¬ 0xE0 + n / 4096 < 0xE0 ∧ 0xE0 + n / 4096 < 0xF0 := by
      omega
    -- Neither a shorter form nor a surrogate: the second byte is in the narrower bounds.
    have hsecond : (if 0xE0 + n / 4096 = 0xE0 then 0xA0 else 0x80) ≤ 0x80 + n / 64 % 64 ∧
        0x80 + n / 64 % 64 ≤ (if 0xE0 + n / 4096 = 0xED then 0x9F else 0xBF) := by
      constructor <;> split_ifs <;> omega
    have hbits : 64 * (64 * (0xE0 + n / 4096 - 0xE0) + (0x80 + n / 64 % 64 - 0x80)) + (0x80 + n % 64 - 0x80) = n := by
      omega
    simp only [List.cons_append, List.nil_append, decodeFrom, first, hlead, if_true, if_false]
    rw [next_more hsecond rfl]
    simp only [List.nil_append, decodeFrom]
    rw [next_last (htail n) rfl, hback _ hbits]
    rfl
  · have hlead : ¬ 0xF0 + n / 262144 < 0x80 ∧ ¬ 0xF0 + n / 262144 < 0xC2 ∧ ¬ 0xF0 + n / 262144 < 0xE0 ∧
        ¬ 0xF0 + n / 262144 < 0xF0 ∧ 0xF0 + n / 262144 < 0xF5 := by
      omega
    have hsecond : (if 0xF0 + n / 262144 = 0xF0 then 0x90 else 0x80) ≤ 0x80 + n / 4096 % 64 ∧
        0x80 + n / 4096 % 64 ≤ (if 0xF0 + n / 262144 = 0xF4 then 0x8F else 0xBF) := by
      constructor <;> split_ifs <;> omega
    have hbits : 64 * (64 * (64 * (0xF0 + n / 262144 - 0xF0) + (0x80 + n / 4096 % 64 - 0x80)) +
        (0x80 + n / 64 % 64 - 0x80)) + (0x80 + n % 64 - 0x80) = n := by
      omega
    simp only [List.cons_append, List.nil_append, decodeFrom, first, hlead, if_true, if_false]
    rw [next_more hsecond rfl]
    simp only [List.nil_append, decodeFrom]
    rw [next_more (htail _) rfl]
    simp only [List.nil_append, decodeFrom]
    rw [next_last (htail n) rfl, hback _ hbits]
    rfl

theorem decode_encode (s : List Char) : decode (encode s) = s := by
  induction s with
  | nil => rfl
  | cons c s ih =>
    rw [encode, List.flatMap_cons, decode, decodeFrom_encodeChar]
    exact congrArg _ ih

/-! ## Lengths -/

theorem first_length (b : ℕ) : (first b).1.length + ((first b).2.map fun _ => 1).getD 0 = 1 := by
  unfold first
  split_ifs <;> rfl

theorem next_length (p : Begun) (b : ℕ) : (next p b).1.length + ((next p b).2.map fun _ => 1).getD 0 ≤ 2 ∧
    1 ≤ (next p b).1.length + ((next p b).2.map fun _ => 1).getD 0 := by
  unfold next
  have hfirst := first_length b
  split_ifs
  · dsimp only
    split <;> simp
  · simp only [List.length_cons]
    omega

theorem decodeFrom_length (p : Option Begun) (bs : List ℕ) :
    (decodeFrom p bs).length ≤ (p.map fun _ => 1).getD 0 + bs.length := by
  induction bs generalizing p with
  | nil => cases p <;> simp [decodeFrom]
  | cons b bs ih =>
    cases p with
    | none =>
      have hrest := ih (first b).2
      have hfirst := first_length b
      simp only [decodeFrom, List.length_append, List.length_cons, Option.map_none, Option.getD_none]
      omega
    | some p =>
      have hrest := ih (next p b).2
      have hnext := (next_length p b).1
      simp only [decodeFrom, List.length_append, List.length_cons, Option.map_some, Option.getD_some]
      omega

/-- A character is decoded from at least one byte. -/
theorem decode_length (bs : List ℕ) : (decode bs).length ≤ bs.length := by
  have hlength := decodeFrom_length none bs
  simpa [decode] using hlength

theorem decodeFrom_some_ne_nil (p : Begun) (bs : List ℕ) : decodeFrom (some p) bs ≠ [] := by
  induction bs generalizing p with
  | nil => simp [decodeFrom]
  | cons b bs ih =>
    have hnext := (next_length p b).2
    intro hnil
    obtain ⟨hchars, hrest⟩ := List.append_eq_nil_iff.1 hnil
    cases hp : (next p b).2 with
    | none => simp [hchars, hp] at hnext
    | some q => exact ih q (hp ▸ hrest)

/-- Some character is decoded from any byte. -/
theorem decode_ne_nil {bs : List ℕ} (h : bs ≠ []) : decode bs ≠ [] := by
  obtain ⟨b, bs, rfl⟩ := List.exists_cons_of_ne_nil h
  have hfirst := first_length b
  intro hnil
  obtain ⟨hchars, hrest⟩ := List.append_eq_nil_iff.1 hnil
  cases hp : (first b).2 with
  | none => simp [hchars, hp] at hfirst
  | some q => exact decodeFrom_some_ne_nil q bs (hp ▸ hrest)

/-! ## ASCII -/

theorem encodeChar_ascii {c : Char} (h : c.toNat < 0x80) : encodeChar c = [c.toNat] := by
  simp [encodeChar, h]

theorem encode_ascii {s : List Char} (h : ∀ c ∈ s, c.toNat < 0x80) : encode s = s.map Char.toNat := by
  induction s with
  | nil => rfl
  | cons c s ih =>
    rw [encode, List.flatMap_cons, encodeChar_ascii (h c (by simp))]
    exact congrArg _ (ih fun x hx => h x (by simp [hx]))

end Lib.Utf8
