import Mathlib.Data.List.TakeWhile
import Mathlib.Data.Rat.Defs
import Mathlib.Algebra.Order.Ring.Rat
/-!
# Python values

The pieces of Python the modelled code leans on. A `str` is its list of code
points. What the code takes from `urllib.parse` and from Unicode is a
parameter, `Stdlib`.
-/

namespace SocialScraper

/-- A Python `str`. `Unicode.encodable` tells which of its characters stand for lone surrogates. -/
abbrev Str := List Char

/-- `x or default` on an optional number: `None` and zero fall back. -/
def orDefault {α : Type} [OfNat α 0] [DecidableEq α] (x : Option α) (default : α) : α :=
  match x with
  | none => default
  | some x => if x = 0 then default else x

theorem orDefault_pos {α : Type} [OfNat α 0] [DecidableEq α] [LT α] {x : Option α} {default : α} (hd : 0 < default)
    (hx : ∀ y, x = some y → y ≠ 0 → 0 < y) : 0 < orDefault x default := by
  cases x with
  | none => exact hd
  | some y =>
    by_cases hy : y = 0
    · simpa [orDefault, hy] using hd
    · simpa [orDefault, hy] using hx y rfl hy

/-- The truth of an optional string: `None` and `""` are false. -/
def truthy : Option Str → Bool
  | none => false
  | some s => s != []

theorem exists_some_iff {α : Type} {x : Option α} {a : α} (h : x = some a) {P : α → Prop} : (∃ b, x = some b ∧ P b) ↔ P a := by
  rw [h]
  simp only [Option.some.injEq, exists_eq_left']

/-- How an `await` ends. -/
inductive AwaitEnd where
  | returns
  /-- It raises an `Exception`. -/
  | raises
  /-- The task is cancelled. -/
  | cancelled
deriving DecidableEq

/-! ## Strings -/

/-- `str.isspace` of one code point. -/
def isSpace (c : Char) : Bool :=
  let n := c.toNat
  (9 ≤ n && n ≤ 13) || (28 ≤ n && n ≤ 32) || n == 0x85 || n == 0xa0 || n == 0x1680 || (0x2000 ≤ n && n ≤ 0x200a) ||
    n == 0x2028 || n == 0x2029 || n == 0x202f || n == 0x205f || n == 0x3000

/-- `s.rstrip(chars)` for the characters that meet `p`. -/
def rstrip (p : Char → Bool) (s : Str) : Str := (s.reverse.dropWhile p).reverse

/-- `s.strip()`. -/
def strip (s : Str) : Str := rstrip isSpace (s.dropWhile isSpace)

/-- `s.startswith(("http://", "https://"))`. -/
def startsWithHttp (s : Str) : Bool := "http://".toList.isPrefixOf s || "https://".toList.isPrefixOf s

/-- `s.partition(sep)` without the separator. -/
def partition (sep : Char) (s : Str) : Str × Str := (s.takeWhile (· != sep), (s.dropWhile (· != sep)).drop 1)

theorem partition_append {sep : Char} {a : Str} (h : sep ∉ a) (b : Str) : partition sep (a ++ sep :: b) = (a, b) := by
  have hne : ∀ c ∈ a, (c != sep) = true := fun c hc => bne_iff_ne.2 fun he => h (he ▸ hc)
  simp [partition, List.takeWhile_append_of_pos hne, List.dropWhile_append_of_pos hne]

theorem partition_of_not_mem {sep : Char} {a : Str} (h : sep ∉ a) : partition sep a = (a, []) := by
  have hne : ∀ c ∈ a, (c != sep) = true := fun c hc => bne_iff_ne.2 fun he => h (he ▸ hc)
  have htake : a.takeWhile (· != sep) = a := List.takeWhile_eq_self_iff.2 hne
  have hdrop : a.dropWhile (· != sep) = [] := List.dropWhile_eq_nil_iff.2 hne
  rw [partition, htake, hdrop]
  rfl

/-- `s.rsplit(sep, 1)[-1]`, if `sep` occurs. -/
def afterLast (sep : Str) : Str → Option Str
  | [] => none
  | c :: s =>
    match afterLast sep s with
    | some rest => some rest
    | none => if sep.isPrefixOf (c :: s) then some ((c :: s).drop sep.length) else none

/-- `str` of an `int`. -/
def intText : ℤ → Str
  | .ofNat n => Nat.toDigits 10 n
  | .negSucc n => '-' :: Nat.toDigits 10 (n + 1)

theorem toDigits_injective {m n : ℕ} (h : Nat.toDigits 10 m = Nat.toDigits 10 n) : m = n := by
  have hm := Nat.ofDigitChars_toDigits (b := 10) (n := m) (by decide) (by decide)
  rw [h, Nat.ofDigitChars_toDigits (by decide) (by decide)] at hm
  exact hm.symm

theorem intText_injective {m n : ℤ} (h : intText m = intText n) : m = n := by
  have hsign : ∀ (m n : ℕ), Nat.toDigits 10 m ≠ '-' :: Nat.toDigits 10 n := by
    intro m n he
    have hdigit : Char.isDigit '-' = true :=
      Nat.isDigit_of_mem_toDigits (b := 10) (n := m) (by decide) (by decide) (he ▸ List.mem_cons_self)
    exact absurd hdigit (by decide)
  cases m with
  | ofNat m =>
    cases n with
    | ofNat n => exact congrArg Int.ofNat (toDigits_injective h)
    | negSucc n => exact absurd h (hsign m _)
  | negSucc m =>
    cases n with
    | ofNat n => exact absurd h.symm (hsign n _)
    | negSucc n => exact congrArg Int.negSucc (Nat.succ.inj (toDigits_injective (List.cons.inj h).2))

/-! ## Dictionaries -/

/-- A `dict` as its items, in insertion order. -/
abbrev Dict (κ α : Type) := List (κ × α)

namespace Dict

variable {κ α : Type} [DecidableEq κ]

/-- `d.get(k)`. -/
def get (d : Dict κ α) (k : κ) : Option α := (d.find? fun kv => kv.1 = k).map (·.2)

/-- `d[k] = v`: a key that is there keeps its place. -/
def set (d : Dict κ α) (k : κ) (v : α) : Dict κ α :=
  if d.any fun kv => kv.1 = k then d.map fun kv => if kv.1 = k then (k, v) else kv else d ++ [(k, v)]

def values (d : Dict κ α) : List α := d.map (·.2)

theorem mem_of_get {d : Dict κ α} {k : κ} {v : α} (h : d.get k = some v) : v ∈ d.values := by
  obtain ⟨kv, hkv, rfl⟩ := Option.map_eq_some_iff.1 h
  exact List.mem_map_of_mem (List.mem_of_find?_eq_some hkv)

theorem mem_values_set {d : Dict κ α} {k : κ} {v w : α} (h : w ∈ (d.set k v).values) : w = v ∨ w ∈ d.values := by
  unfold set at h
  split_ifs at h
  · obtain ⟨kv, hkv, rfl⟩ := List.mem_map.1 h
    obtain ⟨kv', hkv', rfl⟩ := List.mem_map.1 hkv
    split_ifs
    · exact .inl rfl
    · exact .inr (List.mem_map_of_mem hkv')
  · simp only [values, List.map_append, List.map_cons, List.map_nil, List.mem_append, List.mem_singleton] at h
    exact h.symm

theorem get_eq_none_iff {d : Dict κ α} {k : κ} : d.get k = none ↔ k ∉ d.map (·.1) := by
  rw [get, Option.map_eq_none_iff, List.find?_eq_none, List.mem_map]
  constructor
  · rintro h ⟨kv, hkv, hk⟩
    exact h kv hkv (decide_eq_true hk)
  · exact fun h kv hkv hk => h ⟨kv, hkv, of_decide_eq_true hk⟩

theorem mem_of_get_eq {d : Dict κ α} {k : κ} {v : α} (h : d.get k = some v) : (k, v) ∈ d := by
  obtain ⟨kv, hkv, rfl⟩ := Option.map_eq_some_iff.1 h
  obtain rfl : kv.1 = k := by simpa using List.find?_some hkv
  exact List.mem_of_find?_eq_some hkv

theorem mem_set {d : Dict κ α} {k : κ} {v : α} {kv : κ × α} : kv ∈ d.set k v ↔ kv = (k, v) ∨ kv ∈ d ∧ kv.1 ≠ k := by
  unfold set
  split_ifs with h
  · obtain ⟨old, hold, he⟩ := List.any_eq_true.1 h
    rw [List.mem_map]
    constructor
    · rintro ⟨kv', hkv', rfl⟩
      split_ifs with hk
      · exact .inl rfl
      · exact .inr ⟨hkv', hk⟩
    · rintro (rfl | ⟨hkv, hk⟩)
      · exact ⟨old, hold, if_pos (of_decide_eq_true he)⟩
      · exact ⟨kv, hkv, if_neg hk⟩
  · have hnew : ∀ kv ∈ d, kv.1 ≠ k := fun kv hkv he => h (List.any_eq_true.2 ⟨kv, hkv, decide_eq_true he⟩)
    rw [List.mem_append, List.mem_singleton, or_comm]
    exact or_congr_right ⟨fun hkv => ⟨hkv, hnew kv hkv⟩, And.left⟩

/-- A key that is there keeps its place, another one comes last. -/
theorem keys_set (d : Dict κ α) (k : κ) (v : α) :
    (d.set k v).map (·.1) = if k ∈ d.map (·.1) then d.map (·.1) else d.map (·.1) ++ [k] := by
  have hany : (d.any fun kv => kv.1 = k) = true ↔ k ∈ d.map (·.1) := by
    rw [List.any_eq_true, List.mem_map]
    simp only [decide_eq_true_eq]
  unfold set
  by_cases h : k ∈ d.map (·.1)
  · rw [if_pos (hany.2 h), if_pos h, List.map_map]
    apply List.map_congr_left
    intro kv _
    by_cases hk : kv.1 = k
    · rw [Function.comp_apply, if_pos hk, hk]
    · rw [Function.comp_apply, if_neg hk]
  · rw [if_neg (mt hany.1 h), if_neg h, List.map_append, List.map_singleton]

end Dict

/-! ## `urllib.parse` -/

/-- `urllib.parse.ParseResult`. -/
structure ParseResult where
  scheme : Str
  netloc : Str
  path : Str
  params : Str
  query : Str
  fragment : Str
deriving DecidableEq

/-- The parts of CPython's standard library that the code calls. -/
structure Stdlib where
  /-- `urlparse`; `none` is a `ValueError`. -/
  urlparse : Str → Option ParseResult
  urlunparse : ParseResult → Str
  /-- The property `hostname` of a parse result. -/
  hostname : ParseResult → Option Str
  /-- `parse_qsl` with its default options. -/
  parseQsl : Str → List (Str × Str)
  /-- `none` is a `UnicodeEncodeError`, which is a `ValueError`. -/
  urlencode : List (Str × Str) → Option Str
  /-- `str.lower`. -/
  lower : Str → Str

/-- The library on ASCII URLs of the form `scheme://host/path`, for runs on concrete URLs. -/
def Stdlib.plain : Stdlib where
  urlparse url :=
    let scheme := url.takeWhile (· != ':')
    let rest := url.drop (scheme.length + 3)
    some ⟨scheme, rest.takeWhile (· != '/'), rest.dropWhile (· != '/'), [], [], []⟩
  urlunparse r := r.scheme ++ "://".toList ++ r.netloc ++ r.path
  hostname r := some (r.netloc.map Char.toLower)
  parseQsl _ := []
  urlencode _ := some []
  lower s := s.map Char.toLower

end SocialScraper
