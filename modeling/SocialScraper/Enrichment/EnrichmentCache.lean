import Mathlib.Logic.Function.Basic
import SocialScraper.Python
/-!
# The enrichment cache

`app.cache.memory_cache` and, on top of it, `app.enrichment.google_maps.cache`
with the place identifier of `app.discovery.google_maps.dedup`. The lock of the
cache is held over code without an await, so each operation is one step.
-/

namespace SocialScraper

/-! ## `MemoryCache` -/

structure CacheEntry (α : Type) where
  value : α
  expiresAt : ℚ

/-- The cache, by its `_store`. -/
structure MemoryCache (α : Type) where
  store : Str → Option (CacheEntry α) := fun _ => none

namespace MemoryCache

variable {α : Type} (m : MemoryCache α) (key : Str) (now : ℚ)

/-- `get`, at the time `now`; an expired entry is deleted. -/
def get : MemoryCache α × Option α :=
  match m.store key with
  | none => (m, none)
  | some entry =>
    if entry.expiresAt < now then ({ store := Function.update m.store key none }, none) else (m, some entry.value)

/-- `set`, with the cache's own time to live. -/
def set (value : α) (ttl : ℚ) : MemoryCache α where
  store := Function.update m.store key (some ⟨value, now + ttl⟩)

/-- Something stored under the key is live until the given time at least. -/
def LiveUntil (t : ℚ) : Prop := ∃ entry, m.store key = some entry ∧ t ≤ entry.expiresAt

variable {m key now}

/-- What was to be live until now is found. -/
theorem get_of_live (h : m.LiveUntil key now) : ∃ value, m.get key now = (m, some value) := by
  obtain ⟨entry, hm, ht⟩ := h
  exact ⟨entry.value, by simp [get, hm, not_lt.2 ht]⟩

theorem get_liveUntil {key' : Str} {t : ℚ} (ht : now ≤ t) (h : m.LiveUntil key' t) : (m.get key now).1.LiveUntil key' t := by
  obtain ⟨entry, hm, hle⟩ := h
  unfold get
  split
  · exact ⟨entry, hm, hle⟩
  · rename_i other hother
    split_ifs with hexp
    · -- The entry deleted has expired, so it is not this one.
      have hne : key' ≠ key := by
        rintro rfl
        obtain rfl := Option.some.inj (hm.symm.trans hother)
        exact absurd (lt_of_lt_of_le hexp ht) (not_lt.2 hle)
      exact ⟨entry, (Function.update_of_ne hne _ _).trans hm, hle⟩
    · exact ⟨entry, hm, hle⟩

theorem set_liveUntil {key' : Str} {t ttl : ℚ} {value : α} (ht : t ≤ now + ttl) (h : m.LiveUntil key' t ∨ key' = key) :
    (m.set key now value ttl).LiveUntil key' t := by
  by_cases hk : key' = key
  · exact ⟨⟨value, now + ttl⟩, by rw [hk]; exact Function.update_self _ _ _, ht⟩
  · obtain ⟨entry, hm, hle⟩ := h.resolve_right hk
    exact ⟨entry, (Function.update_of_ne hk _ _).trans hm, hle⟩

end MemoryCache

/-! ## The key -/

def isHexDigit (c : Char) : Bool := c.isDigit || ('a' ≤ c && c ≤ 'f') || ('A' ≤ c && c ≤ 'F')

/-- `0x[0-9a-fA-F]+` at the start of the text: the match and what is behind it. -/
def hexNumber (s : Str) : Option (Str × Str) :=
  if "0x".toList.isPrefixOf s then
    let digits := (s.drop 2).takeWhile isHexDigit
    if digits = [] then none else some ("0x".toList ++ digits, (s.drop 2).dropWhile isHexDigit)
  else none

/-- `_PLACE_ID_RE` at the start of the text: its group 1. -/
def placeIdRe (s : Str) : Option Str :=
  if "!1s".toList.isPrefixOf s then
    (hexNumber (s.drop 3)).bind fun (first, rest) =>
      if rest.head? = some ':' then (hexNumber (rest.drop 1)).map fun (second, _) => first ++ ':' :: second else none
  else none

/-- `extract_place_id`: the first match. -/
def extractPlaceId : Str → Option Str
  | [] => none
  | c :: s => (placeIdRe (c :: s)).orElse fun _ => extractPlaceId s

/-- `EnrichmentCache._key`. -/
def cacheKey (mapsUrl : Str) : Str := (extractPlaceId mapsUrl).getD mapsUrl

example : cacheKey "https://maps.test/place/Cafe/data=!4m7!1s0x47a:0xB1f!8m2?hl=en".toList = "0x47a:0xB1f".toList := by decide

end SocialScraper
