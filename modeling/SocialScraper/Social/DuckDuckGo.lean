import SocialScraper.Lib.Harvest
import SocialScraper.Urllib.HttpUrl
import SocialScraper.Urllib.QueryPart
import SocialScraper.Urllib.Quote
/-!
# The search provider

`DuckDuckGoSearchProvider.discover` from the response of the search page on.
The request is guarded, the unwrapping of the results is not: an href that
`urlparse` refuses loses the results of the whole page, unless there are
enough before it (`discover_isolates_iff`).
-/
open Lib

namespace SocialScraper

/-- `parse_qs(qs).get(key)`, empty for `None`. -/
def parseQs (lib : Stdlib) (qs key : Str) : List Str := ((lib.parseQsl qs).filter (·.1 = key)).map (·.2)

/-- A response, with the `href` of each anchor of class `result__a`, in page order. -/
structure SearchResponse where
  statusCode : ℕ
  hrefs : List Str

namespace DuckDuckGoSearchProvider

variable (lib : Stdlib)

/-- An `href` with the scheme it lacks. -/
def absolute (href : Str) : Str := if "//".toList.isPrefixOf href then "https:".toList ++ href else href

/-- `_unwrap_redirect`; `none` is the `ValueError` of a parse. -/
def unwrapRedirect (href : Str) : Option (Option Str) :=
  let href := absolute href
  (lib.urlparse href).map fun parsed =>
    if parsed.netloc ≠ "duckduckgo.com".toList ∨ ¬ "/l/".toList.isPrefixOf parsed.path then some href
    else (parseQs lib parsed.query "uddg".toList).head?

/-- `_unwrap_redirect`, up to the truth of its result. -/
def truthyTarget (href : Str) : Option (Option Str) := (unwrapRedirect lib href).map fun target => target.filter (· ≠ [])

/-- `discover`, with the response or, if the request raises, `none`. -/
def discover (response : Option SearchResponse) (limit : ℕ) : Option (List Str) :=
  match response with
  | none => some []
  | some response =>
    if 400 ≤ response.statusCode then some []
    else collect (truthyTarget lib) limit response.hrefs []

/-- The target of an `href`, if it can be parsed and has one. -/
def targetOf (href : Str) : Option Str := yield (truthyTarget lib) href

/-- A target as the search page wraps it. -/
def wrapped (safe target rut : Str) : Str :=
  "//duckduckgo.com/l/?uddg=".toList ++ (quote safe target ++ ("&rut=".toList ++ rut))

variable {lib} {uc : Unicode}

/-! ## Wrapped targets -/

variable (uc) in
theorem parse_wrapped {safe : Str} (hsafe : ∀ c ∈ safe, special c = false) (target rut : Str) :
    ∃ r rest, urlparse uc ("https:".toList ++ wrapped safe target rut) = some r ∧ r.netloc = "duckduckgo.com".toList ∧
      r.path = "/l/".toList ∧ r.query = "uddg".toList ++ '=' :: quote safe target ++ '&' :: rest := by
  have hmem : ∀ c ∈ quote safe target, unsafeByte c = false ∧ c ≠ '#' := by
    intro c hc
    rcases (mem_quote hsafe hc).2 with h | rfl
    · simp only [special, List.contains_eq_mem, decide_eq_false_iff_not, List.mem_cons, List.not_mem_nil, or_false, not_or] at h
      exact ⟨by simp [unsafeByte, h], h.2.2.2.1⟩
    · decide
  let before := "/l/".toList ++ '?' :: ("uddg".toList ++ '=' :: quote safe target ++ "&rut=".toList)
  have hclean : ("duckduckgo.com/l/?uddg=".toList ++ (quote safe target ++ ("&rut=".toList ++ rut))).filter (!unsafeByte ·) =
      "duckduckgo.com".toList ++ (before ++ rut.filter (!unsafeByte ·)) := by
    have hquoted : (quote safe target).filter (!unsafeByte ·) = quote safe target :=
      List.filter_eq_self.2 fun c hc => by simp [(hmem c hc).1]
    rw [List.filter_append, List.filter_append, List.filter_append, hquoted]
    simp [before, unsafeByte]
  have hspan := span_append (p := (!netlocEnd ·)) (a := "duckduckgo.com".toList) (b := before ++ rut.filter (!unsafeByte ·))
    (forall_of_all rfl) (fun c hc => by
      obtain rfl := Option.some.inj hc
      rfl)
  have hfragment : '#' ∉ before := by
    simp only [before, List.mem_append, List.mem_cons]
    rintro (h | h | (h | h | h) | h)
    · exact absurd h (by decide)
    · exact absurd h (by decide)
    · exact absurd h (by decide)
    · exact absurd h (by decide)
    · exact (hmem _ h).2 rfl
    · exact absurd h (by decide)
  have hquery : ∀ tail, partition '?' (before ++ tail) =
      ("/l/".toList, "uddg".toList ++ '=' :: quote safe target ++ "&rut=".toList ++ tail) := by
    intro tail
    rw [List.append_assoc, List.cons_append]
    exact partition_append (by decide) _
  have haccepted : (bracketsOk "duckduckgo.com".toList && checkNetloc uc "duckduckgo.com".toList) = true := rfl
  have hsplit := urlsplit_http uc https_mem ("duckduckgo.com/l/?uddg=".toList ++ (quote safe target ++ ("&rut=".toList ++ rut)))
  simp only [hclean] at hsplit
  simp only [hspan, partition_append_of_not_mem hfragment, hquery, haccepted, if_true] at hsplit
  exact ⟨_, "rut=".toList ++ _, urlparse_http https_mem hsplit, rfl, rfl, List.append_assoc _ _ _⟩

/-- A wrapped target is unwrapped to the target. -/
theorem unwrap_wrapped {safe target : Str} (hsafe : ∀ c ∈ safe, special c = false) (htarget : target ≠ []) (rut : Str) :
    unwrapRedirect (cpython uc) (wrapped safe target rut) = some (some target) := by
  obtain ⟨r, rest, hr, hnetloc, hpath, hquery⟩ := parse_wrapped uc hsafe target rut
  have habsolute : absolute (wrapped safe target rut) = "https:".toList ++ wrapped safe target rut := if_pos rfl
  have hparams : parseQsl r.query = ("uddg".toList, target) :: parseQsl rest := by
    rw [hquery]
    exact parseQsl_quote hsafe (forall_of_all rfl) htarget rest
  have hwrapped : ¬ (r.netloc ≠ "duckduckgo.com".toList ∨ ¬ "/l/".toList.isPrefixOf r.path) := by
    rw [hnetloc, hpath]
    decide
  simp only [unwrapRedirect, habsolute, cpython_urlparse, hr, Option.map_some, if_neg hwrapped, parseQs, cpython_parseQsl,
    hparams]
  rfl

/-! ## Pages -/

theorem truthyTarget_eq_none {href : Str} : truthyTarget (cpython uc) href = none ↔ urlparse uc (absolute href) = none := by
  rw [truthyTarget, Option.map_eq_none_iff]
  exact Option.map_eq_none_iff

variable (uc) in
/-- The results are the first `limit` targets of the page if and only if no href that cannot be parsed comes before there
are enough; and a wrapped target is always unwrapped. -/
theorem discover_isolates_iff (response : SearchResponse) (limit : ℕ) (hstatus : response.statusCode < 400) (hlimit : 1 ≤ limit) :
    (discover (cpython uc) (some response) limit = some ((response.hrefs.filterMap (targetOf (cpython uc))).take limit) ∧
      ∀ safe target rut, (∀ c ∈ safe, special c = false) → target ≠ [] →
        unwrapRedirect (cpython uc) (wrapped safe target rut) = some (some target)) ↔
      ∀ before href after, response.hrefs = before ++ href :: after → urlparse uc (absolute href) = none →
        limit ≤ (before.filterMap (targetOf (cpython uc))).length := by
  have hunwrap : ∀ safe target rut, (∀ c ∈ safe, special c = false) → target ≠ [] →
      unwrapRedirect (cpython uc) (wrapped safe target rut) = some (some target) :=
    fun _ _ rut hsafe htarget => unwrap_wrapped hsafe htarget rut
  have hcollect := collect_eq_take_iff (f := truthyTarget (cpython uc)) response.hrefs [] hlimit
  simp only [List.nil_append, truthyTarget_eq_none] at hcollect
  rw [and_iff_left hunwrap, discover, if_neg (not_le.2 hstatus)]
  exact hcollect

theorem discover_isolates_profile :
    let response : SearchResponse := ⟨200, ["https://www.instagram.com/starbucks/".toList, "https://[".toList]⟩
    (discover (cpython .ascii) (some response) 1 = some ((response.hrefs.filterMap (targetOf (cpython .ascii))).take 1) ∧
      ∀ safe target rut, (∀ c ∈ safe, special c = false) → target ≠ [] →
        unwrapRedirect (cpython .ascii) (wrapped safe target rut) = some (some target)) ↔
      ∀ before href after, response.hrefs = before ++ href :: after → urlparse .ascii (absolute href) = none →
        1 ≤ (before.filterMap (targetOf (cpython .ascii))).length :=
  discover_isolates_iff .ascii _ 1 (by decide) (by decide)

/-- One href with an open bracket loses the profile behind it. -/
theorem open_bracket_loses_page :
    let response : SearchResponse := ⟨200, ["https://[".toList, "https://www.instagram.com/starbucks/".toList]⟩
    discover (cpython .ascii) (some response) 10 = none ∧
      response.hrefs.filterMap (targetOf (cpython .ascii)) = ["https://www.instagram.com/starbucks/".toList] := by
  decide +kernel

end DuckDuckGoSearchProvider

end SocialScraper
