import SocialScraper.Selection
/-!
# Links to social profiles

`classify_platform` of `app.enrichment.social.link_extractor`, and
`app.enrichment.social.dedup`. What an extraction from a page comes to is a list
of candidates.
-/

namespace SocialScraper

inductive Platform where
  | instagram | facebook
deriving DecidableEq

def Platform.name : Platform → Str
  | .instagram => "instagram".toList
  | .facebook => "facebook".toList

/-! ## `classify_platform` -/

/-- Whether the letter of a pattern matches the character with `re.IGNORECASE`. -/
def ignoreCase (letter c : Char) : Bool :=
  c.toLower == letter || (letter == 'i' && (c == 'İ' || c == 'ı')) || (letter == 's' && c == 'ſ') ||
    (letter == 'k' && c == '\u212A')

/-- What is behind the text, if it starts the string. -/
def matchText : Str → Str → Option Str
  | [], s => some s
  | letter :: text, c :: s => if ignoreCase letter c then matchText text s else none
  | _ :: _, [] => none

/-- `[^/?#\s]` at the start of the string. -/
def startsSegment (s : Str) : Bool := s.head?.any fun c => !(['/', '?', '#'].contains c) && !isSpace c

/-- A prefix, the domain, a slash and a segment that is not empty, at the start of the string. -/
def profileAt (prefixes : List Str) (domain s : Str) : Bool :=
  prefixes.any fun p => (matchText (p ++ domain ++ ['/']) s).any startsSegment

/-- A match of the pattern behind `//`, anywhere in the string. -/
def behindSlashes (re : Str → Bool) : Str → Bool
  | '/' :: '/' :: s => re s || behindSlashes re ('/' :: s)
  | _ :: s => behindSlashes re s
  | [] => false

/-- `(^|//)` and the pattern. -/
def searchProfile (re : Str → Bool) (s : Str) : Bool := re s || behindSlashes re s

/-- `_INSTAGRAM_RE.search`. -/
def instagramRe : Str → Bool := searchProfile (profileAt ["www.".toList, []] "instagram.com".toList)

/-- `_FACEBOOK_RE.search`. -/
def facebookRe : Str → Bool :=
  searchProfile (profileAt ["www.".toList, "m.".toList, "mobile.".toList, []] "facebook.com".toList)

def classifyPlatform (url : Str) : Option Platform :=
  if instagramRe url then some .instagram else if facebookRe url then some .facebook else none

example : classifyPlatform "https://shop.test/?next=//M.FACEBOOK.com/cafe".toList = some .facebook ∧
    classifyPlatform "https://instagram.com/?hl=en".toList = none := by decide

/-! ## Candidates -/

structure LinkCandidate where
  url : Str
  platform : Str
  source : Str
deriving DecidableEq

/-- One pass of the loop of `deduplicate_candidates`; a URL that cannot be normalized is skipped. -/
def addUnique (lib : Stdlib) (unique : List LinkCandidate) (candidate : LinkCandidate) : List LinkCandidate :=
  match normalizeSocialUrl lib candidate.url with
  | none => unique
  | some normalized =>
    if unique.any fun c => c.url == normalized then unique
    else unique ++ [⟨normalized, candidate.platform, candidate.source⟩]

/-- `deduplicate_candidates`. The URLs seen are those of the candidates kept. -/
def deduplicateCandidates (lib : Stdlib) (candidates : List LinkCandidate) : List LinkCandidate :=
  candidates.foldl (addUnique lib) []

end SocialScraper
