import SocialScraper.Python
/-!
# URLs

`app.utils.url_helper`, `app.normalizers.url_normalizer` and
`app.enrichment.social.url_normalizer`. `none` is a `ValueError`, of a parse or of
text that cannot be encoded.
-/

namespace SocialScraper

variable (lib : Stdlib)

/-! ## `url_helper` -/

/-- A label of `_HOSTNAME_RE`: 1 to 63 letters, digits and hyphens, none at either end. -/
def hostnameLabel (l : Str) : Bool :=
  1 ≤ l.length && l.length ≤ 63 && l.all (fun c => c.isAlphanum || c == '-') && l.head? != some '-' &&
    l.getLast? != some '-'

/-- `_HOSTNAME_RE.match`; its `$` also matches before a final newline. -/
def hostnameRe (h : Str) : Bool :=
  let labels (s : Str) := (s.splitOn '.').all hostnameLabel
  labels h || (h.getLast? == some '\n' && labels h.dropLast)

def isValidUrl (url : Str) : Bool :=
  match lib.urlparse url with
  | none => false
  | some result =>
    if (result.scheme != "http".toList && result.scheme != "https".toList) || result.netloc == [] then false
    else
      let hostname := (lib.hostname result).getD []
      hostname == "localhost".toList || (hostname.contains '.' && hostnameRe hostname)

def normalizeUrl (url : Str) : Option Str :=
  let url := strip url
  if url = [] then some url
  else
    let url := if startsWithHttp url then url else "https://".toList ++ url
    (lib.urlparse url).map fun parsed =>
      lib.urlunparse { parsed with path := rstrip (· == '/') parsed.path, fragment := [] }

def extractDomain (url : Str) : Option Str :=
  (lib.urlparse (if startsWithHttp url then url else "https://".toList ++ url)).map fun parsed =>
    let domain := lib.lower parsed.netloc
    if "www.".toList.isPrefixOf domain then domain.drop 4 else domain

/-! ## The normalizers -/

/-- Drop the query parameters of `url` whose lower-cased key is in `params`. -/
def stripParams (params : List Str) (url : Str) : Option Str :=
  (lib.urlparse url).bind fun parsed =>
    let cleanQuery := (lib.parseQsl parsed.query).filter fun kv => lib.lower kv.1 ∉ params
    (lib.urlencode cleanQuery).map fun query => lib.urlunparse { parsed with query := query }

/-- `_TRACKING_PARAMS`. -/
def trackingParams : List Str :=
  ["utm_source".toList, "utm_medium".toList, "utm_campaign".toList, "utm_term".toList, "utm_content".toList,
    "fbclid".toList, "gclid".toList]

def normalizeBusinessUrl (url : Str) : Option Str := (normalizeUrl lib url).bind (stripParams lib trackingParams)

/-- `_SOCIAL_TRACKING_PARAMS`. -/
def socialTrackingParams : List Str :=
  ["igshid".toList, "igsh".toList, "fbclid".toList, "utm_source".toList, "utm_medium".toList, "utm_campaign".toList,
    "ref".toList, "hc_ref".toList, "__tn__".toList]

/-- `_MOBILE_HOSTS.get(host)`. -/
def mobileHosts (host : Str) : Option Str :=
  if host = "facebook.com".toList ∨ host = "m.facebook.com".toList ∨ host = "mobile.facebook.com".toList then
    some "www.facebook.com".toList
  else if host = "instagram.com".toList then some "www.instagram.com".toList
  else none

def unwrapFacebookLinkShim (url : Str) : Option Str :=
  (lib.urlparse url).map fun parsed =>
    if lib.lower parsed.netloc = "l.facebook.com".toList ∧ parsed.path = "/l.php".toList then
      match (lib.parseQsl parsed.query).find? (fun kv => kv.1 = "u".toList) with
      | some (_, target) => target
      | none => url
    else url

def canonicalizeDomain (url : Str) : Option Str :=
  (lib.urlparse url).map fun parsed =>
    let parsed := match mobileHosts (lib.lower parsed.netloc) with
      | some canonicalHost => { parsed with netloc := canonicalHost }
      | none => parsed
    let parsed := if parsed.scheme = "http".toList then { parsed with scheme := "https".toList } else parsed
    lib.urlunparse parsed

def stripSocialTrackingParams (url : Str) : Option Str := stripParams lib socialTrackingParams url

def normalizeSocialUrl (rawUrl : Str) : Option Str := do
  let url ← normalizeUrl lib rawUrl
  let url ← unwrapFacebookLinkShim lib url
  let url ← canonicalizeDomain lib url
  let url ← normalizeBusinessUrl lib url
  stripSocialTrackingParams lib url

end SocialScraper
