import SocialScraper.Urllib.Query
/-!
# `urllib.parse`

`urlparse`, `urlunparse` and the property `hostname`, as CPython 3.11.10 computes
them on a `str`, with the check of `ipaddress` on a host in brackets. Earlier
patches of 3.11 check less of the brackets and write some URLs without a
network location in another way.
-/

namespace SocialScraper

/-! ## Hosts in brackets -/

/-- `IPv4Address._parse_octet`. -/
def octet (s : Str) : Bool :=
  s != [] && s.all Char.isDigit && s.length ≤ 3 && (s == ['0'] || s.head? != some '0') &&
    s.foldl (fun n c => 10 * n + (c.toNat - 48)) 0 ≤ 255

def isIPv4 (s : Str) : Bool := (s.splitOn '.').length == 4 && (s.splitOn '.').all octet

/-- `_parse_hextet`. -/
def hextet (s : Str) : Bool := s != [] && s.length ≤ 4 && s.all fun c => (hexValue c).isSome

/-- The parts of an IPv6 address on one side of `::`; `blank` is the part at the end of the address. -/
def hextets (parts : List Str) (blank : Option Str) : Option (List Str) :=
  if blank = some [] then if parts.length = 1 then some [] else none
  else if parts.all hextet then some parts else none

/-- `IPv6Address._ip_int_from_string` from the parts on. -/
def ipv6Parts (parts : List Str) : Bool :=
  let inner := (parts.drop 1).dropLast
  if 9 < parts.length then false
  else
    match inner.count [] with
    | 0 => parts.length == 8 && parts.all hextet
    | 1 =>
      let skip := 1 + inner.idxOf []
      match hextets (parts.take skip) parts.head?, hextets (parts.drop (skip + 1)) parts.getLast? with
      | some high, some low => high.length + low.length ≤ 7
      | _, _ => false
    | _ => false

def isIPv6 (s : Str) : Bool :=
  let (address, scopeId) := partition '%' s
  let parts := address.splitOn ':'
  let last := parts.getLast?.getD []
  (!s.contains '%' || (scopeId != [] && !scopeId.contains '%')) && 3 ≤ parts.length &&
    if last.contains '.' then isIPv4 last && ipv6Parts (parts.dropLast ++ [['0'], ['0']]) else ipv6Parts parts

/-- `_check_bracketed_host`, where it does not raise. -/
def checkBracketedHost (hostname : Str) : Bool :=
  if hostname.head? = some 'v' then
    let digits := (hostname.drop 1).takeWhile fun c => (hexValue c).isSome
    let rest := (hostname.drop 1).dropWhile fun c => (hexValue c).isSome
    digits != [] && rest.head? == some '.' && 2 ≤ rest.length
  else isIPv6 hostname

/-! ## `urlsplit` -/

variable (uc : Unicode)

/-- `_checknetloc`, where it does not raise. -/
def checkNetloc (netloc : Str) : Bool :=
  netloc.all isAscii ||
    let n := netloc.filter fun c => !(['@', ':', '#', '?'].contains c)
    uc.nfkc n == n || !(uc.nfkc n).any fun c => ['/', '?', '#', '@', ':'].contains c

/-- `scheme_chars`. -/
def schemeChar (c : Char) : Bool := c.isAlphanum || ['+', '-', '.'].contains c

/-- The scheme and what is behind it. -/
def splitScheme (url : Str) : Str × Str :=
  let (scheme, rest) := partition ':' url
  if url.contains ':' && scheme.head?.any Char.isAlpha && scheme.all schemeChar then (scheme.map Char.toLower, rest)
  else ([], url)

def netlocEnd (c : Char) : Bool := ['/', '?', '#'].contains c

/-- The checks of 3.11.10 on the brackets of a network location, where they do not raise. -/
def bracketsOk (netloc : Str) : Bool :=
  netloc.contains '[' == netloc.contains ']' &&
    (!netloc.contains '[' || checkBracketedHost (partition ']' (partition '[' netloc).2).1)

/-- The network location, if there is one, and what is behind it. -/
def splitNetloc (url : Str) : Option (Str × Str) :=
  if "//".toList.isPrefixOf url then
    let netloc := (url.drop 2).takeWhile (!netlocEnd ·)
    if bracketsOk netloc then some (netloc, (url.drop 2).dropWhile (!netlocEnd ·)) else none
  else some ([], url)

structure SplitResult where
  scheme : Str
  netloc : Str
  path : Str
  query : Str
  fragment : Str
deriving DecidableEq

/-- `_UNSAFE_URL_BYTES_TO_REMOVE`. -/
def unsafeByte (c : Char) : Bool := ['\t', '\r', '\n'].contains c

def urlsplit (url : Str) : Option SplitResult :=
  let url := (url.dropWhile (·.toNat ≤ 0x20)).filter (!unsafeByte ·)
  let (scheme, url) := splitScheme url
  (splitNetloc url).bind fun (netloc, url) =>
    let (url, fragment) := partition '#' url
    let (path, query) := partition '?' url
    if checkNetloc uc netloc then some ⟨scheme, netloc, path, query, fragment⟩ else none

/-! ## `urlparse` -/

/-- `uses_params`. -/
def usesParams : List Str :=
  ["".toList, "ftp".toList, "hdl".toList, "prospero".toList, "http".toList, "imap".toList, "https".toList, "shttp".toList,
    "rtsp".toList, "rtsps".toList, "rtspu".toList, "sip".toList, "sips".toList, "mms".toList, "sftp".toList, "tel".toList]

/-- The last segment of a path. -/
def lastSegment (url : Str) : Str := (url.reverse.takeWhile (· != '/')).reverse

/-- What stands before the last segment. -/
def dirName (url : Str) : Str := (url.reverse.dropWhile (· != '/')).reverse

/-- `_splitparams`: at the first semicolon of the last segment. -/
def splitParams (url : Str) : Str × Str :=
  let (name, params) := partition ';' (lastSegment url)
  (dirName url ++ name, params)

def urlparse (url : Str) : Option ParseResult :=
  (urlsplit uc url).map fun r =>
    let (path, params) := if usesParams.contains r.scheme && r.path.contains ';' then splitParams r.path else (r.path, [])
    ⟨r.scheme, r.netloc, path, params, r.query, r.fragment⟩

/-! ## `urlunparse` -/

/-- `uses_netloc`. -/
def usesNetloc : List Str :=
  ["".toList, "ftp".toList, "http".toList, "gopher".toList, "nntp".toList, "telnet".toList, "imap".toList, "wais".toList,
    "file".toList, "mms".toList, "https".toList, "shttp".toList, "snews".toList, "prospero".toList, "rtsp".toList,
    "rtsps".toList, "rtspu".toList, "rsync".toList, "svn".toList, "svn+ssh".toList, "sftp".toList, "nfs".toList,
    "git".toList, "git+ssh".toList, "ws".toList, "wss".toList]

/-- A part of a URL with the character before it, if it is not empty. -/
def behind (c : Char) (s : Str) : Str := if s = [] then [] else c :: s

/-- The path from the root. -/
def rooted (url : Str) : Str := if url != [] && url.head? != some '/' then '/' :: url else url

/-- With 3.11.10's `//` in front of a path that begins with two slashes. -/
def urlunsplit (r : SplitResult) : Str :=
  let url := r.path
  let url :=
    if r.netloc != [] || (r.scheme != [] && usesNetloc.contains r.scheme) || "//".toList.isPrefixOf url then
      "//".toList ++ r.netloc ++ rooted url
    else url
  let url := if r.scheme = [] then url else r.scheme ++ ':' :: url
  url ++ behind '?' r.query ++ behind '#' r.fragment

def urlunparse (r : ParseResult) : Str :=
  urlunsplit ⟨r.scheme, r.netloc, r.path ++ behind ';' r.params, r.query, r.fragment⟩

/-! ## `hostname` -/

/-- The host of `_hostinfo`. -/
def hostinfo (netloc : Str) : Str :=
  let info := (netloc.reverse.takeWhile (· != '@')).reverse
  if info.contains '[' then (partition ']' (partition '[' info).2).1 else (partition ':' info).1

def hostname (r : ParseResult) : Option Str :=
  let host := hostinfo r.netloc
  if host = [] then none
  else
    -- The zone of a scoped IPv6 address keeps its case.
    let (name, zone) := partition '%' host
    some (uc.lower name ++ if host.contains '%' then '%' :: zone else [])

variable {uc} in
theorem hostname_congr {r r' : ParseResult} (h : r.netloc = r'.netloc) : hostname uc r = hostname uc r' := by
  unfold hostname
  rw [h]

variable {uc} in
theorem hostname_of_netloc {r r' : ParseResult} {netloc : Str} (h : r.netloc = netloc) :
    hostname uc r = hostname uc { r' with netloc := netloc } := hostname_congr h

/-- CPython's standard library, over the tables of Unicode. -/
def cpython : Stdlib where
  urlparse := urlparse uc
  urlunparse := urlunparse
  hostname := hostname uc
  parseQsl := parseQsl
  urlencode := urlencode uc
  lower := uc.lower

@[simp] theorem cpython_urlparse : (cpython uc).urlparse = urlparse uc := rfl
@[simp] theorem cpython_urlunparse : (cpython uc).urlunparse = urlunparse := rfl
@[simp] theorem cpython_hostname : (cpython uc).hostname = hostname uc := rfl
@[simp] theorem cpython_parseQsl : (cpython uc).parseQsl = parseQsl := rfl
@[simp] theorem cpython_urlencode : (cpython uc).urlencode = urlencode uc := rfl
@[simp] theorem cpython_lower : (cpython uc).lower = uc.lower := rfl

example : urlparse .ascii " HTTPS://u@Host:8/a;b/c;d?q=1#f".toList =
    some ⟨"https".toList, "u@Host:8".toList, "/a;b/c".toList, "d".toList, "q=1".toList, "f".toList⟩ := by decide

end SocialScraper
