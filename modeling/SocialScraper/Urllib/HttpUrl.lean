import SocialScraper.Urllib.Parse
/-!
# Parsed http URLs

`HttpUrl` holds the parts of an http or https URL as `urlparse` finds them, so
that its text parses to these parts again. `parse_http` reads any text with an
http prefix into one.
-/

namespace SocialScraper

def httpSchemes : List Str := ["http".toList, "https".toList]

theorem http_mem : "http".toList ∈ httpSchemes := List.mem_cons_self

theorem https_mem : "https".toList ∈ httpSchemes := List.mem_cons_of_mem _ (List.mem_singleton_self _)

/-- A network location that `urlparse` reads up to its end and accepts. -/
structure NetlocOk (uc : Unicode) (netloc : Str) : Prop where
  chars : ∀ c ∈ netloc, netlocEnd c = false ∧ unsafeByte c = false
  brackets : bracketsOk netloc = true
  check : checkNetloc uc netloc = true

/-- A path from the root, or none at all. -/
def Rooted (path : Str) : Prop := path = [] ∨ path.head? = some '/'

structure HttpUrl (uc : Unicode) where
  scheme : Str
  netloc : Str
  /-- The path with its parameters. -/
  path : Str
  query : Str
  scheme_mem : scheme ∈ httpSchemes
  netloc_ok : NetlocOk uc netloc
  path_rooted : Rooted path
  path_chars : ∀ c ∈ path, c ≠ '?' ∧ c ≠ '#' ∧ unsafeByte c = false
  query_chars : ∀ c ∈ query, c ≠ '#' ∧ unsafeByte c = false

namespace HttpUrl

variable {uc : Unicode}

/-- What stands behind the scheme and its slashes. -/
def rest (w : HttpUrl uc) : Str := w.netloc ++ (w.path ++ behind '?' w.query)

def text (w : HttpUrl uc) : Str := w.scheme ++ ("://".toList ++ w.rest)

def parts (w : HttpUrl uc) : ParseResult :=
  ⟨w.scheme, w.netloc, (splitParams w.path).1, (splitParams w.path).2, w.query, []⟩

end HttpUrl

/-! ## Reading -/

theorem span_append {p : Char → Bool} {a b : Str} (ha : ∀ c ∈ a, p c = true) (hb : ∀ c ∈ b.head?, p c = false) :
    (a ++ b).takeWhile p = a ∧ (a ++ b).dropWhile p = b := by
  rw [List.takeWhile_append_of_pos ha, List.dropWhile_append_of_pos ha]
  cases b with
  | nil => simp
  | cons c b => simp [hb c (by simp)]

theorem splitParams_plain {path : Str} (h : ';' ∉ path) : splitParams path = (path, []) := by
  have hlast : ';' ∉ lastSegment path := by
    intro hc
    have hsub := List.takeWhile_sublist (l := path.reverse) (· != '/')
    exact h (List.mem_reverse.1 (hsub.subset (List.mem_reverse.1 hc)))
  have hjoin : dirName path ++ lastSegment path = path := by
    rw [dirName, lastSegment, ← List.reverse_append, List.takeWhile_append_dropWhile, List.reverse_reverse]
  rw [splitParams, partition_of_not_mem hlast]
  simp only [hjoin]

theorem isAscii_of_schemeChar {c : Char} (h : schemeChar c = true) : isAscii c = true := by
  simp only [schemeChar, Bool.or_eq_true, List.contains_iff_mem, List.mem_cons, List.not_mem_nil, or_false] at h
  rcases h with h | rfl | rfl | rfl
  · exact isAscii_of_alphanum h
  all_goals rfl

theorem forall_schemeChar {P : Char → Prop} (h : ∀ n < 128, schemeChar (Char.ofNat n) = true → P (Char.ofNat n)) {c : Char}
    (hc : schemeChar c = true) : P c :=
  ascii_forall (P := fun c => schemeChar c = true → P c) h (isAscii_of_schemeChar hc) hc

section
variable (uc : Unicode)

theorem splitScheme_http {scheme : Str} (hs : scheme ∈ httpSchemes) (rest : Str) :
    splitScheme (scheme ++ ':' :: rest) = (scheme, rest) := by
  have hscheme : ':' ∉ scheme ∧ scheme.head?.any Char.isAlpha = true ∧ scheme.all schemeChar = true ∧
      scheme.map Char.toLower = scheme := by
    revert scheme
    decide
  obtain ⟨hcolon, hhead, hall, hlower⟩ := hscheme
  simp [splitScheme, partition_append hcolon, hhead, hall, hlower]

/-- What `urlsplit` makes of a text behind an http scheme. -/
theorem urlsplit_http {scheme : Str} (hs : scheme ∈ httpSchemes) (rest : Str) :
    urlsplit uc (scheme ++ ("://".toList ++ rest)) =
      let rest := rest.filter (!unsafeByte ·)
      let netloc := rest.takeWhile (!netlocEnd ·)
      let (url, fragment) := partition '#' (rest.dropWhile (!netlocEnd ·))
      let (path, query) := partition '?' url
      if bracketsOk netloc && checkNetloc uc netloc then some ⟨scheme, netloc, path, query, fragment⟩ else none := by
  have hstart : (scheme ++ ("://".toList ++ rest)).dropWhile (·.toNat ≤ 0x20) = scheme ++ ("://".toList ++ rest) := by
    have hne : ∀ scheme ∈ httpSchemes, scheme.head?.any (fun c => !decide (c.toNat ≤ 0x20)) = true := by decide
    have hhead := hne scheme hs
    cases scheme with
    | nil => cases hhead
    | cons c scheme =>
      simp only [List.head?_cons, Option.any_some, Bool.not_eq_true', decide_eq_false_iff_not] at hhead
      simp [hhead]
  have hclean : (scheme ++ ("://".toList ++ rest)).filter (!unsafeByte ·) =
      scheme ++ ':' :: ("//".toList ++ rest.filter (!unsafeByte ·)) := by
    have hscheme : ∀ scheme ∈ httpSchemes, scheme.filter (!unsafeByte ·) = scheme := by decide
    rw [List.filter_append, List.filter_append, hscheme scheme hs]
    rfl
  have hnetloc : ∀ t : Str, splitNetloc ("//".toList ++ t) = if bracketsOk (t.takeWhile (!netlocEnd ·)) then
      some (t.takeWhile (!netlocEnd ·), t.dropWhile (!netlocEnd ·)) else none := fun t => rfl
  rw [urlsplit]
  simp only [hstart, hclean, splitScheme_http hs, hnetloc]
  cases bracketsOk ((rest.filter (!unsafeByte ·)).takeWhile (!netlocEnd ·)) <;> rfl

variable {uc}

theorem urlparse_http {r : SplitResult} (hs : r.scheme ∈ httpSchemes) {s : Str} (h : urlsplit uc s = some r) :
    urlparse uc s =
      some ⟨r.scheme, r.netloc, (splitParams r.path).1, (splitParams r.path).2, r.query, r.fragment⟩ := by
  have huses : ∀ scheme ∈ httpSchemes, usesParams.contains scheme = true := by decide
  rw [urlparse, h, Option.map_some, huses r.scheme hs]
  by_cases hp : ';' ∈ r.path
  · simp [hp]
  · simp [hp, splitParams_plain hp]

/-- The network location at the start of a text, which is behind a scheme. -/
def leadingNetloc (rest : Str) : Str := (rest.filter (!unsafeByte ·)).takeWhile (!netlocEnd ·)

theorem leadingNetloc_chars {rest : Str} : ∀ c ∈ leadingNetloc rest, netlocEnd c = false ∧ unsafeByte c = false := by
  intro c hc
  have hfilter := (List.mem_filter.1 ((List.takeWhile_sublist _).subset hc)).2
  exact ⟨by simpa using List.mem_takeWhile_imp hc, by simpa using hfilter⟩

/-- A text behind an http scheme parses if its network location is accepted. -/
theorem parse_netloc {scheme : Str} (hs : scheme ∈ httpSchemes) {rest : Str} (h : NetlocOk uc (leadingNetloc rest)) :
    ∃ r, urlparse uc (scheme ++ ("://".toList ++ rest)) = some r ∧ r.scheme = scheme ∧ r.netloc = leadingNetloc rest := by
  have hsplit := urlsplit_http uc hs rest
  simp only at hsplit
  rw [if_pos (by exact Bool.and_eq_true_iff.2 ⟨h.brackets, h.check⟩)] at hsplit
  exact ⟨_, urlparse_http hs hsplit, rfl, rfl⟩

theorem netlocOk_leading {scheme : Str} (hs : scheme ∈ httpSchemes) {rest : Str} {r : ParseResult}
    (h : urlparse uc (scheme ++ ("://".toList ++ rest)) = some r) : NetlocOk uc (leadingNetloc rest) := by
  have hsplit := urlsplit_http uc hs rest
  simp only at hsplit
  by_cases hok : (bracketsOk (leadingNetloc rest) && checkNetloc uc (leadingNetloc rest)) = true
  · exact ⟨leadingNetloc_chars, (Bool.and_eq_true_iff.1 hok).1, (Bool.and_eq_true_iff.1 hok).2⟩
  · rw [if_neg (by exact hok)] at hsplit
    rw [urlparse, hsplit] at h
    cases h

theorem mem_partition_fst {sep c : Char} {s : Str} (h : c ∈ (partition sep s).1) : c ≠ sep ∧ c ∈ s :=
  ⟨by simpa using List.mem_takeWhile_imp h, (List.takeWhile_sublist _).subset h⟩

theorem mem_partition_snd {sep c : Char} {s : Str} (h : c ∈ (partition sep s).2) : c ∈ s :=
  (List.dropWhile_sublist _).subset (List.mem_of_mem_drop h)

/-- Any text behind an http scheme, as `urlparse` reads it. -/
theorem parse_http {scheme : Str} (hs : scheme ∈ httpSchemes) {rest : Str} {r : ParseResult}
    (h : urlparse uc (scheme ++ ("://".toList ++ rest)) = some r) :
    ∃ w : HttpUrl uc, w.scheme = scheme ∧ { r with fragment := [] } = w.parts := by
  have hsplit := urlsplit_http uc hs rest
  simp only at hsplit
  generalize ht : rest.filter (!unsafeByte ·) = t at hsplit
  have hclean : ∀ c ∈ t, unsafeByte c = false := by
    intro c hc
    rw [← ht] at hc
    simpa using (List.mem_filter.1 hc).2
  by_cases hok : bracketsOk (t.takeWhile (!netlocEnd ·)) && checkNetloc uc (t.takeWhile (!netlocEnd ·))
  · rw [if_pos hok] at hsplit
    have hr := urlparse_http hs hsplit
    rw [h] at hr
    obtain rfl := Option.some.inj hr
    simp only [Bool.and_eq_true] at hok
    have hrooted : ∀ c ∈ (t.dropWhile (!netlocEnd ·)).head?, netlocEnd c = true := by
      intro c hc
      have hstop := List.head?_dropWhile_not (fun c => !netlocEnd c) t
      rw [Option.mem_def.1 hc] at hstop
      simpa using hstop
    refine ⟨⟨scheme, _, _, _, hs, ⟨?_, hok.1, hok.2⟩, ?_, ?_, ?_⟩, rfl, rfl⟩
    · intro c hc
      exact ⟨by simpa using List.mem_takeWhile_imp hc, hclean c ((List.takeWhile_sublist _).subset hc)⟩
    · -- The path is behind the location, so it starts with the slash that ended it, if with anything.
      cases hd : t.dropWhile (!netlocEnd ·) with
      | nil => exact .inl rfl
      | cons c d =>
        rw [hd] at hrooted
        have hc := hrooted c rfl
        simp only [netlocEnd, List.contains_iff_mem, List.mem_cons, List.not_mem_nil, or_false] at hc
        rcases hc with rfl | rfl | rfl
        · exact .inr rfl
        · exact .inl rfl
        · exact .inl rfl
    · intro c hc
      obtain ⟨hq, hc⟩ := mem_partition_fst hc
      obtain ⟨hf, hc⟩ := mem_partition_fst hc
      exact ⟨hq, hf, hclean c ((List.dropWhile_sublist _).subset hc)⟩
    · intro c hc
      obtain ⟨hf, hc⟩ := mem_partition_fst (mem_partition_snd hc)
      exact ⟨hf, hclean c ((List.dropWhile_sublist _).subset hc)⟩
  · rw [if_neg hok] at hsplit
    rw [urlparse, hsplit] at h
    cases h

@[simp] theorem behind_nil (sep : Char) : behind sep [] = [] := rfl

theorem mem_behind {sep c : Char} {s : Str} (h : c ∈ behind sep s) : c = sep ∨ c ∈ s := by
  unfold behind at h
  split_ifs at h
  · cases h
  · exact List.mem_cons.1 h

theorem partition_behind {sep : Char} {a : Str} (ha : sep ∉ a) (b : Str) : partition sep (a ++ behind sep b) = (a, b) := by
  unfold behind
  split_ifs with hb
  · rw [hb, List.append_nil, partition_of_not_mem ha]
  · exact partition_append ha b

/-- An `HttpUrl` up to its path, with any query behind it; a `?` with nothing behind it is no query. -/
theorem HttpUrl.urlparse_query (w : HttpUrl uc) {query tail : Str} (htail : tail = '?' :: query ∨ tail = [] ∧ query = [])
    (hchars : ∀ c ∈ query, c ≠ '#' ∧ unsafeByte c = false) :
    urlparse uc (w.scheme ++ ("://".toList ++ (w.netloc ++ (w.path ++ tail)))) = some { w.parts with query := query } := by
  have hmem : ∀ c ∈ tail, c = '?' ∨ c ∈ query := by
    rcases htail with rfl | ⟨rfl, -⟩
    · exact fun c hc => List.mem_cons.1 hc
    · simp
  have hclean : (w.netloc ++ (w.path ++ tail)).filter (!unsafeByte ·) = w.netloc ++ (w.path ++ tail) := by
    apply List.filter_eq_self.2
    intro c hc
    simp only [List.mem_append] at hc
    rcases hc with hc | hc | hc
    · simp [(w.netloc_ok.chars c hc).2]
    · simp [(w.path_chars c hc).2.2]
    · rcases hmem c hc with rfl | hc
      · rfl
      · simp [(hchars c hc).2]
  have hstop : ∀ c ∈ (w.path ++ tail).head?, (!netlocEnd c) = false := by
    intro c hc
    rcases w.path_rooted with hp | hp
    · rw [hp] at hc
      rcases htail with rfl | ⟨rfl, -⟩
      · obtain rfl := Option.some.inj hc
        rfl
      · cases hc
    · rw [List.head?_append, hp] at hc
      obtain rfl := Option.some.inj hc
      rfl
  obtain ⟨htake, hdrop⟩ := span_append (p := (!netlocEnd ·)) (a := w.netloc)
    (fun c hc => by simp [(w.netloc_ok.chars c hc).1]) hstop
  have hfragment : '#' ∉ w.path ++ tail := by
    intro hc
    rcases List.mem_append.1 hc with hc | hc
    · exact (w.path_chars _ hc).2.1 rfl
    · rcases hmem _ hc with hc | hc
      · exact absurd hc (by decide)
      · exact (hchars _ hc).1 rfl
  have hquery : '?' ∉ w.path := fun hc => (w.path_chars _ hc).1 rfl
  have hpartition : partition '?' (w.path ++ tail) = (w.path, query) := by
    rcases htail with rfl | ⟨rfl, rfl⟩
    · exact partition_append hquery query
    · rw [List.append_nil, partition_of_not_mem hquery]
  have hsplit := urlsplit_http uc w.scheme_mem (w.netloc ++ (w.path ++ tail))
  simp only [hclean] at hsplit
  simp only [htake, hdrop, partition_of_not_mem hfragment, hpartition, w.netloc_ok.brackets, w.netloc_ok.check,
    Bool.and_self, if_true] at hsplit
  exact urlparse_http w.scheme_mem hsplit

/-- The text of an `HttpUrl` parses to its parts. -/
theorem HttpUrl.urlparse_text (w : HttpUrl uc) : urlparse uc w.text = some w.parts := by
  refine w.urlparse_query ?_ w.query_chars
  unfold behind
  split_ifs with hq
  · exact .inr ⟨rfl, hq⟩
  · exact .inl rfl

/-! ## Paths and parameters -/

theorem span_segment {dir name : Str} (hn : '/' ∉ name) (hd : ∀ c ∈ dir.getLast?, c = '/') :
    lastSegment (dir ++ name) = name ∧ dirName (dir ++ name) = dir := by
  obtain ⟨htake, hdrop⟩ := span_append (p := (· != '/')) (a := name.reverse) (b := dir.reverse)
    (fun c hc => bne_iff_ne.2 fun he => hn (he ▸ List.mem_reverse.1 hc))
    (fun c hc => by simp [hd c (List.head?_reverse ▸ hc)])
  rw [lastSegment, dirName, List.reverse_append, htake, hdrop, List.reverse_reverse, List.reverse_reverse]
  exact ⟨rfl, rfl⟩

theorem segment_spec (path : Str) : dirName path ++ lastSegment path = path ∧ '/' ∉ lastSegment path ∧
    ∀ c ∈ (dirName path).getLast?, c = '/' := by
  refine ⟨?_, ?_, ?_⟩
  · rw [dirName, lastSegment, ← List.reverse_append, List.takeWhile_append_dropWhile, List.reverse_reverse]
  · intro hc
    have hne := List.mem_takeWhile_imp (List.mem_reverse.1 hc)
    exact absurd hne (by decide)
  · intro c hc
    rw [dirName, List.getLast?_reverse] at hc
    have hstop := List.head?_dropWhile_not (· != '/') path.reverse
    rw [Option.mem_def.1 hc] at hstop
    simpa using hstop

theorem partition_spec (sep : Char) (s : Str) :
    s = (partition sep s).1 ++ behind sep (partition sep s).2 ∨ s = (partition sep s).1 ++ [sep] ∧ (partition sep s).2 = [] := by
  have hjoin := List.takeWhile_append_dropWhile (p := (· != sep)) (l := s)
  cases hd : s.dropWhile (· != sep) with
  | nil =>
    rw [hd] at hjoin
    exact .inl (by simpa [partition, hd, behind] using hjoin.symm)
  | cons c rest =>
    have hstop := List.head?_dropWhile_not (· != sep) s
    rw [hd] at hstop
    have hc : c = sep := by simpa using hstop
    rw [hd, hc] at hjoin
    by_cases hr : rest = []
    · exact .inr ⟨by simpa [partition, hr] using hjoin.symm, by simp [partition, hd, hr]⟩
    · exact .inl (by simpa [partition, hd, behind, hr] using hjoin.symm)

/-- A path is its parts again, but for a semicolon with nothing behind it. -/
theorem splitParams_spec (path : Str) :
    path = (splitParams path).1 ++ behind ';' (splitParams path).2 ∨
      path = (splitParams path).1 ++ [';'] ∧ (splitParams path).2 = [] := by
  obtain ⟨hjoin, -, -⟩ := segment_spec path
  rcases partition_spec ';' (lastSegment path) with h | ⟨h, hnil⟩
  · left
    calc path = dirName path ++ lastSegment path := hjoin.symm
      _ = dirName path ++ ((partition ';' (lastSegment path)).1 ++ behind ';' (partition ';' (lastSegment path)).2) := by
        rw [← h]
      _ = _ := (List.append_assoc _ _ _).symm
  · right
    refine ⟨?_, hnil⟩
    calc path = dirName path ++ lastSegment path := hjoin.symm
      _ = dirName path ++ ((partition ';' (lastSegment path)).1 ++ [';']) := by rw [← h]
      _ = _ := (List.append_assoc _ _ _).symm

/-- The parts of a path, joined, split into the same parts. -/
theorem splitParams_join (path : Str) :
    splitParams ((splitParams path).1 ++ behind ';' (splitParams path).2) = splitParams path := by
  obtain ⟨-, hslash, hdir⟩ := segment_spec path
  have hname : ';' ∉ (partition ';' (lastSegment path)).1 := fun hc => (mem_partition_fst hc).1 rfl
  have hseg : '/' ∉ (partition ';' (lastSegment path)).1 ++ behind ';' (partition ';' (lastSegment path)).2 := by
    intro hc
    rcases List.mem_append.1 hc with hc | hc
    · exact hslash (mem_partition_fst hc).2
    · rcases mem_behind hc with hc | hc
      · exact absurd hc (by decide)
      · exact hslash (mem_partition_snd hc)
  obtain ⟨hlast, hdirName⟩ := span_segment hseg hdir
  simp only [splitParams, List.append_assoc, hlast, hdirName, partition_behind hname]

theorem rooted_self {path : Str} (h : Rooted path) : rooted path = path := by
  rcases h with rfl | h
  · rfl
  · simp [rooted, h]

theorem rooted_rooted (path : Str) : Rooted (rooted path) := by
  unfold rooted
  split_ifs with h
  · exact .inr rfl
  · by_cases hp : path = []
    · exact .inl hp
    · exact .inr (by simpa [hp] using h)

theorem mem_rooted {c : Char} {path : Str} (h : c ∈ rooted path) : c = '/' ∨ c ∈ path := by
  unfold rooted at h
  split_ifs at h
  · exact List.mem_cons.1 h
  · exact .inr h

theorem Rooted.initial {path path' : Str} (h : Rooted path) (hi : path' <+: path) : Rooted path' := by
  obtain ⟨rest, rfl⟩ := hi
  by_cases hn : path' = []
  · exact .inl hn
  · right
    rcases h with h | h
    · exact absurd (List.append_eq_nil_iff.1 h).1 hn
    · rwa [List.head?_append_of_ne_nil _ hn] at h

/-- The path in front of the parameters is from the root, too. -/
theorem Rooted.fst {path : Str} (h : Rooted path) : Rooted (splitParams path).1 := by
  apply h.initial
  rcases splitParams_spec path with hs | ⟨hs, -⟩
  · exact ⟨_, hs.symm⟩
  · exact ⟨_, hs.symm⟩

/-- Without a path there are no parameters. -/
theorem Rooted.snd_nil {path : Str} (h : Rooted path) (hp : (splitParams path).1 = []) : (splitParams path).2 = [] := by
  rcases splitParams_spec path with hs | ⟨-, ha⟩
  · by_contra ha
    rw [hp, List.nil_append, behind, if_neg ha] at hs
    rw [hs] at h
    rcases h with h | h <;> cases h
  · exact ha

theorem Rooted.join {path : Str} (h : Rooted path) : Rooted ((splitParams path).1 ++ behind ';' (splitParams path).2) := by
  rcases h.fst with hp | hp
  · rw [h.snd_nil hp, hp]
    exact .inl rfl
  · right
    rw [List.head?_append, hp]
    rfl

/-- Joining the parts of a path again makes it no longer. -/
theorem join_length (path : Str) :
    ((splitParams path).1 ++ behind ';' (splitParams path).2).length < path.length ∨
      (splitParams path).1 ++ behind ';' (splitParams path).2 = path := by
  rcases splitParams_spec path with hs | ⟨hs, ha⟩
  · exact .inr hs.symm
  · left
    have hlength := congrArg List.length hs
    rw [ha]
    simp only [List.length_append, behind, if_true, List.length_nil, List.length_cons] at hlength ⊢
    omega

theorem rstrip_initial (p : Char → Bool) (s : Str) : rstrip p s <+: s := by
  rw [rstrip, ← List.reverse_suffix, List.reverse_reverse]
  exact List.dropWhile_suffix p

theorem rstrip_length (p : Char → Bool) (s : Str) : (rstrip p s).length < s.length ∨ rstrip p s = s := by
  have hinitial := rstrip_initial p s
  rcases Nat.lt_or_eq_of_le hinitial.length_le with h | h
  · exact .inl h
  · exact .inr (hinitial.eq_of_length h)

/-- A path as `normalize_url` leaves it. -/
def trimPath (path : Str) : Str := rooted (rstrip (· == '/') (splitParams path).1 ++ behind ';' (splitParams path).2)

/-- A path that `normalize_url` leaves as it is. -/
def Trimmed (path params : Str) : Prop := rstrip (· == '/') path = path ∨ path = ['/'] ∧ params ≠ []

theorem trimPath_of_trimmed {path : Str} (h : Rooted path) (ht : Trimmed (splitParams path).1 (splitParams path).2) :
    trimPath path = (splitParams path).1 ++ behind ';' (splitParams path).2 := by
  rcases ht with ht | ⟨hp, ha⟩
  · rw [trimPath, ht, rooted_self h.join]
  · have hstrip : rstrip (· == '/') ['/'] = [] := by decide
    rw [trimPath, hp, hstrip, behind, if_neg ha]
    rfl

theorem trimPath_length {path : Str} (h : Rooted path) (ht : ¬ Trimmed (splitParams path).1 (splitParams path).2) :
    (trimPath path).length < ((splitParams path).1 ++ behind ';' (splitParams path).2).length := by
  simp only [Trimmed, not_or, not_and] at ht
  obtain ⟨hne, hslash⟩ := ht
  have hshort := (rstrip_length (· == '/') (splitParams path).1).resolve_right hne
  have hrooted : ∀ a : Str, rstrip (· == '/') (splitParams path).1 ≠ [] →
      rooted (rstrip (· == '/') (splitParams path).1 ++ a) = rstrip (· == '/') (splitParams path).1 ++ a := by
    intro a hr
    apply rooted_self
    right
    rcases h.fst with hp | hp
    · rw [hp] at hshort
      cases hshort
    · obtain ⟨t, ht⟩ := rstrip_initial (· == '/') (splitParams path).1
      rw [← ht, List.head?_append_of_ne_nil _ hr] at hp
      rw [List.head?_append_of_ne_nil _ hr]
      exact hp
  unfold trimPath
  by_cases hr : rstrip (· == '/') (splitParams path).1 = []
  · rw [hr, List.nil_append]
    by_cases ha : (splitParams path).2 = []
    · rw [ha]
      simpa [behind, rooted, hr] using hshort
    · -- All that is left is the parameters, behind one slash: the path had more than that.
      have hlong : 1 < (splitParams path).1.length := by
        rw [hr] at hshort
        rcases h.fst with hp | hp
        · rw [hp] at hshort
          cases hshort
        · cases hpath : (splitParams path).1 with
          | nil => rw [hpath] at hp; cases hp
          | cons c p =>
            cases p with
            | nil =>
              rw [hpath] at hp
              obtain rfl := Option.some.inj hp
              exact absurd ha (hslash hpath)
            | cons d p => simp
      simp only [behind, if_neg ha, rooted, List.length_append, List.length_cons]
      simp
      omega
  · rw [hrooted _ hr]
    simp only [List.length_append]
    omega

/-! ## Writing -/

theorem urlunparse_http {r : ParseResult} (hs : r.scheme ∈ httpSchemes) :
    urlunparse r = r.scheme ++ ("://".toList ++ (r.netloc ++ (rooted (r.path ++ behind ';' r.params) ++
      (behind '?' r.query ++ behind '#' r.fragment)))) := by
  have huses : ∀ scheme ∈ httpSchemes, scheme ≠ [] ∧ scheme ∈ usesNetloc := by decide
  obtain ⟨hne, hnetloc⟩ := huses r.scheme hs
  simp [urlunparse, urlunsplit, hne, hnetloc]

namespace HttpUrl

/-- The URL with another path, made of characters of the old one. -/
def withPath (w : HttpUrl uc) (path params : Str) (hp : ∀ c ∈ path, c ∈ w.path) (ha : ∀ c ∈ params, c ∈ w.path) :
    HttpUrl uc :=
  { w with
    path := rooted (path ++ behind ';' params)
    path_rooted := rooted_rooted _
    path_chars := by
      intro c hc
      rcases mem_rooted hc with rfl | hc
      · decide
      · rcases List.mem_append.1 hc with hc | hc
        · exact w.path_chars c (hp c hc)
        · rcases mem_behind hc with rfl | hc
          · decide
          · exact w.path_chars c (ha c hc) }

def withQuery (w : HttpUrl uc) (l : List (Str × Str)) : HttpUrl uc :=
  { w with
    query := queryText l
    query_chars := by
      intro c hc
      rcases mem_queryText hc with hc | rfl | rfl
      · constructor
        · rintro rfl
          exact absurd hc (by decide)
        · cases hu : unsafeByte c with
          | false => rfl
          | true =>
            simp only [unsafeByte, List.contains_iff_mem, List.mem_cons, List.not_mem_nil, or_false] at hu
            rcases hu with rfl | rfl | rfl <;> exact absurd hc (by decide)
      · decide
      · decide }

theorem mem_path_fst (w : HttpUrl uc) {c : Char} (h : c ∈ (splitParams w.path).1) : c ∈ w.path := by
  rcases splitParams_spec w.path with hs | ⟨hs, -⟩ <;> rw [hs] <;> exact List.mem_append_left _ h

theorem mem_path_snd (w : HttpUrl uc) {c : Char} (h : c ∈ (splitParams w.path).2) : c ∈ w.path := by
  rcases splitParams_spec w.path with hs | ⟨-, ha⟩
  · have hne : (splitParams w.path).2 ≠ [] := List.ne_nil_of_mem h
    rw [hs, behind, if_neg hne]
    exact List.mem_append_right _ (List.mem_cons_of_mem _ h)
  · rw [ha] at h
    cases h

/-- The URL, written from its parts. -/
def rejoined (w : HttpUrl uc) : HttpUrl uc :=
  w.withPath (splitParams w.path).1 (splitParams w.path).2 (fun _ => w.mem_path_fst) fun _ => w.mem_path_snd

/-- The URL with its path trimmed. -/
def trimmed (w : HttpUrl uc) : HttpUrl uc :=
  w.withPath (rstrip (· == '/') (splitParams w.path).1) (splitParams w.path).2
    (fun _ h => w.mem_path_fst ((rstrip_initial _ _).subset h)) fun _ => w.mem_path_snd

@[simp] theorem rejoined_scheme (w : HttpUrl uc) : w.rejoined.scheme = w.scheme := by dsimp only [rejoined, withPath]
@[simp] theorem rejoined_netloc (w : HttpUrl uc) : w.rejoined.netloc = w.netloc := by dsimp only [rejoined, withPath]
@[simp] theorem trimmed_scheme (w : HttpUrl uc) : w.trimmed.scheme = w.scheme := by dsimp only [trimmed, withPath]
@[simp] theorem trimmed_netloc (w : HttpUrl uc) : w.trimmed.netloc = w.netloc := by dsimp only [trimmed, withPath]
@[simp] theorem trimmed_path (w : HttpUrl uc) : w.trimmed.path = trimPath w.path := by dsimp only [trimmed, withPath, trimPath]
@[simp] theorem trimmed_query (w : HttpUrl uc) : w.trimmed.query = w.query := by dsimp only [trimmed, withPath]

theorem urlunparse_trimmed (w : HttpUrl uc) :
    urlunparse { w.parts with path := rstrip (· == '/') w.parts.path } = w.trimmed.text := by
  rw [urlunparse_http w.scheme_mem]
  simp [text, rest, trimmed, withPath, parts]

theorem rejoined_path (w : HttpUrl uc) :
    w.rejoined.path = (splitParams w.path).1 ++ behind ';' (splitParams w.path).2 :=
  rooted_self w.path_rooted.join

theorem splitParams_rejoined (w : HttpUrl uc) : splitParams w.rejoined.path = splitParams w.path := by
  rw [rejoined_path, splitParams_join]

/-- Texts that are equal have equal parts. -/
theorem text_injective {w w' : HttpUrl uc} (h : w.text = w'.text) :
    w.scheme = w'.scheme ∧ w.netloc = w'.netloc ∧ w.path = w'.path ∧ w.query = w'.query := by
  have hparts : w.parts = w'.parts := by
    have hp := w.urlparse_text
    rw [h, w'.urlparse_text] at hp
    exact (Option.some.inj hp).symm
  have hscheme : w.scheme = w'.scheme := congrArg ParseResult.scheme hparts
  have hnetloc : w.netloc = w'.netloc := congrArg ParseResult.netloc hparts
  have hquery : w.query = w'.query := congrArg ParseResult.query hparts
  refine ⟨hscheme, hnetloc, ?_, hquery⟩
  simpa [text, rest, hscheme, hnetloc, hquery] using h

end HttpUrl

end

end SocialScraper
