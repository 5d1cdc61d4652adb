import SocialScraper.Social.LinkExtractor
/-!
# Links in JSON-LD

`_iter_json_ld_same_as` of `app.enrichment.social.link_extractor`, from what
`json.loads` returns on. An object with a `@graph` is replaced by the members of
its graph, so its own `sameAs` is not read (`jsonLd_complete_iff`).
-/

namespace SocialScraper

/-! ## JSON -/

/-- A value that `json.loads` returns. -/
inductive Json where
  | null
  | bool (b : Bool)
  /-- An `int` or a `float`, as it is written. -/
  | number (literal : Str)
  | string (s : Str)
  | list (items : List Json)
  | object (fields : List (Str × Json))

/-- What a call of `json.loads` comes to. -/
inductive Loaded where
  | value (data : Json)
  /-- `JSONDecodeError`: the text is not JSON. -/
  | malformed
  /-- An exception that is not caught: the nesting is too deep, or an integer has too many digits. -/
  | raised

namespace Json

def str? : Json → Option Str
  | .string s => some s
  | _ => none

/-- `item.get(key)`, with `none` if the item is not an object. -/
def field (key : Str) : Json → Option Json
  | .object fields => Dict.get fields key
  | _ => none

/-! ## The code -/

/-- `data if isinstance(data, list) else [data]`. -/
def items : Json → List Json
  | .list items => items
  | data => [data]

/-- What a pass of the first loop appends to `expanded`. -/
def expand (item : Json) : List Json :=
  match item.field "@graph".toList with
  | some (.list graph) => graph
  | _ => [item]

/-- `[same_as] if isinstance(same_as, str) else same_as`. -/
def listed (sameAs : Json) : Json :=
  match sameAs with
  | .string url => .list [.string url]
  | _ => sameAs

/-- What a pass of the second loop yields. -/
def yields : Json → List (Str × Platform)
  | .object fields =>
    match ((Dict.get fields "sameAs".toList).getD (.list [])).listed with
    | .list urls => urls.filterMap fun url => url.str?.bind fun url => (classifyPlatform url).map fun platform => (url, platform)
    | _ => []
  | _ => []

end Json

/-- `_iter_json_ld_same_as`; `none` is an exception. -/
def iterJsonLdSameAs (loads : Str → Loaded) (raw : Option Str) : Option (List (Str × Platform)) :=
  match raw with
  | none | some [] => some []
  | some text =>
    match loads text with
    | .malformed => some []
    | .raised => none
    | .value data => some ((data.items.flatMap Json.expand).flatMap Json.yields)

/-! ## All links -/

namespace Json

/-- The members of the `@graph` list of an object. -/
def graph (item : Json) : List Json :=
  match item.field "@graph".toList with
  | some (.list members) => members
  | _ => []

/-- The top-level values and what is in their graphs, in the order of the document. -/
def nodes (data : Json) : List Json := data.items.flatMap fun item => item :: item.graph

/-- The `sameAs` of an object: a string, or the strings of a list. -/
def sameAs (node : Json) : List Str :=
  match node.field "sameAs".toList with
  | some (.string url) => [url]
  | some (.list urls) => urls.filterMap str?
  | _ => []

/-- The links of a node to a profile, with its platform. -/
def links (node : Json) : List (Str × Platform) :=
  node.sameAs.filterMap fun url => (classifyPlatform url).map fun platform => (url, platform)

def HasGraph (item : Json) : Prop := ∃ members, item.field "@graph".toList = some (.list members)

/-- No top-level object with a graph links to a profile itself. -/
def OnlyInGraph (data : Json) : Prop :=
  ∀ item ∈ data.items, item.HasGraph → ∀ url ∈ item.sameAs, classifyPlatform url = none

/-- The loop goes through the `sameAs` of an object. -/
theorem yields_eq (node : Json) : node.yields = node.links := by
  unfold yields links sameAs field
  cases node with
  | object fields =>
    dsimp only
    cases hget : Dict.get fields "sameAs".toList with
    | none => rfl
    | some value =>
      cases value with
      | list urls => exact List.filterMap_filterMap.symm
      | string url => rfl
      | _ => rfl
  | _ => rfl

theorem links_eq_nil_iff {node : Json} : node.links = [] ↔ ∀ url ∈ node.sameAs, classifyPlatform url = none := by
  rw [links, List.filterMap_eq_nil_iff]
  exact forall₂_congr fun url _ => Option.map_eq_none_iff

/-- An object with a graph is replaced by its graph. -/
theorem expand_of_hasGraph {item : Json} (h : item.HasGraph) : item.expand = item.graph := by
  obtain ⟨members, hm⟩ := h
  rw [expand, graph, hm]

theorem expand_of_not_hasGraph {item : Json} (h : ¬item.HasGraph) : item.expand = [item] ∧ item.graph = [] := by
  unfold expand graph
  split
  · rename_i members hm
    exact absurd ⟨members, hm⟩ h
  · exact ⟨rfl, rfl⟩

/-- What is yielded for a top-level value falls short of its links by those of its own. -/
theorem expand_yields (item : Json) :
    (item.expand.flatMap yields).length ≤ ((item :: item.graph).flatMap links).length ∧
    (item.expand.flatMap yields = (item :: item.graph).flatMap links ↔ (item.HasGraph → item.links = [])) := by
  rw [funext yields_eq, List.flatMap_cons]
  by_cases h : item.HasGraph
  · rw [expand_of_hasGraph h, List.length_append]
    refine ⟨Nat.le_add_left _ _, ?_⟩
    constructor
    · intro he _
      exact List.append_left_eq_self.1 he.symm
    · intro hown
      rw [hown h]
      rfl
  · obtain ⟨hexpand, hgraph⟩ := expand_of_not_hasGraph h
    rw [hexpand, hgraph, List.flatMap_singleton, List.flatMap_nil, List.append_nil]
    exact ⟨Nat.le_refl _, iff_of_true rfl fun hg => absurd hg h⟩

end Json

theorem length_flatMap_le {α β : Type} {f g : α → List β} {l : List α} (hle : ∀ a ∈ l, (f a).length ≤ (g a).length) :
    (l.flatMap f).length ≤ (l.flatMap g).length := by
  induction l with
  | nil => exact Nat.le_refl _
  | cons a l ih =>
    obtain ⟨ha, hl⟩ := List.forall_mem_cons.1 hle
    rw [List.flatMap_cons, List.flatMap_cons, List.length_append, List.length_append]
    exact Nat.add_le_add ha (ih hl)

/-- Lists put together part by part, no part longer than its counterpart, are equal only if the parts are. -/
theorem flatMap_eq_flatMap_iff {α β : Type} {f g : α → List β} {l : List α} (hle : ∀ a ∈ l, (f a).length ≤ (g a).length) :
    l.flatMap f = l.flatMap g ↔ ∀ a ∈ l, f a = g a := by
  induction l with
  | nil => simp
  | cons a l ih =>
    obtain ⟨ha, hl⟩ := List.forall_mem_cons.1 hle
    rw [List.flatMap_cons, List.flatMap_cons, List.forall_mem_cons, ← ih hl]
    constructor
    · intro he
      have hrest := length_flatMap_le hl
      have hlength := congrArg List.length he
      rw [List.length_append, List.length_append] at hlength
      exact List.append_inj he (by omega)
    · rintro ⟨h, h'⟩
      rw [h, h']

/-- A script with a JSON value, which `json.loads` returns unless it raises, yields all the links to profiles in its
`sameAs` entries exactly if it is returned, and no top-level object with a graph has such a link of its own. -/
theorem jsonLd_complete_iff (loads : Str → Loaded) (text : Str) (data : Json) (htext : text ≠ [])
    (hloads : loads text = .value data ∨ loads text = .raised) :
    iterJsonLdSameAs loads (some text) = some (data.nodes.flatMap Json.links) ↔
      loads text = .value data ∧ data.OnlyInGraph := by
  obtain ⟨c, rest, rfl⟩ := List.exists_cons_of_ne_nil htext
  unfold iterJsonLdSameAs
  dsimp only
  rcases hloads with h | h
  · rw [h]
    have hparts : (data.items.flatMap Json.expand).flatMap Json.yields = data.nodes.flatMap Json.links ↔ data.OnlyInGraph := by
      rw [List.flatMap_assoc, Json.nodes, List.flatMap_assoc,
        flatMap_eq_flatMap_iff fun item _ => (Json.expand_yields item).1]
      apply forall₂_congr
      intro item _
      rw [(Json.expand_yields item).2, Json.links_eq_nil_iff]
    simp only [Option.some.injEq, hparts, true_and]
  · rw [h]
    constructor
    · intro he
      cases he
    · rintro ⟨he, -⟩
      cases he

/-- A page that has its own links beside its graph. -/
def ownAndGraph : Json := .object
  [("sameAs".toList, .string "https://www.instagram.com/cafe".toList),
    ("@graph".toList, .list [.object [("sameAs".toList, .string "https://www.facebook.com/cafe".toList)]])]

def ownAndGraphText : Str :=
  "\x7b\"sameAs\": \"https://www.instagram.com/cafe\", \"@graph\": [\x7b\"sameAs\": \"https://www.facebook.com/cafe\"\x7d]\x7d".toList

/-- The link of the page itself is lost. -/
theorem own_link_lost :
    iterJsonLdSameAs (fun _ => .value ownAndGraph) (some ownAndGraphText) =
        some [("https://www.facebook.com/cafe".toList, .facebook)] ∧
      ownAndGraph.nodes.flatMap Json.links =
        [("https://www.instagram.com/cafe".toList, .instagram), ("https://www.facebook.com/cafe".toList, .facebook)] ∧
      iterJsonLdSameAs (fun _ => .value ownAndGraph) (some ownAndGraphText) ≠ some (ownAndGraph.nodes.flatMap Json.links) := by
  decide +kernel

theorem ownAndGraph_complete_iff :
    iterJsonLdSameAs (fun _ => .value ownAndGraph) (some ownAndGraphText) = some (ownAndGraph.nodes.flatMap Json.links) ↔
      Loaded.value ownAndGraph = .value ownAndGraph ∧ ownAndGraph.OnlyInGraph :=
  jsonLd_complete_iff (fun _ => .value ownAndGraph) ownAndGraphText ownAndGraph (by decide) (.inl rfl)

end SocialScraper
