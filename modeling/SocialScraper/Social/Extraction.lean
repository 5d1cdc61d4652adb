import SocialScraper.Lib.Firsts
import SocialScraper.Social.JsonLd
import SocialScraper.Urllib.Parse
/-!
# The links of a homepage

`SocialLinkExtractor.extract` of `app.enrichment.social.link_extractor`, from
what the HTML parser finds on. Each link is kept once, in the first region that
has it, by its URL first and by its normalized URL then (`extract_best_region`).
-/
open Lib

namespace SocialScraper

/-! ## `extract` -/

/-- The hrefs that the HTML parser finds, and the texts of the scripts. -/
structure HomePage where
  /-- The anchors of the first `footer`. -/
  footer : Option (List Str)
  header : Option (List Str)
  anchors : List Str
  relMe : List Str
  /-- `application/ld+json`; a text can be missing. -/
  scripts : List (Option Str)

/-- Where a link can be, the best place first. -/
inductive Region where
  | footer | header | anchor | relMe | jsonLd
deriving DecidableEq

def Region.name : Region → Str
  | .footer => "footer".toList
  | .header => "header".toList
  | .anchor => "anchor".toList
  | .relMe => "meta".toList
  | .jsonLd => "json_ld".toList

/-- `add`. The URLs seen are those of the candidates. -/
def addLink (candidates : List LinkCandidate) (link : LinkCandidate) : List LinkCandidate :=
  if candidates.any fun c => c.url == link.url then candidates else candidates ++ [link]

/-- The loop over the links of a region. -/
def addRegion (region : Region) (candidates : List LinkCandidate) (hrefs : List Str) : List LinkCandidate :=
  hrefs.foldl (fun candidates href =>
    match classifyPlatform href with
    | some platform => addLink candidates ⟨href, platform.name, region.name⟩
    | none => candidates) candidates

/-- The pass of the last loop for a script. -/
def addScript (loads : Str → Loaded) (candidates : List LinkCandidate) (script : Option Str) : Option (List LinkCandidate) :=
  (iterJsonLdSameAs loads script).map fun yielded =>
    yielded.foldl (fun candidates (url, platform) => addLink candidates ⟨url, platform.name, Region.jsonLd.name⟩) candidates

/-- `extract`; `none` is an exception. -/
def extract (loads : Str → Loaded) (page : HomePage) : Option (List LinkCandidate) :=
  let candidates := match page.footer with
    | some hrefs => addRegion .footer [] hrefs
    | none => []
  let candidates := match page.header with
    | some hrefs => addRegion .header candidates hrefs
    | none => candidates
  let candidates := addRegion .anchor candidates page.anchors
  let candidates := addRegion .relMe candidates page.relMe
  page.scripts.foldlM (addScript loads) candidates

/-! ## The regions of a page -/

/-- The `sameAs` entries of a script that the code comes to. -/
def jsonLdEntries (loads : Str → Loaded) (raw : Option Str) : Option (List Str) :=
  match raw with
  | none | some [] => some []
  | some text =>
    match loads text with
    | .malformed => some []
    | .raised => none
    | .value data => some ((data.items.flatMap Json.expand).flatMap Json.sameAs)

namespace HomePage

/-- The `sameAs` entries of the page. -/
def sameAs (page : HomePage) (loads : Str → Loaded) : Option (List Str) :=
  (page.scripts.mapM (jsonLdEntries loads)).map List.flatten

/-- What is in a region of the page, with its `sameAs` entries. -/
def hrefs (page : HomePage) (entries : List Str) : Region → List Str
  | .footer => page.footer.getD []
  | .header => page.header.getD []
  | .anchor => page.anchors
  | .relMe => page.relMe
  | .jsonLd => entries

end HomePage

def Region.all : List Region := [.footer, .header, .anchor, .relMe, .jsonLd]

/-- The candidates of a region. -/
def Region.links (region : Region) (hrefs : List Str) : List LinkCandidate :=
  hrefs.filterMap fun href => (classifyPlatform href).map fun platform => ⟨href, platform.name, region.name⟩

/-- All the candidates of a page, region by region. -/
def HomePage.links (page : HomePage) (entries : List Str) : List LinkCandidate :=
  Region.all.flatMap fun region => region.links (page.hrefs entries region)

/-! ## The first loop of deduplication -/

def rawUrl (link : LinkCandidate) : Option Str := some link.url

theorem addLink_firsts (links : List LinkCandidate) (link : LinkCandidate) :
    addLink (firsts rawUrl links) link = firsts rawUrl (links ++ [link]) := by
  have hseen : ((firsts rawUrl links).any fun c => c.url == link.url) = true ↔ rawUrl link ∈ links.map rawUrl := by
    have hmem : link.url ∈ (firsts rawUrl links).filterMap rawUrl ↔ link.url ∈ links.filterMap rawUrl := mem_keys_firsts
    rw [List.mem_filterMap, List.mem_filterMap] at hmem
    rw [List.any_eq_true, List.mem_map]
    simpa [rawUrl] using hmem
  rw [firsts_concat, addLink]
  by_cases h : rawUrl link ∈ links.map rawUrl
  · rw [if_pos (hseen.2 h), if_neg, List.append_nil]
    rintro (hn | hn)
    · cases hn
    · exact hn h
  · rw [if_neg (mt hseen.1 h), if_pos (.inr h)]

theorem foldl_addLink (new links : List LinkCandidate) :
    new.foldl addLink (firsts rawUrl links) = firsts rawUrl (links ++ new) := by
  induction new generalizing links with
  | nil => rw [List.append_nil]; rfl
  | cons link new ih =>
    rw [List.foldl_cons, addLink_firsts, ih, List.append_assoc]
    rfl

theorem addRegion_firsts (region : Region) (links : List LinkCandidate) (hrefs : List Str) :
    addRegion region (firsts rawUrl links) hrefs = firsts rawUrl (links ++ region.links hrefs) := by
  rw [← foldl_addLink, addRegion, Region.links, List.foldl_filterMap]
  congr 1
  funext candidates href
  cases classifyPlatform href <;> rfl

theorem Region.links_append (region : Region) (hrefs hrefs' : List Str) :
    region.links (hrefs ++ hrefs') = region.links hrefs ++ region.links hrefs' :=
  List.filterMap_append

variable {loads : Str → Loaded}

/-- What is yielded for a script are its entries with a platform. -/
theorem iterJsonLdSameAs_eq (raw : Option Str) : iterJsonLdSameAs loads raw =
    (jsonLdEntries loads raw).map fun urls =>
      urls.filterMap fun url => (classifyPlatform url).map fun platform => (url, platform) := by
  unfold iterJsonLdSameAs jsonLdEntries
  cases raw with
  | none => rfl
  | some text =>
    cases text with
    | nil => rfl
    | cons c rest =>
      dsimp only
      cases loads (c :: rest) with
      | malformed => rfl
      | raised => rfl
      | value data =>
        rw [Option.map_some, List.filterMap_flatMap, funext Json.yields_eq]
        rfl

theorem addScript_firsts (links : List LinkCandidate) (script : Option Str) :
    addScript loads (firsts rawUrl links) script =
      (jsonLdEntries loads script).map fun urls => firsts rawUrl (links ++ Region.jsonLd.links urls) := by
  rw [addScript, iterJsonLdSameAs_eq, Option.map_map]
  congr 1
  funext urls
  rw [← foldl_addLink, Region.links, List.foldl_filterMap, Function.comp_apply, List.foldl_filterMap]
  congr 1
  funext candidates url
  cases classifyPlatform url <;> rfl

theorem foldlM_addScript (scripts : List (Option Str)) (links : List LinkCandidate) :
    scripts.foldlM (addScript loads) (firsts rawUrl links) =
      ((scripts.mapM (jsonLdEntries loads)).map List.flatten).map fun entries =>
        firsts rawUrl (links ++ Region.jsonLd.links entries) := by
  induction scripts generalizing links with
  | nil =>
    have hnone : links ++ Region.jsonLd.links [] = links := List.append_nil links
    rw [List.mapM_nil]
    exact congrArg (fun l => some (firsts rawUrl l)) hnone.symm
  | cons script scripts ih =>
    rw [List.foldlM_cons, addScript_firsts, List.mapM_cons]
    cases hs : jsonLdEntries loads script with
    | none => rfl
    | some urls =>
      have hrest := ih (links ++ Region.jsonLd.links urls)
      cases hm : scripts.mapM (jsonLdEntries loads) with
      | none =>
        rw [hm] at hrest
        exact hrest
      | some rest =>
        rw [hm, Option.map_some, Option.map_some, List.append_assoc, ← Region.links_append] at hrest
        exact hrest

/-- Extraction keeps the first candidate for each URL. -/
theorem extract_eq (page : HomePage) :
    extract loads page = (page.sameAs loads).map fun entries => firsts rawUrl (page.links entries) := by
  have hfooter : (match page.footer with
      | some hrefs => addRegion .footer [] hrefs
      | none => []) = firsts rawUrl (Region.footer.links (page.footer.getD [])) := by
    cases page.footer with
    | none => rfl
    | some hrefs => exact addRegion_firsts .footer [] hrefs
  have hheader : ∀ links, (match page.header with
      | some hrefs => addRegion .header (firsts rawUrl links) hrefs
      | none => firsts rawUrl links) = firsts rawUrl (links ++ Region.header.links (page.header.getD [])) := by
    intro links
    cases page.header with
    | none => exact congrArg _ (List.append_nil links).symm
    | some hrefs => exact addRegion_firsts .header links hrefs
  unfold extract
  dsimp only
  rw [hfooter, hheader, addRegion_firsts, addRegion_firsts, foldlM_addScript]
  congr 1
  funext entries
  simp only [HomePage.links, Region.all, HomePage.hrefs, List.flatMap_cons, List.flatMap_nil, List.append_nil,
    List.append_assoc]

/-! ## The second loop -/

variable (lib : Stdlib)

/-- Whether the URL of the candidate normalizes to this one. -/
def normalizesTo (url : Str) (link : LinkCandidate) : Bool := normalizeSocialUrl lib link.url == some url

/-- Whether a region has a link to a profile that normalizes to the URL. -/
def HomePage.has (page : HomePage) (entries : List Str) (url : Str) (region : Region) : Bool :=
  (page.hrefs entries region).any fun href => (classifyPlatform href).isSome && normalizeSocialUrl lib href == some url

variable {lib}

theorem deduplicateCandidates_concat (links : List LinkCandidate) (link : LinkCandidate) :
    deduplicateCandidates lib (links ++ [link]) = addUnique lib (deduplicateCandidates lib links) link :=
  List.foldl_concat ..

theorem nodup_addUnique {unique : List LinkCandidate} (h : (unique.map (·.url)).Nodup) (link : LinkCandidate) :
    ((addUnique lib unique link).map (·.url)).Nodup := by
  unfold addUnique
  split
  · exact h
  · rename_i normalized hn
    split_ifs with hseen
    · exact h
    · rw [List.map_append, List.nodup_append]
      refine ⟨h, List.nodup_singleton _, ?_⟩
      intro url hurl url' hurl' he
      obtain ⟨c, hc, rfl⟩ := List.mem_map.1 hurl
      obtain rfl : url' = normalized := List.mem_singleton.1 hurl'
      exact hseen (List.any_eq_true.2 ⟨c, hc, beq_iff_eq.2 he⟩)

theorem deduplicateCandidates_nodup (links : List LinkCandidate) : ((deduplicateCandidates lib links).map (·.url)).Nodup := by
  induction links using List.reverseRecOn with
  | nil => exact List.nodup_nil
  | append_singleton links link ih =>
    rw [deduplicateCandidates_concat]
    exact nodup_addUnique ih link

/-- What is kept for a URL comes from the first candidate that normalizes to it. -/
theorem find?_deduplicateCandidates (url : Str) (links : List LinkCandidate) :
    (deduplicateCandidates lib links).find? (fun c => c.url == url) =
      (links.find? (normalizesTo lib url)).map fun c => ⟨url, c.platform, c.source⟩ := by
  induction links using List.reverseRecOn with
  | nil => rfl
  | append_singleton links link ih =>
    have hany : ((deduplicateCandidates lib links).any fun c => c.url == url) = true ↔ (links.find? (normalizesTo lib url)).isSome := by
      rw [List.any_eq_true, ← List.find?_isSome, ih, Option.isSome_map]
    rw [deduplicateCandidates_concat, List.find?_append, List.find?_singleton]
    unfold addUnique
    cases hn : normalizeSocialUrl lib link.url with
    | none => simp [normalizesTo, hn, ih]
    | some normalized =>
      dsimp only
      by_cases hurl : normalized = url
      · have hto : normalizesTo lib url link = true := by rw [normalizesTo, hn, hurl, beq_self_eq_true]
        rw [hto, if_pos rfl, hurl]
        cases hfirst : links.find? (normalizesTo lib url) with
        | none =>
          have hnew : ¬(deduplicateCandidates lib links).any (fun c => c.url == url) := by
            rw [hany, hfirst]
            simp
          rw [if_neg hnew, List.find?_append, ih, hfirst]
          simp
        | some first =>
          have hseen : (deduplicateCandidates lib links).any fun c => c.url == url := by
            rw [hany, hfirst]
            rfl
          rw [if_pos hseen, ih, hfirst]
          rfl
      · have hto : normalizesTo lib url link = false := by
          rw [normalizesTo, hn]
          simpa using hurl
        rw [hto, if_neg Bool.false_ne_true, Option.or_none, ← ih]
        split_ifs
        · rfl
        · rw [List.find?_append, List.find?_singleton, if_neg (by simpa using hurl), Option.or_none]

theorem Region.find?_links (region : Region) (hrefs : List Str) (url : Str) :
    ((region.links hrefs).find? (normalizesTo lib url)).map (·.source) =
      if hrefs.any fun href => (classifyPlatform href).isSome && normalizeSocialUrl lib href == some url
        then some region.name else none := by
  induction hrefs with
  | nil => rfl
  | cons href hrefs ih =>
    rw [Region.links] at ih ⊢
    cases hp : classifyPlatform href with
    | none =>
      rw [List.filterMap_cons_none (by rw [hp]; rfl), ih, List.any_cons, hp]
      rfl
    | some platform =>
      rw [List.filterMap_cons_some (by rw [hp]; rfl), List.find?_cons, List.any_cons, hp]
      cases hn : normalizesTo lib url ⟨href, platform.name, region.name⟩ with
      | true =>
        have hto : (normalizeSocialUrl lib href == some url) = true := hn
        rw [hto]
        rfl
      | false =>
        have hto : (normalizeSocialUrl lib href == some url) = false := hn
        rw [hto]
        exact ih

/-- The first candidate for a normalized URL is in the best region that has one. -/
theorem HomePage.find?_links (page : HomePage) (entries : List Str) (url : Str) :
    ((page.links entries).find? (normalizesTo lib url)).map (·.source) =
      (Region.all.find? (page.has lib entries url)).map Region.name := by
  rw [links]
  induction Region.all with
  | nil => rfl
  | cons region regions ih =>
    have hregion : ((region.links (page.hrefs entries region)).find? (normalizesTo lib url)).map (·.source) =
        if page.has lib entries url region then some region.name else none := Region.find?_links region _ url
    rw [List.flatMap_cons, List.find?_append, List.find?_cons, Option.map_or, hregion, ih]
    cases page.has lib entries url region <;> rfl

theorem find?_kept (page : HomePage) (entries : List Str) (url : Str) :
    ((deduplicateCandidates lib (firsts rawUrl (page.links entries))).find? fun c => c.url == url).map (·.source) =
      (Region.all.find? (page.has lib entries url)).map Region.name := by
  have hkind : ∀ a b : LinkCandidate, rawUrl a = rawUrl b → normalizesTo lib url a = normalizesTo lib url b := by
    intro a b he
    rw [normalizesTo, normalizesTo, Option.some.inj he]
  rw [find?_deduplicateCandidates, find?_firsts hkind, Option.map_map, ← HomePage.find?_links]
  rfl

theorem Region.mem_all (region : Region) : region ∈ Region.all := by
  cases region <;> simp [Region.all]

variable (lib) in
/-- Extraction and deduplication keep one candidate for each normalized URL of a link to a profile on the page, with
the first region that has such a link as its source. -/
theorem extract_best_region (loads : Str → Loaded) (page : HomePage) (entries : List Str)
    (h : page.sameAs loads = some entries) :
    ∃ candidates, extract loads page = some candidates ∧
      ((deduplicateCandidates lib candidates).map (·.url)).Nodup ∧
      (∀ url, url ∈ (deduplicateCandidates lib candidates).map (·.url) ↔
        ∃ region, ∃ href ∈ page.hrefs entries region,
          (classifyPlatform href).isSome ∧ normalizeSocialUrl lib href = some url) ∧
      ∀ link ∈ deduplicateCandidates lib candidates,
        (Region.all.find? (page.has lib entries link.url)).map Region.name = some link.source := by
  have hnodup : ((deduplicateCandidates lib (firsts rawUrl (page.links entries))).map (·.url)).Nodup :=
    deduplicateCandidates_nodup _
  refine ⟨firsts rawUrl (page.links entries), ?_, hnodup, ?_, ?_⟩
  · rw [extract_eq, h]
    rfl
  · intro url
    have hkept : url ∈ (deduplicateCandidates lib (firsts rawUrl (page.links entries))).map (·.url) ↔
        ((deduplicateCandidates lib (firsts rawUrl (page.links entries))).find? fun c => c.url == url).isSome := by
      rw [List.find?_isSome, List.mem_map]
      exact exists_congr fun c => and_congr_right fun _ => beq_iff_eq.symm
    rw [hkept, ← Option.isSome_map, find?_kept, Option.isSome_map, List.find?_isSome]
    constructor
    · rintro ⟨region, -, hhas⟩
      obtain ⟨href, hmem, hto⟩ := List.any_eq_true.1 hhas
      obtain ⟨hsome, hn⟩ := Bool.and_eq_true_iff.1 hto
      exact ⟨region, href, hmem, hsome, beq_iff_eq.1 hn⟩
    · rintro ⟨region, href, hmem, hsome, hn⟩
      refine ⟨region, region.mem_all, List.any_eq_true.2 ⟨href, hmem, ?_⟩⟩
      rw [hsome, hn, beq_self_eq_true]
      rfl
  · intro link hlink
    have hsome : ((deduplicateCandidates lib (firsts rawUrl (page.links entries))).find? fun c => c.url == link.url).isSome :=
      List.find?_isSome.2 ⟨link, hlink, beq_self_eq_true link.url⟩
    obtain ⟨found, hfound⟩ := Option.isSome_iff_exists.1 hsome
    have hsame : found = link := by
      apply List.inj_on_of_nodup_map hnodup (List.mem_of_find?_eq_some hfound) hlink
      have hurl : (found.url == link.url) = true := List.find?_some (p := fun c : LinkCandidate => c.url == link.url) hfound
      exact beq_iff_eq.1 hurl
    rw [← find?_kept, hfound, hsame]
    rfl

/-- A page with one profile in three regions, written in three ways. -/
def threeRegions : HomePage where
  footer := none
  header := some ["https://www.instagram.com/cafe/?utm_source=site".toList]
  anchors := ["/about".toList, "https://www.instagram.com/cafe/?utm_source=site".toList, "https://instagram.com/cafe".toList]
  relMe := []
  scripts := [none, some "\x7b\"sameAs\": \"https://instagram.com/cafe/\"\x7d".toList]

theorem threeRegions_best :
    let loads := fun _ => Loaded.value (.object [("sameAs".toList, .string "https://instagram.com/cafe/".toList)])
    ∃ candidates, extract loads threeRegions = some candidates ∧
      ((deduplicateCandidates (cpython .ascii) candidates).map (·.url)).Nodup ∧
      (∀ url, url ∈ (deduplicateCandidates (cpython .ascii) candidates).map (·.url) ↔
        ∃ region, ∃ href ∈ threeRegions.hrefs ["https://instagram.com/cafe/".toList] region,
          (classifyPlatform href).isSome ∧ normalizeSocialUrl (cpython .ascii) href = some url) ∧
      ∀ link ∈ deduplicateCandidates (cpython .ascii) candidates,
        (Region.all.find? (threeRegions.has (cpython .ascii) ["https://instagram.com/cafe/".toList] link.url)).map Region.name =
          some link.source :=
  extract_best_region (cpython .ascii) _ threeRegions _ rfl

end SocialScraper
