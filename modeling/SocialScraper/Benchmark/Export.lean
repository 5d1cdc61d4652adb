import Mathlib.Data.List.Induction
import SocialScraper.Lib.Csv
import SocialScraper.Python
/-!
# The benchmark file

`BenchmarkTimer`, `export_benchmark_csv` and the `run_benchmarks` of the
pipeline, which appends a row for each tier that is through. Whatever the
runs on one path and wherever they break off, the file reads back as the rows
of those tiers, under one header (`benchmark_rows`).
-/
open Lib

namespace SocialScraper

variable {F D : Type}

/-- What Python makes of the `float` values `F` and the `datetime` values `D`. -/
structure Rendering (F D : Type) where
  /-- `repr` of a `float`. -/
  repr : F → Str
  isoformat : D → Str
  zero : F
  /-- `round(part / total * 100, 2)`. -/
  percent : ℤ → ℤ → F

structure BenchmarkResult (F D : Type) where
  name : Str
  executionTimeSeconds : F
  cpuPercent : F
  ramMb : F
  successCount : ℤ := 0
  failureCount : ℤ := 0
  startedAt : D
  finishedAt : D

namespace BenchmarkResult

def totalCount (r : BenchmarkResult F D) : ℤ := r.successCount + r.failureCount

def successRate (lib : Rendering F D) (r : BenchmarkResult F D) : F :=
  if r.totalCount = 0 then lib.zero else lib.percent r.successCount r.totalCount

end BenchmarkResult

/-! ## The timer -/

/-- What `__enter__` and `__exit__` measure. -/
structure Measures (F D : Type) where
  elapsed : F
  cpuPercent : F
  /-- The growth of the memory, not below zero, rounded. -/
  ramMb : F
  startedAt : D
  finishedAt : D

structure BenchmarkTimer (F D : Type) where
  name : Str
  successCount : ℤ := 0
  failureCount : ℤ := 0
  result : Option (BenchmarkResult F D) := none

namespace BenchmarkTimer

def recordSuccess (t : BenchmarkTimer F D) (count : ℤ) : BenchmarkTimer F D := { t with successCount := t.successCount + count }

def recordFailure (t : BenchmarkTimer F D) (count : ℤ) : BenchmarkTimer F D := { t with failureCount := t.failureCount + count }

/-- `__exit__`; the block may have raised. -/
def exit (t : BenchmarkTimer F D) (raised : Bool) (m : Measures F D) : BenchmarkTimer F D :=
  let t := if raised then t.recordFailure 1 else t
  { t with result := some ⟨t.name, m.elapsed, m.cpuPercent, m.ramMb, t.successCount, t.failureCount, m.startedAt, m.finishedAt⟩ }

end BenchmarkTimer

/-! ## The export -/

def csvFields : List Str :=
  ["name".toList, "execution_time_seconds".toList, "cpu_percent".toList, "ram_mb".toList, "success_count".toList,
    "failure_count".toList, "success_rate".toList, "started_at".toList, "finished_at".toList]

/-- The dialect of the `csv` module's writer and reader where none is named. -/
def excel : Csv.Dialect where
  delimiter := ','
  quote := '\x22'
  distinct := by decide
  delimiter_line := by decide
  quote_line := by decide

/-- The `dict` that is written for a result, its values as the writer prints them. -/
def exportRow (lib : Rendering F D) (r : BenchmarkResult F D) : Dict Str Str :=
  [("name".toList, r.name), ("execution_time_seconds".toList, lib.repr r.executionTimeSeconds),
    ("cpu_percent".toList, lib.repr r.cpuPercent), ("ram_mb".toList, lib.repr r.ramMb),
    ("success_count".toList, intText r.successCount), ("failure_count".toList, intText r.failureCount),
    ("success_rate".toList, lib.repr (r.successRate lib)), ("started_at".toList, lib.isoformat r.startedAt),
    ("finished_at".toList, lib.isoformat r.finishedAt)]

/-- `writer.writerow` of a `DictWriter`: the values in the order of the fields. -/
def dictToList (fieldnames : List Str) (row : Dict Str Str) : List Str := fieldnames.map fun k => (row.get k).getD []

/-- `export_benchmark_csv`, on the file as it is, if there is one. -/
def exportBenchmarkCsv (lib : Rendering F D) (results : List (BenchmarkResult F D)) (file : Option Str) : Str :=
  let header := match file with
    | none => Csv.writeRecord excel csvFields
    | some text => text
  header ++ Csv.write excel (results.map fun r => dictToList csvFields (exportRow lib r))

/-- The `dict` of the pairs; of pairs with one key, the last. -/
def dictOf (pairs : List (Str × Str)) : Dict Str Str := pairs.foldl (fun d kv => d.set kv.1 kv.2) []

/-- The default of `csv.field_size_limit()`. -/
def fieldSizeLimit : ℕ := 131072

/-- `list(csv.DictReader(f))`, where each row is as long as the first. -/
def dictReader (text : Str) : Except Csv.ReadError (List (Dict Str Str)) :=
  (Csv.read excel fieldSizeLimit text).map fun rows =>
    match rows with
    | [] => []
    | fieldnames :: rows => (rows.filter (· != [])).map fun row => dictOf (fieldnames.zip row)

/-! ## The tiers -/

/-- A tier: how many leads the pipeline finds, and what is measured; `none` if it raises. -/
structure Tier (F D : Type) where
  limit : ℕ
  outcome : Option (ℕ × Measures F D)

/-- `benchmark_tier`; `none` if it raises. -/
def benchmarkTier (tier : Tier F D) : Option (BenchmarkResult F D) :=
  let timer : BenchmarkTimer F D := { name := "pipeline_".toList ++ intText tier.limit }
  match tier.outcome with
  | none => none
  | some (leads, m) => (((timer.recordSuccess leads).recordFailure (max 0 (tier.limit - leads))).exit false m).result

/-- `run_benchmarks` with a path: the file behind it. The first tier that raises ends it. -/
def runBenchmarks (lib : Rendering F D) : List (Tier F D) → Option Str → Option Str
  | [], file => file
  | tier :: tiers, file =>
    match benchmarkTier tier with
    | none => file
    | some result => runBenchmarks lib tiers (some (exportBenchmarkCsv lib [result] file))

/-- The results up to the first tier that raises. -/
def completedTiers : List (Tier F D) → List (BenchmarkResult F D)
  | [] => []
  | tier :: tiers =>
    match benchmarkTier tier with
    | none => []
    | some result => result :: completedTiers tiers

/-! ## The file -/

theorem dictOf_eq {pairs : List (Str × Str)} (h : (pairs.map (·.1)).Nodup) : dictOf pairs = pairs := by
  induction pairs using List.reverseRecOn with
  | nil => rfl
  | append_singleton pairs kv ih =>
    rw [List.map_append, List.map_singleton] at h
    obtain ⟨hpairs, -, hdisjoint⟩ := List.nodup_append.1 h
    rw [dictOf, List.foldl_append, ← dictOf, ih hpairs, List.foldl_cons, List.foldl_nil, Dict.set, if_neg]
    intro hany
    obtain ⟨kv', hkv', he⟩ := List.any_eq_true.1 hany
    exact hdisjoint kv'.1 (List.mem_map_of_mem hkv') kv.1 (List.mem_singleton_self _) (of_decide_eq_true he)

/-- The row of a result. -/
def rowOf (lib : Rendering F D) (r : BenchmarkResult F D) : List Str := dictToList csvFields (exportRow lib r)

theorem keys_exportRow (lib : Rendering F D) (r : BenchmarkResult F D) : (exportRow lib r).map (·.1) = csvFields := rfl

theorem csvFields_nodup : csvFields.Nodup := by decide

theorem rowOf_eq (lib : Rendering F D) (r : BenchmarkResult F D) : rowOf lib r = (exportRow lib r).values := rfl

theorem zip_rowOf (lib : Rendering F D) (r : BenchmarkResult F D) : csvFields.zip (rowOf lib r) = exportRow lib r := by
  rw [rowOf_eq, Dict.values, ← keys_exportRow lib r]
  exact List.zip_map'.trans (List.map_id _)

theorem dictOf_exportRow (lib : Rendering F D) (r : BenchmarkResult F D) : dictOf (exportRow lib r) = exportRow lib r := by
  apply dictOf_eq
  rw [keys_exportRow]
  exact csvFields_nodup

/-- The file holds the header and the rows of the results; without a file there are none. -/
inductive Holds (lib : Rendering F D) : Option Str → List (BenchmarkResult F D) → Prop
  | absent : Holds lib none []
  | rows (rs : List (BenchmarkResult F D)) : Holds lib (some (Csv.write excel (csvFields :: rs.map (rowOf lib)))) rs

theorem holds_export {lib : Rendering F D} {file : Option Str} {rs : List (BenchmarkResult F D)} (h : Holds lib file rs)
    (new : List (BenchmarkResult F D)) : Holds lib (some (exportBenchmarkCsv lib new file)) (rs ++ new) := by
  cases h with
  | absent => exact .rows new
  | rows rs =>
    have happend : exportBenchmarkCsv lib new (some (Csv.write excel (csvFields :: rs.map (rowOf lib)))) =
        Csv.write excel (csvFields :: (rs ++ new).map (rowOf lib)) := by
      show Csv.write excel (csvFields :: rs.map (rowOf lib)) ++ Csv.write excel (new.map (rowOf lib)) = _
      rw [Csv.write, Csv.write, Csv.write, ← List.flatMap_append, List.cons_append, ← List.map_append]
    rw [happend]
    exact .rows (rs ++ new)

theorem holds_runBenchmarks {lib : Rendering F D} {file : Option Str} {rs : List (BenchmarkResult F D)} (h : Holds lib file rs)
    (tiers : List (Tier F D)) : Holds lib (runBenchmarks lib tiers file) (rs ++ completedTiers tiers) := by
  induction tiers generalizing file rs with
  | nil =>
    rw [completedTiers, List.append_nil]
    exact h
  | cons tier tiers ih =>
    rw [runBenchmarks, completedTiers]
    cases benchmarkTier tier with
    | none =>
      rw [List.append_nil]
      exact h
    | some result =>
      have hrest := ih (holds_export h [result])
      rw [List.append_assoc] at hrest
      exact hrest

theorem holds_runs (lib : Rendering F D) (runs : List (List (Tier F D))) :
    Holds lib (runs.foldl (fun file tiers => runBenchmarks lib tiers file) none) (runs.flatMap completedTiers) := by
  induction runs using List.reverseRecOn with
  | nil => exact .absent
  | append_singleton runs tiers ih =>
    rw [List.foldl_append, List.flatMap_append, List.flatMap_singleton]
    exact holds_runBenchmarks ih tiers

theorem dictReader_rows {lib : Rendering F D} {rs : List (BenchmarkResult F D)}
    (hlen : ∀ r ∈ rs, ∀ f ∈ (exportRow lib r).values, f.length ≤ fieldSizeLimit) :
    dictReader (Csv.write excel (csvFields :: rs.map (rowOf lib))) = .ok (rs.map (exportRow lib)) := by
  have hall : ∀ row ∈ csvFields :: rs.map (rowOf lib), ∀ f ∈ row, f.length ≤ fieldSizeLimit := by
    intro row hrow f hf
    rcases List.mem_cons.1 hrow with rfl | hrow
    · have hfields : ∀ f ∈ csvFields, f.length ≤ fieldSizeLimit := by decide
      exact hfields f hf
    · obtain ⟨r, hr, rfl⟩ := List.mem_map.1 hrow
      exact hlen r hr f (rowOf_eq lib r ▸ hf)
  have hfilter : (rs.map (rowOf lib)).filter (· != []) = rs.map (rowOf lib) := by
    apply List.filter_eq_self.2
    intro row hrow
    obtain ⟨r, -, rfl⟩ := List.mem_map.1 hrow
    rfl
  have hmap : (rs.map (rowOf lib)).map (fun row => dictOf (csvFields.zip row)) = rs.map (exportRow lib) := by
    rw [List.map_map]
    apply List.map_congr_left
    intro r _
    rw [Function.comp_apply, zip_rowOf]
    exact dictOf_exportRow lib r
  rw [dictReader, Csv.read_write excel fieldSizeLimit _ hall, Except.map]
  dsimp only
  rw [hfilter, hmap]

theorem count_completed {tiers : List (Tier F D)} {r : BenchmarkResult F D} (h : r ∈ completedTiers tiers) :
    ∃ tier ∈ tiers, ∃ leads m, tier.outcome = some (leads, m) ∧ r.name = "pipeline_".toList ++ intText tier.limit ∧
      r.successCount = leads ∧ r.failureCount = max 0 ((tier.limit : ℤ) - leads) := by
  induction tiers with
  | nil => cases h
  | cons tier tiers ih =>
    rw [completedTiers] at h
    cases ht : benchmarkTier tier with
    | none =>
      rw [ht] at h
      cases h
    | some result =>
      rw [ht] at h
      rcases List.mem_cons.1 h with rfl | h
      · cases ho : tier.outcome with
        | none =>
          simp only [benchmarkTier, ho, reduceCtorEq] at ht
        | some outcome =>
          obtain ⟨leads, m⟩ := outcome
          simp only [benchmarkTier, ho] at ht
          obtain rfl := Option.some.inj ht
          exact ⟨tier, List.mem_cons_self, leads, m, ho, rfl, by simp [BenchmarkTimer.recordSuccess, BenchmarkTimer.recordFailure],
            by simp [BenchmarkTimer.recordSuccess, BenchmarkTimer.recordFailure]⟩
      · obtain ⟨tier', htier, hrest⟩ := ih h
        exact ⟨tier', List.mem_cons_of_mem _ htier, hrest⟩

/-- Whatever the runs with one path, each of them broken off by the first tier that raises: the file reads back as one
`dict` for each tier that was through, in order, with the counts of its run, which add up to its limit. -/
theorem benchmark_rows (lib : Rendering F D) (runs : List (List (Tier F D)))
    (hlen : ∀ r ∈ runs.flatMap completedTiers, ∀ text ∈ (exportRow lib r).values, text.length ≤ fieldSizeLimit) :
    dictReader ((runs.foldl (fun file tiers => runBenchmarks lib tiers file) none).getD []) =
        .ok ((runs.flatMap completedTiers).map (exportRow lib)) ∧
      ∀ r ∈ runs.flatMap completedTiers, ∃ tiers ∈ runs, ∃ tier ∈ tiers, ∃ leads m, tier.outcome = some (leads, m) ∧
        r.name = "pipeline_".toList ++ intText tier.limit ∧ r.successCount = leads ∧
        (leads ≤ tier.limit → r.totalCount = tier.limit) := by
  constructor
  · have hholds := holds_runs lib runs
    generalize runs.foldl (fun file tiers => runBenchmarks lib tiers file) none = file at hholds
    generalize runs.flatMap completedTiers = rs at hlen hholds
    cases hholds with
    | absent => rfl
    | rows rs => exact dictReader_rows hlen
  · intro r hr
    obtain ⟨tiers, htiers, hr⟩ := List.mem_flatMap.1 hr
    obtain ⟨tier, htier, leads, m, ho, hname, hsuccess, hfailure⟩ := count_completed hr
    refine ⟨tiers, htiers, tier, htier, leads, m, ho, hname, hsuccess, fun hle => ?_⟩
    rw [BenchmarkResult.totalCount, hsuccess, hfailure]
    omega

/-- Numbers and times that print as themselves. -/
def asPrinted : Rendering Str Str := ⟨id, id, "0.0".toList, fun part total => intText (part * 100 / total)⟩

/-- A tier that finds so many leads, and one that raises. -/
def tierOf (limit leads : ℕ) : Tier Str Str :=
  ⟨limit, some (leads, ⟨"1.5".toList, "0.0".toList, "2,5".toList, "now".toList, "later".toList⟩)⟩

theorem benchmark_rows_brokenOff :
    let runs := [[tierOf 10 10, ⟨25, none⟩, tierOf 50 50], [tierOf 10 7]]
    dictReader ((runs.foldl (fun file tiers => runBenchmarks asPrinted tiers file) none).getD []) =
      .ok ((runs.flatMap completedTiers).map (exportRow asPrinted)) :=
  (benchmark_rows asPrinted [[tierOf 10 10, ⟨25, none⟩, tierOf 50 50], [tierOf 10 7]] (by decide)).1

end SocialScraper
