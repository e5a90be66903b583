import Parqtel.Storage.MetricScan

/-!
# Label matchers and the scans they lead to

A query's matchers are evaluated on a series' label set (`evaluateMatchers`). For a block
scan they become a `SeriesSelector`: the matchers themselves as the filter, and those that an
absent label cannot satisfy as narrowing conditions (`seriesSelector`). The conditions follow
from the filter (`seriesSelector_narrows`), so that a scan through the series table is exact.
The service name is also handed to the scan without a table, which looks it up in a column
that holds the resource's service name only.
-/

namespace Parqtel.Query

open Lib Storage List SeriesSelector

inductive MatchOp where
  | equal
  | notEqual
  | regexMatch
  | regexNotMatch
deriving DecidableEq

/-- A label matcher; a compiled regex is its test. -/
structure LabelMatcher where
  name : String
  op : MatchOp
  value : String
  regex : Option (String → Bool)

namespace LabelMatcher

def equal (name value : String) : LabelMatcher := ⟨name, .equal, value, none⟩

def matchesValue (m : LabelMatcher) (labelValue : Option String) : Bool :=
  let val := labelValue.getD ""
  match m.op with
  | .equal => val = m.value
  | .notEqual => val ≠ m.value
  | .regexMatch => m.regex.any fun re => re val
  | .regexNotMatch => m.regex.any fun re => !re val

end LabelMatcher

def evaluateMatchers (matchers : List LabelMatcher) (labels : LabelSet) (metricName : String) :
    Bool :=
  matchers.all fun m =>
    m.matchesValue (if m.name = "__name__" then some metricName else labels.get m.name)

def seriesFilter (matchers : List LabelMatcher) (metric : String) : Option (LabelSet → Bool) :=
  if matchers = [] then none else some fun labels => evaluateMatchers matchers labels metric

def serviceOf (matchers : List LabelMatcher) : Option String :=
  (matchers.find? fun m => m.op = .equal ∧ m.name = "service.name").map LabelMatcher.value

def narrow (sel : SeriesSelector) (m : LabelMatcher) : SeriesSelector :=
  if m.name = "__name__" then sel
  else
    match m.op, m.regex with
    | .equal, _ =>
      if m.value ≠ "" ∧ m.name ≠ "service.name" then
        { sel with equals := sel.equals ++ [(m.name, m.value)] }
      else sel
    | .regexMatch, some re =>
      if re "" then sel else { sel with valueTests := sel.valueTests ++ [(m.name, re)] }
    | _, _ => sel

def narrowService (sel : SeriesSelector) : SeriesSelector :=
  match sel.service with
  | some svc =>
    if svc = "" then sel else { sel with equals := sel.equals ++ [("service.name", svc)] }
  | none => sel

def seriesSelector (matchers : List LabelMatcher) (metric : String) : SeriesSelector :=
  let sel := all.withFilter (seriesFilter matchers metric)
  matchers.foldl narrow (narrowService { sel with service := serviceOf matchers })

/-! ## The narrowing conditions follow from the filter -/

section
variable {matchers : List LabelMatcher} {metric : String}

/-- A selector that filters by the matchers, with conditions that follow from them. -/
structure Narrows (matchers : List LabelMatcher) (metric : String) (sel : SeriesSelector) :
    Prop where
  service : sel.service = serviceOf matchers
  accepts : ∀ labels, sel.accepts labels = evaluateMatchers matchers labels metric
  sound : sel.Sound

variable {labels : LabelSet} {m : LabelMatcher}

theorem evaluateMatchers_mem (h : evaluateMatchers matchers labels metric = true)
    (hm : m ∈ matchers) (hname : m.name ≠ "__name__") :
    m.matchesValue (labels.get m.name) = true := by
  have := all_eq_true.mp h m hm
  rwa [if_neg hname] at this

theorem get_of_equal (hop : m.op = .equal) (hvalue : m.value ≠ "")
    (h : m.matchesValue (labels.get m.name) = true) :
    labels.get m.name = some m.value := by
  simp only [LabelMatcher.matchesValue, hop, decide_eq_true_eq] at h
  cases hget : labels.get m.name with
  | none => exact absurd (by rw [← h, hget]; rfl) hvalue
  | some v => rw [← h, hget]; rfl

theorem get_of_regex {re : String → Bool} (hop : m.op = .regexMatch) (hre : m.regex = some re)
    (hempty : re "" = false) (h : m.matchesValue (labels.get m.name) = true) :
    ∃ value, labels.get m.name = some value ∧ re value = true := by
  simp only [LabelMatcher.matchesValue, hop, hre, Option.any_some] at h
  cases hget : labels.get m.name with
  | none => rw [hget, Option.getD_none, hempty] at h; cases h
  | some v => exact ⟨v, rfl, by rwa [hget, Option.getD_some] at h⟩

namespace Narrows

variable {sel : SeriesSelector}

theorem equals (h : Narrows matchers metric sel) {label value : String}
    (himp : ∀ labels, evaluateMatchers matchers labels metric = true →
      labels.get label = some value) :
    Narrows matchers metric { sel with equals := sel.equals ++ [(label, value)] } := by
  refine ⟨h.service, h.accepts, fun labels hacc => ?_⟩
  obtain ⟨hequals, htests⟩ := h.sound labels hacc
  refine ⟨forall_mem_append.mpr ⟨hequals, forall_mem_singleton.mpr ?_⟩, htests⟩
  exact himp labels ((h.accepts labels).symm.trans hacc)

theorem valueTests (h : Narrows matchers metric sel) {label : String} {re : String → Bool}
    (himp : ∀ labels, evaluateMatchers matchers labels metric = true →
      ∃ value, labels.get label = some value ∧ re value = true) :
    Narrows matchers metric { sel with valueTests := sel.valueTests ++ [(label, re)] } := by
  refine ⟨h.service, h.accepts, fun labels hacc => ?_⟩
  obtain ⟨hequals, htests⟩ := h.sound labels hacc
  refine ⟨hequals, forall_mem_append.mpr ⟨htests, forall_mem_singleton.mpr ?_⟩⟩
  exact himp labels ((h.accepts labels).symm.trans hacc)

theorem narrow (h : Narrows matchers metric sel) (hm : m ∈ matchers) :
    Narrows matchers metric (narrow sel m) := by
  unfold Query.narrow
  by_cases hname : m.name = "__name__"
  · rwa [if_pos hname]
  · rw [if_neg hname]
    cases hop : m.op with
    | equal =>
      split_ifs with hvalue
      · exact h.equals fun labels heval =>
          get_of_equal hop hvalue.1 (evaluateMatchers_mem heval hm hname)
      · exact h
    | regexMatch =>
      cases hre : m.regex with
      | none => exact h
      | some re =>
        dsimp only
        split_ifs with hempty
        · exact h
        · exact h.valueTests fun labels heval => get_of_regex hop hre
            (Bool.eq_false_of_not_eq_true hempty) (evaluateMatchers_mem heval hm hname)
    | notEqual | regexNotMatch => exact h

theorem foldl {ms : List LabelMatcher} (h : Narrows matchers metric sel) (hms : ms ⊆ matchers) :
    Narrows matchers metric (ms.foldl Query.narrow sel) := by
  induction ms generalizing sel with
  | nil => exact h
  | cons m ms ih =>
    obtain ⟨hm, hms⟩ := cons_subset.mp hms
    exact ih (h.narrow hm) hms

end Narrows

theorem serviceOf_spec {svc : String} (h : serviceOf matchers = some svc) :
    ∃ m ∈ matchers, m.op = .equal ∧ m.name = "service.name" ∧ m.value = svc := by
  obtain ⟨m, hfind, hvalue⟩ := Option.map_eq_some_iff.mp h
  have hm := find?_some hfind
  obtain ⟨hop, hname⟩ := of_decide_eq_true hm
  exact ⟨m, mem_of_find?_eq_some hfind, hop, hname, hvalue⟩

theorem get_service {svc : String} (h : serviceOf matchers = some svc) (hempty : svc ≠ "")
    (heval : evaluateMatchers matchers labels metric = true) :
    labels.get "service.name" = some svc := by
  obtain ⟨m, hm, hop, hname, rfl⟩ := serviceOf_spec h
  have hget := get_of_equal hop hempty (evaluateMatchers_mem heval hm (by rw [hname]; decide))
  rwa [hname] at hget

theorem Narrows.narrowService {sel : SeriesSelector} (h : Narrows matchers metric sel) :
    Narrows matchers metric (narrowService sel) := by
  unfold Query.narrowService
  cases hsvc : sel.service with
  | none => exact h
  | some svc =>
    dsimp only
    split_ifs with hempty
    · exact h
    · exact hsvc ▸ h.equals fun labels => get_service (h.service.symm.trans hsvc) hempty

/-- **The selector of a query's matchers** filters by them, and narrows by what follows. -/
theorem seriesSelector_narrows (matchers : List LabelMatcher) (metric : String) :
    Narrows matchers metric (seriesSelector matchers metric) := by
  refine Narrows.foldl (Narrows.narrowService ⟨rfl, fun labels => ?_, fun _ _ => ⟨nofun, nofun⟩⟩)
    (List.Subset.refl _)
  show accepts ⟨_, _, _, seriesFilter matchers metric⟩ labels = _
  rw [accepts, seriesFilter]
  split_ifs with hnil
  · rw [hnil]; rfl
  · rfl

end

/-! ## Scans for a query -/

section
variable {V : Type*}

def decodeMatching (rows : List (MetricColumns V)) (metric : String) (startNs endNs : Int)
    (matchers : List LabelMatcher) : List (DataPoint V) :=
  decodeBlock rows metric startNs endNs fun labels => evaluateMatchers matchers labels metric

theorem decodeMatching_eq (rows : List (MetricColumns V)) (metric : String) (startNs endNs : Int)
    (matchers : List LabelMatcher) : decodeMatching rows metric startNs endNs matchers =
      decodeBlock rows metric startNs endNs (seriesSelector matchers metric).accepts := by
  rw [decodeMatching, ← funext (seriesSelector_narrows matchers metric).accepts]

/-- **The two scans of a block for a query.** Through the table the result is always that of
decoding all rows; without it, exactly if no group with a matching row is dropped for its
service name column. -/
theorem series_index_transparent {runs : List (MetricRun V)} (file : MetricFile runs)
    (metric : String) (startNs endNs : Int) (matchers : List LabelMatcher) :
    (∃ ix scan, loadSeries (some (metricRunsToBlock runs).2) (metricRunsToBlock runs).1.length =
        some ix ∧
      scanBlockIndexed file.groups ix metric startNs endNs (seriesSelector matchers metric) =
        .ok scan ∧
      scan.points.Perm
        (decodeMatching (metricRunsToBlock runs).1 metric startNs endNs matchers)) ∧
    ((scanBlockFiltered file.groups none metric startNs endNs
          (seriesSelector matchers metric)).points.Perm
        (decodeMatching (metricRunsToBlock runs).1 metric startNs endNs matchers) ↔
      ∀ g ∈ file.groups, decodeMatching g.rows metric startNs endNs matchers ≠ [] →
        g.servesAs (serviceOf matchers) = true) := by
  have hnarrows := seriesSelector_narrows matchers metric
  constructor
  · obtain ⟨ix, hload, hseries, hranges⟩ := loadSeries_block runs
    obtain ⟨scan, hscan, hpoints⟩ :=
      scanBlockIndexed_eq file hseries hranges hnarrows.sound metric startNs endNs
    refine ⟨ix, scan, hload, hscan, ?_⟩
    rw [hpoints, decodeMatching_eq]
  · have hrows :=
      scanBlockRows_perm file.groups metric startNs endNs (seriesSelector matchers metric)
    rw [file.rows_eq] at hrows
    simp only [decodeMatching_eq, ← hnarrows.service]
    exact hrows

def twoServices : List (MetricRun ℕ) :=
  [⟨"up", .gauge, .empty, [⟨1, 7, LabelSet.empty.with "service.name" "api"⟩]⟩,
    ⟨"up", .gauge, LabelSet.empty.with "service.name" "web", [⟨1, 8, .empty⟩]⟩]

def oneValue {values : List (Option String)} (value : String)
    (h : ∀ v ∈ values, v = none ∨ v = some value) : StringChunk values where
  bounds := some (value, value)
  bloom := none
  bounds_sound := by
    rintro _ ⟨⟩ s hs
    obtain hn | hv := h _ hs
    · cases hn
    · cases hv
      exact ⟨le_rfl, le_rfl⟩
  bloom_sound := nofun

/-- The file of the two points, in one row group. Its service name column has one value. -/
def twoServicesFile : MetricFile twoServices where
  groups := [{
    rows := (metricRunsToBlock twoServices).1
    timestamps := ⟨some (1, 1), by decide⟩
    metricName := oneValue "up" (by decide)
    serviceName := oneValue "web" (by decide) }]
  rows_eq := rfl

/-- The service name `api` is not in the column, and the group with the point is dropped. -/
theorem own_service_pruned :
    (scanBlockFiltered twoServicesFile.groups none "up" 0 10
      (seriesSelector [.equal "service.name" "api"] "up")).points = [] ∧
    decodeMatching (metricRunsToBlock twoServices).1 "up" 0 10
      [.equal "service.name" "api"] = [⟨1, 7, LabelSet.empty.with "service.name" "api"⟩] := by
  decide

end

end Parqtel.Query
