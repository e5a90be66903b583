import Parqtel.Core.Serde
import Parqtel.Storage.SeriesTable

/-!
# The record batch of a metric block

`MetricColumns` is a row of a metric block with its labels and its value as such. Here are the
columns that are written: label sets are JSON text, a value is split over three nullable columns,
and what is constant in a run is appended as a block of equal cells. A batch is the columns of
its rows (`buildMetricBatch_eq`), so that reading row after row gives the points of the runs
again, provided that their timestamps are positive and the JSON of their values keeps them
(`block_reads_back_iff`). The series table that is written with the batch tiles the rows.
-/

namespace Parqtel.Storage

open Lib Lib.Json List SeriesRows

variable {T F : Type}

/-! ## Cells -/

@[ext] structure MetricBatch (T F : Type) where
  timestampNs : List ℤ
  metricName : List String
  metricKind : List String
  serviceName : List (Option String)
  serviceVersion : List (Option String)
  k8sNamespace : List (Option String)
  k8sPodName : List (Option String)
  k8sPodUid : List (Option String)
  k8sContainerName : List (Option String)
  k8sNodeName : List (Option String)
  resourceAttributes : List T
  labels : List T
  valueFloat : List (Option F)
  valueInt : List (Option ℤ)
  valueComplex : List (Option T)

structure MetricCells (T F : Type) where
  timestampNs : ℤ
  metricName : String
  metricKind : String
  correlation : CorrelationLabels
  resourceAttributes : T
  labels : T
  valueFloat : Option F
  valueInt : Option ℤ
  valueComplex : Option T

def cell {α : Type} (column : List α) (row : ℕ) : Except Error α :=
  match column[row]? with
  | some a => .ok a
  | none => .error (.internal "index out of bounds")

theorem cell_map {α β : Type} (f : α → β) (column : List α) (row : ℕ) :
    cell (column.map f) row = (cell column row).map f := by
  unfold cell
  rw [getElem?_map]
  cases column[row]? <;> rfl

section
variable {fl : Format.Floats F} (text : Text fl.Finite T)

def jsonStr (labels : LabelSet) : T := text.print (Serde.labels.write labels)

def fromJson (json : T) : Except Error LabelSet :=
  match (text.parse json).bind Serde.labels.read with
  | some labels => .ok labels
  | none => .error .serde

theorem fromJson_jsonStr (labels : LabelSet) :
    fromJson text (jsonStr text labels) = .ok labels := by
  have hread : Serde.labels.read ((Serde.labels : Format fl.Finite _).write labels) = some labels :=
    Serde.labels_keeps labels
  simp only [fromJson, jsonStr, text.parse_print, Option.bind_some, hread]

/-- The value of a row: the first of the three columns that is not null. -/
def readValue (float : Option F) (int : Option ℤ) (complex : Option T) :
    Except Error (MetricValue F) :=
  match float, int with
  | some x, _ => .ok (.double x)
  | none, some i => .ok (.int i)
  | none, none =>
    match complex.bind fun json => (text.parse json).bind (Serde.value fl).read with
    | some v => .ok v
    | none => .error .serde

def valueCells : MetricValue F → Option F × Option ℤ × Option T
  | .double x => (some x, none, none)
  | .int i => (none, some i, none)
  | complex => (none, none, some (text.print ((Serde.value fl).write complex)))

def isComplex : MetricValue F → Bool
  | .histogram _ | .summary _ => true
  | _ => false

theorem readValue_valueCells (v : MetricValue F) :
    readValue text (valueCells text v).1 (valueCells text v).2.1 (valueCells text v).2.2 = .ok v ↔
      (isComplex v → v.Survives fl) := by
  have hcomplex : ∀ w : MetricValue F,
      readValue text none none (some (text.print ((Serde.value fl).write w))) = .ok w ↔
        w.Survives fl := by
    intro w
    rw [← Serde.value_keeps, Format.Keeps]
    simp only [readValue, Option.bind_some, text.parse_print]
    cases (Serde.value fl).read ((Serde.value fl).write w) <;> simp
  cases v with
  | double x => simp [readValue, valueCells, isComplex]
  | int i => simp [readValue, valueCells, isComplex]
  | histogram h => simpa [isComplex, valueCells] using hcomplex (.histogram h)
  | summary s => simpa [isComplex, valueCells] using hcomplex (.summary s)

/-! ## Building a batch -/

namespace MetricBatch

def empty : MetricBatch T F := ⟨[], [], [], [], [], [], [], [], [], [], [], [], [], [], []⟩

protected def append (a b : MetricBatch T F) : MetricBatch T F where
  timestampNs := a.timestampNs ++ b.timestampNs
  metricName := a.metricName ++ b.metricName
  metricKind := a.metricKind ++ b.metricKind
  serviceName := a.serviceName ++ b.serviceName
  serviceVersion := a.serviceVersion ++ b.serviceVersion
  k8sNamespace := a.k8sNamespace ++ b.k8sNamespace
  k8sPodName := a.k8sPodName ++ b.k8sPodName
  k8sPodUid := a.k8sPodUid ++ b.k8sPodUid
  k8sContainerName := a.k8sContainerName ++ b.k8sContainerName
  k8sNodeName := a.k8sNodeName ++ b.k8sNodeName
  resourceAttributes := a.resourceAttributes ++ b.resourceAttributes
  labels := a.labels ++ b.labels
  valueFloat := a.valueFloat ++ b.valueFloat
  valueInt := a.valueInt ++ b.valueInt
  valueComplex := a.valueComplex ++ b.valueComplex

def ofRun (run : MetricRun (MetricValue F)) : MetricBatch T F :=
  let n := run.points.length
  let (resourceLabels, correlation) := extractCorrelationLabels run.resource
  { timestampNs := run.points.map DataPoint.timestampNs
    metricName := .replicate n run.name
    metricKind := .replicate n (kindName run.kind)
    serviceName := .replicate n correlation.serviceName
    serviceVersion := .replicate n correlation.serviceVersion
    k8sNamespace := .replicate n correlation.k8sNamespace
    k8sPodName := .replicate n correlation.k8sPodName
    k8sPodUid := .replicate n correlation.k8sPodUid
    k8sContainerName := .replicate n correlation.k8sContainerName
    k8sNodeName := .replicate n correlation.k8sNodeName
    resourceAttributes := .replicate n (jsonStr text resourceLabels)
    labels := run.points.map fun p => jsonStr text p.labels
    valueFloat := run.points.map fun p => (valueCells text p.value).1
    valueInt := run.points.map fun p => (valueCells text p.value).2.1
    valueComplex := run.points.map fun p => (valueCells text p.value).2.2 }

def ofRows (rows : List (MetricCells T F)) : MetricBatch T F where
  timestampNs := rows.map MetricCells.timestampNs
  metricName := rows.map MetricCells.metricName
  metricKind := rows.map MetricCells.metricKind
  serviceName := rows.map fun r => r.correlation.serviceName
  serviceVersion := rows.map fun r => r.correlation.serviceVersion
  k8sNamespace := rows.map fun r => r.correlation.k8sNamespace
  k8sPodName := rows.map fun r => r.correlation.k8sPodName
  k8sPodUid := rows.map fun r => r.correlation.k8sPodUid
  k8sContainerName := rows.map fun r => r.correlation.k8sContainerName
  k8sNodeName := rows.map fun r => r.correlation.k8sNodeName
  resourceAttributes := rows.map MetricCells.resourceAttributes
  labels := rows.map MetricCells.labels
  valueFloat := rows.map MetricCells.valueFloat
  valueInt := rows.map MetricCells.valueInt
  valueComplex := rows.map MetricCells.valueComplex

end MetricBatch

open MetricBatch

def buildMetricBatch (runs : List (MetricRun (MetricValue F))) : MetricBatch T F :=
  runs.foldl (fun b run => if run.points = [] then b else b.append (ofRun text run)) .empty

def MetricColumns.cells (row : MetricColumns (MetricValue F)) : MetricCells T F where
  timestampNs := row.timestampNs
  metricName := row.metricName
  metricKind := row.metricKind
  correlation := row.correlation
  resourceAttributes := jsonStr text row.resourceAttributes
  labels := jsonStr text row.labels
  valueFloat := (valueCells text row.value).1
  valueInt := (valueCells text row.value).2.1
  valueComplex := (valueCells text row.value).2.2

theorem ofRun_eq (run : MetricRun (MetricValue F)) :
    ofRun text run = ofRows ((run.points.map run.columns).map (MetricColumns.cells text)) := by
  have hconst : ∀ {α : Type} (a : α) (l : List (DataPoint (MetricValue F))),
      List.replicate l.length a = l.map fun _ => a := fun a l => (map_const' ..).symm
  ext1 <;> simp only [ofRun, ofRows, map_map, hconst] <;> rfl

theorem ofRows_append (a b : List (MetricCells T F)) :
    ofRows (a ++ b) = (ofRows a).append (ofRows b) := by
  ext1 <;> simp only [ofRows, MetricBatch.append, map_append]

/-- **A batch is the columns of its rows**, run after run. -/
theorem buildMetricBatch_eq (runs : List (MetricRun (MetricValue F))) : buildMetricBatch text runs =
    ofRows ((metricRunsToChunk runs).map (MetricColumns.cells text)) := by
  have hfold : ∀ (rows : List (MetricCells T F)), runs.foldl
      (fun b run => if run.points = [] then b else b.append (ofRun text run)) (ofRows rows) =
        ofRows (rows ++ (metricRunsToChunk runs).map (MetricColumns.cells text)) := by
    unfold metricRunsToChunk
    induction runs with
    | nil => simp
    | cons run runs ih =>
      intro rows
      rw [foldl_cons, flatMap_cons, map_append, ← append_assoc]
      split_ifs with h
      · rw [h, map_nil, map_nil, append_nil]
        exact ih rows
      · rw [ofRun_eq, ← ofRows_append]
        exact ih _
  exact hfold []

/-! ## Reading a row -/

def MetricBatch.rowToCorrelation (b : MetricBatch T F) (row : ℕ) :
    Except Error CorrelationLabels := do
  return ⟨← cell b.serviceName row, ← cell b.serviceVersion row, ← cell b.k8sNamespace row,
    ← cell b.k8sPodName row, ← cell b.k8sPodUid row, ← cell b.k8sContainerName row,
    ← cell b.k8sNodeName row⟩

def MetricBatch.rowToPoint (b : MetricBatch T F) (row : ℕ) :
    Except Error (MetricRow (MetricValue F)) := do
  let timestampNs ← cell b.timestampNs row
  let metricName ← cell b.metricName row
  let kind := kindOf (← cell b.metricKind row)
  let resourceAttributes ← fromJson text (← cell b.resourceAttributes row)
  let correlation ← b.rowToCorrelation row
  let resourceAttributes := injectCorrelation resourceAttributes correlation
  let labels ← fromJson text (← cell b.labels row)
  let value ← readValue text (← cell b.valueFloat row) (← cell b.valueInt row)
    (← cell b.valueComplex row)
  -- `DataPoint::new`
  if timestampNs ≤ 0 then .error (.validation "Data point timestamp must be greater than zero")
  else .ok ⟨metricName, kind, resourceAttributes, ⟨timestampNs, value, labels⟩⟩

def MetricCells.read (r : MetricCells T F) : Except Error (MetricRow (MetricValue F)) := do
  let resourceAttributes ← fromJson text r.resourceAttributes
  let labels ← fromJson text r.labels
  let value ← readValue text r.valueFloat r.valueInt r.valueComplex
  if r.timestampNs ≤ 0 then .error (.validation "Data point timestamp must be greater than zero")
  else .ok ⟨r.metricName, kindOf r.metricKind, injectCorrelation resourceAttributes r.correlation,
    ⟨r.timestampNs, value, labels⟩⟩

theorem rowToPoint_ofRows (rows : List (MetricCells T F)) (row : ℕ) :
    (ofRows rows).rowToPoint text row = cell rows row >>= MetricCells.read text := by
  unfold MetricBatch.rowToPoint MetricBatch.rowToCorrelation
  simp only [ofRows, cell_map]
  cases cell rows row <;> rfl

/-- **A row reads back as the point that was written** exactly if its timestamp is positive and
the JSON of its value keeps it. -/
theorem read_cells_iff (run : MetricRun (MetricValue F)) (p : DataPoint (MetricValue F)) :
    ((run.columns p).cells text).read text = .ok ⟨run.name, run.kind, run.resource, p⟩ ↔
      0 < p.timestampNs ∧ (isComplex p.value → p.value.Survives fl) := by
  rw [← readValue_valueCells text]
  simp only [MetricCells.read, MetricColumns.cells, MetricRun.columns, fromJson_jsonStr, ok_bind,
    inject_extract, kindOf_kindName]
  obtain ⟨ts, v, l⟩ := p
  cases readValue text (valueCells text v).1 (valueCells text v).2.1 (valueCells text v).2.2 with
  | error e => simp [error_bind]
  | ok w =>
    by_cases h : ts ≤ 0
    · simp [ok_bind, h]
    · simp [ok_bind, h, not_le.mp h]

end

/-! ## The table tiles the rows -/

section
variable {V : Type}

def reportedLabels (r : MetricRow V) : LabelSet :=
  mergedLabels r.point.labels (r.resource.get "service.name")

def runRows (runs : List (MetricRun V)) : List (MetricRow V) :=
  runs.flatMap fun run => run.points.map fun p => ⟨run.name, run.kind, run.resource, p⟩

/-- The entries cover the rows, one after the other. Each has the labels of its rows, and its
bounds are the least and the greatest timestamp among them. -/
def Describe : List SeriesEntry → List (MetricRow V) → Prop
  | [], rows => rows = []
  | e :: es, rows =>
    (0 < e.rows ∧ e.rows ≤ rows.length) ∧
    (∀ r ∈ rows.take e.rows, reportedLabels r = e.labels) ∧
    IsLeast {t | ∃ r ∈ rows.take e.rows, r.point.timestampNs = t} e.minTs ∧
    IsGreatest {t | ∃ r ∈ rows.take e.rows, r.point.timestampNs = t} e.maxTs ∧
    Describe es (rows.drop e.rows)

def MetricColumns.row (r : MetricColumns V) : MetricRow V :=
  ⟨r.metricName, kindOf r.metricKind, injectCorrelation r.resourceAttributes r.correlation,
    ⟨r.timestampNs, r.value, r.labels⟩⟩

theorem row_columns (run : MetricRun V) (p : DataPoint V) :
    (run.columns p).row = ⟨run.name, run.kind, run.resource, p⟩ := by
  simp only [MetricColumns.row, MetricRun.columns, kindOf_kindName, inject_extract]

theorem runRows_eq (runs : List (MetricRun V)) :
    runRows runs = (metricRunsToChunk runs).map MetricColumns.row := by
  simp only [runRows, metricRunsToChunk, map_flatMap, map_map, Function.comp_def, row_columns]

def Attained (s : SeriesRows V) : Prop :=
  (∃ r ∈ s.rows, r.timestampNs = s.entry.minTs) ∧ ∃ r ∈ s.rows, r.timestampNs = s.entry.maxTs

theorem seriesEntry_attained (run : MetricRun V) (row : ℕ) (p : DataPoint V)
    (ps : List (DataPoint V)) :
    Attained ⟨run.name, seriesEntry run.service row p ps, (p :: ps).map run.columns⟩ := by
  have hmem : ∀ t : ℤ, t = p.timestampNs ∨ t ∈ ps.map DataPoint.timestampNs →
      ∃ r ∈ (p :: ps).map run.columns, r.timestampNs = t := by
    rintro t (rfl | ht)
    · exact ⟨_, mem_cons_self, rfl⟩
    · obtain ⟨q, hq, rfl⟩ := mem_map.mp ht
      exact ⟨_, mem_map_of_mem (mem_cons_of_mem _ hq), rfl⟩
  have hmin := foldl_min_eq_or_mem (ps.map DataPoint.timestampNs) p.timestampNs
  have hmax := foldl_max_eq_or_mem (ps.map DataPoint.timestampNs) p.timestampNs
  rw [foldl_map] at hmin hmax
  exact ⟨hmem _ hmin, hmem _ hmax⟩

theorem groupSeries_attained (run : MetricRun V) (row : ℕ) (groups : List (List (DataPoint V))) :
    ∀ s ∈ groupSeries run row groups, Attained s := by
  fun_induction groupSeries run row groups with
  | case1 => nofun
  | case2 row groups ih => exact ih
  | case3 row p ps groups ih =>
    exact forall_mem_cons.mpr ⟨seriesEntry_attained run row p ps, ih⟩

theorem runSeries_attained (runs : List (MetricRun V)) (row : ℕ) :
    ∀ s ∈ runSeries row runs, Attained s := by
  induction runs generalizing row with
  | nil => nofun
  | cons run runs ih =>
    intro s hs
    rcases mem_append.mp hs with hs | hs
    · exact groupSeries_attained run row run.groups s hs
    · exact ih _ s hs

theorem Laid.tiles {row : ℕ} {ss : List (SeriesRows V)} (h : Laid row ss)
    (hbounds : ∀ s ∈ ss, Attained s)
    (hlabels : ∀ r ∈ ss.flatMap rows, reportedLabels r.row = r.reported) :
    Follow row (ss.map entry) ∧
      Describe (ss.map entry) ((ss.flatMap rows).map MetricColumns.row) := by
  induction ss generalizing row with
  | nil => exact ⟨trivial, rfl⟩
  | cons s ss ih =>
    obtain ⟨hstart, hrows, huniform, hrest⟩ := h
    obtain ⟨⟨hmin, hmax⟩, hbounds⟩ := forall_mem_cons.mp hbounds
    rw [flatMap_cons] at hlabels ⊢
    have htake : ((s.rows ++ ss.flatMap rows).map MetricColumns.row).take s.entry.rows =
        s.rows.map MetricColumns.row := by
      rw [map_append, hrows, take_left' (length_map _)]
    have hdrop : ((s.rows ++ ss.flatMap rows).map MetricColumns.row).drop s.entry.rows =
        (ss.flatMap rows).map MetricColumns.row := by
      rw [map_append, hrows, drop_left' (length_map _)]
    obtain ⟨hfollow, hdescribe⟩ := ih hrest hbounds fun r hr => hlabels r (mem_append_right _ hr)
    rw [map_cons, Follow, Describe, htake, hdrop, hrows]
    simp only [mem_map, exists_exists_and_eq_and]
    refine ⟨⟨hstart, hfollow⟩, ⟨?_, ?_⟩, ?_, ⟨hmin, ?_⟩, ⟨hmax, ?_⟩, hdescribe⟩
    · exact length_pos_iff.mpr huniform.ne
    · simp
    · rintro r ⟨c, hc, rfl⟩
      rw [hlabels c (mem_append_left _ hc)]
      exact huniform.labels c hc
    · rintro t ⟨r, hr, rfl⟩
      exact huniform.minTs r hr
    · rintro t ⟨r, hr, rfl⟩
      exact huniform.maxTs r hr

/-- **The series table tiles the rows.** -/
theorem describeRuns_tiles (runs : List (MetricRun V)) :
    let t := describeRuns .new 0 runs
    ∃ es, SeriesTable.entries t.strings t.start t.len t.minTs t.maxTs t.labels = .ok es ∧
      Follow 0 es ∧ Describe es (runRows runs) := by
  obtain ⟨hlaid, hrows⟩ := runSeries_laid runs 0
  have hholds := describeRuns_holds 0 runs SeriesTable.Holds.new
  refine ⟨_, hholds.entries, ?_⟩
  rw [nil_append, runRows_eq, ← hrows]
  refine hlaid.tiles (runSeries_attained runs 0) fun r hr => ?_
  rw [hrows, metricRunsToChunk] at hr
  obtain ⟨run, -, hr⟩ := mem_flatMap.mp hr
  obtain ⟨p, -, rfl⟩ := mem_map.mp hr
  rw [row_columns]
  rfl

end

/-! ## A block reads back -/

section
variable {fl : Format.Floats F} (text : Text fl.Finite T)

/-- What a block is written from: the rows of `metricRunsToBlock` as columns, and its table. -/
def MetricBatch.blockOf (runs : List (MetricRun (MetricValue F))) : MetricBatch T F × SeriesTable :=
  (buildMetricBatch text runs, (metricRunsToBlock runs).2)

def BlockReadsBack (runs : List (MetricRun (MetricValue F))) : Prop :=
  let (batch, t) := MetricBatch.blockOf text runs
  batch = .ofRows ((metricRunsToBlock runs).1.map (MetricColumns.cells text)) ∧
  (∀ row (h : row < (runRows runs).length),
    batch.rowToPoint text row = .ok ((runRows runs).get ⟨row, h⟩)) ∧
  ∃ es, SeriesTable.entries t.strings t.start t.len t.minTs t.maxTs t.labels = .ok es ∧
    Follow 0 es ∧ Describe es (runRows runs)

def runPoints (runs : List (MetricRun (MetricValue F))) :
    List (MetricRun (MetricValue F) × DataPoint (MetricValue F)) :=
  runs.flatMap fun run => run.points.map fun p => (run, p)

theorem rowToPoint_getElem {runs : List (MetricRun (MetricValue F))} {row : ℕ}
    {run : MetricRun (MetricValue F)} {p : DataPoint (MetricValue F)}
    (h : (runPoints runs)[row]? = some (run, p)) :
    (buildMetricBatch text runs).rowToPoint text row =
      ((run.columns p).cells text).read text := by
  have hcells : (metricRunsToChunk runs).map (MetricColumns.cells text) =
      (runPoints runs).map fun q => (q.1.columns q.2).cells text := by
    simp only [metricRunsToChunk, runPoints, map_flatMap, map_map, Function.comp_def]
  have hcell : cell ((runPoints runs).map fun q => (q.1.columns q.2).cells text) row =
      .ok ((run.columns p).cells text) := by
    rw [cell_map, cell, h]
    rfl
  rw [buildMetricBatch_eq, hcells, rowToPoint_ofRows, hcell, ok_bind]

theorem rows_read_iff (runs : List (MetricRun (MetricValue F))) :
    (∀ row (h : row < (runRows runs).length), (buildMetricBatch text runs).rowToPoint text row =
      .ok ((runRows runs).get ⟨row, h⟩)) ↔
    ∀ q ∈ runPoints runs,
      0 < q.2.timestampNs ∧ (isComplex q.2.value → q.2.value.Survives fl) := by
  have hrows : runRows runs =
      (runPoints runs).map fun q => ⟨q.1.name, q.1.kind, q.1.resource, q.2⟩ := by
    simp only [runRows, runPoints, map_flatMap, map_map, Function.comp_def]
  rw [hrows, forall_mem_iff_getElem]
  simp only [length_map, get_eq_getElem, getElem_map]
  refine forall₂_congr fun row h => ?_
  rw [rowToPoint_getElem text (getElem?_eq_getElem h)]
  exact read_cells_iff text _ _

/-- **A block reads back exactly if** all its timestamps are positive and every float of its
histograms and summaries, which are written as JSON, survives its text. -/
theorem block_reads_back_iff (runs : List (MetricRun (MetricValue F))) :
    BlockReadsBack text runs ↔ ∀ run ∈ runs, ∀ p ∈ run.points,
      0 < p.timestampNs ∧ (isComplex p.value → p.value.Survives fl) := by
  have hpoints : (∀ q ∈ runPoints runs,
      0 < q.2.timestampNs ∧ (isComplex q.2.value → q.2.value.Survives fl)) ↔
      ∀ run ∈ runs, ∀ p ∈ run.points,
        0 < p.timestampNs ∧ (isComplex p.value → p.value.Survives fl) := by
    constructor
    · intro h run hrun p hp
      exact h (run, p) (mem_flatMap.mpr ⟨run, hrun, mem_map_of_mem hp⟩)
    · intro h q hq
      obtain ⟨run, hrun, hq⟩ := mem_flatMap.mp hq
      obtain ⟨p, hp, rfl⟩ := mem_map.mp hq
      exact h run hrun p hp
  rw [← hpoints, ← rows_read_iff]
  exact (and_iff_right (buildMetricBatch_eq text runs)).trans
    (and_iff_left (describeRuns_tiles runs))

end

def partFloats : Format.Floats (Option ℤ) :=
  ⟨Option.isSome, some, fun x => some (if x = some 7 then some 8 else x)⟩

def plainText : Text partFloats.Finite (Json partFloats.Finite) := ⟨id, some, fun _ => rfl⟩

namespace Sample

def api : LabelSet := ⟨[("service.name", "api")], by decide⟩

def counterAt (timestampNs : ℤ) : MetricRun (MetricValue (Option ℤ)) :=
  ⟨"requests", .sum, api,
    [⟨1, .double (some 7), .empty⟩, ⟨timestampNs, .int 2, LabelSet.empty.with "path" "/"⟩]⟩

def sizesOf (sum : Option ℤ) : MetricRun (MetricValue (Option ℤ)) :=
  ⟨"sizes", .histogram, api, [⟨5, .histogram ⟨2, sum, none, none, [some 3], [1, 1]⟩, .empty⟩]⟩

end Sample

open Sample in
theorem block_reads_back_two_runs : BlockReadsBack plainText [counterAt 5, sizesOf (some 4)] :=
  (block_reads_back_iff plainText _).mpr (by decide)

open Sample in
/-- A point at time zero is written and cannot be read, and the sum `7` of a histogram is read as
another one. -/
theorem point_at_zero_unreadable :
    (buildMetricBatch plainText [counterAt 0]).timestampNs = [1, 0] ∧
    (buildMetricBatch plainText [counterAt 0]).rowToPoint plainText 1 =
      .error (.validation "Data point timestamp must be greater than zero") ∧
    ((buildMetricBatch plainText [sizesOf (some 7)]).rowToPoint plainText 0).map
      (fun r => r.point.value) = .ok (.histogram ⟨2, some 8, none, none, [some 3], [1, 1]⟩) := by
  decide

end Parqtel.Storage
