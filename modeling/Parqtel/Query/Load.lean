import Parqtel.Query.Eval
import Parqtel.Storage.LogStore

/-!
# Executing an expression

`executeAst` collects the selectors of an expression, loads the points of each from the store
(`load`), evaluates the expression at every step and folds the steps into output series. A
selector is loaded on its own, with its matchers and from one start of the scan; what several
selectors load for one metric is put together in one list of series, which the evaluator then
looks up by the metric's name.

The store is what the scans of blocks and buffer return, in their order. The points of a series
are found by the fingerprint of their labels, and kept under the labels of the first.
-/

namespace Parqtel.Query

open Lib Storage

/-! ## Stored points -/

/-- The value of a stored point, as far as a query reads it. -/
inductive MetricValue (F : Type) where
  | double (x : F)
  | int (i : ℤ)
  | histogram (count : ℕ) (sum : F) (boundaries : List F) (counts : List ℕ)
  | summary (sum : F)
deriving DecidableEq

abbrev Point (F : Type) := DataPoint (MetricValue F)

abbrev Store (F : Type) := String → List (Point F)

/-- A selector of the expression, with the name of its metric. -/
abbrev MetricRef := String × List LabelMatcher

section
variable {F : Type}

def Store.scan (store : Store F) (times : ℤ → Bool) (ref : MetricRef) : List (Point F) :=
  (store ref.1).filter fun dp =>
    times dp.timestampNs && evaluateMatchers ref.2 dp.labels ref.1

def vToF64 (p : Platform F) : MetricValue F → F
  | .double x => x
  | .int i => p.ofInt i
  | .histogram _ sum _ _ => sum
  | .summary sum => sum

def numericPoint (p : Platform F) (dp : Point F) : Option (ℤ × F) :=
  match dp.value with
  | .histogram .. => none
  | v => some (dp.timestampNs, vToF64 p v)

def histPoint (dp : Point F) : Option (HistSample F) :=
  match dp.value with
  | .histogram count sum boundaries counts =>
    some ⟨dp.timestampNs, count, sum, boundaries, counts⟩
  | _ => none

/-! ## Series -/

structure BuiltSeries (F : Type) where
  numeric : List (LabelSet × List (ℤ × F))
  histograms : List (LabelSet × List (HistSample F))
  totalSeries : ℕ
  volume : List ℕ

def seriesGroups (raw : List (Point F)) : List (ℕ × List (Point F)) :=
  sortByKey (fun g => (g.1 : ℤ)) (groupOn (fun dp => dp.labels.fingerprint) id raw)

def firstLabels (points : List (Point F)) : LabelSet :=
  (points.head?.map DataPoint.labels).getD .empty

def channel {α : Type} (pick : Point F → Option α) (maxSamples : ℕ) (points : List (Point F)) :
    List α :=
  ((sortByKey DataPoint.timestampNs points).take maxSamples).filterMap pick

/-- The series of one channel; a series without a point in it is left out. -/
def channelSeries {α : Type} (pick : Point F → Option α) (maxSamples : ℕ)
    (groups : List (ℕ × List (Point F))) : List (LabelSet × List α) :=
  groups.filterMap fun g =>
    match channel pick maxSamples g.2 with
    | [] => none
    | points => some (firstLabels g.2, points)

/-- The buckets of the visible timeline. Points before it only feed the windows. -/
def volumeOf (startNs endNs : ℤ) (times : List ℤ) : List ℕ :=
  (LogScope.mk startNs endNs 0 false).volume (times.filter fun t => startNs ≤ t)

def buildSeriesData (p : Platform F) (startNs endNs : ℤ) (maxSeries maxSamples : ℕ)
    (raw : List (Point F)) : BuiltSeries F :=
  let groups := seriesGroups raw
  { numeric := channelSeries (numericPoint p) maxSamples (groups.take maxSeries)
    histograms := channelSeries histPoint maxSamples (groups.take maxSeries)
    totalSeries := groups.length
    volume := volumeOf startNs endNs (groups.flatMap fun g => g.2.map DataPoint.timestampNs) }

/-! ## Loading -/

def extendEntry {β : Type} (name : String) (xs : List β) (data : List (String × List β)) :
    List (String × List β) :=
  if name ∈ data.map Prod.fst then
    data.map fun e => if e.1 = name then (e.1, e.2 ++ xs) else e
  else data ++ [(name, xs)]

structure Loaded (F : Type) where
  data : SeriesData F
  histData : HistData F
  totalSeries : ℕ
  volumeSummary : List ℕ

structure QueryExecutor where
  lookbackNs : ℤ
  maxSeries : ℕ
  maxSamplesPerSeries : ℕ

namespace QueryExecutor

variable (exec : QueryExecutor) (p : Platform F) (store : Store F) (times : ℤ → Bool)
  (startNs endNs : ℤ)

def buildRef (ref : MetricRef) : BuiltSeries F :=
  buildSeriesData p startNs endNs exec.maxSeries exec.maxSamplesPerSeries (store.scan times ref)

def loadRef (loaded : Loaded F) (ref : MetricRef) : Loaded F :=
  let built := exec.buildRef p store times startNs endNs ref
  { data := extendEntry ref.1 built.numeric loaded.data
    histData := extendEntry ref.1 built.histograms loaded.histData
    totalSeries := loaded.totalSeries + built.totalSeries
    volumeSummary := List.zipWith (· + ·) loaded.volumeSummary built.volume }

def load (refs : List MetricRef) : Loaded F :=
  refs.foldl (exec.loadRef p store times startNs endNs) ⟨[], [], 0, List.replicate 60 0⟩

def evaluator (loaded : Loaded F) : Evaluator F :=
  ⟨loaded.data, some loaded.histData, exec.lookbackNs⟩

end QueryExecutor

/-! ## The selectors of an expression -/

mutual

def collectMetricRefs : Expr F → List MetricRef
  | .selector sel => (sel.metricName.map fun name => (name, sel.matchers)).toList
  | .paren inner => collectMetricRefs inner
  | .range _ expr => collectMetricRefs expr
  | .call _ args => collectArgRefs args
  | .aggregation _ _ param expr => collectParamRefs param ++ collectMetricRefs expr
  | .binary _ lhs rhs => collectMetricRefs lhs ++ collectMetricRefs rhs
  | .number _ => []
  | .str _ => []

def collectArgRefs : List (Expr F) → List MetricRef
  | [] => []
  | e :: es => collectMetricRefs e ++ collectArgRefs es

def collectParamRefs : Option (Expr F) → List MetricRef
  | none => []
  | some e => collectMetricRefs e

end

mutual

def maxRangeNs : Expr F → ℤ
  | .range head expr => max head.rangeNs (maxRangeNs expr)
  | .paren inner => maxRangeNs inner
  | .call _ args => (maxArgRange args).getD 0
  | .aggregation _ _ param expr => max (maxParamRange param) (maxRangeNs expr)
  | .binary _ lhs rhs => max (maxRangeNs lhs) (maxRangeNs rhs)
  | .number _ => 0
  | .str _ => 0
  | .selector _ => 0

def maxArgRange : List (Expr F) → Option ℤ
  | [] => none
  | e :: es => some ((maxArgRange es).elim (maxRangeNs e) (max (maxRangeNs e)))

def maxParamRange : Option (Expr F) → ℤ
  | none => 0
  | some e => maxRangeNs e

end

/-- The first time that is scanned; the subtraction saturates. -/
def scanStart (e : Expr F) (startNs : ℤ) : ℤ :=
  max (startNs - max (maxRangeNs e) 60000000000) (-2 ^ 63)

/-! ## Output series -/

structure TimeSeries (F : Type) where
  labels : LabelSet
  samples : List (Sample F)
deriving DecidableEq

def stripMetricName (labels : LabelSet) : LabelSet := labels.filtered fun k _ => k ≠ "__name__"

def foldSteps (steps : List (ℤ × InstantVector F)) : List (TimeSeries F) :=
  let rows := steps.flatMap fun step => step.2.map fun s => (s.1, Sample.mk step.1 s.2)
  let groups := groupOn (fun row => row.1.fingerprint) id rows
  (sortByKey (fun g => (g.1 : ℤ)) groups).map fun g =>
    ⟨stripMetricName ((g.2.head?.map Prod.fst).getD .empty), g.2.map Prod.snd⟩

structure QueryResult (F : Type) where
  series : List (TimeSeries F)
  totalSeriesCount : ℕ
  volumeSummary : List ℕ

namespace QueryExecutor

variable (exec : QueryExecutor) (p : Platform F) (build : Build) (store : Store F)

def evaluateStepsToSeries (ev : Evaluator F) (e : Expr F) (startNs endNs step : ℤ) :
    Eval (List (TimeSeries F)) := do
  return foldSteps (← evalSteps p build ev e startNs endNs step)

def executeOver (times : ℤ → Bool) (e : Expr F) (startNs endNs : ℤ) (stepNs : Option ℤ) :
    Eval (QueryResult F) := do
  let span ← i64 build (endNs - startNs)
  let loaded := exec.load p store times startNs endNs (collectMetricRefs e)
  let series ← evaluateStepsToSeries p build (exec.evaluator loaded) e startNs endNs
    (stepNs.getD (max span 1))
  return ⟨series, loaded.totalSeries, loaded.volumeSummary⟩

def executeAst (e : Expr F) (startNs endNs : ℤ) : Option ℤ → Eval (QueryResult F) :=
  exec.executeOver p build store (inWindow (scanStart e startNs) endNs) e startNs endNs

end QueryExecutor

end

end Parqtel.Query
