import Parqtel.Core.WalRoundTrip
import Parqtel.Lib.Join
import Parqtel.Storage.RowCodec

/-!
# Where points come from, and whether they can be read again

A metric reaches its writer from an OTLP request (`decodeMetrics`, `decodeMetricsJson`) or from
the server spans of a batch (`deriveSpanMetrics`). It is logged as JSON and written into a block.
JSON has no form for a float that is not finite, and the text of a finite one may read back as
another; so a metric with such a float is lost or changed by a replay, and a histogram or summary
by its block. A request's points have positive timestamps, because `DataPoint::new` checks them;
derived points are built without it, and a row with another timestamp cannot be read either
(`accepted_points_readable_iff`).
-/

namespace Parqtel.Ingest

open Lib Lib.Json Storage Wal List Serde LabelSet
open Parqtel.Query (Build Eval InI64 i64 i64_of_in i64_debug_of_not)

variable {F T : Type}

/-! ## OTLP requests -/

abbrev Attributes := List (String × String)

inductive NumberValue (F : Type) where
  | asDouble (x : F)
  | asInt (i : ℤ)

structure NumberDataPoint (F : Type) where
  attributes : Attributes
  timeUnixNano : UInt64
  value : Option (NumberValue F)

structure HistogramDataPoint (F : Type) where
  attributes : Attributes
  timeUnixNano : UInt64
  count : ℕ
  sum : Option F
  bucketCounts : List ℕ
  explicitBounds : List F
  min : Option F
  max : Option F

structure SummaryDataPoint (F : Type) where
  attributes : Attributes
  timeUnixNano : UInt64
  count : ℕ
  sum : F
  quantileValues : List (F × F)

inductive MetricData (F : Type) where
  | gauge (points : List (NumberDataPoint F))
  | sum (points : List (NumberDataPoint F))
  | histogram (points : List (HistogramDataPoint F))
  | summary (points : List (SummaryDataPoint F))
  /-- An exponential histogram. -/
  | unsupported

structure ProtoMetric (F : Type) where
  name : String
  description : String
  unit : String
  data : Option (MetricData F)

structure ResourceMetrics (F : Type) where
  resource : Option Attributes
  scopeMetrics : List (List (ProtoMetric F))

def asI64 (n : UInt64) : ℤ := (n.toNat : ℤ).bmod (2 ^ 64)

variable {V : Type}

def newPoint (timestampNs : ℤ) (value : V) (labels : LabelSet) : Except Error (DataPoint V) :=
  if timestampNs ≤ 0 then .error (.validation "Data point timestamp must be greater than zero")
  else .ok ⟨timestampNs, value, labels⟩

def convertDataPoints {P : Type} (attributes : P → Attributes) (timeUnixNano : P → UInt64)
    (value : P → MetricValue F) (protos : List P) :
    Except Error (List (DataPoint (MetricValue F))) :=
  gather (fun proto => do
    let labels ← tryFromIter (attributes proto)
    let point ← newPoint (asI64 (timeUnixNano proto)) (value proto) labels
    return [point]) protos

def convertNumberDataPoints (zero : F) :
    List (NumberDataPoint F) → Except Error (List (DataPoint (MetricValue F))) :=
  convertDataPoints NumberDataPoint.attributes NumberDataPoint.timeUnixNano fun proto =>
    match proto.value with
    | some (.asDouble x) => .double x
    | some (.asInt i) => .int i
    | none => .double zero

def convertHistogramDataPoints (zero : F) :
    List (HistogramDataPoint F) → Except Error (List (DataPoint (MetricValue F))) :=
  convertDataPoints HistogramDataPoint.attributes HistogramDataPoint.timeUnixNano fun proto =>
    .histogram ⟨proto.count, proto.sum.getD zero, proto.min, proto.max, proto.explicitBounds,
      proto.bucketCounts⟩

def convertSummaryDataPoints :
    List (SummaryDataPoint F) → Except Error (List (DataPoint (MetricValue F))) :=
  convertDataPoints SummaryDataPoint.attributes SummaryDataPoint.timeUnixNano fun proto =>
    .summary ⟨proto.count, proto.sum, proto.quantileValues⟩

def validateProtoMetric (metric : ProtoMetric F) : Except Error Unit :=
  if metric.name = "" then .error (.validation "Metric name cannot be empty")
  else match metric.data with
    | none => .error (.validation s!"Metric {metric.name} has no data")
    | some _ => .ok ()

def convertData (zero : F) (proto : ProtoMetric F) :
    Except Error (MetricKind × List (DataPoint (MetricValue F))) :=
  match proto.data with
  | some (.gauge points) => (convertNumberDataPoints zero points).map (.gauge, ·)
  | some (.sum points) => (convertNumberDataPoints zero points).map (.sum, ·)
  | some (.histogram points) => (convertHistogramDataPoints zero points).map (.histogram, ·)
  | some (.summary points) => (convertSummaryDataPoints points).map (.summary, ·)
  | _ => .error (.validation s!"Unsupported metric kind for {proto.name}")

def convertMetric (zero : F) (proto : ProtoMetric F) (resourceAttributes : LabelSet) :
    Except Error (Metric (MetricValue F)) := do
  let (kind, dataPoints) ← convertData zero proto
  return ⟨proto.name, proto.description, proto.unit, kind, resourceAttributes, dataPoints⟩

def resourceLabels : Option Attributes → Except Error LabelSet
  | some attributes => tryFromIter attributes
  | none => .ok .empty

def decodeMetrics (zero : F) (request : List (ResourceMetrics F)) :
    Except Error (List (Metric (MetricValue F))) :=
  gather (fun rm => do
    let resourceAttributes ← resourceLabels rm.resource
    gather (fun metrics => gather (fun proto => do
      validateProtoMetric proto
      return [← convertMetric zero proto resourceAttributes]) metrics) rm.scopeMetrics) request

/-! ## Requests in JSON -/

structure NumberParsers (F : Type) where
  i64 : String → Except String ℤ
  u64 : String → Option ℕ
  f64 : String → Option F

section
variable {fl : Format.Floats F} (parsers : NumberParsers F) (zero : F)

def eitherOf (j : Json fl.Finite) (snake camel : String) : Option (Json fl.Finite) :=
  (j.get snake).or (j.get camel)

def jsonAttrsToLabels (attrs : Option (Json fl.Finite)) : Except Error LabelSet :=
  tryFromIter (((attrs.bind asArray).getD []).map fun attr =>
    let text (v : Json fl.Finite) := ((eitherOf v "string_value" "stringValue").bind asStr).or
      ((eitherOf v "int_value" "intValue").bind asStr)
    (((attr.get "key").bind asStr).getD "", ((attr.get "value").bind text).getD ""))

def parseJsonTimestamp : Option (Json fl.Finite) → Except Error ℤ
  | none => .ok 0
  | some (.str s) => (parsers.i64 s).mapError .validation
  | some (.int n) => if n < 2 ^ 63 then .ok n else .error (.validation "Invalid timestamp")
  | some _ => .error (.validation "Invalid timestamp")

def numF64 : Json fl.Finite → Option F
  | .float x => some x.1
  | .int n => some (fl.ofInt n)
  | .str s => parsers.f64 s
  | _ => none

def numU64 : Json fl.Finite → Option ℕ
  | .int n => if 0 ≤ n then some n.toNat else none
  | .str s => parsers.u64 s
  | _ => none

def jsonHistValue (dp : Json fl.Finite) : MetricValue F :=
  let counts := (((eitherOf dp "bucket_counts" "bucketCounts").bind asArray).getD []).map fun c =>
    (numU64 parsers c).getD 0
  let bounds := ((eitherOf dp "explicit_bounds" "explicitBounds").bind asArray).getD []
  -- the sum of the counts wraps in a release build
  .histogram ⟨((dp.get "count").bind (numU64 parsers)).getD (counts.sum % 2 ^ 64),
    ((dp.get "sum").bind (numF64 parsers)).getD zero, (dp.get "min").bind (numF64 parsers),
    (dp.get "max").bind (numF64 parsers), bounds.filterMap (numF64 parsers), counts⟩

def jsonNumber (dp : Json fl.Finite) : MetricValue F :=
  let source := (dp.get "value").getD dp
  match eitherOf source "as_double" "asDouble", eitherOf source "as_int" "asInt" with
  | some (.float x), _ => .double x.1
  | some (.int n), _ => .double (fl.ofInt n)
  | some _, _ => .double zero
  | none, some (.int n) => .int (if n < 2 ^ 63 then n else 0)
  | none, some (.str s) => .int ((parsers.i64 s).toOption.getD 0)
  | none, some _ => .int 0
  | none, none => .double zero

def jsonDpToPoint (dp : Json fl.Finite) : Except Error (DataPoint (MetricValue F)) := do
  let ts ← parseJsonTimestamp parsers (eitherOf dp "time_unix_nano" "timeUnixNano")
  let value := if (eitherOf dp "bucket_counts" "bucketCounts").isSome
    then jsonHistValue parsers zero dp else jsonNumber parsers zero dp
  let labels ← jsonAttrsToLabels (dp.get "attributes")
  newPoint ts value labels

def jsonMetric (resource : LabelSet) (m : Json fl.Finite) :
    Except Error (List (Metric (MetricValue F))) :=
  let name := ((m.get "name").bind asStr).getD ""
  if name = "" then .ok [] else
  let source := (m.get "data").getD m
  let kinds : List (String × MetricKind) :=
    [("gauge", .gauge), ("sum", .sum), ("histogram", .histogram), ("summary", .summary)]
  -- the first kind that is there decides
  match kinds.findSome? fun k => (source.get k.1).map fun body => (k.2, body) with
  | none => .ok []
  | some (kind, body) =>
    match (eitherOf body "data_points" "dataPoints").bind asArray with
    | none => .ok []
    | some dps => do
      let points ← gather (fun dp => do return [← jsonDpToPoint parsers zero dp]) dps
      return [⟨name, "", "", kind, resource, points⟩]

def decodeMetricsJson (json : Json fl.Finite) : Except Error (List (Metric (MetricValue F))) :=
  match (eitherOf json "resource_metrics" "resourceMetrics").bind asArray with
  | none => .error (.validation "Missing resource_metrics")
  | some resourceMetrics => gather (fun rm => do
    let resource ← jsonAttrsToLabels ((rm.get "resource").bind fun r => r.get "attributes")
    gather (fun sm => gather (jsonMetric parsers zero resource)
      (((sm.get "metrics").bind asArray).getD []))
      (((eitherOf rm "scope_metrics" "scopeMetrics").bind asArray).getD [])) resourceMetrics

end

/-! ## Timestamps of requests -/

theorem newPoint_dated {timestampNs : ℤ} {value : V} {labels : LabelSet} {p : DataPoint V}
    (h : newPoint timestampNs value labels = .ok p) : 0 < p.timestampNs := by
  unfold newPoint at h
  split_ifs at h with hts
  cases h
  exact not_le.mp hts

def Dated (points : List (DataPoint V)) : Prop := ∀ p ∈ points, 0 < p.timestampNs

theorem convertDataPoints_dated {P : Type} {attributes : P → Attributes}
    {timeUnixNano : P → UInt64} {value : P → MetricValue F} {protos : List P}
    {points : List (DataPoint (MetricValue F))}
    (h : convertDataPoints attributes timeUnixNano value protos = .ok points) : Dated points := by
  refine gather_forall h fun proto _ l hl p hp => ?_
  obtain ⟨labels, -, hl⟩ := bind_eq_ok.mp hl
  obtain ⟨q, hq, hl⟩ := bind_eq_ok.mp hl
  cases hl
  rw [mem_singleton.mp hp]
  exact newPoint_dated hq

theorem convertMetric_dated {zero : F} {proto : ProtoMetric F} {resource : LabelSet}
    {m : Metric (MetricValue F)} (h : convertMetric zero proto resource = .ok m) :
    Dated m.dataPoints := by
  obtain ⟨⟨kind, points⟩, hpoints, h⟩ := bind_eq_ok.mp h
  cases h
  show Dated points
  have hdata : ∀ {x : Except Error (List (DataPoint (MetricValue F)))} {k : MetricKind},
      x.map (k, ·) = .ok (kind, points) → x = .ok points := by
    intro x k hx
    cases x <;> cases hx
    rfl
  unfold convertData at hpoints
  split at hpoints
  case h_5 => cases hpoints
  all_goals exact convertDataPoints_dated (hdata hpoints)

variable {metrics : List (Metric (MetricValue F))}

/-- **The points of a request have positive timestamps.** -/
theorem decodeMetrics_dated {zero : F} {request : List (ResourceMetrics F)}
    (h : decodeMetrics zero request = .ok metrics) :
    ∀ m ∈ metrics, Dated m.dataPoints := by
  refine gather_forall h fun rm _ l hl => ?_
  obtain ⟨resource, -, hl⟩ := bind_eq_ok.mp hl
  refine gather_forall hl fun scope _ l hl => gather_forall hl fun proto _ l hl m hm => ?_
  obtain ⟨-, -, hl⟩ := bind_eq_ok.mp hl
  obtain ⟨m', hm', hl⟩ := bind_eq_ok.mp hl
  cases hl
  rw [mem_singleton.mp hm]
  exact convertMetric_dated hm'

theorem decodeMetricsJson_dated {fl : Format.Floats F} {parsers : NumberParsers F} {zero : F}
    {json : Json fl.Finite} (h : decodeMetricsJson parsers zero json = .ok metrics) :
    ∀ m ∈ metrics, Dated m.dataPoints := by
  unfold decodeMetricsJson at h
  split at h
  · cases h
  · refine gather_forall h fun rm _ l hl => ?_
    obtain ⟨resource, -, hl⟩ := bind_eq_ok.mp hl
    refine gather_forall hl fun sm _ l hl => gather_forall hl fun m _ l hl => ?_
    unfold jsonMetric at hl
    dsimp only at hl
    split_ifs at hl
    · cases hl
      simp
    · split at hl
      · cases hl
        simp
      · split at hl
        · cases hl
          simp
        · obtain ⟨points, hpoints, hl⟩ := bind_eq_ok.mp hl
          cases hl
          refine forall_mem_singleton.mpr (gather_forall hpoints fun dp _ l hl p hp => ?_)
          obtain ⟨q, hq, hl⟩ := bind_eq_ok.mp hl
          cases hl
          rw [mem_singleton.mp hp]
          obtain ⟨ts, -, hq⟩ := bind_eq_ok.mp hq
          obtain ⟨labels, -, hq⟩ := bind_eq_ok.mp hq
          exact newPoint_dated hq

def Decoded (fl : Format.Floats F) (metrics : List (Metric (MetricValue F))) : Prop :=
  (∃ zero request, decodeMetrics zero request = .ok metrics) ∨
    ∃ parsers zero, ∃ json : Json fl.Finite, decodeMetricsJson parsers zero json = .ok metrics

/-! ## The span bridge -/

def requestsMetric : String := "traces_service_requests_total"

def errorsMetric : String := "traces_service_errors_total"

def durationMetric : String := "traces_service_duration_ms"

def serverKind : ℤ := 2

structure BridgeFloats (fl : Format.Floats F) where
  zero : F
  one : F
  /-- `duration_ns as f64 / 1_000_000.0`. -/
  millis : ℤ → F
  survives_zero : fl.Survives zero
  survives_one : fl.Survives one

/-- What is derived from one span. -/
structure SpanPoint where
  service : String
  operation : String
  timestampNs : ℤ
  isError : Bool
  durationNs : ℤ
  labels : LabelSet

def spanPoint (build : Build) (span : Span) : Eval (List SpanPoint) := do
  let service := (span.attributes.get "service.name").getD "unknown"
  let duration ← durationNs build span
  match tryFromIter
      [("service", service), ("operation", span.name), ("service.name", service)] with
  | .error _ => return []
  | .ok labels =>
    return [⟨service, span.name, span.startTimeNs, span.statusCode = 2, duration, labels⟩]

def byOperation (points : List SpanPoint) : List SpanPoint :=
  points.insertionSort fun a b => toLex (a.service, a.operation) ≤ toLex (b.service, b.operation)

theorem byOperation_perm (points : List SpanPoint) : (byOperation points).Perm points :=
  perm_insertionSort _ points

def serverSpans (spans : List Span) : List Span := spans.filter fun span => span.kind = serverKind

def spanPoints (build : Build) (spans : List Span) : Eval (List SpanPoint) := do
  return byOperation (← gather (spanPoint build) (serverSpans spans))

theorem bridge_labels (service operation : String) : ∃ labels, tryFromIter
    [("service", service), ("operation", operation), ("service.name", service)] = .ok labels ∧
      labels.get "service" = some service ∧ labels.get "operation" = some operation := by
  have hkeys : ([("service", service), ("operation", operation), ("service.name", service)].map
      Prod.fst).Nodup := by
    simp
  obtain ⟨labels, hlabels, hmem⟩ := tryFromIter_of_nodup hkeys
  exact ⟨labels, hlabels, get_eq_some.mpr (by simp [hmem]), get_eq_some.mpr (by simp [hmem])⟩

def pointOf (span : Span) (durationNs : ℤ) : SpanPoint :=
  let service := (span.attributes.get "service.name").getD "unknown"
  ⟨service, span.name, span.startTimeNs, span.statusCode = 2, durationNs, (tryFromIter
    [("service", service), ("operation", span.name), ("service.name", service)]).toOption.getD
      .empty⟩

def exactDuration (span : Span) : ℤ := span.endTimeNs - span.startTimeNs

theorem spanPoint_eq (build : Build) (span : Span) : spanPoint build span =
    (i64 build (exactDuration span)).map fun duration => [pointOf span duration] := by
  obtain ⟨labels, hlabels, -⟩ :=
    bridge_labels ((span.attributes.get "service.name").getD "unknown") span.name
  simp only [spanPoint, durationNs, exactDuration, pointOf, hlabels]
  cases i64 build (span.endTimeNs - span.startTimeNs) <;> rfl

theorem spanPoints_debug {spans : List Span} {points : List SpanPoint} :
    spanPoints .debug spans = .ok points ↔
      (∀ span ∈ serverSpans spans, InI64 (exactDuration span)) ∧
      points = byOperation ((serverSpans spans).map fun span =>
        pointOf span (exactDuration span)) := by
  have hall (h : ∀ span ∈ serverSpans spans, InI64 (exactDuration span)) :
      spanPoints .debug spans =
        .ok (byOperation
          ((serverSpans spans).map fun span => pointOf span (exactDuration span))) := by
    have hgather : gather (spanPoint .debug) (serverSpans spans) =
        .ok ((serverSpans spans).flatMap fun span => [pointOf span (exactDuration span)]) :=
      gather_ok fun span hspan => by
        rw [spanPoint_eq, i64_of_in (h span hspan)]
        rfl
    rw [← map_eq_flatMap] at hgather
    rw [spanPoints, hgather]
    rfl
  constructor
  · intro hpoints
    have hfits : ∀ span ∈ serverSpans spans, InI64 (exactDuration span) := by
      intro span hspan
      by_contra hnot
      obtain ⟨unsorted, hgather, -⟩ := bind_eq_ok.mp hpoints
      refine gather_ne_ok hspan (e := .overflow) ?_ hgather
      rw [spanPoint_eq, i64_debug_of_not hnot]
      rfl
    exact ⟨hfits, Except.ok.inj (hpoints.symm.trans (hall hfits))⟩
  · rintro ⟨hfits, rfl⟩
    exact hall hfits

section
variable {fl : Format.Floats F} (fs : BridgeFloats fl)

def deriveSpanMetrics (build : Build) (spans : List Span) :
    Eval (List (Metric (MetricValue F))) := do
  let points ← spanPoints build spans
  let metric (name unit : String) (value : SpanPoint → F) : Metric (MetricValue F) :=
    ⟨name, "Derived from trace spans by the span-metrics RED bridge", unit, .gauge, .empty,
      points.map fun p => ⟨p.timestampNs, .double (value p), p.labels⟩⟩
  return [metric requestsMetric "1" fun _ => fs.one,
    metric errorsMetric "1" fun p => if p.isError then fs.one else fs.zero,
    metric durationMetric "ms" fun p => fs.millis p.durationNs].filter fun m => m.dataPoints ≠ []

theorem deriveSpanMetrics_survive {build : Build} {spans : List Span} {points : List SpanPoint}
    (hpoints : spanPoints build spans = .ok points) :
    ∃ metrics, deriveSpanMetrics fs build spans = .ok metrics ∧
      ((∀ m ∈ metrics, (∀ p ∈ m.dataPoints, p.value.Survives fl) ∧ Dated m.dataPoints) ↔
        ∀ p ∈ points, fl.Survives (fs.millis p.durationNs) ∧ 0 < p.timestampNs) := by
  rw [deriveSpanMetrics, hpoints]
  refine ⟨_, rfl, ?_⟩
  have herror : ∀ p : SpanPoint, fl.Survives (if p.isError then fs.one else fs.zero) := by
    intro p
    split_ifs
    · exact fs.survives_one
    · exact fs.survives_zero
  cases points with
  | nil => simp
  | cons p ps => simp [Dated, MetricValue.Survives, fs.survives_one, herror]; grind

/-! ## Reading again -/

variable (text : Text fl.Finite T)

def encodeRecord (m : Metric (MetricValue F)) : T := text.print ((metric fl).write m)

/-- What a restart makes of a payload: JSON first, then a metric. -/
def replayRecord (payload : T) : Option (Metric (MetricValue F)) :=
  (text.parse payload).bind (metric fl).read

/-- The metric comes back from its WAL record, and its points from the rows of any block that
they are written into. -/
def Readable (m : Metric (MetricValue F)) : Prop :=
  replayRecord text (encodeRecord text m) = some m ∧
  ∀ runs row run p, (runPoints runs)[row]? = some (run, p) → run.name = m.name →
    run.kind = m.kind → run.resource = m.resourceAttributes → p ∈ m.dataPoints →
      (buildMetricBatch text runs).rowToPoint text row =
        .ok ⟨m.name, m.kind, m.resourceAttributes, p⟩

theorem replayRecord_iff (m : Metric (MetricValue F)) :
    replayRecord text (encodeRecord text m) = some m ↔ ∀ p ∈ m.dataPoints, p.value.Survives fl := by
  rw [replayRecord, encodeRecord, text.parse_print, Option.bind_some]
  exact metric_keeps

/-- **A metric stays readable exactly if** its floats survive and its timestamps are positive. -/
theorem readable_iff (m : Metric (MetricValue F)) :
    Readable text m ↔ (∀ p ∈ m.dataPoints, p.value.Survives fl) ∧ Dated m.dataPoints := by
  rw [Readable, replayRecord_iff]
  refine and_congr_right fun hsurvives => ⟨fun hrows p hp => ?_, fun hdated => ?_⟩
  · -- the block of this metric alone
    obtain ⟨row, hrow, rfl⟩ := mem_iff_getElem.mp hp
    have hpoint : (runPoints [MetricRun.ofMetric m])[row]? =
        some (MetricRun.ofMetric m, m.dataPoints[row]) := by
      simp [runPoints, MetricRun.ofMetric, hrow]
    have hread := hrows _ row _ _ hpoint rfl rfl rfl hp
    rw [rowToPoint_getElem text hpoint] at hread
    exact ((read_cells_iff text _ _).mp hread).1
  · intro runs row run p hpoint hname hkind hresource hp
    rw [rowToPoint_getElem text hpoint, ← hname, ← hkind, ← hresource]
    exact (read_cells_iff text run p).mpr ⟨hdated p hp, fun _ => hsurvives p hp⟩

def replayAllWals (c : Codec (Json fl.Finite)) (d : Segments) (commit : ℕ) :
    List (Metric (MetricValue F)) :=
  (replay c d commit).values.filterMap (metric fl).read

/-- **A log gives back the metrics behind the commit point exactly if** their floats survive. -/
theorem replayAllWals_run {c : Codec (Json fl.Finite)} {limit : ℕ} {s : LogState (Json fl.Finite)}
    (h : Run (logStep c) (fitOk c) (.opened limit) s) {pre post : List (Batch (Json fl.Finite))}
    {b : Batch (Json fl.Finite)} (hs : s.batches = pre ++ b :: post) (n : ℕ)
    (hlogged : ((post.flatMap Batch.records).filter (Written.survives s.log.segments n)).map
      Written.value = metrics.map (metric fl).write) :
    replayAllWals c (s.log.segments.cutLast n) b.pos = metrics ↔
      ∀ m ∈ metrics, ∀ p ∈ m.dataPoints, p.value.Survives fl := by
  have hall : metrics.filterMap ((metric fl).read ∘ (metric fl).write) =
      metrics.filterMap some ↔ _ := filterMap_eq_filterMap_iff nofun
  rw [filterMap_some] at hall
  rw [replayAllWals, (RoundTripInv.run h).replay_after hs n, hlogged, filterMap_map, hall]
  exact forall₂_congr fun m _ => metric_keeps

def DerivedReadable (spans : List Span) : Prop :=
  ∃ metrics, deriveSpanMetrics fs .debug spans = .ok metrics ∧ ∀ m ∈ metrics, Readable text m

theorem derived_readable_iff (spans : List Span) :
    DerivedReadable fs text spans ↔ ∀ span ∈ spans, span.kind = serverKind →
      0 < span.startTimeNs ∧ InI64 (exactDuration span) ∧
        fl.Survives (fs.millis (exactDuration span)) := by
  have hderived : DerivedReadable fs text spans ↔ ∃ points, spanPoints .debug spans = .ok points ∧
      ∀ p ∈ points, fl.Survives (fs.millis p.durationNs) ∧ 0 < p.timestampNs := by
    simp only [DerivedReadable, readable_iff]
    constructor
    · rintro ⟨metrics, hderive, hread⟩
      obtain ⟨points, hpoints, -⟩ := bind_eq_ok.mp hderive
      obtain ⟨metrics', hderive', hiff⟩ := deriveSpanMetrics_survive fs hpoints
      cases hderive.symm.trans hderive'
      exact ⟨points, hpoints, hiff.mp hread⟩
    · rintro ⟨points, hpoints, hall⟩
      obtain ⟨metrics, hderive, hiff⟩ := deriveSpanMetrics_survive fs hpoints
      exact ⟨metrics, hderive, hiff.mpr hall⟩
  rw [hderived]
  simp only [spanPoints_debug, and_assoc, exists_and_left, exists_eq_left,
    (byOperation_perm _).mem_iff, forall_mem_map, pointOf]
  simp only [serverSpans, mem_filter, decide_eq_true_eq]
  grind

/-- **What is accepted stays readable exactly if** every float of a request's points survives its
JSON text, and the server spans of a batch start after time zero and have a duration that fits
and survives. Whole logs give back their metrics under the same condition. -/
theorem accepted_points_readable_iff :
    (∀ metrics, Decoded fl metrics → ((∀ m ∈ metrics, Readable text m) ↔
      ∀ m ∈ metrics, ∀ p ∈ m.dataPoints, p.value.Survives fl)) ∧
    (∀ spans, DerivedReadable fs text spans ↔ ∀ span ∈ spans, span.kind = serverKind →
      0 < span.startTimeNs ∧ InI64 (span.endTimeNs - span.startTimeNs) ∧
        fl.Survives (fs.millis (span.endTimeNs - span.startTimeNs))) ∧
    ∀ (c : Codec (Json fl.Finite)) limit s, Run (logStep c) (fitOk c) (.opened limit) s →
      ∀ pre b post n (metrics : List (Metric (MetricValue F))), s.batches = pre ++ b :: post →
        ((post.flatMap Batch.records).filter (Written.survives s.log.segments n)).map
          Written.value = metrics.map (metric fl).write →
        (replayAllWals c (s.log.segments.cutLast n) b.pos = metrics ↔
          ∀ m ∈ metrics, ∀ p ∈ m.dataPoints, p.value.Survives fl) := by
  refine ⟨fun metrics h => forall₂_congr fun m hm => ?_, derived_readable_iff fs text,
    fun c limit s h pre b post n metrics hs hlogged => replayAllWals_run h hs n hlogged⟩
  have hdated : ∀ m ∈ metrics, Dated m.dataPoints := by
    rcases h with ⟨zero, request, h⟩ | ⟨parsers, zero, json, h⟩
    · exact decodeMetrics_dated h
    · exact decodeMetricsJson_dated h
  rw [readable_iff]
  exact and_iff_left (hdated m hm)

end

def partBridge : BridgeFloats partFloats := ⟨some 0, some 1, some, by decide, by decide⟩

namespace Sample

def gauge (value : Option ℤ) : List (ResourceMetrics (Option ℤ)) :=
  [⟨none, [[⟨"load", "", "", some (.gauge [⟨[("host", "a")], 5, some (.asDouble value)⟩,
    ⟨[("host", "b")], 6, some (.asInt 2)⟩])⟩]]⟩]

def sizes (sum : Option ℤ) : List (ResourceMetrics (Option ℤ)) :=
  [⟨none, [[⟨"size", "", "", some (.histogram [⟨[], 5, 1, some sum, [1], [], none, none⟩])⟩]]⟩]

end Sample

open Sample in
theorem accepted_points_readable_two_metrics :
    ∃ metrics, decodeMetrics (some 0) (gauge (some 3) ++ sizes (some 4)) = .ok metrics ∧
      metrics.length = 2 ∧ ∀ m ∈ metrics, Readable plainText m := by
  have hdecode : decodeMetrics (some 0) (gauge (some 3) ++ sizes (some 4)) =
      .ok [⟨"load", "", "", .gauge, .empty, [⟨5, .double (some 3), LabelSet.empty.with "host" "a"⟩,
        ⟨6, .int 2, LabelSet.empty.with "host" "b"⟩]⟩,
        ⟨"size", "", "", .histogram, .empty,
          [⟨5, .histogram ⟨1, some 4, none, none, [], [1]⟩, .empty⟩]⟩] := by
    decide +kernel
  refine ⟨_, hdecode, rfl, ?_⟩
  refine ((accepted_points_readable_iff partBridge plainText).1 _ (.inl ⟨_, _, hdecode⟩)).mpr ?_
  decide

def Sample.firstRow (m : Metric (MetricValue (Option ℤ))) : Except Error String :=
  ((buildMetricBatch plainText [.ofMetric m]).rowToPoint plainText 0).map MetricRow.name

open Sample in
/-- A gauge that is not finite is lost with its WAL record, and one whose text reads back as
another float is changed. A histogram whose sum is not finite
cannot be read from its block. The points of a span that starts at time zero cannot either. -/
theorem accepted_points_lost :
    (decodeMetrics (some 0) (gauge none)).map (List.map fun m =>
      (replayRecord plainText (encodeRecord plainText m)).isSome) = .ok [false] ∧
    (decodeMetrics (some 0) (gauge (some 7))).map (List.map fun m =>
      (replayRecord plainText (encodeRecord plainText m)).map fun m =>
        m.dataPoints.map DataPoint.value) = .ok [some [.double (some 8), .int 2]] ∧
    (decodeMetrics (some 0) (sizes none)).map (List.map firstRow) = .ok [.error .serde] ∧
    (deriveSpanMetrics partBridge .debug
      [{ Storage.Sample.spanOfKind 2 with startTimeNs := 0 }]).map
      (List.map firstRow) = .ok (List.replicate 3
        (.error (.validation "Data point timestamp must be greater than zero"))) := by
  decide

end Parqtel.Ingest
