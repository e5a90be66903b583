import Parqtel.Models

/-!
# The columns of a block

A row of a metric block holds a data point and its metric's identity in columns, a row of a log
block the fields of a record. Some resource attributes have columns of their own
(`CorrelationLabels`); the other label sets are kept as text.
-/

namespace Parqtel.Storage

variable {V : Type*}

/-! ## Resource attributes with a column -/

structure CorrelationLabels where
  serviceName : Option String
  serviceVersion : Option String
  k8sNamespace : Option String
  k8sPodName : Option String
  k8sPodUid : Option String
  k8sContainerName : Option String
  k8sNodeName : Option String
deriving DecidableEq, Repr

def correlationKeys : List String :=
  ["service.name", "service.version", "k8s.namespace.name", "k8s.pod.name", "k8s.pod.uid",
    "k8s.container.name", "k8s.node.name"]

def extractCorrelationLabels (labels : LabelSet) : LabelSet × CorrelationLabels :=
  (labels.filtered fun key _ => key ∉ correlationKeys,
    { serviceName := labels.get "service.name"
      serviceVersion := labels.get "service.version"
      k8sNamespace := labels.get "k8s.namespace.name"
      k8sPodName := labels.get "k8s.pod.name"
      k8sPodUid := labels.get "k8s.pod.uid"
      k8sContainerName := labels.get "k8s.container.name"
      k8sNodeName := labels.get "k8s.node.name" })

def mergeValue (labels : LabelSet) (key : String) : Option String → LabelSet
  | none => labels
  | some value => labels.with key value

def injectCorrelation (labels : LabelSet) (c : CorrelationLabels) : LabelSet :=
  let labels := mergeValue labels "service.name" c.serviceName
  let labels := mergeValue labels "service.version" c.serviceVersion
  let labels := mergeValue labels "k8s.namespace.name" c.k8sNamespace
  let labels := mergeValue labels "k8s.pod.name" c.k8sPodName
  let labels := mergeValue labels "k8s.pod.uid" c.k8sPodUid
  let labels := mergeValue labels "k8s.container.name" c.k8sContainerName
  mergeValue labels "k8s.node.name" c.k8sNodeName

theorem get_mergeValue (labels : LabelSet) (key : String) (value : Option String) (k : String) :
    (mergeValue labels key value).get k = if k = key then value.or (labels.get k) else
      labels.get k := by
  cases value with
  | none => simp [mergeValue]
  | some value => simp [mergeValue, LabelSet.get_with]

theorem inject_extract (labels : LabelSet) :
    injectCorrelation (extractCorrelationLabels labels).1 (extractCorrelationLabels labels).2 =
      labels := by
  refine LabelSet.ext_get fun k => ?_
  simp only [injectCorrelation, get_mergeValue, extractCorrelationLabels, LabelSet.get_filtered]
  by_cases hk : k ∈ correlationKeys
  · have hnone : (labels.get k).filter (fun _ => decide (k ∉ correlationKeys)) = none := by
      simp [hk]
    rw [hnone]
    simp only [correlationKeys, List.mem_cons, List.not_mem_nil, or_false] at hk
    rcases hk with rfl | rfl | rfl | rfl | rfl | rfl | rfl <;> simp
  · have hsome : (labels.get k).filter (fun _ => decide (k ∉ correlationKeys)) = labels.get k := by
      cases labels.get k <;> simp [hk]
    rw [hsome]
    simp only [correlationKeys, List.mem_cons, List.not_mem_nil, or_false, not_or] at hk
    obtain ⟨h1, h2, h3, h4, h5, h6, h7⟩ := hk
    simp only [if_neg h1, if_neg h2, if_neg h3, if_neg h4, if_neg h5, if_neg h6, if_neg h7]

/-! ## Rows -/

structure MetricColumns (V : Type*) where
  timestampNs : Int
  metricName : String
  metricKind : String
  correlation : CorrelationLabels
  resourceAttributes : LabelSet
  labels : LabelSet
  value : V
deriving DecidableEq

def kindName : MetricKind → String
  | .gauge => "Gauge"
  | .sum => "Sum"
  | .histogram => "Histogram"
  | .summary => "Summary"

def kindOf : String → MetricKind
  | "Gauge" => .gauge
  | "Sum" => .sum
  | "Histogram" => .histogram
  | "Summary" => .summary
  | _ => .gauge

theorem kindOf_kindName (kind : MetricKind) : kindOf (kindName kind) = kind := by
  cases kind <;> rfl

/-- Points that share a metric's name, kind and resource. -/
structure MetricRun (V : Type*) where
  name : String
  kind : MetricKind
  resource : LabelSet
  points : List (DataPoint V)
deriving DecidableEq

namespace MetricRun

def ofMetric (m : Metric V) : MetricRun V := ⟨m.name, m.kind, m.resourceAttributes, m.dataPoints⟩

def service (run : MetricRun V) : Option String :=
  (extractCorrelationLabels run.resource).2.serviceName

def columns (run : MetricRun V) (p : DataPoint V) : MetricColumns V where
  timestampNs := p.timestampNs
  metricName := run.name
  metricKind := kindName run.kind
  correlation := (extractCorrelationLabels run.resource).2
  resourceAttributes := (extractCorrelationLabels run.resource).1
  labels := p.labels
  value := p.value

end MetricRun

def metricRunsToChunk (runs : List (MetricRun V)) : List (MetricColumns V) :=
  runs.flatMap fun run => run.points.map run.columns

/-! ## Labels as a scan reports them -/

/-- A non-empty service name of the resource replaces the point's own. -/
def mergedLabels (labels : LabelSet) (service : Option String) : LabelSet :=
  match service with
  | some svc => if svc = "" then labels else labels.with "service.name" svc
  | none => labels

def MetricColumns.reported (row : MetricColumns V) : LabelSet :=
  mergedLabels row.labels row.correlation.serviceName

/-! ## Log records -/

/-- One row of a log block, whose label sets are values of type `T`. -/
structure LogCells (T : Type) where
  timestampNs : ℤ
  observedTimestampNs : ℤ
  severityNumber : ℤ
  severityText : String
  body : String
  correlation : CorrelationLabels
  traceId : Vector UInt8 16
  spanId : Vector UInt8 8
  flags : UInt32
  scopeName : String
  scopeVersion : String
  attributes : T
  resourceAttributes : T
deriving DecidableEq

namespace LogCells

variable {T : Type}

def of (log : LogRecord) (correlation : CorrelationLabels) : T → T → LogCells T :=
  .mk log.timestampNs log.observedTimestampNs log.severityNumber log.severityText log.body
    correlation log.traceId log.spanId log.flags log.scopeName log.scopeVersion

def toLog (row : LogCells T) (attributes resourceAttributes : LabelSet) : LogRecord :=
  ⟨row.timestampNs, row.observedTimestampNs, row.severityNumber, row.severityText, row.body,
    attributes, injectCorrelation resourceAttributes row.correlation, row.traceId, row.spanId,
    row.flags, row.scopeName, row.scopeVersion⟩

end LogCells

end Parqtel.Storage
