import Parqtel.Lib.Json
import Parqtel.Models

/-!
# The JSON forms of the records

Metrics and the complex values, events, links and labels of a block are stored as JSON. The
forms are those that `serde` derives: a struct is an object of its fields, a variant is tagged
with its name. For each record there is a lemma that says when it reads back as it was
written. Everything but a float always does.
-/

namespace Parqtel

open Lib (Json)
open Lib.Json (Format)
open Lib.Json.Format Option

/-! ## Values of data points -/

structure HistogramValue (F : Type) where
  count : ℕ
  sum : F
  min : Option F
  max : Option F
  boundaries : List F
  counts : List ℕ
deriving DecidableEq

structure SummaryValue (F : Type) where
  count : ℕ
  sum : F
  quantiles : List (F × F)
deriving DecidableEq

/-- The value of a data point, with all that is stored of it. -/
inductive MetricValue (F : Type) where
  | double (x : F)
  | int (i : ℤ)
  | histogram (h : HistogramValue F)
  | summary (s : SummaryValue F)
deriving DecidableEq

namespace Serde

variable {N F : Type}

/-! ## Label sets and ids -/

/-- A label set is an object of strings. A repeated key keeps its last value. -/
def labels : Format N LabelSet where
  write l := .obj (l.entries.map fun e => (e.1, .str e.2))
  read j := do
    let fs ← j.fields
    let es ← fs.mapM fun e => (string.read e.2).map (e.1, ·)
    return es.foldl (fun l e => l.with e.1 e.2) .empty

theorem labels_keeps (l : LabelSet) : (labels : Format N LabelSet).Keeps l := by
  have hread : ∀ es : List (String × String), ((es.map fun e => (e.1, (.str e.2 : Json N))).mapM
      fun e => (string.read e.2).map (e.1, ·)) = some es := by
    intro es
    induction es with
    | nil => rfl
    | cons e es ih =>
      rw [List.map_cons, List.mapM_cons, ih]
      rfl
  have hmerge : LabelSet.empty.merge l = l :=
    LabelSet.ext_get fun k => by
      rw [LabelSet.get_merge]
      exact or_none
  unfold Keeps labels
  simp only [Json.fields, bind_eq_bind, bind_some, hread]
  exact congrArg some hmerge

def id (n : ℕ) : Format N (Vector UInt8 n) where
  write v := byte.list.write v.toList
  read j := (byte.list.read j).bind fun bs => if h : bs.length = n then some ⟨⟨bs⟩, h⟩ else none

theorem id_keeps {n : ℕ} (v : Vector UInt8 n) : (id n : Format N _).Keeps v := by
  have hbytes : byte.list.read ((byte : Format N UInt8).list.write v.toList) = some v.toList :=
    list_keeps.mpr fun b _ => byte_keeps b
  unfold Keeps id
  dsimp only
  rw [hbytes, bind_some, dif_pos v.length_toList]
  rfl

/-! ## Metrics -/

section
variable (fl : Floats F)

def histogram : Format fl.Finite (HistogramValue F) where
  write h := .obj [("count", nat.write h.count), ("sum", (float fl).write h.sum),
    ("min", (float fl).option.write h.min), ("max", (float fl).option.write h.max),
    ("boundaries", (float fl).list.write h.boundaries), ("counts", nat.list.write h.counts)]
  read j := do
    let fs ← j.fields
    let count ← nat.field "count" fs
    let sum ← (float fl).field "sum" fs
    let min ← (float fl).option.field "min" fs
    let max ← (float fl).option.field "max" fs
    let boundaries ← (float fl).list.field "boundaries" fs
    let counts ← nat.list.field "counts" fs
    return ⟨count, sum, min, max, boundaries, counts⟩

def summary : Format fl.Finite (SummaryValue F) where
  write s := .obj [("count", nat.write s.count), ("sum", (float fl).write s.sum),
    ("quantiles", (pair (float fl) (float fl)).list.write s.quantiles)]
  read j := do
    let fs ← j.fields
    let count ← nat.field "count" fs
    let sum ← (float fl).field "sum" fs
    let quantiles ← (pair (float fl) (float fl)).list.field "quantiles" fs
    return ⟨count, sum, quantiles⟩

def value : Format fl.Finite (MetricValue F) where
  write
    | .double x => .obj [("Double", (float fl).write x)]
    | .int i => .obj [("Int", Format.int.write i)]
    | .histogram h => .obj [("Histogram", (histogram fl).write h)]
    | .summary s => .obj [("Summary", (summary fl).write s)]
  read
    | .obj [("Double", j)] => ((float fl).read j).map .double
    | .obj [("Int", j)] => (Format.int.read j).map .int
    | .obj [("Histogram", j)] => ((histogram fl).read j).map .histogram
    | .obj [("Summary", j)] => ((summary fl).read j).map .summary
    | _ => none

def kind : Format N MetricKind where
  write
    | .gauge => .str "Gauge"
    | .sum => .str "Sum"
    | .histogram => .str "Histogram"
    | .summary => .str "Summary"
  read
    | .str "Gauge" => some .gauge
    | .str "Sum" => some .sum
    | .str "Histogram" => some .histogram
    | .str "Summary" => some .summary
    | _ => none

def point : Format fl.Finite (DataPoint (MetricValue F)) where
  write p := .obj [("timestamp_ns", Format.int.write p.timestampNs),
    ("value", (value fl).write p.value), ("labels", labels.write p.labels)]
  -- the derived reader does not check the timestamp as `DataPoint::new` does
  read j := do
    let fs ← j.fields
    let timestampNs ← Format.int.field "timestamp_ns" fs
    let value ← (value fl).field "value" fs
    let labels ← labels.field "labels" fs
    return ⟨timestampNs, value, labels⟩

def metric : Format fl.Finite (Metric (MetricValue F)) where
  write m := .obj [("name", string.write m.name), ("description", string.write m.description),
    ("unit", string.write m.unit), ("kind", kind.write m.kind),
    ("resource_attributes", labels.write m.resourceAttributes),
    ("data_points", (point fl).list.write m.dataPoints)]
  read j := do
    let fs ← j.fields
    let name ← string.field "name" fs
    let description ← string.field "description" fs
    let unit ← string.field "unit" fs
    let kind ← kind.field "kind" fs
    let resourceAttributes ← labels.field "resource_attributes" fs
    let dataPoints ← (point fl).list.field "data_points" fs
    return ⟨name, description, unit, kind, resourceAttributes, dataPoints⟩

/-! ### What survives -/

variable {fl}

theorem option_float_keeps {x : Option F} :
    (float fl).option.Keeps x ↔ ∀ y ∈ x, fl.Survives y := by
  cases x with
  | none => simp [option_keeps_none]
  | some y =>
    rw [option_keeps_some, float_keeps]
    by_cases h : fl.finite y <;> simp [float, Floats.Survives, h]

end

end Serde

/-- Every float of the value survives its JSON text. -/
def MetricValue.Survives {F : Type} (fl : Floats F) : MetricValue F → Prop
  | .double x => fl.Survives x
  | .int _ => True
  | .histogram h => fl.Survives h.sum ∧ (∀ x ∈ h.min, fl.Survives x) ∧
      (∀ x ∈ h.max, fl.Survives x) ∧ ∀ x ∈ h.boundaries, fl.Survives x
  | .summary s => fl.Survives s.sum ∧ ∀ q ∈ s.quantiles, fl.Survives q.1 ∧ fl.Survives q.2

instance {F : Type} [DecidableEq F] (fl : Floats F) : DecidablePred (MetricValue.Survives fl)
  | .double _ => inferInstanceAs (Decidable (_ ∧ _))
  | .int _ => .isTrue trivial
  | .histogram _ => inferInstanceAs (Decidable (_ ∧ _ ∧ _ ∧ _))
  | .summary _ => inferInstanceAs (Decidable (_ ∧ _))

namespace Serde

section
variable {F : Type} {fl : Floats F}

theorem histogram_keeps {h : HistogramValue F} :
    (histogram fl).Keeps h ↔ (MetricValue.histogram h).Survives fl := by
  have hcount : nat.read ((nat : Format fl.Finite ℕ).write h.count) = some h.count := nat_keeps _
  have hcounts : nat.list.read ((nat : Format fl.Finite ℕ).list.write h.counts) = some h.counts :=
    list_keeps.mpr fun n _ => nat_keeps n
  rw [MetricValue.Survives, ← float_keeps, ← option_float_keeps, ← option_float_keeps,
    ← forall₂_congr fun x _ => @float_keeps F fl x, ← list_keeps]
  obtain ⟨count, sum, min, max, boundaries, counts⟩ := h
  unfold Keeps
  simp [histogram, Json.fields, field, hcount, hcounts, bind_eq_some_iff]

theorem summary_keeps {s : SummaryValue F} :
    (summary fl).Keeps s ↔ (MetricValue.summary s).Survives fl := by
  have hcount : nat.read ((nat : Format fl.Finite ℕ).write s.count) = some s.count := nat_keeps _
  have hquantiles : (∀ q ∈ s.quantiles, fl.Survives q.1 ∧ fl.Survives q.2) ↔
      (pair (float fl) (float fl)).list.Keeps s.quantiles :=
    (forall₂_congr fun q _ => by rw [pair_keeps, float_keeps, float_keeps]).trans list_keeps.symm
  rw [MetricValue.Survives, ← float_keeps, hquantiles]
  obtain ⟨count, sum, quantiles⟩ := s
  unfold Keeps
  simp [summary, Json.fields, field, hcount, bind_eq_some_iff]

/-- **A value survives exactly if its floats do.** -/
theorem value_keeps {v : MetricValue F} : (value fl).Keeps v ↔ v.Survives fl := by
  cases v with
  | double x => simpa [Keeps, value, MetricValue.Survives] using @float_keeps F fl x
  | int i => simp [Keeps, value, Format.int, MetricValue.Survives]
  | histogram h => simpa [Keeps, value] using @histogram_keeps F fl h
  | summary s => simpa [Keeps, value] using @summary_keeps F fl s

theorem kind_keeps {N : Type} (k : MetricKind) : (kind : Format N MetricKind).Keeps k := by
  cases k <;> rfl

theorem point_keeps {p : DataPoint (MetricValue F)} : (point fl).Keeps p ↔ p.value.Survives fl := by
  have hlabels :
      labels.read ((labels : Format fl.Finite LabelSet).write p.labels) = some p.labels :=
    labels_keeps _
  rw [← value_keeps]
  obtain ⟨timestampNs, v, l⟩ := p
  unfold Keeps
  simp [point, Json.fields, field, Format.int, hlabels, bind_eq_some_iff]

/-- **A metric survives exactly if the values of its points do.** -/
theorem metric_keeps {m : Metric (MetricValue F)} :
    (metric fl).Keeps m ↔ ∀ p ∈ m.dataPoints, p.value.Survives fl := by
  have hlabels : labels.read ((labels : Format fl.Finite LabelSet).write m.resourceAttributes) =
      some m.resourceAttributes := labels_keeps _
  have hkind : kind.read ((kind : Format fl.Finite MetricKind).write m.kind) = some m.kind :=
    kind_keeps _
  rw [← forall₂_congr fun p _ => @point_keeps F fl p, ← list_keeps]
  obtain ⟨name, description, unit, k, resource, points⟩ := m
  unfold Keeps
  simp [metric, Json.fields, field, string, hlabels, hkind, bind_eq_some_iff]

end

/-! ## Spans -/

section
variable {N : Type}

def spanEvent : Format N SpanEvent where
  write e := .obj [("time_ns", Format.int.write e.timeNs), ("name", string.write e.name),
    ("attributes", labels.write e.attributes)]
  read j := do
    let fs ← j.fields
    let timeNs ← Format.int.field "time_ns" fs
    let name ← string.field "name" fs
    let attributes ← labels.field "attributes" fs
    return ⟨timeNs, name, attributes⟩

def spanLink : Format N SpanLink where
  write l := .obj [("trace_id", (id 16).write l.traceId), ("span_id", (id 8).write l.spanId),
    ("attributes", labels.write l.attributes)]
  read j := do
    let fs ← j.fields
    let traceId ← (id 16).field "trace_id" fs
    let spanId ← (id 8).field "span_id" fs
    let attributes ← labels.field "attributes" fs
    return ⟨traceId, spanId, attributes⟩

theorem spanEvent_keeps (e : SpanEvent) : (spanEvent : Format N SpanEvent).Keeps e := by
  have hname := string_keeps (N := N) e.name
  have hlabels := labels_keeps (N := N) e.attributes
  unfold Keeps at hname hlabels ⊢
  simp [spanEvent, field, Json.fields, Format.int, hname, hlabels]

theorem spanLink_keeps (l : SpanLink) : (spanLink : Format N SpanLink).Keeps l := by
  have htrace := id_keeps (N := N) l.traceId
  have hspan := id_keeps (N := N) l.spanId
  have hlabels := labels_keeps (N := N) l.attributes
  unfold Keeps at htrace hspan hlabels ⊢
  simp [spanLink, field, Json.fields, htrace, hspan, hlabels]

end

end Serde

end Parqtel
