import Parqtel.Ingest.TraceRecovery
import Parqtel.Query.Increase

/-!
# Rates of the span bridge

The bridge gives every request a sample of one, not a running total, so that a series of requests
never increases, and one of errors only where an error follows a success. `spanRates_iff` says
for which spans that is the number of requests and errors.
-/

namespace Parqtel.Ingest

open Lib.Json List Query

section
variable {F : Type}

def seriesSample (service operation : String) (q : DataPoint (MetricValue F)) : Option (ℤ × F) :=
  match q.value with
  | .double x =>
    if q.labels.get "service" = some service ∧ q.labels.get "operation" = some operation then
      some (q.timestampNs, x)
    else none
  | _ => none

def seriesSamples (name service operation : String) (metrics : List (Metric (MetricValue F))) :
    List (ℤ × F) :=
  ((pointsNamed name metrics).filterMap (seriesSample service operation)).insertionSort
    fun a b => a.1 ≤ b.1

def InSeries (service operation : String) (span : Span) : Prop :=
  (span.attributes.get "service.name").getD "unknown" = service ∧ span.name = operation

instance (service operation : String) : DecidablePred (InSeries service operation) :=
  fun _ => inferInstanceAs (Decidable (_ ∧ _))

def seriesSpans (service operation : String) (spans : List Span) : List Span :=
  ((serverSpans spans).filter fun span => InSeries service operation span).insertionSort
    fun a b => a.startTimeNs ≤ b.startTimeNs

variable {fl : Format.Floats F} (fs : BridgeFloats fl) {service operation : String}

theorem seriesSample_derivedPoint (name : String) (value : Span → F)
    (h : ∀ span, (derivedPoint fs name span).value = .double (value span)) (span : Span) :
    seriesSample service operation (derivedPoint fs name span) =
      if InSeries service operation span then some (span.startTimeNs, value span) else none := by
  obtain ⟨labels, hlabels, hservice, hoperation⟩ :=
    bridge_labels ((span.attributes.get "service.name").getD "unknown") span.name
  have hget : (derivedPoint fs name span).labels = labels := by
    simp [derivedPoint, spanPointOf, pointOf, hlabels, Except.toOption]
  simp only [seriesSample, h, hget, hservice, hoperation, Option.some.injEq, InSeries]
  rfl

theorem seriesSamples_eq {spans : List Span} {metrics : List (Metric (MetricValue F))}
    {name : String} {value : Span → F}
    (h : ∀ span, (derivedPoint fs name span).value = .double (value span))
    (hpoints : (pointsNamed name metrics).Perm ((serverSpans spans).map (derivedPoint fs name)))
    (hnodup : (spans.map Span.startTimeNs).Nodup) :
    seriesSamples name service operation metrics =
      (seriesSpans service operation spans).map fun span => (span.startTimeNs, value span) := by
  have hfilter : ((serverSpans spans).map (derivedPoint fs name)).filterMap
      (seriesSample service operation) =
      ((serverSpans spans).filter fun span => InSeries service operation span).map
        fun span => (span.startTimeNs, value span) := by
    rw [filterMap_map, ← filterMap_eq_map, ← filterMap_eq_filter, filterMap_filterMap]
    refine filterMap_congr fun span _ => ?_
    rw [Function.comp_apply, seriesSample_derivedPoint fs name value h]
    by_cases hin : InSeries service operation span <;> simp [hin, Option.guard]
  have hspans := perm_insertionSort (fun a b : Span => a.startTimeNs ≤ b.startTimeNs)
    ((serverSpans spans).filter fun span => InSeries service operation span)
  have hperm := ((perm_insertionSort (fun a b : ℤ × F => a.1 ≤ b.1) _).trans
    (hpoints.filterMap _)).trans (.trans (.of_eq hfilter) (hspans.symm.map _))
  -- no two spans start together, so that their order by time is one
  have htimes : ((seriesSpans service operation spans).map Span.startTimeNs).Nodup :=
    (hspans.map _).nodup_iff.mpr
      (((filter_sublist.trans filter_sublist).map _).nodup hnodup)
  refine hperm.eq_of_pairwise (fun a b ha hb hab hba => ?_) (pairwise_insertionSort _ _)
    (pairwise_map.mpr (pairwise_insertionSort _ _))
  obtain ⟨x, hx, rfl⟩ := mem_map.mp (hperm.mem_iff.mp ha)
  obtain ⟨y, hy, rfl⟩ := mem_map.mp hb
  rw [inj_on_of_nodup_map htimes hx hy (le_antisymm hab hba)]

end

/-! ## The increase of ones -/

theorem increase_ones (n : ℕ) : increase (replicate n 1) = 0 := by
  induction n with
  | zero => rfl
  | succ n ih => cases n <;> simp_all [replicate_succ, increase, gain]

/-- A flag rises at every error but those after an error. -/
theorem increase_flags {α : Type} (P : α → Prop) [DecidablePred P] (a : α) (l : List α) :
    increase ((a :: l).map fun a => if P a then 1 else 0) ≤ l.countP P ∧
    (increase ((a :: l).map fun a => if P a then 1 else 0) = l.countP P ↔
      (a :: l).IsChain fun a b => P a → ¬ P b) := by
  induction l generalizing a with
  | nil => simp [increase]
  | cons b l ih =>
    obtain ⟨hle, heq⟩ := ih b
    rw [isChain_cons_cons, ← heq]
    simp only [map_cons] at hle
    by_cases ha : P a <;> by_cases hb : P b <;> simp [increase, gain, ha, hb] <;> grind

/-- **Increases count requests exactly if** a series has one request, and they count errors
exactly if no error follows an error. -/
theorem spanRates_iff {fl : Format.Floats (Option ℚ)} (fs : BridgeFloats fl)
    (hone : fs.one = some 1) (hzero : fs.zero = some 0) (calls : List (List Span))
    (hnodup : (calls.flatten.map Span.startTimeNs).Nodup) (service operation : String) :
    let spans := seriesSpans service operation calls.flatten
    ∃ metrics, sentMetrics fs calls = .ok metrics ∧
      (segmentIncrease exact (seriesSamples requestsMetric service operation metrics) =
        some (spans.length - 1 : ℚ) ↔ spans.length = 1) ∧
      (segmentIncrease exact (seriesSamples errorsMetric service operation metrics) =
        some (spans.tail.countP fun span => span.statusCode = 2 : ℚ) ↔
          spans.IsChain fun a b => a.statusCode = 2 → b.statusCode ≠ 2) := by
  intro spans
  obtain ⟨metrics, hmetrics, hpoints⟩ := sentMetrics_points fs calls
  have hincrease {name : String} (value : Span → ℚ) (hname : name ∈ bridgeMetrics)
      (h : ∀ span, (derivedPoint fs name span).value = .double (some (value span))) :
      segmentIncrease exact (seriesSamples name service operation metrics) =
        some (increase (spans.map value)) := by
    rw [seriesSamples_eq fs h (hpoints name hname) hnodup]
    have := segmentIncrease_numeric (spans.map fun span => (span.startTimeNs, value span))
    simpa [numeric, Function.comp_def] using this
  refine ⟨metrics, hmetrics, ?_, ?_⟩
  · rw [hincrease (fun _ => 1) mem_cons_self fun span => by simp [derivedPoint, hone],
      map_const', increase_ones, Option.some.injEq, eq_comm, sub_eq_zero, Nat.cast_eq_one]
  · rw [hincrease (fun span => if span.statusCode = 2 then 1 else 0) (by simp [bridgeMetrics])
      fun span => ?_, Option.some.injEq]
    · cases spans with
      | nil => simp [increase]
      | cons a l => exact (increase_flags (fun span : Span => span.statusCode = 2) a l).2
    · have hne : errorsMetric ≠ requestsMetric := by decide
      by_cases h : span.statusCode = 2 <;>
        simp [derivedPoint, spanPointOf, pointOf, hne, hone, hzero, h]

open Sample in
theorem spanRates_one_request : ∃ metrics, sentMetrics millis [[serverSpan 0]] = .ok metrics ∧
    segmentIncrease exact (seriesSamples requestsMetric "unknown" "GET" metrics) = some 0 := by
  obtain ⟨metrics, hmetrics, hrequests, -⟩ :=
    spanRates_iff millis rfl rfl [[serverSpan 0]] (by decide) "unknown" "GET"
  have hone : (seriesSpans "unknown" "GET" [[serverSpan 0]].flatten).length = 1 := by
    decide
  have hincrease := hrequests.mpr hone
  rw [hone] at hincrease
  exact ⟨metrics, hmetrics, by simpa using hincrease⟩

open Sample in
/-- Two requests in two batches increase nothing. -/
theorem spanRates_two_requests :
    let calls := [[serverSpan 0], [{ serverSpan 0 with startTimeNs := 2 }]]
    (calls.flatten.map Span.startTimeNs).Nodup ∧
    (seriesSpans "unknown" "GET" calls.flatten).length = 2 ∧
    (do
      let metrics ← sentMetrics millis calls
      return segmentIncrease exact (seriesSamples requestsMetric "unknown" "GET" metrics) :
        Eval (Option ℚ)) = .ok (some 0) := by
  refine ⟨by decide, by decide, by decide +kernel⟩

end Parqtel.Ingest
