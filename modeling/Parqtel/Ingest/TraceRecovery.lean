import Parqtel.Ingest.TailSampling

/-!
# Recovery of traces

A restart hands every uncommitted span back to `ingest_spans`, in a call of its own. There it is
sampled again, without the spans that it was kept for the first time, and its metrics are derived
again. `trace_recovery_exact_iff` says when neither matters.
-/

namespace Parqtel.Ingest

open Parqtel.Lib Parqtel.Lib.Json Query Storage List

variable {F : Type}

/-! ## The derived points -/

def spanPointOf (span : Span) : SpanPoint := pointOf span ((exactDuration span).bmod (2 ^ 64))

theorem spanPoint_release (span : Span) : spanPoint .release span = .ok [spanPointOf span] := by
  rw [spanPoint_eq, i64_release]
  rfl

section
variable {fl : Format.Floats F} (fs : BridgeFloats fl)

def derivedPoint (name : String) (span : Span) : DataPoint (MetricValue F) :=
  let p := spanPointOf span
  let value := if name = requestsMetric then fs.one
    else if name = errorsMetric then if p.isError then fs.one else fs.zero
    else fs.millis p.durationNs
  ⟨p.timestampNs, .double value, p.labels⟩

def pointsNamed (name : String) (metrics : List (Metric (MetricValue F))) :
    List (DataPoint (MetricValue F)) :=
  metrics.flatMap fun m => if m.name = name then m.dataPoints else []

def bridgeMetrics : List String := [requestsMetric, errorsMetric, durationMetric]

theorem deriveSpanMetrics_release (spans : List Span) :
    ∃ metrics, deriveSpanMetrics fs .release spans = .ok metrics ∧ ∀ name ∈ bridgeMetrics,
      (pointsNamed name metrics).Perm ((serverSpans spans).map (derivedPoint fs name)) := by
  have hgather : gather (spanPoint .release) (serverSpans spans) =
      .ok ((serverSpans spans).map spanPointOf) := by
    rw [map_eq_flatMap]
    exact gather_ok fun span _ => spanPoint_release span
  have hpoints : spanPoints .release spans =
      .ok (byOperation ((serverSpans spans).map spanPointOf)) := by
    rw [spanPoints, hgather]
    rfl
  rw [deriveSpanMetrics, hpoints]
  refine ⟨_, rfl, fun name hname => ?_⟩
  -- a metric without points is left out, and would add none
  have hfilter (ms : List (Metric (MetricValue F))) :
      pointsNamed name (ms.filter fun m => m.dataPoints ≠ []) = pointsNamed name ms := by
    refine flatMap_filter_eq fun m _ hne => ?_
    by_contra hnil
    simp_all
  have hsort := byOperation_perm ((serverSpans spans).map spanPointOf)
  have hvalue (value : SpanPoint → F) (h : ∀ span, derivedPoint fs name span =
      ⟨(spanPointOf span).timestampNs, .double (value (spanPointOf span)),
        (spanPointOf span).labels⟩) :
      (((serverSpans spans).map spanPointOf).map fun p : SpanPoint =>
        (⟨p.timestampNs, .double (value p), p.labels⟩ : DataPoint (MetricValue F))) =
        (serverSpans spans).map (derivedPoint fs name) := by
    rw [map_map]
    exact map_congr_left fun span _ => (h span).symm
  rw [hfilter]
  have hne : requestsMetric ≠ errorsMetric ∧ requestsMetric ≠ durationMetric ∧
      errorsMetric ≠ durationMetric := by decide
  simp only [bridgeMetrics, mem_cons, not_mem_nil, or_false] at hname
  rcases hname with rfl | rfl | rfl
  · rw [← hvalue (fun _ => fs.one) fun span => by simp [derivedPoint]]
    simpa [pointsNamed, hne, Ne.symm] using hsort.map _
  · rw [← hvalue (fun p => if p.isError then fs.one else fs.zero) fun span => by
      simp [derivedPoint, hne.1.symm]]
    simpa [pointsNamed, hne, Ne.symm] using hsort.map _
  · rw [← hvalue (fun p => fs.millis p.durationNs) fun span => by
      simp [derivedPoint, hne.2.1.symm, hne.2.2.symm]]
    simpa [pointsNamed, hne, Ne.symm] using hsort.map _

/-! ## Recovery -/

def sentMetrics (calls : List (List Span)) : Eval (List (Metric (MetricValue F))) :=
  gather (deriveSpanMetrics fs .release) calls

theorem sentMetrics_points (calls : List (List Span)) :
    ∃ metrics, sentMetrics fs calls = .ok metrics ∧ ∀ name ∈ bridgeMetrics,
      (pointsNamed name metrics).Perm
        ((serverSpans calls.flatten).map (derivedPoint fs name)) := by
  choose derived hderived hpoints using deriveSpanMetrics_release fs
  refine ⟨calls.flatMap derived, gather_ok fun spans _ => hderived spans, fun name hname => ?_⟩
  have hleft : pointsNamed name (calls.flatMap derived) =
      calls.flatMap fun spans => pointsNamed name (derived spans) := flatMap_assoc
  have hright : (serverSpans calls.flatten).map (derivedPoint fs name) =
      calls.flatMap fun spans => (serverSpans spans).map (derivedPoint fs name) := by
    simp [serverSpans, filter_flatten, map_flatten, flatMap_def, Function.comp_def]
  rw [hleft, hright]
  exact List.Perm.flatMap_left _ fun spans _ => hpoints spans name hname

variable (env : SamplingEnv F) (policy : TailSamplingConfig F) (calls : List (List Span))
  (committed : ℕ)

def uncommitted : List Span := (passedSpans env policy calls).drop committed

def replayCalls : List (List Span) := (uncommitted env policy calls committed).map fun s => [s]

/-- The writer gets every uncommitted span again, and every server span has its points once in what
was sent before and after the restart. -/
structure RecoversTraces : Prop where
  pushed : passedSpans env policy (replayCalls env policy calls committed) =
    uncommitted env policy calls committed
  metrics : ∃ live again, sentMetrics fs calls = .ok live ∧
    sentMetrics fs (replayCalls env policy calls committed) = .ok again ∧
    ∀ name ∈ bridgeMetrics, (pointsNamed name (live ++ again)).Perm
      ((serverSpans calls.flatten).map (derivedPoint fs name))

end

section
variable {env : SamplingEnv F} {policy : TailSamplingConfig F}

theorem decideGroup_singleton (s : Span) :
    decideGroup env policy [s] = .keep ↔ Speaks env policy s.traceId [s] := by
  have htrace : traceOf s.traceId [s] = [s] := by simp [traceOf]
  have h := @decideGroup_traceOf F env policy s.traceId [s] (by simp [htrace])
  rwa [htrace] at h

theorem sampleSpans_singleton (s : Span) : (sampleSpans env policy [s]).1 =
    [s].filter fun s => policyIsKeepAll env policy || decideGroup env policy [s] = .keep := by
  have hgroup : env.mapOrder (groupOn Span.traceId id [s]) = [(s.traceId, [s])] :=
    perm_singleton.mp (env.mapOrder_perm _)
  unfold sampleSpans
  cases policyIsKeepAll env policy with
  | true => rfl
  | false => by_cases hkeep : decideGroup env policy [s] = .keep <;> simp [hgroup, hkeep]

theorem passed_singletons_iff {spans : List Span} :
    passedSpans env policy (spans.map fun s => [s]) = spans ↔
      ∀ s ∈ spans, policyIsKeepAll env policy = true ∨ Speaks env policy s.traceId [s] := by
  have hpassed : passedSpans env policy (spans.map fun s => [s]) = spans.filter fun s =>
      policyIsKeepAll env policy || decideGroup env policy [s] = .keep := by
    rw [passedSpans, flatMap_map, flatMap_congr fun s _ => sampleSpans_singleton s,
      ← filter_flatMap, flatMap_singleton']
  rw [hpassed, filter_eq_self]
  refine forall₂_congr fun s _ => ?_
  rw [Bool.or_eq_true, decide_eq_true_eq, decideGroup_singleton]

end

/-- **Recovery is exact if and only if** every uncommitted span is kept on its own, and none is a
server span. -/
theorem trace_recovery_exact_iff {fl : Format.Floats F} (fs : BridgeFloats fl)
    (env : SamplingEnv F) (policy : TailSamplingConfig F) (calls : List (List Span))
    (committed : ℕ) :
    RecoversTraces fs env policy calls committed ↔
      (∀ s ∈ uncommitted env policy calls committed,
        policyIsKeepAll env policy = true ∨ Speaks env policy s.traceId [s]) ∧
      ∀ s ∈ uncommitted env policy calls committed, s.kind ≠ serverKind := by
  obtain ⟨live, hlive, hpoints⟩ := sentMetrics_points fs calls
  obtain ⟨again, hagain, hpoints'⟩ :=
    sentMetrics_points fs (replayCalls env policy calls committed)
  have hflatten : (replayCalls env policy calls committed).flatten =
      uncommitted env policy calls committed := by
    rw [replayCalls, ← flatMap_def, flatMap_singleton']
  rw [hflatten] at hpoints'
  -- what is sent again comes on top
  have hmetrics : (∀ name ∈ bridgeMetrics, (pointsNamed name (live ++ again)).Perm
      ((serverSpans calls.flatten).map (derivedPoint fs name))) ↔
      serverSpans (uncommitted env policy calls committed) = [] := by
    have hadd (name : String) : pointsNamed name (live ++ again) =
        pointsNamed name live ++ pointsNamed name again := flatMap_append
    constructor
    · intro h
      have hname : requestsMetric ∈ bridgeMetrics := mem_cons_self
      have h1 := (h _ hname).length_eq
      have h2 := (hpoints _ hname).length_eq
      have h3 := (hpoints' _ hname).length_eq
      rw [hadd, length_append] at h1
      rw [length_map] at h3
      exact length_eq_zero_iff.mp (by omega)
    · intro h name hname
      have hnil := hpoints' name hname
      rw [h, map_nil, perm_nil] at hnil
      rw [hadd, hnil, append_nil]
      exact hpoints name hname
  have hkinds : serverSpans (uncommitted env policy calls committed) = [] ↔
      ∀ s ∈ uncommitted env policy calls committed, s.kind ≠ serverKind := by
    simp [serverSpans, filter_eq_nil_iff]
  rw [← hkinds, ← hmetrics, ← passed_singletons_iff]
  constructor
  · rintro ⟨hpushed, live', again', hlive', hagain', hexact⟩
    cases hlive.symm.trans hlive'
    cases hagain.symm.trans hagain'
    exact ⟨hpushed, hexact⟩
  · exact fun h => ⟨h.1, live, again, hlive, hagain, h.2⟩

namespace Sample

def numbers : Format.Floats (Option ℚ) := ⟨Option.isSome, fun n => some n, some⟩

def millis : BridgeFloats numbers :=
  ⟨some 0, some 1, fun n => some (n / 1000000), by decide, by decide⟩

end Sample

open Sample in
/-- A trace that one call kept for its second span: on its own the first is dropped. The error
span is a server span, so its points are sent twice. -/
theorem trace_recovery_drops_span :
    let calls := [[serverSpan 0, serverSpan 2]]
    validateTailSampling exact errorsOnly "ingest.tail_sampling" = [] ∧
    uncommitted sampling errorsOnly calls 0 = [serverSpan 0, serverSpan 2] ∧
    passedSpans sampling errorsOnly (replayCalls sampling errorsOnly calls 0) = [serverSpan 2] ∧
    ¬ RecoversTraces millis sampling errorsOnly calls 0 ∧
    (do
      let live ← sentMetrics millis [[serverSpan 2]]
      let again ← sentMetrics millis (replayCalls sampling errorsOnly [[serverSpan 2]] 0)
      return (pointsNamed requestsMetric (live ++ again)).length : Eval ℕ) = .ok 2 := by
  have hpassed : passedSpans sampling errorsOnly
      (replayCalls sampling errorsOnly [[serverSpan 0, serverSpan 2]] 0) = [serverSpan 2] := by
    decide
  refine ⟨by decide, by decide, hpassed, fun h => ?_, by decide⟩
  have hpushed := hpassed.symm.trans h.pushed
  exact absurd hpushed (by decide)

end Parqtel.Ingest
