import Parqtel.Ingest.Readable
import Parqtel.Lib.Group
import Parqtel.Lib.Selection
import Parqtel.Query.Exact

/-!
# Tail sampling

A trace is stored because of an error, because of a slow server span, or by the hash of its id. The
decision is made in every call from the spans that the call brings, under the policy of the first
of them. A trace whose spans come in several calls is decided several times, and an error in one
call does not keep what another call drops. `trace_coherent_iff` says which traces stay whole.
-/

namespace Parqtel.Ingest

open Parqtel.Lib Query Storage
open List hiding Vector

abbrev TraceId := Vector UInt8 16

variable {F : Type}

/-! ## The policy -/

structure SamplingRules (F : Type) where
  keepErrors : Bool
  slowTraceMs : Option ℕ
  samplingRatio : F

/-- The global rules, and those that replace them for a service. The overrides that the source's
type allows inside an override are never read. -/
structure TailSamplingConfig (F : Type) extends SamplingRules F where
  perService : List (String × SamplingRules F)

/-- Doubles, `DefaultHasher` on a trace id, and the order in which a `HashMap` is traversed. -/
structure SamplingEnv (F : Type) where
  platform : Platform F
  hash : TraceId → ℕ
  mapOrder : List (TraceId × List Span) → List (TraceId × List Span)
  mapOrder_perm : ∀ groups, (mapOrder groups).Perm groups

def SamplingRules.check (p : Platform F) (rules : SamplingRules F) (label : String) : List String :=
  if p.le p.zero rules.samplingRatio && p.le rules.samplingRatio p.one then []
  else [label ++ ".sampling_ratio must be within [0.0, 1.0]"]

def validateTailSampling (p : Platform F) (policy : TailSamplingConfig F) (path : String) :
    List String :=
  policy.check p path ++ policy.perService.flatMap fun o =>
    o.2.check p (path ++ ".per_service." ++ o.1)

/-! ## Decisions -/

inductive SampleDecision where
  | keep | drop
deriving DecidableEq, Repr

def isSlow (thresholdMs : ℕ) (span : Span) : Bool :=
  span.kind = serverKind &&
    (thresholdMs : ℤ) * 1000000 ≤ (span.endTimeNs - span.startTimeNs).bmod (2 ^ 64)

def SamplingRules.Notable (rules : SamplingRules F) (spans : List Span) : Prop :=
  rules.keepErrors = true ∧ (∃ s ∈ spans, s.statusCode = 2) ∨
    ∃ ms ∈ rules.slowTraceMs, ∃ s ∈ spans, isSlow ms s

section
variable (env : SamplingEnv F)

def SamplingRules.withinRatio (rules : SamplingRules F) (traceId : TraceId) : Bool :=
  let p := env.platform
  let ratio := if p.lt rules.samplingRatio p.zero then p.zero
    else if p.lt p.one rules.samplingRatio then p.one else rules.samplingRatio
  if p.le p.one ratio then true
  else if p.le ratio p.zero then false
  else p.lt (p.ofRat (env.hash traceId % 10000 : ℕ)) (p.mul ratio (p.ofRat 10000))

def SamplingRules.decide (policy : SamplingRules F) (traceId : TraceId) (spans : List Span) :
    SampleDecision :=
  if policy.keepErrors && spans.any (·.statusCode = 2) then .keep
  else if policy.slowTraceMs.any fun ms => spans.any (isSlow ms) then .keep
  else if policy.withinRatio env traceId then .keep
  else .drop

def policyIsKeepAll (policy : TailSamplingConfig F) : Bool :=
  policy.perService.isEmpty && env.platform.le env.platform.one policy.samplingRatio

def policyForService (policy : TailSamplingConfig F) (service : String) : SamplingRules F :=
  (policy.perService.lookup service).getD policy.toSamplingRules

def policyOf (policy : TailSamplingConfig F) (group : List Span) : SamplingRules F :=
  policyForService policy
    ((group.head?.bind fun s => s.attributes.get "service.name").getD "")

def decideGroup (policy : TailSamplingConfig F) (group : List Span) : SampleDecision :=
  (policyOf policy group).decide env
    ((group.head?.map Span.traceId).getD (Vector.replicate 16 0)) group

def sampleSpans (policy : TailSamplingConfig F) (spans : List Span) : List Span × ℕ :=
  if policyIsKeepAll env policy then (spans, 0)
  else
    let byTrace := env.mapOrder (groupOn Span.traceId id spans)
    (byTrace.flatMap fun g => if decideGroup env policy g.2 = .keep then g.2 else [],
      (byTrace.map fun g => if decideGroup env policy g.2 = .keep then 0 else g.2.length).sum)

def passedSpans (policy : TailSamplingConfig F) (calls : List (List Span)) : List Span :=
  calls.flatMap fun spans => (sampleSpans env policy spans).1

end

/-! ## Coherence -/

def traceOf (traceId : TraceId) (spans : List Span) : List Span :=
  spans.filter fun s => s.traceId = traceId

section
variable (env : SamplingEnv F) (policy : TailSamplingConfig F) (calls : List (List Span))
  (traceId : TraceId)

def PassedWhole : Prop :=
  (traceOf traceId (passedSpans env policy calls)).Perm (traceOf traceId calls.flatten)

/-- All spans of the trace are passed or none is; all are if one is an error or slow. -/
structure TraceCoherent : Prop where
  whole : PassedWhole env policy calls traceId ∨ traceOf traceId (passedSpans env policy calls) = []
  notable : (policyOf policy (traceOf traceId calls.flatten)).Notable
    (traceOf traceId calls.flatten) → PassedWhole env policy calls traceId

/-- The spans of the trace in one call are a reason to keep them: one is an error or slow, or the
id is within the ratio. -/
def Speaks (spans : List Span) : Prop :=
  (policyOf policy (traceOf traceId spans)).Notable (traceOf traceId spans) ∨
    (policyOf policy (traceOf traceId spans)).withinRatio env traceId = true

/-- Every call with spans of the trace speaks for it; or none does, nor would the spans of all calls
together by an error or a slow span. -/
def CallsAgree : Prop :=
  (∀ spans ∈ calls, traceOf traceId spans ≠ [] → Speaks env policy traceId spans) ∨
    (∀ spans ∈ calls, traceOf traceId spans ≠ [] → ¬ Speaks env policy traceId spans) ∧
      ¬ (policyOf policy (traceOf traceId calls.flatten)).Notable (traceOf traceId calls.flatten)

end

section
variable {env : SamplingEnv F} {policy : TailSamplingConfig F} {calls : List (List Span)}
  {traceId : TraceId}

theorem decide_eq_keep_iff {rules : SamplingRules F} {spans : List Span} :
    rules.decide env traceId spans = .keep ↔
      rules.Notable spans ∨ rules.withinRatio env traceId = true := by
  have hslow : (rules.slowTraceMs.any fun ms => spans.any (isSlow ms)) = true ↔
      ∃ ms ∈ rules.slowTraceMs, ∃ s ∈ spans, isSlow ms s := by
    simp [Option.any_eq_true]
  unfold SamplingRules.decide SamplingRules.Notable
  split_ifs with h1 h2 h3 <;> simp_all

theorem decideGroup_traceOf {spans : List Span} (h : traceOf traceId spans ≠ []) :
    decideGroup env policy (traceOf traceId spans) = .keep ↔ Speaks env policy traceId spans := by
  obtain ⟨first, rest, hgroup⟩ := exists_cons_of_ne_nil h
  have hid : first.traceId = traceId := by
    have hmem : first ∈ traceOf traceId spans := hgroup ▸ mem_cons_self
    exact of_decide_eq_true (mem_filter.mp hmem).2
  unfold decideGroup Speaks
  rw [decide_eq_keep_iff]
  rw [hgroup, head?_cons, Option.map_some, Option.getD_some, hid]

theorem traceOf_flatMap {α : Type} (f : α → List Span) (xs : List α) :
    traceOf traceId (xs.flatMap f) = xs.flatMap fun x => traceOf traceId (f x) :=
  filter_flatMap

theorem traceOf_sampleSpans (hall : policyIsKeepAll env policy = false) (spans : List Span) :
    traceOf traceId (sampleSpans env policy spans).1 =
      if decideGroup env policy (traceOf traceId spans) = .keep then traceOf traceId spans
      else [] := by
  have hperm := env.mapOrder_perm (groupOn Span.traceId id spans)
  have hkeys : ((env.mapOrder (groupOn Span.traceId id spans)).map Prod.fst).Nodup :=
    (hperm.map Prod.fst).nodup_iff.mpr (groupOn_keys_nodup _ _ _)
  -- the group of another trace has no span of this one
  have hgroup : ∀ g ∈ env.mapOrder (groupOn Span.traceId id spans),
      traceOf traceId (if decideGroup env policy g.2 = .keep then g.2 else []) =
        if g.1 = traceId then
          if decideGroup env policy (traceOf traceId spans) = .keep then traceOf traceId spans
          else []
        else [] := by
    intro g hg
    have hspans : g.2 = traceOf g.1 spans := by
      rw [(mem_groupOn.mp (hperm.mem_iff.mp hg)).2, map_id]
      rfl
    rw [hspans]
    by_cases hid : g.1 = traceId
    · rw [if_pos hid, hid]
      split_ifs
      · simp [traceOf]
      · rfl
    · rw [if_neg hid]
      refine filter_eq_nil_iff.mpr fun s hs => ?_
      split_ifs at hs
      · have hs := of_decide_eq_true (mem_filter.mp hs).2
        simpa [hs] using hid
      · cases hs
  have hnone : traceId ∉ (env.mapOrder (groupOn Span.traceId id spans)).map Prod.fst →
      traceOf traceId spans = [] := by
    rw [(hperm.map Prod.fst).mem_iff, mem_keys_groupOn]
    exact fun h => filter_eq_nil_iff.mpr fun s hs hid =>
      h (mem_map.mpr ⟨s, hs, of_decide_eq_true hid⟩)
  rw [sampleSpans, if_neg (by simp [hall]), traceOf_flatMap, flatMap_congr hgroup,
    flatMap_group_ite hkeys]
  by_cases hmem : traceId ∈ (env.mapOrder (groupOn Span.traceId id spans)).map Prod.fst
  · rw [if_pos hmem]
  · rw [if_neg hmem, hnone hmem, ite_self]

theorem traceOf_flatten : traceOf traceId calls.flatten = calls.flatMap (traceOf traceId) := by
  rw [traceOf, filter_flatten, flatMap_def]
  rfl

theorem passedWhole_iff (hall : policyIsKeepAll env policy = false) :
    PassedWhole env policy calls traceId ↔
      ∀ spans ∈ calls, traceOf traceId spans ≠ [] → Speaks env policy traceId spans := by
  have hpassed : traceOf traceId (passedSpans env policy calls) = (calls.filter fun spans =>
      decideGroup env policy (traceOf traceId spans) = .keep).flatMap (traceOf traceId) := by
    rw [passedSpans, traceOf_flatMap, flatMap_filter_ite fun _ _ => rfl]
    refine flatMap_congr fun spans _ => ?_
    rw [traceOf_sampleSpans hall]
    simp
  rw [PassedWhole, hpassed, traceOf_flatten, flatMap_filter_perm]
  refine forall₃_congr fun spans _ hne => ?_
  rw [decide_eq_true_eq, decideGroup_traceOf hne]

theorem passed_none_iff (hall : policyIsKeepAll env policy = false) :
    traceOf traceId (passedSpans env policy calls) = [] ↔
      ∀ spans ∈ calls, traceOf traceId spans ≠ [] → ¬ Speaks env policy traceId spans := by
  rw [passedSpans, traceOf_flatMap, flatMap_eq_nil_iff]
  refine forall₂_congr fun spans _ => ?_
  rw [traceOf_sampleSpans hall]
  by_cases hne : traceOf traceId spans = []
  · simp [hne]
  · rw [← decideGroup_traceOf hne]
    split_ifs with hkeep <;> simp [hne, hkeep]

end

/-- **A trace stays whole exactly if the calls that bring its spans agree on it**;
with a policy that keeps everything it always does. -/
theorem trace_coherent_iff (env : SamplingEnv F) (policy : TailSamplingConfig F)
    (calls : List (List Span)) (traceId : TraceId) :
    TraceCoherent env policy calls traceId ↔
      policyIsKeepAll env policy = true ∨ CallsAgree env policy calls traceId := by
  cases hall : policyIsKeepAll env policy with
  | true =>
    have hwhole : PassedWhole env policy calls traceId := by
      have hid : passedSpans env policy calls = calls.flatten := by
        simp [passedSpans, sampleSpans, hall, flatMap_def]
      rw [PassedWhole, hid]
    exact iff_of_true ⟨.inl hwhole, fun _ => hwhole⟩ (.inl rfl)
  | false =>
    rw [or_iff_right Bool.false_ne_true, CallsAgree, ← passedWhole_iff hall, ← passed_none_iff hall]
    constructor
    · rintro ⟨hwhole | hnone, hnotable⟩
      · exact .inl hwhole
      · by_cases h : PassedWhole env policy calls traceId
        · exact .inl h
        · exact .inr ⟨hnone, fun hn => h (hnotable hn)⟩
    · rintro (hwhole | ⟨hnone, hnot⟩)
      · exact ⟨.inl hwhole, fun _ => hwhole⟩
      · exact ⟨.inr hnone, fun hn => absurd hn hnot⟩

namespace Sample

def errorsOnly : TailSamplingConfig (Option ℚ) := ⟨⟨true, none, some 0⟩, []⟩

def sampling : SamplingEnv (Option ℚ) := ⟨exact, fun _ => 0, id, fun _ => .refl _⟩

def serverSpan (statusCode : ℤ) : Span where
  traceId := Vector.replicate 16 7
  spanId := Vector.replicate 8 1
  traceState := ""
  name := "GET"
  kind := serverKind
  startTimeNs := 1
  endTimeNs := 2
  attributes := .empty
  events := []
  links := []
  statusCode
  statusMessage := ""
  parentSpanId := Vector.replicate 8 0
  flags := 0

end Sample

open Sample in
/-- The error comes in the second call: the span of the first is dropped,
that of the second kept. -/
theorem trace_torn_by_second_call :
    validateTailSampling exact errorsOnly "ingest.tail_sampling" = [] ∧
    passedSpans sampling errorsOnly [[serverSpan 0], [serverSpan 2]] = [serverSpan 2] ∧
    ¬ TraceCoherent sampling errorsOnly [[serverSpan 0], [serverSpan 2]]
      (Vector.replicate 16 7) := by
  have hpassed : passedSpans sampling errorsOnly [[serverSpan 0], [serverSpan 2]] =
      [serverSpan 2] := by
    decide
  refine ⟨by decide, hpassed, fun h => ?_⟩
  have hwhole := h.whole
  rw [PassedWhole, hpassed] at hwhole
  exact absurd hwhole (by decide)

end Parqtel.Ingest
