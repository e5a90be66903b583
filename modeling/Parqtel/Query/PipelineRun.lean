import Parqtel.Core.Serde
import Parqtel.Lib.Stages
import Parqtel.Query.PipelineExec

/-!
# Running a pipeline

`executePipeline` does not run the stages as they stand. The first `filter` is tested while rows
are fetched, the first `correlate` is applied right after, and then the loop over the stages makes
the same test again, passes over `correlate` and stops at `stats`. `runInOrder` is the pipeline as
written. Where a stage comes too early or is left out matters (`pipeline_in_order_iff`): a row can
be lost to a test of a field that is not parsed yet, a limit can count other rows, and a limit
after `stats` cuts nothing.
-/

namespace Parqtel.Query

open Lib Storage List Stage RowStage StatsTable Pipeline

/-- What the scans of the window return for each signal, unfiltered. -/
structure SignalData (F : Type) where
  logs : List LogRecord
  points : List (String × DataPoint (Parqtel.MetricValue F))
  spans : List Span

section
variable {F : Type} (rt : PipelineRuntime F)

/-! ## Rows -/

def insertLabels (labels : LabelSet) (row : Row F) : Row F :=
  labels.entries.foldl (fun row e => row.insert e.1 (.str e.2)) row

def insertService (labels : LabelSet) (row : Row F) : Row F :=
  match labels.get "service.name" with
  | some svc => row.insert "service" (.str svc)
  | none => row

def logRow (l : LogRecord) : Row F :=
  let row :=
    ((((Row.empty.insert "timestamp_ns" (.int l.timestampNs)).insert "body" (.str l.body)).insert
    "severity" (.str l.severityText)).insert "severity_number" (.int l.severityNumber)).insert
    "trace_id" (.str (rt.hex.encode l.traceId.toList))
  let row := l.attributes.entries.foldl (fun row e =>
    (row.insert s!"attr.{e.1}" (.str e.2)).insert e.1 (.str e.2)) row
  insertService l.resourceAttributes (insertLabels l.resourceAttributes row)

def pointRow (name : String) (pt : DataPoint (Parqtel.MetricValue F)) : Row F :=
  let value := match pt.value with
    | .double v => v
    | .int v => rt.platform.ofInt v
    | .histogram _ | .summary _ => rt.platform.nan
  let row :=
    ((Row.empty.insert "timestamp_ns" (.int pt.timestampNs)).insert "__name__" (.str name)).insert
    "value" (jsonFloat rt value)
  insertService pt.labels (insertLabels pt.labels row)

def spanMillis (s : Span) : F :=
  rt.platform.div (rt.platform.ofInt (spanDurationNs s)) (rt.platform.ofRat 1000000)

def spanRow (s : Span) : Row F :=
  let row :=
    (((((Row.empty.insert "timestamp_ns" (.int s.startTimeNs)).insert "name" (.str s.name)).insert
    "trace_id" (.str (rt.hex.encode s.traceId.toList))).insert "duration_ms"
    (jsonFloat rt (spanMillis rt s))).insert
    "status" (.str (spanStatus s.statusCode))).insert "kind" (.str (spanKind s.kind))
  insertService s.attributes (insertLabels s.attributes row)

def SignalData.rows (data : SignalData F) : SignalType → List (Row F)
  | .logs => data.logs.map (logRow rt)
  | .metrics => data.points.map fun e => pointRow rt e.1 e.2
  | .traces => data.spans.map (spanRow rt)

def SignalData.fetch (data : SignalData F) (signal : SignalType) (filter : Option (Predicate F)) :
    List (Row F) :=
  (data.rows rt signal).filter fun row => filter.all fun pred => row.satisfies rt pred

/-! ## Correlation -/

def within (a b w : ℤ) : Bool := (|(a - b).bmod (2 ^ 64)|).bmod (2 ^ 64) ≤ w

def spansFor (data : SignalData F) (windowNs : ℤ) (row : Row F) : List Span :=
  let ofTrace := data.spans.filter fun s =>
    row.getStr "trace_id" = some (rt.hex.encode s.traceId.toList)
  if ofTrace ≠ [] then ofTrace
  else
    match row.getStr "service" with
    | none => []
    | some svc => data.spans.filter fun s =>
        s.attributes.get "service.name" = some svc &&
          within s.startTimeNs row.tsNs (max windowNs 1)

def correlateTraces (data : SignalData F) (windowNs : ℤ) (row : Row F) : Row F :=
  match spansFor rt data windowNs row with
  | [] => row
  | s :: spans =>
    let matched := s :: spans
    let services := matched.filterMap fun s => s.attributes.get "service.name"
    let longest := (spans.map spanDurationNs).foldl max (spanDurationNs s)
    ((row.insert "correlated.trace_services" (.strs services)).insert "correlated.span_count"
      (.int matched.length)).insert "correlated.trace_duration_ms"
        (jsonFloat rt (rt.platform.div (rt.platform.ofInt longest) (rt.platform.ofRat 1000000)))

def maxSeverity (acc : Option F) (x : F) : Option F :=
  match acc with
  | some a => if rt.platform.le x a then some a else some x
  | none => some x

def correlateLogs (data : SignalData F) (windowNs : ℤ) (row : Row F) : Row F :=
  match row.getStr "service" with
  | none => row
  | some svc =>
    let hits := (data.rows rt .logs).filter fun l =>
      l.getStr "service" = some svc && within l.tsNs row.tsNs (max windowNs 1)
    if hits = [] then row
    else
      let row := row.insert "correlated.log_count" (.int hits.length)
      match (hits.filterMap fun l => l.getNum rt "severity_number").foldl (maxSeverity rt) none with
      | some severity => row.insert "correlated.max_severity_number" (jsonFloat rt severity)
      | none => row

def correlateRow (data : SignalData F) (signal : SignalType) (windowNs : ℤ) (row : Row F) : Row F :=
  match signal with
  | .traces => correlateTraces rt data windowNs row
  | .logs => correlateLogs rt data windowNs row
  | .metrics => row

/-! ## The executor -/

namespace Stage

def asFilter : Stage F → Option (Predicate F)
  | .filter pred => some pred
  | _ => none

def asCorrelate : Stage F → Option (SignalType × ℤ)
  | .correlate signal windowNs => some (signal, windowNs)
  | _ => none

end Stage

def executePipeline (data : SignalData F) (π : Pipeline F) : Eval (PipelineResult F) :=
  let rows := data.fetch rt π.fetchSignal (π.stages.findSome? asFilter)
  match π.stages.findSome? asCorrelate with
  | some (signal, windowNs) =>
    runStages rt π.stages (rows.map (correlateRow rt data signal windowNs))
  | none => runStages rt π.stages rows

/-! ## The pipeline as written -/

def StatsTable.take (t : StatsTable F) (n : ℕ) : StatsTable F :=
  { t with
    rows := t.rows.take n
    timeseries := t.timeseries.map fun ts => { ts with series := ts.series.take n } }

/-- One stage, on what there is at that point. A table has no rows to test, change, correlate or
aggregate. -/
def applyStage (data : SignalData F) : PipelineResult F → Stage F → Eval (PipelineResult F)
  | .rows rows, .fetch _ => .ok (.rows rows)
  | .rows rows, .filter pred => .ok (.rows (rows.filter fun r => r.satisfies rt pred))
  | .rows rows, .parse pattern field =>
    match rt.platform.regex pattern with
    | .error e => invalid s!"parse regex: {e}"
    | .ok re => .ok (.rows (rows.map (parseRow rt re field)))
  | .rows rows, .stats aggs names intervalNs => do
    return .table (← finishStats rt rows aggs names intervalNs)
  | .rows rows, .limit n => .ok (.rows (rows.take n))
  | .rows rows, .correlate signal windowNs =>
    .ok (.rows (rows.map (correlateRow rt data signal windowNs)))
  | .table t, .limit n => .ok (.table (t.take n))
  | .table t, _ => .ok (.table t)

def runInOrder (data : SignalData F) (π : Pipeline F) : Eval (PipelineResult F) :=
  π.stages.foldlM (applyStage rt data) (.rows (data.rows rt π.fetchSignal))

/-! ## Both as stages over rows -/

def Stage.asRun : Stage F → List (RowStage (Row F))
  | .filter pred => [.keep fun r => r.satisfies rt pred]
  | .parse pattern field =>
    match rt.platform.regex pattern with
    | .ok re => [.change (parseRow rt re field)]
    | .error _ => []
  | .limit n => [.cut n]
  | .fetch _ | .stats _ _ _ | .correlate _ _ => []

def Stage.asWritten (data : SignalData F) : Stage F → List (RowStage (Row F))
  | .correlate signal windowNs => [.change (correlateRow rt data signal windowNs)]
  | s => s.asRun rt

def Pipeline.rowStages (π : Pipeline F) : List (Stage F) := π.stages.takeWhile fun s => !s.isStats

def StatsTable.limited (t : StatsTable F) (stages : List (Stage F)) : StatsTable F :=
  stages.foldl (fun t s => match s with
    | .limit n => t.take n
    | _ => t) t

/-- What becomes of the rows that reach the first `stats`, if there is one, with `finish` for the
table. -/
def finishWith (finish : List (Stage F) → StatsTable F → StatsTable F) (rows : List (Row F)) :
    List (Stage F) → Eval (PipelineResult F)
  | .stats aggs names intervalNs :: stages => do
    let t ← finishStats rt rows aggs names intervalNs
    return .table (finish stages t)
  | _ => .ok (.rows rows)

variable {stages : List (Stage F)}

theorem runStages_eq (h : ∀ s ∈ stages, s.Compiles rt.platform) (rows : List (Row F)) :
    runStages rt stages rows = finishWith rt (fun _ t => t)
        (run ((stages.takeWhile fun s => !s.isStats).flatMap (asRun rt)) rows)
        (stages.dropWhile fun s => !s.isStats) := by
  induction stages generalizing rows with
  | nil => rfl
  | cons s stages ih =>
    obtain ⟨hs, hstages⟩ := forall_mem_cons.mp h
    have hih := ih hstages
    cases s with
    | stats aggs names intervalNs => rfl
    | parse pattern field =>
      obtain ⟨re, hre⟩ := hs
      have hrun : asRun rt (.parse pattern field) = [.change (parseRow rt re field)] := by
        simp only [asRun, hre]
      simp only [runStages, hre, hih]
      rw [takeWhile_cons, dropWhile_cons]
      simp only [isStats, Bool.not_false, if_true, flatMap_cons, hrun]
      rfl
    | _ =>
      rw [runStages, hih]
      rfl

theorem foldlM_table (data : SignalData F) (t : StatsTable F) (stages : List (Stage F)) :
    stages.foldlM (applyStage rt data) (.table t) = .ok (.table (t.limited stages)) := by
  induction stages generalizing t with
  | nil => rfl
  | cons s stages ih =>
    cases s with
    | limit n => exact ih (t.take n)
    | _ => exact ih t

theorem foldlM_applyStage (h : ∀ s ∈ stages, s.Compiles rt.platform) (data : SignalData F)
    (rows : List (Row F)) :
    stages.foldlM (applyStage rt data) (.rows rows) =
      finishWith rt (fun stages t => t.limited stages)
        (run ((stages.takeWhile fun s => !s.isStats).flatMap (asWritten rt data)) rows)
        (stages.dropWhile fun s => !s.isStats) := by
  induction stages generalizing rows with
  | nil => rfl
  | cons s stages ih =>
    obtain ⟨hs, hstages⟩ := forall_mem_cons.mp h
    have hih := ih hstages
    rw [foldlM_cons]
    cases s with
    | stats aggs names intervalNs =>
      simp only [applyStage, takeWhile_cons, dropWhile_cons, isStats, Bool.not_true,
        Bool.false_eq_true, if_false, flatMap_nil, finishWith, run, foldl_nil]
      cases finishStats rt rows aggs names intervalNs with
      | error fault => rfl
      | ok t => exact foldlM_table rt data t stages
    | parse pattern field =>
      obtain ⟨re, hre⟩ := hs
      have hrun : asWritten rt data (.parse pattern field) = [.change (parseRow rt re field)] := by
        simp only [asWritten, asRun, hre]
      simp only [applyStage, hre, ok_bind, hih]
      rw [takeWhile_cons, dropWhile_cons]
      simp only [isStats, Bool.not_false, if_true, flatMap_cons, hrun]
      rfl
    | _ =>
      simp only [applyStage, ok_bind, hih]
      rfl

/-! ## Moving a filter and a correlation -/

def Pipeline.hoisted (data : SignalData F) (π : Pipeline F) : List (RowStage (Row F)) :=
  match π.stages.findSome? asCorrelate with
  | some (signal, windowNs) => [.change (correlateRow rt data signal windowNs)]
  | none => []

/-- The first filter may be tested at the fetch already: a limit before it finds only rows that
pass, and neither what stands before it nor the correlation changes its verdict on a row. -/
def Pipeline.FilterMoves (data : SignalData F) (π : Pipeline F) : Prop :=
  ∀ before pred after, π.stages = before ++ .filter pred :: after →
    (∀ s ∈ before, s.asFilter = none) →
    ((∃ n, .limit n ∈ before) → ∀ r ∈ data.rows rt π.fetchSignal, r.satisfies rt pred = true) ∧
      ∀ r ∈ data.rows rt π.fetchSignal,
        (through (π.hoisted rt data ++ before.flatMap (asRun rt)) r).satisfies rt pred =
          r.satisfies rt pred

/-- The first correlation may be made at the fetch already, and is the only one: no `stats` stands
before it, no other correlation follows on rows, and the stages before it do to a correlated row
what they do to the row. -/
def Pipeline.CorrelationMoves (data : SignalData F) (π : Pipeline F) : Prop :=
  ∀ before signal windowNs after, π.stages = before ++ .correlate signal windowNs :: after →
    (∀ s ∈ before, s.asCorrelate = none) →
    (∀ s ∈ before, s.isStats = false) ∧
      (∀ s ∈ after.takeWhile (fun s => !s.isStats), s.asCorrelate = none) ∧
      ∀ r ∈ data.rows rt π.fetchSignal,
        RowStage.Commutes (correlateRow rt data signal windowNs) (before.flatMap (asRun rt)) r

variable {π : Pipeline F} {s : Stage F}

theorem rowStages_append {before after : List (Stage F)} (h : π.stages = before ++ s :: after)
    (hbefore : ∀ s ∈ before, s.isStats = false) (hs : s.isStats = false) :
    π.rowStages = before ++ s :: after.takeWhile fun s => !s.isStats := by
  rw [rowStages, h, takeWhile_append_of_pos fun s hs => by simp [hbefore s hs]]
  rw [takeWhile_cons_of_pos (by simp [hs])]

theorem isStats_before {before after : List (Stage F)}
    (h : rowsAfterStats (before ++ s :: after) = false) (hs : s.wantsRows = true) :
    ∀ b ∈ before, b.isStats = false := by
  induction before with
  | nil => nofun
  | cons b before ih =>
    unfold rowsAfterStats at h
    rw [cons_append, dropWhile_cons] at h
    cases hb : b.isStats with
    | true =>
      simp [hb, hs] at h
    | false =>
      simp only [hb, Bool.not_false, if_true] at h
      exact forall_mem_cons.mpr ⟨hb, ih h⟩

theorem asRun_isKeep (h : s.asFilter = none) : ∀ t ∈ s.asRun rt, t.isKeep = false := by
  cases s with
  | filter pred => cases h
  | parse pattern field =>
    unfold asRun
    dsimp only
    split <;> simp [isKeep]
  | _ => simp [asRun, isKeep]

theorem asRun_isCut {t : RowStage (Row F)} (ht : t ∈ s.asRun rt) (h : t.isCut = true) :
    ∃ n, s = .limit n := by
  cases s with
  | limit n => exact ⟨n, rfl⟩
  | parse pattern field =>
    unfold asRun at ht
    dsimp only at ht
    split at ht <;> simp_all [isCut]
  | _ => simp_all [asRun, isCut]

theorem asWritten_eq_asRun (data : SignalData F) (h : ∀ s ∈ stages, s.asCorrelate = none) :
    stages.flatMap (asWritten rt data) = stages.flatMap (asRun rt) := by
  refine flatMap_congr fun s hs => ?_
  have hs := h s hs
  cases s with
  | correlate signal windowNs => cases hs
  | _ => rfl

theorem hoisted_shape (data : SignalData F) (π : Pipeline F) :
    ∀ s ∈ π.hoisted rt data, s.isKeep = false ∧ s.isCut = false := by
  unfold hoisted
  split <;> simp [isKeep, isCut]

/-- The test at the fetch takes away nothing that would get past the filter later. -/
theorem run_fetch {data : SignalData F} (hrows : rowsAfterStats π.stages = false)
    (hmoves : π.FilterMoves rt data) :
    run (π.rowStages.flatMap (asRun rt)) (run (π.hoisted rt data)
        (data.fetch rt π.fetchSignal (π.stages.findSome? asFilter))) =
      run (π.rowStages.flatMap (asRun rt)) (run (π.hoisted rt data)
        (data.rows rt π.fetchSignal)) := by
  cases hfirst : π.stages.findSome? asFilter with
  | none => simp [SignalData.fetch]
  | some pred =>
    obtain ⟨before, s, after, hstages, hs, hbefore⟩ := findSome?_eq_some_iff.mp hfirst
    have hsome : s = .filter pred := by
      cases s with
      | filter q => rw [Option.some.inj hs]
      | _ => cases hs
    subst hsome
    obtain ⟨hlimit, hverdict⟩ := hmoves before pred after hstages hbefore
    have hstats := isStats_before (hstages ▸ hrows) rfl
    have hfilter : (run (π.hoisted rt data ++ before.flatMap (asRun rt))
          ((data.rows rt π.fetchSignal).filter fun r => r.satisfies rt pred)).filter
            (fun r => r.satisfies rt pred) =
        (run (π.hoisted rt data ++ before.flatMap (asRun rt))
          (data.rows rt π.fetchSignal)).filter fun r => r.satisfies rt pred := by
      refine run_filter ?_ ?_ hverdict
      · intro t ht
        obtain ht | ht := mem_append.mp ht
        · exact (hoisted_shape rt data π t ht).1
        · obtain ⟨s, hs, ht⟩ := mem_flatMap.mp ht
          exact asRun_isKeep rt (hbefore s hs) t ht
      · rintro ⟨t, ht, hcut⟩
        obtain ht | ht := mem_append.mp ht
        · rw [(hoisted_shape rt data π t ht).2] at hcut
          cases hcut
        · obtain ⟨s, hs, ht⟩ := mem_flatMap.mp ht
          obtain ⟨n, rfl⟩ := asRun_isCut rt ht hcut
          exact hlimit ⟨n, hs⟩
    rw [run_append, run_append] at hfilter
    rw [rowStages_append hstages hstats rfl, flatMap_append, flatMap_cons,
      run_append, run_append, run_append, run_append]
    exact congrArg _ hfilter

theorem run_hoisted {data : SignalData F} (hmoves : π.CorrelationMoves rt data) :
    run (π.rowStages.flatMap (asRun rt)) (run (π.hoisted rt data)
        (data.rows rt π.fetchSignal)) =
      run (π.rowStages.flatMap (asWritten rt data)) (data.rows rt π.fetchSignal) := by
  unfold hoisted
  cases hfirst : π.stages.findSome? asCorrelate with
  | none =>
    have hnone : ∀ s ∈ π.rowStages, s.asCorrelate = none := fun s hs =>
      findSome?_eq_none_iff.mp hfirst s (takeWhile_subset _ hs)
    rw [asWritten_eq_asRun rt data hnone]
    rfl
  | some c =>
    obtain ⟨signal, windowNs⟩ := c
    obtain ⟨before, s, after, hstages, hs, hbefore⟩ := findSome?_eq_some_iff.mp hfirst
    have hsome : s = .correlate signal windowNs := by
      cases s with
      | correlate signal' windowNs' =>
        obtain ⟨rfl, rfl⟩ := Prod.mk.inj (Option.some.inj hs)
        rfl
      | _ => cases hs
    subst hsome
    obtain ⟨hstats, hafter, hcommutes⟩ := hmoves before signal windowNs after hstages hbefore
    rw [rowStages_append hstages hstats rfl, flatMap_append, flatMap_append, flatMap_cons,
      flatMap_cons, asWritten_eq_asRun rt data hbefore, asWritten_eq_asRun rt data hafter,
      run_append, run_append, run_append, run_append]
    have hmap := run_map hcommutes
    exact congrArg _ hmap

/-! ## Limits after the statistics -/

def StatsTable.size (t : StatsTable F) : ℕ :=
  max t.rows.length (match t.timeseries with
    | some ts => ts.series.length
    | none => 0)

theorem StatsTable.take_size_le (t : StatsTable F) (n : ℕ) : (t.take n).size ≤ min n t.size := by
  obtain ⟨columns, rows, ts⟩ := t
  cases ts with
  | none => simp [take, size]
  | some ts => simp [take, size]; omega

theorem StatsTable.take_eq_self {t : StatsTable F} {n : ℕ} (h : t.size ≤ n) : t.take n = t := by
  obtain ⟨columns, rows, ts⟩ := t
  obtain ⟨hrows, hseries⟩ := max_le_iff.mp h
  cases ts with
  | none => simp [take, take_of_length_le hrows]
  | some ts => simp [take, take_of_length_le hrows, take_of_length_le hseries]

theorem StatsTable.limited_size_le (t : StatsTable F) (stages : List (Stage F)) :
    (t.limited stages).size ≤ t.size ∧ ∀ n, .limit n ∈ stages → (t.limited stages).size ≤ n := by
  induction stages generalizing t with
  | nil => exact ⟨le_rfl, nofun⟩
  | cons s stages ih =>
    cases s with
    | limit m =>
      obtain ⟨hle, hall⟩ := ih (t.take m)
      obtain ⟨hm, ht⟩ := le_min_iff.mp (t.take_size_le m)
      refine ⟨hle.trans ht, fun n hn => ?_⟩
      obtain h | h := mem_cons.mp hn
      · cases h
        exact hle.trans hm
      · exact hall n h
    | _ =>
      obtain ⟨hle, hall⟩ := ih t
      refine ⟨hle, fun n hn => ?_⟩
      obtain h | h := mem_cons.mp hn
      · cases h
      · exact hall n h

theorem StatsTable.limited_eq_self_iff {t : StatsTable F} :
    t.limited stages = t ↔ ∀ n, .limit n ∈ stages → t.size ≤ n := by
  refine ⟨fun h n hn => ?_, fun h => ?_⟩
  · have hle := (t.limited_size_le stages).2 n hn
    rwa [h] at hle
  · induction stages with
    | nil => rfl
    | cons s stages ih =>
      have ih := ih fun n hn => h n (mem_cons_of_mem _ hn)
      cases s with
      | limit m =>
        have htake := take_eq_self (h m mem_cons_self)
        change (t.take m).limited stages = t
        rw [htake]
        exact ih
      | _ => exact ih

/-- No limit after `stats` is below what the statistics of the rows that reach it have. -/
def Pipeline.LimitsSpare (data : SignalData F) (π : Pipeline F) : Prop :=
  ∀ aggs names intervalNs after t,
    π.stages.dropWhile (fun s => !s.isStats) = .stats aggs names intervalNs :: after →
    finishStats rt (run (π.rowStages.flatMap (asWritten rt data))
      (data.rows rt π.fetchSignal)) aggs names intervalNs = .ok t →
    ∀ n, .limit n ∈ after → t.size ≤ n

theorem finishWith_eq_iff (rows : List (Row F)) (stages : List (Stage F)) :
    finishWith rt (fun _ t => t) rows stages =
        finishWith rt (fun stages t => t.limited stages) rows stages ↔
      ∀ aggs names intervalNs after t, stages = .stats aggs names intervalNs :: after →
        finishStats rt rows aggs names intervalNs = .ok t → ∀ n, .limit n ∈ after → t.size ≤ n := by
  unfold finishWith
  split
  case h_1 aggs names intervalNs after =>
    cases hfinish : finishStats rt rows aggs names intervalNs with
    | error fault =>
      refine iff_of_true rfl ?_
      rintro _ _ _ _ t ⟨⟩ ht
      rw [hfinish] at ht
      cases ht
    | ok t =>
      change Except.ok (PipelineResult.table t) = .ok (.table (t.limited after)) ↔ _
      constructor
      · rintro h _ _ _ _ t' ⟨⟩ ht
        obtain rfl := Except.ok.inj (hfinish.symm.trans ht)
        exact limited_eq_self_iff.mp (PipelineResult.table.inj (Except.ok.inj h)).symm
      · intro h
        rw [limited_eq_self_iff.mpr (h _ _ _ _ t rfl hfinish)]
  case h_2 hnot => exact iff_of_true rfl fun _ _ _ _ _ h => absurd h (hnot _ _ _ _)

/-- **A pipeline runs its stages in order** where its filter and its correlation may be moved to
the fetch, exactly if no limit after `stats` has anything to cut. -/
theorem pipeline_in_order_iff {build : Build} {input : List Char} {π : Pipeline F}
    (h : parsePipeline rt.platform build rt.ql input = .ok π) (data : SignalData F)
    (hfilter : π.FilterMoves rt data) (hcorrelate : π.CorrelationMoves rt data) :
    executePipeline rt data π = runInOrder rt data π ↔ π.LimitsSpare rt data := by
  obtain ⟨-, hcompiles, hrows⟩ := parsePipeline_spec _ _ _ h
  have hexecute : executePipeline rt data π = runStages rt π.stages
      (run (π.hoisted rt data)
        (data.fetch rt π.fetchSignal (π.stages.findSome? asFilter))) := by
    unfold executePipeline hoisted
    cases π.stages.findSome? asCorrelate <;> rfl
  rw [hexecute, runStages_eq rt hcompiles, runInOrder, foldlM_applyStage rt hcompiles]
  have hreach := (run_fetch rt hrows hfilter).trans (run_hoisted rt hcorrelate)
  unfold rowStages at hreach
  rw [hreach]
  exact finishWith_eq_iff rt _ _

end

namespace Sample

def say (body : String) : LogRecord :=
  { untraced with body, resourceAttributes := LabelSet.empty.with "service.name" "api" }

def startedByBody : Pipeline (Option ℚ) where
  stages := [.fetch .logs, .filter (.leaf (.term ⟨"started", false, false, false⟩)),
    .stats [⟨.count, none, none⟩] ["body"] none, .limit 1]

def readsStarted : Eval (Pipeline (Option ℚ)) → Bool
  | .ok ⟨[.fetch .logs, .filter (.leaf (.term t)), .stats aggs names none, .limit n]⟩ =>
    t = ⟨"started", false, false, false⟩ && aggs = [⟨.count, none, none⟩] &&
      names = ["body"] && n = 1
  | _ => false

theorem eq_startedByBody {x : Eval (Pipeline (Option ℚ))} (h : readsStarted x = true) :
    x = .ok startedByBody := by
  unfold readsStarted at h
  split at h
  · simp only [Bool.and_eq_true, decide_eq_true_eq] at h
    obtain ⟨⟨⟨rfl, rfl⟩, rfl⟩, rfl⟩ := h
    rfl
  · cases h

def logsOnly (logs : List LogRecord) : SignalData (Option ℚ) := ⟨logs, [], []⟩

def sizes (input : String) (logs : List LogRecord) : Eval (ℕ × ℕ) := do
  let π ← parsePipeline pipelineRuntime.platform .release pipelineRuntime.ql input.toList
  let size : PipelineResult (Option ℚ) → ℕ
    | .rows rows => rows.length
    | .table t => t.size
  return (size (← executePipeline pipelineRuntime (logsOnly logs) π),
    size (← runInOrder pipelineRuntime (logsOnly logs) π))

end Sample

open Sample in
theorem pipeline_in_order_started :
    let data := logsOnly [say "started", say "stopped"]
    executePipeline pipelineRuntime data startedByBody =
      runInOrder pipelineRuntime data startedByBody := by
  intro data
  have hparse : parsePipeline pipelineRuntime.platform .release pipelineRuntime.ql
      "fetch logs | filter started | stats count() by body | limit 1".toList = .ok startedByBody :=
    eq_startedByBody (by decide +kernel)
  refine (pipeline_in_order_iff pipelineRuntime hparse data ?_ ?_).mpr ?_
  · rintro (_ | ⟨b, _ | ⟨b', rest⟩⟩) pred after h hbefore
    · cases h
    · cases h
      exact ⟨by simp, by decide +kernel⟩
    · obtain ⟨-, hfilter⟩ := List.cons.inj h
      obtain ⟨rfl, -⟩ := List.cons.inj hfilter
      cases hbefore _ (mem_cons_of_mem _ mem_cons_self)
  · rintro before signal windowNs after h -
    have hmem : correlate signal windowNs ∈ startedByBody.stages := by simp [h]
    simp [startedByBody] at hmem
  · rintro aggs names intervalNs after t h ht n hn
    have hsize : (finishStats pipelineRuntime (run
        (startedByBody.rowStages.flatMap (asWritten pipelineRuntime data))
        (data.rows pipelineRuntime .logs)) [⟨.count, none, none⟩] ["body"] none).map
          size = .ok 1 := by
      decide +kernel
    cases h
    rw [show startedByBody.fetchSignal = .logs from rfl] at ht
    rw [ht] at hsize
    obtain hn := mem_singleton.mp hn
    cases hn
    exact (Except.ok.inj hsize).le

open Sample in
/-- **Stages out of order.** A field that is parsed first cannot be filtered by, nor one of a
correlation; a limit in front of the filter counts only rows that pass it; and a limit after
`stats` cuts nothing. -/
theorem pipeline_out_of_order :
    sizes "fetch logs | parse \"(.*)\" as text | filter text=started" [say "started"] = .ok (0, 1) ∧
      sizes "fetch logs | correlate logs | filter correlated.log_count=1" [say "started"] =
        .ok (0, 1) ∧
      sizes "fetch logs | limit 1 | filter stopped" [say "started", say "stopped"] = .ok (1, 0) ∧
      sizes "fetch logs | stats count() by body | limit 1" [say "started", say "stopped"] =
        .ok (2, 1) := by
  decide +kernel

end Parqtel.Query
