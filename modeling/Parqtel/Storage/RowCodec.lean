import Parqtel.Query.Platform
import Parqtel.Storage.MetricBatch

/-!
# The rows of log and trace blocks

`logsToChunk` and `tracesToChunk` write a record as a row of cells, `rowToLog` and `rowToSpan`
read it again. Each turn of the writer's loop appends one cell to every column, so a batch is the
list of its rows. Two caches take part: the writer resolves a resource by the address of its
shared label set, the reader a label set by its text. Neither changes a result (`resolve_eq`,
`cached_eq`). A log record always reads back; a span does if its kind and status have a name
(`rows_read_back_iff`).
-/

namespace Parqtel.Storage

open Lib Lib.Json Serde
open List hiding Vector
open Parqtel.Query (Build Eval InI64 i64 i64_debug_eq_ok i64_eq_error)

variable {T F : Type} {fl : Format.Floats F} (text : Text fl.Finite T)

/-! ## The writer's cache of resources -/

structure ResolvedResource (T : Type) where
  json : T
  correlation : CorrelationLabels

def resourceCacheMax : ℕ := 4096

structure ResourceCache (T : Type) where
  byAddr : List (ℕ × ℕ)
  resolved : List (LabelSet × ResolvedResource T)

def resolveLabels (labels : LabelSet) : ResolvedResource T :=
  ⟨jsonStr text (extractCorrelationLabels labels).1, (extractCorrelationLabels labels).2⟩

variable {heap : ℕ → LabelSet}

namespace ResourceCache

def empty : ResourceCache T := ⟨[], []⟩

/-- Resolve the label set at an address, from the cache if it was seen. A full cache is emptied
first. -/
def resolve (c : ResourceCache T) (addr : ℕ) (labels : LabelSet) :
    ResolvedResource T × ResourceCache T :=
  match (c.byAddr.lookup addr).bind fun i => c.resolved[i]? with
  | some entry => (entry.2, c)
  | none =>
    let c := if resourceCacheMax ≤ c.resolved.length then empty else c
    (resolveLabels text labels,
      ⟨(addr, c.resolved.length) :: c.byAddr, c.resolved ++ [(labels, resolveLabels text labels)]⟩)

def Valid (heap : ℕ → LabelSet) (c : ResourceCache T) : Prop :=
  ∀ addr i, (addr, i) ∈ c.byAddr → c.resolved[i]? = some (heap addr, resolveLabels text (heap addr))

theorem valid_empty (heap : ℕ → LabelSet) : (empty : ResourceCache T).Valid text heap := nofun

/-- **The cache is transparent.** -/
theorem resolve_eq {c : ResourceCache T} (h : c.Valid text heap) (addr : ℕ) :
    (c.resolve text addr (heap addr)).1 = resolveLabels text (heap addr) ∧
      (c.resolve text addr (heap addr)).2.Valid text heap := by
  have hpush : ∀ c : ResourceCache T, c.Valid text heap →
      Valid text heap (⟨(addr, c.resolved.length) :: c.byAddr,
        c.resolved ++ [(heap addr, resolveLabels text (heap addr))]⟩ : ResourceCache T) := by
    intro c hc a i hi
    rcases mem_cons.mp hi with heq | hi
    · cases heq
      simp
    · exact getElem?_append_of (hc a i hi) _
  unfold resolve
  cases hl : c.byAddr.lookup addr with
  | some i =>
    rw [Option.bind_some, h addr i (mem_of_lookup hl)]
    exact ⟨rfl, h⟩
  | none =>
    refine ⟨rfl, hpush _ ?_⟩
    split_ifs
    · exact valid_empty text heap
    · exact h

end ResourceCache

/-! ## The reader's cache of label sets -/

abbrev TextCache (T : Type) := List (T × LabelSet)

def cached [DecidableEq T] (cache : TextCache T) (json : T) :
    Except Error (LabelSet × TextCache T) :=
  match cache.lookup json with
  | some labels => .ok (labels, cache)
  | none => do
    let labels ← fromJson text json
    return (labels, (json, labels) :: cache)

def TextCache.Valid (cache : TextCache T) : Prop :=
  ∀ e ∈ cache, fromJson text e.1 = .ok e.2

/-- **So is this one.** -/
theorem cached_eq [DecidableEq T] {cache : TextCache T} (h : cache.Valid text) (labels : LabelSet) :
    ∃ cache', cached text cache (jsonStr text labels) = .ok (labels, cache') ∧
      TextCache.Valid text cache' := by
  unfold cached
  cases hl : cache.lookup (jsonStr text labels) with
  | some found =>
    have hfound := (fromJson_jsonStr text labels).symm.trans (h _ (mem_of_lookup hl))
    exact ⟨cache, by rw [Except.ok.inj hfound], h⟩
  | none =>
    refine ⟨(jsonStr text labels, labels) :: cache, ?_,
      forall_mem_cons.mpr ⟨fromJson_jsonStr text labels, h⟩⟩
    simp only [fromJson_jsonStr, ok_bind]
    rfl

/-! ## Logs -/

def LogCells.written (log : LogRecord) (res : ResolvedResource T) : LogCells T :=
  .of log res.correlation (jsonStr text log.attributes) res.json

/-- The rows of a log block. Each record comes with the address of its resource's label set. -/
def logsToChunk : ResourceCache T → List (ℕ × LogRecord) → List (LogCells T)
  | _, [] => []
  | cache, (addr, log) :: logs =>
    let found := cache.resolve text addr log.resourceAttributes
    .written text log found.1 :: logsToChunk found.2 logs

def LogCells.rowToLog [DecidableEq T] (row : LogCells T) (attrCache resCache : TextCache T) :
    Except Error (LogRecord × TextCache T × TextCache T) := do
  let (resourceAttributes, resCache) ← cached text resCache row.resourceAttributes
  let (attributes, attrCache) ← cached text attrCache row.attributes
  return (row.toLog attributes resourceAttributes, attrCache, resCache)

def LogCells.rowsToLogs [DecidableEq T] :
    List (LogCells T) → TextCache T → TextCache T → Except Error (List LogRecord)
  | [], _, _ => .ok []
  | row :: rows, attrCache, resCache => do
    let (log, attrCache, resCache) ← rowToLog text row attrCache resCache
    return log :: (← rowsToLogs rows attrCache resCache)

open LogCells

def Addressed {R : Type} (heap : ℕ → LabelSet) (labels : R → LabelSet) (rows : List (ℕ × R)) :
    Prop :=
  ∀ e ∈ rows, labels e.2 = heap e.1

variable {cache : ResourceCache T}

theorem logsToChunk_eq {logs : List (ℕ × LogRecord)} (hcache : cache.Valid text heap)
    (h : Addressed heap LogRecord.resourceAttributes logs) :
    logsToChunk text cache logs =
      logs.map fun e => .written text e.2 (resolveLabels text e.2.resourceAttributes) := by
  induction logs generalizing cache with
  | nil => rfl
  | cons e logs ih =>
    obtain ⟨hhead, htail⟩ := forall_mem_cons.mp h
    obtain ⟨hres, hvalid⟩ := ResourceCache.resolve_eq text hcache e.1
    rw [← hhead] at hres hvalid
    dsimp only [logsToChunk]
    rw [hres, ih hvalid htail]
    rfl

/-- **A log record reads back as it was written.** -/
theorem rowToLog_of [DecidableEq T] (log : LogRecord) {attrCache resCache : TextCache T}
    (hattr : attrCache.Valid text) (hres : resCache.Valid text) :
    ∃ attrCache' resCache', rowToLog text
        (.written text log (resolveLabels text log.resourceAttributes)) attrCache resCache =
        .ok (log, attrCache', resCache') ∧
      TextCache.Valid text attrCache' ∧ TextCache.Valid text resCache' := by
  obtain ⟨resCache', hr, hres'⟩ :=
    cached_eq text hres (extractCorrelationLabels log.resourceAttributes).1
  obtain ⟨attrCache', ha, hattr'⟩ := cached_eq text hattr log.attributes
  refine ⟨attrCache', resCache', ?_, hattr', hres'⟩
  simp only [rowToLog, written, LogCells.of, toLog, resolveLabels, hr, ha, ok_bind, inject_extract]
  rfl

theorem rowsToLogs_of [DecidableEq T] (logs : List LogRecord) {attrCache resCache : TextCache T}
    (hattr : attrCache.Valid text) (hres : resCache.Valid text) :
    rowsToLogs text (logs.map fun l => .written text l (resolveLabels text l.resourceAttributes))
      attrCache resCache = .ok logs := by
  induction logs generalizing attrCache resCache with
  | nil => rfl
  | cons log logs ih =>
    obtain ⟨attrCache', resCache', hread, hattr', hres'⟩ := rowToLog_of text log hattr hres
    rw [map_cons, rowsToLogs, hread, ok_bind]
    dsimp only
    rw [ih hattr' hres']
    rfl

/-! ## Spans -/

/-- One row of a trace block. The duration and the text of the attributes without correlation
labels are written for queries and not read back. -/
structure SpanCells (T : Type) where
  timestampNs : ℤ
  spanId : Vector UInt8 8
  spanName : String
  spanKind : String
  startTimeNs : ℤ
  endTimeNs : ℤ
  durationNs : ℤ
  statusCode : String
  statusMessage : String
  correlation : CorrelationLabels
  traceId : Vector UInt8 16
  parentSpanId : Vector UInt8 8
  flags : UInt32
  traceState : String
  attributes : T
  resourceAttributes : T
  events : T
  links : T

def spanKindName : ℤ → String
  | 1 => "SPAN_KIND_INTERNAL"
  | 2 => "SPAN_KIND_SERVER"
  | 3 => "SPAN_KIND_CLIENT"
  | 4 => "SPAN_KIND_PRODUCER"
  | 5 => "SPAN_KIND_CONSUMER"
  | _ => "SPAN_KIND_UNSPECIFIED"

def spanKindOf : String → ℤ
  | "SPAN_KIND_INTERNAL" => 1
  | "SPAN_KIND_SERVER" => 2
  | "SPAN_KIND_CLIENT" => 3
  | "SPAN_KIND_PRODUCER" => 4
  | "SPAN_KIND_CONSUMER" => 5
  | _ => 0

def statusName : ℤ → String
  | 1 => "STATUS_CODE_OK"
  | 2 => "STATUS_CODE_ERROR"
  | _ => "STATUS_CODE_UNSET"

def statusOf : String → ℤ
  | "STATUS_CODE_OK" => 1
  | "STATUS_CODE_ERROR" => 2
  | _ => 0

def durationNs (build : Build) (span : Span) : Eval ℤ :=
  i64 build (span.endTimeNs - span.startTimeNs)

def SpanCells.of (span : Span) (res : ResolvedResource T) (duration : ℤ) : SpanCells T where
  timestampNs := span.startTimeNs
  spanId := span.spanId
  spanName := span.name
  spanKind := spanKindName span.kind
  startTimeNs := span.startTimeNs
  endTimeNs := span.endTimeNs
  durationNs := duration
  statusCode := statusName span.statusCode
  statusMessage := span.statusMessage
  correlation := res.correlation
  traceId := span.traceId
  parentSpanId := span.parentSpanId
  flags := span.flags
  traceState := span.traceState
  attributes := jsonStr text span.attributes
  resourceAttributes := res.json
  events := text.print (spanEvent.list.write span.events)
  links := text.print (spanLink.list.write span.links)

def tracesToChunk (build : Build) : ResourceCache T → List (ℕ × Span) → Eval (List (SpanCells T))
  | _, [] => .ok []
  | cache, (addr, span) :: spans => do
    let found := cache.resolve text addr span.attributes
    let duration ← durationNs build span
    return .of text span found.1 duration :: (← tracesToChunk build found.2 spans)

def SpanCells.rowToSpan (row : SpanCells T) : Except Error Span := do
  let attributes ← fromJson text row.attributes
  -- events and links that cannot be read are left out
  let events := ((text.parse row.events).bind spanEvent.list.read).getD []
  let links := ((text.parse row.links).bind spanLink.list.read).getD []
  return ⟨row.traceId, row.spanId, row.traceState, row.spanName, spanKindOf row.spanKind,
    row.startTimeNs, row.endTimeNs, injectCorrelation attributes row.correlation, events, links,
    statusOf row.statusCode, row.statusMessage, row.parentSpanId, row.flags⟩

open SpanCells

theorem spanKindOf_name (k : ℤ) : spanKindOf (spanKindName k) = k ↔ 0 ≤ k ∧ k ≤ 5 := by
  by_cases h : 0 ≤ k ∧ k ≤ 5
  · obtain ⟨h0, h5⟩ := h
    interval_cases k <;> decide
  · have hname : spanKindName k = "SPAN_KIND_UNSPECIFIED" := by
      unfold spanKindName
      split <;> first | rfl | omega
    rw [hname]
    exact ⟨fun h0 => by rw [← h0]; decide, fun h' => absurd h' h⟩

theorem statusOf_name (k : ℤ) : statusOf (statusName k) = k ↔ 0 ≤ k ∧ k ≤ 2 := by
  by_cases h : 0 ≤ k ∧ k ≤ 2
  · obtain ⟨h0, h2⟩ := h
    interval_cases k <;> decide
  · have hname : statusName k = "STATUS_CODE_UNSET" := by
      unfold statusName
      split <;> first | rfl | omega
    rw [hname]
    exact ⟨fun h0 => by rw [← h0]; decide, fun h' => absurd h' h⟩

theorem inject_same (labels : LabelSet) :
    injectCorrelation labels (extractCorrelationLabels labels).2 = labels := by
  refine LabelSet.ext_get fun k => ?_
  simp only [injectCorrelation, get_mergeValue, extractCorrelationLabels]
  split_ifs <;> simp_all

/-- The kind and the status of a span have a name. The duration, which is not read back, has to be
an `i64` where overflow is checked. -/
def Writable (build : Build) (span : Span) : Prop :=
  (build = .debug → InI64 (span.endTimeNs - span.startTimeNs)) ∧
    (0 ≤ span.kind ∧ span.kind ≤ 5) ∧ (0 ≤ span.statusCode ∧ span.statusCode ≤ 2)

instance (build : Build) : DecidablePred (Writable build) := fun _ =>
  inferInstanceAs (Decidable (_ ∧ _ ∧ _))

def storedSpan (span : Span) : Span :=
  { span with
    kind := spanKindOf (spanKindName span.kind)
    statusCode := statusOf (statusName span.statusCode) }

theorem rowToSpan_of (span : Span) (duration : ℤ) :
    rowToSpan text (.of text span (resolveLabels text span.attributes) duration) =
      .ok (storedSpan span) := by
  have hevents : spanEvent.list.read
      ((spanEvent : Format fl.Finite _).list.write span.events) = some span.events :=
    Format.list_keeps.mpr fun e _ => spanEvent_keeps e
  have hlinks : spanLink.list.read
      ((spanLink : Format fl.Finite _).list.write span.links) = some span.links :=
    Format.list_keeps.mpr fun l _ => spanLink_keeps l
  simp only [rowToSpan, SpanCells.of, resolveLabels, fromJson_jsonStr, ok_bind,
    text.parse_print, Option.bind_some, hevents, hlinks, Option.getD_some, inject_same]
  rfl

theorem storedSpan_eq_iff (span : Span) : storedSpan span = span ↔
    (0 ≤ span.kind ∧ span.kind ≤ 5) ∧ (0 ≤ span.statusCode ∧ span.statusCode ≤ 2) := by
  rw [← spanKindOf_name, ← statusOf_name]
  obtain ⟨traceId, spanId, traceState, name, kind, startNs, endNs, attributes, events, links, code,
    message, parent, flags⟩ := span
  simp [storedSpan]

theorem tracesToChunk_read {build : Build} {spans : List (ℕ × Span)} {rows : List (SpanCells T)}
    (hcache : cache.Valid text heap) (h : Addressed heap Span.attributes spans)
    (hrows : tracesToChunk text build cache spans = .ok rows) :
    (rows.map fun r => (r.startTimeNs, rowToSpan text r)) =
      spans.map fun e => (e.2.startTimeNs, .ok (storedSpan e.2)) := by
  induction spans generalizing cache rows with
  | nil =>
    obtain rfl := Except.ok.inj hrows
    rfl
  | cons e spans ih =>
    obtain ⟨hhead, htail⟩ := forall_mem_cons.mp h
    obtain ⟨hres, hvalid⟩ := ResourceCache.resolve_eq text hcache e.1
    rw [← hhead] at hres hvalid
    obtain ⟨duration, -, hrows⟩ := bind_eq_ok.mp hrows
    obtain ⟨rest, hrest, hrows⟩ := bind_eq_ok.mp hrows
    obtain rfl := Except.ok.inj hrows
    rw [map_cons, map_cons, ih hvalid htail hrest, hres, rowToSpan_of]
    rfl

theorem tracesToChunk_returns_iff {build : Build} {spans : List (ℕ × Span)} :
    (∃ rows, tracesToChunk text build cache spans = .ok rows) ↔
      ∀ e ∈ spans, build = .debug → InI64 (e.2.endTimeNs - e.2.startTimeNs) := by
  induction spans generalizing cache with
  | nil => simp [tracesToChunk]
  | cons e spans ih =>
    rw [forall_mem_cons]
    constructor
    · rintro ⟨rows, hrows⟩
      obtain ⟨duration, hduration, hrows⟩ := bind_eq_ok.mp hrows
      obtain ⟨rest, hrest, -⟩ := bind_eq_ok.mp hrows
      refine ⟨?_, ih.mp ⟨rest, hrest⟩⟩
      rintro rfl
      exact (i64_debug_eq_ok.mp hduration).2
    · rintro ⟨hfit, hspans⟩
      obtain ⟨rest, hrest⟩ := ih.mpr hspans
      cases hduration : durationNs build e.2 with
      | error fault =>
        obtain ⟨-, hbuild, hout⟩ := i64_eq_error.mp hduration
        exact absurd (hfit hbuild) hout
      | ok duration =>
        exact ⟨_, by rw [tracesToChunk, hduration, ok_bind, hrest]; rfl⟩

def RowsReadBack [DecidableEq T] (build : Build) (logs : List (ℕ × LogRecord))
    (spans : List (ℕ × Span)) : Prop :=
  rowsToLogs text (logsToChunk text .empty logs) [] [] = .ok (logs.map Prod.snd) ∧
  ∃ rows, tracesToChunk text build .empty spans = .ok rows ∧
    rows.map (rowToSpan text) = spans.map fun e => .ok e.2

/-- **Log records always read back; spans do exactly if** each has a kind and a status with a
name and, in a debug build, a duration that fits. -/
theorem rows_read_back_iff [DecidableEq T] (build : Build) {heap : ℕ → LabelSet}
    {logs : List (ℕ × LogRecord)} {spans : List (ℕ × Span)}
    (hlogs : Addressed heap LogRecord.resourceAttributes logs)
    (hspans : Addressed heap Span.attributes spans) :
    RowsReadBack text build logs spans ↔ ∀ e ∈ spans, Writable build e.2 := by
  have hvalid := ResourceCache.valid_empty text heap
  have hread : rowsToLogs text (logsToChunk text .empty logs) [] [] = .ok (logs.map Prod.snd) := by
    have hempty : TextCache.Valid text [] := nofun
    have := rowsToLogs_of text (logs.map Prod.snd) hempty hempty
    rw [logsToChunk_eq text hvalid hlogs]
    rwa [map_map] at this
  have hback : ∀ rows, tracesToChunk text build .empty spans = .ok rows →
      ((rows.map (rowToSpan text) = spans.map fun e => .ok e.2) ↔
        ∀ e ∈ spans, storedSpan e.2 = e.2) := by
    intro rows hrows
    have h := congrArg (map Prod.snd) (tracesToChunk_read text hvalid hspans hrows)
    rw [map_map, map_map] at h
    rw [show rows.map (rowToSpan text) = _ from h, map_inj_left]
    simp only [Function.comp_apply, Except.ok.injEq]
  unfold RowsReadBack
  rw [and_iff_right hread, exists_congr fun rows => and_congr_right (hback rows),
    exists_and_right, tracesToChunk_returns_iff, ← forall₂_and]
  simp only [storedSpan_eq_iff, Writable]

namespace Sample

def hello : LogRecord :=
  ⟨5, 6, 9, "INFO", "hello", .empty, api, .replicate 16 0, .replicate 8 0, 0, "", ""⟩

def spanOfKind (kind : ℤ) : Span :=
  ⟨.replicate 16 1, .replicate 8 1, "", "GET /", kind, 5, 7, api, [], [], 1, "",
    .replicate 8 0, 0⟩

end Sample

open Sample in
open Classical in
theorem rows_read_back_shared_labels :
    RowsReadBack plainText .debug [(0, hello), (0, { hello with timestampNs := 8 })]
      [(0, spanOfKind 2), (1, { spanOfKind 3 with attributes := .empty }), (0, spanOfKind 5)] :=
  (@rows_read_back_iff _ _ _ plainText _ .debug (fun n => if n = 0 then api else .empty) _ _
    (by simp [Addressed, hello]) (by simp [Addressed, spanOfKind])).mpr (by decide)

open Sample in
/-- A kind without a name is lost, and a duration that does not fit stops the writer. -/
theorem span_kind_lost :
    (do let rows ← tracesToChunk plainText .debug .empty [(0, spanOfKind 6)]
        return rows.map fun r => (rowToSpan plainText r).map Span.kind) = .ok [.ok 0] ∧
    (tracesToChunk plainText .debug .empty
      [(0, { spanOfKind 2 with startTimeNs := -2 ^ 63, endTimeNs := 1 })]).map List.length =
        .error .overflow := by
  decide +kernel

end Parqtel.Storage
