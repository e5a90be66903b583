import Parqtel.Storage.Bounds
import Parqtel.Storage.MetricScan
import Parqtel.Storage.RowCodec

/-!
# Searching spans by time

A span has two times, and three tests compare them with a window. The memory buffer keeps a span
whose time overlaps the window (`scanSpans`), the index a block by its bounds
(`BlockIndex.query`), and the scan of a block a row that *starts* in the window
(`scanTraceBlock`). Row groups are pruned by the starts as well, which changes nothing
(`scanTraceBlock_readable`). So a span that starts before the window and reaches into it is found
until it is flushed (`span_window_same_iff`).
-/

namespace Parqtel.Storage

open Parqtel.Lib Parqtel.Lib.Json Parqtel.Ingest List BlockIndex SpanCells
open Parqtel.Query (Build Eval)

variable {T F : Type} {fl : Format.Floats F} (text : Text fl.Finite T)

/-! ## The buffer and the blocks -/

/-- `scan_spans` of the memory buffer: the spans whose time overlaps the window. -/
def scanSpans (spans : List Span) (startNs endNs : Int) : List Span :=
  spans.filter fun s => s.startTimeNs ≤ endNs ∧ startNs ≤ s.endTimeNs

structure TraceRowGroup (T : Type) where
  rows : List (SpanCells T)
  startTimes : TimeChunk (rows.map startTimeNs)

/-- What there is at the path of a block. The last kind is a file on which the reader panics. -/
inductive TraceFile (T : Type) where
  | missing
  | readable (groups : List (TraceRowGroup T))
  | unreadable (e : Error)
  | corrupt

def scanSpanRows (startNs endNs : Int) (limit : ℕ) : List (SpanCells T) → List Span → List Span
  | [], spans => spans
  | row :: rows, spans =>
    if inWindow startNs endNs row.startTimeNs then
      match rowToSpan text row with
      | .ok span =>
        -- the limit is tested after the push, so one span is found even with limit 0
        if limit ≤ (spans ++ [span]).length then spans ++ [span]
        else scanSpanRows startNs endNs limit rows (spans ++ [span])
      | .error _ => scanSpanRows startNs endNs limit rows spans
    else scanSpanRows startNs endNs limit rows spans

def scanTraceBlock (file : TraceFile T) (startNs endNs : Int) (limit : ℕ) : Eval (List Span) :=
  match file with
  | .missing => .ok []
  | .unreadable e => .error (.error e)
  | .corrupt => .error .panic
  | .readable groups =>
    let groups := groups.filter fun g => g.startTimes.mayOverlap startNs endNs
    .ok (scanSpanRows text startNs endNs limit (groups.flatMap TraceRowGroup.rows) [])

/-- The results of the blocks in order, until there are enough. A panic is logged and skipped. -/
def gatherSpans (limit : ℕ) : List (Eval (List Span)) → List Span → Except Error (List Span)
  | [], all => .ok all
  | .ok spans :: rest, all =>
    if limit ≤ (all ++ spans).length then .ok (all ++ spans)
    else gatherSpans limit rest (all ++ spans)
  | .error (.error e) :: _, _ => .error e
  | .error _ :: rest, all => gatherSpans limit rest all

def scanTraces (blocks : List (TraceFile T)) (startNs endNs : Int) (limit : ℕ) :
    Except Error (List Span) := do
  let all ← gatherSpans limit (blocks.map fun b => scanTraceBlock text b startNs endNs limit) []
  return (sortByKey Span.startTimeNs all).take limit

/-! ## What a scan finds -/

def windowSpans (startNs endNs : Int) (rows : List (SpanCells T)) : List Span :=
  (rows.filter fun r => inWindow startNs endNs r.startTimeNs).filterMap fun r =>
    (rowToSpan text r).toOption

theorem scanSpanRows_eq (startNs endNs : Int) (limit : ℕ) (rows : List (SpanCells T))
    {spans : List Span} (h : spans.length < max limit 1) :
    scanSpanRows text startNs endNs limit rows spans =
      (spans ++ windowSpans text startNs endNs rows).take (max limit 1) := by
  induction rows generalizing spans with
  | nil => simpa [scanSpanRows, windowSpans] using (take_of_length_le h.le).symm
  | cons row rows ih =>
    unfold scanSpanRows
    split_ifs with hw
    · cases hrow : rowToSpan text row with
      | error e => simpa [windowSpans, hw, hrow, Except.toOption] using ih h
      | ok span =>
        have hsplit : spans ++ windowSpans text startNs endNs (row :: rows) =
            (spans ++ [span]) ++ windowSpans text startNs endNs rows := by
          simp [windowSpans, hw, hrow, Except.toOption]
        have hlen : (spans ++ [span]).length = spans.length + 1 := length_append
        dsimp only
        rw [hsplit]
        split_ifs with hfull
        · rw [take_append_of_le_length (by omega), take_of_length_le (by omega)]
        · exact ih (by omega)
    · simpa [windowSpans, hw] using ih h

theorem windowSpans_pruned (startNs endNs : Int) (groups : List (TraceRowGroup T)) :
    windowSpans text startNs endNs ((groups.filter fun g =>
      g.startTimes.mayOverlap startNs endNs).flatMap TraceRowGroup.rows) =
      windowSpans text startNs endNs (groups.flatMap TraceRowGroup.rows) := by
  unfold windowSpans
  rw [filter_flatMap, filter_flatMap, flatMap_filter_eq fun g _ hne => ?_]
  obtain ⟨r, hr⟩ := exists_mem_of_ne_nil _ hne
  obtain ⟨hr, hw⟩ := mem_filter.mp hr
  obtain ⟨hstart, hend⟩ := of_decide_eq_true hw
  exact g.startTimes.mayOverlap_of_mem (mem_map_of_mem hr) hstart hend

theorem scanTraceBlock_readable (groups : List (TraceRowGroup T)) (startNs endNs : Int)
    (limit : ℕ) :
    scanTraceBlock text (.readable groups) startNs endNs limit =
      .ok ((windowSpans text startNs endNs (groups.flatMap TraceRowGroup.rows)).take
        (max limit 1)) := by
  have hstart : ([] : List Span).length < max limit 1 := by simp
  unfold scanTraceBlock
  dsimp only
  rw [scanSpanRows_eq text startNs endNs limit _ hstart, nil_append, windowSpans_pruned]

/-! ## Before and after a flush -/

/-- The file of a block with these spans, in any row groups and with any sound statistics. -/
def HoldsSpans (build : Build) (groups : List (TraceRowGroup T)) (spans : List Span) : Prop :=
  ∃ (heap : ℕ → LabelSet) (addressed : List (ℕ × Span)),
    Addressed heap Span.attributes addressed ∧ addressed.map Prod.snd = spans ∧
      tracesToChunk text build .empty addressed = .ok (groups.flatMap TraceRowGroup.rows)

theorem HoldsSpans.windowSpans_eq {build : Build} {groups : List (TraceRowGroup T)}
    {spans : List Span} (h : HoldsSpans text build groups spans) (startNs endNs : Int) :
    windowSpans text startNs endNs (groups.flatMap TraceRowGroup.rows) =
      (spans.filter fun s => inWindow startNs endNs s.startTimeNs).map storedSpan := by
  obtain ⟨heap, addressed, haddr, rfl, hchunk⟩ := h
  have hread := tracesToChunk_read text (ResourceCache.valid_empty text heap) haddr hchunk
  -- both sides are the same function of what a reader finds in the rows
  have hrows : windowSpans text startNs endNs (groups.flatMap TraceRowGroup.rows) =
      (((groups.flatMap TraceRowGroup.rows).map fun r =>
        (r.startTimeNs, rowToSpan text r)).filter fun x =>
          inWindow startNs endNs x.1).filterMap fun x => x.2.toOption := by
    rw [filter_map, filterMap_map]
    rfl
  rw [hrows, hread, filter_map, filterMap_map, filter_map, map_map, ← filterMap_eq_map]
  rfl

/-- The search for the first block that does not end before the window stops at the block or
before it. -/
def BlockIndex.Reaches (ix : BlockIndex) (startNs : Int) (m : BlockMetadata) : Prop :=
  m ∈ ix.blocks.drop (partitionPoint (fun b => b.endTimestampNs < startNs) ix.blocks)

instance (ix : BlockIndex) (startNs : Int) (m : BlockMetadata) : Decidable (ix.Reaches startNs m) :=
  inferInstanceAs (Decidable (m ∈ _))

theorem BlockIndex.mem_query_iff {ix : BlockIndex} {startNs endNs : Int} {m : BlockMetadata} :
    m ∈ ix.query startNs endNs none ↔ ix.Reaches startNs m ∧ m.startTimestampNs ≤ endNs := by
  unfold query Reaches
  dsimp only
  rw [takeWhile_start endNs (ix.sorted.sublist (drop_sublist _ _))]
  simp [mayHold]

theorem BlockIndex.EndsSorted.reaches {ix : BlockIndex} (h : ix.EndsSorted) {startNs : Int}
    {m : BlockMetadata} (hm : m ∈ ix.blocks) (hle : startNs ≤ m.endTimestampNs) :
    ix.Reaches startNs m := by
  have hq := h.exact startNs (max startNs m.startTimestampNs) (le_max_left _ _) none
  have hhit : m ∈ ix.hits startNs (max startNs m.startTimestampNs) none := by
    simp [hits, mayHold, hm, hle]
  exact (mem_query_iff.mp (hq ▸ hhit)).1

def SameWindow (buffered : List Span) (ix : BlockIndex) (m : BlockMetadata)
    (groups : List (TraceRowGroup T)) (limit : ℕ) (s : Span) (startNs endNs : Int) : Prop :=
  s ∈ scanSpans buffered startNs endNs ↔ m ∈ ix.query startNs endNs none ∧
      ∃ found, scanTraceBlock text (.readable groups) startNs endNs limit = .ok found ∧
        storedSpan s ∈ found

section
variable {build : Build} {w : RowWriter Span} {io : BlockIo} {b : Block Span}
  {groups : List (TraceRowGroup T)} {limit : ℕ} {s : Span}

theorem mem_scanTraceBlock_iff (hfile : HoldsSpans text build groups b.rows)
    (hlimit : b.rows.length ≤ limit) (hs : s ∈ b.rows) (startNs endNs : Int) :
    (∃ found, scanTraceBlock text (.readable groups) startNs endNs limit = .ok found ∧
      storedSpan s ∈ found) ↔ startNs ≤ s.startTimeNs ∧ s.startTimeNs ≤ endNs := by
  have hshort : ((b.rows.filter fun s => inWindow startNs endNs s.startTimeNs).map
      storedSpan).length ≤ max limit 1 := by
    rw [length_map]
    exact (length_filter_le _ _).trans (hlimit.trans (le_max_left _ _))
  rw [scanTraceBlock_readable, hfile.windowSpans_eq, take_of_length_le hshort]
  constructor
  · rintro ⟨_, hok, hmem⟩
    obtain rfl := Except.ok.inj hok
    obtain ⟨r, hr, hstored⟩ := mem_map.mp hmem
    have hstart : (storedSpan r).startTimeNs = (storedSpan s).startTimeNs :=
      congrArg Span.startTimeNs hstored
    exact hstart ▸ of_decide_eq_true (mem_filter.mp hr).2
  · intro hw
    exact ⟨_, rfl, mem_map_of_mem (mem_filter.mpr ⟨hs, decide_eq_true hw⟩)⟩

theorem sameWindow_iff (hflush : (w.flush traceKind io).result = .ok b)
    (hfile : HoldsSpans text build groups b.rows) (hlimit : b.rows.length ≤ limit)
    (hs : s ∈ w.buffer) {buffered : List Span} (hbuf : s ∈ buffered) (ix : BlockIndex)
    (startNs endNs : Int) :
    SameWindow text buffered (ix.add b.metadata) b.metadata groups limit s startNs endNs ↔
      (s.startTimeNs ≤ endNs → (startNs ≤ s.endTimeNs ↔
          startNs ≤ s.startTimeNs ∧ (ix.add b.metadata).Reaches startNs b.metadata)) := by
  have hcut : Cut traceSignal w.buffer b := cut_flush rfl rfl hflush
  have hstart : b.metadata.startTimestampNs ≤ s.startTimeNs := hcut.start_le s hs
  unfold SameWindow
  rw [mem_scanTraceBlock_iff text hfile hlimit (hcut.perm.mem_iff.mpr hs), mem_query_iff]
  simp only [scanSpans, mem_filter, hbuf, true_and, decide_eq_true_eq]
  constructor
  · intro h hend
    refine ⟨fun hle => ?_, fun hin => (h.mpr ⟨⟨hin.2, hstart.trans hend⟩, hin.1, hend⟩).2⟩
    obtain ⟨⟨hreach, -⟩, hle, -⟩ := h.mp ⟨hend, hle⟩
    exact ⟨hle, hreach⟩
  · intro h
    constructor
    · rintro ⟨hend, hle⟩
      obtain ⟨hin, hreach⟩ := (h hend).mp hle
      exact ⟨⟨hreach, hstart.trans hend⟩, hin, hend⟩
    · rintro ⟨⟨hreach, -⟩, hin, hend⟩
      exact ⟨hend, (h hend).mpr ⟨hin, hreach⟩⟩

/-- **When a flush does not change whether a window finds a span.** The buffer and the block agree
if and only if, of a span that starts before the end of the window, the overlap test says what the
test of the start says and the index does not skip the block. With blocks that end in the order of
their starts this excludes exactly the spans that start before the window and reach into it. -/
theorem span_window_same_iff (hflush : (w.flush traceKind io).result = .ok b)
    (hfile : HoldsSpans text build groups b.rows) (hlimit : b.rows.length ≤ limit)
    (hs : s ∈ w.buffer) {buffered : List Span} (hbuf : s ∈ buffered) (ix : BlockIndex)
    (startNs endNs : Int) :
    (SameWindow text buffered (ix.add b.metadata) b.metadata groups limit s startNs endNs ↔
      (s.startTimeNs ≤ endNs →
        (startNs ≤ s.endTimeNs ↔
          startNs ≤ s.startTimeNs ∧ (ix.add b.metadata).Reaches startNs b.metadata))) ∧
    ((ix.add b.metadata).EndsSorted → (∀ r ∈ w.buffer, r.startTimeNs ≤ r.endTimeNs) →
      (SameWindow text buffered (ix.add b.metadata) b.metadata groups limit s startNs endNs ↔
        ¬ (s.startTimeNs < startNs ∧ startNs ≤ s.endTimeNs ∧ s.startTimeNs ≤ endNs))) := by
  have hsame := sameWindow_iff text hflush hfile hlimit hs hbuf ix startNs endNs
  refine ⟨hsame, fun hsorted hordered => hsame.trans ?_⟩
  -- the block ends where its last span ends, which is not before any start
  have hcut : Cut traceSignal w.buffer b := cut_flush rfl rfl hflush
  obtain ⟨l, hl, hend⟩ := hcut.end_eq
  have hlast : s.startTimeNs ≤ b.metadata.endTimestampNs := by
    have hkey : s.startTimeNs ≤ l.startTimeNs := key_le_lastBy hl s hs
    rw [hend]
    exact hkey.trans (hordered l (mem_of_lastBy hl))
  have hreach : startNs ≤ s.startTimeNs → (ix.add b.metadata).Reaches startNs b.metadata :=
    fun hle => hsorted.reaches (mem_add.mpr (.inr rfl)) (hle.trans hlast)
  have hspan := hordered s hs
  by_cases hle : startNs ≤ s.startTimeNs
  · have : startNs ≤ s.endTimeNs := hle.trans hspan
    simp [hle, hreach hle, this]
  · omega

end

namespace Sample

def spanWriter (s : Span) : RowWriter Span := ⟨Ingest.Sample.config 10, [s], none⟩

def spanFile (s : Span) : List (TraceRowGroup (Json partFloats.Finite)) :=
  [⟨[.of plainText s (resolveLabels plainText s.attributes) (s.endTimeNs - s.startTimeNs)],
    ⟨none, nofun⟩⟩]

theorem holds_spanFile (s : Span) (h : Query.InI64 (s.endTimeNs - s.startTimeNs)) :
    HoldsSpans plainText .debug (spanFile s) [s] := by
  have haddr : Addressed (fun _ => s.attributes) Span.attributes [(0, s)] :=
    fun e he => by rw [mem_singleton.mp he]
  refine ⟨fun _ => s.attributes, [(0, s)], haddr, rfl, ?_⟩
  rw [tracesToChunk, durationNs, Query.i64_of_in h]
  rfl

end Sample

open Sample in
theorem span_window_same_inside :
    SameWindow plainText [span 5 7] ((new []).add (traceBlock (span 5 7) []).metadata)
      (traceBlock (span 5 7) []).metadata (spanFile (span 5 7)) 1 (span 5 7) 4 6 :=
  ((@span_window_same_iff _ _ _ plainText _ (spanWriter (span 5 7)) .fine _ _ _ _ rfl
    (holds_spanFile (span 5 7) (by decide)) le_rfl mem_cons_self _
    mem_cons_self (new []) 4 6).2 (by decide) (by decide)).mpr (by decide)

open Sample in
/-- **A long span is lost when it is flushed.** The window `[50, 60]` finds the span `[0, 100]` in
the buffer. Its block is found too, but the scan of the block wants spans that start in the
window. -/
theorem span_lost_by_flush :
    ((spanWriter (span 0 100)).flush traceKind .fine).result =
      .ok (traceBlock (span 0 100) []) ∧
    HoldsSpans plainText .debug (spanFile (span 0 100)) (traceBlock (span 0 100) []).rows ∧
    (traceBlock (span 0 100) []).metadata ∈
      ((new []).add (traceBlock (span 0 100) []).metadata).query 50 60 none ∧
    ¬ SameWindow plainText [span 0 100]
      ((new []).add (traceBlock (span 0 100) []).metadata)
      (traceBlock (span 0 100) []).metadata (spanFile (span 0 100)) 1 (span 0 100) 50 60 := by
  refine ⟨rfl, holds_spanFile _ (by decide), by decide, fun h => ?_⟩
  obtain ⟨-, found, hscan, hmem⟩ := h.mp (by decide)
  have hnone : scanTraceBlock plainText (.readable (spanFile (span 0 100))) 50 60 1 = .ok [] := rfl
  obtain rfl := Except.ok.inj hscan
  cases hmem

end Parqtel.Storage
