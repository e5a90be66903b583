import Parqtel.Storage.BlockFile
import Parqtel.Storage.Index

/-!
# The time bounds of blocks

An index entry states a block's time bounds, and queries prune by them. They come from
five places: the metric writer folds over its rows, the log and trace writers and the
compactor take the first start and the last *end* after a sort by start, and a block found
on disk gets the range of its rows' starts. For points and log records all of these cover
the rows. For spans, which have two times, they do so only when the ends are in bounds
(`bounds_cover_iff`).
-/

namespace Parqtel.Storage

open Parqtel.Lib Parqtel.Ingest List RowWriter

/-! ## Who writes blocks -/

variable {io : BlockIo}

section
variable {R : Type*}

/-- The block that a merge writes from rows in time order. Its name has no tag. -/
def mergedBlock (kind : SignalKind R) (config : BlockConfig)
    (labelValues : List (String × Finset String)) (io : BlockIo) (first : R) (rest : List R) :
    Block R :=
  let rows := first :: rest
  let startTs := kind.startNs first
  let endTs := kind.endNs (rows.getLast (cons_ne_nil first rest))
  { metadata :=
      { path := ⟨config.dataDir, blockName "" startTs endTs io.uuid⟩
        startTimestampNs := startTs
        endTimestampNs := endTs
        rowCount := rows.length
        sizeBytes := io.sizeBytes
        metricNames := kind.metricNames rows
        labelNames := kind.labelNames rows
        labelValues := labelValues
        signalType := kind.signal
        walRange := none }
    rows := kind.layout rows }

/-- `write_merged`. Without rows it indexes an empty vector; its caller reports the panic. -/
def writeMerged (kind : SignalKind R) (config : BlockConfig) (rows : List R)
    (labelValues : List (String × Finset String)) (io : BlockIo) : Except Error (Block R) :=
  match sortByKey kind.startNs rows with
  | [] => .error (.internal s!"compaction task panicked: {io.message}")
  | first :: rest =>
    match io.outcome with
    | .written => .ok (mergedBlock kind config labelValues io first rest)
    | .failed | .landed => .error (.io io.message)

theorem writeMerged_ok {kind : SignalKind R} {config : BlockConfig} {rows : List R}
    {labelValues : List (String × Finset String)} {b : Block R}
    (h : writeMerged kind config rows labelValues io = .ok b) :
    ∃ first rest, sortByKey kind.startNs rows = first :: rest ∧
      b = mergedBlock kind config labelValues io first rest := by
  unfold writeMerged at h
  split at h
  · cases h
  · next first rest hs =>
    refine ⟨first, rest, hs, ?_⟩
    split at h
    · exact (Except.ok.inj h).symm
    all_goals cases h

end

def Flushes (V : Type) (config : BlockConfig) :
    (s : SignalType) → List (Row V s) → Block (Row V s) → Prop
  | .metrics, rows, b => ∃ (w : BlockWriter V) (io : BlockIo), w.config = config ∧
      w.content = rows ∧ (w.flush io).result = .ok b
  | .logs, rows, b => ∃ (w : RowWriter LogRecord) (io : BlockIo), w.config = config ∧
      w.buffer = rows ∧ (w.flush logKind io).result = .ok b
  | .traces, rows, b => ∃ (w : RowWriter Span) (io : BlockIo), w.config = config ∧
      w.buffer = rows ∧ (w.flush traceKind io).result = .ok b

inductive Maker where
  | writer | compactor
deriving DecidableEq, Repr

/-- The blocks of a signal, with the rows they were written from. -/
inductive Made (V : Type) (config : BlockConfig) (s : SignalType) :
    Maker → List (Row V s) → Block (Row V s) → Prop
  | writer {rows : List (Row V s)} {b : Block (Row V s)} (h : Flushes V config s rows b) :
      Made V config s .writer rows b
  | compactor {rows : List (Row V s)} {b : Block (Row V s)}
      {labelValues : List (String × Finset String)} {io : BlockIo}
      (h : writeMerged (signalKind V s) config rows labelValues io = .ok b) :
      Made V config s .compactor rows b

def Maker.fileTag (V : Type) (s : SignalType) : Maker → String
  | .writer => (signalKind V s).fileTag
  | .compactor => ""

section
variable {R : Type*} {kind : SignalKind R} {rows : List R} {b : Block R}

/-- A block cut from the sorted rows: it starts where the first row starts and ends where the
last row *ends*. -/
structure Cut (kind : SignalKind R) (rows : List R) (b : Block R) : Prop where
  perm : b.rows.Perm rows
  start_le : ∀ r ∈ rows, b.metadata.startTimestampNs ≤ kind.startNs r
  end_eq : ∃ r ∈ lastBy kind.startNs rows, b.metadata.endTimestampNs = kind.endNs r

theorem Cut.of_sorted {first : R} {rest : List R}
    (hs : sortByKey kind.startNs rows = first :: rest) (hperm : b.rows.Perm (first :: rest))
    (hstart : b.metadata.startTimestampNs = kind.startNs first)
    (hend : b.metadata.endTimestampNs =
      kind.endNs ((first :: rest).getLast (cons_ne_nil first rest))) : Cut kind rows b := by
  have hsort : (first :: rest).Perm rows := hs ▸ sortByKey_perm _ _
  refine ⟨hperm.trans hsort, fun r hr => ?_, _, ?_, hend⟩
  · have hpw := hs ▸ sortByKey_sorted kind.startNs rows
    rw [hstart]
    exact hpw.rel_head_of_rel_head_head (hsort.mem_iff.mpr hr) le_rfl
  · rw [← getLast?_insertionSort, ← sortByKey, hs]
    exact getLast?_eq_some_getLast _

theorem cut_merged {config : BlockConfig} {labelValues : List (String × Finset String)}
    (h : writeMerged kind config rows labelValues io = .ok b) :
    Cut kind rows b := by
  obtain ⟨first, rest, hs, rfl⟩ := writeMerged_ok h
  exact .of_sorted hs (kind.layout_perm _) rfl rfl

theorem flush_result_ok {rowKind : RowKind R} {w : RowWriter R}
    (h : (w.flush rowKind io).result = .ok b) :
    ∃ first rest, sortByKey rowKind.startNs w.buffer = first :: rest ∧
      b = blockOf rowKind w.config w.walRange io first rest := by
  unfold flush at h
  split at h
  · cases h
  · next first rest hs =>
    refine ⟨first, rest, hs, ?_⟩
    split at h
    · exact (Except.ok.inj h).symm
    all_goals cases h

theorem cut_flush {rowKind : RowKind R} {w : RowWriter R} (hstart : kind.startNs = rowKind.startNs)
    (hend : kind.endNs = rowKind.endNs) (h : (w.flush rowKind io).result = .ok b) :
    Cut kind w.buffer b := by
  obtain ⟨first, rest, hs, rfl⟩ := flush_result_ok h
  refine .of_sorted (hstart ▸ hs) (.refl _) ?_ ?_
  · rw [hstart]; rfl
  · rw [hend]; rfl

end

/-! ## Coverage -/

section
variable {R : Type*} (kind : SignalKind R)

/-- The bounds of a block contain the time of each of its rows. A row that ends before it starts
takes no time. -/
def Covers (b : Block R) : Prop :=
  ∀ r ∈ b.rows, kind.startNs r ≤ kind.endNs r →
    b.metadata.startTimestampNs ≤ kind.startNs r ∧ kind.endNs r ≤ b.metadata.endTimestampNs

instance (b : Block R) : Decidable (Covers kind b) :=
  inferInstanceAs (Decidable (∀ r ∈ b.rows, _))

inductive Origin where
  | written | adopted
deriving DecidableEq, Repr

def EndsBounded : Origin → List R → Prop
  | .written, rows => ∀ r ∈ rows, kind.startNs r ≤ kind.endNs r →
      ∃ l ∈ lastBy kind.startNs rows, kind.endNs r ≤ kind.endNs l
  | .adopted, rows => ∀ r ∈ rows, kind.startNs r ≤ kind.endNs r →
      ∃ t ∈ rows, kind.endNs r ≤ kind.startNs t

end

section
variable {R : Type*} {kind : SignalKind R} {rows : List R} {b : Block R}

theorem Cut.covers_iff (h : Cut kind rows b) : Covers kind b ↔ EndsBounded kind .written rows := by
  obtain ⟨l, hl, hend⟩ := h.end_eq
  constructor
  · intro hc r hr hle
    exact ⟨l, hl, hend ▸ (hc r (h.perm.mem_iff.mpr hr) hle).2⟩
  · intro hb r hr hle
    have hr' := h.perm.mem_iff.mp hr
    obtain ⟨l', hl', hle'⟩ := hb r hr' hle
    obtain rfl : l = l' := Option.mem_unique hl hl'
    exact ⟨h.start_le r hr', hend ▸ hle'⟩

theorem endsBounded_of_instant (h : kind.endNs = kind.startNs) (o : Origin) :
    EndsBounded kind o rows := by
  cases o with
  | written =>
    intro r hr _
    cases hl : lastBy kind.startNs rows with
    | none => cases rows <;> simp_all [lastBy]
    | some l => exact ⟨l, rfl, by rw [h]; exact key_le_lastBy hl r hr⟩
  | adopted => exact fun r hr _ => ⟨r, hr, by rw [h]⟩

theorem covers_adopted_iff {path : Path} {m : BlockMetadata} {size : ℕ}
    (hperm : b.rows.Perm rows) (hne : rows ≠ [])
    (hrange : ∀ r ∈ rows, i64Min ≤ kind.startNs r)
    (h : readBlockMetadata kind path (.parquet (writeBlockFile kind size b)) = .ok (some m)) :
    Covers kind ⟨m, b.rows⟩ ↔ EndsBounded kind .adopted rows := by
  have hbne : b.rows ≠ [] := fun hnil => hne (hnil ▸ hperm).nil_eq.symm
  rw [readBlockMetadata_own path rfl] at h
  obtain rfl := Option.some.inj (Except.ok.inj h)
  have hrows : (writeBlockFile kind size b).rows ≠ [] := by
    rw [rows_writeBlockFile]
    exact hbne
  have hcols : (writeBlockFile kind size b).columns = kind.schema := rfl
  obtain ⟨hstart, hend⟩ := footerMetadata_bounds kind path hcols hrows
  rw [rows_writeBlockFile] at hstart hend
  unfold Covers
  rw [hstart, hend]
  constructor
  · intro hc r hr hle
    have hend := (hc r (hperm.mem_iff.mpr hr) hle).2
    rcases foldl_max_eq_or_mem (b.rows.map kind.startNs) i64Min with hmin | hmem
    · exact ⟨r, hr, hend.trans (hmin.le.trans (hrange r hr))⟩
    · obtain ⟨t, ht, hteq⟩ := mem_map.mp hmem
      exact ⟨t, hperm.mem_iff.mp ht, hteq ▸ hend⟩
  · intro hb r hr hle
    obtain ⟨t, ht, hrt⟩ := hb r (hperm.mem_iff.mp hr) hle
    exact ⟨foldl_min_le (mem_map_of_mem hr),
      hrt.trans (le_foldl_max (mem_map_of_mem (hperm.mem_iff.mpr ht)))⟩

end

/-! ## When the bounds cover the rows -/

variable {V : Type} {config : BlockConfig} {s : SignalType} {m : Maker}

theorem metricFlush_ok {w : BlockWriter V} {b : MetricBlock V}
    (h : (w.flush io).result = .ok b) : w.content ≠ [] ∧ b = w.toBlock io := by
  rcases hf : w.flush io with ⟨res, w', file⟩
  rw [hf] at h
  obtain rfl : res = .ok b := h
  obtain ⟨hr, rfl, -, -⟩ := BlockWriter.flush_ok hf
  refine ⟨fun hnil => hr ?_, rfl⟩
  rw [← w.length_content, hnil]
  rfl

theorem covers_toBlock (w : BlockWriter V) (io : BlockIo) :
    Covers (metricSignal V) (w.toBlock io) := by
  intro r hr _
  have hmem : r.point.timestampNs ∈ w.content.map fun r => r.point.timestampNs :=
    mem_map_of_mem ((layoutRows_perm _).mem_iff.mp hr)
  exact ⟨foldl_min_le hmem, le_foldl_max hmem⟩

variable {rows : List (Row V s)} {b : Block (Row V s)}

theorem Made.cut (h : Made V config s m rows b) : Cut (signalKind V s) rows b ∨
      s = .metrics ∧ b.rows.Perm rows ∧ rows ≠ [] ∧ Covers (signalKind V s) b := by
  cases h with
  | compactor h => exact .inl (cut_merged h)
  | writer h =>
    cases s with
    | metrics =>
      obtain ⟨w, io, -, rfl, h⟩ := h
      obtain ⟨hne, rfl⟩ := metricFlush_ok h
      exact .inr ⟨rfl, layoutRows_perm _, hne, covers_toBlock w io⟩
    | logs =>
      obtain ⟨w, io, -, rfl, h⟩ := h
      exact .inl (cut_flush rfl rfl h)
    | traces =>
      obtain ⟨w, io, -, rfl, h⟩ := h
      exact .inl (cut_flush rfl rfl h)

theorem Made.rows_perm (h : Made V config s m rows b) : b.rows.Perm rows ∧ rows ≠ [] := by
  rcases h.cut with h | ⟨-, hperm, hne, -⟩
  · obtain ⟨r, hr, -⟩ := h.end_eq
    exact ⟨h.perm, ne_nil_of_mem (mem_of_lastBy hr)⟩
  · exact ⟨hperm, hne⟩

inductive Produced (V : Type) (s : SignalType) : Origin → List (Row V s) → Block (Row V s) → Prop
  | written {config : BlockConfig} {m : Maker} {rows : List (Row V s)} {b : Block (Row V s)}
      (h : Made V config s m rows b) : Produced V s .written rows b
  | adopted {config : BlockConfig} {m : Maker} {rows : List (Row V s)} {b : Block (Row V s)}
      {path : Path} {meta' : BlockMetadata} (h : Made V config s m rows b)
      (hread : readBlockMetadata (signalKind V s) path
        (.parquet (writeBlockFile (signalKind V s) config.rowGroupSize b)) = .ok (some meta')) :
      Produced V s .adopted rows ⟨meta', b.rows⟩

theorem instant_of_ne_traces (h : s ≠ .traces) :
    (signalKind V s).endNs = (signalKind V s).startNs := by
  cases s with
  | metrics => rfl
  | logs => rfl
  | traces => exact absurd rfl h

variable {o : Origin}

theorem Produced.covers_iff (h : Produced V s o rows b)
    (hrange : ∀ r ∈ rows, i64Min ≤ (signalKind V s).startNs r) :
    Covers (signalKind V s) b ↔ EndsBounded (signalKind V s) o rows := by
  cases h with
  | adopted h hread => exact covers_adopted_iff h.rows_perm.1 h.rows_perm.2 hrange hread
  | written h =>
    rcases h.cut with hcut | ⟨rfl, -, -, hcov⟩
    · exact hcut.covers_iff
    · exact iff_of_true hcov (endsBounded_of_instant rfl .written)

/-- **When block bounds cover their rows.** For every block of every signal, written by the
signal's writer or by the compactor or read back from its file: the bounds of metric and log
blocks always contain their rows. Those of a trace block do if and only if no span ends after the
span that starts last; those of one that was read back, if and only if no span ends after the last
start. -/
theorem bounds_cover_iff {o : Origin} {rows : List (Row V s)} {b : Block (Row V s)}
    (h : Produced V s o rows b) (hrange : ∀ r ∈ rows, i64Min ≤ (signalKind V s).startNs r) :
    Covers (signalKind V s) b ↔ (s = .traces → EndsBounded (signalKind V s) o rows) := by
  rw [h.covers_iff hrange]
  refine ⟨fun hb _ => hb, fun hb => ?_⟩
  by_cases hs : s = .traces
  · exact hb hs
  · exact endsBounded_of_instant (instant_of_ne_traces hs) o

namespace Sample

def span (startNs endNs : Int) : Span :=
  ⟨.replicate 16 0, .replicate 8 0, "", "op", 1, startNs, endNs, .empty, [], [], 0, "",
    .replicate 8 0, 0⟩

def traceBlock (first : Span) (rest : List Span) : Block Span :=
  blockOf traceKind (Ingest.Sample.config 10) none .fine first rest

def adopted (b : Block Span) : Block Span :=
  ⟨footerMetadata traceSignal b.metadata.path (writeBlockFile traceSignal 1 b), b.rows⟩

end Sample

open Sample in
theorem made_traceBlock (first : Span) (rest : List Span)
    (h : sortByKey Span.startTimeNs (first :: rest) = first :: rest) :
    Made Unit (Ingest.Sample.config 10) .traces .writer (first :: rest)
      (traceBlock first rest) := by
  refine .writer ⟨⟨Ingest.Sample.config 10, first :: rest, none⟩, .fine, rfl, rfl, ?_⟩
  have hs : sortByKey traceKind.startNs (first :: rest) = first :: rest := h
  simp only [flush, hs]
  rfl

open Sample in
theorem bounds_cover_three_spans :
    Covers traceSignal (traceBlock (span 0 10) [span 5 60, span 20 100]) :=
  (bounds_cover_iff (.written (made_traceBlock _ _ (by decide))) (by decide)).mpr fun _ => by
    unfold EndsBounded
    decide

open Sample in
/-- **A long span leaves the bounds of its block.** The bounds of a block with the spans `[0, 100]`
and `[10, 20]` are `[0, 20]`; those of a block with the span `[0, 100]` alone are `[0, 0]` once it
was read back from its file. -/
theorem span_outside_bounds :
    (∃ b, Produced Unit .traces .written [span 0 100, span 10 20] b ∧ ¬ Covers traceSignal b) ∧
      ∃ b, Produced Unit .traces .adopted [span 0 100] b ∧ ¬ Covers traceSignal b := by
  constructor
  · refine ⟨traceBlock (span 0 100) [span 10 20], .written (made_traceBlock _ _ ?_), ?_⟩ <;> decide
  · have hmade := made_traceBlock (span 0 100) [] rfl
    exact ⟨adopted (traceBlock (span 0 100) []), .adopted hmade (readBlockMetadata_own _ rfl),
      by decide⟩

end Parqtel.Storage
