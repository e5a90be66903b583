import Parqtel.Ingest.Writer

/-!
# The log and trace writers

`LogWriter` and `TraceWriter` are one definition over a `RowKind`, which holds what
the two do differently: the sort key, the row's end, the file name and the label
index. Unlike the metric writer they sort their buffer in place before they write,
so a write that fails leaves the rows in time order.
-/

namespace Parqtel.Ingest

open Parqtel.Lib

structure RowKind (R : Type*) where
  signal : SignalType
  /-- Start of the file names of the signal's blocks. -/
  fileTag : String
  /-- Sort key of a row; the first row's is the start of the block. -/
  startNs : R → Int
  /-- End of a row; the last row's is the end of the block. -/
  endNs : R → Int
  labelNames : List R → Finset String
  labelValues : List R → List (String × Finset String)

def observeLog (ix : LabelIndex) (log : LogRecord) : LabelIndex :=
  (ix.observe log.attributes).observe log.resourceAttributes

def logKind : RowKind LogRecord where
  signal := .logs
  fileTag := "logs_"
  startNs := LogRecord.timestampNs
  endNs := LogRecord.timestampNs
  labelNames logs := (logs.foldl observeLog LabelIndex.empty).names
  labelValues logs := (logs.foldl observeLog LabelIndex.empty).values

def traceKind : RowKind Span where
  signal := .traces
  fileTag := "traces_"
  startNs := Span.startTimeNs
  endNs := Span.endTimeNs
  labelNames spans := (spans.flatMap fun s => s.attributes.entries.map Prod.fst).toFinset
  labelValues _ := []

structure RowWriter (R : Type*) where
  config : BlockConfig
  buffer : List R
  walRange : Option WalRange

structure RowFlushOut (R : Type*) where
  result : Except Error (Block R)
  writer : RowWriter R
  /-- The block file this left in place. -/
  file : Option (Block R)

structure RowPushOut (R : Type*) where
  result : Except Error (Option (Block R))
  writer : RowWriter R
  file : Option (Block R)

namespace RowWriter

variable {R : Type*}

def new (config : BlockConfig) : RowWriter R := ⟨config, [], none⟩

def capacity (w : RowWriter R) : ℕ := w.config.maxRowsPerBlock

def blockOf (kind : RowKind R) (config : BlockConfig) (walRange : Option WalRange) (io : BlockIo)
    (first : R) (rest : List R) : Block R :=
  let rows := first :: rest
  let startTs := kind.startNs first
  let endTs := kind.endNs (rows.getLast (List.cons_ne_nil first rest))
  { metadata :=
      { path := ⟨config.dataDir, s!"{kind.fileTag}{startTs}_{endTs}_{io.uuid}.parquet"⟩
        startTimestampNs := startTs
        endTimestampNs := endTs
        rowCount := rows.length
        sizeBytes := io.sizeBytes
        metricNames := ∅
        labelNames := kind.labelNames rows
        labelValues := kind.labelValues rows
        signalType := kind.signal
        walRange := walRange }
    rows := rows }

def flush (kind : RowKind R) (w : RowWriter R) (io : BlockIo) : RowFlushOut R :=
  match sortByKey kind.startNs w.buffer with
  | [] => ⟨.error (.internal "Cannot flush empty buffer"), w, none⟩
  | first :: rest =>
    let block := blockOf kind w.config w.walRange io first rest
    match io.outcome with
    | .written => ⟨.ok block, { w with buffer := [] }, some block⟩
    | .failed => ⟨.error (.io io.message), { w with buffer := first :: rest }, none⟩
    | .landed => ⟨.error (.io io.message), { w with buffer := first :: rest }, some block⟩

def push (kind : RowKind R) (w : RowWriter R) (row : R) (io : BlockIo) : RowPushOut R :=
  if w.capacity ≤ w.buffer.length then
    match w.flush kind io with
    | ⟨.ok block, w', file⟩ => ⟨.ok (some block), { w' with buffer := w'.buffer ++ [row] }, file⟩
    | ⟨.error e, w', file⟩ => ⟨.error e, w', file⟩
  else ⟨.ok none, { w with buffer := w.buffer ++ [row] }, none⟩

/-! ## Where the rows go -/

variable {kind : RowKind R} {w w' : RowWriter R} {io : BlockIo} {file : Option (Block R)}

theorem flush_ok {b : Block R} (h : w.flush kind io = ⟨.ok b, w', file⟩) :
    b.rows = sortByKey kind.startNs w.buffer ∧ b.metadata.rowCount = w.buffer.length ∧
      w' = { w with buffer := [] } ∧ file = some b := by
  unfold flush at h
  split at h
  · simp at h
  · next first rest hs =>
    split at h <;> simp only [RowFlushOut.mk.injEq, Except.ok.injEq, reduceCtorEq, false_and] at h
    obtain ⟨rfl, rfl, rfl⟩ := h
    refine ⟨hs.symm, ?_, rfl, rfl⟩
    rw [← (sortByKey_perm kind.startNs w.buffer).length_eq, hs]
    rfl

theorem ne_nil_of_flush_ok {b : Block R} (h : w.flush kind io = ⟨.ok b, w', file⟩) :
    w.buffer ≠ [] := by
  rintro hnil
  rw [flush, hnil] at h
  simp [sortByKey] at h

theorem cause_of_flush_error {e : Error} (h : w.flush kind io = ⟨.error e, w', file⟩) :
    w.buffer = [] ∨ io.outcome ≠ .written := by
  refine or_iff_not_imp_right.mpr fun hio => ?_
  unfold flush at h
  split at h
  · next hs => exact List.perm_nil.mp (hs ▸ (sortByKey_perm kind.startNs w.buffer).symm)
  · rw [not_not.mp hio] at h
    simp at h

theorem flush_error {e : Error} (h : w.flush kind io = ⟨.error e, w', file⟩) :
    w'.buffer.Perm w.buffer ∧ w'.config = w.config ∧
      ∀ b ∈ file, b.rows = sortByKey kind.startNs w.buffer := by
  unfold flush at h
  split at h
  · obtain ⟨-, rfl, rfl⟩ := h
    exact ⟨List.Perm.refl _, rfl, nofun⟩
  · next first rest hs =>
    have hperm : (first :: rest).Perm w.buffer := hs ▸ sortByKey_perm _ _
    split at h <;> simp only [RowFlushOut.mk.injEq, reduceCtorEq, false_and] at h
    · obtain ⟨-, rfl, rfl⟩ := h
      exact ⟨hperm, rfl, nofun⟩
    · obtain ⟨-, rfl, rfl⟩ := h
      refine ⟨hperm, rfl, fun b hb => ?_⟩
      cases hb
      exact hs.symm

theorem push_fits {row : R} (h : w.buffer.length < w.capacity) :
    w.push kind row io = ⟨.ok none, { w with buffer := w.buffer ++ [row] }, none⟩ := by
  rw [push, if_neg (by omega)]

/-- **What a push does.** A full writer closes its block first; when that fails it keeps its rows
and the new row is not taken. -/
theorem push_cases (kind : RowKind R) (w : RowWriter R) (row : R) (io : BlockIo) :
    (w.buffer.length < w.capacity ∧
      w.push kind row io = ⟨.ok none, { w with buffer := w.buffer ++ [row] }, none⟩) ∨
    (∃ b, w.push kind row io = ⟨.ok (some b), { w with buffer := [row] }, some b⟩ ∧
      w.buffer ≠ [] ∧ w.capacity ≤ w.buffer.length ∧
      b.rows.Perm w.buffer ∧ b.metadata.rowCount = w.buffer.length) ∨
    ∃ e w' file, w.push kind row io = ⟨.error e, w', file⟩ ∧ w'.buffer.Perm w.buffer ∧
      w.capacity ≤ w.buffer.length ∧ (w.buffer = [] ∨ io.outcome ≠ .written) := by
  by_cases h : w.capacity ≤ w.buffer.length
  · right
    rw [push, if_pos h]
    rcases hf : w.flush kind io with ⟨res, w', file⟩
    cases res with
    | ok b =>
      obtain ⟨hrows, hcount, rfl, rfl⟩ := flush_ok hf
      exact .inl ⟨b, rfl, ne_nil_of_flush_ok hf, h, hrows ▸ sortByKey_perm _ _, hcount⟩
    | error e => exact .inr ⟨e, w', file, rfl, (flush_error hf).1, h, cause_of_flush_error hf⟩
  · exact .inl ⟨by omega, push_fits (by omega)⟩

end RowWriter

end Parqtel.Ingest
