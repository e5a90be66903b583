import Parqtel.Models
import Parqtel.Lib.Ledger

/-!
# The metric block writer

`BlockWriter` buffers pushed metrics and writes them out as one block. `push`
splits a metric across blocks when it does not fit: a full writer closes a block
by itself, in the middle of the push. `merge` combines the writers of several
shards for a flush. A writer carries the proof that its row counter is the number
of buffered rows.

What the file system does while a block is written is an argument (`BlockIo`).
Between the complete temporary file and the `Ok` stand a rename and a `metadata`
call, so an `Err` can leave a complete file behind (`landed`).
-/

namespace Parqtel.Ingest

open Parqtel.Lib List

/-- How the write of a block file ends: `Ok`, an `Err` that leaves no block, or an `Err` after
the block file is in place. -/
inductive WriteOutcome where
  | written | failed | landed
deriving DecidableEq, Repr

structure BlockIo where
  outcome : WriteOutcome
  uuid : String
  sizeBytes : ℕ
  message : String
deriving DecidableEq, Repr

def BlockIo.fine : BlockIo := ⟨.written, "u", 0, ""⟩

def Sample.config (n : ℕ) : BlockConfig := ⟨["data"], n, 1, 12, 8⟩

/-! ## Weight of blocks -/

section
variable {R : Type*}

def blockTotal (wt : R → ℕ) (bs : List (Block R)) : ℕ := total (fun b => total wt b.rows) bs

@[simp] theorem blockTotal_nil (wt : R → ℕ) : blockTotal wt [] = 0 := rfl

@[simp] theorem blockTotal_singleton (wt : R → ℕ) (b : Block R) :
    blockTotal wt [b] = total wt b.rows := by simp [blockTotal]

theorem blockTotal_append (wt : R → ℕ) (bs cs : List (Block R)) :
    blockTotal wt (bs ++ cs) = blockTotal wt bs + blockTotal wt cs := total_append _ _ _

end

/-! ## The label index of a block -/

def maxValuesPerField : ℕ := 10000

structure LabelIndex where
  names : Finset String
  values : List (String × Finset String)

namespace LabelIndex

def empty : LabelIndex := ⟨∅, []⟩

def addValue (key value : String) : List (String × Finset String) → List (String × Finset String)
  | [] => [(key, {value})]
  | (k, vs) :: rest =>
    if k = key then (k, if vs.card < maxValuesPerField then insert value vs else vs) :: rest
    else (k, vs) :: addValue key value rest

def observe (ix : LabelIndex) (labels : LabelSet) : LabelIndex :=
  labels.entries.foldl (fun ix e => ⟨insert e.1 ix.names, addValue e.1 e.2 ix.values⟩) ix

def observeOnce (st : List LabelSet × LabelIndex) (labels : LabelSet) :
    List LabelSet × LabelIndex :=
  if labels ∈ st.1 then st else (labels :: st.1, st.2.observe labels)

end LabelIndex

/-! ## The writer -/

variable {V : Type*}

/-- Points of one push, or of one capacity split of a push. -/
structure PushedBatch (V : Type*) where
  name : String
  kind : MetricKind
  resource : LabelSet
  points : List (DataPoint V)
deriving DecidableEq

def PushedBatch.rows (b : PushedBatch V) : List (MetricRow V) :=
  b.points.map fun p => ⟨b.name, b.kind, b.resource, p⟩

@[simp] theorem PushedBatch.length_rows (b : PushedBatch V) :
    b.rows.length = b.points.length := by simp [PushedBatch.rows]

structure BlockWriter (V : Type*) where
  config : BlockConfig
  batches : List (PushedBatch V)
  rows : ℕ
  walRange : Option WalRange
  epoch : ℕ
  rows_eq : rows = (batches.flatMap PushedBatch.rows).length
deriving DecidableEq

/-- The order of rows in a metric block: by metric identity, then series, then time. -/
def rowCmp (a b : MetricRow V) : Ordering :=
  (compare a.name b.name).then <| (compare a.kind.rank b.kind.rank).then <|
    (LabelSet.cmpEntries a.resource.entries b.resource.entries).then <|
      (compare a.point.labels.fingerprint b.point.labels.fingerprint).then
        (compare a.point.timestampNs b.point.timestampNs)

/-- Rows as the block holds them; equal keys stay in arrival order. -/
def layoutRows (rows : List (MetricRow V)) : List (MetricRow V) :=
  rows.insertionSort fun a b => rowCmp a b ≠ .gt

theorem layoutRows_perm (rows : List (MetricRow V)) : (layoutRows rows).Perm rows :=
  perm_insertionSort _ rows

def i64Max : Int := 2 ^ 63 - 1

def i64Min : Int := -2 ^ 63

structure FlushOut (V : Type*) where
  result : Except Error (MetricBlock V)
  writer : BlockWriter V
  /-- The block file this left in place. -/
  file : Option (MetricBlock V)

structure PushOut (V : Type*) where
  result : Except Error (List (MetricBlock V))
  writer : BlockWriter V
  /-- The block files this left in place. -/
  files : List (MetricBlock V)

namespace BlockWriter

def withEpoch (config : BlockConfig) (epoch : ℕ) : BlockWriter V :=
  ⟨config, [], 0, none, epoch, rfl⟩

def new (config : BlockConfig) : BlockWriter V := withEpoch config 1

def capacity (w : BlockWriter V) : ℕ := w.config.maxRowsPerBlock

def content (w : BlockWriter V) : List (MetricRow V) := w.batches.flatMap PushedBatch.rows

def isEmpty (w : BlockWriter V) : Bool := w.rows = 0

def setWalRange (w : BlockWriter V) (range : Option WalRange) : BlockWriter V :=
  { w with walRange := range }

def labelIndex (w : BlockWriter V) : LabelIndex :=
  (w.batches.foldl (fun st b =>
    b.points.foldl (fun st p => LabelIndex.observeOnce st p.labels)
      (LabelIndex.observeOnce st b.resource)) ([], LabelIndex.empty)).2

def toBlock (w : BlockWriter V) (io : BlockIo) : MetricBlock V :=
  let times := w.content.map fun r => r.point.timestampNs
  let startTs := times.foldl min i64Max
  let endTs := times.foldl max i64Min
  { metadata :=
      { path := ⟨w.config.dataDir, s!"{startTs}_{endTs}_{io.uuid}.parquet"⟩
        startTimestampNs := startTs
        endTimestampNs := endTs
        rowCount := w.rows
        sizeBytes := io.sizeBytes
        metricNames := (w.batches.map PushedBatch.name).toFinset
        labelNames := w.labelIndex.names
        labelValues := w.labelIndex.values
        signalType := .metrics
        walRange := w.walRange }
    rows := layoutRows w.content }

def cleared (w : BlockWriter V) : BlockWriter V :=
  { w with batches := [], rows := 0, epoch := w.epoch + 1, rows_eq := rfl }

def flush (w : BlockWriter V) (io : BlockIo) : FlushOut V :=
  if w.rows = 0 then ⟨.error (.internal "Cannot flush empty buffer"), w, none⟩
  else match io.outcome with
    | .written => ⟨.ok (w.toBlock io), w.cleared, some (w.toBlock io)⟩
    | .failed => ⟨.error (.io io.message), w, none⟩
    | .landed => ⟨.error (.io io.message), w, some (w.toBlock io)⟩

def fill (w : BlockWriter V) (m : Metric V) (points : List (DataPoint V)) : BlockWriter V :=
  { w with
    batches := w.batches ++ [⟨m.name, m.kind, m.resourceAttributes, points⟩]
    rows := w.rows + points.length
    rows_eq := by
      simp only [flatMap_append, flatMap_singleton, length_append,
        PushedBatch.length_rows, ← w.rows_eq] }

def room (w : BlockWriter V) : ℕ := w.capacity - w.rows

/-- The loop of `push`. `ios n` is what the file system does at the `n`-th close. -/
def pushLoop (m : Metric V) (ios : ℕ → BlockIo) :
    ℕ → BlockWriter V → List (DataPoint V) → List (MetricBlock V) → Option (PushOut V)
  | 0, _, _, _ => none
  | _ + 1, w, [], flushed => some ⟨.ok flushed, w, flushed⟩
  | fuel + 1, w, p :: ps, flushed =>
    if w.room = 0 then
      match w.flush (ios flushed.length) with
      | ⟨.ok b, w', _⟩ => pushLoop m ios fuel w' (p :: ps) (flushed ++ [b])
      | ⟨.error e, w', file⟩ => some ⟨.error e, w', flushed ++ file.toList⟩
    else
      pushLoop m ios fuel (w.fill m ((p :: ps).take w.room)) ((p :: ps).drop w.room) flushed

/-- Turns the loop still takes: two for each point, and one to close a full writer. -/
def turns (w : BlockWriter V) (remaining : List (DataPoint V)) : ℕ :=
  2 * remaining.length + if w.rows ≠ 0 ∧ w.room = 0 then 1 else 0

variable {w : BlockWriter V}

theorem flush_ok {w' : BlockWriter V} {io : BlockIo} {b : MetricBlock V}
    {file : Option (MetricBlock V)} (h : w.flush io = ⟨.ok b, w', file⟩) :
    w.rows ≠ 0 ∧ b = w.toBlock io ∧ w' = w.cleared ∧ file = some b ∧ io.outcome = .written := by
  unfold flush at h
  split at h
  · simp at h
  · next hr =>
    split at h <;> simp only [FlushOut.mk.injEq, Except.ok.injEq, reduceCtorEq, false_and] at h
    next hio =>
    obtain ⟨rfl, rfl, rfl⟩ := h
    exact ⟨hr, rfl, rfl, rfl, hio⟩

theorem flush_error {w' : BlockWriter V} {io : BlockIo} {e : Error}
    {file : Option (MetricBlock V)} (h : w.flush io = ⟨.error e, w', file⟩) :
    w' = w ∧ ∀ b ∈ file, b = w.toBlock io := by
  unfold flush at h
  split at h
  · obtain ⟨-, rfl, rfl⟩ := h
    exact ⟨rfl, nofun⟩
  · split at h <;> simp only [FlushOut.mk.injEq, reduceCtorEq, false_and] at h
    all_goals
      obtain ⟨-, rfl, rfl⟩ := h
      simp

theorem pushLoop_isSome (m : Metric V) (ios : ℕ → BlockIo) :
    ∀ {fuel : ℕ} {w : BlockWriter V} {remaining : List (DataPoint V)}
      {flushed : List (MetricBlock V)}, w.turns remaining < fuel →
      (pushLoop m ios fuel w remaining flushed).isSome
  | _ + 1, w, [], flushed, _ => rfl
  | fuel + 1, w, p :: ps, flushed, h => by
    rw [pushLoop]
    split_ifs with hroom
    · split
      · next b w' _ hf =>
        obtain ⟨hr, -, rfl, -⟩ := flush_ok hf
        refine pushLoop_isSome m ios ?_
        simp only [turns, hr, hroom, ne_eq, not_false_eq_true, and_self, if_true] at h
        simp only [turns, cleared, ne_eq, not_true_eq_false, false_and, if_false]
        omega
      · rfl
    · refine pushLoop_isSome m ios ?_
      simp only [turns, length_drop] at h ⊢
      have : ((p :: ps).length - w.room) + 1 ≤ (p :: ps).length := by
        simp only [length_cons]; omega
      split_ifs at h ⊢ <;> omega

def push (w : BlockWriter V) (m : Metric V) (ios : ℕ → BlockIo) : PushOut V :=
  (pushLoop m ios (2 * m.dataPoints.length + 2) w m.dataPoints []).get
    (pushLoop_isSome m ios (by unfold turns; split_ifs <;> omega))

def merge : List (BlockWriter V) → Except Error (BlockWriter V)
  | [] => .error (.internal "Cannot merge an empty writer set")
  | w :: ws =>
    .ok
      { config := (w :: ws).getLast (cons_ne_nil w ws) |>.config
        batches := (w :: ws).flatMap batches
        rows := ((w :: ws).map rows).sum
        walRange := none
        epoch := 1
        rows_eq := by
          rw [flatMap_assoc, length_flatMap]
          congr 1
          exact map_congr_left fun x _ => x.rows_eq }

/-! ## Where the rows of a push go -/

@[simp] theorem content_cleared (w : BlockWriter V) : w.cleared.content = [] := rfl

theorem content_fill (w : BlockWriter V) (m : Metric V) (points : List (DataPoint V)) :
    (w.fill m points).content = w.content ++ ({ m with dataPoints := points } : Metric V).rows := by
  simp [content, fill, PushedBatch.rows, Metric.rows]

theorem fill_rows_le {w : BlockWriter V} (m : Metric V) (points : List (DataPoint V))
    (h : w.rows ≤ w.capacity) : (w.fill m (points.take w.room)).rows ≤ w.capacity := by
  have hlen := length_take_le w.room points
  change w.rows + (points.take w.room).length ≤ w.capacity
  unfold room at hlen ⊢
  omega

theorem length_content (w : BlockWriter V) : w.content.length = w.rows := w.rows_eq.symm

theorem total_toBlock (wt : MetricRow V → ℕ) (w : BlockWriter V) (io : BlockIo) :
    total wt (w.toBlock io).rows = total wt w.content := total_perm (layoutRows_perm _)

theorem content_merge {ws : List (BlockWriter V)} (h : merge ws = .ok w) :
    w.content = ws.flatMap content := by
  cases ws with
  | nil => cases h
  | cons a ws =>
    cases h
    exact flatMap_assoc

/-- What a push, resumed with `remaining` points after closing `flushed`, leaves behind. -/
structure PushSpec (m : Metric V) (w : BlockWriter V) (remaining : List (DataPoint V))
    (flushed : List (MetricBlock V)) (o : PushOut V) : Prop where
  /-- No row is lost, whatever the outcome. -/
  kept : ∀ wt, blockTotal wt flushed + total wt w.content ≤
    blockTotal wt o.files + total wt o.writer.content
  /-- A push that succeeds reports exactly the blocks it closed. -/
  reported : ∀ bs, o.result = .ok bs → bs = o.files
  /-- A push that succeeds puts every row into exactly one place. -/
  exact_of_ok : o.result.isOk → ∀ wt,
    blockTotal wt flushed + total wt w.content +
        total wt ({ m with dataPoints := remaining } : Metric V).rows =
      blockTotal wt o.files + total wt o.writer.content
  config : o.writer.config = w.config
  /-- The epoch counts the blocks that were closed. -/
  epoch_le : w.epoch ≤ o.writer.epoch
  epoch_of_ok : ∀ bs, o.result = .ok bs → o.writer.epoch + flushed.length = w.epoch + bs.length
  /-- The writer holds nothing else. -/
  only : ∀ x ∈ o.writer.content,
    x ∈ w.content ∨ x ∈ ({ m with dataPoints := remaining } : Metric V).rows
  /-- Unless a block is closed the writer keeps what it had. -/
  stays : o.writer.epoch = w.epoch → ∀ x ∈ w.content, x ∈ o.writer.content

variable {m : Metric V} {ios : ℕ → BlockIo}

theorem pushLoop_spec : ∀ {fuel : ℕ} {w : BlockWriter V} {remaining : List (DataPoint V)}
      {flushed : List (MetricBlock V)} {o : PushOut V},
      pushLoop m ios fuel w remaining flushed = some o → PushSpec m w remaining flushed o
  | 0, _, _, _, _, h => by cases h
  | fuel + 1, w, [], flushed, o, h => by
    cases h
    exact ⟨fun _ => le_rfl, fun _ h => by cases h; rfl, fun _ _ => by simp [Metric.rows], rfl,
      le_rfl, fun _ h => by cases h; rfl, fun _ => .inl, fun _ _ => id⟩
  | fuel + 1, w, p :: ps, flushed, o, h => by
    rw [pushLoop] at h
    split_ifs at h with hroom
    · split at h
      · next b w' _ hf =>
        obtain ⟨-, rfl, rfl, -⟩ := flush_ok hf
        have ih := pushLoop_spec h
        have hb : ∀ wt, blockTotal wt (flushed ++ [w.toBlock (ios flushed.length)]) +
            total wt w.cleared.content = blockTotal wt flushed + total wt w.content := by
          simp [blockTotal, total_toBlock]
        have hle : w.epoch + 1 ≤ o.writer.epoch := ih.epoch_le
        refine ⟨fun wt => hb wt ▸ ih.kept wt, ih.reported,
          fun hok wt => hb wt ▸ ih.exact_of_ok hok wt, ih.config, by omega, fun bs hbs => ?_,
          fun x hx => .inr ((ih.only x hx).resolve_left nofun), fun he => by omega⟩
        have := ih.epoch_of_ok bs hbs
        simp only [cleared, length_append, length_singleton] at this
        omega
      · next e w' file hf =>
        obtain ⟨rfl, -⟩ := flush_error hf
        cases h
        exact ⟨fun wt => by simp [blockTotal], nofun, nofun, rfl, le_rfl, nofun, fun _ => .inl,
          fun _ _ => id⟩
    · have ih := pushLoop_spec h
      have hb : ∀ wt, total wt (w.fill m ((p :: ps).take w.room)).content +
            total wt ({ m with dataPoints := (p :: ps).drop w.room } : Metric V).rows =
          total wt w.content + total wt ({ m with dataPoints := p :: ps } : Metric V).rows := by
        intro wt
        rw [content_fill, total_append, Nat.add_assoc, ← total_append]
        simp only [Metric.rows]
        rw [← map_append, take_append_drop]
      have hsub : ∀ x ∈ (w.fill m ((p :: ps).take w.room)).content, x ∈ w.content ∨
          x ∈ ({ m with dataPoints := p :: ps } : Metric V).rows := by
        intro x hx
        rw [content_fill, mem_append] at hx
        refine hx.imp_right fun hx => ?_
        obtain ⟨q, hq, rfl⟩ := mem_map.mp hx
        exact mem_map_of_mem (mem_of_mem_take hq)
      refine ⟨fun wt => ?_, ih.reported, fun hok wt => ?_, ih.config, ih.epoch_le, ih.epoch_of_ok,
        fun x hx => ?_, fun he x hx => ih.stays he x (by rw [content_fill]; simp [hx])⟩
      · have := ih.kept wt
        rw [content_fill, total_append] at this
        omega
      · have h1 := ih.exact_of_ok hok wt
        have h2 := hb wt
        omega
      · rcases ih.only x hx with hx | hx
        · exact hsub x hx
        · obtain ⟨q, hq, rfl⟩ := mem_map.mp hx
          exact .inr (mem_map_of_mem (mem_of_mem_drop hq))

theorem push_spec (w : BlockWriter V) (m : Metric V) (ios : ℕ → BlockIo) :
    PushSpec m w m.dataPoints [] (w.push m ios) :=
  pushLoop_spec (Option.some_get _).symm

theorem push_kept (w : BlockWriter V) (m : Metric V) (ios : ℕ → BlockIo) (wt : MetricRow V → ℕ) :
    total wt w.content ≤
      blockTotal wt (w.push m ios).files + total wt (w.push m ios).writer.content := by
  have := (push_spec w m ios).kept wt
  rwa [blockTotal_nil, Nat.zero_add] at this

/-- **What a push does.** A push that returns `Ok` puts each of its rows into one of the blocks it
reports or into the writer. -/
theorem push_exact {bs : List (MetricBlock V)} (h : (w.push m ios).result = .ok bs)
    (wt : MetricRow V → ℕ) :
    total wt w.content + total wt m.rows =
      blockTotal wt (w.push m ios).files + total wt (w.push m ios).writer.content := by
  have := (push_spec w m ios).exact_of_ok (by rw [h]; rfl) wt
  rwa [blockTotal_nil, Nat.zero_add] at this

theorem push_unclosed {bs : List (MetricBlock V)} (h : (w.push m ios).result = .ok bs)
    (he : (w.push m ios).writer.epoch = w.epoch) :
    bs = [] ∧ (w.push m ios).writer.content.Perm (w.content ++ m.rows) := by
  have hsp := push_spec w m ios
  have hlen := hsp.epoch_of_ok bs h
  obtain rfl : bs = [] := length_eq_zero_iff.mp (by simp at hlen; omega)
  refine ⟨rfl, ?_⟩
  have hfiles := hsp.reported [] h
  refine perm_of_total_eq fun wt => ?_
  have := push_exact h wt
  rw [← hfiles, blockTotal_nil, Nat.zero_add] at this
  rw [total_append, this]

theorem push_fits (ios : ℕ → BlockIo) (h : w.rows + m.dataPoints.length ≤ w.capacity) :
    ∃ w', w.push m ios = ⟨.ok [], w', []⟩ ∧ w'.content = w.content ++ m.rows ∧
      w'.epoch = w.epoch := by
  cases hp : m.dataPoints with
  | nil =>
    refine ⟨w, Option.get_of_mem _ ?_, by simp [Metric.rows, hp], rfl⟩
    rw [hp]; rfl
  | cons p ps =>
    refine ⟨w.fill m m.dataPoints, Option.get_of_mem _ ?_, content_fill w m _, rfl⟩
    have hlen : (p :: ps).length ≤ w.room := by rw [← hp]; unfold room; omega
    have hroom : ¬ w.room = 0 := by
      intro h0
      rw [h0] at hlen
      simp at hlen
    rw [hp, pushLoop, if_neg hroom, take_of_length_le hlen, drop_of_length_le hlen]
    rfl

theorem pushLoop_epoch {fuel : ℕ} {remaining : List (DataPoint V)} {o : PushOut V}
    (h : pushLoop m ios fuel w remaining [] = some o)
    (hio : w.rows = 0 ∧ w.capacity = 0 ∨ (ios 0).outcome ≠ .written) :
    o.writer.epoch = w.epoch := by
  induction fuel generalizing w remaining with
  | zero => cases h
  | succ fuel ih =>
    rcases remaining with _ | ⟨p, ps⟩
    · cases h
      rfl
    rw [pushLoop] at h
    split_ifs at h with hroom
    · split at h
      · next hf =>
        obtain ⟨hrows, -, -, -, hwritten⟩ := flush_ok hf
        exact absurd hwritten (hio.resolve_left fun h => hrows h.1)
      · next hf =>
        cases h
        rw [(flush_error hf).1]
    · have hfill := ih h (.inr (hio.resolve_left fun h => hroom (by rw [room, h.2, Nat.zero_sub])))
      exact hfill

end BlockWriter

end Parqtel.Ingest
