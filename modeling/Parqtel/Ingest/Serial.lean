import Parqtel.Core.Wal
import Parqtel.Core.Buffer
import Parqtel.Ingest.RowWriter
import Parqtel.Lib.Run

/-!
# The log and trace rotator

`SerialRotator` as a machine over events, for any `RowKind`. The rotator sits behind
one mutex, so at most one `push_batch` is under way (`call`). It closes the open block
first when the batch would overflow it, logs the batch with one append, feeds the
memory buffer and then hands the rows to the writer one by one. A swapped-out writer
is encoded by a detached task that holds the gate (`flight`): write the block, send
it to the index, wait for durability, commit the WAL, drop the rows from the buffer.

Every answer of the environment is in the event. Two fields serve the statements
only: `acked`, the rows of the batches that returned `Ok` with the position their
record ends at, and `lost`, the rows of background writes that left no block.
-/

namespace Parqtel.Ingest.Serial

open Parqtel.Lib Parqtel.Wal Parqtel.Buffer Option

/-- The signal a rotator is for, and the length of a row's serialised form. -/
structure Signal (R : Type*) where
  kind : RowKind R
  payloadLen : R → ℕ

variable {R : Type*}

def recordLen (sig : Signal R) (r : R) : ℕ := recordHeaderLen + sig.payloadLen r

/-! ## State -/

/-- How far a `push_batch` is. `ends` are the positions its records end at, `done` the rows the
writer has, `rest` those it does not have yet. -/
inductive CallPhase (R : Type*) where
  | entered
  | checked
  | logged (ends : List ℕ)
  | pushing (ends : List ℕ) (done rest : List R)
  | closing (ends : List ℕ) (done rest : List R) (block : Block R)
  | dropped (ends : List ℕ) (done rest : List R) (block : Block R)

structure Call (R : Type*) where
  rows : List R
  phase : CallPhase R

inductive FlightPhase where
  | encoding
  | published
  | committing
  | dropping
  | failed
deriving DecidableEq, Repr

/-- What is left to do is to drop the rows from the buffer. -/
def FlightPhase.dropsNext : FlightPhase → Bool
  | .dropping | .failed => true
  | _ => false

structure Flight (R : Type*) where
  writer : RowWriter R
  covered : ℕ
  rowCount : ℕ
  phase : FlightPhase

structure State (R : Type*) where
  config : BlockConfig
  writer : RowWriter R
  wal : Option WalWriter
  dir : WalDir R
  covered : ℕ
  walCursor : ℕ
  call : Option (Call R)
  flight : Option (Flight R)
  buffer : Option (List R)
  files : List (Block R)
  sent : List (Block R)
  acked : List (ℕ × R)
  lost : List R

namespace State

def boot (config : BlockConfig) (wal : Option WalWriter) (dir : WalDir R)
    (buffer : Option (List R)) (files : List (Block R)) : State R :=
  { config := config
    writer := RowWriter.new config
    wal := wal
    dir := dir
    covered := start
    walCursor := start
    call := none
    flight := none
    buffer := buffer
    files := files
    sent := []
    acked := []
    lost := [] }

def walEnd (s : State R) : ℕ := s.wal.elim start WalWriter.position

def maxRows (s : State R) : ℕ := max s.config.maxRowsPerBlock 1

end State

/-! ## Transitions -/

inductive Event (R : Type*) where
  | batch (rows : List R)
  | overflowFlush
  | append (io : AppendIo)
  | feed
  | pushRow (io : BlockIo)
  | dropClosed
  | publishClosed
  | finish
  | flush
  | encode (io : BlockIo)
  | ack
  | giveUp
  | commit (ok : Bool)
  | drop

namespace State

def newFlight (s : State R) : Flight R :=
  { writer := s.wal.elim s.writer fun _ =>
      { s.writer with walRange := s.wal.map fun _ => (s.walCursor, s.covered) }
    covered := s.covered
    rowCount := s.writer.buffer.length
    phase := .encoding }

/-- `start_flush`: nothing to do for an empty writer; otherwise the gate has to be free. -/
def startFlush (s : State R) : Option (State R) :=
  if s.writer.buffer = [] then some s
  else if s.flight.isSome then none
  else
    some { s with
      writer := RowWriter.new s.config
      covered := start
      walCursor := s.wal.elim s.walCursor fun _ => s.covered
      flight := some s.newFlight }

def overflows (s : State R) (rows : List R) : Bool :=
  0 < s.writer.buffer.length && s.maxRows < s.writer.buffer.length + rows.length

def batch (s : State R) (rows : List R) : Option (State R) :=
  match s.call with
  | none =>
    some { s with call := some ⟨rows, if s.overflows rows then .entered else .checked⟩ }
  | some _ => none

def overflowFlush (s : State R) : Option (State R) :=
  match s.call with
  | some ⟨rows, .entered⟩ => { s with call := some ⟨rows, .checked⟩ }.startFlush
  | _ => none

def logBatch (sig : Signal R) (s : State R) (rows : List R) (io : AppendIo) :
    Option (ℕ × List ℕ) × Option WalWriter × WalDir R :=
  match s.wal with
  | none => (some (s.covered, rows.map fun _ => start), none, s.dir)
  | some w =>
    let lens := rows.map (recordLen sig)
    let o := w.appendEncoded lens.sum io
    let records := List.zipWith (fun p r => ⟨w.segment, p, some r⟩) (w.recordEnds lens) rows
    (o.result.toOption.map fun p => (p, w.recordEnds lens), some o.writer,
      { s.dir with log := s.dir.log ++ if o.wrote.isSome then records else [] })

/-- A batch that fills a block waits for the flush in flight before it is logged. -/
def append (sig : Signal R) (s : State R) (io : AppendIo) : Option (State R) :=
  match s.call with
  | some ⟨rows, .checked⟩ =>
    if s.maxRows ≤ rows.length && s.flight.isSome then none
    else
      let logged := s.logBatch sig rows io
      some { s with
        wal := logged.2.1
        dir := logged.2.2
        covered := logged.1.elim s.covered Prod.fst
        call := logged.1.map fun r => ⟨rows, .logged r.2⟩ }
  | _ => none

def feed (s : State R) : Option (State R) :=
  match s.call with
  | some ⟨rows, .logged ends⟩ =>
    some { s with
      buffer := s.buffer.map (· ++ rows)
      call := some ⟨rows, .pushing ends [] rows⟩ }
  | _ => none

/-- Hand the next row to the writer, which may close a block first; an error ends the batch. -/
def pushRow (sig : Signal R) (s : State R) (io : BlockIo) : Option (State R) :=
  match s.call with
  | some ⟨rows, .pushing ends done (r :: rest)⟩ =>
    let o := s.writer.push sig.kind r io
    some { s with
      writer := o.writer
      files := s.files ++ o.file.toList
      call := match o.result with
        | .error _ => none
        | .ok none => some ⟨rows, .pushing ends (done ++ [r]) rest⟩
        | .ok (some b) => some ⟨rows, .closing ends (done ++ [r]) rest b⟩ }
  | _ => none

def dropClosed (s : State R) : Option (State R) :=
  match s.call with
  | some ⟨rows, .closing ends done rest b⟩ =>
    some { s with
      buffer := s.buffer.map (dropFlushed b.metadata.rowCount)
      call := some ⟨rows, .dropped ends done rest b⟩ }
  | _ => none

def publishClosed (s : State R) : Option (State R) :=
  match s.call with
  | some ⟨rows, .dropped ends done rest b⟩ =>
    some { s with
      sent := s.sent ++ [b]
      call := some ⟨rows, .pushing ends done rest⟩ }
  | _ => none

def finish (s : State R) : Option (State R) :=
  match s.call with
  | some ⟨_, .pushing ends done []⟩ =>
    some { s with
      call := none
      acked := s.acked ++ ends.zip done }
  | _ => none

def flush (s : State R) : Option (State R) :=
  match s.call with
  | none => s.startFlush
  | some _ => none

/-- A published block waits to be durable; without a WAL there is nothing to wait for. -/
def sentPhase (s : State R) : FlightPhase := if s.wal.isSome then .published else .dropping

/-- The flush task writes its block and sends it to the index; when that fails it goes on to drop
the rows from the buffer. -/
def encode (sig : Signal R) (s : State R) (io : BlockIo) : Option (State R) :=
  match s.flight with
  | some ⟨w, covered, rowCount, .encoding⟩ =>
    match w.flush sig.kind io with
    | ⟨.ok b, _, file⟩ =>
      some { s with
        files := s.files ++ file.toList
        sent := s.sent ++ [b]
        flight := some ⟨w, covered, rowCount, s.sentPhase⟩ }
    | ⟨.error _, _, file⟩ =>
      some { s with
        files := s.files ++ file.toList
        lost := s.lost ++ if file.isSome then [] else w.buffer
        flight := some ⟨w, covered, rowCount, .failed⟩ }
  | _ => none

def ack (s : State R) : Option (State R) :=
  match s.flight with
  | some ⟨w, covered, rowCount, .published⟩ =>
    some { s with flight := some ⟨w, covered, rowCount, .committing⟩ }
  | _ => none

def giveUp (s : State R) : Option (State R) :=
  match s.flight with
  | some ⟨w, covered, rowCount, .published⟩ =>
    some { s with flight := some ⟨w, covered, rowCount, .dropping⟩ }
  | _ => none

/-- The flush task commits its own position; a failed commit is only logged. -/
def commit (s : State R) (ok : Bool) : Option (State R) :=
  match s.flight with
  | some ⟨w, covered, rowCount, .committing⟩ =>
    some { s with
      dir := s.dir.advance covered ok
      flight := some ⟨w, covered, rowCount, .dropping⟩ }
  | _ => none

def drop (s : State R) : Option (State R) :=
  match s.flight with
  | none => none
  | some f =>
    if f.phase.dropsNext then
      some { s with
        buffer := s.buffer.map (dropFlushed f.rowCount)
        flight := none }
    else none

end State

def step (sig : Signal R) (s : State R) : Event R → Option (State R)
  | .batch rows => s.batch rows
  | .overflowFlush => s.overflowFlush
  | .append io => s.append sig io
  | .feed => s.feed
  | .pushRow io => s.pushRow sig io
  | .dropClosed => s.dropClosed
  | .publishClosed => s.publishClosed
  | .finish => s.finish
  | .flush => s.flush
  | .encode io => s.encode sig io
  | .ack => s.ack
  | .giveUp => s.giveUp
  | .commit ok => s.commit ok
  | .drop => s.drop

/-! ## What a transition can do -/

namespace State

variable {sig : Signal R} {s s' : State R}

@[simp] theorem newFlight_buffer (s : State R) : s.newFlight.writer.buffer = s.writer.buffer := by
  unfold newFlight
  cases s.wal <;> rfl

theorem startFlush_cases (h : s.startFlush = some s') :
    s.writer.buffer = [] ∧ s' = s ∨ s.flight = none ∧ s' = { s with
      writer := RowWriter.new s.config
      covered := start
      walCursor := s.wal.elim s.walCursor fun _ => s.covered
      flight := some s.newFlight } := by
  unfold startFlush at h
  split_ifs at h with h1 h2
  · exact .inl ⟨h1, (some.inj h).symm⟩
  · exact .inr ⟨by simpa using h2, (some.inj h).symm⟩

theorem batch_cases {rows : List R} (h : s.batch rows = some s') : s.call = none ∧
      s' = { s with call := some ⟨rows, if s.overflows rows then .entered else .checked⟩ } := by
  unfold batch at h
  split at h
  · next hc => exact ⟨hc, (some.inj h).symm⟩
  · cases h

theorem overflowFlush_cases (h : s.overflowFlush = some s') :
    ∃ rows, s.call = some ⟨rows, .entered⟩ ∧
      { s with call := some ⟨rows, .checked⟩ }.startFlush = some s' := by
  unfold overflowFlush at h
  split at h
  · next rows hc => exact ⟨rows, hc, h⟩
  · cases h

theorem append_cases {io : AppendIo} (h : s.append sig io = some s') :
    ∃ rows, s.call = some ⟨rows, .checked⟩ ∧ (s.maxRows ≤ rows.length → s.flight = none) ∧
      s' = { s with
        wal := (s.logBatch sig rows io).2.1
        dir := (s.logBatch sig rows io).2.2
        covered := (s.logBatch sig rows io).1.elim s.covered Prod.fst
        call := (s.logBatch sig rows io).1.map fun r => ⟨rows, .logged r.2⟩ } := by
  unfold append at h
  split at h
  · next rows hc =>
    split_ifs at h with hg
    refine ⟨rows, hc, fun hle => ?_, (some.inj h).symm⟩
    simpa [hle] using hg
  · cases h

theorem feed_cases (h : s.feed = some s') : ∃ rows ends, s.call = some ⟨rows, .logged ends⟩ ∧
      s' = { s with
        buffer := s.buffer.map (· ++ rows)
        call := some ⟨rows, .pushing ends [] rows⟩ } := by
  unfold feed at h
  split at h
  · next rows ends hc => exact ⟨rows, ends, hc, (some.inj h).symm⟩
  · cases h

theorem pushRow_cases {io : BlockIo} (h : s.pushRow sig io = some s') :
    ∃ rows ends done r rest, s.call = some ⟨rows, .pushing ends done (r :: rest)⟩ ∧
      s' = { s with
        writer := (s.writer.push sig.kind r io).writer
        files := s.files ++ (s.writer.push sig.kind r io).file.toList
        call := match (s.writer.push sig.kind r io).result with
          | .error _ => none
          | .ok none => some ⟨rows, .pushing ends (done ++ [r]) rest⟩
          | .ok (some b) => some ⟨rows, .closing ends (done ++ [r]) rest b⟩ } := by
  unfold pushRow at h
  split at h
  · next rows ends done r rest hc =>
    exact ⟨rows, ends, done, r, rest, hc, (some.inj h).symm⟩
  · cases h

theorem dropClosed_cases (h : s.dropClosed = some s') :
    ∃ rows ends done rest b, s.call = some ⟨rows, .closing ends done rest b⟩ ∧
      s' = { s with
        buffer := s.buffer.map (dropFlushed b.metadata.rowCount)
        call := some ⟨rows, .dropped ends done rest b⟩ } := by
  unfold dropClosed at h
  split at h
  · next rows ends done rest b hc => exact ⟨rows, ends, done, rest, b, hc, (some.inj h).symm⟩
  · cases h

theorem publishClosed_cases (h : s.publishClosed = some s') :
    ∃ rows ends done rest b, s.call = some ⟨rows, .dropped ends done rest b⟩ ∧
      s' = { s with
        sent := s.sent ++ [b]
        call := some ⟨rows, .pushing ends done rest⟩ } := by
  unfold publishClosed at h
  split at h
  · next rows ends done rest b hc => exact ⟨rows, ends, done, rest, b, hc, (some.inj h).symm⟩
  · cases h

theorem finish_cases (h : s.finish = some s') :
    ∃ rows ends done, s.call = some ⟨rows, .pushing ends done []⟩ ∧
      s' = { s with
        call := none
        acked := s.acked ++ ends.zip done } := by
  unfold finish at h
  split at h
  · next rows ends done hc => exact ⟨rows, ends, done, hc, (some.inj h).symm⟩
  · cases h

theorem flush_cases (h : s.flush = some s') : s.call = none ∧ s.startFlush = some s' := by
  unfold flush at h
  split at h
  · next hc => exact ⟨hc, h⟩
  · cases h

theorem encode_cases {io : BlockIo} (h : s.encode sig io = some s') :
    ∃ w covered rowCount, s.flight = some ⟨w, covered, rowCount, .encoding⟩ ∧
      ((∃ b w' file, w.flush sig.kind io = ⟨.ok b, w', file⟩ ∧
        s' = { s with
          files := s.files ++ file.toList
          sent := s.sent ++ [b]
          flight := some ⟨w, covered, rowCount, s.sentPhase⟩ }) ∨
      (∃ e w' file, w.flush sig.kind io = ⟨.error e, w', file⟩ ∧
        s' = { s with
          files := s.files ++ file.toList
          lost := s.lost ++ if file.isSome then [] else w.buffer
          flight := some ⟨w, covered, rowCount, .failed⟩ })) := by
  unfold encode at h
  split at h
  · next w covered rowCount hf =>
    refine ⟨w, covered, rowCount, hf, ?_⟩
    split at h
    · next b w' file hw => exact .inl ⟨b, w', file, hw, (some.inj h).symm⟩
    · next e w' file hw => exact .inr ⟨e, w', file, hw, (some.inj h).symm⟩
  · cases h

theorem ack_cases (h : s.ack = some s') :
    ∃ w covered rowCount, s.flight = some ⟨w, covered, rowCount, .published⟩ ∧
      s' = { s with flight := some ⟨w, covered, rowCount, .committing⟩ } := by
  unfold ack at h
  split at h
  · next w covered rowCount hf => exact ⟨w, covered, rowCount, hf, (some.inj h).symm⟩
  · cases h

theorem giveUp_cases (h : s.giveUp = some s') :
    ∃ w covered rowCount, s.flight = some ⟨w, covered, rowCount, .published⟩ ∧
      s' = { s with flight := some ⟨w, covered, rowCount, .dropping⟩ } := by
  unfold giveUp at h
  split at h
  · next w covered rowCount hf => exact ⟨w, covered, rowCount, hf, (some.inj h).symm⟩
  · cases h

theorem commit_cases {ok : Bool} (h : s.commit ok = some s') :
    ∃ w covered rowCount, s.flight = some ⟨w, covered, rowCount, .committing⟩ ∧
      s' = { s with
        dir := s.dir.advance covered ok
        flight := some ⟨w, covered, rowCount, .dropping⟩ } := by
  unfold commit at h
  split at h
  · next w covered rowCount hf => exact ⟨w, covered, rowCount, hf, (some.inj h).symm⟩
  · cases h

theorem drop_cases (h : s.drop = some s') : ∃ f, s.flight = some f ∧ f.phase.dropsNext = true ∧
      s' = { s with
        buffer := s.buffer.map (dropFlushed f.rowCount)
        flight := none } := by
  unfold drop at h
  split at h
  · cases h
  · next f hf =>
    split_ifs at h with hp
    exact ⟨f, hf, hp, (some.inj h).symm⟩

end State

end Parqtel.Ingest.Serial
