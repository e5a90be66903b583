import Parqtel.Core.Wal
import Parqtel.Core.Buffer
import Parqtel.Ingest.Writer
import Parqtel.Lib.Frontier
import Parqtel.Lib.Run

/-!
# The metric rotator

`BlockRotator` as a machine over events. A push runs in steps: the capacity check
(`enter`, `capacityFlush`), the WAL append under the shard's lock (`append`), the
memory buffer (`feed`), the writer (`write`) and the bookkeeping before the lock
is released (`finish`). A flush swaps the non-empty writers out while no push holds
a lock, and becomes a job. Jobs run concurrently: `encode` writes the block file
and sends its metadata to the index, `ack` and `giveUp` end the durability wait,
`commit` advances the WAL, `release` and `drop` clear the memory buffer.

Every answer of the environment (I/O results, acknowledgements, the order in which
tasks move) is in the event. `acked` records, for the statements only, the pushes
that returned `Ok`, each with the position its WAL record ends at.
-/

namespace Parqtel.Ingest

open Parqtel.Lib Parqtel.Wal Parqtel.Buffer Option BlockWriter

variable {V : Type*}

/-- What the rotator uses without looking inside: the hash that routes a metric and the length
of its serialised form. -/
structure Env (V : Type*) where
  hash : String → ℕ
  payloadLen : Metric V → ℕ

def shardFor (env : Env V) (name : String) (shardCount : ℕ) : ℕ := env.hash name % shardCount

def recordLen (env : Env V) (m : Metric V) : ℕ := recordHeaderLen + env.payloadLen m

/-- A point as the memory buffer holds it: with the resource's `service.name` unless the point
has its own. -/
def bufferPoint (resource : LabelSet) (p : DataPoint V) : DataPoint V :=
  match resource.get "service.name" with
  | none => p
  | some svc =>
    if (p.labels.get "service.name").isSome then p
    else { p with labels := p.labels.with "service.name" svc }

def bufferPoints (m : Metric V) : List (DataPoint V) :=
  m.dataPoints.map (bufferPoint m.resourceAttributes)

/-! ## Ordering the effects of concurrent flushes -/

structure FlushOrder where
  nextSeq : ℕ
  wal : Frontier ℕ
  drop : Frontier (List ℕ)
deriving DecidableEq, Repr

namespace FlushOrder

def new : FlushOrder := ⟨0, Frontier.empty, Frontier.empty⟩

def maxInto : List ℕ → List ℕ → List ℕ
  | a :: as, b :: bs => max a b :: maxInto as bs
  | as, [] => as
  | [], _ => []

def begin (o : FlushOrder) : ℕ × FlushOrder := (o.nextSeq, { o with nextSeq := o.nextSeq + 1 })

/-- Flush `seq` is durable: the position that may now be committed. -/
def walComplete (o : FlushOrder) (seq covered : ℕ) : Option ℕ × FlushOrder :=
  let r := o.wal.complete max seq covered
  (r.1, { o with wal := r.2 })

/-- Flush `seq` is done with the buffer: the per-shard epochs that may now be dropped. -/
def dropComplete (o : FlushOrder) (seq : ℕ) (sealed : List ℕ) : Option (List ℕ) × FlushOrder :=
  let r := o.drop.complete maxInto seq sealed
  (r.1, { o with drop := r.2 })

end FlushOrder

/-! ## State -/

/-- How far a push is that holds its shard's lock. -/
inductive PushPhase (V : Type*) where
  | logged
  | buffered
  | written (closed : List (MetricBlock V))

structure Push (V : Type*) where
  metric : Metric V
  pos : ℕ
  phase : PushPhase V

structure Shard (V : Type*) where
  writer : BlockWriter V
  lock : Option (Push V)

/-- A push on its way to the lock; `needsFlush` is the outcome of the capacity check. -/
structure Caller (V : Type*) where
  metric : Metric V
  needsFlush : Bool

/-- How far a flush job is. `written` tells whether its block was encoded and published. -/
inductive JobPhase where
  | queued
  | published
  | acknowledged (releasable : Option ℕ)
  | settled
  | failed
  | dropping (written : Bool) (released : Option (List ℕ))
  | finished (written : Bool)
deriving DecidableEq

def JobPhase.isWritten : JobPhase → Bool
  | queued | failed => false
  | published | acknowledged _ | settled => true
  | dropping w _ | finished w => w

structure FlushJob (V : Type*) where
  walRange : Option WalRange
  seq : ℕ
  sealed : List ℕ
  writers : List (BlockWriter V)
  covered : ℕ
  phase : JobPhase

def FlushJob.rows (job : FlushJob V) : List (MetricRow V) :=
  job.writers.flatMap content

structure State (V : Type*) where
  config : BlockConfig
  callers : List (Caller V)
  shards : List (Shard V)
  buffered : ℕ
  wal : Option WalWriter
  dir : WalDir (Metric V)
  order : FlushOrder
  walCursor : ℕ
  jobs : List (FlushJob V)
  buffer : Option (MemoryBuffer V)
  files : List (MetricBlock V)
  sent : List (MetricBlock V)
  acked : List (ℕ × Metric V)

namespace State

def shardCount (n : ℕ) : ℕ := max 1 (min n 256)

def boot (config : BlockConfig) (shards : ℕ) (wal : Option WalWriter) (dir : WalDir (Metric V))
    (buffer : Option (MemoryBuffer V)) (files : List (MetricBlock V)) : State V :=
  { config := config
    callers := []
    shards := List.replicate (shardCount shards) ⟨new config, none⟩
    buffered := 0
    wal := wal
    dir := dir
    order := FlushOrder.new
    walCursor := start
    jobs := []
    buffer := buffer
    files := files
    sent := []
    acked := [] }

def walEnd (s : State V) : ℕ := s.wal.elim start WalWriter.position

end State

def fetchAdd (a b : ℕ) : ℕ := (a + b) % 2 ^ 64

def fetchSub (a b : ℕ) : ℕ := (a + (2 ^ 64 - b % 2 ^ 64)) % 2 ^ 64

/-! ## Transitions -/

inductive Event (V : Type*) where
  | enter (m : Metric V)
  | capacityFlush (j : ℕ)
  | abandon (j : ℕ)
  | append (j : ℕ) (io : AppendIo)
  | feed (i : ℕ)
  | write (i : ℕ) (ios : ℕ → BlockIo)
  | finish (i : ℕ)
  | flush
  | encode (k : ℕ) (io : BlockIo)
  | ack (k : ℕ)
  | giveUp (k : ℕ)
  | commit (k : ℕ) (ok : Bool)
  | release (k : ℕ)
  | drop (k : ℕ)

namespace State

def unlocked (s : State V) : Bool := s.shards.all fun sh => sh.lock.isNone

/-- The check at the start of `push_buffered`: `buffered + points > cap`, without overflow. -/
def wouldOverflow (s : State V) (points : ℕ) : Bool :=
  s.config.maxRowsPerBlock < points || s.config.maxRowsPerBlock - points < s.buffered

def enter (s : State V) (m : Metric V) : State V :=
  { s with callers := s.callers ++ [⟨m, s.wouldOverflow m.dataPoints.length⟩] }

def sealedEpochs (s : State V) : List ℕ :=
  s.shards.map fun sh => if sh.writer.isEmpty then 0 else sh.writer.epoch

def takenWriters (s : State V) : List (BlockWriter V) :=
  (s.shards.map Shard.writer).filter fun w => !w.isEmpty

def swapWriter (config : BlockConfig) (sh : Shard V) : Shard V :=
  if sh.writer.isEmpty then sh
  else { sh with writer := withEpoch config (sh.writer.epoch + 1) }

def flushLocked (s : State V) : State V :=
  if s.takenWriters = [] then s
  else
    let covered := s.walEnd
    let job : FlushJob V :=
      { walRange := s.wal.map fun _ => (s.walCursor, covered)
        seq := s.order.begin.1
        sealed := s.sealedEpochs
        writers := s.takenWriters
        covered := covered
        phase := .queued }
    { s with
      shards := s.shards.map (swapWriter s.config)
      buffered := s.takenWriters.foldl (fun n w => fetchSub n w.rows) s.buffered
      walCursor := s.wal.elim s.walCursor fun _ => covered
      order := s.order.begin.2
      jobs := s.jobs ++ [job] }

def flush (s : State V) : Option (State V) := if s.unlocked then some s.flushLocked else none

/-- `flush_if_over_capacity` of a caller: another flush may have covered the cap already. -/
def capacityFlush (s : State V) (j : ℕ) : Option (State V) :=
  match s.callers[j]? with
  | some c =>
    if c.needsFlush then
      let s' := { s with callers := s.callers.set j { c with needsFlush := false } }
      if s.buffered < s.config.maxRowsPerBlock then some s' else s'.flush
    else none
  | none => none

def abandon (s : State V) (j : ℕ) : Option (State V) :=
  if j < s.callers.length then some { s with callers := s.callers.eraseIdx j } else none

def logMetric (env : Env V) (s : State V) (m : Metric V) (io : AppendIo) :
    Option ℕ × Option WalWriter × WalDir (Metric V) :=
  match s.wal with
  | none => (some start, none, s.dir)
  | some w =>
    let o := w.appendEncoded (recordLen env m) io
    let log := s.dir.log ++ (o.wrote.map fun p => ⟨w.segment, p, some m⟩).toList
    (o.result.toOption, some o.writer, { s.dir with log := log })

def append (env : Env V) (s : State V) (j : ℕ) (io : AppendIo) : Option (State V) :=
  match s.callers[j]? with
  | some c =>
    let i := shardFor env c.metric.name s.shards.length
    match s.shards[i]? with
    | some sh =>
      if c.needsFlush || sh.lock.isSome then none
      else
        let logged := s.logMetric env c.metric io
        some { s with
          callers := s.callers.eraseIdx j
          wal := logged.2.1
          dir := logged.2.2
          shards := s.shards.set i
            ⟨sh.writer, logged.1.map fun p => ⟨c.metric, p, .logged⟩⟩ }
    | none => none
  | none => none

def feed (s : State V) (i : ℕ) : Option (State V) :=
  match s.shards[i]? with
  | some ⟨w, some ⟨m, pos, .logged⟩⟩ =>
    some { s with
      buffer := s.buffer.map fun b => b.pushMetricsTagged m.name (bufferPoints m) i w.epoch
      shards := s.shards.set i ⟨w, some ⟨m, pos, .buffered⟩⟩ }
  | _ => none

def write (s : State V) (i : ℕ) (ios : ℕ → BlockIo) : Option (State V) :=
  match s.shards[i]? with
  | some ⟨w, some ⟨m, pos, .buffered⟩⟩ =>
    let o := w.push m ios
    some { s with
      files := s.files ++ o.files
      shards := s.shards.set i ⟨o.writer, o.result.toOption.map fun bs => ⟨m, pos, .written bs⟩⟩ }
  | _ => none

def closedRows (closed : List (MetricBlock V)) : ℕ :=
  (closed.map fun b => b.metadata.rowCount).sum

/-- The push at shard `i` publishes what its writer closed, adjusts the counter and returns. -/
def finish (s : State V) (i : ℕ) : Option (State V) :=
  match s.shards[i]? with
  | some ⟨w, some ⟨m, pos, .written closed⟩⟩ =>
    let sealed := (List.replicate s.shards.length 0).set i (w.epoch - 1)
    some { s with
      sent := s.sent ++ closed
      buffer := if 0 < closedRows closed then s.buffer.map (·.dropSealedMetrics sealed)
        else s.buffer
      buffered := fetchSub (fetchAdd s.buffered m.dataPoints.length) (closedRows closed)
      shards := s.shards.set i ⟨w, none⟩
      acked := s.acked ++ [(pos, m)] }
  | _ => none

/-- `merge_and_flush`: the block of a job, and the file it left in place. -/
def mergeAndFlush (job : FlushJob V) (io : BlockIo) :
    Except Error (MetricBlock V) × Option (MetricBlock V) :=
  match merge job.writers with
  | .error e => (.error e, none)
  | .ok w =>
    let o := (w.setWalRange job.walRange).flush io
    (o.result, o.file)

def sentPhase (s : State V) : JobPhase := if s.wal.isSome then .published else .settled

def encode (s : State V) (k : ℕ) (io : BlockIo) : Option (State V) :=
  match s.jobs[k]? with
  | some job =>
    if job.phase = .queued then
      match mergeAndFlush job io with
      | (.ok b, file) =>
        some { s with
          files := s.files ++ file.toList
          sent := s.sent ++ [b]
          jobs := s.jobs.set k { job with phase := s.sentPhase } }
      | (.error _, file) =>
        some { s with
          files := s.files ++ file.toList
          jobs := s.jobs.set k { job with phase := .failed } }
    else none
  | none => none

def ack (s : State V) (k : ℕ) : Option (State V) :=
  match s.jobs[k]? with
  | some job =>
    if job.phase = .published then
      let r := s.order.walComplete job.seq job.covered
      some { s with
        order := r.2
        jobs := s.jobs.set k { job with phase := .acknowledged r.1 } }
    else none
  | none => none

/-- The durability wait of job `k` ends without an acknowledgement. -/
def giveUp (s : State V) (k : ℕ) : Option (State V) :=
  match s.jobs[k]? with
  | some job =>
    if job.phase = .published then
      some { s with jobs := s.jobs.set k { job with phase := .settled } }
    else none
  | none => none

/-- Job `k` commits what its acknowledgement released; a failed commit is only logged. -/
def commit (s : State V) (k : ℕ) (ok : Bool) : Option (State V) :=
  match s.jobs[k]? with
  | some job =>
    match job.phase with
    | .acknowledged releasable =>
      some { s with
        dir := releasable.elim s.dir fun p => s.dir.advance p ok
        jobs := s.jobs.set k { job with phase := .settled } }
    | _ => none
  | none => none

def release (s : State V) (k : ℕ) : Option (State V) :=
  match s.jobs[k]? with
  | some job =>
    if job.phase = .settled ∨ job.phase = .failed then
      let sealed := if job.phase = .settled then job.sealed
        else List.replicate job.sealed.length 0
      let r := s.order.dropComplete job.seq sealed
      some { s with
        order := r.2
        jobs := s.jobs.set k { job with phase := .dropping job.phase.isWritten r.1 } }
    else none
  | none => none

def drop (s : State V) (k : ℕ) : Option (State V) :=
  match s.jobs[k]? with
  | some job =>
    match job.phase with
    | .dropping written released =>
      some { s with
        buffer := released.elim s.buffer fun sealed => s.buffer.map (·.dropSealedMetrics sealed)
        jobs := s.jobs.set k { job with phase := .finished written } }
    | _ => none
  | none => none

end State

def step (env : Env V) (s : State V) : Event V → Option (State V)
  | .enter m => some (s.enter m)
  | .capacityFlush j => s.capacityFlush j
  | .abandon j => s.abandon j
  | .append j io => s.append env j io
  | .feed i => s.feed i
  | .write i ios => s.write i ios
  | .finish i => s.finish i
  | .flush => s.flush
  | .encode k io => s.encode k io
  | .ack k => s.ack k
  | .giveUp k => s.giveUp k
  | .commit k ok => s.commit k ok
  | .release k => s.release k
  | .drop k => s.drop k

/-! ## What a transition can do

One lemma for each transition that is not already an equation: the guard it passed and the state
it leads to. -/

variable {i k : ℕ} {job : FlushJob V}

namespace State

variable {env : Env V} {s s' : State V}

theorem flush_cases (h : s.flush = some s') : s.unlocked = true ∧ s' = s.flushLocked := by
  unfold flush at h
  split_ifs at h with hu
  exact ⟨hu, (some.inj h).symm⟩

theorem flushLocked_callers (s : State V) (cs : List (Caller V)) :
    ({ s with callers := cs } : State V).flushLocked = { s.flushLocked with callers := cs } := by
  unfold flushLocked
  split_ifs with h1 h2 h2
  · rfl
  · exact absurd h1 h2
  · exact absurd h2 h1
  · rfl

variable {j : ℕ}

theorem capacityFlush_cases (h : s.capacityFlush j = some s') :
    ∃ cs, s' = { s with callers := cs } ∨
      (s.unlocked = true ∧ s' = { s.flushLocked with callers := cs }) := by
  unfold capacityFlush at h
  split at h
  · next c _ =>
    refine ⟨s.callers.set j { c with needsFlush := false }, ?_⟩
    split_ifs at h
    · exact .inl (some.inj h).symm
    · obtain ⟨hu, rfl⟩ := flush_cases h
      exact .inr ⟨hu, flushLocked_callers s _⟩
  · cases h

theorem abandon_cases (h : s.abandon j = some s') :
    s' = { s with callers := s.callers.eraseIdx j } := by
  unfold abandon at h
  split_ifs at h
  exact (some.inj h).symm

theorem append_cases {io : AppendIo} (h : s.append env j io = some s') :
    ∃ c sh, s.callers[j]? = some c ∧ c.needsFlush = false ∧
      s.shards[shardFor env c.metric.name s.shards.length]? = some sh ∧ sh.lock = none ∧
      s' = { s with
        callers := s.callers.eraseIdx j
        wal := (s.logMetric env c.metric io).2.1
        dir := (s.logMetric env c.metric io).2.2
        shards := s.shards.set (shardFor env c.metric.name s.shards.length)
          ⟨sh.writer, (s.logMetric env c.metric io).1.map fun p => ⟨c.metric, p, .logged⟩⟩ } := by
  unfold append at h
  split at h
  · next c hc =>
    dsimp only at h
    split at h
    · next sh hsh =>
      split_ifs at h with hg
      simp only [Bool.or_eq_true, not_or, Bool.not_eq_true, isSome_eq_false_iff,
        isNone_iff_eq_none] at hg
      exact ⟨c, sh, hc, hg.1, hsh, hg.2, (some.inj h).symm⟩
    · cases h
  · cases h

theorem feed_cases (h : s.feed i = some s') :
    ∃ w m pos, s.shards[i]? = some ⟨w, some ⟨m, pos, .logged⟩⟩ ∧
      s' = { s with
        buffer := s.buffer.map fun b => b.pushMetricsTagged m.name (bufferPoints m) i w.epoch
        shards := s.shards.set i ⟨w, some ⟨m, pos, .buffered⟩⟩ } := by
  unfold feed at h
  split at h
  · next w m pos hsh => exact ⟨w, m, pos, hsh, (some.inj h).symm⟩
  · cases h

theorem write_cases {ios : ℕ → BlockIo} (h : s.write i ios = some s') :
    ∃ w m pos, s.shards[i]? = some ⟨w, some ⟨m, pos, .buffered⟩⟩ ∧
      s' = { s with
        files := s.files ++ (w.push m ios).files
        shards := s.shards.set i ⟨(w.push m ios).writer,
          (w.push m ios).result.toOption.map fun bs => ⟨m, pos, .written bs⟩⟩ } := by
  unfold write at h
  split at h
  · next w m pos hsh => exact ⟨w, m, pos, hsh, (some.inj h).symm⟩
  · cases h

theorem finish_cases (h : s.finish i = some s') :
    ∃ w m pos closed, s.shards[i]? = some ⟨w, some ⟨m, pos, .written closed⟩⟩ ∧
      s' = { s with
        sent := s.sent ++ closed
        buffer := if 0 < closedRows closed then s.buffer.map
            (·.dropSealedMetrics ((List.replicate s.shards.length 0).set i (w.epoch - 1)))
          else s.buffer
        buffered := fetchSub (fetchAdd s.buffered m.dataPoints.length) (closedRows closed)
        shards := s.shards.set i ⟨w, none⟩
        acked := s.acked ++ [(pos, m)] } := by
  unfold finish at h
  split at h
  · next w m pos closed hsh => exact ⟨w, m, pos, closed, hsh, (some.inj h).symm⟩
  · cases h

theorem encode_cases {io : BlockIo} (h : s.encode k io = some s') :
    ∃ job, s.jobs[k]? = some job ∧ job.phase = .queued ∧
      ((∃ b file, mergeAndFlush job io = (.ok b, file) ∧
        s' = { s with
          files := s.files ++ file.toList
          sent := s.sent ++ [b]
          jobs := s.jobs.set k { job with phase := s.sentPhase } }) ∨
      (∃ e file, mergeAndFlush job io = (.error e, file) ∧
        s' = { s with
          files := s.files ++ file.toList
          jobs := s.jobs.set k { job with phase := .failed } })) := by
  unfold encode at h
  split at h
  · next job hj =>
    split_ifs at h with hq
    · split at h
      · next b file hm => exact ⟨job, hj, hq, .inl ⟨b, file, hm, (some.inj h).symm⟩⟩
      · next e file hm => exact ⟨job, hj, hq, .inr ⟨e, file, hm, (some.inj h).symm⟩⟩
  · cases h

@[simp] theorem sentPhase_isWritten (s : State V) : s.sentPhase.isWritten = true := by
  unfold sentPhase
  split_ifs <;> rfl

theorem ack_cases (h : s.ack k = some s') : ∃ job, s.jobs[k]? = some job ∧ job.phase = .published ∧
      s' = { s with
        order := (s.order.walComplete job.seq job.covered).2
        jobs := s.jobs.set k { job with
          phase := .acknowledged (s.order.walComplete job.seq job.covered).1 } } := by
  unfold ack at h
  split at h
  · next job hj =>
    split_ifs at h with hp
    exact ⟨job, hj, hp, (some.inj h).symm⟩
  · cases h

theorem giveUp_cases (h : s.giveUp k = some s') :
    ∃ job, s.jobs[k]? = some job ∧ job.phase = .published ∧
      s' = { s with jobs := s.jobs.set k { job with phase := .settled } } := by
  unfold giveUp at h
  split at h
  · next job hj =>
    split_ifs at h with hp
    exact ⟨job, hj, hp, (some.inj h).symm⟩
  · cases h

theorem commit_cases {ok : Bool} (h : s.commit k ok = some s') :
    ∃ job releasable, s.jobs[k]? = some job ∧ job.phase = .acknowledged releasable ∧
      s' = { s with
        dir := releasable.elim s.dir fun p => s.dir.advance p ok
        jobs := s.jobs.set k { job with phase := .settled } } := by
  unfold commit at h
  split at h
  · next job hj =>
    split at h
    · next releasable hp => exact ⟨job, releasable, hj, hp, (some.inj h).symm⟩
    · cases h
  · cases h

theorem release_cases (h : s.release k = some s') : ∃ job sealed, s.jobs[k]? = some job ∧
      ((job.phase = .settled ∧ sealed = job.sealed) ∨
        (job.phase = .failed ∧ sealed = List.replicate job.sealed.length 0)) ∧
      s' = { s with
        order := (s.order.dropComplete job.seq sealed).2
        jobs := s.jobs.set k { job with
          phase := .dropping job.phase.isWritten (s.order.dropComplete job.seq sealed).1 } } := by
  unfold release at h
  split at h
  · next job hj =>
    split_ifs at h with hp hs
    · exact ⟨job, _, hj, .inl ⟨hs, rfl⟩, (some.inj h).symm⟩
    · exact ⟨job, _, hj, .inr ⟨hp.resolve_left hs, rfl⟩, (some.inj h).symm⟩
  · cases h

theorem drop_cases (h : s.drop k = some s') :
    ∃ job written released, s.jobs[k]? = some job ∧ job.phase = .dropping written released ∧
      s' = { s with
        buffer := released.elim s.buffer fun sealed => s.buffer.map (·.dropSealedMetrics sealed)
        jobs := s.jobs.set k { job with phase := .finished written } } := by
  unfold drop at h
  split at h
  · next job hj =>
    split at h
    · next written released hp =>
      exact ⟨job, written, released, hj, hp, (some.inj h).symm⟩
    · cases h
  · cases h

theorem mergeAndFlush_ok {io : BlockIo} {b : MetricBlock V}
    {file : Option (MetricBlock V)} (h : mergeAndFlush job io = (.ok b, file)) :
    file = some b ∧ b.metadata.walRange = job.walRange ∧
      ∀ wt, total wt b.rows = total wt job.rows := by
  unfold mergeAndFlush at h
  split at h
  · cases h
  · next w hw =>
    simp only [Prod.mk.injEq] at h
    obtain ⟨hr, hf⟩ := h
    have hok : (w.setWalRange job.walRange).flush io =
        ⟨.ok b, ((w.setWalRange job.walRange).flush io).writer, file⟩ := by rw [← hr, ← hf]
    obtain ⟨-, rfl, -, hfile, -⟩ := flush_ok hok
    refine ⟨hfile, rfl, fun wt => ?_⟩
    rw [total_toBlock, FlushJob.rows, ← content_merge hw]
    rfl

end State

theorem State.walEnd_of_wal {s : State V} {w : WalWriter} (h : s.wal = some w) :
    s.walEnd = w.position := by
  rw [State.walEnd, h]
  rfl

theorem State.lock_of_unlocked {s : State V} (h : s.unlocked = true) {sh : Shard V}
    (hsh : sh ∈ s.shards) : sh.lock = none :=
  isNone_iff_eq_none.mp (List.all_eq_true.mp h sh hsh)

/-! ## Shards and jobs after an update -/

theorem swapWriter_lock (config : BlockConfig) (sh : Shard V) :
    (State.swapWriter config sh).lock = sh.lock := by
  unfold State.swapWriter
  split_ifs <;> rfl

theorem content_of_isEmpty {w : BlockWriter V} (h : w.isEmpty = true) : w.content = [] := by
  have hr : w.rows = 0 := by simpa [isEmpty] using h
  exact List.length_eq_zero_iff.mp (w.length_content.trans hr)

theorem covered_set {jobs : List (FlushJob V)} {ph : JobPhase} (h : jobs[k]? = some job) :
    (jobs.set k { job with phase := ph }).map FlushJob.covered = jobs.map FlushJob.covered := by
  exact map_set_eq _ h rfl

/-! ## A small configuration

Inputs for the concrete runs that accompany the general results. -/

namespace Sample

def oneShard : Env Unit := ⟨fun _ => 0, fun _ => 51⟩

def point (ts : Int) : DataPoint Unit := ⟨ts, (), LabelSet.empty⟩

def metric (name : String) (times : List Int) : Metric Unit :=
  ⟨name, "", "", .gauge, LabelSet.empty, times.map point⟩

def row (name : String) (ts : Int) : MetricRow Unit := ⟨name, .gauge, LabelSet.empty, point ts⟩

def push (m : Metric Unit) (ios : ℕ → BlockIo) : List (Event Unit) :=
  [.enter m, .append 0 .fine, .feed 0, .write 0 ios, .finish 0]

def complete (k : ℕ) : List (Event Unit) :=
  [.encode k .fine, .ack k, .commit k true, .release k, .drop k]

end Sample

end Parqtel.Ingest
