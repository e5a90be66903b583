import Parqtel.Ingest.Rotator

/-!
# Startup recovery of the metrics log

The server around the metric rotator, from process start to process start. A process
opens the log and the block index, moves the commit point over what blocks on disk
already cover (`advance`), collects the records above it (`collect`) and re-ingests them
one at a time through the rotator (`next`); then it serves (`serve`). While it replays,
the rotator's flushes run as always; only the listener is not bound yet, so nobody else
pushes. A `crash` stops the process in any state, and the next one opens what it left.

`reconcile` has adopted every block file by then, so the index is taken to be the block
files on disk. Four fields serve the statements only: `uncommitted`, the records above
the commit point when the process started; `collected`, those that replay has read;
`pushed` and `acked`, the metrics that clients pushed and those whose push returned `Ok`,
over all processes.
-/

namespace Parqtel.Server

open Parqtel.Lib Parqtel.Wal Option

variable {V : Type*}

/-! ## State -/

inductive Stage where
  | opened
  | advanced
  | replaying
  | serving
deriving DecidableEq, Repr

structure State (V : Type*) where
  rot : Ingest.State V
  stage : Stage
  pending : List (Metric V)
  uncommitted : List (WalRecord (Metric V))
  collected : List (WalRecord (Metric V))
  pushed : List (Metric V)
  acked : List (Metric V)

/-- The records above the commit point, whether they decode or not. -/
def uncommittedOf {α : Type*} (d : WalDir α) : List (WalRecord α) :=
  d.log.filter fun r => !isCoveredBy r.pos d.commit

def walRanges {R : Type*} (blocks : List (Block R)) : List WalRange :=
  blocks.filterMap fun b => b.metadata.walRange

/-- `advance_wal_commit`: move the commit point over blocks that are already on disk; `ok` says
whether the commit file could be written. -/
def advanceWalCommit {α : Type*} (d : WalDir α) (ranges : List WalRange) (ok : Bool) : WalDir α :=
  if d.commit < coveredThrough d.commit ranges && ok then
    { d with commit := coveredThrough d.commit ranges }
  else d

def idle (s : Ingest.State V) : Bool := s.callers.isEmpty && s.unlocked

namespace State

def boot (rot : Ingest.State V) (pushed acked : List (Metric V)) : State V :=
  { rot := rot
    stage := .opened
    pending := []
    uncommitted := uncommittedOf rot.dir
    collected := []
    pushed := pushed
    acked := acked }

/-- The rotator of the process after a crash. `torn` bytes of an unfinished append are at the end
of the log. -/
def reopen (rot : Ingest.State V) (torn : ℕ) : Ingest.State V :=
  Ingest.State.boot rot.config rot.shards.length (rot.wal.map (·.reopen torn)) rot.dir
    (rot.buffer.map fun _ => Buffer.MemoryBuffer.new) rot.files

theorem reopen_of_wal {rot : Ingest.State V} {w : WalWriter} (h : rot.wal = some w) (torn : ℕ) :
    reopen rot torn = Ingest.State.boot rot.config rot.shards.length (some (w.reopen torn)) rot.dir
      (rot.buffer.map fun _ => Buffer.MemoryBuffer.new) rot.files := by
  rw [reopen, h]
  rfl

end State

/-! ## Transitions -/

inductive Event (V : Type*) where
  | advance (ok : Bool)
  | collect
  | next
  | serve
  | rot (e : Ingest.Event V)
  | crash (torn : ℕ)

/-- The rotator runs from the start of the replay on; clients push only when the server serves. -/
def allows : Stage → Ingest.Event V → Bool
  | .serving, _ => true
  | .replaying, .enter _ => false
  | .replaying, _ => true
  | _, _ => false

def entered : Ingest.Event V → List (Metric V)
  | .enter m => [m]
  | _ => []

def newlyAcked (stage : Stage) (r r' : Ingest.State V) : List (Metric V) :=
  if stage = .serving then (r'.acked.drop r.acked.length).map Prod.snd else []

namespace State

def advance (s : State V) (ok : Bool) : Option (State V) :=
  if s.stage = .opened then
    some { s with
      rot := { s.rot with dir := advanceWalCommit s.rot.dir (walRanges s.rot.files) ok }
      stage := .advanced }
  else none

/-- `read_wal_records`: all records are collected before the first one is re-ingested. -/
def collect (s : State V) : Option (State V) :=
  if s.stage = .advanced then
    some { s with
      pending := s.rot.dir.replay
      collected := uncommittedOf s.rot.dir
      stage := .replaying }
  else none

def next (s : State V) : Option (State V) :=
  if s.stage = .replaying ∧ idle s.rot = true then
    match s.pending with
    | [] => none
    | m :: rest => some { s with rot := s.rot.enter m, pending := rest }
  else none

def serve (s : State V) : Option (State V) :=
  if s.stage = .replaying ∧ idle s.rot = true ∧ s.pending.isEmpty = true then
    some { s with stage := .serving }
  else none

def rotStep (env : Ingest.Env V) (s : State V) (e : Ingest.Event V) : Option (State V) :=
  if allows s.stage e then
    (Ingest.step env s.rot e).map fun r => { s with
      rot := r
      pushed := s.pushed ++ entered e
      acked := s.acked ++ newlyAcked s.stage s.rot r }
  else none

def crash (s : State V) (torn : ℕ) : State V := .boot (reopen s.rot torn) s.pushed s.acked

end State

def step (env : Ingest.Env V) (s : State V) : Event V → Option (State V)
  | .advance ok => s.advance ok
  | .collect => s.collect
  | .next => s.next
  | .serve => s.serve
  | .rot e => s.rotStep env e
  | .crash torn => some (s.crash torn)

/-! ## What a transition can do -/

namespace State

variable {env : Ingest.Env V} {s s' : State V}

theorem advance_cases {ok : Bool} (h : s.advance ok = some s') :
    s.stage = .opened ∧ s' = { s with
      rot := { s.rot with dir := advanceWalCommit s.rot.dir (walRanges s.rot.files) ok }
      stage := .advanced } := by
  unfold advance at h
  split_ifs at h with hs
  exact ⟨hs, (some.inj h).symm⟩

theorem collect_cases (h : s.collect = some s') :
    s.stage = .advanced ∧ s' = { s with
      pending := s.rot.dir.replay
      collected := uncommittedOf s.rot.dir
      stage := .replaying } := by
  unfold collect at h
  split_ifs at h with hs
  exact ⟨hs, (some.inj h).symm⟩

theorem next_cases (h : s.next = some s') :
    ∃ m rest, s.stage = .replaying ∧ idle s.rot = true ∧ s.pending = m :: rest ∧
      s' = { s with rot := s.rot.enter m, pending := rest } := by
  unfold next at h
  split_ifs at h with hs
  split at h
  · cases h
  · next m rest hp => exact ⟨m, rest, hs.1, hs.2, hp, (some.inj h).symm⟩

theorem serve_cases (h : s.serve = some s') :
    s.stage = .replaying ∧ idle s.rot = true ∧ s.pending = [] ∧
      s' = { s with stage := .serving } := by
  unfold serve at h
  split_ifs at h with hs
  exact ⟨hs.1, hs.2.1, List.isEmpty_iff.mp hs.2.2, (some.inj h).symm⟩

theorem rotStep_cases {e : Ingest.Event V} (h : s.rotStep env e = some s') :
    ∃ r, allows s.stage e = true ∧ Ingest.step env s.rot e = some r ∧
      s' = { s with
        rot := r
        pushed := s.pushed ++ entered e
        acked := s.acked ++ newlyAcked s.stage s.rot r } := by
  unfold rotStep at h
  split_ifs at h with ha
  obtain ⟨r, hr, rfl⟩ := map_eq_some_iff.mp h
  exact ⟨r, ha, hr, rfl⟩

end State

end Parqtel.Server
