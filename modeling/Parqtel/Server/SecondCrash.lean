import Parqtel.Core.WalStartup
import Parqtel.Ingest.Logged
import Parqtel.Server.Recovery

/-!
# Recovery and a second crash

What was in the log when a process started has to survive until it is in block files,
however often recovery is interrupted. A record is kept (`Kept`) when it is in the log
above the commit point, or when its metric is in block files or logged again above the
commit point.

Two steps can break this. `advance` trusts the spans of the blocks: it passes over a
record that no block holds if a span covers it. And a flush in the middle of the replay
commits the end of the whole log, beyond the records that have been read but not
re-ingested yet. `recoveryOk` is the guard that excludes both. The records are those that the
bytes of the log's segments hold (`openedDir`); positions are the places in these files only if
replay cuts nothing off the segment that the writer has open.
-/

namespace Parqtel.Server

open Parqtel.Lib Parqtel.Wal Parqtel.Ingest State Ingest.State

variable {V : Type*} {env : Env V} {s s' : State V} {e : Event V}

/-! ## The property -/

def InFiles (rot : Ingest.State V) (m : Metric V) : Prop := ∀ x ∈ m.rows, x ∈ rot.fileRows

def Kept (rot : Ingest.State V) (r : WalRecord (Metric V)) : Prop :=
  (r ∈ rot.dir.log ∧ rot.dir.commit < r.pos) ∨ ∃ m ∈ r.value, InFiles rot m ∨
      ∃ r' ∈ rot.dir.log, rot.dir.commit < r'.pos ∧ r'.value = some m

def State.Recoverable (s : State V) : Prop := ∀ r ∈ s.uncommitted, Kept s.rot r

/-- The blocks hold what their spans cover, and no span goes beyond the end of the log. -/
def SpansHonest (rot : Ingest.State V) : Prop :=
  ∀ rng ∈ walRanges rot.files, rng.2 ≤ rot.walEnd ∧
    ∀ r ∈ rot.dir.log, rng.1 < r.pos → r.pos ≤ rng.2 → ∃ m ∈ r.value, InFiles rot m

def Reingested (s : State V) : Prop :=
  ∀ r ∈ s.collected, ∃ m ∈ r.value, ∃ a ∈ s.rot.acked, a.2 = m

def commitTarget (rot : Ingest.State V) (k : ℕ) : Option ℕ :=
  match rot.jobs[k]? with
  | some job =>
    match job.phase with
    | .acknowledged releasable => releasable
    | _ => none
  | none => none

/-- An append hands its bytes to the operating system. Those of a failed flush stay in the writer's
buffer, from which the next append takes them, and a crash before it would lose them. -/
def flushes : Ingest.Event V → Prop
  | .append _ io => io.flush = true
  | _ => True

instance (e : Ingest.Event V) : Decidable (flushes e) := by
  rcases e <;> unfold flushes <;> infer_instance

def recoveryOk (env : Env V) (s : State V) : Event V → Prop
  | .advance _ => SpansHonest s.rot
  | .rot (.commit k ok) => (commitTarget s.rot k).isSome → ok = true → Reingested s
  | .rot e => appendFits env s.rot e ∧ flushes e
  | .crash _ => ∀ w ∈ s.rot.wal, w.AppendFits 0
  | _ => True

section
variable [DecidableEq V]

instance (rot : Ingest.State V) (m : Metric V) : Decidable (InFiles rot m) :=
  inferInstanceAs (Decidable (∀ x ∈ m.rows, x ∈ rot.fileRows))

instance (rot : Ingest.State V) : Decidable (SpansHonest rot) := by
  unfold SpansHonest
  infer_instance

instance (s : State V) : Decidable (Reingested s) := by
  unfold Reingested
  infer_instance

instance (env : Env V) (s : State V) (e : Event V) : Decidable (recoveryOk env s e) := by
  unfold recoveryOk
  split <;> infer_instance

end

/-! ## The invariant -/

/-- Where a record that was uncommitted at the start of the process is now. -/
inductive Whereabouts (s : State V) (r : WalRecord (Metric V)) : Prop where
  | filed (m : Metric V) (hm : r.value = some m) (h : InFiles s.rot m)
  | logged (h : r ∈ s.rot.dir.log) (hlt : s.rot.dir.commit < r.pos)
      (hc : s.stage = .replaying ∨ s.stage = .serving → r ∈ s.collected)
  | acked (a : ℕ × Metric V) (ha : a ∈ s.rot.acked) (hm : r.value = some a.2)

structure RecoveryInv (s : State V) : Prop where
  noLoss : NoLossInv s.rot
  log : LogInv s.rot
  early : s.stage = .opened ∨ s.stage = .advanced →
    s.rot.acked = [] ∧ ∀ sh ∈ s.rot.shards, sh.lock = none
  kept : ∀ r ∈ s.uncommitted, Whereabouts s r

theorem RecoveryInv.recoverable (h : RecoveryInv s) : s.Recoverable := by
  intro r hr
  cases h.kept r hr with
  | filed m hm hf => exact .inr ⟨m, hm, .inl hf⟩
  | logged hl hlt => exact .inl ⟨hl, hlt⟩
  | acked a ha hm =>
    refine .inr ⟨a.2, hm, (h.log.kept h.noLoss ha).imp_right fun ⟨hlt, hl⟩ => ?_⟩
    exact ⟨_, hl, hlt, rfl⟩

/-! ## Following the spans -/

theorem SpansHonest.coveredThrough_le (h : SpansHonest s.rot)
    (hc : s.rot.dir.commit ≤ s.rot.walEnd) :
    coveredThrough s.rot.dir.commit (walRanges s.rot.files) ≤ s.rot.walEnd :=
  coveredThrough_induct (P := (· ≤ s.rot.walEnd)) hc fun rng hrng _ _ _ _ => (h rng hrng).1

theorem SpansHonest.inFiles (h : SpansHonest s.rot) {r : WalRecord (Metric V)}
    (hr : r ∈ s.rot.dir.log) (hlt : s.rot.dir.commit < r.pos)
    (hle : r.pos ≤ coveredThrough s.rot.dir.commit (walRanges s.rot.files)) :
    ∃ m ∈ r.value, InFiles s.rot m := by
  refine coveredThrough_induct (P := fun p => r.pos ≤ p → ∃ m ∈ r.value, InFiles s.rot m)
    (fun h => absurd h (Nat.not_le.mpr hlt)) (fun rng hrng pos h1 _ ih hle => ?_) hle
  rcases Nat.lt_or_ge pos r.pos with hpos | hpos
  · exact (h rng hrng).2 r hr (h1.trans_lt hpos) hle
  · exact ih hpos

theorem advanceWalCommit_log {α : Type*} (d : WalDir α) (ranges : List WalRange) (ok : Bool) :
    (advanceWalCommit d ranges ok).log = d.log := by
  unfold advanceWalCommit
  split_ifs <;> rfl

theorem advanceWalCommit_commit {α : Type*} (d : WalDir α) (ranges : List WalRange) (ok : Bool) :
    (advanceWalCommit d ranges ok).commit = d.commit ∨
      (advanceWalCommit d ranges ok).commit = coveredThrough d.commit ranges := by
  unfold advanceWalCommit
  split_ifs
  · exact .inr rfl
  · exact .inl rfl

/-! ## Steps of the rotator -/

variable {r r' : Ingest.State V}

theorem fileRows_mono (hf : Frame r r') {x : MetricRow V} (h : x ∈ r.fileRows) :
    x ∈ r'.fileRows := by
  have hsub : r.fileRows.Subperm r'.fileRows := subperm_of_total_le fun wt => by
    rw [total_fileRows, total_fileRows]
    exact hf.files wt
  exact hsub.subset h

theorem acked_mono (hf : Frame r r') {a : ℕ × Metric V} (h : a ∈ r.acked) : a ∈ r'.acked := by
  rcases hf.acked with ha | ⟨sh, -, q, -, ha⟩
  · exact ha ▸ h
  · exact ha ▸ List.mem_append_left _ h

theorem dir_step {e : Ingest.Event V} (h : Ingest.step env r e = some r') :
    (∃ k, e = .commit k true ∧ (commitTarget r k).isSome) ∨
      r'.dir.commit = r.dir.commit ∧ ∀ x ∈ r.dir.log, x ∈ r'.dir.log := by
  have hflush : ∀ cs, ({ r.flushLocked with callers := cs } : Ingest.State V).dir = r.dir := by
    intro cs
    unfold flushLocked
    split_ifs <;> rfl
  have hsame : ∀ {r' : Ingest.State V}, r'.dir = r.dir →
      r'.dir.commit = r.dir.commit ∧ ∀ x ∈ r.dir.log, x ∈ r'.dir.log := fun hd =>
    ⟨by rw [hd], fun x hx => by rw [hd]; exact hx⟩
  cases e with
  | commit k ok =>
    obtain ⟨job, releasable, hjob, hph, rfl⟩ := commit_cases h
    cases releasable with
    | none => exact .inr (hsame rfl)
    | some p =>
      cases ok with
      | true => exact .inl ⟨k, rfl, by simp only [commitTarget, hjob, hph]; rfl⟩
      | false =>
        refine .inr (hsame ?_)
        show r.dir.advance p false = r.dir
        simp [WalDir.advance]
  | append j io =>
    obtain ⟨c, sh, -, -, -, -, rfl⟩ := append_cases h
    right
    unfold logMetric
    cases r.wal with
    | none => exact ⟨rfl, fun x => id⟩
    | some w => exact ⟨rfl, fun x hx => List.mem_append_left _ hx⟩
  | enter m => cases h; exact .inr (hsame rfl)
  | capacityFlush j =>
    obtain ⟨cs, rfl | ⟨-, rfl⟩⟩ := capacityFlush_cases h
    · exact .inr (hsame rfl)
    · exact .inr (hsame (hflush cs))
  | abandon j => obtain rfl := abandon_cases h; exact .inr (hsame rfl)
  | feed i => obtain ⟨w, m, pos, -, rfl⟩ := feed_cases h; exact .inr (hsame rfl)
  | write i ios => obtain ⟨w, m, pos, -, rfl⟩ := write_cases h; exact .inr (hsame rfl)
  | finish i => obtain ⟨w, m, pos, c, -, rfl⟩ := finish_cases h; exact .inr (hsame rfl)
  | flush =>
    obtain ⟨-, rfl⟩ := flush_cases h
    exact .inr (hsame (hflush r.flushLocked.callers))
  | encode k io =>
    obtain ⟨job, -, -, ⟨b, file, -, rfl⟩ | ⟨err, file, -, rfl⟩⟩ := encode_cases h
    · exact .inr (hsame rfl)
    · exact .inr (hsame rfl)
  | ack k => obtain ⟨job, -, -, rfl⟩ := ack_cases h; exact .inr (hsame rfl)
  | giveUp k => obtain ⟨job, -, -, rfl⟩ := giveUp_cases h; exact .inr (hsame rfl)
  | release k => obtain ⟨job, sl, -, -, rfl⟩ := release_cases h; exact .inr (hsame rfl)
  | drop k => obtain ⟨job, w, rl, -, -, rfl⟩ := drop_cases h; exact .inr (hsame rfl)

/-! ## Steps of the server -/

theorem InFiles.frame {m : Metric V} (h : InFiles r m) (hf : Frame r r') :
    InFiles r' m := fun x hx => fileRows_mono hf (h x hx)

theorem Whereabouts.frame {r : WalRecord (Metric V)} (h : Whereabouts s r)
    (hf : Frame s.rot s'.rot) (hcommit : s'.rot.dir.commit = s.rot.dir.commit)
    (hlog : ∀ x ∈ s.rot.dir.log, x ∈ s'.rot.dir.log)
    (hstage : s'.stage = .replaying ∨ s'.stage = .serving →
      s.stage = .replaying ∨ s.stage = .serving)
    (hcol : s'.collected = s.collected) : Whereabouts s' r := by
  cases h with
  | filed m hm h => exact .filed m hm (h.frame hf)
  | logged h hlt hc =>
    exact .logged (hlog r h) (hcommit ▸ hlt) fun hs => hcol ▸ hc (hstage hs)
  | acked a ha hm => exact .acked a (acked_mono hf ha) hm

theorem noLossInv_dir (h : NoLossInv r) (d : WalDir (Metric V)) (hd : Safe r d.commit) :
    NoLossInv { r with dir := d } where
  wal := h.wal
  seq := h.seq
  next := h.next
  below job hjob := ⟨(h.below job hjob).le_end, (h.below job hjob).lt_lock⟩
  tracks := h.tracks
  released job hjob p hp :=
    ⟨⟨(h.released job hjob p hp).below.le_end, (h.released job hjob p hp).below.lt_lock⟩,
      (h.released job hjob p hp).covered⟩
  commit := ⟨⟨hd.below.le_end, hd.below.lt_lock⟩, hd.covered⟩
  all := h.all
  upTo := h.upTo

theorem RecoveryInv.advance {ok : Bool} (h : RecoveryInv s) (hok : SpansHonest s.rot)
    (hs : s.advance ok = some s') : RecoveryInv s' := by
  obtain ⟨hst, rfl⟩ := advance_cases hs
  obtain ⟨hacked, hlocks⟩ := h.early (.inl hst)
  have hle : s.rot.dir.commit ≤ s.rot.walEnd := h.noLoss.commit.below.le_end
  have hsafe : ∀ p, p ≤ s.rot.walEnd → Safe s.rot p := fun p hp => by
    refine ⟨⟨hp, fun sh hsh q hq => ?_⟩, fun wt => ?_⟩
    · rw [hlocks sh hsh] at hq
      cases hq
    · rw [hacked]
      exact Nat.zero_le _
  have hcase := advanceWalCommit_commit s.rot.dir (walRanges s.rot.files) ok
  have hlog := advanceWalCommit_log s.rot.dir (walRanges s.rot.files) ok
  refine
    { noLoss := noLossInv_dir h.noLoss _ (hsafe _ ?_)
      log := ⟨fun sh hsh q hq => ?_, fun a ha => ?_⟩
      early := fun _ => ⟨hacked, hlocks⟩
      kept := fun r hr => ?_ }
  · rcases hcase with hc | hc
    · exact hc ▸ hle
    · exact hc ▸ hok.coveredThrough_le hle
  · rw [hlocks sh hsh] at hq
    cases hq
  · rw [show _ = [] from hacked] at ha
    cases ha
  · cases h.kept r hr with
    | filed m hm hf => exact .filed m hm hf
    | acked a ha => rw [hacked] at ha; cases ha
    | logged hl hlt _ =>
      -- passed over by the walk, or still above the commit point
      rcases Nat.lt_or_ge (advanceWalCommit s.rot.dir (walRanges s.rot.files) ok).commit r.pos
        with hpos | hpos
      · exact .logged (hlog ▸ hl) hpos fun hs => hs.elim nofun nofun
      · rcases hcase with hc | hc
        · exact absurd hpos (by rw [hc]; exact Nat.not_le.mpr hlt)
        · obtain ⟨m, hm, hf⟩ := hok.inFiles hl hlt (hc ▸ hpos)
          exact .filed m hm hf

theorem RecoveryInv.collect (h : RecoveryInv s) (hs : s.collect = some s') : RecoveryInv s' := by
  obtain ⟨hst, rfl⟩ := collect_cases hs
  refine ⟨h.noLoss, h.log, fun hs => hs.elim nofun nofun, fun r hr => ?_⟩
  cases h.kept r hr with
  | filed m hm hf => exact .filed m hm hf
  | acked a ha hm => exact .acked a ha hm
  | logged hl hlt _ =>
    refine .logged hl hlt fun _ => List.mem_filter.mpr ⟨hl, ?_⟩
    simpa [isCoveredBy] using hlt

theorem RecoveryInv.rotStep {e : Ingest.Event V} (h : RecoveryInv s)
    (hok : recoveryOk env s (.rot e)) (hs : s.rotStep env e = some s') : RecoveryInv s' := by
  obtain ⟨r, hall, hr, rfl⟩ := rotStep_cases hs
  have hfits : appendFits env s.rot e := by
    cases e with
    | commit => trivial
    | _ => exact hok.1
  have hf := step_frame h.noLoss.wal hfits hr
  have hstage : s.stage = .replaying ∨ s.stage = .serving := by
    cases hst : s.stage with
    | opened => rw [hst] at hall; cases hall
    | advanced => rw [hst] at hall; cases hall
    | replaying => exact .inl rfl
    | serving => exact .inr rfl
  refine ⟨h.noLoss.step hfits hr, h.log.step h.noLoss hfits hr, fun hs => ?_, fun rec hrec => ?_⟩
  · rcases hs with hs | hs <;> rcases hstage with hst | hst <;>
      exact absurd (hs.symm.trans hst) (by decide)
  · rcases dir_step hr with ⟨k, rfl, htarget⟩ | ⟨hcommit, hlog⟩
    · -- the commit point moves: by then everything collected has been re-ingested
      cases h.kept rec hrec with
      | filed m hm hfile => exact .filed m hm (hfile.frame hf)
      | acked a ha hm => exact .acked a (acked_mono hf ha) hm
      | logged hl hlt hc =>
        obtain ⟨m, hm, a, ha, rfl⟩ := hok htarget rfl rec (hc hstage)
        exact .acked a (acked_mono hf ha) hm
    · exact (h.kept rec hrec).frame hf hcommit hlog id rfl

theorem recoveryInv_boot {rot : Ingest.State V} (pushed acked : List (Metric V))
    (h : NoLossInv rot) (hlog : LogInv rot) (hacked : rot.acked = [])
    (hlocks : ∀ sh ∈ rot.shards, sh.lock = none) : RecoveryInv (State.boot rot pushed acked) where
  noLoss := h
  log := hlog
  early _ := ⟨hacked, hlocks⟩
  kept r hr := by
    obtain ⟨hl, hc⟩ := List.mem_filter.mp hr
    have hlt : rot.dir.commit < r.pos := by simpa [isCoveredBy] using hc
    exact .logged hl hlt (by simp [State.boot])

theorem boot_locks (config : BlockConfig) (n : ℕ) (wal : Option WalWriter)
    (dir : WalDir (Metric V)) (buffer : Option (Buffer.MemoryBuffer V))
    (files : List (MetricBlock V)) :
    ∀ sh ∈ (boot config n wal dir buffer files).shards, sh.lock = none := by
  intro sh hsh
  obtain ⟨-, rfl⟩ := List.mem_replicate.mp hsh
  rfl

theorem RecoveryInv.crash {torn : ℕ} (h : RecoveryInv s)
    (hok : ∀ w ∈ s.rot.wal, w.AppendFits 0) : RecoveryInv (s.crash torn) := by
  obtain ⟨w, hw⟩ := Option.isSome_iff_exists.mp h.noLoss.wal
  have hle : s.rot.dir.commit ≤ (w.reopen torn).position := by
    have hend := h.noLoss.commit.below.le_end
    rw [walEnd_of_wal hw] at hend
    exact hend.trans (WalWriter.position_le_reopen (hok w hw) torn)
  rw [State.crash, reopen_of_wal hw]
  exact recoveryInv_boot _ _ (noLossInv_boot _ _ _ _ _ _ hle) (logInv_boot _ _ _ _ _ _) rfl
    (boot_locks _ _ _ _ _ _)

/-- **Step lemma.** -/
theorem RecoveryInv.step (h : RecoveryInv s) (hok : recoveryOk env s e)
    (hs : step env s e = some s') : RecoveryInv s' := by
  cases e with
  | advance ok => exact h.advance hok hs
  | collect => exact h.collect hs
  | next =>
    obtain ⟨m, rest, hst, -, -, rfl⟩ := next_cases hs
    have hf : Frame s.rot (s.rot.enter m) :=
      .of_locks rfl rfl rfl fun sh hsh q hq => ⟨sh, hsh, q, hq, rfl⟩
    exact ⟨h.noLoss.callers _, h.log.of_locks hf rfl rfl fun sh hsh q hq =>
      ⟨sh, hsh, q, hq, rfl, rfl⟩,
      h.early, fun r hr => (h.kept r hr).frame hf rfl (fun _ => id) id rfl⟩
  | serve =>
    obtain ⟨hst, -, -, rfl⟩ := serve_cases hs
    have hf : Frame s.rot s.rot := .of_locks rfl rfl rfl fun sh hsh q hq => ⟨sh, hsh, q, hq, rfl⟩
    exact ⟨h.noLoss, h.log, fun hs => hs.elim nofun nofun,
      fun r hr => (h.kept r hr).frame hf rfl (fun _ => id) (fun _ => .inl hst) rfl⟩
  | rot e => exact h.rotStep hok hs
  | crash torn => cases hs; exact h.crash hok

section
variable (crc32 : Bytes → UInt32) (decode : Bytes → Option (Metric V))

def payloads : Codec Bytes := ⟨id, some, crc32, fun _ => rfl⟩

def openedDir (d : Segments) (limit commit : ℕ) : WalDir (Metric V) :=
  ⟨commit, ((openWithSegmentLimit d limit).segments.entries (payloads crc32)).map fun e =>
    ⟨e.segment, packPosition e.segment e.stop, decode e.frame.payload⟩⟩

/-- **Recovery survives a second crash.** Take any files of a log, of which the newest has no
complete record with a wrong checksum, a commit point that is not beyond their end, and any block
files. In every run in which `advance` finds honest spans, no flush commits before every collected
record has been re-ingested, no append fails and positions stay within range, every record that
was uncommitted at the start is kept in every state: stopping there loses nothing. -/
theorem recovery_survives_crash (env : Env V) (config : BlockConfig) (shards : ℕ) (d : Segments)
    (limit commit : ℕ) (hcommit : commit ≤ (openWithSegmentLimit d limit).writer.position)
    (hintact : NewestIntact (payloads crc32) d limit) (buffer : Option (Buffer.MemoryBuffer V))
    (files : List (MetricBlock V)) (pushed acked : List (Metric V)) (s : State V)
    (h : Run (Server.step env) (recoveryOk env) (State.boot
      (boot config shards (some (openWithSegmentLimit d limit).writer)
        (openedDir crc32 decode d limit commit) buffer files) pushed acked) s) :
    (startup (payloads crc32) d limit commit).InStep (payloads crc32) ∧ s.Recoverable := by
  have h0 := recoveryInv_boot pushed acked
    (noLossInv_boot config shards _ (openedDir crc32 decode d limit commit) buffer files hcommit)
    (logInv_boot config shards _ _ buffer files) rfl (boot_locks _ _ _ _ _ _)
  exact ⟨(inStep_iff_newestIntact _ d limit commit).mpr hintact,
    (h.inv h0 fun _ _ _ hi hok hs => hi.step hok hs).recoverable⟩

end

namespace Sample

open Parqtel.Ingest.Sample

def twoRecords : OpenedWal (Metric Unit) :=
  ⟨⟨0, 118, 2 ^ 26, none⟩,
    ⟨0, [⟨0, 60, some (metric "a" [1])⟩, ⟨0, 119, some (metric "b" [2])⟩]⟩, by decide⟩

def twoFrames : Segments :=
  ⟨[(0, (⟨0, List.replicate 51 1⟩ : Frame).bytes ++ (⟨0, List.replicate 51 2⟩ : Frame).bytes)],
    .cons nofun .nil⟩

def decodeTwo (payload : Bytes) : Option (Metric Unit) :=
  if payload.head? = some 1 then some (metric "a" [1]) else some (metric "b" [2])

def bootTwo (n : ℕ) : State Unit :=
  .boot (boot (config n) 1 (some twoRecords.writer) twoRecords.dir none []) [] []

def reingest : List (Event Unit) :=
  [.next, .rot (.append 0 .fine), .rot (.feed 0), .rot (.write 0 fun _ => .fine),
    .rot (.finish 0)]

def flushed (k : ℕ) : List (Event Unit) := (.rot .flush) :: (complete k).map .rot

end Sample

open Server.Sample Ingest.Sample in
/-- The guard is met by a recovery that re-ingests both records, commits and is stopped. -/
theorem recovery_survives_crash_after_commit :
    ∃ s : State Unit, s.uncommitted.length = 2 ∧ 119 < s.rot.dir.commit ∧ s.Recoverable := by
  obtain ⟨s, hrun, h1, h2⟩ := exists_run (Server.step oneShard) (recoveryOk oneShard) (bootTwo 10)
    (fun s => s.uncommitted.length = 2 ∧ 119 < s.rot.dir.commit)
    ([.advance true, .collect] ++ reingest ++ reingest ++ [.serve] ++ flushed 0)
    (by decide)
  have hwriter : (openWithSegmentLimit twoFrames (2 ^ 26)).writer = twoRecords.writer := by
    decide +kernel
  have hdir : openedDir (fun _ => 0) decodeTwo twoFrames (2 ^ 26) 0 = twoRecords.dir := by
    decide +kernel
  have hintact : NewestIntact (payloads fun _ => 0) twoFrames (2 ^ 26) := fun _ => by decide
  have hboot := recovery_survives_crash (fun _ => 0) decodeTwo oneShard (config 10) 1 twoFrames
    (2 ^ 26) 0 (Nat.zero_le _) hintact none [] [] [] s
  rw [hwriter, hdir] at hboot
  exact ⟨s, h1, h2, (hboot hrun).2⟩

open Server.Sample Ingest.Sample in
/-- **A flush in the middle of the replay.** With blocks of one row, `a` fills a block, and the
capacity flush before `b` commits the end of the log. A crash there loses `b`: its old record is
below the commit point and it has not been logged again. -/
theorem recovery_loses_pending_record :
    ∃ s : State Unit, Reach (Server.step oneShard) (bootTwo 1) s ∧ ¬ s.Recoverable := by
  obtain ⟨s, hrun, hmem, hlog, hfile⟩ :=
    exists_run (Server.step oneShard) (fun _ _ => True) (bootTwo 1)
    (fun s => (⟨0, 119, some (metric "b" [2])⟩ : WalRecord (Metric Unit)) ∈ s.uncommitted ∧
      (∀ r ∈ s.rot.dir.log, r.pos ≤ s.rot.dir.commit) ∧ row "b" 2 ∉ s.rot.fileRows)
    ([.advance true, .collect] ++ reingest ++ [.next, .rot (.capacityFlush 0)] ++
      (complete 0).map .rot) (by decide)
  refine ⟨s, hrun, fun hr => ?_⟩
  rcases hr _ hmem with ⟨hl, hlt⟩ | ⟨m, hm, hf | ⟨r', hl, hlt, -⟩⟩
  · exact absurd (hlog _ hl) (Nat.not_le.mpr hlt)
  · cases hm
    exact hfile (hf _ (by decide))
  · exact absurd (hlog _ hl) (Nat.not_le.mpr hlt)

end Parqtel.Server
