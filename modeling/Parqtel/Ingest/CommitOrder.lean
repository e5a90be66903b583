import Parqtel.Ingest.Logged

/-!
# The order of commits

`wal_complete` releases positions in increasing order, under the lock of the flush order.
The job that got a position then waits for the WAL lock, and there a later job may overtake
it: the commit file ends up with the smaller position, and the segments that lie between
the two are gone. `commit_moves_forward`: if jobs commit in the order of their releases,
the commit point never moves back, and no record above it is ever deleted.
-/

namespace Parqtel.Ingest

open Parqtel.Lib Parqtel.Wal List Option State

variable {V : Type*} {env : Env V} {s s' : State V} {e : Event V}

/-! ## The property -/

/-- From `a` to a later state `b` the commit point does not move back, and the records of `a` that
are above it in `b` are still there. -/
def CommitsForward (a b : State V) : Prop :=
  a.dir.commit ≤ b.dir.commit ∧ ∀ r ∈ a.dir.log, b.dir.commit < r.pos → r ∈ b.dir.log

def JobPhase.releasable : JobPhase → Option ℕ
  | .acknowledged p => p
  | _ => none

def inReleaseOrder (s : State V) : Event V → Prop
  | .commit k _ => ∀ job ∈ s.jobs[k]?, ∀ p ∈ job.phase.releasable,
      ∀ j ∈ s.jobs, ∀ q ∈ j.phase.releasable, p ≤ q
  | _ => True

instance (s : State V) (e : Event V) : Decidable (inReleaseOrder s e) := by
  rcases e <;> unfold inReleaseOrder <;> infer_instance

def commitOk (env : Env V) (s : State V) (e : Event V) : Prop :=
  appendFits env s e ∧ inReleaseOrder s e

instance (env : Env V) (s : State V) (e : Event V) : Decidable (commitOk env s e) :=
  inferInstanceAs (Decidable (_ ∧ _))

/-! ## The invariant -/

def Releases (s : State V) (p : ℕ) : Prop :=
  p = s.dir.commit ∨ ∃ job ∈ s.jobs, p ∈ job.phase.releasable

structure CommitInv (s : State V) : Prop where
  noLoss : NoLossInv s
  sorted : (s.jobs.map FlushJob.covered).Pairwise (· ≤ ·)
  /-- Jobs that have not passed the frontier cover more than what was released. -/
  ahead : ∀ p, Releases s p → ∀ (k : ℕ) (job : FlushJob V), s.order.wal.frontier ≤ k →
    s.jobs[k]? = some job → p ≤ job.covered
  pending : ∀ job ∈ s.jobs, ∀ p ∈ job.phase.releasable, s.dir.commit ≤ p
  segments : ∀ r ∈ s.dir.log, segmentOf r.pos = r.segment

theorem Releases.le_end (h : NoLossInv s) {p : ℕ} (hp : Releases s p) : p ≤ s.walEnd := by
  rcases hp with rfl | ⟨job, hjob, hp⟩
  · exact h.commit.below.le_end
  · refine (h.released job hjob p ?_).below.le_end
    cases hph : job.phase with
    | acknowledged r => rw [hph] at hp; exact congrArg _ hp
    | queued | published | settled | failed | dropping w r | finished w => rw [hph] at hp; cases hp

theorem CommitInv.of_push (h : CommitInv s) (hi : NoLossInv s') (hjobs : s'.jobs = s.jobs)
    (horder : s'.order = s.order) (hcommit : s'.dir.commit = s.dir.commit)
    (hlog : ∀ r ∈ s'.dir.log, r ∈ s.dir.log ∨ segmentOf r.pos = r.segment) : CommitInv s' where
  noLoss := hi
  sorted := hjobs ▸ h.sorted
  ahead p hp k job hk hjob := by
    have hp' : Releases s p := by rwa [Releases, ← hcommit, ← hjobs]
    exact h.ahead p hp' k job (horder ▸ hk) (hjobs ▸ hjob)
  pending job hjob p hp := hcommit ▸ h.pending job (hjobs ▸ hjob) p hp
  segments r hr := (hlog r hr).elim (h.segments r) id

theorem CommitInv.of_new {new : FlushJob V} (h : CommitInv s) (hi : NoLossInv s')
    (hjobs : s'.jobs = s.jobs ++ [new]) (hcov : new.covered = s.walEnd) (hph : new.phase = .queued)
    (horder : s'.order.wal = s.order.wal) (hdir : s'.dir = s.dir) : CommitInv s' := by
  have hold : ∀ job ∈ s'.jobs, ∀ p ∈ job.phase.releasable, job ∈ s.jobs := by
    rw [hjobs]
    refine forall_mem_concat (fun job hjob _ _ => hjob) ?_
    rw [hph]
    exact nofun
  refine ⟨hi, ?_, fun p hp k job hk hjob => ?_, fun job hjob p hp => ?_, hdir ▸ h.segments⟩
  · rw [hjobs, map_append, pairwise_append]
    refine ⟨h.sorted, pairwise_singleton _ _, fun c hc d hd => ?_⟩
    obtain ⟨job, hjob, rfl⟩ := mem_map.mp hc
    rw [mem_singleton.mp hd, hcov]
    exact (h.noLoss.below job hjob).le_end
  · have hp' : Releases s p :=
      hp.imp (fun hc => hdir ▸ hc) fun ⟨j, hj, hp⟩ => ⟨j, hold j hj p hp, hp⟩
    rw [hjobs] at hjob
    exact forall_getElem?_concat (fun k job hjob hk => h.ahead p hp' k job (horder ▸ hk) hjob)
      (fun _ => hcov ▸ hp'.le_end h.noLoss) k job hjob hk
  · rw [hdir]
    exact h.pending job (hold job hjob p hp) p hp

theorem CommitInv.flushLocked (h : CommitInv s) {cs : List (Caller V)}
    (hi : NoLossInv { s.flushLocked with callers := cs }) :
    CommitInv { s.flushLocked with callers := cs } := by
  unfold State.flushLocked at hi ⊢
  split_ifs at hi ⊢
  · exact h.of_push hi rfl rfl rfl fun r hr => .inl hr
  · exact h.of_new hi rfl rfl rfl rfl rfl

variable {k : ℕ} {job : FlushJob V} {ph : JobPhase}

/-- A job moves on. What it now waits to commit, if anything, is above what was released before and
below what the jobs behind the frontier cover. -/
theorem CommitInv.of_job (h : CommitInv s) (hi : NoLossInv s') (hjob : s.jobs[k]? = some job)
    (hjobs : s'.jobs = s.jobs.set k { job with phase := ph }) (hdir : s'.dir = s.dir)
    (hfront : s.order.wal.frontier ≤ s'.order.wal.frontier)
    (hnew : ∀ p ∈ ph.releasable, s.dir.commit ≤ p ∧ ∀ (n : ℕ) (j : FlushJob V),
      s'.order.wal.frontier ≤ n → s.jobs[n]? = some j → p ≤ j.covered) :
    CommitInv s' where
  noLoss := hi
  sorted := by rw [hjobs, covered_set hjob]; exact h.sorted
  ahead p hp n j hn hj := by
    have hold (n : ℕ) (j : FlushJob V) (hj : s.jobs[n]? = some j)
        (hn : s'.order.wal.frontier ≤ n) : p ≤ j.covered := by
      rcases hp with rfl | ⟨j', hj', hp⟩
      · exact h.ahead _ (.inl (hdir ▸ rfl)) n j (hfront.trans hn) hj
      · rcases mem_or_eq_of_mem_set (hjobs ▸ hj') with hj' | rfl
        · exact h.ahead p (.inr ⟨j', hj', hp⟩) n j (hfront.trans hn) hj
        · exact (hnew p hp).2 n j hn hj
    rw [hjobs] at hj
    exact forall_getElem?_set hold (by exact hold k job hjob) n j hj hn
  pending j hj p hp := by
    rw [hdir]
    rcases mem_or_eq_of_mem_set (hjobs ▸ hj) with hj | rfl
    · exact h.pending j hj p hp
    · exact (hnew p hp).1
  segments := hdir ▸ h.segments

theorem CommitInv.phase (h : CommitInv s) (hi : NoLossInv s') (hjob : s.jobs[k]? = some job)
    (hjobs : s'.jobs = s.jobs.set k { job with phase := ph }) (hdir : s'.dir = s.dir)
    (hfront : s'.order.wal = s.order.wal) (hph : ph.releasable = none) : CommitInv s' := by
  refine h.of_job hi hjob hjobs hdir (hfront ▸ le_rfl) fun p hp => ?_
  rw [hph] at hp
  cases hp

theorem CommitInv.covered_le (h : CommitInv s) {i : ℕ} {a b : FlushJob V} (hik : i ≤ k)
    (ha : s.jobs[i]? = some a) (hb : s.jobs[k]? = some b) : a.covered ≤ b.covered := by
  rcases Nat.lt_or_eq_of_le hik with hlt | rfl
  · obtain ⟨hi, rfl⟩ := List.getElem?_eq_some_iff.mp ha
    obtain ⟨hk, rfl⟩ := List.getElem?_eq_some_iff.mp hb
    have := List.pairwise_iff_getElem.mp h.sorted i k (by simpa using hi) (by simpa using hk) hlt
    simpa using this
  · rw [ha] at hb
    cases hb
    exact le_rfl

theorem CommitInv.ack (h : CommitInv s) (hi : NoLossInv s') (hs : s.ack k = some s') :
    CommitInv s' := by
  obtain ⟨job, hjob, hpub, rfl⟩ := ack_cases hs
  have hw : job.phase.isWritten = true := by rw [hpub]; rfl
  have hD : Written s.jobs job.seq job.covered :=
    ⟨job, (h.noLoss.seq k job hjob).symm ▸ hjob, hw, rfl⟩
  have ht := h.noLoss.tracks
  refine h.of_job hi hjob rfl rfl (Frontier.drain_tracks none (ht.insert hD)).2 fun p hp => ⟨?_, ?_⟩
  · -- every job that passes the frontier now covers the commit point
    refine Frontier.complete_released (R := fun p => s.dir.commit ≤ p)
      (fun a b ha _ => ha.trans (le_max_left a b)) ht hD (fun n v hn _ hv => ?_) p hp
    obtain ⟨j, hj, -, rfl⟩ := hv
    exact h.ahead _ (.inl rfl) n j hn hj
  · intro n j hn hj
    refine Frontier.complete_released (R := fun p => p ≤ j.covered)
      (fun a b ha hb => max_le ha hb) ht hD (fun i v _ hi hv => ?_) p hp
    obtain ⟨j', hj', -, rfl⟩ := hv
    exact h.covered_le (hi.le.trans hn) hj' hj

theorem releasable_of_phase {r : Option ℕ} (h : job.phase = .acknowledged r) :
    job.phase.releasable = r := by
  rw [h]
  rfl

theorem log_advance (d : WalDir (Metric V)) (p : ℕ) (ok : Bool) : (d.advance p ok).log ⊆ d.log := by
  unfold WalDir.advance
  split_ifs
  · exact List.Subset.refl _
  · exact filter_sublist.subset
  · exact List.Subset.refl _

theorem CommitInv.commit {ok : Bool} (h : CommitInv s) (hi : NoLossInv s')
    (hok : inReleaseOrder s (.commit k ok)) (hs : s.commit k ok = some s') : CommitInv s' := by
  obtain ⟨job, releasable, hjob, hph, rfl⟩ := commit_cases hs
  have hmem := mem_of_getElem? hjob
  cases releasable with
  | none => exact h.phase hi hjob rfl rfl rfl rfl
  | some p =>
    have hp : p ∈ job.phase.releasable := releasable_of_phase hph
    have hold : ∀ j ∈ s.jobs.set k { job with phase := .settled }, ∀ q ∈ j.phase.releasable,
        j ∈ s.jobs := by
      intro j hj q hq
      rcases mem_or_eq_of_mem_set hj with hj | rfl
      · exact hj
      · cases hq
    -- the new commit point was released, and is below what other jobs wait with
    have hcommit : Releases s (s.dir.advance p ok).commit ∧
        ∀ j ∈ s.jobs, ∀ q ∈ j.phase.releasable, (s.dir.advance p ok).commit ≤ q := by
      rcases WalDir.advance_commit s.dir p ok with hc | hc
      · rw [hc]
        exact ⟨.inl rfl, h.pending⟩
      · rw [hc]
        exact ⟨.inr ⟨job, hmem, hp⟩, hok job hjob p hp⟩
    refine ⟨hi, ?_, fun q hq n j hn hj => ?_, fun j hj q hq => ?_, fun r hr => ?_⟩
    · rw [covered_set hjob]
      exact h.sorted
    · have hq' : Releases s q := by
        rcases hq with rfl | ⟨j', hj', hq⟩
        · exact hcommit.1
        · exact .inr ⟨j', hold j' hj' q hq, hq⟩
      have hold (n : ℕ) (j : FlushJob V) (hj : s.jobs[n]? = some j) hn := h.ahead q hq' n j hn hj
      exact forall_getElem?_set hold (by exact hold k job hjob) n j hj hn
    · exact hcommit.2 j (hold j hj q hq) q hq
    · exact h.segments r (log_advance s.dir p ok hr)

theorem log_append {j : ℕ} {io : AppendIo} (hw : s.wal.isSome)
    (hok : appendFits env s (.append j io)) (hs : s.append env j io = some s') :
    s'.dir.commit = s.dir.commit ∧ s.dir.log ⊆ s'.dir.log ∧
      ∀ r ∈ s'.dir.log, r ∈ s.dir.log ∨ segmentOf r.pos = r.segment := by
  obtain ⟨c, sh, hc, -, -, -, rfl⟩ := append_cases hs
  obtain ⟨w, hwal⟩ := isSome_iff_exists.mp hw
  simp only [logMetric, hwal]
  refine ⟨trivial, subset_append_left _ _, fun r hr => ?_⟩
  refine (mem_append.mp hr).imp_right fun hr => ?_
  obtain ⟨p, hp, rfl⟩ := map_eq_some_iff.mp (mem_toList.mp hr)
  exact WalWriter.segmentOf_wrote (hok c hc w hwal) hp

theorem CommitsForward.of_dir (h : s'.dir = s.dir) : CommitsForward s s' := by
  rw [CommitsForward, h]
  exact ⟨le_rfl, fun r hr _ => hr⟩

theorem CommitsForward.trans {a b c : State V} (h1 : CommitsForward a b)
    (h2 : CommitsForward b c) : CommitsForward a c :=
  ⟨h1.1.trans h2.1, fun r hr hlt => h2.2 r (h1.2 r hr (h2.1.trans_lt hlt)) hlt⟩

theorem advance_forward {d : WalDir (Metric V)} {p : ℕ} (ok : Bool) (hle : d.commit ≤ p)
    (hseg : ∀ r ∈ d.log, segmentOf r.pos = r.segment) :
    d.commit ≤ (d.advance p ok).commit ∧
      ∀ r ∈ d.log, (d.advance p ok).commit < r.pos → r ∈ (d.advance p ok).log := by
  unfold WalDir.advance
  split_ifs
  · exact ⟨le_rfl, fun r hr _ => hr⟩
  · refine ⟨hle, fun r hr (hlt : p < r.pos) => mem_filter.mpr ⟨hr, decide_eq_true ?_⟩⟩
    exact hseg r hr ▸ segmentOf_mono hlt.le
  · exact ⟨le_rfl, fun r hr _ => hr⟩

theorem CommitInv.commit_forward {ok : Bool} (h : CommitInv s) (hs : s.commit k ok = some s') :
    CommitsForward s s' := by
  obtain ⟨job, releasable, hjob, hph, rfl⟩ := commit_cases hs
  cases releasable with
  | none => exact .of_dir rfl
  | some p =>
    exact advance_forward ok
      (h.pending job (mem_of_getElem? hjob) p (releasable_of_phase hph)) h.segments

/-- **Step lemma.** -/
theorem CommitInv.step (h : CommitInv s) (hok : commitOk env s e)
    (hs : step env s e = some s') : CommitInv s' ∧ CommitsForward s s' := by
  have hi := h.noLoss.step hok.1 hs
  have hpush (hjobs : s'.jobs = s.jobs) (horder : s'.order = s.order) (hdir : s'.dir = s.dir) :
      CommitInv s' ∧ CommitsForward s s' :=
    ⟨h.of_push hi hjobs horder (by rw [hdir]) fun r hr => .inl (hdir ▸ hr), .of_dir hdir⟩
  have hflush (cs : List (Caller V)) (heq : s' = { s.flushLocked with callers := cs }) :
      CommitInv s' ∧ CommitsForward s s' := by
    subst heq
    refine ⟨h.flushLocked hi, .of_dir ?_⟩
    unfold State.flushLocked
    split_ifs <;> rfl
  cases e with
  | enter m => cases hs; exact hpush rfl rfl rfl
  | capacityFlush j =>
    obtain ⟨cs, rfl | ⟨-, heq⟩⟩ := capacityFlush_cases hs
    · exact hpush rfl rfl rfl
    · exact hflush cs heq
  | abandon j => obtain rfl := abandon_cases hs; exact hpush rfl rfl rfl
  | append j io =>
    obtain ⟨hcommit, hsub, hlog⟩ := log_append h.noLoss.wal hok.1 hs
    obtain ⟨c, sh, -, -, -, -, rfl⟩ := append_cases hs
    exact ⟨h.of_push hi rfl rfl hcommit hlog, hcommit.ge, fun r hr _ => hsub hr⟩
  | feed i => obtain ⟨w, m, pos, -, rfl⟩ := feed_cases hs; exact hpush rfl rfl rfl
  | write i ios => obtain ⟨w, m, pos, -, rfl⟩ := write_cases hs; exact hpush rfl rfl rfl
  | finish i => obtain ⟨w, m, pos, c, -, rfl⟩ := finish_cases hs; exact hpush rfl rfl rfl
  | flush =>
    obtain ⟨-, rfl⟩ := flush_cases hs
    exact hflush s.flushLocked.callers rfl
  | encode k io =>
    obtain ⟨job, hjob, -, ⟨b, file, -, rfl⟩ | ⟨err, file, -, rfl⟩⟩ := encode_cases hs
    · refine ⟨h.phase hi hjob rfl rfl rfl ?_, .of_dir rfl⟩
      unfold sentPhase
      split_ifs <;> rfl
    · exact ⟨h.phase hi hjob rfl rfl rfl rfl, .of_dir rfl⟩
  | ack k =>
    refine ⟨h.ack hi hs, ?_⟩
    obtain ⟨job, -, -, rfl⟩ := ack_cases hs
    exact .of_dir rfl
  | giveUp k =>
    obtain ⟨job, hjob, -, rfl⟩ := giveUp_cases hs
    exact ⟨h.phase hi hjob rfl rfl rfl rfl, .of_dir rfl⟩
  | commit k ok => exact ⟨h.commit hi hok.2 hs, h.commit_forward hs⟩
  | release k =>
    obtain ⟨job, sealed, hjob, -, rfl⟩ := release_cases hs
    exact ⟨h.phase hi hjob rfl rfl rfl rfl, .of_dir rfl⟩
  | drop k =>
    obtain ⟨job, w, r, hjob, -, rfl⟩ := drop_cases hs
    exact ⟨h.phase hi hjob rfl rfl rfl rfl, .of_dir rfl⟩

/-- **Run lemma.** -/
theorem CommitInv.run {a b : State V} (h : CommitInv a)
    (hrun : Run (Ingest.step env) (commitOk env) a b) : CommitInv b ∧ CommitsForward a b := by
  refine hrun.inv (I := fun b => CommitInv b ∧ CommitsForward a b) ⟨h, .of_dir rfl⟩ ?_
  rintro s e s' ⟨hinv, hfwd⟩ hok hs
  obtain ⟨hinv', hfwd'⟩ := hinv.step hok hs
  exact ⟨hinv', hfwd.trans hfwd'⟩

theorem commitInv_boot (config : BlockConfig) (n : ℕ) (log : OpenedWal (Metric V))
    (hlog : ∀ r ∈ log.dir.log, segmentOf r.pos = r.segment)
    (buffer : Option (Buffer.MemoryBuffer V)) (files : List (MetricBlock V)) :
    CommitInv (boot config n (some log.writer) log.dir buffer files) where
  noLoss := noLossInv_boot config n log.writer log.dir buffer files log.commit_le
  sorted := .nil
  ahead := by
    intro p _ k job _ hjob
    cases hjob
  pending := nofun
  segments := hlog

/-- **The commit point moves forward** while jobs commit in the order in which their positions were
released. In every run of the rotator whose appends keep positions within range and whose jobs take
the WAL lock in that order: from any state to any later one the commit file's position does not
decrease, and no record above it is deleted. -/
theorem commit_moves_forward (env : Env V) (config : BlockConfig) (shards : ℕ)
    (log : OpenedWal (Metric V)) (hlog : ∀ r ∈ log.dir.log, segmentOf r.pos = r.segment)
    (buffer : Option (Buffer.MemoryBuffer V)) (files : List (MetricBlock V)) {a b : State V}
    (ha : Run (Ingest.step env) (commitOk env)
      (boot config shards (some log.writer) log.dir buffer files) a)
    (hb : Run (Ingest.step env) (commitOk env) a b) : CommitsForward a b :=
  (((commitInv_boot config shards log hlog buffer files).run ha).1.run hb).2

namespace Sample

def shortSegments : OpenedWal (Metric Unit) := ⟨⟨0, 0, 1, none⟩, ⟨0, []⟩, by decide⟩

def bootShort : State Unit :=
  boot (config 10) 1 (some shortSegments.writer) shortSegments.dir none []

def twoReleased : List (Event Unit) :=
  push (metric "a" [1]) (fun _ => .fine) ++ [.flush] ++ push (metric "b" [2]) (fun _ => .fine) ++
    [.flush, .encode 0 .fine, .encode 1 .fine, .ack 0, .ack 1]

end Sample

open Sample in
/-- Two jobs that commit in the order of their releases, each deleting a segment. -/
theorem commit_moves_forward_two :
    ∃ a b : State Unit, a.dir.log.length = 2 ∧ b.dir.log = [] ∧ CommitsForward a b := by
  obtain ⟨a, ha, hlen, hexec⟩ := exists_run (Ingest.step oneShard) (commitOk oneShard) bootShort
    (fun a => a.dir.log.length = 2 ∧ ((exec (Ingest.step oneShard) (commitOk oneShard) a
      [.commit 0 true, .commit 1 true]).any fun b => b.dir.log = [])) twoReleased (by decide)
  obtain ⟨b, hb, hempty⟩ := (any_eq_true _ _).mp hexec
  exact ⟨a, b, hlen, of_decide_eq_true hempty,
    commit_moves_forward oneShard _ _ shortSegments nofun _ _ ha (run_of_exec hb)⟩

open Sample in
/-- **A later job overtakes.** Job 1 commits first and its commit deletes the segments of both
records; then job 0 writes its smaller position to the commit file. The record of `b` is above it,
and gone. -/
theorem commit_moves_back :
    ∃ a b : State Unit, Run (Ingest.step oneShard) (appendFits oneShard) bootShort a ∧
      Run (Ingest.step oneShard) (appendFits oneShard) a b ∧
      b.dir.commit < a.dir.commit ∧
      ∃ s, Run (Ingest.step oneShard) (appendFits oneShard) s a ∧
        ∃ r ∈ s.dir.log, b.dir.commit < r.pos ∧ r ∉ b.dir.log := by
  obtain ⟨s, hs, hrest⟩ := exists_run (Ingest.step oneShard) (appendFits oneShard) bootShort
    (fun s => (exec (Ingest.step oneShard) (appendFits oneShard) s [.commit 1 true]).any fun a =>
      (exec (Ingest.step oneShard) (appendFits oneShard) a [.commit 0 true]).any fun b =>
        b.dir.commit < a.dir.commit ∧
          ∃ r ∈ s.dir.log, b.dir.commit < r.pos ∧ r ∉ b.dir.log) twoReleased (by decide)
  obtain ⟨a, ha, hrest⟩ := (any_eq_true _ _).mp hrest
  obtain ⟨b, hb, hback⟩ := (any_eq_true _ _).mp hrest
  obtain ⟨hlt, hgone⟩ := of_decide_eq_true hback
  exact ⟨a, b, hs.trans (run_of_exec ha), run_of_exec hb, hlt, s, run_of_exec ha, hgone⟩

end Parqtel.Ingest
