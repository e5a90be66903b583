import Parqtel.Ingest.NoLoss
import Parqtel.Server.Recovery

/-!
# What the rotator can do while every metric fits

As long as a metric fits into the writer it is written to, no writer closes a block by itself and
no push fails once its record is logged. `Move` is what is left of a step then, told by what it
does to the callers, the locks, the jobs, the files and the log. The accounts of a process follow
the moves, not the fourteen events.
-/

namespace Parqtel.Server

open Parqtel.Lib Parqtel.Wal Parqtel.Ingest Option Ingest.State Caller BlockWriter WalWriter

variable {V : Type*} {env : Env V} {r r' : Ingest.State V} {e : Ingest.Event V}

def waiting (mw : Metric V → ℕ) (cs : List (Caller V)) : ℕ := total (fun c => mw c.metric) cs

def logRecord (d : WalDir (Metric V)) (m : Metric V) (p : ℕ) : WalDir (Metric V) :=
  { d with log := d.log ++ [⟨segmentOf p, p, some m⟩] }

def flushedState (r : Ingest.State V) (w : WalWriter) (cs : List (Caller V)) : Ingest.State V :=
  { r with
    callers := cs
    shards := r.shards.map (swapWriter r.config)
    buffered := r.takenWriters.foldl (fun n w => fetchSub n w.rows) r.buffered
    walCursor := w.position
    order := r.order.begin.2
    jobs := r.jobs ++ [
      { walRange := some (r.walCursor, w.position)
        seq := r.order.begin.1
        sealed := r.sealedEpochs
        writers := r.takenWriters
        covered := w.position
        phase := .queued }] }

/-- What a step of the rotator can do while every metric fits. `ins` are the metrics that enter,
`lost` those whose push ends without a record, `new` those whose push ends with one. -/
inductive Move (r : Ingest.State V) :
    List (Metric V) → List (Metric V) → List (ℕ × Metric V) → Ingest.State V → Prop where
  | callers {ins lost : List (Metric V)} (cs : List (Caller V))
      (hcs : ∀ mw, waiting mw cs + total mw lost = waiting mw r.callers + total mw ins) :
      Move r ins lost [] { r with callers := cs }
  | refused (m : Metric V) (cs : List (Caller V)) (w : WalWriter)
      (hcs : ∀ mw, waiting mw cs + mw m = waiting mw r.callers) (hw : w.position = r.walEnd) :
      Move r [] [m] [] { r with callers := cs, wal := some w }
  | died (m : Metric V) (p : ℕ) (cs : List (Caller V)) (w : WalWriter)
      (hcs : ∀ mw, waiting mw cs + mw m = waiting mw r.callers) (hlt : r.walEnd < p)
      (hle : p ≤ w.position) :
      Move r [] [] [(p, m)] { r with callers := cs, wal := some w, dir := logRecord r.dir m p }
  | logged (m : Metric V) (p : ℕ) (cs : List (Caller V)) (w : WalWriter) (sh : Shard V) {i : ℕ}
      (hcs : ∀ mw, waiting mw cs + mw m = waiting mw r.callers) (hlt : r.walEnd < p)
      (hle : p ≤ w.position) (hsh : r.shards[i]? = some sh) (hlock : sh.lock = none) :
      Move r [] [] [] { r with
        callers := cs
        wal := some w
        dir := logRecord r.dir m p
        shards := r.shards.set i ⟨sh.writer, some ⟨m, p, .logged⟩⟩ }
  | fed (w : BlockWriter V) (m : Metric V) (p : ℕ) {i : ℕ}
      (hsh : r.shards[i]? = some ⟨w, some ⟨m, p, .logged⟩⟩)
      (buffer : Option (Buffer.MemoryBuffer V)) :
      Move r [] [] [] { r with
        buffer := buffer
        shards := r.shards.set i ⟨w, some ⟨m, p, .buffered⟩⟩ }
  | wrote (w w' : BlockWriter V) (m : Metric V) (p : ℕ) {i : ℕ}
      (hsh : r.shards[i]? = some ⟨w, some ⟨m, p, .buffered⟩⟩)
      (hw : w'.content = w.content ++ m.rows) :
      Move r [] [] [] { r with shards := r.shards.set i ⟨w', some ⟨m, p, .written []⟩⟩ }
  | finished (w : BlockWriter V) (m : Metric V) (p : ℕ) {i : ℕ}
      {closed : List (MetricBlock V)}
      (hsh : r.shards[i]? = some ⟨w, some ⟨m, p, .written closed⟩⟩)
      (sent : List (MetricBlock V)) (buffer : Option (Buffer.MemoryBuffer V)) (n : ℕ) :
      Move r [] [] [] { r with
        sent := sent
        buffer := buffer
        buffered := n
        shards := r.shards.set i ⟨w, none⟩
        acked := r.acked ++ [(p, m)] }
  | flushed (w : WalWriter) (cs : List (Caller V))
      (hcs : ∀ mw, waiting mw cs = waiting mw r.callers) (hwal : r.wal = some w)
      (hu : r.unlocked = true) (htaken : r.takenWriters ≠ []) :
      Move r [] [] [] (flushedState r w cs)
  | encoded {k : ℕ} {job : FlushJob V} (hjob : r.jobs[k]? = some job) (hq : job.phase = .queued)
      (file : Option (MetricBlock V)) (ph : JobPhase) (sent : List (MetricBlock V))
      (hfile : ∀ b ∈ file, b.metadata.walRange = job.walRange ∧
        ∀ wt, total wt b.rows = total wt job.rows)
      (hph : ph.isWritten = true → file.isSome) (hnq : ph ≠ .queued)
      (hna : ∀ p, ph ≠ .acknowledged p) :
      Move r [] [] [] { r with
        files := r.files ++ file.toList
        sent := sent
        jobs := r.jobs.set k { job with phase := ph } }
  | phase {k : ℕ} {job : FlushJob V} (hjob : r.jobs[k]? = some job) (ph : JobPhase)
      (hw : ph.isWritten = job.phase.isWritten) (hnq : ph ≠ .queued)
      (hack : ∀ p, ph = .acknowledged (some p) →
        ∃ j ∈ r.jobs, j.phase.isWritten = true ∧ j.covered = p)
      (order : FlushOrder) (buffer : Option (Buffer.MemoryBuffer V)) (d : WalDir (Metric V))
      (hd : d = r.dir ∨ ∃ p ok, job.phase = .acknowledged (some p) ∧ d = r.dir.advance p ok) :
      Move r [] [] [] { r with
        order := order
        buffer := buffer
        dir := d
        jobs := r.jobs.set k { job with phase := ph } }

/-- The guard of a run of the rotator: positions stay within range, and a metric fits into the
writer it is written to. -/
def writesFit (env : Env V) (r : Ingest.State V) : Ingest.Event V → Prop
  | .write i _ => ∀ sh ∈ r.shards[i]?, ∀ q ∈ sh.lock,
      sh.writer.rows + q.metric.dataPoints.length ≤ sh.writer.capacity
  | e => appendFits env r e

instance (env : Env V) (r : Ingest.State V) (e : Ingest.Event V) :
    Decidable (writesFit env r e) := by
  rcases e <;> unfold writesFit <;> infer_instance

/-- The push of the step's event, if it ends one before its record is written, is not lost. -/
def pushGoesOn (env : Env V) (r : Ingest.State V) : Ingest.Event V → Prop
  | .abandon _ => False
  | .append j io => ∀ c ∈ r.callers[j]?, ∀ w ∈ r.wal,
      (w.appendEncoded (recordLen env c.metric) io).result.isOk
  | _ => True

instance (env : Env V) (r : Ingest.State V) (e : Ingest.Event V) :
    Decidable (pushGoesOn env r e) := by
  rcases e <;> unfold pushGoesOn <;> infer_instance

theorem writesFit.appendFits (h : writesFit env r e) : appendFits env r e := by
  cases e with
  | write => trivial
  | _ => exact h

theorem waiting_eq_of_map {cs cs' : List (Caller V)}
    (h : cs.map metric = cs'.map metric) (mw : Metric V → ℕ) :
    waiting mw cs = waiting mw cs' := by
  have hmap : ∀ l : List (Caller V), waiting mw l = total mw (l.map metric) :=
    fun l => (total_map mw metric l).symm
  rw [hmap, hmap, h]

variable {j : ℕ}

theorem waiting_eraseIdx {cs : List (Caller V)} {c : Caller V} (h : cs[j]? = some c)
    (mw : Metric V → ℕ) : waiting mw (cs.eraseIdx j) + mw c.metric = waiting mw cs := by
  have := total_eraseIdx (w := fun c => mw c.metric) h
  rw [← waiting, ← waiting] at this
  omega

theorem callers_flushLocked (r : Ingest.State V) : r.flushLocked.callers = r.callers := by
  unfold flushLocked
  split_ifs <;> rfl

theorem callers_capacityFlush (h : r.capacityFlush j = some r') :
    r'.callers.map metric = r.callers.map metric := by
  unfold capacityFlush at h
  split at h
  · next c hc =>
    have hset : (r.callers.set j { c with needsFlush := false }).map metric =
        r.callers.map metric := by
      rw [List.map_set]
      exact set_of_getElem? (by simp [hc])
    split_ifs at h
    · cases h
      exact hset
    · obtain ⟨-, rfl⟩ := flush_cases h
      rw [callers_flushLocked]
      exact hset
  · cases h

theorem mergeAndFlush_file {job : FlushJob V} {io : BlockIo} {b : MetricBlock V}
    (h : b ∈ (mergeAndFlush job io).2) :
    b.metadata.walRange = job.walRange ∧ ∀ wt, total wt b.rows = total wt job.rows := by
  unfold mergeAndFlush at h
  split at h
  · cases h
  · next w hw =>
    have hb : b = (w.setWalRange job.walRange).toBlock io := by
      rcases hf : (w.setWalRange job.walRange).flush io with ⟨res, w', file⟩
      simp only [hf] at h
      cases res with
      | ok b' =>
        obtain ⟨-, rfl, -, rfl, -⟩ := flush_ok hf
        exact (mem_some_iff.mp h).symm
      | error err => exact (flush_error hf).2 b h
    subst hb
    refine ⟨rfl, fun wt => ?_⟩
    rw [total_toBlock, FlushJob.rows, ← content_merge hw]
    rfl

theorem flushLocked_move (hw : r.wal.isSome) (hu : r.unlocked = true) (cs : List (Caller V))
    (hcs : ∀ mw, waiting mw cs = waiting mw r.callers) :
    Move r [] [] [] { r.flushLocked with callers := cs } := by
  obtain ⟨w, hwal⟩ := isSome_iff_exists.mp hw
  by_cases htaken : r.takenWriters = []
  · have hr : r.flushLocked = r := by rw [flushLocked, if_pos htaken]
    rw [hr]
    exact .callers cs fun mw => by rw [hcs]
  · have hr : { r.flushLocked with callers := cs } = flushedState r w cs := by
      rw [flushLocked, if_neg htaken, flushedState]
      simp only [walEnd, hwal, elim_some, map_some]
    rw [hr]
    exact .flushed w cs hcs hwal hu htaken

theorem append_move {io : AppendIo} (hw : r.wal.isSome) (hok : appendFits env r (.append j io))
    (h : r.append env j io = some r') :
    ∃ lost new, Move r [] lost new r' ∧
      (pushGoesOn env r (.append j io) → lost = [] ∧ new = []) := by
  obtain ⟨c, sh, hc, -, hsh, hlock, rfl⟩ := append_cases h
  obtain ⟨w, hwal⟩ := isSome_iff_exists.mp hw
  have hfits := hok c hc w hwal
  have hlen : 0 < recordLen env c.metric := Nat.lt_of_lt_of_le (by decide) (Nat.le_add_right 8 _)
  have hend : r.walEnd = w.position := walEnd_of_wal hwal
  have hcs := waiting_eraseIdx hc
  obtain ⟨-, hspec⟩ := appendEncoded_spec io hfits
  have hbounds : ∀ p, (w.appendEncoded (recordLen env c.metric) io).wrote = some p →
      r.walEnd < p ∧ segmentOf p = w.segment := fun p hp => by
    obtain ⟨h1, -⟩ := hspec p hp
    exact ⟨by omega, segmentOf_wrote hfits hp⟩
  have hset : r.shards.set (shardFor env c.metric.name r.shards.length) ⟨sh.writer, none⟩ =
      r.shards := set_of_getElem? (by rw [hsh, ← hlock])
  simp only [logMetric, hwal]
  cases hr : (w.appendEncoded (recordLen env c.metric) io).result with
  | ok p =>
    have hwrote := appendEncoded_ok hr
    obtain ⟨hlt, hseg⟩ := hbounds p hwrote
    refine ⟨[], [], ?_, fun _ => ⟨rfl, rfl⟩⟩
    rw [hwrote]
    have := Move.logged (r := r) c.metric p _ _ sh hcs hlt (hspec p hwrote).2 hsh hlock
    rw [logRecord, hseg] at this
    exact this
  | error err =>
    have hno : pushGoesOn env r (.append j io) → False := fun hgo => by
      have := hgo c hc w hwal
      rw [hr] at this
      cases this
    simp only [Except.toOption, map_none, hset]
    cases hwrote : (w.appendEncoded (recordLen env c.metric) io).wrote with
    | none =>
      refine ⟨[c.metric], [], ?_, fun hgo => (hno hgo).elim⟩
      have := Move.refused (r := r) c.metric _ _ hcs
        ((position_of_unwritten hwrote).trans hend.symm)
      simpa using this
    | some p =>
      obtain ⟨hlt, hseg⟩ := hbounds p hwrote
      refine ⟨[], [(p, c.metric)], ?_, fun hgo => (hno hgo).elim⟩
      have := Move.died (r := r) c.metric p _ _ hcs hlt (hspec p hwrote).2
      rw [logRecord, hseg] at this
      exact this

theorem ack_move {k : ℕ} (hi : NoLossInv r) (h : r.ack k = some r') : Move r [] [] [] r' := by
  obtain ⟨job, hjob, hpub, rfl⟩ := ack_cases h
  have hw : job.phase.isWritten = true := by rw [hpub]; rfl
  have hD : Written r.jobs job.seq job.covered := ⟨job, (hi.seq k job hjob).symm ▸ hjob, hw, rfl⟩
  refine .phase hjob (.acknowledged (r.order.walComplete job.seq job.covered).1)
    (by rw [hw]; rfl) nofun (fun p hp => ?_) _ r.buffer r.dir (.inl rfl)
  -- the largest of the positions that written jobs cover is one of them
  refine Frontier.complete_released
    (R := fun p => ∃ j ∈ r.jobs, j.phase.isWritten = true ∧ j.covered = p) (fun a b ha hb => ?_)
    hi.tracks hD (fun n v _ _ hv => ?_) p (JobPhase.acknowledged.inj hp)
  · rcases le_total a b with hab | hab
    · rwa [max_eq_right hab]
    · rwa [max_eq_left hab]
  · obtain ⟨j, hj, hjw, rfl⟩ := hv
    exact ⟨j, List.mem_of_getElem? hj, hjw, rfl⟩

/-- **What a step can do** while every metric fits. -/
theorem step_move (hi : NoLossInv r) (hok : writesFit env r e)
    (h : Ingest.step env r e = some r') :
    ∃ lost new, Move r (entered e) lost new r' ∧ (pushGoesOn env r e → lost = [] ∧ new = []) := by
  have hmove : ∀ {ins}, Move r ins [] [] r' → ∃ lost new, Move r ins lost new r' ∧
      (pushGoesOn env r e → lost = [] ∧ new = []) := fun hm => ⟨[], [], hm, fun _ => ⟨rfl, rfl⟩⟩
  cases e with
  | enter m =>
    cases h
    exact hmove (.callers _ fun mw => by simp [waiting, entered])
  | capacityFlush j =>
    have hcs := callers_capacityFlush h
    obtain ⟨cs, rfl | ⟨hu, rfl⟩⟩ := capacityFlush_cases h
    · exact hmove (.callers cs fun mw => by rw [waiting_eq_of_map hcs]; rfl)
    · exact hmove (flushLocked_move hi.wal hu cs fun mw => waiting_eq_of_map hcs mw)
  | abandon j =>
    have hj : j < r.callers.length := by
      by_contra hj
      rw [Ingest.step, abandon, if_neg hj] at h
      cases h
    obtain rfl := abandon_cases h
    refine ⟨[r.callers[j].metric], [], .callers _ fun mw => ?_, False.elim⟩
    have := waiting_eraseIdx (List.getElem?_eq_getElem hj) mw
    simpa [entered] using this
  | append j io => exact append_move hi.wal hok h
  | feed i =>
    obtain ⟨w, m, pos, hsh, rfl⟩ := feed_cases h
    exact hmove (.fed w m pos hsh _)
  | write i ios =>
    obtain ⟨w, m, pos, hsh, rfl⟩ := write_cases h
    obtain ⟨w', hpush, hcontent, -⟩ := push_fits ios (hok _ hsh _ rfl)
    refine hmove ?_
    rw [hpush, List.append_nil]
    exact .wrote w w' m pos hsh hcontent
  | finish i =>
    obtain ⟨w, m, pos, closed, hsh, rfl⟩ := finish_cases h
    exact hmove (.finished w m pos hsh _ _ _)
  | flush =>
    obtain ⟨hu, rfl⟩ := flush_cases h
    exact hmove (flushLocked_move hi.wal hu r.flushLocked.callers fun mw => by
      rw [callers_flushLocked])
  | encode k io =>
    obtain ⟨job, hjob, hq, hcases⟩ := encode_cases h
    have hfile : ∀ b ∈ (mergeAndFlush job io).2,
        b.metadata.walRange = job.walRange ∧ ∀ wt, total wt b.rows = total wt job.rows :=
      fun b hb => mergeAndFlush_file hb
    rcases hcases with ⟨b, file, hm, rfl⟩ | ⟨err, file, hm, rfl⟩ <;> rw [hm] at hfile
    · refine hmove (.encoded hjob hq file _ _ hfile
        (fun _ => by rw [(mergeAndFlush_ok hm).1]; rfl) ?_ fun p => ?_)
      all_goals
        unfold sentPhase
        split_ifs <;> nofun
    · exact hmove (.encoded hjob hq file .failed r.sent hfile nofun nofun nofun)
  | ack k => exact hmove (ack_move hi h)
  | giveUp k =>
    obtain ⟨job, hjob, hph, rfl⟩ := giveUp_cases h
    exact hmove (.phase hjob .settled (by rw [hph]; rfl) nofun nofun r.order r.buffer r.dir
      (.inl rfl))
  | commit k ok =>
    obtain ⟨job, releasable, hjob, hph, rfl⟩ := commit_cases h
    refine hmove (.phase hjob .settled (by rw [hph]; rfl) nofun nofun r.order r.buffer _ ?_)
    cases releasable with
    | none => exact .inl rfl
    | some p => exact .inr ⟨p, ok, hph, rfl⟩
  | release k =>
    obtain ⟨job, sealed, hjob, -, rfl⟩ := release_cases h
    exact hmove (.phase hjob (.dropping job.phase.isWritten _) rfl nofun nofun _ r.buffer r.dir
      (.inl rfl))
  | drop k =>
    obtain ⟨job, written, released, hjob, hph, rfl⟩ := drop_cases h
    exact hmove (.phase hjob (.finished written) (by rw [hph]; rfl) nofun nofun r.order _ r.dir
      (.inl rfl))

end Parqtel.Server
