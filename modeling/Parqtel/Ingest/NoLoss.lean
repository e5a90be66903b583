import Parqtel.Ingest.Rotator

/-!
# No committed metric is lost

In every run of the rotator, every row of a push that returned `Ok` and whose WAL
record ends at or below the commit point is in a block file. The argument is a
ledger. Weigh rows by any `wt`. What acknowledged pushes weigh is never more than
what the files, the jobs whose block is not written and the shard writers weigh
together (`NoLossInv.all`), and for the records up to the position a job covers the
writers and the later jobs can be left out (`NoLossInv.upTo`). A position that the commit
frontier releases belongs to a prefix of written jobs, so for it only the files are
left (`Safe`).

Positions order the log only while they fit: `appendFits` is the guard of the runs.
-/

namespace Parqtel.Ingest

open Parqtel.Lib Parqtel.Wal List Option State JobPhase

variable {V : Type*} {env : Env V} {s s' : State V} {e : Event V} {wt : MetricRow V → ℕ}

/-! ## The property -/

def State.ackedUpTo (s : State V) (p : ℕ) : List (MetricRow V) :=
  (s.acked.filter fun a => a.1 ≤ p).flatMap fun a => a.2.rows

def State.fileRows (s : State V) : List (MetricRow V) := s.files.flatMap Block.rows

/-- Every acknowledged row at or below the commit point is in a block file, as often as it was
acknowledged. -/
def State.NoLoss (s : State V) : Prop := (s.ackedUpTo s.dir.commit).Subperm s.fileRows

def appendFits (env : Env V) (s : State V) : Event V → Prop
  | .append j _ => ∀ c ∈ s.callers[j]?, ∀ w ∈ s.wal, w.AppendFits (recordLen env c.metric)
  | _ => True

instance (env : Env V) (s : State V) (e : Event V) : Decidable (appendFits env s e) := by
  unfold appendFits
  split <;> infer_instance

/-! ## Weights -/

def ackedTotal (wt : MetricRow V → ℕ) (p : ℕ) (acked : List (ℕ × Metric V)) : ℕ :=
  total (fun a => if a.1 ≤ p then total wt a.2.rows else 0) acked

def unwritten (wt : MetricRow V → ℕ) (job : FlushJob V) : ℕ :=
  if job.phase.isWritten then 0 else total wt job.rows

def held (wt : MetricRow V → ℕ) (sh : Shard V) : ℕ := total wt sh.writer.content

def owed (wt : MetricRow V → ℕ) (sh : Shard V) : ℕ :=
  match sh.lock with
  | some ⟨m, _, .written _⟩ => total wt m.rows
  | _ => 0

theorem total_ackedUpTo (s : State V) (p : ℕ) :
    total wt (s.ackedUpTo p) = ackedTotal wt p s.acked := by
  rw [ackedUpTo, total_flatMap, total_filter, ackedTotal]
  exact total_congr fun a _ => by simp only [decide_eq_true_eq]

theorem total_fileRows (s : State V) : total wt s.fileRows = blockTotal wt s.files :=
  total_flatMap _ _ _

theorem ackedTotal_append (p : ℕ) (l : List (ℕ × Metric V)) (a : ℕ × Metric V) :
    ackedTotal wt p (l ++ [a]) = ackedTotal wt p l + if a.1 ≤ p then total wt a.2.rows else 0 := by
  simp [ackedTotal]

theorem ackedTotal_le (wt : MetricRow V → ℕ) (p : ℕ) (l : List (ℕ × Metric V)) :
    ackedTotal wt p l ≤ total (fun a => total wt a.2.rows) l :=
  total_le fun a _ => by split_ifs <;> omega

/-! ## Positions below the open pushes -/

/-- Every push that holds a lock logged its record above `p`, and so will every later one. -/
structure Below (s : State V) (p : ℕ) : Prop where
  le_end : p ≤ s.walEnd
  lt_lock : ∀ sh ∈ s.shards, ∀ q ∈ sh.lock, p < q.pos

/-- All acknowledged rows up to `p` are in files, and no later push gets a position up to `p`. -/
structure Safe (s : State V) (p : ℕ) : Prop where
  below : Below s p
  covered : ∀ wt, ackedTotal wt p s.acked ≤ blockTotal wt s.files

/-- What every step keeps: files stay, an acknowledgement is that of a push that holds a lock,
and new records are logged at the end. -/
structure Frame (s s' : State V) : Prop where
  files : ∀ wt, blockTotal wt s.files ≤ blockTotal wt s'.files
  acked : s'.acked = s.acked ∨
    ∃ sh ∈ s.shards, ∃ q ∈ sh.lock, s'.acked = s.acked ++ [(q.pos, q.metric)]
  walEnd : s.walEnd ≤ s'.walEnd
  locks : ∀ sh' ∈ s'.shards, ∀ q' ∈ sh'.lock,
    (∃ sh ∈ s.shards, ∃ q ∈ sh.lock, q.pos = q'.pos) ∨ s.walEnd < q'.pos
  wal : s.wal.isSome → s'.wal.isSome

variable {p : ℕ}

theorem Below.frame (h : Below s p) (hf : Frame s s') : Below s' p := by
  refine ⟨h.le_end.trans hf.walEnd, fun sh' hsh' q' hq' => ?_⟩
  rcases hf.locks sh' hsh' q' hq' with ⟨sh, hsh, q, hq, hpos⟩ | hlt
  · exact hpos ▸ h.lt_lock sh hsh q hq
  · exact h.le_end.trans_lt hlt

theorem Safe.frame (h : Safe s p) (hf : Frame s s') : Safe s' p := by
  refine ⟨h.below.frame hf, fun wt => ?_⟩
  have hfiles := hf.files wt
  have hcov := h.covered wt
  rcases hf.acked with ha | ⟨sh, hsh, q, hq, ha⟩
  · rw [ha]; omega
  · have hlt := h.below.lt_lock sh hsh q hq
    rw [ha, ackedTotal_append, if_neg (by simpa using hlt)]
    omega

theorem Safe.max {q : ℕ} (hp : Safe s p) (hq : Safe s q) : Safe s (max p q) := by
  rcases le_total p q with h | h
  · rwa [max_eq_right h]
  · rwa [max_eq_left h]

theorem Frame.of_locks (hwal : s'.wal = s.wal) (hfiles : s'.files = s.files)
    (hacked : s'.acked = s.acked)
    (hlocks : ∀ sh' ∈ s'.shards, ∀ q' ∈ sh'.lock, ∃ sh ∈ s.shards, ∃ q ∈ sh.lock,
      q.pos = q'.pos) : Frame s s' :=
  ⟨fun _ => by rw [hfiles], .inl hacked, by simp only [State.walEnd, hwal, le_rfl],
    fun sh' h q' hq' => .inl (hlocks sh' h q' hq'), fun h => hwal ▸ h⟩

theorem flushLocked_frame (cs : List (Caller V)) :
    Frame s { s.flushLocked with callers := cs } := by
  unfold State.flushLocked
  split_ifs
  · exact .of_locks rfl rfl rfl fun sh' h q' hq' => ⟨sh', h, q', hq', rfl⟩
  · refine .of_locks rfl rfl rfl fun sh' h q' hq' => ?_
    obtain ⟨sh, hsh, rfl⟩ := mem_map.mp h
    exact ⟨sh, hsh, q', swapWriter_lock s.config sh ▸ hq', rfl⟩

theorem append_frame {j : ℕ} {io : AppendIo} (hw : s.wal.isSome)
    (hok : appendFits env s (.append j io)) (h : s.append env j io = some s') : Frame s s' := by
  obtain ⟨c, sh, hc, -, hsh, hlock, rfl⟩ := append_cases h
  obtain ⟨w, hwal⟩ := isSome_iff_exists.mp hw
  have hlen : 0 < recordLen env c.metric := Nat.lt_of_lt_of_le (by decide) (Nat.le_add_right 8 _)
  obtain ⟨hle, hpos⟩ := WalWriter.appendEncoded_spec io (hok c hc w hwal)
  have hend : s.walEnd = w.position := walEnd_of_wal hwal
  refine ⟨fun _ => le_rfl, .inl rfl, ?_, ?_, fun _ => ?_⟩
  · simp only [State.walEnd, logMetric, hwal, elim_some]
    exact hle
  · refine forall_mem_set (fun sh h q hq => .inl ⟨sh, h, q, hq, rfl⟩) fun q hq => .inr ?_
    simp only [logMetric, hwal, mem_def, map_eq_some_iff] at hq
    obtain ⟨p, hp, rfl⟩ := hq
    rw [hend]
    cases hr : (w.appendEncoded (recordLen env c.metric) io).result with
    | error e => rw [hr] at hp; cases hp
    | ok r =>
      rw [hr] at hp
      cases hp
      have hp := (hpos p (WalWriter.appendEncoded_ok hr)).1
      show w.position < p
      omega
  · simp [logMetric, hwal]

theorem step_frame (hw : s.wal.isSome) (hok : appendFits env s e)
    (h : step env s e = some s') : Frame s s' := by
  have hsame : ∀ sh' ∈ s.shards, ∀ q' ∈ sh'.lock, ∃ sh ∈ s.shards, ∃ q ∈ sh.lock,
      q.pos = q'.pos := fun sh' h q' hq' => ⟨sh', h, q', hq', rfl⟩
  cases e with
  | enter m => cases h; exact .of_locks rfl rfl rfl hsame
  | capacityFlush j =>
    obtain ⟨cs, rfl | ⟨-, rfl⟩⟩ := capacityFlush_cases h
    · exact .of_locks rfl rfl rfl hsame
    · exact flushLocked_frame cs
  | abandon j => obtain rfl := abandon_cases h; exact .of_locks rfl rfl rfl hsame
  | append j io => exact append_frame hw hok h
  | feed i =>
    obtain ⟨w, m, pos, hsh, rfl⟩ := feed_cases h
    refine .of_locks rfl rfl rfl (forall_mem_set hsame fun q hq => ?_)
    cases hq
    exact ⟨_, mem_of_getElem? hsh, _, rfl, rfl⟩
  | write i ios =>
    obtain ⟨w, m, pos, hsh, rfl⟩ := write_cases h
    refine ⟨fun wt => by simp only [blockTotal_append]; omega, .inl rfl, le_rfl,
      forall_mem_set (fun sh h q hq => .inl ⟨sh, h, q, hq, rfl⟩) fun q hq => .inl ?_, id⟩
    simp only [mem_def, map_eq_some_iff] at hq
    obtain ⟨bs, -, rfl⟩ := hq
    exact ⟨_, mem_of_getElem? hsh, _, rfl, rfl⟩
  | finish i =>
    obtain ⟨w, m, pos, closed, hsh, rfl⟩ := finish_cases h
    exact ⟨fun _ => le_rfl, .inr ⟨_, mem_of_getElem? hsh, _, rfl, rfl⟩, le_rfl,
      forall_mem_set (fun sh h q hq => .inl ⟨sh, h, q, hq, rfl⟩) nofun, id⟩
  | flush =>
    obtain ⟨-, rfl⟩ := flush_cases h
    exact flushLocked_frame s.flushLocked.callers
  | encode k io =>
    obtain ⟨job, -, -, ⟨b, file, -, rfl⟩ | ⟨err, file, -, rfl⟩⟩ := encode_cases h
    all_goals
      exact ⟨fun wt => by simp only [blockTotal_append]; omega, .inl rfl, le_rfl,
        fun sh h q hq => .inl (hsame sh h q hq), id⟩
  | ack k => obtain ⟨job, -, -, rfl⟩ := ack_cases h; exact .of_locks rfl rfl rfl hsame
  | giveUp k => obtain ⟨job, -, -, rfl⟩ := giveUp_cases h; exact .of_locks rfl rfl rfl hsame
  | commit k ok => obtain ⟨job, r, -, -, rfl⟩ := commit_cases h; exact .of_locks rfl rfl rfl hsame
  | release k =>
    obtain ⟨job, sealed, -, -, rfl⟩ := release_cases h
    exact .of_locks rfl rfl rfl hsame
  | drop k => obtain ⟨job, w, r, -, -, rfl⟩ := drop_cases h; exact .of_locks rfl rfl rfl hsame

/-! ## The invariant -/

/-- Job `k` has written its block and covers position `v`. -/
def Written (jobs : List (FlushJob V)) (k v : ℕ) : Prop :=
  ∃ job, jobs[k]? = some job ∧ job.phase.isWritten = true ∧ job.covered = v

structure NoLossInv (s : State V) : Prop where
  wal : s.wal.isSome
  seq : ∀ (k : ℕ) (job : FlushJob V), s.jobs[k]? = some job → job.seq = k
  next : s.order.nextSeq = s.jobs.length
  below : ∀ job ∈ s.jobs, Below s job.covered
  tracks : s.order.wal.Tracks (Written s.jobs)
  released : ∀ job ∈ s.jobs, ∀ p, job.phase = .acknowledged (some p) → Safe s p
  commit : Safe s s.dir.commit
  all : ∀ wt, total (fun a => total wt a.2.rows) s.acked + total (owed wt) s.shards ≤
    blockTotal wt s.files + total (unwritten wt) s.jobs + total (held wt) s.shards
  upTo : ∀ (k : ℕ) (job : FlushJob V), s.jobs[k]? = some job → ∀ wt,
    ackedTotal wt job.covered s.acked ≤
    blockTotal wt s.files + total (unwritten wt) (s.jobs.take (k + 1))

theorem unwritten_phase (job : FlushJob V) (ph : JobPhase) :
    unwritten wt { job with phase := ph } = if ph.isWritten then 0 else total wt job.rows := rfl

theorem unwritten_eq_zero {job : FlushJob V} (h : job.phase.isWritten = true) :
    unwritten wt job = 0 := by simp [unwritten, h]

variable {k : ℕ}

theorem NoLossInv.safe_of_frontier (h : NoLossInv s) {f : Frontier ℕ}
    (ht : f.Tracks (Written s.jobs)) {v : ℕ} (hk : k < f.frontier) (hv : Written s.jobs k v) :
    Safe s v := by
  obtain ⟨job, hjob, -, rfl⟩ := hv
  refine ⟨h.below job (mem_of_getElem? hjob), fun wt => ?_⟩
  have hzero : total (unwritten wt) (s.jobs.take (k + 1)) = 0 := by
    refine total_eq_zero fun j hj => ?_
    obtain ⟨n, hn⟩ := mem_iff_getElem?.mp hj
    rw [getElem?_take] at hn
    split_ifs at hn with hlt
    obtain ⟨v, j', hj', hw, -⟩ := ht.passed n (by omega)
    rw [hn] at hj'
    cases hj'
    exact unwritten_eq_zero hw
  have := h.upTo k job hjob wt
  omega

theorem NoLossInv.of_push (h : NoLossInv s) (hf : Frame s s') (hjobs : s'.jobs = s.jobs)
    (horder : s'.order = s.order) (hcommit : s'.dir.commit = s.dir.commit)
    (hall : ∀ wt, total (fun a => total wt a.2.rows) s'.acked + total (owed wt) s'.shards ≤
      blockTotal wt s'.files + total (unwritten wt) s.jobs + total (held wt) s'.shards) :
    NoLossInv s' where
  wal := hf.wal h.wal
  seq := by rw [hjobs]; exact h.seq
  next := by rw [hjobs, horder]; exact h.next
  below job hjob := (h.below job (hjobs ▸ hjob)).frame hf
  tracks := by rw [hjobs, horder]; exact h.tracks
  released job hjob p hp := (h.released job (hjobs ▸ hjob) p hp).frame hf
  commit := by rw [hcommit]; exact h.commit.frame hf
  all wt := by rw [hjobs]; exact hall wt
  upTo k job hjob wt := by
    rw [hjobs] at hjob ⊢
    have h1 := h.upTo k job hjob wt
    have h2 := hf.files wt
    rcases hf.acked with ha | ⟨sh, hsh, q, hq, ha⟩
    · rw [ha]; omega
    · -- the acknowledged record lies above everything a job covers
      have hlt := (h.below job (mem_of_getElem? hjob)).lt_lock sh hsh q hq
      rw [ha, ackedTotal_append, if_neg (by simpa using hlt)]
      omega

section Jobs
variable {k : ℕ} {job : FlushJob V} {ph : JobPhase}

theorem Written.set (hjob : s.jobs[k]? = some job)
    (hmono : job.phase.isWritten = true → ph.isWritten = true) {n v : ℕ}
    (h : Written s.jobs n v) : Written (s.jobs.set k { job with phase := ph }) n v := by
  obtain ⟨j, hj, hw, rfl⟩ := h
  rcases getElem?_set_or hjob { job with phase := ph } hj with hj | ⟨rfl, hnew⟩
  · exact ⟨j, hj, hw, rfl⟩
  · exact ⟨_, hnew, hmono hw, rfl⟩

theorem NoLossInv.of_job (h : NoLossInv s) (hf : Frame s s') (hjob : s.jobs[k]? = some job)
    (hjobs : s'.jobs = s.jobs.set k { job with phase := ph }) (hshards : s'.shards = s.shards)
    (hacked : s'.acked = s.acked) (hnext : s'.order.nextSeq = s.order.nextSeq)
    (hwork : ∀ wt, blockTotal wt s.files + unwritten wt job ≤
      blockTotal wt s'.files + unwritten wt { job with phase := ph })
    (htracks : s'.order.wal.Tracks (Written s'.jobs))
    (hrel : ∀ p, ph = .acknowledged (some p) → Safe s p)
    (hcommit : Safe s s'.dir.commit) : NoLossInv s' where
  wal := hf.wal h.wal
  seq := hjobs ▸ forall_getElem?_set h.seq (h.seq k job hjob)
  next := by rw [hnext, hjobs, length_set]; exact h.next
  below := by
    rw [hjobs]
    exact forall_mem_set (fun j hj => (h.below j hj).frame hf)
      ((h.below job (mem_of_getElem? hjob)).frame hf)
  tracks := htracks
  released := by
    rw [hjobs]
    exact forall_mem_set (fun j hj p hp => (h.released j hj p hp).frame hf)
      fun p hp => (hrel p hp).frame hf
  commit := hcommit.frame hf
  all wt := by
    have h1 := h.all wt
    have h2 := hwork wt
    have h3 := total_set (w := unwritten wt) { job with phase := ph } hjob
    rw [hjobs, hshards, hacked]
    omega
  upTo := by
    have hold (n : ℕ) (j : FlushJob V) (hj : s.jobs[n]? = some j) (wt : MetricRow V → ℕ) :
        ackedTotal wt j.covered s'.acked ≤ blockTotal wt s'.files +
          total (unwritten wt) ((s.jobs.set k { job with phase := ph }).take (n + 1)) := by
      have h1 := h.upTo n j hj wt
      have h2 := hwork wt
      have h3 :=
        total_take_set (w := unwritten wt) (b := { job with phase := ph }) (n := n + 1) hjob
      have h4 := hf.files wt
      rw [hacked]
      split_ifs at h3 <;> omega
    rw [hjobs]
    exact forall_getElem?_set hold (hold k job hjob)

end Jobs

/-! ## Flushing -/

theorem owed_swapWriter (config : BlockConfig) (sh : Shard V) :
    owed wt (swapWriter config sh) = owed wt sh := by
  unfold owed
  rw [swapWriter_lock]

theorem held_swapWriter (config : BlockConfig) (sh : Shard V) :
    held wt (swapWriter config sh) = 0 := by
  unfold held swapWriter
  split_ifs with h
  · rw [content_of_isEmpty h]; rfl
  · rfl

theorem total_held_swapWriter (wt : MetricRow V → ℕ) (config : BlockConfig)
    (shards : List (Shard V)) : total (held wt) (shards.map (swapWriter config)) = 0 :=
  total_eq_zero fun sh' hsh' => by
    obtain ⟨sh, -, rfl⟩ := mem_map.mp hsh'
    exact held_swapWriter _ _

theorem total_owed_swapWriter (wt : MetricRow V → ℕ) (config : BlockConfig)
    (shards : List (Shard V)) :
    total (owed wt) (shards.map (swapWriter config)) = total (owed wt) shards := by
  rw [total_map]
  exact total_congr fun sh _ => owed_swapWriter _ _

theorem total_takenWriters (wt : MetricRow V → ℕ) (s : State V) :
    total wt (s.takenWriters.flatMap BlockWriter.content) = total (held wt) s.shards := by
  unfold takenWriters
  rw [total_flatMap]
  induction s.shards with
  | nil => rfl
  | cons sh l ih =>
    rw [map_cons, total_cons, ← ih]
    by_cases h : sh.writer.isEmpty = true
    · rw [filter_cons_of_neg (by simp [h]), held, content_of_isEmpty h]
      simp
    · rw [filter_cons_of_pos (by simp [h]), total_cons, held]

theorem NoLossInv.callers (h : NoLossInv s) (cs : List (Caller V)) :
    NoLossInv { s with callers := cs } :=
  h.of_push (.of_locks rfl rfl rfl fun sh' h q' hq' => ⟨sh', h, q', hq', rfl⟩) rfl rfl rfl h.all

theorem NoLossInv.flushLocked (h : NoLossInv s) (hu : s.unlocked = true) :
    NoLossInv s.flushLocked := by
  have hf : Frame s s.flushLocked := flushLocked_frame s.flushLocked.callers
  unfold State.flushLocked at hf ⊢
  split_ifs at hf ⊢ with htaken
  · exact h
  have hlock : ∀ sh ∈ s.shards.map (swapWriter s.config), ∀ q ∈ sh.lock, False := by
    intro sh' hsh' q hq
    obtain ⟨sh, hsh, rfl⟩ := mem_map.mp hsh'
    rw [swapWriter_lock, lock_of_unlocked hu hsh] at hq
    cases hq
  have htracks :
      s.order.wal.Tracks (Written (s.jobs ++ [⟨s.wal.map fun _ => (s.walCursor, s.walEnd),
      s.order.begin.1, s.sealedEpochs, s.takenWriters, s.walEnd, .queued⟩])) := by
    refine h.tracks.mono fun k v hv => ?_
    obtain ⟨job, hjob, hw, rfl⟩ := hv
    exact ⟨job, getElem?_append_of hjob _, hw, rfl⟩
  refine
    { wal := h.wal
      seq := ?_
      next := ?_
      below := ?_
      tracks := htracks
      released := ?_
      commit := h.commit.frame hf
      all := ?_
      upTo := ?_ }
  · exact forall_getElem?_concat h.seq h.next
  · simp only [FlushOrder.begin, h.next, length_append, length_singleton]
  · exact forall_mem_concat (fun job hjob => (h.below job hjob).frame hf)
      ⟨le_rfl, fun sh hsh q hq => (hlock sh hsh q hq).elim⟩
  · exact forall_mem_concat (fun job hjob p hp => (h.released job hjob p hp).frame hf) nofun
  · intro wt
    have h1 := h.all wt
    have h2 := total_takenWriters wt s
    simp only [total_held_swapWriter, total_owed_swapWriter, total_append, total_cons, total_nil,
      unwritten, isWritten,
      FlushJob.rows, Bool.false_eq_true, if_false]
    omega
  · refine forall_getElem?_concat (fun k job hjob wt => ?_) fun wt => ?_
    · rw [take_append_of_le_length (List.getElem?_eq_some_iff.mp hjob).1]
      exact h.upTo k job hjob wt
    · -- everything acknowledged so far is in files, in earlier jobs or in the writers taken now
      have h1 := h.all wt
      have h2 := total_takenWriters wt s
      have h3 := ackedTotal_le wt s.walEnd s.acked
      rw [take_of_length_le (by simp)]
      simp only [total_append, total_cons, total_nil, unwritten, isWritten,
        FlushJob.rows, Bool.false_eq_true, if_false]
      omega

/-! ## Steps -/

variable {i : ℕ}

section
variable (h : NoLossInv s)
include h

theorem NoLossInv.of_lock (hf : Frame s s') {sh sh' : Shard V}
    (hsh : s.shards[i]? = some sh) (hshards : s'.shards = s.shards.set i sh')
    (hwriter : sh'.writer = sh.writer) (howed : ∀ wt, owed wt sh' = owed wt sh)
    (hjobs : s'.jobs = s.jobs) (horder : s'.order = s.order)
    (hcommit : s'.dir.commit = s.dir.commit) (hacked : s'.acked = s.acked) : NoLossInv s' := by
  refine h.of_push hf hjobs horder hcommit fun wt => ?_
  have h1 := h.all wt
  have h2 := total_set (w := owed wt) sh' hsh
  have h3 := total_set (w := held wt) sh' hsh
  have h4 : held wt sh' = held wt sh := by rw [held, held, hwriter]
  have h5 := hf.files wt
  have h6 := howed wt
  rw [hshards, hacked]
  omega

theorem NoLossInv.append {j : ℕ} {io : AppendIo}
    (hok : appendFits env s (.append j io)) (hs : s.append env j io = some s') :
    NoLossInv s' := by
  have hf := append_frame h.wal hok hs
  obtain ⟨c, sh, -, -, hsh, hlock, rfl⟩ := append_cases hs
  obtain ⟨w, hwal⟩ := isSome_iff_exists.mp h.wal
  refine h.of_lock hf hsh rfl rfl (fun wt => ?_) rfl rfl ?_ rfl
  · unfold owed
    rw [hlock]
    cases (s.logMetric env c.metric io).1 <;> rfl
  · simp [logMetric, hwal]

theorem NoLossInv.write {ios : ℕ → BlockIo} (hf : Frame s s')
    (hs : s.write i ios = some s') : NoLossInv s' := by
  obtain ⟨w, m, pos, hsh, rfl⟩ := write_cases hs
  refine h.of_push hf rfl rfl rfl fun wt => ?_
  have h1 := h.all wt
  have h2 := total_set (w := owed wt) ⟨(w.push m ios).writer,
    (w.push m ios).result.toOption.map fun bs => ⟨m, pos, .written bs⟩⟩ hsh
  have h3 := total_set (w := held wt) ⟨(w.push m ios).writer,
    (w.push m ios).result.toOption.map fun bs => ⟨m, pos, .written bs⟩⟩ hsh
  simp only [blockTotal_append, held] at h3 ⊢
  cases hr : (w.push m ios).result with
  | error err =>
    have h4 := BlockWriter.push_kept w m ios wt
    simp only [hr, Except.toOption, map_none, owed] at h2 h3 ⊢
    omega
  | ok bs =>
    have h4 := BlockWriter.push_exact hr wt
    simp only [hr, Except.toOption, map_some, owed] at h2 h3 ⊢
    omega

theorem NoLossInv.finish (hf : Frame s s') (hs : s.finish i = some s') : NoLossInv s' := by
  obtain ⟨w, m, pos, closed, hsh, rfl⟩ := finish_cases hs
  refine h.of_push hf rfl rfl rfl fun wt => ?_
  have h1 := h.all wt
  have h2 := total_set (w := owed wt) ⟨w, none⟩ hsh
  have h3 := total_set (w := held wt) ⟨w, none⟩ hsh
  simp only [owed, held, total_append, total_cons, total_nil] at h2 h3 ⊢
  omega

theorem NoLossInv.encode {io : BlockIo} (hf : Frame s s')
    (hs : s.encode k io = some s') : NoLossInv s' := by
  obtain ⟨job, hjob, hq, ⟨b, file, hm, rfl⟩ | ⟨err, file, hm, rfl⟩⟩ := encode_cases hs
  · obtain ⟨rfl, -, hrows⟩ := mergeAndFlush_ok hm
    refine h.of_job hf hjob rfl rfl rfl rfl (fun wt => ?_)
      (h.tracks.mono fun n v => Written.set hjob fun _ => sentPhase_isWritten s)
      (fun p hp => ?_) h.commit
    · rw [unwritten_phase job s.sentPhase, sentPhase_isWritten, if_pos rfl, blockTotal_append,
        toList_some, blockTotal_singleton, hrows]
      simp [unwritten, hq, isWritten]
    · unfold sentPhase at hp
      split_ifs at hp
  · refine h.of_job hf hjob rfl rfl rfl rfl (fun wt => ?_)
      (h.tracks.mono fun n v => Written.set hjob fun hw => ?_) nofun h.commit
    · rw [unwritten_phase job .failed, unwritten, hq, blockTotal_append]
      simp only [isWritten, Bool.false_eq_true, if_false]
      omega
    · rw [hq] at hw
      cases hw

theorem NoLossInv.phase {job : FlushJob V} {ph : JobPhase} (hf : Frame s s')
    (hjob : s.jobs[k]? = some job) (hjobs : s'.jobs = s.jobs.set k { job with phase := ph })
    (hw : ph.isWritten = job.phase.isWritten) (hshards : s'.shards = s.shards)
    (hacked : s'.acked = s.acked) (hnext : s'.order.nextSeq = s.order.nextSeq)
    (hfrontier : s'.order.wal = s.order.wal) (hph : ∀ p, ph ≠ .acknowledged (some p))
    (hcommit : Safe s s'.dir.commit) :
    NoLossInv s' := by
  refine h.of_job hf hjob hjobs hshards hacked hnext (fun wt => ?_) ?_
    (fun p hp => absurd hp (hph p)) hcommit
  · have := hf.files wt
    rw [unwritten_phase job ph, hw, ← unwritten]
    omega
  · rw [hfrontier, hjobs]
    exact h.tracks.mono fun n v => Written.set hjob fun h => hw.trans h

theorem NoLossInv.ack (hf : Frame s s') (hs : s.ack k = some s') : NoLossInv s' := by
  obtain ⟨job, hjob, hpub, rfl⟩ := ack_cases hs
  have hw : job.phase.isWritten = true := by rw [hpub]; rfl
  have hD : Written s.jobs job.seq job.covered :=
    ⟨job, (h.seq k job hjob).symm ▸ hjob, hw, rfl⟩
  have ht : (s.order.walComplete job.seq job.covered).2.wal.Tracks (Written s.jobs) :=
    h.tracks.complete hD
  refine h.of_job hf hjob rfl rfl rfl rfl (fun wt => ?_)
    (ht.mono fun n v => Written.set hjob fun _ => rfl) (fun p hp => ?_) h.commit
  · rw [unwritten_eq_zero hw]
    exact Nat.le_add_right _ _
  · -- what is released belongs to a prefix of written jobs
    refine Frontier.complete_released (fun a b ha hb => Safe.max ha hb) h.tracks hD
      (fun j w _ hj hDw => h.safe_of_frontier ht hj hDw) p ?_
    exact acknowledged.inj hp

theorem NoLossInv.commit_step {ok : Bool} (hf : Frame s s')
    (hs : s.commit k ok = some s') : NoLossInv s' := by
  obtain ⟨job, releasable, hjob, hph, rfl⟩ := commit_cases hs
  refine h.phase hf hjob rfl (by rw [hph]; rfl) rfl rfl rfl rfl nofun ?_
  cases releasable with
  | none => exact h.commit
  | some p =>
    rcases WalDir.advance_commit s.dir p ok with hc | hc
    · simp only [elim_some, hc]; exact h.commit
    · simp only [elim_some, hc]
      exact h.released job (mem_of_getElem? hjob) p hph

/-- **Step lemma.** Every step within the range of positions keeps the ledger. -/
theorem NoLossInv.step (hok : appendFits env s e) (hs : step env s e = some s') : NoLossInv s' := by
  have hf := step_frame h.wal hok hs
  cases e with
  | enter m => cases hs; exact h.callers _
  | capacityFlush j =>
    obtain ⟨cs, rfl | ⟨hu, rfl⟩⟩ := capacityFlush_cases hs
    · exact h.callers cs
    · exact (h.flushLocked hu).callers cs
  | abandon j => obtain rfl := abandon_cases hs; exact h.callers _
  | append j io => exact h.append hok hs
  | feed i =>
    obtain ⟨w, m, pos, hsh, rfl⟩ := feed_cases hs
    exact h.of_lock hf hsh rfl rfl (fun _ => rfl) rfl rfl rfl rfl
  | write i ios => exact h.write hf hs
  | finish i => exact h.finish hf hs
  | flush =>
    obtain ⟨hu, rfl⟩ := flush_cases hs
    exact h.flushLocked hu
  | encode k io => exact h.encode hf hs
  | ack k => exact h.ack hf hs
  | giveUp k =>
    obtain ⟨job, hjob, hph, rfl⟩ := giveUp_cases hs
    exact h.phase hf hjob rfl (by rw [hph]; rfl) rfl rfl rfl rfl nofun h.commit
  | commit k ok => exact h.commit_step hf hs
  | release k =>
    obtain ⟨job, sealed, hjob, -, rfl⟩ := release_cases hs
    exact h.phase hf hjob rfl rfl rfl rfl rfl rfl nofun h.commit
  | drop k =>
    obtain ⟨job, written, released, hjob, hph, rfl⟩ := drop_cases hs
    exact h.phase hf hjob rfl (by rw [hph]; rfl) rfl rfl rfl rfl nofun h.commit

end

theorem noLossInv_boot (config : BlockConfig) (n : ℕ) (w : WalWriter) (dir : WalDir (Metric V))
    (buffer : Option (Buffer.MemoryBuffer V)) (files : List (MetricBlock V))
    (hc : dir.commit ≤ w.position) :
    NoLossInv (boot config n (some w) dir buffer files) where
  wal := rfl
  seq := nofun
  next := rfl
  below := nofun
  tracks := Frontier.tracks_empty
  released := nofun
  commit := by
    refine ⟨⟨hc, fun sh hsh q hq => ?_⟩, fun wt => Nat.zero_le _⟩
    obtain ⟨-, rfl⟩ := mem_replicate.mp hsh
    cases hq
  all wt := by
    have hz : total (owed wt) (boot config n (some w) dir buffer files).shards = 0 :=
      total_eq_zero fun sh hsh => by obtain ⟨-, rfl⟩ := mem_replicate.mp hsh; rfl
    rw [hz]
    exact Nat.zero_le _
  upTo := nofun

theorem NoLossInv.noLoss (h : NoLossInv s) : s.NoLoss :=
  subperm_of_total_le fun wt => by
    rw [total_ackedUpTo, total_fileRows]
    exact h.commit.covered wt

/-- **No committed metric is lost.** In every run whose appends keep positions within range, every
row of a push that returned `Ok` at or below the commit point is in a block file. -/
theorem rotator_no_loss (env : Env V) (config : BlockConfig) (shards : ℕ)
    (log : OpenedWal (Metric V)) (buffer : Option (Buffer.MemoryBuffer V))
    (files : List (MetricBlock V)) (s : State V)
    (h : Run (Ingest.step env) (appendFits env)
      (boot config shards (some log.writer) log.dir buffer files) s) : s.NoLoss :=
  (h.inv (noLossInv_boot config shards log.writer log.dir buffer files log.commit_le)
    fun _ _ _ hi hok hs => hi.step hok hs).noLoss

namespace Sample

/-- Segment 1 has grown to 61 bytes below `2^32`; its size limit of `2^33` lets it grow on. -/
def longSegment : OpenedWal (Metric Unit) :=
  ⟨⟨1, 2 ^ 32 - 61, 2 ^ 33, none⟩, ⟨2 ^ 33 - 60, []⟩, by decide⟩

def bootLong : State Unit :=
  boot (config 10) 1 (some longSegment.writer) longSegment.dir none []

def firstFlush : List (Event Unit) :=
  push (metric "a" [1]) (fun _ => .fine) ++ [.flush] ++ complete 0

end Sample

open Sample in
/-- The guard is met by a run that commits a record: `a` is acknowledged below the commit point. -/
theorem rotator_no_loss_first_flush :
    ∃ s : State Unit, s.ackedUpTo s.dir.commit = [row "a" 1] ∧ s.NoLoss := by
  obtain ⟨s, hrun, hs⟩ := exists_run (Ingest.step oneShard) (appendFits oneShard) bootLong
    (fun s => s.ackedUpTo s.dir.commit = [row "a" 1]) firstFlush (by decide)
  exact ⟨s, hs, rotator_no_loss oneShard _ _ longSegment _ _ s hrun⟩

open Sample in
/-- **The next record wraps.** It ends beyond `2^32` bytes, so the carry meets the segment bit and
its position falls back to the start of segment 1: below the commit point, and in no file. -/
theorem rotator_loses_wrapped_record :
    ∃ s : State Unit, Reach (Ingest.step oneShard) bootLong s ∧ ¬ s.NoLoss := by
  obtain ⟨s, hrun, hacked, hfile⟩ := exists_run (Ingest.step oneShard) (fun _ _ => True) bootLong
    (fun s => row "b" 2 ∈ s.ackedUpTo s.dir.commit ∧ row "b" 2 ∉ s.fileRows)
    (firstFlush ++ push (metric "b" [2]) fun _ => .fine) (by decide)
  exact ⟨s, hrun, fun hloss => hfile (hloss.subset hacked)⟩

end Parqtel.Ingest
