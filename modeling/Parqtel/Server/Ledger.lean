import Parqtel.Server.Move

/-!
# The rows of a process

Two accounts of a process whose metrics fit. `Ledger`: the rows of the pushes are in the jobs and
in the writers, once each, and a job together with the jobs before it holds exactly what was
acknowledged up to the position it covers. `Spans`: the spans of the jobs follow each other
without a gap, from the start of the log on.
-/

namespace Parqtel.Server

open Parqtel.Lib Parqtel.Wal Parqtel.Ingest List Ingest.State FlushJob

variable {V : Type*} {r r' : Ingest.State V} {wt : MetricRow V → ℕ} {ins lost : List (Metric V)}
  {new : List (ℕ × Metric V)}

/-! ## Rows -/

def jobRows (wt : MetricRow V → ℕ) (jobs : List (FlushJob V)) : ℕ :=
  total (fun job => total wt job.rows) jobs

structure Ledger (r : Ingest.State V) : Prop where
  all : ∀ wt, total (fun a => total wt a.2.rows) r.acked + total (owed wt) r.shards =
    jobRows wt r.jobs + total (held wt) r.shards
  upTo : ∀ (k : ℕ) (job : FlushJob V), r.jobs[k]? = some job → ∀ wt,
    ackedTotal wt job.covered r.acked = jobRows wt (r.jobs.take (k + 1))

variable {k : ℕ} {job : FlushJob V}

theorem jobRows_set (wt : MetricRow V → ℕ) {jobs : List (FlushJob V)} (ph : JobPhase)
    (h : jobs[k]? = some job) (n : ℕ) :
    jobRows wt ((jobs.set k { job with phase := ph }).take n) = jobRows wt (jobs.take n) := by
  rw [jobRows, jobRows, total, total, map_take, map_take, map_set_eq _ h (by rfl)]

theorem owed_of_unlocked (wt : MetricRow V → ℕ) (h : r.unlocked = true) :
    total (owed wt) r.shards = 0 :=
  total_eq_zero fun sh hsh => by
    rw [owed, lock_of_unlocked h hsh]

theorem Ledger.of_shard (h : Ledger r) (acked : List (ℕ × Metric V)) {i : ℕ} {sh sh' : Shard V}
    (hsh : r.shards[i]? = some sh) (hacked : ∀ a ∈ acked, ∀ job ∈ r.jobs, job.covered < a.1)
    (hall : ∀ wt, total (fun a => total wt a.2.rows) acked + owed wt sh' + held wt sh =
      owed wt sh + held wt sh')
    (ha : r'.acked = r.acked ++ acked) (hs : r'.shards = r.shards.set i sh')
    (hj : r'.jobs = r.jobs) : Ledger r' where
  all wt := by
    have h1 := h.all wt
    have h2 := hall wt
    have h3 := total_set (w := owed wt) sh' hsh
    have h4 := total_set (w := held wt) sh' hsh
    rw [ha, hs, hj, total_append]
    omega
  upTo k job hjob wt := by
    rw [hj] at hjob ⊢
    have hz : ackedTotal wt job.covered acked = 0 := total_eq_zero fun a ha => by
      have := hacked a ha job (mem_of_getElem? hjob)
      exact if_neg (by omega)
    rw [ha, ← h.upTo k job hjob wt, ackedTotal, total_append, ← ackedTotal, ← ackedTotal, hz]
    rfl

theorem Ledger.of_jobs (h : Ledger r) {ph : JobPhase} (hjob : r.jobs[k]? = some job)
    (ha : r'.acked = r.acked) (hs : r'.shards = r.shards)
    (hj : r'.jobs = r.jobs.set k { job with phase := ph }) : Ledger r' where
  all wt := by
    rw [ha, hs, hj, jobRows, total_set_eq hjob (by rfl)]
    exact h.all wt
  upTo := by
    rw [ha, hj]
    simp only [jobRows_set _ ph hjob]
    exact forall_getElem?_set h.upTo (h.upTo k job hjob)

theorem Ledger.flushed (h : Ledger r) {w : WalWriter} {cs : List (Caller V)}
    (hpos : ∀ a ∈ r.acked, a.1 ≤ r.walEnd) (hwal : r.wal = some w) (hu : r.unlocked = true) :
    Ledger (flushedState r w cs) := by
  have hend : r.walEnd = w.position := walEnd_of_wal hwal
  refine ⟨fun wt => ?_, forall_getElem?_concat (fun k job hjob wt => ?_) fun wt => ?_⟩
  · have h1 := h.all wt
    have h2 := total_takenWriters wt r
    simp only [flushedState, total_held_swapWriter, total_owed_swapWriter, jobRows, total_append,
      total_cons, total_nil,
      rows] at h1 ⊢
    omega
  · simp only [flushedState]
    rw [take_append_of_le_length (List.getElem?_eq_some_iff.mp hjob).1]
    exact h.upTo k job hjob wt
  · -- all that was acknowledged is in earlier jobs and in the writers taken now
    have h1 := h.all wt
    have h2 := total_takenWriters wt r
    have h3 := owed_of_unlocked wt hu
    have h4 : ackedTotal wt w.position r.acked = total (fun a => total wt a.2.rows) r.acked :=
      total_congr fun a ha => if_pos (hend ▸ hpos a ha)
    simp only [flushedState]
    rw [take_of_length_le (by simp)]
    simp only [jobRows, total_append, total_cons, total_nil, rows] at h1 ⊢
    omega

theorem Ledger.move (h : Ledger r) (hb : ∀ job ∈ r.jobs, Below r job.covered)
    (hpos : ∀ a ∈ r.acked, a.1 ≤ r.walEnd) (hm : Move r ins lost new r') : Ledger r' := by
  cases hm with
  | callers | refused | died => exact ⟨h.all, h.upTo⟩
  | logged m p cs w sh hcs hlt hle hsh hlock =>
    refine h.of_shard [] hsh nofun (fun wt => ?_) (append_nil _).symm rfl rfl
    simp only [owed, held, hlock, total_nil]
  | fed w m p hsh =>
    refine h.of_shard [] hsh nofun (fun wt => ?_) (append_nil _).symm rfl rfl
    simp only [owed, held, total_nil]
  | wrote w w' m p hsh hw =>
    refine h.of_shard [] hsh nofun (fun wt => ?_) (append_nil _).symm rfl rfl
    simp only [owed, held, hw, total_append, total_nil]
    omega
  | finished w m p hsh =>
    refine h.of_shard _ hsh (fun a ha job hjob => ?_) (fun wt => ?_) rfl rfl rfl
    · rw [mem_singleton.mp ha]
      exact (hb job hjob).lt_lock _ (mem_of_getElem? hsh) _ rfl
    · simp only [owed, held, total_cons, total_nil]
      omega
  | flushed w cs hcs hwal hu htaken => exact h.flushed hpos hwal hu
  | encoded hjob => exact h.of_jobs hjob rfl rfl rfl
  | phase hjob => exact h.of_jobs hjob rfl rfl rfl

/-! ## Spans -/

def coveredBefore (jobs : List (FlushJob V)) (k : ℕ) : ℕ :=
  ((jobs.map covered).take k).getLast?.getD start

/-- The process logs above `base`, the end of the log that it opened. -/
structure Spans (base : ℕ) (r : Ingest.State V) : Prop where
  chain : ∀ (k : ℕ) (job : FlushJob V), r.jobs[k]? = some job →
    job.walRange = some (coveredBefore r.jobs k, job.covered)
  cursor : r.walCursor = coveredBefore r.jobs r.jobs.length
  mono : (r.jobs.map covered).Pairwise (· < ·)
  jobs : ∀ job ∈ r.jobs, base < job.covered
  acked : ∀ a ∈ r.acked, base < a.1 ∧ a.1 ≤ r.walEnd
  locks : ∀ sh ∈ r.shards, ∀ q ∈ sh.lock, base < q.pos ∧ q.pos ≤ r.walEnd
  le_end : base ≤ r.walEnd

variable {base : ℕ}

theorem coveredBefore_append (jobs : List (FlushJob V)) (job : FlushJob V) (h : k ≤ jobs.length) :
    coveredBefore (jobs ++ [job]) k = coveredBefore jobs k := by
  rw [coveredBefore, coveredBefore, map_append, take_append_of_le_length (by rwa [length_map])]

theorem Spans.of_end (h : Spans base r) (hj : r'.jobs = r.jobs) (hc : r'.walCursor = r.walCursor)
    (he : r.walEnd ≤ r'.walEnd) (ha : ∀ a ∈ r'.acked, base < a.1 ∧ a.1 ≤ r'.walEnd)
    (hl : ∀ sh ∈ r'.shards, ∀ q ∈ sh.lock, base < q.pos ∧ q.pos ≤ r'.walEnd) : Spans base r' where
  chain := by rw [hj]; exact h.chain
  cursor := by rw [hc, hj]; exact h.cursor
  mono := by rw [hj]; exact h.mono
  jobs := by rw [hj]; exact h.jobs
  acked := ha
  locks := hl
  le_end := h.le_end.trans he

theorem Spans.of_jobs (h : Spans base r) {ph : JobPhase} (hjob : r.jobs[k]? = some job)
    (hj : r'.jobs = r.jobs.set k { job with phase := ph }) (hc : r'.walCursor = r.walCursor)
    (hw : r'.wal = r.wal) (ha : r'.acked = r.acked) (hs : r'.shards = r.shards) :
    Spans base r' where
  chain := by
    rw [hj]
    simp only [coveredBefore, covered_set hjob]
    exact forall_getElem?_set h.chain (h.chain k job hjob)
  cursor := by rw [hc, hj, coveredBefore, covered_set hjob, length_set]; exact h.cursor
  mono := by rw [hj, covered_set hjob]; exact h.mono
  jobs := hj ▸ forall_mem_set h.jobs (h.jobs job (mem_of_getElem? hjob))
  acked := by rw [walEnd, hw, ha]; exact h.acked
  locks := by rw [walEnd, hw, hs]; exact h.locks
  le_end := by rw [walEnd, hw]; exact h.le_end

theorem Ledger.exceeds (h : Ledger r) (hu : r.unlocked = true) (htaken : r.takenWriters ≠ []) :
    jobRows (fun _ => 1) r.jobs < total (fun a => total (fun _ => 1) a.2.rows) r.acked := by
  have h1 := h.all fun _ => 1
  have h2 := owed_of_unlocked (fun _ => 1) hu
  have h3 := total_takenWriters (fun _ => 1) r
  obtain ⟨w, hw⟩ := exists_mem_of_ne_nil _ htaken
  have hne : w.content ≠ [] := fun hnil => by
    have hrows : w.rows = 0 := by rw [← w.length_content, hnil]; rfl
    have := (mem_filter.mp hw).2
    simp [BlockWriter.isEmpty, hrows] at this
  obtain ⟨x, hx⟩ := exists_mem_of_ne_nil _ hne
  have h4 : 1 ≤ total (fun _ => 1) (r.takenWriters.flatMap BlockWriter.content) :=
    weight_le_total (w := fun _ => 1) (mem_flatMap.mpr ⟨w, hw, hx⟩)
  omega

theorem Spans.lt_end (h : Spans base r) (hl : Ledger r) (hu : r.unlocked = true)
    (htaken : r.takenWriters ≠ []) : base < r.walEnd ∧ ∀ job ∈ r.jobs, job.covered < r.walEnd := by
  have hex := hl.exceeds hu htaken
  refine ⟨?_, fun job hjob => ?_⟩
  · obtain ⟨a, ha, -⟩ := exists_of_total_pos (Nat.zero_lt_of_lt hex)
    exact (h.acked a ha).1.trans_le (h.acked a ha).2
  · obtain ⟨k, hk⟩ := mem_iff_getElem?.mp hjob
    by_contra hnot
    have h1 := hl.upTo k job hk fun _ => 1
    have h2 := total_take_le (fun job : FlushJob V => total (fun _ => 1) job.rows) r.jobs (k + 1)
    have h3 : ackedTotal (fun _ => 1) job.covered r.acked =
        total (fun a => total (fun _ => 1) a.2.rows) r.acked :=
      total_congr fun a ha => if_pos ((h.acked a ha).2.trans (Nat.not_lt.mp hnot))
    rw [jobRows] at h1 hex
    omega

theorem Spans.flushed (h : Spans base r) (hl : Ledger r) {w : WalWriter} {cs : List (Caller V)}
    (hwal : r.wal = some w) (hu : r.unlocked = true) (htaken : r.takenWriters ≠ []) :
    Spans base (flushedState r w cs) := by
  obtain ⟨hbase, hlt⟩ := h.lt_end hl hu htaken
  have hend : r.walEnd = w.position := walEnd_of_wal hwal
  rw [hend] at hbase hlt
  refine
    { chain := forall_getElem?_concat (fun k job hjob => ?_) ?_
      cursor := ?_
      mono := ?_
      jobs := forall_mem_concat h.jobs hbase
      acked := h.acked
      locks := fun sh' hsh' q hq => ?_
      le_end := h.le_end }
  · rw [flushedState, coveredBefore_append _ _ (List.getElem?_eq_some_iff.mp hjob).1.le]
    exact h.chain k job hjob
  · rw [flushedState, coveredBefore_append _ _ le_rfl, ← h.cursor]
  · simp only [flushedState, coveredBefore, map_append, map_cons, map_nil]
    rw [take_of_length_le (by simp), getLast?_concat]
    rfl
  · simp only [flushedState, map_append, map_cons, map_nil]
    refine pairwise_append.mpr ⟨h.mono, pairwise_singleton _ _, fun a ha b hb => ?_⟩
    obtain ⟨job, hjob, rfl⟩ := mem_map.mp ha
    rw [mem_singleton.mp hb]
    exact hlt job hjob
  · obtain ⟨sh, hsh, rfl⟩ := mem_map.mp hsh'
    exact h.locks sh hsh q (swapWriter_lock r.config sh ▸ hq)

theorem Spans.move (h : Spans base r) (hl : Ledger r) (hm : Move r ins lost new r') :
    Spans base r' := by
  cases hm with
  | callers => exact h.of_end rfl rfl le_rfl h.acked h.locks
  | refused m cs w hcs hw =>
    have hend : ({ r with callers := cs, wal := some w } : Ingest.State V).walEnd = r.walEnd := hw
    exact h.of_end rfl rfl hend.ge (hend ▸ h.acked) (hend ▸ h.locks)
  | died m p cs w hcs hlt hle =>
    have hend : r.walEnd ≤ w.position := (hlt.trans_le hle).le
    exact h.of_end rfl rfl hend (fun a ha => (h.acked a ha).imp_right fun hp => hp.trans hend)
      fun sh hsh q hq => (h.locks sh hsh q hq).imp_right fun hp => hp.trans hend
  | logged m p cs w sh hcs hlt hle hsh hlock =>
    have hend : r.walEnd ≤ w.position := (hlt.trans_le hle).le
    refine h.of_end rfl rfl hend (fun a ha => (h.acked a ha).imp_right fun hp => hp.trans hend)
      (forall_mem_set (fun sh hsh q hq => (h.locks sh hsh q hq).imp_right fun hp => hp.trans hend)
        fun q hq => ?_)
    cases hq
    exact ⟨h.le_end.trans_lt hlt, hle⟩
  | fed w m p hsh | wrote w w' m p hsh =>
    refine h.of_end rfl rfl le_rfl h.acked (forall_mem_set h.locks fun q hq => ?_)
    cases hq
    have hold := h.locks _ (mem_of_getElem? hsh) _ rfl
    exact hold
  | finished w m p hsh =>
    exact h.of_end rfl rfl le_rfl
      (forall_mem_concat h.acked (h.locks _ (mem_of_getElem? hsh) _ rfl))
      (forall_mem_set h.locks nofun)
  | flushed w cs hcs hwal hu htaken => exact h.flushed hl hwal hu htaken
  | encoded hjob => exact h.of_jobs hjob rfl rfl rfl rfl rfl
  | phase hjob => exact h.of_jobs hjob rfl rfl rfl rfl rfl

end Parqtel.Server
