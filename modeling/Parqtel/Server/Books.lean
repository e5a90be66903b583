import Parqtel.Ingest.Logged
import Parqtel.Server.Ledger

/-!
# The books of a process

What a process leaves on disk, against what it found there. `Filing`: the block files are those it
found and one for every job that is filed. `LogAccount`: above everything that was committed, the
log holds what the process found there and one record for every push that logged its metric.
`Books` has all accounts together and `Books.step` keeps them.
-/

namespace Parqtel.Server

open Parqtel.Lib Parqtel.Wal Parqtel.Ingest List

variable {V : Type*} {env : Env V} {r r' : Ingest.State V} {e : Ingest.Event V}
  {ins lost : List (Metric V)} {dead new : List (ℕ × Metric V)}

/-! ## Block files -/

/-- What a process found when it started to replay: metrics whose rows the block files hold, the
spans of the files, the log, its commit point and its end. No span leads beyond the commit point. -/
structure Found (V : Type*) where
  kept : List (Metric V)
  ranges : List WalRange
  log : List (WalRecord (Metric V))
  commit : ℕ
  walEnd : ℕ
  ranges_le : ∀ rng ∈ ranges, rng.2 ≤ walEnd
  stuck : ∀ rng ∈ ranges, rng.1 ≤ commit → rng.2 ≤ commit
  log_le : ∀ x ∈ log, x.pos ≤ walEnd
  commit_le : commit ≤ walEnd

/-- A block file with the job's span is on disk. -/
def Filed (files : List (MetricBlock V)) (job : FlushJob V) : Prop :=
  ∃ rng ∈ job.walRange, rng ∈ walRanges files

instance (files : List (MetricBlock V)) (job : FlushJob V) : Decidable (Filed files job) :=
  inferInstanceAs (Decidable (∃ rng ∈ job.walRange, rng ∈ walRanges files))

def filedRows (wt : MetricRow V → ℕ) (files : List (MetricBlock V)) (job : FlushJob V) : ℕ :=
  if Filed files job then total wt job.rows else 0

structure Filing (f : Found V) (r : Ingest.State V) : Prop where
  files : ∀ wt, blockTotal wt r.files =
    total (fun m => total wt m.rows) f.kept + total (filedRows wt r.files) r.jobs
  queued : ∀ job ∈ r.jobs, job.phase = .queued → ¬ Filed r.files job
  written : ∀ job ∈ r.jobs, job.phase.isWritten = true → Filed r.files job
  spans : ∀ rng ∈ walRanges r.files, rng ∈ f.ranges ∨ ∃ job ∈ r.jobs, rng ∈ job.walRange

variable {f : Found V} {k : ℕ}

theorem split_getElem? {α : Type*} {l : List α} {a : α} (h : l[k]? = some a) :
    ∃ l₁ l₂, l = l₁ ++ a :: l₂ ∧ ∀ b, l.set k b = l₁ ++ b :: l₂ := by
  obtain ⟨hk, rfl⟩ := List.getElem?_eq_some_iff.mp h
  have hset : ∀ b, l.set k b = l.take k ++ b :: l.drop (k + 1) := fun b => by
    rw [List.set_eq_take_append_cons_drop, if_pos hk]
  exact ⟨l.take k, l.drop (k + 1), (set_getElem_self hk).symm.trans (hset _), hset⟩

variable {job j : FlushJob V} {ph : JobPhase}

theorem walRanges_append (bs : List (MetricBlock V)) (b : MetricBlock V) :
    walRanges (bs ++ [b]) = walRanges bs ++ b.metadata.walRange.toList := by
  rw [walRanges, filterMap_append, ← walRanges]
  cases hb : b.metadata.walRange with
  | none => simp [hb]
  | some rng => simp [hb]

theorem exists_range_set {jobs : List (FlushJob V)} {rng : WalRange} (ph : JobPhase)
    (hjob : jobs[k]? = some job) (h : ∃ j ∈ jobs, rng ∈ j.walRange) :
    ∃ j ∈ jobs.set k { job with phase := ph }, rng ∈ j.walRange := by
  obtain ⟨j, hmem, hr⟩ := h
  rcases mem_set_or hjob { job with phase := ph } hmem with hmem | ⟨rfl, hnew⟩
  · exact ⟨j, hmem, hr⟩
  · exact ⟨_, hnew, hr⟩

theorem Filing.of_phase (h : Filing f r) (hjob : r.jobs[k]? = some job)
    (hj : r'.jobs = r.jobs.set k { job with phase := ph }) (hf : r'.files = r.files)
    (hq : ph ≠ .queued) (hw : ph.isWritten = true → job.phase.isWritten = true) : Filing f r' where
  files wt := by
    rw [hf, hj, h.files wt, total_set_eq hjob (by rfl)]
  queued := by
    rw [hf, hj]
    exact forall_mem_set h.queued fun hphase => absurd hphase hq
  written := by
    rw [hf, hj]
    exact forall_mem_set h.written fun hphase => h.written job (mem_of_getElem? hjob) (hw hphase)
  spans rng hrng := by
    rw [hj]
    exact (h.spans rng (hf ▸ hrng)).imp_right (exists_range_set ph hjob)

theorem Filing.flushed (h : Filing f r) (hs : Spans f.walEnd r) (hl : Ledger r) {w : WalWriter}
    {cs : List (Caller V)} (hwal : r.wal = some w) (hu : r.unlocked = true)
    (htaken : r.takenWriters ≠ []) : Filing f (flushedState r w cs) := by
  obtain ⟨hbase, hlt⟩ := hs.lt_end hl hu htaken
  have hend : r.walEnd = w.position := Ingest.State.walEnd_of_wal hwal
  rw [hend] at hbase hlt
  -- every span on disk ends below the new job's
  have hnot : (r.walCursor, w.position) ∉ walRanges r.files := fun hmem => by
    rcases h.spans _ hmem with hold | ⟨job, hjob, hrng⟩
    · exact absurd (f.ranges_le _ hold) (Nat.not_le.mpr hbase)
    · obtain ⟨k, hk⟩ := mem_iff_getElem?.mp hjob
      rw [hs.chain k job hk, Option.mem_some_iff, Prod.mk.injEq] at hrng
      exact absurd hrng.2 (hlt job hjob).ne
  have hnew : ∀ job : FlushJob V, job.walRange = some (r.walCursor, w.position) →
      ¬ Filed r.files job := by
    rintro job hr ⟨rng, hrng, hmem⟩
    rw [hr] at hrng
    cases hrng
    exact hnot hmem
  refine ⟨fun wt => ?_, forall_mem_concat h.queued fun _ => hnew _ rfl,
    forall_mem_concat h.written nofun, fun rng hrng => ?_⟩
  · simp only [flushedState, total_append, total_cons, total_nil, h.files wt]
    rw [filedRows, if_neg (hnew _ rfl)]
    rfl
  · rcases h.spans rng hrng with hold | ⟨job, hjob, hr⟩
    · exact .inl hold
    · exact .inr ⟨job, mem_append_left _ hjob, hr⟩

theorem filed_append {files : List (MetricBlock V)} {b : MetricBlock V}
    (hb : b.metadata.walRange = job.walRange) (hne : ∀ rng ∈ job.walRange, rng ∉ j.walRange) :
    Filed (files ++ [b]) j ↔ Filed files j := by
  simp only [Filed, walRanges_append, mem_append, Option.mem_toList, hb]
  refine ⟨fun ⟨rng, hr, hmem⟩ => ⟨rng, hr, hmem.resolve_right fun hj => hne rng hj hr⟩,
    fun ⟨rng, hr, hmem⟩ => ⟨rng, hr, .inl hmem⟩⟩

theorem Filing.of_file (h : Filing f r) (hs : Spans f.walEnd r) {b : MetricBlock V}
    (hjob : r.jobs[k]? = some job) (hq : job.phase = .queued)
    (hb : b.metadata.walRange = job.walRange) (hrows : ∀ wt, total wt b.rows = total wt job.rows)
    (hnq : ph ≠ .queued) (hj : r'.jobs = r.jobs.set k { job with phase := ph })
    (hf : r'.files = r.files ++ [b]) :
    Filing f r' := by
  have hrange : ∀ j ∈ r.jobs, ∃ lo, j.walRange = some (lo, j.covered) := fun j hj => by
    obtain ⟨n, hn⟩ := mem_iff_getElem?.mp hj
    exact ⟨_, hs.chain n j hn⟩
  obtain ⟨lo, hlo⟩ := hrange job (mem_of_getElem? hjob)
  have hunfiled := h.queued job (mem_of_getElem? hjob) hq
  obtain ⟨l₁, l₂, hsplit, hset⟩ := split_getElem? hjob
  -- the jobs before and after it cover other positions
  have hne : ∀ j ∈ r.jobs, j.covered ≠ job.covered →
      (Filed (r.files ++ [b]) j ↔ Filed r.files j) := fun j hmem hcov => by
    refine filed_append hb fun rng hrng hr => hcov ?_
    obtain ⟨lo', hlo'⟩ := hrange j hmem
    rw [hlo, Option.mem_some_iff] at hrng
    rw [hlo', Option.mem_some_iff] at hr
    exact congrArg Prod.snd (hr.trans hrng.symm)
  have hmono := hs.mono
  rw [hsplit, map_append, map_cons, pairwise_append, pairwise_cons] at hmono
  have hother : ∀ j ∈ l₁ ++ l₂, j ∈ r.jobs ∧ (Filed (r.files ++ [b]) j ↔ Filed r.files j) := by
    intro j hmem
    rcases mem_append.mp hmem with hmem | hmem
    · have hin : j ∈ r.jobs := by rw [hsplit]; exact mem_append_left _ hmem
      have hlt := hmono.2.2 j.covered (mem_map_of_mem hmem) job.covered mem_cons_self
      exact ⟨hin, hne j hin hlt.ne⟩
    · have hin : j ∈ r.jobs := by
        rw [hsplit]
        exact mem_append_right _ (mem_cons_of_mem _ hmem)
      have hlt := hmono.2.1.1 j.covered (mem_map_of_mem hmem)
      exact ⟨hin, hne j hin hlt.ne'⟩
  have hnow : Filed (r.files ++ [b]) { job with phase := ph } :=
    ⟨(lo, job.covered), hlo, by rw [walRanges_append, hb, hlo]; simp⟩
  have hcases : ∀ j ∈ r'.jobs, j ∈ l₁ ++ l₂ ∨ j = { job with phase := ph } := fun j hmem => by
    rw [hj, hset] at hmem
    rcases mem_append.mp hmem with hmem | hmem
    · exact .inl (mem_append_left _ hmem)
    · exact (mem_cons.mp hmem).symm.imp_left fun hmem => mem_append_right _ hmem
  refine ⟨fun wt => ?_, fun j hmem hphase => ?_, fun j hmem hphase => ?_, fun rng hrng => ?_⟩
  · have hold := h.files wt
    have hcongr : ∀ l : List (FlushJob V), (∀ j ∈ l, j ∈ l₁ ++ l₂) →
        total (filedRows wt (r.files ++ [b])) l = total (filedRows wt r.files) l := fun l hl =>
      total_congr fun j hmem => by
        exact if_congr (hother j (hl j hmem)).2 rfl rfl
    have h1 := hcongr l₁ fun j hmem => mem_append_left _ hmem
    have h2 := hcongr l₂ fun j hmem => mem_append_right _ hmem
    have h3 : filedRows wt (r.files ++ [b]) { job with phase := ph } = total wt job.rows :=
      if_pos hnow
    have h4 : filedRows wt r.files job = 0 := if_neg hunfiled
    rw [hsplit, total_append, total_cons] at hold
    rw [hf, hj, hset, blockTotal_append, blockTotal_singleton, hrows, total_append, total_cons]
    omega
  · rw [hf]
    rcases hcases j hmem with hmem | rfl
    · exact fun hfiled => h.queued j (hother j hmem).1 hphase ((hother j hmem).2.mp hfiled)
    · exact absurd hphase hnq
  · rw [hf]
    rcases hcases j hmem with hmem | rfl
    · exact (hother j hmem).2.mpr (h.written j (hother j hmem).1 hphase)
    · exact hnow
  · rw [hf, walRanges_append, mem_append, Option.mem_toList, hb] at hrng
    rw [hj]
    rcases hrng with hrng | hrng
    · exact (h.spans rng hrng).imp_right (exists_range_set ph hjob)
    · exact .inr (exists_range_set ph hjob ⟨job, mem_of_getElem? hjob, hrng⟩)

theorem Filing.move (h : Filing f r) (hs : Spans f.walEnd r) (hl : Ledger r)
    (hm : Move r ins lost new r') : Filing f r' := by
  cases hm with
  | callers | refused | died | logged | fed | wrote | finished =>
    exact ⟨h.files, h.queued, h.written, h.spans⟩
  | flushed w cs hcs hwal hu htaken => exact h.flushed hs hl hwal hu htaken
  | encoded hjob hq file ph sent hfile hph hnq hna =>
    cases file with
    | none =>
      refine h.of_phase hjob rfl (append_nil _) hnq fun hw => ?_
      cases hph hw
    | some b => exact h.of_file hs hjob hq (hfile b rfl).1 (hfile b rfl).2 hnq rfl rfl
  | phase hjob ph hw hnq => exact h.of_phase hjob rfl rfl hnq fun hp => hw ▸ hp

/-! ## The log -/

def recordWeight (mw : Metric V → ℕ) (x : WalRecord (Metric V)) : ℕ := x.value.elim 0 mw

def loggedAbove (mw : Metric V → ℕ) (p : ℕ) (log : List (WalRecord (Metric V))) : ℕ :=
  total (recordWeight mw) (log.filter fun x => p < x.pos)

def lockedAbove (mw : Metric V → ℕ) (x : ℕ) (sh : Shard V) : ℕ :=
  sh.lock.elim 0 fun q => if x < q.pos then mw q.metric else 0

/-- Weight of the metrics whose record ends above a position. -/
def metricsAbove (mw : Metric V → ℕ) (p : ℕ) (l : List (ℕ × Metric V)) : ℕ :=
  total (fun a => if p < a.1 then mw a.2 else 0) l

/-- A job that has written its block covers `p`. -/
def WrittenAt (r : Ingest.State V) (p : ℕ) : Prop :=
  ∃ job ∈ r.jobs, job.phase.isWritten = true ∧ job.covered = p

/-- `dead` are the pushes that failed after their record was written. -/
structure LogAccount (f : Found V) (dead : List (ℕ × Metric V)) (r : Ingest.State V) : Prop where
  released : ∀ job ∈ r.jobs, ∀ p, job.phase = .acknowledged (some p) → WrittenAt r p
  commit : r.dir.commit = f.commit ∨ WrittenAt r r.dir.commit
  records : ∀ x ∈ r.dir.log, x.segment = segmentOf x.pos ∧ x.pos ≤ r.walEnd
  log : ∀ p, f.commit ≤ p → (∀ c, WrittenAt r c → c ≤ p) → ∀ mw,
    loggedAbove mw p r.dir.log = loggedAbove mw p f.log + metricsAbove mw p (r.acked ++ dead) +
      total (lockedAbove mw p) r.shards

theorem loggedAbove_logRecord (mw : Metric V → ℕ) (x : ℕ) (d : WalDir (Metric V)) (m : Metric V)
    (p : ℕ) : loggedAbove mw x (logRecord d m p).log =
      loggedAbove mw x d.log + if x < p then mw m else 0 := by
  by_cases h : x < p
  · simp [loggedAbove, logRecord, recordWeight, h]
  · simp [loggedAbove, logRecord, h]

variable {p : ℕ}

theorem loggedAbove_advance (mw : Metric V → ℕ) {x : ℕ} {d : WalDir (Metric V)} (ok : Bool)
    (hp : p ≤ x) (hseg : ∀ y ∈ d.log, y.segment = segmentOf y.pos) :
    loggedAbove mw x (d.advance p ok).log = loggedAbove mw x d.log := by
  unfold WalDir.advance
  split_ifs
  · rfl
  · rw [loggedAbove, loggedAbove, WalDir.removeCoveredSegments, filter_filter]
    refine congrArg _ (filter_congr fun y hy => ?_)
    have hle : x < y.pos → segmentOf p ≤ y.segment := fun hlt =>
      hseg y hy ▸ segmentOf_mono (hp.trans hlt.le)
    simpa using hle
  · rfl

theorem mem_of_mem_advance {d : WalDir (Metric V)} {ok : Bool} {x : WalRecord (Metric V)}
    (h : x ∈ (d.advance p ok).log) : x ∈ d.log := by
  unfold WalDir.advance at h
  split_ifs at h
  · exact h
  · exact mem_of_mem_filter h
  · exact h

theorem WrittenAt.set (h : WrittenAt r p) (hjob : r.jobs[k]? = some job)
    (hw : job.phase.isWritten = true → ph.isWritten = true)
    (hj : r'.jobs = r.jobs.set k { job with phase := ph }) : WrittenAt r' p := by
  obtain ⟨j, hmem, hwj, rfl⟩ := h
  rcases mem_set_or hjob { job with phase := ph } hmem with hmem | ⟨rfl, hnew⟩
  · exact ⟨j, hj ▸ hmem, hwj, rfl⟩
  · exact ⟨{ j with phase := ph }, hj ▸ hnew, hw hwj, rfl⟩

section
variable (h : LogAccount f dead r)
include h

theorem LogAccount.of_push (new : List (ℕ × Metric V))
    (hj : r'.jobs = r.jobs) (hc : r'.dir.commit = r.dir.commit)
    (hrec : ∀ x ∈ r'.dir.log, x.segment = segmentOf x.pos ∧ x.pos ≤ r'.walEnd)
    (hlog : ∀ mw p, loggedAbove mw p r'.dir.log + metricsAbove mw p r.acked +
        total (lockedAbove mw p) r.shards =
      loggedAbove mw p r.dir.log + metricsAbove mw p r'.acked + metricsAbove mw p new +
        total (lockedAbove mw p) r'.shards) : LogAccount f (dead ++ new) r' where
  released job hjob p hp := by
    rw [hj] at hjob
    rw [WrittenAt, hj]
    exact h.released job hjob p hp
  commit := by
    rw [WrittenAt, hj, hc]
    exact h.commit
  records := hrec
  log p hp hle mw := by
    have h1 := h.log p hp (fun c hcov => hle c (by rw [WrittenAt, hj]; exact hcov)) mw
    have h2 := hlog mw p
    simp only [metricsAbove, total_append] at h1 h2 ⊢
    omega

theorem LogAccount.of_lock (hj : r'.jobs = r.jobs) (hd : r'.dir = r.dir) (he : r'.walEnd = r.walEnd)
    (hlog : ∀ mw p, metricsAbove mw p r.acked + total (lockedAbove mw p) r.shards =
      metricsAbove mw p r'.acked + total (lockedAbove mw p) r'.shards) :
    LogAccount f dead r' := by
  have := h.of_push [] hj (by rw [hd]) (by rw [hd, he]; exact h.records) (fun mw p => ?_)
  · rwa [append_nil] at this
  · have := hlog mw p
    rw [hd, metricsAbove, metricsAbove, metricsAbove, total_nil]
    rw [metricsAbove, metricsAbove] at this
    omega

theorem LogAccount.of_job (hjob : r.jobs[k]? = some job)
    (hj : r'.jobs = r.jobs.set k { job with phase := ph })
    (hw : job.phase.isWritten = true → ph.isWritten = true)
    (hack : ∀ p, ph = .acknowledged (some p) → WrittenAt r p) (ha : r'.acked = r.acked)
    (hs : r'.shards = r.shards) (he : r'.walEnd = r.walEnd)
    (hd : r'.dir = r.dir ∨ ∃ p ok, WrittenAt r p ∧ r'.dir = r.dir.advance p ok) :
    LogAccount f dead r' := by
  have hset : ∀ {p}, WrittenAt r p → WrittenAt r' p := fun hp => hp.set hjob hw hj
  have hseg : ∀ y ∈ r.dir.log, y.segment = segmentOf y.pos := fun y hy => (h.records y hy).1
  refine ⟨fun j hmem p hp => ?_, ?_, fun x hx => ?_, fun p hp hle mw => ?_⟩
  · rw [hj] at hmem
    rcases mem_or_eq_of_mem_set hmem with hmem | rfl
    · exact hset (h.released j hmem p hp)
    · exact hset (hack p hp)
  · rcases hd with hd | ⟨p, ok, hp, hd⟩
    · rw [hd]
      exact h.commit.imp_right hset
    · rcases r.dir.advance_commit p ok with hc | hc
      · rw [hd, hc]
        exact h.commit.imp_right hset
      · rw [hd, hc]
        exact .inr (hset hp)
  · rw [he]
    rcases hd with hd | ⟨p, ok, hp, hd⟩
    · exact h.records x (hd ▸ hx)
    · exact h.records x (mem_of_mem_advance (hd ▸ hx))
  · rw [ha, hs, ← h.log p hp (fun c hc => hle c (hset hc)) mw]
    rcases hd with hd | ⟨q, ok, hq, hd⟩
    · rw [hd]
    · -- what is committed is at or below `p`, so nothing above it is deleted
      rw [hd]
      exact loggedAbove_advance mw ok (hle q (hset hq)) hseg

theorem LogAccount.flushed (w : WalWriter) (cs : List (Caller V)) :
    LogAccount f dead (flushedState r w cs) := by
  have hsame : ∀ {p}, WrittenAt (flushedState r w cs) p ↔ WrittenAt r p := by
    refine ⟨fun ⟨job, hmem, hw, hcov⟩ => ?_, fun ⟨job, hmem, hw, hcov⟩ =>
      ⟨job, mem_append_left _ hmem, hw, hcov⟩⟩
    rcases mem_append.mp hmem with hmem | hmem
    · exact ⟨job, hmem, hw, hcov⟩
    · rw [mem_singleton.mp hmem] at hw
      cases hw
  have hlocks : ∀ mw p, total (lockedAbove mw p) (flushedState r w cs).shards =
      total (lockedAbove mw p) r.shards := fun mw p => by
    rw [flushedState, total_map]
    exact total_congr fun sh _ => by rw [lockedAbove, lockedAbove, swapWriter_lock]
  refine ⟨forall_mem_concat (fun job hmem p hp => hsame.mpr (h.released job hmem p hp))
    (by rintro _ ⟨⟩),
    h.commit.imp_right hsame.mpr, h.records, fun p hp hle mw => ?_⟩
  rw [hlocks]
  exact h.log p hp (fun c hc => hle c (hsame.mpr hc)) mw

theorem LogAccount.records_logRecord {m : Metric V} {n : ℕ}
    (hlt : r.walEnd < p) (hle : p ≤ n) : ∀ x ∈ (logRecord r.dir m p).log,
      x.segment = segmentOf x.pos ∧ x.pos ≤ n :=
  forall_mem_concat (fun x hx => (h.records x hx).imp_right fun hx => hx.trans (hlt.le.trans hle))
    ⟨rfl, hle⟩

theorem LogAccount.move (hm : Move r ins lost new r') : LogAccount f (dead ++ new) r' := by
  cases hm with
  | callers =>
    rw [append_nil]
    exact ⟨h.released, h.commit, h.records, h.log⟩
  | refused m cs w hcs hw =>
    rw [append_nil]
    exact h.of_lock rfl rfl hw fun _ _ => rfl
  | died m p cs w hcs hlt hle =>
    refine h.of_push _ rfl rfl (h.records_logRecord hlt hle) fun mw x => ?_
    rw [loggedAbove_logRecord]
    simp only [metricsAbove, total_cons, total_nil]
    omega
  | logged m p cs w sh hcs hlt hle hsh hlock =>
    refine h.of_push [] rfl rfl (h.records_logRecord hlt hle) fun mw x => ?_
    have hset := total_set (w := lockedAbove mw x) ⟨sh.writer, some ⟨m, p, .logged⟩⟩ hsh
    rw [loggedAbove_logRecord]
    simp only [lockedAbove, hlock, Option.elim_none, Option.elim_some, metricsAbove, total_nil]
      at hset ⊢
    omega
  | fed w m p hsh | wrote w w' m p hsh =>
    rw [append_nil]
    exact h.of_lock rfl rfl rfl fun mw x => congrArg _ (total_set_eq hsh (by rfl)).symm
  | finished w m p hsh =>
    rw [append_nil]
    refine h.of_lock rfl rfl rfl fun mw x => ?_
    have hset := total_set (w := lockedAbove mw x) ⟨w, none⟩ hsh
    simp only [lockedAbove, Option.elim_none, Option.elim_some, metricsAbove, total_append,
      total_cons, total_nil] at hset ⊢
    omega
  | flushed w cs =>
    rw [append_nil]
    exact h.flushed w cs
  | encoded hjob hq file ph sent hfile hph hnq hna =>
    rw [append_nil]
    refine h.of_job hjob rfl (fun hw => ?_) (fun p hp => absurd hp (hna _)) rfl rfl rfl (.inl rfl)
    rw [hq] at hw
    cases hw
  | phase hjob ph hw hnq hack order buffer d hd =>
    rw [append_nil]
    refine h.of_job hjob rfl (fun hp => hw.trans hp) hack rfl rfl rfl (hd.imp_right ?_)
    rintro ⟨p, ok, hph, rfl⟩
    exact ⟨p, ok, h.released _ (mem_of_getElem? hjob) p hph, rfl⟩

end

/-! ## The books -/

structure Books (f : Found V) (dead : List (ℕ × Metric V)) (r : Ingest.State V) : Prop where
  noLoss : NoLossInv r
  ledger : Ledger r
  spans : Spans f.walEnd r
  filing : Filing f r
  log : LogAccount f dead r

def locked (mw : Metric V → ℕ) (sh : Shard V) : ℕ := sh.lock.elim 0 fun q => mw q.metric

def accounted (mw : Metric V → ℕ) (dead : List (ℕ × Metric V)) (r : Ingest.State V) : ℕ :=
  waiting mw r.callers + total (locked mw) r.shards + total (fun a => mw a.2) (r.acked ++ dead)

theorem Move.accounted_eq (hm : Move r ins lost new r') (mw : Metric V → ℕ)
    (dead : List (ℕ × Metric V)) :
    accounted mw (dead ++ new) r' + total mw lost = accounted mw dead r + total mw ins := by
  cases hm with
  | callers cs hcs =>
    have := hcs mw
    simp only [accounted, append_nil]
    omega
  | refused m cs w hcs hw =>
    have := hcs mw
    simp only [accounted, append_nil, total_cons, total_nil]
    omega
  | died m p cs w hcs =>
    have := hcs mw
    simp only [accounted, total_append, total_cons, total_nil]
    omega
  | logged m p cs w sh hcs hlt hle hsh hlock =>
    have := hcs mw
    have hset := total_set (w := locked mw) ⟨sh.writer, some ⟨m, p, .logged⟩⟩ hsh
    simp only [locked, hlock, Option.elim_none, Option.elim_some] at hset
    simp only [accounted, append_nil, total_nil]
    omega
  | fed w m p hsh | wrote w w' m p hsh =>
    rw [append_nil, accounted, accounted, total_set_eq hsh (by rfl)]
  | finished w m p hsh =>
    have hset := total_set (w := locked mw) ⟨w, none⟩ hsh
    simp only [locked, Option.elim_none, Option.elim_some] at hset
    simp only [accounted, append_nil, total_append, total_cons, total_nil]
    omega
  | flushed w cs hcs =>
    have := hcs mw
    have hlocks : total (locked mw) (r.shards.map (Ingest.State.swapWriter r.config)) =
        total (locked mw) r.shards := by
      rw [total_map]
      exact total_congr fun sh _ => by rw [locked, locked, swapWriter_lock]
    simp only [accounted, flushedState, hlocks, append_nil, total_nil]
    omega
  | encoded | phase => simp only [accounted, append_nil, total_nil]

theorem Books.move (h : Books f dead r) (hm : Move r ins lost new r') (hi : NoLossInv r') :
    Books f (dead ++ new) r' where
  noLoss := hi
  ledger := h.ledger.move h.noLoss.below (fun a ha => (h.spans.acked a ha).2) hm
  spans := h.spans.move h.ledger hm
  filing := h.filing.move h.spans h.ledger hm
  log := h.log.move hm

/-- **Step lemma.** Every step in which the metric fits keeps the books. -/
theorem Books.step (h : Books f dead r) (hok : writesFit env r e)
    (hs : Ingest.step env r e = some r') :
    ∃ lost new, Move r (entered e) lost new r' ∧ Books f (dead ++ new) r' ∧
      (pushGoesOn env r e → lost = [] ∧ new = []) := by
  obtain ⟨lost, new, hm, hgo⟩ := step_move h.noLoss hok hs
  exact ⟨lost, new, hm, h.move hm (h.noLoss.step hok.appendFits hs), hgo⟩

end Parqtel.Server
