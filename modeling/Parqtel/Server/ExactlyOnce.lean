import Parqtel.Server.Books
import Parqtel.Server.SecondCrash

/-!
# Recovery holds every acknowledged metric once

Once a process has recovered, the index's blocks, the open writers and the flush jobs that are
still to be encoded hold the rows of every acknowledged metric, and no metric more often than it
was pushed. What is needed for this is in `exactOk`: a block that a writer closes by itself has no
span, and a block whose predecessor is missing is not reached by the walk over the spans, so the
records of both are replayed although their rows are on disk.

`Leaves` says what a stopped process leaves on disk, `Running` what holds while a process runs.
The step from the one to the other is `Books.walk`: at a crash the walk over the spans ends exactly
where the rows in block files do.
-/

namespace Parqtel.Server

open Parqtel.Lib Parqtel.Wal Parqtel.Ingest List State Parqtel.Metric Ingest.State WalRecord

variable {V : Type*} {env : Env V} {s s' : State V} {e : Event V} {r : Ingest.State V}
  {f : Found V} {dead : List (ℕ × Metric V)}

/-! ## The property -/

def heldRows (r : Ingest.State V) : List (MetricRow V) :=
  r.fileRows ++ r.shards.flatMap (fun sh => sh.writer.content) ++
    (r.jobs.filter fun job => job.phase = .queued).flatMap FlushJob.rows

/-- The rows that are held are those of the acknowledged metrics, and of pushed ones that were not
acknowledged, each as often as it was pushed at most. -/
def State.ExactlyOnce (s : State V) : Prop :=
  ∃ kept, s.acked.Subperm kept ∧ kept.Subperm s.pushed ∧
    (heldRows s.rot).Perm (kept.flatMap rows)

def Recovered (s : State V) : Prop :=
  s.stage = .serving ∨ s.stage = .replaying ∧ s.pending = [] ∧ idle s.rot = true

def NoneFailed (r : Ingest.State V) : Prop :=
  ∀ job ∈ r.jobs, job.phase = .queued ∨ Filed r.files job

def Untouched (s : State V) : Prop :=
  s.stage ≠ .serving ∧ s.rot.acked = [] ∧ s.rot.unlocked = true ∧ s.rot.jobs = []

/-- A job has its block on disk only if the jobs before it have theirs. -/
def FiledInOrder (r : Ingest.State V) : Prop :=
  r.jobs.Pairwise fun a b => Filed r.files b → Filed r.files a

def FirstFiled (r : Ingest.State V) : Prop := ∃ job ∈ r.jobs.head?, Filed r.files job

def exactOk (env : Env V) (s : State V) : Event V → Prop
  | .advance ok => ok = true
  | .rot e => (writesFit env s.rot e ∧ flushes e) ∧
      (s.stage = .replaying → pushGoesOn env s.rot e)
  | .crash _ => (∀ w ∈ s.rot.wal, w.AppendFits 0) ∧
      (Untouched s ∨ Recovered s ∧ FiledInOrder s.rot ∧ (s.collected = [] ∨ FirstFiled s.rot))
  | _ => True

section
variable [DecidableEq V]

instance (s : State V) : Decidable (Recovered s) :=
  inferInstanceAs (Decidable (_ ∨ _))

instance (r : Ingest.State V) : Decidable (NoneFailed r) :=
  inferInstanceAs (Decidable (∀ job ∈ r.jobs, _))

instance (s : State V) : Decidable (Untouched s) :=
  inferInstanceAs (Decidable (_ ∧ _))

instance (r : Ingest.State V) : Decidable (FiledInOrder r) :=
  inferInstanceAs (Decidable (r.jobs.Pairwise fun a b => Filed r.files b → Filed r.files a))

instance (r : Ingest.State V) : Decidable (FirstFiled r) :=
  inferInstanceAs (Decidable (∃ job ∈ r.jobs.head?, Filed r.files job))

instance (env : Env V) (s : State V) (e : Event V) : Decidable (exactOk env s e) := by
  rcases e <;> unfold exactOk <;> infer_instance

end

/-! ## Where the walk over the spans ends -/

variable {k : ℕ}

theorem coveredBefore_succ {jobs : List (FlushJob V)} {job : FlushJob V} (h : jobs[k]? = some job) :
    coveredBefore jobs (k + 1) = job.covered := by
  rw [coveredBefore, take_add_one, getElem?_map, h]
  simp

theorem FiledInOrder.filed (h : FiledInOrder r) {n : ℕ} {a b : FlushJob V} (hnk : n < k)
    (ha : r.jobs[n]? = some a) (hb : r.jobs[k]? = some b) (hf : Filed r.files b) :
    Filed r.files a := by
  obtain ⟨hn, rfl⟩ := List.getElem?_eq_some_iff.mp ha
  obtain ⟨hk, rfl⟩ := List.getElem?_eq_some_iff.mp hb
  exact List.pairwise_iff_getElem.mp h n k hn hk hnk hf

theorem Spans.filed_range {base : ℕ} (h : Spans base r) {job : FlushJob V}
    (hjob : r.jobs[k]? = some job) :
    Filed r.files job ↔ (coveredBefore r.jobs k, job.covered) ∈ walRanges r.files := by
  simp [Filed, h.chain k job hjob]

theorem Spans.covered_le {base : ℕ} (h : Spans base r) (ho : FiledInOrder r) (c : ℕ) :
    ∀ {k : ℕ} {job : FlushJob V}, r.jobs[k]? = some job → Filed r.files job →
      job.covered ≤ coveredThrough c (walRanges r.files)
  | 0, job, hjob, hf =>
    coveredThrough_stuck c _ _ ((h.filed_range hjob).mp hf) (Nat.zero_le _)
  | k + 1, job, hjob, hf => by
    have hk : k < r.jobs.length := (List.getElem?_eq_some_iff.mp hjob).1.le
    have hprev : r.jobs[k]? = some r.jobs[k] := List.getElem?_eq_getElem hk
    refine coveredThrough_stuck c _ _ ((h.filed_range hjob).mp hf) ?_
    show coveredBefore r.jobs (k + 1) ≤ _
    rw [coveredBefore_succ hprev]
    exact Spans.covered_le h ho c hprev (ho.filed (Nat.lt_succ_self k) hprev hjob hf)

theorem Books.walk_cases (h : Books f dead r) :
    coveredThrough r.dir.commit (walRanges r.files) = f.commit ∨ ∃ job ∈ r.jobs, Filed r.files job ∧
        job.covered = coveredThrough r.dir.commit (walRanges r.files) := by
  refine coveredThrough_induct (P := fun p => p = f.commit ∨
    ∃ job ∈ r.jobs, Filed r.files job ∧ job.covered = p) ?_ fun rng hrng pos h1 h2 hpos => ?_
  · exact h.log.commit.imp_right fun ⟨job, hmem, hw, hc⟩ =>
      ⟨job, hmem, h.filing.written job hmem hw, hc⟩
  · rcases h.filing.spans rng hrng with hold | ⟨job, hmem, hr⟩
    · -- the spans that the process found lead nowhere
      have hle := f.ranges_le rng hold
      rcases hpos with rfl | ⟨job, hmem, -, rfl⟩
      · exact absurd (f.stuck rng hold h1) (not_le.mpr h2)
      · have := h.spans.jobs job hmem
        omega
    · obtain ⟨k, hk⟩ := mem_iff_getElem?.mp hmem
      refine .inr ⟨job, hmem, ⟨rng, hr, hrng⟩, ?_⟩
      rw [h.spans.chain k job hk, Option.mem_some_iff] at hr
      rw [← hr]

/-- What a crash leaves behind when the filed jobs are the first ones: the walk over the spans ends
above what was committed, and exactly there end the rows in block files. -/
structure Walk (f : Found V) (r : Ingest.State V) (p : ℕ) : Prop where
  commit_le : f.commit ≤ p
  written_le : ∀ c, WrittenAt r c → c ≤ p
  filed : ∀ wt, total (filedRows wt r.files) r.jobs = ackedTotal wt p r.acked

theorem Books.walk (h : Books f dead r) (ho : FiledInOrder r) :
    Walk f r (coveredThrough r.dir.commit (walRanges r.files)) := by
  have hle : ∀ {k : ℕ} {job : FlushJob V}, r.jobs[k]? = some job → Filed r.files job →
      job.covered ≤ coveredThrough r.dir.commit (walRanges r.files) :=
    h.spans.covered_le ho r.dir.commit
  have hwritten : ∀ c, WrittenAt r c → c ≤ coveredThrough r.dir.commit (walRanges r.files) := by
    rintro c ⟨job, hmem, hw, rfl⟩
    obtain ⟨k, hk⟩ := mem_iff_getElem?.mp hmem
    exact hle hk (h.filing.written job hmem hw)
  have hcommit := f.commit_le
  rcases h.walk_cases with hx | ⟨job, hmem, hfiled, hx⟩
  · rw [hx] at hle hwritten ⊢
    refine ⟨le_rfl, hwritten, fun wt => ?_⟩
    -- no job is filed, and everything was acknowledged above the commit point
    have hnone : ∀ job ∈ r.jobs, ¬ Filed r.files job := fun job hmem hf => by
      obtain ⟨k, hk⟩ := mem_iff_getElem?.mp hmem
      have h1 := hle hk hf
      have h2 := h.spans.jobs job hmem
      omega
    have hzero : ackedTotal wt f.commit r.acked = 0 := total_eq_zero fun a ha => by
      have := (h.spans.acked a ha).1
      exact if_neg (by omega)
    rw [hzero]
    exact total_eq_zero fun job hmem => if_neg (hnone job hmem)
  · rw [← hx] at hle hwritten ⊢
    obtain ⟨k, hk⟩ := mem_iff_getElem?.mp hmem
    have hbase := h.spans.jobs job hmem
    refine ⟨by omega, hwritten, fun wt => ?_⟩
    have hsplit := total_append (filedRows wt r.files) (r.jobs.take (k + 1)) (r.jobs.drop (k + 1))
    rw [take_append_drop] at hsplit
    have htake : total (filedRows wt r.files) (r.jobs.take (k + 1)) =
        jobRows wt (r.jobs.take (k + 1)) := total_congr fun j hj => if_pos ?_
    have hdrop : total (filedRows wt r.files) (r.jobs.drop (k + 1)) = 0 :=
      total_eq_zero fun j hj => if_neg ?_
    · rw [hsplit, htake, hdrop, h.ledger.upTo k job hk wt]
      rfl
    · intro hf
      obtain ⟨n, hn⟩ := mem_iff_getElem?.mp hj
      rw [getElem?_drop] at hn
      have hcov := hle hn hf
      have hlt : job.covered < j.covered := by
        have hmono := List.pairwise_iff_getElem.mp h.spans.mono
        obtain ⟨h1, rfl⟩ := List.getElem?_eq_some_iff.mp hk
        obtain ⟨h2, rfl⟩ := List.getElem?_eq_some_iff.mp hn
        have := hmono k (k + 1 + n) (by simpa using h1) (by simpa using h2) (by omega)
        simpa using this
      omega
    · obtain ⟨n, hn⟩ := mem_iff_getElem?.mp hj
      rw [getElem?_take] at hn
      split_ifs at hn with hlt
      rcases Nat.lt_succ_iff_lt_or_eq.mp hlt with hlt | rfl
      · exact ho.filed hlt hn hk hfiled
      · rw [hk] at hn
        cases hn
        exact hfiled

/-- When the first job is filed the walk leaves the whole log behind that the process found. -/
theorem Books.found_le (h : Books f dead r) (ho : FiledInOrder r) (hf : FirstFiled r) :
    f.walEnd ≤ coveredThrough r.dir.commit (walRanges r.files) := by
  obtain ⟨job, hhead, hfiled⟩ := hf
  have h0 : r.jobs[0]? = some job := by rw [← head?_eq_getElem?]; exact hhead
  have h1 := h.spans.covered_le ho r.dir.commit h0 hfiled
  have h2 := h.spans.jobs job (mem_of_getElem? h0)
  omega

/-! ## What a stopped process leaves -/

/-- On disk are block files with the rows of `kept`, and a log with the records of `rest` above the
end of the walk; together they are what has to be held. -/
structure Leaves (s : State V) (kept rest : List (Metric V)) : Prop where
  files : ∀ wt, blockTotal wt s.rot.files = total (fun m => total wt m.rows) kept
  ranges : ∀ rng ∈ walRanges s.rot.files, rng.2 ≤ s.rot.walEnd
  commit : s.rot.dir.commit ≤ s.rot.walEnd
  records : ∀ x ∈ s.rot.dir.log, x.segment = segmentOf x.pos ∧ x.pos ≤ s.rot.walEnd
  log : ∀ mw, loggedAbove mw (coveredThrough s.rot.dir.commit (walRanges s.rot.files))
    s.rot.dir.log = total mw rest
  lower : ∀ mw, total mw s.acked ≤ total mw kept + total mw rest
  upper : ∀ mw, total mw kept + total mw rest ≤ total mw s.pushed

/-- While a process runs. `rest` are the records it has to re-ingest; `acked₀` and `pushed₀` are
the metrics that earlier processes acknowledged and took in. -/
structure Running (f : Found V) (dead : List (ℕ × Metric V)) (rest acked₀ pushed₀ : List (Metric V))
    (s : State V) : Prop where
  books : Books f dead s.rot
  found : ∀ mw, loggedAbove mw f.commit f.log = total mw rest
  collected : s.collected = [] → rest = []
  lower₀ : ∀ mw, total mw acked₀ ≤ total mw f.kept + total mw rest
  upper₀ : ∀ mw, total mw f.kept + total mw rest ≤ total mw pushed₀
  upper : ∀ mw, accounted mw dead s.rot + total mw s.pending + total mw pushed₀ ≤
    total mw rest + total mw s.pushed
  replaying : s.stage = .replaying → dead = [] ∧ s.acked = acked₀ ∧
    ∀ mw, total mw rest = accounted mw [] s.rot + total mw s.pending
  serving : s.stage = .serving → ∀ mw,
    total mw rest + total mw s.acked ≤ total (fun a => mw a.2) s.rot.acked + total mw acked₀

def Fresh (r : Ingest.State V) : Prop :=
  ∃ config n w buffer, r = boot config n (some w) r.dir buffer r.files

inductive ExactInv (s : State V) : Prop where
  | opened (hst : s.stage = .opened) (hfresh : Fresh s.rot) (kept rest : List (Metric V))
      (h : Leaves s kept rest)
  | advanced (hst : s.stage = .advanced) (hfresh : Fresh s.rot) (kept rest : List (Metric V))
      (h : Leaves s kept rest)
      (hstuck : ∀ rng ∈ walRanges s.rot.files, rng.1 ≤ s.rot.dir.commit → rng.2 ≤ s.rot.dir.commit)
  | running (hst : s.stage = .replaying ∨ s.stage = .serving) (f : Found V)
      (dead : List (ℕ × Metric V)) (rest acked₀ pushed₀ : List (Metric V))
      (h : Running f dead rest acked₀ pushed₀ s)

variable {kept rest acked₀ pushed₀ : List (Metric V)}

theorem advanceWalCommit_ok {α : Type*} (d : WalDir α) (ranges : List WalRange) :
    (advanceWalCommit d ranges true).commit = coveredThrough d.commit ranges := by
  unfold advanceWalCommit
  split_ifs with h
  · rfl
  · have hle := le_coveredThrough d.commit ranges
    simp only [Bool.and_true, decide_eq_true_eq] at h
    omega

theorem coveredThrough_le {c n : ℕ} {ranges : List WalRange} (hc : c ≤ n)
    (h : ∀ rng ∈ ranges, rng.2 ≤ n) : coveredThrough c ranges ≤ n :=
  coveredThrough_induct (P := (· ≤ n)) hc fun rng hrng _ _ _ _ => h rng hrng

theorem Leaves.advance (h : Leaves s kept rest) (hs : s.advance true = some s') :
    Leaves s' kept rest ∧ s'.stage = .advanced ∧
      ∀ rng ∈ walRanges s'.rot.files, rng.1 ≤ s'.rot.dir.commit → rng.2 ≤ s'.rot.dir.commit := by
  obtain ⟨-, rfl⟩ := advance_cases hs
  have hc := advanceWalCommit_ok s.rot.dir (walRanges s.rot.files)
  have hstuck := coveredThrough_stuck s.rot.dir.commit (walRanges s.rot.files)
  rw [← hc] at hstuck
  refine ⟨⟨h.files, h.ranges, ?_, ?_, fun mw => ?_, h.lower, h.upper⟩, rfl, hstuck⟩
  · rw [hc]
    exact coveredThrough_le h.commit h.ranges
  · rw [advanceWalCommit_log]
    exact h.records
  · rw [coveredThrough_of_stuck hstuck, advanceWalCommit_log, hc]
    exact h.log mw

theorem Leaves.crash {torn : ℕ} (h : Leaves s kept rest) (hwal : s.rot.wal.isSome)
    (hfits : ∀ w ∈ s.rot.wal, w.AppendFits 0) : ExactInv (s.crash torn) := by
  obtain ⟨w, hw⟩ := Option.isSome_iff_exists.mp hwal
  have hend := walEnd_of_wal hw
  have hle := WalWriter.position_le_reopen (hfits w hw) torn
  rw [← hend] at hle
  rw [State.crash, reopen_of_wal hw]
  exact .opened rfl ⟨_, _, _, _, rfl⟩ kept rest
    ⟨h.files, fun rng hrng => (h.ranges rng hrng).trans hle, h.commit.trans hle,
      fun x hx => (h.records x hx).imp_right fun hp => hp.trans hle, h.log, h.lower, h.upper⟩

/-! ## From start to replay -/

theorem total_values (mw : Metric V → ℕ) (log : List (WalRecord (Metric V))) :
    total mw (log.filterMap value) = total (recordWeight mw) log := by
  induction log with
  | nil => rfl
  | cons x log ih =>
    cases hx : x.value with
    | none => simp [hx, ih, recordWeight]
    | some m => simp [hx, ih, recordWeight]

theorem uncommittedOf_eq (d : WalDir (Metric V)) :
    uncommittedOf d = d.log.filter fun x => d.commit < x.pos :=
  filter_congr fun x _ => by
    rw [isCoveredBy, ← decide_not, decide_eq_decide]
    exact not_le

theorem replay_eq (d : WalDir (Metric V)) :
    d.replay = (uncommittedOf d).filterMap value := by
  rw [uncommittedOf, filterMap_filter, WalDir.replay]
  congr 1
  funext x
  cases isCoveredBy x.pos d.commit <;> rfl

theorem Fresh.books (hfresh : Fresh r) (f : Found V)
    (hfiles : ∀ wt, blockTotal wt r.files = total (fun m => total wt m.rows) f.kept)
    (hranges : f.ranges = walRanges r.files) (hlog : f.log = r.dir.log)
    (hcommit : f.commit = r.dir.commit) (hend : f.walEnd = r.walEnd)
    (hseg : ∀ x ∈ r.dir.log, x.segment = segmentOf x.pos ∧ x.pos ≤ r.walEnd) : Books f [] r := by
  obtain ⟨config, n, w, buffer, hr⟩ := hfresh
  generalize r.dir = d at *
  generalize r.files = fs at *
  subst hr
  have hz (g : Shard V → ℕ) (hg : g ⟨BlockWriter.new config, none⟩ = 0) :
      total g (boot config n (some w) d buffer fs).shards = 0 :=
    total_eq_zero fun sh hsh => by rw [(mem_replicate.mp hsh).2, hg]
  refine
    { noLoss := noLossInv_boot _ _ _ _ _ _ (hcommit ▸ f.commit_le.trans hend.le)
      ledger := ⟨fun wt => ?_, nofun⟩
      spans := ⟨nofun, rfl, .nil, nofun, nofun, fun sh hsh q hq => ?_, hend.le⟩
      filing := ⟨hfiles, nofun, nofun, fun rng hrng => .inl (hranges ▸ hrng)⟩
      log := ⟨nofun, .inl hcommit.symm, hseg, fun p _ _ mw => ?_⟩ }
  · rw [hz (owed wt) rfl, hz (held wt) rfl]
    rfl
  · rw [boot_locks _ _ _ _ _ _ sh hsh] at hq
    cases hq
  · rw [hz (lockedAbove mw p) rfl, hlog]
    rfl

theorem Leaves.collect (h : Leaves s kept rest) (hfresh : Fresh s.rot)
    (hstuck : ∀ rng ∈ walRanges s.rot.files, rng.1 ≤ s.rot.dir.commit →
      rng.2 ≤ s.rot.dir.commit) (hs : s.collect = some s') : ExactInv s' := by
  obtain ⟨-, rfl⟩ := collect_cases hs
  have hpending : ∀ mw, total mw s.rot.dir.replay =
      loggedAbove mw s.rot.dir.commit s.rot.dir.log := fun mw => by
    rw [replay_eq, total_values, uncommittedOf_eq, loggedAbove]
  have hrest : ∀ mw, total mw rest = total mw s.rot.dir.replay := fun mw => by
    rw [← h.log, coveredThrough_of_stuck hstuck, hpending]
  have hbooks : Books ⟨kept, walRanges s.rot.files, s.rot.dir.log, s.rot.dir.commit, s.rot.walEnd,
      h.ranges, hstuck, fun x hx => (h.records x hx).2, h.commit⟩ [] s.rot :=
    hfresh.books _ h.files rfl rfl rfl rfl h.records
  have haccounted : ∀ mw, accounted mw [] s.rot = 0 := fun mw => by
    obtain ⟨config, n, w, buffer, hrot⟩ := hfresh
    have hz : total (locked mw) s.rot.shards = 0 := total_eq_zero fun sh hsh => by
      rw [hrot] at hsh
      rw [locked, boot_locks _ _ _ _ _ _ sh hsh]
      rfl
    rw [accounted, hz, hrot]
    rfl
  refine .running (.inl rfl) _ [] s.rot.dir.replay s.acked s.pushed
    { books := hbooks
      found := fun mw => (hpending mw).symm
      collected := fun hc => ?_
      lower₀ := fun mw => hrest mw ▸ h.lower mw
      upper₀ := fun mw => hrest mw ▸ h.upper mw
      upper := fun mw => ?_
      replaying := fun _ => ⟨rfl, rfl, fun mw => ?_⟩
      serving := by rintro ⟨⟩ }
  · rw [replay_eq, show uncommittedOf s.rot.dir = [] from hc]
    rfl
  · rw [haccounted, zero_add]
  · rw [haccounted, zero_add]

/-! ## Steps of a running process -/

theorem Running.next (h : Running f dead rest acked₀ pushed₀ s) (hs : s.next = some s') :
    Running f dead rest acked₀ pushed₀ s' := by
  obtain ⟨m, tail, hst, -, hp, rfl⟩ := next_cases hs
  obtain ⟨rfl, hacked, hrest⟩ := h.replaying hst
  have hmove : Move s.rot [m] [] [] (s.rot.enter m) := .callers _ fun mw => by simp [waiting]
  have heq := fun mw => hmove.accounted_eq mw []
  simp only [append_nil, total_nil, total_cons, add_zero] at heq
  have hbooks : Books f [] (s.rot.enter m) := h.books.move hmove (h.books.noLoss.callers _)
  refine ⟨hbooks, h.found, h.collected, h.lower₀, h.upper₀, fun mw => ?_,
    fun _ => ⟨rfl, hacked, fun mw => ?_⟩, fun hserve => ?_⟩
  · have h1 := h.upper mw
    have h2 := heq mw
    rw [hp, total_cons] at h1
    show accounted mw [] (s.rot.enter m) + total mw tail + total mw pushed₀ ≤
      total mw rest + total mw s.pushed
    omega
  · have h1 := hrest mw
    have h2 := heq mw
    rw [hp, total_cons] at h1
    show _ = accounted mw [] (s.rot.enter m) + total mw tail
    omega
  · rw [show s.stage = .serving from hserve] at hst
    cases hst

theorem accounted_of_idle (h : idle r = true) (mw : Metric V → ℕ) :
    accounted mw [] r = total (fun a => mw a.2) r.acked := by
  obtain ⟨hc, hu⟩ := Bool.and_eq_true_iff.mp h
  have hz : total (locked mw) r.shards = 0 := total_eq_zero fun sh hsh => by
    rw [locked, lock_of_unlocked hu hsh]
    rfl
  rw [accounted, isEmpty_iff.mp hc, hz, append_nil]
  exact zero_add _

theorem Running.reingested (h : Running f dead rest acked₀ pushed₀ s) (hrec : Recovered s)
    (mw : Metric V → ℕ) :
    total mw rest + total mw s.acked ≤ total (fun a => mw a.2) s.rot.acked + total mw acked₀ := by
  rcases hrec with hst | ⟨hst, hp, hidle⟩
  · exact h.serving hst mw
  · obtain ⟨-, hacked, hrest⟩ := h.replaying hst
    have := hrest mw
    rw [accounted_of_idle hidle, hp, total_nil] at this
    rw [hacked]
    omega

theorem Running.serve (h : Running f dead rest acked₀ pushed₀ s) (hs : s.serve = some s') :
    Running f dead rest acked₀ pushed₀ s' := by
  obtain ⟨hst, hidle, hp, rfl⟩ := serve_cases hs
  exact ⟨h.books, h.found, h.collected, h.lower₀, h.upper₀, h.upper, nofun,
    fun _ => h.reingested (.inr ⟨hst, hp, hidle⟩)⟩

theorem Running.rotStep {e : Ingest.Event V} (h : Running f dead rest acked₀ pushed₀ s)
    (hok : exactOk env s (.rot e)) (hs : s.rotStep env e = some s') :
    ∃ dead', Running f dead' rest acked₀ pushed₀ s' := by
  obtain ⟨r, hall, hr, rfl⟩ := rotStep_cases hs
  obtain ⟨lost, new, hmove, hbooks, hgo⟩ := h.books.step hok.1.1 hr
  have heq := fun mw => hmove.accounted_eq mw dead
  obtain ⟨acked, hacked⟩ : ∃ l, r.acked = s.rot.acked ++ l := by
    rcases (step_frame h.books.noLoss.wal hok.1.1.appendFits hr).acked with ha | ⟨_, -, _, -, ha⟩
    · exact ⟨[], by rw [ha, append_nil]⟩
    · exact ⟨_, ha⟩
  refine ⟨dead ++ new, hbooks, h.found, h.collected, h.lower₀, h.upper₀, fun mw => ?_,
    fun hst => ?_, fun hst mw => ?_⟩
  · have h1 := h.upper mw
    have h2 := heq mw
    simp only [total_append]
    omega
  · -- while the process replays nobody enters and no push fails
    obtain ⟨rfl, hacked₀, hrest⟩ := h.replaying hst
    obtain ⟨rfl, rfl⟩ := hgo (hok.2 hst)
    have hins : entered e = [] := by
      cases e with
      | enter m => rw [show s.stage = .replaying from hst] at hall; cases hall
      | _ => rfl
    refine ⟨rfl, ?_, fun mw => ?_⟩
    · simp only [newlyAcked, show s.stage = .replaying from hst, reduceCtorEq, if_false, append_nil]
      exact hacked₀
    · have h1 := hrest mw
      have h2 := heq mw
      rw [hins, total_nil, append_nil] at h2
      show _ = accounted mw [] r + total mw s.pending
      omega
  · have h1 := h.serving hst mw
    simp only [newlyAcked, show s.stage = .serving from hst, if_true, hacked, drop_left,
      total_append, total_map]
    omega

/-! ## Stopping a process -/

theorem Books.ranges_le (h : Books f dead r) : ∀ rng ∈ walRanges r.files, rng.2 ≤ r.walEnd := by
  intro rng hrng
  rcases h.filing.spans rng hrng with hold | ⟨job, hmem, hr⟩
  · exact (f.ranges_le rng hold).trans h.spans.le_end
  · obtain ⟨k, hk⟩ := mem_iff_getElem?.mp hmem
    rw [h.spans.chain k job hk, Option.mem_some_iff] at hr
    rw [← hr]
    exact (h.noLoss.below job hmem).le_end

theorem loggedAbove_mono (mw : Metric V → ℕ) {p q : ℕ} (h : p ≤ q)
    (log : List (WalRecord (Metric V))) : loggedAbove mw q log ≤ loggedAbove mw p log := by
  rw [loggedAbove, loggedAbove, total_filter, total_filter]
  refine total_le fun x _ => ?_
  simp only [decide_eq_true_eq]
  split_ifs <;> omega

theorem total_acked_split (mw : Metric V → ℕ) (p : ℕ) (l : List (ℕ × Metric V)) :
    total mw ((l.filter fun a => a.1 ≤ p).map Prod.snd) + metricsAbove mw p l =
      total (fun a => mw a.2) l := by
  rw [total_map, total_filter, metricsAbove, ← total_add]
  refine total_congr fun a _ => ?_
  simp only [decide_eq_true_eq]
  split_ifs <;> omega

theorem total_filter_rows (wt : MetricRow V → ℕ) (p : ℕ) (l : List (ℕ × Metric V)) :
    total (fun m => total wt m.rows) ((l.filter fun a => a.1 ≤ p).map Prod.snd) =
      ackedTotal wt p l := by
  rw [total_map, total_filter, ackedTotal]
  exact total_congr fun a _ => by simp only [decide_eq_true_eq]

/-- **A process that has recovered leaves everything once.** What is filed is below the end of the
walk over the spans, and what is not filed is above it. -/
theorem Running.leaves (h : Running f dead rest acked₀ pushed₀ s) (hrec : Recovered s)
    (ho : FiledInOrder s.rot) (hfirst : s.collected = [] ∨ FirstFiled s.rot) :
    ∃ kept rest', Leaves s kept rest' := by
  have hw := h.books.walk ho
  generalize hx : coveredThrough s.rot.dir.commit (walRanges s.rot.files) = x at hw
  -- nothing that the process found is replayed again
  have hold : ∀ mw, loggedAbove mw x f.log = 0 := fun mw => by
    rcases hfirst with hc | hf
    · have h1 := loggedAbove_mono mw hw.commit_le f.log
      rw [h.found, h.collected hc, total_nil] at h1
      omega
    · have hle := h.books.found_le ho hf
      rw [loggedAbove, filter_eq_nil_iff.mpr fun y hy => ?_, total_nil]
      have := f.log_le y hy
      simp only [decide_eq_true_eq]
      omega
  have hlog : ∀ mw, loggedAbove mw x s.rot.dir.log =
      metricsAbove mw x (s.rot.acked ++ dead) + total (lockedAbove mw x) s.rot.shards :=
        fun mw => by
    rw [h.books.log.log x hw.commit_le hw.written_le mw, hold, zero_add]
  have hrest : ∀ mw, loggedAbove mw x s.rot.dir.log =
      total mw ((s.rot.dir.log.filter fun y => x < y.pos).filterMap value) := fun mw => by
    rw [total_values, loggedAbove]
  refine ⟨f.kept ++ (s.rot.acked.filter fun a => a.1 ≤ x).map Prod.snd,
    (s.rot.dir.log.filter fun y => x < y.pos).filterMap value,
    { files := fun wt => ?_
      ranges := h.books.ranges_le
      commit := h.books.noLoss.commit.below.le_end
      records := h.books.log.records
      log := fun mw => by rw [hx]; exact hrest mw
      lower := fun mw => ?_
      upper := fun mw => ?_ }⟩
  · rw [h.books.filing.files, hw.filed, total_append, total_filter_rows]
  · have h1 := h.reingested hrec mw
    have h2 := h.lower₀ mw
    have h3 := total_acked_split mw x s.rot.acked
    rw [← hrest, hlog, total_append, metricsAbove, total_append, ← metricsAbove]
    omega
  · have h1 := h.upper mw
    have h2 := h.upper₀ mw
    have h3 := total_acked_split mw x s.rot.acked
    have h4 : total (lockedAbove mw x) s.rot.shards ≤ total (locked mw) s.rot.shards :=
      total_le fun sh _ => by
        unfold lockedAbove locked
        cases sh.lock with
        | none => exact le_rfl
        | some q => simp only [Option.elim_some]; split_ifs <;> omega
    have h5 : metricsAbove mw x dead ≤ total (fun a => mw a.2) dead :=
      total_le fun a _ => by split_ifs <;> omega
    rw [accounted, total_append] at h1
    rw [← hrest, hlog, total_append, metricsAbove, total_append, ← metricsAbove, ← metricsAbove]
    omega

theorem Running.leaves_untouched (h : Running f dead rest acked₀ pushed₀ s)
    (hst : s.stage = .replaying) (hu : Untouched s) : Leaves s f.kept rest := by
  obtain ⟨-, hacked, hlock, hjobs⟩ := hu
  obtain ⟨rfl, hacked₀, hrest⟩ := h.replaying hst
  have ho : FiledInOrder s.rot := by
    rw [FiledInOrder, hjobs]
    exact List.Pairwise.nil
  have hw := h.books.walk ho
  have hx : coveredThrough s.rot.dir.commit (walRanges s.rot.files) = f.commit := by
    rcases h.books.walk_cases with hx | ⟨job, hmem, -⟩
    · exact hx
    · rw [hjobs] at hmem
      cases hmem
  rw [hx] at hw
  refine
    { files := fun wt => ?_
      ranges := h.books.ranges_le
      commit := h.books.noLoss.commit.below.le_end
      records := h.books.log.records
      log := fun mw => ?_
      lower := fun mw => hacked₀ ▸ h.lower₀ mw
      upper := fun mw => ?_ }
  · rw [h.books.filing.files, hjobs, total_nil, add_zero]
  · have hz : total (lockedAbove mw f.commit) s.rot.shards = 0 := total_eq_zero fun sh hsh => by
      rw [lockedAbove, lock_of_unlocked hlock hsh]
      rfl
    rw [hx, h.books.log.log f.commit le_rfl hw.written_le mw, hacked, hz, h.found]
    rfl
  · have h1 := h.upper mw
    have h2 := h.upper₀ mw
    have h3 := hrest mw
    omega

theorem ExactInv.isRunning (h : ExactInv s) (hst : s.stage = .replaying ∨ s.stage = .serving) :
    ∃ f dead rest acked₀ pushed₀, Running f dead rest acked₀ pushed₀ s := by
  cases h with
  | running _ f dead rest acked₀ pushed₀ h => exact ⟨f, dead, rest, acked₀, pushed₀, h⟩
  | _ hst' => rcases hst with hst | hst <;> exact absurd (hst.symm.trans hst') nofun

/-- **Step lemma.** -/
theorem ExactInv.step (h : ExactInv s) (hok : exactOk env s e) (hs : step env s e = some s') :
    ExactInv s' := by
  cases e with
  | advance ok =>
    obtain rfl : ok = true := hok
    have hst := (advance_cases hs).1
    cases h with
    | opened _ hfresh kept rest h =>
      obtain ⟨hl, hst', hstuck⟩ := h.advance hs
      obtain ⟨-, rfl⟩ := advance_cases hs
      obtain ⟨config, n, w, buffer, hrot⟩ := hfresh
      refine .advanced hst' ⟨config, n, w, buffer, ?_⟩ kept rest hl hstuck
      rw [hrot]
      rfl
    | _ hst' => simp [hst] at hst'
  | collect =>
    have hst := (collect_cases hs).1
    cases h with
    | advanced _ hfresh kept rest h hstuck => exact h.collect hfresh hstuck hs
    | _ hst' => simp [hst] at hst'
  | next =>
    obtain ⟨m, tail, hst, -, -, rfl⟩ := next_cases hs
    obtain ⟨f, dead, rest, acked₀, pushed₀, h⟩ := h.isRunning (.inl hst)
    exact .running (.inl hst) _ _ _ _ _ (h.next hs)
  | serve =>
    obtain ⟨hst, -, -, rfl⟩ := serve_cases hs
    obtain ⟨f, dead, rest, acked₀, pushed₀, h⟩ := h.isRunning (.inl hst)
    exact .running (.inr rfl) _ _ _ _ _ (h.serve hs)
  | rot e =>
    obtain ⟨r, hall, -, hr⟩ := rotStep_cases hs
    cases h with
    | opened hst | advanced hst => rw [hst] at hall; cases hall
    | running hst f dead rest acked₀ pushed₀ h =>
      obtain ⟨dead', h'⟩ := h.rotStep hok hs
      exact .running (by rw [hr]; exact hst) _ dead' _ _ _ h'
  | crash torn =>
    cases hs
    obtain ⟨hfits, hcase⟩ := hok
    cases h with
    | opened hst hfresh kept rest h | advanced hst hfresh kept rest h =>
      obtain ⟨_, _, _, _, hrot⟩ := hfresh
      exact h.crash (by rw [hrot]; rfl) hfits
    | running hst f dead rest acked₀ pushed₀ h =>
      rcases hcase with hu | ⟨hrec, ho, hfirst⟩
      · have hst : s.stage = .replaying := hst.resolve_right hu.1
        exact (h.leaves_untouched hst hu).crash h.books.noLoss.wal hfits
      · obtain ⟨kept, rest', hl⟩ := h.leaves hrec ho hfirst
        exact hl.crash h.books.noLoss.wal hfits

/-! ## The theorem -/

def owedMetrics (sh : Shard V) : List (Metric V) :=
  match sh.lock with
  | some ⟨m, _, .written _⟩ => [m]
  | _ => []

theorem total_owedMetrics (wt : MetricRow V → ℕ) (sh : Shard V) :
    total (fun m => total wt m.rows) (owedMetrics sh) = owed wt sh := by
  rcases sh with ⟨w, _ | ⟨m, p, _ | _ | closed⟩⟩
  all_goals rfl

theorem owedMetrics_le (mw : Metric V → ℕ) (sh : Shard V) :
    total mw (owedMetrics sh) ≤ locked mw sh := by
  unfold owedMetrics locked
  split
  · next h => simp [h]
  · exact Nat.zero_le _

theorem total_heldRows (wt : MetricRow V → ℕ) (r : Ingest.State V) :
    total wt (heldRows r) = blockTotal wt r.files + total (held wt) r.shards +
      total (fun job => if job.phase = .queued then total wt job.rows else 0) r.jobs := by
  rw [heldRows, total_append, total_append, total_fileRows, total_flatMap, total_flatMap,
    total_filter]
  simp only [decide_eq_true_eq]
  rfl

theorem Filing.total_jobs (h : Filing f r) (hnone : NoneFailed r) (wt : MetricRow V → ℕ) :
    total (filedRows wt r.files) r.jobs +
      total (fun job => if job.phase = .queued then total wt job.rows else 0) r.jobs =
        jobRows wt r.jobs := by
  rw [← total_add, jobRows]
  refine total_congr fun job hmem => ?_
  rcases hnone job hmem with hq | hf
  · rw [filedRows, if_neg (h.queued job hmem hq), if_pos hq, zero_add]
  · have hq : job.phase ≠ .queued := fun hq => h.queued job hmem hq hf
    rw [filedRows, if_pos hf, if_neg hq, add_zero]

theorem Running.exactlyOnce (h : Running f dead rest acked₀ pushed₀ s) (hrec : Recovered s)
    (hnone : NoneFailed s.rot) : s.ExactlyOnce := by
  refine ⟨f.kept ++ s.rot.acked.map Prod.snd ++ s.rot.shards.flatMap owedMetrics,
    subperm_of_total_le fun mw => ?_, subperm_of_total_le fun mw => ?_,
    perm_of_total_eq fun wt => ?_⟩
  · have h1 := h.reingested hrec mw
    have h2 := h.lower₀ mw
    rw [total_append, total_append, total_map]
    omega
  · have h1 := h.upper mw
    have h2 := h.upper₀ mw
    have h3 : total mw (s.rot.shards.flatMap owedMetrics) ≤ total (locked mw) s.rot.shards := by
      rw [total_flatMap]
      exact total_le fun sh _ => owedMetrics_le mw sh
    rw [accounted, total_append] at h1
    rw [total_append, total_append, total_map]
    omega
  · have h1 := h.books.filing.files wt
    have h2 := h.books.filing.total_jobs hnone wt
    have h3 := h.books.ledger.all wt
    have h4 : total (fun m => total wt m.rows) (s.rot.shards.flatMap owedMetrics) =
        total (owed wt) s.rot.shards := by
      rw [total_flatMap]
      exact total_congr fun sh _ => total_owedMetrics wt sh
    rw [total_heldRows, total_flatMap, total_append, total_append, total_map, h4]
    omega

theorem ExactInv.exactlyOnce (h : ExactInv s) (hrec : Recovered s) (hnone : NoneFailed s.rot) :
    s.ExactlyOnce := by
  obtain ⟨f, dead, rest, acked₀, pushed₀, h⟩ := h.isRunning (hrec.symm.imp_left And.left)
  exact h.exactlyOnce hrec hnone

def firstBoot (config : BlockConfig) (shards : ℕ) (w : WalWriter)
    (buffer : Option (Buffer.MemoryBuffer V)) : State V :=
  .boot (boot config shards (some w) ⟨start, []⟩ buffer []) [] []

theorem exactInv_firstBoot (config : BlockConfig) (shards : ℕ) (w : WalWriter)
    (buffer : Option (Buffer.MemoryBuffer V)) :
    ExactInv (firstBoot config shards w buffer) :=
  .opened rfl ⟨_, _, _, _, rfl⟩ [] []
    ⟨fun _ => rfl, nofun, Nat.zero_le _, nofun, fun _ => rfl, fun _ => le_rfl, fun _ => le_rfl⟩

namespace Sample

open Parqtel.Ingest.Sample

def bootEmpty (n : ℕ) : State Unit := firstBoot (config n) 1 ⟨0, 0, 2 ^ 26, none⟩ none

def startUp : List (Event Unit) := [.advance true, .collect, .serve]

def clientPush (m : Metric Unit) : List (Event Unit) := (push m fun _ => .fine).map .rot

end Sample

theorem State.ExactlyOnce.length_le (h : s.ExactlyOnce) :
    (heldRows s.rot).length ≤ (s.pushed.flatMap rows).length := by
  obtain ⟨kept, -, hsub, hperm⟩ := h
  obtain ⟨l, hl, hsub⟩ := hsub
  rw [hperm.length_eq, ← (hl.flatMap_right rows).length_eq]
  exact (hsub.flatMap rows).length_le

end Parqtel.Server
