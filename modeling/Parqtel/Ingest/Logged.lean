import Parqtel.Ingest.NoLoss

/-!
# Acknowledged records stay in the log

The other half of durability. A commit deletes the segments below the commit point, and
commits of concurrent jobs may land in any order, so the commit point can also move
back. Still no record is deleted that replay could need: in every run the record of an
acknowledged push is in the log, or a position at or above it was safe to commit, and
then its rows are in block files (`LogInv.kept`).
-/

namespace Parqtel.Ingest

open Parqtel.Lib Parqtel.Wal List State Option

variable {V : Type*} {env : Env V} {s s' : State V} {e : Event V}

def Logged (s : State V) (p : ℕ) (m : Metric V) : Prop := ⟨segmentOf p, p, some m⟩ ∈ s.dir.log

def SafeBeyond (s : State V) (p : ℕ) : Prop := ∃ c, p ≤ c ∧ Safe s c

structure LogInv (s : State V) : Prop where
  locked : ∀ sh ∈ s.shards, ∀ q ∈ sh.lock, Logged s q.pos q.metric
  acked : ∀ a ∈ s.acked, Logged s a.1 a.2 ∨ SafeBeyond s a.1

variable {p : ℕ}

theorem SafeBeyond.frame (h : SafeBeyond s p) (hf : Frame s s') : SafeBeyond s' p :=
  h.imp fun _ hc => ⟨hc.1, hc.2.frame hf⟩

theorem segmentOf_mono {q : ℕ} (h : p ≤ q) : segmentOf p ≤ segmentOf q := by
  simp only [segmentOf, Nat.shiftRight_eq_div_pow]
  exact Nat.div_le_div_right h

theorem mem_advance {d : WalDir (Metric V)} {r : WalRecord (Metric V)} {ok : Bool} (h : r ∈ d.log)
    (hp : segmentOf p ≤ r.segment) : r ∈ (d.advance p ok).log := by
  unfold WalDir.advance
  split_ifs
  · exact h
  · exact mem_filter.mpr ⟨h, decide_eq_true hp⟩
  · exact h

theorem LogInv.of_locks (h : LogInv s) (hf : Frame s s') (hdir : s'.dir = s.dir)
    (hacked : s'.acked = s.acked)
    (hlocks : ∀ sh' ∈ s'.shards, ∀ q' ∈ sh'.lock, ∃ sh ∈ s.shards, ∃ q ∈ sh.lock,
      q.pos = q'.pos ∧ q.metric = q'.metric) : LogInv s' where
  locked sh' hsh' q' hq' := by
    obtain ⟨sh, hsh, q, hq, hp, hm⟩ := hlocks sh' hsh' q' hq'
    rw [Logged, hdir, ← hp, ← hm]
    exact h.locked sh hsh q hq
  acked a ha := by
    rw [Logged, hdir]
    exact (h.acked a (hacked ▸ ha)).imp_right fun hs => hs.frame hf

theorem LogInv.append {j : ℕ} {io : AppendIo} (h : LogInv s) (hf : Frame s s')
    (hw : s.wal.isSome) (hok : appendFits env s (.append j io))
    (hs : s.append env j io = some s') : LogInv s' := by
  obtain ⟨c, sh, hc, -, -, -, rfl⟩ := append_cases hs
  obtain ⟨w, hwal⟩ := isSome_iff_exists.mp hw
  have hfits := hok c hc w hwal
  have hlog : (s.logMetric env c.metric io).2.2.log = s.dir.log ++
      ((w.appendEncoded (recordLen env c.metric) io).wrote.map
        fun p => ⟨w.segment, p, some c.metric⟩).toList := by
    simp [State.logMetric, hwal]
  have hmono : ∀ r ∈ s.dir.log, r ∈ (s.logMetric env c.metric io).2.2.log := fun r hr => by
    rw [hlog]
    exact mem_append_left _ hr
  refine ⟨forall_mem_set (fun sh hsh q hq => hmono _ (h.locked sh hsh q hq)) fun q hq => ?_,
    fun a ha => (h.acked a ha).imp (hmono _) fun hs => hs.frame hf⟩
  -- the record of the new push was written at the end
  simp only [State.logMetric, hwal, mem_def, map_eq_some_iff] at hq
  obtain ⟨p, hp, rfl⟩ := hq
  cases hr : (w.appendEncoded (recordLen env c.metric) io).result with
  | error err => rw [hr] at hp; cases hp
  | ok p' =>
    rw [hr] at hp
    cases hp
    have hwrote := WalWriter.appendEncoded_ok hr
    have hseg : segmentOf p = w.segment := WalWriter.segmentOf_wrote hfits hwrote
    show (⟨segmentOf p, p, some c.metric⟩ : WalRecord (Metric V)) ∈ _
    rw [hlog, hwrote, hseg]
    exact mem_append_right _ (mem_singleton.mpr rfl)

theorem LogInv.finish {i : ℕ} (h : LogInv s) (hf : Frame s s') (hs : s.finish i = some s') :
    LogInv s' := by
  obtain ⟨w, m, pos, closed, hsh, rfl⟩ := finish_cases hs
  have hnew : Logged s pos m := h.locked _ (mem_of_getElem? hsh) ⟨m, pos, .written closed⟩ rfl
  exact ⟨forall_mem_set h.locked nofun, forall_mem_concat
    (fun a ha => (h.acked a ha).imp_right fun hb => hb.frame hf) (.inl hnew)⟩

theorem LogInv.commit {k : ℕ} {ok : Bool} (h : LogInv s) (hi : NoLossInv s) (hf : Frame s s')
    (hs : s.commit k ok = some s') : LogInv s' := by
  obtain ⟨job, releasable, hjob, hph, rfl⟩ := commit_cases hs
  cases releasable with
  | none => exact ⟨h.locked, fun a ha => (h.acked a ha).imp_right fun hs => hs.frame hf⟩
  | some p =>
    have hsafe : Safe s p := hi.released job (mem_of_getElem? hjob) p hph
    refine ⟨fun sh hsh q hq => ?_, fun a ha => ?_⟩
    · have hlt := hsafe.below.lt_lock sh hsh q hq
      exact mem_advance (h.locked sh hsh q hq) (segmentOf_mono hlt.le)
    · rcases h.acked a ha with hl | hb
      · -- a record in a deleted segment lies below the new commit point
        rcases Nat.lt_or_ge p a.1 with hlt | hle
        · exact .inl (mem_advance hl (segmentOf_mono hlt.le))
        · exact .inr ⟨p, hle, hsafe.frame hf⟩
      · exact .inr (hb.frame hf)

/-- **Step lemma.** -/
theorem LogInv.step (h : LogInv s) (hi : NoLossInv s) (hok : appendFits env s e)
    (hs : step env s e = some s') : LogInv s' := by
  have hf := step_frame hi.wal hok hs
  have hsame : ∀ sh' ∈ s.shards, ∀ q' ∈ sh'.lock, ∃ sh ∈ s.shards, ∃ q ∈ sh.lock,
      q.pos = q'.pos ∧ q.metric = q'.metric := fun sh' h q' hq' => ⟨sh', h, q', hq', rfl, rfl⟩
  have hflush : ∀ sh' ∈ s.shards.map (State.swapWriter s.config), ∀ q' ∈ sh'.lock,
      ∃ sh ∈ s.shards, ∃ q ∈ sh.lock, q.pos = q'.pos ∧ q.metric = q'.metric := by
    intro sh' h q' hq'
    obtain ⟨sh, hsh, rfl⟩ := mem_map.mp h
    exact ⟨sh, hsh, q', swapWriter_lock s.config sh ▸ hq', rfl, rfl⟩
  have hlocked : ∀ cs (_ : Frame s { s.flushLocked with callers := cs }),
      LogInv { s.flushLocked with callers := cs } := by
    intro cs hf
    unfold State.flushLocked at hf ⊢
    split_ifs at hf ⊢
    · exact h.of_locks hf rfl rfl hsame
    · exact h.of_locks hf rfl rfl hflush
  cases e with
  | enter m => cases hs; exact h.of_locks hf rfl rfl hsame
  | capacityFlush j =>
    obtain ⟨cs, rfl | ⟨-, rfl⟩⟩ := capacityFlush_cases hs
    · exact h.of_locks hf rfl rfl hsame
    · exact hlocked cs hf
  | abandon j => obtain rfl := abandon_cases hs; exact h.of_locks hf rfl rfl hsame
  | append j io => exact h.append hf hi.wal hok hs
  | feed i =>
    obtain ⟨w, m, pos, hsh, rfl⟩ := feed_cases hs
    refine h.of_locks hf rfl rfl (forall_mem_set hsame fun q hq => ?_)
    cases hq
    exact ⟨_, mem_of_getElem? hsh, _, rfl, rfl, rfl⟩
  | write i ios =>
    obtain ⟨w, m, pos, hsh, rfl⟩ := write_cases hs
    refine h.of_locks hf rfl rfl (forall_mem_set hsame fun q hq => ?_)
    simp only [mem_def, map_eq_some_iff] at hq
    obtain ⟨bs, -, rfl⟩ := hq
    exact ⟨_, mem_of_getElem? hsh, _, rfl, rfl, rfl⟩
  | finish i => exact h.finish hf hs
  | flush =>
    obtain ⟨-, rfl⟩ := flush_cases hs
    exact hlocked s.flushLocked.callers hf
  | encode k io =>
    obtain ⟨job, -, -, ⟨b, file, -, rfl⟩ | ⟨err, file, -, rfl⟩⟩ := encode_cases hs
    · exact h.of_locks hf rfl rfl hsame
    · exact h.of_locks hf rfl rfl hsame
  | ack k => obtain ⟨job, -, -, rfl⟩ := ack_cases hs; exact h.of_locks hf rfl rfl hsame
  | giveUp k => obtain ⟨job, -, -, rfl⟩ := giveUp_cases hs; exact h.of_locks hf rfl rfl hsame
  | commit k ok => exact h.commit hi hf hs
  | release k =>
    obtain ⟨job, sealed, -, -, rfl⟩ := release_cases hs
    exact h.of_locks hf rfl rfl hsame
  | drop k => obtain ⟨job, w, r, -, -, rfl⟩ := drop_cases hs; exact h.of_locks hf rfl rfl hsame

theorem logInv_boot (config : BlockConfig) (n : ℕ) (w : WalWriter) (dir : WalDir (Metric V))
    (buffer : Option (Buffer.MemoryBuffer V)) (files : List (MetricBlock V)) :
    LogInv (State.boot config n (some w) dir buffer files) where
  locked sh hsh q hq := by
    obtain ⟨-, rfl⟩ := mem_replicate.mp hsh
    cases hq
  acked := nofun

theorem Safe.mem_fileRows {c : ℕ} (h : Safe s c) {a : ℕ × Metric V} (ha : a ∈ s.acked)
    (hle : a.1 ≤ c) : ∀ x ∈ a.2.rows, x ∈ s.fileRows := by
  intro x hx
  have hsub : (s.ackedUpTo c).Subperm s.fileRows := subperm_of_total_le fun wt => by
    rw [total_ackedUpTo, total_fileRows]
    exact h.covered wt
  refine hsub.subset (mem_flatMap.mpr ⟨a, ?_, hx⟩)
  exact mem_filter.mpr ⟨ha, decide_eq_true hle⟩

/-- **An acknowledged record is never gone.** Its rows are in files, or its record is in the log
above the commit point. -/
theorem LogInv.kept (h : LogInv s) (hi : NoLossInv s) {a : ℕ × Metric V} (ha : a ∈ s.acked) :
    (∀ x ∈ a.2.rows, x ∈ s.fileRows) ∨ s.dir.commit < a.1 ∧ Logged s a.1 a.2 := by
  rcases h.acked a ha with hl | ⟨c, hle, hc⟩
  · rcases Nat.lt_or_ge s.dir.commit a.1 with hlt | hle
    · exact .inr ⟨hlt, hl⟩
    · exact .inl (hi.commit.mem_fileRows ha hle)
  · exact .inl (hc.mem_fileRows ha hle)

end Parqtel.Ingest
