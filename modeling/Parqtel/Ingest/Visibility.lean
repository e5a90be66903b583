import Parqtel.Ingest.Rotator

/-!
# Buffered metrics stay visible

A query reads the memory buffer and the blocks the index was told about. A point
of a push that returned `Ok` should be in one of the two. The buffer tags points
with the epoch of the writer they went into, and blocks clear it by epoch, so the
argument relates tags and places: what a shard writer holds is buffered under the
writer's epoch, what an unwritten job holds is buffered under the epoch the job
sealed, and a drop spares those epochs (`DropSafe`).

Two events break this. A writer that closes a block in the middle of a push moves
on to the next epoch while the rest of the push is tagged with the old one. And a
flush that fails gives up its place in the drop order, so a later flush of the same
shard drops the failed flush's points together with its own. `visibleOk` rules the
two out.
-/

namespace Parqtel.Ingest

open Parqtel.Lib Parqtel.Wal Parqtel.Buffer List State MemoryBuffer FlushOrder Ingest FlushJob
  BlockWriter JobPhase

variable {V : Type*} {env : Env V} {s s' : State V} {e : Event V} {b b' : MemoryBuffer V}

/-! ## The property -/

def image (x : MetricRow V) : DataPoint V := bufferPoint x.resource x.point

/-- Every acknowledged point is in the buffer or in a block sent to the index. -/
def State.Visible (s : State V) : Prop :=
  ∀ a ∈ s.acked, ∀ x ∈ a.2.rows,
    (∃ b ∈ s.buffer, image x ∈ (b.slots x.name).points) ∨ ∃ blk ∈ s.sent, x ∈ blk.rows

/-- From `b` to `b'` points were only added, or a drop by epoch was made. -/
def LeavesByDrop (b b' : Option (MemoryBuffer V)) : Prop :=
  (∃ f, b' = b.map f ∧ ∀ c name, c.view name <+: view (f c) name) ∨
    ∃ sealed, b' = b.map (·.dropSealedMetrics sealed)

/-- A drop up to the epochs `v` takes no epoch of `sealed`. -/
def Spares (v sealed : List ℕ) : Prop :=
  ∀ i < sealed.length, 0 < sealed.getD i 0 → v.getD i 0 < sealed.getD i 0

instance (v sealed : List ℕ) : Decidable (Spares v sealed) := by
  unfold Spares
  infer_instance

def JobPhase.hasFailed (ph : JobPhase) : Bool := !ph.isWritten && ph ≠ .queued

def JobPhase.toDrop : JobPhase → Option (List ℕ)
  | dropping _ released => released
  | _ => none

/-- A push closes no block: the points fit, or the writer cannot be closed. -/
abbrev BlockWriter.ClosesNone (w : BlockWriter V) (m : Metric V) (ios : ℕ → BlockIo) : Prop :=
  w.rows + m.dataPoints.length ≤ w.capacity ∨ w.rows = 0 ∧ w.capacity = 0 ∨
    (ios 0).outcome ≠ .written

/-- The guard of a run: no writer closes a block by itself, and no drop takes an epoch that a
failed flush sealed. -/
def visibleOk (s : State V) : Event V → Prop
  | .write i ios => ∀ sh ∈ s.shards[i]?, ∀ q ∈ sh.lock, sh.writer.ClosesNone q.metric ios
  | .drop k => ∀ job ∈ s.jobs[k]?, ∀ v ∈ job.phase.toDrop,
      ∀ f ∈ s.jobs, f.phase.hasFailed = true → Spares v f.sealed
  | _ => True

instance (s : State V) (e : Event V) : Decidable (visibleOk s e) := by
  rcases e <;> unfold visibleOk <;> infer_instance

/-! ## Vectors of epochs -/

variable {v : List ℕ} {i : ℕ}

theorem getD_le_of_not_lt (h : ¬ i < v.length) : v.getD i 0 = 0 := by
  simp [List.getD, getElem?_eq_none (Nat.not_lt.mp h)]

theorem Spares.lt {sealed : List ℕ} (h : Spares v sealed) (hi : 0 < sealed.getD i 0) :
    v.getD i 0 < sealed.getD i 0 := by
  refine h i ?_ hi
  by_contra hn
  rw [getD_le_of_not_lt hn] at hi
  cases hi

theorem maxInto_getD_le (as bs : List ℕ) (i : ℕ) :
    (maxInto as bs).getD i 0 ≤ max (as.getD i 0) (bs.getD i 0) := by
  induction as generalizing bs i with
  | nil => cases bs <;> simp [maxInto]
  | cons a as ih =>
    cases bs with
    | nil => simp [maxInto]
    | cons b bs =>
      cases i with
      | zero => simp [maxInto]
      | succ i => simpa [maxInto] using ih bs i

theorem Spares.maxInto {w sealed : List ℕ} (hv : Spares v sealed) (hw : Spares w sealed) :
    Spares (maxInto v w) sealed := fun i hi hpos =>
  (maxInto_getD_le v w i).trans_lt (max_lt (hv i hi hpos) (hw i hi hpos))

theorem getD_replicate_zero (n i : ℕ) : (List.replicate n 0).getD i 0 = 0 := by
  by_cases h : i < n
  · simp [List.getD, h]
  · exact getD_le_of_not_lt (by simpa using h)

theorem spares_zero (n : ℕ) (sealed : List ℕ) : Spares (List.replicate n 0) sealed :=
  fun i _ hpos => by rwa [getD_replicate_zero]

theorem sealedTag_eq_false {ep : ℕ} (h : v.getD i 0 < ep) : sealedTag v ⟨i, ep⟩ = false := by
  simp only [sealedTag, Bool.and_eq_false_iff, decide_eq_false_iff_not]
  exact .inr (Nat.not_le.mpr h)

/-! ## The invariant -/

def Buffered (b : MemoryBuffer V) (t : Tag) (x : MetricRow V) : Prop := (t, image x) ∈ b.view x.name

variable {x : MetricRow V}

theorem Buffered.mem_points {t : Tag} (h : Buffered b t x) : image x ∈ (b.slots x.name).points := by
  rw [← Slot.view_points]
  exact mem_map_of_mem h

def JobPhase.isReleased : JobPhase → Bool
  | dropping _ _ | finished _ => true
  | _ => false

/-- The epochs a job lets go of: those it sealed, or none when it failed. -/
def FlushJob.lets (job : FlushJob V) : List ℕ :=
  if job.phase.isWritten then job.sealed else List.replicate job.sealed.length 0

def Released (jobs : List (FlushJob V)) (k : ℕ) (v : List ℕ) : Prop :=
  ∃ job, jobs[k]? = some job ∧ job.phase.isReleased = true ∧ v = job.lets

/-- The epochs `v` are older than those of the writers. -/
abbrev Older (shards : List (Shard V)) (v : List ℕ) : Prop :=
  ∀ (i : ℕ) (sh : Shard V), shards[i]? = some sh → v.getD i 0 < sh.writer.epoch

/-- A drop up to `v` takes neither what is in a shard writer nor what waits to be encoded. -/
structure DropSafe (s : State V) (v : List ℕ) : Prop where
  shards : ∀ (i : ℕ) (sh : Shard V), s.shards[i]? = some sh → v.getD i 0 < sh.writer.epoch
  queued : ∀ job ∈ s.jobs, job.phase = .queued → Spares v job.sealed

structure VisibleInv (s : State V) (b : MemoryBuffer V) : Prop where
  buffer : s.buffer = some b
  epoch_pos : ∀ sh ∈ s.shards, 0 < sh.writer.epoch
  held : ∀ (i : ℕ) (sh : Shard V), s.shards[i]? = some sh →
    ∀ x ∈ sh.writer.content, Buffered b ⟨i, sh.writer.epoch⟩ x
  fed : ∀ (i : ℕ) (sh : Shard V), s.shards[i]? = some sh → ∀ m pos,
    sh.lock = some ⟨m, pos, .buffered⟩ → ∀ x ∈ m.rows, Buffered b ⟨i, sh.writer.epoch⟩ x
  wrote : ∀ sh ∈ s.shards, ∀ m pos closed, sh.lock = some ⟨m, pos, .written closed⟩ →
    closed = [] ∧ ∀ x ∈ m.rows, x ∈ sh.writer.content
  unwritten : ∀ job ∈ s.jobs, job.phase.isWritten = false → ∀ x ∈ job.rows,
    ∃ i, 0 < job.sealed.getD i 0 ∧ Buffered b ⟨i, job.sealed.getD i 0⟩ x
  sealed_lt : ∀ job ∈ s.jobs, ∀ (i : ℕ) (sh : Shard V), s.shards[i]? = some sh →
    job.sealed.getD i 0 < sh.writer.epoch
  ordered : s.jobs.Pairwise fun j j' => Spares j.sealed j'.sealed
  seq : ∀ (k : ℕ) (job : FlushJob V), s.jobs[k]? = some job → job.seq = k
  next : s.order.nextSeq = s.jobs.length
  tracks : s.order.drop.Tracks (Released s.jobs)
  dropping : ∀ job ∈ s.jobs, ∀ v ∈ job.phase.toDrop, DropSafe s v
  acked : ∀ a ∈ s.acked, ∀ x ∈ a.2.rows, (∃ blk ∈ s.sent, x ∈ blk.rows) ∨
    (∃ sh ∈ s.shards, x ∈ sh.writer.content) ∨
    ∃ job ∈ s.jobs, job.phase.isWritten = false ∧ x ∈ job.rows

theorem VisibleInv.visible (h : VisibleInv s b) : s.Visible := by
  intro a ha x hx
  rcases h.acked a ha x hx with hsent | ⟨sh, hsh, hc⟩ | ⟨job, hjob, hw, hr⟩
  · exact .inr hsent
  · obtain ⟨i, hi⟩ := mem_iff_getElem?.mp hsh
    exact .inl ⟨b, h.buffer, (h.held i sh hi x hc).mem_points⟩
  · obtain ⟨i, -, hb⟩ := h.unwritten job hjob hw x hr
    exact .inl ⟨b, h.buffer, hb.mem_points⟩

theorem VisibleInv.callers (h : VisibleInv s b) (cs : List (Caller V)) :
    VisibleInv { s with callers := cs } b :=
  ⟨h.buffer, h.epoch_pos, h.held, h.fed, h.wrote, h.unwritten, h.sealed_lt, h.ordered, h.seq,
    h.next, h.tracks, fun job hj v hv => ⟨(h.dropping job hj v hv).shards,
      (h.dropping job hj v hv).queued⟩, h.acked⟩

/-! ## Steps of a push -/

variable {sh : Shard V}

/-- A step at one shard: its writer stays in its epoch and keeps its rows, the buffer keeps its
points, jobs are not touched. -/
theorem VisibleInv.of_shard (h : VisibleInv s b) {sh' : Shard V} (hsh : s.shards[i]? = some sh)
    (hshards : s'.shards = s.shards.set i sh') (hjobs : s'.jobs = s.jobs)
    (horder : s'.order = s.order) (hbuf : s'.buffer = some b')
    (hkeep : ∀ t x, Buffered b t x → Buffered b' t x) (hepoch : sh'.writer.epoch = sh.writer.epoch)
    (hstay : ∀ x ∈ sh.writer.content, x ∈ sh'.writer.content)
    (hheld : ∀ x ∈ sh'.writer.content, Buffered b' ⟨i, sh'.writer.epoch⟩ x)
    (hfed : ∀ m pos, sh'.lock = some ⟨m, pos, .buffered⟩ →
      ∀ x ∈ m.rows, Buffered b' ⟨i, sh'.writer.epoch⟩ x)
    (hwrote : ∀ m pos closed, sh'.lock = some ⟨m, pos, .written closed⟩ →
      closed = [] ∧ ∀ x ∈ m.rows, x ∈ sh'.writer.content)
    (hacked : ∀ a ∈ s'.acked, a ∈ s.acked ∨ ∀ x ∈ a.2.rows, x ∈ sh'.writer.content)
    (hsent : ∀ blk ∈ s.sent, blk ∈ s'.sent) :
    VisibleInv s' b' := by
  have hmem : sh' ∈ s'.shards := by
    rw [hshards]
    exact List.mem_of_getElem? (getElem?_set_of hsh sh')
  have hlt {v : List ℕ} (hv : Older s.shards v) : Older s'.shards v :=
    hshards ▸ forall_getElem?_set hv (hepoch ▸ hv i sh hsh)
  refine
    { buffer := hbuf
      epoch_pos := ?_
      held := ?_
      fed := ?_
      wrote := ?_
      unwritten := ?_
      sealed_lt := fun job hj => hlt (h.sealed_lt job (hjobs ▸ hj))
      ordered := hjobs ▸ h.ordered
      seq := hjobs ▸ h.seq
      next := by rw [horder, hjobs]; exact h.next
      tracks := by rw [horder, hjobs]; exact h.tracks
      dropping := ?_
      acked := ?_ }
  · rw [hshards]
    exact forall_mem_set h.epoch_pos (hepoch ▸ h.epoch_pos sh (List.mem_of_getElem? hsh))
  · rw [hshards]
    exact forall_getElem?_set (fun n x hx y hy => hkeep _ _ (h.held n x hx y hy)) hheld
  · rw [hshards]
    exact forall_getElem?_set
      (fun n x hx m pos hl y hy => hkeep _ _ (h.fed n x hx m pos hl y hy)) hfed
  · rw [hshards]
    exact forall_mem_set h.wrote hwrote
  · rw [hjobs]
    intro job hj hw x hx
    obtain ⟨n, hpos, hb⟩ := h.unwritten job hj hw x hx
    exact ⟨n, hpos, hkeep _ _ hb⟩
  · rw [hjobs]
    intro job hj v hv
    have hd := h.dropping job hj v hv
    exact ⟨hlt hd.shards, by rw [hjobs]; exact hd.queued⟩
  · intro a ha x hx
    rcases hacked a ha with ha | ha
    · rcases h.acked a ha x hx with ⟨blk, hblk, hx⟩ | ⟨y, hy, hx⟩ | hjob
      · exact .inl ⟨blk, hsent blk hblk, hx⟩
      · rcases mem_set_or hsh sh' hy with hy | ⟨rfl, -⟩
        · exact .inr (.inl ⟨y, hshards ▸ hy, hx⟩)
        · exact .inr (.inl ⟨sh', hmem, hstay x hx⟩)
      · exact .inr (.inr (hjobs ▸ hjob))
    · exact .inr (.inl ⟨sh', hmem, ha x hx⟩)

theorem VisibleInv.append {j : ℕ} {io : AppendIo} (h : VisibleInv s b)
    (hs : s.append env j io = some s') : VisibleInv s' b := by
  obtain ⟨c, sh, -, -, hsh, -, rfl⟩ := append_cases hs
  have hlock : ∀ q ∈ ((s.logMetric env c.metric io).1.map fun p =>
      (⟨c.metric, p, .logged⟩ : Push V)), q.phase = .logged := by
    intro q hq
    obtain ⟨p, -, rfl⟩ := Option.map_eq_some_iff.mp hq
    rfl
  refine h.of_shard hsh rfl rfl rfl h.buffer (fun _ _ => id) rfl (fun _ => id)
    (h.held _ sh hsh) (fun m pos hl => ?_) (fun m pos closed hl => ?_) (fun _ => .inl) fun _ => id
  · cases hlock _ hl
  · cases hlock _ hl

theorem VisibleInv.feed (h : VisibleInv s b) (hs : s.feed i = some s') :
    ∃ b', VisibleInv s' b' := by
  obtain ⟨w, m, pos, hsh, rfl⟩ := feed_cases hs
  refine ⟨b.pushMetricsTagged m.name (bufferPoints m) i w.epoch, h.of_shard hsh rfl rfl rfl
    (by rw [h.buffer]; rfl) (fun _ _ => mem_pushMetricsTagged) rfl (fun _ => id)
    (fun x hx => mem_pushMetricsTagged (h.held i _ hsh x hx)) ?_ nofun
    (fun _ => .inl) fun _ => id⟩
  intro m' pos' hl x hx
  cases hl
  -- the metric's points were just buffered under the epoch of the writer
  obtain ⟨p, hp, rfl⟩ := mem_map.mp hx
  rw [Buffered, view_pushMetricsTagged, if_pos rfl]
  exact mem_append_right _ (mem_map_of_mem (mem_map_of_mem hp))

theorem VisibleInv.write {ios : ℕ → BlockIo} (h : VisibleInv s b) (hok : visibleOk s (.write i ios))
    (hs : s.write i ios = some s') : VisibleInv s' b := by
  obtain ⟨w, m, pos, hsh, rfl⟩ := write_cases hs
  have hepoch : (w.push m ios).writer.epoch = w.epoch := by
    rcases hok _ hsh _ rfl with hfits | hio
    · obtain ⟨w', hpush, -, hepoch⟩ := push_fits ios hfits
      rw [hpush, hepoch]
    · exact pushLoop_epoch (Option.some_get _).symm hio
  have hspec := push_spec w m ios
  refine h.of_shard hsh rfl rfl rfl h.buffer (fun _ _ => id) hepoch (hspec.stays hepoch)
    (fun x hx => ?_) (fun m' pos' hl => ?_) (fun m' pos' closed hl => ?_)
    (fun _ => .inl) fun _ => id
  · simp only [hepoch]
    rcases hspec.only x hx with hx | hx
    · exact h.held i _ hsh x hx
    · exact h.fed i _ hsh m pos rfl x hx
  · obtain ⟨bs, -, hbs⟩ := Option.map_eq_some_iff.mp hl
    cases hbs
  · obtain ⟨bs, hr, hbs⟩ := Option.map_eq_some_iff.mp hl
    cases hbs
    cases hres : (w.push m ios).result with
    | error err => rw [hres] at hr; cases hr
    | ok bs' =>
      rw [hres] at hr
      cases hr
      obtain ⟨rfl, hperm⟩ := push_unclosed hres hepoch
      exact ⟨rfl, fun x hx => hperm.mem_iff.mpr (mem_append_right _ hx)⟩

theorem VisibleInv.finish (h : VisibleInv s b) (hs : s.finish i = some s') : VisibleInv s' b := by
  obtain ⟨w, m, pos, closed, hsh, rfl⟩ := finish_cases hs
  obtain ⟨rfl, hrows⟩ := h.wrote _ (List.mem_of_getElem? hsh) m pos closed rfl
  have hheld := h.held i _ hsh
  refine h.of_shard hsh rfl rfl rfl ?_ (fun _ _ => id) rfl (fun _ => id) hheld
    nofun nofun (fun a ha => ?_) fun _ hblk => mem_append_left _ hblk
  · exact h.buffer
  · rcases List.mem_append.mp ha with ha | ha
    · exact .inl ha
    · obtain rfl := mem_singleton.mp ha
      exact .inr hrows

/-! ## Steps of a job -/

section Jobs
variable {k : ℕ} {job : FlushJob V} {ph : JobPhase}

theorem Released.set (ph : JobPhase) (hjob : s.jobs[k]? = some job)
    (hrel : job.phase.isReleased = true → ph.isReleased = true ∧ ph.isWritten = job.phase.isWritten)
    {n : ℕ} (h : Released s.jobs n v) : Released (s.jobs.set k { job with phase := ph }) n v := by
  obtain ⟨j, hj, hr, rfl⟩ := h
  rcases getElem?_set_or hjob { job with phase := ph } hj with hj | ⟨rfl, hnew⟩
  · exact ⟨j, hj, hr, rfl⟩
  · refine ⟨_, hnew, (hrel hr).1, ?_⟩
    simp only [lets, (hrel hr).2]

theorem DropSafe.set (h : DropSafe s v) (hshards : s'.shards = s.shards)
    (hjobs : s'.jobs = s.jobs.set k { job with phase := ph })
    (hph : ph ≠ .queued) : DropSafe s' v := by
  refine ⟨hshards ▸ h.shards, fun j hj hq => ?_⟩
  rcases mem_or_eq_of_mem_set (hjobs ▸ hj) with hj | rfl
  · exact h.queued j hj hq
  · exact absurd hq hph

/-- A step of a job that has been encoded or is being encoded. Its rows stay in the account of
unwritten jobs or are in a block that was sent. -/
theorem VisibleInv.of_job (h : VisibleInv s b) (hjob : s.jobs[k]? = some job)
    (hjobs : s'.jobs = s.jobs.set k { job with phase := ph }) (hshards : s'.shards = s.shards)
    (hacked : s'.acked = s.acked) (hbuf : s'.buffer = some b')
    (hkeep : ∀ j ∈ s.jobs, j.phase.isWritten = false → ∀ i, 0 < j.sealed.getD i 0 → ∀ x,
      Buffered b ⟨i, j.sealed.getD i 0⟩ x → Buffered b' ⟨i, j.sealed.getD i 0⟩ x)
    (hkeep' : ∀ (i : ℕ) (sh : Shard V), s.shards[i]? = some sh → ∀ x,
      Buffered b ⟨i, sh.writer.epoch⟩ x → Buffered b' ⟨i, sh.writer.epoch⟩ x)
    (hnext : s'.order.nextSeq = s.order.nextSeq)
    (htracks : s'.order.drop.Tracks (Released s'.jobs))
    (hq : ph ≠ .queued) (hdrop : ∀ v ∈ ph.toDrop, DropSafe s' v)
    (hw : ph.isWritten = false → job.phase.isWritten = false)
    (hsent : ∀ blk ∈ s.sent, blk ∈ s'.sent)
    (hout : job.phase.isWritten = false → ph.isWritten = true →
      ∀ x ∈ job.rows, ∃ blk ∈ s'.sent, x ∈ blk.rows) : VisibleInv s' b' := by
  have hmem : job ∈ s.jobs := List.mem_of_getElem? hjob
  refine
    { buffer := hbuf
      epoch_pos := hshards ▸ h.epoch_pos
      held := ?_
      fed := ?_
      wrote := hshards ▸ h.wrote
      unwritten := ?_
      sealed_lt := ?_
      ordered := ?_
      seq := ?_
      next := by rw [hnext, hjobs, length_set]; exact h.next
      tracks := htracks
      dropping := ?_
      acked := ?_ }
  · rw [hshards]
    exact fun i sh hsh x hx => hkeep' i sh hsh x (h.held i sh hsh x hx)
  · rw [hshards]
    exact fun i sh hsh m pos hl x hx => hkeep' i sh hsh x (h.fed i sh hsh m pos hl x hx)
  · have hold (j : FlushJob V) (hj : j ∈ s.jobs) (hjw : j.phase.isWritten = false) x hx :=
      (h.unwritten j hj hjw x hx).imp fun i hi => And.intro hi.1 (hkeep j hj hjw i hi.1 x hi.2)
    rw [hjobs]
    exact forall_mem_set hold fun hjw => hold job hmem (hw hjw)
  · rw [hshards, hjobs]
    exact forall_mem_set h.sealed_lt (h.sealed_lt job hmem)
  · rw [hjobs]
    -- the sealed epochs of the list are the same as before
    have hord := h.ordered
    rw [← pairwise_map (f := sealed) (R := Spares)] at hord ⊢
    rwa [map_set_eq sealed hjob (by rfl)]
  · rw [hjobs]
    exact forall_getElem?_set h.seq (h.seq k job hjob)
  · rw [hjobs]
    exact forall_mem_set (fun j hj v hv => (h.dropping j hj v hv).set hshards hjobs hq) hdrop
  · rw [hacked, hshards]
    intro a ha x hx
    rcases h.acked a ha x hx with ⟨blk, hblk, hx⟩ | hsh | ⟨j, hj, hjw, hx⟩
    · exact .inl ⟨blk, hsent blk hblk, hx⟩
    · exact .inr (.inl hsh)
    · rcases mem_set_or hjob { job with phase := ph } hj with hj | ⟨rfl, hnew⟩
      · exact .inr (.inr ⟨j, hjobs ▸ hj, hjw, hx⟩)
      · cases hpw : ph.isWritten with
        | true => exact .inl (hout hjw hpw x hx)
        | false => exact .inr (.inr ⟨{ j with phase := ph }, hjobs ▸ hnew, hpw, hx⟩)

theorem VisibleInv.phase (h : VisibleInv s b) (hjob : s.jobs[k]? = some job)
    (hjobs : s'.jobs = s.jobs.set k { job with phase := ph }) (hshards : s'.shards = s.shards)
    (hacked : s'.acked = s.acked) (hbuf : s'.buffer = s.buffer)
    (hnext : s'.order.nextSeq = s.order.nextSeq) (hdrop : s'.order.drop = s.order.drop)
    (hold : job.phase.isReleased = false) (hq : ph ≠ .queued) (hnone : ph.toDrop = none)
    (hw : ph.isWritten = false → job.phase.isWritten = false)
    (hsent : ∀ blk ∈ s.sent, blk ∈ s'.sent)
    (hout : job.phase.isWritten = false → ph.isWritten = true →
      ∀ x ∈ job.rows, ∃ blk ∈ s'.sent, x ∈ blk.rows) : VisibleInv s' b := by
  refine h.of_job hjob hjobs hshards hacked (hbuf.trans h.buffer) (fun _ _ _ _ _ _ => id)
    (fun _ _ _ _ => id) hnext ?_ hq (by rw [hnone]; exact nofun) hw hsent hout
  rw [hdrop, hjobs]
  exact h.tracks.mono fun n v => Released.set _ hjob fun hr => absurd hr (by simp [hold])

end Jobs

variable {k : ℕ}

theorem VisibleInv.encode {io : BlockIo} (h : VisibleInv s b) (hs : s.encode k io = some s') :
    VisibleInv s' b := by
  obtain ⟨job, hjob, hq, ⟨blk, file, hm, rfl⟩ | ⟨err, file, -, rfl⟩⟩ := encode_cases hs
  · obtain ⟨-, -, hrows⟩ := mergeAndFlush_ok hm
    have hph : s.sentPhase ≠ .queued ∧ s.sentPhase.toDrop = none := by
      unfold sentPhase
      split_ifs <;> exact ⟨nofun, rfl⟩
    refine h.phase hjob rfl rfl rfl rfl rfl rfl (by rw [hq]; rfl) hph.1 hph.2 (by simp)
      (fun _ hblk => mem_append_left _ hblk) fun _ _ x hx => ?_
    exact ⟨blk, mem_append_right _ mem_cons_self,
      (perm_of_total_eq hrows).mem_iff.mpr hx⟩
  · exact h.phase hjob rfl rfl rfl rfl rfl rfl (by rw [hq]; rfl) nofun rfl
      (fun _ => by rw [hq]; rfl) (fun _ => id) nofun

/-- What a release lets go spares the shard writers and the jobs that wait to be encoded. -/
theorem VisibleInv.dropSafe_lets (h : VisibleInv s b) {f : Frontier (List ℕ)}
    {jobs : List (FlushJob V)} (ht : f.Tracks (Released jobs))
    (hsame : ∀ (n : ℕ) (j : FlushJob V), jobs[n]? = some j → ∃ j₀, s.jobs[n]? = some j₀ ∧
      j.sealed = j₀.sealed ∧ (j₀.phase = .queued → j.phase.isReleased = false))
    {n : ℕ} (hn : n < f.frontier) (hv : Released jobs n v) :
    DropSafe s v := by
  obtain ⟨j, hj, hrel, rfl⟩ := hv
  obtain ⟨j₀, hj₀, hsealed, -⟩ := hsame n j hj
  have hmem := List.mem_of_getElem? hj₀
  unfold lets
  split_ifs
  · refine ⟨fun i sh hsh => hsealed ▸ h.sealed_lt j₀ hmem i sh hsh, fun job hjob hq => ?_⟩
    -- a queued job has not let go, so it comes after the frontier
    obtain ⟨k, hk⟩ := mem_iff_getElem?.mp hjob
    have hlt : n < k := by
      by_contra hle
      obtain ⟨w, j', hj', hr, -⟩ := ht.passed k (by omega)
      obtain ⟨j₁, hj₁, -, hnot⟩ := hsame k j' hj'
      rw [hk] at hj₁
      cases hj₁
      rw [hnot hq] at hr
      cases hr
    obtain ⟨hn', rfl⟩ := List.getElem?_eq_some_iff.mp hj₀
    obtain ⟨hk', rfl⟩ := List.getElem?_eq_some_iff.mp hk
    exact hsealed ▸ List.pairwise_iff_getElem.mp h.ordered n k hn' hk' hlt
  · refine ⟨fun i sh hsh => ?_, fun job _ _ => spares_zero _ _⟩
    rw [getD_replicate_zero]
    exact h.epoch_pos sh (List.mem_of_getElem? hsh)

theorem DropSafe.maxInto {w : List ℕ} (hv : DropSafe s v) (hw : DropSafe s w) :
    DropSafe s (maxInto v w) :=
  ⟨fun i sh hsh => (maxInto_getD_le v w i).trans_lt
      (max_lt (hv.shards i sh hsh) (hw.shards i sh hsh)),
    fun job hj hq => (hv.queued job hj hq).maxInto (hw.queued job hj hq)⟩

theorem VisibleInv.release (h : VisibleInv s b) (hs : s.release k = some s') : VisibleInv s' b := by
  obtain ⟨job, sealed, hjob, hph, rfl⟩ := release_cases hs
  have hlets : sealed = job.lets ∧ job.phase.isReleased = false ∧ job.phase ≠ .queued := by
    rcases hph with ⟨hp, rfl⟩ | ⟨hp, rfl⟩ <;> simp [lets, hp, isWritten,
      isReleased]
  obtain ⟨rfl, hold, hnq⟩ := hlets
  generalize hr : s.order.dropComplete job.seq job.lets = r at *
  have hjobs : (s.jobs.set k { job with phase := .dropping job.phase.isWritten r.1 })[job.seq]? =
      some { job with phase := .dropping job.phase.isWritten r.1 } := by
    rw [h.seq k job hjob]
    exact getElem?_set_of hjob _
  have ht := h.tracks.mono fun n v => Released.set (.dropping job.phase.isWritten r.1) hjob
    fun hr => absurd hr (by simp [hold])
  have hD : Released (s.jobs.set k { job with phase := .dropping job.phase.isWritten r.1 })
      job.seq job.lets := ⟨_, hjobs, rfl, rfl⟩
  have ht' : r.2.drop.Tracks
      (Released (s.jobs.set k { job with phase := .dropping job.phase.isWritten r.1 })) := by
    have hdrop : r.2.drop = (s.order.drop.complete maxInto job.seq job.lets).2 := by
      rw [← hr]; rfl
    rw [hdrop]
    exact ht.complete hD
  refine h.of_job hjob rfl rfl rfl h.buffer (fun _ _ _ _ _ _ => id) (fun _ _ _ _ => id)
    (by rw [← hr]; rfl) ht' nofun (fun v hv => ?_) (fun hw => hw) (fun _ => id)
    fun hw hw' => absurd (hw.symm.trans hw') (by decide)
  have hsame : ∀ (n : ℕ) (j : FlushJob V),
      (s.jobs.set k { job with phase := .dropping job.phase.isWritten r.1 })[n]? = some j →
      ∃ j₀, s.jobs[n]? = some j₀ ∧ j.sealed = j₀.sealed ∧
        (j₀.phase = .queued → j.phase.isReleased = false) := by
    refine forall_getElem?_set (fun n j hj => ⟨j, hj, rfl, fun hq => ?_⟩)
      ⟨job, hjob, rfl, fun hq => absurd hq hnq⟩
    rw [hq]
    rfl
  have hv' : v ∈ (s.order.drop.complete maxInto job.seq job.lets).1 := by
    have : v ∈ r.1 := hv
    rwa [← hr] at this
  have hsafe : DropSafe s v := by
    refine Frontier.complete_released (fun _ _ => DropSafe.maxInto) ht hD
      (fun j w _ hj hDw => ?_) v hv'
    exact h.dropSafe_lets (ht.complete hD) hsame hj hDw
  exact hsafe.set rfl rfl nofun

theorem VisibleInv.drop (h : VisibleInv s b) (hok : visibleOk s (.drop k))
    (hs : s.drop k = some s') :
    ∃ b', VisibleInv s' b' := by
  obtain ⟨job, written, released, hjob, hph, rfl⟩ := drop_cases hs
  have hwr : job.phase.isWritten = written := by rw [hph]; rfl
  have htracks := h.tracks.mono fun n v => Released.set (.finished written) hjob
    fun _ => ⟨rfl, hwr.symm⟩
  have hout : job.phase.isWritten = false → (finished written).isWritten = true →
      ∀ x ∈ job.rows, ∃ blk ∈ s.sent, x ∈ blk.rows :=
    fun h1 h2 => absurd ((hwr.symm.trans h1).symm.trans h2) (by decide)
  cases released with
  | none =>
    exact ⟨b, h.of_job hjob rfl rfl rfl h.buffer (fun _ _ _ _ _ _ => id) (fun _ _ _ _ => id) rfl
      htracks nofun nofun (fun hw => hwr.trans hw) (fun _ => id) hout⟩
  | some v =>
    have hdrop : v ∈ job.phase.toDrop := by rw [hph]; rfl
    have hsafe := h.dropping job (List.mem_of_getElem? hjob) v hdrop
    refine ⟨b.dropSealedMetrics v, h.of_job hjob rfl rfl rfl (by simp [h.buffer])
      (fun j hj hjw i hpos x hx => ?_)
      (fun i sh hsh x hx => mem_dropSealedMetrics hx
        (sealedTag_eq_false (hsafe.shards i sh hsh))) rfl
      htracks nofun nofun (fun hw => hwr.trans hw) (fun _ => id) hout⟩
    refine mem_dropSealedMetrics hx (sealedTag_eq_false ?_)
    by_cases hq : j.phase = .queued
    · exact (hsafe.queued j hj hq).lt hpos
    · exact (hok job hjob v hdrop j hj (by simp [hasFailed, hjw, hq])).lt hpos

/-! ## Flushing -/

theorem sealedEpochs_getD (h : s.shards[i]? = some sh) :
    s.sealedEpochs.getD i 0 = if sh.writer.isEmpty then 0 else sh.writer.epoch := by
  simp [sealedEpochs, List.getD, h]

theorem sealedEpochs_pos (h : 0 < s.sealedEpochs.getD i 0) :
    ∃ sh, s.shards[i]? = some sh ∧ s.sealedEpochs.getD i 0 = sh.writer.epoch := by
  cases hsh : s.shards[i]? with
  | none => simp [sealedEpochs, List.getD, hsh] at h
  | some sh =>
    rw [sealedEpochs_getD hsh] at h ⊢
    split_ifs at h ⊢ with he
    · cases h
    · exact ⟨sh, rfl, rfl⟩

theorem swapWriter_content (config : BlockConfig) (sh : Shard V) :
    (swapWriter config sh).writer.content = [] := by
  unfold swapWriter
  split_ifs with h
  · exact content_of_isEmpty h
  · rfl

theorem swapWriter_epoch (config : BlockConfig) (sh : Shard V) :
    (swapWriter config sh).writer.epoch =
      if sh.writer.isEmpty then sh.writer.epoch else sh.writer.epoch + 1 := by
  unfold swapWriter
  split_ifs <;> rfl

theorem le_swapWriter_epoch (config : BlockConfig) (sh : Shard V) :
    sh.writer.epoch ≤ (swapWriter config sh).writer.epoch := by
  rw [swapWriter_epoch]
  split_ifs <;> omega

theorem mem_takenWriters (h : x ∈ s.takenWriters.flatMap content) :
    ∃ (i : ℕ) (sh : Shard V), s.shards[i]? = some sh ∧ x ∈ sh.writer.content ∧
      s.sealedEpochs.getD i 0 = sh.writer.epoch := by
  obtain ⟨w, hw, hx⟩ := mem_flatMap.mp h
  obtain ⟨hw, hne⟩ := mem_filter.mp hw
  obtain ⟨sh, hsh, rfl⟩ := mem_map.mp hw
  obtain ⟨i, hi⟩ := mem_iff_getElem?.mp hsh
  refine ⟨i, sh, hi, hx, ?_⟩
  rw [sealedEpochs_getD hi, if_neg (by simpa using hne)]

theorem mem_takenWriters_of_content (hsh : sh ∈ s.shards) (hx : x ∈ sh.writer.content) :
    x ∈ s.takenWriters.flatMap content := by
  refine mem_flatMap.mpr ⟨sh.writer, mem_filter.mpr
    ⟨mem_map_of_mem hsh, ?_⟩, hx⟩
  by_contra hn
  rw [content_of_isEmpty (by simpa using hn)] at hx
  cases hx

theorem VisibleInv.flushLocked (h : VisibleInv s b) (hu : s.unlocked = true) :
    VisibleInv s.flushLocked b := by
  unfold State.flushLocked
  split_ifs
  · exact h
  have hshards : ∀ (i : ℕ) (x : Shard V), (s.shards.map (swapWriter s.config))[i]? = some x →
      ∃ sh, s.shards[i]? = some sh ∧ x = swapWriter s.config sh := by
    intro i x hx
    rw [getElem?_map] at hx
    obtain ⟨sh, hsh, rfl⟩ := Option.map_eq_some_iff.mp hx
    exact ⟨sh, hsh, rfl⟩
  have hmem : ∀ x ∈ s.shards.map (swapWriter s.config), x.lock = none ∧
      ∃ sh ∈ s.shards, x = swapWriter s.config sh := by
    intro x hx
    obtain ⟨sh, hsh, rfl⟩ := mem_map.mp hx
    rw [swapWriter_lock]
    exact ⟨by simpa using all_eq_true.mp hu sh hsh, sh, hsh, rfl⟩
  have hlt {v : List ℕ} (hv : Older s.shards v) :
      Older (s.shards.map (swapWriter s.config)) v := by
    intro i x hx
    obtain ⟨sh, hsh, rfl⟩ := hshards i x hx
    exact (hv i sh hsh).trans_le (le_swapWriter_epoch _ _)
  have hspares {v : List ℕ} (hv : Older s.shards v) : Spares v s.sealedEpochs := by
    intro i _ hpos
    obtain ⟨sh, hsh, he⟩ := sealedEpochs_pos hpos
    exact he ▸ hv i sh hsh
  refine
    { buffer := h.buffer
      epoch_pos := fun x hx => ?_
      held := fun i x hx y hy => ?_
      fed := fun i x hx m pos hl => ?_
      wrote := fun x hx m pos closed hl => ?_
      unwritten := forall_mem_concat h.unwritten fun _ x hx => ?_
      sealed_lt := forall_mem_concat (fun job hj => hlt (h.sealed_lt job hj)) fun i x hx => ?_
      ordered := ?_
      seq := forall_getElem?_concat h.seq h.next
      next := by simp only [begin, h.next, length_append, length_singleton]
      tracks := ?_
      dropping := ?_
      acked := fun a ha x hx => ?_ }
  · obtain ⟨-, sh, hsh, rfl⟩ := hmem x hx
    exact (h.epoch_pos sh hsh).trans_le (le_swapWriter_epoch _ _)
  · obtain ⟨sh, -, rfl⟩ := hshards i x hx
    rw [swapWriter_content] at hy
    cases hy
  · rw [(hmem x (List.mem_of_getElem? hx)).1] at hl
    cases hl
  · rw [(hmem x hx).1] at hl
    cases hl
  · obtain ⟨i, sh, hsh, hx, he⟩ := mem_takenWriters hx
    refine ⟨i, ?_, ?_⟩
    · rw [he]; exact h.epoch_pos sh (List.mem_of_getElem? hsh)
    · rw [he]; exact h.held i sh hsh x hx
  · obtain ⟨sh, hsh, rfl⟩ := hshards i x hx
    have hpos := h.epoch_pos sh (List.mem_of_getElem? hsh)
    simp only [sealedEpochs_getD hsh, swapWriter_epoch]
    split_ifs <;> omega
  · refine pairwise_append.mpr ⟨h.ordered, pairwise_singleton _ _, ?_⟩
    intro j hj j' hj'
    obtain rfl := mem_singleton.mp hj'
    exact hspares (h.sealed_lt j hj)
  · refine Frontier.Tracks.mono (D := Released s.jobs) h.tracks fun k v hv => ?_
    obtain ⟨job, hjob, hr, rfl⟩ := hv
    exact ⟨job, getElem?_append_of hjob _, hr, rfl⟩
  · refine forall_mem_concat (fun job hj v hv => ?_) nofun
    have hd := h.dropping job hj v hv
    exact ⟨hlt hd.shards, forall_mem_concat hd.queued fun _ => hspares hd.shards⟩
  · rcases h.acked a ha x hx with hsent | ⟨sh, hsh, hx⟩ | ⟨job, hj, hw, hx⟩
    · exact .inl hsent
    · exact .inr (.inr ⟨_, mem_append_right _ mem_cons_self, rfl,
        mem_takenWriters_of_content hsh hx⟩)
    · exact .inr (.inr ⟨job, mem_append_left _ hj, hw, hx⟩)

/-! ## Runs -/

/-- **Step lemma.** -/
theorem VisibleInv.step (h : VisibleInv s b) (hok : visibleOk s e)
    (hs : step env s e = some s') : ∃ b', VisibleInv s' b' := by
  cases e with
  | enter m => cases hs; exact ⟨b, h.callers _⟩
  | capacityFlush j =>
    obtain ⟨cs, rfl | ⟨hu, rfl⟩⟩ := capacityFlush_cases hs
    · exact ⟨b, h.callers cs⟩
    · exact ⟨b, (h.flushLocked hu).callers cs⟩
  | abandon j => obtain rfl := abandon_cases hs; exact ⟨b, h.callers _⟩
  | append j io => exact ⟨b, h.append hs⟩
  | feed i => exact h.feed hs
  | write i ios => exact ⟨b, h.write hok hs⟩
  | finish i => exact ⟨b, h.finish hs⟩
  | flush =>
    obtain ⟨hu, rfl⟩ := flush_cases hs
    exact ⟨b, h.flushLocked hu⟩
  | encode k io => exact ⟨b, h.encode hs⟩
  | ack k =>
    obtain ⟨job, hjob, hph, rfl⟩ := ack_cases hs
    exact ⟨b, h.phase hjob rfl rfl rfl rfl rfl rfl (by rw [hph]; rfl) nofun rfl nofun
      (fun _ => id) fun hw => by rw [hph] at hw; cases hw⟩
  | giveUp k =>
    obtain ⟨job, hjob, hph, rfl⟩ := giveUp_cases hs
    exact ⟨b, h.phase hjob rfl rfl rfl rfl rfl rfl (by rw [hph]; rfl) nofun rfl nofun
      (fun _ => id) fun hw => by rw [hph] at hw; cases hw⟩
  | commit k ok =>
    obtain ⟨job, releasable, hjob, hph, rfl⟩ := commit_cases hs
    exact ⟨b, h.phase hjob rfl rfl rfl rfl rfl rfl (by rw [hph]; rfl) nofun rfl nofun
      (fun _ => id) fun hw => by rw [hph] at hw; cases hw⟩
  | release k => exact ⟨b, h.release hs⟩
  | drop k => exact h.drop hok hs

theorem visibleInv_boot (config : BlockConfig) (n : ℕ) (wal : Option WalWriter)
    (dir : WalDir (Metric V)) (files : List (MetricBlock V)) :
    VisibleInv (boot config n wal dir (some new) files) new := by
  have hsh : ∀ sh ∈ (boot config n wal dir (some new) files).shards,
      sh = ⟨new config, none⟩ := fun sh h => (mem_replicate.mp h).2
  refine
    { buffer := rfl
      epoch_pos := fun sh h => hsh sh h ▸ Nat.one_pos
      held := fun i sh h x hx => ?_
      fed := fun i sh h m pos hl => ?_
      wrote := fun sh h m pos closed hl => ?_
      unwritten := nofun
      sealed_lt := nofun
      ordered := List.Pairwise.nil
      seq := nofun
      next := rfl
      tracks := Frontier.tracks_empty
      dropping := nofun
      acked := nofun }
  · rw [hsh sh (List.mem_of_getElem? h)] at hx
    cases hx
  · rw [hsh sh (List.mem_of_getElem? h)] at hl
    cases hl
  · rw [hsh sh h] at hl
    cases hl

theorem LeavesByDrop.refl (b : Option (MemoryBuffer V)) : LeavesByDrop b b :=
  .inl ⟨id, by simp, fun c name => prefix_refl _⟩

theorem flushLocked_buffer (s : State V) : s.flushLocked.buffer = s.buffer := by
  unfold State.flushLocked
  split_ifs <;> rfl

theorem leavesByDrop_step (hs : step env s e = some s') : LeavesByDrop s.buffer s'.buffer := by
  cases e with
  | enter m => cases hs; exact .refl _
  | capacityFlush j =>
    obtain ⟨cs, rfl | ⟨-, rfl⟩⟩ := capacityFlush_cases hs
    · exact .refl _
    · rw [show ({ s.flushLocked with callers := cs } : State V).buffer = s.buffer from
        flushLocked_buffer s]
      exact .refl _
  | abandon j => obtain rfl := abandon_cases hs; exact .refl _
  | append j io => obtain ⟨c, sh, -, -, -, -, rfl⟩ := append_cases hs; exact .refl _
  | feed i =>
    obtain ⟨w, m, pos, -, rfl⟩ := feed_cases hs
    refine .inl ⟨_, rfl, fun c name => ?_⟩
    rw [view_pushMetricsTagged]
    exact prefix_append _ _
  | write i ios => obtain ⟨w, m, pos, -, rfl⟩ := write_cases hs; exact .refl _
  | finish i =>
    obtain ⟨w, m, pos, closed, -, rfl⟩ := finish_cases hs
    split_ifs
    · exact .inr ⟨_, rfl⟩
    · exact .refl _
  | flush =>
    obtain ⟨-, rfl⟩ := flush_cases hs
    rw [flushLocked_buffer]
    exact .refl _
  | encode k io =>
    obtain ⟨job, -, -, ⟨b, file, -, rfl⟩ | ⟨err, file, -, rfl⟩⟩ := encode_cases hs
    all_goals exact .refl _
  | ack k => obtain ⟨job, -, -, rfl⟩ := ack_cases hs; exact .refl _
  | giveUp k => obtain ⟨job, -, -, rfl⟩ := giveUp_cases hs; exact .refl _
  | commit k ok => obtain ⟨job, r, -, -, rfl⟩ := commit_cases hs; exact .refl _
  | release k => obtain ⟨job, v, -, -, rfl⟩ := release_cases hs; exact .refl _
  | drop k =>
    obtain ⟨job, w, released, -, -, rfl⟩ := drop_cases hs
    cases released with
    | none => exact .refl _
    | some v => exact .inr ⟨v, rfl⟩

/-- **Buffered metrics stay visible.** In every run in which no writer closes a block by itself and
no drop takes an epoch that a failed flush sealed, every acknowledged point is in the memory buffer
or in a block that was sent to the index; and points leave the buffer only by sealed epochs. -/
theorem acked_metrics_visible (env : Env V) (config : BlockConfig) (shards : ℕ)
    (wal : Option WalWriter) (dir : WalDir (Metric V)) (files : List (MetricBlock V))
    (s : State V)
    (h : Run (step env) visibleOk
      (boot config shards wal dir (some new) files) s) :
    s.Visible ∧ ∀ e s', step env s e = some s' → LeavesByDrop s.buffer s'.buffer := by
  obtain ⟨b, hb⟩ := h.inv (I := fun s => ∃ b, VisibleInv s b)
    ⟨_, visibleInv_boot config shards wal dir files⟩ fun _ _ _ hi hok hs => hi.elim fun _ hi =>
      hi.step hok hs
  exact ⟨hb.visible, fun e s' => leavesByDrop_step⟩

def State.hides [DecidableEq V] (s : State V) (x : MetricRow V) : Bool :=
  s.unlocked && s.acked.any (fun a => x ∈ a.2.rows) &&
    s.buffer.all (fun b => image x ∉ (b.slots x.name).points) && s.sent.all fun blk => x ∉ blk.rows

theorem not_visible_of_hides [DecidableEq V] (h : s.hides x = true) :
    s.unlocked = true ∧ ¬ s.Visible := by
  simp only [hides, Bool.and_eq_true, any_eq_true, all_eq_true, decide_eq_true_eq,
    Option.all_eq_true] at h
  obtain ⟨⟨⟨hu, a, ha, hx⟩, hbuf⟩, hsent⟩ := h
  refine ⟨hu, fun hv => ?_⟩
  rcases hv a ha x hx with ⟨b, hb, hi⟩ | ⟨blk, hblk, hi⟩
  · exact hbuf b hb hi
  · exact hsent blk hblk hi

namespace Sample

def bootBuffered (n : ℕ) : State Unit :=
  boot (config n) 1 (some ⟨0, 0, 2 ^ 26, none⟩) ⟨0, []⟩ (some new) []

def twoFlushes (io : BlockIo) : List (Event Unit) :=
  push (metric "a" [1]) (fun _ => .fine) ++ [.flush, .encode 0 io, .release 0, .drop 0] ++
    push (metric "a" [2]) (fun _ => .fine) ++ [.flush] ++ complete 1

end Sample

open Sample in
/-- The guard is met by a run that flushes one point and keeps a later one buffered. -/
theorem acked_metrics_visible_flush : ∃ s : State Unit, s.acked.length = 2 ∧ s.Visible := by
  obtain ⟨s, hrun, hs⟩ := exists_run (step oneShard) visibleOk (bootBuffered 10)
    (fun s => s.acked.length = 2)
    (push (metric "a" [1]) (fun _ => .fine) ++ [.flush] ++ complete 0 ++
      push (metric "a" [2]) fun _ => .fine) (by decide)
  exact ⟨s, hs, (acked_metrics_visible oneShard _ _ _ _ _ s hrun).1⟩

open Sample in
/-- **Two ways to lose sight of a point.** A metric of three points in blocks of two: the third
point is in the writer, but the close of the first two drops all three from the buffer. And a flush
that fails: the next flush of the shard drops the failed flush's point with its own. -/
theorem acked_metric_hidden :
    (∃ s : State Unit, Reach (step oneShard) (bootBuffered 2) s ∧
      s.unlocked = true ∧ ¬ s.Visible) ∧
    ∃ s : State Unit, Reach (step oneShard) (bootBuffered 10) s ∧
      s.unlocked = true ∧ ¬ s.Visible := by
  constructor
  · obtain ⟨s, hrun, hs⟩ := exists_run (step oneShard) (fun _ _ => True) (bootBuffered 2)
      (fun s => s.hides (row "a" 3))
      [.enter (metric "a" [1, 2, 3]), .capacityFlush 0, .append 0 .fine, .feed 0,
        .write 0 fun _ => .fine, .finish 0] (by decide)
    exact ⟨s, hrun, not_visible_of_hides hs⟩
  · obtain ⟨s, hrun, hs⟩ := exists_run (step oneShard) (fun _ _ => True) (bootBuffered 10)
      (fun s => s.hides (row "a" 1))
      (twoFlushes ⟨.failed, "u", 0, "disk full"⟩) (by decide)
    exact ⟨s, hrun, not_visible_of_hides hs⟩

end Parqtel.Ingest
