import Parqtel.Ingest.BlockLayout
import Parqtel.Ingest.Rotator

/-!
# The counter of buffered rows

The rotator counts the rows of its shard writers in one atomic. A push adjusts it at its end,
under the lock of its shard; a flush subtracts what it takes, under all locks. `counted` is what
the counter has of a shard, also while a push is between its writer and the adjustment, and the
counter is the sum over the shards (`Counted`).

A push whose writer fails returns before the adjustment. The writer has then been filled up, so
the counter is short of the rows that were added, unless the writer was full when the push
began. `countsWrites` rules that out.
-/

namespace Parqtel.Ingest

open Lib List BlockWriter Nat State Shard Ingest

variable {V : Type*}

/-! ## A push into a writer -/

variable {ios : ℕ → BlockIo}

namespace BlockWriter

def closesFor (w : BlockWriter V) (n : ℕ) : ℕ := (w.rows + n - 1) / w.capacity

theorem flush_written {w : BlockWriter V} {io : BlockIo} (hrows : w.rows ≠ 0)
    (hio : io.outcome = .written) :
    w.flush io = ⟨.ok (w.toBlock io), w.cleared, some (w.toBlock io)⟩ := by
  unfold flush
  rw [if_neg hrows, hio]

variable {m : Metric V}

theorem pushLoop_ok_of_written : ∀ {fuel : ℕ} {w : BlockWriter V} {remaining : List (DataPoint V)}
      {flushed : List (MetricBlock V)} {o : PushOut V},
      pushLoop m ios fuel w remaining flushed = some o → w.rows ≤ w.capacity → 0 < w.capacity →
      (∀ i < w.closesFor remaining.length, (ios (flushed.length + i)).outcome = .written) →
      ∃ bs, o.result = .ok bs
  | 0, _, _, _, _, h, _, _, _ => by cases h
  | _ + 1, w, [], flushed, o, h, _, _, _ => by
    cases h
    exact ⟨flushed, rfl⟩
  | fuel + 1, w, p :: ps, flushed, o, h, hrows, hcap, hios => by
    rw [pushLoop] at h
    by_cases hroom : w.room = 0
    · have hfull : w.rows = w.capacity := by
        unfold room at hroom
        omega
      have hcloses : w.closesFor (p :: ps).length = w.cleared.closesFor (p :: ps).length + 1 := by
        have hshift : w.capacity + (p :: ps).length - 1 =
            0 + (p :: ps).length - 1 + w.capacity := by
          rw [length_cons]
          omega
        rw [closesFor, hfull, hshift, add_div_right _ hcap]
        rfl
      have hfirst := hios 0 (by omega)
      rw [add_zero] at hfirst
      rw [if_pos hroom, flush_written (by omega) hfirst] at h
      refine pushLoop_ok_of_written h (zero_le _) hcap fun i hi => ?_
      have hnext := hios (i + 1) (by omega)
      rwa [length_append, length_singleton, add_assoc, add_comm 1]
    · rw [if_neg hroom] at h
      have htake : ((p :: ps).take w.room).length + ((p :: ps).drop w.room).length =
          (p :: ps).length := by
        rw [← length_append, take_append_drop]
      refine pushLoop_ok_of_written h (fill_rows_le m _ hrows) hcap fun i hi => ?_
      refine hios i (hi.trans_le (le_of_eq ?_))
      change (w.rows + ((p :: ps).take w.room).length + ((p :: ps).drop w.room).length - 1) /
        w.capacity = (w.rows + (p :: ps).length - 1) / w.capacity
      rw [add_assoc, htake]

theorem pushLoop_error_full {e : Error} :
    ∀ {fuel : ℕ} {w : BlockWriter V} {remaining : List (DataPoint V)}
      {flushed : List (MetricBlock V)} {o : PushOut V},
      pushLoop m ios fuel w remaining flushed = some o → o.result = .error e →
      w.rows ≤ w.capacity → o.writer.rows = w.capacity
  | 0, _, _, _, _, h, _, _ => by cases h
  | _ + 1, w, [], flushed, o, h, herr, _ => by
    cases h
    cases herr
  | fuel + 1, w, p :: ps, flushed, o, h, herr, hrows => by
    rw [pushLoop] at h
    split_ifs at h with hroom
    · split at h
      · next b w' _ hf =>
        obtain ⟨-, rfl, rfl, -⟩ := flush_ok hf
        exact pushLoop_error_full (w := w.cleared) h herr (zero_le _)
      · next e' w' file hf =>
        obtain ⟨rfl, -⟩ := flush_error hf
        cases h
        unfold room at hroom
        dsimp only
        omega
    · exact pushLoop_error_full (w := w.fill m _) h herr (fill_rows_le m _ hrows)

/-- Rows of blocks, as their metadata counts them, and rows left make up the old rows and the
points of a push that succeeds. -/
theorem push_counts {w : BlockWriter V} {bs : List (MetricBlock V)}
    (h : (w.push m ios).result = .ok bs) (hrows : w.rows ≤ w.capacity) :
    w.rows + m.dataPoints.length = (w.push m ios).writer.rows + closedRows bs ∧
      (w.push m ios).writer.rows ≤ w.capacity := by
  obtain ⟨closed, rfl, hsplit⟩ := pushLoop_splits (push_eq w m ios) h hrows
  have hlen := congrArg List.length hsplit.conserved
  simp only [length_append, length_content, length_flatMap, Metric.rows, length_map] at hlen
  have hclosed : closedRows (closed.mapIdx fun i c => c.toBlock (ios (0 + i))) =
      (closed.map fun c => c.rows).sum := by
    unfold closedRows
    rw [mapIdx_eq_zipIdx_map, map_map]
    calc (closed.zipIdx.map fun e => e.1.rows).sum
      _ = ((closed.zipIdx.map Prod.fst).map rows).sum := by
        rw [map_map]
        rfl
      _ = (closed.map fun c => c.rows).sum := by rw [zipIdx_map_fst]
  rw [nil_append]
  exact ⟨by rw [length_nil, hclosed]; omega, hsplit.rows_le⟩

end BlockWriter

/-! ## What the counter has of a shard -/

/-- Rows of the shard that the counter has. Between the writer and the adjustment these are the
rows that the writer held before the push. -/
def Shard.counted (sh : Shard V) : ℕ :=
  match sh.lock with
  | some ⟨m, _, .written closed⟩ =>
    sh.writer.rows + closedRows closed - m.dataPoints.length
  | _ => sh.writer.rows

def Shard.pending (sh : Shard V) : ℕ := sh.lock.elim 0 fun p => p.metric.dataPoints.length

namespace State

def actualRows (s : State V) : ℕ := total (fun sh => sh.writer.rows) s.shards

/-- The rows of the writers and of the pushes that hold a lock are fewer than a `usize` counts. -/
def RowsFit (s : State V) : Prop := total (fun sh => sh.counted + sh.pending) s.shards < 2 ^ 64

def subsFit : ℕ → List ℕ → Prop
  | _, [] => True
  | n, r :: rs => r ≤ n ∧ subsFit (fetchSub n r) rs

/-- No `fetch_sub` that the event makes takes the counter below zero. -/
def SubsStayAbove (s : State V) : Event V → Prop
  | .finish i => ∀ w m pos closed, s.shards[i]? = some ⟨w, some ⟨m, pos, .written closed⟩⟩ →
      closedRows closed ≤ fetchAdd s.buffered m.dataPoints.length
  | .flush => s.unlocked = true → subsFit s.buffered (s.takenWriters.map rows)
  | .capacityFlush _ => s.unlocked = true → subsFit s.buffered (s.takenWriters.map rows)
  | _ => True

/-- The guard of a run: a push that finds its writer not full gets every block write it needs.
Rows are counted in a `usize`. -/
def countsWrites (s : State V) : Event V → Prop
  | .write i ios => s.RowsFit ∧ ∀ sh ∈ s.shards[i]?, ∀ q ∈ sh.lock,
      sh.writer.rows < sh.writer.capacity →
        ∀ n < sh.writer.closesFor q.metric.dataPoints.length, (ios n).outcome = .written
  | _ => s.RowsFit

instance (s : State V) : Decidable s.RowsFit := inferInstanceAs (Decidable (_ < _))

instance (s : State V) (e : Event V) : Decidable (s.countsWrites e) := by
  rcases e <;> unfold countsWrites <;> infer_instance

variable {s : State V}

theorem countsWrites.rowsFit {e : Event V} (h : s.countsWrites e) : s.RowsFit := by
  cases e with
  | write i ios => exact h.1
  | _ => exact h

structure CountedShards (shards : List (Shard V)) (n : ℕ) : Prop where
  rows_le : ∀ sh ∈ shards, sh.writer.rows ≤ sh.writer.capacity
  /-- A push that has written can be counted. -/
  written : ∀ sh ∈ shards, ∀ m pos closed, sh.lock = some ⟨m, pos, .written closed⟩ →
    m.dataPoints.length ≤ sh.writer.rows + closedRows closed
  counter : n = total counted shards

def Counted (s : State V) : Prop := CountedShards s.shards s.buffered

/-! ## Steps -/

theorem fetchAdd_of_lt {a b : ℕ} (h : a + b < 2 ^ 64) : fetchAdd a b = a + b :=
  mod_eq_of_lt h

theorem fetchSub_of_le {a b : ℕ} (hle : b ≤ a) (ha : a < 2 ^ 64) : fetchSub a b = a - b := by
  unfold fetchSub
  omega

variable {i : ℕ} {sh : Shard V}

theorem CountedShards.set {shards : List (Shard V)} {n n' : ℕ} {sh' : Shard V}
    (h : CountedShards shards n) (hsh : shards[i]? = some sh)
    (hrows : sh'.writer.rows ≤ sh'.writer.capacity)
    (hwritten : ∀ m pos closed, sh'.lock = some ⟨m, pos, .written closed⟩ →
      m.dataPoints.length ≤ sh'.writer.rows + closedRows closed)
    (hcount : n' + sh.counted = n + sh'.counted) :
    CountedShards (shards.set i sh') n' := by
  refine ⟨fun x hx => ?_, fun x hx => ?_, ?_⟩
  · rcases mem_or_eq_of_mem_set hx with hx | rfl
    · exact h.rows_le x hx
    · exact hrows
  · rcases mem_or_eq_of_mem_set hx with hx | rfl
    · exact h.written x hx
    · exact hwritten
  · have hset := total_set (w := counted) sh' hsh
    have hn := h.counter
    omega

variable {s' : State V}

theorem Counted.append {env : Env V} {j : ℕ} {io : Wal.AppendIo} (h : s.Counted)
    (hs : s.append env j io = some s') : s'.Counted := by
  obtain ⟨c, sh, -, -, hsh, hlock, rfl⟩ := append_cases hs
  have hmem := mem_of_getElem? hsh
  refine CountedShards.set h hsh (h.rows_le sh hmem) (fun m pos closed hl => ?_) ?_
  · obtain ⟨p, -, hp⟩ := Option.map_eq_some_iff.mp hl
    cases hp
  · have hold : sh.counted = sh.writer.rows := by
      rw [counted, hlock]
    rw [hold]
    cases (s.logMetric env c.metric io).1 <;> rfl

theorem Counted.feed (h : s.Counted) (hs : s.feed i = some s') : s'.Counted := by
  obtain ⟨w, m, pos, hsh, rfl⟩ := feed_cases hs
  have hrows : w.rows ≤ w.capacity := h.rows_le _ (mem_of_getElem? hsh)
  exact CountedShards.set h hsh hrows nofun rfl

/-- A push that succeeds leaves the counter with the old rows. One that fails leaves a full
writer, so it has to find one. -/
theorem Counted.write (h : s.Counted) (hok : s.countsWrites (.write i ios))
    (hs : s.write i ios = some s') : s'.Counted := by
  obtain ⟨w, m, pos, hsh, rfl⟩ := write_cases hs
  have hrows : w.rows ≤ w.capacity := h.rows_le _ (mem_of_getElem? hsh)
  have hcapacity : (w.push m ios).writer.capacity = w.capacity :=
    congrArg BlockConfig.maxRowsPerBlock (push_spec w m ios).config
  cases hr : (w.push m ios).result with
  | ok bs =>
    obtain ⟨hcounts, hle⟩ := push_counts hr hrows
    refine CountedShards.set h hsh (hcapacity ▸ hle) (fun m' pos' closed hl => ?_) ?_
    · cases hl
      dsimp only
      omega
    · change s.buffered + w.rows = s.buffered +
        ((w.push m ios).writer.rows + closedRows bs - m.dataPoints.length)
      omega
  | error e =>
    have hfull := pushLoop_error_full (push_eq w m ios) hr hrows
    -- with room left every block write would have succeeded, and the push with them
    have hbefore : w.rows = w.capacity := by
      by_contra hne
      have hlt : w.rows < w.capacity := by omega
      have hios := hok.2 _ hsh _ rfl hlt
      obtain ⟨bs, hbs⟩ := pushLoop_ok_of_written (push_eq w m ios) hrows
        (by omega) fun n hn => by simpa using hios n hn
      rw [hr] at hbs
      cases hbs
    refine CountedShards.set h hsh (by dsimp only; omega) nofun ?_
    change s.buffered + w.rows = s.buffered + (w.push m ios).writer.rows
    omega

theorem counted_le (h : s.Counted) (hsh : s.shards[i]? = some sh) : sh.counted ≤ s.buffered :=
  h.counter ▸ weight_le_total (mem_of_getElem? hsh)

theorem add_fits (h : s.Counted) (hfit : s.RowsFit) (hsh : s.shards[i]? = some sh) :
    s.buffered + sh.pending < 2 ^ 64 := by
  have hpending : sh.pending ≤ total pending s.shards :=
    weight_le_total (mem_of_getElem? hsh)
  have hn := h.counter
  unfold RowsFit at hfit
  rw [total_add] at hfit
  omega

theorem Counted.finish (h : s.Counted) (hfit : s.RowsFit) (hs : s.finish i = some s') :
    s'.Counted := by
  obtain ⟨w, m, pos, closed, hsh, rfl⟩ := finish_cases hs
  have hmem := mem_of_getElem? hsh
  have hrows : w.rows ≤ w.capacity := h.rows_le _ hmem
  have hwritten : m.dataPoints.length ≤ w.rows + closedRows closed :=
    h.written _ hmem m pos closed rfl
  have hle : w.rows + closedRows closed - m.dataPoints.length ≤ s.buffered := counted_le h hsh
  have hadd : s.buffered + m.dataPoints.length < 2 ^ 64 := add_fits h hfit hsh
  refine CountedShards.set h hsh hrows nofun ?_
  rw [fetchAdd_of_lt hadd, fetchSub_of_le (by omega) hadd]
  change s.buffered + m.dataPoints.length - closedRows closed +
    (w.rows + closedRows closed - m.dataPoints.length) = s.buffered + w.rows
  omega

theorem counted_of_unlocked (hu : s.unlocked = true) :
    total counted s.shards = s.actualRows := by
  refine total_congr fun sh hsh => ?_
  have hlock : sh.lock = none := by
    simpa using all_eq_true.mp hu sh hsh
  rw [counted, hlock]

theorem total_takenWriters (s : State V) : total rows s.takenWriters = s.actualRows := by
  unfold takenWriters actualRows
  rw [total_filter, total_map]
  refine total_congr fun sh _ => ?_
  by_cases hempty : sh.writer.isEmpty = true
  · have hrows : sh.writer.rows = 0 := of_decide_eq_true hempty
    simp [hempty, hrows]
  · simp [hempty]

theorem foldl_fetchSub (ws : List (BlockWriter V)) {n : ℕ} (hn : n < 2 ^ 64)
    (hle : total rows ws ≤ n) :
    ws.foldl (fun n w => fetchSub n w.rows) n = n - total rows ws ∧
      subsFit n (ws.map rows) := by
  induction ws generalizing n with
  | nil => exact ⟨rfl, trivial⟩
  | cons w ws ih =>
    rw [total_cons] at hle
    have hsub := fetchSub_of_le (show w.rows ≤ n by omega) hn
    obtain ⟨hfold, hfits⟩ := @ih (n - w.rows) (by omega) (by omega)
    refine ⟨?_, by omega, ?_⟩
    · rw [foldl_cons, hsub, hfold, total_cons]
      omega
    · rw [hsub]
      exact hfits

theorem counter_lt (h : s.Counted) (hfit : s.RowsFit) : s.buffered < 2 ^ 64 := by
  have hn := h.counter
  unfold RowsFit at hfit
  rw [total_add] at hfit
  omega

theorem Counted.flushLocked (h : s.Counted) (hfit : s.RowsFit) (hu : s.unlocked = true) :
    s.flushLocked.Counted := by
  have hrows : s.buffered = total rows s.takenWriters := by
    rw [total_takenWriters, ← counted_of_unlocked hu]
    exact h.counter
  unfold State.flushLocked
  split_ifs with hnone
  · exact h
  · have hfresh : ∀ sh ∈ s.shards.map (swapWriter s.config),
        sh.writer.rows = 0 ∧ sh.lock = none := by
      intro sh hsh
      obtain ⟨x, hx, rfl⟩ := mem_map.mp hsh
      have hlock : x.lock = none := by
        simpa using all_eq_true.mp hu x hx
      unfold swapWriter
      split_ifs with hempty
      · exact ⟨of_decide_eq_true hempty, hlock⟩
      · exact ⟨rfl, hlock⟩
    refine ⟨fun sh hsh => ?_, fun sh hsh m pos closed hl => ?_, ?_⟩
    · rw [(hfresh sh hsh).1]
      exact zero_le _
    · rw [(hfresh sh hsh).2] at hl
      cases hl
    · have hzero : total counted (s.shards.map (swapWriter s.config)) = 0 := by
        refine total_eq_zero fun sh hsh => ?_
        rw [counted, (hfresh sh hsh).2]
        exact (hfresh sh hsh).1
      dsimp only
      rw [hzero, (foldl_fetchSub s.takenWriters (counter_lt h hfit) hrows.ge).1]
      omega

theorem Counted.step {env : Env V} {e : Event V} (h : s.Counted) (hok : s.countsWrites e)
    (hs : step env s e = some s') : s'.Counted := by
  have hfit := hok.rowsFit
  cases e with
  | enter m =>
    obtain rfl := Option.some.inj hs
    exact h
  | capacityFlush j =>
    obtain ⟨cs, rfl | ⟨hu, rfl⟩⟩ := capacityFlush_cases hs
    · exact h
    · exact h.flushLocked hfit hu
  | abandon j =>
    obtain rfl := abandon_cases hs
    exact h
  | append j io => exact h.append hs
  | feed i => exact h.feed hs
  | write i ios => exact h.write hok hs
  | finish i => exact h.finish hfit hs
  | flush =>
    obtain ⟨hu, rfl⟩ := flush_cases hs
    exact h.flushLocked hfit hu
  | encode k io =>
    obtain ⟨job, -, -, ⟨b, file, -, rfl⟩ | ⟨e, file, -, rfl⟩⟩ := encode_cases hs
    · exact h
    · exact h
  | ack k =>
    obtain ⟨job, -, -, rfl⟩ := ack_cases hs
    exact h
  | giveUp k =>
    obtain ⟨job, -, -, rfl⟩ := giveUp_cases hs
    exact h
  | commit k ok =>
    obtain ⟨job, releasable, -, -, rfl⟩ := commit_cases hs
    exact h
  | release k =>
    obtain ⟨job, sealed, -, -, rfl⟩ := release_cases hs
    exact h
  | drop k =>
    obtain ⟨job, written, released, -, -, rfl⟩ := drop_cases hs
    exact h

theorem Counted.boot (config : BlockConfig) (shards : ℕ) (wal : Option Wal.WalWriter)
    (dir : Wal.WalDir (Metric V)) (buffer : Option (Buffer.MemoryBuffer V))
    (files : List (MetricBlock V)) : (boot config shards wal dir buffer files).Counted := by
  have hshard : ∀ sh ∈ List.replicate (shardCount shards)
      (⟨new config, none⟩ : Shard V), sh = ⟨new config, none⟩ :=
    fun sh hsh => eq_of_mem_replicate hsh
  refine ⟨fun sh hsh => ?_, fun sh hsh m pos closed hl => ?_, ?_⟩
  · rw [hshard sh hsh]
    exact zero_le _
  · rw [hshard sh hsh] at hl
    cases hl
  · refine (total_eq_zero fun sh hsh => ?_).symm
    rw [hshard sh hsh]
    rfl

theorem Counted.subsStayAbove (h : s.Counted) (hfit : s.RowsFit) (e : Event V) :
    s.SubsStayAbove e := by
  have hflush : s.unlocked = true → subsFit s.buffered (s.takenWriters.map rows) := by
    intro hu
    refine (foldl_fetchSub s.takenWriters (counter_lt h hfit) (le_of_eq ?_)).2
    rw [total_takenWriters, ← counted_of_unlocked hu]
    exact h.counter.symm
  cases e with
  | finish i =>
    intro w m pos closed hsh
    have hle : w.rows + closedRows closed - m.dataPoints.length ≤ s.buffered := counted_le h hsh
    have hadd : s.buffered + m.dataPoints.length < 2 ^ 64 := add_fits h hfit hsh
    rw [fetchAdd_of_lt hadd]
    omega
  | flush => exact hflush
  | capacityFlush j => exact hflush
  | _ => trivial

end State

/-- **The counter is exact while no push fails in a writer that has room.** Along such a run the
counter is the number of rows in the shard writers whenever no push holds a lock, so in
particular when no call is in progress, and no `fetch_sub` takes it below zero. -/
theorem row_counter_exact (env : Env V) (config : BlockConfig) (shards : ℕ)
    (wal : Option Wal.WalWriter) (dir : Wal.WalDir (Metric V))
    (buffer : Option (Buffer.MemoryBuffer V)) (files : List (MetricBlock V)) (s : State V)
    (hrun : Run (step env) countsWrites
      (boot config shards wal dir buffer files) s) :
    (s.unlocked = true → s.buffered = s.actualRows) ∧
      ∀ e, s.countsWrites e → s.SubsStayAbove e := by
  have hcounted : s.Counted :=
    hrun.inv (State.Counted.boot config shards wal dir buffer files)
      fun _ _ _ h hok hs => h.step hok hs
  refine ⟨fun hu => ?_, fun e he => hcounted.subsStayAbove he.rowsFit e⟩
  rw [← counted_of_unlocked hu]
  exact hcounted.counter

namespace Sample

def bootPairs : State Unit := boot (config 2) 1 none ⟨0, []⟩ none []

def diskFull : ℕ → BlockIo := fun _ => ⟨.failed, "u", 0, "disk full"⟩

end Sample

open Sample in
/-- The guard is met by a push that closes two blocks by itself and leaves one row. -/
theorem row_counter_exact_self_closed :
    ∃ s : State Unit, s.files.length = 2 ∧ s.buffered = s.actualRows := by
  obtain ⟨s, hrun, hfiles, hu⟩ := exists_run (step oneShard) countsWrites bootPairs
    (fun s => s.files.length = 2 ∧ s.unlocked = true)
    [.enter (metric "a" [1, 2, 3, 4, 5]), .capacityFlush 0, .append 0 .fine, .feed 0,
      .write 0 fun _ => .fine, .finish 0] (by decide +kernel)
  exact ⟨s, hfiles, (row_counter_exact oneShard _ _ _ _ _ _ s hrun).1 hu⟩

open Sample in
/-- Three points for a writer of two rows, and a full disk: two rows are in the writer, none in
the counter. The flush that takes them leaves the counter two below zero. -/
theorem row_counter_short_after_failed_push :
    (∃ s : State Unit, Reach (step oneShard) bootPairs s ∧ s.callers = [] ∧
      s.unlocked = true ∧ s.buffered = 0 ∧ s.actualRows = 2) ∧
    ∃ s : State Unit, Reach (step oneShard) bootPairs s ∧ s.callers = [] ∧
      s.unlocked = true ∧ s.buffered = 2 ^ 64 - 2 ∧ s.actualRows = 0 := by
  constructor
  · exact exists_run (step oneShard) (fun _ _ => True) bootPairs _
      [.enter (metric "a" [1, 2, 3]), .capacityFlush 0, .append 0 .fine, .feed 0,
        .write 0 diskFull] (by decide +kernel)
  · exact exists_run (step oneShard) (fun _ _ => True) bootPairs _
      [.enter (metric "a" [1, 2, 3]), .capacityFlush 0, .append 0 .fine, .feed 0,
        .write 0 diskFull, .flush] (by decide +kernel)

end Parqtel.Ingest
