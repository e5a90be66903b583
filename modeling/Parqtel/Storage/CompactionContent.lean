import Parqtel.Storage.CompactionCrash

/-!
# What a compaction pass does to the rows

A call of `compact_once` or `compact_tiered` selects groups of blocks under the read lock
and then merges them one after another, while the index task goes on adding blocks. The
machine below interleaves the two. `compaction_keeps_content`: in every state of a call a
scan of the index returns the rows from before and those of the blocks added since, and the
merged blocks say of themselves what is in them.
-/

namespace Parqtel.Storage

open Parqtel.Lib Parqtel.Ingest List BlockMetadata Compactor BlockIndex AList

variable {R : Type*}

/-! ## Calls -/

inductive Phase where
  | idle
  /-- The signals whose candidates are still to be looked at, the groups still to be merged, and
  the merges begun. -/
  | active (nowNs : Int) (signals : List SignalType) (groups : List (List BlockMetadata))
      (mergesDone : ℕ)
  | returned
deriving DecidableEq

structure PassState (R : Type*) where
  core : CompactionState R
  phase : Phase
  /-- Rows of the blocks that other tasks added during the call. -/
  arrived : List R
  /-- The blocks that other tasks added since sources were last selected, with their files. -/
  added : List (BlockMetadata × ParquetFile R)
  /-- The merges published since then: their sources and the block they made. -/
  merged : List (List BlockMetadata × Block R)

inductive PassEvent (R : Type*) where
  | callOnce
  | callTiered (nowNs : Int)
  /-- Look at the blocks of the next signal. -/
  | select
  /-- Begin with the next group. -/
  | next
  /-- A step of the merge, or of the persist task. -/
  | merge (e : CompactionEvent)
  /-- The index task adds a block whose file is in place. -/
  | add (m : BlockMetadata) (file : ParquetFile R)
  | finish

variable {sources : List BlockMetadata}

namespace Compactor

variable (env : Compactor R)

/-- The groups of one signal. The bound on merges is for the call, not for the signal, and is
tested after a merge: each signal gets at least one. -/
def tieredRound (nowNs : Int) (signal : SignalType) (mergesDone : ℕ) (ix : BlockIndex) :
    List (List BlockMetadata) :=
  (selectTiered env.config nowNs signal ix).take
    (max (max env.config.compactionMaxMergesPerPass 1 - mergesDone) 1)

def callOnce (s : PassState R) : Option (PassState R) :=
  match s.phase, idle s.core.merge with
  | .idle, true =>
    match selectSmall env.config s.core.index with
    | none => some { s with phase := .returned }
    | some sources => some { s with phase := .active 0 [] [sources] 0, added := [], merged := [] }
  | _, _ => none

def callTiered (s : PassState R) (nowNs : Int) : Option (PassState R) :=
  match s.phase, idle s.core.merge with
  | .idle, true => some { s with phase := .active nowNs [.metrics, .logs, .traces] [] 0 }
  | _, _ => none

def select (s : PassState R) : Option (PassState R) :=
  match s.phase with
  | .active nowNs (signal :: signals) [] mergesDone =>
    if idle s.core.merge then
      match env.tieredRound nowNs signal mergesDone s.core.index with
      | [] => some { s with phase := .active nowNs signals [] mergesDone }
      | g :: gs => some { s with
          phase := .active nowNs signals (g :: gs) mergesDone
          added := []
          merged := [] }
    else none
  | _ => none

def next (s : PassState R) : Option (PassState R) :=
  match s.phase with
  | .active nowNs signals (g :: gs) mergesDone =>
    if idle s.core.merge then
      some { s with
        core := { s.core with merge := some ⟨g, .selected⟩ }
        phase := .active nowNs signals gs (mergesDone + 1) }
    else none
  | _ => none

def published (core : CompactionState R) : CompactionEvent → List (List BlockMetadata × Block R)
  | .publish =>
    match core.merge with
    | some ⟨sources, .renamed b⟩ => [(sources, b)]
    | _ => []
  | _ => []

def mergeStep (s : PassState R) : CompactionEvent → Option (PassState R)
  | .start _ => none
  | e => (env.step s.core e).map fun core =>
    { s with core := core, merged := published s.core e ++ s.merged }

def addBlock (s : PassState R) (m : BlockMetadata) (file : ParquetFile R) : PassState R :=
  { s with
    core := { s.core with
      index := s.core.index.add m
      disk := s.core.disk.insert m.path (.parquet file) }
    arrived := s.arrived ++ file.rows
    added := (m, file) :: s.added }

def finish (s : PassState R) : Option (PassState R) :=
  match s.phase with
  | .active _ [] [] _ => if idle s.core.merge then some { s with phase := .returned } else none
  | _ => none

def passStep (s : PassState R) : PassEvent R → Option (PassState R)
  | .callOnce => env.callOnce s
  | .callTiered nowNs => callTiered s nowNs
  | .select => env.select s
  | .next => next s
  | .merge e => env.mergeStep s e
  | .add m file => some (addBlock s m file)
  | .finish => finish s

/-! ## The guard -/

/-- An index entry says of its file how many rows it has, and the signal. -/
def Describes (m : BlockMetadata) (file : ParquetFile R) : Prop :=
  m.rowCount = file.rows.length ∧ m.signalType = env.kind.signal

instance (m : BlockMetadata) (file : ParquetFile R) : Decidable (env.Describes m file) :=
  inferInstanceAs (Decidable (_ ∧ _))

def taken : Option (Merge R) → List Path
  | some ⟨_, .writing b⟩ | some ⟨_, .written b⟩ => [b.metadata.path, tmpPath b]
  | _ => []

def unused (core : CompactionState R) (io : BlockIo) : Bool :=
  match core.merge with
  | some ⟨sources, .selected⟩ =>
    match env.mergeSources core.disk sources io with
    | .ok (some b) => [b.metadata.path, tmpPath b].all (· ∉ core.disk.paths)
    | _ => true
  | _ => true

def passOk (s : PassState R) : PassEvent R → Prop
  | .merge (.beginWrite io) => env.unused s.core io
  | .add m file =>
    env.Describes m file ∧ m.path ∉ s.core.disk.paths ∧ m.path ∉ taken s.core.merge
  | _ => True

instance (s : PassState R) (e : PassEvent R) : Decidable (env.passOk s e) := by
  unfold passOk
  split <;> infer_instance

/-- **What an index has to be.** Each block has its own complete file and describes it. Writers,
the compactor and reconciling make only such entries. -/
structure Catalog (disk : Disk R) (ix : BlockIndex) : Prop where
  nodup : ix.paths.Nodup
  files : ∀ m ∈ ix.blocks, ∃ file, disk.lookup m.path = some (.parquet file) ∧ env.Describes m file

def describedOn (disk : Disk R) (m : BlockMetadata) : Bool :=
  match disk.lookup m.path with
  | some (.parquet file) => env.Describes m file
  | _ => false

theorem describedOn_iff (disk : Disk R) (m : BlockMetadata) : env.describedOn disk m ↔
      ∃ file, disk.lookup m.path = some (.parquet file) ∧ env.Describes m file := by
  unfold describedOn
  rcases disk.lookup m.path with _ | (file | message) <;> simp

instance (disk : Disk R) (ix : BlockIndex) : Decidable (env.Catalog disk ix) :=
  decidable_of_iff (ix.paths.Nodup ∧ ∀ m ∈ ix.blocks, env.describedOn disk m)
    ⟨fun h => ⟨h.1, fun m hm => (env.describedOn_iff disk m).mp (h.2 m hm)⟩,
      fun h => ⟨h.nodup, fun m hm => (env.describedOn_iff disk m).mpr (h.files m hm)⟩⟩

def unmerged : Option (Merge R) → List BlockMetadata
  | some ⟨sources, .selected⟩ | some ⟨sources, .writing _⟩ | some ⟨sources, .written _⟩
  | some ⟨sources, .renamed _⟩ => sources
  | some ⟨_, .published _ _⟩ | some ⟨_, .emptied⟩ | none => []

def Phase.groups : Phase → List (List BlockMetadata)
  | .active _ _ groups _ => groups
  | _ => []

def pending (s : PassState R) : List BlockMetadata :=
  unmerged s.core.merge ++ (Phase.groups s.phase).flatten

/-- The blocks that have to stay: those added and those merged since the selection. -/
def kept (s : PassState R) : List (BlockMetadata × ParquetFile R) :=
  s.added ++ s.merged.map fun d => (d.2.metadata, env.file d.2)

/-! ## Entries of an index -/

variable {m : BlockMetadata} {disk' : Disk R} {file : ParquetFile R}

section
variable {ix : BlockIndex} {disk : Disk R}

theorem paths_add (ix : BlockIndex) (b : BlockMetadata) :
    (ix.add b).paths.Perm (b.path :: ix.paths) := by
  refine ((sortByKey_perm _ _).map path).trans ?_
  rw [map_append]
  exact perm_append_comm

theorem paths_replace_none (ix : BlockIndex) (src : List Path) :
    (ix.replace src none).paths.Perm (others ix src) := by
  refine ((sortByKey_perm _ _).map path).trans ?_
  rw [map_append, others, paths, filter_map, Option.toList_none, map_nil, append_nil]
  exact .refl _

theorem path_mem (h : m ∈ ix.blocks) : m.path ∈ ix.paths :=
  mem_map_of_mem h

theorem scan_congr (h : ∀ p ∈ ix.paths, disk'.lookup p = disk.lookup p) :
    scan disk' ix = scan disk ix :=
  flatMap_congr fun p hp => rowsAt_eq_of_lookup (h p hp)

variable {env}

section
variable (h : env.Catalog disk ix)
include h

theorem Catalog.eq_of_path {m' : BlockMetadata} (hm : m ∈ ix.blocks)
    (hm' : m' ∈ ix.blocks) (heq : m.path = m'.path) : m = m' :=
  inj_on_of_nodup_map h.nodup hm hm' heq

theorem Catalog.mem_disk {p : Path} (hp : p ∈ ix.paths) : p ∈ disk.paths := by
  obtain ⟨m, hm, rfl⟩ := mem_map.mp hp
  obtain ⟨file, hl, -⟩ := h.files m hm
  exact mem_disk_paths.mpr ⟨_, hl⟩

theorem Catalog.congr
    (hd : ∀ p ∈ ix.paths, disk'.lookup p = disk.lookup p) : env.Catalog disk' ix :=
  ⟨h.nodup, fun m hm => by rw [hd _ (path_mem hm)]; exact h.files m hm⟩

theorem Catalog.add (hm : disk.lookup m.path = some (.parquet file))
    (hd : env.Describes m file) (hout : m.path ∉ ix.paths) : env.Catalog disk (ix.add m) := by
  refine ⟨(paths_add ix m).nodup_iff.mpr (nodup_cons.mpr ⟨hout, h.nodup⟩), fun m' hm' => ?_⟩
  rcases mem_add.mp hm' with hm' | rfl
  · exact h.files m' hm'
  · exact ⟨file, hm, hd⟩

theorem Catalog.drop (src : List Path) : env.Catalog disk (ix.replace src none) := by
  refine ⟨(paths_replace_none ix src).nodup_iff.mpr (h.nodup.filter _), fun m hm => ?_⟩
  rcases mem_replace.mp hm with ⟨hm, -⟩ | hm
  · exact h.files m hm
  · cases hm

theorem Catalog.swap (src : List Path)
    (hm : disk.lookup m.path = some (.parquet file)) (hd : env.Describes m file)
    (hout : m.path ∉ ix.paths) :
    env.Catalog disk (ix.replace src (some m)) := by
  refine ⟨(paths_replace ix src m).nodup_iff.mpr (nodup_cons.mpr ⟨?_, h.nodup.filter _⟩), ?_⟩
  · exact fun hmem => hout (mem_of_mem_filter hmem)
  · intro m' hm'
    rcases mem_replace.mp hm' with ⟨hm', -⟩ | heq
    · exact h.files m' hm'
    · cases heq
      exact ⟨file, hm, hd⟩

theorem Catalog.scan_split (hsub : ∀ m ∈ sources, m ∈ ix.blocks) (hnd : sources.Nodup) :
    (scan disk ix).Perm ((others ix (sources.map path)).flatMap disk.rowsAt ++
      (sources.map path).flatMap disk.rowsAt) := by
  have hpaths : (sources.map path).Nodup :=
    hnd.map_on fun m hm m' hm' => h.eq_of_path (hsub m hm) (hsub m' hm')
  rw [← flatMap_append]
  exact (paths_split h.nodup (map_subset _ hsub) hpaths).flatMap_right _

end

end

/-! ## What a merged block says of itself -/

structure Merges (sources : List BlockMetadata) (b : Block R) : Prop where
  rowCount : b.metadata.rowCount = (sources.map rowCount).sum
  names : ∃ rows, b.rows.Perm rows ∧ b.metadata.metricNames = env.kind.metricNames rows ∧
    b.metadata.labelNames = env.kind.labelNames rows
  describes : env.Describes b.metadata (env.file b)

/-- A merged block with the rows of its sources, which are still on disk. -/
structure Content (disk : Disk R) (sources : List BlockMetadata) (b : Block R) : Prop where
  rows : b.rows.Perm ((sources.map path).flatMap disk.rowsAt)
  merges : env.Merges sources b

variable {env} {disk : Disk R} {ix : BlockIndex} {sources : List BlockMetadata} {b : Block R}

theorem Catalog.length_rows (h : env.Catalog disk ix) (hsub : ∀ m ∈ sources, m ∈ ix.blocks) :
    ((sources.map path).flatMap disk.rowsAt).length =
      (sources.map rowCount).sum := by
  rw [length_flatMap, map_map]
  refine congrArg List.sum (map_congr_left fun m hm => ?_)
  obtain ⟨file, hl, hcount, -⟩ := h.files m (hsub m hm)
  rw [hcount, ← rowsAt_of_lookup hl]
  rfl

variable {io : BlockIo}

theorem content_of_mergeSources (h : env.Catalog disk ix) (hsub : ∀ m ∈ sources, m ∈ ix.blocks)
    (hb : env.mergeSources disk sources io = .ok (some b)) :
    env.Content disk sources b := by
  have hrows := (mergeSources_some hb).1
  obtain ⟨_, -, hw⟩ := mergeSources_writes hb
  obtain ⟨first, rest, -, rfl⟩ := writeMerged_ok hw
  have hperm : (env.kind.layout (first :: rest)).Perm (first :: rest) := env.kind.layout_perm _
  refine ⟨hrows, ?_, ⟨_, hperm, rfl, rfl⟩, ?_, rfl⟩
  · rw [← h.length_rows hsub, ← hrows.length_eq]
    exact hperm.length_eq.symm
  · rw [file, rows_writeBlockFile]
    exact hperm.length_eq.symm

theorem Content.congr (h : env.Content disk sources b) (hsub : ∀ m ∈ sources, m ∈ ix.blocks)
    (hd : ∀ p ∈ ix.paths, disk'.lookup p = disk.lookup p) : env.Content disk' sources b := by
  have hrows : (sources.map path).flatMap disk'.rowsAt =
      (sources.map path).flatMap disk.rowsAt := by
    refine flatMap_congr fun p hp => ?_
    obtain ⟨m, hm, rfl⟩ := mem_map.mp hp
    exact rowsAt_eq_of_lookup (hd _ (path_mem (hsub m hm)))
  exact ⟨hrows ▸ h.rows, h.merges⟩

theorem path_ne_tmpPath (b : Block R) : b.metadata.path ≠ tmpPath b := by
  intro h
  have hfile : b.metadata.path.file = tmpName b.metadata.path.file := congrArg Path.file h
  have hlen := congrArg (fun f : String => f.toList.length) hfile
  simp only [toList_tmpName, length_append] at hlen
  exact absurd hlen (Nat.ne_of_lt (Nat.lt_add_of_pos_left (by decide)))

/-! ## The invariant -/

def StageOk (env : Compactor R) (core : CompactionState R) : Option (Merge R) → Prop
  | some ⟨sources, .writing b⟩ | some ⟨sources, .written b⟩ =>
    env.Content core.disk sources b ∧ b.metadata.path ∉ core.disk.paths ∧
      tmpPath b ∉ core.index.paths
  | some ⟨sources, .renamed b⟩ =>
    env.Content core.disk sources b ∧ b.metadata.path ∉ core.index.paths ∧
      core.disk.lookup b.metadata.path = some (.parquet (env.file b))
  | some ⟨_, .published _ todo⟩ =>
    todo.Nodup ∧ ∀ p ∈ todo, p ∈ core.disk.paths ∧ p ∉ core.index.paths
  | some ⟨_, .selected⟩ | some ⟨_, .emptied⟩ | none => True

structure PassInv (env : Compactor R) (rows₀ : List R) (s : PassState R) : Prop where
  catalog : env.Catalog s.core.disk s.core.index
  rows : (scan s.core.disk s.core.index).Perm (rows₀ ++ s.arrived)
  sources : ∀ m ∈ pending s, m ∈ s.core.index.blocks
  once : (pending s).Nodup
  kept : ∀ k ∈ env.kept s, k.1 ∈ s.core.index.blocks ∧ k.1 ∉ pending s ∧
    s.core.disk.lookup k.1.path = some (.parquet k.2)
  merged : ∀ d ∈ s.merged, env.Merges d.1 d.2
  stage : StageOk env s.core s.core.merge

variable {core : CompactionState R}

section
variable {rows₀ : List R} {s s' : PassState R}

theorem PassInv.frame (h : PassInv env rows₀ s) {phase : Phase} (hix : core.index = s.core.index)
    (hd : ∀ p ∈ s.core.index.paths, core.disk.lookup p = s.core.disk.lookup p)
    (hp : pending { s with core := core, phase := phase } = pending s)
    (hst : StageOk env core core.merge) :
    PassInv env rows₀ { s with core := core, phase := phase } where
  catalog := hix ▸ h.catalog.congr hd
  rows := by
    show (scan core.disk core.index).Perm _
    rw [hix, scan_congr hd]
    exact h.rows
  sources m hm := hix ▸ h.sources m (hp ▸ hm)
  once := hp ▸ h.once
  kept k hk := by
    obtain ⟨hmem, hout, hl⟩ := h.kept k hk
    exact ⟨hix ▸ hmem, fun hm => hout (hp ▸ hm), (hd _ (path_mem hmem)).trans hl⟩
  merged := h.merged
  stage := hst

theorem PassInv.persist (h : PassInv env rows₀ s) :
    PassInv env rows₀ { s with core := persist s.core } :=
  h.frame rfl (fun _ _ => rfl) rfl h.stage

theorem PassInv.goesOn (h : PassInv env rows₀ s) {phase : Phase}
    (hgroups : Phase.groups phase = Phase.groups s.phase) :
    PassInv env rows₀ { s with phase := phase } :=
  h.frame rfl (fun _ _ => rfl) (by rw [pending, pending, hgroups]) h.stage

theorem unmerged_of_idle {m : Option (Merge R)} (h : idle m) : unmerged m = [] := by
  unfold idle at h
  split at h
  · rfl
  · rfl
  · rfl
  · cases h

theorem nodup_blocks (h : env.Catalog disk ix) : ix.blocks.Nodup := h.nodup.of_map

theorem PassInv.select (h : PassInv env rows₀ s) {phase : Phase} (hun : unmerged s.core.merge = [])
    (hsub : (Phase.groups phase).flatten.Sublist s.core.index.blocks) :
    PassInv env rows₀ { s with phase := phase, added := [], merged := [] } := by
  have hp : pending { s with phase := phase, added := [], merged := [] } =
      (Phase.groups phase).flatten := by
    show unmerged s.core.merge ++ _ = _
    rw [hun]
    rfl
  refine ⟨h.catalog, h.rows, fun m hm => hsub.subset (hp ▸ hm), ?_, nofun, nofun, h.stage⟩
  rw [hp]
  exact (nodup_blocks h.catalog).sublist hsub

/-! ### The merge -/

variable {q : Path}

theorem lookup_insert_unlisted (disk : Disk R) (hq : q ∉ ix.paths) (c : FileContent R) :
    ∀ p ∈ ix.paths, (disk.insert q c).lookup p = disk.lookup p := fun _ hp =>
  lookup_insert_ne fun heq => hq (heq ▸ hp)

theorem Catalog.not_mem_of_unused (h : env.Catalog disk ix) (hq : q ∉ disk.paths) :
    q ∉ ix.paths := fun hmem => hq (h.mem_disk hmem)

theorem not_mem_paths_insert {disk : Disk R} {p : Path} {c : FileContent R} (hne : p ≠ q)
    (hp : p ∉ disk.paths) : p ∉ Disk.paths (disk.insert q c) := by
  rw [Disk.mem_paths] at hp ⊢
  rw [mem_insert]
  exact fun h => h.elim hne hp

section
variable (h : PassInv env rows₀ s)
include h

theorem PassInv.unmerged_sources {stage : Stage R} (hm : s.core.merge = some ⟨sources, stage⟩)
    (hun : unmerged (some ⟨sources, stage⟩) = sources) :
    pending s = sources ++ (Phase.groups s.phase).flatten ∧
      ∀ m ∈ sources, m ∈ s.core.index.blocks := by
  have hp : pending s = sources ++ (Phase.groups s.phase).flatten := by rw [pending, hm, hun]
  exact ⟨hp, fun m hmem => h.sources m (hp ▸ mem_append_left _ hmem)⟩

theorem PassInv.writing {b : Block R} (hm : s.core.merge = some ⟨sources, .selected⟩)
    (hb : env.mergeSources s.core.disk sources io = .ok (some b)) (hfresh : env.unused s.core io) :
    PassInv env rows₀ { s with core := { s.core with
      disk := s.core.disk.insert (tmpPath b) (.damaged io.message)
      merge := some ⟨sources, .writing b⟩ } } := by
  rw [unused, hm] at hfresh
  simp only [hb, all_cons, all_nil, Bool.and_true, Bool.and_eq_true, decide_eq_true_eq] at hfresh
  obtain ⟨hp, hsub⟩ := h.unmerged_sources hm rfl
  have hout := h.catalog.not_mem_of_unused hfresh.2
  have hd := lookup_insert_unlisted s.core.disk hout (.damaged io.message)
  refine h.frame rfl hd hp.symm ⟨?_, not_mem_paths_insert (path_ne_tmpPath b) hfresh.1, hout⟩
  exact (content_of_mergeSources h.catalog hsub hb).congr hsub hd

theorem PassInv.finishWrite (hstep : env.finishWrite s.core = some core) :
    PassInv env rows₀ { s with core := core } := by
  obtain ⟨sources, b, hm, rfl⟩ := finishWrite_cases hstep
  obtain ⟨hp, hsub⟩ := h.unmerged_sources hm rfl
  have hst := h.stage
  rw [hm] at hst
  obtain ⟨hc, hfresh, hout⟩ := hst
  have hd := lookup_insert_unlisted s.core.disk hout (.parquet (env.file b))
  refine h.frame rfl hd hp.symm ⟨?_, not_mem_paths_insert (path_ne_tmpPath b) hfresh, hout⟩
  exact hc.congr hsub hd

theorem PassInv.rename (hstep : env.rename s.core = some core) :
    PassInv env rows₀ { s with core := core } := by
  obtain ⟨sources, b, hm, rfl⟩ := rename_cases hstep
  obtain ⟨hp, hsub⟩ := h.unmerged_sources hm rfl
  have hst := h.stage
  rw [hm] at hst
  obtain ⟨hc, hfresh, hout⟩ := hst
  have hnew := h.catalog.not_mem_of_unused hfresh
  have hd : ∀ p ∈ s.core.index.paths,
      ((s.core.disk.erase (tmpPath b)).insert b.metadata.path (.parquet (env.file b))).lookup p =
        s.core.disk.lookup p := fun p hmem => by
    rw [lookup_insert_unlisted _ hnew _ p hmem]
    exact lookup_erase_ne fun heq => hout (heq ▸ hmem)
  refine h.frame rfl hd hp.symm ⟨?_, hnew, lookup_insert _⟩
  exact hc.congr hsub hd

theorem PassInv.delete {ok : Bool} (hstep : delete s.core ok = some core) :
    PassInv env rows₀ { s with core := core } := by
  obtain ⟨sources, b, q, todo, hm, rfl⟩ := delete_cases hstep
  have hp : pending s = (Phase.groups s.phase).flatten := by rw [pending, hm]; rfl
  have hst := h.stage
  rw [hm] at hst
  obtain ⟨hnd, hout⟩ := hst
  obtain ⟨hq, hnd⟩ := nodup_cons.mp hnd
  cases ok with
  | false =>
    refine h.frame rfl (fun _ _ => rfl) hp.symm ⟨hnd, fun p hmem => ?_⟩
    exact hout p (mem_cons_of_mem _ hmem)
  | true =>
    refine h.frame rfl (fun p hmem => ?_) hp.symm ⟨hnd, fun p hmem => ?_⟩
    · exact lookup_erase_ne fun heq => (hout q mem_cons_self).2 (heq ▸ hmem)
    · have hne : p ≠ q := fun heq => hq (heq ▸ hmem)
      obtain ⟨hdisk, hix⟩ := hout p (mem_cons_of_mem _ hmem)
      refine ⟨?_, hix⟩
      rw [Disk.mem_paths] at hdisk ⊢
      exact mem_erase.mpr ⟨hne, hdisk⟩

theorem PassInv.stays (hsub : ∀ m ∈ sources, m ∈ s.core.index.blocks)
    (hm : m ∈ s.core.index.blocks) (hout : m ∉ sources) (new : Option BlockMetadata) :
    m ∈ (s.core.index.replace (sources.map path) new).blocks := by
  refine mem_replace.mpr (.inl ⟨hm, fun hmem => hout ?_⟩)
  obtain ⟨m', hm', heq⟩ := mem_map.mp hmem
  exact h.catalog.eq_of_path (hsub m' hm') hm heq ▸ hm'

theorem PassInv.emptied (hm : s.core.merge = some ⟨sources, .selected⟩)
    (hnone : env.mergeSources s.core.disk sources io = .ok none) :
    PassInv env rows₀ { s with core := { s.core with
      index := s.core.index.replace (sources.map path) none
      merge := some ⟨sources, .emptied⟩ } } := by
  obtain ⟨hp, hsub⟩ := h.unmerged_sources hm rfl
  have hnd := nodup_append.mp (hp ▸ h.once)
  refine ⟨h.catalog.drop _, ?_, fun m hmem => ?_, hnd.2.1, fun k hk => ?_, h.merged, trivial⟩
  · refine ((paths_replace_none _ _).flatMap_right _).trans (.trans ?_ h.rows)
    have hsplit := h.catalog.scan_split hsub hnd.1
    rw [mergeSources_none hnone, append_nil] at hsplit
    exact hsplit.symm
  · refine h.stays hsub (h.sources m (hp ▸ mem_append_right _ hmem)) (fun hs => ?_) _
    exact hnd.2.2 m hs m hmem rfl
  · obtain ⟨hmem, hout, hl⟩ := h.kept k hk
    rw [hp, mem_append, not_or] at hout
    exact ⟨h.stays hsub hmem hout.1 _, hout.2, hl⟩

theorem PassInv.publish (hstep : publish s.core = some core) : PassInv env rows₀
      { s with core := core, merged := published s.core .publish ++ s.merged } := by
  obtain ⟨sources, b, hm, rfl⟩ := publish_cases hstep
  obtain ⟨hp, hsub⟩ := h.unmerged_sources hm rfl
  have hnd := nodup_append.mp (hp ▸ h.once)
  have hst := h.stage
  rw [hm] at hst
  obtain ⟨hc, hout, hl⟩ := hst
  have hpub : published s.core .publish = [(sources, b)] := by rw [published, hm]
  have hsplit := h.catalog.scan_split hsub hnd.1
  rw [hpub]
  refine ⟨h.catalog.swap _ hl hc.merges.describes hout, ?_, fun m hmem => ?_, hnd.2.1,
    fun k hk => ?_, fun d hd => ?_, ?_, fun p hmem => ?_⟩
  · refine ((paths_replace _ _ _).flatMap_right _).trans (.trans ?_ h.rows)
    refine .trans ?_ (perm_append_comm.trans hsplit.symm)
    rw [flatMap_cons, rowsAt_of_lookup hl, file, rows_writeBlockFile]
    exact hc.rows.append_right _
  · refine h.stays hsub (h.sources m (hp ▸ mem_append_right _ hmem)) (fun hs => ?_) _
    exact hnd.2.2 m hs m hmem rfl
  · have hk' : k = (b.metadata, env.file b) ∨ k ∈ env.kept s := by
      simp only [Compactor.kept, cons_append, nil_append, map_cons, mem_append, mem_cons] at hk ⊢
      tauto
    rcases hk' with rfl | hk
    · refine ⟨mem_replace.mpr (.inr rfl), fun hmem => hout ?_, hl⟩
      exact path_mem (h.sources _ (hp ▸ mem_append_right _ hmem))
    · obtain ⟨hmem, hpend, hlk⟩ := h.kept k hk
      rw [hp, mem_append, not_or] at hpend
      exact ⟨h.stays hsub hmem hpend.1 _, hpend.2, hlk⟩
  · rcases mem_cons.mp hd with rfl | hd
    · exact hc.merges
    · exact h.merged d hd
  · exact hnd.1.map_on fun m hmem m' hmem' => h.catalog.eq_of_path (hsub m hmem) (hsub m' hmem')
  · have hin : p ∈ s.core.index.paths := map_subset _ hsub hmem
    refine ⟨h.catalog.mem_disk hin, fun hafter => ?_⟩
    rcases mem_cons.mp ((paths_replace _ _ _).mem_iff.mp hafter) with heq | hafter
    · exact hout (heq ▸ hin)
    · exact of_decide_eq_true (mem_filter.mp hafter).2 hmem

theorem PassInv.merge {e : CompactionEvent}
    (hok : env.passOk s (.merge e)) (hstep : env.mergeStep s e = some s') :
    PassInv env rows₀ s' := by
  cases e with
  | start sources => cases hstep
  | beginWrite io =>
    obtain ⟨core, hcore, rfl⟩ := Option.map_eq_some_iff.mp hstep
    obtain ⟨sources, hm, ⟨hnone, rfl⟩ | ⟨b, hb, rfl⟩⟩ := beginWrite_cases hcore
    · exact h.emptied hm hnone
    · exact h.writing hm hb hok
  | finishWrite =>
    obtain ⟨core, hcore, rfl⟩ := Option.map_eq_some_iff.mp hstep
    exact h.finishWrite hcore
  | rename =>
    obtain ⟨core, hcore, rfl⟩ := Option.map_eq_some_iff.mp hstep
    exact h.rename hcore
  | publish =>
    obtain ⟨core, hcore, rfl⟩ := Option.map_eq_some_iff.mp hstep
    exact h.publish hcore
  | delete ok =>
    obtain ⟨core, hcore, rfl⟩ := Option.map_eq_some_iff.mp hstep
    exact h.delete hcore
  | persist =>
    cases hstep
    exact h.persist

end

/-! ### The other tasks and the call -/

theorem StageOk.add (hcat : env.Catalog s.core.disk s.core.index)
    (hsub : ∀ m ∈ unmerged s.core.merge, m ∈ s.core.index.blocks)
    (hfresh : m.path ∉ s.core.disk.paths) (hfree : m.path ∉ taken s.core.merge)
    (h : StageOk env s.core s.core.merge) :
    StageOk env (addBlock s m file).core s.core.merge := by
  have hd := lookup_insert_unlisted s.core.disk (hcat.not_mem_of_unused hfresh) (.parquet file)
  have hpaths (p : Path) : p ∈ (s.core.index.add m).paths ↔ p = m.path ∨ p ∈ s.core.index.paths :=
    (paths_add _ _).mem_iff.trans mem_cons
  rcases hm : s.core.merge with _ | ⟨sources, stage⟩
  · trivial
  · rw [hm] at h hsub hfree
    cases stage with
    | selected => trivial
    | emptied => trivial
    | writing b | written b =>
      simp only [taken, mem_cons, not_mem_nil, or_false, not_or] at hfree
      obtain ⟨hc, hpath, htmp⟩ := h
      refine ⟨hc.congr hsub hd, not_mem_paths_insert (Ne.symm hfree.1) hpath, fun hin => ?_⟩
      exact ((hpaths _).mp hin).elim (fun heq => hfree.2 heq.symm) htmp
    | renamed b =>
      obtain ⟨hc, hpath, hl⟩ := h
      have hne : b.metadata.path ≠ m.path := fun heq =>
        hfresh (heq ▸ mem_disk_paths.mpr ⟨_, hl⟩)
      refine ⟨hc.congr hsub hd, fun hin => ((hpaths _).mp hin).elim hne hpath, ?_⟩
      exact (lookup_insert_ne hne).trans hl
    | published b todo =>
      refine ⟨h.1, fun p hp => ?_⟩
      obtain ⟨hdisk, hix⟩ := h.2 p hp
      have hne : p ≠ m.path := fun heq => hfresh (heq ▸ hdisk)
      obtain ⟨c, hl⟩ := mem_disk_paths.mp hdisk
      exact ⟨mem_disk_paths.mpr ⟨c, (lookup_insert_ne hne).trans hl⟩,
        fun hin => ((hpaths p).mp hin).elim hne hix⟩

section
variable (h : PassInv env rows₀ s)
include h

theorem PassInv.add (hok : env.passOk s (.add m file)) : PassInv env rows₀ (addBlock s m file) := by
  obtain ⟨hdesc, hfresh, hfree⟩ := hok
  have hout := h.catalog.not_mem_of_unused hfresh
  have hd := lookup_insert_unlisted s.core.disk hout (.parquet file)
  have hl : (s.core.disk.insert m.path (.parquet file)).lookup m.path = some (.parquet file) :=
    lookup_insert _
  have hnew : m ∉ pending s := fun hmem => hout (path_mem (h.sources m hmem))
  refine ⟨(h.catalog.congr hd).add hl hdesc hout, ?_,
    fun m' hm' => mem_add.mpr (.inl (h.sources m' hm')),
    h.once, fun k hk => ?_, h.merged,
    h.stage.add h.catalog (fun m' hm' => h.sources m' (mem_append_left _ hm')) hfresh hfree⟩
  · refine ((paths_add _ _).flatMap_right _).trans ?_
    show (Disk.rowsAt (s.core.disk.insert m.path (.parquet file)) m.path ++
      scan (s.core.disk.insert m.path (.parquet file)) s.core.index).Perm
        (rows₀ ++ (s.arrived ++ file.rows))
    rw [rowsAt_of_lookup hl, scan_congr hd, ← append_assoc]
    exact perm_append_comm.trans (h.rows.append_right _)
  · rcases mem_cons.mp hk with rfl | hk
    · exact ⟨mem_add.mpr (.inr rfl), hnew, hl⟩
    · obtain ⟨hmem, hpend, hlk⟩ := h.kept k hk
      exact ⟨mem_add.mpr (.inl hmem), hpend, (hd _ (path_mem hmem)).trans hlk⟩

theorem PassInv.callOnce (hstep : env.callOnce s = some s') : PassInv env rows₀ s' := by
  unfold Compactor.callOnce at hstep
  split at hstep
  · next hphase hidle =>
    split at hstep
    · cases hstep
      exact h.goesOn (by rw [hphase]; rfl)
    · next sources hsel =>
      cases hstep
      refine h.select (unmerged_of_idle hidle) ?_
      simpa [Phase.groups] using (selectable_of_selectSmall hsel).2
  · cases hstep

theorem PassInv.callTiered {nowNs : Int}
    (hstep : Compactor.callTiered s nowNs = some s') : PassInv env rows₀ s' := by
  unfold Compactor.callTiered at hstep
  split at hstep
  · next hphase _ =>
    cases hstep
    exact h.goesOn (by rw [hphase]; rfl)
  · cases hstep

theorem PassInv.round (hstep : env.select s = some s') : PassInv env rows₀ s' := by
  unfold Compactor.select at hstep
  split at hstep
  · next nowNs signal signals mergesDone hphase =>
    split_ifs at hstep with hidle
    split at hstep
    · cases hstep
      exact h.goesOn (by rw [hphase]; rfl)
    · next g gs hsel =>
      cases hstep
      refine h.select (unmerged_of_idle hidle) ?_
      rw [Phase.groups, ← hsel]
      exact (take_sublist _ _).flatten.trans (flatten_selectTiered _ _ _ _)
  · cases hstep

theorem PassInv.next (hstep : Compactor.next s = some s') : PassInv env rows₀ s' := by
  unfold Compactor.next at hstep
  split at hstep
  · next nowNs signals g gs mergesDone hphase =>
    split_ifs at hstep with hidle
    cases hstep
    refine h.frame rfl (fun _ _ => rfl) ?_ trivial
    rw [pending, pending, hphase, unmerged_of_idle hidle]
    rfl
  · cases hstep

theorem PassInv.finish (hstep : Compactor.finish s = some s') : PassInv env rows₀ s' := by
  unfold Compactor.finish at hstep
  split at hstep
  · next hphase =>
    split_ifs at hstep
    cases hstep
    exact h.goesOn (by rw [hphase]; rfl)
  · cases hstep

theorem PassInv.step {e : PassEvent R} (hok : env.passOk s e)
    (hstep : env.passStep s e = some s') : PassInv env rows₀ s' := by
  cases e with
  | callOnce => exact h.callOnce hstep
  | callTiered nowNs => exact h.callTiered hstep
  | select => exact h.round hstep
  | next => exact h.next hstep
  | merge e => exact h.merge hok hstep
  | add m file => cases hstep; exact h.add hok
  | finish => exact h.finish hstep

end

end

def uncalled (core : CompactionState R) : PassState R := ⟨core, .idle, [], [], []⟩

theorem PassInv.start (hcat : env.Catalog core.disk core.index) (hidle : idle core.merge) :
    PassInv env (scan core.disk core.index) (uncalled core) := by
  have hp : pending (uncalled core) = [] := by
    show unmerged core.merge ++ [] = []
    rw [unmerged_of_idle hidle]
    rfl
  refine ⟨hcat, ?_, ?_, hp ▸ nodup_nil, nofun, nofun, ?_⟩
  · rw [uncalled, append_nil]
  · rw [hp]
    exact nofun
  · show StageOk env core core.merge
    rcases hm : core.merge with _ | ⟨sources, stage⟩
    · trivial
    · rw [hm] at hidle
      cases stage with
      | published b todo =>
        cases todo with
        | nil => exact ⟨nodup_nil, nofun⟩
        | cons p todo => cases hidle
      | selected => trivial
      | emptied => trivial
      | writing b | written b | renamed b => cases hidle

end Compactor

/-! ## The names in a row -/

variable {V : Type}

def rowMetricNames : (s : SignalType) → Row V s → List String
  | .metrics, r => [r.name]
  | .logs, _ | .traces, _ => []

def rowLabelNames : (s : SignalType) → Row V s → List String
  | .metrics, r => (r.resource.entries ++ r.point.labels.entries).map Prod.fst
  | .logs, l => (l.attributes.entries ++ l.resourceAttributes.entries).map Prod.fst
  | .traces, sp => sp.attributes.entries.map Prod.fst

def NamesExact (s : SignalType) (m : BlockMetadata) (rows : List (Row V s)) : Prop :=
  (∀ name, name ∈ m.metricNames ↔ ∃ r ∈ rows, name ∈ rowMetricNames s r) ∧
    ∀ name, name ∈ m.labelNames ↔ ∃ r ∈ rows, name ∈ rowLabelNames s r

theorem mem_metricNames (s : SignalType) (rows : List (Row V s)) (name : String) :
    name ∈ (signalKind V s).metricNames rows ↔ ∃ r ∈ rows, name ∈ rowMetricNames s r := by
  cases s with
  | metrics => simp [signalKind, metricSignal, rowMetricNames, eq_comm]
  | logs => simp [signalKind, logSignal, rowMetricNames]
  | traces => simp [signalKind, traceSignal, rowMetricNames]

theorem mem_labelNames (s : SignalType) (rows : List (Row V s)) (name : String) :
    name ∈ (signalKind V s).labelNames rows ↔ ∃ r ∈ rows, name ∈ rowLabelNames s r := by
  cases s with
  | metrics => exact mem_toFinset.trans mem_flatMap
  | logs => exact mem_toFinset.trans mem_flatMap
  | traces => exact mem_toFinset.trans mem_flatMap

namespace Compactor

def ofSignal (V : Type) (s : SignalType) (config : BlockConfig) : Compactor (Row V s) :=
  ⟨signalKind V s, config⟩

theorem Merges.namesExact {sig : SignalType} {config : BlockConfig} {b : Block (Row V sig)}
    (h : (ofSignal V sig config).Merges sources b) : NamesExact sig b.metadata b.rows := by
  obtain ⟨rows, hperm, hm, hl⟩ := h.names
  constructor
  · intro name
    rw [hm]
    refine (mem_metricNames sig rows name).trans ?_
    simp only [hperm.mem_iff]
  · intro name
    rw [hl]
    refine (mem_labelNames sig rows name).trans ?_
    simp only [hperm.mem_iff]

/-- **Compaction keeps the content.** In every state of a call of `compact_once` or
`compact_tiered`, from every index whose blocks describe their files, a scan returns the rows from
before the call and those of the blocks that other tasks added, each as often. Every merged block
has the row count of its sources together and the names of its rows, and every block that was
added since the sources were selected is in the index. -/
theorem compaction_keeps_content (V : Type) (sig : SignalType) (config : BlockConfig)
    {core : CompactionState (Row V sig)} {s : PassState (Row V sig)}
    (hcat : (ofSignal V sig config).Catalog core.disk core.index) (hidle : idle core.merge)
    (hrun : Run (ofSignal V sig config).passStep (ofSignal V sig config).passOk
      (uncalled core) s) :
    (scan s.core.disk s.core.index).Perm (scan core.disk core.index ++ s.arrived) ∧
      (∀ d ∈ s.merged, d.2.metadata ∈ s.core.index.blocks ∧
        d.2.metadata.rowCount = (d.1.map rowCount).sum ∧
        NamesExact sig d.2.metadata (s.core.disk.rowsAt d.2.metadata.path)) ∧
      ∀ a ∈ s.added, a.1 ∈ s.core.index.blocks ∧
        s.core.disk.lookup a.1.path = some (.parquet a.2) := by
  have h := hrun.inv (PassInv.start hcat hidle) fun _ _ _ hs hok hstep => hs.step hok hstep
  refine ⟨h.rows, fun d hd => ?_, fun a ha => ?_⟩
  · obtain ⟨hmem, -, hl⟩ := h.kept (d.2.metadata, (ofSignal V sig config).file d.2)
      (mem_append_right _ (mem_map_of_mem hd))
    have hrows : s.core.disk.rowsAt d.2.metadata.path = d.2.rows :=
      (rowsAt_of_lookup hl).trans (rows_writeBlockFile _ _ _)
    refine ⟨hmem, (h.merged d hd).rowCount, ?_⟩
    rw [hrows]
    exact (h.merged d hd).namesExact
  · obtain ⟨hmem, -, hl⟩ := h.kept a (mem_append_left _ ha)
    exact ⟨hmem, hl⟩

end Compactor

open Sample in
/-- A call of `compact_once` on two blocks, while a third one is added. -/
theorem compaction_keeps_content_once :
    ∃ s : PassState (MetricRow Unit), s.phase = .returned ∧
      (s.merged.map fun d => (d.1.length, d.2.metadata.rowCount)) = [(2, 2)] ∧
      (scan s.core.disk s.core.index).Perm [metricRow 1, metricRow 2, metricRow 3] := by
  have hcat : metricCompactor.Catalog metricState.disk metricState.index := by decide +kernel
  let third := single metricCompactor "c" (metricRow 3)
  obtain ⟨s, hrun, hphase, hmerged, harrived⟩ :=
    exists_run metricCompactor.passStep metricCompactor.passOk
    (uncalled metricState)
    (fun s => s.phase = .returned ∧
      (s.merged.map fun d => (d.1.length, d.2.metadata.rowCount)) = [(2, 2)] ∧
      s.arrived = [metricRow 3])
    [.callOnce, .next, .merge (.beginWrite ⟨.written, "m", 0, ""⟩),
      .add third.metadata (metricCompactor.file third), .merge .finishWrite, .merge .rename,
      .merge .publish, .merge (.delete true), .merge (.delete true), .finish] (by decide +kernel)
  have hrows := (compaction_keeps_content Unit .metrics metricCompactor.config hcat rfl
    hrun).1
  have hscan : scan metricState.disk metricState.index = [metricRow 1, metricRow 2] := by
    decide +kernel
  refine ⟨s, hphase, hmerged, ?_⟩
  rw [harrived, hscan] at hrows
  exact hrows

end Parqtel.Storage
