import Parqtel.Storage.Bounds

/-!
# Rebuilding the index at startup

At startup each index is loaded from its sidecar and then reconciled with the block files
in the directory of the sidecar: entries without a file are dropped, files without an entry
are adopted when their name and their schema say that they hold the signal. Reconciling is
idempotent. It restores every block exactly when each one is where the index looks for it,
under a name that it accepts or with an entry (`restart_keeps_iff`): trace blocks are
written next to the directory that their index looks at, and merged log blocks get a name
that is not one of a log block.
-/

namespace Parqtel.Storage

open Parqtel.Lib Parqtel.Ingest List BlockMetadata BlockIndex

/-! ## Files on disk -/

abbrev Disk (R : Type*) := AList fun _ : Path => FileContent R

section
variable {R : Type*}

def Disk.files (disk : Disk R) : List (Path × FileContent R) :=
  disk.entries.map fun e => (e.1, e.2)

def Disk.paths (disk : Disk R) : List Path := disk.files.map Prod.fst

def Disk.readDir (disk : Disk R) (dir : List String) : List (Path × FileContent R) :=
  disk.files.filter fun e => e.1.dir = dir

theorem Disk.nodup (disk : Disk R) : disk.paths.Nodup := by
  have h : disk.paths = disk.keys := map_map
  exact h ▸ disk.keys_nodup

structure ReconcileStats where
  adopted : ℕ
  dropped : ℕ
  scanned : ℕ
  unreadable : ℕ
deriving DecidableEq, Repr

def adoptFile (kind : SignalKind R) (known : List Path) (st : ReconcileStats × List BlockMetadata)
    (entry : Path × FileContent R) : ReconcileStats × List BlockMetadata :=
  if entry.1 ∈ known then st
  else if !filenameMayHoldSignal entry.1.file kind.signal then st
  else
    let stats := { st.1 with scanned := st.1.scanned + 1 }
    match readBlockMetadata kind entry.1 entry.2 with
    | .ok (some m) => ({ stats with adopted := stats.adopted + 1 }, st.2 ++ [m])
    | .ok none => (stats, st.2)
    | .error _ => ({ stats with unreadable := stats.unreadable + 1 }, st.2)

def parquetFiles (entries : List (Path × FileContent R)) : List (Path × FileContent R) :=
  entries.filter fun e => isParquet e.1.file

def retained (onDisk : List (Path × FileContent R)) (blocks : List BlockMetadata) :
    List BlockMetadata :=
  blocks.filter fun b => b.path ∈ onDisk.map Prod.fst

def reconcile (kind : SignalKind R) (listing : Option (List (Path × FileContent R)))
    (ix : BlockIndex) : ReconcileStats × BlockIndex :=
  match listing with
  | none => (⟨0, 0, 0, 0⟩, ix)
  | some entries =>
    let onDisk := parquetFiles entries
    let kept := retained onDisk ix.blocks
    let dropped := ix.blocks.length - kept.length
    let out := onDisk.foldl (adoptFile kind (kept.map path)) (⟨0, dropped, 0, 0⟩, kept)
    (out.1, .ofBlocks ix.dataDir out.2)

def restart (kind : SignalKind R) (dir : List String) (disk : Disk R) (sidecar : Sidecar) :
    BlockIndex :=
  (reconcile kind (some (disk.readDir dir)) ((new dir).load sidecar)).2

/-! ## What reconciling leaves -/

def adopts (kind : SignalKind R) (e : Path × FileContent R) : Option BlockMetadata :=
  if filenameMayHoldSignal e.1.file kind.signal then
    match readBlockMetadata kind e.1 e.2 with
    | .ok m => m
    | .error _ => none
  else none

theorem adoptFile_snd (kind : SignalKind R) (known : List Path)
    (st : ReconcileStats × List BlockMetadata) (e : Path × FileContent R) :
    (adoptFile kind known st e).2 =
      st.2 ++ (if e.1 ∈ known then none else adopts kind e).toList := by
  by_cases hk : e.1 ∈ known
  · simp [adoptFile, hk]
  cases hn : filenameMayHoldSignal e.1.file kind.signal with
  | false => simp [adoptFile, adopts, hk, hn]
  | true =>
    rcases hr : readBlockMetadata kind e.1 e.2 with err | (_ | m) <;>
      simp [adoptFile, adopts, hk, hn, hr]

theorem foldl_adoptFile (kind : SignalKind R) (known : List Path)
    (entries : List (Path × FileContent R)) (st : ReconcileStats × List BlockMetadata) :
    (entries.foldl (adoptFile kind known) st).2 =
      st.2 ++ entries.filterMap fun e => if e.1 ∈ known then none else adopts kind e := by
  induction entries generalizing st with
  | nil => simp
  | cons e es ih =>
    rw [foldl_cons, ih, adoptFile_snd, append_assoc, filterMap_cons]
    cases (if e.1 ∈ known then none else adopts kind e) <;> simp

theorem path_of_adopts {kind : SignalKind R} {e : Path × FileContent R} {m : BlockMetadata}
    (h : adopts kind e = some m) : m.path = e.1 := by
  obtain ⟨path, content⟩ := e
  cases content with
  | damaged message => simp [adopts, readBlockMetadata] at h
  | parquet file =>
    simp only [adopts, readBlockMetadata] at h
    split_ifs at h
    cases h
    rfl

theorem blocks_reconcile (kind : SignalKind R) (entries : List (Path × FileContent R))
    (ix : BlockIndex) :
    (reconcile kind (some entries) ix).2.blocks =
      sortByStart (retained (parquetFiles entries) ix.blocks ++
        (parquetFiles entries).filterMap fun e =>
          if e.1 ∈ (retained (parquetFiles entries) ix.blocks).map path then none
          else adopts kind e) :=
  congrArg sortByStart (foldl_adoptFile kind _ _ _)

def adoptable (kind : SignalKind R) (listed : List Path) (e : Path × FileContent R) : Bool :=
  e.1 ∉ listed && (adopts kind e).isSome

theorem map_path_adopted (kind : SignalKind R) (known : List Path)
    (entries : List (Path × FileContent R)) :
    (entries.filterMap fun e => if e.1 ∈ known then none else adopts kind e).map
        path =
      (entries.filter (adoptable kind known)).map Prod.fst := by
  induction entries with
  | nil => rfl
  | cons e es ih =>
    by_cases hk : e.1 ∈ known
    · simpa [adoptable, hk] using ih
    · cases ha : adopts kind e with
      | none => simpa [adoptable, hk, ha] using ih
      | some m => simpa [adoptable, hk, ha, path_of_adopts ha] using ih

theorem mem_path_retained {onDisk : List (Path × FileContent R)} {blocks : List BlockMetadata}
    {p : Path} (hp : p ∈ onDisk.map Prod.fst) :
    p ∈ (retained onDisk blocks).map path ↔ p ∈ blocks.map path := by
  constructor
  · exact fun h => (filter_sublist.map _).subset h
  · intro h
    obtain ⟨b, hb, rfl⟩ := mem_map.mp h
    exact mem_map_of_mem (mem_filter.mpr ⟨hb, decide_eq_true hp⟩)

/-- **What reconciling leaves.** The paths of the entries that have a file, and those of the files
that are adopted. -/
theorem paths_reconcile (kind : SignalKind R) (entries : List (Path × FileContent R))
    (ix : BlockIndex) :
    ((reconcile kind (some entries) ix).2.blocks.map path).Perm
      ((ix.blocks.map path).filter (· ∈ (parquetFiles entries).map Prod.fst) ++
        ((parquetFiles entries).filter
          (adoptable kind (ix.blocks.map path))).map Prod.fst) := by
  rw [blocks_reconcile]
  refine ((sortByKey_perm _ _).map path).trans (List.Perm.of_eq ?_)
  rw [map_append, map_path_adopted]
  congr 1
  · rw [retained, filter_map]
    rfl
  · refine congrArg _ (filter_congr fun e he => ?_)
    unfold adoptable
    rw [decide_eq_decide.mpr (not_congr (mem_path_retained (mem_map_of_mem he)))]

section
variable {kind : SignalKind R} {entries : List (Path × FileContent R)} {ix : BlockIndex} {p : Path}

theorem mem_listing_of_mem_reconcile
    (h : p ∈ (reconcile kind (some entries) ix).2.blocks.map path) :
    p ∈ (parquetFiles entries).map Prod.fst := by
  rcases mem_append.mp ((paths_reconcile kind entries ix).mem_iff.mp h) with h | h
  · exact of_decide_eq_true (mem_filter.mp h).2
  · exact (filter_sublist.map _).subset h

theorem adopts_own {file : ParquetFile R} (hcols : file.columns = kind.schema) :
    adopts kind (p, .parquet file) =
      if filenameMayHoldSignal p.file kind.signal then some (footerMetadata kind p file)
      else none := by
  unfold adopts
  rw [readBlockMetadata_own p hcols]

theorem isSome_adopts_own {file : ParquetFile R} (hcols : file.columns = kind.schema) :
    (adopts kind (p, .parquet file)).isSome = filenameMayHoldSignal p.file kind.signal := by
  rw [adopts_own hcols]
  split_ifs with h <;> simp [h]

theorem count_reconcile {content : FileContent R} (hnodup : (entries.map Prod.fst).Nodup)
    (hmem : (p, content) ∈ parquetFiles entries) :
    ((reconcile kind (some entries) ix).2.blocks.map path).count p =
      (ix.blocks.map path).count p +
        if (ix.blocks.map path).count p = 0 ∧ (adopts kind (p, content)).isSome
        then 1 else 0 := by
  have hnd : ((parquetFiles entries).map Prod.fst).Nodup :=
    hnodup.sublist (filter_sublist.map _)
  have hdisk : p ∈ (parquetFiles entries).map Prod.fst := mem_map_of_mem hmem
  rw [(paths_reconcile kind entries ix).count_eq, count_append]
  congr 1
  · exact count_filter (decide_eq_true hdisk)
  have hadopt : adoptable kind (ix.blocks.map path) (p, content) =
      decide ((ix.blocks.map path).count p = 0 ∧
        (adopts kind (p, content)).isSome = true) := by
    simp [adoptable, count_eq_zero]
  split_ifs with h
  · refine count_eq_one_of_mem (hnd.sublist (filter_sublist.map _)) ?_
    exact mem_map_of_mem (mem_filter.mpr ⟨hmem, hadopt.trans (decide_eq_true h)⟩)
  · refine count_eq_zero.mpr fun hp => h ?_
    obtain ⟨⟨q, c⟩, he, rfl⟩ := mem_map.mp hp
    obtain ⟨hin, ha⟩ := mem_filter.mp he
    obtain rfl : c = content := congrArg Prod.snd (inj_on_of_nodup_map hnd hin hmem rfl)
    exact of_decide_eq_true (hadopt ▸ ha)

/-- **Reconciling is idempotent**, in whatever order the directory is listed the second time. -/
theorem reconcile_again {entries' : List (Path × FileContent R)} (h : entries'.Perm entries) :
    (reconcile kind (some entries') (reconcile kind (some entries) ix).2).2 =
      (reconcile kind (some entries) ix).2 := by
  set ix1 := (reconcile kind (some entries) ix).2 with hix1
  have hfiles : (parquetFiles entries').Perm (parquetFiles entries) := h.filter _
  have hkept : retained (parquetFiles entries') ix1.blocks = ix1.blocks := by
    refine filter_eq_self.mpr fun b hb => decide_eq_true ?_
    exact (hfiles.map Prod.fst).mem_iff.mpr (mem_listing_of_mem_reconcile (mem_map_of_mem hb))
  -- what could be adopted was adopted the first time
  have hnone : ∀ e ∈ parquetFiles entries', (if e.1 ∈ (retained (parquetFiles entries')
      ix1.blocks).map path then none else adopts kind e) = none := by
    intro e he
    rw [hkept, ite_eq_left_iff]
    intro hnew
    by_contra hsome
    refine hnew ((paths_reconcile kind entries ix).mem_iff.mpr (mem_append.mpr ?_))
    have he' := hfiles.mem_iff.mp he
    by_cases hl : e.1 ∈ ix.blocks.map path
    · exact .inl (mem_filter.mpr ⟨hl, decide_eq_true (mem_map_of_mem he')⟩)
    · refine .inr (mem_map_of_mem (mem_filter.mpr ⟨he', ?_⟩))
      simpa [adoptable, hl] using Option.ne_none_iff_isSome.mp hsome
  have hblocks : (reconcile kind (some entries') ix1).2.blocks = ix1.blocks := by
    rw [blocks_reconcile, hkept, filterMap_eq_nil_iff.mpr (by simpa only [hkept] using hnone),
      append_nil]
    exact ix1.sorted.insertionSort_eq
  exact BlockIndex.ext hblocks rfl

/-! ## What a restart finds -/

variable {disk : Disk R}

theorem Disk.mem_files {content : FileContent R} :
    (p, content) ∈ disk.files ↔ disk.lookup p = some content := by
  rw [← Option.mem_def, AList.mem_lookup_iff, Disk.files, mem_map]
  constructor
  · rintro ⟨e, he, heq⟩
    obtain ⟨rfl, rfl⟩ := Prod.mk.inj heq
    exact he
  · exact fun h => ⟨_, h, rfl⟩

theorem Disk.mem_paths : p ∈ disk.paths ↔ p ∈ disk := by
  rw [AList.mem_keys, Disk.paths, Disk.files, map_map]
  rfl

theorem nodup_readDir (disk : Disk R) (dir : List String) :
    ((disk.readDir dir).map Prod.fst).Nodup :=
  disk.nodup.sublist (filter_sublist.map _)

theorem mem_parquetFiles_readDir {dir : List String} :
    p ∈ (parquetFiles (disk.readDir dir)).map Prod.fst ↔
      p ∈ disk.paths ∧ p.dir = dir ∧ isParquet p.file := by
  constructor
  · intro h
    obtain ⟨e, he, rfl⟩ := mem_map.mp h
    obtain ⟨he, hext⟩ := mem_filter.mp he
    obtain ⟨he, hdir⟩ := mem_filter.mp he
    exact ⟨mem_map_of_mem he, of_decide_eq_true hdir, hext⟩
  · rintro ⟨hp, hdir, hext⟩
    obtain ⟨e, he, rfl⟩ := mem_map.mp hp
    exact mem_map_of_mem
      (mem_filter.mpr ⟨mem_filter.mpr ⟨he, decide_eq_true hdir⟩, hext⟩)

def listedPaths (dir : List String) (sidecar : Sidecar) : List Path :=
  ((new dir).load sidecar).blocks.map path

def entriesFor (kind : SignalKind R) (dir : List String) (listed : List Path) (p : Path)
    (content : FileContent R) : ℕ :=
  if p.dir = dir ∧ isParquet p.file then
    listed.count p + if listed.count p = 0 ∧ (adopts kind (p, content)).isSome then 1 else 0
  else 0

/-- **What a restart finds**, file by file. -/
theorem count_restart (kind : SignalKind R) (dir : List String) (disk : Disk R) (sidecar : Sidecar)
    (p : Path) :
    ((restart kind dir disk sidecar).blocks.map path).count p =
      (disk.lookup p).elim 0 (entriesFor kind dir (listedPaths dir sidecar) p) := by
  cases hl : disk.lookup p with
  | none =>
    refine count_eq_zero.mpr fun hp => ?_
    have hmem := (mem_parquetFiles_readDir.mp (mem_listing_of_mem_reconcile hp)).1
    exact AList.lookup_eq_none.mp hl (Disk.mem_paths.mp hmem)
  | some content =>
    have hfile := Disk.mem_files.mpr hl
    by_cases hin : p.dir = dir ∧ isParquet p.file
    · rw [Option.elim_some, entriesFor, if_pos hin]
      refine count_reconcile (nodup_readDir disk dir) ?_
      exact mem_filter.mpr ⟨mem_filter.mpr ⟨hfile, decide_eq_true hin.1⟩, hin.2⟩
    · rw [Option.elim_some, entriesFor, if_neg hin]
      refine count_eq_zero.mpr fun hp => hin ?_
      exact (mem_parquetFiles_readDir.mp (mem_listing_of_mem_reconcile hp)).2

end

end

/-! ## Startup -/

structure ServerConfig where
  storageDataDir : List String
  logsDataDir : List String
deriving DecidableEq, Repr

namespace ServerConfig

def indexDir (c : ServerConfig) : SignalType → List String
  | .metrics => c.storageDataDir
  | .logs => c.logsDataDir
  | .traces => c.storageDataDir ++ ["traces"]

/-- Where the blocks of a signal are written. The trace writer has the metric configuration. -/
def blockDir (c : ServerConfig) : SignalType → List String
  | .metrics => c.storageDataDir
  | .logs => c.logsDataDir
  | .traces => c.storageDataDir

end ServerConfig

/-- How often the sidecar may list a block file for restart to find it once: metric blocks are
adopted, log blocks unless the compactor made them, and trace blocks are never found. -/
def ListedWell : SignalType → Maker → ℕ → Prop
  | .metrics, _, n => n ≤ 1
  | .logs, .writer, n => n ≤ 1
  | .logs, .compactor, n => n = 1
  | .traces, _, _ => False

section
variable (V : Type) (c : ServerConfig) (s : SignalType) (disk : Disk (Row V s))

/-- The index as its sidecar has it; one that cannot be read is ignored. -/
def loadedIndex (sidecar : Sidecar) : BlockIndex := (new (c.indexDir s)).load sidecar

def startupIndex (sidecar : Sidecar) : BlockIndex :=
  restart (signalKind V s) (c.indexDir s) disk sidecar

def IsBlockFile (m : Maker) (p : Path) : Prop :=
  ∃ config rows b, config.dataDir = c.blockDir s ∧ Made V config s m rows b ∧ b.metadata.path = p ∧
    (p, .parquet (writeBlockFile (signalKind V s) config.rowGroupSize b)) ∈ disk.files

/-- Restart keeps every block. -/
structure KeepsBlocks (sidecar : Sidecar) (superseded : Path → Prop) : Prop where
  /-- An entry is gone only if its file is. -/
  entries : ∀ e ∈ (loadedIndex c s sidecar).blocks,
    e ∉ (startupIndex V c s disk sidecar).blocks → e.path ∉ disk.paths
  /-- Every block has one entry. -/
  files : ∀ m p, IsBlockFile V c s disk m p → ¬ superseded p →
    ((startupIndex V c s disk sidecar).blocks.map path).count p = 1
  /-- Reconciling again changes nothing. -/
  again : ∀ disk' : Disk (Row V s), disk'.files.Perm disk.files →
    (reconcile (signalKind V s) (some (disk'.readDir (c.indexDir s)))
      (startupIndex V c s disk sidecar)).2 = startupIndex V c s disk sidecar

/-- What restart needs to keep every block. -/
structure Restorable (sidecar : Sidecar) (superseded : Path → Prop) : Prop where
  /-- The sidecar lists no file in another place. -/
  inPlace : ∀ e ∈ (loadedIndex c s sidecar).blocks, e.path ∈ disk.paths →
    e.path.dir = c.indexDir s ∧ isParquet e.path.file
  /-- The sidecar lists each block as often as it has to. -/
  listed : ∀ m p, IsBlockFile V c s disk m p → ¬ superseded p →
    ListedWell s m ((listedPaths (c.indexDir s) sidecar).count p)

end

section
variable {V : Type} {c : ServerConfig} {s : SignalType} {disk : Disk (Row V s)}
  {config : BlockConfig} {m : Maker} {p : Path} {sidecar : Sidecar}

theorem Made.path {rows : List (Row V s)} {b : Block (Row V s)} (h : Made V config s m rows b) :
    b.metadata.path.dir = config.dataDir ∧
      ∃ t₁ t₂ uuid, b.metadata.path.file = blockName (m.fileTag V s) t₁ t₂ uuid := by
  cases h with
  | compactor h =>
    obtain ⟨first, rest, -, rfl⟩ := writeMerged_ok h
    exact ⟨rfl, _, _, _, rfl⟩
  | writer h =>
    cases s with
    | metrics =>
      obtain ⟨w, io, rfl, -, h⟩ := h
      obtain ⟨-, rfl⟩ := metricFlush_ok h
      exact ⟨rfl, _, _, io.uuid, by rfl⟩
    | logs =>
      obtain ⟨w, io, rfl, -, h⟩ := h
      obtain ⟨first, rest, -, rfl⟩ := flush_result_ok h
      exact ⟨rfl, _, _, _, rfl⟩
    | traces =>
      obtain ⟨w, io, rfl, -, h⟩ := h
      obtain ⟨first, rest, -, rfl⟩ := flush_result_ok h
      exact ⟨rfl, _, _, _, rfl⟩

/-- The names that reconciling accepts: all but those of merged log and trace blocks. -/
theorem Made.filenameMayHold {rows : List (Row V s)} {b : Block (Row V s)}
    (h : Made V config s m rows b) :
    filenameMayHoldSignal b.metadata.path.file s = decide (s = .metrics ∨ m = .writer) := by
  obtain ⟨-, t₁, t₂, uuid, hname⟩ := h.path
  rw [hname]
  cases m with
  | compactor =>
    rw [Maker.fileTag, filenameMayHoldSignal_blockName]
    simp
  | writer =>
    cases s with
    | metrics => exact filenameMayHoldSignal_blockName t₁ t₂ uuid .metrics
    | logs => exact startsWith_blockName "logs_" t₁ t₂ uuid
    | traces => exact startsWith_blockName "traces_" t₁ t₂ uuid

theorem count_startupIndex (hs : s ≠ .traces) (h : IsBlockFile V c s disk m p) :
    ((startupIndex V c s disk sidecar).blocks.map path).count p = 1 ↔
      ListedWell s m ((listedPaths (c.indexDir s) sidecar).count p) := by
  obtain ⟨config, rows, b, hdir, hmade, rfl, hfile⟩ := h
  obtain ⟨hpath, t₁, t₂, uuid, hname⟩ := hmade.path
  have hsame : c.blockDir s = c.indexDir s := by
    cases s with
    | metrics => rfl
    | logs => rfl
    | traces => exact absurd rfl hs
  have hlook : b.metadata.path.dir = c.indexDir s ∧ isParquet b.metadata.path.file :=
    ⟨hpath.trans (hdir.trans hsame), hname ▸ isParquet_blockName _ t₁ t₂ uuid⟩
  unfold startupIndex
  rw [count_restart, Disk.mem_files.mp hfile, Option.elim_some, entriesFor, if_pos hlook,
    isSome_adopts_own rfl, signal_signalKind, hmade.filenameMayHold]
  cases s with
  | metrics => simp only [ListedWell]; split_ifs <;> simp_all; omega
  | logs => cases m <;> simp only [ListedWell] <;> split_ifs <;> simp_all; omega
  | traces => exact absurd rfl hs

theorem count_startupIndex_traces {disk : Disk (Row V .traces)}
    (h : IsBlockFile V c .traces disk m p) :
    ((startupIndex V c .traces disk sidecar).blocks.map path).count p = 0 := by
  obtain ⟨config, rows, b, hdir, hmade, rfl, -⟩ := h
  refine count_eq_zero.mpr fun hp => ?_
  have hlook := (mem_parquetFiles_readDir.mp (mem_listing_of_mem_reconcile hp)).2.1
  rw [hmade.path.1, hdir] at hlook
  have := congrArg List.length hlook
  simp [ServerConfig.blockDir, ServerConfig.indexDir] at this

theorem count_startupIndex_iff (h : IsBlockFile V c s disk m p) :
    ((startupIndex V c s disk sidecar).blocks.map path).count p = 1 ↔
      ListedWell s m ((listedPaths (c.indexDir s) sidecar).count p) := by
  by_cases hs : s = .traces
  · subst hs
    rw [count_startupIndex_traces h]
    simp [ListedWell]
  · exact count_startupIndex hs h

theorem mem_startupIndex {e : BlockMetadata} (h : e ∈ (loadedIndex c s sidecar).blocks) :
    e ∈ (startupIndex V c s disk sidecar).blocks ↔
      e.path ∈ disk.paths ∧ e.path.dir = c.indexDir s ∧ isParquet e.path.file := by
  rw [← mem_parquetFiles_readDir]
  constructor
  · exact fun he => mem_listing_of_mem_reconcile (mem_map_of_mem he)
  · intro hp
    unfold startupIndex restart
    rw [blocks_reconcile]
    refine (sortByKey_perm _ _).mem_iff.mpr (mem_append_left _ ?_)
    exact mem_filter.mpr ⟨h, decide_eq_true hp⟩

/-- **When restart keeps every block.** For every signal, directory content, sidecar and set of
superseded files: every entry whose file exists stays, every block that is not superseded has one
entry, and reconciling again changes nothing, if and only if the sidecar lists no existing file
outside the directory of the index and lists each metric and log block at most once, merged log
blocks once, and there is no trace block. -/
theorem restart_keeps_iff (V : Type) (c : ServerConfig) (s : SignalType) (disk : Disk (Row V s))
    (sidecar : Sidecar) (superseded : Path → Prop) :
    KeepsBlocks V c s disk sidecar superseded ↔ Restorable V c s disk sidecar superseded := by
  constructor
  · intro h
    refine ⟨fun e he hp => ?_, fun m p hm hs => (count_startupIndex_iff hm).mp (h.files m p hm hs)⟩
    by_contra hout
    exact h.entries e he (fun hin => hout ((mem_startupIndex he).mp hin).2) hp
  · intro h
    refine ⟨fun e he hout hp => hout ((mem_startupIndex he).mpr ⟨hp, h.inPlace e he hp⟩),
      fun m p hm hs => (count_startupIndex_iff hm).mpr (h.listed m p hm hs),
      fun disk' hperm => reconcile_again (hperm.filter _)⟩

end

namespace Sample

def server : ServerConfig := ⟨["data"], ["logs"]⟩

def oneFile {R : Type} (kind : SignalKind R) (b : Block R) : Disk R :=
  AList.singleton b.metadata.path (.parquet (writeBlockFile kind 1 b))

def log (timestampNs : Int) : LogRecord :=
  ⟨timestampNs, 0, 0, "", "", .empty, .empty, .replicate 16 0, .replicate 8 0, 0, "", ""⟩

def logConfig : BlockConfig := ⟨["logs"], 10, 1, 12, 8⟩

def mergedLogs (first : LogRecord) (rest : List LogRecord) : Block LogRecord :=
  mergedBlock logSignal logConfig [] .fine first rest

end Sample

open Sample in
/-- **Restart loses blocks.** A trace block that the sidecar lists is dropped, and a merged log
block that the sidecar does not list yet is not adopted. -/
theorem restart_loses_blocks :
    ¬ KeepsBlocks Unit server .traces (oneFile traceSignal (traceBlock (span 0 1) []))
        (.payload [(traceBlock (span 0 1) []).metadata]) (fun _ => False) ∧
      ¬ KeepsBlocks Unit server .logs (oneFile logSignal (mergedLogs (log 0) [])) .absent
        (fun _ => False) := by
  constructor
  · intro h
    have hone := h.files .writer (traceBlock (span 0 1) []).metadata.path
      ⟨Ingest.Sample.config 10, [span 0 1], _, rfl, made_traceBlock _ _ rfl, rfl,
        mem_singleton_self _⟩ not_false
    revert hone
    decide
  · intro h
    have hok : writeMerged logSignal logConfig [log 0] [] .fine = .ok (mergedLogs (log 0) []) := rfl
    have hone := h.files .compactor (mergedLogs (log 0) []).metadata.path
      ⟨logConfig, [log 0], _, rfl, .compactor hok, rfl, mem_singleton_self _⟩ not_false
    revert hone
    decide

end Parqtel.Storage
