import Parqtel.Lib.Run
import Parqtel.Storage.Reconcile

/-!
# Compaction

The compactor merges blocks of one index: it writes the merged rows to a temporary file,
renames it, swaps the blocks in the in-memory index, and deletes the source files one by
one. The sidecar is persisted by another task, at any time. A write or a rename that fails
ends the pass where it stands, which is the state that a crash at that point leaves; so
runs of the machine below may stop anywhere.
-/

namespace Parqtel.Storage

open Parqtel.Lib Parqtel.Ingest List BlockMetadata Option

variable {R : Type*}

/-! ## Selecting the sources -/

def selectSmall (config : BlockConfig) (ix : BlockIndex) : Option (List BlockMetadata) :=
  let small := ix.blocks.filter fun b => b.rowCount < 10000
  if small.length < 2 then none
  else some (small.take (min (max config.compactionMaxMergeBlocks 2) small.length))

def sixHoursNs : Int := 6 * 3600 * 1000000000

def twentyFourHoursNs : Int := 24 * 3600 * 1000000000

/-- Cut candidates, in the order of their starts, into groups that start within a window. -/
def tierGroups (window : Int) : ℕ → List BlockMetadata → List (List BlockMetadata)
  | fuel + 1, b :: bs =>
    let near (c : BlockMetadata) : Bool := c.startTimestampNs ≤ b.startTimestampNs + window
    (b :: bs.takeWhile near) :: tierGroups window fuel (bs.dropWhile near)
  | _, _ => []

def tierCandidates (nowNs : Int) (signal : SignalType) (ix : BlockIndex) : List BlockMetadata :=
  sortByStart <| ix.blocks.filter fun b =>
    b.signalType = signal ∧ nowNs - b.endTimestampNs > sixHoursNs ∧ b.rowCount < 500000

def tierWindow (nowNs : Int) (candidates : List BlockMetadata) : Int :=
  if candidates.any fun b => nowNs - b.endTimestampNs > twentyFourHoursNs then twentyFourHoursNs
  else sixHoursNs

/-- The groups that a pass of `compact_tiered` merges. Traces are left alone. -/
def selectTiered (config : BlockConfig) (nowNs : Int) (signal : SignalType) (ix : BlockIndex) :
    List (List BlockMetadata) :=
  let candidates := tierCandidates nowNs signal ix
  if candidates.length < 2 ∨ signal = .traces then []
  else
    let groups := tierGroups (tierWindow nowNs candidates) candidates.length candidates
    ((groups.filter fun g => 2 ≤ g.length).map
      (List.take (max config.compactionMaxMergeBlocks 2))).take
        (max config.compactionMaxMergesPerPass 1)

def Selectable (ix : BlockIndex) (sources : List BlockMetadata) : Prop :=
  2 ≤ sources.length ∧ sources.Sublist ix.blocks

instance (ix : BlockIndex) (sources : List BlockMetadata) : Decidable (Selectable ix sources) :=
  inferInstanceAs (Decidable (_ ∧ _))

theorem selectable_of_selectSmall {config : BlockConfig} {ix : BlockIndex}
    {sources : List BlockMetadata} (h : selectSmall config ix = some sources) :
    Selectable ix sources := by
  unfold selectSmall at h
  dsimp only at h
  split_ifs at h with hlen
  cases h
  refine ⟨?_, (take_sublist _ _).trans filter_sublist⟩
  rw [length_take]
  omega

theorem flatten_tierGroups (window : Int) :
    ∀ (fuel : ℕ) (bs : List BlockMetadata), (tierGroups window fuel bs).flatten.Sublist bs
  | 0, bs => by simp [tierGroups]
  | _ + 1, [] => by simp [tierGroups]
  | fuel + 1, b :: bs => by
    refine ((List.Sublist.refl _).append (flatten_tierGroups window fuel _)).trans ?_
    rw [cons_append, takeWhile_append_dropWhile]

theorem flatten_map_take {α : Type*} (n : ℕ) (l : List (List α)) :
    (l.map (List.take n)).flatten.Sublist l.flatten := by
  induction l with
  | nil => exact .slnil
  | cons a l ih => exact (take_sublist n a).append ih

theorem flatten_selectTiered (config : BlockConfig) (nowNs : Int) (signal : SignalType)
    (ix : BlockIndex) : (selectTiered config nowNs signal ix).flatten.Sublist ix.blocks := by
  unfold selectTiered
  dsimp only
  split_ifs
  · exact nil_sublist _
  · refine ((take_sublist _ _).flatten.trans (flatten_map_take _ _)).trans ?_
    refine (filter_sublist.flatten.trans (flatten_tierGroups _ _ _)).trans ?_
    rw [tierCandidates, sortByStart, sortByKey, (ix.sorted.filter _).insertionSort_eq]
    exact filter_sublist

/-! ## The merge -/

def maxLabelValuesPerField : ℕ := 10000

def unionValues (field : String) (values : Finset String) :
    List (String × Finset String) → List (String × Finset String)
  | [] => [(field, bounded ∅)]
  | (f, vs) :: rest =>
    if f = field then (f, bounded vs) :: rest else (f, vs) :: unionValues field values rest
where
  bounded (entry : Finset String) : Finset String :=
    (values.sort (· ≤ ·)).foldl
      (fun entry v => if maxLabelValuesPerField ≤ entry.card then entry else insert v entry) entry

def unionLabelValues (blocks : List BlockMetadata) : List (String × Finset String) :=
  (blocks.flatMap labelValues).foldl (fun out fv => unionValues fv.1 fv.2 out) []

/-- The rows of the sources. A file that is gone is skipped. -/
def readSourceBlocks (disk : Disk R) : List BlockMetadata → Except Error (List R)
  | [] => .ok []
  | b :: bs =>
    match disk.lookup b.path with
    | none => readSourceBlocks disk bs
    | some (.damaged message) => .error (.parquet message)
    | some (.parquet file) => (readSourceBlocks disk bs).map (file.rows ++ ·)

inductive Stage (R : Type*) where
  | selected
  /-- The temporary file is there, but not complete. -/
  | writing (b : Block R)
  | written (b : Block R)
  | renamed (b : Block R)
  /-- The index has the merged block; the deletion of these files has not been tried. -/
  | published (b : Block R) (todo : List Path)
  /-- The sources had no rows: they are out of the index and stay on disk. -/
  | emptied

structure Merge (R : Type*) where
  sources : List BlockMetadata
  stage : Stage R

/-- A signal and the configuration of its compactor. -/
structure Compactor (R : Type*) where
  kind : SignalKind R
  config : BlockConfig

structure CompactionState (R : Type*) where
  index : BlockIndex
  disk : Disk R
  sidecar : Sidecar
  /-- The last merge. -/
  merge : Option (Merge R)

inductive CompactionEvent where
  | start (sources : List BlockMetadata)
  | beginWrite (io : BlockIo)
  | finishWrite
  | rename
  | publish
  | delete (ok : Bool)
  | persist

namespace Compactor

variable (env : Compactor R)

def file (b : Block R) : ParquetFile R := writeBlockFile env.kind env.config.rowGroupSize b

def tmpPath (b : Block R) : Path := ⟨b.metadata.path.dir, tmpName b.metadata.path.file⟩

def idle : Option (Merge R) → Bool
  | none => true
  | some ⟨_, .published _ []⟩ => true
  | some ⟨_, .emptied⟩ => true
  | _ => false

def start (s : CompactionState R) (sources : List BlockMetadata) : Option (CompactionState R) :=
  if idle s.merge ∧ Selectable s.index sources then
    some { s with merge := some ⟨sources, .selected⟩ }
  else none

/-- What the blocking task of a merge computes: nothing if the sources have no rows. -/
def mergeSources (disk : Disk R) (sources : List BlockMetadata) (io : BlockIo) :
    Except Error (Option (Block R)) :=
  match readSourceBlocks disk sources with
  | .error e => .error e
  | .ok [] => .ok none
  | .ok (row :: rows) =>
    (writeMerged env.kind env.config (row :: rows) (unionLabelValues sources) io).map some

def beginWrite (s : CompactionState R) (io : BlockIo) : Option (CompactionState R) :=
  match s.merge with
  | some ⟨sources, .selected⟩ =>
    match env.mergeSources s.disk sources io with
    | .error _ => none
    | .ok none => some { s with
        index := s.index.replace (sources.map path) none
        merge := some ⟨sources, .emptied⟩ }
    | .ok (some b) => some { s with
        disk := s.disk.insert (tmpPath b) (.damaged io.message)
        merge := some ⟨sources, .writing b⟩ }
  | _ => none

def finishWrite (s : CompactionState R) : Option (CompactionState R) :=
  match s.merge with
  | some ⟨sources, .writing b⟩ => some { s with
      disk := s.disk.insert (tmpPath b) (.parquet (env.file b))
      merge := some ⟨sources, .written b⟩ }
  | _ => none

def rename (s : CompactionState R) : Option (CompactionState R) :=
  match s.merge with
  | some ⟨sources, .written b⟩ => some { s with
      disk := (s.disk.erase (tmpPath b)).insert b.metadata.path (.parquet (env.file b))
      merge := some ⟨sources, .renamed b⟩ }
  | _ => none

def publish (s : CompactionState R) : Option (CompactionState R) :=
  match s.merge with
  | some ⟨sources, .renamed b⟩ => some { s with
      index := s.index.replace (sources.map path) (some b.metadata)
      merge := some ⟨sources, .published b (sources.map path)⟩ }
  | _ => none

def delete (s : CompactionState R) (ok : Bool) : Option (CompactionState R) :=
  match s.merge with
  | some ⟨sources, .published b (p :: todo)⟩ => some { s with
      disk := if ok then s.disk.erase p else s.disk
      merge := some ⟨sources, .published b todo⟩ }
  | _ => none

def persist (s : CompactionState R) : CompactionState R :=
  { s with sidecar := .payload s.index.blocks }

def step (s : CompactionState R) : CompactionEvent → Option (CompactionState R)
  | .start sources => start s sources
  | .beginWrite io => env.beginWrite s io
  | .finishWrite => env.finishWrite s
  | .rename => env.rename s
  | .publish => publish s
  | .delete ok => delete s ok
  | .persist => some (persist s)

/-! ### What a step does -/

variable {env} {s s' : CompactionState R}

theorem start_cases {sources : List BlockMetadata} (h : start s sources = some s') :
    Selectable s.index sources ∧ s' = { s with merge := some ⟨sources, .selected⟩ } := by
  unfold start at h
  split_ifs at h with hc
  cases h
  exact ⟨hc.2, rfl⟩

theorem beginWrite_cases {io : BlockIo} (h : env.beginWrite s io = some s') :
    ∃ sources, s.merge = some ⟨sources, .selected⟩ ∧
      ((env.mergeSources s.disk sources io = .ok none ∧
        s' = { s with
          index := s.index.replace (sources.map path) none
          merge := some ⟨sources, .emptied⟩ }) ∨
      ∃ b, env.mergeSources s.disk sources io = .ok (some b) ∧
        s' = { s with
          disk := s.disk.insert (tmpPath b) (.damaged io.message)
          merge := some ⟨sources, .writing b⟩ }) := by
  unfold beginWrite at h
  split at h
  · next sources hm =>
    refine ⟨sources, hm, ?_⟩
    split at h
    · cases h
    · next hok => exact .inl ⟨hok, (some.inj h).symm⟩
    · next b hok => exact .inr ⟨b, hok, (some.inj h).symm⟩
  · cases h

theorem mergeSources_writes {disk : Disk R} {sources : List BlockMetadata} {io : BlockIo}
    {b : Block R} (h : env.mergeSources disk sources io = .ok (some b)) :
    ∃ rows, readSourceBlocks disk sources = .ok rows ∧
      writeMerged env.kind env.config rows (unionLabelValues sources) io = .ok b := by
  unfold mergeSources at h
  split at h
  · cases h
  · cases h
  · next row rows hread =>
    refine ⟨_, hread, ?_⟩
    cases hw : writeMerged env.kind env.config (row :: rows) (unionLabelValues sources) io with
    | error e => simp [hw, Except.map] at h
    | ok b' => simpa [hw, Except.map] using h

theorem finishWrite_cases (h : env.finishWrite s = some s') :
    ∃ sources b, s.merge = some ⟨sources, .writing b⟩ ∧
      s' = { s with
        disk := s.disk.insert (tmpPath b) (.parquet (env.file b))
        merge := some ⟨sources, .written b⟩ } := by
  unfold finishWrite at h
  split at h
  · next sources b hm => exact ⟨sources, b, hm, (some.inj h).symm⟩
  · cases h

theorem rename_cases (h : env.rename s = some s') :
    ∃ sources b, s.merge = some ⟨sources, .written b⟩ ∧
      s' = { s with
        disk := (s.disk.erase (tmpPath b)).insert b.metadata.path (.parquet (env.file b))
        merge := some ⟨sources, .renamed b⟩ } := by
  unfold rename at h
  split at h
  · next sources b hm => exact ⟨sources, b, hm, (some.inj h).symm⟩
  · cases h

theorem publish_cases (h : publish s = some s') :
    ∃ sources b, s.merge = some ⟨sources, .renamed b⟩ ∧
      s' = { s with
        index := s.index.replace (sources.map path) (some b.metadata)
        merge := some ⟨sources, .published b (sources.map path)⟩ } := by
  unfold publish at h
  split at h
  · next sources b hm => exact ⟨sources, b, hm, (some.inj h).symm⟩
  · cases h

theorem delete_cases {ok : Bool} (h : delete s ok = some s') :
    ∃ sources b p todo, s.merge = some ⟨sources, .published b (p :: todo)⟩ ∧
      s' = { s with
        disk := if ok then s.disk.erase p else s.disk
        merge := some ⟨sources, .published b todo⟩ } := by
  unfold delete at h
  split at h
  · next sources b p todo hm => exact ⟨sources, b, p, todo, hm, (some.inj h).symm⟩
  · cases h

end Compactor

end Parqtel.Storage
