import Parqtel.Storage.Index
import Parqtel.Storage.LogScan

/-!
# Scanning the blocks of a log store

`scanLogsCountedPrefiltered` searches the given blocks one after the other. The kept records of
each are merged with those of the earlier ones, and the whole is cut to `keep` again. An
invariant says which records a state stands for (`Stands`): it has their number and buckets, and
the last or first `keep` of their timestamps. Merging keeps it (`Stands.merge`), because a record
that is cut early cannot be among the best later.
-/

namespace Parqtel.Storage

open Lib List LogRecord

namespace LogScope

variable (s : LogScope)

/-! ## Buckets -/

theorem bucketOf_lt (t : Int) : s.bucketOf t < 60 := by
  unfold bucketOf
  omega

theorem volume_concat (ts : List Int) (t : Int) :
    s.volume (ts ++ [t]) = s.addBucket (s.volume ts) t := foldl_concat ..

/-- Each bucket counts the timestamps that fall into it, if the buckets have a width at all. -/
theorem volume_eq (ts : List Int) : s.volume ts =
    (List.range 60).map fun k => ts.countP fun t => 0 < s.windowNs ∧ s.bucketOf t = k := by
  induction ts using List.reverseRecOn with
  | nil => rfl
  | append_singleton ts t ih =>
    rw [volume_concat, ih, addBucket]
    split_ifs with hw
    · refine ext_getElem? fun k => ?_
      rw [getElem?_modify]
      by_cases hk : k < 60
      · have hcount (k' : ℕ) : [t].countP (fun t => 0 < s.windowNs ∧ s.bucketOf t = k') =
            if s.bucketOf t = k' then 1 else 0 := by
          simp [countP_cons, hw]
        simp only [getElem?_map, getElem?_range hk, Option.map_some, countP_append, hcount]
        split_ifs <;> rfl
      · simp [hk]
    · simp [hw]

theorem volume_append (a b : List Int) :
    List.zipWith (· + ·) (s.volume a) (s.volume b) = s.volume (a ++ b) := by
  simp only [volume_eq, zipWith_map, zipWith_self, countP_append]

theorem volume_perm {a b : List Int} (h : a.Perm b) : s.volume a = s.volume b := by
  simp only [volume_eq, h.countP_eq]

/-! ## The best timestamps -/

def after (a b : Int) : Prop := s.before b a

instance : DecidableRel s.after := fun a b => inferInstanceAs (Decidable (s.before b a))

instance : Std.Total s.after := ⟨fun a b => Std.Total.total (r := s.before) b a⟩

instance : IsTrans Int s.after := ⟨fun _ _ _ hab hbc => trans_of s.before hbc hab⟩

instance : Std.Antisymm s.after := ⟨fun _ _ hab hba => antisymm_of s.before hba hab⟩

theorem kept_perm_best {found : List LogRecord}
    (h : found.Pairwise fun a b => a.timestampNs ≤ b.timestampNs) :
    ((s.kept found).map timestampNs).Perm
      (best s.before s.keep (found.map timestampNs)) := by
  have hsplit := take_append_drop (s.cut found.length) found
  have hlen : ((s.kept found).map timestampNs).length =
      min s.keep (found.map timestampNs).length := by
    rw [length_map, length_map, s.length_kept]
  have hcross : ∀ a ∈ found.take (s.cut found.length), ∀ b ∈ found.drop (s.cut found.length),
      a.timestampNs ≤ b.timestampNs := by
    rw [← hsplit] at h
    exact (pairwise_append.mp h).2.2
  have hperm : (found.map timestampNs).Perm
      ((found.take (s.cut found.length)).map timestampNs ++
        (found.drop (s.cut found.length)).map timestampNs) := by
    rw [← map_append, hsplit]
  refine List.Perm.symm ?_
  by_cases hnew : s.keepNewest = true
  · have hkept : s.kept found = found.drop (s.cut found.length) := if_pos hnew
    rw [hkept] at hlen ⊢
    refine best_perm_of_split hperm hlen ?_
    simp only [forall_mem_map, before, if_pos hnew]
    exact hcross
  · have hkept : s.kept found = found.take (s.cut found.length) := if_neg hnew
    rw [hkept] at hlen ⊢
    refine best_perm_of_split (hperm.trans perm_append_comm) hlen ?_
    simp only [forall_mem_map, before, if_neg hnew]
    exact fun a ha b hb => hcross b hb a ha

theorem kept_sublist {A : Type*} (found : List A) : (s.kept found).Sublist found := by
  unfold kept
  split_ifs
  · exact drop_sublist _ _
  · exact take_sublist _ _

end LogScope

/-! ## Merging -/

def mergeScan (s : LogScope) (acc scan : LogBlockScan) : LogBlockScan where
  logs := s.kept (sortByKey timestampNs (acc.logs ++ scan.logs))
  matched := acc.matched + scan.matched
  buckets := List.zipWith (· + ·) acc.buckets scan.buckets

/-- The scan stands for these records: it counts them, and has the best of them. -/
structure LogBlockScan.Stands (s : LogScope) (scan : LogBlockScan) (found : List LogRecord) :
    Prop where
  logs : scan.logs.Subperm found
  timestamps : (scan.logs.map timestampNs).Perm
    (best s.before s.keep (found.map timestampNs))
  matched : scan.matched = found.length
  buckets : scan.buckets = s.volume (found.map timestampNs)

namespace LogBlockScan.Stands

variable {s : LogScope} {acc scan : LogBlockScan} {a b : List LogRecord}

theorem empty (s : LogScope) : LogBlockScan.empty.Stands s [] where
  logs := nil_subperm
  timestamps := by simp [LogBlockScan.empty, best]
  matched := rfl
  buckets := rfl

theorem summary {found : List LogRecord}
    (h : found.Pairwise fun a b => a.timestampNs ≤ b.timestampNs) :
    (s.summary found).Stands s found where
  logs := (s.kept_sublist found).subperm
  timestamps := s.kept_perm_best h
  matched := rfl
  buckets := rfl

theorem perm (h : scan.Stands s a) (hab : a.Perm b) : scan.Stands s b where
  logs := h.logs.trans hab.subperm
  timestamps := by
    rw [← best_perm (hab.map timestampNs)]
    exact h.timestamps
  matched := h.matched.trans hab.length_eq
  buckets := h.buckets.trans (s.volume_perm (hab.map _))

/-- **Cutting early loses nothing.** -/
theorem merge (ha : acc.Stands s a) (hb : scan.Stands s b) :
    (mergeScan s acc scan).Stands s (a ++ b) where
  logs := ((s.kept_sublist _).subperm.trans (sortByKey_perm _ _).subperm).trans
    (ha.logs.append hb.logs)
  timestamps := by
    refine (s.kept_perm_best (sortByKey_sorted _ _)).trans (.of_eq ?_)
    have hboth : ((sortByKey timestampNs (acc.logs ++ scan.logs)).map
        timestampNs).Perm (best s.before s.keep (a.map timestampNs) ++
          best s.before s.keep (b.map timestampNs)) := by
      refine ((sortByKey_perm _ _).map _).trans ?_
      rw [map_append]
      exact ha.timestamps.append hb.timestamps
    rw [best_perm hboth, best_append_best, best_perm perm_append_comm, best_append_best,
      best_perm perm_append_comm, map_append]
  matched := by
    rw [length_append, ← ha.matched, ← hb.matched]
    rfl
  buckets := by
    rw [map_append, ← s.volume_append, ← ha.buckets, ← hb.buckets]
    rfl

end LogBlockScan.Stands

/-! ## The store -/

def maxBlocks : ℕ := 128

/-- A log block: what the index knows of it, and its file. Its records are in the order of their
timestamps, as flush and compaction write them. -/
structure LogBlock where
  metadata : BlockMetadata
  logs : List LogRecord
  file : LogFile logs
  sorted : logs.Pairwise fun a b => a.timestampNs ≤ b.timestampNs

/-- At most 128 log blocks, each at a path of its own. -/
structure LogStore where
  blocks : List LogBlock
  dataDir : List String
  paths : (blocks.map fun b => b.metadata.path).Nodup
  few : blocks.length ≤ maxBlocks

namespace LogStore

def index (st : LogStore) : BlockIndex := .ofBlocks st.dataDir (st.blocks.map LogBlock.metadata)

def openBlock (st : LogStore) (path : Path) : Option LogBlock :=
  st.blocks.find? fun b => b.metadata.path = path

def scanBlock (st : LogStore) (s : LogScope) (filter : LogRecord → Bool)
    (pre : Option LogColumnPrefilter) (m : BlockMetadata) : LogBlockScan :=
  match st.openBlock m.path with
  | some b => scanLogBlockFiltered b.file.index b.file.groups s filter pre
  | none => .empty

def scanLogsCountedPrefiltered (st : LogStore) (blocks : List BlockMetadata) (s : LogScope)
    (filter : LogRecord → Bool) (pre : Option LogColumnPrefilter) : LogBlockScan :=
  (blocks.take maxBlocks).foldl (fun acc m => mergeScan s acc (st.scanBlock s filter pre m)) .empty

def wanted (st : LogStore) (s : LogScope) (filter : LogRecord → Bool) : List LogRecord :=
  st.blocks.flatMap fun b => b.logs.filter (s.wanted filter)

def Reached (st : LogStore) (s : LogScope) (filter : LogRecord → Bool) : Prop :=
  ∀ b ∈ st.blocks, b.logs.filter (s.wanted filter) ≠ [] →
    b.metadata ∈ st.index.query s.startNs s.endNs none

/-- The index finds every block that holds a wanted record, and no granule with one is skipped
for an id of zeros. -/
def Complete (st : LogStore) (s : LogScope) (filter : LogRecord → Bool)
    (pre : LogColumnPrefilter) : Prop :=
  ∀ b ∈ st.blocks, (b.logs.filter (s.wanted filter) ≠ [] →
      b.metadata ∈ st.index.query s.startNs s.endNs none) ∧ b.file.ZeroIdsKept s filter pre

end LogStore

/-- What the scan of a block in order stands for: some of the wanted records, and all of them if
no granule is skipped for an id of zeros. -/
theorem LogBlock.exists_found (b : LogBlock) (s : LogScope) {filter : LogRecord → Bool}
    {pre : LogColumnPrefilter} (hsound : pre.SoundFor filter) : ∃ found : List LogRecord,
      found.Sublist (b.logs.filter (s.wanted filter)) ∧
      (scanLogBlockFiltered b.file.index b.file.groups s filter (some pre)).Stands s found ∧
      (found = b.logs.filter (s.wanted filter) ↔ b.file.ZeroIdsKept s filter pre) := by
  have hiff := b.file.scanLogBlockFiltered_eq_iff s hsound
  have hwanted := b.sorted.filter (s.wanted filter)
  rw [decode_logsToBlock] at hiff
  by_cases hkept : b.file.ZeroIdsKept s filter pre
  · have horder : s.InOrder (b.logs.filter (s.wanted filter)) := by
      rw [← take_append_drop (s.cut (b.logs.filter (s.wanted filter)).length)
        (b.logs.filter (s.wanted filter))] at hwanted
      exact (pairwise_append.mp hwanted).2.2
    refine ⟨_, List.Sublist.refl _, ?_, iff_of_true rfl hkept⟩
    rw [hiff.mpr ⟨hkept, fun _ _ => horder⟩]
    exact .summary hwanted
  · -- ids of zeros matter to the ordinary scan only
    have hpath : (pre.exact && !pre.isEmpty) = false := by
      refine Bool.eq_false_iff.mpr fun h => hkept fun ix _ i log _ _ p hp => ?_
      have hpairs := (hsound.exact (Bool.and_eq_true_iff.mp h).1).1
      rw [LogColumnPrefilter.zeroIds, hpairs] at hp
      cases hp
    have hscan := b.file.scan_rows_eq s hsound hpath
    generalize inRanges (logRowRanges b.file.index b.file.groups s.startNs s.endNs (some pre)) =
      read at hscan
    refine ⟨(rowsWhere read 0 b.logs).filter (s.wanted filter),
      (rowsWhere_sublist _ 0 b.logs).filter _, ?_, iff_of_false (fun heq => hkept ?_) hkept⟩
    · rw [hscan]
      exact .summary ((b.sorted.sublist (rowsWhere_sublist _ 0 b.logs)).filter _)
    · exact (hiff.mp (by rw [hscan, heq])).1

namespace LogStore

variable (st : LogStore) {s : LogScope} {filter : LogRecord → Bool} {pre : LogColumnPrefilter}

theorem metadata_nodup : (st.blocks.map LogBlock.metadata).Nodup :=
  List.Nodup.of_map BlockMetadata.path (by rw [map_map]; exact st.paths)

theorem index_perm : st.index.blocks.Perm (st.blocks.map LogBlock.metadata) := sortByKey_perm _ _

theorem openBlock_metadata {b : LogBlock} (hb : b ∈ st.blocks) :
    st.openBlock b.metadata.path = some b := by
  have hinj := inj_on_of_nodup_map st.paths
  cases hfind : st.openBlock b.metadata.path with
  | none =>
    have := find?_eq_none.mp hfind b hb
    simp at this
  | some b' =>
    have hpath : b'.metadata.path = b.metadata.path := by simpa using find?_some hfind
    rw [hinj (mem_of_find?_eq_some hfind) hb hpath]

theorem query_perm (startNs endNs : Int) : (st.index.query startNs endNs none).Perm
      ((st.blocks.filter fun b => b.metadata ∈ st.index.query startNs endNs none).map
        LogBlock.metadata) := by
  have hsub := BlockIndex.query_sublist st.index startNs endNs none
  have hnodup : (st.index.query startNs endNs none).Nodup :=
    (st.index_perm.nodup_iff.mpr st.metadata_nodup).sublist hsub
  refine (perm_ext_iff_of_nodup hnodup
    (st.metadata_nodup.sublist (filter_sublist.map _))).mpr fun m => ?_
  constructor
  · intro hm
    obtain ⟨b, hb, rfl⟩ := mem_map.mp (st.index_perm.subset (hsub.subset hm))
    exact mem_map_of_mem (mem_filter.mpr ⟨hb, decide_eq_true hm⟩)
  · intro hm
    obtain ⟨b, hb, rfl⟩ := mem_map.mp hm
    exact of_decide_eq_true (mem_filter.mp hb).2

theorem foldl_merge_stands {M : Type*} {scan : M → LogBlockScan} {found : M → List LogRecord}
    (ms : List M) (h : ∀ m ∈ ms, (scan m).Stands s (found m)) {acc : LogBlockScan}
    {a : List LogRecord} (hacc : acc.Stands s a) :
    (ms.foldl (fun acc m => mergeScan s acc (scan m)) acc).Stands s (a ++ ms.flatMap found) := by
  induction ms generalizing acc a with
  | nil => rwa [flatMap_nil, append_nil]
  | cons m ms ih =>
    obtain ⟨hm, hms⟩ := forall_mem_cons.mp h
    rw [flatMap_cons, ← append_assoc]
    exact ih hms (hacc.merge hm)

/-- **The scan of all blocks** stands for some of the wanted records of each block, and for all
of them exactly if none is skipped. -/
theorem scan_stands (hsound : pre.SoundFor filter) : ∃ seen : LogBlock → List LogRecord,
    (∀ b ∈ st.blocks, (seen b).Sublist (b.logs.filter (s.wanted filter))) ∧
    (st.scanLogsCountedPrefiltered (st.index.query s.startNs s.endNs none) s filter
      (some pre)).Stands s (st.blocks.flatMap seen) ∧
    ((∀ b ∈ st.blocks, seen b = b.logs.filter (s.wanted filter)) ↔ st.Complete s filter pre) := by
  choose found hsub hstands hall using fun b : LogBlock => b.exists_found s hsound
  have hperm := st.query_perm s.startNs s.endNs
  have hlen : (st.index.query s.startNs s.endNs none).length ≤ maxBlocks := by
    have h := (BlockIndex.query_sublist st.index s.startNs s.endNs none).length_le
    rw [st.index_perm.length_eq, length_map] at h
    exact h.trans st.few
  rw [scanLogsCountedPrefiltered, take_of_length_le hlen]
  unfold Complete
  generalize st.index.query s.startNs s.endNs none = ms at hperm
  refine ⟨fun b => if b.metadata ∈ ms then found b else [], fun b _ => ?_, ?_, ?_⟩
  · dsimp only
    split_ifs
    · exact hsub b
    · exact nil_sublist _
  · have hscan : ∀ m ∈ ms, (st.scanBlock s filter (some pre) m).Stands s
        ((st.openBlock m.path).elim [] found) := by
      intro m _
      rw [scanBlock]
      cases st.openBlock m.path with
      | none => exact .empty s
      | some b => exact hstands b
    refine (foldl_merge_stands ms hscan (.empty s)).perm ?_
    refine (hperm.flatMap_right _).trans (.of_eq ?_)
    rw [flatMap_map]
    have hopen : ∀ b ∈ st.blocks, (st.openBlock b.metadata.path).elim [] found = found b :=
      fun b hb => by rw [st.openBlock_metadata hb, Option.elim_some]
    rw [flatMap_filter_ite hopen]
    simp only [decide_eq_true_eq]
  · refine forall₂_congr fun b _ => ?_
    dsimp only
    split_ifs with hm
    · rw [hall b, and_iff_right fun _ => hm]
    · have hnil : b.logs.filter (s.wanted filter) = [] → b.file.ZeroIdsKept s filter pre := fun h =>
        (hall b).mp (by rw [h]; exact sublist_nil.mp (h ▸ hsub b))
      constructor
      · exact fun h => ⟨fun hne => absurd h.symm hne, hnil h.symm⟩
      · exact fun h => (not_not.mp fun hne => hm (h.1 hne)).symm

end LogStore

end Parqtel.Storage
