import Parqtel.Query.LogPredicate
import Parqtel.Query.Matcher
import Parqtel.Query.Platform
import Parqtel.Storage.LogStore

/-!
# Searching logs

`queryLogs` and `searchLogsPredicate` search the blocks that the index finds for the window and
the records that are still in the buffer. They differ in the filter and in the prefilter they
derive from it; `searchLogs` is what they share. The answer to a search is stated over all the
records there are (`Answers`): the newest or oldest `limit` timestamps in order, the number of
matching records, and how many fall into each of the 60 buckets.
-/

namespace Parqtel.Query

open Lib Text Storage List LogRecord

structure LogQueryResult where
  logs : List LogRecord
  totalLogsCount : ℕ
  volumeSummary : List ℕ
deriving DecidableEq

def orderLogs (s : LogScope) (logs : List LogRecord) : List LogRecord :=
  (if s.keepNewest then sortByKey (fun l => -l.timestampNs) logs
    else sortByKey timestampNs logs).take s.keep

def searchLogs (st : LogStore) (buffer : List LogRecord) (s : LogScope)
    (filter : LogRecord → Bool) (pre : LogColumnPrefilter) : LogQueryResult :=
  let blocks := st.index.query s.startNs s.endNs none
  let buffered := (buffer.filter (s.wanted filter)).filter filter
  let volume := s.volume (buffered.map timestampNs)
  if blocks = [] then ⟨orderLogs s buffered, buffered.length, volume⟩
  else
    let disk := st.scanLogsCountedPrefiltered blocks s filter (some pre)
    ⟨orderLogs s (disk.logs ++ buffered), buffered.length + disk.matched,
      List.zipWith (· + ·) volume disk.buckets⟩

def searchLogsPredicate {F Rx : Type*} (rt : Runtime F Rx) (st : LogStore)
    (buffer : List LogRecord) (s : LogScope) (pred : Predicate F) : LogQueryResult :=
  searchLogs st buffer s (predicateFilter rt pred) (predicatePrefilter rt pred)

/-! ## Queries by matchers -/

def toAsciiLower (s : String) : String := String.ofList (s.toList.map Char.toLower)

/-- What a query by matchers asks for, apart from its window. -/
structure LogQuery where
  matchers : List LabelMatcher
  severityMin : Option Int
  search : Option String

namespace LogQuery

def filter (q : LogQuery) (log : LogRecord) : Bool :=
  (q.severityMin.all fun min => min ≤ log.severityNumber) &&
    (q.search.all fun p => containsAsciiCi log.body (toAsciiLower p)) &&
    (q.matchers.isEmpty ||
      evaluateMatchers q.matchers (log.attributes.merge log.resourceAttributes) "")

def prefilter (q : LogQuery) : LogColumnPrefilter where
  minSeverity := q.severityMin
  bodyContainsLower := (q.search.map toAsciiLower).toList
  attrEquals := (q.matchers.filter fun m => m.op = .equal ∧ m.value ≠ "" ∧ m.name ≠ "__name__").map
    fun m => (m.name, m.value)
  exact := q.matchers.isEmpty

end LogQuery

def queryLogs (st : LogStore) (buffer : List LogRecord) (s : LogScope) (q : LogQuery) :
    LogQueryResult :=
  if st.index.query s.startNs s.endNs none = [] ∧ buffer.filter (s.wanted q.filter) = [] then
    ⟨[], 0, List.replicate 60 0⟩
  else searchLogs st buffer s q.filter q.prefilter

/-- In a debug build the width of the window must fit; the time of a wanted record is then no
further from the start. -/
def checkWindow (build : Build) (s : LogScope) (r : LogQueryResult) : Eval LogQueryResult := do
  let _ ← i64 build (s.endNs - s.startNs)
  return r

def queryLogsIn (build : Build) (st : LogStore) (buffer : List LogRecord) (s : LogScope)
    (q : LogQuery) : Eval LogQueryResult :=
  if st.index.query s.startNs s.endNs none = [] ∧ buffer.filter (s.wanted q.filter) = [] then
    .ok (queryLogs st buffer s q)
  else checkWindow build s (queryLogs st buffer s q)

theorem LogQuery.mem_entries {q : LogQuery} {log : LogRecord} (h : q.filter log = true)
    {p : String × String} (hp : p ∈ q.prefilter.attrEquals) :
    p ∈ log.attributes.entries ∨ p ∈ log.resourceAttributes.entries := by
  obtain ⟨m, hm, rfl⟩ := mem_map.mp hp
  obtain ⟨hm, hop, hvalue, hname⟩ := by simpa using mem_filter.mp hm
  have hne : q.matchers.isEmpty = false := by
    rw [isEmpty_eq_false_iff]
    exact ne_nil_of_mem hm
  have heval := (Bool.and_eq_true_iff.mp h).2
  rw [hne, Bool.false_or] at heval
  have hget := get_of_equal hop hvalue (evaluateMatchers_mem heval hm hname)
  rw [LabelSet.get_merge, Option.or_eq_some_iff] at hget
  rcases hget with hget | ⟨-, hget⟩
  · exact .inr (LabelSet.get_eq_some.mp hget)
  · exact .inl (LabelSet.get_eq_some.mp hget)

theorem LogQuery.filter_eq (q : LogQuery) (log : LogRecord) :
    q.filter log = (q.prefilter.accepts log && (q.matchers.isEmpty ||
      evaluateMatchers q.matchers (log.attributes.merge log.resourceAttributes) "")) := by
  unfold filter prefilter LogColumnPrefilter.accepts LogColumnPrefilter.meets
  cases q.search <;> simp

theorem LogQuery.prefilter_sound (q : LogQuery) : q.prefilter.SoundFor q.filter where
  accepts log h := by
    rw [q.filter_eq] at h
    exact (Bool.and_eq_true_iff.mp h).1
  carries log h p hp := (LogQuery.mem_entries h hp).imp_right .inl
  exact hexact := by
    have hnil : q.matchers = [] := isEmpty_iff.mp hexact
    refine ⟨by rw [prefilter, hnil]; rfl, fun log h => ?_⟩
    rw [q.filter_eq, h, hnil]
    rfl

/-- Attributes are terms of the index whatever their value is, so no record is skipped. -/
theorem LogQuery.zeroIdsKept (q : LogQuery) {logs : List LogRecord} (file : LogFile logs)
    (s : LogScope) : file.ZeroIdsKept s q.filter q.prefilter := by
  intro ix hix i log hlog hw p hp
  obtain ⟨hp, hzero⟩ := mem_filter.mp hp
  have hfits := fitsPair_of_mem_zeroIdPairs p (of_decide_eq_true hzero)
  have hterm : pairHash p.1 p.2 ∈ rowTerms log := by
    have hpair {labels : LabelSet} (h : p ∈ labels.entries) : pairHash p.1 p.2 ∈ pairTerms labels :=
      mem_map_of_mem (mem_filter.mpr ⟨h, hfits⟩)
    refine mem_append_left _ (mem_append_right _ (mem_append.mpr ?_))
    exact (q.mem_entries (Bool.and_eq_true_iff.mp hw).2 hp).imp hpair hpair
  exact ((file.index_covers hix).2.2 i log hlog).terms _ hterm

/-! ## What a search answers -/

/-- The result is that of a search that matches these records: records with the first `keep` of
their timestamps in order, none twice, how many there are, and these buckets. -/
structure LogQueryResult.Finds (r : LogQueryResult) (s : LogScope) (found : List LogRecord)
    (volume : List ℕ) : Prop where
  logs : r.logs.Subperm found
  timestamps : r.logs.map timestampNs =
    ((found.map timestampNs).insertionSort s.after).take s.keep
  count : r.totalLogsCount = found.length
  volume : r.volumeSummary = volume

/-- Each of the matching records is counted in one of the 60 buckets. -/
def LogQueryResult.Answers (r : LogQueryResult) (s : LogScope) (found : List LogRecord) : Prop :=
  r.Finds s found
    ((List.range 60).map fun k => found.countP fun log => s.bucketOf log.timestampNs = k)

/-- The records that a search has to find, on disk and in the buffer. -/
def matching (st : LogStore) (buffer : List LogRecord) (s : LogScope) (filter : LogRecord → Bool) :
    List LogRecord :=
  st.wanted s filter ++ buffer.filter (s.wanted filter)

section
variable (s : LogScope)

theorem timestamps_orderLogs (logs : List LogRecord) :
    (orderLogs s logs).map timestampNs =
      ((logs.map timestampNs).insertionSort s.after).take s.keep := by
  have hsorted {sorted : List LogRecord} (hperm : sorted.Perm logs)
      (h : sorted.Pairwise fun a b => s.after a.timestampNs b.timestampNs) :
      (sorted.take s.keep).map timestampNs =
        ((logs.map timestampNs).insertionSort s.after).take s.keep := by
    rw [← insertionSort_of_perm (hperm.map timestampNs),
      (pairwise_map.mpr h).insertionSort_eq, map_take]
  unfold orderLogs
  split_ifs with hnew
  · refine hsorted (sortByKey_perm _ _) ((sortByKey_sorted _ _).imp fun {a b} hab => ?_)
    rw [LogScope.after, LogScope.before, if_pos hnew]
    exact neg_le_neg_iff.mp hab
  · refine hsorted (sortByKey_perm _ _) ((sortByKey_sorted _ _).imp fun {a b} hab => ?_)
    rwa [LogScope.after, LogScope.before, if_neg hnew]

theorem finds_merged {disk : LogBlockScan} {onDisk : List LogRecord} (h : disk.Stands s onDisk)
    (buffered : List LogRecord) :
    LogQueryResult.Finds ⟨orderLogs s (disk.logs ++ buffered), buffered.length + disk.matched,
      List.zipWith (· + ·) (s.volume (buffered.map timestampNs)) disk.buckets⟩ s
      (onDisk ++ buffered) (s.volume ((onDisk ++ buffered).map timestampNs)) where
  logs := by
    have hperm : ((if s.keepNewest then sortByKey (fun l => -l.timestampNs) (disk.logs ++ buffered)
        else sortByKey timestampNs (disk.logs ++ buffered)).Perm
          (disk.logs ++ buffered)) := by
      split_ifs <;> exact sortByKey_perm _ _
    exact (take_sublist _ _).subperm.trans
      (hperm.subperm.trans (h.logs.append (List.Subperm.refl _)))
  timestamps := by
    have hswap := take_insertionSort_swap (r := s.before) (q := s.after) fun _ _ => Iff.rfl
    rw [timestamps_orderLogs, hswap, hswap, map_append, map_append,
      best_perm (h.timestamps.append_right _), best_append_best]
  count := by rw [length_append, h.matched, Nat.add_comm]
  volume := by
    rw [h.buckets, s.volume_append, map_append]
    exact s.volume_perm perm_append_comm

variable {filter : LogRecord → Bool} {pre : LogColumnPrefilter}

/-- A search finds the records that it has seen: some of each block, and all of them exactly if
none is skipped. -/
theorem searchLogs_finds (st : LogStore) (buffer : List LogRecord) (hsound : pre.SoundFor filter) :
    ∃ seen : LogBlock → List LogRecord,
      (∀ b ∈ st.blocks, (seen b).Sublist (b.logs.filter (s.wanted filter))) ∧
      ((∀ b ∈ st.blocks, seen b = b.logs.filter (s.wanted filter)) ↔ st.Complete s filter pre) ∧
      let found := st.blocks.flatMap seen ++ buffer.filter (s.wanted filter)
      (searchLogs st buffer s filter pre).Finds s found (s.volume (found.map timestampNs)) := by
  obtain ⟨seen, hsub, hstands, hall⟩ := st.scan_stands hsound
  refine ⟨seen, hsub, hall, ?_⟩
  have hbuffered : (buffer.filter (s.wanted filter)).filter filter =
      buffer.filter (s.wanted filter) := by
    refine filter_eq_self.mpr fun log hlog => ?_
    exact (Bool.and_eq_true_iff.mp (mem_filter.mp hlog).2).2
  have hmerged := finds_merged s hstands (buffer.filter (s.wanted filter))
  rw [searchLogs, hbuffered]
  split_ifs with hnone
  · -- the scan of no blocks adds nothing
    rw [hnone] at hmerged
    have hzero := s.volume_append ((buffer.filter (s.wanted filter)).map timestampNs) []
    rw [append_nil] at hzero
    rw [← hzero]
    exact hmerged
  · exact hmerged

/-- **A search answers the query** exactly if no wanted record is skipped and, where there is one,
the window has buckets. -/
theorem searchLogs_answers_iff (st : LogStore) (buffer : List LogRecord)
    (hsound : pre.SoundFor filter) :
    (searchLogs st buffer s filter pre).Answers s (matching st buffer s filter) ↔
      st.Complete s filter pre ∧ (matching st buffer s filter = [] ∨ 0 < s.windowNs) := by
  obtain ⟨seen, hsub, hall, hfinds⟩ := searchLogs_finds s st buffer hsound
  have hvolume (found : List LogRecord) : s.volume (found.map timestampNs) =
      (List.range 60).map fun k => found.countP fun log =>
        0 < s.windowNs ∧ s.bucketOf log.timestampNs = k := by
    rw [s.volume_eq]
    simp only [countP_map, Function.comp_def]
  constructor
  · intro h
    have hlen := hfinds.count.symm.trans h.count
    rw [matching, length_append, length_append, Nat.add_right_cancel_iff] at hlen
    have hcomplete := flatMap_eq_of_length hsub hlen
    refine ⟨hall.mp hcomplete, ?_⟩
    by_contra hno
    rw [not_or] at hno
    obtain ⟨log, hlog⟩ := exists_mem_of_ne_nil _ hno.1
    -- the bucket of this record is empty
    have hbucket := hfinds.volume.symm.trans h.volume
    rw [hvolume] at hbucket
    have hk := map_inj_left.mp hbucket (s.bucketOf log.timestampNs)
      (mem_range.mpr (s.bucketOf_lt _))
    simp only [hno.2, false_and, decide_false, countP_false] at hk
    exact absurd hk.symm (countP_pos_iff.mpr ⟨log, hlog, decide_eq_true rfl⟩).ne'
  · rintro ⟨hcomplete, hwindow⟩
    rw [flatMap_congr (hall.mpr hcomplete)] at hfinds
    refine ⟨hfinds.logs, hfinds.timestamps, hfinds.count, hfinds.volume.trans ?_⟩
    rcases hwindow with hnil | hpos
    · change s.volume ((matching st buffer s filter).map timestampNs) = _
      rw [hnil]
      rfl
    · rw [hvolume]
      simp only [hpos, true_and]
      rfl

theorem queryLogs_eq (st : LogStore) (buffer : List LogRecord) (q : LogQuery) :
    queryLogs st buffer s q = searchLogs st buffer s q.filter q.prefilter := by
  unfold queryLogs
  split_ifs with hnone
  · simp [searchLogs, hnone.1, hnone.2, orderLogs, sortByKey, LogScope.volume]
  · rfl

theorem LogQuery.complete_iff (q : LogQuery) (st : LogStore) :
    st.Complete s q.filter q.prefilter ↔ st.Reached s q.filter :=
  forall₂_congr fun b _ => and_iff_left (q.zeroIdsKept b.file s)

/-- The search does not panic: a debug build has to find the width of its window. -/
def WindowFits (build : Build) : Prop := build = .debug → InI64 (s.endNs - s.startNs)

theorem checkWindow_eq_ok {build : Build} {r r' : LogQueryResult} :
    checkWindow build s r = .ok r' ↔ WindowFits s build ∧ r = r' := by
  unfold checkWindow WindowFits
  cases build with
  | debug =>
    rw [bind_eq_ok]
    simp [i64_debug_eq_ok, pure, Except.pure]
  | release => simp [i64_release, ok_bind, pure, Except.pure]

/-- **The newest or oldest records.** A query by matchers answers exactly if the index finds the
blocks with matching records, and the window is long enough for buckets or nothing matches. A
search for a predicate needs, in addition, that no granule is skipped for an id of zeros. In a
debug build the width of the window has to fit, unless there is nothing to search. -/
theorem log_search_answers_iff {F Rx : Type*} (rt : Runtime F Rx) (st : LogStore)
    (buffer : List LogRecord) (build : Build) :
    (∀ q : LogQuery, (∃ r, queryLogsIn build st buffer s q = .ok r ∧
        r.Answers s (matching st buffer s q.filter)) ↔
      (WindowFits s build ∨ st.index.query s.startNs s.endNs none = [] ∧
        buffer.filter (s.wanted q.filter) = []) ∧ st.Reached s q.filter ∧
        (matching st buffer s q.filter = [] ∨ 0 < s.windowNs)) ∧
    ∀ pred : Predicate F,
      (∃ r, checkWindow build s (searchLogsPredicate rt st buffer s pred) = .ok r ∧
        r.Answers s (matching st buffer s (predicateFilter rt pred))) ↔
      WindowFits s build ∧
        st.Complete s (predicateFilter rt pred) (predicatePrefilter rt pred) ∧
        (matching st buffer s (predicateFilter rt pred) = [] ∨ 0 < s.windowNs) := by
  refine ⟨fun q => ?_, fun pred => ?_⟩
  · rw [← q.complete_iff, ← searchLogs_answers_iff s st buffer q.prefilter_sound, ← queryLogs_eq]
    unfold queryLogsIn
    split_ifs with hidle
    · simp [hidle]
    · rw [or_iff_left hidle]
      simp only [checkWindow_eq_ok, and_assoc, exists_and_left, exists_eq_left']
  · rw [← searchLogs_answers_iff s st buffer (predicatePrefilter_sound rt pred)]
    simp only [checkWindow_eq_ok, and_assoc, exists_and_left, exists_eq_left']
    rfl

end

/-! ## Searches that miscount -/

namespace Sample

def logBlock (file : String) (startNs endNs : Int) (logs : List LogRecord)
    (sorted : logs.Pairwise fun a b => a.timestampNs ≤ b.timestampNs) : LogBlock where
  metadata := ⟨⟨["logs"], file⟩, startNs, endNs, logs.length, 0, ∅, ∅, [], .logs, none⟩
  logs := logs
  file := oneGroupFile logs
  sorted := sorted

def logAt (t : Int) : LogRecord := { untraced with timestampNs := t }

def emptyStore : LogStore := ⟨[], ["logs"], nodup_nil, by decide⟩

def oneBlock : LogStore where
  blocks := [logBlock "a" 100 100 [untraced] (by decide)]
  dataDir := ["logs"]
  paths := by decide
  few := by decide

def longAndShort : LogStore where
  blocks := [logBlock "a" 0 1000 [logAt 0, logAt 550, logAt 1000] (by decide),
    logBlock "b" 100 200 [logAt 100, logAt 200] (by decide),
    logBlock "c" 300 400 [logAt 300, logAt 400] (by decide)]
  dataDir := ["logs"]
  paths := by decide
  few := by decide

def everything : LogQuery := ⟨[], none, none⟩

end Sample

open Sample in
/-- A window of 59 nanoseconds has no buckets; a search for records without a trace skips their
granule; and the record at 550 is in a block that the index does not find. -/
theorem log_search_miscounts :
    queryLogs emptyStore [untraced] ⟨100, 159, 10, true⟩ everything =
        ⟨[untraced], 1, List.replicate 60 0⟩ ∧
      searchLogsPredicate bareRuntime oneBlock [] ⟨0, 600, 10, true⟩ withoutTrace =
        ⟨[], 0, List.replicate 60 0⟩ ∧
      oneBlock.wanted ⟨0, 600, 10, true⟩ (predicateFilter bareRuntime withoutTrace) = [untraced] ∧
      queryLogs longAndShort [] ⟨500, 600, 10, true⟩ everything = ⟨[], 0, List.replicate 60 0⟩ ∧
      longAndShort.wanted ⟨500, 600, 10, true⟩ everything.filter = [logAt 550] := by
  decide +kernel

end Parqtel.Query
