import Parqtel.Lib.TopK
import Parqtel.Storage.LogIndex
import Parqtel.Storage.MetricScan

/-!
# Scanning a log block

`scanLogBlockFiltered` searches one block. The skip index, or the row groups' timestamps, say
which rows are read; the prefilter rejects rows by their timestamp, severity and body; the
filter decides on the decoded record. If the prefilter decides alone, `scanLogBlockExact`
reads the three columns first and decodes only the rows it returns. What is searched for is
`LogScope.summary`: the records that match, counted, put into buckets and cut to the last or
first `keep`. `scanLogBlockFiltered_eq_iff` says when the scan returns it.
-/

namespace Parqtel.Storage

open Lib Text LogRecord Function LogColumnPrefilter
open List hiding Vector

/-! ## Rows -/

abbrev LogColumns := LogCells LabelSet

def logColumns (log : LogRecord) : LogColumns :=
  .of log (extractCorrelationLabels log.resourceAttributes).2 log.attributes
    (extractCorrelationLabels log.resourceAttributes).1

def rowToLog (row : LogColumns) : LogRecord := row.toLog row.attributes row.resourceAttributes

@[simp] theorem rowToLog_logColumns (log : LogRecord) : rowToLog (logColumns log) = log := by
  simp only [rowToLog, logColumns, LogCells.toLog, LogCells.of, inject_extract]

def logsToBlock (logs : List LogRecord) : List LogColumns × LogIndexTable :=
  (logs.map logColumns, logIndexTable logs)

structure LogRowGroup where
  rows : List LogColumns
  timestamps : TimeChunk (rows.map LogCells.timestampNs)

/-! ## What is searched for -/

structure LogScope where
  startNs : Int
  endNs : Int
  keep : ℕ
  keepNewest : Bool
deriving DecidableEq

variable {A : Type*}

namespace LogScope

/-- The width of a bucket. Differences of timestamps wrap around in 64 bits. -/
def windowNs (s : LogScope) : Int := (Int.bmod (s.endNs - s.startNs) (2 ^ 64)).tdiv 60

def bucketOf (s : LogScope) (t : Int) : ℕ :=
  (min (max ((Int.bmod (t - s.startNs) (2 ^ 64)).tdiv s.windowNs) 0) 59).toNat

def addBucket (s : LogScope) (buckets : List ℕ) (t : Int) : List ℕ :=
  if 0 < s.windowNs then buckets.modify (s.bucketOf t) (· + 1) else buckets

def volume (s : LogScope) (ts : List Int) : List ℕ := ts.foldl s.addBucket (List.replicate 60 0)

def cut (s : LogScope) (n : ℕ) : ℕ := if s.keepNewest then n - s.keep else s.keep

def kept (s : LogScope) (found : List A) : List A :=
  if s.keepNewest then found.drop (s.cut found.length) else found.take (s.cut found.length)

def wanted (s : LogScope) (filter : LogRecord → Bool) (log : LogRecord) : Bool :=
  inWindow s.startNs s.endNs log.timestampNs && filter log

end LogScope

structure LogBlockScan where
  logs : List LogRecord
  matched : ℕ
  buckets : List ℕ
deriving DecidableEq

def LogBlockScan.empty : LogBlockScan := ⟨[], 0, List.replicate 60 0⟩

/-- What a search that finds these records, in this order, returns. -/
def LogScope.summary (s : LogScope) (found : List LogRecord) : LogBlockScan where
  logs := s.kept found
  matched := found.length
  buckets := s.volume (found.map timestampNs)

def decodeLogBlock (s : LogScope) (filter : LogRecord → Bool) (rows : List LogColumns) :
    LogBlockScan :=
  s.summary ((rows.map rowToLog).filter (s.wanted filter))

/-! ## The scan -/

def groupRanges (startNs endNs : Int) (lo : ℕ) : List LogRowGroup → List (ℕ × ℕ)
  | [] => []
  | g :: groups =>
    let rest := groupRanges startNs endNs (lo + g.rows.length) groups
    if g.timestamps.mayOverlap startNs endNs then (lo, lo + g.rows.length) :: rest else rest

def logRowRanges (index : Option LogSkipIndex) (groups : List LogRowGroup) (startNs endNs : Int)
    (pre : Option LogColumnPrefilter) : List (ℕ × ℕ) :=
  match index with
  | some ix => ix.candidateRanges startNs endNs pre
  | none => mergeRanges (groupRanges startNs endNs 0 groups)

structure RowSelector where
  rowCount : ℕ
  skip : Bool

variable (fromConsecutiveRanges : List (ℕ × ℕ) → ℕ → List RowSelector)

def planRowSelection (sizes : List ℕ) (ranges : List (ℕ × ℕ)) : List ℕ × List RowSelector :=
  let (groups, picked) := planSelection sizes ranges
  (groups, fromConsecutiveRanges picked ((groups.map fun g => sizes.getD g 0).sum))

def selected (selectors : List RowSelector) : List Bool :=
  selectors.flatMap fun s => replicate s.rowCount !s.skip

def readSelected {R : Type*} (selectors : List RowSelector) (rows : List R) : List R :=
  ((rows.zip (selected selectors)).filter Prod.snd).map Prod.fst

/-- What is taken from `RowSelection::from_consecutive_ranges`: for ascending ranges of rows the
selectors cover all rows, and select those of the ranges. -/
def SelectsRanges : Prop :=
  ∀ (ranges : List (ℕ × ℕ)) (total : ℕ), (ranges.Pairwise fun a b => a.2 ≤ b.1) →
    (∀ r ∈ ranges, r.1 < r.2 ∧ r.2 ≤ total) →
      selected (fromConsecutiveRanges ranges total) = (range total).map (inRanges ranges)

/-- The rows of a reader that is restricted to file row ranges. If these are whole groups no
selection is made. -/
def restrictToRanges {R : Type*} (groups : List (List R)) (ranges : List (ℕ × ℕ)) : List R :=
  let plan := planSelection (groups.map List.length) ranges
  let whole := plan.1.flatMap fun g => groups.getD g []
  if whole.length = totalRows ranges then whole else readPlan groups plan

def LogColumnPrefilter.meets (pre : LogColumnPrefilter) (severity : Int) (body : String) : Bool :=
  (pre.minSeverity.all fun m => m ≤ severity) && pre.bodyContainsLower.all (containsAsciiCi body)

def logPrefilterMask (pre : LogColumnPrefilter) (s : LogScope) (row : LogColumns) : Bool :=
  inWindow s.startNs s.endNs row.timestampNs && pre.meets row.severityNumber row.body

/-- A record that is found displaces the first of a full queue, or finds no place in it. -/
def keepLog (s : LogScope) (kept : List LogRecord) (log : LogRecord) : List LogRecord :=
  if s.keep = 0 then kept
  else
    let kept := if s.keepNewest ∧ s.keep ≤ kept.length then kept.tail else kept
    if kept.length < s.keep then kept ++ [log] else kept

/-- One row of the scan. A row outside the window is not decoded. -/
def scanLogRow (s : LogScope) (filter : LogRecord → Bool) (scan : LogBlockScan)
    (row : LogColumns) : LogBlockScan :=
  if inWindow s.startNs s.endNs row.timestampNs then
    let log := rowToLog row
    if filter log then
      ⟨keepLog s scan.logs log, scan.matched + 1, s.addBucket scan.buckets log.timestampNs⟩
    else scan
  else scan

/-- The order of a bounded heap: which of two rows is displaced first. -/
def LogScope.before {K : Type*} [LinearOrder K] (s : LogScope) (a b : K) : Prop :=
  if s.keepNewest then a ≤ b else b ≤ a

instance {K : Type*} [LinearOrder K] (s : LogScope) : DecidableRel (s.before (K := K)) :=
  fun a b => inferInstanceAs (Decidable (if s.keepNewest then a ≤ b else b ≤ a))

/-- What the first phase of the exact scan remembers. -/
structure ExactScan where
  best : List (Int ×ₗ ℕ)
  matched : ℕ
  buckets : List ℕ

/-- A row of the first phase, with its position among the rows that are read. -/
def exactRow (s : LogScope) (pre : LogColumnPrefilter) (ranges : List (ℕ × ℕ)) (acc : ExactScan)
    (row : LogColumns × ℕ) : ExactScan :=
  if logPrefilterMask pre s row.1 then
    { best := if s.keep = 0 then acc.best
        else pushBounded s.before s.keep acc.best
          (toLex (row.1.timestampNs, fileRow ranges row.2))
      matched := acc.matched + 1
      buckets := s.addBucket acc.buckets row.1.timestampNs }
  else acc

/-- A search that the prefilter decides: count and choose rows by three columns, then decode
the rows that are returned. -/
def scanLogBlockExact (index : Option LogSkipIndex) (groups : List LogRowGroup) (s : LogScope)
    (pre : LogColumnPrefilter) : LogBlockScan :=
  let ranges := logRowRanges index groups s.startNs s.endNs (some pre)
  if ranges = [] then .empty
  else
    let rows := groups.map LogRowGroup.rows
    let stream := restrictToRanges rows ranges
    let found := stream.zipIdx.foldl (exactRow s pre ranges) ⟨[], 0, List.replicate 60 0⟩
    let chosen := (found.best.map fun m => (ofLex m).2).insertionSort (· ≤ ·)
    if chosen = [] then ⟨[], found.matched, found.buckets⟩
    else
      let ranges := mergeRanges (chosen.map fun r => (r, r + 1))
      let plan := planSelection (rows.map List.length) ranges
      ⟨(readPlan rows plan).map rowToLog, found.matched, found.buckets⟩

def scanLogBlockFiltered (index : Option LogSkipIndex) (groups : List LogRowGroup) (s : LogScope)
    (filter : LogRecord → Bool) (pre : Option LogColumnPrefilter) : LogBlockScan :=
  match pre.filter fun p => p.exact && !p.isEmpty with
  | some p => scanLogBlockExact index groups s p
  | none =>
    let ranges := logRowRanges index groups s.startNs s.endNs pre
    if ranges = [] then .empty
    else
      let rows := restrictToRanges (groups.map LogRowGroup.rows) ranges
      let rows := match pre.filter fun p => !p.isEmpty with
        | some p => rows.filter (logPrefilterMask p s)
        | none => rows
      rows.foldl (scanLogRow s filter) .empty

/-! ## Rows one by one -/

section
variable (s : LogScope)

theorem LogScope.kept_newest (h : s.keepNewest = true) (found : List A) :
    s.kept found = found.drop (found.length - s.keep) := by
  rw [LogScope.kept, LogScope.cut, if_pos h, if_pos h]

theorem LogScope.kept_oldest (h : ¬ s.keepNewest = true) (found : List A) :
    s.kept found = found.take s.keep := by
  rw [LogScope.kept, LogScope.cut, if_neg h, if_neg h]

theorem LogScope.length_kept (found : List A) :
    (s.kept found).length = min s.keep found.length := by
  by_cases h : s.keepNewest = true
  · rw [s.kept_newest h, length_drop]
    omega
  · rw [s.kept_oldest h, length_take]

theorem keepLog_kept (found : List LogRecord) (log : LogRecord) :
    keepLog s (s.kept found) log = s.kept (found ++ [log]) := by
  have hlen := s.length_kept found
  unfold keepLog
  by_cases hzero : s.keep = 0
  · rw [if_pos hzero]
    have hnil (l : List LogRecord) : s.kept l = [] :=
      eq_nil_of_length_eq_zero (by rw [s.length_kept, hzero, zero_min])
    rw [hnil, hnil]
  rw [if_neg hzero]
  dsimp only
  rw [hlen]
  by_cases hnew : s.keepNewest = true
  · rw [s.kept_newest hnew, s.kept_newest hnew, length_append, length_singleton]
    by_cases hfull : s.keep ≤ found.length
    · have hpop : s.keepNewest = true ∧ s.keep ≤ min s.keep found.length := ⟨hnew, by omega⟩
      rw [if_pos hpop, tail_drop, if_pos (by rw [length_drop]; omega),
        show found.length + 1 - s.keep = found.length - s.keep + 1 by omega,
        drop_append_of_le_length (by omega)]
    · have hpop : ¬ (s.keepNewest = true ∧ s.keep ≤ min s.keep found.length) := by omega
      rw [if_neg hpop, if_pos (by rw [length_drop]; omega),
        show found.length + 1 - s.keep = found.length - s.keep by omega,
        drop_append_of_le_length (by omega)]
  · have hpop : ¬ (s.keepNewest = true ∧ s.keep ≤ min s.keep found.length) := (hnew ·.1)
    rw [s.kept_oldest hnew, s.kept_oldest hnew, if_neg hpop, length_take]
    split_ifs with hroom
    · rw [take_of_length_le (by omega), take_of_length_le (by simp; omega)]
    · rw [take_append_of_le_length (by omega)]

theorem LogScope.summary_concat (found : List LogRecord) (log : LogRecord) :
    s.summary (found ++ [log]) = ⟨keepLog s (s.summary found).logs log,
      (s.summary found).matched + 1, s.addBucket (s.summary found).buckets log.timestampNs⟩ := by
  simp only [LogScope.summary, keepLog_kept, length_append, length_singleton,
    LogScope.volume, map_append, map_singleton, foldl_concat]

theorem scanLogRow_summary (filter : LogRecord → Bool) (found : List LogRecord)
    (row : LogColumns) : scanLogRow s filter (s.summary found) row =
      s.summary (found ++ [rowToLog row].filter (s.wanted filter)) := by
  have hwanted : s.wanted filter (rowToLog row) =
      (inWindow s.startNs s.endNs row.timestampNs && filter (rowToLog row)) := rfl
  rw [scanLogRow]
  cases hin : inWindow s.startNs s.endNs row.timestampNs with
  | false =>
    rw [filter_cons_of_neg (by simp [hwanted, hin]), filter_nil, append_nil]
    rfl
  | true =>
    cases hf : filter (rowToLog row) with
    | false =>
      rw [filter_cons_of_neg (by simp [hwanted, hf]), filter_nil, append_nil]
      simp [hf]
    | true =>
      rw [filter_cons_of_pos (by simp [hwanted, hin, hf]), filter_nil, s.summary_concat]
      simp [hf]

/-- **The row loop** returns what decoding and testing every row does. -/
theorem foldl_scanLogRow (filter : LogRecord → Bool) (rows : List LogColumns) :
    rows.foldl (scanLogRow s filter) .empty = decodeLogBlock s filter rows := by
  have hempty : LogBlockScan.empty = s.summary [] := by
    simp [LogBlockScan.empty, LogScope.summary, LogScope.kept, LogScope.volume]
  induction rows using List.reverseRecOn with
  | nil => exact hempty
  | append_singleton rows row ih =>
    rw [foldl_concat, ih, decodeLogBlock, scanLogRow_summary, decodeLogBlock, map_append,
      filter_append, map_singleton]

end

/-! ## Granules that are skipped -/

def Carries (log : LogRecord) (p : String × String) : Prop :=
  p ∈ log.attributes.entries ∨ p ∈ log.resourceAttributes.entries ∨
    p = ("trace_id", hexLower log.traceId.toList) ∨ p = ("span_id", hexLower log.spanId.toList)

/-- The id pairs that every record without ids has. The index does not record them. -/
def zeroIdPairs : List (String × String) :=
  [("trace_id", hexLower (List.replicate 16 0)), ("span_id", hexLower (List.replicate 8 0))]

theorem idTerm_of_ne {name : String} {n : ℕ} {id : Vector UInt8 n}
    (h : id.toList ≠ List.replicate n 0) :
    idTerm name id.toList = some (pairHash name (hexLower id.toList)) := by
  refine if_pos (Bool.of_not_eq_false fun hall => h ?_)
  rw [any_eq_false] at hall
  exact eq_replicate_iff.mpr ⟨id.length_toList, fun b hb => by simpa using hall b hb⟩

variable {log : LogRecord}

theorem pairHash_mem_rowTerms {p : String × String} (h : Carries log p)
    (hfits : fitsPair p.1 p.2 = true) (hzero : p ∉ zeroIdPairs) :
    pairHash p.1 p.2 ∈ rowTerms log := by
  have hpair {labels : LabelSet} (hp : p ∈ labels.entries) : pairHash p.1 p.2 ∈ pairTerms labels :=
    mem_map_of_mem (mem_filter.mpr ⟨hp, hfits⟩)
  unfold rowTerms
  rcases h with h | h | rfl | rfl
  · exact mem_append_left _ (mem_append_right _ (mem_append_left _ (hpair h)))
  · exact mem_append_left _ (mem_append_right _ (mem_append_right _ (hpair h)))
  · have hne : log.traceId.toList ≠ List.replicate 16 0 := fun h => hzero (by simp [zeroIdPairs, h])
    rw [idTerm_of_ne hne]
    exact mem_append_right _ (mem_append_left _ (Option.mem_toList.mpr rfl))
  · have hne : log.spanId.toList ≠ List.replicate 8 0 := fun h => hzero (by simp [zeroIdPairs, h])
    rw [idTerm_of_ne hne]
    exact mem_append_right _ (mem_append_right _ (Option.mem_toList.mpr rfl))

theorem trigramHash_mem_rowTerms {needle : String} (h : containsAsciiCi log.body needle = true) :
    (triples (utf8 needle)).map trigramHash ⊆ rowTerms log := fun _ ht =>
  mem_append_left _ (mem_append_left _
    (map_subset _ (triples_mono (infix_of_findCi h)) ht))

theorem fitsPair_of_mem_zeroIdPairs : ∀ p ∈ zeroIdPairs, fitsPair p.1 p.2 = true := by decide

namespace LogColumnPrefilter

def zeroIds (pre : LogColumnPrefilter) : List (String × String) :=
  pre.attrEquals.filter (· ∈ zeroIdPairs)

/-- **When a record's granule is kept.** The granule of a record that meets all conditions is
skipped for no reason but an id of zeros. -/
theorem granuleKept_iff (pre : LogColumnPrefilter) {ix : LogSkipIndex} {g : ℕ}
    (hcov : ix.Covers g log) {startNs endNs : Int} (hin : inWindow startNs endNs log.timestampNs)
    (hmeets : pre.meets log.severityNumber log.body = true)
    (hcarries : ∀ p ∈ pre.attrEquals, Carries log p) :
    ix.granuleKept startNs endNs (some pre) g = true ↔
      ∀ p ∈ pre.zeroIds, ix.mayContain g (pairHash p.1 p.2) = true := by
  obtain ⟨hstart, hend⟩ := of_decide_eq_true hin
  obtain ⟨hsev, hbody⟩ := Bool.and_eq_true_iff.mp hmeets
  have h1 : ¬ ix.maxTs.getD g 0 < startNs := not_lt.mpr (hstart.trans hcov.maxTs)
  have h2 : ¬ endNs < ix.minTs.getD g 0 := not_lt.mpr (hcov.minTs.trans hend)
  have h3 : ¬ (pre.minSeverity.any fun m => ix.maxSeverity.getD g 0 < m) = true := by
    cases hm : pre.minSeverity with
    | none => exact Bool.false_ne_true
    | some m =>
      rw [hm] at hsev
      have := (of_decide_eq_true hsev).trans hcov.severity
      simpa using this
  have hkept : ix.granuleKept startNs endNs (some pre) g = true ↔
      ∀ t ∈ pre.terms, ix.mayContain g t = true := by
    rw [LogSkipIndex.granuleKept, decide_eq_true_eq, Option.bind_some, Option.elim_some]
    rw [← all_eq_true]
    simp only [h1, h2, h3, Bool.false_eq_true, false_or, not_not]
  rw [hkept]
  constructor
  · intro h p hp
    obtain ⟨hp, hzero⟩ := mem_filter.mp hp
    have hfits := fitsPair_of_mem_zeroIdPairs p (of_decide_eq_true hzero)
    exact h _ (mem_append_right _ (mem_map_of_mem (mem_filter.mpr ⟨hp, hfits⟩)))
  · intro h t ht
    rcases mem_append.mp ht with ht | ht
    · obtain ⟨needle, hneedle, ht⟩ := mem_flatMap.mp ht
      exact hcov.terms t (trigramHash_mem_rowTerms (all_eq_true.mp hbody needle hneedle) ht)
    · obtain ⟨p, hp, rfl⟩ := mem_map.mp ht
      obtain ⟨hp, hfits⟩ := mem_filter.mp hp
      by_cases hzero : p ∈ zeroIdPairs
      · exact h p (mem_filter.mpr ⟨hp, decide_eq_true hzero⟩)
      · exact hcov.terms _ (pairHash_mem_rowTerms (hcarries p hp) hfits hzero)

end LogColumnPrefilter

/-! ## The rows that are read -/

theorem restrictToRanges_eq {R : Type*} (groups : List (List R)) {ranges : List (ℕ × ℕ)}
    (h : Ranges ranges) (hn : ∀ i, inRanges ranges i = true → i < groups.flatten.length) :
    restrictToRanges groups ranges = rowsWhere (inRanges ranges) 0 groups.flatten := by
  have hread := readPlan_planSelection groups h.ascending
  rw [restrictToRanges]
  split_ifs with hwhole
  · rw [← hread]
    refine (List.Sublist.eq_of_length (rowsWhere_sublist _ 0 _) ?_).symm
    rw [hwhole, ← length_rowsWhere_inRanges h.1 hn, ← hread]
    rfl
  · exact hread

section
variable {R : Type*}

theorem readSelected_eq {selectors : List RowSelector} {rows : List R} {p : ℕ → Bool}
    (h : selected selectors = (range rows.length).map p) :
    readSelected selectors rows = rowsWhere p 0 rows ∧
      (selectors.map RowSelector.rowCount).sum = rows.length := by
  have hlength := congrArg List.length h
  rw [selected, length_flatMap, length_map, length_range] at hlength
  simp only [length_replicate] at hlength
  refine ⟨?_, hlength⟩
  rw [readSelected, h, rowsWhere_eq_zipIdx, zipIdx_eq_zip_range', range_eq_range', zip_map_right,
    filter_map, map_map]
  rfl

variable {fromConsecutiveRanges : List (ℕ × ℕ) → ℕ → List RowSelector}

/-- **A row selection is exact**: applied to the rows of the groups that are read it yields the rows
of the file that lie in the ranges, in order, and it accounts for every row that is read. -/
theorem row_selection_exact (hselects : SelectsRanges fromConsecutiveRanges)
    (groups : List (List R)) {ranges : List (ℕ × ℕ)} (hranges : Ranges ranges) :
    let plan := planRowSelection fromConsecutiveRanges (groups.map List.length) ranges
    let rows := plan.1.flatMap fun g => groups.getD g []
    readSelected plan.2 rows = rowsWhere (inRanges ranges) 0 groups.flatten ∧
      (plan.2.map RowSelector.rowCount).sum = rows.length := by
  have hasc := planFrom_ascending (groups.map List.length) [] 0 0 hranges.1
  have hin := planFrom_bounds (groups.map List.length) [] 0 0 ranges
  have hread := readPlan_planSelection groups hranges.ascending
  unfold planRowSelection
  generalize hplan : planSelection (groups.map List.length) ranges = plan at hread ⊢
  rw [show planFrom ([] : List ℕ).length 0 0 ranges _ = plan from hplan] at hasc hin
  have hlen : (plan.1.map fun g => (groups.map List.length).getD g 0).sum =
      (plan.1.flatMap fun g => groups.getD g []).length := by
    rw [length_flatMap]
    exact congrArg List.sum (map_congr_left fun g _ => getD_map groups [] List.length)
  rw [nil_append, hlen] at hin
  dsimp only
  rw [hlen, ← hread]
  exact readSelected_eq (hselects _ _ hasc fun c hc => by
    have := hin c hc
    omega)

end

theorem row_selection_exact_three_groups :
    let selectors (ranges : List (ℕ × ℕ)) (total : ℕ) : List RowSelector :=
      (range total).map fun i => ⟨1, !inRanges ranges i⟩
    let plan := planRowSelection selectors [3, 2, 4] [(1, 3), (6, 8)]
    SelectsRanges selectors ∧ plan.1 = [0, 2] ∧
      readSelected plan.2 [10, 11, 12, 15, 16, 17, 18] = [11, 12, 16, 17] := by
  have hselects : SelectsRanges fun ranges total =>
      (range total).map fun i => ⟨1, !inRanges ranges i⟩ := by
    intro ranges total _ _
    rw [selected, flatMap_map, map_eq_flatMap]
    simp
  refine ⟨hselects, rfl, ?_⟩
  exact (row_selection_exact hselects [[10, 11, 12], [13, 14], [15, 16, 17, 18]]
    (show Ranges [(1, 3), (6, 8)] by unfold Ranges; decide)).1

theorem groupRanges_bounds (startNs endNs : Int) (lo : ℕ) (groups : List LogRowGroup) :
    Ranges (groupRanges startNs endNs lo groups) ∧ ∀ r ∈ groupRanges startNs endNs lo groups,
        lo ≤ r.1 ∧ r.2 ≤ lo + (groups.flatMap LogRowGroup.rows).length := by
  induction groups generalizing lo with
  | nil => exact ⟨⟨List.Pairwise.nil, nofun⟩, nofun⟩
  | cons g groups ih =>
    obtain ⟨⟨hpair, hle⟩, hbounds⟩ := ih (lo + g.rows.length)
    rw [flatMap_cons, length_append, groupRanges]
    have hrest :
        ∀ r ∈ groupRanges startNs endNs (lo + g.rows.length) groups, lo + g.rows.length ≤ r.1 ∧
        r.2 ≤ lo + (g.rows.length + (groups.flatMap LogRowGroup.rows).length) := fun r hr =>
      ⟨(hbounds r hr).1, by have := (hbounds r hr).2; omega⟩
    split_ifs
    · refine ⟨⟨pairwise_cons.mpr ⟨fun r hr => (hrest r hr).1, hpair⟩,
        forall_mem_cons.mpr ⟨Nat.le_add_right _ _, hle⟩⟩,
        forall_mem_cons.mpr ⟨⟨le_rfl, by omega⟩, fun r hr => ?_⟩⟩
      have := hrest r hr
      omega
    · refine ⟨⟨hpair, hle⟩, fun r hr => ?_⟩
      have := hrest r hr
      omega

theorem inRanges_groupRanges (startNs endNs : Int) (lo : ℕ) (groups : List LogRowGroup) {k : ℕ}
    {row : LogColumns} (hrow : (groups.flatMap LogRowGroup.rows)[k]? = some row)
    (hin : inWindow startNs endNs row.timestampNs) :
    inRanges (groupRanges startNs endNs lo groups) (lo + k) = true := by
  induction groups generalizing lo k with
  | nil => cases hrow
  | cons g groups ih =>
    rw [inRanges_iff, groupRanges]
    rw [flatMap_cons] at hrow
    by_cases hk : k < g.rows.length
    · rw [getElem?_append_left hk] at hrow
      obtain ⟨hstart, hend⟩ := of_decide_eq_true hin
      have hover := g.timestamps.mayOverlap_of_mem
        (mem_map_of_mem (mem_of_getElem? hrow)) hstart hend
      rw [if_pos hover]
      exact ⟨_, mem_cons_self, Nat.le_add_right _ _, by omega⟩
    · rw [getElem?_append_right (not_lt.mp hk)] at hrow
      obtain ⟨r, hr, hlo, hhi⟩ := inRanges_iff.mp (ih (lo + g.rows.length) hrow)
      refine ⟨r, ?_, by omega⟩
      split_ifs
      · exact mem_cons_of_mem _ hr
      · exact hr

/-- A file that holds the block of the given records, however its rows are grouped. Its footer
has the block's skip index, or none. -/
structure LogFile (logs : List LogRecord) where
  groups : List LogRowGroup
  table : Option LogIndexTable
  rows_eq : groups.flatMap LogRowGroup.rows = (logsToBlock logs).1
  table_eq : ∀ t ∈ table, t = (logsToBlock logs).2

namespace LogFile

variable {logs : List LogRecord}

def index (file : LogFile logs) : Option LogSkipIndex :=
  loadLogIndex file.table (file.groups.flatMap LogRowGroup.rows).length

variable (file : LogFile logs) {ix : LogSkipIndex}

theorem index_covers (h : ix ∈ file.index) : ix.rows = logs.length ∧
    ix.granuleRows = granuleRows ∧ ∀ i log, logs[i]? = some log →
      ix.Covers (i / granuleRows) log := by
  obtain ⟨ix', hload, hcov⟩ := logsToBlock_index logs
  have hrows : (file.groups.flatMap LogRowGroup.rows).length = logs.length := by
    rw [file.rows_eq, logsToBlock, length_map]
  rw [index, hrows] at h
  cases htable : file.table with
  | none =>
    rw [htable] at h
    cases h
  | some t =>
    rw [htable, file.table_eq t htable] at h
    obtain rfl : ix' = ix := Option.some.inj (hload.symm.trans h)
    exact hcov

/-- What a scan of the file selects: ascending ranges inside the file. -/
theorem logRowRanges_bounds (startNs endNs : Int) (pre : Option LogColumnPrefilter) :
    Ranges (logRowRanges file.index file.groups startNs endNs pre) ∧
      ∀ i, inRanges (logRowRanges file.index file.groups startNs endNs pre) i = true →
        i < logs.length := by
  cases hix : file.index with
  | some ix =>
    refine ⟨ix.ranges_candidateRanges startNs endNs pre, fun i hi => ?_⟩
    rw [← (file.index_covers hix).1]
    exact ix.lt_rows_of_candidate startNs endNs pre hi
  | none =>
    obtain ⟨hranges, hbounds⟩ := groupRanges_bounds startNs endNs 0 file.groups
    obtain ⟨hmerged, hin⟩ := mergeRanges_spec hranges
    refine ⟨hmerged, fun i hi => ?_⟩
    obtain ⟨r, hr, -, hlt⟩ := inRanges_iff.mp ((hin i).symm.trans hi)
    have hle := (hbounds r hr).2
    rw [file.rows_eq, logsToBlock, length_map] at hle
    omega

theorem restrict_eq {ranges : List (ℕ × ℕ)} (h : Ranges ranges)
    (hn : ∀ i, inRanges ranges i = true → i < logs.length) :
    restrictToRanges (file.groups.map LogRowGroup.rows) ranges =
      (rowsWhere (inRanges ranges) 0 logs).map logColumns := by
  have hflat : (file.groups.map LogRowGroup.rows).flatten = logs.map logColumns :=
    file.rows_eq
  rw [restrictToRanges_eq _ h (by simpa [hflat] using hn), hflat, rowsWhere_map]

end LogFile

/-! ## The exact scan -/

variable {pre : LogColumnPrefilter}

namespace LogColumnPrefilter

def accepts (pre : LogColumnPrefilter) (log : LogRecord) : Bool :=
  pre.meets log.severityNumber log.body

/-- Every record that the filter wants meets the conditions. If the prefilter is exact, the
severity and body columns decide. -/
structure SoundFor (pre : LogColumnPrefilter) (filter : LogRecord → Bool) : Prop where
  accepts : ∀ log, filter log = true → pre.accepts log = true
  carries : ∀ log, filter log = true → ∀ p ∈ pre.attrEquals, Carries log p
  exact : pre.exact = true → pre.attrEquals = [] ∧ ∀ log, pre.accepts log = true → filter log = true

theorem soundFor_accepts (h : pre.attrEquals = []) : pre.SoundFor pre.accepts where
  accepts _ h := h
  carries _ _ p hp := by rw [h] at hp; cases hp
  exact _ := ⟨h, fun _ h => h⟩

end LogColumnPrefilter

variable {logs : List LogRecord}

/-- A row that is wanted is read, unless its granule is skipped for an id of zeros. -/
theorem LogFile.inRanges_logRowRanges (file : LogFile logs) (s : LogScope)
    {filter : LogRecord → Bool} (hsound : pre.SoundFor filter) {i : ℕ} (hlog : logs[i]? = some log)
    (hw : s.wanted filter log = true) :
    inRanges (logRowRanges file.index file.groups s.startNs s.endNs (some pre)) i = true ↔
      ∀ ix ∈ file.index, ∀ p ∈ pre.zeroIds,
        ix.mayContain (i / granuleRows) (pairHash p.1 p.2) = true := by
  obtain ⟨hin, hf⟩ := Bool.and_eq_true_iff.mp hw
  cases hix : file.index with
  | none =>
    refine ⟨fun _ => nofun, fun _ => ?_⟩
    show inRanges (mergeRanges (groupRanges s.startNs s.endNs 0 file.groups)) i = true
    rw [(mergeRanges_spec (groupRanges_bounds s.startNs s.endNs 0 file.groups).1).2,
      ← zero_add i]
    have hrow : (file.groups.flatMap LogRowGroup.rows)[i]? = some (logColumns log) := by
      rw [file.rows_eq, logsToBlock, getElem?_map, hlog, Option.map_some]
    exact inRanges_groupRanges _ _ 0 _ hrow hin
  | some ix =>
    obtain ⟨hrows, hgran, hcov⟩ := file.index_covers hix
    have hi : i < ix.rows := hrows ▸ (List.getElem?_eq_some_iff.mp hlog).1
    show inRanges (ix.candidateRanges s.startNs s.endNs (some pre)) i = true ↔ _
    rw [ix.inRanges_candidateRanges _ _ _ hi, hgran,
      pre.granuleKept_iff (hcov i log hlog) hin (hsound.accepts log hf) (hsound.carries log hf)]
    simp

section
variable (s : LogScope) {K : Type*} [LinearOrder K]

instance : Std.Total (s.before (K := K)) := ⟨fun a b => by
  unfold LogScope.before
  split_ifs
  · exact le_total a b
  · exact le_total b a⟩

instance : IsTrans K s.before := ⟨fun a b c => by
  unfold LogScope.before
  split_ifs
  · exact le_trans
  · exact fun hab hbc => le_trans hbc hab⟩

instance : Std.Antisymm (s.before (K := K)) := ⟨fun a b => by
  unfold LogScope.before
  split_ifs
  · exact le_antisymm
  · exact fun hab hba => le_antisymm hba hab⟩

/-- The first phase: the best rows, the count and the buckets of the rows in the mask. -/
theorem foldl_exactRow (pre : LogColumnPrefilter) (ranges : List (ℕ × ℕ))
    (rows : List (LogColumns × ℕ)) (hits : List (LogColumns × ℕ))
    (hhits : rows.filter (fun x => logPrefilterMask pre s x.1) = hits) :
    rows.foldl (exactRow s pre ranges) ⟨[], 0, List.replicate 60 0⟩ =
      ⟨best s.before s.keep (hits.map fun x => toLex (x.1.timestampNs, fileRow ranges x.2)),
        hits.length, s.volume (hits.map fun x => x.1.timestampNs)⟩ := by
  subst hhits
  induction rows using List.reverseRecOn with
  | nil => simp [best, LogScope.volume]
  | append_singleton rows row ih =>
    rw [foldl_concat, ih, exactRow, filter_append]
    by_cases hmask : logPrefilterMask pre s row.1 = true
    · have hone : [row].filter (fun x => logPrefilterMask pre s x.1) = [row] := by simp [hmask]
      rw [if_pos hmask, hone]
      simp only [map_append, map_singleton, length_append, length_singleton,
        LogScope.volume, foldl_concat]
      split_ifs with hzero
      · rw [hzero, best, best, drop_eq_nil_of_le (by simp), drop_eq_nil_of_le (by simp)]
      · rw [pushBounded_best]
    · have hnone : [row].filter (fun x => logPrefilterMask pre s x.1) = [] := by simp [hmask]
      rw [if_neg hmask, hnone, append_nil]

theorem LogFile.read_chosen (file : LogFile logs) {chosen : List ℕ} (h : chosen.Pairwise (· < ·)) :
    readPlan (file.groups.map LogRowGroup.rows)
        (planSelection ((file.groups.map LogRowGroup.rows).map List.length)
          (mergeRanges (chosen.map fun r => (r, r + 1)))) =
      (rowsWhere (fun i => i ∈ chosen) 0 logs).map logColumns := by
  obtain ⟨hranges, hpos⟩ := ranges_positions h
  obtain ⟨hmerged, hin⟩ := mergeRanges_spec hranges
  rw [readPlan_planSelection _ hmerged.ascending, ← flatMap_def, file.rows_eq, logsToBlock,
    rowsWhere_map]
  congr 1
  exact rowsWhere_congr fun k _ => (hin _).trans (hpos _)

/-- **The exact scan** counts the rows that the prefilter accepts, and returns the best of them
by timestamp and position. -/
theorem LogFile.scanLogBlockExact_eq (file : LogFile logs) (hpairs : pre.attrEquals = [])
    {found : List (LogRecord × ℕ)}
    (hfound : logs.zipIdx.filter (fun x => s.wanted pre.accepts x.1) = found) :
    scanLogBlockExact file.index file.groups s pre =
      ⟨(found.filter fun x => mark timestampNs x ∈
          best s.before s.keep (found.map (mark timestampNs))).map Prod.fst,
        found.length, s.volume (found.map fun x => x.1.timestampNs)⟩ := by
  obtain ⟨hranges, hn⟩ := file.logRowRanges_bounds s.startNs s.endNs (some pre)
  have hselected (k : ℕ) (x : LogRecord × ℕ) (hx : logs.zipIdx[k]? = some x)
      (hw : s.wanted pre.accepts x.1 = true) :
      inRanges (logRowRanges file.index file.groups s.startNs s.endNs (some pre))
        (0 + k) = true := by
    rw [getElem?_zipIdx] at hx
    obtain ⟨log, hlog, rfl⟩ := Option.map_eq_some_iff.mp hx
    rw [zero_add, file.inRanges_logRowRanges s (soundFor_accepts hpairs) hlog hw]
    simp [zeroIds, hpairs]
  rw [scanLogBlockExact]
  generalize logRowRanges file.index file.groups s.startNs s.endNs (some pre) = ranges at *
  have hrows : (rowsWhere (inRanges ranges) 0 logs.zipIdx).filter
      (fun x => s.wanted pre.accepts x.1) = found := (filter_rowsWhere hselected).trans hfound
  split_ifs with hnil
  · have hnone : found = [] := by
      rw [← hrows, hnil, rowsWhere_none fun k _ => rfl]
      rfl
    rw [hnone]
    rfl
  · -- the stream's rows in the mask, with the file rows they are
    have hhits : ((rowsWhere (inRanges ranges) 0 logs).zipIdx.filter fun x =>
        s.wanted pre.accepts x.1).map (fun x => (x.1, fileRow ranges x.2)) = found := by
      rw [← hrows, ← zipIdx_rowsWhere hranges.1 hn, filter_map]
      rfl
    have hmask : (((rowsWhere (inRanges ranges) 0 logs).map logColumns).zipIdx.filter fun x =>
        logPrefilterMask pre s x.1) = ((rowsWhere (inRanges ranges) 0 logs).zipIdx.filter fun x =>
          s.wanted pre.accepts x.1).map (Prod.map logColumns id) := by
      rw [zipIdx_map, filter_map]
      rfl
    generalize (rowsWhere (inRanges ranges) 0 logs).zipIdx.filter (fun x =>
      s.wanted pre.accepts x.1) = hits at hhits hmask
    have hmarks : ((hits.map (Prod.map logColumns id)).map fun x =>
        toLex (x.1.timestampNs, fileRow ranges x.2)) = found.map (mark timestampNs) := by
      rw [← hhits, map_map, map_map]
      rfl
    have hts : ((hits.map (Prod.map logColumns id)).map fun x => x.1.timestampNs) =
        found.map fun x => x.1.timestampNs := by
      rw [← hhits, map_map, map_map]
      rfl
    have hlen : (hits.map (Prod.map logColumns id)).length = found.length := by
      rw [← hhits, length_map, length_map]
    dsimp only
    rw [file.restrict_eq hranges hn, foldl_exactRow s pre ranges _ _ hmask, hmarks, hts, hlen]
    generalize hchosen : ((best s.before s.keep (found.map (mark timestampNs))).map
      fun m => (ofLex m).2).insertionSort (· ≤ ·) = chosen
    obtain ⟨hlt, hlogs⟩ := rowsWhere_best hfound hchosen
    rw [← hlogs]
    split_ifs with hempty
    · rw [hempty, rowsWhere_none fun k _ => rfl]
    · rw [file.read_chosen hlt, map_map]
      simp [comp_def]

/-! ## When the scan is right -/

/-- No record on the side that is kept belongs to the other by its timestamp. -/
def LogScope.InOrder (found : List LogRecord) : Prop :=
  ∀ a ∈ found.take (s.cut found.length), ∀ b ∈ found.drop (s.cut found.length),
    a.timestampNs ≤ b.timestampNs

theorem mark_le_mark {a b : LogRecord × ℕ} (hpos : a.2 < b.2)
    (h : a.1.timestampNs ≤ b.1.timestampNs) :
    mark timestampNs a ≤ mark timestampNs b :=
  Prod.Lex.toLex_le_toLex.mpr (h.lt_or_eq.imp_right fun heq => ⟨heq, hpos.le⟩)

theorem fst_le_of_lex {x y : Int ×ₗ ℕ} (h : x ≤ y) : (ofLex x).1 ≤ (ofLex y).1 := by
  rcases Prod.Lex.le_iff.mp h with hlt | ⟨heq, -⟩
  · exact hlt.le
  · exact heq.le

/-- The best by timestamp and position are those at the end of the block, if the records there
are in order. -/
theorem kept_best_iff {found : List (LogRecord × ℕ)}
    (hfound : found.Pairwise fun a b => a.2 < b.2) :
    (found.filter fun x => mark timestampNs x ∈
        best s.before s.keep (found.map (mark timestampNs))).map Prod.fst =
      s.kept (found.map Prod.fst) ↔ s.InOrder (found.map Prod.fst) := by
  have hcross : ∀ a ∈ found.take (s.cut found.length), ∀ b ∈ found.drop (s.cut found.length),
      a.2 < b.2 := by
    rw [← take_append_drop (s.cut found.length) found] at hfound
    exact (pairwise_append.mp hfound).2.2
  have horder : s.InOrder (found.map Prod.fst) ↔ ∀ a ∈ found.take (s.cut found.length),
      ∀ b ∈ found.drop (s.cut found.length), a.1.timestampNs ≤ b.1.timestampNs := by
    rw [LogScope.InOrder, length_map, ← map_take, ← map_drop]
    simp only [forall_mem_map]
  have hsplit := take_append_drop (s.cut found.length) found
  have hlen : (s.kept found).length = min s.keep found.length := s.length_kept found
  rw [horder]
  by_cases hnew : s.keepNewest = true
  · have hkept : s.kept (found.map Prod.fst) = (found.drop (s.cut found.length)).map Prod.fst := by
      rw [LogScope.kept, if_pos hnew, length_map, map_drop]
    rw [LogScope.kept, if_pos hnew] at hlen
    rw [hkept]
    refine map_filter_best_eq_iff (s := (· ≤ ·)) hfound (.of_eq hsplit.symm)
      (drop_sublist _ _) hlen (fun a ha b hb h => ?_) fun x y h => ?_
    · rw [LogScope.before, if_pos hnew]
      exact mark_le_mark (hcross a ha b hb) h
    · rw [LogScope.before, if_pos hnew] at h
      exact fst_le_of_lex h
  · have hkept : s.kept (found.map Prod.fst) = (found.take (s.cut found.length)).map Prod.fst := by
      rw [LogScope.kept, if_neg hnew, length_map, map_take]
    rw [LogScope.kept, if_neg hnew] at hlen
    rw [hkept, map_filter_best_eq_iff (s := (· ≥ ·)) hfound
      ((List.Perm.of_eq hsplit.symm).trans perm_append_comm) (take_sublist _ _) hlen
      (fun a ha b hb h => ?_) fun x y h => ?_]
    · exact ⟨fun h a ha b hb => h b hb a ha, fun h b hb a ha => h a ha b hb⟩
    · rw [LogScope.before, if_neg hnew]
      exact mark_le_mark (hcross b hb a ha) h
    · rw [LogScope.before, if_neg hnew] at h
      exact fst_le_of_lex h

theorem decode_logsToBlock (filter : LogRecord → Bool) (logs : List LogRecord) :
    decodeLogBlock s filter (logsToBlock logs).1 = s.summary (logs.filter (s.wanted filter)) := by
  rw [decodeLogBlock, logsToBlock, map_map]
  simp [comp_def]

namespace LogFile

variable {logs : List LogRecord} (file : LogFile logs) {pre : LogColumnPrefilter}
  {filter : LogRecord → Bool}

def ZeroIdsKept (filter : LogRecord → Bool) (pre : LogColumnPrefilter) : Prop :=
  ∀ ix ∈ file.index, ∀ i log, logs[i]? = some log → s.wanted filter log = true →
    ∀ p ∈ pre.zeroIds, ix.mayContain (i / granuleRows) (pairHash p.1 p.2) = true

theorem scan_rows_eq (hsound : pre.SoundFor filter)
    (hpath : (pre.exact && !pre.isEmpty) = false) :
    scanLogBlockFiltered file.index file.groups s filter (some pre) =
      s.summary ((rowsWhere (inRanges (logRowRanges file.index file.groups s.startNs s.endNs
        (some pre))) 0 logs).filter (s.wanted filter)) := by
  obtain ⟨hranges, hn⟩ := file.logRowRanges_bounds s.startNs s.endNs (some pre)
  have hnone : (some pre).filter (fun p => p.exact && !p.isEmpty) = none := by
    simp [Option.filter, hpath]
  rw [scanLogBlockFiltered, hnone]
  -- the row filter rejects no wanted row
  have hmask (l : List LogRecord) :
      ((l.map logColumns).filter (logPrefilterMask pre s)).map rowToLog =
      l.filter (s.wanted pre.accepts) := by
    rw [filter_map, map_map]
    simp only [comp_def, rowToLog_logColumns, map_id']
    rfl
  have hwanted (l : List LogRecord) : (l.filter (s.wanted pre.accepts)).filter (s.wanted filter) =
      l.filter (s.wanted filter) := by
    rw [filter_filter]
    refine filter_congr fun log _ => ?_
    cases hw : s.wanted filter log with
    | false => rfl
    | true =>
      obtain ⟨hin, hf⟩ := Bool.and_eq_true_iff.mp hw
      simp [LogScope.wanted, hin, hsound.accepts log hf]
  dsimp only
  split_ifs with hnil
  · rw [hnil, rowsWhere_none fun k _ => rfl, filter_nil]
    simp [LogBlockScan.empty, LogScope.summary, LogScope.kept, LogScope.volume]
  · rw [foldl_scanLogRow, decodeLogBlock, file.restrict_eq hranges hn]
    cases hempty : pre.isEmpty with
    | true => simp [Option.filter, hempty, comp_def]
    | false => simp only [Option.filter, hempty, Bool.not_false, if_true, hmask, hwanted]

/-- **A search of a block** returns what decoding and testing every row does, exactly if no
granule with a wanted record is skipped for an id of zeros and, where the columns decide, the
records are in order where they are cut. -/
theorem scanLogBlockFiltered_eq_iff (hsound : pre.SoundFor filter) :
    scanLogBlockFiltered file.index file.groups s filter (some pre) =
        decodeLogBlock s filter (logsToBlock logs).1 ↔
      file.ZeroIdsKept s filter pre ∧
        (pre.exact = true → pre.isEmpty = false → s.InOrder (logs.filter (s.wanted filter))) := by
  rw [decode_logsToBlock]
  cases hpath : pre.exact && !pre.isEmpty with
  | true =>
    obtain ⟨hexact, hempty⟩ := Bool.and_eq_true_iff.mp hpath
    rw [Bool.not_eq_true'] at hempty
    obtain ⟨hpairs, hall⟩ := hsound.exact hexact
    obtain rfl : filter = pre.accepts := funext fun log =>
      Bool.eq_iff_iff.mpr ⟨hsound.accepts log, hall log⟩
    have hzero : file.ZeroIdsKept s pre.accepts pre := by
      intro ix _ i log _ _ p hp
      rw [zeroIds, hpairs] at hp
      cases hp
    have hscan : scanLogBlockFiltered file.index file.groups s pre.accepts (some pre) =
        scanLogBlockExact file.index file.groups s pre := by
      simp [scanLogBlockFiltered, Option.filter, hpath]
    have hasc := (pairwise_zipIdx logs).filter fun x => s.wanted pre.accepts x.1
    rw [hscan, file.scanLogBlockExact_eq s hpairs rfl, filter_eq_zipIdx (s.wanted _) 0 logs]
    rw [LogScope.summary, LogBlockScan.mk.injEq, length_map, map_map, kept_best_iff s hasc]
    exact ⟨fun h => ⟨hzero, fun _ _ => h.1⟩, fun h => ⟨h.2 hexact hempty, rfl, rfl⟩⟩
  | false =>
    rw [file.scan_rows_eq s hsound hpath]
    have hno : pre.exact = true → pre.isEmpty = false → False := fun h1 h2 => by
      rw [h1, h2] at hpath
      cases hpath
    constructor
    · intro h
      have hlen := congrArg LogBlockScan.matched h
      refine ⟨fun ix hix i log hlog hw => ?_, fun h1 h2 => (hno h1 h2).elim⟩
      have hread := selected_of_length_filter hlen i log hlog hw
      rw [zero_add, file.inRanges_logRowRanges s hsound hlog hw] at hread
      exact hread ix hix
    · rintro ⟨hkept, -⟩
      rw [filter_rowsWhere fun i log hlog hw => ?_]
      rw [zero_add, file.inRanges_logRowRanges s hsound hlog hw]
      exact fun ix hix => hkept ix hix i log hlog hw

end LogFile

end

end Parqtel.Storage
