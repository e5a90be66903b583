import Parqtel.Storage.BlockFile
import Parqtel.Storage.SeriesSelect

/-!
# Scanning a metric block

A block is scanned through its series table (`scanBlockIndexed`), or row by row after row
groups were ruled out by the statistics of their columns (`scanBlockRows`). Statistics and
bloom filters are the writer's; they carry the fact that they rule out no value that is
there. The reference for both is `decodeBlock`: decode every row and keep those of the
metric, in the window and accepted by the filter. `scanBlockIndexed_eq` says that the
indexed scan is the reference. The other scan also prunes by the service name column, and
`scanBlockRows_perm` says when that loses nothing.
-/

namespace Parqtel.Storage

open Lib List SeriesRows Nat SeriesIndex MetricColumns

variable {V : Type*}

/-! ## Row groups -/

/-- What the file keeps about a string column of a row group: the least and greatest value,
and a bloom filter. -/
structure StringChunk (values : List (Option String)) where
  bounds : Option (String × String)
  bloom : Option (String → Bool)
  bounds_sound : ∀ b ∈ bounds, ∀ s, some s ∈ values → b.1 ≤ s ∧ s ≤ b.2
  bloom_sound : ∀ f ∈ bloom, ∀ s, some s ∈ values → f s = true

/-- The column may hold the value. Bounds decide; without them, the bloom filter. -/
def StringChunk.mayHold {values : List (Option String)} (c : StringChunk values)
    (value : String) : Bool :=
  match c.bounds with
  | some b => ¬ (value < b.1 ∨ b.2 < value)
  | none =>
    match c.bloom with
    | some f => f value
    | none => true

theorem StringChunk.mayHold_of_mem {values : List (Option String)} (c : StringChunk values)
    {value : String} (h : some value ∈ values) : c.mayHold value = true := by
  unfold mayHold
  cases hb : c.bounds with
  | some b =>
    obtain ⟨hlo, hhi⟩ := c.bounds_sound b hb value h
    exact decide_eq_true (not_or.mpr ⟨not_lt.mpr hlo, not_lt.mpr hhi⟩)
  | none =>
    cases hf : c.bloom with
    | some f => exact c.bloom_sound f hf value h
    | none => rfl

structure TimeChunk (values : List Int) where
  bounds : Option (Int × Int)
  sound : ∀ b ∈ bounds, ∀ t ∈ values, b.1 ≤ t ∧ t ≤ b.2

def TimeChunk.mayOverlap {values : List Int} (c : TimeChunk values) (startNs endNs : Int) : Bool :=
  match c.bounds with
  | some b => startNs ≤ b.2 ∧ b.1 ≤ endNs
  | none => true

theorem TimeChunk.mayOverlap_of_mem {values : List Int} (c : TimeChunk values) {t : Int}
    (h : t ∈ values) {startNs endNs : Int} (hs : startNs ≤ t) (he : t ≤ endNs) :
    c.mayOverlap startNs endNs = true := by
  unfold mayOverlap
  cases hb : c.bounds with
  | some b =>
    obtain ⟨hlo, hhi⟩ := c.sound b hb t h
    exact decide_eq_true ⟨hs.trans hhi, hlo.trans he⟩
  | none => rfl

/-- A row group with what the file keeps about the columns a scan prunes by. -/
structure RowGroup (V : Type*) where
  rows : List (MetricColumns V)
  timestamps : TimeChunk (rows.map timestampNs)
  metricName : StringChunk (rows.map fun r => some r.metricName)
  serviceName : StringChunk (rows.map fun r => r.correlation.serviceName)

def rowGroupsInRange (groups : List (RowGroup V)) (startNs endNs : Int) : List (RowGroup V) :=
  groups.filter fun g => g.timestamps.mayOverlap startNs endNs

def rowGroupsMatchingValue (groups : List (RowGroup V)) (column : RowGroup V → String → Bool)
    (value : String) : List (RowGroup V) :=
  if value = "" then groups else groups.filter fun g => column g value

/-! ## Scans -/

structure MetricScan (V : Type*) where
  points : List (DataPoint V)
  rowsConsidered : ℕ
deriving DecidableEq

def inWindow (startNs endNs t : Int) : Bool := startNs ≤ t ∧ t ≤ endNs

/-- The row is in the window and of the metric; an empty name means every metric. -/
def considered (metric : String) (startNs endNs : Int) (row : MetricColumns V) : Bool :=
  inWindow startNs endNs row.timestampNs && (metric = "" || row.metricName = metric)

def MetricColumns.point (row : MetricColumns V) : DataPoint V :=
  ⟨row.timestampNs, row.value, row.reported⟩

def scanRows (metric : String) (startNs endNs : Int) (sel : SeriesSelector)
    (rows : List (MetricColumns V)) : MetricScan V :=
  let rows := rows.filter (considered metric startNs endNs)
  ⟨(rows.filter fun row => sel.accepts row.reported).map point, rows.length⟩

def scanBlockRows (groups : List (RowGroup V)) (metric : String) (startNs endNs : Int)
    (sel : SeriesSelector) : MetricScan V :=
  let groups := rowGroupsInRange groups startNs endNs
  let groups := rowGroupsMatchingValue groups (fun g => g.metricName.mayHold) metric
  let groups := match sel.service with
    | some service => rowGroupsMatchingValue groups (fun g => g.serviceName.mayHold) service
    | none => groups
  scanRows metric startNs endNs sel (groups.flatMap RowGroup.rows)

def scanBatchRows : ℕ := 8192

def rowRanges (ix : SeriesIndex) (ids : List ℕ) : List (ℕ × ℕ) :=
  mergeRanges ((ids.filterMap fun id => ix.series[id]?).map fun s => (s.start, s.start + s.rows))

/-- The points of a slice of a series' rows. A series wholly inside the window needs no check
of its rows. -/
def slicePoints (startNs endNs : Int) (s : SeriesEntry) (rows : List (MetricColumns V)) :
    List (DataPoint V) :=
  let inside : Bool := startNs ≤ s.minTs ∧ s.maxTs ≤ endNs
  (rows.filter fun r => inside || inWindow startNs endNs r.timestampNs).map fun r =>
    ⟨r.timestampNs, r.value, s.labels⟩

/-- The rows of one batch, handed to the series they belong to. `pending` has the series that
are not complete yet, each with the number of rows it still lacks. -/
def takeBatch (startNs endNs : Int) : List (SeriesEntry × ℕ) → List (MetricColumns V) →
    Except Error (List (SeriesEntry × ℕ) × List (DataPoint V))
  | pending, [] => .ok (pending, [])
  | [], _ :: _ => .error (.internal "block holds more selected rows than its series table lists")
  | (s, left) :: pending, rows =>
    if rows.length < left then
      .ok ((s, left - rows.length) :: pending, slicePoints startNs endNs s rows)
    else do
      let (pending, points) ← takeBatch startNs endNs pending (rows.drop left)
      .ok (pending, slicePoints startNs endNs s (rows.take left) ++ points)

def takeBatches (startNs endNs : Int) : List (SeriesEntry × ℕ) → List (List (MetricColumns V)) →
    Except Error (List (DataPoint V))
  | [], [] => .ok []
  | _ :: _, [] => .error (.internal "block holds fewer selected rows than its series table lists")
  | pending, batch :: batches => do
    let (pending, points) ← takeBatch startNs endNs pending batch
    let rest ← takeBatches startNs endNs pending batches
    .ok (points ++ rest)

def scanBlockIndexed (groups : List (RowGroup V)) (ix : SeriesIndex) (metric : String)
    (startNs endNs : Int) (sel : SeriesSelector) : Except Error (MetricScan V) :=
  let ids := ix.select metric sel startNs endNs
  if ids = [] then .ok ⟨[], 0⟩
  else
    let rows := groups.map RowGroup.rows
    let selected := readPlan rows (planSelection (rows.map List.length) (rowRanges ix ids))
    let pending := (ids.filterMap fun id => ix.series[id]?).map fun s => (s, s.rows)
    match takeBatches startNs endNs pending (selected.foldl (addRow scanBatchRows) []) with
    | .error e => .error e
    | .ok points => .ok ⟨points, points.length⟩

/-- A scan of a block with or without a table; a table that disagrees with its file costs speed. -/
def scanBlockFiltered (groups : List (RowGroup V)) (series : Option SeriesIndex) (metric : String)
    (startNs endNs : Int) (sel : SeriesSelector) : MetricScan V :=
  match series with
  | none => scanBlockRows groups metric startNs endNs sel
  | some ix =>
    match scanBlockIndexed groups ix metric startNs endNs sel with
    | .ok scan => scan
    | .error _ => scanBlockRows groups metric startNs endNs sel

def decodeBlock (rows : List (MetricColumns V)) (metric : String) (startNs endNs : Int)
    (accepts : LabelSet → Bool) : List (DataPoint V) :=
  (rows.filter fun row => considered metric startNs endNs row && accepts row.reported).map
    point

/-! ## Handing rows to their series -/

section
variable {startNs endNs : Int}

theorem slicePoints_append (s : SeriesEntry) (a b : List (MetricColumns V)) :
    slicePoints startNs endNs s (a ++ b) =
      slicePoints startNs endNs s a ++ slicePoints startNs endNs s b := by
  simp only [slicePoints, filter_append, map_append]

abbrev Open (V : Type*) := SeriesEntry × List (MetricColumns V)

theorem takeBatch_cons (s : SeriesEntry) (left : ℕ) (pending : List (SeriesEntry × ℕ))
    (r : MetricColumns V) (rows : List (MetricColumns V)) :
    takeBatch startNs endNs ((s, left) :: pending) (r :: rows) =
      if (r :: rows).length < left then
        .ok ((s, left - (r :: rows).length) :: pending, slicePoints startNs endNs s (r :: rows))
      else (takeBatch startNs endNs pending ((r :: rows).drop left)).bind fun (pending, points) =>
        .ok (pending, slicePoints startNs endNs s ((r :: rows).take left) ++ points) :=
  rfl

theorem takeBatch_spec {opens : List (Open V)} (hne : ∀ o ∈ opens, o.2 ≠ [])
    {batch rest : List (MetricColumns V)} (h : batch ++ rest = opens.flatMap Prod.snd) :
    ∃ (opens' : List (Open V)) (points : List (DataPoint V)), (∀ o ∈ opens', o.2 ≠ []) ∧
      takeBatch startNs endNs (opens.map fun o => (o.1, o.2.length)) batch =
        .ok (opens'.map fun o => (o.1, o.2.length), points) ∧
      rest = opens'.flatMap Prod.snd ∧
      (opens.flatMap fun o => slicePoints startNs endNs o.1 o.2) =
        points ++ opens'.flatMap fun o => slicePoints startNs endNs o.1 o.2 := by
  induction opens generalizing batch with
  | nil =>
    obtain ⟨rfl, rfl⟩ := append_eq_nil_iff.mp h
    exact ⟨[], [], nofun, rfl, rfl, rfl⟩
  | cons o opens ih =>
    obtain ⟨s, rows⟩ := o
    obtain ⟨hrows, hopens⟩ := forall_mem_cons.mp hne
    cases batch with
    | nil =>
      exact ⟨(s, rows) :: opens, [], forall_mem_cons.mpr ⟨hrows, hopens⟩,
        by rw [map_cons, takeBatch], h, rfl⟩
    | cons r batch =>
      rw [flatMap_cons] at h
      rw [map_cons, takeBatch_cons]
      split_ifs with hlt
      · -- the batch ends within this series
        obtain ⟨left, rfl⟩ := prefix_of_prefix_length_le (prefix_append _ rest)
          (by rw [h]; exact prefix_append _ _) hlt.le
        rw [append_assoc, append_cancel_left_eq] at h
        refine ⟨(s, left) :: opens, slicePoints startNs endNs s (r :: batch),
          forall_mem_cons.mpr ⟨?_, hopens⟩, ?_, ?_, ?_⟩
        · rintro rfl
          simp at hlt
        · rw [length_append, Nat.add_sub_cancel_left]
          rfl
        · rw [h, flatMap_cons]
        · rw [flatMap_cons, flatMap_cons, slicePoints_append, append_assoc]
      · obtain ⟨more, hmore⟩ := prefix_of_prefix_length_le
          (prefix_append rows (opens.flatMap Prod.snd))
          (by rw [← h]; exact prefix_append _ _) (not_lt.mp hlt)
        rw [← hmore, append_assoc, append_cancel_left_eq] at h
        obtain ⟨opens', points, hne', htake, hrest, hpoints⟩ := ih hopens h
        refine ⟨opens', slicePoints startNs endNs s rows ++ points, hne', ?_, hrest, ?_⟩
        · rw [← hmore, drop_left, take_left, htake]
          rfl
        · rw [flatMap_cons, hpoints, append_assoc]

/-- **All batches**: every series gets its rows, wherever the batches are cut. -/
theorem takeBatches_spec {opens : List (Open V)} (hne : ∀ o ∈ opens, o.2 ≠ [])
    {batches : List (List (MetricColumns V))} (h : batches.flatten = opens.flatMap Prod.snd) :
    takeBatches startNs endNs (opens.map fun o => (o.1, o.2.length)) batches =
      .ok (opens.flatMap fun o => slicePoints startNs endNs o.1 o.2) := by
  induction batches generalizing opens with
  | nil =>
    cases opens with
    | nil => rfl
    | cons o opens =>
      exact absurd (append_eq_nil_iff.mp h.symm).1 (hne o mem_cons_self)
  | cons batch batches ih =>
    obtain ⟨opens', points, hne', htake, hrest, hpoints⟩ :=
      takeBatch_spec hne ((flatten_cons (l := batch) (L := batches)).symm.trans h)
    have hlater := ih hne' hrest
    rw [takeBatches, htake]
    show (takeBatches startNs endNs (opens'.map fun o => (o.1, o.2.length)) batches).bind _ = _
    rw [hlater, hpoints]
    rfl

end

/-! ## The rows of the selected series -/

section
variable {metric : String} {startNs endNs : Int} {sel : SeriesSelector}

def SeriesRows.chosen (metric : String) (startNs endNs : Int) (sel : SeriesSelector)
    (s : SeriesRows V) : Bool :=
  (metric = "" || s.name = metric) &&
    (s.entry.minTs ≤ endNs && startNs ≤ s.entry.maxTs && sel.accepts s.entry.labels)

def SeriesRows.range (s : SeriesRows V) : ℕ × ℕ := (s.entry.start, s.entry.start + s.entry.rows)

variable {row : ℕ} {ss : List (SeriesRows V)}

theorem Laid.bounds (h : Laid row ss) :
    (∀ s ∈ ss, row ≤ s.entry.start ∧ s.entry.rows = s.rows.length ∧ s.Uniform) ∧
      ss.Pairwise fun a b => a.range.2 ≤ b.range.1 := by
  induction ss generalizing row with
  | nil => exact ⟨nofun, .nil⟩
  | cons s ss ih =>
    obtain ⟨hstart, hrows, hs, hrest⟩ := h
    obtain ⟨hall, hpair⟩ := ih hrest
    refine ⟨forall_mem_cons.mpr ⟨⟨hstart.ge, hrows, hs⟩, fun t ht => ?_⟩,
      pairwise_cons.mpr ⟨fun t ht => ?_, hpair⟩⟩ <;> have ht := hall t ht
    · exact ⟨by omega, ht.2⟩
    · show s.entry.start + s.entry.rows ≤ t.entry.start
      omega

theorem Laid.ranges (h : Laid row ss) (f : SeriesRows V → Bool) :
    Ranges ((ss.filter f).map SeriesRows.range) := by
  refine ⟨pairwise_map.mpr (h.bounds.2.filter f), ?_⟩
  rintro _ hr
  obtain ⟨s, -, rfl⟩ := mem_map.mp hr
  exact le_add_right _ _

theorem Laid.inRanges (h : Laid row ss) (f : SeriesRows V → Bool) {s : SeriesRows V} (hs : s ∈ ss)
    {k : ℕ} (hk : k < s.rows.length) :
    Lib.inRanges ((ss.filter f).map SeriesRows.range) (s.entry.start + k) = f s := by
  obtain ⟨hall, hpair⟩ := h.bounds
  have hrows := (hall s hs).2.1
  rw [Bool.eq_iff_iff, inRanges_iff]
  constructor
  · rintro ⟨_, hr, hlo, hhi⟩
    obtain ⟨t, ht, rfl⟩ := mem_map.mp hr
    obtain ⟨ht, hf⟩ := mem_filter.mp ht
    by_cases hst : s = t
    · rwa [hst]
    · -- different series have disjoint rows
      have hapart := @List.Pairwise.forall _
        (fun a b : SeriesRows V => a.range.2 ≤ b.range.1 ∨ b.range.2 ≤ a.range.1) ss
        ⟨fun _ _ => Or.symm⟩ (hpair.imp Or.inl) _ hs _ ht hst
      simp only [SeriesRows.range] at hlo hhi hapart
      omega
  · intro hf
    refine ⟨s.range, mem_map_of_mem (mem_filter.mpr ⟨hs, hf⟩), le_add_right _ _, ?_⟩
    show s.entry.start + k < s.entry.start + s.entry.rows
    omega

theorem Laid.rowsWhere (h : Laid row ss) {p : ℕ → Bool} {f : SeriesRows V → Bool}
    (hp : ∀ s ∈ ss, ∀ k < s.rows.length, p (s.entry.start + k) = f s) :
    Lib.rowsWhere p row (ss.flatMap rows) = (ss.filter f).flatMap rows := by
  induction ss generalizing row with
  | nil => rfl
  | cons s ss ih =>
    obtain ⟨rfl, -, -, hrest⟩ := h
    obtain ⟨hs, hss⟩ := forall_mem_cons.mp hp
    rw [flatMap_cons, rowsWhere_append, ih hrest hss, filter_cons]
    split_ifs with hf
    · rw [rowsWhere_all fun k hk => (hs k hk).trans hf, flatMap_cons]
    · rw [rowsWhere_none fun k hk => (hs k hk).trans (Bool.not_eq_true _ ▸ hf), nil_append]

theorem decode_series (metric : String) (startNs endNs : Int) (sel : SeriesSelector)
    {s : SeriesRows V} (h : s.Uniform) :
    decodeBlock s.rows metric startNs endNs sel.accepts =
      if s.chosen metric startNs endNs sel then slicePoints startNs endNs s.entry s.rows
      else [] := by
  have hrow : ∀ r ∈ s.rows, (considered metric startNs endNs r && sel.accepts r.reported) =
      (s.chosen metric startNs endNs sel &&
        (decide (startNs ≤ s.entry.minTs ∧ s.entry.maxTs ≤ endNs)
        || inWindow startNs endNs r.timestampNs)) := by
    intro r hr
    have hmin := h.minTs r hr
    have hmax := h.maxTs r hr
    rw [Bool.eq_iff_iff, considered, chosen, h.name r hr, h.labels r hr]
    simp only [inWindow, Bool.and_eq_true, Bool.or_eq_true, decide_eq_true_eq]
    constructor
    · rintro ⟨⟨⟨hs, he⟩, hm⟩, ha⟩
      exact ⟨⟨hm, ⟨hmin.trans he, hs.trans hmax⟩, ha⟩, .inr ⟨hs, he⟩⟩
    · rintro ⟨⟨hm, -, ha⟩, ⟨hs, he⟩ | hw⟩
      · exact ⟨⟨⟨hs.trans hmin, hmax.trans he⟩, hm⟩, ha⟩
      · exact ⟨⟨hw, hm⟩, ha⟩
  rw [decodeBlock, filter_congr hrow]
  split_ifs with hc
  · simp only [hc, Bool.true_and]
    refine map_congr_left fun r hr => ?_
    rw [point, h.labels r (mem_filter.mp hr).1]
  · simp only [hc, Bool.false_and, filter_false, map_nil]

theorem decode_laid (h : Laid row ss) :
    decodeBlock (ss.flatMap rows) metric startNs endNs sel.accepts =
      (ss.filter (chosen metric startNs endNs sel)).flatMap fun s =>
        slicePoints startNs endNs s.entry s.rows := by
  induction ss generalizing row with
  | nil => rfl
  | cons s ss ih =>
    obtain ⟨-, -, hs, hrest⟩ := h
    rw [flatMap_cons, decodeBlock, filter_append, map_append, ← decodeBlock,
      ← decodeBlock, decode_series metric startNs endNs sel hs, ih hrest, filter_cons]
    split_ifs <;> rfl

end

/-! ## The two scans of a block -/

/-- A file that holds the block of the given runs, however its rows are grouped. -/
structure MetricFile (runs : List (MetricRun V)) where
  groups : List (RowGroup V)
  rows_eq : groups.flatMap RowGroup.rows = (metricRunsToBlock runs).1

section
variable {runs : List (MetricRun V)} {metric : String} {startNs endNs : Int} {sel : SeriesSelector}
  {ix : SeriesIndex}

section
variable (hseries : ix.series = (runSeries 0 runs).map entry)
include hseries

theorem select_eq (hranges : ix.metricRanges = runRanges 0 runs) (metric : String)
    (sel : SeriesSelector) (startNs endNs : Int) : ix.select metric sel startNs endNs =
      (List.range (runSeries 0 runs).length).filter fun id => (runSeries 0 runs)[id]?.any fun s =>
        s.chosen metric startNs endNs sel && sel.narrows s.entry.labels := by
  rw [ix.select_spec, hseries, length_map]
  refine filter_congr fun k hk => ?_
  have hs := getElem?_eq_getElem (mem_range.mp hk)
  have hmetric : ix.ofMetric metric k = (metric = "" || ((runSeries 0 runs)[k]?).any fun s =>
      s.name = metric : Bool) := by
    rw [ofMetric, hranges]
    congr 1
    rw [Bool.eq_iff_iff, any_eq_true]
    simp only [decide_eq_true_eq]
    rw [mem_runRanges runs 0 0, Nat.sub_zero, hs]
    simp
  rw [selects, hmetric, wanted, hseries, getElem?_map, hs]
  rfl

theorem entries_filter (f : SeriesRows V → Bool) :
    (((List.range (runSeries 0 runs).length).filter fun id =>
      (runSeries 0 runs)[id]?.any f).filterMap
      fun id => ix.series[id]?) = ((runSeries 0 runs).filter f).map entry := by
  rw [hseries]
  simp only [getElem?_map]
  rw [← map_filterMap, filterMap_range]
  congr 1
  refine rowsWhere_eq_filter fun k s hs => ?_
  rw [zero_add, hs, Option.any_some]

theorem select_entries (hranges : ix.metricRanges = runRanges 0 runs) (hsound : sel.Sound)
    (metric : String) (startNs endNs : Int) :
    ((ix.select metric sel startNs endNs).filterMap fun id => ix.series[id]?) =
      ((runSeries 0 runs).filter (chosen metric startNs endNs sel)).map
        entry := by
  rw [select_eq hseries hranges, entries_filter hseries]
  congr 1
  refine filter_congr fun s _ => Bool.and_eq_left_iff_imp.mpr fun h => hsound.narrows ?_
  simp only [chosen, Bool.and_eq_true] at h
  exact h.2.2

end

theorem rowRanges_eq {ids : List ℕ} {f : SeriesRows V → Bool}
    (hids : (ids.filterMap fun id => ix.series[id]?) = ((runSeries 0 runs).filter f).map entry) :
    rowRanges ix ids = mergeRanges (((runSeries 0 runs).filter f).map SeriesRows.range) := by
  rw [rowRanges, hids, map_map]
  rfl

/-- **Selection in the table of a block** finds the series that a test of each one finds, and the
rows to read are those of these series, in ranges with gaps between them. -/
theorem select_brute_force (runs : List (MetricRun V)) :
    ∃ ix, fromTable (metricRunsToBlock runs).2 = .ok ix ∧
      ∀ metric sel startNs endNs,
        let test (s : SeriesRows V) := s.chosen metric startNs endNs sel &&
          sel.narrows s.entry.labels
        let ids := ix.select metric sel startNs endNs
        ids = ((List.range (runSeries 0 runs).length).filter fun id =>
          (runSeries 0 runs)[id]?.any test) ∧ Apart (rowRanges ix ids) ∧
        ∀ i, inRanges (rowRanges ix ids) i = true ↔
          ∃ s ∈ runSeries 0 runs, test s = true ∧ s.range.1 ≤ i ∧ i < s.range.2 := by
  obtain ⟨ix, hix, hseries, hranges, -⟩ :=
    (describeRuns_holds 0 runs SeriesTable.Holds.new).fromTable
  refine ⟨ix, hix, fun metric sel startNs endNs => ?_⟩
  have hselect := select_eq hseries hranges metric sel startNs endNs
  refine ⟨hselect, ?_⟩
  obtain ⟨hlaid, -⟩ := runSeries_laid runs 0
  have hrows := rowRanges_eq (entries_filter hseries fun s =>
    s.chosen metric startNs endNs sel && sel.narrows s.entry.labels)
  obtain ⟨-, hin⟩ := mergeRanges_spec (hlaid.ranges _)
  rw [hselect, hrows]
  refine ⟨apart_mergeRanges (hlaid.ranges _) fun r hr => ?_, fun i => ?_⟩
  · obtain ⟨s, hs, rfl⟩ := mem_map.mp hr
    obtain ⟨-, hlen, huni⟩ := hlaid.bounds.1 s (mem_filter.mp hs).1
    have hpos := length_pos_iff.mpr huni.ne
    show s.entry.start < s.entry.start + s.entry.rows
    omega
  · rw [hin, inRanges_iff]
    simp only [mem_map, exists_exists_and_eq_and]
    simp only [mem_filter, and_assoc]

theorem read_selected (file : MetricFile runs) {ids : List ℕ} {f : SeriesRows V → Bool}
    (hids : (ids.filterMap fun id => ix.series[id]?) = ((runSeries 0 runs).filter f).map entry) :
    readPlan (file.groups.map RowGroup.rows)
        (planSelection ((file.groups.map RowGroup.rows).map List.length) (rowRanges ix ids)) =
      ((runSeries 0 runs).filter f).flatMap rows := by
  obtain ⟨hlaid, hrows⟩ := runSeries_laid runs 0
  obtain ⟨hmerged, hin⟩ := mergeRanges_spec (hlaid.ranges f)
  rw [rowRanges_eq hids, readPlan_planSelection _ hmerged.ascending, ← flatMap_def, file.rows_eq]
  show Lib.rowsWhere _ 0 (metricRunsToChunk runs) = _
  rw [← hrows]
  exact hlaid.rowsWhere fun s hs k hk => (hin _).trans (hlaid.inRanges f hs hk)

/-- **The scan through the table** returns what decoding every row does. -/
theorem scanBlockIndexed_eq (file : MetricFile runs)
    (hseries : ix.series = (runSeries 0 runs).map entry)
    (hranges : ix.metricRanges = runRanges 0 runs) (hsound : sel.Sound) (metric : String)
    (startNs endNs : Int) :
    ∃ scan, scanBlockIndexed file.groups ix metric startNs endNs sel = .ok scan ∧ scan.points =
        decodeBlock (metricRunsToBlock runs).1 metric startNs endNs sel.accepts := by
  obtain ⟨hlaid, hrows⟩ := runSeries_laid runs 0
  have hentries := select_entries hseries hranges hsound metric startNs endNs
  have hread := read_selected file hentries
  have hdecode : decodeBlock (metricRunsToBlock runs).1 metric startNs endNs sel.accepts = _ :=
    (congrArg (decodeBlock · metric startNs endNs sel.accepts) hrows.symm).trans (decode_laid hlaid)
  rw [hdecode, scanBlockIndexed]
  generalize hids : ix.select metric sel startNs endNs = ids at hentries hread ⊢
  generalize hchosen : (runSeries 0 runs).filter (chosen metric startNs endNs sel) =
    chosen at hentries hread ⊢
  dsimp only
  split_ifs with hnil
  · rw [hnil] at hentries
    rw [map_eq_nil_iff.mp hentries.symm]
    exact ⟨_, rfl, rfl⟩
  · have hopen : ∀ s ∈ chosen, s.entry.rows = s.rows.length ∧ s.rows ≠ [] := by
      rw [← hchosen]
      intro s hs
      obtain ⟨-, hlen, huni⟩ := hlaid.bounds.1 s (mem_filter.mp hs).1
      exact ⟨hlen, huni.ne⟩
    have hpending : ((ids.filterMap fun id => ix.series[id]?).map fun s => (s, s.rows)) =
        (chosen.map fun s => (s.entry, s.rows)).map fun o => (o.1, o.2.length) := by
      rw [hentries, map_map, map_map]
      exact map_congr_left fun s hs => congrArg (s.entry, ·) (hopen s hs).1
    have hbatches : ((chosen.flatMap rows).foldl (addRow scanBatchRows) []).flatten =
        (chosen.map fun s => (s.entry, s.rows)).flatMap Prod.snd := by
      rw [flatten_foldl_addRow, flatMap_map]
      rfl
    rw [hread, hpending,
      takeBatches_spec (forall_mem_map.mpr fun s hs => (hopen s hs).2) hbatches,
      flatMap_map]
    exact ⟨_, rfl, rfl⟩

theorem decodeBlock_flatMap {G : Type*} (rows : G → List (MetricColumns V)) (groups : List G)
    (metric : String) (startNs endNs : Int) (accepts : LabelSet → Bool) :
    decodeBlock (groups.flatMap rows) metric startNs endNs accepts =
      groups.flatMap fun g => decodeBlock (rows g) metric startNs endNs accepts := by
  simp only [decodeBlock, filter_flatMap, map_flatMap]

theorem scanRows_points (rows : List (MetricColumns V)) (metric : String) (startNs endNs : Int)
    (sel : SeriesSelector) : (scanRows metric startNs endNs sel rows).points =
      decodeBlock rows metric startNs endNs sel.accepts := by
  simp only [scanRows, decodeBlock, filter_filter, Bool.and_comm]

theorem rowGroupsMatchingValue_eq (groups : List (RowGroup V)) (column : RowGroup V → String → Bool)
    (value : String) : rowGroupsMatchingValue groups column value =
      groups.filter fun g => value = "" || column g value := by
  unfold rowGroupsMatchingValue
  split_ifs with h <;> simp [h]

def RowGroup.servesAs (g : RowGroup V) (service : Option String) : Bool :=
  service.all fun svc => svc = "" || g.serviceName.mayHold svc

theorem scanBlockRows_points (groups : List (RowGroup V)) (metric : String) (startNs endNs : Int)
    (sel : SeriesSelector) : (scanBlockRows groups metric startNs endNs sel).points =
      (groups.filter fun g => g.servesAs sel.service &&
        ((metric = "" || g.metricName.mayHold metric)
        && g.timestamps.mayOverlap startNs endNs)).flatMap fun g =>
          decodeBlock g.rows metric startNs endNs sel.accepts := by
  rw [scanBlockRows, scanRows_points, decodeBlock_flatMap]
  rw [← filter_filter, ← filter_filter]
  cases sel.service with
  | none => simp [RowGroup.servesAs, rowGroupsMatchingValue_eq, rowGroupsInRange]
  | some svc => simp only [RowGroup.servesAs, rowGroupsMatchingValue_eq, rowGroupsInRange,
      Option.all_some]

theorem RowGroup.kept_of_considered {g : RowGroup V} {row : MetricColumns V} (hrow : row ∈ g.rows)
    (h : considered metric startNs endNs row = true) :
    ((metric = "" || g.metricName.mayHold metric) && g.timestamps.mayOverlap startNs endNs) =
      true := by
  rw [considered, Bool.and_eq_true] at h
  obtain ⟨hs, he⟩ := of_decide_eq_true h.1
  rw [g.timestamps.mayOverlap_of_mem (mem_map_of_mem hrow) hs he, Bool.and_true]
  rcases (Bool.or_eq_true _ _).mp h.2 with hm | hm
  · rw [hm, Bool.true_or]
  · have hmem : some metric ∈ g.rows.map fun r => some r.metricName :=
      mem_map.mpr ⟨row, hrow, congrArg some (of_decide_eq_true hm)⟩
    rw [g.metricName.mayHold_of_mem hmem, Bool.or_true]

/-- No group with a row of the result is dropped for its service name column. -/
def ServiceKept (groups : List (RowGroup V)) (metric : String) (startNs endNs : Int)
    (sel : SeriesSelector) : Prop :=
  ∀ g ∈ groups, decodeBlock g.rows metric startNs endNs sel.accepts ≠ [] →
    g.servesAs sel.service = true

/-- For a group with a row of the result only the service name column can decide. -/
theorem kept_iff_servesAs {g : RowGroup V}
    (hne : decodeBlock g.rows metric startNs endNs sel.accepts ≠ []) :
    (g.servesAs sel.service && ((metric = "" || g.metricName.mayHold metric) &&
      g.timestamps.mayOverlap startNs endNs)) = g.servesAs sel.service := by
  obtain ⟨p, hp⟩ := exists_mem_of_ne_nil _ hne
  obtain ⟨row, hrow, -⟩ := mem_map.mp hp
  obtain ⟨hrow, hgood⟩ := mem_filter.mp hrow
  rw [RowGroup.kept_of_considered hrow ((Bool.and_eq_true _ _).mp hgood).1, Bool.and_true]

/-- **The scan without a table** returns what decoding every row does exactly if no group is
wrongly dropped for its service name column. -/
theorem scanBlockRows_perm (groups : List (RowGroup V)) (metric : String) (startNs endNs : Int)
    (sel : SeriesSelector) :
    (scanBlockRows groups metric startNs endNs sel).points.Perm
        (decodeBlock (groups.flatMap RowGroup.rows) metric startNs endNs sel.accepts) ↔
      ServiceKept groups metric startNs endNs sel := by
  rw [scanBlockRows_points, decodeBlock_flatMap, flatMap_filter_perm]
  exact forall₂_congr fun g _ => forall_congr' fun hne => by rw [kept_iff_servesAs hne]

theorem scanBlockRows_eq {groups : List (RowGroup V)}
    (h : ServiceKept groups metric startNs endNs sel) :
    (scanBlockRows groups metric startNs endNs sel).points =
      decodeBlock (groups.flatMap RowGroup.rows) metric startNs endNs sel.accepts := by
  rw [scanBlockRows_points, decodeBlock_flatMap]
  exact flatMap_filter_eq fun g hg hne => by rw [kept_iff_servesAs hne, h g hg hne]

end

/-! ## Damaged tables -/

/-- The series of a table, in order, divide the rows of its block, no end of a range overflows,
and the rows that are read for some series are theirs. -/
structure SeriesIndex.Tiles (ix : SeriesIndex) (rows : ℕ) : Prop where
  ascending : ix.series.Pairwise fun a b => a.start + a.rows ≤ b.start
  inside : ∀ s ∈ ix.series, s.start + s.rows ≤ rows ∧ s.start + s.rows < 2 ^ 64
  covered : ∀ i < rows, ∃ s ∈ ix.series, s.start ≤ i ∧ i < s.start + s.rows
  selected : ∀ ids : List ℕ, ids.Pairwise (· < ·) → ∀ i, inRanges (rowRanges ix ids) i = true ↔
    ∃ s ∈ ids.filterMap fun id => ix.series[id]?, s.start ≤ i ∧ i < s.start + s.rows

variable {row hi : ℕ} {ss : List SeriesEntry}

theorem Follow.tiles (h : Follow row ss) :
    (ss.Pairwise fun a b => a.start + a.rows ≤ b.start) ∧
      (∀ s ∈ ss, row ≤ s.start ∧ s.start + s.rows ≤ row + (ss.map SeriesEntry.rows).sum) ∧
      ∀ i, row ≤ i → i < row + (ss.map SeriesEntry.rows).sum →
        ∃ s ∈ ss, s.start ≤ i ∧ i < s.start + s.rows := by
  induction ss generalizing row with
  | nil => simp
  | cons s ss ih =>
    obtain ⟨hstart, hrest⟩ := h
    obtain ⟨hasc, hin, hcov⟩ := ih hrest
    simp only [pairwise_cons, mem_cons, forall_eq_or_imp, map_cons, sum_cons, exists_eq_or_imp]
    refine ⟨⟨fun t ht => ?_, hasc⟩, ⟨by omega, fun t ht => ?_⟩, fun i hlo hhi => ?_⟩
    · have := hin t ht
      omega
    · have := hin t ht
      omega
    · by_cases hi : i < row + s.rows
      · exact .inl (by omega)
      · exact .inr (hcov i (by omega) (by omega))

theorem follow_of_ascending (hasc : ss.Pairwise fun a b => a.start + a.rows ≤ b.start)
    (hin : ∀ s ∈ ss, row ≤ s.start ∧ s.start + s.rows ≤ hi) (hle : row ≤ hi) :
    (ss.map SeriesEntry.rows).sum ≤ hi - row ∧
      (hi ≤ row + (ss.map SeriesEntry.rows).sum → Follow row ss) := by
  induction ss generalizing row with
  | nil => exact ⟨zero_le _, fun _ => trivial⟩
  | cons s ss ih =>
    obtain ⟨hs, hrest⟩ := forall_mem_cons.mp hin
    obtain ⟨hafter, hasc⟩ := pairwise_cons.mp hasc
    obtain ⟨hsum, hfollow⟩ := ih hasc (fun t ht => ⟨hafter t ht, (hrest t ht).2⟩) hs.2
    rw [map_cons, sum_cons]
    refine ⟨by omega, fun hfull => ?_⟩
    have hstart : s.start = row := by omega
    rw [Follow, ← hstart]
    exact ⟨rfl, hfollow (by omega)⟩

theorem totalRows_of_loadSeries {table : Option SeriesTable} {rows : ℕ} {ix : SeriesIndex}
    (h : loadSeries table rows = some ix) : (ix.series.map SeriesEntry.rows).sum = rows := by
  unfold loadSeries at h
  split at h
  · next index hindex =>
    split_ifs at h with hrows
    cases h
    obtain ⟨t, -, ht⟩ := Option.map_eq_some_iff.mp hindex
    unfold fromTable at ht
    split at ht
    · cases ht
    · split at ht
      · cases ht
      · cases ht
        exact hrows
  · cases h

/-- **A table that is accepted divides the rows exactly if** each series starts where the one
before it ends, which is not checked. -/
theorem series_tile_iff (table : SeriesTable) (rows : UInt64) :
    (∀ ix ∈ loadSeries (some table) rows.toNat, ix.Tiles rows.toNat) ↔
      ∀ ix ∈ loadSeries (some table) rows.toNat, Follow 0 ix.series := by
  refine forall_congr' fun ix => forall_congr' fun hix => ?_
  have hsum := totalRows_of_loadSeries hix
  have hrows := rows.toNat_lt
  constructor
  · intro h
    exact (follow_of_ascending h.ascending (fun s hs => ⟨zero_le _, (h.inside s hs).1⟩)
      (zero_le _)).2 (by omega)
  · intro h
    obtain ⟨hasc, hin, hcov⟩ := h.tiles
    rw [hsum, zero_add] at hin hcov
    refine ⟨hasc, fun s hs => ⟨(hin s hs).2, by have := hin s hs; omega⟩,
      fun i hi => hcov i (zero_le _) hi, fun ids hids i => ?_⟩
    have hranges : Ranges ((ids.filterMap fun id => ix.series[id]?).map fun s =>
        (s.start, s.start + s.rows)) := by
      refine ⟨pairwise_map.mpr
        (pairwise_filterMap.mpr (hids.imp fun {a b} hab s hs t ht => ?_)), ?_⟩
      · obtain ⟨ha, rfl⟩ := List.getElem?_eq_some_iff.mp hs
        obtain ⟨hb, rfl⟩ := List.getElem?_eq_some_iff.mp ht
        exact pairwise_iff_getElem.mp hasc a b ha hb hab
      · intro r hr
        obtain ⟨s, -, rfl⟩ := mem_map.mp hr
        exact le_add_right _ _
    rw [rowRanges, (mergeRanges_spec hranges).2, inRanges_iff]
    simp

def misplaced : SeriesTable := ⟨1, ["up"], [(0, 0, 1)], [5], [2], [0], [1], [[]]⟩

theorem misplaced_table_reads_outside :
    (loadSeries (some misplaced) 2).map (fun ix => rowRanges ix [0]) = some [(5, 7)] := by
  decide

end Parqtel.Storage
