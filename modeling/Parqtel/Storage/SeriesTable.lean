import Parqtel.Lib.Extent
import Parqtel.Lib.Outcome
import Parqtel.Lib.Update
import Parqtel.Storage.MetricColumns

/-!
# The series table of a metric block

A block's rows are written series after series, and the footer has a table of them: labels,
row range and time bounds of each, with every string stored once. Reading the table gives a
`SeriesIndex` with an inverted index from labels to series. An index carries what its
validation checked (the metrics' series ranges follow each other and cover the series) and
that its postings are those of its series. `loadSeries_block` says that the table written
with a block reads back as the block's series.
-/

open Parqtel.Lib List

namespace Parqtel.Storage

variable {V : Type*}

/-! ## The table -/

def seriesFormatVersion : ℕ := 1

/-- The table as the footer has it: parallel arrays, strings by id. -/
structure SeriesTable where
  v : ℕ
  strings : List String
  metrics : List (ℕ × ℕ × ℕ)
  start : List ℕ
  len : List ℕ
  minTs : List Int
  maxTs : List Int
  labels : List (List ℕ)
deriving DecidableEq, Repr

namespace SeriesTable

def new : SeriesTable := ⟨seriesFormatVersion, [], [], [], [], [], [], []⟩

def stringId (strings : List String) (s : String) : List String × ℕ :=
  if s ∈ strings then (strings, strings.idxOf s) else (strings ++ [s], strings.length)

def beginMetric (t : SeriesTable) (name : String) : SeriesTable :=
  let (strings, id) := stringId t.strings name
  { t with strings := strings, metrics := t.metrics ++ [(id, t.start.length, 0)] }

def flatten (strings : List String) : List (String × String) → List String × List ℕ
  | [] => (strings, [])
  | (k, v) :: rest =>
    let (strings, kid) := stringId strings k
    let (strings, vid) := stringId strings v
    let (strings, flat) := flatten strings rest
    (strings, kid :: vid :: flat)

def bumpLast : List (ℕ × ℕ × ℕ) → List (ℕ × ℕ × ℕ)
  | [] => []
  | [(name, first, count)] => [(name, first, count + 1)]
  | run :: runs => run :: bumpLast runs

def pushSeries (t : SeriesTable) (labels : LabelSet) (start rows : ℕ) (minTs maxTs : Int) :
    SeriesTable :=
  let (strings, flat) := flatten t.strings labels.entries
  { t with
    strings := strings
    start := t.start ++ [start]
    len := t.len ++ [rows]
    minTs := t.minTs ++ [minTs]
    maxTs := t.maxTs ++ [maxTs]
    labels := t.labels ++ [flat]
    metrics := bumpLast t.metrics }

end SeriesTable

def MetricRun.groups (run : MetricRun V) : List (List (DataPoint V)) :=
  run.points.splitBy fun a b => a.labels = b.labels

def describeSeries (service : Option String) :
    SeriesTable → ℕ → List (List (DataPoint V)) → SeriesTable
  | t, _, [] => t
  | t, row, [] :: groups => describeSeries service t row groups
  | t, row, (p :: ps) :: groups =>
    describeSeries service
      (t.pushSeries (mergedLabels p.labels service) row (p :: ps).length
        (ps.foldl (fun a q => min a q.timestampNs) p.timestampNs)
        (ps.foldl (fun a q => max a q.timestampNs) p.timestampNs))
      (row + (p :: ps).length) groups

def describeRuns : SeriesTable → ℕ → List (MetricRun V) → SeriesTable
  | t, _, [] => t
  | t, row, run :: runs =>
    if run.points = [] then describeRuns t row runs
    else
      describeRuns (describeSeries run.service (t.beginMetric run.name) row run.groups)
        (row + run.points.length) runs

def metricRunsToBlock (runs : List (MetricRun V)) : List (MetricColumns V) × SeriesTable :=
  (metricRunsToChunk runs, describeRuns .new 0 runs)

/-! ## The index -/

structure SeriesEntry where
  labels : LabelSet
  start : ℕ
  rows : ℕ
  minTs : Int
  maxTs : Int
deriving DecidableEq

def Follow : ℕ → List SeriesEntry → Prop
  | _, [] => True
  | row, s :: ss => s.start = row ∧ Follow (row + s.rows) ss

/-- Runs of series ids that follow each other from `next` to `n`. -/
def RunsFrom {α : Type*} (next : ℕ) : List (α × ℕ × ℕ) → ℕ → Prop
  | [], n => next = n
  | (_, lo, hi) :: runs, n => lo = next ∧ lo ≤ hi ∧ RunsFrom hi runs n

def postingsOf : ℕ → List SeriesEntry → List (String × String × ℕ)
  | _, [] => []
  | i, e :: es => e.labels.entries.map (fun kv => (kv.1, kv.2, i)) ++ postingsOf (i + 1) es

/-- A block's series, with the series ids of each metric and of each label. -/
structure SeriesIndex where
  series : List SeriesEntry
  metricRanges : List (String × ℕ × ℕ)
  postings : List (String × String × ℕ)
  totalRows : ℕ
  ranges_cover : RunsFrom 0 metricRanges series.length
  postings_eq : postings = postingsOf 0 series

variable {next n : ℕ} {t : SeriesTable} {strings : List String} {es : List SeriesEntry}

namespace SeriesTable

def bad (what : String) : Error := .internal s!"corrupt series index: {what}"

/-- The series ids of a table's runs: contiguous, and with the id of each name known. -/
def runsFrom (strings : ℕ) : ℕ → List (ℕ × ℕ × ℕ) → Except Error ℕ
  | next, [] => .ok next
  | next, (name, first, count) :: runs =>
    if strings ≤ name ∨ first ≠ next then .error (bad "metric runs are not contiguous")
    else runsFrom strings (first + count) runs

def validate (t : SeriesTable) : Except Error Unit :=
  let n := t.start.length
  if t.v ≠ seriesFormatVersion then .error (bad "unsupported version")
  else if t.len.length ≠ n ∨ t.minTs.length ≠ n ∨ t.maxTs.length ≠ n ∨ t.labels.length ≠ n then
    .error (bad "array lengths differ")
  else if t.labels.any fun l => l.length % 2 ≠ 0 ∨ l.any fun id => t.strings.length ≤ id then
    .error (bad "label id out of range")
  else match runsFrom t.strings.length 0 t.metrics with
    | .error e => .error e
    | .ok next =>
      if next ≠ n then .error (bad "metric runs do not cover the series") else .ok ()

def unflatten (strings : List String) : List ℕ → List (String × String)
  | k :: v :: flat => (strings.getD k "", strings.getD v "") :: unflatten strings flat
  | _ => []

def entries (strings : List String) :
    List ℕ → List ℕ → List Int → List Int → List (List ℕ) → Except Error (List SeriesEntry)
  | start :: starts, len :: lens, lo :: los, hi :: his, flat :: flats => do
    let labels ← LabelSet.tryFromIter (unflatten strings flat)
    let rest ← entries strings starts lens los his flats
    .ok (⟨labels, start, len, lo, hi⟩ :: rest)
  | _, _, _, _, _ => .ok []

def ranges (t : SeriesTable) : List (String × ℕ × ℕ) :=
  t.metrics.map fun run => (t.strings.getD run.1 "", run.2.1, run.2.1 + run.2.2)

theorem runsFrom_ok {strings : ℕ} {runs : List (ℕ × ℕ × ℕ)} (name : ℕ → String)
    (h : runsFrom strings next runs = .ok n) :
    RunsFrom next (runs.map fun run => (name run.1, run.2.1, run.2.1 + run.2.2)) n := by
  induction runs generalizing next with
  | nil => exact Except.ok.inj h
  | cons run runs ih =>
    rw [runsFrom] at h
    split_ifs at h with hbad
    push Not at hbad
    exact ⟨hbad.2, Nat.le_add_right _ _, ih h⟩

theorem runsFrom_eq {strings : ℕ} {runs : List (ℕ × ℕ × ℕ)} (name : ℕ → String)
    (hnames : ∀ run ∈ runs, run.1 < strings)
    (h : RunsFrom next (runs.map fun run => (name run.1, run.2.1, run.2.1 + run.2.2)) n) :
    runsFrom strings next runs = .ok n := by
  induction runs generalizing next with
  | nil => rw [runsFrom, show next = n from h]
  | cons run runs ih =>
    obtain ⟨hrun, hruns⟩ := forall_mem_cons.mp hnames
    obtain ⟨hfirst, -, hrest⟩ := h
    rw [runsFrom, if_neg (not_or.mpr ⟨not_le.mpr hrun, not_not.mpr hfirst⟩)]
    exact ih hruns hrest

theorem validate_ok : t.validate = .ok () ↔ t.v = seriesFormatVersion ∧
      (t.len.length = t.start.length ∧ t.minTs.length = t.start.length ∧
        t.maxTs.length = t.start.length ∧ t.labels.length = t.start.length) ∧
      (∀ l ∈ t.labels, l.length % 2 = 0 ∧ ∀ id ∈ l, id < t.strings.length) ∧
      runsFrom t.strings.length 0 t.metrics = .ok t.start.length := by
  have hlabels : (t.labels.any fun l => decide (l.length % 2 ≠ 0 ∨
      (l.any fun id => decide (t.strings.length ≤ id)) = true)) = false ↔
      ∀ l ∈ t.labels, l.length % 2 = 0 ∧ ∀ id ∈ l, id < t.strings.length := by
    simp [any_eq_false]
  rw [← hlabels]
  unfold validate
  dsimp only
  constructor
  · intro h
    split_ifs at h with h1 h2 h3
    push Not at h1 h2
    rw [Bool.not_eq_true] at h3
    cases hruns : runsFrom t.strings.length 0 t.metrics with
    | error e => rw [hruns] at h; cases h
    | ok next =>
      rw [hruns] at h
      dsimp only at h
      split_ifs at h with h4
      push Not at h4
      exact ⟨h1, h2, h3, by rw [h4]⟩
  · rintro ⟨h1, ⟨h2, h2', h2'', h2'''⟩, h3, h4⟩
    rw [if_neg (not_not.mpr h1), if_neg (by omega), if_neg (by rw [h3]; decide), h4]
    exact if_neg (not_not.mpr rfl)

theorem length_entries {starts lens : List ℕ} {los his : List Int} {flats : List (List ℕ)}
    (h1 : lens.length = starts.length) (h2 : los.length = starts.length)
    (h3 : his.length = starts.length) (h4 : flats.length = starts.length)
    (h : entries strings starts lens los his flats = .ok es) : es.length = starts.length := by
  induction starts generalizing lens los his flats es with
  | nil =>
    rw [entries] at h
    · rw [← Except.ok.inj h]
      rfl
    · rintro _ _ _ _ _ _ _ _ _ _ ⟨⟩
  | cons s starts ih =>
    obtain ⟨a, lens, rfl⟩ := exists_cons_of_length_eq_add_one h1
    obtain ⟨b, los, rfl⟩ := exists_cons_of_length_eq_add_one h2
    obtain ⟨c, his, rfl⟩ := exists_cons_of_length_eq_add_one h3
    obtain ⟨d, flats, rfl⟩ := exists_cons_of_length_eq_add_one h4
    simp only [length_cons, Nat.add_right_cancel_iff] at h1 h2 h3 h4
    rw [entries] at h
    obtain ⟨labels, -, h⟩ := bind_eq_ok.mp h
    obtain ⟨rest, hr, h⟩ := bind_eq_ok.mp h
    rw [← Except.ok.inj h, length_cons, ih h1 h2 h3 h4 hr, length_cons]

end SeriesTable

def SeriesIndex.fromTable (t : SeriesTable) : Except Error SeriesIndex :=
  match hv : t.validate with
  | .error e => .error e
  | .ok () =>
    match he : SeriesTable.entries t.strings t.start t.len t.minTs t.maxTs t.labels with
    | .error e => .error e
    | .ok series => .ok {
        series := series
        metricRanges := t.ranges
        postings := postingsOf 0 series
        totalRows := (series.map SeriesEntry.rows).sum
        ranges_cover := by
          obtain ⟨-, ⟨h1, h2, h3, h4⟩, -, hruns⟩ := SeriesTable.validate_ok.mp hv
          rw [SeriesTable.length_entries h1 h2 h3 h4 he]
          exact SeriesTable.runsFrom_ok (fun id => t.strings.getD id "") hruns
        postings_eq := rfl }

/-- The series table of a file: one that is invalid, or accounts for another number of rows
than the file has, is ignored. -/
def loadSeries (table : Option SeriesTable) (rows : ℕ) : Option SeriesIndex :=
  match table.map SeriesIndex.fromTable with
  | some (.ok index) => if index.totalRows = rows then some index else none
  | _ => none

/-! ## What the builder writes -/

namespace SeriesTable

theorem stringId_spec (strings : List String) (s : String) :
    strings <+: (stringId strings s).1 ∧ (stringId strings s).2 < (stringId strings s).1.length ∧
      (stringId strings s).1.getD (stringId strings s).2 "" = s := by
  unfold stringId
  split_ifs with h
  · have hlt := idxOf_lt_length_iff.mpr h
    exact ⟨prefix_rfl, hlt, by rw [getD_eq_getElem _ _ hlt, getElem_idxOf]⟩
  · exact ⟨prefix_append _ _, by simp, by simp⟩

theorem getD_of_extends {strings' : List String} (h : strings <+: strings') {id : ℕ}
    (hid : id < strings.length) : strings'.getD id "" = strings.getD id "" := by
  obtain ⟨more, rfl⟩ := h
  exact getD_append _ _ _ _ hid

theorem unflatten_of_extends {strings' : List String} (h : strings <+: strings') :
    ∀ {flat : List ℕ}, (∀ id ∈ flat, id < strings.length) →
      unflatten strings' flat = unflatten strings flat
  | [], _ => rfl
  | [_], _ => rfl
  | k :: v :: flat, hflat => by
    have hk := hflat k (by simp)
    have hv := hflat v (by simp)
    have hrest : ∀ id ∈ flat, id < strings.length := fun id hid => hflat id (by simp [hid])
    rw [unflatten, unflatten, getD_of_extends h hk, getD_of_extends h hv,
      unflatten_of_extends h hrest]

theorem flatten_spec (strings : List String) (es : List (String × String)) :
    strings <+: (flatten strings es).1 ∧ (flatten strings es).2.length % 2 = 0 ∧
      (∀ id ∈ (flatten strings es).2, id < (flatten strings es).1.length) ∧
      unflatten (flatten strings es).1 (flatten strings es).2 = es := by
  induction es generalizing strings with
  | nil => exact ⟨prefix_rfl, rfl, nofun, rfl⟩
  | cons e es ih =>
    obtain ⟨k, v⟩ := e
    obtain ⟨hk, hkid, hkget⟩ := stringId_spec strings k
    obtain ⟨hv, hvid, hvget⟩ := stringId_spec (stringId strings k).1 v
    obtain ⟨hrest, heven, hids, hun⟩ := ih (stringId (stringId strings k).1 v).1
    rw [flatten]
    have hkid' := hkid.trans_le (hv.length_le.trans hrest.length_le)
    have hvid' := hvid.trans_le hrest.length_le
    refine ⟨hk.trans (hv.trans hrest), by simp only [length_cons]; omega, ?_, ?_⟩
    · intro id hid
      rcases mem_cons.mp hid with rfl | hid
      · exact hkid'
      · rcases mem_cons.mp hid with rfl | hid
        · exact hvid'
        · exact hids id hid
    · rw [unflatten, hun, getD_of_extends (hv.trans hrest) hkid, hkget, getD_of_extends hrest hvid,
        hvget]

theorem bumpLast_concat (runs : List (ℕ × ℕ × ℕ)) (name first count : ℕ) :
    bumpLast (runs ++ [(name, first, count)]) = runs ++ [(name, first, count + 1)] := by
  induction runs with
  | nil => rfl
  | cons run runs ih =>
    cases runs with
    | nil => rfl
    | cons run' runs =>
      rw [cons_append, cons_append, bumpLast, ← cons_append, ih]
      · rfl
      · simp

end SeriesTable

variable {lo : ℕ}

theorem runsFrom_concat {α : Type*} {hi : ℕ} {runs : List (α × ℕ × ℕ)} {a : α} :
    RunsFrom next (runs ++ [(a, lo, hi)]) n ↔ RunsFrom next runs lo ∧ lo ≤ hi ∧ hi = n := by
  induction runs generalizing next with
  | nil =>
    show lo = next ∧ lo ≤ hi ∧ hi = n ↔ next = lo ∧ lo ≤ hi ∧ hi = n
    rw [eq_comm]
  | cons run runs ih =>
    show run.2.1 = next ∧ run.2.1 ≤ run.2.2 ∧ RunsFrom _ (runs ++ _) n ↔
      (run.2.1 = next ∧ run.2.1 ≤ run.2.2 ∧ RunsFrom _ runs lo) ∧ _
    rw [ih, and_assoc, and_assoc]

/-- A table that holds the entries `es`, in the runs `ms`. -/
structure SeriesTable.Holds (t : SeriesTable) (es : List SeriesEntry)
    (ms : List (String × ℕ × ℕ)) : Prop where
  version : t.v = seriesFormatVersion
  start : t.start = es.map SeriesEntry.start
  len : t.len = es.map SeriesEntry.rows
  minTs : t.minTs = es.map SeriesEntry.minTs
  maxTs : t.maxTs = es.map SeriesEntry.maxTs
  labels : t.labels.map (SeriesTable.unflatten t.strings) = es.map fun e => e.labels.entries
  ids : ∀ l ∈ t.labels, l.length % 2 = 0 ∧ ∀ id ∈ l, id < t.strings.length
  names : ∀ run ∈ t.metrics, run.1 < t.strings.length
  ranges : t.ranges = ms
  cover : RunsFrom 0 ms es.length

namespace SeriesTable.Holds

variable {t : SeriesTable} {es : List SeriesEntry} {ms : List (String × ℕ × ℕ)}

theorem new : SeriesTable.new.Holds [] [] :=
  ⟨rfl, rfl, rfl, rfl, rfl, rfl, nofun, nofun, rfl, rfl⟩

theorem labels_of_extends (h : t.Holds es ms) (hp : t.strings <+: strings) :
    t.labels.map (unflatten strings) = es.map fun e => e.labels.entries := by
  rw [← h.labels]
  exact map_congr_left fun l hl => unflatten_of_extends hp (h.ids l hl).2

theorem ranges_of_extends (h : t.Holds es ms) (hp : t.strings <+: strings) :
    (t.metrics.map fun run => (strings.getD run.1 "", run.2.1, run.2.1 + run.2.2)) = ms := by
  rw [← h.ranges, SeriesTable.ranges]
  exact map_congr_left fun run hrun => by rw [getD_of_extends hp (h.names run hrun)]

theorem beginMetric (h : t.Holds es ms) (name : String) :
    (t.beginMetric name).Holds es (ms ++ [(name, es.length, es.length)]) := by
  obtain ⟨hp, hid, hget⟩ := stringId_spec t.strings name
  have hstart : t.start.length = es.length := by rw [h.start, length_map]
  have hlen := hp.length_le
  refine ⟨h.version, h.start, h.len, h.minTs, h.maxTs, h.labels_of_extends hp,
    fun l hl => ⟨(h.ids l hl).1, fun id hid => ((h.ids l hl).2 id hid).trans_le hlen⟩, ?_, ?_,
    runsFrom_concat.mpr ⟨h.cover, le_rfl, rfl⟩⟩
  · exact forall_mem_concat (fun run hrun => (h.names run hrun).trans_le hlen) hid
  · show ((t.metrics ++ [((stringId t.strings name).2, t.start.length, 0)]).map
      fun run : ℕ × ℕ × ℕ =>
      ((stringId t.strings name).1.getD run.1 "", run.2.1, run.2.1 + run.2.2)) = _
    rw [map_append, map_singleton, h.ranges_of_extends hp, hget, hstart, Nat.add_zero]

theorem pushSeries {name : String} (h : t.Holds es (ms ++ [(name, lo, es.length)]))
    (e : SeriesEntry) : (t.pushSeries e.labels e.start e.rows e.minTs e.maxTs).Holds (es ++ [e])
      (ms ++ [(name, lo, es.length + 1)]) := by
  obtain ⟨hp, heven, hids, hun⟩ := flatten_spec t.strings e.labels.entries
  have hlen := hp.length_le
  have hcover := runsFrom_concat.mp h.cover
  have hranges := h.ranges_of_extends hp
  -- the last run is the one that grows
  obtain ⟨runs, ⟨id, first, count⟩, hruns⟩ : ∃ runs run, t.metrics = runs ++ [run] := by
    rcases t.metrics.eq_nil_or_concat with hnil | ⟨runs, run, hruns⟩
    · rw [hnil] at hranges
      simp at hranges
    · exact ⟨runs, run, by rw [hruns, concat_eq_append]⟩
  rw [hruns, map_append, map_singleton] at hranges
  obtain ⟨hfront, hlast⟩ := append_inj' hranges rfl
  simp only [List.cons.injEq, Prod.mk.injEq, and_true] at hlast
  obtain ⟨hname, hfirst, hcount⟩ := hlast
  have hbump : bumpLast t.metrics = runs ++ [(id, first, count + 1)] := by
    rw [hruns, bumpLast_concat]
  refine ⟨h.version, ?_, ?_, ?_, ?_, ?_, ?_, ?_, ?_, ?_⟩
  · show t.start ++ [_] = _
    rw [h.start, map_append, map_singleton]
  · show t.len ++ [_] = _
    rw [h.len, map_append, map_singleton]
  · show t.minTs ++ [_] = _
    rw [h.minTs, map_append, map_singleton]
  · show t.maxTs ++ [_] = _
    rw [h.maxTs, map_append, map_singleton]
  · show (t.labels ++ [_]).map (unflatten (flatten t.strings e.labels.entries).1) = _
    rw [map_append, map_append, map_singleton, map_singleton, hun, h.labels_of_extends hp]
  · exact forall_mem_concat (fun l hl => ⟨(h.ids l hl).1, fun id hid =>
      ((h.ids l hl).2 id hid).trans_le hlen⟩) ⟨heven, hids⟩
  · show ∀ run ∈ bumpLast t.metrics, _
    rw [hbump]
    have hold : ∀ run ∈ runs ++ [(id, first, count)],
        run.1 < (flatten t.strings e.labels.entries).1.length := fun run hrun =>
      (h.names run (by rw [hruns]; exact hrun)).trans_le hlen
    exact forall_mem_concat (fun run hrun => hold run (mem_append_left _ hrun))
      (hold (id, first, count) (by simp))
  · show (bumpLast t.metrics).map _ = _
    rw [hbump, map_append, map_singleton]
    exact congrArg₂ _ hfront (by rw [← Nat.add_assoc, hcount, ← hname, ← hfirst]; rfl)
  · rw [length_append, length_singleton]
    exact runsFrom_concat.mpr ⟨hcover.1, by omega, rfl⟩

theorem validate (h : t.Holds es ms) : t.validate = .ok () := by
  have hn : t.start.length = es.length := by rw [h.start, length_map]
  have hlabels := congrArg List.length h.labels
  rw [length_map, length_map] at hlabels
  refine validate_ok.mpr ⟨h.version, ?_, h.ids, ?_⟩
  · simp only [h.len, h.minTs, h.maxTs, hlabels, hn, length_map, and_self]
  · have hcover := h.cover
    rw [← h.ranges, ← hn] at hcover
    exact runsFrom_eq (fun id => t.strings.getD id "") h.names hcover

theorem entries (h : t.Holds es ms) :
    SeriesTable.entries t.strings t.start t.len t.minTs t.maxTs t.labels = .ok es := by
  have hlabels := h.labels
  rw [h.start, h.len, h.minTs, h.maxTs]
  generalize t.labels = flats at hlabels
  clear h
  induction es generalizing flats with
  | nil => rfl
  | cons e es ih =>
    cases flats with
    | nil => cases hlabels
    | cons flat flats =>
      simp only [map_cons, List.cons.injEq] at hlabels
      simp only [map_cons]
      rw [SeriesTable.entries, hlabels.1, LabelSet.tryFromIter_entries, ih flats hlabels.2]
      rfl

theorem fromTable (h : t.Holds es ms) : ∃ index, SeriesIndex.fromTable t = .ok index ∧
    index.series = es ∧ index.metricRanges = ms ∧
      index.totalRows = (es.map SeriesEntry.rows).sum := by
  have hv := h.validate
  have he := h.entries
  unfold SeriesIndex.fromTable
  split
  · next e hbad => rw [hv] at hbad; cases hbad
  · split
    · next e hbad => rw [he] at hbad; cases hbad
    · next series hok =>
      rw [he] at hok
      cases hok
      exact ⟨_, rfl, rfl, h.ranges, rfl⟩

end SeriesTable.Holds

/-! ## The table of a block -/

def seriesEntry (service : Option String) (row : ℕ) (p : DataPoint V) (ps : List (DataPoint V)) :
    SeriesEntry where
  labels := mergedLabels p.labels service
  start := row
  rows := (p :: ps).length
  minTs := ps.foldl (fun a q => min a q.timestampNs) p.timestampNs
  maxTs := ps.foldl (fun a q => max a q.timestampNs) p.timestampNs

structure SeriesRows (V : Type*) where
  name : String
  entry : SeriesEntry
  rows : List (MetricColumns V)

def groupSeries (run : MetricRun V) : ℕ → List (List (DataPoint V)) → List (SeriesRows V)
  | _, [] => []
  | row, [] :: groups => groupSeries run row groups
  | row, (p :: ps) :: groups =>
    ⟨run.name, seriesEntry run.service row p ps, (p :: ps).map run.columns⟩ ::
      groupSeries run (row + (p :: ps).length) groups

def runSeries : ℕ → List (MetricRun V) → List (SeriesRows V)
  | _, [] => []
  | row, run :: runs =>
    groupSeries run row run.groups ++ runSeries (row + run.points.length) runs

def runRanges : ℕ → List (MetricRun V) → List (String × ℕ × ℕ)
  | _, [] => []
  | next, run :: runs =>
    if run.points = [] then runRanges next runs
    else (run.name, next, next + run.groups.length) :: runRanges (next + run.groups.length) runs

variable {groups : List (List (DataPoint V))}

theorem describeSeries_holds (run : MetricRun V) {ms : List (String × ℕ × ℕ)} {name : String}
    (row : ℕ) (hne : [] ∉ groups) (h : t.Holds es (ms ++ [(name, lo, es.length)])) :
    (describeSeries run.service t row groups).Holds
      (es ++ (groupSeries run row groups).map SeriesRows.entry)
      (ms ++ [(name, lo, es.length + groups.length)]) := by
  induction groups generalizing t es row with
  | nil => simpa [describeSeries, groupSeries] using h
  | cons g groups ih =>
    cases g with
    | nil => exact absurd mem_cons_self hne
    | cons p ps =>
      have hlen : (es ++ [seriesEntry run.service row p ps]).length = es.length + 1 := by simp
      have hpush := h.pushSeries (seriesEntry run.service row p ps)
      rw [← hlen] at hpush
      have hrest := ih (row + (p :: ps).length) (fun hmem => hne (mem_cons_of_mem _ hmem)) hpush
      rw [hlen, append_assoc, Nat.add_assoc, Nat.add_comm 1] at hrest
      exact hrest

theorem groups_nil {run : MetricRun V} (h : run.points = []) : run.groups = [] := by
  rw [MetricRun.groups, h, splitBy_nil]

theorem nil_notMem_groups (run : MetricRun V) : [] ∉ run.groups := nil_notMem_splitBy _ _

theorem describeRuns_holds {ms : List (String × ℕ × ℕ)} (row : ℕ) (runs : List (MetricRun V))
    (h : t.Holds es ms) :
    (describeRuns t row runs).Holds (es ++ (runSeries row runs).map SeriesRows.entry)
      (ms ++ runRanges es.length runs) := by
  induction runs generalizing t es ms row with
  | nil => simpa [describeRuns, runSeries, runRanges] using h
  | cons run runs ih =>
    rw [describeRuns, runSeries, runRanges, map_append]
    split_ifs with hnil
    · rw [groups_nil hnil, hnil]
      exact ih row h
    · have hrun := describeSeries_holds run row (nil_notMem_groups run) (h.beginMetric run.name)
      have hlen : (es ++ (groupSeries run row run.groups).map SeriesRows.entry).length =
          es.length + run.groups.length := (runsFrom_concat.mp hrun.cover).2.2.symm
      have hrest := ih (row + run.points.length) hrun
      rw [hlen, append_assoc, append_assoc] at hrest
      exact hrest

/-! ## How the rows lie -/

/-- All rows of a series have its name, its labels and a time within its bounds. -/
structure SeriesRows.Uniform (s : SeriesRows V) : Prop where
  ne : s.rows ≠ []
  name : ∀ r ∈ s.rows, r.metricName = s.name
  labels : ∀ r ∈ s.rows, r.reported = s.entry.labels
  minTs : ∀ r ∈ s.rows, s.entry.minTs ≤ r.timestampNs
  maxTs : ∀ r ∈ s.rows, r.timestampNs ≤ s.entry.maxTs

def Laid : ℕ → List (SeriesRows V) → Prop
  | _, [] => True
  | row, s :: ss =>
    s.entry.start = row ∧ s.entry.rows = s.rows.length ∧ s.Uniform ∧ Laid (row + s.rows.length) ss

theorem laid_append {row : ℕ} {ss ss' : List (SeriesRows V)} :
    Laid row (ss ++ ss') ↔ Laid row ss ∧ Laid (row + (ss.flatMap SeriesRows.rows).length) ss' := by
  induction ss generalizing row with
  | nil => simp [Laid]
  | cons s ss ih =>
    rw [cons_append, Laid, Laid, ih, flatMap_cons, length_append, ← Nat.add_assoc]
    simp only [and_assoc]

theorem foldl_min_timestamp (p : DataPoint V) (ps : List (DataPoint V)) :
    ∀ q ∈ p :: ps, ps.foldl (fun a q => min a q.timestampNs) p.timestampNs ≤ q.timestampNs := by
  intro q hq
  rw [← foldl_map (f := DataPoint.timestampNs) (g := min)]
  rcases mem_cons.mp hq with rfl | hq
  · exact foldl_min_le_init _ _
  · exact foldl_min_le (mem_map_of_mem hq)

theorem foldl_max_timestamp (p : DataPoint V) (ps : List (DataPoint V)) :
    ∀ q ∈ p :: ps, q.timestampNs ≤ ps.foldl (fun a q => max a q.timestampNs) p.timestampNs := by
  intro q hq
  rw [← foldl_map (f := DataPoint.timestampNs) (g := max)]
  rcases mem_cons.mp hq with rfl | hq
  · exact init_le_foldl_max _ _
  · exact le_foldl_max (mem_map_of_mem hq)

theorem labels_of_mem_groups {run : MetricRun V} {p : DataPoint V} {ps : List (DataPoint V)}
    (h : (p :: ps) ∈ run.groups) : ∀ q ∈ p :: ps, q.labels = p.labels := by
  have hchain : (p :: ps).IsChain fun a b => a.labels = b.labels :=
    (isChain_of_mem_splitBy h).imp fun a b hab => of_decide_eq_true hab
  have hpair : (p :: ps).Pairwise fun a b => a.labels = b.labels :=
    @List.IsChain.pairwise _ _ _ ⟨Eq.trans⟩ hchain
  intro q hq
  rcases mem_cons.mp hq with rfl | hq
  · rfl
  · exact ((pairwise_cons.mp hpair).1 q hq).symm

theorem groupSeries_laid (run : MetricRun V) (row : ℕ) (hne : [] ∉ groups)
    (hlabels : ∀ p ps, (p :: ps) ∈ groups → ∀ q ∈ p :: ps, q.labels = p.labels) :
    Laid row (groupSeries run row groups) ∧
      (groupSeries run row groups).flatMap SeriesRows.rows = groups.flatten.map run.columns := by
  induction groups generalizing row with
  | nil => exact ⟨trivial, rfl⟩
  | cons g groups ih =>
    cases g with
    | nil => exact absurd mem_cons_self hne
    | cons p ps =>
      obtain ⟨hlaid, hrows⟩ := ih (row + (p :: ps).length)
        (fun hmem => hne (mem_cons_of_mem _ hmem))
        (fun q qs hq => hlabels q qs (mem_cons_of_mem _ hq))
      rw [groupSeries, Laid, flatMap_cons, hrows, flatten_cons, map_append]
      refine ⟨⟨rfl, (length_map _).symm, ?_, by rwa [length_map]⟩, rfl⟩
      refine ⟨by simp, ?_, ?_, ?_, ?_⟩ <;> intro r hr <;> obtain ⟨q, hq, rfl⟩ := mem_map.mp hr
      · rfl
      · show mergedLabels q.labels run.service = mergedLabels p.labels run.service
        rw [hlabels p ps mem_cons_self q hq]
      · exact foldl_min_timestamp p ps q hq
      · exact foldl_max_timestamp p ps q hq

/-- **The rows of a block are its series, one after the other.** -/
theorem runSeries_laid (runs : List (MetricRun V)) (row : ℕ) : Laid row (runSeries row runs) ∧
      (runSeries row runs).flatMap SeriesRows.rows = metricRunsToChunk runs := by
  induction runs generalizing row with
  | nil => exact ⟨trivial, rfl⟩
  | cons run runs ih =>
    obtain ⟨hlaid, hrows⟩ := groupSeries_laid run row (nil_notMem_groups run)
      fun p ps => labels_of_mem_groups
    rw [MetricRun.groups, flatten_splitBy, ← MetricRun.groups] at hrows
    obtain ⟨hrest, hrestRows⟩ := ih (row + run.points.length)
    rw [runSeries, laid_append, flatMap_append, hrows, hrestRows, length_map]
    exact ⟨⟨hlaid, hrest⟩, rfl⟩

theorem groupSeries_names (run : MetricRun V) (row : ℕ) (hne : [] ∉ groups) :
    (groupSeries run row groups).length = groups.length ∧
      ∀ s ∈ groupSeries run row groups, s.name = run.name := by
  induction groups generalizing row with
  | nil => exact ⟨rfl, nofun⟩
  | cons g groups ih =>
    cases g with
    | nil => exact absurd mem_cons_self hne
    | cons p ps =>
      obtain ⟨hlen, hnames⟩ := ih (row + (p :: ps).length)
        (fun hmem => hne (mem_cons_of_mem _ hmem))
      exact ⟨congrArg (· + 1) hlen, forall_mem_cons.mpr ⟨rfl, hnames⟩⟩

theorem mem_runRanges (runs : List (MetricRun V)) (row next : ℕ) {metric : String} {id : ℕ} :
    (∃ r ∈ runRanges next runs, r.1 = metric ∧ r.2.1 ≤ id ∧ id < r.2.2) ↔
      next ≤ id ∧ ∃ s, (runSeries row runs)[id - next]? = some s ∧ s.name = metric := by
  induction runs generalizing row next with
  | nil => simp [runRanges, runSeries]
  | cons run runs ih =>
    obtain ⟨hlen, hnames⟩ := groupSeries_names run row (nil_notMem_groups run)
    rw [runRanges, runSeries]
    split_ifs with hnil
    · rw [ih (row + run.points.length), groups_nil hnil]
      rfl
    · have hrest := ih (row + run.points.length) (next + run.groups.length)
      constructor
      · rintro ⟨r, hr, hname, hlo, hhi⟩
        rcases mem_cons.mp hr with rfl | hr
        · -- within the first run
          have hlt : id - next < (groupSeries run row run.groups).length := by
            dsimp only at hlo hhi
            omega
          refine ⟨hlo, _, by rw [getElem?_append_left hlt, getElem?_eq_getElem hlt], ?_⟩
          rw [hnames _ (getElem_mem _), ← hname]
        · obtain ⟨hle, s, hs, hsname⟩ := hrest.mp ⟨r, hr, hname, hlo, hhi⟩
          refine ⟨by omega, s, ?_, hsname⟩
          rw [getElem?_append_right (by omega), hlen,
            show id - next - run.groups.length = id - (next + run.groups.length) by omega]
          exact hs
      · rintro ⟨hle, s, hs, hsname⟩
        by_cases hlt : id - next < (groupSeries run row run.groups).length
        · rw [getElem?_append_left hlt] at hs
          refine ⟨_, mem_cons_self, ?_, hle, ?_⟩
          · rw [← hsname, hnames s (mem_of_getElem? hs)]
          · dsimp only
            omega
        · rw [getElem?_append_right (by omega), hlen,
            show id - next - run.groups.length = id - (next + run.groups.length) by omega] at hs
          obtain ⟨r, hr, hin⟩ := hrest.mpr ⟨by omega, s, hs, hsname⟩
          exact ⟨r, mem_cons_of_mem _ hr, hin⟩

theorem Laid.sum_rows {row : ℕ} {ss : List (SeriesRows V)} (h : Laid row ss) :
    ((ss.map SeriesRows.entry).map SeriesEntry.rows).sum = (ss.flatMap SeriesRows.rows).length := by
  induction ss generalizing row with
  | nil => rfl
  | cons s ss ih =>
    obtain ⟨-, hrows, -, hrest⟩ := h
    rw [map_cons, map_cons, sum_cons, ih hrest, hrows, flatMap_cons, length_append]

/-- **The table reads back.** Loading the table of a block gives the block's series. -/
theorem loadSeries_block (runs : List (MetricRun V)) :
    ∃ index, loadSeries (some (metricRunsToBlock runs).2) (metricRunsToBlock runs).1.length =
        some index ∧
      index.series = (runSeries 0 runs).map SeriesRows.entry ∧
      index.metricRanges = runRanges 0 runs := by
  have hholds := describeRuns_holds 0 runs SeriesTable.Holds.new
  obtain ⟨index, hindex, hseries, hranges, htotal⟩ := hholds.fromTable
  obtain ⟨hlaid, hrows⟩ := runSeries_laid runs 0
  refine ⟨index, ?_, hseries, hranges⟩
  rw [loadSeries, metricRunsToBlock, Option.map_some, hindex]
  dsimp only
  rw [htotal, nil_append, hlaid.sum_rows, hrows, if_pos rfl]

end Parqtel.Storage
