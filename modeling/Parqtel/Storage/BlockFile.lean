import Parqtel.Ingest.BlockLayout
import Parqtel.Ingest.RowWriter
import Parqtel.Lib.Extent

/-!
# Block files

What the storage layer knows of a block file: its name, its schema, its row groups and
their statistics. `readBlockMetadata` rebuilds an index entry from the file alone. The three
signals are one definition over a `SignalKind`.
-/

namespace Parqtel.Storage

open Parqtel.Lib Parqtel.Ingest List

/-! ## Schemas -/

def metricsSchema : List String :=
  ["timestamp_ns", "metric_name", "metric_kind", "service_name", "service_version",
    "k8s_namespace", "k8s_pod_name", "k8s_pod_uid", "k8s_container_name", "k8s_node_name",
    "resource_attributes", "labels", "value_float", "value_int", "value_complex"]

def logsSchema : List String :=
  ["timestamp_ns", "observed_timestamp_ns", "severity_number", "severity_text", "body",
    "service_name", "service_version", "k8s_namespace", "k8s_pod_name", "k8s_pod_uid",
    "k8s_container_name", "k8s_node_name", "trace_id", "span_id", "flags", "scope_name",
    "scope_version", "attributes", "resource_attributes"]

def tracesSchema : List String :=
  ["timestamp_ns", "span_id", "span_name", "span_kind", "start_time_ns", "end_time_ns",
    "duration_ns", "status_code", "status_message", "service_name", "service_version",
    "k8s_namespace", "k8s_pod_name", "k8s_pod_uid", "k8s_container_name", "k8s_node_name",
    "trace_id", "parent_span_id", "flags", "trace_state", "attributes", "resource_attributes",
    "events", "links"]

def detectSignal (names : List String) : Option SignalType :=
  -- logs have a `span_id` too, so the order of the tests matters
  if "severity_text" ∈ names then some .logs
  else if "metric_kind" ∈ names then some .metrics
  else if "start_time_ns" ∈ names then some .traces
  else none

/-! ## Signals -/

/-- What distinguishes the stored blocks of two signals. -/
structure SignalKind (R : Type*) where
  signal : SignalType
  schema : List String
  /-- The schema identifies the signal. -/
  detected : detectSignal schema = some signal
  /-- Every schema has the column that blocks are ordered by. -/
  ordered : "timestamp_ns" ∈ schema
  /-- Start of the file names that the signal's writer gives its blocks. -/
  fileTag : String
  /-- The value of a row in the columns `timestamp_ns` and `start_time_ns`. -/
  startNs : R → Int
  endNs : R → Int
  metricNames : List R → Finset String
  labelNames : List R → Finset String
  /-- Rows in time order, as a merged block lays them out. -/
  layout : List R → List R
  layout_perm : ∀ rows, (layout rows).Perm rows

def metricSignal (V : Type*) : SignalKind (MetricRow V) where
  signal := .metrics
  schema := metricsSchema
  detected := by decide
  ordered := by decide
  fileTag := ""
  startNs r := r.point.timestampNs
  endNs r := r.point.timestampNs
  metricNames rows := (rows.map MetricRow.name).toFinset
  labelNames rows :=
    (rows.flatMap fun r => (r.resource.entries ++ r.point.labels.entries).map Prod.fst).toFinset
  layout := regroup
  layout_perm rows := regroup_eq rows ▸ layoutRows_perm rows

def logSignal : SignalKind LogRecord where
  signal := logKind.signal
  schema := logsSchema
  detected := by decide
  ordered := by decide
  fileTag := logKind.fileTag
  startNs := logKind.startNs
  endNs := logKind.endNs
  metricNames _ := ∅
  labelNames logs :=
    (logs.flatMap fun l => (l.attributes.entries ++ l.resourceAttributes.entries).map
      Prod.fst).toFinset
  layout := id
  layout_perm := .refl

def traceSignal : SignalKind Span where
  signal := traceKind.signal
  schema := tracesSchema
  detected := by decide
  ordered := by decide
  fileTag := traceKind.fileTag
  startNs := traceKind.startNs
  endNs := traceKind.endNs
  metricNames _ := ∅
  labelNames := traceKind.labelNames
  layout := id
  layout_perm := .refl

abbrev Row (V : Type) : SignalType → Type
  | .metrics => MetricRow V
  | .logs => LogRecord
  | .traces => Span

def signalKind (V : Type) : (s : SignalType) → SignalKind (Row V s)
  | .metrics => metricSignal V
  | .logs => logSignal
  | .traces => traceSignal

theorem signal_signalKind (V : Type) (s : SignalType) : (signalKind V s).signal = s := by
  cases s <;> rfl

/-! ## File names -/

def blockName (tag : String) (startTs endTs : Int) (uuid : String) : String :=
  s!"{tag}{startTs}_{endTs}_{uuid}.parquet"

def tmpName (file : String) : String := s!".tmp_{file}"

def startsWith (name tag : String) : Bool := tag.toList.isPrefixOf name.toList

/-- `path.extension()` is `parquet`. A name that is nothing but the extension has none. -/
def isParquet (name : String) : Bool :=
  ".parquet".toList.isSuffixOf name.toList && name.toList ≠ ".parquet".toList

def filenameMayHoldSignal (name : String) : SignalType → Bool
  | .metrics => !(startsWith name "logs_" || startsWith name "traces_")
  | .logs => startsWith name "logs_"
  | .traces => startsWith name "traces_"

def parseI64 (digits : List Char) : Option Int :=
  let unsigned (ds : List Char) : Option Int :=
    if ds ≠ [] ∧ ds.all Char.isDigit then some (Nat.ofDigitChars 10 ds 0) else none
  let value := match digits with
    | '-' :: ds => (unsigned ds).map (- ·)
    | '+' :: ds => unsigned ds
    | ds => unsigned ds
  value.filter fun v => i64Min ≤ v ∧ v ≤ i64Max

def timestampsFromFilename (name : String) : Option (Int × Int) := do
  let stem ← name.toList.dropSuffix? ".parquet".toList
  let untagged := stem.dropPrefix? "logs_".toList <|> stem.dropPrefix? "traces_".toList
  match (untagged.getD stem).splitOn '_' with
  | first :: second :: _ => return (← parseI64 first, ← parseI64 second)
  | _ => none

/-! ### What the names tell -/

theorem toList_blockName (tag : String) (startTs endTs : Int) (uuid : String) :
    ∃ rest, (blockName tag startTs endTs uuid).toList =
      tag.toList ++ ((toString startTs).toList ++ (rest ++ ".parquet".toList)) := by
  refine ⟨"_".toList ++ ((toString endTs).toList ++ ("_".toList ++ uuid.toList)), ?_⟩
  unfold blockName
  simp only [String.toList_append, append_assoc]
  rfl

theorem toList_tmpName (file : String) : (tmpName file).toList = ".tmp_".toList ++ file.toList :=
  String.toList_append

theorem toList_toString_int (n : Int) :
    ∃ c cs, (toString n).toList = c :: cs ∧ (c.isDigit ∨ c = '-') := by
  rw [Int.toString_eq_repr, Int.repr_eq_if]
  split_ifs with h
  · have hne : Nat.toDigits 10 n.toNat ≠ [] := Nat.toDigits_ne_nil
    obtain ⟨c, cs, hc⟩ := exists_cons_of_ne_nil hne
    have hdigit : c.isDigit :=
      Nat.isDigit_of_mem_toDigits (by decide) (by decide) (hc ▸ mem_cons_self)
    exact ⟨c, cs, Nat.toList_repr.trans hc, .inl hdigit⟩
  · exact ⟨'-', _, String.toList_append, .inr rfl⟩

variable {name : String}

theorem isParquet_of_toList {stem : List Char} (hne : stem ≠ [])
    (h : name.toList = stem ++ ".parquet".toList) : isParquet name := by
  unfold isParquet
  rw [h, Bool.and_eq_true, isSuffixOf_iff_suffix, decide_eq_true_eq]
  refine ⟨suffix_append _ _, fun heq => hne ?_⟩
  exact append_left_eq_self.mp heq

theorem isParquet_blockName (tag : String) (startTs endTs : Int) (uuid : String) :
    isParquet (blockName tag startTs endTs uuid) := by
  obtain ⟨rest, h⟩ := toList_blockName tag startTs endTs uuid
  obtain ⟨c, cs, hc, -⟩ := toList_toString_int startTs
  refine isParquet_of_toList ?_ ((by rw [h]; simp only [append_assoc]) :
    _ = (tag.toList ++ ((toString startTs).toList ++ rest)) ++ ".parquet".toList)
  rw [hc]
  simp

theorem isParquet_tmpName {file : String} (h : isParquet file) : isParquet (tmpName file) := by
  obtain ⟨stem, hs⟩ := isSuffixOf_iff_suffix.mp (Bool.and_eq_true_iff.mp h).1
  refine isParquet_of_toList ?_ ((by rw [toList_tmpName, ← hs, append_assoc]) :
    _ = (".tmp_".toList ++ stem) ++ ".parquet".toList)
  simp

theorem startsWith_blockName (tag : String) (startTs endTs : Int) (uuid : String) :
    startsWith (blockName tag startTs endTs uuid) tag := by
  obtain ⟨rest, h⟩ := toList_blockName tag startTs endTs uuid
  unfold startsWith
  rw [h, isPrefixOf_iff_prefix]
  exact prefix_append _ _

theorem not_startsWith_of_head {tag : String} {c d : Char} {cs ds : List Char}
    (hname : name.toList = c :: cs) (htag : tag.toList = d :: ds) (h : c ≠ d) :
    startsWith name tag = false := by
  simp [startsWith, hname, htag, List.isPrefixOf, Ne.symm h]

theorem filenameMayHoldSignal_blockName (startTs endTs : Int) (uuid : String) (s : SignalType) :
    filenameMayHoldSignal (blockName "" startTs endTs uuid) s = decide (s = .metrics) := by
  obtain ⟨rest, h⟩ := toList_blockName "" startTs endTs uuid
  obtain ⟨c, cs, hc, hcd⟩ := toList_toString_int startTs
  rw [hc] at h
  have hl : c ≠ 'l' := by rintro rfl; revert hcd; decide
  have ht : c ≠ 't' := by rintro rfl; revert hcd; decide
  have hlogs := not_startsWith_of_head h (rfl : "logs_".toList = _) hl
  have htraces := not_startsWith_of_head h (rfl : "traces_".toList = _) ht
  cases s <;> simp [filenameMayHoldSignal, hlogs, htraces]

theorem filenameMayHoldSignal_tmpName (file : String) (s : SignalType) :
    filenameMayHoldSignal (tmpName file) s = decide (s = .metrics) := by
  have h := toList_tmpName file
  have hlogs := not_startsWith_of_head h (rfl : "logs_".toList = _) (by decide)
  have htraces := not_startsWith_of_head h (rfl : "traces_".toList = _) (by decide)
  cases s <;> simp [filenameMayHoldSignal, hlogs, htraces]

/-! ## Files -/

section
variable {R : Type*}

/-- A complete Parquet file. Rows of another schema are not represented. -/
structure ParquetFile (R : Type*) where
  columns : List String
  rowGroups : List (List R)
  /-- The value of the footer key `parqtel.wal_range`. -/
  walRange : Option WalRange
  sizeBytes : ℕ
deriving DecidableEq

def ParquetFile.rows (file : ParquetFile R) : List R := file.rowGroups.flatten

/-- What there is in a file. -/
inductive FileContent (R : Type*) where
  | parquet (file : ParquetFile R)
  /-- An incomplete file, or not a Parquet file at all. -/
  | damaged (message : String)
deriving DecidableEq

def addRow (size : ℕ) (groups : List (List R)) (row : R) : List (List R) :=
  match groups.getLast? with
  | some g => if g.length < size then groups.dropLast ++ [g ++ [row]] else groups ++ [[row]]
  | none => [[row]]

def writeBlockFile (kind : SignalKind R) (rowGroupSize : ℕ) (b : Block R) : ParquetFile R where
  columns := kind.schema
  rowGroups := b.rows.foldl (addRow (max rowGroupSize 1)) []
  walRange := b.metadata.walRange
  sizeBytes := b.metadata.sizeBytes

theorem flatten_addRow (size : ℕ) (groups : List (List R)) (row : R) :
    (addRow size groups row).flatten = groups.flatten ++ [row] := by
  unfold addRow
  split
  · next g hg =>
    split_ifs
    · conv_rhs => rw [← dropLast_append_getLast? g hg]
      simp
    · simp
  · next hg => simp [getLast?_eq_none_iff.mp hg]

theorem flatten_foldl_addRow (size : ℕ) (rows : List R) (groups : List (List R)) :
    (rows.foldl (addRow size) groups).flatten = groups.flatten ++ rows := by
  induction rows generalizing groups with
  | nil => simp
  | cons r rows ih => rw [foldl_cons, ih, flatten_addRow, append_assoc]; rfl

@[simp] theorem rows_writeBlockFile (kind : SignalKind R) (rowGroupSize : ℕ) (b : Block R) :
    (writeBlockFile kind rowGroupSize b).rows = b.rows := by
  unfold writeBlockFile ParquetFile.rows
  rw [flatten_foldl_addRow]
  rfl

/-! ## Reading a footer -/

def statistics : List Int → Option (Int × Int)
  | [] => none
  | t :: ts => some (ts.foldl min t, ts.foldl max t)

/-- Bounds and whether any statistics were seen. -/
abbrev Seen := (Int × Int) × Bool

def seeGroup (st : Seen) (g : List Int) : Seen :=
  match statistics g with
  | none => st
  | some (lo, hi) => ((min st.1.1 lo, max st.1.2 hi), true)

def columnRange (kind : SignalKind R) (file : ParquetFile R) (name : String) : Option (Int × Int) :=
  if name ∈ file.columns then
    let st := (file.rowGroups.map (List.map kind.startNs)).foldl seeGroup ((i64Max, i64Min), false)
    if st.2 then some st.1 else none
  else none

def decodeWalRange (range : Option WalRange) : Option WalRange :=
  range.filter fun r => r.1 ≤ r.2

/-- The index entry of a block found on disk. What the footer does not hold stays empty. -/
def footerMetadata (kind : SignalKind R) (path : Path) (file : ParquetFile R) : BlockMetadata :=
  let range := (columnRange kind file "timestamp_ns" <|> columnRange kind file "start_time_ns")
    <|> timestampsFromFilename path.file
  { path := path
    startTimestampNs := (range.getD (0, 0)).1
    endTimestampNs := (range.getD (0, 0)).2
    rowCount := (file.rowGroups.map List.length).sum
    sizeBytes := file.sizeBytes
    metricNames := ∅
    labelNames := ∅
    labelValues := []
    signalType := kind.signal
    walRange := decodeWalRange file.walRange }

def readBlockMetadata (kind : SignalKind R) (path : Path) :
    FileContent R → Except Error (Option BlockMetadata)
  | .damaged message => .error (.parquet message)
  | .parquet file =>
    if detectSignal file.columns ≠ some kind.signal then .ok none
    else .ok (some (footerMetadata kind path file))

theorem seeGroup_spec (st : Seen) (g : List Int) :
    seeGroup st g = ((g.foldl min st.1.1, g.foldl max st.1.2), st.2 || g ≠ []) := by
  cases g with
  | nil => simp [seeGroup, statistics]
  | cons t ts => simp [seeGroup, statistics, foldl_assoc]

theorem foldl_seeGroup (gs : List (List Int)) (st : Seen) : gs.foldl seeGroup st =
      ((gs.flatten.foldl min st.1.1, gs.flatten.foldl max st.1.2), st.2 || gs.flatten ≠ []) := by
  induction gs generalizing st with
  | nil => simp
  | cons g gs ih =>
    rw [foldl_cons, ih, seeGroup_spec]
    simp [Bool.or_assoc]

variable {file : ParquetFile R}

theorem columnRange_eq {kind : SignalKind R} (hname : name ∈ file.columns)
    (hrows : file.rows ≠ []) :
    columnRange kind file name = some ((file.rows.map kind.startNs).foldl min i64Max,
      (file.rows.map kind.startNs).foldl max i64Min) := by
  have hflat : (file.rowGroups.map (List.map kind.startNs)).flatten =
      file.rows.map kind.startNs := (map_flatten).symm
  unfold columnRange
  rw [if_pos hname, foldl_seeGroup, hflat]
  simp [hrows]

theorem footerMetadata_bounds (kind : SignalKind R) (path : Path)
    (hcols : file.columns = kind.schema) (hrows : file.rows ≠ []) :
    (footerMetadata kind path file).startTimestampNs =
        (file.rows.map kind.startNs).foldl min i64Max ∧
      (footerMetadata kind path file).endTimestampNs =
        (file.rows.map kind.startNs).foldl max i64Min := by
  have hname : "timestamp_ns" ∈ file.columns := hcols ▸ kind.ordered
  unfold footerMetadata
  rw [columnRange_eq hname hrows]
  exact ⟨rfl, rfl⟩

theorem readBlockMetadata_own {kind : SignalKind R} (path : Path)
    (hcols : file.columns = kind.schema) :
    readBlockMetadata kind path (.parquet file) = .ok (some (footerMetadata kind path file)) := by
  rw [readBlockMetadata, if_neg (by rw [hcols, kind.detected]; simp)]

end

end Parqtel.Storage
