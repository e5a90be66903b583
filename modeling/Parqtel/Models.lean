import Parqtel.Lib.Assoc

/-!
# Telemetry data

The records that ingest, storage and recovery move around: label sets, metrics,
log records, spans, and the metadata of a block file. A label set carries the
proof that its entries are sorted by key without repetition. The payload of a
data point (`MetricValue` in the source) is a type parameter `V`: no modelled
function looks inside it. Timestamps are `i64` nanoseconds, modelled as `Int`.
-/

open List hiding Vector

namespace Parqtel

inductive Error where
  | io (message : String)
  | parquet (message : String)
  | internal (message : String)
  | validation (message : String)
  /-- JSON that cannot be read. -/
  | serde
deriving DecidableEq, Repr

/-! ## Labels -/

/-- Entries in strictly increasing key order. -/
abbrev KeysSorted (entries : List (String × String)) : Prop :=
  entries.Pairwise fun a b => a.1 < b.1

structure LabelSet where
  entries : List (String × String)
  sorted : KeysSorted entries
deriving DecidableEq

namespace LabelSet

def empty : LabelSet := ⟨[], List.Pairwise.nil⟩

def get (l : LabelSet) (key : String) : Option String := l.entries.lookup key

def insertEntry (key value : String) : List (String × String) → List (String × String)
  | [] => [(key, value)]
  | (k, v) :: es =>
    if k < key then (k, v) :: insertEntry key value es
    else if k = key then (key, value) :: es
    else (key, value) :: (k, v) :: es

variable {key value : String} {es : List (String × String)}

theorem insertEntry_eq (h : KeysSorted es) : insertEntry key value es =
    es.filter (fun e => e.1 < key) ++ (key, value) :: es.filter fun e => key < e.1 := by
  induction es with
  | nil => rfl
  | cons e es ih =>
    obtain ⟨k, v⟩ := e
    obtain ⟨hk, hs⟩ := pairwise_cons.mp h
    unfold insertEntry
    split_ifs with h1 h2
    · rw [ih hs, filter_cons, filter_cons, if_pos (decide_eq_true h1),
        if_neg fun h => h1.not_gt (of_decide_eq_true h)]
      rfl
    all_goals
      -- no entry is below the key
      have hle : key ≤ k := not_lt.mp h1
      have habove : ∀ e ∈ es, key < e.1 := fun e he => hle.trans_lt (hk e he)
      have hlow : ((k, v) :: es).filter (fun e => e.1 < key) = [] := by
        refine filter_eq_nil_iff.mpr (forall_mem_cons.mpr ⟨?_, fun e he => ?_⟩)
        · exact fun h => h1 (of_decide_eq_true h)
        · exact fun h => (habove e he).not_gt (of_decide_eq_true h)
      have hhigh : es.filter (fun e => key < e.1) = es :=
        filter_eq_self.mpr fun e he => decide_eq_true (habove e he)
      rw [hlow, nil_append, filter_cons, hhigh]
    · rw [if_neg fun h => (of_decide_eq_true h).ne' h2]
    · rw [if_pos (decide_eq_true (lt_of_le_of_ne hle (Ne.symm h2)))]

theorem mem_insertEntry_iff {e : String × String} (h : KeysSorted es) :
    e ∈ insertEntry key value es ↔ e = (key, value) ∨ e ∈ es ∧ e.1 ≠ key := by
  rw [insertEntry_eq h, ← lt_or_lt_iff_ne]
  simp only [mem_append, mem_cons, mem_filter, decide_eq_true_eq, and_or_left]
  exact or_left_comm

theorem insertEntry_sorted (h : KeysSorted es) : KeysSorted (insertEntry key value es) := by
  rw [insertEntry_eq h]
  refine pairwise_append.mpr ⟨h.filter _, pairwise_cons.mpr ⟨fun e he => ?_, h.filter _⟩, ?_⟩
  · exact of_decide_eq_true (mem_filter.mp he).2
  · intro a ha b hb
    have ha : a.1 < key := of_decide_eq_true (mem_filter.mp ha).2
    rcases mem_cons.mp hb with rfl | hb
    · exact ha
    · exact ha.trans (of_decide_eq_true (mem_filter.mp hb).2)

def «with» (l : LabelSet) (key value : String) : LabelSet :=
  ⟨insertEntry key value l.entries, insertEntry_sorted l.sorted⟩

def merge (l other : LabelSet) : LabelSet :=
  other.entries.foldl (fun l e => l.with e.1 e.2) l

def filtered (l : LabelSet) (keep : String → String → Bool) : LabelSet :=
  ⟨l.entries.filter fun e => keep e.1 e.2, l.sorted.filter _⟩

/-- A label set of any pairs; the error names a key that is there twice. -/
def tryFromIter (pairs : List (String × String)) : Except Error LabelSet :=
  if h : KeysSorted pairs then .ok ⟨pairs, h⟩
  else
    let entries := pairs.insertionSort fun a b => a.1 ≤ b.1
    if h : KeysSorted entries then .ok ⟨entries, h⟩
    else
      let repeated := (entries.zip entries.tail).find? fun w => w.1.1 = w.2.1
      let key := repeated.elim "" fun w => w.1.1
      .error (.validation s!"Duplicate key found in label set: {key}")

theorem tryFromIter_entries (l : LabelSet) : tryFromIter l.entries = .ok l := dif_pos l.sorted

theorem tryFromIter_of_nodup {pairs : List (String × String)}
    (h : (pairs.map Prod.fst).Nodup) :
    ∃ l, tryFromIter pairs = .ok l ∧ ∀ e, e ∈ l.entries ↔ e ∈ pairs := by
  unfold tryFromIter
  split_ifs with hsorted
  · exact ⟨⟨pairs, hsorted⟩, rfl, fun _ => Iff.rfl⟩
  · have hperm := perm_insertionSort (fun a b : String × String => a.1 ≤ b.1) pairs
    have hkeys : KeysSorted (pairs.insertionSort fun a b => a.1 ≤ b.1) := by
      have hle := pairwise_insertionSort (fun a b : String × String => a.1 ≤ b.1) pairs
      have hne : (pairs.insertionSort fun a b => a.1 ≤ b.1).Pairwise fun a b => a.1 ≠ b.1 :=
        pairwise_map.mp ((hperm.map Prod.fst).nodup_iff.mpr h)
      exact (hle.and hne).imp fun hab => lt_of_le_of_ne hab.1 hab.2
    exact ⟨⟨_, hkeys⟩, dif_pos hkeys, fun _ => hperm.mem_iff⟩

theorem get_eq_some {l : LabelSet} : l.get key = some value ↔ (key, value) ∈ l.entries :=
  Lib.lookup_eq_some (pairwise_map.mpr (l.sorted.imp fun h => h.ne))

theorem ext_get {l l' : LabelSet} (h : ∀ key, l.get key = l'.get key) : l = l' := by
  have hmem : ∀ e, e ∈ l.entries ↔ e ∈ l'.entries := fun e => by
    rw [← get_eq_some (l := l), h, get_eq_some]
  cases l with
  | mk es hes =>
    cases l' with
    | mk es' hes' =>
      congr 1
      exact hes.eq_of_mem_iff hes' hmem

theorem get_with (l : LabelSet) (key value k : String) :
    (l.with key value).get k = if k = key then some value else l.get k := by
  refine Option.ext fun v => ?_
  rw [get_eq_some]
  show (k, v) ∈ insertEntry key value l.entries ↔ _
  rw [mem_insertEntry_iff l.sorted]
  by_cases hk : k = key
  · simp [hk, eq_comm]
  · rw [if_neg hk, get_eq_some]
    simp [hk]

theorem get_merge (l other : LabelSet) (k : String) :
    (l.merge other).get k = (other.get k).or (l.get k) := by
  obtain ⟨es, hs⟩ := other
  show (es.foldl (fun l e => l.with e.1 e.2) l).get k = (es.lookup k).or (l.get k)
  induction es generalizing l with
  | nil => rfl
  | cons e es ih =>
    obtain ⟨he, hes⟩ := pairwise_cons.mp hs
    rw [foldl_cons, ih _ hes, get_with, Lib.lookup_entry]
    split_ifs with hk
    · -- no later entry has the key
      have hnone : es.lookup k = none := lookup_eq_none_iff.mpr fun p hp => by
        rw [hk, bne_iff_ne]
        exact (he p hp).ne
      rw [hnone]
      rfl
    · rfl

theorem get_filtered (l : LabelSet) (keep : String → String → Bool) (k : String) :
    (l.filtered keep).get k = (l.get k).filter (keep k) := by
  refine Option.ext fun v => ?_
  rw [get_eq_some, Option.filter_eq_some_iff, get_eq_some]
  exact mem_filter

def cmpEntries : List (String × String) → List (String × String) → Ordering
  | [], [] => .eq
  | [], _ :: _ => .lt
  | _ :: _, [] => .gt
  | a :: as, b :: bs => ((compare a.1 b.1).then (compare a.2 b.2)).then (cmpEntries as bs)

def fnvByte (h : ℕ) (b : UInt8) : ℕ := ((h ^^^ b.toNat) * 0x100000001b3) % 2 ^ 64

def fnvString (h : ℕ) (s : String) : ℕ :=
  let bytes := s.toUTF8.toList
  let len := (List.range 8).map fun i => UInt8.ofNat (bytes.length >>> (8 * i))
  (len ++ bytes).foldl fnvByte h

/-- A stable numeric fingerprint: FNV-1a over names and values, then the splitmix64 finaliser. -/
def fingerprint (l : LabelSet) : ℕ :=
  let h := l.entries.foldl (fun h e => fnvString (fnvString h e.1) e.2) 0xcbf29ce484222325
  let h := ((h ^^^ (h >>> 30)) * 0xbf58476d1ce4e5b9) % 2 ^ 64
  let h := ((h ^^^ (h >>> 27)) * 0x94d049bb133111eb) % 2 ^ 64
  h ^^^ (h >>> 31)

end LabelSet

/-! ## Signals -/

inductive SignalType where
  | metrics | logs | traces
deriving DecidableEq, Repr

inductive MetricKind where
  | gauge | sum | histogram | summary
deriving DecidableEq, Repr

def MetricKind.rank : MetricKind → ℕ
  | gauge => 0 | sum => 1 | histogram => 2 | summary => 3

structure DataPoint (V : Type*) where
  timestampNs : Int
  value : V
  labels : LabelSet
deriving DecidableEq

structure Metric (V : Type*) where
  name : String
  description : String
  unit : String
  kind : MetricKind
  resourceAttributes : LabelSet
  dataPoints : List (DataPoint V)
deriving DecidableEq

/-- One row of a metric block: a data point with its metric's identity. -/
structure MetricRow (V : Type*) where
  name : String
  kind : MetricKind
  resource : LabelSet
  point : DataPoint V
deriving DecidableEq

def Metric.rows {V : Type*} (m : Metric V) : List (MetricRow V) :=
  m.dataPoints.map fun p => ⟨m.name, m.kind, m.resourceAttributes, p⟩

structure LogRecord where
  timestampNs : Int
  observedTimestampNs : Int
  severityNumber : Int
  severityText : String
  body : String
  attributes : LabelSet
  resourceAttributes : LabelSet
  traceId : Vector UInt8 16
  spanId : Vector UInt8 8
  flags : UInt32
  scopeName : String
  scopeVersion : String
deriving DecidableEq

structure SpanEvent where
  timeNs : Int
  name : String
  attributes : LabelSet
deriving DecidableEq

structure SpanLink where
  traceId : Vector UInt8 16
  spanId : Vector UInt8 8
  attributes : LabelSet
deriving DecidableEq

structure Span where
  traceId : Vector UInt8 16
  spanId : Vector UInt8 8
  traceState : String
  name : String
  kind : Int
  startTimeNs : Int
  endTimeNs : Int
  attributes : LabelSet
  events : List SpanEvent
  links : List SpanLink
  statusCode : Int
  statusMessage : String
  parentSpanId : Vector UInt8 8
  flags : UInt32
deriving DecidableEq

/-! ## Block files -/

/-- A path: the directory's components and a file name. -/
structure Path where
  dir : List String
  file : String
deriving DecidableEq, Repr

abbrev WalRange := ℕ × ℕ

structure BlockMetadata where
  path : Path
  startTimestampNs : Int
  endTimestampNs : Int
  rowCount : ℕ
  sizeBytes : ℕ
  metricNames : Finset String
  labelNames : Finset String
  labelValues : List (String × Finset String)
  signalType : SignalType
  walRange : Option WalRange
deriving DecidableEq

/-- A completely written block file: its metadata and the rows it holds. -/
structure Block (R : Type*) where
  metadata : BlockMetadata
  rows : List R
deriving DecidableEq

abbrev MetricBlock (V : Type*) := Block (MetricRow V)

/-- The part of `BlockConfig` and `LogBlockConfig` that decides which rows go where. -/
structure BlockConfig where
  dataDir : List String
  maxRowsPerBlock : ℕ
  rowGroupSize : ℕ
  compactionMaxMergeBlocks : ℕ
  compactionMaxMergesPerPass : ℕ
deriving DecidableEq, Repr

variable {R : Type*}

def sortByKey (key : R → Int) (rows : List R) : List R :=
  rows.insertionSort fun a b => key a ≤ key b

theorem sortByKey_perm (key : R → Int) (rows : List R) :
    (sortByKey key rows).Perm rows := perm_insertionSort _ rows

theorem sortByKey_sorted (key : R → Int) (rows : List R) :
    (sortByKey key rows).Pairwise fun a b => key a ≤ key b :=
  pairwise_insertionSort (fun a b => key a ≤ key b) rows

end Parqtel
