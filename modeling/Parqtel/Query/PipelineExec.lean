import Parqtel.Lib.Group
import Parqtel.Query.Exact
import Parqtel.Query.Pipeline
import Parqtel.Query.RangeFn
import Parqtel.Query.SpanQuery

/-!
# Rows and stages

The stages of a pipeline work on rows, which are maps from field names to JSON values. `runStages`
is the loop over the stages: `filter`, `parse` and `limit` turn rows into rows, `stats` ends the
loop with a table, and `fetch` and `correlate` are passed over.
-/

namespace Parqtel.Query

open Lib Text Storage List

/-- The JSON values that rows hold. -/
inductive Cell (F : Type) where
  | null
  | str (s : String)
  | int (n : ℤ)
  | float (x : F)
  | strs (l : List String)
deriving DecidableEq

structure Row (F : Type) where
  fields : String → Option (Cell F)

/-- What pipelines take from libraries: the platform, the lower case of any text, hexadecimal text,
and JSON text of a value and of a list of values. -/
structure PipelineRuntime (F : Type) where
  platform : Platform F
  toLowercase : String → String
  hex : Storage.HexEncode
  cellText : Cell F → String
  keyText : List (Cell F) → String

def PipelineRuntime.ql {F : Type} (rt : PipelineRuntime F) : Ql.QlRuntime F Regex where
  parse := rt.platform.parse
  ofInt := rt.platform.ofInt
  lt := rt.platform.lt
  le := rt.platform.le
  regex s := (rt.platform.regex s).toOption
  isMatch := Regex.isMatch
  toLowercase := rt.toLowercase
  hex := rt.hex
  regexError s := match rt.platform.regex s with
    | .error e => e
    | .ok _ => ""
  debug := rt.platform.debug

namespace Row
variable {F : Type} (rt : PipelineRuntime F)

def empty : Row F := ⟨fun _ => none⟩

def insert (row : Row F) (key : String) (value : Cell F) : Row F :=
  ⟨fun k => if k = key then some value else row.fields k⟩

def getStr (row : Row F) (key : String) : Option String :=
  match row.fields key with
  | some (.str s) => some s
  | _ => none

def getNum (row : Row F) (key : String) : Option F :=
  match row.fields key with
  | some (.int n) => some (rt.platform.ofInt n)
  | some (.float x) => some x
  | some (.str s) => rt.platform.parse s
  | _ => none

def tsNs (row : Row F) : ℤ :=
  match row.fields "timestamp_ns" with
  | some (.int n) => n
  | _ => 0

end Row

section
variable {F : Type} (rt : PipelineRuntime F)

/-- `json!` of a number, which is null for a number that JSON does not have. -/
def jsonFloat (x : F) : Cell F := if rt.platform.isFinite x then .float x else .null

/-! ## Filters -/

def valueStr : Cell F → String
  | .str s => s
  | c => rt.cellText c

def valueMatches (v : Cell F) (needle : String) : Bool := eqIgnoreAsciiCase (valueStr rt v) needle

def Row.clauseHolds (row : Row F) : Clause F → Bool
  | .eq field value => (row.fields field).any fun v => valueMatches rt v value
  | .ne field value => (row.fields field).all fun v => !valueMatches rt v value
  | .re field regex =>
    match row.fields field, rt.platform.regex regex with
    | some v, .ok re => re.isMatch (valueStr rt v)
    | _, _ => false
  | .cmp field op value =>
    (row.getNum rt field).any fun n => op.compare rt.ql.toRuntime n value
  | .range field min max =>
    isDuration field &&
      (row.getNum rt field).any fun n => rt.platform.le min n && rt.platform.le n max
  | .exists field => (row.fields field).isSome
  | .severityMin severity =>
    (row.getNum rt "severity_number").any fun n =>
      rt.platform.le (rt.platform.ofInt ((severityRank severity).getD 9)) n
  | .not inner => !row.clauseHolds inner

def Row.termHolds (row : Row F) (t : SearchTerm) : Bool :=
  containsAsciiCi ((row.getStr "body").getD "") (rt.toLowercase t.text) != t.negate

def Row.atomHolds (row : Row F) : Atom F → Bool
  | .clause c => row.clauseHolds rt c
  | .term t => row.termHolds rt t

def Row.satisfies (row : Row F) (pred : Predicate F) : Bool := pred.holds (row.atomHolds rt)

/-! ## Parsing a field -/

def parseRow (re : Regex) (field : String) (row : Row F) : Row F :=
  match row.getStr "body" with
  | none => row
  | some body =>
    match (re.captures body).bind fun groups => groups.head?.join with
    | none => row
    | some text =>
      match rt.platform.parse text with
      | some n => row.insert field (jsonFloat rt n)
      | none => row.insert field (.str text)

/-! ## Statistics -/

structure Timeseries (F : Type) where
  timestamps : List ℤ
  series : List (List (String × Cell F) × List (List (Cell F)))

structure StatsTable (F : Type) where
  columns : List String
  rows : List (List (Cell F))
  timeseries : Option (Timeseries F)

inductive PipelineResult (F : Type) where
  | rows (rows : List (Row F))
  | table (t : StatsTable F)

def aggName : AggFn → String
  | .count => "count"
  | .avg => "avg"
  | .min => "min"
  | .max => "max"
  | .sum => "sum"
  | .p50 => "p50"
  | .p95 => "p95"
  | .p99 => "p99"

def defaultAggName (agg : AggSpec) : String :=
  agg.aliasName.getD (match agg.field with
    | some f => s!"{aggName agg.func}_{f}"
    | none => aggName agg.func)

/-- A percentile by interpolation between the two values around its place. -/
def percentile (q : ℚ) (nums : List F) : Eval (Cell F) := do
  let sorted ← rt.platform.sorted id false nums
  if sorted = [] then return .null
  else return jsonFloat rt (← quantileOf rt.platform (rt.platform.ofRat q) sorted)

def computeAgg (agg : AggSpec) (rows : List (Row F)) : Eval (Cell F) :=
  let nums := agg.field.elim [] fun f => rows.filterMap fun r => r.getNum rt f
  match agg.func with
  | .count => .ok (.int rows.length)
  | .sum => .ok (jsonFloat rt (rt.platform.sum nums))
  | .avg => .ok (if nums = [] then .null
      else jsonFloat rt (rt.platform.div (rt.platform.sum nums) (rt.platform.ofNat nums.length)))
  | .min => .ok (if nums = [] then .null
      else jsonFloat rt (nums.foldl rt.platform.min rt.platform.infinity))
  | .max => .ok (if nums = [] then .null
      else jsonFloat rt (nums.foldl rt.platform.max rt.platform.negInfinity))
  | .p50 => percentile rt (1 / 2) nums
  | .p95 => percentile rt (19 / 20) nums
  | .p99 => percentile rt (99 / 100) nums

def computeAggs (aggs : List AggSpec) (rows : List (Row F)) : Eval (List (Cell F)) :=
  gather (fun agg => do return [← computeAgg rt agg rows]) aggs

def statsKey (names : List String) (row : Row F) : List (Cell F) :=
  names.map fun f => (row.fields f).getD .null

def statsGroups (names : List String) (rows : List (Row F)) : List (List (Cell F) × List (Row F)) :=
  ((groupOn (fun r => rt.keyText (statsKey names r)) id rows).insertionSort
    fun a b => a.1 ≤ b.1).map fun g => ((g.2.head?.map (statsKey names)).getD [], g.2)

def snap (interval ts : ℤ) : ℤ := ts / interval * interval

def statsSeries (aggs : List AggSpec) (names : List String) (interval : ℤ) (timestamps : List ℤ)
    (group : List (Cell F) × List (Row F)) :
    Eval (List (String × Cell F) × List (List (Cell F))) := do
  let values ← gather (fun ts => do
    return [← computeAggs rt aggs (group.2.filter fun r => snap interval r.tsNs = ts)]) timestamps
  return (names.zip group.1, values)

def finishStats (rows : List (Row F)) (aggs : List AggSpec) (names : List String)
    (intervalNs : Option ℤ) : Eval (StatsTable F) :=
  let groups := statsGroups rt names rows
  let columns := names ++ aggs.map defaultAggName
  match intervalNs with
  | some interval => do
    let interval := max interval 1
    let timestamps := ((groups.flatMap Prod.snd).map fun r => snap interval r.tsNs).dedup
    let timestamps := timestamps.insertionSort (· ≤ ·)
    let series ←
      gather (fun g => do return [← statsSeries rt aggs names interval timestamps g]) groups
    return ⟨columns, [], some ⟨timestamps, series⟩⟩
  | none => do
    let rows ← gather (fun g => do return [g.1 ++ (← computeAggs rt aggs g.2)]) groups
    return ⟨columns, rows, none⟩

/-! ## The loop over the stages -/

def runStages : List (Stage F) → List (Row F) → Eval (PipelineResult F)
  | [], rows => .ok (.rows rows)
  | .fetch _ :: stages, rows => runStages stages rows
  | .filter pred :: stages, rows => runStages stages (rows.filter fun r => r.satisfies rt pred)
  | .parse pattern field :: stages, rows =>
    match rt.platform.regex pattern with
    | .error e => invalid s!"parse regex: {e}"
    | .ok re => runStages stages (rows.map (parseRow rt re field))
  | .stats aggs names intervalNs :: _, rows => do
    return .table (← finishStats rt rows aggs names intervalNs)
  | .limit n :: stages, rows => runStages stages (rows.take n)
  | .correlate _ _ :: stages, rows => runStages stages rows

/-! ## Groups and buckets -/

variable {rt} {names : List String} {rows : List (Row F)} {aggs : List AggSpec}

/-- The texts of the rows' keys tell the keys apart. -/
def KeysApart (rt : PipelineRuntime F) (names : List String) (rows : List (Row F)) : Prop :=
  ∀ r ∈ rows, ∀ r' ∈ rows, rt.keyText (statsKey names r) = rt.keyText (statsKey names r') →
    statsKey names r = statsKey names r'

theorem statsGroups_spec [DecidableEq F] (hkeyText : KeysApart rt names rows) :
    ∃ keys : List (List (Cell F)), statsGroups rt names rows =
        keys.map (fun key => (key, rows.filter fun r => statsKey names r = key)) ∧
      keys.Nodup ∧ ∀ key, key ∈ keys ↔ ∃ r ∈ rows, statsKey names r = key := by
  set text : Row F → String := fun r => rt.keyText (statsKey names r)
  set groups := (groupOn text id rows).insertionSort fun a b => a.1 ≤ b.1
  set first : String × List (Row F) → List (Cell F) :=
    fun g => (g.2.head?.map (statsKey names)).getD []
  have hmem : ∀ {g}, g ∈ groups ↔ g ∈ groupOn text id rows := mem_insertionSort _
  have hfirst : ∀ g ∈ groups,
      rt.keyText (first g) = g.1 ∧ ∃ r ∈ rows, statsKey names r = first g := by
    intro g hg
    obtain ⟨r, rest, hcons, hr, hkey⟩ := groupOn_cons (hmem.mp hg)
    have hkeyed : statsKey names r = first g := by
      simp only [first, hcons]
      rfl
    exact ⟨hkeyed ▸ hkey, r, hr, hkeyed⟩
  refine ⟨groups.map first, ?_, ?_, fun key => ⟨fun hkey => ?_, ?_⟩⟩
  · rw [map_map]
    refine map_congr_left fun g hg => Prod.ext rfl ?_
    rw [(mem_groupOn.mp (hmem.mp hg)).2, map_id]
    obtain ⟨htext, r', hr', hkey⟩ := hfirst g hg
    refine filter_congr fun r hr => decide_eq_decide.mpr ?_
    rw [← htext, ← hkey]
    exact ⟨hkeyText r hr r' hr', congrArg rt.keyText⟩
  · refine .of_map rt.keyText ?_
    rw [map_map, map_congr_left (f := rt.keyText ∘ first) (g := Prod.fst) fun g hg =>
      (hfirst g hg).1]
    exact (insertionSort_keys_lt (groupOn_keys_nodup text id rows)).imp ne_of_lt
  · obtain ⟨g, hg, rfl⟩ := mem_map.mp hkey
    exact (hfirst g hg).2
  · rintro ⟨r, hr, rfl⟩
    obtain ⟨g, hg, hgr⟩ := mem_map.mp (mem_keys_groupOn.mpr (mem_map_of_mem hr) :
      text r ∈ (groupOn text id rows).map Prod.fst)
    have hg := hmem.mpr hg
    obtain ⟨htext, r', hr', hkey⟩ := hfirst g hg
    refine mem_map.mpr ⟨g, hg, hkey.symm.trans (hkeyText r' hr' r hr ?_)⟩
    rw [hkey, htext, hgr]

theorem computeAggs_count {rs : List (Row F)} {values : List (Cell F)}
    (h : computeAggs rt aggs rs = .ok values) {i : ℕ} {agg : AggSpec} (hi : aggs[i]? = some agg)
    (hcount : agg.func = .count) : values[i]? = some (.int rs.length) := by
  obtain ⟨hlen, hall⟩ := forall₂_iff_get.mp (gather_return_iff.mp h)
  obtain ⟨hlt, rfl⟩ := List.getElem?_eq_some_iff.mp hi
  obtain ⟨c, hc, hv⟩ := hall i hlt (hlen ▸ hlt)
  rw [get_eq_getElem] at hc hv
  rw [computeAgg, hcount] at hc
  rw [List.getElem?_eq_getElem (hlen ▸ hlt), ← hv, ← Except.ok.inj hc]

theorem computeAggs_returns (rt : PipelineRuntime F)
    (h : ∀ agg ∈ aggs, agg.func ∉ [.p50, .p95, .p99]) (rs : List (Row F)) :
    ∃ values, computeAggs rt aggs rs = .ok values := by
  rw [computeAggs]
  induction aggs with
  | nil => exact ⟨[], rfl⟩
  | cons agg aggs ih =>
    obtain ⟨hagg, haggs⟩ := forall_mem_cons.mp h
    obtain ⟨values, hvalues⟩ := ih haggs
    obtain ⟨v, hv⟩ : ∃ v, computeAgg rt agg rs = .ok v := by
      unfold computeAgg
      cases hf : agg.func <;> first | exact ⟨_, rfl⟩ | simp [hf] at hagg
    exact ⟨v :: values, by rw [gather, hv, hvalues]; rfl⟩

theorem finishStats_returns (h : ∀ agg ∈ aggs, agg.func ∉ [.p50, .p95, .p99])
    (interval : Option ℤ) : ∃ t, finishStats rt rows aggs names interval = .ok t := by
  choose v hv using computeAggs_returns rt h
  have hgather {α β : Type} (f : α → β) (as : List α) :
      gather (fun a => (.ok [f a] : Eval (List β))) as = .ok (as.flatMap fun a => [f a]) :=
    gather_ok fun _ _ => rfl
  cases interval <;>
    exact ⟨_, by simp only [finishStats, statsSeries, hv, ok_bind, pure, Except.pure, hgather]; rfl⟩

/-- The table with buckets beside the rows of the table without. Both have one entry for each key
that a row has, and a cell is aggregated from the rows of its key and its bucket. -/
structure Bucketed [DecidableEq F] (rt : PipelineRuntime F) (names : List String)
    (rows : List (Row F)) (aggs : List AggSpec) (interval : ℤ) (keys : List (List (Cell F)))
    (table : Timeseries F) (totals : List (List (Cell F))) : Prop where
  keys_nodup : keys.Nodup
  mem_keys : ∀ key, key ∈ keys ↔
    ∃ r ∈ rows, (names.map fun name => (r.fields name).getD .null) = key
  ascending : table.timestamps.Pairwise (· < ·)
  mem_timestamps : ∀ ts, ts ∈ table.timestamps ↔ ∃ r ∈ rows, r.tsNs / interval * interval = ts
  cells : Forall₂ (fun key s => s.1 = names.zip key ∧ Forall₂ (fun ts values =>
    computeAggs rt aggs (rows.filter fun r => statsKey names r = key ∧
      r.tsNs / interval * interval = ts) = .ok values) table.timestamps s.2) keys table.series
  flat : Forall₂ (fun key row => ∃ values, row = key ++ values ∧
    computeAggs rt aggs (rows.filter fun r => statsKey names r = key) = .ok values) keys totals

/-- In the column of a count, the buckets of a series sum to the row of its group. -/
def CountsConserved (names : List String) (aggs : List AggSpec) (table : Timeseries F)
    (totals : List (List (Cell F))) : Prop :=
  ∀ i agg, aggs[i]? = some agg → agg.func = .count →
    Forall₂ (fun s row => ∃ counts : List ℕ,
      s.2.map (·[i]?) = counts.map (fun n : ℕ => some (Cell.int n)) ∧
      row[names.length + i]? = some (.int counts.sum)) table.series totals

theorem Bucketed.counts [DecidableEq F] {interval : ℤ} {keys totals : List (List (Cell F))}
    {table : Timeseries F} (h : Bucketed rt names rows aggs interval keys table totals) :
    CountsConserved names aggs table totals := by
  intro i agg hi hcount
  obtain ⟨hseries, hcells⟩ := forall₂_iff_get.mp h.cells
  obtain ⟨htotals, hflat⟩ := forall₂_iff_get.mp h.flat
  refine forall₂_iff_get.mpr ⟨hseries.symm.trans htotals, fun n hs hrow => ?_⟩
  obtain ⟨-, hvalues⟩ := hcells n (hseries ▸ hs) hs
  obtain ⟨values, hrow, htotal⟩ := hflat n (hseries ▸ hs) hrow
  obtain ⟨r, -, hkey⟩ := (h.mem_keys _).mp (get_mem keys ⟨n, hseries ▸ hs⟩)
  set key := keys.get ⟨n, hseries ▸ hs⟩
  have hlength : key.length = names.length := by rw [← hkey, length_map]
  set rs := rows.filter fun r => statsKey names r = key
  refine ⟨table.timestamps.map fun ts =>
    (rs.filter fun r => r.tsNs / interval * interval = ts).length, ?_, ?_⟩
  · rw [map_map, eq_comm, ← forall₂_eq_eq_eq, forall₂_map_left_iff, forall₂_map_right_iff]
    refine hvalues.imp fun ts v hv => ?_
    rw [computeAggs_count hv hi hcount, Function.comp_apply, filter_filter]
    simp only [Bool.decide_and, Bool.and_comm]
  · have hall : ∀ r ∈ rs, r.tsNs / interval * interval ∈ table.timestamps := fun r hr =>
      (h.mem_timestamps _).mpr ⟨r, mem_of_mem_filter hr, rfl⟩
    rw [sum_length_filter (h.ascending.imp ne_of_lt) hall, hrow, ← hlength,
      getElem?_append_right (Nat.le_add_right ..), Nat.add_sub_cancel_left]
    exact computeAggs_count htotal hi hcount

/-- **Buckets partition the rows.** Without a percentile, whose sort may panic, both tables are
made. The buckets ascend and are multiples of the interval, every row is aggregated in the one
cell of its key and its bucket, and counts are conserved. -/
theorem finishStats_partitions [DecidableEq F] {interval : ℤ} (hinterval : 1 ≤ interval)
    (hkeyText : KeysApart rt names rows) :
    ((∀ agg ∈ aggs, agg.func ∉ [.p50, .p95, .p99]) →
      ∀ i, ∃ t, finishStats rt rows aggs names i = .ok t) ∧
    ∀ t u, finishStats rt rows aggs names (some interval) = .ok t →
      finishStats rt rows aggs names none = .ok u →
      ∃ keys table, t.timeseries = some table ∧ (∀ ts ∈ table.timestamps, interval ∣ ts) ∧
        Bucketed rt names rows aggs interval keys table u.rows ∧
        CountsConserved names aggs table u.rows := by
  refine ⟨fun h i => finishStats_returns h i, fun t u ht hu => ?_⟩
  obtain ⟨keys, hgroups, hnodup, hkeys⟩ := statsGroups_spec hkeyText
  simp only [finishStats, hgroups, max_eq_left hinterval, flatMap_map] at ht hu
  obtain ⟨series, hseries, ht⟩ := bind_eq_ok.mp ht
  obtain ⟨totals, htotals, hu⟩ := bind_eq_ok.mp hu
  cases ht
  cases hu
  rw [gather_return_iff, forall₂_map_left_iff] at hseries htotals
  set starts := ((keys.flatMap fun key => rows.filter fun r => statsKey names r = key).map
    fun r => snap interval r.tsNs).dedup
  have hlt : (starts.insertionSort (· ≤ ·)).Pairwise (· < ·) := by
    have h := insertionSort_keys_lt ((map_id starts).symm ▸ nodup_dedup _ : (starts.map id).Nodup)
    rwa [map_id] at h
  have hstarts (ts : ℤ) : ts ∈ starts.insertionSort (· ≤ ·) ↔
      ∃ r ∈ rows, snap interval r.tsNs = ts := by
    simp only [starts, mem_insertionSort, mem_dedup, mem_map, mem_flatMap, mem_filter,
      decide_eq_true_eq, hkeys]
    grind
  have hbucketed : Bucketed rt names rows aggs interval keys
      ⟨starts.insertionSort (· ≤ ·), series⟩ totals := by
    refine ⟨hnodup, hkeys, hlt, hstarts, hseries.imp fun key s hs => ?_, ?_⟩
    · obtain ⟨c, hs, rfl⟩ := hs
      obtain ⟨values, hvalues, hs⟩ := bind_eq_ok.mp hs
      cases hs
      refine ⟨rfl, (gather_return_iff.mp hvalues).imp fun ts v hv => ?_⟩
      obtain ⟨w, hw, rfl⟩ := hv
      rw [← hw, filter_filter]
      refine congrArg _ (filter_congr fun r _ => ?_)
      rw [Bool.decide_and, Bool.and_comm]
      rfl
    · exact htotals.imp fun key row ⟨values, hvalues, hrow⟩ => ⟨values, hrow.symm, hvalues⟩
  refine ⟨keys, _, rfl, fun ts hts => ?_, hbucketed, hbucketed.counts⟩
  obtain ⟨r, -, rfl⟩ := (hstarts ts).mp hts
  exact dvd_mul_left _ _

end

namespace Sample

def wholeText : Regex where
  isMatch _ := true
  captures s := some [some s]

def pipelineRuntime : PipelineRuntime (Option ℚ) where
  platform := { exact with regex := fun _ => .ok wholeText }
  toLowercase s := s
  hex := .lower
  cellText c := match c with
    | .int n => toString n
    | _ => ""
  keyText cells := String.join (cells.map fun c => match c with
    | .str s => s
    | _ => "")

def rowAt (timestampNs : ℤ) (service : String) : Row (Option ℚ) where
  fields f := if f = "service" then some (.str service)
    else if f = "timestamp_ns" then some (.int timestampNs) else none

def threeRows : List (Row (Option ℚ)) := [rowAt 3 "web", rowAt 12 "api", rowAt 17 "web"]

end Sample

open Sample in
theorem finishStats_partitions_two_services : ∃ keys table,
    finishStats pipelineRuntime threeRows [⟨.count, none, none⟩] ["service"] (some 10) =
      .ok ⟨["service", "count"], [], some table⟩ ∧ table.timestamps = [0, 10] ∧
    Bucketed pipelineRuntime ["service"] threeRows [⟨.count, none, none⟩] 10 keys table
      [[.str "api", .int 1], [.str "web", .int 2]] := by
  have ht : finishStats pipelineRuntime threeRows [⟨.count, none, none⟩] ["service"] (some 10) =
      .ok ⟨["service", "count"], [],
        some ⟨[0, 10], [([("service", .str "api")], [[.int 0], [.int 1]]),
        ([("service", .str "web")], [[.int 1], [.int 1]])]⟩⟩ := by rfl
  have hu : finishStats pipelineRuntime threeRows [⟨.count, none, none⟩] ["service"] none =
      .ok ⟨["service", "count"], [[.str "api", .int 1], [.str "web", .int 2]], none⟩ := by rfl
  obtain ⟨keys, table, htable, -, h, -⟩ :=
    (finishStats_partitions (by decide) (by unfold KeysApart; decide)).2 _ _ ht hu
  cases htable
  exact ⟨keys, _, ht, rfl, h⟩

end Parqtel.Query
