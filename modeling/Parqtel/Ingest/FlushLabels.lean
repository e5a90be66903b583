import Parqtel.Ingest.Rotator
import Parqtel.Storage.MetricScan

/-!
# Labels before and after a flush

A point is reported with the service name of its resource among its labels. The memory
buffer adds it when the point arrives (`bufferPoint`) and lets a service name of the point's
own stand. A block has it in a column, and a scan puts a non-empty one over the point's own
(`mergedLabels`), as the series table does. `bufferPoint_labels` compares the two rules.
-/

namespace Parqtel.Ingest

open Lib Buffer Storage List MetricRun LabelSet SeriesSlot SeriesSelector

variable {V : Type*}

/-- The rules for the service name give the same labels: the resource has none, or its name is
not empty and the point has no other, or its name is empty and the point has one. -/
def SameService (resource labels : LabelSet) : Prop :=
  ∀ svc ∈ resource.get "service.name",
    match labels.get "service.name" with
    | none => svc ≠ ""
    | some own => svc = "" ∨ own = svc

theorem with_eq_self {labels : LabelSet} {key value : String} :
    labels.with key value = labels ↔ labels.get key = some value := by
  constructor
  · intro h
    rw [← h, get_with, if_pos rfl]
  · intro h
    refine ext_get fun k => ?_
    rw [get_with]
    split_ifs with hk
    · rw [hk, h]
    · rfl

/-- **The two rules compared.** -/
theorem bufferPoint_labels (resource : LabelSet) (p : DataPoint V) :
    (bufferPoint resource p).labels =
        mergedLabels p.labels (extractCorrelationLabels resource).2.serviceName ↔
      SameService resource p.labels := by
  show (bufferPoint resource p).labels = mergedLabels p.labels (resource.get "service.name") ↔ _
  unfold bufferPoint mergedLabels SameService
  cases hres : resource.get "service.name" with
  | none => simp
  | some svc =>
    simp only [Option.mem_def, Option.some.injEq, forall_eq']
    cases hown : p.labels.get "service.name" with
    | none =>
      rw [if_neg (by simp)]
      split_ifs with hempty
      · refine iff_of_false (fun h => ?_) (fun h => h hempty)
        rw [with_eq_self.mp h] at hown
        cases hown
      · exact iff_of_true rfl hempty
    | some own =>
      rw [if_pos (Option.isSome_some)]
      split_ifs with hempty
      · exact iff_of_true rfl (.inl hempty)
      · rw [eq_comm, with_eq_self, hown, Option.some.injEq]
        exact (or_iff_right hempty).symm

def relabelled (m : Metric V) (startNs endNs : Int) (labels : DataPoint V → LabelSet) :
    List (DataPoint V) :=
  (m.dataPoints.filter fun p => inWindow startNs endNs p.timestampNs).map fun p =>
    { p with labels := labels p }

def blockLabels (m : Metric V) (p : DataPoint V) : LabelSet :=
  mergedLabels p.labels (extractCorrelationLabels m.resourceAttributes).2.serviceName

theorem decodeBlock_ofMetric (m : Metric V) (startNs endNs : Int) :
    decodeBlock (metricRunsToBlock [ofMetric m]).1 m.name startNs endNs
        all.accepts = relabelled m startNs endNs (blockLabels m) := by
  have hrows : (metricRunsToBlock [ofMetric m]).1 =
      m.dataPoints.map (ofMetric m).columns := append_nil _
  rw [hrows, decodeBlock, filter_map, map_map]
  have hname (p : DataPoint V) : considered m.name startNs endNs ((ofMetric m).columns p) =
      inWindow startNs endNs p.timestampNs := by
    rw [considered, decide_eq_true (show ((ofMetric m).columns p).metricName = m.name from rfl),
      Bool.or_true, Bool.and_true]
    rfl
  have hkeep : (fun row => considered m.name startNs endNs row &&
      all.accepts row.reported) ∘ (ofMetric m).columns =
      fun p => inWindow startNs endNs p.timestampNs :=
    funext fun p => (Bool.and_true _).trans (hname p)
  rw [hkeep]
  rfl

theorem scanFiltered_bufferPoints (m : Metric V) (t : Tag) (startNs endNs : Int) :
    ((empty.push (bufferPoints m) t).scanFiltered startNs endNs none).1 =
      relabelled m startNs endNs fun p => (bufferPoint m.resourceAttributes p).labels := by
  have hsame (p : DataPoint V) : bufferPoint m.resourceAttributes p =
      { p with labels := (bufferPoint m.resourceAttributes p).labels } := by
    unfold bufferPoint
    split
    · rfl
    · split_ifs <;> rfl
  have hpoints : (empty.push (bufferPoints m) t).points = bufferPoints m :=
    Slot.points_push _ _ _
  rw [scanFiltered_points, hpoints, bufferPoints, filter_map, relabelled]
  have hts (p : DataPoint V) :
      (bufferPoint m.resourceAttributes p).timestampNs = p.timestampNs := by
    rw [hsame p]
  simp only [Option.all_none, filter_true]
  refine (map_congr_left fun p _ => hsame p).trans ?_
  congr 1
  refine filter_congr fun p _ => ?_
  rw [Function.comp_apply, hts, inWindow]

theorem relabelled_eq_iff {m : Metric V} {startNs endNs : Int} {f g : DataPoint V → LabelSet} :
    relabelled m startNs endNs f = relabelled m startNs endNs g ↔
      ∀ p ∈ m.dataPoints, inWindow startNs endNs p.timestampNs = true → f p = g p := by
  rw [relabelled, relabelled, map_inj_left]
  constructor
  · intro h p hp hw
    exact congrArg DataPoint.labels (h p (mem_filter.mpr ⟨hp, hw⟩))
  · intro h p hp
    obtain ⟨hp, hw⟩ := mem_filter.mp hp
    rw [h p hp hw]

/-- **A flush keeps the labels** of a window's points, through the table and without it, exactly
if the two rules agree on them. -/
theorem flush_keeps_labels_iff (m : Metric V) (file : MetricFile [ofMetric m]) (t : Tag)
    (startNs endNs : Int) :
    (∃ ix scan, loadSeries (some (metricRunsToBlock [ofMetric m]).2)
          (metricRunsToBlock [ofMetric m]).1.length = some ix ∧
        scanBlockIndexed file.groups ix m.name startNs endNs .all = .ok scan ∧
        scan.points =
          ((empty.push (bufferPoints m) t).scanFiltered startNs endNs none).1 ∧
        (scanBlockFiltered file.groups none m.name startNs endNs .all).points =
          ((empty.push (bufferPoints m) t).scanFiltered startNs endNs none).1) ↔
      ∀ p ∈ m.dataPoints, inWindow startNs endNs p.timestampNs = true →
        SameService m.resourceAttributes p.labels := by
  have hsound : all.Sound := fun _ _ => ⟨nofun, nofun⟩
  obtain ⟨ix, hload, hseries, hranges⟩ := loadSeries_block [ofMetric m]
  obtain ⟨scan, hscan, hpoints⟩ :=
    scanBlockIndexed_eq file hseries hranges hsound m.name startNs endNs
  have hrows : (scanBlockFiltered file.groups none m.name startNs endNs .all).points =
      decodeBlock (metricRunsToBlock [ofMetric m]).1 m.name startNs endNs
        all.accepts := by
    rw [← file.rows_eq]
    exact scanBlockRows_eq fun _ _ _ => rfl
  rw [decodeBlock_ofMetric] at hpoints hrows
  have hagree : (∀ p ∈ m.dataPoints, inWindow startNs endNs p.timestampNs = true →
      SameService m.resourceAttributes p.labels) ↔
      relabelled m startNs endNs (fun p => (bufferPoint m.resourceAttributes p).labels) =
        relabelled m startNs endNs (blockLabels m) := by
    rw [relabelled_eq_iff]
    exact forall₃_congr fun p _ _ => (bufferPoint_labels m.resourceAttributes p).symm
  rw [hagree, scanFiltered_bufferPoints]
  constructor
  · rintro ⟨_, _, -, -, -, h⟩
    rw [← h, hrows]
  · intro h
    exact ⟨ix, scan, hload, hscan, hpoints.trans h.symm, hrows.trans h.symm⟩

def proxied : Metric ℕ :=
  ⟨"up", "", "", .gauge, empty.with "service.name" "web",
    [⟨1, 7, empty.with "service.name" "api"⟩]⟩

def proxiedFile : MetricFile [ofMetric proxied] where
  groups := [{
    rows := (metricRunsToBlock [ofMetric proxied]).1
    timestamps := ⟨none, nofun⟩
    metricName := ⟨none, none, nofun, nofun⟩
    serviceName := ⟨none, none, nofun, nofun⟩ }]
  rows_eq := rfl

/-- The point belongs to `api` while it is buffered and to `web` once it is in a block. -/
theorem flush_relabels :
    ((empty.push (bufferPoints proxied) ⟨0, 1⟩).scanFiltered 0 10 none).1 =
      [⟨1, 7, empty.with "service.name" "api"⟩] ∧
    (scanBlockFiltered proxiedFile.groups none "up" 0 10 .all).points =
      [⟨1, 7, empty.with "service.name" "web"⟩] ∧
    (scanBlockFiltered proxiedFile.groups
        (loadSeries (some (metricRunsToBlock [ofMetric proxied]).2) 1) "up" 0 10
        .all).points =
      [⟨1, 7, empty.with "service.name" "web"⟩] := by
  decide +kernel

end Parqtel.Ingest
