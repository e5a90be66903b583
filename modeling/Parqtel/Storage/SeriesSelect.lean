import Parqtel.Storage.SeriesTable
import Parqtel.Lib.Postings
import Parqtel.Lib.Selection

/-!
# Which series of a block a query wants

`SeriesIndex.select` narrows the series of a metric by the postings of the selector's label
conditions and lets the selector's filter decide the rest. `select_spec` says that this is
testing every series. Conditions that follow from the filter (`SeriesSelector.Sound`) leave
the decision to it.
-/

namespace Parqtel.Storage

open Lib List

/-- What a scan wants to know about a block's series. `equals` and `valueTests` only narrow. -/
structure SeriesSelector where
  service : Option String
  equals : List (String × String)
  valueTests : List (String × (String → Bool))
  filter : Option (LabelSet → Bool)

namespace SeriesSelector

def all : SeriesSelector := ⟨none, [], [], none⟩

def withFilter (sel : SeriesSelector) (filter : Option (LabelSet → Bool)) : SeriesSelector :=
  { sel with filter := filter }

def accepts (sel : SeriesSelector) (labels : LabelSet) : Bool :=
  match sel.filter with
  | none => true
  | some f => f labels

def narrows (sel : SeriesSelector) (labels : LabelSet) : Bool :=
  (sel.equals.all fun e => labels.get e.1 = some e.2) &&
    sel.valueTests.all fun t => (labels.get t.1).any t.2

/-- The narrowing conditions hold of every label set the filter accepts. -/
def Sound (sel : SeriesSelector) : Prop :=
  ∀ labels, sel.accepts labels = true → (∀ e ∈ sel.equals, labels.get e.1 = some e.2) ∧
      ∀ t ∈ sel.valueTests, ∃ value, labels.get t.1 = some value ∧ t.2 value = true

theorem Sound.narrows {sel : SeriesSelector} (h : sel.Sound) {labels : LabelSet}
    (hacc : sel.accepts labels = true) : sel.narrows labels = true := by
  obtain ⟨hequals, htests⟩ := h labels hacc
  rw [SeriesSelector.narrows, Bool.and_eq_true, all_eq_true, all_eq_true]
  exact ⟨fun e he => decide_eq_true (hequals e he), fun t ht =>
    (Option.any_eq_true ..).mpr (htests t ht)⟩

end SeriesSelector

namespace SeriesIndex

def posting (ix : SeriesIndex) (label value : String) : List ℕ :=
  (ix.postings.filter fun p => p.1 = label ∧ p.2.1 = value).map fun p => p.2.2

def values (ix : SeriesIndex) (label : String) : List String :=
  ((ix.postings.filter fun p => p.1 = label).map fun p => p.2.1).dedup

def rangesFor (ix : SeriesIndex) (metric : String) : List (ℕ × ℕ) :=
  if metric = "" then [(0, ix.series.length)]
  else (ix.metricRanges.filter fun r => r.1 = metric).map Prod.snd

def candidateLists (ix : SeriesIndex) (sel : SeriesSelector) (ranges : List (ℕ × ℕ)) :
    List (List ℕ) :=
  sel.equals.map (fun e => restrict (ix.posting e.1 e.2) ranges) ++
    sel.valueTests.map fun t => sortDedup <| (ix.values t.1).flatMap fun value =>
      if t.2 value then restrict (ix.posting t.1 value) ranges else []

def wanted (ix : SeriesIndex) (sel : SeriesSelector) (startNs endNs : Int) (id : ℕ) : Bool :=
  match ix.series[id]? with
  | none => false
  | some s => s.minTs ≤ endNs && startNs ≤ s.maxTs && sel.accepts s.labels

def select (ix : SeriesIndex) (metric : String) (sel : SeriesSelector) (startNs endNs : Int) :
    List ℕ :=
  let ranges := ix.rangesFor metric
  let lists := ix.candidateLists sel ranges
  -- a condition that no series of the metric meets ends the search
  if [] ∈ lists then []
  else
    let candidates :=
      if lists = [] then ranges.flatMap fun r => List.range' r.1 (r.2 - r.1)
      else intersectAll lists
    candidates.filter (ix.wanted sel startNs endNs)

end SeriesIndex

/-! ## Postings -/

variable {label value : String} {id : ℕ}

theorem postingsOf_eq (es : List SeriesEntry) (i : ℕ) : postingsOf i es =
    (es.zipIdx i).flatMap fun e => e.1.labels.entries.map fun kv => (kv.1, kv.2, e.2) := by
  induction es generalizing i with
  | nil => rfl
  | cons e es ih => rw [postingsOf, ih, zipIdx_cons, flatMap_cons]

theorem mem_postingsOf {es : List SeriesEntry} {i : ℕ} : (label, value, id) ∈ postingsOf i es ↔
      i ≤ id ∧ ∃ e, es[id - i]? = some e ∧ e.labels.get label = some value := by
  simp only [postingsOf_eq, mem_flatMap, mem_map, Prod.exists, Prod.mk.injEq,
    mk_mem_zipIdx_iff_le_and_getElem?_sub, LabelSet.get_eq_some]
  constructor
  · rintro ⟨e, n, ⟨hle, he⟩, k, v, hmem, rfl, rfl, rfl⟩
    exact ⟨hle, e, he, hmem⟩
  · rintro ⟨hle, e, he, hmem⟩
    exact ⟨e, id, ⟨hle, he⟩, label, value, hmem, rfl, rfl, rfl⟩

/-- A series is listed once under each of its labels, and in order. -/
theorem postingsOf_ascend (es : List SeriesEntry) (i : ℕ) :
    (postingsOf i es).Pairwise fun p q => p.1 = q.1 → p.2.2 < q.2.2 := by
  induction es generalizing i with
  | nil => exact .nil
  | cons e es ih =>
    refine pairwise_append.mpr ⟨pairwise_map.mpr ?_, ih (i + 1), ?_⟩
    · exact e.labels.sorted.imp fun hlt heq => absurd heq hlt.ne
    · intro p hp q hq _
      obtain ⟨kv, -, rfl⟩ := mem_map.mp hp
      exact (mem_postingsOf.mp hq).1

namespace SeriesIndex

variable {ix : SeriesIndex}

theorem mem_posting : id ∈ ix.posting label value ↔
      ∃ e, ix.series[id]? = some e ∧ e.labels.get label = some value := by
  have hmem : id ∈ ix.posting label value ↔ (label, value, id) ∈ ix.postings := by
    simp only [posting, mem_map, mem_filter, decide_eq_true_eq]
    constructor
    · rintro ⟨⟨l, v, i⟩, ⟨hp, rfl, rfl⟩, rfl⟩
      exact hp
    · exact fun h => ⟨_, ⟨h, rfl, rfl⟩, rfl⟩
  rw [hmem, ix.postings_eq, mem_postingsOf, Nat.sub_zero]
  exact and_iff_right (Nat.zero_le _)

theorem ascending_posting (label value : String) : Ascending (ix.posting label value) := by
  rw [posting, ix.postings_eq]
  refine pairwise_map.mpr (((postingsOf_ascend ix.series 0).filter _).imp_of_mem ?_)
  intro p q hp hq hlt
  have hpl := (of_decide_eq_true (mem_filter.mp hp).2).1
  have hql := (of_decide_eq_true (mem_filter.mp hq).2).1
  exact hlt (hpl.trans hql.symm)

theorem mem_values (h : id ∈ ix.posting label value) : value ∈ ix.values label := by
  obtain ⟨p, hp, -⟩ := mem_map.mp h
  obtain ⟨hp, hd⟩ := mem_filter.mp hp
  obtain ⟨hl, hv⟩ := of_decide_eq_true hd
  exact mem_dedup.mpr (mem_map.mpr ⟨p, mem_filter.mpr ⟨hp, by simpa using hl⟩, hv⟩)

/-! ## Ranges of a metric -/

def ofMetric (ix : SeriesIndex) (metric : String) (id : ℕ) : Bool :=
  metric = "" || ix.metricRanges.any fun r => r.1 = metric ∧ r.2.1 ≤ id ∧ id < r.2.2

theorem runsFrom_bounds {α : Type*} {next n : ℕ} {runs : List (α × ℕ × ℕ)}
    (h : RunsFrom next runs n) :
    (runs.Pairwise fun a b => a.2.2 ≤ b.2.1) ∧ next ≤ n ∧ ∀ r ∈ runs, next ≤ r.2.1 ∧ r.2.2 ≤ n := by
  induction runs generalizing next with
  | nil => exact ⟨.nil, le_of_eq h, nofun⟩
  | cons run runs ih =>
    obtain ⟨hlo, hle, hrest⟩ := h
    obtain ⟨hpair, hn, hall⟩ := ih hrest
    refine ⟨pairwise_cons.mpr ⟨fun r hr => (hall r hr).1, hpair⟩, by omega, ?_⟩
    refine forall_mem_cons.mpr ⟨⟨hlo.ge, hn⟩, fun r hr => ?_⟩
    have := hall r hr
    omega

theorem rangesFor_ascend (ix : SeriesIndex) (metric : String) :
    (ix.rangesFor metric).Pairwise fun a b => a.2 ≤ b.1 := by
  unfold rangesFor
  split_ifs
  · exact pairwise_singleton _ _
  · exact pairwise_map.mpr ((runsFrom_bounds ix.ranges_cover).1.filter _)

theorem mem_rangesFor {metric : String} : (∃ r ∈ ix.rangesFor metric, r.1 ≤ id ∧ id < r.2) ↔
      id < ix.series.length ∧ ix.ofMetric metric id = true := by
  unfold rangesFor ofMetric
  split_ifs with hm
  · simp [hm]
  · rw [Bool.or_eq_true, decide_eq_true_eq, or_iff_right hm, any_eq_true]
    constructor
    · rintro ⟨r, hr, hle, hlt⟩
      obtain ⟨run, hrun, rfl⟩ := mem_map.mp hr
      obtain ⟨hrun, hname⟩ := mem_filter.mp hrun
      have hn := ((runsFrom_bounds ix.ranges_cover).2.2 run hrun).2
      exact ⟨by omega, run, hrun, decide_eq_true ⟨of_decide_eq_true hname, hle, hlt⟩⟩
    · rintro ⟨-, run, hrun, hd⟩
      obtain ⟨hname, hle, hlt⟩ := of_decide_eq_true hd
      exact ⟨run.2, mem_map.mpr ⟨run, mem_filter.mpr ⟨hrun, decide_eq_true hname⟩, rfl⟩,
        hle, hlt⟩

/-! ## Narrowing loses nothing -/

section
variable {sel : SeriesSelector} {startNs endNs : Int} {metric : String} {id : ℕ}

variable {l : List ℕ}

theorem ascending_candidateLists (hl : l ∈ ix.candidateLists sel (ix.rangesFor metric)) :
    Ascending l := by
  rcases mem_append.mp hl with hl | hl
  · obtain ⟨e, -, rfl⟩ := mem_map.mp hl
    exact ascending_restrict (ascending_posting e.1 e.2) (ix.rangesFor_ascend metric)
  · obtain ⟨t, -, rfl⟩ := mem_map.mp hl
    exact ascending_sortDedup _

theorem inRanges_of_candidate (hl : l ∈ ix.candidateLists sel (ix.rangesFor metric))
    (hid : id ∈ l) :
    ∃ r ∈ ix.rangesFor metric, r.1 ≤ id ∧ id < r.2 := by
  rcases mem_append.mp hl with hl | hl
  · obtain ⟨e, -, rfl⟩ := mem_map.mp hl
    exact ((mem_restrict (ascending_posting e.1 e.2)).mp hid).2
  · obtain ⟨t, -, rfl⟩ := mem_map.mp hl
    obtain ⟨value, -, hid⟩ := mem_flatMap.mp (mem_sortDedup.mp hid)
    split_ifs at hid
    · exact ((mem_restrict (ascending_posting t.1 value)).mp hid).2
    · cases hid

theorem mem_candidateLists {e : SeriesEntry} (he : ix.series[id]? = some e)
    (hr : ∃ r ∈ ix.rangesFor metric, r.1 ≤ id ∧ id < r.2) :
    (∀ l ∈ ix.candidateLists sel (ix.rangesFor metric), id ∈ l) ↔ sel.narrows e.labels = true := by
  have hequals (label value : String) :
      id ∈ restrict (ix.posting label value) (ix.rangesFor metric) ↔
        e.labels.get label = some value := by
    rw [mem_restrict (ascending_posting label value), and_iff_left hr, mem_posting]
    simp [he]
  have htests (label : String) (test : String → Bool) :
      (id ∈ sortDedup ((ix.values label).flatMap fun value =>
        if test value then restrict (ix.posting label value) (ix.rangesFor metric) else [])) ↔
        (e.labels.get label).any test = true := by
    rw [mem_sortDedup, mem_flatMap, Option.any_eq_true]
    constructor
    · rintro ⟨value, -, hid⟩
      split_ifs at hid with htest
      · exact ⟨value, (hequals label value).mp hid, htest⟩
      · cases hid
    · rintro ⟨value, hget, htest⟩
      refine ⟨value, mem_values (mem_posting.mpr ⟨e, he, hget⟩), ?_⟩
      rw [if_pos htest]
      exact (hequals label value).mpr hget
  unfold candidateLists SeriesSelector.narrows
  rw [forall_mem_append, forall_mem_map, forall_mem_map, Bool.and_eq_true, all_eq_true, all_eq_true]
  simp only [hequals, htests, decide_eq_true_eq]

def selects (ix : SeriesIndex) (metric : String) (sel : SeriesSelector) (startNs endNs : Int)
    (id : ℕ) : Bool :=
  ix.ofMetric metric id && ix.wanted sel startNs endNs id &&
    ix.series[id]?.any fun e => sel.narrows e.labels

/-- **Selection is brute force**, in order. -/
theorem select_spec (ix : SeriesIndex) (metric : String) (sel : SeriesSelector)
    (startNs endNs : Int) : ix.select metric sel startNs endNs =
      (List.range ix.series.length).filter (ix.selects metric sel startNs endNs) := by
  have hgoal : Ascending ((List.range ix.series.length).filter
      (ix.selects metric sel startNs endNs)) := pairwise_lt_range.filter _
  have hright (id : ℕ) : id ∈ (List.range ix.series.length).filter
      (ix.selects metric sel startNs endNs) ↔ ((∃ r ∈ ix.rangesFor metric, r.1 ≤ id ∧ id < r.2) ∧
        ∀ l ∈ ix.candidateLists sel (ix.rangesFor metric), id ∈ l) ∧
        ix.wanted sel startNs endNs id = true := by
    rw [mem_filter, mem_range, selects, Bool.and_eq_true, Bool.and_eq_true, and_right_comm,
      ← and_assoc, ← and_assoc, ← mem_rangesFor]
    refine and_congr_left fun _ => and_congr_right fun hr => ?_
    have hid := (mem_rangesFor.mp hr).1
    rw [getElem?_eq_getElem hid, mem_candidateLists (getElem?_eq_getElem hid) hr]
    rfl
  unfold select
  dsimp only
  split_ifs with hempty hnone
  · -- the empty list would have to hold every wanted series
    symm
    refine eq_nil_iff_forall_not_mem.mpr fun id hid => ?_
    cases ((hright id).mp hid).1.2 [] hempty
  · refine ((ascending_range' (ix.rangesFor_ascend metric)).filter _).eq_of_mem_iff hgoal
      fun id => ?_
    rw [hright, mem_filter, mem_flatMap, hnone, and_iff_left (forall_mem_nil _)]
    refine and_congr_left fun _ => exists_congr fun r => and_congr_right fun _ => ?_
    rw [mem_range'_1]
    omega
  · obtain ⟨hasc, hmem⟩ := intersectAll_spec hnone
      (fun l hl => ascending_candidateLists hl :
        ∀ l ∈ ix.candidateLists sel (ix.rangesFor metric), Ascending l)
    refine (hasc.filter _).eq_of_mem_iff hgoal fun id => ?_
    rw [hright, mem_filter, hmem]
    refine and_congr_left fun _ => ⟨fun hall => ⟨?_, hall⟩, And.right⟩
    obtain ⟨l, lists, hl⟩ := exists_cons_of_ne_nil hnone
    have hl : l ∈ ix.candidateLists sel (ix.rangesFor metric) := by rw [hl]; exact mem_cons_self
    exact inRanges_of_candidate hl (hall l hl)

end

end SeriesIndex

end Parqtel.Storage
