import Parqtel.Lib.Timeline
import Parqtel.Query.Load

/-!
# The loaded series

What `load` puts into the tables of the evaluator. The entry of a metric has the series of its
selectors one after the other (`lookup_tableOf`). The series of one selector are its points,
grouped by fingerprint and sorted by time: a group has the points of its fingerprint
(`mem_seriesGroups`), and the groups of a part of the points are the groups with that part
(`seriesGroups_filter`).
-/

namespace Parqtel.Query

open Lib Storage List

/-! ## Tables by metric -/

section
variable {β : Type}

theorem lookup_extendEntry (name : String) (xs : List β) (data : List (String × List β))
    (n : String) :
    (extendEntry name xs data).lookup n =
      if n = name then some ((data.lookup n).getD [] ++ xs) else data.lookup n := by
  have hmap : ∀ es : List (String × List β),
      (es.map fun e => if e.1 = name then (e.1, e.2 ++ xs) else e).lookup n =
        (es.lookup n).map fun v => if n = name then v ++ xs else v := by
    intro es
    induction es with
    | nil => rfl
    | cons e es ih =>
      rw [map_cons, lookup_entry, lookup_entry, ih]
      by_cases he : e.1 = name
      · simp only [he, if_true]
        split_ifs <;> simp
      · by_cases hn : n = e.1
        · simp [he, hn]
        · simp [he, hn]
  unfold extendEntry
  split_ifs with hmem hn hn
  · subst hn
    obtain ⟨v, hv⟩ := Option.ne_none_iff_exists'.mp fun h => lookup_eq_none.mp h hmem
    rw [hmap, hv]
    simp
  · rw [hmap]
    simp [hn]
  · subst hn
    rw [lookup_append, lookup_eq_none.mpr hmem]
    simp
  · rw [lookup_append, lookup_entry, if_neg hn]
    simp

def tableOf (xs : MetricRef → List β) (refs : List MetricRef) : List (String × List β) :=
  refs.foldl (fun data ref => extendEntry ref.1 (xs ref) data) []

/-- **The entry of a metric** is made of what its selectors contribute. -/
theorem lookup_tableOf (xs : MetricRef → List β) (refs : List MetricRef) (n : String) :
    (tableOf xs refs).lookup n =
      if n ∈ refs.map Prod.fst then some ((refs.filter fun ref => ref.1 = n).flatMap xs)
      else none := by
  induction refs using List.reverseRecOn with
  | nil => rfl
  | append_singleton refs ref ih =>
    unfold tableOf at ih ⊢
    rw [foldl_concat, lookup_extendEntry, ih, map_append, filter_append, flatMap_append]
    by_cases hn : n = ref.1
    · subst hn
      by_cases hmem : ref.1 ∈ refs.map Prod.fst
      · simp [hmem]
      · have hnone : refs.filter (fun r => r.1 = ref.1) = [] :=
          filter_eq_nil_iff.mpr fun r hr hk =>
            hmem (of_decide_eq_true hk ▸ mem_map_of_mem hr)
        simp [hmem, hnone]
    · simp only [hn, Ne.symm hn, if_false, mem_append, map_cons, map_nil, mem_singleton, or_false,
        filter_cons, decide_false, Bool.false_eq_true, filter_nil, flatMap_nil, append_nil]

end

section
variable {F : Type} (exec : QueryExecutor) (p : Platform F) (store : Store F) (times : ℤ → Bool)
  (startNs endNs : ℤ) (refs : List MetricRef)

theorem load_data : (exec.load p store times startNs endNs refs).data =
    tableOf (fun ref => (exec.buildRef p store times startNs endNs ref).numeric) refs :=
  (foldl_hom Loaded.data fun _ _ => rfl).symm

theorem load_histData : (exec.load p store times startNs endNs refs).histData =
    tableOf (fun ref => (exec.buildRef p store times startNs endNs ref).histograms) refs :=
  (foldl_hom Loaded.histData fun _ _ => rfl).symm

end

/-! ## Groups -/

section
variable {F : Type} {raw : List (Point F)}

theorem seriesGroups_sorted (raw : List (Point F)) :
    (seriesGroups raw).Pairwise fun a b => (a.1 : ℤ) ≤ b.1 := sortByKey_sorted _ _

theorem seriesGroups_nodup (raw : List (Point F)) :
    ((seriesGroups raw).map fun g => (g.1 : ℤ)).Nodup := by
  have h := groupOn_keys_nodup (fun dp : Point F => dp.labels.fingerprint) id raw
  have hcast := h.map (f := fun n : ℕ => (n : ℤ)) Int.ofNat_injective
  rw [map_map] at hcast
  exact ((sortByKey_perm _ _).map _).nodup_iff.mpr hcast

variable {g : ℕ × List (Point F)}

theorem mem_seriesGroups : g ∈ seriesGroups raw ↔ g.1 ∈ raw.map (fun dp => dp.labels.fingerprint) ∧
      g.2 = raw.filter fun dp => dp.labels.fingerprint = g.1 := by
  unfold seriesGroups
  rw [(sortByKey_perm _ _).mem_iff, mem_groupOn, map_id]

def keepPoints (q : Point F → Bool) (g : ℕ × List (Point F)) : Option (ℕ × List (Point F)) :=
  match g.2.filter q with
  | [] => none
  | points => some (g.1, points)

theorem keepPoints_eq_some {q : Point F → Bool} {g' : ℕ × List (Point F)} :
    keepPoints q g = some g' ↔ g'.1 = g.1 ∧ g'.2 = g.2.filter q ∧ g'.2 ≠ [] := by
  unfold keepPoints
  obtain ⟨k', points'⟩ := g'
  cases g.2.filter q with
  | nil =>
    refine ⟨nofun, ?_⟩
    rintro ⟨-, h, hne⟩
    exact absurd h hne
  | cons a as =>
    constructor
    · intro h
      cases h
      exact ⟨rfl, rfl, cons_ne_nil a as⟩
    · rintro ⟨rfl, rfl, -⟩
      rfl

theorem keepPoints_key {q : Point F → Bool} {g' : ℕ × List (Point F)} (h : keepPoints q g = some g')
    : g'.1 = g.1 := (keepPoints_eq_some.mp h).1

/-- **The groups of a part of the points** are the groups with that part. -/
theorem seriesGroups_filter (q : Point F → Bool) (raw : List (Point F)) :
    seriesGroups (raw.filter q) = (seriesGroups raw).filterMap (keepPoints q) := by
  have hkeys : (((seriesGroups raw).filterMap (keepPoints q)).map fun g => (g.1 : ℤ)).Sublist
      ((seriesGroups raw).map fun g => (g.1 : ℤ)) := by
    induction seriesGroups raw with
    | nil => exact List.Sublist.refl _
    | cons g gs ih =>
      rw [filterMap_cons]
      cases h : keepPoints q g with
      | none => exact ih.trans (sublist_cons_self _ _)
      | some g' =>
        rw [map_cons, map_cons, keepPoints_key h]
        exact ih.cons_cons _
  have hsorted := pairwise_map.mp
    ((pairwise_map.mpr (seriesGroups_sorted raw)).sublist hkeys)
  refine eq_of_keys_sorted (seriesGroups_sorted _) hsorted (seriesGroups_nodup _)
    ((seriesGroups_nodup raw).sublist hkeys) fun g => ?_
  rw [mem_seriesGroups, mem_filterMap]
  constructor
  · rintro ⟨hkey, hpoints⟩
    obtain ⟨dp, hdp, hfp⟩ := mem_map.mp hkey
    obtain ⟨hraw, hq⟩ := mem_filter.mp hdp
    refine ⟨(g.1, raw.filter fun dp => dp.labels.fingerprint = g.1),
      mem_seriesGroups.mpr ⟨hfp ▸ mem_map_of_mem hraw, rfl⟩, ?_⟩
    refine keepPoints_eq_some.mpr ⟨rfl, ?_, ?_⟩
    · rw [hpoints, filter_filter, filter_filter]
      exact filter_congr fun a _ => Bool.and_comm _ _
    · rw [hpoints]
      exact ne_nil_of_mem (mem_filter.mpr ⟨hdp, decide_eq_true hfp⟩)
  · rintro ⟨g₀, hg₀, hkeep⟩
    obtain ⟨hkey, hpoints⟩ := mem_seriesGroups.mp hg₀
    obtain ⟨h1, h2, h3⟩ := keepPoints_eq_some.mp hkeep
    have hg : g.2 = (raw.filter q).filter fun dp => dp.labels.fingerprint = g.1 := by
      rw [h2, hpoints, h1, filter_filter, filter_filter]
      exact filter_congr fun a _ => Bool.and_comm _ _
    refine ⟨?_, hg⟩
    obtain ⟨dp, hdp⟩ := exists_mem_of_ne_nil _ h3
    rw [hg] at hdp
    obtain ⟨hdp, hfp⟩ := mem_filter.mp hdp
    exact of_decide_eq_true hfp ▸ mem_map_of_mem hdp

/-! ## Series -/

def Distinguished (raw : List (Point F)) : Prop :=
  ∀ a ∈ raw, ∀ b ∈ raw, a.labels.fingerprint = b.labels.fingerprint → a.labels = b.labels

/-- The points are within the limits of the executor. -/
structure QueryExecutor.Within (exec : QueryExecutor) (raw : List (Point F)) : Prop where
  series : (seriesGroups raw).length ≤ exec.maxSeries
  samples : ∀ g ∈ seriesGroups raw, g.2.length ≤ exec.maxSamplesPerSeries

theorem firstLabels_eq {points : List (Point F)} {labels : LabelSet} (hne : points ≠ [])
    (h : ∀ dp ∈ points, dp.labels = labels) : firstLabels points = labels := by
  cases points with
  | nil => exact absurd rfl hne
  | cons dp points => exact h dp mem_cons_self

theorem labels_of_mem_group (hraw : Distinguished raw) (hg : g ∈ seriesGroups raw) :
    ∀ dp ∈ g.2, dp.labels = firstLabels g.2 := by
  intro dp hdp
  have hpoints := (mem_seriesGroups.mp hg).2
  have hmem : ∀ a ∈ g.2, a ∈ raw ∧ a.labels.fingerprint = g.1 := by
    intro a ha
    rw [hpoints] at ha
    obtain ⟨hraw, hfp⟩ := mem_filter.mp ha
    exact ⟨hraw, of_decide_eq_true hfp⟩
  refine (firstLabels_eq (ne_nil_of_mem hdp) fun a ha => ?_).symm
  exact hraw a (hmem a ha).1 dp (hmem dp hdp).1 ((hmem a ha).2.trans (hmem dp hdp).2.symm)

section
variable {α : Type} {pick : Point F → Option α} {time : α → ℤ}

theorem channel_sorted (hpick : ∀ dp a, pick dp = some a → time a = dp.timestampNs)
    (maxSamples : ℕ) (points : List (Point F)) :
    (channel pick maxSamples points).Pairwise fun a b => time a ≤ time b := by
  have h := (sortByKey_sorted DataPoint.timestampNs points).sublist (take_sublist maxSamples _)
  refine List.Pairwise.filterMap pick (fun a a' haa' b hb b' hb' => ?_) h
  rw [hpick a b hb, hpick a' b' hb']
  exact haa'

theorem channel_filter (hpick : ∀ dp a, pick dp = some a → time a = dp.timestampNs)
    (times : ℤ → Bool) {maxSamples : ℕ} {points : List (Point F)}
    (hlen : points.length ≤ maxSamples) :
    channel pick maxSamples (points.filter fun dp => times dp.timestampNs) =
      (channel pick maxSamples points).filter fun a => times (time a) := by
  have hsort (xs : List (Point F)) : (sortByKey DataPoint.timestampNs xs).length = xs.length :=
    (sortByKey_perm _ _).length_eq
  unfold channel
  rw [take_of_length_le (by rw [hsort]; exact (length_filter_le _ _).trans hlen),
    take_of_length_le (by rw [hsort]; exact hlen)]
  unfold sortByKey
  rw [← filter_insertionSort, filterMap_filter, filter_filterMap]
  refine filterMap_congr fun dp _ => ?_
  cases ha : pick dp with
  | none => split_ifs <;> rfl
  | some a => rw [Option.filter_some, hpick dp a ha]

end

end

end Parqtel.Query
