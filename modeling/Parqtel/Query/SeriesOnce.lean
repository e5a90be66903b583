import Parqtel.Query.Coverage

/-!
# Each series once

Every selector of an expression is loaded on its own, and the series of all selectors of a metric
are put into one list. A series that two selectors match is in that list twice, and every selector
of the metric whose matchers it satisfies then reads it twice. `loaded_once_iff` says that this,
and label sets that share a fingerprint, is all that can go wrong.
-/

namespace Parqtel.Query

open Lib Storage List DataPoint Bool Store

variable {F : Type} {α : Type}

def pointsOf (pick : Point F → Option α) (points : List (Point F)) (labels : LabelSet) : List α :=
  (sortByKey timestampNs (points.filter fun dp => dp.labels = labels)).filterMap pick

def seriesOf (pick : Point F → Option α) (points : List (Point F)) (labels : LabelSet) :
    List (LabelSet × List α) :=
  match pointsOf pick points labels with
  | [] => []
  | found => [(labels, found)]

def HoldsOnce (pick : Point F → Option α) (points : List (Point F))
    (series : List (LabelSet × List α)) : Prop :=
  ∀ labels, (series.filter fun s => s.1 = labels) = seriesOf pick points labels

def Store.matched (store : Store F) (times : ℤ → Bool) (refs : List MetricRef) (name : String) :
    List (Point F) :=
  (store name).filter fun dp =>
    times dp.timestampNs && (refs.filter fun ref => ref.1 = name).any fun ref =>
      evaluateMatchers ref.2 dp.labels name

def Store.matchedOnce (store : Store F) (times : ℤ → Bool) : List MetricRef → List (Point F)
  | [] => []
  | ref :: refs =>
    ((store.scan times ref).filter fun dp =>
      !refs.any fun ref' => ref'.1 = ref.1 && evaluateMatchers ref'.2 dp.labels ref.1) ++
      store.matchedOnce times refs

def Store.matchedSeries (store : Store F) (times : ℤ → Bool) (refs : List MetricRef) :
    List (String × LabelSet) :=
  refs.flatMap fun ref => (store.scan times ref).map fun dp => (ref.1, dp.labels)

/-! ## One selector -/

variable {labels : LabelSet}

section
variable {raw : List (Point F)} {α : Type} {pick : Point F → Option α}

theorem seriesGroups_single (hne : raw ≠ []) (h : ∀ dp ∈ raw, dp.labels = labels) :
    seriesGroups raw = [(labels.fingerprint, raw)] := by
  refine eq_of_keys_sorted (seriesGroups_sorted raw) (pairwise_singleton _ _)
    (seriesGroups_nodup raw) (nodup_singleton _) fun g => ?_
  have hall : raw.filter (fun dp => dp.labels.fingerprint = labels.fingerprint) = raw :=
    filter_eq_self.mpr fun dp hdp => decide_eq_true (congrArg _ (h dp hdp))
  rw [mem_seriesGroups, mem_singleton]
  constructor
  · rintro ⟨hkey, hpoints⟩
    obtain ⟨dp, hdp, hfp⟩ := mem_map.mp hkey
    rw [h dp hdp] at hfp
    rw [← hfp, hall] at hpoints
    exact Prod.ext hfp.symm hpoints
  · rintro rfl
    obtain ⟨dp, hdp⟩ := exists_mem_of_ne_nil _ hne
    exact ⟨mem_map.mpr ⟨dp, hdp, congrArg _ (h dp hdp)⟩, hall.symm⟩

theorem channelSeries_filter_labels (hraw : Distinguished raw) (maxSamples : ℕ)
    (labels : LabelSet) :
    (channelSeries pick maxSamples (seriesGroups raw)).filter (fun s => s.1 = labels) =
      channelSeries pick maxSamples (seriesGroups (raw.filter fun dp => dp.labels = labels)) := by
  rw [seriesGroups_filter]
  unfold channelSeries
  rw [filter_filterMap, filterMap_filterMap]
  refine filterMap_congr fun g hg => ?_
  have hgroup := labels_of_mem_group hraw hg
  by_cases hlabels : firstLabels g.2 = labels
  · have hkeep : keepPoints (fun dp => dp.labels = labels) g = some g := by
      refine keepPoints_eq_some.mpr ⟨rfl, ?_, ?_⟩
      · exact (filter_eq_self.mpr fun dp hdp =>
          decide_eq_true ((hgroup dp hdp).trans hlabels)).symm
      · obtain ⟨hkey, hpoints⟩ := mem_seriesGroups.mp hg
        obtain ⟨dp, hdp, hfp⟩ := mem_map.mp hkey
        rw [hpoints]
        exact ne_nil_of_mem (mem_filter.mpr ⟨hdp, decide_eq_true hfp⟩)
    rw [hkeep, Option.bind_some]
    cases channel pick maxSamples g.2 with
    | nil => rfl
    | cons a as => rw [Option.filter_some, if_pos (decide_eq_true hlabels)]
  · have hkeep : keepPoints (fun dp => dp.labels = labels) g = none := by
      unfold keepPoints
      rw [filter_eq_nil_iff.mpr fun dp hdp h =>
        hlabels ((hgroup dp hdp).symm.trans (of_decide_eq_true h))]
    rw [hkeep, Option.bind_none]
    cases channel pick maxSamples g.2 with
    | nil => rfl
    | cons a as => rw [Option.filter_some, if_neg (by simpa using hlabels)]

/-- **The series of one selector**: each once. -/
theorem holdsOnce_channelSeries {exec : QueryExecutor} (hraw : Distinguished raw)
    (hwithin : exec.Within raw) :
    HoldsOnce pick raw (channelSeries pick exec.maxSamplesPerSeries
      ((seriesGroups raw).take exec.maxSeries)) := by
  intro labels
  rw [take_of_length_le hwithin.series, channelSeries_filter_labels hraw]
  unfold seriesOf pointsOf
  cases hf : raw.filter fun dp => dp.labels = labels with
  | nil => rfl
  | cons dp dps =>
    have hmem : ∀ a ∈ dp :: dps, a ∈ raw ∧ a.labels = labels := by
      intro a ha
      rw [← hf] at ha
      obtain ⟨hraw, hl⟩ := mem_filter.mp ha
      exact ⟨hraw, of_decide_eq_true hl⟩
    have hgroup := seriesGroups_single (cons_ne_nil dp dps) fun a ha => (hmem a ha).2
    have hlen : (dp :: dps).length ≤ exec.maxSamplesPerSeries := by
      obtain ⟨hdp, hl⟩ := hmem dp mem_cons_self
      have hg : (labels.fingerprint,
          raw.filter fun a => a.labels.fingerprint = labels.fingerprint) ∈ seriesGroups raw :=
        mem_seriesGroups.mpr ⟨mem_map.mpr ⟨dp, hdp, congrArg _ hl⟩, rfl⟩
      refine le_trans ?_ (hwithin.samples _ hg)
      rw [← hf, ← countP_eq_length_filter, ← countP_eq_length_filter]
      exact countP_mono_left fun a _ h =>
        decide_eq_true (congrArg _ (of_decide_eq_true h))
    have hchannel : channel pick exec.maxSamplesPerSeries (dp :: dps) =
        (sortByKey timestampNs (dp :: dps)).filterMap pick := by
      unfold channel
      rw [take_of_length_le (by rw [(sortByKey_perm _ _).length_eq]; exact hlen)]
    have hfirst : firstLabels (dp :: dps) = labels :=
      firstLabels_eq (cons_ne_nil dp dps) fun a ha => (hmem a ha).2
    rw [hgroup]
    unfold channelSeries
    simp only [filterMap_cons, filterMap_nil, hchannel, hfirst]
    cases (sortByKey timestampNs (dp :: dps)).filterMap pick with
    | nil => rfl
    | cons a as => rfl

end

/-! ## All selectors -/

variable {ref : MetricRef} {dp : Point F}

section
variable {store : Store F} {times : ℤ → Bool} {α : Type} {pick : Point F → Option α}

/-- No stored point is matched by two of the selectors. -/
def Apart (store : Store F) (times : ℤ → Bool) (refs : List MetricRef) : Prop :=
  refs.Pairwise fun r r' => r.1 = r'.1 →
    ∀ dp ∈ store.scan times r, evaluateMatchers r'.2 dp.labels r'.1 = false

theorem mem_scan : dp ∈ store.scan times ref ↔ dp ∈ store ref.1 ∧ times dp.timestampNs = true ∧
      evaluateMatchers ref.2 dp.labels ref.1 = true := by
  unfold Store.scan
  rw [mem_filter, and_eq_true]

theorem seriesOf_congr {points points' : List (Point F)}
    (h : points.filter (fun dp => dp.labels = labels) = points'.filter fun dp =>
      dp.labels = labels) :
    seriesOf pick points labels = seriesOf pick points' labels := by
  unfold seriesOf pointsOf
  rw [h]

theorem seriesOf_nil {points : List (Point F)} (h : ∀ dp ∈ points, dp.labels ≠ labels) :
    seriesOf pick points labels = [] := by
  unfold seriesOf pointsOf
  rw [filter_eq_nil_iff.mpr fun dp hdp hl => h dp hdp (of_decide_eq_true hl)]
  rfl

/-- What a label set's points are does not depend on which selector matches it. -/
theorem filter_scan (h : evaluateMatchers ref.2 labels ref.1 = true) :
    (store.scan times ref).filter (fun dp => dp.labels = labels) =
      (store ref.1).filter fun dp => times dp.timestampNs && decide (dp.labels = labels) := by
  unfold Store.scan
  rw [filter_filter]
  refine filter_congr fun dp _ => ?_
  by_cases hl : dp.labels = labels
  · simp [hl, h]
  · simp [hl]

variable {refs : List MetricRef}

theorem filter_matched (href : ref ∈ refs) (h : evaluateMatchers ref.2 labels ref.1 = true) :
    (store.matched times refs ref.1).filter (fun dp => dp.labels = labels) =
      (store.scan times ref).filter fun dp => dp.labels = labels := by
  rw [filter_scan h]
  unfold matched
  rw [filter_filter]
  refine filter_congr fun dp _ => ?_
  by_cases hl : dp.labels = labels
  · have hany : ((refs.filter fun r => r.1 = ref.1).any fun r =>
        evaluateMatchers r.2 labels ref.1) = true :=
      any_eq_true.mpr ⟨ref, mem_filter.mpr ⟨href, decide_eq_true rfl⟩, h⟩
    simp [hl, hany]
  · simp [hl]

theorem matched_cons_of_ne {name : String} (h : ref.1 ≠ name) :
    store.matched times (ref :: refs) name = store.matched times refs name := by
  unfold matched
  rw [filter_cons_of_neg (by simpa using h)]

/-- Together, selectors of which no two match a point hold each series once. -/
theorem flatMap_seriesOf (hapart : Apart store times refs) (name : String) (labels : LabelSet) :
    ((refs.filter fun ref => ref.1 = name).flatMap fun ref =>
        seriesOf pick (store.scan times ref) labels) =
      seriesOf pick (store.matched times refs name) labels := by
  induction refs with
  | nil =>
    refine (seriesOf_nil fun dp hdp => ?_).symm
    have := (mem_filter.mp hdp).2
    simp at this
  | cons ref refs ih =>
    obtain ⟨hfirst, hrest⟩ := pairwise_cons.mp hapart
    by_cases hname : ref.1 = name
    · subst hname
      have hhead : (ref :: refs).filter (fun r => r.1 = ref.1) =
          ref :: refs.filter fun r => r.1 = ref.1 :=
        filter_cons_of_pos (decide_eq_true rfl)
      rw [hhead, flatMap_cons]
      by_cases hhas : ∃ dp ∈ store.scan times ref, dp.labels = labels
      · -- the first selector has the series, and no other
        obtain ⟨dp, hdp, rfl⟩ := hhas
        have hothers : ((refs.filter fun r => r.1 = ref.1).flatMap fun r =>
            seriesOf pick (store.scan times r) dp.labels) = [] := by
          refine flatMap_eq_nil_iff.mpr fun r hr => seriesOf_nil fun a ha hl => ?_
          obtain ⟨hr, hrn⟩ := mem_filter.mp hr
          have hno := hfirst r hr (of_decide_eq_true hrn).symm dp hdp
          rw [← hl, (mem_scan.mp ha).2.2] at hno
          cases hno
        rw [hothers, append_nil]
        exact (seriesOf_congr (filter_matched mem_cons_self (mem_scan.mp hdp).2.2)).symm
      · -- it does not have the series, and the others have what there is
        have hnone : ∀ dp ∈ store.scan times ref, dp.labels ≠ labels :=
          fun dp hdp hl => hhas ⟨dp, hdp, hl⟩
        rw [seriesOf_nil hnone, nil_append, ih hrest]
        refine seriesOf_congr ?_
        unfold matched
        rw [filter_filter, filter_filter]
        refine filter_congr fun dp hdp => ?_
        by_cases hl : dp.labels = labels
        · cases ht : times dp.timestampNs with
          | false => simp
          | true =>
            have hno : evaluateMatchers ref.2 dp.labels ref.1 = false := by
              refine Bool.eq_false_iff.mpr fun hm => hnone dp (mem_scan.mpr ⟨hdp, ht, hm⟩) hl
            rw [hhead, any_cons, hno, Bool.false_or]
        · simp [hl]
    · rw [filter_cons_of_neg (by simpa using hname), matched_cons_of_ne hname]
      exact ih hrest

theorem entry_eq {β : Type} (xs : MetricRef → List β) (refs : List MetricRef) (name : String) :
    ((tableOf xs refs).lookup name).getD [] = (refs.filter fun ref => ref.1 = name).flatMap xs := by
  rw [lookup_tableOf]
  split_ifs with hname
  · rfl
  · have hnil : refs.filter (fun ref => ref.1 = name) = [] :=
      filter_eq_nil_iff.mpr fun ref href h =>
        hname (of_decide_eq_true h ▸ mem_map_of_mem href)
    rw [hnil]
    rfl

theorem holdsOnce_table {xs : MetricRef → List (LabelSet × List α)}
    (hxs : ∀ ref ∈ refs, HoldsOnce pick (store.scan times ref) (xs ref))
    (hapart : Apart store times refs) (name : String) :
    HoldsOnce pick (store.matched times refs name) (((tableOf xs refs).lookup name).getD []) := by
  intro labels
  rw [entry_eq, filter_flatMap, ← flatMap_seriesOf hapart]
  exact flatMap_congr fun ref href => hxs ref (mem_filter.mp href).1 labels

/-- **A selector reads each of its series once** from an entry that holds each once. -/
theorem holdsOnce_seriesFor (href : ref ∈ refs) {table : String → Option (List (LabelSet × List α))}
    (h : HoldsOnce pick (store.matched times refs ref.1) ((table ref.1).getD [])) :
    HoldsOnce pick (store.scan times ref) (seriesFor table ⟨some ref.1, ref.2⟩) := by
  intro labels
  simp only [seriesFor, filter_filter]
  cases hm : evaluateMatchers ref.2 labels ref.1 with
  | true =>
    rw [← seriesOf_congr (filter_matched href hm), ← h labels]
    refine filter_congr fun s _ => ?_
    by_cases hl : s.1 = labels
    · simp [hl, hm]
    · simp [hl]
  | false =>
    rw [seriesOf_nil fun dp hdp hl => ?_]
    · refine filter_eq_nil_iff.mpr fun s _ hs => ?_
      obtain ⟨hl, hs⟩ := (and_eq_true _ _).mp hs
      rw [of_decide_eq_true hl, hm] at hs
      cases hs
    · rw [← hl, (mem_scan.mp hdp).2.2] at hm
      cases hm

end

/-! ## Counts -/

section
variable {raw : List (Point F)}

theorem seriesGroups_flatMap_perm (raw : List (Point F)) :
    ((seriesGroups raw).flatMap Prod.snd).Perm raw := by
  have h := flatMap_groupOn_perm (fun dp : Point F => dp.labels.fingerprint) id raw
  rw [map_id] at h
  exact ((sortByKey_perm _ _).flatMap_right _).trans h

theorem length_seriesGroups (hraw : Distinguished raw) :
    (seriesGroups raw).length = (raw.map DataPoint.labels).dedup.length := by
  have hkeys : ((groupOn (fun dp : Point F => dp.labels.fingerprint) id raw).map Prod.fst).Perm
      (raw.map fun dp => dp.labels.fingerprint).dedup :=
    (perm_ext_iff_of_nodup (groupOn_keys_nodup _ _ _) (nodup_dedup _)).mpr fun k => by
      rw [mem_keys_groupOn, mem_dedup]
  have himage : (raw.map fun dp => dp.labels.fingerprint).toFinset =
      (raw.map DataPoint.labels).toFinset.image LabelSet.fingerprint := by
    ext k
    simp
  have hinj :
      Set.InjOn LabelSet.fingerprint ((raw.map DataPoint.labels).toFinset : Set LabelSet) := by
    intro a ha b hb hab
    obtain ⟨x, hx, rfl⟩ := mem_map.mp (mem_toFinset.mp ha)
    obtain ⟨y, hy, rfl⟩ := mem_map.mp (mem_toFinset.mp hb)
    exact hraw x hx y hy hab
  calc (seriesGroups raw).length
      = (raw.map fun dp => dp.labels.fingerprint).dedup.length := by
        rw [seriesGroups, (sortByKey_perm _ _).length_eq, ← hkeys.length_eq, length_map]
    _ = (raw.map DataPoint.labels).dedup.length := by
        rw [← card_toFinset, himage, Finset.card_image_of_injOn hinj, card_toFinset]

end

section
variable {store : Store F} {times : ℤ → Bool} {exec : QueryExecutor} {p : Platform F}
  {startNs endNs : ℤ} {refs : List MetricRef}

theorem load_totalSeries : (exec.load p store times startNs endNs refs).totalSeries =
    (refs.map fun ref => (seriesGroups (store.scan times ref)).length).sum := by
  induction refs using List.reverseRecOn with
  | nil => rfl
  | append_singleton refs ref ih =>
    rw [map_append, sum_append, ← ih]
    unfold QueryExecutor.load
    rw [foldl_concat]
    rfl

theorem volumeOf_append (a b : List ℤ) :
    List.zipWith (· + ·) (volumeOf startNs endNs a) (volumeOf startNs endNs b) =
      volumeOf startNs endNs (a ++ b) := by
  unfold volumeOf
  rw [LogScope.volume_append, filter_append]

theorem volumeOf_perm {a b : List ℤ} (h : a.Perm b) :
    volumeOf startNs endNs a = volumeOf startNs endNs b := by
  exact LogScope.volume_perm _ (h.filter _)

theorem load_volumeSummary : (exec.load p store times startNs endNs refs).volumeSummary =
    volumeOf startNs endNs ((refs.flatMap (store.scan times)).map timestampNs) := by
  induction refs using List.reverseRecOn with
  | nil => rfl
  | append_singleton refs ref ih =>
    have hvolume : (exec.buildRef p store times startNs endNs ref).volume =
        volumeOf startNs endNs ((store.scan times ref).map timestampNs) := by
      refine volumeOf_perm ?_
      rw [← map_flatMap]
      exact (seriesGroups_flatMap_perm _).map _
    rw [flatMap_append, map_append, ← volumeOf_append, ← ih, flatMap_cons,
      flatMap_nil, append_nil, ← hvolume]
    unfold QueryExecutor.load
    rw [foldl_concat]
    rfl

theorem matchedOnce_eq (hapart : Apart store times refs) :
    store.matchedOnce times refs = refs.flatMap (store.scan times) := by
  induction refs with
  | nil => rfl
  | cons ref refs ih =>
    obtain ⟨hfirst, hrest⟩ := pairwise_cons.mp hapart
    rw [matchedOnce, flatMap_cons, ih hrest]
    congr 1
    refine filter_eq_self.mpr fun dp hdp => ?_
    rw [not_eq_true', any_eq_false]
    intro r hr h
    obtain ⟨hname, hm⟩ := (and_eq_true _ _).mp h
    have hname : r.1 = ref.1 := of_decide_eq_true hname
    have hno := hfirst r hr hname.symm dp hdp
    rw [hname, hm] at hno
    cases hno

theorem dedup_matchedSeries (hapart : Apart store times refs) :
    (store.matchedSeries times refs).dedup.length =
      (refs.map fun ref => ((store.scan times ref).map DataPoint.labels).dedup.length).sum := by
  induction refs with
  | nil => rfl
  | cons ref refs ih =>
    obtain ⟨hfirst, hrest⟩ := pairwise_cons.mp hapart
    have hpair : Function.Injective fun labels : LabelSet => (ref.1, labels) :=
      Prod.mk_right_injective ref.1
    have hone : ((store.scan times ref).map fun dp => (ref.1, dp.labels)).toFinset =
        ((store.scan times ref).map DataPoint.labels).toFinset.image fun labels =>
          (ref.1, labels) := by
      ext x
      simp
    have hdisjoint : Disjoint ((store.scan times ref).map fun dp => (ref.1, dp.labels)).toFinset
        (store.matchedSeries times refs).toFinset := by
      refine Finset.disjoint_left.mpr fun x hx hx' => ?_
      obtain ⟨dp, hdp, rfl⟩ := mem_map.mp (mem_toFinset.mp hx)
      obtain ⟨r, hr, hx'⟩ := mem_flatMap.mp (mem_toFinset.mp hx')
      obtain ⟨dp', hdp', h⟩ := mem_map.mp hx'
      obtain ⟨hname, hlabels⟩ := Prod.mk.inj h
      have hno := hfirst r hr hname.symm dp hdp
      rw [← hlabels, (mem_scan.mp hdp').2.2] at hno
      cases hno
    have happend : store.matchedSeries times (ref :: refs) =
        ((store.scan times ref).map fun dp => (ref.1, dp.labels)) ++
          store.matchedSeries times refs := rfl
    rw [map_cons, sum_cons, ← ih hrest, ← card_toFinset, ← card_toFinset,
      ← card_toFinset, happend, toFinset_append, Finset.card_union_of_disjoint hdisjoint,
      hone, Finset.card_image_of_injective _ hpair]

end

/-! ## Where it goes wrong -/

theorem length_channels (p : Platform F) (points : List (Point F)) :
    (points.filterMap (numericPoint p)).length + (points.filterMap histPoint).length =
      points.length := by
  induction points with
  | nil => rfl
  | cons dp points ih =>
    rw [filterMap_cons, filterMap_cons, length_cons, ← ih]
    unfold numericPoint histPoint
    cases dp.value <;> simp only [length_cons] <;> omega

section
variable {α : Type} {pick : Point F → Option α} {points : List (Point F)}
  {series : List (LabelSet × List α)}

theorem HoldsOnce.points_eq (h : HoldsOnce pick points series) {s : LabelSet × List α}
    (hs : s ∈ series) : s.2 = pointsOf pick points s.1 := by
  have hmem : s ∈ seriesOf pick points s.1 := by
    rw [← h s.1]
    exact mem_filter.mpr ⟨hs, decide_eq_true rfl⟩
  unfold seriesOf at hmem
  cases hfound : pointsOf pick points s.1 with
  | nil =>
    rw [hfound] at hmem
    cases hmem
  | cons a as =>
    rw [hfound] at hmem
    exact congrArg Prod.snd (mem_singleton.mp hmem)

theorem length_seriesOf_le (labels : LabelSet) : (seriesOf pick points labels).length ≤ 1 := by
  unfold seriesOf
  split
  · exact Nat.zero_le 1
  · exact Nat.le_refl 1

theorem length_seriesOf_of_mem (hdp : dp ∈ points) (hpick : (pick dp).isSome) :
    (seriesOf pick points dp.labels).length = 1 := by
  obtain ⟨a, ha⟩ := Option.isSome_iff_exists.mp hpick
  have hmem : a ∈ pointsOf pick points dp.labels :=
    mem_filterMap.mpr ⟨dp, (sortByKey_perm _ _).mem_iff.mpr
      (mem_filter.mpr ⟨hdp, decide_eq_true rfl⟩), ha⟩
  unfold seriesOf
  split
  · next hnil =>
    rw [hnil] at hmem
    cases hmem
  · rfl

end

section
variable {store : Store F} {times : ℤ → Bool} {exec : QueryExecutor} {p : Platform F}
  {startNs endNs : ℤ} {refs : List MetricRef}

theorem channel_length_le {pick : Point F → Option α} (href : ref ∈ refs)
    (hwithin : exec.Within (store.scan times ref))
    (h : HoldsOnce pick (store.matched times refs ref.1) (((tableOf (fun ref =>
      channelSeries pick exec.maxSamplesPerSeries
        ((seriesGroups (store.scan times ref)).take exec.maxSeries)) refs).lookup ref.1).getD []))
    {g : ℕ × List (Point F)} (hg : g ∈ seriesGroups (store.scan times ref)) :
    (g.2.filterMap pick).length ≤ (((store.matched times refs ref.1).filter fun dp =>
        dp.labels = firstLabels g.2).filterMap pick).length := by
  have hsort (points : List (Point F)) :
      ((sortByKey timestampNs points).filterMap pick).length =
        (points.filterMap pick).length := ((sortByKey_perm _ _).filterMap _).length_eq
  have hchannel : channel pick exec.maxSamplesPerSeries g.2 =
      (sortByKey timestampNs g.2).filterMap pick := by
    unfold channel
    rw [take_of_length_le]
    rw [(sortByKey_perm _ _).length_eq]
    exact hwithin.samples g hg
  cases hc : channel pick exec.maxSamplesPerSeries g.2 with
  | nil =>
    rw [← hsort, ← hchannel, hc]
    exact Nat.zero_le _
  | cons a as =>
    have hmem : (firstLabels g.2, a :: as) ∈ ((tableOf (fun ref => channelSeries pick
        exec.maxSamplesPerSeries ((seriesGroups (store.scan times ref)).take exec.maxSeries))
        refs).lookup ref.1).getD [] := by
      rw [entry_eq, mem_flatMap]
      refine ⟨ref, mem_filter.mpr ⟨href, decide_eq_true rfl⟩, ?_⟩
      rw [take_of_length_le hwithin.series]
      exact mem_filterMap.mpr ⟨g, hg, by rw [hc]⟩
    have heq := h.points_eq hmem
    dsimp only at heq
    rw [← hsort, ← hchannel, hc, heq]
    unfold pointsOf
    rw [hsort]

/-- **What was loaded holds each series once**, reads each once and counts each once. -/
structure LoadedOnce (p : Platform F) (store : Store F) (times : ℤ → Bool) (startNs endNs : ℤ)
    (refs : List MetricRef) (loaded : Loaded F) : Prop where
  data : ∀ name, HoldsOnce (numericPoint p) (store.matched times refs name)
    ((loaded.data.lookup name).getD [])
  histData : ∀ name, HoldsOnce histPoint (store.matched times refs name)
    ((loaded.histData.lookup name).getD [])
  selectors : ∀ ref ∈ refs,
    HoldsOnce (numericPoint p) (store.scan times ref)
      (seriesFor (fun name => loaded.data.lookup name) ⟨some ref.1, ref.2⟩) ∧
    HoldsOnce histPoint (store.scan times ref)
      (seriesFor (fun name => loaded.histData.lookup name) ⟨some ref.1, ref.2⟩)
  totalSeries : loaded.totalSeries = (store.matchedSeries times refs).dedup.length
  volume : loaded.volumeSummary =
    volumeOf startNs endNs ((store.matchedOnce times refs).map timestampNs)

section
variable (hwithin : ∀ ref ∈ refs, exec.Within (store.scan times ref))
include hwithin

theorem distinguished_of_loadedOnce
    (h : LoadedOnce p store times startNs endNs refs (exec.load p store times startNs endNs refs))
    (href : ref ∈ refs) : Distinguished (store.scan times ref) := by
  have hdata := h.data ref.1
  have hhist := h.histData ref.1
  rw [load_data] at hdata
  rw [load_histData] at hhist
  have hgroup : ∀ g ∈ seriesGroups (store.scan times ref), ∀ dp ∈ g.2,
      dp.labels = firstLabels g.2 := by
    intro g hg
    obtain ⟨hkey, hpoints⟩ := mem_seriesGroups.mp hg
    obtain ⟨dp₀, hdp₀, hfp₀⟩ := mem_map.mp hkey
    have hne : g.2 ≠ [] := by
      rw [hpoints]
      exact ne_nil_of_mem (mem_filter.mpr ⟨hdp₀, decide_eq_true hfp₀⟩)
    -- the group's labels are those of a point that the selector matches
    obtain ⟨first, hfirst, hlabels⟩ : ∃ dp ∈ g.2, firstLabels g.2 = dp.labels := by
      cases hc : g.2 with
      | nil => exact absurd hc hne
      | cons dp dps => exact ⟨dp, mem_cons_self, rfl⟩
    have hscan : first ∈ store.scan times ref := by
      rw [hpoints] at hfirst
      exact (mem_filter.mp hfirst).1
    have hown : ((store.matched times refs ref.1).filter fun dp => dp.labels = firstLabels g.2) =
        g.2.filter fun dp => dp.labels = firstLabels g.2 := by
      rw [hlabels, filter_matched href (mem_scan.mp hscan).2.2]
      have hfp : first.labels.fingerprint = g.1 := by
        rw [hpoints] at hfirst
        exact of_decide_eq_true (mem_filter.mp hfirst).2
      conv_rhs => rw [hpoints]
      rw [filter_filter]
      refine filter_congr fun dp _ => ?_
      by_cases hl : dp.labels = first.labels
      · simp [hl, hfp]
      · simp [hl]
    have hnum := channel_length_le href (hwithin ref href) hdata hg
    have hhis := channel_length_le href (hwithin ref href) hhist hg
    rw [hown] at hnum hhis
    have hlen : g.2.length ≤ (g.2.filter fun dp => dp.labels = firstLabels g.2).length := by
      rw [← length_channels p, ← length_channels p (g.2.filter _)]
      omega
    have hall := List.Sublist.eq_of_length_le filter_sublist hlen
    exact fun dp hdp => of_decide_eq_true (filter_eq_self.mp hall dp hdp)
  intro a ha b hb hab
  have hg : (a.labels.fingerprint, (store.scan times ref).filter fun dp =>
      dp.labels.fingerprint = a.labels.fingerprint) ∈ seriesGroups (store.scan times ref) :=
    mem_seriesGroups.mpr ⟨mem_map_of_mem (f := fun dp : Point F => dp.labels.fingerprint) ha,
      rfl⟩
  have hlabels := hgroup _ hg
  exact (hlabels a (mem_filter.mpr ⟨ha, decide_eq_true rfl⟩)).trans
    (hlabels b (mem_filter.mpr ⟨hb, decide_eq_true hab.symm⟩)).symm

end

theorem not_matched_twice {pick : Point F → Option α} {xs : MetricRef → List (LabelSet × List α)}
    (hxs : ∀ ref ∈ refs, HoldsOnce pick (store.scan times ref) (xs ref)) {r r' : MetricRef}
    (hsub : [r, r'].Sublist refs) (hname : r.1 = r'.1)
    (h : HoldsOnce pick (store.matched times refs r.1) (((tableOf xs refs).lookup r.1).getD []))
    (hdp : dp ∈ store.scan times r) (hdp' : dp ∈ store.scan times r') :
    (pick dp).isSome = false := by
  refine Bool.eq_false_iff.mpr fun hpick => ?_
  have hentry := h dp.labels
  rw [entry_eq, filter_flatMap] at hentry
  have hsub' : [r, r'].Sublist (refs.filter fun ref => ref.1 = r.1) := by
    have := hsub.filter fun ref => ref.1 = r.1
    rwa [filter_eq_self.mpr (by simp [hname])] at this
  have htwice := (hsub'.flatMap fun ref => (xs ref).filter fun s => s.1 = dp.labels).length_le
  rw [hentry, flatMap_cons, flatMap_cons, flatMap_nil, append_nil, length_append,
    hxs r (hsub.subset (by simp)) dp.labels, hxs r' (hsub.subset (by simp)) dp.labels,
    length_seriesOf_of_mem hdp hpick, length_seriesOf_of_mem hdp' hpick] at htwice
  have hle : (seriesOf pick (store.matched times refs r.1) dp.labels).length ≤ 1 :=
    length_seriesOf_le dp.labels
  omega

end

/-- **When a metric may be mentioned twice.** What the selectors of a query load holds each
matching series once, is read once by each selector, and is counted once, exactly if no stored
point is matched by two selectors and no two label sets of a selector share a fingerprint. -/
theorem loaded_once_iff (exec : QueryExecutor) (p : Platform F) (store : Store F)
    (times : ℤ → Bool) (startNs endNs : ℤ) (refs : List MetricRef)
    (hwithin : ∀ ref ∈ refs, exec.Within (store.scan times ref)) :
    LoadedOnce p store times startNs endNs refs (exec.load p store times startNs endNs refs) ↔
      (∀ ref ∈ refs, Distinguished (store.scan times ref)) ∧ Apart store times refs := by
  have honce {α : Type} (pick : Point F → Option α)
      (hdist : ∀ ref ∈ refs, Distinguished (store.scan times ref)) :
      ∀ ref ∈ refs, HoldsOnce pick (store.scan times ref)
        (channelSeries pick exec.maxSamplesPerSeries
          ((seriesGroups (store.scan times ref)).take exec.maxSeries)) :=
    fun ref href => holdsOnce_channelSeries (hdist ref href) (hwithin ref href)
  constructor
  · intro h
    have hdist : ∀ ref ∈ refs, Distinguished (store.scan times ref) :=
      fun ref href => distinguished_of_loadedOnce hwithin h href
    refine ⟨hdist, pairwise_iff_forall_sublist.mpr fun {r r'} hsub hname dp hdp => ?_⟩
    refine Bool.eq_false_iff.mpr fun hm => ?_
    obtain ⟨hstore, htime, -⟩ := mem_scan.mp hdp
    have hdp' : dp ∈ store.scan times r' := mem_scan.mpr ⟨hname ▸ hstore, htime, hm⟩
    have hdata := h.data r.1
    have hhist := h.histData r.1
    rw [load_data] at hdata
    rw [load_histData] at hhist
    have hnum := not_matched_twice (honce (numericPoint p) hdist) hsub hname hdata hdp hdp'
    have hhis := not_matched_twice (honce histPoint hdist) hsub hname hhist hdp hdp'
    -- a point is in one of the channels
    unfold numericPoint at hnum
    unfold histPoint at hhis
    cases hv : dp.value <;> simp [hv] at hnum hhis
  · rintro ⟨hdist, hapart⟩
    have hdata : ∀ name, HoldsOnce (numericPoint p) (store.matched times refs name)
        (((exec.load p store times startNs endNs refs).data.lookup name).getD []) := by
      rw [load_data]
      exact holdsOnce_table (honce (numericPoint p) hdist) hapart
    have hhist : ∀ name, HoldsOnce histPoint (store.matched times refs name)
        (((exec.load p store times startNs endNs refs).histData.lookup name).getD []) := by
      rw [load_histData]
      exact holdsOnce_table (honce histPoint hdist) hapart
    refine ⟨hdata, hhist, fun ref href => ⟨?_, ?_⟩, ?_, ?_⟩
    · exact holdsOnce_seriesFor href (hdata ref.1)
    · exact holdsOnce_seriesFor href (hhist ref.1)
    · rw [load_totalSeries, dedup_matchedSeries hapart]
      exact congrArg List.sum (map_congr_left fun ref href =>
        length_seriesGroups (hdist ref href))
    · rw [load_volumeSummary, matchedOnce_eq hapart]

def jobSelectors : List MetricRef := ["a", "b"].map fun job => ("x", [.equal "job" job])

def jobStore : Store (Option ℚ)
  | "x" => [("a", 5), ("b", 6), ("a", 7)].map fun s =>
    ⟨s.2, .double (some 1), LabelSet.empty.with "job" s.1⟩
  | _ => []

/-- Two selectors of one metric, with disjoint matchers. -/
theorem loaded_once_two_selectors :
    (∀ ref ∈ jobSelectors, smallExecutor.Within (jobStore.scan always ref)) ∧
      LoadedOnce exact jobStore always 0 600 jobSelectors
        (smallExecutor.load exact jobStore always 0 600 jobSelectors) := by
  have hwithin : ∀ ref ∈ jobSelectors, smallExecutor.Within (jobStore.scan always ref) := by
    intro ref href
    constructor <;> revert ref <;> decide +kernel
  refine ⟨hwithin, (loaded_once_iff smallExecutor exact jobStore always 0 600 jobSelectors
    hwithin).mpr ⟨?_, pairwise_pair.mpr fun _ => ?_⟩⟩
  · unfold Distinguished
    decide +kernel
  · decide +kernel

/-- `x + x`: the series is loaded twice, and the sum finds no one-to-one match. -/
theorem metric_mentioned_twice :
    let e : Expr (Option ℚ) :=
      .binary ⟨.add, none, false⟩ (.selector ⟨some "x", []⟩) (.selector ⟨some "x", []⟩)
    let loaded := smallExecutor.load exact (onePoint 5) (inWindow (scanStart e 0) 600) 0 600
      (collectMetricRefs e)
    (loaded.data.lookup "x").map (List.map Prod.fst) = some [.empty, .empty] ∧
      loaded.totalSeries = 2 ∧
      eval exact .release (smallExecutor.evaluator loaded) e (stepContext 5) = .ok [] := by
  decide

end Parqtel.Query
