import Parqtel.Query.Crash
import Parqtel.Query.Load
import Parqtel.Query.Offset
import Parqtel.Query.Scalars

/-!
# Vectors without a label set twice

A node keeps the label sets of its operands apart, except for three kinds that give new labels:
the label functions, an operator that matches vectors, and the quantile of classic histograms,
which drops the metric name. `Merges` says when one of these gives two series the same labels;
over data in which no metric has a label set twice there is no other way to get one twice
(`distinct_iff`).
-/

namespace Parqtel.Query

open Lib List LabelSet List.Sublist List.Nodup

variable {F : Type}

def InstantVector.Distinct (v : InstantVector F) : Prop := (v.map Prod.fst).Nodup

/-- The series of every metric have distinct label sets. -/
structure Evaluator.Distinct (ev : Evaluator F) : Prop where
  data : ∀ name series, ev.data.lookup name = some series → (series.map Prod.fst).Nodup
  hist : ∀ name series, (ev.histData.bind fun hist => hist.lookup name) = some series →
    (series.map Prod.fst).Nodup

variable {β : Type}

theorem seriesFor_nodup {table : String → Option (List (LabelSet × β))}
    (h : ∀ name series, table name = some series → (series.map Prod.fst).Nodup) (sel : SelectorExpr)
    : ((seriesFor table sel).map Prod.fst).Nodup := by
  unfold seriesFor
  cases sel.metricName with
  | none => exact nodup_nil
  | some name =>
    have hseries : (((table name).getD []).map Prod.fst).Nodup := by
      cases htable : table name with
      | none => exact nodup_nil
      | some series => exact h name series htable
    exact hseries.sublist (filter_sublist.map _)

variable {α : Type}

theorem filterMap_labels_eq (labels : α → LabelSet) (f : α → Option β) (xs : List α) :
    (xs.filterMap fun x => (f x).map fun y => (labels x, y)).map Prod.fst =
      (xs.filter fun x => (f x).isSome).map labels := by
  induction xs with
  | nil => rfl
  | cons x xs ih =>
    rw [filterMap_cons, filter_cons]
    cases f x with
    | none => exact ih
    | some y => exact congrArg (labels x :: ·) ih

theorem filterMap_labels_sublist (labels : α → LabelSet) (f : α → Option β) (xs : List α) :
    ((xs.filterMap fun x => (f x).map fun y => (labels x, y)).map Prod.fst).Sublist
      (xs.map labels) := by
  rw [filterMap_labels_eq]
  exact filter_sublist.map _

/-! ## Nodes that give new labels -/

section
variable (p : Platform F)

def LabelMap (args : List (Arg F)) (f : LabelSet → LabelSet) : Fn → Prop
  | .labelReplace =>
    ∃ dst replacement src regex re, stringArg p args 1 = .ok dst ∧
      stringArg p args 2 = .ok replacement ∧ stringArg p args 3 = .ok src ∧
      stringArg p args 4 = .ok regex ∧ p.regex regex = .ok re ∧
      f = replaceLabel re dst replacement src
  | .labelJoin =>
    ∃ dst sep srcs, stringArg p args 1 = .ok dst ∧ stringArg p args 2 = .ok sep ∧
      (args.drop 3).mapM (evalString p) = .ok srcs ∧ f = joinLabels dst sep srcs
  | .labelDel => ∃ dels, (args.drop 1).mapM (evalString p) = .ok dels ∧ f = deleteLabels dels
  | _ => False

def matchedPairs (b : BinaryHead) (lhs rhs : InstantVector F) : List (LabelSet × F × F) :=
  let (vm, card) := b.matching.getD (.all, .oneToOne)
  lhs.flatMap fun l =>
    let found := rhs.filter fun r => matchKey vm r.1 = matchKey vm l.1
    match card with
    | .oneToOne =>
      match found with
      | [r] => [(resultLabels b l.1, l.2, r.2)]
      | _ => []
    | .manyToOne extra =>
      found.map fun r => (copyExtras extra r.1 (resultLabels b l.1), l.2, r.2)
    | .oneToMany _ => found.map fun r => (resultLabels b r.1, l.2, r.2)

def matchedLabels (b : BinaryHead) (lhs rhs : InstantVector F) : List LabelSet :=
  ((matchedPairs b lhs rhs).filter fun pair => (survivor p b pair.2.1 pair.2.2).isSome).map
    Prod.fst

def classicQuantile (q : F) (h : LabelSet × List (F × F)) : Option F :=
  (p.sortBy Prod.fst false h.2).bind fun buckets => quantileFromBuckets p q buckets

def quantileLabels (q : F) (v : InstantVector F) : List LabelSet :=
  ((bucketGroups p v).filter fun h => (classicQuantile p q h).isSome).map fun h =>
    h.1.filtered fun k _ => k ≠ "__name__"

variable (build : Build) (ev : Evaluator F)

/-- A node that gives two series the same labels. -/
inductive Merges : Expr F → EvalContext → Prop
  | labels {name : String} {fn : Fn} {args : List (Expr F)} {ctx : EvalContext}
      {v : InstantVector F} {f : LabelSet → LabelSet}
      (hrange : args.find? Expr.isRange = none) (hfn : Fn.ofName name = some fn)
      (hf : LabelMap p (args.map (asArg p build ev)) f fn)
      (hv : vectorArg (args.map (asArg p build ev)) 0 ctx = .ok v)
      (h : ¬ (v.map fun s => f s.1).Nodup) : Merges (.call name args) ctx
  | matched {b : BinaryHead} {lhs rhs : Expr F} {ctx : EvalContext} {l r : InstantVector F}
      (hop : b.op.onValues = true) (hlit : lhs.literal? = none) (hlit' : rhs.literal? = none)
      (hl : eval p build ev lhs ctx = .ok l) (hr : eval p build ev rhs ctx = .ok r)
      (h : ¬ (matchedLabels p b l r).Nodup) : Merges (.binary b lhs rhs) ctx
  | quantile {name : String} {args : List (Expr F)} {ctx : EvalContext} {q : F}
      {v : InstantVector F} (hrange : args.find? Expr.isRange = none)
      (hfn : Fn.ofName name = some .histogramQuantile)
      (hnative : nativeHistogram ev (args.map (asArg p build ev)) = none)
      (hq : scalarArg p (args.map (asArg p build ev)) 0 ctx = .ok q)
      (hv : vectorArg (args.map (asArg p build ev)) 1 ctx = .ok v)
      (hsort : ∀ h ∈ bucketGroups p v, p.sortBy Prod.fst false h.2 ≠ none)
      (h : ¬ (quantileLabels p q v).Nodup) : Merges (.call name args) ctx

end

/-! ## Operators -/

variable {v : InstantVector F}

section
variable {p : Platform F} {b : BinaryHead}

theorem evalVectorBinary_kept (hop : b.op.onValues = true) (lhs rhs : InstantVector F) :
    evalVectorBinary p b lhs rhs = .ok ((matchedPairs b lhs rhs).filterMap fun pair =>
      (survivor p b pair.2.1 pair.2.2).map fun v => (pair.1, v)) := by
  have hgather (labels : LabelSet × F → LabelSet) (lv : F) (found : InstantVector F) :
      gather (fun r => emit p b (labels r) lv r.2) found =
        .ok ((found.map fun r => (labels r, lv, r.2)).filterMap fun pair =>
          (survivor p b pair.2.1 pair.2.2).map fun v => (pair.1, v)) := by
    rw [gather_filterMap fun r _ => emit_eq hop (labels r) lv r.2, filterMap_map]
    rfl
  unfold evalVectorBinary matchedPairs
  split
  · rename_i h
    rw [h] at hop
    cases hop
  · rename_i h
    rw [h] at hop
    cases hop
  · rename_i h
    rw [h] at hop
    cases hop
  · dsimp only
    rw [filterMap_flatMap]
    refine gather_ok fun l _ => ?_
    unfold matchSeries
    cases (b.matching.getD (.all, .oneToOne)).2 with
    | oneToOne =>
      generalize rhs.filter _ = found
      rcases found with _ | ⟨r, _ | ⟨r', found⟩⟩
      · rfl
      · dsimp only
        rw [emit_eq hop, filterMap_cons]
        cases survivor p b l.2 r.2 <;> rfl
      · rfl
    | manyToOne extra => exact hgather _ l.2 _
    | oneToMany extra => exact hgather _ l.2 _

theorem evalVectorBinary_labels (hop : b.op.onValues = true) {lhs rhs : InstantVector F}
    (h : evalVectorBinary p b lhs rhs = .ok v) :
    v.map Prod.fst = matchedLabels p b lhs rhs := by
  rw [evalVectorBinary_kept hop] at h
  rw [← Except.ok.inj h]
  exact filterMap_labels_eq _ _ _

theorem emit_labels {labels : LabelSet} {x y : F} (h : emit p b labels x y = .ok v) :
    (v.map Prod.fst).Sublist [labels] := by
  obtain ⟨value, -, h⟩ := bind_eq_ok.mp h
  rw [← Except.ok.inj h]
  cases filterCmp p b value with
  | none => exact nil_sublist _
  | some value => exact refl _

theorem evalVectorBinary_distinct (hop : b.op.onValues = false) {lhs rhs : InstantVector F}
    (hl : lhs.Distinct) (hr : rhs.Distinct) (h : evalVectorBinary p b lhs rhs = .ok v) :
    v.Distinct := by
  have hfilter {w : InstantVector F} (hw : w.Distinct) (q : LabelSet × F → Bool) :
      InstantVector.Distinct (w.filter q) := hw.sublist (filter_sublist.map _)
  unfold evalVectorBinary at h
  split at h
  · rw [← Except.ok.inj h]
    exact hfilter hl _
  · rw [← Except.ok.inj h]
    unfold InstantVector.Distinct
    rw [map_append]
    refine nodup_append.mpr ⟨hl, hfilter hr _, fun labels hlabels labels' hlabels' heq => ?_⟩
    obtain ⟨s, hs, rfl⟩ := mem_map.mp hlabels'
    have hnone := (mem_filter.mp hs).2
    rw [← heq, Option.isNone_iff_eq_none] at hnone
    rw [← isSome_get, hnone] at hlabels
    cases hlabels
  · rw [← Except.ok.inj h]
    exact hfilter hl _
  · rename_i hand hor hunless
    cases hb : b.op with
    | and => exact (hand hb).elim
    | or => exact (hor hb).elim
    | «unless» => exact (hunless hb).elim
    | _ =>
      rw [hb] at hop
      cases hop

/-- **What a binary operator does to distinct operands.** -/
theorem evalBinary_distinct_iff {le re : Expr F} {l r : InstantVector F} (hl : l.Distinct)
    (hr : r.Distinct) (h : evalBinary p b le re l r = .ok v) :
    v.Distinct ↔ (b.op.onValues = true → le.literal? = none → re.literal? = none →
      (matchedLabels p b l r).Nodup) := by
  have hvectors (h : evalVectorBinary p b l r = .ok v) (hle : le.literal? = none)
      (hre : re.literal? = none) : v.Distinct ↔ (b.op.onValues = true →
        le.literal? = none → re.literal? = none → (matchedLabels p b l r).Nodup) := by
    cases hop : b.op.onValues with
    | false => exact iff_of_true (evalVectorBinary_distinct hop hl hr h) nofun
    | true =>
      unfold InstantVector.Distinct
      rw [evalVectorBinary_labels hop h]
      exact ⟨fun h _ _ _ => h, fun h => h rfl hle hre⟩
  unfold evalBinary at h
  split at h
  · refine iff_of_true ?_ nofun
    obtain ⟨value, -, h⟩ := bind_eq_ok.mp h
    rw [← Except.ok.inj h]
    exact nodup_singleton _
  · exact iff_of_true (hr.sublist (gather_tags_sublist h fun r _ l hl => emit_labels hl))
      nofun
  · exact iff_of_true (hl.sublist (gather_tags_sublist h fun r _ l hl => emit_labels hl))
      nofun
  · rename_i hle hre _
    refine hvectors h ?_ ?_
    · cases le <;> first | rfl | exact (hle _ rfl).elim
    · cases re <;> first | rfl | exact (hre _ rfl).elim

end

/-! ## Aggregations -/

theorem get_groupLabels_by {list : List String} (hlist : list.Nodup) (labels : LabelSet)
    (k : String) (hk : k ∈ list) : (groupLabels labels (.by list)).get k = labels.get k := by
  have hkeys : (list.filterMap fun l => (labels.get l).map fun v => (l, v)).map Prod.fst =
      list.filter fun l => (labels.get l).isSome := by
    rw [map_filterMap, ← filterMap_eq_filter]
    refine filterMap_congr fun l _ => ?_
    cases h : labels.get l <;> simp [Option.guard, h]
  obtain ⟨built, hbuilt, hmem⟩ := tryFromIter_of_nodup (hkeys ▸ hlist.filter _)
  unfold groupLabels
  dsimp only
  rw [hbuilt]
  ext v
  rw [get_eq_some, hmem, mem_filterMap]
  constructor
  · rintro ⟨l, -, hl⟩
    obtain ⟨v', hv', heq⟩ := Option.map_eq_some_iff.mp hl
    cases heq
    exact hv'
  · intro hv
    exact ⟨k, hk, by rw [hv]; rfl⟩

/-- Series have the same labels in their groups exactly if they are in the same group. -/
theorem groupLabels_eq_iff (grouping : Grouping) {labels labels' : LabelSet} :
    groupLabels labels (normalizeGrouping grouping) =
        groupLabels labels' (normalizeGrouping grouping) ↔
      groupKey labels (normalizeGrouping grouping) =
        groupKey labels' (normalizeGrouping grouping) := by
  cases grouping with
  | none => exact iff_of_true rfl rfl
  | «by» list =>
    have hnodup : (list.insertionSort (· ≤ ·)).dedup.Nodup := nodup_dedup _
    dsimp only [normalizeGrouping, groupKey]
    rw [map_inj_left]
    constructor
    · intro h k hk
      have hget := congrArg (fun l => l.get k) h
      rw [get_groupLabels_by hnodup _ k hk, get_groupLabels_by hnodup _ k hk] at hget
      rw [hget]
    · intro h
      simp only [groupLabels]
      rw [filterMap_congr fun k hk => by rw [(Prod.mk.inj (h k hk)).2]]
  | without list =>
    have hinj : Function.Injective fun e : String × String => (e.1, some e.2) := by
      intro a b hab
      simpa [Prod.ext_iff] using hab
    refine Iff.trans ?_ (map_injective_iff.mpr hinj).eq_iff.symm
    exact iff_of_eq (LabelSet.mk.injEq ..)

section
variable {p : Platform F}

theorem groupsOf_nodup (grouping : Grouping) (v : InstantVector F) :
    ((groupsOf p (normalizeGrouping grouping) v).map Prod.fst).Nodup := by
  let key (s : LabelSet × F) := groupKey s.1 (normalizeGrouping grouping)
  let groups := groupOn key id v
  have hperm := perm_insertionSort (fun a b => p.hash a.1 ≤ p.hash b.1) groups
  have hnodup : (groups.map fun g =>
      groupLabels ((g.2.head?.map Prod.fst).getD .empty) (normalizeGrouping grouping)).Nodup := by
    refine (nodup_map_iff_inj_on (of_map _ (groupOn_keys_nodup key id v))).mpr ?_
    intro g hg g' hg' heq
    obtain ⟨s, rest, hs, -, hkey⟩ := groupOn_cons hg
    obtain ⟨s', rest', hs', -, hkey'⟩ := groupOn_cons hg'
    rw [hs, hs'] at heq
    have hkeys : g.1 = g'.1 := hkey.symm.trans (((groupLabels_eq_iff grouping).mp heq).trans hkey')
    exact inj_on_of_nodup_map (groupOn_keys_nodup key id v) hg hg' hkeys
  unfold groupsOf
  rw [map_map]
  exact (hperm.map _).nodup_iff.mpr hnodup

theorem countValues_distinct (label : String) (v : InstantVector F) :
    (countValues p label v).Distinct := by
  let groups := groupOn (fun s : LabelSet × F => fmtNum p s.2) Prod.snd v
  have hperm := perm_insertionSort (fun a b : String × List F => a.1 ≤ b.1) groups
  unfold InstantVector.Distinct countValues
  rw [map_map]
  refine (hperm.map _).nodup_iff.mpr ?_
  refine (nodup_map_iff_inj_on (of_map _ (groupOn_keys_nodup _ _ v))).mpr ?_
  intro g hg g' hg' heq
  have hget := congrArg (fun l => l.get label) heq
  simp only [Function.comp_apply, get_with, if_true] at hget
  exact inj_on_of_nodup_map (groupOn_keys_nodup _ _ v) hg hg' (Option.some.inj hget)

theorem sorted_perm {key : α → F} {descending : Bool} {xs ys : List α}
    (h : p.sorted key descending xs = .ok ys) : ys.Perm xs :=
  p.sortBy_perm (sorted_eq_ok.mp h)

theorem unlabelled_distinct (x : F) : (unlabelled x).Distinct := nodup_singleton _

variable {out : InstantVector F}

theorem evalAggregation_distinct {op : AggregationOp} {grouping : Grouping} {param : Option (Arg F)}
    {operand : EvalContext → Eval (InstantVector F)} {ctx : EvalContext} (hv : operand ctx = .ok v)
    (hd : v.Distinct) (h : evalAggregation p op grouping param operand ctx = .ok out) :
    out.Distinct := by
  have htake {n : F} {descending : Bool} (h : (do
      let n ← paramScalar p param n ctx
      let series ← p.sorted Prod.snd descending v
      return series.take (p.toUsize n) : Eval (InstantVector F)) = .ok out) : out.Distinct := by
    obtain ⟨n, -, h⟩ := bind_eq_ok.mp h
    obtain ⟨series, hseries, h⟩ := bind_eq_ok.mp h
    rw [← Except.ok.inj h]
    have hsorted : (series.map Prod.fst).Nodup :=
      ((sorted_perm hseries).map Prod.fst).nodup_iff.mpr hd
    exact hsorted.sublist ((take_sublist _ _).map _)
  unfold evalAggregation at h
  rw [hv, ok_bind] at h
  cases hlock : ctx.lockHeld with
  | true =>
    rw [hlock] at h
    cases h
  | false =>
    simp only [hlock, Bool.false_eq_true, if_false] at h
    cases op with
    | topK => exact htake h
    | bottomK => exact htake h
    | quantile =>
      obtain ⟨q, -, h⟩ := bind_eq_ok.mp h
      obtain ⟨vals, -, h⟩ := bind_eq_ok.mp h
      obtain ⟨value, -, h⟩ := bind_eq_ok.mp h
      rw [← Except.ok.inj h]
      exact unlabelled_distinct value
    | countValues =>
      cases param with
      | none => cases h
      | some a =>
        obtain ⟨label, -, h⟩ := bind_eq_ok.mp h
        rw [← Except.ok.inj h]
        exact countValues_distinct label v
    | _ =>
      rw [← Except.ok.inj h]
      exact (@groupsOf_nodup F p grouping v).sublist (filterMap_labels_sublist _ _ _)

/-! ## Functions -/

theorem mapValues_distinct {f : F → F} (h : v.Distinct) : (mapValues p f v).Distinct := by
  refine h.sublist ?_
  have hmap : mapValues p f v = v.filterMap fun s =>
      (if p.isNan (f s.2) then none else some (f s.2)).map fun y => (s.1, y) := by
    refine filterMap_congr fun s _ => ?_
    split_ifs <;> rfl
  rw [hmap]
  exact filterMap_labels_sublist _ _ _

variable {build : Build} {ev : Evaluator F} {args : List (Arg F)} {ctx : EvalContext}

theorem clampAll_distinct {lo hi : F} (hd : v.Distinct)
    (h : gather (fun s => do
      let y ← p.clamp s.2 lo hi
      return if p.isNan y then [] else [(s.1, y)]) v = .ok out) : out.Distinct := by
  refine hd.sublist (gather_tags_sublist h fun s _ l hl => ?_)
  obtain ⟨y, -, hl⟩ := bind_eq_ok.mp hl
  rw [← Except.ok.inj hl]
  split_ifs
  · exact nil_sublist _
  · exact refl _

def Fn.readsVector : Fn → Bool
  | .pi | .vector | .time | .histogramCount | .histogramSum | .histogramAvg | .histogramStddev
  | .histogramStdvar | .histogramFraction | .histogramQuantile => false
  | _ => true

variable {fn : Fn} {name : String}

/-- Of the functions that read a vector, all but the label functions keep it distinct. -/
theorem applyFn_vector_distinct (hfn : fn.readsVector = true)
    (hlabels : ∀ f, ¬ LabelMap p args f fn) (hd : ∀ v, vectorArg args 0 ctx = .ok v → v.Distinct)
    (h : applyFn p build ev fn name args ctx = .ok out) :
    out.Distinct := by
  have hmap {f : F → F} {v : InstantVector F} (hv : vectorArg args 0 ctx = .ok v)
      (h : (.ok (mapValues p f v) : Eval (InstantVector F)) = .ok out) : out.Distinct :=
    Except.ok.inj h ▸ mapValues_distinct (hd v hv)
  cases fn with
  | math | sgn | timestamp =>
    obtain ⟨v, hv, h⟩ := bind_eq_ok.mp h
    exact hmap hv h
  | atan2 | clampMin | clampMax =>
    obtain ⟨v, hv, h⟩ := bind_eq_ok.mp h
    obtain ⟨x, -, h⟩ := bind_eq_ok.mp h
    exact hmap hv h
  | round =>
    obtain ⟨v, hv, h⟩ := bind_eq_ok.mp h
    split_ifs at h
    · exact hmap hv h
    · obtain ⟨x, -, h⟩ := bind_eq_ok.mp h
      exact hmap hv h
  | clamp =>
    obtain ⟨v, hv, h⟩ := bind_eq_ok.mp h
    obtain ⟨lo, -, h⟩ := bind_eq_ok.mp h
    obtain ⟨hi, -, h⟩ := bind_eq_ok.mp h
    exact clampAll_distinct (hd v hv) h
  | labelReplace =>
    obtain ⟨v, -, h⟩ := bind_eq_ok.mp h
    obtain ⟨dst, hdst, h⟩ := bind_eq_ok.mp h
    obtain ⟨replacement, hrep, h⟩ := bind_eq_ok.mp h
    obtain ⟨src, hsrc, h⟩ := bind_eq_ok.mp h
    obtain ⟨regex, hregex, h⟩ := bind_eq_ok.mp h
    cases hre : p.regex regex with
    | error e =>
      rw [hre] at h
      cases h
    | ok re =>
      exact absurd ⟨dst, replacement, src, regex, re, hdst, hrep, hsrc, hregex, hre, rfl⟩
        (hlabels _)
  | labelJoin =>
    obtain ⟨v, -, h⟩ := bind_eq_ok.mp h
    obtain ⟨dst, hdst, h⟩ := bind_eq_ok.mp h
    obtain ⟨sep, hsep, h⟩ := bind_eq_ok.mp h
    obtain ⟨srcs, hsrcs, h⟩ := bind_eq_ok.mp h
    exact absurd ⟨dst, sep, srcs, hdst, hsep, hsrcs, rfl⟩ (hlabels _)
  | labelDel =>
    obtain ⟨v, -, h⟩ := bind_eq_ok.mp h
    obtain ⟨dels, hdels, h⟩ := bind_eq_ok.mp h
    exact absurd ⟨dels, hdels, rfl⟩ (hlabels _)
  | scalar =>
    obtain ⟨v, -, h⟩ := bind_eq_ok.mp h
    split at h
    · exact Except.ok.inj h ▸ unlabelled_distinct _
    · exact Except.ok.inj h ▸ unlabelled_distinct _
  | absent =>
    obtain ⟨a, -, h⟩ := bind_eq_ok.mp h
    obtain ⟨v, -, h⟩ := bind_eq_ok.mp h
    rw [← Except.ok.inj h]
    split_ifs
    · exact nodup_singleton _
    · exact nodup_nil
  | date d =>
    cases args with
    | nil => exact Except.ok.inj h ▸ unlabelled_distinct _
    | cons a args =>
      obtain ⟨v, hv, h⟩ := bind_eq_ok.mp h
      exact hmap hv h
  | sort descending =>
    obtain ⟨v, hv, h⟩ := bind_eq_ok.mp h
    exact ((sorted_perm h).map Prod.fst).nodup_iff.mpr (hd v hv)
  | sortByLabel descending =>
    obtain ⟨v, hv, h⟩ := bind_eq_ok.mp h
    obtain ⟨label, -, h⟩ := bind_eq_ok.mp h
    rw [← Except.ok.inj h]
    exact ((perm_insertionSort _ v).map Prod.fst).nodup_iff.mpr (hd v hv)
  | _ => cases hfn

theorem applyFn_labelMap {f : LabelSet → LabelSet} (hf : LabelMap p args f fn) (name : String) :
    applyFn p build ev fn name args ctx =
      vectorArg args 0 ctx >>= fun v => .ok (mapLabels f v) := by
  cases fn with
  | labelReplace =>
    obtain ⟨dst, replacement, src, regex, re, hdst, hrep, hsrc, hregex, hre, rfl⟩ := hf
    refine bind_congr_ok fun v _ => ?_
    simp only [hdst, hrep, hsrc, hregex, hre, ok_bind]
    rfl
  | labelJoin =>
    obtain ⟨dst, sep, srcs, hdst, hsep, hsrcs, rfl⟩ := hf
    refine bind_congr_ok fun v _ => ?_
    simp only [hdst, hsep, hsrcs, ok_bind]
    rfl
  | labelDel =>
    obtain ⟨dels, hdels, rfl⟩ := hf
    refine bind_congr_ok fun v _ => ?_
    simp only [hdels, ok_bind]
    rfl
  | _ => cases hf

theorem mapLabels_distinct_iff {f : LabelSet → LabelSet} :
    (mapLabels f v).Distinct ↔ (v.map fun s => f s.1).Nodup := by
  unfold InstantVector.Distinct mapLabels
  rw [map_map]
  rfl

theorem instantOf_labels {time : α → ℤ} {value : α → β} {t lookback : ℤ} {s : LabelSet × List α}
    {l : List (LabelSet × β)} (h : instantOf build time value t lookback s = .ok l) :
    (l.map Prod.fst).Sublist [s.1] := by
  obtain ⟨found, -, h⟩ := bind_eq_ok.mp h
  rw [← Except.ok.inj h]
  cases found with
  | none => exact nil_sublist _
  | some a => exact refl _

theorem evalSelector_distinct (hdata : ev.Distinct) {sel : SelectorExpr}
    (h : evalSelector build ev sel ctx = .ok v) : v.Distinct := by
  rw [evalSelector_gather] at h
  have hseries : ((ev.series sel).map Prod.fst).Nodup := seriesFor_nodup hdata.data sel
  refine hseries.sublist (gather_tags_sublist h fun s _ l hl => ?_)
  obtain ⟨shifted, -, hl⟩ := bind_eq_ok.mp hl
  exact instantOf_labels hl

theorem histSelectorWindows_nodup (hdata : ev.Distinct) {sel : SelectorExpr}
    {wins : List (LabelSet × HistSample F)}
    (h : histSelectorWindows build ev sel ctx = .ok wins) : (wins.map Prod.fst).Nodup := by
  unfold histSelectorWindows at h
  split at h
  · rename_i name hist hname hhist
    split at h
    · cases h
      exact nodup_nil
    · rename_i series hseries
      obtain ⟨shifted, -, h⟩ := bind_eq_ok.mp h
      have hnodup := hdata.hist name series (by rw [hhist]; exact hseries)
      refine hnodup.sublist (gather_tags_sublist h fun s _ l hl => ?_)
      split_ifs at hl
      · exact instantOf_labels hl
      · cases hl
        exact nil_sublist _
  · cases h
    exact nodup_nil

theorem evalHistogram_distinct (hdata : ev.Distinct) {f : HistSample F → F}
    (h : evalHistogram build ev f name args ctx = .ok out) :
    out.Distinct := by
  rw [evalHistogram_eq] at h
  split at h
  · obtain ⟨wins, hwins, h⟩ := bind_eq_ok.mp h
    rw [← Except.ok.inj h]
    unfold InstantVector.Distinct
    rw [map_map]
    exact histSelectorWindows_nodup hdata hwins
  · cases h

theorem evalHistogramQuantile_eq {q : F} (hq : scalarArg p args 0 ctx = .ok q)
    (hv : vectorArg args 1 ctx = .ok v)
    (hsort : ∀ h ∈ bucketGroups p v, p.sortBy Prod.fst false h.2 ≠ none) :
    evalHistogramQuantile p args ctx = .ok ((bucketGroups p v).filterMap fun h =>
      (classicQuantile p q h).map fun qv => (h.1.filtered fun k _ => k ≠ "__name__", qv)) := by
  unfold evalHistogramQuantile
  rw [hq, ok_bind, hv, ok_bind]
  refine gather_filterMap fun h hh => ?_
  obtain ⟨buckets, hbuckets⟩ := Option.ne_none_iff_exists'.mp (hsort h hh)
  unfold classicQuantile
  rw [sorted_eq_ok.mpr hbuckets, hbuckets]
  rfl

theorem sortBy_of_evalHistogramQuantile {q : F} (hq : scalarArg p args 0 ctx = .ok q)
    (hv : vectorArg args 1 ctx = .ok v) (h : evalHistogramQuantile p args ctx = .ok out) :
    ∀ h ∈ bucketGroups p v, p.sortBy Prod.fst false h.2 ≠ none := by
  intro g hg hnone
  unfold evalHistogramQuantile at h
  rw [hq, ok_bind, hv, ok_bind] at h
  refine gather_ne_ok (e := .panic) hg ?_ h
  rw [sorted_eq_error.mpr ⟨rfl, hnone⟩]
  rfl

/-- A function gives no two series the same labels. -/
structure FnKeeps (p : Platform F) (ev : Evaluator F) (args : List (Arg F)) (ctx : EvalContext)
    (fn : Fn) : Prop where
  labels : ∀ f v, LabelMap p args f fn → vectorArg args 0 ctx = .ok v → (v.map fun s => f s.1).Nodup
  quantile : fn = .histogramQuantile → nativeHistogram ev args = none → ∀ q v,
    scalarArg p args 0 ctx = .ok q → vectorArg args 1 ctx = .ok v →
    (∀ h ∈ bucketGroups p v, p.sortBy Prod.fst false h.2 ≠ none) → (quantileLabels p q v).Nodup

theorem applyFn_other_distinct (hdata : ev.Distinct) (hfn : fn.readsVector = false)
    (hq : fn ≠ .histogramQuantile) (h : applyFn p build ev fn name args ctx = .ok out) :
    out.Distinct := by
  cases fn with
  | pi | time => exact Except.ok.inj h ▸ unlabelled_distinct _
  | vector =>
    obtain ⟨x, -, h⟩ := bind_eq_ok.mp h
    exact Except.ok.inj h ▸ unlabelled_distinct _
  | histogramCount | histogramSum | histogramAvg | histogramStddev | histogramStdvar =>
    simp only [applyFn] at h
    exact evalHistogram_distinct hdata h
  | histogramFraction =>
    obtain ⟨lower, -, h⟩ := bind_eq_ok.mp h
    obtain ⟨upper, -, h⟩ := bind_eq_ok.mp h
    split at h
    · obtain ⟨wins, hwins, h⟩ := bind_eq_ok.mp h
      rw [← Except.ok.inj h]
      unfold InstantVector.Distinct
      rw [map_map]
      exact histSelectorWindows_nodup hdata hwins
    · cases h
  | histogramQuantile => exact absurd rfl hq
  | _ => cases hfn

theorem applyFn_quantile_distinct_iff (hdata : ev.Distinct)
    (h : applyFn p build ev .histogramQuantile name args ctx = .ok out) :
    out.Distinct ↔ FnKeeps p ev args ctx .histogramQuantile := by
  simp only [applyFn] at h
  cases hnative : nativeHistogram ev args with
  | some sel =>
    rw [hnative] at h
    obtain ⟨q, -, h⟩ := bind_eq_ok.mp h
    obtain ⟨wins, hwins, h⟩ := bind_eq_ok.mp h
    refine iff_of_true ?_ ⟨fun f v hf => (by cases hf), fun _ hn => ?_⟩
    swap
    · rw [hnative] at hn
      cases hn
    have hout : out = wins.filterMap fun w =>
        (if p.isNan (w.2.quantile p q) then none else some (w.2.quantile p q)).map
          fun y => (w.1, y) := by
      rw [← Except.ok.inj h]
      refine filterMap_congr fun w _ => ?_
      split_ifs <;> rfl
    rw [hout]
    exact (histSelectorWindows_nodup hdata hwins).sublist (filterMap_labels_sublist _ _ _)
  | none =>
    rw [hnative] at h
    have hlabels {q : F} {v : InstantVector F} (hq : scalarArg p args 0 ctx = .ok q)
        (hv : vectorArg args 1 ctx = .ok v) : out.map Prod.fst = quantileLabels p q v := by
      have heq := evalHistogramQuantile_eq hq hv (sortBy_of_evalHistogramQuantile hq hv h)
      rw [← Except.ok.inj (heq.symm.trans h)]
      exact filterMap_labels_eq _ _ _
    constructor
    · intro hout
      refine ⟨fun f v hf => (by cases hf), fun _ _ q v hq hv _ => ?_⟩
      rw [← hlabels hq hv]
      exact hout
    · intro hkeeps
      have hreads := h
      obtain ⟨q, hq, hreads⟩ := bind_eq_ok.mp hreads
      obtain ⟨v, hv, -⟩ := bind_eq_ok.mp hreads
      unfold InstantVector.Distinct
      rw [hlabels hq hv]
      exact hkeeps.quantile rfl hnative q v hq hv (sortBy_of_evalHistogramQuantile hq hv h)

/-- **What a function does to distinct operands.** -/
theorem applyFn_distinct_iff (hdata : ev.Distinct)
    (hd : fn.readsVector = true → ∀ v, vectorArg args 0 ctx = .ok v → v.Distinct)
    (h : applyFn p build ev fn name args ctx = .ok out) :
    out.Distinct ↔ FnKeeps p ev args ctx fn := by
  by_cases hq : fn = .histogramQuantile
  · subst hq
    exact applyFn_quantile_distinct_iff hdata h
  by_cases hf : ∃ f, LabelMap p args f fn
  · have hlabels {f : LabelSet → LabelSet} {v : InstantVector F} (hf : LabelMap p args f fn)
        (hv : vectorArg args 0 ctx = .ok v) : out = mapLabels f v := by
      rw [applyFn_labelMap hf, hv] at h
      exact (Except.ok.inj h).symm
    constructor
    · intro hout
      refine ⟨fun f v hf hv => ?_, fun h => absurd h hq⟩
      rw [hlabels hf hv] at hout
      exact mapLabels_distinct_iff.mp hout
    · intro hkeeps
      obtain ⟨f, hf⟩ := hf
      have happly := h
      rw [applyFn_labelMap hf] at happly
      obtain ⟨v, hv, -⟩ := bind_eq_ok.mp happly
      rw [hlabels hf hv]
      exact mapLabels_distinct_iff.mpr (hkeeps.labels f v hf hv)
  · have hnone := not_exists.mp hf
    refine iff_of_true ?_ ⟨fun f v hf => absurd hf (hnone f), fun h => absurd h hq⟩
    cases hreads : fn.readsVector with
    | true => exact applyFn_vector_distinct hreads hnone (hd hreads) h
    | false => exact applyFn_other_distinct hdata hreads hq h

/-! ## Windows -/

theorem selectorWindows_nodup (hdata : ev.Distinct) (sel : SelectorExpr)
    (windowStart windowEnd : ℤ) :
    ((selectorWindows ev sel windowStart windowEnd).map Prod.fst).Nodup := by
  have hseries : ((ev.series sel).map Prod.fst).Nodup := seriesFor_nodup hdata.data sel
  have hwindow (s : LabelSet × List (ℤ × F)) : windowOf windowStart windowEnd s =
      (match pointsWithin windowStart windowEnd s.2 with
        | [] => none
        | q :: qs => some ((q :: qs).map fun q : ℤ × F => Sample.mk q.1 q.2)).map
          fun y => (s.1, y) := by
    unfold windowOf
    cases pointsWithin windowStart windowEnd s.2 <;> rfl
  rw [selectorWindows_eq, funext hwindow]
  exact hseries.sublist (filterMap_labels_sublist _ _ _)

theorem subqueryWindows_nodup {inner : EvalContext → Eval (InstantVector F)}
    {step windowStart windowEnd : ℤ} {ws : RangeVector F}
    (h : subqueryWindows build inner ctx step windowStart windowEnd = .ok ws) :
    (ws.map Prod.fst).Nodup := by
  obtain ⟨first, -, h⟩ := bind_eq_ok.mp h
  have hpush (t : ℤ) (iv : InstantVector F) (ws : RangeVector F) (hws : (ws.map Prod.fst).Nodup) :
      ((iv.foldl (fun ws s => pushGroup s.1 (Sample.mk t s.2) ws) ws).map Prod.fst).Nodup := by
    induction iv generalizing ws with
    | nil => exact hws
    | cons s iv ih => exact ih _ (nodup_keys_pushGroup hws)
  have hnil : (([] : RangeVector F).map Prod.fst).Nodup := nodup_nil
  refine stepLoop_invariant (q := fun ws : RangeVector F => (ws.map Prod.fst).Nodup) ?_ hnil h
  intro t ws ws' hws hbody
  obtain ⟨iv, -, hbody⟩ := bind_eq_ok.mp hbody
  exact Except.ok.inj hbody ▸ hpush t iv ws hws

theorem evalWindows_nodup (hdata : ev.Distinct) {range : Expr F} {ws : RangeVector F}
    (h : evalWindows p build ev range ctx = .ok ws) : (ws.map Prod.fst).Nodup := by
  cases range with
  | range head e =>
    rw [evalWindows] at h
    cases hsel : e.selector? with
    | some sel =>
      rw [Expr.selector?_eq_some.mp hsel, evalRangeWindows_selector] at h
      obtain ⟨w, -, h⟩ := bind_eq_ok.mp h
      exact Except.ok.inj h ▸ selectorWindows_nodup hdata sel _ _
    | none =>
      rw [evalRangeWindows_subquery hsel] at h
      obtain ⟨w, -, h⟩ := bind_eq_ok.mp h
      exact subqueryWindows_nodup h
  | _ =>
    rw [evalWindows] at h
    · cases h
      exact nodup_nil
    · rintro _ _ ⟨⟩

theorem evalRangeFn_distinct (hdata : ev.Distinct) {range : Expr F}
    (h : evalRangeFn p build name (asArg p build ev range) args ctx = .ok out) :
    out.Distinct := by
  rw [evalRangeFn_eq] at h
  obtain ⟨ws, hws, h⟩ := bind_eq_ok.mp h
  split_ifs at h
  · rw [← Except.ok.inj h]
    unfold absentSeries
    split
    · split_ifs
      · exact nodup_singleton _
      · exact nodup_nil
    · exact nodup_nil
  · refine (evalWindows_nodup hdata hws).sublist (gather_tags_sublist h fun w _ l hl => ?_)
    obtain ⟨v, -, hl⟩ := bind_eq_ok.mp hl
    rw [← Except.ok.inj hl]
    cases v with
    | none => exact nil_sublist _
    | some v => exact refl _

/-! ## Whole evaluations -/

theorem reads_vector (hfn : fn.readsVector = true) {nargs : ℕ} (hn : 0 < nargs) (native : Bool) :
    ∃ after, fn.reads nargs native = .vector 0 :: after := by
  cases fn with
  | round =>
    rw [Fn.reads]
    split_ifs
    · exact ⟨_, rfl⟩
    · exact ⟨_, rfl⟩
  | date d => exact ⟨[], if_neg (Nat.pos_iff_ne_zero.mp hn)⟩
  | _ => first | exact ⟨_, rfl⟩ | cases hfn

theorem calls_vector {es : List (Expr F)} (hrange : es.find? Expr.isRange = none)
    (hfn : Fn.ofName name = some fn) (hreads : fn.readsVector = true)
    (hv : vectorArg (es.map (asArg p build ev)) 0 ctx = .ok v) :
    ∃ e, Calls p build ev (.call name es) ctx e ctx ∧ eval p build ev e ctx = .ok v := by
  cases es with
  | nil => cases hv
  | cons e es =>
    obtain ⟨after, hafter⟩ := reads_vector hreads (Nat.succ_pos es.length)
      (nativeHistogram ev ((e :: es).map (asArg p build ev))).isSome
    exact ⟨e, .arg hrange hfn ⟨[], after, hafter, nofun⟩ rfl rfl, hv⟩

variable {e : Expr F}

theorem Merges.returns (h : Merges p build ev e ctx) : ∃ v, eval p build ev e ctx = .ok v := by
  cases h with
  | @labels name fn args ctx v f hrange hfn hf hv =>
    rw [eval_fnCall hrange, hfn]
    refine ⟨mapLabels f v, (applyFn_labelMap hf _).trans ?_⟩
    rw [hv, ok_bind]
  | @matched b lhs rhs ctx l r hop hlit hlit' hl hr h =>
    rw [eval, hl, ok_bind, hr, ok_bind]
    refine ⟨_, Eq.trans ?_ (@evalVectorBinary_kept F p b hop l r)⟩
    unfold evalBinary
    split
    · cases hlit
    · cases hlit
    · cases hlit'
    · rfl
  | quantile hrange hfn hnative hq hv hsort h =>
    rw [eval_fnCall hrange, hfn]
    simp only [applyFn, hnative]
    exact ⟨_, evalHistogramQuantile_eq hq hv hsort⟩

/-- **One node**: given distinct operands, its vector is distinct unless the node merges labels. -/
theorem eval_distinct_iff (hdata : ev.Distinct)
    (hcalls : ∀ e' ctx' v', Calls p build ev e ctx e' ctx' → eval p build ev e' ctx' = .ok v' →
      v'.Distinct) (h : eval p build ev e ctx = .ok v)
    : v.Distinct ↔ ¬ Merges p build ev e ctx := by
  cases e with
  | number n => exact iff_of_true (Except.ok.inj h ▸ unlabelled_distinct n) nofun
  | str s => cases h
  | range head e => cases h
  | selector sel => exact iff_of_true (evalSelector_distinct hdata h) nofun
  | paren inner => exact iff_of_true (hcalls _ _ _ (.paren inner ctx) h) nofun
  | binary b lhs rhs =>
    obtain ⟨l, hl, h⟩ := bind_eq_ok.mp h
    obtain ⟨r, hr, h⟩ := bind_eq_ok.mp h
    rw [evalBinary_distinct_iff (hcalls _ _ _ (.lhs b lhs rhs ctx) hl)
      (hcalls _ _ _ (.rhs b rhs hl) hr) h]
    constructor
    · intro hnodup hmerges
      cases hmerges with
      | matched hop hlit hlit' hl' hr' hmerge =>
        cases hl.symm.trans hl'
        cases hr.symm.trans hr'
        exact hmerge (hnodup hop hlit hlit')
    · intro hmerge hop hlit hlit'
      by_contra hnodup
      exact hmerge (.matched hop hlit hlit' hl hr hnodup)
  | aggregation op grouping param e =>
    refine iff_of_true ?_ nofun
    rw [eval] at h
    cases hv : eval p build ev e ctx with
    | error fault =>
      unfold evalAggregation at h
      rw [hv] at h
      cases h
    | ok w =>
      exact evalAggregation_distinct hv (hcalls _ _ _ (.operand op grouping param e ctx) hv) h
  | call name es =>
    cases hrange : es.find? Expr.isRange with
    | some range =>
      rw [eval_rangeCall hrange] at h
      refine iff_of_true (evalRangeFn_distinct hdata h) fun hmerges => ?_
      cases hmerges with
      | labels hnone | quantile hnone => cases hrange.symm.trans hnone
    | none =>
      rw [eval_fnCall hrange] at h
      cases hfn : Fn.ofName name with
      | none =>
        rw [hfn] at h
        cases h
      | some fn =>
        rw [hfn] at h
        rw [applyFn_distinct_iff hdata ?_ h]
        · constructor
          · intro hkeeps hmerges
            cases hmerges with
            | labels _ hfn' hf hv hmerge =>
              cases hfn.symm.trans hfn'
              exact hmerge (hkeeps.labels _ _ hf hv)
            | quantile _ hfn' hnative hq hv hsort hmerge =>
              cases hfn.symm.trans hfn'
              exact hmerge (hkeeps.quantile rfl hnative _ _ hq hv hsort)
          · intro hmerge
            refine ⟨fun f v hf hv => ?_, fun hq hnative q v hqv hv hsort => ?_⟩
            · by_contra hnodup
              exact hmerge (.labels hrange hfn hf hv hnodup)
            · subst hq
              by_contra hnodup
              exact hmerge (.quantile hrange hfn hnative hqv hv hsort hnodup)
        · intro hreads v hv
          obtain ⟨e, hcall, he⟩ := calls_vector hrange hfn hreads hv
          exact hcalls _ _ _ hcall he

theorem Comes.tail {e' e'' : Expr F} {ctx' ctx'' : EvalContext} (h : Comes p build ev e ctx e' ctx')
    (hcall : Calls p build ev e' ctx' e'' ctx'') :
    Comes p build ev e ctx e'' ctx'' := by
  induction h with
  | here => exact .call hcall (.here _ _)
  | call hfirst _ ih => exact .call hfirst (ih hcall)

/-- **Vectors have a label set twice only where labels are merged.** -/
theorem distinct_iff (hdata : ev.Distinct) :
    (∀ e' ctx' v, Comes p build ev e ctx e' ctx' → eval p build ev e' ctx' = .ok v → v.Distinct) ↔
      ∀ e' ctx', Comes p build ev e ctx e' ctx' → ¬ Merges p build ev e' ctx' := by
  constructor
  · intro hall e' ctx' hcomes hmerges
    obtain ⟨v, hv⟩ := hmerges.returns
    refine (eval_distinct_iff hdata (fun e'' ctx'' v' hcall hv' => ?_) hv).mp
      (hall e' ctx' v hcomes hv) hmerges
    exact hall e'' ctx'' v' (hcomes.tail hcall) hv'
  · intro hnone e' ctx' v hcomes hv
    -- over the evaluations that start below
    refine @Calls.induct F p build ev (fun e' => ∀ ctx' v, Comes p build ev e ctx e' ctx' →
      eval p build ev e' ctx' = .ok v → v.Distinct) (fun e' ih ctx' v hcomes hv => ?_) e' ctx' v
      hcomes hv
    refine (eval_distinct_iff hdata (fun e'' ctx'' v' hcall hv' => ?_) hv).mpr
      (hnone e' ctx' hcomes)
    exact ih ctx' e'' ctx'' hcall ctx'' v' (hcomes.tail hcall) hv'

end

/-! ## Series of steps -/

def TimeSeries.Increasing (s : TimeSeries F) : Prop :=
  s.samples.Pairwise fun a b => a.timestampNs < b.timestampNs

/-- **The output series go up in time exactly if no step has a fingerprint twice.** -/
theorem foldSteps_increasing_iff {steps : List (ℤ × InstantVector F)}
    (hsteps : steps.Pairwise fun a b => a.1 < b.1) :
    (∀ s ∈ foldSteps steps, s.Increasing) ↔
      ∀ step ∈ steps, (step.2.map fun s => s.1.fingerprint).Nodup := by
  let row (step : ℤ × InstantVector F) := step.2.map fun s => (s.1, Sample.mk step.1 s.2)
  let rows := steps.flatMap row
  let key (r : LabelSet × Sample F) : ℤ := r.1.fingerprint
  let before (a b : LabelSet × Sample F) := a.2.timestampNs < b.2.timestampNs
  have hseries : (∀ s ∈ foldSteps steps, s.Increasing) ↔
      ∀ k ∈ rows.map key, (rows.filter fun r => key r = k).Pairwise before := by
    have hmem {g : ℤ × List (LabelSet × Sample F)} :
        g ∈ sortByKey (fun g => g.1) (groupOn key id rows) ↔
          g.1 ∈ rows.map key ∧ g.2 = rows.filter fun r => key r = g.1 := by
      rw [(sortByKey_perm _ _).mem_iff, mem_groupOn, map_id]
    constructor
    · intro h k hk
      have hg : (k, rows.filter fun r => key r = k) ∈
          sortByKey (fun g => g.1) (groupOn key id rows) := hmem.mpr ⟨hk, rfl⟩
      have hsamples : ((rows.filter fun r => key r = k).map Prod.snd).Pairwise fun a b =>
          a.timestampNs < b.timestampNs := h _ (mem_map_of_mem hg)
      have hrows := pairwise_map.mp hsamples
      exact hrows
    · rintro h s hs
      obtain ⟨g, hg, rfl⟩ := mem_map.mp hs
      obtain ⟨hk, hg⟩ := hmem.mp hg
      refine pairwise_map.mpr ?_
      rw [hg]
      exact h g.1 hk
  have hrows : (rows.Pairwise fun a b => key a = key b → before a b) ↔
      ∀ step ∈ steps, (step.2.map fun s => s.1.fingerprint).Nodup := by
    rw [pairwise_flatMap]
    have hstep (step : ℤ × InstantVector F) :
        ((row step).Pairwise fun a b => key a = key b → before a b) ↔
          (step.2.map fun s => s.1.fingerprint).Nodup := by
      rw [pairwise_map, List.Nodup, pairwise_map]
      refine List.Pairwise.iff fun a b => ?_
      exact ⟨fun h heq => lt_irrefl _ (h (congrArg Nat.cast heq)),
        fun h heq => absurd (Int.ofNat_inj.mp heq) h⟩
    have hbetween : steps.Pairwise fun a b =>
        ∀ x ∈ row a, ∀ y ∈ row b, key x = key y → before x y := by
      refine hsteps.imp fun {a b} hab x hx y hy _ => ?_
      obtain ⟨s, -, rfl⟩ := mem_map.mp hx
      obtain ⟨s', -, rfl⟩ := mem_map.mp hy
      exact hab
    exact ⟨fun h step hs => (hstep step).mp (h.1 step hs),
      fun h => ⟨fun step hs => (hstep step).mpr (h step hs), hbetween⟩⟩
  rw [hseries, pairwise_groups_iff, hrows]

section
variable {p : Platform F} {build : Build} {ev : Evaluator F} {e : Expr F}
variable {startNs endNs stepNs : ℤ}

theorem evalSteps_steps (hstep : 0 < stepNs) (hfit : build = .debug ∨ InI64 (endNs - 1 + stepNs))
    {steps : List (ℤ × InstantVector F)}
    (h : evalSteps p build ev e startNs endNs stepNs = .ok steps) :
    steps.Pairwise (fun a b => a.1 < b.1) ∧
      ∀ s ∈ steps, startNs ≤ s.1 ∧ s.1 < endNs ∧ eval p build ev e (stepContext s.1) = .ok s.2 := by
  have hnext (t t' : ℤ) (hlt : decide (t < endNs) = true) (ht' : i64 build (t + stepNs) = .ok t') :
      t < t' := by
    have hlt := of_decide_eq_true hlt
    by_cases hin : InI64 (t + stepNs)
    · rw [i64_of_in hin] at ht'
      cases ht'
      omega
    · rcases hfit with rfl | hfit
      · rw [i64_debug_of_not hin] at ht'
        cases ht'
      · -- a sum that wraps around is below the range
        have ht' := i64_inI64 ht'
        unfold InI64 at hin hfit ht'
        omega
  obtain ⟨steps', hsteps', hpairwise, hall⟩ := stepLoop_collect hnext h
  subst hsteps'
  refine ⟨hpairwise, fun s hs => ?_⟩
  obtain ⟨hle, hlt, heval⟩ := hall s hs
  exact ⟨hle, of_decide_eq_true hlt, heval⟩

/-- **Result vectors are well formed unless a node merges labels.** Over data in which no metric
has a label set twice: all vectors of an evaluation are distinct exactly if it comes to no node that
merges labels; and the series of a query's steps go up in time exactly if the vectors of its steps
are distinct. -/
theorem result_distinct_iff (p : Platform F) (build : Build) (ev : Evaluator F) (e : Expr F)
    (hdata : ev.Distinct) {startNs endNs stepNs : ℤ} (hstep : 0 < stepNs)
    (hfit : build = .debug ∨ InI64 (endNs - 1 + stepNs)) :
    (∀ ctx, (∀ e' ctx' v, Comes p build ev e ctx e' ctx' → eval p build ev e' ctx' = .ok v →
        v.Distinct) ↔
      ∀ e' ctx', Comes p build ev e ctx e' ctx' → ¬ Merges p build ev e' ctx') ∧
    ∀ steps, evalSteps p build ev e startNs endNs stepNs = .ok steps →
      (∀ step ∈ steps, ∀ s ∈ step.2, ∀ s' ∈ step.2, s.1.fingerprint = s'.1.fingerprint →
        s.1 = s'.1) →
      ((∀ s ∈ foldSteps steps, s.Increasing) ↔ ∀ step ∈ steps, step.2.Distinct) ∧
      ((∀ t, startNs ≤ t → t < endNs → ∀ e' ctx', Comes p build ev e (stepContext t) e' ctx' →
          ¬ Merges p build ev e' ctx') →
        QueryExecutor.evaluateStepsToSeries p build ev e startNs endNs stepNs =
            .ok (foldSteps steps) ∧ ∀ s ∈ foldSteps steps, s.Increasing) := by
  refine ⟨fun ctx => distinct_iff hdata, fun steps hsteps hfp => ?_⟩
  obtain ⟨hpairwise, hall⟩ := evalSteps_steps hstep hfit hsteps
  have hincreasing : (∀ s ∈ foldSteps steps, s.Increasing) ↔ ∀ step ∈ steps, step.2.Distinct := by
    rw [foldSteps_increasing_iff hpairwise]
    refine forall₂_congr fun step hstep => ?_
    have hmap : (step.2.map fun s => s.1.fingerprint) =
        (step.2.map Prod.fst).map fingerprint := by
      rw [map_map]
      rfl
    rw [hmap]
    refine ⟨of_map _, map_on fun l hl l' hl' => ?_⟩
    obtain ⟨s, hs, rfl⟩ := mem_map.mp hl
    obtain ⟨s', hs', rfl⟩ := mem_map.mp hl'
    exact hfp step hstep s hs s' hs'
  refine ⟨hincreasing, fun hnone => ⟨?_, hincreasing.mpr fun step hs => ?_⟩⟩
  · unfold QueryExecutor.evaluateStepsToSeries
    rw [hsteps]
    rfl
  · obtain ⟨hle, hlt, heval⟩ := hall step hs
    exact (distinct_iff hdata).mpr (hnone step.1 hle hlt) e _ _ (.here e _) heval

end

def twoCodes : Evaluator (Option ℚ) :=
  let job := empty.with "job" "api"
  ⟨[("x", [(job.with "code" "200", [(0, some 1)]), (job.with "code" "500", [(0, some 2)])]),
    ("y", [(job, [(0, some 10)])])], none, 300000000000⟩

theorem evalSteps_once {e : Expr (Option ℚ)} {v : InstantVector (Option ℚ)}
    (h : eval exact .release twoCodes e (stepContext 0) = .ok v) :
    evalSteps exact .release twoCodes e 0 60000000000 60000000000 = .ok [(0, v)] := by
  have htwo : 2 ≤ maxTurns := by
    unfold maxTurns
    omega
  obtain ⟨turns, hturns⟩ := Nat.exists_eq_add_of_le' htwo
  rw [evalSteps, hturns]
  simp [stepLoop, ok_bind, h, i64_release, Int.bmod]

/-- The steps of `x`, and of a query that gives its two series the same labels. -/
theorem result_distinct_two_codes :
    let x : Expr (Option ℚ) := .selector ⟨some "x", []⟩
    let del : Expr (Option ℚ) := .call "label_del" [x, .str "code"]
    let steps e := evalSteps exact .release twoCodes e 0 60000000000 60000000000
    twoCodes.Distinct ∧
      (∃ e' ctx', Comes exact .release twoCodes del (stepContext 0) e' ctx' ∧
        Merges exact .release twoCodes e' ctx') ∧
      (∃ out, steps del = .ok out ∧ ¬ ∀ s ∈ foldSteps out, s.Increasing) ∧
      ∃ out, steps x = .ok out ∧ ∀ s ∈ foldSteps out, s.Increasing := by
  intro x del steps
  let job := empty.with "job" "api"
  have hdata : twoCodes.Distinct := by
    refine ⟨fun name series h => ?_, nofun⟩
    have hall : ∀ m ∈ twoCodes.data, (m.2.map Prod.fst).Nodup := by decide
    exact hall (name, series) (mem_of_lookup h)
  have hdel : eval exact .release twoCodes del (stepContext 0) =
      .ok [(job, some 1), (job, some 2)] := by decide +kernel
  have hx : eval exact .release twoCodes x (stepContext 0) =
      .ok [(job.with "code" "200", some 1), (job.with "code" "500", some 2)] := by decide +kernel
  have h e := @result_distinct_iff _ exact .release twoCodes e hdata 0 60000000000 60000000000
    (by decide) (.inr (by decide))
  refine ⟨hdata, ?_, ⟨_, evalSteps_once hdel, ?_⟩, _, evalSteps_once hx, ?_⟩
  · by_contra hnone
    push Not at hnone
    have hdistinct := ((h del).1 (stepContext 0)).mpr hnone del _ _ (.here _ _) hdel
    exact absurd hdistinct (by unfold InstantVector.Distinct; decide)
  · rw [((h del).2 _ (evalSteps_once hdel) (by decide +kernel)).1]
    unfold InstantVector.Distinct
    decide
  · rw [((h x).2 _ (evalSteps_once hx) (by decide +kernel)).1]
    unfold InstantVector.Distinct
    decide

/-- Queries that yield a label set twice over data that has none twice. -/
theorem label_sets_merged :
    let job := empty.with "job" "api"
    instantQuery twoCodes "label_del(x, \"code\")" 0 = .ok [(job, some 1), (job, some 2)] ∧
    instantQuery twoCodes "x + on(job) y" 0 = .ok [(job, some 11), (job, some 12)] := by
  decide +kernel

end Parqtel.Query
