import Parqtel.Query.Congruence
import Parqtel.Query.Loaded

/-!
# Is enough loaded?

`executeAst` loads the points from `scanStart` on: the largest range of the expression before
the first step, or a minute. The evaluator reaches back by the lookback of an instant selector,
by the range of a window, and through a subquery by the sum of both. `Covered` says that it
reads no point before a time `lo` in evaluating an expression at a time. Where that holds of
`scanStart`, leaving out the earlier points changes nothing.
-/

namespace Parqtel.Query

open Lib Storage List Prod QueryExecutor Except

variable {F : Type}

/-! ## Series without their early points -/

variable {α : Type}

def trimSeries (time : α → ℤ) (times : ℤ → Bool) (s : LabelSet × List α) :
    Option (LabelSet × List α) :=
  match s.2.filter fun a => times (time a) with
  | [] => none
  | points => some (s.1, points)

/-- The second evaluator has the points of the first at some times only. -/
structure Trims (times : ℤ → Bool) (ev ev' : Evaluator F) : Prop where
  data : ∀ name, ev'.data.lookup name =
    (ev.data.lookup name).map (List.filterMap (trimSeries fst times))
  hist : ∀ name, (ev'.histData.bind fun hist => hist.lookup name) =
    (ev.histData.bind fun hist => hist.lookup name).map
      (List.filterMap (trimSeries HistSample.timestampNs times))
  lookback : ev'.lookbackNs = ev.lookbackNs

theorem seriesFor_trim {time : α → ℤ} {times : ℤ → Bool}
    {table table' : String → Option (List (LabelSet × List α))}
    (h : ∀ name, table' name = (table name).map (List.filterMap (trimSeries time times)))
    (sel : SelectorExpr) :
    seriesFor table' sel = (seriesFor table sel).filterMap (trimSeries time times) := by
  unfold seriesFor
  cases sel.metricName with
  | none => rfl
  | some name =>
    simp only [h]
    cases table name with
    | none => rfl
    | some series =>
      simp only [Option.map_some, Option.getD_some]
      rw [filter_filterMap, filterMap_filter]
      refine filterMap_congr fun s _ => ?_
      unfold trimSeries
      cases s.2.filter fun a => times (time a) with
      | nil => split_ifs <;> rfl
      | cons a as => exact Option.filter_some

/-! ## Reading an instant -/

variable {lo hi t : ℤ}

section
variable {α : Type} {time : α → ℤ} {points : List α}

theorem newest_trim (hsorted : points.Pairwise fun a b => time a ≤ time b) (ht : t ≤ hi) :
    newest time t (points.filter fun a => inWindow lo hi (time a)) =
      (newest time t points).filter fun a => lo ≤ time a := by
  unfold newest
  rw [← getLast?_filter_le (hsorted.filter _), filter_filter, filter_filter]
  congr 1
  refine filter_congr fun a _ => ?_
  unfold inWindow
  by_cases h : time a ≤ t
  · simp [h, h.trans ht]
  · simp [h]

def Recent (build : Build) (time : α → ℤ) (lo t lookback : ℤ) (points : List α) : Prop :=
  ∀ a, newest time t points = some a →
    lo ≤ time a ∨ ∃ oldest, i64 build (t - lookback) = .ok oldest ∧ time a < oldest

theorem latestWithin_trim (hsorted : points.Pairwise fun a b => time a ≤ time b) {build : Build}
    {lookback : ℤ} (ht : t ≤ hi) (h : Recent build time lo t lookback points) :
    latestWithin build time t lookback (points.filter fun a => inWindow lo hi (time a)) =
      latestWithin build time t lookback points := by
  rw [latestWithin_eq hsorted, latestWithin_eq (hsorted.filter _), newest_trim hsorted ht]
  cases hn : newest time t points with
  | none => rfl
  | some a =>
    rw [Option.filter_some]
    rcases h a hn with hlo | ⟨oldest, hold, hlt⟩
    · rw [if_pos (decide_eq_true hlo)]
    · split_ifs with hlo
      · rfl
      · simp only [hold]
        show _ = ok (if time a < oldest then none else some a)
        rw [if_pos hlt]

end

variable {β : Type}

section
variable {build : Build} {ev ev' : Evaluator F} {ctx : EvalContext}

theorem gather_instantOf_trim {time : α → ℤ} {value : α → β} {lookback : ℤ}
    {series : List (LabelSet × List α)} (ht : t ≤ hi)
    (hsorted : ∀ s ∈ series, s.2.Pairwise fun a b => time a ≤ time b)
    (h : ∀ s ∈ series, Recent build time lo t lookback s.2) :
    gather (instantOf build time value t lookback)
        (series.filterMap (trimSeries time (inWindow lo hi))) =
      gather (instantOf build time value t lookback) series := by
  rw [gather_of_filterMap]
  refine gather_congr fun s hs => ?_
  have heq := latestWithin_trim (hsorted s hs) ht (h s hs)
  unfold trimSeries
  cases hf : s.2.filter fun a => inWindow lo hi (time a) with
  | nil =>
    rw [hf] at heq
    unfold instantOf
    rw [← heq]
    rfl
  | cons a as =>
    rw [hf] at heq
    unfold instantOf
    rw [← heq]

/-! ## Reading a window -/

theorem windowOf_trim {windowStart windowEnd : ℤ} {s : LabelSet × List (ℤ × F)}
    (hend : windowEnd ≤ hi) (hsorted : s.2.Pairwise fun a b => a.1 ≤ b.1) :
    (trimSeries fst (inWindow lo hi) s).bind (windowOf windowStart windowEnd) =
      sampled s.1 ((pointsWithin windowStart windowEnd s.2).filter fun q => lo ≤ q.1) := by
  have hpoints : pointsWithin windowStart windowEnd (s.2.filter fun q => inWindow lo hi q.1) =
      (pointsWithin windowStart windowEnd s.2).filter fun q => lo ≤ q.1 := by
    rw [pointsWithin_eq hsorted, pointsWithin_eq (hsorted.filter _), filter_filter, filter_filter]
    refine filter_congr fun q _ => ?_
    unfold inWindow
    by_cases hw : windowStart ≤ q.1 ∧ q.1 ≤ windowEnd
    · simp [hw.1, hw.2, hw.2.trans hend]
    · simp only [hw, decide_false, Bool.false_and, Bool.and_false]
  rw [← hpoints]
  unfold trimSeries
  cases s.2.filter fun q => inWindow lo hi q.1 with
  | nil => rfl
  | cons a as => rfl

/-- **The windows of a range lose nothing exactly if they begin late enough.** -/
theorem filterMap_windowOf_trim_iff {windowStart windowEnd : ℤ}
    {series : List (LabelSet × List (ℤ × F))} (hend : windowEnd ≤ hi)
    (hsorted : ∀ s ∈ series, s.2.Pairwise fun a b => a.1 ≤ b.1) :
    (series.filterMap (trimSeries fst (inWindow lo hi))).filterMap
          (windowOf windowStart windowEnd) =
        series.filterMap (windowOf windowStart windowEnd) ↔
      ∀ s ∈ series, ∀ q ∈ s.2, windowStart ≤ q.1 → q.1 ≤ windowEnd → lo ≤ q.1 := by
  rw [filterMap_filterMap, filterMap_eq_filterMap_iff]
  · refine forall₂_congr fun s hs => ?_
    have hwindow (q : ℤ × F) : q ∈ pointsWithin windowStart windowEnd s.2 ↔
        q ∈ s.2 ∧ windowStart ≤ q.1 ∧ q.1 ≤ windowEnd := by
      rw [pointsWithin_eq (hsorted s hs), mem_filter, decide_eq_true_iff]
    rw [windowOf_trim hend (hsorted s hs), windowOf]
    constructor
    · intro h q hq hlo hhi
      have hkept := filter_eq_self.mp (sampled_inj h)
      exact of_decide_eq_true (hkept q ((hwindow q).mpr ⟨hq, hlo, hhi⟩))
    · intro h
      rw [filter_eq_self.mpr fun q hq => ?_]
      obtain ⟨hq, hlo, hhi⟩ := (hwindow q).mp hq
      exact decide_eq_true (h q hq hlo hhi)
  · intro s hs h
    rw [windowOf, sampled_eq_none] at h
    rw [windowOf_trim hend (hsorted s hs), h]
    rfl

end

/-! ## Expressions that read no early point -/

section
variable (build : Build) (ev : Evaluator F) (lo : ℤ)

def InstantCovered (sel : SelectorExpr) (t : ℤ) : Prop :=
  ∀ s ∈ ev.series sel, Recent build fst lo t (max 0 ev.lookbackNs) s.2

def SamplesCovered (sel : SelectorExpr) (t : ℤ) : Prop :=
  ∀ s ∈ ev.histograms sel, Recent build HistSample.timestampNs lo t (max 0 ev.lookbackNs) s.2

/-- A range at a time. The expression of a subquery is read at each of its steps. -/
def RangeCovered (head : RangeHead) (expr : Expr F) (inner : ℤ → Prop) (t : ℤ) : Prop :=
  ∀ windowStart, i64 build (t - head.rangeNs) = .ok windowStart →
    match expr with
    | .selector sel => ∀ s ∈ ev.series sel, ∀ q ∈ s.2, windowStart ≤ q.1 → q.1 ≤ t → lo ≤ q.1
    | _ =>
      let step := head.stepNs.getD 60000000000
      ∀ first, i64 build (windowStart + step) = .ok first →
        ∀ t', Visits (fun t' => t' ≤ t) (fun t' => i64 build (t' + step)) first t' → t' ≤ t →
          inner t'

mutual

/-- Evaluating an expression at a time reads no point before `lo`. -/
def Covered : Expr F → ℤ → Prop
  | .selector sel, t => InstantCovered build ev lo sel t
  | .number _, _ => True
  | .str _, _ => True
  | .call name args, t =>
    ArgsCovered ((Fn.ofName name).any Fn.readsHistograms) (args.any Expr.isRange) args t
  | .aggregation _ _ param expr, t => ParamCovered param t ∧ Covered expr t
  | .range head expr, t => RangeCovered build ev lo head expr (Covered expr) t
  | .binary _ lhs rhs, t => Covered lhs t ∧ Covered rhs t
  | .paren inner, t => Covered inner t

/-- The arguments of a call. A range function reads ranges only, a histogram function the samples
of a selector. -/
def ArgsCovered (histograms ranges : Bool) : List (Expr F) → ℤ → Prop
  | [], _ => True
  | e :: es, t =>
    ((ranges = true → e.isRange = true) → Covered e t) ∧
      (histograms = true → ∀ sel, e = .selector sel → SamplesCovered build ev lo sel t) ∧
      ArgsCovered histograms ranges es t

def ParamCovered : Option (Expr F) → ℤ → Prop
  | none, _ => True
  | some e, t => Covered e t

end

end

variable {ctx : EvalContext}

section
variable {build : Build} {ev ev' : Evaluator F} {lo hi : ℤ}

theorem argsCovered_iff {histograms ranges : Bool} {es : List (Expr F)} :
    ArgsCovered build ev lo histograms ranges es t ↔
      ∀ e ∈ es, ((ranges = true → e.isRange = true) → Covered build ev lo e t) ∧
        (histograms = true → ∀ sel, e = .selector sel → SamplesCovered build ev lo sel t) := by
  induction es with
  | nil => exact ⟨fun _ => nofun, fun _ => trivial⟩
  | cons e es ih =>
    rw [ArgsCovered, ih, forall_mem_cons, and_assoc]

theorem Evaluator.Sorted.series (h : ev.Sorted) (sel : SelectorExpr) :
    ∀ s ∈ ev.series sel, s.2.Pairwise fun a b => a.1 ≤ b.1 := by
  intro s hs
  obtain ⟨name, series, hlookup, hmem⟩ := mem_seriesFor hs
  exact h.data name series hlookup s hmem

theorem Evaluator.Sorted.histograms (h : ev.Sorted) (sel : SelectorExpr) :
    ∀ s ∈ ev.histograms sel, s.2.Pairwise fun a b => a.timestampNs ≤ b.timestampNs := by
  intro s hs
  obtain ⟨name, series, hlookup, hmem⟩ := mem_seriesFor hs
  exact h.hist name series hlookup s hmem

variable (hsorted : ev.Sorted) (htrims : Trims (inWindow lo hi) ev ev')
include htrims

theorem Trims.series (sel : SelectorExpr) :
    ev'.series sel = (ev.series sel).filterMap (trimSeries fst (inWindow lo hi)) :=
  seriesFor_trim htrims.data sel

theorem Trims.sameHistograms : SameHistograms ev ev' := by
  intro name
  unfold Evaluator.samples
  rw [htrims.hist, Option.isSome_map]

include hsorted

theorem evalSelector_trim (hctx : ctx.Plain) (hhi : ctx.tsNs ≤ hi) {sel : SelectorExpr}
    (h : InstantCovered build ev lo sel ctx.tsNs) :
    evalSelector build ev sel ctx = evalSelector build ev' sel ctx := by
  rw [evalSelector_eq hctx, evalSelector_eq hctx, htrims.lookback, htrims.series]
  exact (gather_instantOf_trim hhi (hsorted.series sel) h).symm

theorem sameSamples_trim (hctx : ctx.Plain) (hhi : ctx.tsNs ≤ hi) {e : Expr F}
    (h : ∀ sel, e = .selector sel → SamplesCovered build ev lo sel ctx.tsNs) :
    SameSamples build ev ev' ctx e := by
  intro sel he
  rw [histSelectorWindows_eq hctx, histSelectorWindows_eq hctx, htrims.lookback]
  unfold Evaluator.histograms
  rw [seriesFor_trim htrims.hist]
  exact (gather_instantOf_trim hhi (hsorted.histograms sel)
    (h sel (Expr.selector?_eq_some.mp he))).symm

theorem evalRangeWindows_trim {p : Platform F} (hctx : ctx.Plain) (hhi : ctx.tsNs ≤ hi)
    {head : RangeHead} {expr : Expr F} {inner : ℤ → Prop}
    (hinner : ∀ ctx : EvalContext, ctx.Plain → ctx.tsNs ≤ hi → inner ctx.tsNs →
      eval p build ev expr ctx = eval p build ev' expr ctx)
    (h : RangeCovered build ev lo head expr inner ctx.tsNs) :
    evalRangeWindows build ev head expr (eval p build ev expr) ctx =
      evalRangeWindows build ev' head expr (eval p build ev' expr) ctx := by
  unfold evalRangeWindows
  rw [hctx.shifted]
  simp only [ok_bind]
  cases hws : i64 build (ctx.tsNs - head.rangeNs) with
  | error e => rfl
  | ok windowStart =>
    have h := h windowStart hws
    simp only [ok_bind]
    cases expr with
    | selector sel =>
      simp only [selectorWindows_eq]
      rw [htrims.series, (filterMap_windowOf_trim_iff hhi (hsorted.series sel)).mpr h]
    | _ =>
      exact subqueryWindows_congr fun first hfirst t hvisit hle hin =>
        hinner _ ⟨hctx.range, hctx.offset, hin⟩ (hle.trans hhi) (h first hfirst t hvisit hle)

/-- **An expression that reads no early point has the same value without them.** -/
theorem sameAt_of_covered (p : Platform F) (e : Expr F) :
    ∀ ctx : EvalContext, ctx.Plain → ctx.tsNs ≤ hi → Covered build ev lo e ctx.tsNs →
      SameAt p build ev ev' ctx e := by
  induction e using Expr.induct with
  | selector sel => exact fun ctx hctx hhi h => ⟨evalSelector_trim hsorted htrims hctx hhi h, rfl⟩
  | number => exact fun _ _ _ _ => ⟨rfl, rfl⟩
  | str => exact fun _ _ _ _ => ⟨rfl, rfl⟩
  | call name args ih =>
    intro ctx hctx hhi h
    have hargs := argsCovered_iff.mp h
    refine ⟨evalCall_sameAt htrims.sameHistograms name (fun a ha hr => ?_) fun hh a ha => ?_, rfl⟩
    · exact ih a ha ctx hctx hhi ((hargs a ha).1 hr)
    · exact sameSamples_trim hsorted htrims hctx hhi ((hargs a ha).2 hh)
  | aggregation op grouping param expr ihp ihe =>
    intro ctx hctx hhi h
    refine ⟨evalAggregation_sameAt (fun a ha => ?_) (ihe ctx hctx hhi h.2) op grouping, rfl⟩
    cases ha
    exact ihp a rfl { ctx with lockHeld := true } ⟨hctx.range, hctx.offset, hctx.time⟩ hhi h.1
  | range head expr ih =>
    intro ctx hctx hhi h
    exact ⟨rfl, evalRangeWindows_trim hsorted htrims hctx hhi
      (fun ctx hctx hhi h => (ih ctx hctx hhi h).eval) h⟩
  | binary b lhs rhs ihl ihr =>
    intro ctx hctx hhi h
    refine ⟨?_, rfl⟩
    rw [eval, eval, (ihl ctx hctx hhi h.1).eval, (ihr ctx hctx hhi h.2).eval]
  | paren inner ih => exact fun ctx hctx hhi h => ⟨(ih ctx hctx hhi h).eval, rfl⟩

end

/-! ## Loading a part of the points -/

section
variable {exec : QueryExecutor} {raw : List (Point F)} {α : Type} {pick : Point F → Option α}
  {time : α → ℤ}

theorem trim_group (hraw : Distinguished raw)
    (hpick : ∀ dp a, pick dp = some a → time a = dp.timestampNs) (times : ℤ → Bool)
    {maxSamples : ℕ} {g : ℕ × List (Point F)} (hg : g ∈ seriesGroups raw)
    (hlen : g.2.length ≤ maxSamples) :
    ((keepPoints (fun dp => times dp.timestampNs) g).bind fun g =>
        match channel pick maxSamples g.2 with
        | [] => none
        | points => some (firstLabels g.2, points)) =
      (match channel pick maxSamples g.2 with
        | [] => none
        | points => some (firstLabels g.2, points)).bind (trimSeries time times) := by
  have hchannel := channel_filter hpick times hlen
  unfold keepPoints
  cases hf : g.2.filter fun dp => times dp.timestampNs with
  | nil =>
    rw [hf] at hchannel
    have hnil : (channel pick maxSamples g.2).filter (fun a => times (time a)) = [] :=
      hchannel.symm.trans (by simp [channel, sortByKey])
    cases hc : channel pick maxSamples g.2 with
    | nil => rfl
    | cons a as =>
      rw [hc] at hnil
      simp only [Option.bind_none, Option.bind_some, trimSeries, hnil]
  | cons dp dps =>
    have hlabels : firstLabels (dp :: dps) = firstLabels g.2 := by
      refine firstLabels_eq (cons_ne_nil _ _) fun a ha => ?_
      rw [← hf] at ha
      exact labels_of_mem_group hraw hg a (mem_filter.mp ha).1
    rw [hf] at hchannel
    simp only [Option.bind_some, hchannel, hlabels]
    cases hc : channel pick maxSamples g.2 with
    | nil => rfl
    | cons a as => rfl

/-- **Loading a part of the points** gives the series without the others. -/
theorem channelSeries_filter (hraw : Distinguished raw) (hwithin : exec.Within raw)
    (hpick : ∀ dp a, pick dp = some a → time a = dp.timestampNs) (times : ℤ → Bool) :
    channelSeries pick exec.maxSamplesPerSeries
        ((seriesGroups (raw.filter fun dp => times dp.timestampNs)).take exec.maxSeries) =
      (channelSeries pick exec.maxSamplesPerSeries
        ((seriesGroups raw).take exec.maxSeries)).filterMap (trimSeries time times) := by
  rw [seriesGroups_filter, take_of_length_le hwithin.series,
    take_of_length_le ((length_filterMap_le _ _).trans hwithin.series)]
  unfold channelSeries
  rw [filterMap_filterMap, filterMap_filterMap]
  exact filterMap_congr fun g hg => trim_group hraw hpick times hg (hwithin.samples g hg)

end

theorem numericPoint_time (p : Platform F) (dp : Point F) (a : ℤ × F)
    (h : numericPoint p dp = some a) : a.1 = dp.timestampNs := by
  unfold numericPoint at h
  split at h
  · cases h
  · cases h
    rfl

theorem histPoint_time (dp : Point F) (a : HistSample F) (h : histPoint dp = some a) :
    a.timestampNs = dp.timestampNs := by
  unfold histPoint at h
  split at h
  · cases h
    rfl
  · cases h

def always (_ : ℤ) : Bool := true

section
variable {exec : QueryExecutor} {p : Platform F} {store : Store F} {startNs endNs : ℤ}
  {refs : List MetricRef}

theorem scan_eq_filter (times : ℤ → Bool) (ref : MetricRef) :
    store.scan times ref = (store.scan always ref).filter fun dp => times dp.timestampNs := by
  unfold Store.scan
  rw [filter_filter]
  exact filter_congr fun dp _ => by rw [always, Bool.true_and]

theorem channelSeries_sorted {pick : Point F → Option α} {time : α → ℤ}
    (hpick : ∀ dp a, pick dp = some a → time a = dp.timestampNs) (maxSamples : ℕ)
    (groups : List (ℕ × List (Point F))) :
    ∀ s ∈ channelSeries pick maxSamples groups, s.2.Pairwise fun a b => time a ≤ time b := by
  intro s hs
  obtain ⟨g, _, h⟩ := mem_filterMap.mp hs
  have hsorted := channel_sorted hpick maxSamples g.2
  split at h
  · cases h
  · cases h
    exact hsorted

theorem lookup_tableOf_mem {xs : MetricRef → List β} {name : String} {series : List β}
    (h : (tableOf xs refs).lookup name = some series) {s : β} (hs : s ∈ series) :
    ∃ ref ∈ refs, s ∈ xs ref := by
  rw [lookup_tableOf] at h
  split_ifs at h
  cases h
  obtain ⟨ref, href, hs⟩ := mem_flatMap.mp hs
  exact ⟨ref, (mem_filter.mp href).1, hs⟩

theorem evaluator_sorted (times : ℤ → Bool) :
    (exec.evaluator (exec.load p store times startNs endNs refs)).Sorted := by
  constructor
  · intro name series h s hs
    simp only [evaluator, load_data] at h
    obtain ⟨ref, _, hs⟩ := lookup_tableOf_mem h hs
    exact channelSeries_sorted (numericPoint_time p) _ _ s hs
  · intro name series h s hs
    simp only [evaluator, load_histData, Option.bind_some] at h
    obtain ⟨ref, _, hs⟩ := lookup_tableOf_mem h hs
    exact channelSeries_sorted histPoint_time _ _ s hs

theorem lookup_tableOf_trim {time : α → ℤ} {times : ℤ → Bool}
    {xs xs' : MetricRef → List (LabelSet × List α)}
    (h : ∀ ref ∈ refs, xs' ref = (xs ref).filterMap (trimSeries time times)) (name : String) :
    (tableOf xs' refs).lookup name =
      ((tableOf xs refs).lookup name).map (List.filterMap (trimSeries time times)) := by
  rw [lookup_tableOf, lookup_tableOf]
  split_ifs with hname
  · rw [Option.map_some, filterMap_flatMap]
    refine congrArg some (flatMap_congr fun ref href => ?_)
    exact h ref (mem_filter.mp href).1
  · rfl

/-- **The evaluator of a query has the points at the scanned times** of the evaluator over
everything. -/
theorem load_trims (hdist : ∀ ref ∈ refs, Distinguished (store.scan always ref))
    (hwithin : ∀ ref ∈ refs, exec.Within (store.scan always ref)) (times : ℤ → Bool) :
    Trims times (exec.evaluator (exec.load p store always startNs endNs refs))
      (exec.evaluator (exec.load p store times startNs endNs refs)) := by
  refine ⟨fun name => ?_, fun name => ?_, rfl⟩
  · simp only [evaluator, load_data]
    refine lookup_tableOf_trim (fun ref href => ?_) name
    unfold buildRef buildSeriesData
    rw [scan_eq_filter times]
    exact channelSeries_filter (hdist ref href) (hwithin ref href) (numericPoint_time p) times
  · simp only [evaluator, load_histData, Option.bind_some]
    refine lookup_tableOf_trim (fun ref href => ?_) name
    unfold buildRef buildSeriesData
    rw [scan_eq_filter times]
    exact channelSeries_filter (hdist ref href) (hwithin ref href) histPoint_time times

end

/-! ## The condition is exact where points are read -/

section
variable {α : Type} {time : α → ℤ} {lo hi t lookback oldest : ℤ}

def foundIn (time : α → ℤ) (t oldest : ℤ) (points : List α) : Option α :=
  (newest time t points).filter fun a => oldest ≤ time a

variable {points : List α}

theorem recent_release : Recent .release time lo t lookback points ↔
      ∀ a, newest time t points = some a → lo ≤ time a ∨ time a < (t - lookback).bmod (2 ^ 64) := by
  unfold Recent
  rw [i64_release]
  simp only [ok.injEq, exists_eq_left']

theorem instantOf_release {value : α → β} {s : LabelSet × List α}
    (hsorted : s.2.Pairwise fun a b => time a ≤ time b) :
    instantOf .release time value t lookback s =
      .ok ((foundIn time t ((t - lookback).bmod (2 ^ 64)) s.2).map fun a =>
        (s.1, value a)).toList := by
  unfold instantOf foundIn
  rw [latestWithin_eq hsorted, i64_release]
  generalize (t - lookback).bmod (2 ^ 64) = oldest
  cases newest time t s.2 with
  | none => rfl
  | some a =>
    rw [Option.filter_some]
    by_cases h : oldest ≤ time a
    · simp only [ok_bind, h, decide_true, if_true, not_lt.mpr h, if_false]
      rfl
    · simp only [ok_bind, h, decide_false, Bool.false_eq_true, not_le.mp h, if_true, if_false]
      rfl

theorem foundIn_trim_iff (hsorted : points.Pairwise fun a b => time a ≤ time b) (ht : t ≤ hi) :
    foundIn time t oldest (points.filter fun a => inWindow lo hi (time a)) =
        foundIn time t oldest points ↔
      ∀ a, newest time t points = some a → lo ≤ time a ∨ time a < oldest := by
  unfold foundIn
  rw [newest_trim hsorted ht]
  cases newest time t points with
  | none => simp
  | some a =>
    simp only [Option.filter_some, Option.some.injEq, forall_eq']
    by_cases hlo : lo ≤ time a
    · simp [hlo, Option.filter_some]
    · by_cases hold : oldest ≤ time a
      · simp [hlo, hold]
      · simp [hlo, hold, not_le.mp hold]

theorem foundIn_trim_cases (hsorted : points.Pairwise fun a b => time a ≤ time b) (ht : t ≤ hi) :
    foundIn time t oldest (points.filter fun a => inWindow lo hi (time a)) = none ∨
      foundIn time t oldest (points.filter fun a => inWindow lo hi (time a)) =
        foundIn time t oldest points := by
  unfold foundIn
  rw [newest_trim hsorted ht]
  cases newest time t points with
  | none => exact .inl rfl
  | some a =>
    rw [Option.filter_some]
    split_ifs with hlo
    · exact .inr rfl
    · exact .inl rfl

end

section
variable {ev ev' : Evaluator F} {lo hi : ℤ} (hsorted : ev.Sorted)
  (htrims : Trims (inWindow lo hi) ev ev')
include hsorted htrims

/-- **An instant selector loses nothing exactly if its latest points are recent.** -/
theorem evalSelector_trim_iff (hctx : ctx.Plain) (hhi : ctx.tsNs ≤ hi) (sel : SelectorExpr) :
    evalSelector .release ev' sel ctx = evalSelector .release ev sel ctx ↔
      InstantCovered .release ev lo sel ctx.tsNs := by
  have hseries := hsorted.series sel
  rw [evalSelector_eq hctx, evalSelector_eq hctx, htrims.lookback, htrims.series,
    gather_of_filterMap,
    gather_filterMap fun s hs => instantOf_release (hseries s hs), gather_filterMap (g := fun s =>
      (foundIn fst ctx.tsNs ((ctx.tsNs - max 0 ev.lookbackNs).bmod (2 ^ 64))
        (s.2.filter fun a => inWindow lo hi a.1)).map fun a => (s.1, a.2))]
  · rw [ok.injEq, filterMap_eq_filterMap_iff]
    · refine forall₂_congr fun s hs => ?_
      rw [recent_release, ← foundIn_trim_iff (hseries s hs) hhi]
      refine ⟨fun h => ?_, fun h => by rw [h]⟩
      rcases foundIn_trim_cases (hseries s hs) hhi with hnone | heq
      · rw [hnone, Option.map_none, eq_comm, Option.map_eq_none_iff] at h
        rw [hnone, h]
      · exact heq
    · intro s hs h
      rw [Option.map_eq_none_iff] at h ⊢
      rcases foundIn_trim_cases (hseries s hs) hhi with hnone | heq
      · exact hnone
      · exact heq.trans h
  · intro s hs
    have hpart := (hseries s hs).filter fun a => inWindow lo hi a.1
    unfold trimSeries
    cases hf : s.2.filter fun a => inWindow lo hi a.1 with
    | nil => rfl
    | cons a as =>
      rw [hf] at hpart
      exact instantOf_release hpart

theorem evalWindows_trim_iff {p : Platform F} (hctx : ctx.Plain) (hhi : ctx.tsNs ≤ hi)
    (head : RangeHead) (sel : SelectorExpr) :
    evalWindows p .release ev' (.range head (.selector sel)) ctx =
        evalWindows p .release ev (.range head (.selector sel)) ctx ↔
      Covered .release ev lo (.range head (.selector sel)) ctx.tsNs := by
  rw [evalWindows, evalWindows, Covered]
  unfold evalRangeWindows RangeCovered
  rw [hctx.shifted]
  simp only [i64_release, ok_bind, ok.injEq, forall_eq', selectorWindows_eq, htrims.series]
  exact (ok.injEq _ _).to_iff.trans (filterMap_windowOf_trim_iff hhi (hsorted.series sel))

end

/-- **When enough is loaded.** Over the points from `scanStart` on an expression has the value
that it has over all points, at every step at which it reads no earlier point. For what reads
points itself, a selector or the windows of one, this condition is exact. A query that reads no
earlier point at any of its steps has the series that it has over all points. -/
theorem enough_loaded (exec : QueryExecutor) (p : Platform F) (build : Build) (store : Store F)
    (e : Expr F) (startNs endNs : ℤ)
    (hdist : ∀ ref ∈ collectMetricRefs e, Distinguished (store.scan always ref))
    (hwithin : ∀ ref ∈ collectMetricRefs e, exec.Within (store.scan always ref)) :
    let lo := scanStart e startNs
    let all := exec.evaluator (exec.load p store always startNs endNs (collectMetricRefs e))
    let loaded := exec.evaluator
      (exec.load p store (inWindow lo endNs) startNs endNs (collectMetricRefs e))
    (∀ t, InI64 t → t ≤ endNs →
      (Covered build all lo e t →
        eval p build loaded e (stepContext t) = eval p build all e (stepContext t)) ∧
      (∀ sel, e = .selector sel →
        (eval p .release loaded e (stepContext t) = eval p .release all e (stepContext t) ↔
          Covered .release all lo e t)) ∧
      ∀ head sel, e = .range head (.selector sel) →
        (evalWindows p .release loaded e (stepContext t) =
            evalWindows p .release all e (stepContext t) ↔ Covered .release all lo e t)) ∧
    ∀ stepNs, InI64 startNs →
      (∀ span, i64 build (endNs - startNs) = .ok span → ∀ t,
        Visits (fun t => t < endNs) (fun t => i64 build (t + stepNs.getD (max span 1))) startNs t →
        t < endNs → Covered build all lo e t) →
      (exec.executeAst p build store e startNs endNs stepNs).map QueryResult.series =
        (exec.executeOver p build store always e startNs endNs stepNs).map QueryResult.series := by
  intro lo all loaded
  have hsorted : all.Sorted := evaluator_sorted always
  have htrims : Trims (inWindow lo endNs) all loaded := load_trims hdist hwithin _
  have hsame (t : ℤ) (ht : InI64 t) (hend : t ≤ endNs) (h : Covered build all lo e t) :
      eval p build loaded e (stepContext t) = eval p build all e (stepContext t) :=
    (sameAt_of_covered hsorted htrims p e _ (stepContext_plain ht) hend h).eval.symm
  refine ⟨fun t ht hend => ⟨hsame t ht hend, ?_, ?_⟩, fun stepNs hstart hcovered => ?_⟩
  · rintro sel rfl
    exact evalSelector_trim_iff hsorted htrims (stepContext_plain ht) hend sel
  · rintro head sel rfl
    exact evalWindows_trim_iff hsorted htrims (stepContext_plain ht) hend head sel
  · unfold executeAst executeOver
    cases hspan : i64 build (endNs - startNs) with
    | error fault => rfl
    | ok span =>
      have hsteps : evalSteps p build loaded e startNs endNs (stepNs.getD (max span 1)) =
          evalSteps p build all e startNs endNs (stepNs.getD (max span 1)) := by
        refine stepLoop_congr (fun t hvisit hlt => ?_) maxTurns []
        have hlt := of_decide_eq_true hlt
        have hin : InI64 t := by
          cases hvisit with
          | first => exact hstart
          | next _ _ hnext => exact i64_inI64 hnext
        rw [hsame t hin hlt.le (hcovered span hspan t hvisit hlt)]
      simp only [ok_bind]
      unfold evaluateStepsToSeries
      rw [hsteps]
      cases evalSteps p build all e startNs endNs (stepNs.getD (max span 1)) <;> rfl

def smallExecutor : QueryExecutor := ⟨300000000000, 10, 10⟩

def onePoint (t : ℤ) : Store (Option ℚ)
  | "x" => [⟨t, .double (some 1), .empty⟩]
  | _ => []

/-- `count_over_time(x[5m])` from 200 s on, with a point at 100 s. -/
theorem enough_loaded_for_range :
    let e : Expr (Option ℚ) :=
      .call "count_over_time" [.range ⟨300000000000, none, 0⟩ (.selector ⟨some "x", []⟩)]
    let store := onePoint 100000000000
    let start := 200000000000
    let stop := 300000000000
    let all := smallExecutor.evaluator
      (smallExecutor.load exact store always start stop (collectMetricRefs e))
    let loaded := smallExecutor.evaluator
      (smallExecutor.load exact store (inWindow (scanStart e start) stop) start stop
        (collectMetricRefs e))
    (∀ ref ∈ collectMetricRefs e, Distinguished (store.scan always ref)) ∧
      (∀ ref ∈ collectMetricRefs e, smallExecutor.Within (store.scan always ref)) ∧
      (∀ t, Covered .debug all (scanStart e start) e t) ∧
      eval exact .debug loaded e (stepContext start) =
        eval exact .debug all e (stepContext start) ∧
      (smallExecutor.executeAst exact .debug store e start stop none).map QueryResult.series =
        (smallExecutor.executeOver exact .debug store always e start stop none).map
          QueryResult.series := by
  intro e store start stop all loaded
  have hdist : ∀ ref ∈ collectMetricRefs e, Distinguished (store.scan always ref) := by
    unfold Distinguished
    decide
  have hwithin : ∀ ref ∈ collectMetricRefs e, smallExecutor.Within (store.scan always ref) := by
    intro ref href
    rw [mem_singleton.mp href]
    exact ⟨by decide, by decide⟩
  have hcovered (t : ℤ) : Covered .debug all (scanStart e start) e t := by
    refine ⟨fun _ => ?_, nofun, trivial⟩
    intro windowStart _ s hs q hq _ _
    cases mem_singleton.mp hs
    cases mem_singleton.mp hq
    decide
  obtain ⟨hstep, hquery⟩ :=
    enough_loaded smallExecutor exact .debug store e start stop hdist hwithin
  exact ⟨hdist, hwithin, hcovered, (hstep start (by decide) (by decide)).1 (hcovered start),
    hquery none (by decide) fun _ _ t _ _ => hcovered t⟩

/-- The instant selector `x` from 240 s on, with a point at zero. -/
theorem lookback_not_loaded :
    let e : Expr (Option ℚ) := .selector ⟨some "x", []⟩
    let start := 240000000000
    let stop := 300000000000
    let load times := smallExecutor.evaluator
      (smallExecutor.load exact (onePoint 0) times start stop (collectMetricRefs e))
    eval exact .release (load (inWindow (scanStart e start) stop)) e (stepContext start) = .ok [] ∧
      eval exact .release (load always) e (stepContext start) = .ok [(.empty, some 1)] := by
  decide

end Parqtel.Query
