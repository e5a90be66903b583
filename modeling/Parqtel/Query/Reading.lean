import Parqtel.Lib.Timeline
import Parqtel.Query.Window

/-!
# What a selector reads

The loops of the window functions, as loops over the series that a selector selects
(`Evaluator.series`): an instant selector takes the latest point in the lookback (`instantOf`), a
range the points of a window (`windowOf`). On points in the order of time both are plain filters.
-/

namespace Parqtel.Query

open Lib

variable {F : Type}

/-! ## The selected series -/

/-- The points of every series are in the order of time. -/
structure Evaluator.Sorted (ev : Evaluator F) : Prop where
  data : ∀ name series, ev.data.lookup name = some series →
    ∀ s ∈ series, s.2.Pairwise fun a b => a.1 ≤ b.1
  hist : ∀ name series, (ev.histData.bind fun hist => hist.lookup name) = some series →
    ∀ s ∈ series, s.2.Pairwise fun a b => a.timestampNs ≤ b.timestampNs

variable {β : Type}

def seriesFor (table : String → Option (List (LabelSet × β))) (sel : SelectorExpr) :
    List (LabelSet × β) :=
  match sel.metricName with
  | none => []
  | some name => ((table name).getD []).filter fun s => evaluateMatchers sel.matchers s.1 name

def Evaluator.series (ev : Evaluator F) (sel : SelectorExpr) : List (LabelSet × List (ℤ × F)) :=
  seriesFor (fun name => ev.data.lookup name) sel

def Evaluator.histograms (ev : Evaluator F) (sel : SelectorExpr) :
    List (LabelSet × List (HistSample F)) :=
  seriesFor (fun name => ev.histData.bind fun hist => hist.lookup name) sel

theorem mem_seriesFor {table : String → Option (List (LabelSet × β))} {sel : SelectorExpr}
    {s : LabelSet × β} (h : s ∈ seriesFor table sel) :
    ∃ name series, table name = some series ∧ s ∈ series := by
  unfold seriesFor at h
  cases hname : sel.metricName with
  | none =>
    rw [hname] at h
    cases h
  | some name =>
    rw [hname] at h
    have hmem := (List.mem_filter.mp h).1
    cases hs : table name with
    | none =>
      rw [hs] at hmem
      cases hmem
    | some series => exact ⟨name, series, hs, by rwa [hs] at hmem⟩

/-! ## Reading an instant -/

variable {α : Type}

def newest (time : α → ℤ) (t : ℤ) (points : List α) : Option α :=
  (points.filter fun a => time a ≤ t).getLast?

theorem latestWithin_eq {time : α → ℤ} {points : List α}
    (hsorted : points.Pairwise fun a b => time a ≤ time b) (build : Build) (t lookback : ℤ) :
    latestWithin build time t lookback points =
      match newest time t points with
      | none => .ok none
      | some s => do
        let oldest ← i64 build (t - lookback)
        return if time s < oldest then none else some s := by
  unfold latestWithin newest
  rewrite [take_partitionPoint (hsorted.imp fun {a b} hab hb =>
    decide_eq_true (hab.trans (of_decide_eq_true hb)))]
  cases (points.filter fun a => time a ≤ t).getLast? <;> rfl

def instantOf (build : Build) (time : α → ℤ) (value : α → β) (t lookback : ℤ)
    (s : LabelSet × List α) : Eval (List (LabelSet × β)) := do
  let found ← latestWithin build time t lookback s.2
  return (found.map fun a => (s.1, value a)).toList

section
variable {build : Build} {ev : Evaluator F} {ctx : EvalContext}

/-- A context as the steps of a query and of its subqueries have it. -/
structure EvalContext.Plain (ctx : EvalContext) : Prop where
  range : ctx.rangeNs = 0
  offset : ctx.offsetNs = 0
  time : InI64 ctx.tsNs

theorem EvalContext.Plain.shifted (h : ctx.Plain) :
    i64 build (ctx.tsNs - ctx.offsetNs) = .ok ctx.tsNs := by
  rw [h.offset, sub_zero, i64_of_in h.time]

theorem evalSelector_gather (sel : SelectorExpr) (ctx : EvalContext) :
    evalSelector build ev sel ctx =
      gather (fun s => i64 build (ctx.tsNs - ctx.offsetNs) >>= fun shifted =>
        instantOf build Prod.fst Prod.snd shifted (max ctx.rangeNs ev.lookbackNs) s)
        (ev.series sel) := by
  unfold evalSelector Evaluator.series seriesFor
  cases sel.metricName with
  | none => rfl
  | some name =>
    dsimp only
    cases ev.data.lookup name with
    | none => rfl
    | some series =>
      rw [Option.getD_some, gather_of_filter]
      rfl

theorem evalSelector_eq (h : ctx.Plain) (sel : SelectorExpr) : evalSelector build ev sel ctx =
      gather (instantOf build Prod.fst Prod.snd ctx.tsNs (max 0 ev.lookbackNs))
        (ev.series sel) := by
  rw [evalSelector_gather, h.range, h.shifted]
  rfl

theorem histSelectorWindows_eq (h : ctx.Plain) (sel : SelectorExpr) :
    histSelectorWindows build ev sel ctx =
      gather (instantOf build HistSample.timestampNs id ctx.tsNs (max 0 ev.lookbackNs))
        (ev.histograms sel) := by
  unfold histSelectorWindows Evaluator.histograms seriesFor
  rw [h.range]
  cases sel.metricName with
  | none => rfl
  | some name =>
    cases ev.histData with
    | none => rfl
    | some hist =>
      simp only [h.shifted, Option.bind_some]
      cases hist.lookup name with
      | none => rfl
      | some series =>
        rw [Option.getD_some, gather_of_filter]
        rfl

/-! ## Reading a window -/

variable {points : List (ℤ × F)}

theorem pointsWithin_eq (hsorted : points.Pairwise fun a b => a.1 ≤ b.1)
    (windowStart windowEnd : ℤ) :
    pointsWithin windowStart windowEnd points =
      points.filter fun q => windowStart ≤ q.1 ∧ q.1 ≤ windowEnd := by
  rw [← slice_eq_filter hsorted]
  unfold pointsWithin
  dsimp only
  split_ifs with h
  · rfl
  · rw [List.drop_eq_nil_of_le]
    rw [List.length_take]
    omega

def sampled (labels : LabelSet) : List (ℤ × F) → Option (LabelSet × List (Sample F))
  | [] => none
  | points => some (labels, points.map fun q => ⟨q.1, q.2⟩)

theorem sampled_eq_none {labels : LabelSet} : sampled labels points = none ↔ points = [] := by
  cases points with
  | nil => exact ⟨fun _ => rfl, fun _ => rfl⟩
  | cons q qs => exact ⟨nofun, nofun⟩

theorem sampled_inj {labels : LabelSet} {points' : List (ℤ × F)}
    (h : sampled labels points = sampled labels points') : points = points' := by
  have hmk : Function.Injective fun q : ℤ × F => Sample.mk q.1 q.2 := by
    rintro ⟨t, v⟩ ⟨t', v'⟩ h
    cases h
    rfl
  cases points with
  | nil => exact (sampled_eq_none.mp h.symm).symm
  | cons q qs =>
    cases points' with
    | nil => exact sampled_eq_none.mp h
    | cons q' qs' => exact hmk.list_map (congrArg Prod.snd (Option.some.inj h))

def windowOf (windowStart windowEnd : ℤ) (s : LabelSet × List (ℤ × F)) :
    Option (LabelSet × List (Sample F)) :=
  sampled s.1 (pointsWithin windowStart windowEnd s.2)

theorem selectorWindows_eq (sel : SelectorExpr) (windowStart windowEnd : ℤ) :
    selectorWindows ev sel windowStart windowEnd =
      (ev.series sel).filterMap (windowOf windowStart windowEnd) := by
  unfold selectorWindows Evaluator.series seriesFor
  cases sel.metricName with
  | none => rfl
  | some name =>
    rw [List.filterMap_filter]
    refine List.filterMap_congr fun s _ => ?_
    split_ifs
    · unfold windowOf
      cases pointsWithin windowStart windowEnd s.2 <;> rfl
    · rfl

end

/-! ## The window of a range -/

section
variable (build : Build)

def window (rangeNs : ℤ) (ctx : EvalContext) : Eval (ℤ × ℤ) := do
  let windowEnd ← i64 build (ctx.tsNs - ctx.offsetNs)
  let windowStart ← i64 build (windowEnd - rangeNs)
  return (windowStart, windowEnd)

end

section
variable {build : Build} {ev : Evaluator F}

theorem evalRangeWindows_selector (head : RangeHead) (sel : SelectorExpr)
    (inner : EvalContext → Eval (InstantVector F)) (ctx : EvalContext) :
    evalRangeWindows build ev head (.selector sel) inner ctx =
      window build head.rangeNs ctx >>= fun w => .ok (selectorWindows ev sel w.1 w.2) := by
  unfold evalRangeWindows window
  simp only [bind_assoc]
  rfl

theorem evalRangeWindows_subquery {head : RangeHead} {e : Expr F} (h : e.selector? = none)
    (inner : EvalContext → Eval (InstantVector F)) (ctx : EvalContext) :
    evalRangeWindows build ev head e inner ctx = window build head.rangeNs ctx >>= fun w =>
        subqueryWindows build inner ctx (head.stepNs.getD 60000000000) w.1 w.2 := by
  unfold evalRangeWindows window
  simp only [bind_assoc]
  cases e with
  | selector sel => cases h
  | _ => rfl

end

/-! ## How reading fails -/

def FailsOnly (fault : Fault) (x : Eval α) : Prop := ∀ e, x = .error e → e = fault

namespace FailsOnly

variable {α β : Type} {fault : Fault}

theorem ok (a : α) : FailsOnly fault (.ok a : Eval α) := nofun

theorem bind {x : Eval α} {f : α → Eval β} (hx : FailsOnly fault x)
    (hf : ∀ a, FailsOnly fault (f a)) : FailsOnly fault (x >>= f) := by
  intro e h
  rcases bind_eq_error.mp h with h | ⟨a, -, h⟩
  · exact hx e h
  · exact hf a e h

theorem i64 (build : Build) (z : ℤ) : FailsOnly .overflow (i64 build z) :=
  fun _ h => (i64_eq_error.mp h).1

theorem mapM {f : α → Eval β} (hf : ∀ a, FailsOnly fault (f a)) (as : List α) :
    FailsOnly fault (as.mapM f) := by
  induction as with
  | nil => exact ok []
  | cons a as ih =>
    rw [List.mapM_cons]
    exact (hf a).bind fun b => ih.bind fun bs => ok (b :: bs)

theorem gather {f : α → Eval (List β)} (hf : ∀ a, FailsOnly fault (f a)) (as : List α) :
    FailsOnly fault (gather f as) := by
  intro e h
  obtain ⟨a, -, h⟩ := gather_eq_error h
  exact hf a e h

end FailsOnly

section
variable {build : Build} {ev : Evaluator F}

theorem latestWithin_failsOnly (time : α → ℤ) (shifted lookback : ℤ) (points : List α) :
    FailsOnly .overflow (latestWithin build time shifted lookback points) := by
  unfold latestWithin
  split
  · exact .ok _
  · exact (FailsOnly.i64 build _).bind fun _ => .ok _

theorem evalSelector_failsOnly (sel : SelectorExpr) (ctx : EvalContext) :
    FailsOnly .overflow (evalSelector build ev sel ctx) := by
  rw [evalSelector_gather]
  exact .gather (fun s => (FailsOnly.i64 build _).bind fun shifted =>
    (latestWithin_failsOnly _ _ _ _).bind fun _ => .ok _) _

theorem histSelectorWindows_failsOnly (sel : SelectorExpr) (ctx : EvalContext) :
    FailsOnly .overflow (histSelectorWindows build ev sel ctx) := by
  unfold histSelectorWindows
  split
  · split
    · exact .ok _
    · refine (FailsOnly.i64 build _).bind fun shifted => .gather (fun s => ?_) _
      split_ifs
      · exact (latestWithin_failsOnly _ _ _ _).bind fun _ => .ok _
      · exact .ok _
  · exact .ok _

theorem window_failsOnly (rangeNs : ℤ) (ctx : EvalContext) :
    FailsOnly .overflow (window build rangeNs ctx) :=
  (FailsOnly.i64 build _).bind fun _ => (FailsOnly.i64 build _).bind fun _ => .ok _

end

end Parqtel.Query
