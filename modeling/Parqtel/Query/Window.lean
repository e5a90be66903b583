import Parqtel.Lib.Group
import Parqtel.Lib.Loop
import Parqtel.Query.Ast

/-!
# Reading series

What a selector reads of the loaded points: the latest point in the lookback, or all points of
a window. The subquery `e[range:step]` has no points of its own; its window is made by
evaluating `e` at every step in it. The counter of that loop is an `i64`, so that `2 ^ 64` turns
without an end mean that it has none.
-/

namespace Parqtel.Query

open Lib

/-- The series that a query has loaded, and the configured lookback. -/
structure Evaluator (F : Type) where
  data : SeriesData F
  histData : Option (HistData F)
  lookbackNs : ℤ

/-- The turns of a loop whose counter is an `i64`, if it ends at all. -/
def maxTurns : ℕ := 2 ^ 64

section
variable {F : Type} (build : Build) (ev : Evaluator F)

def latestWithin {α : Type} (time : α → ℤ) (shifted lookback : ℤ) (points : List α) :
    Eval (Option α) :=
  match (points.take (partitionPoint (fun s => time s ≤ shifted) points)).getLast? with
  | none => .ok none
  | some s => do
    let oldest ← i64 build (shifted - lookback)
    return if time s < oldest then none else some s

def histSelectorWindows (sel : SelectorExpr) (ctx : EvalContext) :
    Eval (List (LabelSet × HistSample F)) :=
  match sel.metricName, ev.histData with
  | some name, some hist =>
    match hist.lookup name with
    | none => .ok []
    | some series => do
      let lookback := max ctx.rangeNs ev.lookbackNs
      let shifted ← i64 build (ctx.tsNs - ctx.offsetNs)
      gather (fun s =>
        if evaluateMatchers sel.matchers s.1 name then do
          let found ← latestWithin build HistSample.timestampNs shifted lookback s.2
          return (found.map fun h => (s.1, h)).toList
        else .ok []) series
  | _, _ => .ok []

def evalSelector (sel : SelectorExpr) (ctx : EvalContext) : Eval (InstantVector F) :=
  match sel.metricName with
  | none => .ok []
  | some name =>
    match ev.data.lookup name with
    | none => .ok []
    | some series =>
      let lookback := max ctx.rangeNs ev.lookbackNs
      gather (fun s =>
        if evaluateMatchers sel.matchers s.1 name then do
          let shifted ← i64 build (ctx.tsNs - ctx.offsetNs)
          let found ← latestWithin build Prod.fst shifted lookback s.2
          return (found.map fun point => (s.1, point.2)).toList
        else .ok []) series

def pointsWithin (windowStart windowEnd : ℤ) (points : List (ℤ × F)) : List (ℤ × F) :=
  let lo := partitionPoint (fun q => q.1 < windowStart) points
  let hi := partitionPoint (fun q => q.1 ≤ windowEnd) points
  if lo < hi then (points.take hi).drop lo else []

def selectorWindows (sel : SelectorExpr) (windowStart windowEnd : ℤ) : RangeVector F :=
  match sel.metricName with
  | none => []
  | some name =>
    ((ev.data.lookup name).getD []).filterMap fun s =>
      if evaluateMatchers sel.matchers s.1 name then
        match pointsWithin windowStart windowEnd s.2 with
        | [] => none
        | points => some (s.1, points.map fun q => ⟨q.1, q.2⟩)
      else none

def subqueryWindows (inner : EvalContext → Eval (InstantVector F)) (ctx : EvalContext)
    (step windowStart windowEnd : ℤ) : Eval (RangeVector F) := do
  let first ← i64 build (windowStart + step)
  stepLoop (fun t => t ≤ windowEnd) (fun t => i64 build (t + step)) .hang
    (fun t windows => do
      let iv ← inner { ctx with tsNs := t, subqueryStepNs := some step }
      return iv.foldl (fun windows s => pushGroup s.1 (Sample.mk t s.2) windows) windows)
    maxTurns first []

def evalRangeWindows (head : RangeHead) (expr : Expr F)
    (inner : EvalContext → Eval (InstantVector F)) (ctx : EvalContext) : Eval (RangeVector F) := do
  let windowEnd ← i64 build (ctx.tsNs - ctx.offsetNs)
  let windowStart ← i64 build (windowEnd - head.rangeNs)
  match expr with
  | .selector sel => return selectorWindows ev sel windowStart windowEnd
  | _ =>
    subqueryWindows build inner ctx (head.stepNs.getD 60000000000) windowStart windowEnd

end

end Parqtel.Query
