import Parqtel.Query.RangeFn
import Parqtel.Query.Window

/-!
# Function calls

A call with a range among its arguments is a range function, whatever its name. Every other
function takes its arguments by position: the parser checks no arity, so a missing argument is
an index out of bounds.
-/

namespace Parqtel.Query

open Lib

inductive DateFn where
  | minute | hour | dayOfWeek | dayOfMonth | dayOfYear | daysInMonth | month | year
deriving DecidableEq

inductive Fn where
  | math (f : MathFn)
  | sgn | pi | atan2 | round | clamp | clampMin | clampMax
  | labelReplace | labelJoin | labelDel
  | scalar | vector | time | absent
  | date (f : DateFn)
  | timestamp
  | sort (descending : Bool)
  | sortByLabel (descending : Bool)
  | histogramCount | histogramSum | histogramAvg | histogramStddev | histogramStdvar
  | histogramFraction | histogramQuantile
deriving DecidableEq

def Fn.ofName : String → Option Fn
  | "abs" => some (.math .abs)
  | "ceil" => some (.math .ceil)
  | "floor" => some (.math .floor)
  | "sqrt" => some (.math .sqrt)
  | "exp" => some (.math .exp)
  | "ln" => some (.math .ln)
  | "log2" => some (.math .log2)
  | "log10" => some (.math .log10)
  | "sgn" => some .sgn
  | "sin" => some (.math .sin)
  | "cos" => some (.math .cos)
  | "tan" => some (.math .tan)
  | "asin" => some (.math .asin)
  | "acos" => some (.math .acos)
  | "atan" => some (.math .atan)
  | "sinh" => some (.math .sinh)
  | "cosh" => some (.math .cosh)
  | "tanh" => some (.math .tanh)
  | "asinh" => some (.math .asinh)
  | "acosh" => some (.math .acosh)
  | "atanh" => some (.math .atanh)
  | "deg" => some (.math .toDegrees)
  | "rad" => some (.math .toRadians)
  | "pi" => some .pi
  | "atan2" => some .atan2
  | "round" => some .round
  | "clamp" => some .clamp
  | "clamp_min" => some .clampMin
  | "clamp_max" => some .clampMax
  | "label_replace" => some .labelReplace
  | "label_join" => some .labelJoin
  | "label_del" => some .labelDel
  | "scalar" => some .scalar
  | "vector" => some .vector
  | "time" => some .time
  | "absent" => some .absent
  | "minute" => some (.date .minute)
  | "hour" => some (.date .hour)
  | "day_of_week" => some (.date .dayOfWeek)
  | "day_of_month" | "day_of_month_iso" => some (.date .dayOfMonth)
  | "day_of_year" => some (.date .dayOfYear)
  | "days_in_month" => some (.date .daysInMonth)
  | "month" => some (.date .month)
  | "year" => some (.date .year)
  | "timestamp" => some .timestamp
  | "sort" => some (.sort false)
  | "sort_desc" => some (.sort true)
  | "sort_by_label" => some (.sortByLabel false)
  | "sort_by_label_desc" => some (.sortByLabel true)
  | "histogram_count" => some .histogramCount
  | "histogram_sum" => some .histogramSum
  | "histogram_avg" => some .histogramAvg
  | "histogram_stddev" => some .histogramStddev
  | "histogram_stdvar" => some .histogramStdvar
  | "histogram_fraction" => some .histogramFraction
  | "histogram_quantile" => some .histogramQuantile
  | _ => none

/-- An argument with its evaluation; `windows` is that of a range. -/
structure Arg (F : Type) where
  expr : Expr F
  eval : EvalContext → Eval (InstantVector F)
  windows : EvalContext → Eval (RangeVector F)

section
variable {F : Type} (p : Platform F)

def argAt (args : List (Arg F)) (i : ℕ) : Eval (Arg F) :=
  match args[i]? with
  | some a => .ok a
  | none => .error .panic

def evalScalar (a : Arg F) (ctx : EvalContext) : Eval F :=
  match a.expr with
  | .number n => .ok n
  | _ => do
    match ← a.eval ctx with
    | [s] => return s.2
    | _ => return p.nan

def evalString (a : Arg F) : Eval String :=
  match a.expr with
  | .str s => .ok s
  | _ => invalid s!"expected string literal, got {p.debug a.expr}"

def vectorArg (args : List (Arg F)) (i : ℕ) (ctx : EvalContext) : Eval (InstantVector F) := do
  (← argAt args i).eval ctx

def scalarArg (args : List (Arg F)) (i : ℕ) (ctx : EvalContext) : Eval F := do
  evalScalar p (← argAt args i) ctx

def stringArg (args : List (Arg F)) (i : ℕ) : Eval String := do
  evalString p (← argAt args i)

/-- A series whose new value is not a number is dropped. -/
def mapValues (f : F → F) (v : InstantVector F) : InstantVector F :=
  v.filterMap fun s => if p.isNan (f s.2) then none else some (s.1, f s.2)

def unlabelled (value : F) : InstantVector F := [(.empty, value)]

def sgn (x : F) : F :=
  if p.lt p.zero x then p.one else if p.lt x p.zero then p.ofRat (-1) else p.zero

def daysInMonth (year : ℤ) (month : ℕ) : ℕ :=
  if month ∈ [1, 3, 5, 7, 8, 10, 12] then 31
  else if month ∈ [4, 6, 9, 11] then 30
  else if month = 2 then
    if (year % 4 = 0 ∧ year % 100 ≠ 0) ∨ year % 400 = 0 then 29 else 28
  else 30

def dateComponent (f : DateFn) (secs : F) : F :=
  let dt := (p.datetime (p.toI64 secs)).getD .unixEpoch
  match f with
  | .minute => p.ofNat dt.minute
  | .hour => p.ofNat dt.hour
  | .dayOfWeek => p.ofNat dt.numDaysFromSunday
  | .dayOfMonth => p.ofNat dt.day
  | .dayOfYear => p.ofNat dt.ordinal
  | .daysInMonth => p.ofNat (daysInMonth dt.year dt.month)
  | .month => p.ofNat dt.month
  | .year => p.ofInt dt.year

def absentLabels : Expr F → LabelSet
  | .selector sel =>
    sel.matchers.foldl (fun labels m =>
      if m.op = .equal then labels.with m.name m.value else labels) .empty
  | _ => .empty

def replaceLabel (re : Regex) (dst replacement src : String) (labels : LabelSet) : LabelSet :=
  match re.captures ((labels.get src).getD "") with
  | none => labels
  | some groups =>
    let rep := (groups.zipIdx 1).foldl (fun (rep : String) group =>
      match group.1 with
      | some text => rep.replace s!"${group.2}" text
      | none => rep) replacement
    labels.with dst rep

def joinLabels (dst sep : String) (srcs : List String) (labels : LabelSet) : LabelSet :=
  labels.with dst (sep.intercalate (srcs.map fun s => (labels.get s).getD ""))

def deleteLabels (dels : List String) (labels : LabelSet) : LabelSet :=
  labels.filtered fun k _ => !dels.contains k

def mapLabels (f : LabelSet → LabelSet) (v : InstantVector F) : InstantVector F :=
  v.map fun s => (f s.1, s.2)

/-- The value at rank `q` of buckets sorted by their bound, linear in the bucket. -/
def bucketLoop (target : F) : List (F × F) → F → F → Option F
  | [], _, _ => none
  | (bound, count) :: buckets, prevCount, prevBound =>
    if p.le target count then
      if p.eq bound p.infinity then some prevBound
      else
        let frac := p.div (p.sub target prevCount) (p.sub count prevCount)
        some (p.add prevBound (p.mul (p.sub bound prevBound) frac))
    else bucketLoop target buckets count bound

def quantileFromBuckets (q : F) (buckets : List (F × F)) : Option F :=
  if buckets.length < 2 then none
  else
    let total := (buckets.getLast?.map Prod.snd).getD p.zero
    if p.le total p.zero then none
    else
      (bucketLoop p (p.mul q total) buckets p.zero p.negInfinity).or
        (buckets.getLast?.map Prod.fst)

def bucketGroups (v : InstantVector F) : List (LabelSet × List (F × F)) :=
  let groups := v.foldl (fun groups s =>
    let le := ((s.1.get "le").bind p.parse).getD p.infinity
    pushGroup (s.1.filtered fun k _ => k ≠ "le") (le, s.2) groups) []
  groups.insertionSort fun a b => LabelSet.cmpEntries a.1.entries b.1.entries ≠ .gt

def evalHistogramQuantile (args : List (Arg F)) (ctx : EvalContext) : Eval (InstantVector F) := do
  let q ← scalarArg p args 0 ctx
  let v ← vectorArg args 1 ctx
  gather (fun h => do
    let buckets ← p.sorted Prod.fst false h.2
    return ((quantileFromBuckets p q buckets).map fun qv =>
      (h.1.filtered fun k _ => k ≠ "__name__", qv)).toList) (bucketGroups p v)

end

section
variable {F : Type} (p : Platform F) (build : Build) (ev : Evaluator F)

def evalHistogram (f : HistSample F → F) (name : String) (args : List (Arg F))
    (ctx : EvalContext) : Eval (InstantVector F) :=
  match args.head?.map Arg.expr with
  | some (.selector sel) => do
    let wins ← histSelectorWindows build ev sel ctx
    return wins.map fun w => (w.1, f w.2)
  | _ => invalid s!"{name}() requires a histogram selector argument"

def evalRangeFn (name : String) (range : Arg F) (args : List (Arg F)) (ctx : EvalContext) :
    Eval (InstantVector F) := do
  let windows ← range.windows ctx
  if name = "absent_over_time" then
    match range.expr with
    | .range _ inner => return if windows = [] then [(absentLabels inner, p.one)] else []
    | _ => return []
  else
    gather (fun w => do
      let vals := w.2.map fun s => (s.timestampNs, s.value)
      let v ← applyRangeFn p build name vals (args.map Arg.expr) ctx
      return (v.map fun v => (w.1, v)).toList) windows

/-- The native samples of the histogram that the second argument names, if there are any. -/
def nativeHistogram (args : List (Arg F)) : Option SelectorExpr :=
  match args[1]?.map Arg.expr, ev.histData with
  | some (.selector sel), some hist =>
    if (sel.metricName.bind fun n => hist.lookup n).isSome then some sel else none
  | _, _ => none

def applyFn (f : Fn) (name : String) (args : List (Arg F)) (ctx : EvalContext) :
    Eval (InstantVector F) :=
  match f with
  | .math m => do return mapValues p (p.math m) (← vectorArg args 0 ctx)
  | .sgn => do return mapValues p (sgn p) (← vectorArg args 0 ctx)
  | .pi => .ok (unlabelled p.pi)
  | .atan2 => do
    let v ← vectorArg args 0 ctx
    let x ← scalarArg p args 1 ctx
    return mapValues p (fun y => p.atan2 y x) v
  | .round => do
    let v ← vectorArg args 0 ctx
    let nearest ← if args.length ≤ 1 then .ok p.one else scalarArg p args 1 ctx
    return mapValues p (fun x => p.mul (p.round (p.div x nearest)) nearest) v
  | .clamp => do
    let v ← vectorArg args 0 ctx
    let min ← scalarArg p args 1 ctx
    let max ← scalarArg p args 2 ctx
    gather (fun s => do
      let y ← p.clamp s.2 min max
      return if p.isNan y then [] else [(s.1, y)]) v
  | .clampMin => do
    let v ← vectorArg args 0 ctx
    let bound ← scalarArg p args 1 ctx
    return mapValues p (fun x => p.max x bound) v
  | .clampMax => do
    let v ← vectorArg args 0 ctx
    let bound ← scalarArg p args 1 ctx
    return mapValues p (fun x => p.min x bound) v
  | .labelReplace => do
    let v ← vectorArg args 0 ctx
    let dst ← stringArg p args 1
    let replacement ← stringArg p args 2
    let src ← stringArg p args 3
    let regex ← stringArg p args 4
    match p.regex regex with
    | .error e => invalid s!"label_replace regex: {e}"
    | .ok re => return mapLabels (replaceLabel re dst replacement src) v
  | .labelJoin => do
    let v ← vectorArg args 0 ctx
    let dst ← stringArg p args 1
    let sep ← stringArg p args 2
    let srcs ← (args.drop 3).mapM (evalString p)
    return mapLabels (joinLabels dst sep srcs) v
  | .labelDel => do
    let v ← vectorArg args 0 ctx
    let dels ← (args.drop 1).mapM (evalString p)
    return mapLabels (deleteLabels dels) v
  | .scalar => do
    match ← vectorArg args 0 ctx with
    | [s] => return unlabelled s.2
    | _ => return unlabelled p.nan
  | .vector => do return unlabelled (← scalarArg p args 0 ctx)
  | .time => .ok (unlabelled (seconds p ctx.tsNs))
  | .absent => do
    let a ← argAt args 0
    let v ← a.eval ctx
    return if v = [] then [(absentLabels a.expr, p.one)] else []
  | .date d =>
    match args with
    | [] => .ok (unlabelled (dateComponent p d (seconds p ctx.tsNs)))
    | a :: _ => do return mapValues p (dateComponent p d) (← a.eval ctx)
  | .timestamp => do
    return mapValues p (fun _ => seconds p ctx.tsNs) (← vectorArg args 0 ctx)
  | .sort descending => do p.sorted Prod.snd descending (← vectorArg args 0 ctx)
  | .sortByLabel descending => do
    let v ← vectorArg args 0 ctx
    let label ← stringArg p args 1
    let key (s : LabelSet × F) := (s.1.get label).getD ""
    return v.insertionSort fun a b => if descending then key b ≤ key a else key a ≤ key b
  | .histogramCount => evalHistogram build ev (fun h => p.ofNat h.count) name args ctx
  | .histogramSum => evalHistogram build ev (fun h => h.sum) name args ctx
  | .histogramAvg =>
    evalHistogram build ev (fun h =>
      if 0 < h.count then p.div h.sum (p.ofNat h.count) else p.nan) name args ctx
  | .histogramStddev =>
    evalHistogram build ev (fun h => p.math .sqrt (h.variance p)) name args ctx
  | .histogramStdvar => evalHistogram build ev (fun h => h.variance p) name args ctx
  | .histogramFraction => do
    let lower ← scalarArg p args 0 ctx
    let upper ← scalarArg p args 1 ctx
    match args[2]?.map Arg.expr with
    | some (.selector sel) =>
      let wins ← histSelectorWindows build ev sel ctx
      return wins.map fun w => (w.1, w.2.fraction p lower upper)
    | _ => invalid "histogram_fraction() requires a histogram selector"
  | .histogramQuantile =>
    match nativeHistogram ev args with
    | some sel => do
      let q ← scalarArg p args 0 ctx
      let wins ← histSelectorWindows build ev sel ctx
      return wins.filterMap fun w =>
        if p.isNan (w.2.quantile p q) then none else some (w.1, w.2.quantile p q)
    | none => evalHistogramQuantile p args ctx

def Expr.isRange : Expr F → Bool
  | .range _ _ => true
  | _ => false

def evalCall (name : String) (args : List (Arg F)) (ctx : EvalContext) : Eval (InstantVector F) :=
  match args.find? fun a => a.expr.isRange with
  | some range => evalRangeFn p build name range args ctx
  | none =>
    match Fn.ofName name with
    | some f => applyFn p build ev f name args ctx
    | none =>
      invalid s!"unknown function {p.debug name} (Phase 1A supports the documented subset)"

end

end Parqtel.Query
