import Parqtel.Query.Ast

/-!
# Functions over the samples of a window

`applyRangeFn` is what `rate(x[5m])` and its kind compute from the samples of one series in
the window. A result that is not a number is no result. Differences of timestamps are `i64`
operations; a quantile indexes the sorted samples and panics when its index is outside.
-/

open Prod

namespace Parqtel.Query

inductive RangeFn where
  | rate | irate | increase | delta | idelta
  | quantileOverTime | madOverTime | avgOverTime | minOverTime | maxOverTime | sumOverTime
  | countOverTime | lastOverTime | presentOverTime | stddevOverTime | stdvarOverTime
  | changes | resets | deriv | predictLinear | doubleExponentialSmoothing
deriving DecidableEq

def RangeFn.ofName : String → Option RangeFn
  | "rate" => some .rate
  | "irate" => some .irate
  | "increase" => some .increase
  | "delta" => some .delta
  | "idelta" => some .idelta
  | "quantile_over_time" => some .quantileOverTime
  | "mad_over_time" => some .madOverTime
  | "avg_over_time" => some .avgOverTime
  | "min_over_time" => some .minOverTime
  | "max_over_time" => some .maxOverTime
  | "sum_over_time" => some .sumOverTime
  | "count_over_time" => some .countOverTime
  | "last_over_time" => some .lastOverTime
  | "present_over_time" => some .presentOverTime
  | "stddev_over_time" => some .stddevOverTime
  | "stdvar_over_time" => some .stdvarOverTime
  | "changes" => some .changes
  | "resets" => some .resets
  | "deriv" => some .deriv
  | "predict_linear" => some .predictLinear
  | "double_exponential_smoothing" | "holt_winters" => some .doubleExponentialSmoothing
  | _ => none

def neighbours {α : Type} (xs : List α) : List (α × α) := xs.zip xs.tail

def numberArg {F : Type} (args : List (Expr F)) (i : ℕ) : Option F :=
  match args[i]? with
  | some (.number n) => some n
  | _ => none

section
variable {F : Type} (p : Platform F) (build : Build)

def seconds (ns : ℤ) : F := p.div (p.ofInt ns) (p.ofRat 1000000000)

def segmentIncrease (vals : List (ℤ × F)) : F :=
  (neighbours vals).foldl (fun total w =>
    p.add total (if p.le w.1.2 w.2.2 then p.sub w.2.2 w.1.2 else w.2.2)) p.zero

/-- The increase per second over the observed span, extended towards the edges of a window that
is wider. -/
def rateOverSamples (vals : List (ℤ × F)) (windowNs : F) : Eval F :=
  match vals.head?, vals.getLast? with
  | some (t0, _), some (t1, _) =>
    if vals.length < 2 then .ok p.nan
    else do
      let span := seconds p (← i64 build (t1 - t0))
      if p.le span p.zero then return p.nan
      let rate := p.div (segmentIncrease p vals) span
      if p.lt span windowNs && p.lt p.zero windowNs then
        let slack := p.min (p.div (p.sub windowNs span) (p.ofRat 2)) (p.mul span (p.ofRat 0.1))
        return p.div (p.mul rate (p.add span (p.mul (p.ofRat 2) slack))) span
      else return rate
  | _, _ => .ok p.nan

def windowedRateVal (vals : List (ℤ × F)) : Eval F := rateOverSamples p build vals p.zero

/-- The elements that `quantile_of` reads of a list of length `n`. -/
def quantileIndices (q : F) (n : ℕ) : ℕ × ℕ :=
  let pos := p.mul q (p.ofNat (n - 1))
  (p.toUsize (p.math .floor pos), p.toUsize (p.math .ceil pos))

def quantileOf (q : F) (sorted : List F) : Eval F :=
  if sorted = [] then .ok p.nan
  else
    let pos := p.mul q (p.ofNat (sorted.length - 1))
    let (lo, hi) := quantileIndices p q sorted.length
    match sorted[lo]?, sorted[hi]? with
    | some x, some y =>
      if lo = hi then .ok x
      else
        let frac := p.sub pos (p.ofNat lo)
        .ok (p.add (p.mul x (p.sub p.one frac)) (p.mul y frac))
    | _, _ => .error .panic

def mean (vals : List F) : F := p.div (p.sum vals) (p.ofNat vals.length)

def variance (vals : List F) : F :=
  let mu := mean p vals
  p.div (p.sum (vals.map fun x => p.square (p.sub x mu))) (p.ofNat vals.length)

def linearRegression (vals : List (ℤ × F)) : Eval (F × F) := do
  let t0 := (vals.head?.map fst).getD 0
  let tLast := (vals.getLast?.map fst).getD 0
  let n := p.ofNat vals.length
  let xs ← vals.mapM fun v => do return seconds p (← i64 build (v.1 - t0))
  let ys := vals.map snd
  let sx := p.sum xs
  let sy := p.sum ys
  let sxy := p.sum ((xs.zip ys).map fun w => p.mul w.1 w.2)
  let sxx := p.sum (xs.map fun x => p.mul x x)
  let denom := p.sub (p.mul n sxx) (p.mul sx sx)
  if p.lt (p.math .abs denom) (p.ofRat 0.000000000001) then return (p.zero, p.div sy n)
  let slope := p.div (p.sub (p.mul n sxy) (p.mul sx sy)) denom
  let intercept := p.div (p.sub sy (p.mul slope sx)) n
  let last := seconds p (← i64 build (tLast - t0))
  return (slope, p.add intercept (p.mul slope last))

def clampUnit (x : F) : F :=
  if p.lt x p.zero then p.zero else if p.lt p.one x then p.one else x

def smoothed (sf tf : F) (vals : List (ℤ × F)) (first second : F) : F :=
  ((neighbours vals).foldl (fun (sb : F × F) w =>
    let s := p.add (p.mul sf w.2.2) (p.mul (p.sub p.one sf) (p.add sb.1 sb.2))
    (s, p.add (p.mul tf (p.sub s sb.1)) (p.mul (p.sub p.one tf) sb.2)))
    (first, p.sub second first)).1

def countNeighbours (test : F → F → Bool) (vals : List (ℤ × F)) : F :=
  (neighbours vals).foldl (fun n w => if test w.1.2 w.2.2 then p.add n p.one else n) p.zero

/-- The value of a range function on samples, before the test for NaN; `none` where the code
returns no value. -/
def rangeFnValue (f : RangeFn) (vals : List (ℤ × F)) (args : List (Expr F)) (ctx : EvalContext) :
    Eval (Option F) :=
  let values := vals.map snd
  let lastTwo := vals.reverse.take 2
  match f with
  | .rate => some <$> windowedRateVal p build vals
  | .irate =>
    match lastTwo with
    | [(lt, lv), (pt, pv)] => do
      let dt := seconds p (← i64 build (lt - pt))
      if p.le dt p.zero then return none
      let dv := p.sub lv pv
      return some (p.div (if p.lt dv p.zero then lv else dv) dt)
    | _ => .ok none
  | .increase => do
    let r ← windowedRateVal p build vals
    let tLast := (vals.getLast?.map fst).getD 0
    let span ← i64 build (tLast - (vals.head?.map fst).getD 0)
    return some (p.div (p.mul r (p.ofInt span)) (p.ofRat 1000000000))
  | .delta =>
    if vals.length < 2 then .ok none
    else .ok (some (p.sub (values.getLast?.getD p.zero) (values.head?.getD p.zero)))
  | .idelta =>
    match lastTwo with
    | [(_, lv), (_, pv)] => .ok (some (if p.le pv lv then p.sub lv pv else lv))
    | _ => .ok none
  | .quantileOverTime =>
    match numberArg args 0 with
    | some q =>
      if p.inUnit q then do
        let sorted ← p.sorted id false values
        return some (← quantileOf p q sorted)
      else .ok none
    | none => .ok none
  | .madOverTime => do
    let sorted ← p.sorted id false values
    let med ← quantileOf p (p.ofRat 0.5) sorted
    let devs ← p.sorted id false (sorted.map fun v => p.math .abs (p.sub v med))
    return some (← quantileOf p (p.ofRat 0.5) devs)
  | .avgOverTime => .ok (some (mean p values))
  | .minOverTime => .ok (some (values.foldl p.min p.infinity))
  | .maxOverTime => .ok (some (values.foldl p.max p.negInfinity))
  | .sumOverTime => .ok (some (p.sum values))
  | .countOverTime => .ok (some (p.ofNat vals.length))
  | .lastOverTime => .ok (some (values.getLast?.getD p.zero))
  | .presentOverTime => .ok (some p.one)
  | .stddevOverTime => .ok (some (p.math .sqrt (variance p values)))
  | .stdvarOverTime => .ok (some (variance p values))
  | .changes => .ok (some (countNeighbours p (fun v w => !p.eq v w) vals))
  | .resets => .ok (some (countNeighbours p (fun v w => p.lt w v) vals))
  | .deriv =>
    match vals.head?, vals.getLast? with
    | some (t0, v0), some (t1, v1) =>
      if vals.length < 2 then .ok none
      else do
        let dt := seconds p (← i64 build (t1 - t0))
        if p.le dt p.zero then return none
        return some (p.div (p.sub v1 v0) dt)
    | _, _ => .ok none
  | .predictLinear =>
    if vals.length < 2 then .ok none
    else do
      let (slope, intercept) ← linearRegression p build vals
      let horizon := (numberArg args 1).getD p.zero
      let tLast := seconds p ((vals.getLast?.map fst).getD 0)
      let x := p.sub (p.add (seconds p ctx.tsNs) horizon) tLast
      return some (p.add intercept (p.mul slope x))
  | .doubleExponentialSmoothing =>
    match values with
    | first :: second :: _ =>
      let sf := ((numberArg args 1).map (clampUnit p)).getD (p.ofRat 0.1)
      let tf := ((numberArg args 2).map (clampUnit p)).getD (p.ofRat 0.3)
      .ok (some (smoothed p sf tf vals first second))
    | _ => .ok none

def applyRangeFn (name : String) (vals : List (ℤ × F)) (args : List (Expr F))
    (ctx : EvalContext) : Eval (Option F) :=
  if vals = [] then .ok none
  else
    match RangeFn.ofName name with
    | none => invalid s!"unsupported range function {p.debug name}"
    | some f => do
      let result ← rangeFnValue p build f vals args ctx
      return result.filter fun v => !p.isNan v

end

end Parqtel.Query
