import Parqtel.Query.Matcher
import Parqtel.Query.Platform

/-!
# The syntax tree of a PromQL query

Expressions as the parser builds them, and the data that the evaluator works on: instant
vectors, range vectors, the loaded series and the samples of native histograms. A number
literal is a value of the type `F` that stands for `f64`.
-/

namespace Parqtel.Query

inductive AggregationOp where
  | sum | avg | min | max | count | stddev | stdvar | countValues | topK | bottomK | quantile
  | group
deriving DecidableEq

inductive Grouping where
  | none
  | by (labels : List String)
  | without (labels : List String)
deriving DecidableEq

inductive BinaryOp where
  | add | sub | mul | div | mod | pow
  | eq | ne | gt | lt | ge | le
  | and | or | unless
deriving DecidableEq

def BinaryOp.isComparison : BinaryOp → Bool
  | .eq | .ne | .gt | .lt | .ge | .le => true
  | _ => false

def BinaryOp.isArithmetic : BinaryOp → Bool
  | .add | .sub | .mul | .div | .mod | .pow => true
  | _ => false

inductive VectorMatch where
  | all
  | on (labels : List String)
  | ignoring (labels : List String)
deriving DecidableEq

inductive MatchCardinality where
  | oneToOne
  | manyToOne (extra : List String)
  | oneToMany (extra : List String)
deriving DecidableEq

structure SelectorExpr where
  metricName : Option String
  matchers : List LabelMatcher

/-- A binary expression without its operands. -/
structure BinaryHead where
  op : BinaryOp
  matching : Option (VectorMatch × MatchCardinality)
  returnBool : Bool
deriving DecidableEq

/-- A range selector or subquery without its expression. -/
structure RangeHead where
  rangeNs : ℤ
  stepNs : Option ℤ
  offsetNs : ℤ
deriving DecidableEq

inductive Expr (F : Type) where
  | selector (sel : SelectorExpr)
  | number (n : F)
  | str (s : String)
  | call (name : String) (args : List (Expr F))
  | aggregation (op : AggregationOp) (grouping : Grouping) (param : Option (Expr F))
      (expr : Expr F)
  | range (head : RangeHead) (expr : Expr F)
  | binary (head : BinaryHead) (lhs rhs : Expr F)
  | paren (inner : Expr F)

/-! ## The form of an expression -/

namespace Expr

variable {F : Type}

def literal? : Expr F → Option F
  | .number n => some n
  | _ => none

def selector? : Expr F → Option SelectorExpr
  | .selector sel => some sel
  | _ => none

def inner? : Expr F → Option (Expr F)
  | .range _ inner => some inner
  | _ => none

theorem selector?_eq_some {e : Expr F} {sel : SelectorExpr} :
    e.selector? = some sel ↔ e = .selector sel := by
  cases e <;> simp [selector?]

end Expr

/-! ## Evaluated data -/

abbrev InstantVector (F : Type) := List (LabelSet × F)

def InstantVector.get {F : Type} (v : InstantVector F) (labels : LabelSet) : Option F :=
  (v.find? fun s => s.1 = labels).map Prod.snd

structure Sample (F : Type) where
  timestampNs : ℤ
  value : F
deriving DecidableEq

abbrev RangeVector (F : Type) := List (LabelSet × List (Sample F))

/-- One step of an evaluation. `lockHeld` says whether a caller on the stack holds the lock of
the group cache. -/
structure EvalContext where
  tsNs : ℤ
  rangeNs : ℤ
  offsetNs : ℤ
  subqueryStepNs : Option ℤ
  lockHeld : Bool
deriving DecidableEq

/-- The points of each series of each metric. -/
abbrev SeriesData (F : Type) := List (String × List (LabelSet × List (ℤ × F)))

/-- One sample of a histogram with explicit buckets; the last count is that of the bucket
above every boundary. -/
structure HistSample (F : Type) where
  timestampNs : ℤ
  count : ℕ
  sum : F
  boundaries : List F
  counts : List ℕ
deriving DecidableEq

abbrev HistData (F : Type) := List (String × List (LabelSet × List (HistSample F)))

namespace HistSample

variable {F : Type} (p : Platform F)

def quantileLoop (target : F) : List F → List ℕ → F → F → Option F
  | [], _, _, _ => none
  | bound :: bounds, counts, prevCount, prevBound =>
    let c := p.ofNat (counts.headD 0)
    if p.le target (p.add prevCount c) then
      if p.le c p.zero then some bound
      else
        let frac := p.div (p.sub target prevCount) c
        some (p.add prevBound (p.mul (p.sub bound prevBound) frac))
    else quantileLoop target bounds counts.tail (p.add prevCount c) bound

def quantile (h : HistSample F) (q : F) : F :=
  let total := p.ofNat h.count
  if p.le total p.zero || !p.inUnit q then p.nan
  else
    (quantileLoop p (p.mul q total) h.boundaries h.counts p.zero p.zero).getD
      (h.boundaries.getLast?.getD p.infinity)

def belowLoop (v : F) : List F → List ℕ → F → F → F
  | [], _, _, acc => acc
  | bound :: bounds, counts, prevBound, acc =>
    let c := p.ofNat (counts.headD 0)
    if p.le v prevBound then acc
    else if p.le bound v then belowLoop v bounds counts.tail bound (p.add acc c)
    else
      let frac :=
        if p.lt prevBound bound then p.div (p.sub v prevBound) (p.sub bound prevBound)
        else p.zero
      p.add acc (p.mul c frac)

def fraction (h : HistSample F) (lower upper : F) : F :=
  let total := p.ofNat h.count
  if p.le total p.zero then p.nan
  else
    let below v := p.min (belowLoop p v h.boundaries h.counts p.zero p.zero) total
    p.div (p.max (p.sub (below upper) (below lower)) p.zero) total

def weights : List F → List ℕ → F → List (F × F)
  | [], _, _ => []
  | bound :: bounds, counts, prevBound =>
    let c := p.ofNat (counts.headD 0)
    let rest := weights bounds counts.tail bound
    if p.lt p.zero c && p.isFinite bound then
      (c, p.div (p.add prevBound bound) (p.ofRat 2)) :: rest
    else rest

def variance (h : HistSample F) : F :=
  let ws := weights p h.boundaries h.counts p.zero
  let weightSum := ws.foldl (fun acc w => p.add acc w.1) p.zero
  let mean := ws.foldl (fun acc w => p.add acc (p.mul w.1 w.2)) p.zero
  if p.le weightSum p.zero then p.nan
  else
    let mu := p.div mean weightSum
    let var := ws.foldl (fun acc w => p.add acc (p.mul w.1 (p.square (p.sub w.2 mu)))) p.zero
    p.div var weightSum

end HistSample

end Parqtel.Query
