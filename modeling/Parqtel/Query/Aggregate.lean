import Parqtel.Query.Call

/-!
# Aggregations

The series of a vector are grouped by the projection of their labels that `by` or `without`
asks for, and each group is reduced to one value; `topk`, `bottomk`, `quantile` and
`count_values` work on the whole vector. The code finds a group by a 64-bit hash of the
projection and keeps the group's labels in a cache under that hash; here the projection itself
is the key, and the hash orders the groups.

The cache has a lock. It is taken once the operand is evaluated and held until the aggregation
returns, also while the parameter of `topk`, `bottomk` and `quantile` is evaluated: an
aggregation in that parameter waits for it forever.
-/

namespace Parqtel.Query

open Lib

/-- The list of `by` in canonical form. -/
def normalizeGrouping : Grouping → Grouping
  | .by list => .by (list.insertionSort (· ≤ ·)).dedup
  | g => g

def groupKey (labels : LabelSet) : Grouping → List (String × Option String)
  | .none => []
  | .by list => list.map fun l => (l, labels.get l)
  | .without list =>
    (labels.entries.filter fun e => e.1 ≠ "__name__" ∧ e.1 ∉ list).map fun e => (e.1, some e.2)

def groupLabels (labels : LabelSet) : Grouping → LabelSet
  | .none => .empty
  | .by list =>
    let pairs := list.filterMap fun l => (labels.get l).map fun v => (l, v)
    match LabelSet.tryFromIter pairs with
    | .ok built => built
    | .error _ => .empty
  | .without list => labels.filtered fun k _ => k ≠ "__name__" ∧ k ∉ list

section
variable {F : Type} (p : Platform F)

def aggregateGroup (op : AggregationOp) (vals : List F) : Option F :=
  match op with
  | .sum => some (p.sum vals)
  | .avg => some (mean p vals)
  | .min =>
    if vals = [] then none
    else
      let least := vals.foldl p.min p.infinity
      if p.isFinite least then some least else none
  | .max => if vals = [] then none else some (vals.foldl p.max p.negInfinity)
  | .count => some (p.ofNat vals.length)
  | .group => some p.one
  | .stddev => if vals.length < 2 then none else some (p.math .sqrt (variance p vals))
  | .stdvar => if vals.length < 2 then none else some (variance p vals)
  | .countValues | .topK | .bottomK | .quantile => none

def groupsOf (grouping : Grouping) (v : InstantVector F) : List (LabelSet × List F) :=
  let groups := v.foldl (fun groups s => pushGroup (groupKey s.1 grouping) s groups) []
  let ordered := groups.insertionSort fun a b => p.hash a.1 ≤ p.hash b.1
  ordered.map fun g =>
    (groupLabels ((g.2.head?.map Prod.fst).getD .empty) grouping, g.2.map Prod.snd)

def paramScalar (param : Option (Arg F)) (default : F) (ctx : EvalContext) : Eval F :=
  match param with
  | none => .ok default
  | some a => evalScalar p a { ctx with lockHeld := true }

def fmtNum (v : F) : String :=
  if p.eq (p.fract v) p.zero then toString (p.toI64 v) else p.display v

def countValues (label : String) (v : InstantVector F) : InstantVector F :=
  let counts := v.foldl (fun groups s => pushGroup (fmtNum p s.2) s.2 groups) []
  let ordered := counts.insertionSort fun a b => a.1 ≤ b.1
  ordered.map fun g => (LabelSet.empty.with label g.1, p.ofNat g.2.length)

def evalAggregation (op : AggregationOp) (grouping : Grouping) (param : Option (Arg F))
    (operand : EvalContext → Eval (InstantVector F)) (ctx : EvalContext) :
    Eval (InstantVector F) := do
  let v ← operand ctx
  if ctx.lockHeld then .error .hang
  match op with
  | .topK | .bottomK => do
    let n ← paramScalar p param p.one ctx
    let series ← p.sorted Prod.snd (op = .topK) v
    return series.take (p.toUsize n)
  | .quantile => do
    let q ← paramScalar p param (p.ofRat 0.5) ctx
    let vals ← p.sorted id false (v.map Prod.snd)
    return unlabelled (← quantileOf p q vals)
  | .countValues =>
    match param with
    | none => invalid "count_values requires a label"
    | some a => do return countValues p (← evalString p a) v
  | _ =>
    return (groupsOf p (normalizeGrouping grouping) v).filterMap fun g =>
      (aggregateGroup p op g.2).map fun value => (g.1, value)

end

end Parqtel.Query
