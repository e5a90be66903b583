import Parqtel.Query.Aggregate
import Parqtel.Query.Binary

/-!
# The evaluator

`eval` walks the tree of an expression at one timestamp; `evalSteps` does so for every step of
a range. The arguments of a call are passed on with their evaluation, which the call uses for
those it needs.
-/

namespace Parqtel.Query

open Lib

variable {F : Type}

section
variable (p : Platform F) (build : Build) (ev : Evaluator F)

mutual

def eval : Expr F → EvalContext → Eval (InstantVector F)
  | .number n, _ => .ok (unlabelled n)
  | .paren inner, ctx => eval inner ctx
  | .str _, _ => invalid "string literal is only valid as a function argument"
  | .selector sel, ctx => evalSelector build ev sel ctx
  | .call name args, ctx => evalCall p build ev name (argsOf args) ctx
  | .aggregation op grouping param expr, ctx =>
    evalAggregation p op grouping (paramOf param) (eval expr) ctx
  | .range _ _, _ =>
    invalid ("range vector cannot be used directly; wrap in a function like rate() or " ++
      "avg_over_time()")
  | .binary b lhs rhs, ctx => do
    let l ← eval lhs ctx
    let r ← eval rhs ctx
    evalBinary p b lhs rhs l r

def evalWindows : Expr F → EvalContext → Eval (RangeVector F)
  | .range head expr, ctx => evalRangeWindows build ev head expr (eval expr) ctx
  | _, _ => .ok []

def argsOf : List (Expr F) → List (Arg F)
  | [] => []
  | e :: es => ⟨e, eval e, evalWindows e⟩ :: argsOf es

def paramOf : Option (Expr F) → Option (Arg F)
  | none => none
  | some e => some ⟨e, eval e, evalWindows e⟩

end

def stepContext (t : ℤ) : EvalContext := ⟨t, 0, 0, none, false⟩

def evalSteps (e : Expr F) (startNs endNs stepNs : ℤ) : Eval (List (ℤ × InstantVector F)) :=
  stepLoop (fun t => t < endNs) (fun t => i64 build (t + stepNs)) .hang
    (fun t out => do return out ++ [(t, ← eval p build ev e (stepContext t))])
    maxTurns startNs []

end

def asArg (p : Platform F) (build : Build) (ev : Evaluator F) (e : Expr F) : Arg F :=
  ⟨e, eval p build ev e, evalWindows p build ev e⟩

theorem argsOf_eq (p : Platform F) (build : Build) (ev : Evaluator F) (es : List (Expr F)) :
    argsOf p build ev es = es.map (asArg p build ev) := by
  induction es with
  | nil => rfl
  | cons e es ih =>
    rw [argsOf, ih]
    rfl

theorem paramOf_eq (p : Platform F) (build : Build) (ev : Evaluator F) (e : Option (Expr F)) :
    paramOf p build ev e = e.map (asArg p build ev) := by
  cases e <;> rfl

/-- Induction over an expression, with a hypothesis for every argument and parameter. -/
@[elab_as_elim]
theorem Expr.induct {motive : Expr F → Prop}
    (selector : ∀ sel, motive (.selector sel))
    (number : ∀ n, motive (.number n))
    (str : ∀ s, motive (.str s))
    (call : ∀ name args, (∀ a ∈ args, motive a) → motive (.call name args))
    (aggregation : ∀ op grouping param expr, (∀ a ∈ param, motive a) → motive expr →
      motive (.aggregation op grouping param expr))
    (range : ∀ head expr, motive expr → motive (.range head expr))
    (binary : ∀ b lhs rhs, motive lhs → motive rhs → motive (.binary b lhs rhs))
    (paren : ∀ inner, motive inner → motive (.paren inner)) (e : Expr F) : motive e := by
  refine @Expr.rec F motive (fun es => ∀ a ∈ es, motive a) (fun o => ∀ a ∈ o, motive a)
    selector number str call aggregation range binary paren ?_ ?_ ?_ ?_ e
  · nofun
  · exact fun head tail hhead htail => List.forall_mem_cons.mpr ⟨hhead, htail⟩
  · exact fun a ha => absurd ha (Option.not_mem_none a)
  · intro e he a ha
    exact Option.mem_some_iff.mp ha ▸ he

end Parqtel.Query
