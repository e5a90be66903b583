import Parqtel.Query.Crash
import Parqtel.Query.Offset

/-!
# Panics

The steps of an evaluation that panic (`PanicStep`): a call reads an argument that it does not
have, `clamp` gets bounds that are not in order, a quantile lies outside the values, or the
values to sort make the sort of the standard library panic, which it may do when NaN is among
them. Nothing else panics (`stepFails_panic_iff`). The last section is about the lock that an
aggregation holds while it evaluates its parameter: whether it is taken twice (`locks_once`).
-/

namespace Parqtel.Query

open Lib List

variable {F : Type}

section
variable (p : Platform F) (build : Build) (ev : Evaluator F)

def FnPanics (args : List (Arg F)) (ctx : EvalContext) : Fn → Prop
  | .clamp =>
    ∃ v lo hi, vectorArg args 0 ctx = .ok v ∧ scalarArg p args 1 ctx = .ok lo ∧
      scalarArg p args 2 ctx = .ok hi ∧ v ≠ [] ∧ p.le lo hi = false
  | .sort descending => ∃ v, vectorArg args 0 ctx = .ok v ∧ p.sortBy Prod.snd descending v = none
  | .histogramQuantile =>
    nativeHistogram ev args = none ∧ ∃ q v, scalarArg p args 0 ctx = .ok q ∧
      vectorArg args 1 ctx = .ok v ∧ ∃ h ∈ bucketGroups p v, p.sortBy Prod.fst false h.2 = none
  | _ => False

def RangeFnPanics (args : List (Expr F)) (values : List F) : RangeFn → Prop
  | .quantileOverTime =>
    ∃ q, numberArg args 0 = some q ∧ p.inUnit q = true ∧ QuantilePanics p q values
  | .madOverTime =>
    QuantilePanics p (p.ofRat 0.5) values ∨ ∃ sorted med, p.sortBy id false values = some sorted ∧
        quantileOf p (p.ofRat 0.5) sorted = .ok med ∧
        QuantilePanics p (p.ofRat 0.5) (sorted.map fun v => p.math .abs (p.sub v med))
  | _ => False

inductive PanicStep : Expr F → EvalContext → Prop
  | missing {name : String} {fn : Fn} {args : List (Expr F)} {ctx : EvalContext} {r : Read}
      (hrange : args.find? Expr.isRange = none) (hfn : Fn.ofName name = some fn)
      (hr : ComesToRead p build ev fn args ctx r) (hout : args.length ≤ r.index) :
      PanicStep (.call name args) ctx
  | function {name : String} {fn : Fn} {args : List (Expr F)} {ctx : EvalContext}
      (hrange : args.find? Expr.isRange = none) (hfn : Fn.ofName name = some fn)
      (h : FnPanics p ev (args.map (asArg p build ev)) ctx fn) : PanicStep (.call name args) ctx
  | rangeFn {name : String} {f : RangeFn} {args : List (Expr F)} {range : Expr F}
      {ctx : EvalContext} {ws : RangeVector F} {w : LabelSet × List (Sample F)}
      (hrange : args.find? Expr.isRange = some range)
      (hws : evalWindows p build ev range ctx = .ok ws) (hw : w ∈ ws) (hne : w.2 ≠ [])
      (hf : RangeFn.ofName name = some f) (h : RangeFnPanics p args (w.2.map Sample.value) f) :
      PanicStep (.call name args) ctx
  | aggregate {op : AggregationOp} (grouping : Grouping) {param : Option (Expr F)} {e : Expr F}
      {ctx : EvalContext} {v : InstantVector F} (hv : eval p build ev e ctx = .ok v)
      (hfree : ctx.lockHeld = false)
      (h : AggregateFails p .panic (param.map (asArg p build ev)) ctx v op) :
      PanicStep (.aggregation op grouping param e) ctx

end

section
variable {p : Platform F} {build : Build} {ev : Evaluator F} {ctx : EvalContext}

theorem fnFails_panic_iff {args : List (Arg F)} {fn : Fn} :
    FnFails p build ev .panic args ctx fn ↔ FnPanics p ev args ctx fn := by
  have hhist {sel : SelectorExpr} : histSelectorWindows build ev sel ctx ≠ .error .panic :=
    fun h => nomatch histSelectorWindows_failsOnly sel ctx _ h
  cases fn with
  | clamp | sort => simp only [FnFails, FnPanics, true_and]
  | histogramQuantile =>
    simp only [FnFails, FnPanics]
    cases nativeHistogram ev args with
    | none => simp only [true_and]
    | some sel => simp only [hhist, and_false, reduceCtorEq, false_and]
  | histogramCount | histogramSum | histogramAvg | histogramStddev | histogramStdvar
  | histogramFraction =>
    simp only [FnFails, FnPanics, hhist, and_false, exists_false]
  | _ => exact Iff.rfl

theorem rangeFnValue_panic_iff {f : RangeFn} {vals : List (ℤ × F)} {args : List (Expr F)} :
    rangeFnValue p build f vals args ctx = .error .panic ↔
      RangeFnPanics p args (vals.map Prod.snd) f := by
  cases f with
  | quantileOverTime =>
    unfold rangeFnValue RangeFnPanics
    cases numberArg args 0 with
    | none => exact iff_of_false nofun nofun
    | some q =>
      simp only [Option.some.injEq, exists_eq_left']
      by_cases hq : p.inUnit q = true
      · rw [if_pos hq]
        exact quantile_eq_error.trans (by simp only [hq, true_and])
      · rw [if_neg hq]
        exact iff_of_false nofun fun h => hq h.1
  | madOverTime =>
    unfold rangeFnValue RangeFnPanics
    rw [bind_eq_error, sorted_eq_error]
    constructor
    · rintro (⟨-, hsort⟩ | ⟨sorted, hsorted, h⟩)
      · exact .inl (.inl hsort)
      · have hsorted := sorted_eq_ok.mp hsorted
        rcases bind_eq_error.mp h with h | ⟨med, hmed, h⟩
        · exact .inl (.inr ⟨sorted, hsorted, (quantileOf_eq_error.mp h).2⟩)
        · exact .inr ⟨sorted, med, hsorted, hmed, (quantile_eq_error.mp h).2⟩
    · rintro ((hsort | ⟨sorted, hsorted, hout⟩) | ⟨sorted, med, hsorted, hmed, h⟩)
      · exact .inl ⟨rfl, hsort⟩
      · exact .inr ⟨sorted, sorted_eq_ok.mpr hsorted,
          bind_eq_error.mpr (.inl (quantileOf_eq_error.mpr ⟨rfl, hout⟩))⟩
      · exact .inr ⟨sorted, sorted_eq_ok.mpr hsorted,
          bind_eq_error.mpr (.inr ⟨med, hmed, quantile_eq_error.mpr ⟨rfl, h⟩⟩)⟩
  | _ =>
    refine iff_of_false (fun h => ?_) id
    cases rangeFnValue_failsOnly _ _ _ _ _ h

theorem applyRangeFn_panic_iff {name : String} {samples : List (Sample F)} {args : List (Expr F)} :
    applyRangeFn p build name (samples.map fun s => (s.timestampNs, s.value)) args ctx =
        .error .panic ↔
      samples ≠ [] ∧ ∃ f, RangeFn.ofName name = some f ∧
        RangeFnPanics p args (samples.map Sample.value) f := by
  have hvalues : (samples.map fun s => (s.timestampNs, s.value)).map Prod.snd =
      samples.map Sample.value := by
    rw [map_map]
    rfl
  unfold applyRangeFn
  by_cases hnil : samples = []
  · subst hnil
    exact iff_of_false nofun fun h => h.1 rfl
  · rw [if_neg (fun h => hnil (map_eq_nil_iff.mp h))]
    cases RangeFn.ofName name with
    | none =>
      refine iff_of_false (invalid_ne_crash rfl _) ?_
      rintro ⟨-, f, hf, -⟩
      cases hf
    | some f =>
      simp only [Option.some.injEq, exists_eq_left', hnil, ne_eq, not_false_eq_true, true_and]
      rw [← hvalues, ← rangeFnValue_panic_iff]
      exact bind_eq_error_left fun _ => nofun

theorem stepFails_panic_iff {e : Expr F} :
    StepFails p build ev .panic e ctx ↔ PanicStep p build ev e ctx := by
  have hi64 {z : ℤ} : i64 build z ≠ .error .panic := fun h => nomatch (i64_eq_error.mp h).1
  constructor
  · intro h
    cases h with
    | selector h => cases evalSelector_failsOnly _ _ _ h
    | locked _ _ _ _ _ h => cases h
    | endless _ _ _ _ _ _ h => cases h
    | aggregate grouping hv hfree h => exact .aggregate grouping hv hfree h
    | missing hrange hfn hr hout => exact .missing hrange hfn hr hout
    | function hrange hfn h => exact .function hrange hfn (fnFails_panic_iff.mp h)
    | window _ _ h => cases window_failsOnly _ _ _ h
    | firstStep _ _ _ _ h => exact absurd h hi64
    | nextStep _ _ _ _ _ _ _ _ _ h => exact absurd h hi64
    | rangeFn hrange hws _ hw h =>
      obtain ⟨hne, f, hf, h⟩ := applyRangeFn_panic_iff.mp h
      exact .rangeFn hrange hws hw hne hf h
  · intro h
    cases h with
    | missing hrange hfn hr hout => exact .missing hrange hfn hr hout rfl
    | function hrange hfn h => exact .function hrange hfn (fnFails_panic_iff.mpr h)
    | rangeFn hrange hws hw hne hf h =>
      refine .rangeFn hrange hws ?_ hw (applyRangeFn_panic_iff.mpr ⟨hne, _, hf, h⟩)
      rintro rfl
      cases hf
    | aggregate grouping hv hfree h => exact .aggregate grouping hv hfree h

/-- **An evaluation panics exactly if it comes to a step that does.** -/
theorem no_panic_iff (p : Platform F) (build : Build) (ev : Evaluator F) (e : Expr F)
    (ctx : EvalContext) :
    eval p build ev e ctx ≠ .error .panic ↔
      ∀ e' ctx', Comes p build ev e ctx e' ctx' → ¬ PanicStep p build ev e' ctx' := by
  rw [ne_eq, eval_crash_iff rfl]
  simp only [stepFails_panic_iff, not_exists, not_and]

end

def twoSeries : Evaluator (Option ℚ) :=
  ⟨[("x", [(.empty, [(0, some 1)]), (LabelSet.empty.with "a" "b", [(0, some 2)])])], none,
    300000000000⟩

/-- Queries that the parser accepts and that panic: a call without its argument, bounds that are
not in order, and a quantile above one. -/
theorem accepted_queries_panic :
    instantQuery twoSeries "abs()" 0 = .error .panic ∧
    instantQuery twoSeries "clamp(x, 2, 1)" 0 = .error .panic ∧
    instantQuery twoSeries "quantile(2, x)" 0 = .error .panic := by
  decide +kernel

/-! ## The lock of the group cache -/

mutual

/-- No parameter that an aggregation evaluates, and holds the lock meanwhile, has an aggregation
in it. `held` says that the lock is held already. -/
def lockFree (held : Bool) : Expr F → Bool
  | .selector _ | .number _ | .str _ => true
  | .call _ args => argsLockFree held args
  | .aggregation op _ param e =>
    !held && lockFree held e && (!op.readsScalar || paramLockFree param)
  | .range _ e => lockFree held e
  | .binary _ lhs rhs => lockFree held lhs && lockFree held rhs
  | .paren inner => lockFree held inner

def argsLockFree (held : Bool) : List (Expr F) → Bool
  | [] => true
  | e :: es => lockFree held e && argsLockFree held es

def paramLockFree : Option (Expr F) → Bool
  | none => true
  | some e => lockFree true e

end

def LocksTwice (p : Platform F) (build : Build) (ev : Evaluator F) (e : Expr F)
    (ctx : EvalContext) : Prop :=
  ∃ op grouping param e' ctx', Comes p build ev e ctx (.aggregation op grouping param e') ctx' ∧
    ctx'.lockHeld = true ∧ ∃ v, eval p build ev e' ctx' = .ok v

section
variable {p : Platform F} {build : Build} {ev : Evaluator F} {ctx ctx' : EvalContext}
variable {e e' : Expr F}

theorem lockFree_of_mem {held : Bool} {es : List (Expr F)} (h : argsLockFree held es = true)
    (he : e ∈ es) : lockFree held e = true := by
  induction es with
  | nil => cases he
  | cons e' es ih =>
    rw [argsLockFree, Bool.and_eq_true] at h
    rcases mem_cons.mp he with rfl | he
    · exact h.1
    · exact ih h.2 he

theorem lockFree_calls (hcall : Calls p build ev e ctx e' ctx')
    (h : lockFree ctx.lockHeld e = true) : lockFree ctx'.lockHeld e' = true := by
  cases hcall with
  | paren => exact h
  | lhs | rhs => simp_all [lockFree]
  | operand =>
    rw [lockFree, Bool.and_eq_true, Bool.and_eq_true] at h
    exact h.1.2
  | param _ _ _ hop => simp_all [lockFree, paramLockFree]
  | arg _ _ _ ha => exact lockFree_of_mem h (mem_of_getElem? ha)
  | step _ hrange =>
    have hinner := lockFree_of_mem h (mem_of_find?_eq_some hrange)
    rwa [lockFree] at hinner

theorem lockFree_comes (hcomes : Comes p build ev e ctx e' ctx')
    (h : lockFree ctx.lockHeld e = true) : lockFree ctx'.lockHeld e' = true := by
  induction hcomes with
  | here => exact h
  | call hcall _ ih => exact ih (lockFree_calls hcall h)

end

/-- **The lock is taken once** in any evaluation of an expression whose parameters have no
aggregation in them. -/
theorem locks_once (p : Platform F) (build : Build) (ev : Evaluator F) {e : Expr F}
    (he : lockFree false e = true) (t : ℤ) : ¬ LocksTwice p build ev e (stepContext t) := by
  rintro ⟨op, grouping, param, e', ctx', hcomes, hheld, -⟩
  have h := lockFree_comes hcomes he
  rw [hheld] at h
  cases h

/-- `topk(1, sum(x))`. -/
theorem locks_once_nested :
    let e : Expr (Option ℚ) := .aggregation .topK .none (some (.number (some 1)))
      (.aggregation .sum .none none (.selector ⟨some "x", []⟩))
    lockFree false e = true ∧ ¬ LocksTwice exact .debug twoSeries e (stepContext 0) :=
  ⟨by decide, locks_once exact .debug twoSeries (by decide) 0⟩

/-- A query that the parser accepts: the parameter of `topk` is an aggregation. -/
theorem nested_parameter_hangs : instantQuery twoSeries "topk(sum(x), x)" 0 = .error .hang := by
  decide +kernel

end Parqtel.Query
