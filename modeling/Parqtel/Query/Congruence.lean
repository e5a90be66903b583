import Parqtel.Query.Eval
import Parqtel.Query.Reading

/-!
# What an evaluation depends on

A node is evaluated from its parts: their values at the node's context, the windows of a range,
the native samples of a histogram selector, and the form of an argument as far as the functions
look at it (`Arg.Like`). If two evaluations agree on the parts, they agree on the node
(`evalCall_congr`, `evalAggregation_congr`, `subqueryWindows_congr`), so that a property of whole
expressions is shown on selectors and windows and carried over the tree.
-/

namespace Parqtel.Query

open Lib List Query.Expr Arg

variable {F : Type}

theorem stepContext_plain {t : ℤ} (h : InI64 t) : (stepContext t).Plain := ⟨rfl, rfl, h⟩

/-! ## The form of an argument -/

theorem Expr.isRange_eq (e : Expr F) : e.isRange = e.inner?.isSome := by
  cases e <;> rfl

def absentOf : Option SelectorExpr → LabelSet
  | some sel =>
    sel.matchers.foldl (fun labels m =>
      if m.op = .equal then labels.with m.name m.value else labels) .empty
  | none => .empty

theorem absentLabels_eq (e : Expr F) : absentLabels e = absentOf e.selector? := by
  cases e <;> rfl

/-- Arguments of the same form: the functions cannot tell them apart but by their values. -/
structure Arg.Like (a b : Arg F) : Prop where
  literal : a.expr.literal? = b.expr.literal?
  selector : a.expr.selector? = b.expr.selector?
  inner : a.expr.inner?.map selector? = b.expr.inner?.map selector?

/-- Arguments with the same values in a context. -/
structure Arg.Same (ctx : EvalContext) (a b : Arg F) : Prop where
  eval : a.eval ctx = b.eval ctx
  windows : a.windows ctx = b.windows ctx

theorem Arg.Like.isRange {a b : Arg F} (h : a.Like b) : a.expr.isRange = b.expr.isRange := by
  have := congrArg Option.isSome h.inner
  rwa [Option.isSome_map, Option.isSome_map, ← isRange_eq, ← isRange_eq] at this

/-- The functions that take names as string literals, from their second argument on. -/
def Fn.readsStrings : Fn → Bool
  | .labelReplace | .labelJoin | .labelDel | .sortByLabel _ => true
  | _ => false

def Fn.readsHistograms : Fn → Bool
  | .histogramCount | .histogramSum | .histogramAvg | .histogramStddev | .histogramStdvar
  | .histogramFraction | .histogramQuantile => true
  | _ => false

def Evaluator.samples (ev : Evaluator F) (name : String) :
    Option (List (LabelSet × List (HistSample F))) := ev.histData.bind fun hist => hist.lookup name

/-- The evaluators have native histograms of the same metrics. -/
def SameHistograms (ev ev' : Evaluator F) : Prop :=
  ∀ name : String, (ev.samples name).isSome = (ev'.samples name).isSome

def SameSamples (build : Build) (ev ev' : Evaluator F) (ctx : EvalContext) (e : Expr F) : Prop :=
  ∀ sel, e.selector? = some sel →
    histSelectorWindows build ev sel ctx = histSelectorWindows build ev' sel ctx

/-! ## What functions read of their arguments -/

variable {e : Expr F}

section
variable {p : Platform F} {build : Build} {ctx : EvalContext} {es : List (Expr F)}
  {f g : Expr F → Arg F}

theorem argAt_map (f : Expr F → Arg F) (i : ℕ) : argAt (es.map f) i =
      match es[i]? with
      | some e => .ok (f e)
      | none => .error .panic := by
  unfold argAt
  rw [getElem?_map]
  cases es[i]? <;> rfl

theorem evalScalar_eq (a : Arg F) : evalScalar p a ctx =
    match a.expr.literal? with
    | some n => .ok n
    | none => do
      match ← a.eval ctx with
      | [s] => return s.2
      | _ => return p.nan := by
  unfold evalScalar
  cases a.expr <;> rfl

theorem evalScalar_congr {a b : Arg F} (hlike : a.Like b) (hsame : a.Same ctx b) :
    evalScalar p a ctx = evalScalar p b ctx := by
  rw [evalScalar_eq, evalScalar_eq, hlike.literal, hsame.eval]

def absentSeries (p : Platform F) (inner : Option (Option SelectorExpr))
    (windows : RangeVector F) : InstantVector F :=
  match inner with
  | some sel => if windows.isEmpty then [(absentOf sel, p.one)] else []
  | none => []

theorem evalRangeFn_eq (name : String) (range : Arg F) (args : List (Arg F)) :
    evalRangeFn p build name range args ctx = range.windows ctx >>= fun windows =>
      if name = "absent_over_time" then
        .ok (absentSeries p (range.expr.inner?.map selector?) windows)
      else
        gather (fun w => (applyRangeFn p build name
          (w.2.map fun s => (s.timestampNs, s.value)) (args.map expr) ctx) >>= fun v =>
            .ok (v.map fun v => (w.1, v)).toList) windows := by
  refine bind_congr_ok fun windows _ => ?_
  by_cases hname : name = "absent_over_time"
  · cases range.expr with
    | range head inner =>
      simp only [absentLabels_eq]
      cases windows <;> rfl
    | _ => rfl
  · rw [if_neg hname, if_neg hname]
    rfl

theorem evalHistogram_eq (ev : Evaluator F) (h : HistSample F → F) (name : String)
    (args : List (Arg F)) :
    evalHistogram build ev h name args ctx =
      match args.head?.bind fun a => a.expr.selector? with
      | some sel => do
        let wins ← histSelectorWindows build ev sel ctx
        return wins.map fun w => (w.1, h w.2)
      | none => invalid s!"{name}() requires a histogram selector argument" := by
  unfold evalHistogram
  cases args.head? with
  | none => rfl
  | some a =>
    rw [Option.map_some, Option.bind_some]
    cases a.expr <;> rfl

theorem applyFn_fraction (ev : Evaluator F) (name : String) (args : List (Arg F)) :
    applyFn p build ev .histogramFraction name args ctx = (do
      let lower ← scalarArg p args 0 ctx
      let upper ← scalarArg p args 1 ctx
      match args[2]?.bind fun a => a.expr.selector? with
      | some sel =>
        let wins ← histSelectorWindows build ev sel ctx
        return wins.map fun w => (w.1, w.2.fraction p lower upper)
      | none => invalid "histogram_fraction() requires a histogram selector") := by
  simp only [applyFn]
  cases args[2]? with
  | none => rfl
  | some a =>
    rw [Option.map_some, Option.bind_some]
    cases a.expr <;> rfl

theorem nativeHistogram_eq (ev : Evaluator F) (args : List (Arg F)) : nativeHistogram ev args =
      (args[1]?.bind fun a => a.expr.selector?).filter fun sel =>
        (sel.metricName.bind ev.samples).isSome := by
  unfold nativeHistogram Evaluator.samples
  cases args[1]? with
  | none => rfl
  | some a =>
    rw [Option.map_some, Option.bind_some]
    cases a.expr with
    | selector sel =>
      simp only [selector?]
      rw [Option.filter_some]
      cases ev.histData with
      | none => cases sel.metricName <;> rfl
      | some hist => rfl
    | _ => rfl

theorem stringArg_congr (htext : ∀ e ∈ es.tail, evalString p (f e) = evalString p (g e)) (i : ℕ) :
    stringArg p (es.map f) (i + 1) = stringArg p (es.map g) (i + 1) := by
  unfold stringArg
  rw [argAt_map, argAt_map, ← getElem?_tail]
  cases hi : es.tail[i]? with
  | none => rfl
  | some e => exact htext e (mem_of_getElem? hi)

theorem strings_congr (htext : ∀ e ∈ es.tail, evalString p (f e) = evalString p (g e)) (n : ℕ) :
    ((es.map f).drop (n + 1)).mapM (evalString p) =
      ((es.map g).drop (n + 1)).mapM (evalString p) := by
  rw [← map_drop, ← map_drop, ← drop_tail]
  have hdrop : ∀ e ∈ es.tail.drop n, evalString p (f e) = evalString p (g e) := fun e he =>
    htext e (mem_of_mem_drop he)
  generalize es.tail.drop n = rest at hdrop
  induction rest with
  | nil => rfl
  | cons e rest ih =>
    obtain ⟨he, hrest⟩ := forall_mem_cons.mp hdrop
    rw [map_cons, map_cons, mapM_cons, mapM_cons, he, ih hrest]

section
variable (hlike : ∀ e ∈ es, (f e).Like (g e))
include hlike

theorem selectorAt_congr (i : ℕ) : ((es.map f)[i]?.bind fun a => a.expr.selector?) =
      (es.map g)[i]?.bind fun a => a.expr.selector? := by
  rw [getElem?_map, getElem?_map]
  cases hi : es[i]? with
  | none => rfl
  | some e => exact (hlike e (mem_of_getElem? hi)).selector

theorem numberArg_congr (i : ℕ) :
    numberArg ((es.map f).map expr) i = numberArg ((es.map g).map expr) i := by
  have heq (f : Expr F → Arg F) :
      numberArg ((es.map f).map expr) i = es[i]?.bind fun e => (f e).expr.literal? := by
    unfold numberArg
    rw [map_map, getElem?_map]
    cases es[i]? with
    | none => rfl
    | some e =>
      rw [Option.map_some, Option.bind_some, Function.comp_apply]
      cases (f e).expr <;> rfl
  rw [heq, heq]
  cases hi : es[i]? with
  | none => rfl
  | some e => exact (hlike e (mem_of_getElem? hi)).literal

theorem applyRangeFn_congr (name : String) (vals : List (ℤ × F)) :
    applyRangeFn p build name vals ((es.map f).map expr) ctx =
      applyRangeFn p build name vals ((es.map g).map expr) ctx := by
  have hvalue (fn : RangeFn) : rangeFnValue p build fn vals ((es.map f).map expr) ctx =
      rangeFnValue p build fn vals ((es.map g).map expr) ctx := by
    cases fn <;> simp only [rangeFnValue, numberArg_congr hlike]
  unfold applyRangeFn
  simp only [hvalue]

theorem evalRangeFn_congr (he : e ∈ es) (hsame : (f e).Same ctx (g e)) (name : String) :
    evalRangeFn p build name (f e) (es.map f) ctx =
      evalRangeFn p build name (g e) (es.map g) ctx := by
  rw [evalRangeFn_eq, evalRangeFn_eq, hsame.windows, (hlike e he).inner]
  simp only [applyRangeFn_congr hlike]

theorem scalarArg_congr (hsame : ∀ e ∈ es, (f e).Same ctx (g e)) (i : ℕ) :
    scalarArg p (es.map f) i ctx = scalarArg p (es.map g) i ctx := by
  unfold scalarArg
  rw [argAt_map, argAt_map]
  cases hi : es[i]? with
  | none => rfl
  | some e =>
    have he := mem_of_getElem? hi
    exact evalScalar_congr (hlike e he) (hsame e he)

end

theorem vectorArg_congr (hsame : ∀ e ∈ es, (f e).Same ctx (g e)) (i : ℕ) :
    vectorArg (es.map f) i ctx = vectorArg (es.map g) i ctx := by
  unfold vectorArg
  rw [argAt_map, argAt_map]
  cases hi : es[i]? with
  | none => rfl
  | some e => exact (hsame e (mem_of_getElem? hi)).eval

/-! ## Calls -/

section
variable {ev ev' : Evaluator F}

theorem samples_at (hs : ∀ e ∈ es, SameSamples build ev ev' ctx (f e).expr) {i : ℕ}
    {sel : SelectorExpr} (hsel : ((es.map f)[i]?.bind fun a => a.expr.selector?) = some sel) :
    histSelectorWindows build ev sel ctx = histSelectorWindows build ev' sel ctx := by
  obtain ⟨a, ha, hsel⟩ := Option.bind_eq_some_iff.mp hsel
  rw [getElem?_map] at ha
  obtain ⟨e, he, rfl⟩ := Option.map_eq_some_iff.mp ha
  exact hs e (mem_of_getElem? he) sel hsel

variable (hlike : ∀ e ∈ es, (f e).Like (g e))
include hlike

theorem evalHistogram_congr (hs : ∀ e ∈ es, SameSamples build ev ev' ctx (f e).expr)
    (h : HistSample F → F) (name : String) :
    evalHistogram build ev h name (es.map f) ctx =
      evalHistogram build ev' h name (es.map g) ctx := by
  rw [evalHistogram_eq, evalHistogram_eq, head?_eq_getElem?, head?_eq_getElem?,
    ← selectorAt_congr hlike]
  cases hsel : (es.map f)[0]?.bind fun a => a.expr.selector? with
  | none => rfl
  | some sel => simp only [samples_at hs hsel]

theorem nativeHistogram_congr (hh : SameHistograms ev ev') :
    nativeHistogram ev (es.map f) = nativeHistogram ev' (es.map g) := by
  rw [nativeHistogram_eq, nativeHistogram_eq, selectorAt_congr hlike]
  congr 1
  funext sel
  cases sel.metricName with
  | none => rfl
  | some name => exact hh name

theorem applyFn_congr (hh : SameHistograms ev ev') {fn : Fn}
    (hsame : ∀ e ∈ es, (f e).Same ctx (g e))
    (hs : fn.readsHistograms = true → ∀ e ∈ es, SameSamples build ev ev' ctx (f e).expr)
    (htext : fn.readsStrings = true → ∀ e ∈ es.tail, evalString p (f e) = evalString p (g e))
    (name : String) :
    applyFn p build ev fn name (es.map f) ctx = applyFn p build ev' fn name (es.map g) ctx := by
  have hscalar (i : ℕ) : scalarArg p (es.map f) i ctx = scalarArg p (es.map g) i ctx :=
    scalarArg_congr hlike hsame i
  have hvector := vectorArg_congr hsame
  cases fn with
  | histogramCount | histogramSum | histogramAvg | histogramStddev | histogramStdvar =>
    simp only [applyFn, evalHistogram_congr hlike (hs rfl)]
  | histogramFraction =>
    rw [applyFn_fraction, applyFn_fraction, hscalar, hscalar, ← selectorAt_congr hlike]
    cases hsel : (es.map f)[2]?.bind fun a => a.expr.selector? with
    | none => rfl
    | some sel => simp only [samples_at (hs rfl) hsel]
  | histogramQuantile =>
    simp only [applyFn, ← nativeHistogram_congr hlike hh]
    cases hn : nativeHistogram ev (es.map f) with
    | none => simp only [evalHistogramQuantile, hscalar, hvector]
    | some sel =>
      rw [nativeHistogram_eq, Option.filter_eq_some_iff] at hn
      simp only [hscalar, samples_at (hs rfl) hn.1]
  | absent =>
    simp only [applyFn, absentLabels_eq]
    rw [argAt_map, argAt_map]
    cases hi : es[0]? with
    | none => rfl
    | some e =>
      have he := mem_of_getElem? hi
      simp only [ok_bind, (hsame e he).eval, (hlike e he).selector]
  | date d =>
    cases es with
    | nil => rfl
    | cons e es => simp only [applyFn, map_cons, (hsame e mem_cons_self).eval]
  | labelReplace | labelJoin | labelDel | sortByLabel =>
    simp only [applyFn, hvector, stringArg_congr (htext rfl), strings_congr (htext rfl)]
  | _ => simp only [applyFn, hvector, hscalar, length_map]

/-- **A call depends on its arguments**: on the range among them, if there is one. -/
theorem evalCall_congr (hh : SameHistograms ev ev') (name : String)
    (hsame : ∀ e ∈ es, ((es.any fun e => (f e).expr.isRange) = true → (f e).expr.isRange = true) →
      (f e).Same ctx (g e))
    (hs : (Fn.ofName name).any Fn.readsHistograms = true →
      ∀ e ∈ es, SameSamples build ev ev' ctx (f e).expr)
    (htext : (es.any fun e => (f e).expr.isRange) = false →
      (Fn.ofName name).any Fn.readsStrings = true →
        ∀ e ∈ es.tail, evalString p (f e) = evalString p (g e)) :
    evalCall p build ev name (es.map f) ctx = evalCall p build ev' name (es.map g) ctx := by
  unfold evalCall
  rw [find?_map, find?_map]
  have hfinds : es.find? ((fun a : Arg F => a.expr.isRange) ∘ g) =
      es.find? ((fun a : Arg F => a.expr.isRange) ∘ f) :=
    find?_congr fun e he => ((hlike e he).isRange).symm
  rw [hfinds]
  cases hfind : es.find? ((fun a : Arg F => a.expr.isRange) ∘ f) with
  | some e =>
    have hrange := find?_some hfind
    have he := mem_of_find?_eq_some hfind
    exact evalRangeFn_congr hlike he (hsame e he fun _ => hrange) name
  | none =>
    have hnone : (es.any fun e => (f e).expr.isRange) = false :=
      any_eq_false.mpr fun e he => find?_eq_none.mp hfind e he
    cases hf : Fn.ofName name with
    | none => rfl
    | some fn =>
      rw [hf] at hs htext
      refine applyFn_congr hlike hh (fun e he => hsame e he fun hany => ?_) hs (htext hnone) name
      rw [hnone] at hany
      cases hany

end

end

variable {ctx : EvalContext}

theorem eval_rangeCall {p : Platform F} {build : Build} {ev : Evaluator F} {name : String}
    {args : List (Expr F)} {range : Expr F} (h : args.find? isRange = some range) :
    eval p build ev (.call name args) ctx =
      evalRangeFn p build name (asArg p build ev range) (args.map (asArg p build ev)) ctx := by
  rw [eval, argsOf_eq, evalCall, find?_map]
  have hcomp : ((fun a : Arg F => a.expr.isRange) ∘ asArg p build ev) = isRange := rfl
  rw [hcomp, h]
  rfl

/-! ## Operators, subqueries and aggregations -/

theorem evalBinary_congr (p : Platform F) (b : BinaryHead) {l l' r r' : Expr F}
    (hl : l.literal? = l'.literal?) (hr : r.literal? = r'.literal?) (lhs rhs : InstantVector F) :
    evalBinary p b l r lhs rhs = evalBinary p b l' r' lhs rhs := by
  have heq (l r : Expr F) : evalBinary p b l r lhs rhs =
      match l.literal?, r.literal? with
      | some a, some c => scalarScalar p b a c
      | some a, none => scalarVector p b a rhs
      | none, some c => vectorScalar p b lhs c
      | none, none => evalVectorBinary p b lhs rhs := by
    cases l <;> cases r <;> rfl
  rw [heq, heq, hl, hr]

theorem subqueryWindows_congr {build : Build} {inner inner' : EvalContext → Eval (InstantVector F)}
    {step windowStart windowEnd : ℤ}
    (h : ∀ first, i64 build (windowStart + step) = .ok first → ∀ t,
      Visits (fun t => t ≤ windowEnd) (fun t => i64 build (t + step)) first t → t ≤ windowEnd →
      InI64 t → inner { ctx with tsNs := t, subqueryStepNs := some step } =
        inner' { ctx with tsNs := t, subqueryStepNs := some step }) :
    subqueryWindows build inner ctx step windowStart windowEnd =
      subqueryWindows build inner' ctx step windowStart windowEnd := by
  refine bind_congr_ok fun first hfirst => stepLoop_congr (fun t hvisit hle => ?_) maxTurns []
  have hin : InI64 t := by
    cases hvisit with
    | first => exact i64_inI64 hfirst
    | next _ _ hnext => exact i64_inI64 hnext
  rw [h first hfirst t hvisit (of_decide_eq_true hle) hin]

/-- **An aggregation depends on its operand and its parameter**, which is evaluated with the lock
held. -/
theorem evalAggregation_congr {p : Platform F} {param : Option (Expr F)} {f g : Expr F → Arg F}
    {operand operand' : EvalContext → Eval (InstantVector F)}
    (hlike : ∀ a ∈ param, (f a).Like (g a))
    (hsame : ∀ a ∈ param, (f a).Same { ctx with lockHeld := true } (g a)) {op : AggregationOp}
    (htext : op = .countValues → ∀ a ∈ param, evalString p (f a) = evalString p (g a))
    (hoperand : operand ctx = operand' ctx) (grouping : Grouping) :
    evalAggregation p op grouping (param.map f) operand ctx =
      evalAggregation p op grouping (param.map g) operand' ctx := by
  have hscalar (d : F) : paramScalar p (param.map f) d ctx = paramScalar p (param.map g) d ctx := by
    cases param with
    | none => rfl
    | some a => exact evalScalar_congr (hlike a rfl) (hsame a rfl)
  unfold evalAggregation
  rw [hoperand]
  simp only [hscalar]
  cases op with
  | countValues =>
    cases param with
    | none => rfl
    | some a => simp only [Option.map_some, htext rfl a rfl]
  | _ => rfl

/-! ## Two evaluators, one expression -/

section
variable (p : Platform F) (build : Build) (ev ev' : Evaluator F)

/-- Two evaluators agree on an expression in a context. -/
structure SameAt (ctx : EvalContext) (e : Expr F) : Prop where
  eval : eval p build ev e ctx = eval p build ev' e ctx
  windows : evalWindows p build ev e ctx = evalWindows p build ev' e ctx

variable {p build ev ev'} {ctx : EvalContext}

theorem SameAt.asArg (h : SameAt p build ev ev' ctx e) :
    (asArg p build ev e).Same ctx (asArg p build ev' e) := ⟨h.eval, h.windows⟩

theorem asArg_like (ev ev' : Evaluator F) (e : Expr F) :
    (asArg p build ev e).Like (asArg p build ev' e) := ⟨rfl, rfl, rfl⟩

theorem evalCall_sameAt (hh : SameHistograms ev ev') (name : String) {es : List (Expr F)}
    (h : ∀ e ∈ es, (es.any isRange = true → e.isRange = true) → SameAt p build ev ev' ctx e)
    (hs : (Fn.ofName name).any Fn.readsHistograms = true →
      ∀ e ∈ es, SameSamples build ev ev' ctx e) :
    evalCall p build ev name (argsOf p build ev es) ctx =
      evalCall p build ev' name (argsOf p build ev' es) ctx := by
  rw [argsOf_eq, argsOf_eq]
  exact evalCall_congr (fun e _ => asArg_like ev ev' e) hh name
    (fun e he hr => (h e he hr).asArg) hs fun _ _ _ _ => rfl

theorem evalAggregation_sameAt {param : Option (Expr F)}
    (hparam : ∀ a ∈ param, SameAt p build ev ev' { ctx with lockHeld := true } a)
    (he : SameAt p build ev ev' ctx e) (op : AggregationOp) (grouping : Grouping) :
    evalAggregation p op grouping (paramOf p build ev param) (eval p build ev e) ctx =
      evalAggregation p op grouping (paramOf p build ev' param) (eval p build ev' e) ctx := by
  rw [paramOf_eq, paramOf_eq]
  exact evalAggregation_congr (fun a _ => asArg_like ev ev' a) (fun a ha => (hparam a ha).asArg)
    (fun _ _ _ => rfl) he.eval grouping

end

end Parqtel.Query
