import Parqtel.Query.Congruence
import Parqtel.Query.Parser

/-!
# The offset of a selector

`offsetBy d` writes `offset d` behind every selector of an expression, as the parser reads it: a
range keeps the offset in its head, and an instant selector becomes a range of length zero. The
evaluator never reads the offset of a head. So an expression whose selectors all stand in
brackets has the same value with and without offsets (`offsetArg_same`), and an instant selector
with an offset is a range vector where none is allowed (`eval_offsetBy_fails`). Offsets shift
nothing: the law "the value at `t` is that without offset at `t - d`" holds where the value
happens to be the same at both times.
-/

namespace Parqtel.Query

open Lib List Query.Expr

variable {F : Type}

/-! ## Writing offsets -/

def offsetHead (d : ℤ) (head : RangeHead) (e : Expr F) : RangeHead :=
  if e.selector?.isSome then { head with offsetNs := d } else head

mutual

def offsetBy (d : ℤ) : Expr F → Expr F
  | .selector sel => offsetSelector d sel
  | .number n => .number n
  | .str s => .str s
  | .call name args => .call name (offsetArgs d args)
  | .aggregation op grouping param e =>
    .aggregation op grouping (offsetParam d param) (offsetBy d e)
  | .range head e => .range (offsetHead d head e) (if e.selector?.isSome then e else offsetBy d e)
  | .binary b lhs rhs => .binary b (offsetBy d lhs) (offsetBy d rhs)
  | .paren inner => .paren (offsetBy d inner)

def offsetArgs (d : ℤ) : List (Expr F) → List (Expr F)
  | [] => []
  | e :: es => offsetBy d e :: offsetArgs d es

def offsetParam (d : ℤ) : Option (Expr F) → Option (Expr F)
  | none => none
  | some e => some (offsetBy d e)

end

theorem offsetArgs_eq (d : ℤ) (es : List (Expr F)) : offsetArgs d es = es.map (offsetBy d) := by
  induction es with
  | nil => rfl
  | cons e es ih =>
    rw [offsetArgs, ih]
    rfl

theorem offsetParam_eq (d : ℤ) (e : Option (Expr F)) : offsetParam d e = e.map (offsetBy d) := by
  cases e <;> rfl

def EvalContext.back (ctx : EvalContext) (d : ℤ) : EvalContext := { ctx with tsNs := ctx.tsNs - d }

/-! ## Selectors in brackets -/

def Expr.isStr : Expr F → Bool
  | .str _ => true
  | _ => false

mutual

/-- Every selector stands in brackets, and every name of a label is a string literal. -/
def Windowed : Expr F → Prop
  | .selector _ => False
  | .number _ | .str _ => True
  | .call name args =>
    (args.any isRange = false → (Fn.ofName name).any Fn.readsStrings = true →
      ∀ a ∈ args.tail, a.isStr = true) ∧ ArgsWindowed args
  | .aggregation op _ param e =>
    (op = .countValues → ∀ a ∈ param, a.isStr = true) ∧ ParamWindowed param ∧ Windowed e
  | .range _ e => e.selector?.isSome = true ∨ Windowed e
  | .binary _ lhs rhs => Windowed lhs ∧ Windowed rhs
  | .paren inner => Windowed inner

def ArgsWindowed : List (Expr F) → Prop
  | [] => True
  | e :: es => Windowed e ∧ ArgsWindowed es

def ParamWindowed : Option (Expr F) → Prop
  | none => True
  | some e => Windowed e

end

theorem argsWindowed_iff {es : List (Expr F)} : ArgsWindowed es ↔ ∀ e ∈ es, Windowed e := by
  induction es with
  | nil => exact ⟨nofun, fun _ => trivial⟩
  | cons e es ih => rw [ArgsWindowed, ih, forall_mem_cons]

variable {d : ℤ} {e : Expr F} {head : RangeHead}

section
variable (p : Platform F) (build : Build) (ev : Evaluator F)

def offsetArg (d : ℤ) (e : Expr F) : Arg F := asArg p build ev (offsetBy d e)

variable {p build ev}

theorem offsetBy_literal? (d : ℤ) (e : Expr F) : (offsetBy d e).literal? = e.literal? := by
  cases e with
  | selector sel =>
    show (offsetSelector d sel : Expr F).literal? = none
    unfold offsetSelector
    split_ifs <;> rfl
  | _ => rfl

theorem offsetBy_selector?_none (hd : d ≠ 0) (e : Expr F) : (offsetBy d e).selector? = none := by
  cases e with
  | selector sel =>
    show (offsetSelector d sel : Expr F).selector? = none
    rw [offsetSelector, if_pos hd]
    rfl
  | _ => rfl

theorem offsetBy_selector? (h : Windowed e) : (offsetBy d e).selector? = e.selector? := by
  cases e with
  | selector sel => cases h
  | _ => rfl

theorem offsetArg_like (h : Windowed e) : (offsetArg p build ev d e).Like (asArg p build ev e) := by
  cases e with
  | selector sel => cases h
  | range head inner =>
    refine ⟨rfl, rfl, ?_⟩
    show some (selector? (if inner.selector?.isSome then inner else offsetBy d inner)) =
      some inner.selector?
    split_ifs with hsel
    · rfl
    · rw [offsetBy_selector? (h.resolve_left hsel)]
  | _ => exact ⟨rfl, rfl, rfl⟩

theorem evalString_offsetArg (h : e.isStr = true) :
    evalString p (offsetArg p build ev d e) = evalString p (asArg p build ev e) := by
  cases e with
  | str s => rfl
  | _ => cases h

theorem evalRangeWindows_offset {head' : RangeHead} (hrange : head'.rangeNs = head.rangeNs)
    (hstep : head'.stepNs = head.stepNs) {e' : Expr F} (hsel : e'.selector? = e.selector?)
    {inner inner' : EvalContext → Eval (InstantVector F)} (hinner : ∀ ctx, inner' ctx = inner ctx)
    (ctx : EvalContext) :
    evalRangeWindows build ev head' e' inner' ctx = evalRangeWindows build ev head e inner ctx := by
  have hfun : inner' = inner := funext hinner
  unfold evalRangeWindows
  rw [hrange, hstep, hfun]
  cases e with
  | selector sel => rw [selector?_eq_some.mp hsel]
  | _ =>
    cases e' with
    | selector sel => cases hsel
    | _ => rfl

/-- **Offsets are not read**: with selectors in brackets only, they change no value. -/
theorem offsetArg_same (d : ℤ) (e : Expr F) : ∀ ctx, Windowed e →
    (offsetArg p build ev d e).Same ctx (asArg p build ev e) := by
  induction e using induct with
  | selector sel => exact fun _ h => h.elim
  | number => exact fun _ _ => ⟨rfl, rfl⟩
  | str => exact fun _ _ => ⟨rfl, rfl⟩
  | call name args ih =>
    intro ctx h
    obtain ⟨hstr, hargs⟩ := h
    have hargs := argsWindowed_iff.mp hargs
    refine ⟨?_, rfl⟩
    show evalCall p build ev name (argsOf p build ev (offsetArgs d args)) ctx =
      evalCall p build ev name (argsOf p build ev args) ctx
    rw [argsOf_eq, argsOf_eq, offsetArgs_eq, map_map]
    refine evalCall_congr (fun e he => offsetArg_like (hargs e he)) (fun _ => rfl) name
      (fun e he _ => ih e he ctx (hargs e he)) (fun _ _ _ _ _ => rfl) fun hnone hname e he => ?_
    refine evalString_offsetArg (hstr (any_eq_false.mpr fun e he => ?_) hname e he)
    have hlike : (offsetArg p build ev d e).Like (asArg p build ev e) := offsetArg_like (hargs e he)
    rw [show e.isRange = (offsetArg p build ev d e).expr.isRange from hlike.isRange.symm]
    exact any_eq_false.mp hnone e he
  | aggregation op grouping param e ihp ihe =>
    intro ctx h
    obtain ⟨hstr, hparam, he⟩ := h
    have hparam : ∀ a ∈ param, Windowed a := by
      intro a ha
      cases ha
      exact hparam
    refine ⟨?_, rfl⟩
    show evalAggregation p op grouping (paramOf p build ev (offsetParam d param))
        (eval p build ev (offsetBy d e)) ctx =
      evalAggregation p op grouping (paramOf p build ev param) (eval p build ev e) ctx
    rw [paramOf_eq, paramOf_eq, offsetParam_eq, Option.map_map]
    exact evalAggregation_congr (fun a ha => offsetArg_like (hparam a ha))
      (fun a ha => ihp a ha _ (hparam a ha))
      (fun hop a ha => evalString_offsetArg (hstr hop a ha)) (ihe ctx he).eval grouping
  | range head e ih =>
    intro ctx h
    refine ⟨rfl, ?_⟩
    show evalRangeWindows build ev (offsetHead d head e)
      (if e.selector?.isSome then e else offsetBy d e) (eval p build ev _) ctx = _
    have hhead : (offsetHead d head e).rangeNs = head.rangeNs ∧
        (offsetHead d head e).stepNs = head.stepNs := by
      unfold offsetHead
      split_ifs <;> exact ⟨rfl, rfl⟩
    by_cases hsel : e.selector?.isSome = true
    · rw [if_pos hsel]
      exact evalRangeWindows_offset hhead.1 hhead.2 rfl (fun _ => rfl) ctx
    · have he := h.resolve_left hsel
      rw [if_neg hsel]
      exact evalRangeWindows_offset hhead.1 hhead.2 (offsetBy_selector? he)
        (fun ctx => (ih ctx he).eval) ctx
  | binary b lhs rhs ihl ihr =>
    intro ctx h
    obtain ⟨hl, hr⟩ := h
    have hl' := (ihl ctx hl).eval
    have hr' := (ihr ctx hr).eval
    refine ⟨?_, rfl⟩
    have hbinary := evalBinary_congr p b (offsetBy_literal? d lhs) (offsetBy_literal? d rhs)
    show (eval p build ev (offsetBy d lhs) ctx >>= fun l => eval p build ev (offsetBy d rhs) ctx >>=
      fun r => evalBinary p b (offsetBy d lhs) (offsetBy d rhs) l r) = _
    simp only [hbinary]
    simp only [offsetArg, asArg] at hl' hr'
    rw [hl', hr']
    rfl
  | paren inner ih => exact fun ctx h => ⟨(ih ctx h).eval, rfl⟩

end

/-! ## A range function with its window -/

section
variable (p : Platform F) (build : Build) (ev : Evaluator F)

def windowCall (name : String) (pre : List F) (head : RangeHead) (sel : SelectorExpr)
    (post : List F) : Expr F :=
  .call name (pre.map .number ++ .range head (.selector sel) :: post.map .number)

def valueOver (name : String) (args : List (Expr F)) (ctx : EvalContext) (w : ℤ × ℤ)
    (s : LabelSet × List (ℤ × F)) : Eval (Option F) :=
  applyRangeFn p build name (pointsWithin w.1 w.2 s.2) args ctx

/-- The windows of two contexts give the function the same: for every series the same value,
or for `absent_over_time` in both a point or in both none. -/
def Steady (name : String) (args : List (Expr F)) (rangeNs : ℤ) (sel : SelectorExpr)
    (ctx ctx' : EvalContext) : Prop :=
  ∃ w w', window build rangeNs ctx = .ok w ∧ window build rangeNs ctx' = .ok w' ∧
    if name = "absent_over_time" then
      (∀ s ∈ ev.series sel, pointsWithin w.1 w.2 s.2 = []) ↔
        ∀ s ∈ ev.series sel, pointsWithin w'.1 w'.2 s.2 = []
    else
      ∀ s ∈ ev.series sel, valueOver p build name args ctx w s =
        valueOver p build name args ctx' w' s

end

variable {sel : SelectorExpr} {ctx : EvalContext}

section
variable {p : Platform F} {build : Build} {ev : Evaluator F}

theorem windowed_windowCall (name : String) (pre : List F) (head : RangeHead) (sel : SelectorExpr)
    (post : List F) : Windowed (windowCall name pre head sel post) := by
  refine ⟨fun hnone => ?_, argsWindowed_iff.mpr fun e he => ?_⟩
  · simp [isRange] at hnone
  · rcases mem_append.mp he with hpre | hrest
    · obtain ⟨n, -, rfl⟩ := mem_map.mp hpre
      trivial
    · rcases mem_cons.mp hrest with rfl | hpost
      · exact .inl rfl
      · obtain ⟨n, -, rfl⟩ := mem_map.mp hpost
        trivial

theorem windows_isEmpty_iff {w : ℤ × ℤ} {series : List (LabelSet × List (ℤ × F))} :
    (series.filterMap (windowOf w.1 w.2)).isEmpty = true ↔
      ∀ s ∈ series, pointsWithin w.1 w.2 s.2 = [] := by
  rw [List.isEmpty_iff, List.filterMap_eq_nil_iff]
  exact forall₂_congr fun s _ => sampled_eq_none

theorem find?_windowCall (pre : List F) (head : RangeHead) (e : Expr F) (post : List (Expr F)) :
    (pre.map number ++ .range head e :: post).find? isRange = some (.range head e) := by
  rw [find?_append]
  have hpre : (pre.map number).find? isRange = none := by
    rw [find?_eq_none]
    intro e he
    obtain ⟨n, -, rfl⟩ := mem_map.mp he
    exact Bool.false_ne_true
  rw [hpre]
  rfl

theorem gather_windows {w : ℤ × ℤ} {series : List (LabelSet × List (ℤ × F))}
    {f : List (ℤ × F) → Eval (Option F)} (hnil : f [] = .ok none) :
    gather (fun s : LabelSet × List (Sample F) =>
        f (s.2.map fun q => (q.timestampNs, q.value)) >>= fun v =>
          .ok (v.map fun v => (s.1, v)).toList) (series.filterMap (windowOf w.1 w.2)) =
      gatherTagged Prod.fst (fun s => f (pointsWithin w.1 w.2 s.2)) series := by
  rw [gather_of_filterMap]
  refine gather_congr fun s _ => ?_
  unfold windowOf
  dsimp only
  cases pointsWithin w.1 w.2 s.2 with
  | nil =>
    rw [hnil]
    rfl
  | cons q qs =>
    have hback :
        ((q :: qs).map fun q => Sample.mk q.1 q.2).map (fun q => (q.timestampNs, q.value)) =
        q :: qs := by
      rw [map_map]
      exact map_id _
    show f (((q :: qs).map fun q => Sample.mk q.1 q.2).map fun q => (q.timestampNs, q.value))
      >>= _ =
      _
    rw [hback]
    cases f (q :: qs) <;> rfl

theorem eval_windowCall (name : String) (pre : List F) (head : RangeHead) (sel : SelectorExpr)
    (post : List F) (ctx : EvalContext) :
    eval p build ev (windowCall name pre head sel post) ctx =
      window build head.rangeNs ctx >>= fun w =>
        if name = "absent_over_time" then
          .ok (absentSeries p (some (some sel)) ((ev.series sel).filterMap (windowOf w.1 w.2)))
        else
          gatherTagged Prod.fst (valueOver p build name
            (pre.map .number ++ .range head (.selector sel) :: post.map .number) ctx w)
            (ev.series sel) := by
  unfold windowCall
  generalize hargs : pre.map number ++ .range head (.selector sel) :: post.map .number = args
  have hfind : args.find? isRange = some (.range head (.selector sel)) :=
    hargs ▸ find?_windowCall pre head (.selector sel) (post.map .number)
  have hexprs : (args.map (asArg p build ev)).map Arg.expr = args := by
    rw [map_map]
    exact map_id args
  have hwindows : (asArg p build ev (.range head (.selector sel))).windows ctx =
      window build head.rangeNs ctx >>= fun w =>
        .ok ((ev.series sel).filterMap (windowOf w.1 w.2)) := by
    show evalRangeWindows build ev head (.selector sel) (eval p build ev (.selector sel)) ctx = _
    rw [evalRangeWindows_selector]
    simp only [selectorWindows_eq]
  rw [eval_rangeCall hfind, evalRangeFn_eq, hwindows, hexprs, bind_assoc]
  refine bind_congr_ok fun w _ => ?_
  rw [ok_bind]
  by_cases hname : name = "absent_over_time"
  · rw [if_pos hname, if_pos hname]
    rfl
  · rw [if_neg hname, if_neg hname]
    have hnil : applyRangeFn p build name [] args ctx = .ok none := if_pos rfl
    exact gather_windows (f := fun vals => applyRangeFn p build name vals args ctx) hnil

/-- **The law of the offset for a range function**: it holds if the windows at both times give
the function the same, and over series with distinct labels only then. -/
theorem windowCall_steady {name : String} {pre : List F} {post : List F} {ctx' : EvalContext}
    (h : Steady p build ev name (pre.map .number ++ .range head (.selector sel) :: post.map .number)
      head.rangeNs sel ctx ctx') :
    eval p build ev (windowCall name pre head sel post) ctx =
      eval p build ev (windowCall name pre head sel post) ctx' := by
  obtain ⟨w, w', hw, hw', h⟩ := h
  rw [eval_windowCall, eval_windowCall, hw, hw', ok_bind, ok_bind]
  split_ifs at h ⊢ with hname
  · unfold absentSeries
    rw [← windows_isEmpty_iff, ← windows_isEmpty_iff] at h
    simp only [h]
  · refine gather_congr fun s hs => ?_
    rw [h s hs]

theorem steady_of_windowCall {name : String} {pre : List F} {post : List F} {ctx' : EvalContext}
    {v : InstantVector F} (hlabels : ((ev.series sel).map Prod.fst).Nodup)
    (hv : eval p build ev (windowCall name pre head sel post) ctx = .ok v)
    (hv' : eval p build ev (windowCall name pre head sel post) ctx' = .ok v) :
    Steady p build ev name
      (pre.map .number ++ .range head (.selector sel) :: post.map .number) head.rangeNs sel
      ctx ctx' := by
  rw [eval_windowCall] at hv hv'
  obtain ⟨w, hw, hv⟩ := bind_eq_ok.mp hv
  obtain ⟨w', hw', hv'⟩ := bind_eq_ok.mp hv'
  refine ⟨w, w', hw, hw', ?_⟩
  split_ifs at hv hv' ⊢ with hname
  · have heq := (Except.ok.inj hv).trans (Except.ok.inj hv').symm
    rw [← windows_isEmpty_iff, ← windows_isEmpty_iff]
    unfold absentSeries at heq
    -- the one series of an empty window is not the empty vector of another
    split_ifs at heq with h h' h'
    · exact iff_of_true h h'
    · exact iff_of_false h h'
  · exact gatherTagged_inj hlabels hv hv'

end

/-! ## Instant selectors -/

section
variable {p : Platform F} {build : Build} {ev : Evaluator F}

theorem eval_offset_selector (hd : d ≠ 0) (sel : SelectorExpr) (ctx : EvalContext) :
    eval p build ev (offsetBy d (.selector sel)) ctx =
      invalid ("range vector cannot be used directly; wrap in a function like rate() or " ++
        "avg_over_time()") := by
  show eval p build ev (offsetSelector d sel) ctx = _
  rw [offsetSelector, if_pos hd]
  rfl

theorem offset_selector_iff : eval p build ev (offsetBy d (.selector sel)) ctx =
      eval p build ev (.selector sel) (ctx.back d) ↔ d = 0 := by
  constructor
  · intro h
    by_contra hd
    rw [eval_offset_selector hd] at h
    cases evalSelector_failsOnly sel _ _ h.symm
  · rintro rfl
    show eval p build ev (offsetSelector 0 sel) ctx = _
    rw [offsetSelector, if_neg (fun h => h rfl), EvalContext.back, sub_zero]

end

section
variable (build : Build)

/-- The evaluation of the expression comes to an instant selector: as an operand, or at the
first step of a subquery. -/
inductive Demands : Expr F → EvalContext → Prop
  | selector (sel : SelectorExpr) (ctx : EvalContext) : Demands (.selector sel) ctx
  | paren {inner : Expr F} {ctx : EvalContext} (h : Demands inner ctx) : Demands (.paren inner) ctx
  | aggregation (op : AggregationOp) (grouping : Grouping) (param : Option (Expr F)) {e : Expr F}
      {ctx : EvalContext} (h : Demands e ctx) : Demands (.aggregation op grouping param e) ctx
  | binaryLhs (b : BinaryHead) {lhs : Expr F} (rhs : Expr F) {ctx : EvalContext}
      (h : Demands lhs ctx) : Demands (.binary b lhs rhs) ctx
  | binaryRhs (b : BinaryHead) (lhs : Expr F) {rhs : Expr F} {ctx : EvalContext}
      (h : Demands rhs ctx) : Demands (.binary b lhs rhs) ctx
  | subquery (name : String) (pre : List F) (head : RangeHead) {e : Expr F}
      (post : List (Expr F)) {ctx : EvalContext} {w : ℤ × ℤ} {first : ℤ}
      (hsel : e.selector? = none) (hw : window build head.rangeNs ctx = .ok w)
      (hfirst : i64 build (w.1 + head.stepNs.getD 60000000000) = .ok first) (hle : first ≤ w.2)
      (h : Demands e { ctx with
        tsNs := first, subqueryStepNs := some (head.stepNs.getD 60000000000) }) :
      Demands (.call name (pre.map .number ++ .range head e :: post)) ctx

end

section
variable {p : Platform F} {build : Build} {ev : Evaluator F}

theorem subqueryWindows_error {inner : EvalContext → Eval (InstantVector F)}
    {step windowStart windowEnd first : ℤ} {e : Fault}
    (hfirst : i64 build (windowStart + step) = .ok first) (hle : first ≤ windowEnd)
    (h : inner { ctx with tsNs := first, subqueryStepNs := some step } = .error e) :
    subqueryWindows build inner ctx step windowStart windowEnd = .error e := by
  unfold subqueryWindows
  rw [hfirst, ok_bind]
  obtain ⟨turns, hturns⟩ : ∃ turns, maxTurns = turns + 1 :=
    Nat.exists_eq_succ_of_ne_zero (Nat.two_pow_pos 64).ne'
  rw [hturns, stepLoop, if_pos (decide_eq_true hle), h]
  rfl

/-- **An expression that comes to an instant selector fails with an offset.** -/
theorem eval_offsetBy_fails (hd : d ≠ 0) (h : Demands build e ctx) :
    ∃ fault, eval p build ev (offsetBy d e) ctx = .error fault := by
  induction h with
  | selector sel ctx => exact ⟨_, eval_offset_selector hd sel ctx⟩
  | paren h ih => exact ih
  | @aggregation op grouping param e ctx h ih =>
    obtain ⟨fault, hf⟩ := ih
    refine ⟨fault, ?_⟩
    show evalAggregation p op grouping _ (eval p build ev (offsetBy d e)) ctx = _
    unfold evalAggregation
    rw [hf]
    rfl
  | @binaryLhs b lhs rhs ctx h ih =>
    obtain ⟨fault, hf⟩ := ih
    refine ⟨fault, ?_⟩
    show (eval p build ev (offsetBy d lhs) ctx >>= _) = _
    rw [hf]
    rfl
  | @binaryRhs b lhs rhs ctx h ih =>
    obtain ⟨fault, hf⟩ := ih
    show ∃ fault, (eval p build ev (offsetBy d lhs) ctx >>= fun l =>
      eval p build ev (offsetBy d rhs) ctx >>= _) = .error fault
    rw [hf]
    cases eval p build ev (offsetBy d lhs) ctx with
    | error e => exact ⟨e, rfl⟩
    | ok l => exact ⟨fault, rfl⟩
  | @subquery name pre head e post ctx w first hsel hw hfirst hle h ih =>
    obtain ⟨fault, hf⟩ := ih
    refine ⟨fault, ?_⟩
    have hargs : offsetArgs d (pre.map .number ++ .range head e :: post) =
        pre.map .number ++ .range head (offsetBy d e) :: post.map (offsetBy d) := by
      have hrange : offsetBy d (.range head e) = .range head (offsetBy d e) := by
        rw [offsetBy, offsetHead, hsel]
        rfl
      rw [offsetArgs_eq, map_append, map_map, map_cons, hrange]
      rfl
    have hwindows : (asArg p build ev (.range head (offsetBy d e))).windows ctx = .error fault := by
      show evalRangeWindows build ev head (offsetBy d e) (eval p build ev (offsetBy d e)) ctx = _
      rw [evalRangeWindows_subquery (offsetBy_selector?_none hd e), hw, ok_bind]
      exact subqueryWindows_error hfirst hle hf
    show eval p build ev (.call name (offsetArgs d _)) ctx = _
    rw [hargs, eval_rangeCall (find?_windowCall pre head (offsetBy d e) _),
      evalRangeFn_eq, hwindows]
    rfl

/-- **When an offset is a shift of time.** With `d = 0` alone for an instant selector, wherever
the evaluation comes to it. For a range function if the windows that end at `t` and at `t - d`
give it the same, and over series with distinct labels only then; an expression with selectors in
brackets only does not see its offsets. -/
theorem offset_shift_iff (p : Platform F) (build : Build) (ev : Evaluator F) (d : ℤ)
    (ctx : EvalContext) :
    (∀ sel, eval p build ev (offsetBy d (.selector sel)) ctx =
        eval p build ev (.selector sel) (ctx.back d) ↔ d = 0) ∧
    (∀ name pre head sel post,
      let call := windowCall name pre head sel post
      let args := pre.map number ++ .range head (.selector sel) :: post.map .number
      let steady := Steady p build ev name args head.rangeNs sel ctx (ctx.back d)
      (steady →
        eval p build ev (offsetBy d call) ctx = eval p build ev call (ctx.back d)) ∧
      (((ev.series sel).map Prod.fst).Nodup →
        ∀ v, eval p build ev call (ctx.back d) = .ok v →
          eval p build ev (offsetBy d call) ctx = eval p build ev call (ctx.back d) → steady)) ∧
    (∀ e, Windowed e →
      (eval p build ev (offsetBy d e) ctx = eval p build ev e (ctx.back d) ↔
        eval p build ev e ctx = eval p build ev e (ctx.back d))) ∧
    (∀ e v, offsetBy 0 e = e → Demands build e ctx → eval p build ev e (ctx.back d) = .ok v →
      (eval p build ev (offsetBy d e) ctx = eval p build ev e (ctx.back d) ↔ d = 0)) := by
  have hunread (e : Expr F) (h : Windowed e) :
      eval p build ev (offsetBy d e) ctx = eval p build ev e ctx := (offsetArg_same d e ctx h).eval
  refine ⟨fun sel => offset_selector_iff, fun name pre head sel post => ?_, fun e h => ?_,
    fun e v he hdemands hv => ?_⟩
  · dsimp only
    rw [hunread _ (windowed_windowCall name pre head sel post)]
    refine ⟨windowCall_steady, fun hlabels v hv hlaw => ?_⟩
    exact steady_of_windowCall hlabels (hlaw.trans hv) hv
  · rw [hunread e h]
  · constructor
    · intro hlaw
      by_contra hd
      obtain ⟨fault, hf⟩ : ∃ fault, eval p build ev (offsetBy d e) ctx = .error fault :=
        eval_offsetBy_fails hd hdemands
      rw [hlaw, hv] at hf
      cases hf
    · rintro rfl
      rw [he, EvalContext.back, sub_zero]

end

def twoPoints : Evaluator (Option ℚ) :=
  ⟨[("x", [(.empty, [(0, some 1), (300000000000, some 2)])])], none, 300000000000⟩

def instantQuery (ev : Evaluator (Option ℚ)) (query : String) (t : ℤ) :
    Eval (InstantVector (Option ℚ)) := do
  eval exact .release ev (← parseExpr exact .release query) (stepContext t)

theorem offset_shift_present :
    let ctx := stepContext 300000000000
    let d := 300000000000
    let sel := SelectorExpr.mk (some "x") []
    let head := RangeHead.mk 60000000000 none 0
    let call : Expr (Option ℚ) := windowCall "present_over_time" [] head sel []
    let sum : Expr (Option ℚ) := .aggregation .sum .none none (.selector sel)
    Steady exact .release twoPoints "present_over_time" [.range head (.selector sel)] 60000000000
      sel ctx (ctx.back d) ∧
    eval exact .release twoPoints (offsetBy d call) ctx =
      eval exact .release twoPoints call (ctx.back d) ∧
    eval exact .release twoPoints call ctx = eval exact .release twoPoints call (ctx.back d) ∧
    ¬ eval exact .release twoPoints (offsetBy d sum) ctx =
      eval exact .release twoPoints sum (ctx.back d) := by
  intro ctx d sel head call sum
  obtain ⟨-, hcall, hwindowed, hdemands⟩ := offset_shift_iff exact .release twoPoints d ctx
  have hsteady : Steady exact .release twoPoints "present_over_time"
      [.range head (.selector sel)] 60000000000 sel ctx (ctx.back d) :=
    ⟨(240000000000, 300000000000), (-60000000000, 0), by decide, by decide, by decide +kernel⟩
  have hlaw := (hcall "present_over_time" [] head sel []).1 hsteady
  have hsame := (hwindowed call (windowed_windowCall _ _ _ _ _)).mp hlaw
  refine ⟨(hcall "present_over_time" [] head sel []).2 (by decide +kernel) [(.empty, some 1)]
    (by decide +kernel) hlaw, hlaw, hsame, fun h => ?_⟩
  have hd := (hdemands sum [(.empty, some 1)] rfl (.aggregation _ _ _ (.selector _ _))
    (by decide +kernel)).mp h
  exact absurd hd (by decide)

/-- An instant selector with an offset is refused, and the offset of a range is ignored. -/
theorem offset_not_a_shift :
    instantQuery twoPoints "x" 0 = .ok [(.empty, some 1)] ∧
    instantQuery twoPoints "x offset 5m" 300000000000 =
      invalid ("range vector cannot be used directly; wrap in a function like rate() or " ++
        "avg_over_time()") ∧
    instantQuery twoPoints "last_over_time(x[1m])" 0 = .ok [(.empty, some 1)] ∧
    instantQuery twoPoints "last_over_time(x[1m] offset 5m)" 300000000000 =
      .ok [(.empty, some 2)] := by
  decide +kernel

end Parqtel.Query
