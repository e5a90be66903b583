import Parqtel.Query.Failure

/-!
# Where an evaluation crashes

`Calls` are the evaluations that a node starts, each once those before it have returned;
`StepFails` is a crash in the node's own work. A node crashes if its own work does or an
evaluation it starts (`eval_eq_crash`), so that an expression crashes exactly if its evaluation
comes to a node whose own work does (`eval_crash_iff`).
-/

namespace Parqtel.Query

open Lib List Query.Expr Read

variable {F : Type}

section
variable (p : Platform F) (build : Build) (ev : Evaluator F)

def callReads (fn : Fn) (args : List (Expr F)) : List Read :=
  fn.reads args.length (nativeHistogram ev (args.map (asArg p build ev))).isSome

def ComesToRead (fn : Fn) (args : List (Expr F)) (ctx : EvalContext) (r : Read) : Prop :=
  ∃ before after, callReads p build ev fn args = before ++ r :: after ∧
    ∀ r' ∈ before, r'.run p (args.map (asArg p build ev)) ctx = .ok ()

/-- The evaluations that a node starts. -/
inductive Calls : Expr F → EvalContext → Expr F → EvalContext → Prop
  | paren (inner : Expr F) (ctx : EvalContext) : Calls (.paren inner) ctx inner ctx
  | lhs (b : BinaryHead) (lhs rhs : Expr F) (ctx : EvalContext) :
      Calls (.binary b lhs rhs) ctx lhs ctx
  | rhs (b : BinaryHead) {lhs : Expr F} (rhs : Expr F) {ctx : EvalContext} {l : InstantVector F}
      (hl : eval p build ev lhs ctx = .ok l) : Calls (.binary b lhs rhs) ctx rhs ctx
  | operand (op : AggregationOp) (grouping : Grouping) (param : Option (Expr F)) (e : Expr F)
      (ctx : EvalContext) : Calls (.aggregation op grouping param e) ctx e ctx
  | param {op : AggregationOp} (grouping : Grouping) {a e : Expr F} {ctx : EvalContext}
      {v : InstantVector F} (hv : eval p build ev e ctx = .ok v) (hfree : ctx.lockHeld = false)
      (hop : op.readsScalar = true) (ha : a.literal? = none) :
      Calls (.aggregation op grouping (some a) e) ctx a { ctx with lockHeld := true }
  | arg {name : String} {fn : Fn} {args : List (Expr F)} {ctx : EvalContext} {r : Read} {a : Expr F}
      (hrange : args.find? isRange = none) (hfn : Fn.ofName name = some fn)
      (hr : ComesToRead p build ev fn args ctx r) (ha : args[r.index]? = some a)
      (heval : r.evaluates a = true) : Calls (.call name args) ctx a ctx
  | step (name : String) {args : List (Expr F)} {head : RangeHead} {e : Expr F}
      {ctx : EvalContext} {w : ℤ × ℤ} {first t : ℤ} {n : ℕ}
      (hrange : args.find? isRange = some (.range head e)) (hsel : e.selector? = none)
      (hw : window build head.rangeNs ctx = .ok w)
      (hfirst : i64 build (w.1 + subStep head) = .ok first) (hn : n < maxTurns)
      (hreach : SubReaches p build ev e ctx (subStep head) w.2 first n t) (hle : t ≤ w.2) :
      Calls (.call name args) ctx e (ctx.atStep (subStep head) t)

/-- A node crashes in its own work. -/
inductive StepFails (fault : Fault) : Expr F → EvalContext → Prop
  | selector {sel : SelectorExpr} {ctx : EvalContext}
      (h : evalSelector build ev sel ctx = .error fault) : StepFails fault (.selector sel) ctx
  | locked (op : AggregationOp) (grouping : Grouping) (param : Option (Expr F)) {e : Expr F}
      {ctx : EvalContext} {v : InstantVector F} (hv : eval p build ev e ctx = .ok v)
      (hlock : ctx.lockHeld = true) (hfault : .hang = fault) :
      StepFails fault (.aggregation op grouping param e) ctx
  | aggregate {op : AggregationOp} (grouping : Grouping) {param : Option (Expr F)} {e : Expr F}
      {ctx : EvalContext} {v : InstantVector F} (hv : eval p build ev e ctx = .ok v)
      (hfree : ctx.lockHeld = false)
      (h : AggregateFails p fault (param.map (asArg p build ev)) ctx v op) :
      StepFails fault (.aggregation op grouping param e) ctx
  | missing {name : String} {fn : Fn} {args : List (Expr F)} {ctx : EvalContext} {r : Read}
      (hrange : args.find? isRange = none) (hfn : Fn.ofName name = some fn)
      (hr : ComesToRead p build ev fn args ctx r) (hout : args.length ≤ r.index)
      (hfault : .panic = fault) : StepFails fault (.call name args) ctx
  | function {name : String} {fn : Fn} {args : List (Expr F)} {ctx : EvalContext}
      (hrange : args.find? isRange = none) (hfn : Fn.ofName name = some fn)
      (h : FnFails p build ev fault (args.map (asArg p build ev)) ctx fn) :
      StepFails fault (.call name args) ctx
  | window (name : String) {args : List (Expr F)} {head : RangeHead} {e : Expr F}
      {ctx : EvalContext} (hrange : args.find? isRange = some (.range head e))
      (h : window build head.rangeNs ctx = .error fault) : StepFails fault (.call name args) ctx
  | firstStep (name : String) {args : List (Expr F)} {head : RangeHead} {e : Expr F}
      {ctx : EvalContext} {w : ℤ × ℤ} (hrange : args.find? isRange = some (.range head e))
      (hsel : e.selector? = none) (hw : window build head.rangeNs ctx = .ok w)
      (h : i64 build (w.1 + subStep head) = .error fault) : StepFails fault (.call name args) ctx
  | nextStep (name : String) {args : List (Expr F)} {head : RangeHead} {e : Expr F}
      {ctx : EvalContext} {w : ℤ × ℤ} {first t : ℤ} {n : ℕ} {v : InstantVector F}
      (hrange : args.find? isRange = some (.range head e)) (hsel : e.selector? = none)
      (hw : window build head.rangeNs ctx = .ok w)
      (hfirst : i64 build (w.1 + subStep head) = .ok first) (hn : n < maxTurns)
      (hreach : SubReaches p build ev e ctx (subStep head) w.2 first n t) (hle : t ≤ w.2)
      (hv : eval p build ev e (ctx.atStep (subStep head) t) = .ok v)
      (h : i64 build (t + subStep head) = .error fault) : StepFails fault (.call name args) ctx
  | endless (name : String) {args : List (Expr F)} {head : RangeHead} {e : Expr F}
      {ctx : EvalContext} {w : ℤ × ℤ} {first t : ℤ}
      (hrange : args.find? isRange = some (.range head e)) (hsel : e.selector? = none)
      (hw : window build head.rangeNs ctx = .ok w)
      (hfirst : i64 build (w.1 + subStep head) = .ok first)
      (hreach : SubReaches p build ev e ctx (subStep head) w.2 first maxTurns t)
      (hfault : .hang = fault) : StepFails fault (.call name args) ctx
  | rangeFn {name : String} {args : List (Expr F)} {range : Expr F} {ctx : EvalContext}
      {ws : RangeVector F} {w : LabelSet × List (Sample F)}
      (hrange : args.find? isRange = some range)
      (hws : evalWindows p build ev range ctx = .ok ws) (hname : name ≠ "absent_over_time")
      (hw : w ∈ ws)
      (h : applyRangeFn p build name (w.2.map fun s => (s.timestampNs, s.value)) args ctx =
        .error fault) : StepFails fault (.call name args) ctx

end

variable {ctx : EvalContext} {e : Expr F}

section
variable {p : Platform F} {build : Build} {ev : Evaluator F} {fault : Fault}

/-! ## One node -/

theorem readsFail_iff {args : List (Arg F)} {rs : List Read} : ReadsFail p fault args ctx rs ↔
      ∃ r, (∃ before after, rs = before ++ r :: after ∧ ∀ r' ∈ before, r'.run p args ctx = .ok ()) ∧
        r.run p args ctx = .error fault := by
  induction rs with
  | nil =>
    refine iff_of_false id ?_
    rintro ⟨r, ⟨before, after, h, -⟩, -⟩
    exact append_ne_nil_of_right_ne_nil before (cons_ne_nil r after) h.symm
  | cons r rs ih =>
    rw [ReadsFail, ih]
    constructor
    · rintro (h | ⟨hr, r', ⟨before, after, rfl, hbefore⟩, hr'⟩)
      · exact ⟨r, ⟨[], rs, rfl, by simp⟩, h⟩
      · exact ⟨r', ⟨r :: before, after, rfl, forall_mem_cons.mpr ⟨hr, hbefore⟩⟩, hr'⟩
    · rintro ⟨r', ⟨before, after, h, hbefore⟩, hr'⟩
      cases before with
      | nil =>
        cases h
        exact .inl hr'
      | cons r'' before =>
        cases h
        obtain ⟨hr, hbefore⟩ := forall_mem_cons.mp hbefore
        exact .inr ⟨hr, r', ⟨before, after, rfl, hbefore⟩, hr'⟩

theorem readFrom_eq_crash (hfault : fault.isCrash = true) {a : Arg F} {r : Read} :
    r.readFrom p a ctx = .error fault ↔ r.evaluates a.expr = true ∧ a.eval ctx = .error fault := by
  cases r with
  | vector i => simp only [readFrom, run_eq_error, evaluates, true_and]
  | scalar i =>
    simp only [readFrom, run_eq_error, evaluates, evalScalar_eq_error, Option.isNone_iff_eq_none]
  | str i =>
    simp only [readFrom, run_eq_error, evaluates, Bool.false_eq_true, false_and, iff_false]
    exact evalString_ne_crash hfault a

variable {args : List (Expr F)}

theorem run_eq_crash (hfault : fault.isCrash = true) {r : Read} :
    r.run p (args.map (asArg p build ev)) ctx = .error fault ↔
      args.length ≤ r.index ∧ .panic = fault ∨ ∃ a, args[r.index]? = some a ∧ r.evaluates a = true ∧
          eval p build ev a ctx = .error fault := by
  unfold run
  rw [argAt_map]
  cases ha : args[r.index]? with
  | none =>
    simp only [getElem?_eq_none_iff.mp ha, error_bind, Except.error.injEq, true_and,
      reduceCtorEq, false_and, exists_false, or_false]
  | some a =>
    have hlt := (List.getElem?_eq_some_iff.mp ha).1
    simp only [Nat.not_le.mpr hlt, ok_bind, readFrom_eq_crash hfault, Option.some.injEq, false_and,
      false_or, exists_eq_left']
    rfl

variable {name : String}

theorem applyFn_asArg_eq_crash (hfault : fault.isCrash = true) {fn : Fn} :
    applyFn p build ev fn name (args.map (asArg p build ev)) ctx = .error fault ↔
      (∃ r, ComesToRead p build ev fn args ctx r ∧ (args.length ≤ r.index ∧ .panic = fault ∨
          ∃ a, args[r.index]? = some a ∧ r.evaluates a = true ∧
            eval p build ev a ctx = .error fault)) ∨
        FnFails p build ev fault (args.map (asArg p build ev)) ctx fn := by
  rw [applyFn_eq_crash hfault, readsFail_iff, length_map]
  simp only [run_eq_crash hfault]
  rfl

theorem eval_fnCall (h : args.find? isRange = none) : eval p build ev (.call name args) ctx =
      match Fn.ofName name with
      | some f => applyFn p build ev f name (args.map (asArg p build ev)) ctx
      | none =>
        invalid s!"unknown function {p.debug name} (Phase 1A supports the documented subset)" := by
  rw [eval, argsOf_eq, evalCall, find?_map]
  have hcomp : ((fun a : Arg F => a.expr.isRange) ∘ asArg p build ev) = isRange := rfl
  rw [hcomp, h]
  rfl

theorem evalWindows_eq_error {head : RangeHead} :
    evalWindows p build ev (.range head e) ctx = .error fault ↔
      window build head.rangeNs ctx = .error fault ∨
        ∃ w, window build head.rangeNs ctx = .ok w ∧ e.selector? = none ∧
          subqueryWindows build (eval p build ev e) ctx (subStep head) w.1 w.2 = .error fault := by
  rw [evalWindows]
  cases hsel : e.selector? with
  | some sel =>
    rw [selector?_eq_some.mp hsel, evalRangeWindows_selector, bind_eq_error]
    refine or_congr_right (exists_congr fun w => and_congr_right fun _ => ?_)
    exact iff_of_false nofun nofun
  | none =>
    rw [evalRangeWindows_subquery hsel, bind_eq_error]
    simp only [true_and]
    rfl

theorem fnCall_eq_crash (hfault : fault.isCrash = true) (hrange : args.find? isRange = none) :
    eval p build ev (.call name args) ctx = .error fault ↔
      StepFails p build ev fault (.call name args) ctx ∨
        ∃ e' ctx', Calls p build ev (.call name args) ctx e' ctx' ∧
          eval p build ev e' ctx' = .error fault := by
  rw [eval_fnCall hrange]
  constructor
  · intro h
    cases hfn : Fn.ofName name with
    | none =>
      rw [hfn] at h
      exact absurd h (invalid_ne_crash hfault _)
    | some fn =>
      rw [hfn] at h
      rcases (applyFn_asArg_eq_crash hfault).mp h with ⟨r, hr, ⟨hout, hf⟩ | ⟨a, ha, heval, h⟩⟩ | h
      · exact .inl (.missing hrange hfn hr hout hf)
      · exact .inr ⟨a, ctx, .arg hrange hfn hr ha heval, h⟩
      · exact .inl (.function hrange hfn h)
  · have hsome {range : Expr F} (h : args.find? isRange = some range) : False := by
      rw [hrange] at h
      cases h
    rintro (h | ⟨e', ctx', h, he⟩)
    · cases h with
      | missing _ hfn hr hout hf =>
        rw [hfn]
        exact (applyFn_asArg_eq_crash hfault).mpr (.inl ⟨_, hr, .inl ⟨hout, hf⟩⟩)
      | function _ hfn h =>
        rw [hfn]
        exact (applyFn_asArg_eq_crash hfault).mpr (.inr h)
      | window _ h | firstStep _ h | nextStep _ h | endless _ h | rangeFn h => exact (hsome h).elim
    · cases h with
      | arg _ hfn hr ha heval =>
        rw [hfn]
        exact (applyFn_asArg_eq_crash hfault).mpr (.inl ⟨_, hr, .inr ⟨_, ha, heval, he⟩⟩)
      | step _ h => exact (hsome h).elim

theorem rangeCall_eq_crash (hfault : fault.isCrash = true) {head : RangeHead}
    (hrange : args.find? isRange = some (.range head e)) :
    eval p build ev (.call name args) ctx = .error fault ↔
      StepFails p build ev fault (.call name args) ctx ∨
        ∃ e' ctx', Calls p build ev (.call name args) ctx e' ctx' ∧
          eval p build ev e' ctx' = .error fault := by
  have hexprs : (args.map (asArg p build ev)).map Arg.expr = args := by
    rw [map_map]
    exact map_id args
  have hwindows : (asArg p build ev (.range head e)).windows ctx =
      evalWindows p build ev (.range head e) ctx := rfl
  rw [eval_rangeCall hrange, evalRangeFn_eq_crash hfault, hexprs, hwindows]
  constructor
  · rintro (h | ⟨ws, hws, hname, w, hw, h⟩)
    · rcases evalWindows_eq_error.mp h with h | ⟨w, hw, hsel, h⟩
      · exact .inl (.window name hrange h)
      · rcases subqueryWindows_eq_error.mp h with
          h | ⟨first, hfirst, ⟨n, t, hn, hreach, hle, h | ⟨⟨v, hv⟩, h⟩⟩ | ⟨hf, t, hreach⟩⟩
        · exact .inl (.firstStep name hrange hsel hw h)
        · exact .inr ⟨e, _, .step name hrange hsel hw hfirst hn hreach hle, h⟩
        · exact .inl (.nextStep name hrange hsel hw hfirst hn hreach hle hv h)
        · exact .inl (.endless name hrange hsel hw hfirst hreach hf)
    · exact .inl (.rangeFn hrange hws hname hw h)
  · have hinj {head' : RangeHead} {e' : Expr F}
        (h : args.find? isRange = some (.range head' e')) : head' = head ∧ e' = e := by
      rw [hrange] at h
      cases h
      exact ⟨rfl, rfl⟩
    have hnone (h : args.find? isRange = none) : False := by
      rw [hrange] at h
      cases h
    rintro (h | ⟨e', ctx', h, he⟩)
    · cases h with
      | missing h | function h => exact (hnone h).elim
      | window _ h hw =>
        obtain ⟨rfl, rfl⟩ := hinj h
        exact .inl (evalWindows_eq_error.mpr (.inl hw))
      | firstStep _ h hsel hw hf =>
        obtain ⟨rfl, rfl⟩ := hinj h
        exact .inl (evalWindows_eq_error.mpr
          (.inr ⟨_, hw, hsel, subqueryWindows_eq_error.mpr (.inl hf)⟩))
      | nextStep _ h hsel hw hfirst hn hreach hle hv hf =>
        obtain ⟨rfl, rfl⟩ := hinj h
        exact .inl (evalWindows_eq_error.mpr (.inr ⟨_, hw, hsel, subqueryWindows_eq_error.mpr
          (.inr ⟨_, hfirst, .inl ⟨_, _, hn, hreach, hle, .inr ⟨⟨_, hv⟩, hf⟩⟩⟩)⟩))
      | endless _ h hsel hw hfirst hreach hf =>
        obtain ⟨rfl, rfl⟩ := hinj h
        exact .inl (evalWindows_eq_error.mpr (.inr ⟨_, hw, hsel, subqueryWindows_eq_error.mpr
          (.inr ⟨_, hfirst, .inr ⟨hf, _, hreach⟩⟩)⟩))
      | rangeFn h hws hname hw hf =>
        rw [hrange] at h
        cases h
        exact .inr ⟨_, hws, hname, _, hw, hf⟩
    · cases h with
      | arg h => exact (hnone h).elim
      | step _ h hsel hw hfirst hn hreach hle =>
        obtain ⟨rfl, rfl⟩ := hinj h
        exact .inl (evalWindows_eq_error.mpr (.inr ⟨_, hw, hsel, subqueryWindows_eq_error.mpr
          (.inr ⟨_, hfirst, .inl ⟨_, _, hn, hreach, hle, .inl he⟩⟩)⟩))

/-- **A node crashes in its own work, or as an evaluation does that it starts.** -/
theorem eval_eq_crash (hfault : fault.isCrash = true) : eval p build ev e ctx = .error fault ↔
      StepFails p build ev fault e ctx ∨
        ∃ e' ctx', Calls p build ev e ctx e' ctx' ∧ eval p build ev e' ctx' = .error fault := by
  cases e with
  | selector sel =>
    refine ⟨fun h => .inl (.selector h), ?_⟩
    rintro (h | ⟨e', ctx', h, -⟩)
    · cases h with
      | selector h => exact h
    · cases h
  | number n =>
    refine iff_of_false nofun ?_
    rintro (h | ⟨e', ctx', h, -⟩) <;> cases h
  | str s =>
    refine iff_of_false (invalid_ne_crash hfault _) ?_
    rintro (h | ⟨e', ctx', h, -⟩) <;> cases h
  | range head e =>
    refine iff_of_false (invalid_ne_crash hfault _) ?_
    rintro (h | ⟨e', ctx', h, -⟩) <;> cases h
  | paren inner =>
    refine ⟨fun h => .inr ⟨inner, ctx, .paren inner ctx, h⟩, ?_⟩
    rintro (h | ⟨e', ctx', h, he⟩)
    · cases h
    · cases h
      exact he
  | binary b lhs rhs =>
    rw [eval, bind_eq_error]
    constructor
    · rintro (h | ⟨l, hl, h⟩)
      · exact .inr ⟨lhs, ctx, .lhs b lhs rhs ctx, h⟩
      · rcases bind_eq_error.mp h with h | ⟨r, -, h⟩
        · exact .inr ⟨rhs, ctx, .rhs b rhs hl, h⟩
        · exact absurd h (evalBinary_ne_crash hfault b lhs rhs l r)
    · rintro (h | ⟨e', ctx', h, he⟩)
      · cases h
      · cases h with
        | lhs => exact .inl he
        | rhs _ _ hl => exact .inr ⟨_, hl, bind_eq_error.mpr (.inl he)⟩
  | aggregation op grouping param e =>
    rw [eval, paramOf_eq, evalAggregation_eq_crash hfault]
    constructor
    · rintro (h | ⟨v, hv, ⟨hlock, rfl⟩ | ⟨hfree, ⟨hop, a, ha, hlit, h⟩ | h⟩⟩)
      · exact .inr ⟨e, ctx, .operand op grouping param e ctx, h⟩
      · exact .inl (.locked op grouping param hv hlock rfl)
      · obtain ⟨a', rfl, rfl⟩ := Option.map_eq_some_iff.mp ha
        exact .inr ⟨a', _, .param grouping hv hfree hop hlit, h⟩
      · exact .inl (.aggregate grouping hv hfree h)
    · rintro (h | ⟨e', ctx', h, he⟩)
      · cases h with
        | locked _ _ _ hv hlock hf => exact .inr ⟨_, hv, .inl ⟨hlock, hf⟩⟩
        | aggregate _ hv hfree h => exact .inr ⟨_, hv, .inr ⟨hfree, .inr h⟩⟩
      · cases h with
        | operand => exact .inl he
        | param _ hv hfree hop ha =>
          exact .inr ⟨_, hv, .inr ⟨hfree, .inl ⟨hop, asArg p build ev e', rfl, ha, he⟩⟩⟩
  | call name args =>
    cases hrange : args.find? isRange with
    | none => exact fnCall_eq_crash hfault hrange
    | some range =>
      cases range with
      | range head e => exact rangeCall_eq_crash hfault hrange
      | _ => cases find?_some hrange

end

/-! ## Whole evaluations -/

section
variable (p : Platform F) (build : Build) (ev : Evaluator F)

/-- The evaluations that an evaluation comes to, itself included. -/
inductive Comes : Expr F → EvalContext → Expr F → EvalContext → Prop
  | here (e : Expr F) (ctx : EvalContext) : Comes e ctx e ctx
  | call {e e' e'' : Expr F} {ctx ctx' ctx'' : EvalContext} :
      Calls p build ev e ctx e' ctx' → Comes e' ctx' e'' ctx'' → Comes e ctx e'' ctx''

variable {p build ev}

/-- A property of the evaluations that a node starts holds of all below, if it holds of the node's
parts. -/
theorem Calls.induct {motive : Expr F → Prop}
    (step : ∀ e, (∀ ctx e' ctx', Calls p build ev e ctx e' ctx' → motive e') → motive e)
    (e : Expr F) : motive e := by
  -- the range of a call is no evaluation of its own, but its expression is
  have hboth : motive e ∧ ∀ head inner, e = .range head inner → motive inner := by
    induction e using Expr.induct with
    | selector sel => exact ⟨step _ fun _ _ _ h => (nomatch h), nofun⟩
    | number n => exact ⟨step _ fun _ _ _ h => (nomatch h), nofun⟩
    | str s => exact ⟨step _ fun _ _ _ h => (nomatch h), nofun⟩
    | range head e ih =>
      refine ⟨step _ fun _ _ _ h => (nomatch h), fun _ _ h => ?_⟩
      cases h
      exact ih.1
    | paren inner ih =>
      refine ⟨step _ fun _ _ _ h => ?_, nofun⟩
      cases h
      exact ih.1
    | binary b lhs rhs ihl ihr =>
      refine ⟨step _ fun _ _ _ h => ?_, nofun⟩
      cases h with
      | lhs => exact ihl.1
      | rhs => exact ihr.1
    | aggregation op grouping param e ihp ihe =>
      refine ⟨step _ fun _ _ _ h => ?_, nofun⟩
      cases h with
      | operand => exact ihe.1
      | param => exact (ihp _ rfl).1
    | call name args ih =>
      refine ⟨step _ fun _ _ _ h => ?_, nofun⟩
      cases h with
      | arg _ _ _ ha => exact (ih _ (mem_of_getElem? ha)).1
      | step _ hrange => exact (ih _ (mem_of_find?_eq_some hrange)).2 _ _ rfl
  exact hboth.1

/-- **An evaluation crashes exactly if it comes to a node that does in its own work.** -/
theorem eval_crash_iff {fault : Fault} (hfault : fault.isCrash = true) :
    eval p build ev e ctx = .error fault ↔
      ∃ e' ctx', Comes p build ev e ctx e' ctx' ∧ StepFails p build ev fault e' ctx' := by
  constructor
  · refine @Calls.induct F p build ev (fun e => ∀ ctx, eval p build ev e ctx = .error fault →
      ∃ e' ctx', Comes p build ev e ctx e' ctx' ∧ StepFails p build ev fault e' ctx')
      (fun e ih ctx h => ?_) e ctx
    rcases (eval_eq_crash hfault).mp h with hfails | ⟨e', ctx', hcall, h⟩
    · exact ⟨e, ctx, .here e ctx, hfails⟩
    · obtain ⟨e'', ctx'', hcomes, hfails⟩ := ih ctx e' ctx' hcall ctx' h
      exact ⟨e'', ctx'', .call hcall hcomes, hfails⟩
  · rintro ⟨e', ctx', hcomes, hfails⟩
    induction hcomes with
    | here e ctx => exact (eval_eq_crash hfault).mpr (.inl hfails)
    | call hcall _ ih => exact (eval_eq_crash hfault).mpr (.inr ⟨_, _, hcall, ih hfails⟩)

end

end Parqtel.Query
