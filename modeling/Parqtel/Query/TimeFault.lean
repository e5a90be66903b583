import Parqtel.Query.Crash
import Parqtel.Query.Offset
import Parqtel.Query.ParserSpec

/-!
# Time arithmetic and loops

What an evaluation does with time: a selector subtracts the lookback, a window its range, a
subquery adds its step, and a range function takes the distance of samples. A debug build stops
where one of these leaves the range of `i64`. `TimeFault` lists the steps of an evaluation that
do, with those that never end: a subquery whose step is zero, and an aggregation that waits for a
lock which its own caller holds. These are all of them (`timeFault_iff`).
-/

namespace Parqtel.Query

open Lib List Option Query.Expr

variable {F : Type} {α : Type}

def pointsUpTo (time : α → ℤ) (t : ℤ) (points : List α) : List α :=
  points.take (partitionPoint (fun a => time a ≤ t) points)

/-- Reading the latest points leaves the range of `i64`: a series has one at or before the time,
and its age is compared with a time before the first. -/
def ReadOverflows (time : α → ℤ) (t lookbackNs : ℤ) (series : List (LabelSet × List α)) : Prop :=
  ¬ InI64 (t - max 0 lookbackNs) ∧ ∃ s ∈ series, pointsUpTo time t s.2 ≠ []

def firstTime (vals : List (ℤ × F)) : ℤ := (vals.head?.map Prod.fst).getD 0

def spanOf (vals : List (ℤ × F)) : ℤ := (vals.getLast?.map Prod.fst).getD 0 - firstTime vals

def distances (vals : List (ℤ × F)) : RangeFn → List ℤ
  | .rate | .increase | .deriv => [spanOf vals]
  | .irate =>
    match vals.reverse.take 2 with
    | [last, previous] => [last.1 - previous.1]
    | _ => []
  | .predictLinear => vals.map fun v => v.1 - firstTime vals
  | _ => []

section
variable (p : Platform F) (ev : Evaluator F)

def ReadsHistogram (args : List (Arg F)) (ctx : EvalContext) (sel : SelectorExpr) : Fn → Prop
  | .histogramQuantile =>
    nativeHistogram ev args = some sel ∧ ∃ q, scalarArg p args 0 ctx = .ok q
  | .histogramCount | .histogramSum | .histogramAvg | .histogramStddev | .histogramStdvar =>
    (args.head?.bind fun a => a.expr.selector?) = some sel
  | .histogramFraction =>
    (∃ lower, scalarArg p args 0 ctx = .ok lower) ∧ (∃ upper, scalarArg p args 1 ctx = .ok upper) ∧
      (args[2]?.bind fun a => a.expr.selector?) = some sel
  | _ => False

/-- A node whose time arithmetic leaves the range of `i64`, or that does not end. -/
inductive TimeFault : Expr F → EvalContext → Prop
  | selector {sel : SelectorExpr} {ctx : EvalContext}
      (h : ReadOverflows Prod.fst ctx.tsNs ev.lookbackNs (ev.series sel)) :
      TimeFault (.selector sel) ctx
  | histogram {name : String} {fn : Fn} {args : List (Expr F)} {ctx : EvalContext}
      {sel : SelectorExpr} (hrange : args.find? isRange = none)
      (hfn : Fn.ofName name = some fn)
      (hsel : ReadsHistogram p ev (args.map (asArg p .debug ev)) ctx sel fn)
      (h : ReadOverflows HistSample.timestampNs ctx.tsNs ev.lookbackNs (ev.histograms sel)) :
      TimeFault (.call name args) ctx
  | windowStart (name : String) {args : List (Expr F)} {head : RangeHead} {e : Expr F}
      {ctx : EvalContext} (hrange : args.find? isRange = some (.range head e))
      (h : ¬ InI64 (ctx.tsNs - head.rangeNs)) : TimeFault (.call name args) ctx
  | firstStep (name : String) {args : List (Expr F)} {head : RangeHead} {e : Expr F}
      {ctx : EvalContext} (hrange : args.find? isRange = some (.range head e))
      (hsel : e.selector? = none) (hin : InI64 (ctx.tsNs - head.rangeNs))
      (h : ¬ InI64 (ctx.tsNs - head.rangeNs + subStep head)) : TimeFault (.call name args) ctx
  | nextStep (name : String) {args : List (Expr F)} {head : RangeHead} {e : Expr F}
      {ctx : EvalContext} {t : ℤ} {n : ℕ} {v : InstantVector F}
      (hrange : args.find? isRange = some (.range head e)) (hsel : e.selector? = none)
      (hin : InI64 (ctx.tsNs - head.rangeNs))
      (hfirst : InI64 (ctx.tsNs - head.rangeNs + subStep head)) (hn : n < maxTurns)
      (hreach : SubReaches p .debug ev e ctx (subStep head) ctx.tsNs
        (ctx.tsNs - head.rangeNs + subStep head) n t) (hle : t ≤ ctx.tsNs)
      (hv : eval p .debug ev e (ctx.atStep (subStep head) t) = .ok v)
      (h : ¬ InI64 (t + subStep head)) : TimeFault (.call name args) ctx
  | endless (name : String) {args : List (Expr F)} {head : RangeHead} {e : Expr F}
      {ctx : EvalContext} {v : InstantVector F}
      (hrange : args.find? isRange = some (.range head e)) (hsel : e.selector? = none)
      (hin : InI64 (ctx.tsNs - head.rangeNs)) (hstep : subStep head = 0) (hle : 0 ≤ head.rangeNs)
      (hv : eval p .debug ev e (ctx.atStep 0 (ctx.tsNs - head.rangeNs)) = .ok v) :
      TimeFault (.call name args) ctx
  | distance {name : String} {args : List (Expr F)} {range : Expr F} {ctx : EvalContext}
      {ws : RangeVector F} {w : LabelSet × List (Sample F)} {f : RangeFn} {d : ℤ}
      (hrange : args.find? isRange = some range)
      (hws : evalWindows p .debug ev range ctx = .ok ws) (hw : w ∈ ws)
      (hf : RangeFn.ofName name = some f)
      (hd : d ∈ distances (w.2.map fun s => (s.timestampNs, s.value)) f) (h : ¬ InI64 d) :
      TimeFault (.call name args) ctx
  | locked (op : AggregationOp) (grouping : Grouping) (param : Option (Expr F)) {e : Expr F}
      {ctx : EvalContext} {v : InstantVector F} (hv : eval p .debug ev e ctx = .ok v)
      (hlock : ctx.lockHeld = true) : TimeFault (.aggregation op grouping param e) ctx

end

variable {t : ℤ} {e : Expr F}

section
variable {p : Platform F} {ev : Evaluator F} {ctx : EvalContext}

/-! ## Reading -/

theorem latestWithin_debug_eq_overflow {time : α → ℤ} {lookback : ℤ} {points : List α} :
    latestWithin .debug time t lookback points = .error .overflow ↔
      ¬ InI64 (t - lookback) ∧ pointsUpTo time t points ≠ [] := by
  unfold latestWithin pointsUpTo
  cases hlast : (points.take (partitionPoint (fun a => time a ≤ t) points)).getLast? with
  | none =>
    exact iff_of_false nofun fun h => h.2 (getLast?_eq_none_iff.mp hlast)
  | some a =>
    have hne : points.take (partitionPoint (fun a => time a ≤ t) points) ≠ [] := by
      intro h
      rw [h] at hlast
      cases hlast
    rw [bind_eq_error, i64_eq_error]
    constructor
    · rintro (⟨-, -, h⟩ | ⟨oldest, -, h⟩)
      · exact ⟨h, hne⟩
      · cases h
    · exact fun h => .inl ⟨rfl, rfl, h.1⟩

theorem gather_instantOf_eq_overflow {β : Type} {time : α → ℤ} {value : α → β} {lookbackNs : ℤ}
    {series : List (LabelSet × List α)} :
    gather (instantOf .debug time value t (max 0 lookbackNs)) series = .error .overflow ↔
      ReadOverflows time t lookbackNs series := by
  have hinstant (s : LabelSet × List α) :
      instantOf .debug time value t (max 0 lookbackNs) s = .error .overflow ↔
        ¬ InI64 (t - max 0 lookbackNs) ∧ pointsUpTo time t s.2 ≠ [] := by
    refine (bind_eq_error_left fun _ => ?_).trans latestWithin_debug_eq_overflow
    nofun
  have hfails (s : LabelSet × List α) :
      FailsOnly .overflow (instantOf .debug time value t (max 0 lookbackNs) s) :=
    (latestWithin_failsOnly _ _ _ _).bind fun _ => .ok _
  rw [gather_eq_error_iff fun s _ => hfails s]
  simp only [hinstant]
  constructor
  · rintro ⟨s, hs, hout, hsome⟩
    exact ⟨hout, s, hs, hsome⟩
  · rintro ⟨hout, s, hs, hsome⟩
    exact ⟨s, hs, hout, hsome⟩

theorem histSelectorWindows_debug_eq_overflow (h : ctx.Plain) {sel : SelectorExpr} :
    histSelectorWindows .debug ev sel ctx = .error .overflow ↔
      ReadOverflows HistSample.timestampNs ctx.tsNs ev.lookbackNs (ev.histograms sel) := by
  rw [histSelectorWindows_eq h, gather_instantOf_eq_overflow]

theorem fnFails_debug_overflow_iff (h : ctx.Plain) {args : List (Arg F)} {fn : Fn} :
    FnFails p .debug ev .overflow args ctx fn ↔ ∃ sel, ReadsHistogram p ev args ctx sel fn ∧
        ReadOverflows HistSample.timestampNs ctx.tsNs ev.lookbackNs (ev.histograms sel) := by
  cases fn with
  | histogramQuantile =>
    simp only [FnFails, ReadsHistogram, ← histSelectorWindows_debug_eq_overflow h]
    cases nativeHistogram ev args with
    | none => simp only [reduceCtorEq, false_and, exists_false]
    | some sel => simp only [Option.some.injEq, and_assoc, exists_eq_left']
  | histogramCount | histogramSum | histogramAvg | histogramStddev | histogramStdvar =>
    simp only [FnFails, ReadsHistogram, ← histSelectorWindows_debug_eq_overflow h]
  | histogramFraction =>
    simp only [FnFails, ReadsHistogram, ← histSelectorWindows_debug_eq_overflow h]
    constructor
    · rintro ⟨lower, upper, sel, hlower, hupper, hsel, hread⟩
      exact ⟨sel, ⟨⟨lower, hlower⟩, ⟨upper, hupper⟩, hsel⟩, hread⟩
    · rintro ⟨sel, ⟨⟨lower, hlower⟩, ⟨upper, hupper⟩, hsel⟩, hread⟩
      exact ⟨lower, upper, sel, hlower, hupper, hsel, hread⟩
  | _ => simp only [FnFails, ReadsHistogram, reduceCtorEq, false_and, exists_false]

/-! ## Distances -/

theorem i64_bind_eq_overflow {z : ℤ} {f : ℤ → Eval α} (hf : ∀ z, f z ≠ .error .overflow) :
    (i64 .debug z >>= f) = .error .overflow ↔ ¬ InI64 z := by
  rw [bind_eq_error, i64_eq_error]
  constructor
  · rintro (⟨-, -, h⟩ | ⟨a, -, h⟩)
    · exact h
    · exact absurd h (hf a)
  · exact fun h => .inl ⟨rfl, rfl, h⟩

theorem mapM_i64_eq_overflow {β : Type} {z : α → ℤ} {g : ℤ → β} {as : List α} :
    as.mapM (fun a => i64 .debug (z a) >>= fun d => (.ok (g d) : Eval β)) = .error .overflow ↔
      ∃ d ∈ as.map z, ¬ InI64 d := by
  induction as with
  | nil => exact iff_of_false nofun (by simp only [map_nil, not_mem_nil, false_and,
      exists_false, not_false_eq_true])
  | cons a as ih =>
    have hok (d : ℤ) : (.ok (g d) : Eval β) ≠ .error .overflow := nofun
    rw [mapM_cons, map_cons, exists_mem_cons_iff, ← ih, bind_eq_error, i64_bind_eq_overflow hok]
    constructor
    · rintro (h | ⟨b, -, h⟩)
      · exact .inl h
      · rcases bind_eq_error.mp h with h | ⟨bs, -, h⟩
        · exact .inr h
        · cases h
    · rintro (h | h)
      · exact .inl h
      · by_cases hin : InI64 (z a)
        · refine .inr ⟨g (z a), by rw [i64_of_in hin]; rfl, bind_eq_error.mpr (.inl h)⟩
        · exact .inl hin

theorem not_inI64_ne_zero {z : ℤ} (h : ¬ InI64 z) : z ≠ 0 := by
  rintro rfl
  exact h (by decide)

variable {vals : List (ℤ × F)}

theorem spanOf_of_short (h : vals.length < 2) : spanOf vals = 0 := by
  rcases vals with _ | ⟨v, _ | ⟨v', vals⟩⟩
  · rfl
  · exact sub_self _
  · simp only [length_cons] at h
    omega

theorem windowedRateVal_debug_eq_overflow :
    windowedRateVal p .debug vals = .error .overflow ↔ ¬ InI64 (spanOf vals) := by
  by_cases hlen : vals.length < 2
  · refine iff_of_false ?_ fun h => not_inI64_ne_zero h (spanOf_of_short hlen)
    unfold windowedRateVal rateOverSamples
    split
    · rw [if_pos hlen]
      nofun
    · nofun
  · rcases vals with _ | ⟨first, vals⟩
    · exact absurd Nat.two_pos hlen
    unfold windowedRateVal rateOverSamples spanOf firstTime
    simp only [head?_cons, map_some, getD_some, if_neg hlen]
    refine i64_bind_eq_overflow fun z => ?_
    split_ifs <;> nofun

theorem linearRegression_debug_eq_overflow : linearRegression p .debug vals = .error .overflow ↔
      ∃ d ∈ vals.map fun v => v.1 - firstTime vals, ¬ InI64 d := by
  unfold linearRegression
  rw [bind_eq_error]
  refine (or_congr_left mapM_i64_eq_overflow).trans ⟨?_, .inl⟩
  rintro (h | ⟨xs, hxs, h⟩)
  · exact h
  · dsimp only at h
    split_ifs at h with hdenom
    · cases h
    · -- the last sample is one of those whose distance has been taken
      have hspan : ¬ InI64 (spanOf vals) := by
        rcases bind_eq_error.mp h with h | ⟨z, -, h⟩
        · exact (i64_eq_error.mp h).2.2
        · cases h
      cases hlast : vals.getLast? with
      | none =>
        rw [getLast?_eq_none_iff.mp hlast] at hspan
        exact absurd rfl (not_inI64_ne_zero hspan)
      | some last =>
        refine ⟨_, mem_map_of_mem (mem_of_getLast? hlast), ?_⟩
        simpa only [spanOf, hlast, map_some, getD_some] using hspan

variable {args : List (Expr F)}

theorem rangeFnValue_debug_eq_overflow {f : RangeFn} :
    rangeFnValue p .debug f vals args ctx = .error .overflow ↔
      ∃ d ∈ distances vals f, ¬ InI64 d := by
  have hsingle {d : ℤ} : (∃ d' ∈ [d], ¬ InI64 d') ↔ ¬ InI64 d := by
    simp only [mem_singleton, exists_eq_left]
  have hnone : ¬ ∃ d ∈ ([] : List ℤ), ¬ InI64 d := by
    simp only [not_mem_nil, false_and, exists_false, not_false_eq_true]
  cases f with
  | rate =>
    rw [distances, hsingle, ← @windowedRateVal_debug_eq_overflow F p]
    unfold rangeFnValue
    exact bind_eq_error_left fun _ => nofun
  | increase =>
    rw [distances, hsingle]
    unfold rangeFnValue
    rw [bind_eq_error, windowedRateVal_debug_eq_overflow]
    refine ⟨?_, .inl⟩
    rintro (h | ⟨r, -, h⟩)
    · exact h
    · rcases bind_eq_error.mp h with h | ⟨z, -, h⟩
      · exact (i64_eq_error.mp h).2.2
      · cases h
  | deriv =>
    rw [distances, hsingle]
    by_cases hlen : vals.length < 2
    · refine iff_of_false ?_ fun h => not_inI64_ne_zero h (spanOf_of_short hlen)
      unfold rangeFnValue
      dsimp only
      split
      · rw [if_pos hlen]
        nofun
      · nofun
    · rcases vals with _ | ⟨first, vals⟩
      · exact absurd Nat.two_pos hlen
      unfold rangeFnValue spanOf firstTime
      simp only [head?_cons, map_some, getD_some, if_neg hlen]
      refine i64_bind_eq_overflow fun z => ?_
      split_ifs <;> nofun
  | irate =>
    unfold rangeFnValue distances
    dsimp only
    rcases vals.reverse.take 2 with _ | ⟨last, _ | ⟨previous, _ | ⟨third, rest⟩⟩⟩
    · exact iff_of_false nofun hnone
    · exact iff_of_false nofun hnone
    · rw [hsingle]
      refine i64_bind_eq_overflow fun z => ?_
      split_ifs <;> nofun
    · exact iff_of_false nofun hnone
  | predictLinear =>
    unfold rangeFnValue
    split_ifs with hlen
    · refine iff_of_false nofun ?_
      rcases vals with _ | ⟨v, _ | ⟨v', vals⟩⟩
      · exact hnone
      · exact fun h => not_inI64_ne_zero (hsingle.mp h) (sub_self v.1)
      · exact absurd (Nat.le_add_left 2 vals.length) (Nat.not_le.mpr hlen)
    · refine (bind_eq_error_left fun _ => ?_).trans linearRegression_debug_eq_overflow
      nofun
  | quantileOverTime | madOverTime =>
    refine iff_of_false (fun h => ?_) hnone
    cases rangeFnValue_failsOnly _ _ _ _ _ h
  | _ =>
    refine iff_of_false ?_ hnone
    unfold rangeFnValue
    dsimp only
    repeat' split
    all_goals nofun

theorem applyRangeFn_debug_eq_overflow {name : String} :
    applyRangeFn p .debug name vals args ctx = .error .overflow ↔
      ∃ f, RangeFn.ofName name = some f ∧ ∃ d ∈ distances vals f, ¬ InI64 d := by
  have hvalue {f : RangeFn} : (rangeFnValue p .debug f vals args ctx >>= fun result =>
      (.ok (result.filter fun v => !p.isNan v) : Eval (Option F))) = .error .overflow ↔
        ∃ d ∈ distances vals f, ¬ InI64 d := by
    refine (bind_eq_error_left fun _ => ?_).trans rangeFnValue_debug_eq_overflow
    nofun
  unfold applyRangeFn
  split_ifs with hnil
  · subst hnil
    refine iff_of_false nofun ?_
    rintro ⟨f, -, d, hd, hout⟩
    refine not_inI64_ne_zero hout ?_
    cases f <;> first | exact mem_singleton.mp hd | exact absurd hd not_mem_nil
  · cases RangeFn.ofName name with
    | none =>
      refine iff_of_false (invalid_ne_crash rfl _) ?_
      rintro ⟨f, hf, -⟩
      cases hf
    | some f =>
      simp only [Option.some.injEq, exists_eq_left']
      exact hvalue

theorem applyRangeFn_ne_hang {name : String} :
    applyRangeFn p .debug name vals args ctx ≠ .error .hang := by
  unfold applyRangeFn
  split_ifs
  · nofun
  · split
    · exact invalid_ne_crash rfl _
    · intro h
      rcases bind_eq_error.mp h with h | ⟨v, -, h⟩
      · have hfault := rangeFnValue_failsOnly _ _ _ _ _ h
        unfold RangeFn.fault at hfault
        split at hfault <;> cases hfault
      · cases h

/-! ## Windows and steps -/

theorem window_debug_eq_ok (h : ctx.Plain) {rangeNs : ℤ} {w : ℤ × ℤ} :
    window .debug rangeNs ctx = .ok w ↔
      InI64 (ctx.tsNs - rangeNs) ∧ w = (ctx.tsNs - rangeNs, ctx.tsNs) := by
  unfold window
  rw [h.shifted, ok_bind]
  constructor
  · intro hw
    obtain ⟨windowStart, hstart, hw⟩ := bind_eq_ok.mp hw
    obtain ⟨rfl, hin⟩ := i64_debug_eq_ok.mp hstart
    exact ⟨hin, (Except.ok.inj hw).symm⟩
  · rintro ⟨hin, rfl⟩
    rw [i64_of_in hin]
    rfl

theorem window_debug_eq_overflow (h : ctx.Plain) {rangeNs : ℤ} :
    window .debug rangeNs ctx = .error .overflow ↔ ¬ InI64 (ctx.tsNs - rangeNs) := by
  unfold window
  rw [h.shifted, ok_bind]
  exact i64_bind_eq_overflow fun _ => nofun

theorem subReaches_debug {step windowEnd first : ℤ} {n : ℕ} (hfirst : InI64 first)
    (h : SubReaches p .debug ev e ctx step windowEnd first n t) :
    t = first + n * step ∧ InI64 t :=
  ⟨h.eq_add fun _ _ hnext => (i64_debug_eq_ok.mp hnext).1,
    h.of_next hfirst fun _ _ hnext => i64_inI64 hnext⟩

/-- A counter that moves stays in the range of `i64` for fewer than `2 ^ 64` turns. -/
theorem step_eq_zero_of_maxTurns {first step : ℤ} (hfirst : InI64 first) (ht : InI64 t)
    (h : t = first + (maxTurns : ℕ) * step) : step = 0 := by
  unfold InI64 at hfirst ht
  unfold maxTurns at h
  omega

theorem maxTurns_pos : 0 < maxTurns := Nat.two_pow_pos 64

theorem fnFails_ne_hang {args : List (Arg F)} {fn : Fn} :
    ¬ FnFails p .debug ev .hang args ctx fn := by
  have hhist {sel : SelectorExpr} : histSelectorWindows .debug ev sel ctx ≠ .error .hang :=
    fun h => nomatch histSelectorWindows_failsOnly sel ctx _ h
  cases fn with
  | histogramQuantile =>
    simp only [FnFails]
    cases nativeHistogram ev args with
    | none => simp only [reduceCtorEq, false_and, not_false_eq_true]
    | some sel => simp only [hhist, and_false, not_false_eq_true]
  | _ => simp only [FnFails, hhist, reduceCtorEq, false_and, and_false, exists_false,
      not_false_eq_true]

theorem aggregateFails_panic {fault : Fault} {param : Option (Arg F)} {v : InstantVector F}
    {op : AggregationOp} (h : AggregateFails p fault param ctx v op) : fault = .panic := by
  cases op with
  | topK | bottomK | quantile => exact h.1
  | _ => cases h

/-- A subquery whose step is zero stays at the start of its window. -/
theorem stepFails_hang (hplain : ctx.Plain) (name : String) {head : RangeHead} {v : InstantVector F}
    (hrange : args.find? isRange = some (.range head e)) (hsel : e.selector? = none)
    (hin : InI64 (ctx.tsNs - head.rangeNs)) (hstep : subStep head = 0) (hle : 0 ≤ head.rangeNs)
    (hv : eval p .debug ev e (ctx.atStep 0 (ctx.tsNs - head.rangeNs)) = .ok v) :
    StepFails p .debug ev .hang (.call name args) ctx := by
  have hsame : i64 .debug (ctx.tsNs - head.rangeNs + 0) = .ok (ctx.tsNs - head.rangeNs) := by
    rw [add_zero, i64_of_in hin]
  have hturns : SubReaches p .debug ev e ctx 0 ctx.tsNs (ctx.tsNs - head.rangeNs) maxTurns
      (ctx.tsNs - head.rangeNs) :=
    Reaches.repeat (decide_eq_true (by omega)) hv hsame maxTurns
  rw [← hstep] at hsame hturns
  exact .endless name hrange hsel ((window_debug_eq_ok hplain).mpr ⟨hin, rfl⟩) hsame hturns rfl

/-- **The time faults are the steps that overflow or do not end.** -/
theorem timeFault_iff (hplain : ctx.Plain) :
    StepFails p .debug ev .overflow e ctx ∨ StepFails p .debug ev .hang e ctx ↔
      TimeFault p ev e ctx := by
  constructor
  · rintro (h | h)
    · cases h with
      | selector h =>
        rw [evalSelector_eq hplain] at h
        exact .selector (gather_instantOf_eq_overflow.mp h)
      | aggregate _ _ _ h => cases aggregateFails_panic h
      | locked _ _ _ _ _ h => cases h
      | missing _ _ _ _ h => cases h
      | endless _ _ _ _ _ _ h => cases h
      | function hrange hfn h =>
        obtain ⟨sel, hsel, h⟩ := (fnFails_debug_overflow_iff hplain).mp h
        exact .histogram hrange hfn hsel h
      | window name hrange h =>
        exact .windowStart name hrange ((window_debug_eq_overflow hplain).mp h)
      | firstStep name hrange hsel hw h =>
        obtain ⟨hin, rfl⟩ := (window_debug_eq_ok hplain).mp hw
        exact .firstStep name hrange hsel hin (i64_eq_error.mp h).2.2
      | nextStep name hrange hsel hw hfirst hn hreach hle hv h =>
        obtain ⟨hin, rfl⟩ := (window_debug_eq_ok hplain).mp hw
        obtain ⟨rfl, hfirst'⟩ := i64_debug_eq_ok.mp hfirst
        exact .nextStep name hrange hsel hin hfirst' hn hreach hle hv (i64_eq_error.mp h).2.2
      | rangeFn hrange hws hname hw h =>
        obtain ⟨f, hf, d, hd, hout⟩ := applyRangeFn_debug_eq_overflow.mp h
        exact .distance hrange hws hw hf hd hout
    · cases h with
      | selector h => cases evalSelector_failsOnly _ _ _ h
      | aggregate _ _ _ h => cases aggregateFails_panic h
      | locked op grouping param hv hlock _ => exact .locked op grouping param hv hlock
      | missing _ _ _ _ h => cases h
      | function _ _ h => exact absurd h fnFails_ne_hang
      | window _ _ h => cases window_failsOnly _ _ _ h
      | firstStep _ _ _ _ h => cases (i64_eq_error.mp h).1
      | nextStep _ _ _ _ _ _ _ _ _ h => cases (i64_eq_error.mp h).1
      | rangeFn _ _ _ _ h => exact absurd h applyRangeFn_ne_hang
      | endless name hrange hsel hw hfirst hreach _ =>
        obtain ⟨hin, rfl⟩ := (window_debug_eq_ok hplain).mp hw
        obtain ⟨rfl, hfirst'⟩ := i64_debug_eq_ok.mp hfirst
        obtain ⟨ht, htin⟩ := subReaches_debug hfirst' hreach
        have hstep := step_eq_zero_of_maxTurns hfirst' htin ht
        obtain ⟨hle, v, hv⟩ := hreach.first_turn maxTurns_pos
        rw [hstep, add_zero] at hle hv
        have hle := of_decide_eq_true hle
        exact .endless name hrange hsel hin hstep (by omega) hv
  · intro h
    cases h with
    | selector h =>
      refine .inl (.selector ?_)
      rw [evalSelector_eq hplain]
      exact gather_instantOf_eq_overflow.mpr h
    | histogram hrange hfn hsel h =>
      exact .inl (.function hrange hfn ((fnFails_debug_overflow_iff hplain).mpr ⟨_, hsel, h⟩))
    | windowStart name hrange h =>
      exact .inl (.window name hrange ((window_debug_eq_overflow hplain).mpr h))
    | firstStep name hrange hsel hin h =>
      exact .inl (.firstStep name hrange hsel ((window_debug_eq_ok hplain).mpr ⟨hin, rfl⟩)
        (i64_debug_of_not h))
    | nextStep name hrange hsel hin hfirst hn hreach hle hv h =>
      exact .inl (.nextStep name hrange hsel ((window_debug_eq_ok hplain).mpr ⟨hin, rfl⟩)
        (i64_of_in hfirst) hn hreach hle hv (i64_debug_of_not h))
    | distance hrange hws hw hf hd h =>
      refine .inl (.rangeFn hrange hws ?_ hw
        (applyRangeFn_debug_eq_overflow.mpr ⟨_, hf, _, hd, h⟩))
      rintro rfl
      cases hf
    | locked op grouping param hv hlock => exact .inr (.locked op grouping param hv hlock rfl)
    | endless name hrange hsel hin hstep hle hv =>
      exact .inr (stepFails_hang hplain name hrange hsel hin hstep hle hv)

/-! ## Whole queries -/

theorem Calls.plain {build : Build} {e' : Expr F} {ctx' : EvalContext}
    (h : Calls p build ev e ctx e' ctx') (hplain : ctx.Plain) : ctx'.Plain := by
  cases h with
  | step name hrange hsel hw hfirst hn hreach hle =>
    exact ⟨hplain.range, hplain.offset,
      hreach.of_next (i64_inI64 hfirst) fun _ _ hnext => i64_inI64 hnext⟩
  | param => exact ⟨hplain.range, hplain.offset, hplain.time⟩
  | _ => exact hplain

theorem Comes.plain {build : Build} {e' : Expr F} {ctx' : EvalContext}
    (h : Comes p build ev e ctx e' ctx') (hplain : ctx.Plain) : ctx'.Plain := by
  induction h with
  | here => exact hplain
  | call hcall _ ih => exact ih (hcall.plain hplain)

theorem eval_time_iff (hplain : ctx.Plain) :
    (eval p .debug ev e ctx = .error .overflow ∨ eval p .debug ev e ctx = .error .hang) ↔
      ∃ e' ctx', Comes p .debug ev e ctx e' ctx' ∧ TimeFault p ev e' ctx' := by
  rw [eval_crash_iff rfl, eval_crash_iff rfl]
  constructor
  · rintro (⟨e', ctx', hcomes, h⟩ | ⟨e', ctx', hcomes, h⟩)
    · exact ⟨e', ctx', hcomes, (timeFault_iff (hcomes.plain hplain)).mp (.inl h)⟩
    · exact ⟨e', ctx', hcomes, (timeFault_iff (hcomes.plain hplain)).mp (.inr h)⟩
  · rintro ⟨e', ctx', hcomes, h⟩
    rcases (timeFault_iff (hcomes.plain hplain)).mpr h with h | h
    · exact .inl ⟨e', ctx', hcomes, h⟩
    · exact .inr ⟨e', ctx', hcomes, h⟩

end

section
variable (p : Platform F) (build : Build) (ev : Evaluator F)

def StepReaches (e : Expr F) (endNs stepNs : ℤ) : ℤ → ℕ → ℤ → Prop :=
  Reaches (fun t => t < endNs) (fun t => i64 build (t + stepNs))
    fun t => eval p build ev e (stepContext t)

end

section
variable {p : Platform F} {build : Build} {ev : Evaluator F} {e : Expr F}
variable {startNs endNs stepNs : ℤ}

theorem evalSteps_eq_error {fault : Fault} :
    evalSteps p build ev e startNs endNs stepNs = .error fault ↔
      (∃ n t, n < maxTurns ∧ StepReaches p build ev e endNs stepNs startNs n t ∧ t < endNs ∧
        (eval p build ev e (stepContext t) = .error fault ∨
          (∃ v, eval p build ev e (stepContext t) = .ok v) ∧
            i64 build (t + stepNs) = .error fault)) ∨
      (.hang = fault ∧ ∃ t, StepReaches p build ev e endNs stepNs startNs maxTurns t) := by
  refine stepLoop_eq_error.trans ?_
  unfold TurnFails
  simp only [decide_eq_true_eq]
  rfl

theorem StepReaches.turn_lt (hstep : 0 < stepNs) {n : ℕ}
    (h : StepReaches p .debug ev e endNs stepNs startNs n t) (hlt : t < endNs) :
    n < ⌈((endNs - startNs : ℤ) : ℚ) / stepNs⌉₊ := by
  have ht : t = startNs + n * stepNs := h.eq_add fun _ _ hnext => (i64_debug_eq_ok.mp hnext).1
  rw [Nat.lt_ceil, lt_div_iff₀ (Int.cast_pos.mpr hstep)]
  have hlt' : (n : ℤ) * stepNs < endNs - startNs := by omega
  exact_mod_cast hlt'

/-- **Where the steps of a query overflow or do not end.** -/
theorem evalSteps_time_iff (hstart : InI64 startNs) (hstep : 0 < stepNs) :
    (evalSteps p .debug ev e startNs endNs stepNs = .error .overflow ∨
        evalSteps p .debug ev e startNs endNs stepNs = .error .hang) ↔
      ∃ n t, StepReaches p .debug ev e endNs stepNs startNs n t ∧ t < endNs ∧
        ((∃ e' ctx', Comes p .debug ev e (stepContext t) e' ctx' ∧ TimeFault p ev e' ctx') ∨
          (∃ v, eval p .debug ev e (stepContext t) = .ok v) ∧ ¬ InI64 (t + stepNs)) := by
  have hreach {n : ℕ} {t : ℤ} (h : StepReaches p .debug ev e endNs stepNs startNs n t) :
      t = startNs + n * stepNs ∧ InI64 t :=
    ⟨h.eq_add fun _ _ hnext => (i64_debug_eq_ok.mp hnext).1,
      h.of_next hstart fun _ _ hnext => i64_inI64 hnext⟩
  have hturn {n : ℕ} {t : ℤ} (h : StepReaches p .debug ev e endNs stepNs startNs n t) :
      n < maxTurns := by
    obtain ⟨ht, hin⟩ := hreach h
    have hle : (n : ℤ) ≤ n * stepNs := le_mul_of_one_le_right (Int.natCast_nonneg n) hstep
    unfold InI64 at hstart hin
    unfold maxTurns
    omega
  rw [evalSteps_eq_error, evalSteps_eq_error]
  constructor
  · rintro ((⟨n, t, -, h, hlt, heval | ⟨hv, hnext⟩⟩ | ⟨hhang, -⟩) |
      (⟨n, t, -, h, hlt, heval | ⟨hv, hnext⟩⟩ | ⟨-, t, h⟩))
    · exact ⟨n, t, h, hlt, .inl ((eval_time_iff (stepContext_plain (hreach h).2)).mp (.inl heval))⟩
    · exact ⟨n, t, h, hlt, .inr ⟨hv, (i64_eq_error.mp hnext).2.2⟩⟩
    · cases hhang
    · exact ⟨n, t, h, hlt, .inl ((eval_time_iff (stepContext_plain (hreach h).2)).mp (.inr heval))⟩
    · cases (i64_eq_error.mp hnext).1
    · exact absurd (hturn h) (Nat.lt_irrefl _)
  · rintro ⟨n, t, h, hlt, hfault | ⟨hv, hout⟩⟩
    · rcases (eval_time_iff (stepContext_plain (hreach h).2)).mpr hfault with heval | heval
      · exact .inl (.inl ⟨n, t, hturn h, h, hlt, .inl heval⟩)
      · exact .inr (.inl ⟨n, t, hturn h, h, hlt, .inl heval⟩)
    · exact .inl (.inl ⟨n, t, hturn h, h, hlt, .inr ⟨hv, i64_debug_of_not hout⟩⟩)

/-- **Time in a query.** The parser ends, and a text that it does not refuse overflows exactly if
a number of seconds behind `offset` does not fit. A query takes no more steps than its window has,
and it overflows or hangs exactly if a step comes to a time fault or is followed by none that an
`i64` holds. -/
theorem query_time_iff (p : Platform F) (ev : Evaluator F) (query : String)
    {startNs endNs stepNs : ℤ} (hstart : InI64 startNs) (hstep : 0 < stepNs) :
    parseExpr p .debug query ≠ .error .hang ∧
    (parseExpr p .debug query = .error .overflow → ¬ OffsetsFit p query) ∧
    ∀ e, parseExpr p .debug query = .ok e → OffsetsFit p query ∧
      (∀ n t, StepReaches p .debug ev e endNs stepNs startNs n t → t < endNs →
        n < ⌈((endNs - startNs : ℤ) : ℚ) / stepNs⌉₊) ∧
      ((evalSteps p .debug ev e startNs endNs stepNs ≠ .error .overflow ∧
          evalSteps p .debug ev e startNs endNs stepNs ≠ .error .hang) ↔
        ∀ n t, StepReaches p .debug ev e endNs stepNs startNs n t → t < endNs →
          (∀ e' ctx', Comes p .debug ev e (stepContext t) e' ctx' → ¬ TimeFault p ev e' ctx') ∧
            ((∃ v, eval p .debug ev e (stepContext t) = .ok v) → InI64 (t + stepNs))) := by
  obtain ⟨haccept, hhang, hoverflow⟩ := @parseExpr_spec F p .debug query
  refine ⟨hhang, hoverflow, fun e he => ⟨(haccept e he).2 rfl,
    fun n t h hlt => h.turn_lt hstep hlt, ?_⟩⟩
  rw [ne_eq, ne_eq, ← not_or, evalSteps_time_iff hstart hstep]
  constructor
  · intro h n t hreach hlt
    refine ⟨fun e' ctx' hcomes hfault => ?_, fun hv => ?_⟩
    · exact h ⟨n, t, hreach, hlt, .inl ⟨e', ctx', hcomes, hfault⟩⟩
    · by_contra hout
      exact h ⟨n, t, hreach, hlt, .inr ⟨hv, hout⟩⟩
  · rintro h ⟨n, t, hreach, hlt, ⟨e', ctx', hcomes, hfault⟩ | ⟨hv, hout⟩⟩
    · exact (h n t hreach hlt).1 e' ctx' hcomes hfault
    · exact hout ((h n t hreach hlt).2 hv)

end

theorem query_time_two_steps :
    ∃ e, parseExpr exact .debug "sum_over_time(x[5m] offset 5)" = .ok e ∧
      OffsetsFit exact "sum_over_time(x[5m] offset 5)" ∧
      ∀ n t, StepReaches exact .debug twoPoints e 120000000000 60000000000 0 n t →
        t < 120000000000 → n < ⌈((120000000000 - 0 : ℤ) : ℚ) / (60000000000 : ℤ)⌉₊ ∧
          ∀ e' ctx', Comes exact .debug twoPoints e (stepContext t) e' ctx' →
            ¬ TimeFault exact twoPoints e' ctx' := by
  have hquery : (do
      let e ← parseExpr exact .debug "sum_over_time(x[5m] offset 5)"
      discard (eval exact .debug twoPoints e (stepContext 0))
      discard (eval exact .debug twoPoints e (stepContext 60000000000))) = .ok () := by
    decide +kernel
  obtain ⟨e, he, hquery⟩ := bind_eq_ok.mp hquery
  obtain ⟨_, hfirst, hsecond⟩ := bind_eq_ok.mp hquery
  obtain ⟨a, ha, -⟩ := bind_eq_ok.mp hfirst
  obtain ⟨b, hb, -⟩ := bind_eq_ok.mp hsecond
  have hsteps : evalSteps exact .debug twoPoints e 0 120000000000 60000000000 =
      .ok [(0, a), (60000000000, b)] := by
    have hthree : 3 ≤ maxTurns := by
      unfold maxTurns
      omega
    obtain ⟨turns, hturns⟩ := Nat.exists_eq_add_of_le' hthree
    rw [evalSteps, hturns]
    simp [stepLoop, ok_bind, ha, hb, i64, InI64]
  have h := @query_time_iff _ exact twoPoints "sum_over_time(x[5m] offset 5)" 0 120000000000
    60000000000 (by decide) (by decide)
  obtain ⟨hfit, hturns, hiff⟩ := h.2.2 e he
  refine ⟨e, he, hfit, fun n t hreach hlt => ⟨hturns n t hreach hlt, ?_⟩⟩
  exact (hiff.mp ⟨by rw [hsteps]; rintro ⟨⟩, by rw [hsteps]; rintro ⟨⟩⟩ n t hreach hlt).1

def Expr.zeroStep : Expr F → Bool
  | .call _ [.range head (.number _)] => head.rangeNs = 300000000000 ∧ head.stepNs = some 0
  | _ => false

theorem eval_zeroStep {p : Platform F} {ev : Evaluator F} (h : e.zeroStep = true) :
    eval p .debug ev e (stepContext 0) = .error .hang := by
  unfold zeroStep at h
  split at h
  · rename_i name head n
    have h := of_decide_eq_true h
    refine (eval_crash_iff rfl).mpr ⟨_, _, .here _ _, ?_⟩
    refine stepFails_hang (stepContext_plain (by decide)) name rfl rfl ?_ ?_ ?_ rfl
    · rw [h.1]
      decide
    · rw [subStep, h.2]
      rfl
    · rw [h.1]
      decide
  · cases h

/-- Queries whose time arithmetic overflows or that do not end: an offset of too many seconds, a
step of zero, and a step that leads out of the range of `i64`. -/
theorem queries_overflow_or_hang :
    parseExpr exact .debug "x offset 10000000000" = .error .overflow ∧
    (∃ e, parseExpr exact .debug "count_over_time(1[5m:0s])" = .ok e ∧
      evalSteps exact .debug twoPoints e 0 60000000000 60000000000 = .error .hang) ∧
    ∃ e, parseExpr exact .debug "1" = .ok e ∧
      evalSteps exact .debug twoPoints e 1 2 9223372036854775807 = .error .overflow := by
  refine ⟨?_, ?_, ?_⟩
  · have h : (parseExpr exact .debug "x offset 10000000000" >>= fun _ => (.ok () : Eval Unit)) =
        .error .overflow := by decide +kernel
    rcases bind_eq_error.mp h with h | ⟨e, -, h⟩
    · exact h
    · cases h
  · have h : (parseExpr exact .debug "count_over_time(1[5m:0s])" >>= fun e =>
        (.ok e.zeroStep : Eval Bool)) = .ok true := by decide +kernel
    obtain ⟨e, he, hzero⟩ := bind_eq_ok.mp h
    exact ⟨e, he, evalSteps_eq_error.mpr (.inl ⟨0, 0, maxTurns_pos, .refl 0, by decide,
      .inl (eval_zeroStep (Except.ok.inj hzero))⟩)⟩
  · have h : (parseExpr exact .debug "1" >>= fun e =>
        eval exact .debug twoPoints e (stepContext 1)) = .ok [(.empty, some 1)] := by decide +kernel
    obtain ⟨e, he, hv⟩ := bind_eq_ok.mp h
    exact ⟨e, he, evalSteps_eq_error.mpr (.inl ⟨0, 1, maxTurns_pos, .refl 1, by decide,
      .inr ⟨⟨_, hv⟩, i64_debug_of_not (by decide)⟩⟩)⟩

end Parqtel.Query
