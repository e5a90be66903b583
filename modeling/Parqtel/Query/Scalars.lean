import Parqtel.Query.Eval

/-!
# Scalars in binary expressions

A scalar expression is made of number literals, unary signs, parentheses and arithmetic; unary
minus is a subtraction from zero, unary plus leaves no node. It evaluates to one series without
labels (`eval_scalarExpr`). A literal operand is applied to every series of the other one; any
other scalar is matched like a vector of one series, and meets the series without labels only.
-/

namespace Parqtel.Query

open Lib List Option

variable {F : Type}

def Expr.isNumber : Expr F → Bool
  | .number _ => true
  | _ => false

/-- Made of literals, signs, parentheses and arithmetic operators. -/
def Expr.isScalar : Expr F → Bool
  | .number _ => true
  | .paren inner => inner.isScalar
  | .binary b lhs rhs =>
    b.op.isArithmetic && b.matching.isNone && lhs.isScalar && rhs.isScalar
  | _ => false

section
variable (p : Platform F)

def scalarValue : Expr F → F
  | .number n => n
  | .paren inner => scalarValue inner
  | .binary b lhs rhs => arithOp p b.op (scalarValue lhs) (scalarValue rhs)
  | _ => p.nan

def survivor (b : BinaryHead) (x y : F) : Option F :=
  match applyBinaryOp p b.op x y b.returnBool with
  | .ok v => filterCmp p b v
  | .error _ => none

end

/-- An operator with a value for every pair: all but the set operators. -/
def BinaryOp.onValues (op : BinaryOp) : Bool := op.isArithmetic || op.isComparison

section
variable {p : Platform F} {b : BinaryHead} (hop : b.op.onValues = true)
include hop

theorem emit_eq (labels : LabelSet) (x y : F) :
    emit p b labels x y = .ok ((survivor p b x y).map fun v => (labels, v)).toList := by
  obtain ⟨op, m, returnBool⟩ := b
  cases op <;> first | rfl | cases hop

theorem vectorScalar_eq (v : InstantVector F) (c : F) : vectorScalar p b v c =
      .ok (v.filterMap fun s => (survivor p b s.2 c).map fun w => (s.1, w)) :=
  gather_filterMap fun s _ => emit_eq hop s.1 s.2 c

theorem scalarVector_eq (c : F) (v : InstantVector F) : scalarVector p b c v =
      .ok (v.filterMap fun s => (survivor p b c s.2).map fun w => (s.1, w)) :=
  gather_filterMap fun s _ => emit_eq hop s.1 c s.2

/-- Without a modifier a series is matched with the only one of its key. -/
theorem evalVectorBinary_eq (hm : b.matching = none) (v w : InstantVector F) :
    evalVectorBinary p b v w = .ok (v.filterMap fun l => (sole .all w l.1).bind fun r =>
        (survivor p b l.2 r.2).map fun x => (matchKey .all l.1, x)) := by
  rw [← gather_filterMap (f := fun l => matchSeries p b .oneToOne l
    (partners (fun r => matchKey .all r.1) w (matchKey .all l.1)))]
  · obtain ⟨op, m, returnBool⟩ := b
    cases hm
    cases op <;> first | rfl | cases hop
  · intro l _
    have hvm : b.vectorMatch = .all := by rw [BinaryHead.vectorMatch, hm]; rfl
    unfold matchSeries sole
    rw [resultLabels_eq, hvm]
    rcases partners _ w (matchKey .all l.1) with _ | ⟨r, _ | ⟨r', rest⟩⟩
    · rfl
    · exact emit_eq hop _ _ _
    · rfl

end

theorem matchKey_empty (vm : VectorMatch) : matchKey vm .empty = .empty := rfl

theorem sole_unlabelled (labels : LabelSet) (x : F) : sole .all (unlabelled x) labels =
      if matchKey .all labels = .empty then some (.empty, x) else none := by
  unfold sole partners unlabelled
  by_cases h : matchKey .all labels = .empty
  · rw [if_pos h, h]
    rfl
  · have hne : ¬ matchKey .all LabelSet.empty = matchKey .all labels := Ne.symm h
    rw [if_neg h]
    simp [hne]

theorem survivor_arithmetic {p : Platform F} {b : BinaryHead} (hop : b.op.isArithmetic = true)
    (x y : F) : survivor p b x y = some (arithOp p b.op x y) := by
  obtain ⟨op, m, returnBool⟩ := b
  cases op <;> cases returnBool <;> first | rfl | cases hop

theorem onValues_of_arithmetic {op : BinaryOp} (hop : op.isArithmetic = true) :
    op.onValues = true := by
  rw [BinaryOp.onValues, hop, Bool.true_or]

variable {lhs rhs : Expr F}

theorem evalBinary_unlabelled {p : Platform F} {b : BinaryHead} (hop : b.op.isArithmetic = true)
    (hm : b.matching = none) {x y : F} (hl : ∀ n, lhs = .number n → n = x)
    (hr : ∀ n, rhs = .number n → n = y) :
    evalBinary p b lhs rhs (unlabelled x) (unlabelled y) =
      .ok (unlabelled (arithOp p b.op x y)) := by
  have hv := onValues_of_arithmetic hop
  unfold evalBinary
  split
  · obtain ⟨op, m, returnBool⟩ := b
    rw [hl _ rfl, hr _ rfl]
    cases op <;> first | rfl | cases hop
  · rw [hl _ rfl, scalarVector_eq hv]
    simp only [unlabelled, filterMap_cons, survivor_arithmetic hop, map_some, filterMap_nil]
  · rw [hr _ rfl, vectorScalar_eq hv]
    simp only [unlabelled, filterMap_cons, survivor_arithmetic hop, map_some, filterMap_nil]
  · rw [evalVectorBinary_eq hv hm]
    simp only [unlabelled, filterMap_cons, filterMap_nil]
    rw [← unlabelled, sole_unlabelled, if_pos (matchKey_empty _), bind_some,
      survivor_arithmetic hop]
    rfl

/-- **A scalar expression is one series without labels.** -/
theorem eval_scalarExpr (p : Platform F) (build : Build) (ev : Evaluator F) (s : Expr F)
    (hs : s.isScalar = true) (ctx : EvalContext) :
    eval p build ev s ctx = .ok (unlabelled (scalarValue p s)) := by
  induction s using Expr.induct with
  | selector => cases hs
  | number => rfl
  | str => cases hs
  | call => cases hs
  | aggregation => cases hs
  | range => cases hs
  | binary b lhs rhs ihl ihr =>
    simp only [Expr.isScalar, Bool.and_eq_true] at hs
    obtain ⟨⟨⟨hop, hm⟩, hl⟩, hr⟩ := hs
    rw [eval, ihl hl, ihr hr]
    refine evalBinary_unlabelled hop (isNone_iff_eq_none.mp hm) ?_ ?_
    · rintro n rfl
      rfl
    · rintro n rfl
      rfl
  | paren inner ih => exact ih hs

/-! ## The spelling of a scalar -/

theorem sole_spec {vm : VectorMatch} {w : InstantVector F} {labels : LabelSet}
    {r : LabelSet × F} :
    sole vm w labels = some r ↔
      partners (fun r : LabelSet × F => matchKey vm r.1) w (matchKey vm labels) = [r] := by
  unfold sole
  rcases partners _ w (matchKey vm labels) with _ | ⟨r', _ | ⟨r'', rest⟩⟩ <;> simp

section
variable {p : Platform F} {b : BinaryHead} (hop : b.op.onValues = true) (hm : b.matching = none)
include hop hm

theorem evalVectorBinary_unlabelled_iff (v : InstantVector F) (c : F) :
    evalVectorBinary p b v (unlabelled c) = vectorScalar p b v c ↔
      ∀ r ∈ v, (survivor p b r.2 c).isSome → r.1 = .empty := by
  rw [evalVectorBinary_eq hop hm, vectorScalar_eq hop, Except.ok.injEq, filterMap_eq_filterMap_iff]
  · refine forall₂_congr fun r _ => ?_
    rw [sole_unlabelled]
    cases hs : survivor p b r.2 c with
    | none => split_ifs <;> simp [hs]
    | some x =>
      by_cases hkey : matchKey .all r.1 = .empty
      · simp [hkey, hs, eq_comm]
      · have hne : r.1 ≠ .empty := fun h => hkey (by rw [h, matchKey_empty])
        simp [hkey, hne]
  · intro r _ h
    rw [sole_unlabelled]
    split_ifs
    · simpa using h
    · rfl

theorem unlabelled_evalVectorBinary_iff (c : F) (v : InstantVector F) :
    evalVectorBinary p b (unlabelled c) v = scalarVector p b c v ↔
      ∀ r ∈ v, (survivor p b c r.2).isSome → r.1 = .empty ∧ sole .all v .empty = some r := by
  rw [evalVectorBinary_eq hop hm, scalarVector_eq hop, Except.ok.injEq]
  simp only [unlabelled, filterMap_cons, filterMap_nil, matchKey_empty]
  constructor
  · intro h r hr hs
    obtain ⟨x, hx⟩ := isSome_iff_exists.mp hs
    have hmem : (r.1, x) ∈ v.filterMap fun r => (survivor p b c r.2).map fun w => (r.1, w) :=
      mem_filterMap.mpr ⟨r, hr, by rw [hx]; rfl⟩
    rw [← h] at hmem
    cases hsole : sole .all v .empty with
    | none => simp [hsole] at hmem
    | some r' =>
      cases hx' : survivor p b c r'.2 with
      | none => simp [hsole, hx'] at hmem
      | some x' =>
        have hlabels : r.1 = .empty := by
          simp [hsole, hx'] at hmem
          exact hmem.1
        -- the labels of `r` are empty, so it is the one partner
        have hpartner : r ∈ [r'] := by
          rw [← sole_spec.mp hsole]
          exact mem_partners.mpr ⟨hr, congrArg _ hlabels⟩
        exact ⟨hlabels, by rw [mem_singleton.mp hpartner]⟩
  · intro h
    cases hsole : sole .all v .empty with
    | none =>
      symm
      refine filterMap_eq_nil_iff.mpr fun r hr => ?_
      cases hs : survivor p b c r.2 with
      | none => rfl
      | some x =>
        have := (h r hr (by rw [hs]; rfl)).2
        rw [hsole] at this
        cases this
    | some r' =>
      have hpartners := sole_spec.mp hsole
      have hr' : r' ∈ v := (mem_partners.mp (hpartners ▸ mem_singleton_self r')).1
      have hrest : v.filterMap (fun r => (survivor p b c r.2).map fun w => (r.1, w)) =
          [r'].filterMap fun r => (survivor p b c r.2).map fun w => (r.1, w) := by
        rw [← hpartners, partners, filterMap_filter]
        refine filterMap_congr fun r hr => ?_
        cases hs : survivor p b c r.2 with
        | none => simp
        | some x => rw [if_pos (by simp [(h r hr (by rw [hs]; rfl)).1])]
      rw [hrest]
      cases hs : survivor p b c r'.2 with
      | none => simp [hs]
      | some x => simp [hs, (h r' hr' (by rw [hs]; rfl)).1]

end

theorem evalBinary_of_not_number (p : Platform F) (b : BinaryHead) (hl : lhs.isNumber = false)
    (hr : rhs.isNumber = false) (v w : InstantVector F) :
    evalBinary p b lhs rhs v w = evalVectorBinary p b v w := by
  unfold evalBinary
  split
  · cases hl
  · cases hl
  · cases hr
  · rfl

theorem evalBinary_number_right (p : Platform F) (b : BinaryHead) (hl : lhs.isNumber = false)
    (c : F) (v w : InstantVector F) :
    evalBinary p b lhs (.number c) v w = vectorScalar p b v c := by
  cases lhs <;> first | rfl | cases hl

theorem evalBinary_number_left (p : Platform F) (b : BinaryHead) (hr : rhs.isNumber = false) (c : F)
    (v w : InstantVector F) :
    evalBinary p b (.number c) rhs v w = scalarVector p b c w := by
  cases rhs <;> first | rfl | cases hr

theorem eq_number_of_isNumber (p : Platform F) {s : Expr F} (h : s.isNumber = true) :
    s = .number (scalarValue p s) := by
  cases s <;> first | rfl | cases h

/-- **When a scalar may be spelled in any way.** A scalar that is no literal stands for its value
exactly if the series that the operator keeps have no labels, and, with the scalar on the left,
only one series is without. -/
theorem scalar_spelling_iff (p : Platform F) (build : Build) (ev : Evaluator F)
    {b : BinaryHead} (hop : b.op.onValues = true) (hm : b.matching = none) {e s : Expr F}
    (he : e.isNumber = false) (hs : s.isScalar = true) (ctx : EvalContext) :
    let v := scalarValue p s
    (eval p build ev (.binary b e s) ctx = eval p build ev (.binary b e (.number v)) ctx ↔
        s.isNumber = true ∨ ∀ vec, eval p build ev e ctx = .ok vec →
          ∀ r ∈ vec, (survivor p b r.2 v).isSome → r.1 = .empty) ∧
      (eval p build ev (.binary b s e) ctx = eval p build ev (.binary b (.number v) e) ctx ↔
        s.isNumber = true ∨ ∀ vec, eval p build ev e ctx = .ok vec →
          ∀ r ∈ vec, (survivor p b v r.2).isSome →
            r.1 = .empty ∧ sole .all vec .empty = some r) := by
  cases hn : s.isNumber with
  | true =>
    have hlit := eq_number_of_isNumber p hn
    exact ⟨iff_of_true (by rw [← hlit]) (.inl rfl), iff_of_true (by rw [← hlit]) (.inl rfl)⟩
  | false =>
    have hsv := eval_scalarExpr p build ev s hs ctx
    simp only [Bool.false_eq_true, false_or]
    rw [eval, eval, eval, eval, eval, hsv]
    cases hv : eval p build ev e ctx with
    | error fault => exact ⟨iff_of_true rfl nofun, iff_of_true rfl nofun⟩
    | ok vec =>
      simp only [Except.ok.injEq, forall_eq']
      refine ⟨?_, ?_⟩
      · rw [← evalVectorBinary_unlabelled_iff hop hm, ← evalBinary_of_not_number p b he hn,
          ← evalBinary_number_right p b he _ vec (unlabelled (scalarValue p s))]
        rfl
      · rw [← unlabelled_evalVectorBinary_iff hop hm, ← evalBinary_of_not_number p b hn he,
          ← evalBinary_number_left p b he _ (unlabelled (scalarValue p s)) vec]
        rfl

/-- `time() * (2)`: the time has no labels. -/
theorem scalar_spelling_of_time :
    let b : BinaryHead := ⟨.mul, none, false⟩
    let time : Expr (Option ℚ) := .call "time" []
    let two : Expr (Option ℚ) := .paren (.number (some 2))
    b.op.onValues = true ∧ b.matching = none ∧ time.isNumber = false ∧ two.isScalar = true ∧
      eval exact .debug ⟨[], none, 0⟩ (.binary b time two) (stepContext 5000000000) =
        eval exact .debug ⟨[], none, 0⟩ (.binary b time (.number (some 2)))
          (stepContext 5000000000) :=
  ⟨rfl, rfl, rfl, rfl,
    (@scalar_spelling_iff _ exact .debug ⟨[], none, 0⟩ ⟨.mul, none, false⟩ rfl rfl
      (.call "time" []) (.paren (.number (some 2))) rfl rfl
      (stepContext 5000000000)).1.mpr (.inr (by
        intro vec h
        have hvec : vec = [(.empty, some 5)] := Except.ok.inj (h.symm.trans (by decide +kernel))
        subst hvec
        decide))⟩

/-- `x * (2)` and `x * 2`, where `x` has a label. -/
theorem scalar_spelling_loses_series :
    let job := LabelSet.empty.with "job" "api"
    let ev : Evaluator (Option ℚ) := ⟨[("x", [(job, [(0, some 3)])])], none, 300000000000⟩
    let x : Expr (Option ℚ) := .selector ⟨some "x", []⟩
    let two : Expr (Option ℚ) := .paren (.number (some 2))
    eval exact .debug ev (.binary ⟨.mul, none, false⟩ x two) (stepContext 0) = .ok [] ∧
      eval exact .debug ev (.binary ⟨.mul, none, false⟩ x (.number (some 2))) (stepContext 0) =
        .ok [(job, some 6)] := by
  decide +kernel

end Parqtel.Query
