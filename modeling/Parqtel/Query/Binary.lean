import Parqtel.Lib.Join
import Parqtel.Query.Ast
import Parqtel.Query.Exact

/-!
# Binary operators on instant vectors

A comparison that is not true yields zero, and `filterCmp` drops a comparison that yielded zero:
the surviving value and the answer share one number. Vectors are matched on the labels that
`on` or `ignoring` leave (`matchKey`); the set operators compare whole label sets instead.
-/

namespace Parqtel.Query

open Lib List LabelSet Except

/-- The labels on which two series are matched; the metric name is none of them. -/
def VectorMatch.keeps (vm : VectorMatch) (label : String) : Bool :=
  label ≠ "__name__" &&
    match vm with
    | .all => true
    | .on list => list.contains label
    | .ignoring list => !list.contains label

def matchKey (vm : VectorMatch) (labels : LabelSet) : LabelSet :=
  labels.filtered fun k _ => vm.keeps k

/-- The labels of a result: those of one operand, projected. The set is shared with the operand
when nothing has to go. -/
def resultLabels (b : BinaryHead) (labels : LabelSet) : LabelSet :=
  let matching := b.matching.map Prod.fst
  let keys := labels.entries.map Prod.fst
  let projects :=
    match matching with
    | some (.on list) => keys.any fun k => !list.contains k
    | some (.ignoring list) => keys.any fun k => list.contains k
    | some .all | none => false
  let dropsName := (labels.get "__name__").isSome
  if !projects && !dropsName then labels
  else
    labels.filtered fun k _ =>
      if k = "__name__" then false
      else
        match matching with
        | some (.on list) => list.contains k
        | some (.ignoring list) => !list.contains k
        | some .all | none => true

section
variable {F : Type} (p : Platform F)

def boolF (cond returnBool : Bool) (value : F) : F :=
  if returnBool then if cond then p.one else p.zero
  else if cond then value
  else p.zero

def compareOp (op : BinaryOp) (a b : F) : Bool :=
  match op with
  | .eq => p.eq a b
  | .ne => !p.eq a b
  | .gt => p.lt b a
  | .lt => p.lt a b
  | .ge => p.le b a
  | .le => p.le a b
  | _ => false

def arithOp (op : BinaryOp) (a b : F) : F :=
  match op with
  | .add => p.add a b
  | .sub => p.sub a b
  | .mul => p.mul a b
  | .div => p.div a b
  | .mod => p.rem a b
  | .pow => p.powf a b
  | _ => p.nan

def applyBinaryOp (op : BinaryOp) (a b : F) (returnBool : Bool) : Eval F :=
  match op with
  | .add | .sub | .mul | .div | .mod | .pow => .ok (arithOp p op a b)
  | .eq | .ne | .gt | .lt | .ge | .le => .ok (boolF p (compareOp p op a b) returnBool a)
  | .and | .or | .unless => invalid "set op in scalar position"

def filterCmp (b : BinaryHead) (v : F) : Option F :=
  if b.returnBool then some v
  else if b.op.isComparison && p.eq v p.zero then none
  else some v

/-- Apply the operator to a pair and put what survives under `labels`. -/
def emit (b : BinaryHead) (labels : LabelSet) (lv rv : F) : Eval (InstantVector F) := do
  let v ← applyBinaryOp p b.op lv rv b.returnBool
  return ((filterCmp p b v).map fun v => (labels, v)).toList

def scalarScalar (b : BinaryHead) (a c : F) : Eval (InstantVector F) := do
  return [(.empty, ← applyBinaryOp p b.op a c b.returnBool)]

def scalarVector (b : BinaryHead) (a : F) (rhs : InstantVector F) : Eval (InstantVector F) :=
  gather (fun r => emit p b r.1 a r.2) rhs

def vectorScalar (b : BinaryHead) (lhs : InstantVector F) (c : F) : Eval (InstantVector F) :=
  gather (fun l => emit p b l.1 l.2 c) lhs

def copyExtras (extra : List String) (one labels : LabelSet) : LabelSet :=
  extra.foldl (fun labels e =>
    match one.get e with
    | some v => labels.with e v
    | none => labels) labels

def matchSeries (b : BinaryHead) (card : MatchCardinality) (l : LabelSet × F)
    (found : InstantVector F) : Eval (InstantVector F) :=
  match card with
  | .oneToOne =>
    match found with
    | [r] => emit p b (resultLabels b l.1) l.2 r.2
    | _ => .ok []
  | .manyToOne extra =>
    gather (fun r => emit p b (copyExtras extra r.1 (resultLabels b l.1)) l.2 r.2) found
  | .oneToMany _ => gather (fun r => emit p b (resultLabels b r.1) l.2 r.2) found

def evalVectorBinary (b : BinaryHead) (lhs rhs : InstantVector F) : Eval (InstantVector F) :=
  match b.op with
  | .and => .ok (lhs.filter fun s => (rhs.get s.1).isSome)
  | .or => .ok (lhs ++ rhs.filter fun s => (lhs.get s.1).isNone)
  | .unless => .ok (lhs.filter fun s => (rhs.get s.1).isNone)
  | _ =>
    let (vm, card) := b.matching.getD (.all, .oneToOne)
    gather (fun l =>
      matchSeries p b card l (rhs.filter fun r => matchKey vm r.1 = matchKey vm l.1)) lhs

/-- Whether an operand is a scalar is decided by its node alone. -/
def evalBinary (b : BinaryHead) (lhsExpr rhsExpr : Expr F) (lhs rhs : InstantVector F) :
    Eval (InstantVector F) :=
  match lhsExpr, rhsExpr with
  | .number a, .number c => scalarScalar p b a c
  | .number a, _ => scalarVector p b a rhs
  | _, .number c => vectorScalar p b lhs c
  | _, _ => evalVectorBinary p b lhs rhs

end

/-! ## Labels of a result -/

/-- The matching of an expression without a modifier is on all labels. -/
def BinaryHead.vectorMatch (b : BinaryHead) : VectorMatch := (b.matching.map Prod.fst).getD .all

theorem get_matchKey (vm : VectorMatch) (labels : LabelSet) (k : String) :
    (matchKey vm labels).get k = (labels.get k).filter fun _ => vm.keeps k :=
  get_filtered _ _ _

variable {labels : LabelSet}

theorem filtered_eq_self {keep : String → String → Bool}
    (h : ∀ e ∈ labels.entries, keep e.1 e.2 = true) : labels.filtered keep = labels := by
  cases labels with
  | mk entries sorted =>
    have hall : entries.filter (fun e => keep e.1 e.2) = entries := filter_eq_self.mpr h
    unfold filtered
    congr 1

/-- **A result is labelled with the match key of its operand.** -/
theorem resultLabels_eq (b : BinaryHead) (labels : LabelSet) :
    resultLabels b labels = matchKey b.vectorMatch labels := by
  have hname : (labels.get "__name__").isSome = false → ∀ e ∈ labels.entries, e.1 ≠ "__name__" := by
    intro h e he hk
    have := get_eq_some.mpr (show ("__name__", e.2) ∈ labels.entries from hk ▸ he)
    rw [this] at h
    cases h
  have hkeep : ∀ keep : String → Bool,
      (∀ k, keep k = b.vectorMatch.keeps k) →
      labels.filtered (fun k _ => keep k) = matchKey b.vectorMatch labels := by
    intro keep h
    congr 1
    funext k _
    exact h k
  unfold resultLabels
  dsimp only
  split_ifs with h
  · -- nothing is dropped
    obtain ⟨hproj, hdrop⟩ := Bool.and_eq_true_iff.mp h
    have hdrop := hname (by simpa using hdrop)
    refine (filtered_eq_self fun e he => ?_).symm
    have hne := hdrop e he
    unfold BinaryHead.vectorMatch VectorMatch.keeps
    have hmem : e.1 ∈ labels.entries.map Prod.fst := mem_map_of_mem he
    cases hm : b.matching.map Prod.fst with
    | none => simp [hne]
    | some vm =>
      rw [hm] at hproj
      cases vm with
      | all => simp [hne]
      | on list | ignoring list =>
        have := (Bool.not_eq_eq_eq_not.mp hproj)
        have := any_eq_false.mp this e.1 hmem
        simpa [hne] using this
  · refine hkeep _ fun k => ?_
    unfold BinaryHead.vectorMatch VectorMatch.keeps
    by_cases hk : k = "__name__"
    · simp [hk]
    · cases hm : b.matching.map Prod.fst with
      | none => simp [hk]
      | some vm => cases vm <;> simp [hk]

/-! ## Set operators -/

variable {vm : VectorMatch}

section
variable {F : Type} (p : Platform F)

theorem isSome_get {v : InstantVector F} :
    (v.get labels).isSome = true ↔ labels ∈ v.map Prod.fst := by
  unfold InstantVector.get
  rw [Option.isSome_map, find?_isSome, mem_map]
  simp only [decide_eq_true_eq]

def keyOccurs (vm : VectorMatch) (v : InstantVector F) (labels : LabelSet) : Bool :=
  v.any fun s => matchKey vm s.1 = matchKey vm labels

theorem keyOccurs_of_mem {v : InstantVector F} (h : labels ∈ v.map Prod.fst) :
    keyOccurs vm v labels = true := by
  obtain ⟨s, hs, rfl⟩ := mem_map.mp h
  exact any_eq_true.mpr ⟨s, hs, decide_eq_true rfl⟩

def MatchesAreEqual (vm : VectorMatch) (a b : InstantVector F) : Prop :=
  ∀ s ∈ a, keyOccurs vm b s.1 = true → s.1 ∈ b.map Prod.fst

theorem filter_get_iff {a b : InstantVector F} :
    (a.filter (fun s => (b.get s.1).isSome) = a.filter fun s => keyOccurs vm b s.1) ↔
      MatchesAreEqual vm a b := by
  rw [filter_eq_filter_iff]
  refine forall₂_congr fun s _ => ?_
  rw [Bool.eq_iff_iff, isSome_get]
  exact ⟨fun h => h.mpr, fun h => ⟨keyOccurs_of_mem, h⟩⟩

theorem filter_not_get_iff {a b : InstantVector F} :
    (a.filter (fun s => (b.get s.1).isNone) = a.filter fun s => !keyOccurs vm b s.1) ↔
      MatchesAreEqual vm a b := by
  rw [filter_eq_filter_iff, ← filter_get_iff, filter_eq_filter_iff]
  refine forall₂_congr fun s _ => ?_
  cases b.get s.1 <;> cases keyOccurs vm b s.1 <;> simp

/-- **When the set operators respect the matching clause.** They do exactly if no two series
agree on the match labels and differ elsewhere. -/
theorem set_operators_iff (m : Option (VectorMatch × MatchCardinality)) (returnBool : Bool)
    (a b : InstantVector F) :
    let vm := (m.map Prod.fst).getD .all
    (evalVectorBinary p ⟨.and, m, returnBool⟩ a b =
        .ok (a.filter fun s => keyOccurs vm b s.1) ↔ MatchesAreEqual vm a b) ∧
      (evalVectorBinary p ⟨.unless, m, returnBool⟩ a b =
        .ok (a.filter fun s => !keyOccurs vm b s.1) ↔ MatchesAreEqual vm a b) ∧
      (evalVectorBinary p ⟨.or, m, returnBool⟩ a b =
        .ok (a ++ b.filter fun s => !keyOccurs vm a s.1) ↔ MatchesAreEqual vm b a) ∧
      ∃ kept dropped, evalVectorBinary p ⟨.and, m, returnBool⟩ a b = .ok kept ∧
        evalVectorBinary p ⟨.unless, m, returnBool⟩ a b = .ok dropped ∧
        (kept ++ dropped).Perm a := by
  refine ⟨?_, ?_, ?_, _, _, rfl, rfl, ?_⟩
  · exact (ok.injEq _ _).to_iff.trans filter_get_iff
  · exact (ok.injEq _ _).to_iff.trans filter_not_get_iff
  · exact (ok.injEq _ _).to_iff.trans ((append_right_inj a).trans filter_not_get_iff)
  · have h := filter_append_perm (fun s : LabelSet × F => (b.get s.1).isSome) a
    simpa only [Option.not_isSome] using h

end

/-- `a and on(job) b`, where the series of `a` has a label more than that of `b`. -/
theorem set_operator_ignores_clause :
    let job := empty.with "job" "api"
    let a := [(job.with "code" "200", some 1)]
    let b := [(job, some 1)]
    evalVectorBinary exact ⟨.and, some (.on ["job"], .oneToOne), false⟩ a b = .ok [] ∧
      (a.filter fun s => keyOccurs (.on ["job"]) b s.1) = a := by
  decide

/-! ## Comparisons that filter -/

section
variable {F : Type} {p : Platform F}

theorem applyBinaryOp_comparison {op : BinaryOp} (hop : op.isComparison = true) (a b : F)
    (returnBool : Bool) :
    applyBinaryOp p op a b returnBool = .ok (boolF p (compareOp p op a b) returnBool a) := by
  cases op <;> first | rfl | cases hop

theorem emit_comparison {op : BinaryOp} (hop : op.isComparison = true)
    (hzero : p.eq p.zero p.zero = true) (m : Option (VectorMatch × MatchCardinality))
    (labels : LabelSet) (a b : F) :
    emit p ⟨op, m, false⟩ labels a b =
      .ok (if compareOp p op a b && !p.eq a p.zero then [(labels, a)] else []) := by
  unfold emit
  rw [applyBinaryOp_comparison hop]
  unfold filterCmp boolF
  cases compareOp p op a b <;> cases hz : p.eq a p.zero <;> simp [hop, hz, hzero]

theorem gather_filterMap {α : Type} {f : α → Eval (InstantVector F)}
    {g : α → Option (LabelSet × F)} {as : List α} (h : ∀ a ∈ as, f a = .ok (g a).toList) :
    gather f as = .ok (as.filterMap g) := by
  rw [gather_ok h, filterMap_eq_flatMap_toList]

def sole (vm : VectorMatch) (w : InstantVector F) (labels : LabelSet) : Option (LabelSet × F) :=
  match partners (fun r : LabelSet × F => matchKey vm r.1) w (matchKey vm labels) with
  | [r] => some r
  | _ => none

def holding (p : Platform F) (op : BinaryOp) (vm : VectorMatch) (v w : InstantVector F) :
    InstantVector F :=
  v.filterMap fun l => (sole vm w l.1).bind fun r =>
    if compareOp p op l.2 r.2 then some (matchKey vm l.1, l.2) else none

section
variable {op : BinaryOp} (hop : op.isComparison = true) (hzero : p.eq p.zero p.zero = true)
include hop hzero

theorem vectorScalar_comparison (m : Option (VectorMatch × MatchCardinality))
    (v : InstantVector F) (c : F) :
    vectorScalar p ⟨op, m, false⟩ v c =
      .ok (v.filter fun s => compareOp p op s.2 c && !p.eq s.2 p.zero) := by
  unfold vectorScalar
  rw [gather_filterMap (g := fun s =>
    if compareOp p op s.2 c && !p.eq s.2 p.zero then some s else none)]
  · rw [← filterMap_eq_filter]
    rfl
  · intro s _
    rw [emit_comparison hop hzero]
    split_ifs <;> rfl

theorem scalarVector_comparison (m : Option (VectorMatch × MatchCardinality))
    (v : InstantVector F) (c : F) :
    scalarVector p ⟨op, m, false⟩ c v =
      .ok ((v.filter fun s => compareOp p op c s.2 && !p.eq c p.zero).map fun s => (s.1, c)) := by
  unfold scalarVector
  rw [gather_filterMap (g := fun s =>
    if compareOp p op c s.2 && !p.eq c p.zero then some (s.1, c) else none)]
  · congr 1
    induction v with
    | nil => rfl
    | cons s v ih =>
      rw [filterMap_cons, filter_cons, ih]
      split_ifs <;> rfl
  · intro s _
    rw [emit_comparison hop hzero]
    split_ifs <;> rfl

theorem evalVectorBinary_comparison (m : Option VectorMatch) (v w : InstantVector F) :
    evalVectorBinary p ⟨op, m.map fun vm => (vm, .oneToOne), false⟩ v w =
      .ok (v.filterMap fun l => (sole (m.getD .all) w l.1).bind fun r =>
        if compareOp p op l.2 r.2 && !p.eq l.2 p.zero then
          some (matchKey (m.getD .all) l.1, l.2)
        else none) := by
  rw [← gather_filterMap (f := fun l =>
    matchSeries p ⟨op, m.map fun vm => (vm, .oneToOne), false⟩ .oneToOne l
      (partners (fun r => matchKey (m.getD .all) r.1) w (matchKey (m.getD .all) l.1)))]
  · cases m <;> cases op <;> first | rfl | cases hop
  · intro l _
    have hvm : BinaryHead.vectorMatch ⟨op, m.map fun vm => (vm, .oneToOne), false⟩ =
        m.getD .all := by cases m <;> rfl
    unfold matchSeries sole
    rw [resultLabels_eq, hvm]
    rcases partners _ w (matchKey (m.getD .all) l.1) with _ | ⟨r, _ | ⟨r', rest⟩⟩
    · rfl
    · rw [Option.bind_some]
      exact (emit_comparison hop hzero _ _ _ _).trans (by split_ifs <;> rfl)
    · rfl

end

/-- **When comparison filters keep exactly the true rows.** A filter on the left vector loses
the true rows whose value is zero; with the scalar on the left the rows get the scalar's
value. -/
theorem comparison_filters_iff {op : BinaryOp} (hop : op.isComparison = true)
    (hzero : p.eq p.zero p.zero = true) (m : Option VectorMatch) (v w : InstantVector F)
    (c : F) :
    let b : BinaryHead := ⟨op, m.map fun vm => (vm, .oneToOne), false⟩
    let vm := m.getD .all
    (vectorScalar p b v c = .ok (v.filter fun s => compareOp p op s.2 c) ↔
        ∀ s ∈ v, compareOp p op s.2 c = true → p.eq s.2 p.zero = false) ∧
      (scalarVector p b c v = .ok (v.filter fun s => compareOp p op c s.2) ↔
        ∀ s ∈ v, compareOp p op c s.2 = true → s.2 = c ∧ p.eq c p.zero = false) ∧
      (evalVectorBinary p b v w = .ok (holding p op vm v w) ↔
        ∀ l ∈ v, ∀ r, sole vm w l.1 = some r → compareOp p op l.2 r.2 = true →
          p.eq l.2 p.zero = false) := by
  refine ⟨?_, ?_, ?_⟩
  · rw [vectorScalar_comparison hop hzero, ok.injEq, filter_eq_filter_iff]
    refine forall₂_congr fun s _ => ?_
    cases compareOp p op s.2 c <;> cases p.eq s.2 p.zero <;> simp
  · rw [scalarVector_comparison hop hzero, ok.injEq]
    cases p.eq c p.zero with
    | true =>
      -- every row is lost
      simp
    | false =>
      simp only [Bool.not_false, Bool.and_true, and_true]
      rw [map_eq_self_iff, forall_mem_filter]
      refine forall₂_congr fun s _ => forall_congr' fun _ => ?_
      exact ⟨fun h => congrArg Prod.snd h.symm, fun h => h ▸ rfl⟩
  · rw [evalVectorBinary_comparison hop hzero, ok.injEq, holding, filterMap_eq_filterMap_iff]
    · refine forall₂_congr fun l _ => ?_
      cases sole (m.getD .all) w l.1 with
      | none => simp
      | some r =>
        cases compareOp p op l.2 r.2 <;> cases p.eq l.2 p.zero <;> simp
    · intro l _
      cases sole (m.getD .all) w l.1 with
      | none => exact fun h => h
      | some r =>
        cases compareOp p op l.2 r.2 <;> cases p.eq l.2 p.zero <;> simp

end

/-- A comparison with a scalar that loses nothing. -/
theorem comparison_filters_above_one :
    BinaryOp.gt.isComparison = true ∧ exact.eq exact.zero exact.zero = true ∧
      vectorScalar exact ⟨.gt, none, false⟩ [(.empty, some 2), (.empty, some 0)] (some 1) =
        .ok [(.empty, some 2)] :=
  ⟨rfl, by decide, ((@comparison_filters_iff _ exact .gt rfl (by decide) none
    [(.empty, some 2), (.empty, some 0)] [] (some 1)).1.mpr (by decide)).trans
      (by decide)⟩

/-- `v == 0` on a series with value zero, and `1 < v` on one with value five. -/
theorem comparison_filter_loses_zero :
    vectorScalar exact ⟨.eq, none, false⟩ [(.empty, some 0)] (some 0) = .ok [] ∧
      scalarVector exact ⟨.lt, none, false⟩ (some 1) [(.empty, some 5)] =
        .ok [(.empty, some 1)] := by
  decide

/-! ## Group modifiers -/

theorem get_copyExtras (extra : List String) (one labels : LabelSet) (k : String) :
    (copyExtras extra one labels).get k =
      if k ∈ extra then (one.get k).or (labels.get k) else labels.get k := by
  unfold copyExtras
  induction extra generalizing labels with
  | nil => rfl
  | cons e extra ih =>
    rw [foldl_cons, ih]
    by_cases hk : k = e
    · subst hk
      cases hget : one.get k with
      | none => simp
      | some v => simp [get_with]
    · cases hget : one.get e with
      | none => simp [hk]
      | some v => simp [hk, get_with]

/-- The labels of the many side without its metric name, and the extra labels of the one side. -/
def carried (extra : List String) (many one : LabelSet) : LabelSet :=
  copyExtras extra one (many.filtered fun k _ => k ≠ "__name__")

section
variable {F : Type} {p : Platform F}

theorem gather_join {α β K : Type} [DecidableEq K] {keyA : α → K} {keyB : β → K}
    {as : List α} {bs : List β} {f : α → β → Eval (InstantVector F)} {g : α → β → LabelSet × F}
    (h : ∀ a b, f a b = .ok [g a b]) :
    gather (fun a => gather (f a) (partners keyB bs (keyA a))) as =
      .ok ((join keyA keyB as bs).map fun w => g w.1 w.2) := by
  have hinner : ∀ a ∈ as, gather (f a) (partners keyB bs (keyA a)) =
      .ok ((partners keyB bs (keyA a)).map (g a)) := by
    intro a _
    rw [gather_ok fun b _ => h a b, ← map_eq_flatMap]
  rw [gather_ok hinner, join, map_flatMap]
  simp only [map_map]
  rfl

section
variable {op : BinaryOp} (hop : op.isArithmetic = true)
include hop

theorem emit_arithmetic (m : Option (VectorMatch × MatchCardinality)) (returnBool : Bool)
    (labels : LabelSet) (x y : F) :
    emit p ⟨op, m, returnBool⟩ labels x y = .ok [(labels, arithOp p op x y)] := by
  cases op <;> cases returnBool <;> first | rfl | cases hop

variable (vm : VectorMatch) (extra : List String) (a b : InstantVector F)

theorem evalVectorBinary_groupLeft :
    evalVectorBinary p ⟨op, some (vm, .manyToOne extra), false⟩ a b =
      .ok ((join (fun s => matchKey vm s.1) (fun s => matchKey vm s.1) a b).map fun w =>
        (copyExtras extra w.2.1 (matchKey vm w.1.1), arithOp p op w.1.2 w.2.2)) := by
  refine Eq.trans ?_ (gather_join
    (f := fun l r : LabelSet × F => emit p ⟨op, some (vm, .manyToOne extra), false⟩
      (copyExtras extra r.1 (resultLabels ⟨op, some (vm, .manyToOne extra), false⟩ l.1)) l.2 r.2)
    (g := fun l r : LabelSet × F =>
      (copyExtras extra r.1 (matchKey vm l.1), arithOp p op l.2 r.2)) ?_)
  · cases op <;> first | rfl | cases hop
  · intro l r
    rw [emit_arithmetic hop, resultLabels_eq]
    rfl

theorem evalVectorBinary_groupRight :
    evalVectorBinary p ⟨op, some (vm, .oneToMany extra), false⟩ b a =
      .ok ((join (fun s => matchKey vm s.1) (fun s => matchKey vm s.1) b a).map fun w =>
        (matchKey vm w.2.1, arithOp p op w.1.2 w.2.2)) := by
  refine Eq.trans ?_ (gather_join
    (f := fun l r : LabelSet × F => emit p ⟨op, some (vm, .oneToMany extra), false⟩
      (resultLabels ⟨op, some (vm, .oneToMany extra), false⟩ r.1) l.2 r.2)
    (g := fun l r : LabelSet × F => (matchKey vm r.1, arithOp p op l.2 r.2)) ?_)
  · cases op <;> first | rfl | cases hop
  · intro l r
    rw [emit_arithmetic hop, resultLabels_eq]
    rfl

end

end

def OnlyMatched (vm : VectorMatch) (extra : List String) (many one : LabelSet) : Prop :=
  (∀ k, (many.get k).isSome → k ≠ "__name__" → vm.keeps k = true) ∧
    ∀ e ∈ extra, (one.get e).isSome → vm.keeps e = true

theorem matchKey_eq_filtered {many : LabelSet}
    (h : ∀ k, (many.get k).isSome → k ≠ "__name__" → vm.keeps k = true) :
    matchKey vm many = many.filtered fun k _ => k ≠ "__name__" := by
  refine ext_get fun k => ?_
  rw [get_matchKey, get_filtered]
  cases hv : many.get k with
  | none => rfl
  | some v =>
    by_cases hne : k = "__name__"
    · simp [hne, VectorMatch.keeps]
    · simp [hne, h k (by rw [hv]; rfl) hne]

/-- The match labels are all that a result should carry, exactly if nothing else was to be
carried. -/
theorem matchKey_eq_carried_iff {extra : List String} {many one : LabelSet}
    (hkey : matchKey vm one = matchKey vm many) :
    matchKey vm many = carried extra many one ↔ OnlyMatched vm extra many one := by
  constructor
  · intro h
    have hget : ∀ k, (carried extra many one).get k =
        if k ∈ extra then (one.get k).or ((many.get k).filter fun _ => k ≠ "__name__")
        else (many.get k).filter fun _ => k ≠ "__name__" := by
      intro k
      rw [carried, get_copyExtras, get_filtered]
    have hkeeps : ∀ k, ((carried extra many one).get k).isSome → vm.keeps k = true := by
      intro k hk
      rw [← h, get_matchKey] at hk
      obtain ⟨v, hv⟩ := Option.isSome_iff_exists.mp hk
      exact (Option.filter_eq_some_iff.mp hv).2
    refine ⟨fun k hk hne => hkeeps k ?_, fun e he ho => hkeeps e ?_⟩
    · rw [hget]
      obtain ⟨v, hv⟩ := Option.isSome_iff_exists.mp hk
      split_ifs <;> simp [hv, hne]
    · rw [hget, if_pos he]
      obtain ⟨v, hv⟩ := Option.isSome_iff_exists.mp ho
      simp [hv]
  · rintro ⟨hmany, hextra⟩
    refine ext_get fun k => ?_
    rw [carried, ← matchKey_eq_filtered hmany, get_copyExtras]
    split_ifs with hk
    · cases ho : one.get k with
      | none => rfl
      | some v =>
        -- the label is matched on, so both sides have the same value
        rw [← hkey, get_matchKey, ho, Option.some_or, Option.filter_some,
          if_pos (hextra k hk (by rw [ho]; rfl))]
    · rfl

theorem copyExtras_eq_carried {extra : List String} {many one : LabelSet}
    (h : OnlyMatched vm extra many one) :
    copyExtras extra one (matchKey vm many) = carried extra many one := by
  rw [carried, matchKey_eq_filtered h.1]

section
variable {F : Type} {p : Platform F}

/-- **When the group modifiers are mirror images** that carry the labels of the many side and
the extra labels of the one side: exactly if there is nothing to carry beyond the labels that
are matched on. -/
theorem group_modifiers_iff {op : BinaryOp} (hop : op.isArithmetic = true)
    (hcomm : ∀ x y, arithOp p op x y = arithOp p op y x)
    (vm : VectorMatch) (extra : List String) (a b : InstantVector F) :
    let key := fun s : LabelSet × F => matchKey vm s.1
    (∃ left right,
        evalVectorBinary p ⟨op, some (vm, .manyToOne extra), false⟩ a b = .ok left ∧
        evalVectorBinary p ⟨op, some (vm, .oneToMany extra), false⟩ b a = .ok right ∧
        (∀ r, r ∈ left ↔ r ∈ right) ∧
        left.map Prod.fst = (join key key a b).map (fun w => carried extra w.1.1 w.2.1) ∧
        right.map Prod.fst = (join key key b a).map fun w => carried extra w.2.1 w.1.1) ↔
      ∀ x ∈ a, ∀ y ∈ b, key x = key y → OnlyMatched vm extra x.1 y.1 := by
  intro key
  rw [evalVectorBinary_groupLeft hop, evalVectorBinary_groupRight hop]
  constructor
  · rintro ⟨left, right, hleft, hright, -, -, hlabels⟩ x hx y hy hkey
    cases hright
    rw [map_map, map_inj_left] at hlabels
    have := hlabels (y, x) (mem_join.mpr ⟨hy, hx, hkey⟩)
    exact (matchKey_eq_carried_iff hkey.symm).mp this
  · intro h
    refine ⟨_, _, rfl, rfl, ?_, ?_, ?_⟩
    · -- the pairs of one join, turned round, are those of the other
      have hturn : ∀ x ∈ a, ∀ y ∈ b, key y = key x →
          (copyExtras extra y.1 (matchKey vm x.1), arithOp p op x.2 y.2) =
            (matchKey vm x.1, arithOp p op y.2 x.2) := by
        intro x hx y hy hkey
        have honly := h x hx y hy hkey.symm
        rw [copyExtras_eq_carried honly, ← (matchKey_eq_carried_iff hkey).mpr honly, hcomm]
      intro r
      rw [mem_map, mem_map]
      constructor
      · rintro ⟨⟨x, y⟩, hw, rfl⟩
        obtain ⟨hx, hy, hkey⟩ := mem_join.mp hw
        exact ⟨(y, x), mem_join.mpr ⟨hy, hx, hkey.symm⟩, (hturn x hx y hy hkey).symm⟩
      · rintro ⟨⟨y, x⟩, hw, rfl⟩
        obtain ⟨hy, hx, hkey⟩ := mem_join.mp hw
        exact ⟨(x, y), mem_join.mpr ⟨hx, hy, hkey.symm⟩, hturn x hx y hy hkey.symm⟩
    · rw [map_map, map_inj_left]
      rintro ⟨x, y⟩ hw
      obtain ⟨hx, hy, hkey⟩ := mem_join.mp hw
      exact copyExtras_eq_carried (h x hx y hy hkey.symm)
    · rw [map_map, map_inj_left]
      rintro ⟨y, x⟩ hw
      obtain ⟨hy, hx, hkey⟩ := mem_join.mp hw
      exact (matchKey_eq_carried_iff hkey.symm).mpr (h x hx y hy hkey)

end

/-- Two series on each side, with no label but the one that is matched on. -/
theorem group_modifiers_two_jobs :
    let series (x y : ℚ) := [("api", x), ("db", y)].map fun s => (empty.with "job" s.1, some s.2)
    BinaryOp.mul.isArithmetic = true ∧
      (∀ x y, arithOp exact .mul x y = arithOp exact .mul y x) ∧
      ∃ left right,
        evalVectorBinary exact ⟨.mul, some (.on ["job"], .manyToOne ["team"]), false⟩ (series 2 3)
          (series 5 7) = .ok left ∧
        evalVectorBinary exact ⟨.mul, some (.on ["job"], .oneToMany ["team"]), false⟩ (series 5 7)
          (series 2 3) = .ok right ∧
        ∀ r, r ∈ left ↔ r ∈ right := by
  have hcomm : ∀ x y, arithOp exact .mul x y = arithOp exact .mul y x := by
    intro x y
    show Exact.lift₂ (· * ·) x y = Exact.lift₂ (· * ·) y x
    cases x <;> cases y <;> simp [Exact.lift₂, Rat.mul_comm]
  have hjob : ∀ job k, ((empty.with "job" job).get k).isSome → k = "job" := by
    intro job k hk
    rw [get_with] at hk
    split_ifs at hk with h
    · exact h
    · cases hk
  intro series
  refine ⟨rfl, hcomm, ?_⟩
  obtain ⟨left, right, hleft, hright, hsame, -⟩ :=
    (group_modifiers_iff rfl hcomm (.on ["job"]) ["team"] (series 2 3) (series 5 7)).mpr (by
      intro x hx y hy _
      obtain ⟨s, -, rfl⟩ := mem_map.mp hx
      obtain ⟨s', -, rfl⟩ := mem_map.mp hy
      exact ⟨fun k hk _ => by rw [hjob _ k hk]; rfl, fun e _ ho => by rw [hjob _ e ho]; rfl⟩)
  exact ⟨left, right, hleft, hright, hsame⟩

/-- A many side with a label of its own and a one side with an extra label: the first result
lacks the one, the second also the other. -/
theorem group_modifiers_drop_labels :
    let many := [((empty.with "job" "api").with "code" "200", some (2 : ℚ))]
    let one := [((empty.with "job" "api").with "team" "web", some (3 : ℚ))]
    evalVectorBinary exact ⟨.mul, some (.on ["job"], .manyToOne ["team"]), false⟩ many one =
        .ok [((empty.with "job" "api").with "team" "web", some 6)] ∧
      evalVectorBinary exact ⟨.mul, some (.on ["job"], .oneToMany ["team"]), false⟩ one many =
        .ok [(empty.with "job" "api", some 6)] := by
  decide +kernel

end Parqtel.Query
