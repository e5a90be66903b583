import Parqtel.Query.Congruence

/-!
# How the parts of an evaluation crash

A crash is an end that the code does not intend: a panic, an `i64` operation out of range, or no
end at all (`Fault.isCrash`). For each kind of node this says where it crashes, given how the
evaluations that it starts end: a function in reading its arguments or in its own work
(`applyFn_eq_crash`), a range function in its windows or in the value of one
(`evalRangeFn_eq_crash`), a subquery at one of its steps (`subqueryWindows_eq_error`), an
aggregation in its operand, at the lock, in its parameter or in its work
(`evalAggregation_eq_crash`).
-/

namespace Parqtel.Query

open Lib List Fn Prod Except AggregationOp

variable {F : Type}

/-! ## Errors are no crashes -/

variable {α : Type}

theorem invalid_ne_crash {fault : Fault} (hfault : fault.isCrash = true) (message : String) :
    (invalid message : Eval α) ≠ .error fault := by
  intro h
  cases error.inj h
  cases hfault

/-! ## Reading arguments -/

/-- How a function reads an argument. -/
inductive Read where
  | vector (i : ℕ)
  | scalar (i : ℕ)
  | str (i : ℕ)

namespace Read

def index : Read → ℕ
  | .vector i | .scalar i | .str i => i

def evaluates (e : Expr F) : Read → Bool
  | .vector _ => true
  | .scalar _ => e.literal?.isNone
  | .str _ => false

def readFrom (p : Platform F) (a : Arg F) (ctx : EvalContext) : Read → Eval Unit
  | .vector _ => a.eval ctx >>= fun _ => .ok ()
  | .scalar _ => evalScalar p a ctx >>= fun _ => .ok ()
  | .str _ => evalString p a >>= fun _ => .ok ()

def run (p : Platform F) (args : List (Arg F)) (ctx : EvalContext) (r : Read) : Eval Unit :=
  argAt args r.index >>= fun a => r.readFrom p a ctx

end Read

/-- The arguments that a function indexes, in the order in which it reads them. -/
def Fn.reads (nargs : ℕ) (native : Bool) : Fn → List Read
  | .math _ | .sgn | .labelDel | .scalar | .absent | .timestamp | .sort _ => [.vector 0]
  | .atan2 | .clampMin | .clampMax => [.vector 0, .scalar 1]
  | .round => if nargs ≤ 1 then [.vector 0] else [.vector 0, .scalar 1]
  | .clamp => [.vector 0, .scalar 1, .scalar 2]
  | .labelReplace => [.vector 0, .str 1, .str 2, .str 3, .str 4]
  | .labelJoin => [.vector 0, .str 1, .str 2]
  | .sortByLabel _ => [.vector 0, .str 1]
  | .vector => [.scalar 0]
  | .date _ => if nargs = 0 then [] else [.vector 0]
  | .histogramFraction => [.scalar 0, .scalar 1]
  | .histogramQuantile => if native then [.scalar 0] else [.scalar 0, .vector 1]
  | .pi | .time | .histogramCount | .histogramSum | .histogramAvg | .histogramStddev
  | .histogramStdvar => []

section
variable (p : Platform F) (build : Build) (ev : Evaluator F) (fault : Fault)
  (args : List (Arg F)) (ctx : EvalContext)

def ReadsFail : List Read → Prop
  | [] => False
  | r :: rs => r.run p args ctx = .error fault ∨ r.run p args ctx = .ok () ∧ ReadsFail rs

def FnFails : Fn → Prop
  | .clamp =>
    fault = .panic ∧ ∃ v lo hi, vectorArg args 0 ctx = .ok v ∧ scalarArg p args 1 ctx = .ok lo ∧
      scalarArg p args 2 ctx = .ok hi ∧ v ≠ [] ∧ p.le lo hi = false
  | .sort descending =>
    fault = .panic ∧ ∃ v, vectorArg args 0 ctx = .ok v ∧ p.sortBy snd descending v = none
  | .histogramQuantile =>
    match nativeHistogram ev args with
    | some sel =>
      (∃ q, scalarArg p args 0 ctx = .ok q) ∧ histSelectorWindows build ev sel ctx = .error fault
    | none =>
      fault = .panic ∧ ∃ q v, scalarArg p args 0 ctx = .ok q ∧ vectorArg args 1 ctx = .ok v ∧
        ∃ h ∈ bucketGroups p v, p.sortBy fst false h.2 = none
  | .histogramCount | .histogramSum | .histogramAvg | .histogramStddev | .histogramStdvar =>
    ∃ sel, (args.head?.bind fun a => a.expr.selector?) = some sel ∧
      histSelectorWindows build ev sel ctx = .error fault
  | .histogramFraction =>
    ∃ lower upper sel, scalarArg p args 0 ctx = .ok lower ∧ scalarArg p args 1 ctx = .ok upper ∧
      (args[2]?.bind fun a => a.expr.selector?) = some sel ∧
      histSelectorWindows build ev sel ctx = .error fault
  | _ => False

end

section
variable {p : Platform F} {build : Build} {ev : Evaluator F} {fault : Fault}
  {args : List (Arg F)} {ctx : EvalContext}

theorem run_eq_error {x : Eval α} :
    (x >>= fun _ => (.ok () : Eval Unit)) = .error fault ↔ x = .error fault :=
  bind_eq_error_left fun _ => nofun

theorem run_eq_ok {x : Eval α} :
    (x >>= fun _ => (.ok () : Eval Unit)) = .ok () ↔ ∃ a, x = .ok a := by
  rw [bind_eq_ok]
  simp only [and_true]

variable {i : ℕ} {rs : List Read}

theorem readsFail_cons {r : Read} {x : Eval α}
    (h : r.run p args ctx = x >>= fun _ => .ok ()) :
    ReadsFail p fault args ctx (r :: rs) ↔
      x = .error fault ∨ (∃ v, x = .ok v) ∧ ReadsFail p fault args ctx rs := by
  rw [ReadsFail, h, run_eq_error, run_eq_ok]

theorem readsFail_vector : ReadsFail p fault args ctx (.vector i :: rs) ↔
      vectorArg args i ctx = .error fault ∨
        (∃ v, vectorArg args i ctx = .ok v) ∧ ReadsFail p fault args ctx rs :=
  readsFail_cons (bind_assoc ..).symm

theorem readsFail_scalar : ReadsFail p fault args ctx (.scalar i :: rs) ↔
      scalarArg p args i ctx = .error fault ∨
        (∃ v, scalarArg p args i ctx = .ok v) ∧ ReadsFail p fault args ctx rs :=
  readsFail_cons (bind_assoc ..).symm

theorem readsFail_str : ReadsFail p fault args ctx (.str i :: rs) ↔
      stringArg p args i = .error fault ∨
        (∃ s, stringArg p args i = .ok s) ∧ ReadsFail p fault args ctx rs :=
  readsFail_cons (bind_assoc ..).symm

theorem bind_reads {β : Type} {x : Eval α} {f : α → Eval β} {R : Prop} {P : α → Prop}
    (h : ∀ a, f a = .error fault ↔ R ∨ P a) : (x >>= f) = .error fault ↔
      (x = .error fault ∨ (∃ a, x = .ok a) ∧ R) ∨ ∃ a, x = .ok a ∧ P a := by
  rw [bind_eq_error, or_assoc]
  simp only [h, and_or_left, exists_or, exists_and_right]

theorem readsFail_nil : ReadsFail p fault args ctx [] ↔ False := Iff.rfl

theorem sorted_eq_error {key : α → F} {descending : Bool} {xs : List α} :
    p.sorted key descending xs = .error fault ↔
      fault = .panic ∧ p.sortBy key descending xs = none := by
  unfold Platform.sorted
  cases p.sortBy key descending xs with
  | none =>
    simp only [and_true]
    exact ⟨fun h => (error.inj h).symm, fun h => h ▸ rfl⟩
  | some ys =>
    refine ⟨fun h => ?_, fun h => ?_⟩
    · cases h
    · cases h.2

theorem evalString_ne_crash (hfault : fault.isCrash = true) (a : Arg F) :
    evalString p a ≠ .error fault := by
  unfold evalString
  split
  · exact nofun
  · exact invalid_ne_crash hfault _

theorem strings_ne_crash (hfault : fault.isCrash = true) (args : List (Arg F)) :
    args.mapM (evalString p) ≠ .error fault := by
  induction args with
  | nil => exact nofun
  | cons a args ih =>
    rw [mapM_cons]
    intro h
    rcases bind_eq_error.mp h with h | ⟨s, -, h⟩
    · exact evalString_ne_crash hfault a h
    · rcases bind_eq_error.mp h with h | ⟨rest, -, h⟩
      · exact ih h
      · cases h

theorem clampAll_eq_error {v : InstantVector F} {lo hi : F} : gather (fun s => do
        let y ← p.clamp s.2 lo hi
        return if p.isNan y then [] else [(s.1, y)]) v = .error fault ↔
      fault = .panic ∧ v ≠ [] ∧ p.le lo hi = false := by
  refine (gather_eq_error_iff_of (d := .panic) (P := fun _ => p.le lo hi = false)
    fun s _ e => ?_).trans ?_
  · unfold Platform.clamp
    by_cases hle : p.le lo hi = true
    · rw [if_pos hle, hle, ok_bind]
      exact iff_of_false nofun fun h => Bool.noConfusion h.2
    · simp only [hle, and_true]
      exact ⟨fun h => (error.inj h).symm, fun h => h ▸ rfl⟩
  · refine and_congr_right fun _ => ⟨fun ⟨s, hs, hle⟩ => ⟨ne_nil_of_mem hs, hle⟩, fun h => ?_⟩
    obtain ⟨s, hs⟩ := exists_mem_of_ne_nil v h.1
    exact ⟨s, hs, h.2⟩

theorem evalHistogram_eq_crash (hfault : fault.isCrash = true) {h : HistSample F → F}
    {name : String} :
    evalHistogram build ev h name args ctx = .error fault ↔
      ∃ sel, (args.head?.bind fun a => a.expr.selector?) = some sel ∧
        histSelectorWindows build ev sel ctx = .error fault := by
  rw [evalHistogram_eq]
  cases args.head?.bind fun a => a.expr.selector? with
  | none => exact iff_of_false (invalid_ne_crash hfault _) nofun
  | some sel =>
    simp only [Option.some.injEq, exists_eq_left']
    exact bind_eq_error_left fun _ => nofun

theorem evalHistogramQuantile_eq_error : evalHistogramQuantile p args ctx = .error fault ↔
      ReadsFail p fault args ctx [.scalar 0, .vector 1] ∨
        fault = .panic ∧ ∃ q v, scalarArg p args 0 ctx = .ok q ∧ vectorArg args 1 ctx = .ok v ∧
          ∃ h ∈ bucketGroups p v, p.sortBy fst false h.2 = none := by
  have hgather (q : F) (v : InstantVector F) : gather (fun h => do
      let buckets ← p.sorted fst false h.2
      return ((quantileFromBuckets p q buckets).map fun qv =>
        (h.1.filtered fun k _ => k ≠ "__name__", qv)).toList) (bucketGroups p v) = .error fault ↔
      fault = .panic ∧ ∃ h ∈ bucketGroups p v, p.sortBy fst false h.2 = none := by
    refine gather_eq_error_iff_of fun h _ e =>
      (bind_eq_error_left fun _ => ?_).trans sorted_eq_error
    nofun
  unfold evalHistogramQuantile
  rw [readsFail_scalar, readsFail_vector, readsFail_nil]
  refine (bind_reads fun q => bind_reads fun v => (hgather q v).trans (or_iff_right id).symm).trans
    (or_congr_right ⟨?_, ?_⟩)
  · rintro ⟨q, hq, v, hv, hpanic, h⟩
    exact ⟨hpanic, q, v, hq, hv, h⟩
  · rintro ⟨hpanic, q, v, hq, hv, h⟩
    exact ⟨q, hq, v, hv, hpanic, h⟩

/-- **Where a function crashes**: in reading its arguments or in its work on them. -/
theorem applyFn_eq_crash (hfault : fault.isCrash = true) (fn : Fn) (name : String) :
    applyFn p build ev fn name args ctx = .error fault ↔
      ReadsFail p fault args ctx (fn.reads args.length (nativeHistogram ev args).isSome) ∨
        FnFails p build ev fault args ctx fn := by
  have hpure {α : Type} (a : α) : (pure a : Eval α) = .error fault ↔ False :=
    iff_of_false (by rintro ⟨⟩) id
  have hok {α : Type} (a : α) : (.ok a : Eval α) = .error fault ↔ False :=
    iff_of_false (by rintro ⟨⟩) id
  have hinvalid {α : Type} (m : String) : (invalid m : Eval α) = .error fault ↔ False :=
    iff_of_false (invalid_ne_crash hfault m) id
  have hstrings (n : ℕ) : (args.drop n).mapM (evalString p) = .error fault ↔ False :=
    iff_of_false (strings_ne_crash hfault _) id
  cases fn with
  | histogramCount | histogramSum | histogramAvg | histogramStddev | histogramStdvar =>
    simp only [applyFn, reads, readsFail_nil, FnFails, evalHistogram_eq_crash hfault, false_or]
  | histogramFraction =>
    simp only [applyFn_fraction, reads, FnFails, bind_eq_error, readsFail_scalar, readsFail_nil,
      and_false, or_false]
    cases args[2]?.bind fun a => a.expr.selector? with
    | none => simp only [hinvalid, reduceCtorEq, and_false, false_and, exists_false, or_false,
        exists_and_right]
    | some sel =>
      simp only [bind_eq_error, hpure, and_false, exists_false, or_false, Option.some.injEq]
      constructor
      · rintro (h | ⟨l, hl, h | ⟨u, hu, h⟩⟩)
        · exact .inl (.inl h)
        · exact .inl (.inr ⟨⟨l, hl⟩, h⟩)
        · exact .inr ⟨l, u, sel, hl, hu, rfl, h⟩
      · rintro ((h | ⟨⟨l, hl⟩, h⟩) | ⟨l, u, _, hl, hu, rfl, h⟩)
        · exact .inl h
        · exact .inr ⟨l, hl, .inl h⟩
        · exact .inr ⟨l, hl, .inr ⟨u, hu, h⟩⟩
  | histogramQuantile =>
    simp only [applyFn, reads, FnFails]
    cases nativeHistogram ev args with
    | none => exact evalHistogramQuantile_eq_error
    | some sel =>
      simp only [Option.isSome_some, if_true, bind_eq_error, hpure, readsFail_scalar,
        readsFail_nil, and_false, exists_false, or_false, exists_and_right]
  | round =>
    simp only [applyFn, reads, FnFails, or_false]
    split_ifs with hlen
    · simp only [bind_eq_error, hok, hpure, readsFail_vector, readsFail_nil, and_false,
        exists_false, or_false]
    · simp only [bind_eq_error, hpure, readsFail_vector, readsFail_scalar, readsFail_nil, and_false,
        exists_false, or_false, exists_and_right]
  | date d =>
    cases args with
    | nil => simp only [applyFn, reads, FnFails, hok, length_nil, if_true, readsFail_nil,
        or_false]
    | cons a args =>
      simp only [applyFn, reads, FnFails, bind_eq_error, hpure, length_cons, Nat.add_one_ne_zero,
        if_false, readsFail_vector, readsFail_nil, and_false, exists_false, or_false]
      rfl
  | absent =>
    simp only [applyFn, reads, FnFails, vectorArg, bind_eq_error, hpure, readsFail_vector,
      readsFail_nil, and_false, exists_false, or_false]
  | scalar =>
    simp only [applyFn, reads, FnFails, readsFail_vector, readsFail_nil, and_false, or_false]
    refine bind_eq_error_left fun v => ?_
    split <;> rintro ⟨⟩
  | labelReplace =>
    have hnone {α β : Type} {x : Eval α} {f : α → Eval β} {R : Prop}
        (h : ∀ a, f a = .error fault ↔ R) :
        (x >>= f) = .error fault ↔ x = .error fault ∨ (∃ a, x = .ok a) ∧ R := by
      simpa using bind_reads (P := fun _ => False) fun a => (h a).trans (or_iff_left id).symm
    simp only [applyFn, reads, FnFails, readsFail_vector, readsFail_str, readsFail_nil, or_false]
    refine hnone fun v => hnone fun dst => hnone fun rep => hnone fun src => hnone fun regex => ?_
    refine iff_of_false ?_ id
    split
    · exact invalid_ne_crash hfault _
    · rintro ⟨⟩
  | clamp =>
    simp only [applyFn, reads, FnFails, readsFail_vector, readsFail_scalar, readsFail_nil]
    refine (bind_reads fun v => bind_reads fun lo => bind_reads fun hi =>
      clampAll_eq_error.trans (or_iff_right id).symm).trans (or_congr_right ⟨?_, ?_⟩)
    · rintro ⟨v, hv, lo, hlo, hi, hhi, hpanic, h⟩
      exact ⟨hpanic, v, lo, hi, hv, hlo, hhi, h⟩
    · rintro ⟨hpanic, v, lo, hi, hv, hlo, hhi, h⟩
      exact ⟨v, hv, lo, hlo, hi, hhi, hpanic, h⟩
  | sort =>
    simp only [applyFn, reads, FnFails, bind_eq_error, sorted_eq_error, readsFail_vector,
      readsFail_nil, and_false, or_false, exists_and_left, and_left_comm]
  | _ =>
    simp only [applyFn, reads, FnFails, bind_eq_error, hpure, hok, hstrings, readsFail_vector,
      readsFail_scalar, readsFail_str, readsFail_nil, and_false, exists_false, or_false,
      exists_and_right]

end

/-! ## Range functions -/

def RangeFn.fault : RangeFn → Fault
  | .quantileOverTime | .madOverTime => .panic
  | _ => .overflow

section
variable {p : Platform F} {build : Build}

theorem sorted_failsOnly (key : α → F) (descending : Bool) (xs : List α) :
    FailsOnly .panic (p.sorted key descending xs) := fun _ h => (sorted_eq_error.mp h).1

def QuantileOutside (p : Platform F) (q : F) (sorted : List F) : Prop :=
  sorted ≠ [] ∧ (sorted.length ≤ (quantileIndices p q sorted.length).1 ∨
    sorted.length ≤ (quantileIndices p q sorted.length).2)

theorem quantileOf_eq_error {q : F} {sorted : List F} {fault : Fault} :
    quantileOf p q sorted = .error fault ↔ fault = .panic ∧ QuantileOutside p q sorted := by
  unfold quantileOf QuantileOutside
  by_cases hnil : sorted = []
  · rw [if_pos hnil]
    exact iff_of_false nofun fun h => h.2.1 hnil
  · rw [if_neg hnil]
    dsimp only
    generalize quantileIndices p q sorted.length = indices
    cases hlo : sorted[indices.1]? with
    | none =>
      have hout := getElem?_eq_none_iff.mp hlo
      exact ⟨fun h => ⟨(error.inj h).symm, hnil, .inl hout⟩, fun h => h.1 ▸ rfl⟩
    | some x =>
      have hlo := (List.getElem?_eq_some_iff.mp hlo).1
      cases hhi : sorted[indices.2]? with
      | none =>
        have hout := getElem?_eq_none_iff.mp hhi
        exact ⟨fun h => ⟨(error.inj h).symm, hnil, .inr hout⟩, fun h => h.1 ▸ rfl⟩
      | some y =>
        have hhi := (List.getElem?_eq_some_iff.mp hhi).1
        refine iff_of_false (fun h => ?_) fun h => ?_
        · split_ifs at h
        · omega

theorem sorted_eq_ok {key : α → F} {descending : Bool} {xs ys : List α} :
    p.sorted key descending xs = .ok ys ↔ p.sortBy key descending xs = some ys := by
  unfold Platform.sorted
  cases p.sortBy key descending xs with
  | none => exact iff_of_false nofun nofun
  | some zs => exact ⟨fun h => congrArg some (ok.inj h), fun h => by cases h; rfl⟩

/-- Values of which a quantile cannot be taken: their sort panics, or the quantile lies outside. -/
def QuantilePanics (p : Platform F) (q : F) (values : List F) : Prop :=
  p.sortBy id false values = none ∨
    ∃ sorted, p.sortBy id false values = some sorted ∧ QuantileOutside p q sorted

theorem quantile_eq_error {q : F} {values : List F} {k : F → α} {fault : Fault} :
    (p.sorted id false values >>= fun sorted => quantileOf p q sorted >>= fun x =>
        (.ok (k x) : Eval α)) = .error fault ↔ fault = .panic ∧ QuantilePanics p q values := by
  rw [bind_eq_error, sorted_eq_error]
  constructor
  · rintro (⟨rfl, hsort⟩ | ⟨sorted, hsorted, h⟩)
    · exact ⟨rfl, .inl hsort⟩
    · rcases bind_eq_error.mp h with h | ⟨x, -, h⟩
      · obtain ⟨rfl, hout⟩ := quantileOf_eq_error.mp h
        exact ⟨rfl, .inr ⟨sorted, sorted_eq_ok.mp hsorted, hout⟩⟩
      · cases h
  · rintro ⟨rfl, hsort | ⟨sorted, hsorted, hout⟩⟩
    · exact .inl ⟨rfl, hsort⟩
    · exact .inr ⟨sorted, sorted_eq_ok.mpr hsorted,
        bind_eq_error.mpr (.inl (quantileOf_eq_error.mpr ⟨rfl, hout⟩))⟩

theorem quantileOf_failsOnly (q : F) (sorted : List F) :
    FailsOnly .panic (quantileOf p q sorted) := fun _ h => (quantileOf_eq_error.mp h).1

theorem windowedRateVal_failsOnly (vals : List (ℤ × F)) :
    FailsOnly .overflow (windowedRateVal p build vals) := by
  unfold windowedRateVal rateOverSamples
  split
  · split_ifs
    · exact .ok _
    · refine (FailsOnly.i64 build _).bind fun span => ?_
      dsimp only
      split_ifs <;> exact .ok _
  · exact .ok _

theorem linearRegression_failsOnly (vals : List (ℤ × F)) :
    FailsOnly .overflow (linearRegression p build vals) := by
  refine (FailsOnly.mapM (fun v => (FailsOnly.i64 build _).bind fun _ => .ok _) vals).bind
    fun xs => ?_
  dsimp only
  split_ifs
  · exact .ok _
  · exact (FailsOnly.i64 build _).bind fun _ => .ok _

theorem rangeFnValue_failsOnly (f : RangeFn) (vals : List (ℤ × F)) (args : List (Expr F))
    (ctx : EvalContext) : FailsOnly f.fault (rangeFnValue p build f vals args ctx) := by
  cases f with
  | rate => exact (windowedRateVal_failsOnly vals).bind fun _ => .ok _
  | increase =>
    exact (windowedRateVal_failsOnly vals).bind fun _ => (FailsOnly.i64 build _).bind fun _ => .ok _
  | quantileOverTime =>
    unfold rangeFnValue
    dsimp only
    split
    · split_ifs
      · exact (sorted_failsOnly _ _ _).bind fun _ => (quantileOf_failsOnly _ _).bind fun _ => .ok _
      · exact .ok _
    · exact .ok _
  | madOverTime =>
    exact (sorted_failsOnly _ _ _).bind fun _ => (quantileOf_failsOnly _ _).bind fun _ =>
      (sorted_failsOnly _ _ _).bind fun _ => (quantileOf_failsOnly _ _).bind fun _ => .ok _
  | predictLinear =>
    unfold rangeFnValue
    split_ifs
    · exact .ok _
    · exact (linearRegression_failsOnly vals).bind fun _ => .ok _
  | _ =>
    unfold rangeFnValue
    dsimp only
    repeat' split
    all_goals first
      | exact .ok _
      | exact (FailsOnly.i64 build _).bind fun _ => by split_ifs <;> exact .ok _

/-- **Where a range function crashes**: in its windows, or in the value of one of them. -/
theorem evalRangeFn_eq_crash {fault : Fault} (hfault : fault.isCrash = true) {name : String}
    {range : Arg F} {args : List (Arg F)} {ctx : EvalContext} :
    evalRangeFn p build name range args ctx = .error fault ↔ range.windows ctx = .error fault ∨
        ∃ ws, range.windows ctx = .ok ws ∧ name ≠ "absent_over_time" ∧
          ∃ w ∈ ws, applyRangeFn p build name (w.2.map fun s => (s.timestampNs, s.value))
            (args.map Arg.expr) ctx = .error fault := by
  rw [evalRangeFn_eq, bind_eq_error]
  refine or_congr_right (exists_congr fun ws => and_congr_right fun _ => ?_)
  by_cases hname : name = "absent_over_time"
  · rw [if_pos hname]
    exact iff_of_false nofun fun h => h.1 hname
  · rw [if_neg hname]
    have hturn (w : LabelSet × List (Sample F)) (e : Fault) :
        (applyRangeFn p build name (w.2.map fun s => (s.timestampNs, s.value)) (args.map Arg.expr)
          ctx >>= fun v => (.ok (v.map fun v => (w.1, v)).toList : Eval (InstantVector F))) =
            .error e ↔
          applyRangeFn p build name (w.2.map fun s => (s.timestampNs, s.value))
            (args.map Arg.expr) ctx = .error e := bind_eq_error_left fun _ => nofun
    constructor
    · intro h
      obtain ⟨w, hw, hf⟩ := gather_eq_error h
      exact ⟨hname, w, hw, (hturn w fault).mp hf⟩
    · rintro ⟨-, w, hw, hf⟩
      refine (gather_eq_error_iff fun w' _ e he => ?_).mpr ⟨w, hw, (hturn w fault).mpr hf⟩
      -- all windows fail alike: the fault is that of the function
      have he := (hturn w' e).mp he
      unfold applyRangeFn at he hf
      split_ifs at he hf
      cases hfn : RangeFn.ofName name with
      | none =>
        rw [hfn] at hf
        exact absurd hf (invalid_ne_crash hfault _)
      | some f =>
        rw [hfn] at he hf
        have honly (vals : List (ℤ × F)) : FailsOnly f.fault (do
            let result ← rangeFnValue p build f vals (args.map Arg.expr) ctx
            return result.filter fun v => !p.isNan v : Eval (Option F)) :=
          (rangeFnValue_failsOnly f vals _ ctx).bind fun _ => .ok _
        rw [honly _ e he, honly _ fault hf]

end

/-! ## Subqueries -/

def subStep (head : RangeHead) : ℤ := head.stepNs.getD 60000000000

def EvalContext.atStep (ctx : EvalContext) (step t : ℤ) : EvalContext :=
  { ctx with tsNs := t, subqueryStepNs := some step }

section
variable (p : Platform F) (build : Build) (ev : Evaluator F)

/-- The loop of a subquery gets from one step to another in some turns. -/
def SubReaches (e : Expr F) (ctx : EvalContext) (step windowEnd : ℤ) : ℤ → ℕ → ℤ → Prop :=
  Reaches (fun t => t ≤ windowEnd) (fun t => i64 build (t + step))
    fun t => eval p build ev e (ctx.atStep step t)

variable {p build ev}

theorem subqueryWindows_eq_error {fault : Fault} {e : Expr F} {ctx : EvalContext}
    {step windowStart windowEnd : ℤ} :
    subqueryWindows build (eval p build ev e) ctx step windowStart windowEnd = .error fault ↔
      i64 build (windowStart + step) = .error fault ∨
        ∃ first, i64 build (windowStart + step) = .ok first ∧
          ((∃ n t, n < maxTurns ∧ SubReaches p build ev e ctx step windowEnd first n t ∧
            t ≤ windowEnd ∧ (eval p build ev e (ctx.atStep step t) = .error fault ∨
              (∃ v, eval p build ev e (ctx.atStep step t) = .ok v) ∧
                i64 build (t + step) = .error fault)) ∨
          .hang = fault ∧ ∃ t, SubReaches p build ev e ctx step windowEnd first maxTurns t) := by
  unfold subqueryWindows
  rw [bind_eq_error]
  refine or_congr_right (exists_congr fun first => and_congr_right fun _ => ?_)
  refine stepLoop_eq_error.trans ?_
  simp only [TurnFails, decide_eq_true_iff]
  rfl

end

/-! ## Aggregations and operators -/

def AggregationOp.readsScalar : AggregationOp → Bool
  | .topK | .bottomK | .quantile => true
  | _ => false

/-- An aggregation fails in its work on the operand's vector. -/
def AggregateFails (p : Platform F) (fault : Fault) (param : Option (Arg F)) (ctx : EvalContext)
    (v : InstantVector F) : AggregationOp → Prop
  | .topK =>
    fault = .panic ∧ (∃ n, paramScalar p param p.one ctx = .ok n) ∧ p.sortBy snd true v = none
  | .bottomK =>
    fault = .panic ∧ (∃ n, paramScalar p param p.one ctx = .ok n) ∧ p.sortBy snd false v = none
  | .quantile =>
    fault = .panic ∧ ∃ q, paramScalar p param (p.ofRat 0.5) ctx = .ok q ∧
      QuantilePanics p q (v.map snd)
  | _ => False

section
variable {p : Platform F} {fault : Fault} {ctx : EvalContext}

theorem evalScalar_eq_error {a : Arg F} :
    evalScalar p a ctx = .error fault ↔ a.expr.literal? = none ∧ a.eval ctx = .error fault := by
  rw [evalScalar_eq]
  cases a.expr.literal? with
  | some n => exact iff_of_false nofun nofun
  | none =>
    refine (bind_eq_error_left fun v => ?_).trans (and_iff_right rfl).symm
    split <;> nofun

theorem paramScalar_eq_error {param : Option (Arg F)} {default : F} :
    paramScalar p param default ctx = .error fault ↔
      ∃ a ∈ param, a.expr.literal? = none ∧ a.eval { ctx with lockHeld := true } =
        .error fault := by
  cases param with
  | none => exact iff_of_false nofun nofun
  | some a =>
    simp only [paramScalar, evalScalar_eq_error, Option.mem_some_iff, exists_eq_left']

section
variable (hfault : fault.isCrash = true)
include hfault

/-- **Where an aggregation crashes**: in its operand, at the lock, in its parameter or in its
work. -/
theorem evalAggregation_eq_crash {op : AggregationOp} {grouping : Grouping} {param : Option (Arg F)}
    {operand : EvalContext → Eval (InstantVector F)} :
    evalAggregation p op grouping param operand ctx = .error fault ↔ operand ctx = .error fault ∨
        ∃ v, operand ctx = .ok v ∧ (ctx.lockHeld = true ∧ .hang = fault ∨ ctx.lockHeld = false ∧
              ((op.readsScalar = true ∧ ∃ a ∈ param, a.expr.literal? = none ∧
                  a.eval { ctx with lockHeld := true } = .error fault) ∨
                AggregateFails p fault param ctx v op)) := by
  unfold evalAggregation
  rw [bind_eq_error]
  refine or_congr_right (exists_congr fun v => and_congr_right fun _ => ?_)
  cases hlock : ctx.lockHeld with
  | true =>
    simp only [if_true, error_bind, true_and, Bool.true_eq_false, false_and, or_false]
    exact ⟨error.inj, fun h => h ▸ rfl⟩
  | false =>
    simp only [Bool.false_eq_true, if_false, false_and, true_and, false_or]
    have htop (descending : Bool) (k : F → List (LabelSet × F) → InstantVector F) :
        (paramScalar p param p.one ctx >>= fun n => p.sorted snd descending v >>= fun series =>
            pure (k n series) : Eval (InstantVector F)) = .error fault ↔
          (∃ a ∈ param, a.expr.literal? = none ∧
            a.eval { ctx with lockHeld := true } = .error fault) ∨
          fault = .panic ∧ (∃ n, paramScalar p param p.one ctx = .ok n) ∧
            p.sortBy snd descending v = none := by
      rw [bind_eq_error, paramScalar_eq_error]
      refine or_congr_right ⟨?_, ?_⟩
      · rintro ⟨n, hn, h⟩
        rcases bind_eq_error.mp h with h | ⟨series, -, h⟩
        · obtain ⟨rfl, hsort⟩ := sorted_eq_error.mp h
          exact ⟨rfl, ⟨n, hn⟩, hsort⟩
        · cases h
      · rintro ⟨rfl, ⟨n, hn⟩, h⟩
        exact ⟨n, hn, bind_eq_error.mpr (.inl (sorted_eq_error.mpr ⟨rfl, h⟩))⟩
    cases op with
    | topK =>
      simp only [readsScalar, AggregateFails, true_and]
      exact htop true fun n series => series.take (p.toUsize n)
    | bottomK =>
      simp only [readsScalar, AggregateFails, true_and]
      exact htop false fun n series => series.take (p.toUsize n)
    | quantile =>
      simp only [readsScalar, AggregateFails, true_and]
      rw [bind_eq_error, paramScalar_eq_error]
      refine or_congr_right ⟨?_, ?_⟩
      · rintro ⟨q, hq, h⟩
        obtain ⟨rfl, hpanics⟩ := quantile_eq_error.mp h
        exact ⟨rfl, q, hq, hpanics⟩
      · rintro ⟨rfl, q, hq, h⟩
        exact ⟨q, hq, quantile_eq_error.mpr ⟨rfl, h⟩⟩
    | countValues =>
      refine iff_of_false (fun h => ?_) (by rintro (⟨h, -⟩ | h) <;> cases h)
      cases param with
      | none => exact invalid_ne_crash hfault _ h
      | some a =>
        rcases bind_eq_error.mp h with h | ⟨label, -, h⟩
        · exact evalString_ne_crash hfault a h
        · cases h
    | _ => exact iff_of_false nofun (by rintro (⟨h, -⟩ | h) <;> cases h)

theorem applyBinaryOp_ne_crash (op : BinaryOp) (x y : F)
    (returnBool : Bool) : applyBinaryOp p op x y returnBool ≠ .error fault := by
  cases op with
  | add | sub | mul | div | mod | pow | eq | ne | gt | lt | ge | le => exact nofun
  | _ => exact invalid_ne_crash hfault _

theorem emit_ne_crash (b : BinaryHead) (labels : LabelSet)
    (x y : F) : emit p b labels x y ≠ .error fault := by
  intro h
  rcases bind_eq_error.mp h with h | ⟨v, -, h⟩
  · exact applyBinaryOp_ne_crash hfault _ _ _ _ h
  · cases h

theorem gather_emit_ne_crash {b : BinaryHead} {labels : α → LabelSet} {x y : α → F} {as : List α} :
    gather (fun a => emit p b (labels a) (x a) (y a)) as ≠ .error fault := by
  intro h
  obtain ⟨a, -, h⟩ := gather_eq_error h
  exact emit_ne_crash hfault b _ _ _ h

theorem evalBinary_ne_crash (b : BinaryHead) (l r : Expr F)
    (lhs rhs : InstantVector F) : evalBinary p b l r lhs rhs ≠ .error fault := by
  have hvector : evalVectorBinary p b lhs rhs ≠ .error fault := by
    have hmatch : gather (fun l => matchSeries p b (b.matching.getD (.all, .oneToOne)).2 l
        (rhs.filter fun r => matchKey (b.matching.getD (.all, .oneToOne)).1 r.1 =
          matchKey (b.matching.getD (.all, .oneToOne)).1 l.1)) lhs ≠ .error fault := by
      intro h
      obtain ⟨l, -, h⟩ := gather_eq_error h
      unfold matchSeries at h
      split at h
      · split at h
        · exact emit_ne_crash hfault b _ _ _ h
        · cases h
      · exact gather_emit_ne_crash hfault h
      · exact gather_emit_ne_crash hfault h
    unfold evalVectorBinary
    split
    · exact nofun
    · exact nofun
    · exact nofun
    · exact hmatch
  unfold evalBinary
  split
  · intro h
    rcases bind_eq_error.mp h with h | ⟨v, -, h⟩
    · exact applyBinaryOp_ne_crash hfault _ _ _ _ h
    · cases h
  · exact gather_emit_ne_crash hfault
  · exact gather_emit_ne_crash hfault
  · exact hvector

end

end

end Parqtel.Query
