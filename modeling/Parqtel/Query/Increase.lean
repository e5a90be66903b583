import Parqtel.Query.Load

/-!
# The increase of a counter

A counter grows until it is reset, so a sample below the one before it counts from zero.
`segmentIncrease` adds up the neighbours of a list of samples for the evaluator,
`windowedIncrease` those of a window for the plan engine; on numbers both are `increase`.
-/

namespace Parqtel.Query

open List Prod

section
variable {F : Type} (p : Platform F) (build : Build)

def windowedIncrease (window : List (ℤ × MetricValue F)) : F :=
  (neighbours window).foldl (fun increase pair =>
    let v0 := vToF64 p pair.1.2
    let v1 := vToF64 p pair.2.2
    p.add increase (if p.le v0 v1 then p.sub v1 v0 else v1)) p.zero

def windowedRate (window : List (ℤ × MetricValue F)) (rangeNs : F) : Eval (Option F) :=
  match window.head?, window.getLast? with
  | some first, some last =>
    if window.length < 2 then .ok none
    else do
      let span := seconds p (← i64 build (last.1 - first.1))
      if p.le span p.zero then return none
      let rate := p.div (windowedIncrease p window) span
      let windowS := p.div rangeNs (p.ofRat 1000000000)
      if p.lt span windowS then
        let slack := p.min (p.div (p.sub windowS span) (p.ofRat 2)) (p.mul span (p.ofRat 0.1))
        return some (p.div (p.mul rate (p.add span (p.mul (p.ofRat 2) slack))) span)
      else return some rate
  | _, _ => .ok none

theorem windowedIncrease_eq (window : List (ℤ × MetricValue F)) :
    windowedIncrease p window = segmentIncrease p (window.map fun q => (q.1, vToF64 p q.2)) := by
  rw [segmentIncrease, neighbours, ← map_tail, zip_map, foldl_map]
  rfl

end

/-! ## On numbers -/

def gain (x y : ℚ) : ℚ := if x ≤ y then y - x else y

def increase : List ℚ → ℚ
  | x :: y :: l => gain x y + increase (y :: l)
  | _ => 0

def numeric (xs : List (ℤ × ℚ)) : List (ℤ × Option ℚ) := xs.map fun x => (x.1, some x.2)

theorem segmentIncrease_numeric (xs : List (ℤ × ℚ)) :
    segmentIncrease exact (numeric xs) = some (increase (xs.map snd)) := by
  have hrun : ∀ (xs : List (ℤ × ℚ)) (t : ℚ), (neighbours (numeric xs)).foldl
      (fun total w => exact.add total
        (if exact.le w.1.2 w.2.2 then exact.sub w.2.2 w.1.2 else w.2.2)) (some t) =
      some (t + increase (xs.map snd)) := by
    intro xs
    induction xs with
    | nil => simp [neighbours, numeric, increase]
    | cons x l ih =>
      cases l with
      | nil => simp [neighbours, numeric, increase]
      | cons y l =>
        intro t
        have hgain : exact.add (some t) (if exact.le (some x.2) (some y.2) then
            exact.sub (some y.2) (some x.2) else some y.2) = some (t + gain x.2 y.2) := by
          simp only [exact, Exact.test, Exact.lift₂, gain, decide_eq_true_eq]
          split_ifs <;> rfl
        show (neighbours (numeric (y :: l))).foldl _ (exact.add (some t) _) = _
        rw [hgain, ih, add_assoc]
        rfl
  rw [← zero_add (increase _)]
  exact hrun xs 0

theorem increase_append (xs : List ℚ) (x : ℚ) (ys : List ℚ) :
    increase (xs ++ x :: ys) = increase (xs ++ [x]) + increase (x :: ys) := by
  induction xs with
  | nil => simp [increase]
  | cons a xs ih =>
    cases xs with
    | nil => simp [increase]
    | cons b xs => simpa [increase, add_assoc] using ih

/-- A reset makes the increase larger than what the ends differ by. -/
theorem increase_cons (x : ℚ) (l : List ℚ) (hx : 0 ≤ x) (hl : ∀ y ∈ l, 0 ≤ y) :
    0 ≤ increase (x :: l) ∧ l.getLastD x - x ≤ increase (x :: l) ∧
    (increase (x :: l) = l.getLastD x - x ↔ (x :: l).IsChain (· ≤ ·)) := by
  induction l generalizing x with
  | nil => simp [increase]
  | cons y l ih =>
    rw [forall_mem_cons] at hl
    obtain ⟨hpos, hle, heq⟩ := ih y hl.1 hl.2
    rw [getLastD_cons, increase, isChain_cons_cons, ← heq, gain]
    split_ifs with h
    · exact ⟨by linarith, by linarith, by constructor <;> intro <;> grind⟩
    · exact ⟨by linarith, by linarith, by constructor <;> intro <;> grind⟩

/-- **The increase of a counter** is never negative and at least the difference of its ends, with
equality exactly if no sample falls; it adds up at a shared sample; and both engines compute it. -/
theorem segmentIncrease_resets :
    (∀ xs : List (ℤ × ℚ), (∀ x ∈ xs, 0 ≤ x.2) →
      ∃ v, segmentIncrease exact (numeric xs) = some v ∧ 0 ≤ v ∧
        ∀ first ∈ xs.head?, ∀ last ∈ xs.getLast?, last.2 - first.2 ≤ v ∧
          (v = last.2 - first.2 ↔ xs.IsChain fun a b => a.2 ≤ b.2)) ∧
    (∀ (xs : List (ℤ × ℚ)) x ys, exact.add (segmentIncrease exact (numeric (xs ++ [x])))
      (segmentIncrease exact (numeric (x :: ys))) =
        segmentIncrease exact (numeric (xs ++ x :: ys))) ∧
    ∀ {F : Type} (p : Platform F) window, windowedIncrease p window =
      segmentIncrease p (window.map fun q => (q.1, vToF64 p q.2)) := by
  refine ⟨fun xs hxs => ⟨_, segmentIncrease_numeric xs, ?_⟩, fun xs x ys => ?_,
    fun p window => windowedIncrease_eq p window⟩
  · cases xs with
    | nil => simp [increase]
    | cons x l =>
      rw [forall_mem_cons] at hxs
      obtain ⟨hpos, hle, heq⟩ := increase_cons x.2 (l.map snd) hxs.1 (forall_mem_map.mpr hxs.2)
      refine ⟨hpos, fun first hfirst last hlast => ?_⟩
      have hlast : (l.map snd).getLastD x.2 = last.2 := by
        rw [getLast?_cons, Option.mem_some_iff] at hlast
        rw [← hlast, getLastD_eq_getLast?, getLast?_map, Option.getD_map]
      cases Option.some.inj hfirst
      rw [hlast] at hle heq
      exact ⟨hle, heq.trans (by rw [← map_cons, isChain_map])⟩
  · simp only [segmentIncrease_numeric, map_append, map_cons, map_nil]
    rw [increase_append _ x.2 (ys.map snd)]
    rfl

end Parqtel.Query
