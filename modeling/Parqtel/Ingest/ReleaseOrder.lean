import Parqtel.Ingest.Rotator

/-!
# What the flush order releases

`FlushOrder` numbers the flushes and holds back what a completed flush would release until
all earlier ones have completed, once for the WAL commit and once for the buffer drop. A run
is any list of its calls in which no number completes twice. Each of the two frontiers then
holds exactly the completions of its kind (`run_wal_holds`, `run_drop_holds`), so a call
returns the maximum over the numbers that it lets join the finished ones, and a number that
is finished joined at exactly one call.
-/

namespace Parqtel.Ingest

open Lib Frontier List Prod

namespace FlushOrder

inductive Call where
  | begin
  | walComplete (seq covered : ℕ)
  | dropComplete (seq : ℕ) (sealed : List ℕ)
deriving DecidableEq, Repr

def call (o : FlushOrder) : Call → FlushOrder
  | .begin => o.begin.2
  | .walComplete seq covered => (o.walComplete seq covered).2
  | .dropComplete seq sealed => (o.dropComplete seq sealed).2

def run (calls : List Call) : FlushOrder := calls.foldl call new

def Call.wal? : Call → Option (ℕ × ℕ)
  | .walComplete seq covered => some (seq, covered)
  | _ => none

def Call.drop? : Call → Option (ℕ × List ℕ)
  | .dropComplete seq sealed => some (seq, sealed)
  | _ => none

def walDone (calls : List Call) : List (ℕ × ℕ) := calls.filterMap Call.wal?

def dropDone (calls : List Call) : List (ℕ × List ℕ) := calls.filterMap Call.drop?

/-! ## The frontiers along a run -/

theorem run_concat (calls : List Call) (c : Call) : run (calls ++ [c]) = (run calls).call c := by
  simp [run]

variable {α : Type*}

theorem nodup_of_concat {cs ds : List (ℕ × α)} (h : ((cs ++ ds).map fst).Nodup) :
    (cs.map fst).Nodup :=
  h.sublist ((sublist_append_left cs ds).map fst)

theorem run_wal_holds (calls : List Call) (h : ((walDone calls).map fst).Nodup) :
    Holds (walDone calls) (run calls).wal := by
  induction calls using List.reverseRecOn with
  | nil => exact holds_empty
  | append_singleton calls c ih =>
    rw [run_concat]
    unfold walDone at h ih ⊢
    rw [filterMap_append] at h ⊢
    have hbefore := ih (nodup_of_concat h)
    cases c with
    | begin => exact (append_nil _).symm ▸ hbefore
    | walComplete seq covered => exact (hbefore.complete max h).1
    | dropComplete seq sealed => exact (append_nil _).symm ▸ hbefore

theorem run_drop_holds (calls : List Call) (h : ((dropDone calls).map fst).Nodup) :
    Holds (dropDone calls) (run calls).drop := by
  induction calls using List.reverseRecOn with
  | nil => exact holds_empty
  | append_singleton calls c ih =>
    rw [run_concat]
    unfold dropDone at h ih ⊢
    rw [filterMap_append] at h ⊢
    have hbefore := ih (nodup_of_concat h)
    cases c with
    | begin => exact (append_nil _).symm ▸ hbefore
    | walComplete seq covered => exact (append_nil _).symm ▸ hbefore
    | dropComplete seq sealed => exact (hbefore.complete maxInto h).1

variable {i : ℕ}

theorem done_sublist {completion : Call → Option (ℕ × α)} {calls : List Call} {b : Call} {c : ℕ × α}
    (hb : calls[i]? = some b) (hc : completion b = some c) :
    ((calls.take i).filterMap completion ++ [c]).Sublist (calls.filterMap completion) := by
  have hsub := (take_sublist (i + 1) calls).filterMap completion
  rw [take_add_one, hb, filterMap_append] at hsub
  simpa only [Option.toList_some, filterMap_cons, hc, filterMap_nil] using hsub

/-! ## Element-wise maxima -/

theorem length_maxInto (as bs : List ℕ) : (maxInto as bs).length = as.length := by
  fun_induction maxInto as bs with
  | case1 a as b bs ih => simp [ih]
  | case2 as => rfl
  | case3 bs hbs => rfl

theorem getD_maxInto {as bs : List ℕ} (h : i < as.length) :
    (maxInto as bs).getD i 0 = max (as.getD i 0) (bs.getD i 0) := by
  fun_induction maxInto as bs generalizing i with
  | case1 a as b bs ih =>
    cases i with
    | zero => rfl
    | succ i => simpa using ih (Nat.lt_of_succ_lt_succ h)
  | case2 as => simp
  | case3 bs hbs => cases h

theorem foldl_maxInto (vs : List (List ℕ)) (v : List ℕ) : (vs.foldl maxInto v).length = v.length ∧
      ∀ i < v.length, (vs.foldl maxInto v).getD i 0 =
        (vs.map fun w => w.getD i 0).foldl max (v.getD i 0) := by
  induction vs generalizing v with
  | nil => exact ⟨rfl, fun _ _ => rfl⟩
  | cons w vs ih =>
    obtain ⟨hlength, hat⟩ := ih (maxInto v w)
    rw [length_maxInto] at hlength hat
    refine ⟨hlength, fun i hi => ?_⟩
    rw [foldl_cons, hat i hi, getD_maxInto hi, map_cons, foldl_cons]

/-- The combination of vectors has the length of the first, and every entry is the greatest
of the entries at its place. -/
theorem combineAll_maxInto {vs : List (List ℕ)} {m : List ℕ} (h : combineAll maxInto vs = some m) :
    (∀ v ∈ vs.head?, m.length = v.length) ∧
      ∀ i < m.length, IsGreatest {c | ∃ v ∈ vs, c = v.getD i 0} (m.getD i 0) := by
  cases vs with
  | nil => cases h
  | cons v vs =>
    obtain ⟨hlength, hat⟩ := foldl_maxInto vs v
    obtain rfl := Option.some.inj h
    refine ⟨fun w hw => Option.some.inj hw ▸ hlength, fun i hi => ?_⟩
    have hmax : combineAll max ((v :: vs).map fun w => w.getD i 0) =
        some ((vs.foldl maxInto v).getD i 0) := by
      rw [hat i (hlength ▸ hi)]
      rfl
    have hset : {c | ∃ w ∈ v :: vs, c = w.getD i 0} =
        {c | c ∈ (v :: vs).map fun w => w.getD i 0} := by
      ext c
      simp only [Set.mem_ofPred_eq, mem_map]
      exact ⟨fun ⟨w, hw, hc⟩ => ⟨w, hw, hc.symm⟩, fun ⟨w, hw, hc⟩ => ⟨w, hw, hc.symm⟩⟩
    rw [hset]
    exact combineAll_max_eq_some_iff.mp hmax

theorem head_valuesBetween {cs : List (ℕ × α)} {lo hi : ℕ} {v : α} (hlt : lo < hi)
    (h : (cs.map fst).Nodup) (hmem : (lo, v) ∈ cs) :
    (valuesBetween cs lo hi).head? = some v := by
  unfold valuesBetween
  rw [show hi - lo = (hi - lo - 1) + 1 by omega, range'_succ]
  rw [filterMap_cons_some (f := fun k => cs.lookup k) ((lookup_eq_some h).mpr hmem)]
  rfl

/-! ## The two calls -/

section WalCall

variable {calls : List Call} {seq covered : ℕ}
  (h : ((walDone calls ++ [(seq, covered)]).map fst).Nodup)

include h

/-- **The returned position** is the greatest one of the numbers that join. -/
theorem walComplete_eq_some_iff (p : ℕ) : ((run calls).walComplete seq covered).1 = some p ↔
      IsGreatest {c | ∃ n, Joins (walDone calls) (seq, covered) n ∧
        (n, c) ∈ walDone calls ++ [(seq, covered)]} p := by
  have hholds := run_wal_holds calls (nodup_of_concat h)
  have hset : {c | ∃ n, Joins (walDone calls) (seq, covered) n ∧
      (n, c) ∈ walDone calls ++ [(seq, covered)]} = {c | c ∈ valuesBetween
        (walDone calls ++ [(seq, covered)]) (run calls).wal.frontier
        ((run calls).wal.complete max seq covered).2.frontier} := by
    ext c
    exact (hholds.mem_released h max).symm
  rw [hset, ← combineAll_max_eq_some_iff, ← (hholds.complete max h).2]
  rfl

theorem isSome_walComplete : ((run calls).walComplete seq covered).1.isSome ↔
      (run calls).wal.frontier ∈ (walDone calls ++ [(seq, covered)]).map fst :=
  (run_wal_holds calls (nodup_of_concat h)).isSome_complete h max

end WalCall

section DropCall

variable {calls : List Call} {seq : ℕ} {sealed : List ℕ}
  (h : ((dropDone calls ++ [(seq, sealed)]).map fst).Nodup)

include h

theorem isSome_dropComplete : ((run calls).dropComplete seq sealed).1.isSome ↔
      (run calls).drop.frontier ∈ (dropDone calls ++ [(seq, sealed)]).map fst :=
  (run_drop_holds calls (nodup_of_concat h)).isSome_complete h maxInto

/-- **The returned epochs** are the greatest ones, shard by shard, of the numbers that join. -/
theorem dropComplete_eq_some {v : List ℕ} (hv : ((run calls).dropComplete seq sealed).1 = some v) :
    (∀ w, ((run calls).drop.frontier, w) ∈ dropDone calls ++ [(seq, sealed)] →
      v.length = w.length) ∧
      ∀ s < v.length, IsGreatest {e | ∃ n w, Joins (dropDone calls) (seq, sealed) n ∧
        (n, w) ∈ dropDone calls ++ [(seq, sealed)] ∧ e = w.getD s 0} (v.getD s 0) := by
  have hholds := run_drop_holds calls (nodup_of_concat h)
  obtain ⟨hafter, hreleased⟩ := hholds.complete maxInto h
  obtain ⟨hlength, hgreatest⟩ := combineAll_maxInto (hreleased.symm.trans hv)
  refine ⟨fun w hw => hlength w ?_, fun s hs => ?_⟩
  · refine head_valuesBetween ?_ h hw
    have hmem := (isSome_dropComplete h).mp (hv ▸ rfl)
    exact ((hholds.joins_iff h maxInto).mp (hholds.joins_frontier hmem)).2
  · have hset : {e | ∃ n w, Joins (dropDone calls) (seq, sealed) n ∧
        (n, w) ∈ dropDone calls ++ [(seq, sealed)] ∧ e = w.getD s 0} =
        {e | ∃ w ∈ valuesBetween (dropDone calls ++ [(seq, sealed)]) (run calls).drop.frontier
          ((run calls).drop.complete maxInto seq sealed).2.frontier, e = w.getD s 0} := by
      ext e
      constructor
      · rintro ⟨n, w, hjoins, hmem, he⟩
        exact ⟨w, (hholds.mem_released h maxInto).mpr ⟨n, hjoins, hmem⟩, he⟩
      · rintro ⟨w, hw, he⟩
        obtain ⟨n, hjoins, hmem⟩ := (hholds.mem_released h maxInto).mp hw
        exact ⟨n, w, hjoins, hmem, he⟩
    rw [hset]
    exact hgreatest s hs

end DropCall

/-- The number `n` joins the finished ones with the call at `i`, so its value is among those
that this call combines. -/
def Contributes (completion : Call → Option (ℕ × α)) (calls : List Call) (i n : ℕ) : Prop :=
  ∃ b c, calls[i]? = some b ∧ completion b = some c ∧
    Joins ((calls.take i).filterMap completion) c n

theorem Contributes.finished {completion : Call → Option (ℕ × α)} {calls : List Call} {n : ℕ}
    (h : Contributes completion calls i n) :
    Finished (calls.filterMap completion) n := by
  obtain ⟨b, c, hb, hc, hjoins, -⟩ := h
  exact hjoins.mono (done_sublist hb hc).subset

/-- **The finished prefix is released, and only it.** In a run without a number completed
twice, a call returns a value exactly when the frontier (the first number that has not
completed) completes with it, and the value is the maximum over the numbers that become
finished with the call; every number that is finished in the end contributed to exactly one
call, and a number that waits for an earlier one to none. -/
theorem releases_finished_numbers (calls : List Call)
    (hwal : ((walDone calls).map fst).Nodup)
    (hdrop : ((dropDone calls).map fst).Nodup) :
    (∀ i seq covered, calls[i]? = some (.walComplete seq covered) →
      let o := run (calls.take i)
      let done := walDone (calls.take i)
      (∀ n, n < o.wal.frontier ↔ Finished done n) ∧
      ((o.walComplete seq covered).1.isSome ↔
        o.wal.frontier ∈ (done ++ [(seq, covered)]).map fst) ∧
      ∀ p, (o.walComplete seq covered).1 = some p ↔
        IsGreatest {c | ∃ n, Joins done (seq, covered) n ∧ (n, c) ∈ done ++ [(seq, covered)]} p) ∧
    (∀ i seq sealed, calls[i]? = some (.dropComplete seq sealed) →
      let o := run (calls.take i)
      let done := dropDone (calls.take i)
      (∀ n, n < o.drop.frontier ↔ Finished done n) ∧
      ((o.dropComplete seq sealed).1.isSome ↔
        o.drop.frontier ∈ (done ++ [(seq, sealed)]).map fst) ∧
      ∀ v, (o.dropComplete seq sealed).1 = some v →
        (∀ w, (o.drop.frontier, w) ∈ done ++ [(seq, sealed)] → v.length = w.length) ∧
        ∀ s < v.length, IsGreatest {e | ∃ n w, Joins done (seq, sealed) n ∧
          (n, w) ∈ done ++ [(seq, sealed)] ∧ e = w.getD s 0} (v.getD s 0)) ∧
    (∀ n, (Finished (walDone calls) n → ∃! i, Contributes Call.wal? calls i n) ∧
      (¬ Finished (walDone calls) n → ∀ i, ¬ Contributes Call.wal? calls i n)) ∧
    ∀ n, (Finished (dropDone calls) n → ∃! i, Contributes Call.drop? calls i n) ∧
      (¬ Finished (dropDone calls) n → ∀ i, ¬ Contributes Call.drop? calls i n) := by
  refine ⟨fun i seq covered hi => ?_, fun i seq sealed hi => ?_, fun n => ?_, fun n => ?_⟩
  · have h := hwal.sublist ((done_sublist hi rfl).map fst)
    exact ⟨fun n => (run_wal_holds _ (nodup_of_concat h)).lt_frontier_iff, isSome_walComplete h,
      walComplete_eq_some_iff h⟩
  · have h := hdrop.sublist ((done_sublist hi rfl).map fst)
    exact ⟨fun n => (run_drop_holds _ (nodup_of_concat h)).lt_frontier_iff, isSome_dropComplete h,
      fun v => dropComplete_eq_some h⟩
  · exact ⟨existsUnique_joins Call.wal? calls n, fun hn i hi => hn hi.finished⟩
  · exact ⟨existsUnique_joins Call.drop? calls n, fun hn i hi => hn hi.finished⟩

theorem releases_finished_numbers_three_flushes :
    ∃! i, Contributes Call.wal? [.begin, .begin, .begin, .walComplete 1 40, .dropComplete 0 [3, 0],
      .walComplete 0 25, .walComplete 2 60] i 1 :=
  ((releases_finished_numbers [.begin, .begin, .begin, .walComplete 1 40, .dropComplete 0 [3, 0],
    .walComplete 0 25, .walComplete 2 60] (by decide) (by decide)).2.2.1 1).1
    (by unfold Finished; decide)

/-- Number 1 has completed, number 0 has not: no call has returned anything. -/
theorem completed_number_waits :
    1 ∈ (walDone [.begin, .begin, .walComplete 1 40]).map fst ∧
      ((run [.begin, .begin]).walComplete 1 40).1 = none ∧
      ∀ i, ¬ Contributes Call.wal? [.begin, .begin, .walComplete 1 40] i 1 := by
  refine ⟨by decide, by decide, fun i hi => ?_⟩
  have hzero := hi.finished 0 (by decide)
  revert hzero
  decide

end FlushOrder

end Parqtel.Ingest
