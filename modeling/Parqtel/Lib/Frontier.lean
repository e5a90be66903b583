import Parqtel.Lib.Assoc
import Parqtel.Lib.Extent

/-!
# In-order release of out-of-order completions

Tasks are numbered from `0`. They complete in any order, each with a value, and
their values are released in order: a value waits in `done` until every earlier
task has completed. `complete` records one completion and releases, combined by
`comb`, the values of the tasks that this lets through.

`Tracks D f` ties a frontier to the outside world, where `D k v` says that task
`k` has completed with `v`. `Tracks.complete` keeps the tie and
`complete_released` bounds what is released: whatever holds of the value of
every task between the old and the new frontier, and is kept by `comb`, holds of
the release. `Holds cs f` says that a frontier stands exactly after the completions
`cs`; then a completion releases the values of the tasks that it lets through, all of
them and no other (`Holds.complete`).
-/

open List Prod Option

namespace Parqtel.Lib

structure Frontier (α : Type*) where
  frontier : ℕ
  done : List (ℕ × α)
deriving DecidableEq, Repr

namespace Frontier

variable {α : Type*}

def empty : Frontier α := ⟨0, []⟩

/-- Insert into the map of finished tasks, replacing an entry of the same number. -/
def insert (f : Frontier α) (k : ℕ) (v : α) : Frontier α :=
  { f with done := (k, v) :: f.done.filter fun e => e.1 ≠ k }

def removeFirst (f : Frontier α) : Option (α × Frontier α) :=
  match f.done.lookup f.frontier with
  | none => none
  | some v => some (v, ⟨f.frontier + 1, f.done.filter fun e => e.1 ≠ f.frontier⟩)

/-- Release from the frontier on while the next task is finished; `fuel` bounds the turns. -/
def drain (comb : α → α → α) : ℕ → Frontier α → Option α → Option α × Frontier α
  | 0, f, acc => (acc, f)
  | fuel + 1, f, acc =>
    match f.removeFirst with
    | none => (acc, f)
    | some (v, f') => drain comb fuel f' (some (acc.elim v fun a => comb a v))

/-- Record that task `k` finished with `v`. Each turn of the loop takes an entry away, so the
number of entries bounds the turns. -/
def complete (comb : α → α → α) (f : Frontier α) (k : ℕ) (v : α) : Option α × Frontier α :=
  (f.insert k v).drain comb (f.insert k v).done.length none

/-- Everything the frontier has let through or holds has completed outside. -/
structure Tracks (D : ℕ → α → Prop) (f : Frontier α) : Prop where
  passed : ∀ k < f.frontier, ∃ v, D k v
  waiting : ∀ e ∈ f.done, D e.1 e.2

variable {D D' : ℕ → α → Prop} {f f' : Frontier α} {comb : α → α → α}

theorem tracks_empty : Tracks D (empty : Frontier α) := ⟨nofun, nofun⟩

theorem Tracks.mono (h : Tracks D f) (hD : ∀ k v, D k v → D' k v) : Tracks D' f :=
  ⟨fun k hk => (h.passed k hk).imp fun v => hD k v, fun e he => hD _ _ (h.waiting e he)⟩

theorem Tracks.insert (h : Tracks D f) {k : ℕ} {v : α} (hv : D k v) : Tracks D (f.insert k v) := by
  refine ⟨h.passed, fun e he => ?_⟩
  rcases mem_cons.mp he with rfl | he
  · exact hv
  · exact h.waiting e (mem_of_mem_filter he)

theorem removeFirst_some {v : α} (h : f.removeFirst = some (v, f')) :
    (f.frontier, v) ∈ f.done ∧ f'.frontier = f.frontier + 1 ∧ ∀ e ∈ f'.done, e ∈ f.done := by
  unfold removeFirst at h
  split at h
  · cases h
  · next w hw =>
    obtain ⟨rfl, rfl⟩ := h
    exact ⟨mem_of_lookup hw, rfl, fun e he => mem_of_mem_filter he⟩

theorem Tracks.removeFirst (h : Tracks D f) {v : α} (hr : f.removeFirst = some (v, f')) :
    D f.frontier v ∧ Tracks D f' := by
  obtain ⟨hv, hf, hd⟩ := removeFirst_some hr
  have hDv := h.waiting _ hv
  refine ⟨hDv, fun k hk => ?_, fun e he => h.waiting e (hd e he)⟩
  rcases Nat.lt_succ_iff_lt_or_eq.mp (hf ▸ hk) with hk | rfl
  · exact h.passed k hk
  · exact ⟨v, hDv⟩

theorem drain_tracks {fuel : ℕ} : ∀ {f : Frontier α} (acc : Option α), Tracks D f →
    Tracks D (drain comb fuel f acc).2 ∧ f.frontier ≤ (drain comb fuel f acc).2.frontier := by
  induction fuel with
  | zero => exact fun _ h => ⟨h, le_rfl⟩
  | succ fuel ih =>
    intro f acc h
    rw [drain]
    split
    · exact ⟨h, le_rfl⟩
    · next v f' hr =>
      have hf := (removeFirst_some hr).2.1
      obtain ⟨ht, hle⟩ := ih (some (acc.elim v fun a => comb a v)) (h.removeFirst hr).2
      exact ⟨ht, by omega⟩

theorem drain_released {R : α → Prop} (hcomb : ∀ a b, R a → R b → R (comb a b)) {fuel : ℕ} :
    ∀ {f : Frontier α} {acc : Option α}, Tracks D f →
      (∀ k v, f.frontier ≤ k → k < (drain comb fuel f acc).2.frontier → D k v → R v) →
      (∀ a ∈ acc, R a) →
      ∀ a ∈ (drain comb fuel f acc).1, R a := by
  induction fuel with
  | zero => exact fun _ _ hacc => hacc
  | succ fuel ih =>
    intro f acc h hR hacc
    rw [drain] at hR ⊢
    split at hR
    · exact hacc
    · next v f' hr =>
      obtain ⟨hDv, ht⟩ := h.removeFirst hr
      have hf := (removeFirst_some hr).2.1
      have hle : f'.frontier ≤
          (drain comb fuel f' (some (acc.elim v fun a => comb a v))).2.frontier :=
        (drain_tracks _ ht).2
      have hv : R v := hR _ v le_rfl (by omega) hDv
      refine ih ht (fun k w hk => hR k w (by omega)) fun a ha => ?_
      cases acc with
      | none => simp only [elim_none, mem_some_iff] at ha; exact ha ▸ hv
      | some b =>
        simp only [elim_some, mem_some_iff] at ha
        exact ha ▸ hcomb b v (hacc b rfl) hv

/-- The number of waiting entries is enough fuel: the loop stops where the next task is
unfinished. -/
theorem drain_stops {fuel : ℕ} : ∀ {f : Frontier α} {acc : Option α}, f.done.length ≤ fuel →
    (drain comb fuel f acc).2.removeFirst = none := by
  induction fuel with
  | zero =>
    intro f acc h
    have : f.done = [] := length_eq_zero_iff.mp (by omega)
    simp [drain, removeFirst, this]
  | succ fuel ih =>
    intro f acc h
    rw [drain]
    split
    · assumption
    · next v f' hr =>
      refine ih ?_
      have hmem := (removeFirst_some hr).1
      have hlt : (f.done.filter fun e => e.1 ≠ f.frontier).length < f.done.length :=
        length_filter_lt_length_iff_exists.mpr ⟨_, hmem, by simp⟩
      unfold removeFirst at hr
      split at hr
      · cases hr
      · cases hr; exact Nat.le_of_lt_succ (Nat.lt_of_lt_of_le hlt h)

theorem Tracks.complete (h : Tracks D f) {k : ℕ} {v : α} (hv : D k v) :
    Tracks D (f.complete comb k v).2 := (drain_tracks none (h.insert hv)).1

/-- **Release rule.** -/
theorem complete_released {R : α → Prop} (hcomb : ∀ a b, R a → R b → R (comb a b))
    (h : Tracks D f) {k : ℕ} {v : α} (hv : D k v)
    (hR : ∀ j w, f.frontier ≤ j → j < (f.complete comb k v).2.frontier → D j w → R w) :
    ∀ a ∈ (f.complete comb k v).1, R a :=
  drain_released hcomb (h.insert hv) hR nofun

theorem complete_stops (f : Frontier α) (k : ℕ) (v : α) :
    (f.complete comb k v).2.removeFirst = none := drain_stops le_rfl

/-! ## What is released -/

def combineAll (comb : α → α → α) : List α → Option α
  | [] => none
  | v :: vs => some (vs.foldl comb v)

def valuesBetween (cs : List (ℕ × α)) (lo hi : ℕ) : List α :=
  (List.range' lo (hi - lo)).filterMap fun k => cs.lookup k

theorem mem_valuesBetween {cs : List (ℕ × α)} (h : (cs.map fst).Nodup) {lo hi : ℕ} {v : α} :
    v ∈ valuesBetween cs lo hi ↔ ∃ k, lo ≤ k ∧ k < hi ∧ (k, v) ∈ cs := by
  unfold valuesBetween
  rw [mem_filterMap]
  constructor
  · rintro ⟨k, hk, hv⟩
    obtain ⟨hlo, hhi⟩ := mem_range'_1.mp hk
    exact ⟨k, hlo, by omega, mem_of_lookup hv⟩
  · rintro ⟨k, hlo, hhi, hmem⟩
    exact ⟨k, mem_range'_1.mpr ⟨hlo, by omega⟩, (lookup_eq_some h).mpr hmem⟩

/-- The frontier has let through tasks that have completed, and the map has all the others. -/
structure Waits (cs : List (ℕ × α)) (f : Frontier α) : Prop where
  passed : ∀ k < f.frontier, k ∈ cs.map fst
  waiting : ∀ e, e ∈ f.done ↔ e ∈ cs ∧ f.frontier ≤ e.1

/-- The frontier stands at the first task that has not completed. -/
structure Holds (cs : List (ℕ × α)) (f : Frontier α) : Prop extends Waits cs f where
  next : f.frontier ∉ cs.map fst

theorem holds_empty : Holds [] (empty : Frontier α) := by
  refine ⟨⟨nofun, fun e => ?_⟩, not_mem_nil⟩
  simp [empty]

theorem Holds.lt_frontier_iff {cs : List (ℕ × α)} (h : Holds cs f) {j : ℕ} :
    j < f.frontier ↔ ∀ i ≤ j, i ∈ cs.map fst := by
  refine ⟨fun hj i hi => h.passed i (by omega), fun hall => ?_⟩
  by_contra hj
  exact h.next (hall f.frontier (by omega))

theorem Waits.insert {cs : List (ℕ × α)} (h : Holds cs f) {k : ℕ} {v : α}
    (hk : k ∉ cs.map fst) : Waits (cs ++ [(k, v)]) (f.insert k v) := by
  refine ⟨fun j hj => ?_, fun e => ?_⟩
  · rw [map_append]
    exact mem_append_left _ (h.passed j hj)
  · have hge : f.frontier ≤ k := by
      by_contra hlt
      exact hk (h.passed k (by omega))
    have hother : e ∈ cs → e.1 ≠ k := fun he hek => hk (hek ▸ mem_map_of_mem he)
    simp only [Frontier.insert, mem_cons, mem_filter, h.waiting, mem_append, decide_eq_true_eq]
    constructor
    · rintro (rfl | ⟨⟨he, hle⟩, -⟩)
      · exact ⟨.inr (.inl rfl), hge⟩
      · exact ⟨.inl he, hle⟩
    · rintro ⟨he | rfl | he, hle⟩
      · exact .inr ⟨⟨he, hle⟩, hother he⟩
      · exact .inl rfl
      · cases he

theorem Waits.removeFirst {cs : List (ℕ × α)} (h : Waits cs f) {v : α}
    (hr : f.removeFirst = some (v, f')) :
    (f.frontier, v) ∈ cs ∧ f'.frontier = f.frontier + 1 ∧ Waits cs f' := by
  unfold Frontier.removeFirst at hr
  cases hlookup : f.done.lookup f.frontier with
  | none =>
    rw [hlookup] at hr
    cases hr
  | some w =>
    rw [hlookup] at hr
    obtain ⟨rfl, rfl⟩ := Prod.mk.inj (some.inj hr)
    have hmem := ((h.waiting _).mp (mem_of_lookup hlookup)).1
    refine ⟨hmem, rfl, fun k hk => ?_, fun e => ?_⟩
    · rcases Nat.lt_succ_iff_lt_or_eq.mp hk with hk | rfl
      · exact h.passed k hk
      · exact mem_map_of_mem hmem
    · simp only [mem_filter, h.waiting, decide_eq_true_eq]
      constructor
      · rintro ⟨⟨he, hle⟩, hne⟩
        exact ⟨he, by omega⟩
      · rintro ⟨he, hle⟩
        exact ⟨⟨he, by omega⟩, by omega⟩

theorem Waits.holds {cs : List (ℕ × α)} (h : Waits cs f) (hr : f.removeFirst = none) :
    Holds cs f := by
  refine ⟨h, fun hmem => ?_⟩
  obtain ⟨⟨k, v⟩, hc, rfl⟩ := mem_map.mp hmem
  have hdone := (h.waiting (f.frontier, v)).mpr ⟨hc, le_rfl⟩
  unfold Frontier.removeFirst at hr
  cases hlookup : f.done.lookup f.frontier with
  | none => exact lookup_eq_none.mp hlookup (mem_map_of_mem hdone)
  | some w =>
    rw [hlookup] at hr
    cases hr

/-- **What the loop releases**: the values from the old to the new frontier, in order. -/
theorem Waits.drain {cs : List (ℕ × α)} (hnodup : (cs.map fst).Nodup) {fuel : ℕ} :
    ∀ {f : Frontier α} {acc : List α}, Waits cs f →
      Waits cs (drain comb fuel f (combineAll comb acc)).2 ∧
      f.frontier ≤ (drain comb fuel f (combineAll comb acc)).2.frontier ∧
      (drain comb fuel f (combineAll comb acc)).1 = combineAll comb (acc ++
        valuesBetween cs f.frontier (drain comb fuel f (combineAll comb acc)).2.frontier) := by
  induction fuel with
  | zero =>
    intro f acc h
    refine ⟨h, le_rfl, ?_⟩
    simp [Frontier.drain, valuesBetween]
  | succ fuel ih =>
    intro f acc h
    rw [Frontier.drain]
    cases hr : f.removeFirst with
    | none =>
      refine ⟨h, le_rfl, ?_⟩
      simp [valuesBetween]
    | some r =>
      obtain ⟨v, f'⟩ := r
      obtain ⟨hmem, hfrontier, hwaits⟩ := h.removeFirst hr
      have hacc : some ((combineAll comb acc).elim v fun a => comb a v) =
          combineAll comb (acc ++ [v]) := by
        cases acc with
        | nil => rfl
        | cons a as => simp [combineAll]
      dsimp only
      rw [hacc]
      obtain ⟨hw, hle, hreleased⟩ := @ih f' (acc ++ [v]) hwaits
      generalize Frontier.drain comb fuel f' (combineAll comb (acc ++ [v])) =
        out at hw hle hreleased
      refine ⟨hw, by omega, ?_⟩
      have hvalues : valuesBetween cs f.frontier out.2.frontier =
          v :: valuesBetween cs f'.frontier out.2.frontier := by
        unfold valuesBetween
        rw [hfrontier, show out.2.frontier - f.frontier =
          (out.2.frontier - (f.frontier + 1)) + 1 by omega, range'_succ]
        exact filterMap_cons_some (f := fun k => cs.lookup k) ((lookup_eq_some hnodup).mpr hmem)
      rw [hreleased, hvalues, append_assoc]
      rfl

/-- **A completion releases the tasks that it lets through**, and no other. -/
theorem Holds.complete (comb : α → α → α) {cs : List (ℕ × α)} (h : Holds cs f) {k : ℕ} {v : α}
    (hnodup : ((cs ++ [(k, v)]).map fst).Nodup) :
    Holds (cs ++ [(k, v)]) (f.complete comb k v).2 ∧ (f.complete comb k v).1 = combineAll comb
        (valuesBetween (cs ++ [(k, v)]) f.frontier (f.complete comb k v).2.frontier) := by
  have hk : k ∉ cs.map fst := by
    rw [map_append] at hnodup
    exact fun hmem => (nodup_append.mp hnodup).2.2 k hmem k (mem_singleton_self k) rfl
  obtain ⟨hw, -, hreleased⟩ := @Waits.drain _ comb _ hnodup (f.insert k v).done.length
    (f.insert k v) [] (Waits.insert h hk)
  exact ⟨hw.holds (complete_stops f k v), hreleased⟩

/-! ## Finished tasks -/

def Finished (cs : List (ℕ × α)) (n : ℕ) : Prop := ∀ i ≤ n, i ∈ cs.map fst

/-- The task is finished with the completion `c`, and was not before it. -/
def Joins (cs : List (ℕ × α)) (c : ℕ × α) (n : ℕ) : Prop := Finished (cs ++ [c]) n ∧ ¬ Finished cs n

theorem Finished.mono {cs cs' : List (ℕ × α)} {n : ℕ} (h : Finished cs n) (hsub : cs ⊆ cs') :
    Finished cs' n := fun i hi => map_subset fst hsub (h i hi)

theorem not_finished_nil {n : ℕ} : ¬ Finished ([] : List (ℕ × α)) n :=
  fun h => not_mem_nil (h n le_rfl)

theorem Holds.joins_frontier {cs : List (ℕ × α)} {c : ℕ × α} (h : Holds cs f)
    (hmem : f.frontier ∈ (cs ++ [c]).map fst) : Joins cs c f.frontier := by
  refine ⟨fun i hi => ?_, fun hall => h.next (hall f.frontier le_rfl)⟩
  rcases Nat.lt_or_eq_of_le hi with hi | rfl
  · rw [map_append]
    exact mem_append_left _ (h.passed i hi)
  · exact hmem

section Release

variable {cs : List (ℕ × α)} {k : ℕ} {v : α} (h : Holds cs f)
  (hnodup : ((cs ++ [(k, v)]).map fst).Nodup)

include h hnodup

theorem Holds.joins_iff (comb : α → α → α) {n : ℕ} :
    Joins cs (k, v) n ↔ f.frontier ≤ n ∧ n < (f.complete comb k v).2.frontier := by
  unfold Joins Finished
  rw [← h.lt_frontier_iff, ← (h.complete comb hnodup).1.lt_frontier_iff]
  omega

theorem Holds.mem_released (comb : α → α → α) {w : α} :
    w ∈ valuesBetween (cs ++ [(k, v)]) f.frontier (f.complete comb k v).2.frontier ↔
      ∃ n, Joins cs (k, v) n ∧ (n, w) ∈ cs ++ [(k, v)] := by
  rw [mem_valuesBetween hnodup]
  constructor
  · rintro ⟨n, hlo, hhi, hmem⟩
    exact ⟨n, (h.joins_iff hnodup comb).mpr ⟨hlo, hhi⟩, hmem⟩
  · rintro ⟨n, hjoins, hmem⟩
    obtain ⟨hlo, hhi⟩ := (h.joins_iff hnodup comb).mp hjoins
    exact ⟨n, hlo, hhi, hmem⟩

/-- **Something is released exactly when the frontier has completed.** -/
theorem Holds.isSome_complete (comb : α → α → α) :
    (f.complete comb k v).1.isSome ↔ f.frontier ∈ (cs ++ [(k, v)]).map fst := by
  obtain ⟨hafter, hreleased⟩ := h.complete comb hnodup
  constructor
  · intro hsome
    obtain ⟨w, hw⟩ : ∃ w, w ∈ valuesBetween (cs ++ [(k, v)]) f.frontier
        (f.complete comb k v).2.frontier := by
      rw [hreleased] at hsome
      refine exists_mem_of_ne_nil _ fun hnil => ?_
      rw [hnil] at hsome
      cases hsome
    obtain ⟨n, hlo, hhi, -⟩ := (mem_valuesBetween hnodup).mp hw
    exact hafter.passed f.frontier (by omega)
  · intro hmem
    obtain ⟨⟨j, w⟩, hw, rfl⟩ := mem_map.mp hmem
    have hvalue := (h.mem_released hnodup comb).mpr ⟨_, h.joins_frontier hmem, hw⟩
    rw [hreleased]
    cases hvals : valuesBetween (cs ++ [(k, v)]) f.frontier (f.complete comb k v).2.frontier with
    | nil =>
      rw [hvals] at hvalue
      cases hvalue
    | cons w ws => rfl

end Release

theorem combineAll_max_eq_some_iff {β : Type*} [LinearOrder β] {vs : List β} {m : β} :
    combineAll max vs = some m ↔ IsGreatest {v | v ∈ vs} m := by
  cases vs with
  | nil =>
    refine ⟨nofun, fun h => ?_⟩
    cases h.1
  | cons v vs =>
    have hgreatest : IsGreatest {w | w ∈ v :: vs} (vs.foldl max v) := by
      refine ⟨?_, fun w hw => ?_⟩
      · rcases foldl_max_eq_or_mem vs v with h | h
        · rw [h]
          exact mem_cons_self
        · exact mem_cons_of_mem v h
      · rcases mem_cons.mp hw with rfl | hw
        · exact init_le_foldl_max vs w
        · exact le_foldl_max hw
    constructor
    · rintro ⟨⟩
      exact hgreatest
    · exact fun h => congrArg some (hgreatest.unique h)

/-! ## Runs -/

/-- **A task joins once.** Along a run whose steps complete tasks now and then, a task
that is finished at the end joined at exactly one step. -/
theorem existsUnique_joins {β : Type*} (completion : β → Option (ℕ × α)) (run : List β) (n : ℕ)
    (hn : Finished (run.filterMap completion) n) :
    ∃! i, ∃ b c, run[i]? = some b ∧ completion b = some c ∧
      Joins ((run.take i).filterMap completion) c n := by
  classical
  have hmono : ∀ i j, i ≤ j → Finished ((run.take i).filterMap completion) n →
      Finished ((run.take j).filterMap completion) n := fun i j hij hi =>
    hi.mono (((take_sublist_take_left hij).filterMap completion).subset)
  have hexists : ∃ i, Finished ((run.take i).filterMap completion) n :=
    ⟨run.length, by rwa [take_length]⟩
  -- the number of steps after which the task is finished for the first time
  generalize hm : Nat.find hexists = m
  have hfin : Finished ((run.take m).filterMap completion) n := hm ▸ Nat.find_spec hexists
  have hleast : ∀ i < m, ¬ Finished ((run.take i).filterMap completion) n := fun i hi =>
    Nat.find_min hexists (hm ▸ hi)
  obtain ⟨i, rfl⟩ : ∃ i, m = i + 1 := by
    cases m with
    | zero => exact absurd hfin not_finished_nil
    | succ i => exact ⟨i, rfl⟩
  refine ⟨i, ?_, ?_⟩
  · have hnot := hleast i (by omega)
    cases hb : run[i]? with
    | none =>
      rw [take_add_one, hb] at hfin
      exact absurd (by simpa using hfin) hnot
    | some b =>
      cases hc : completion b with
      | none =>
        rw [take_add_one, hb, filterMap_append] at hfin
        exact absurd (by simpa [hc] using hfin) hnot
      | some c =>
        rw [take_add_one, hb, filterMap_append] at hfin
        exact ⟨b, c, hb, hc, by simpa [hc] using hfin, hnot⟩
  · rintro j ⟨b, c, hb, hc, hjoins, hnot⟩
    have hnext : Finished ((run.take (j + 1)).filterMap completion) n := by
      rw [take_add_one, hb, filterMap_append]
      simpa [hc] using hjoins
    have hlt : ¬ j < i := fun hlt => hleast (j + 1) (by omega) hnext
    have hge : ¬ i + 1 ≤ j := fun hge => hnot (hmono _ _ hge hfin)
    omega

end Frontier

end Parqtel.Lib
