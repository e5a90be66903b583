import Parqtel.Lib.Selection

/-!
# Keeping the best

`best r keep l` are the last `keep` elements of `l` in the order `r`. A bounded queue that
takes elements one by one, and gives up its first when it holds more than `keep`, ends with
them (`foldl_pushBounded_best`). So cutting a list to its best elements before others are added
changes nothing (`best_append_best`).
-/

open List

namespace Parqtel.Lib

variable {α : Type*} (r : α → α → Prop) [DecidableRel r]

def best (keep : ℕ) (l : List α) : List α := (l.insertionSort r).drop (l.length - keep)

/-- Insert into a sorted queue, which then gives up its first element if it holds too many. -/
def pushBounded (keep : ℕ) (queue : List α) (x : α) : List α :=
  let queue := queue.orderedInsert r x
  if keep < queue.length then queue.tail else queue

variable {r}

theorem length_best (keep : ℕ) (l : List α) : (best r keep l).length = min keep l.length := by
  rw [best, length_drop, length_insertionSort]
  omega

variable {l : List α}

section
variable [IsTrans α r]

theorem drop_orderedInsert (h : l.Pairwise r) (x : α) (d : ℕ) (hd : d ≤ l.length) :
    (l.orderedInsert r x).drop (d + 1) = ((l.drop d).orderedInsert r x).tail := by
  induction l generalizing d with
  | nil =>
    obtain rfl : d = 0 := Nat.le_zero.mp hd
    rfl
  | cons a l ih =>
    obtain ⟨ha, hl⟩ := pairwise_cons.mp h
    cases d with
    | zero => rw [drop_zero, drop_one]
    | succ d =>
      have hd' := Nat.le_of_succ_le_succ hd
      rw [drop_succ_cons, ← ih hl d hd']
      by_cases hx : r x a
      · -- everything behind `a` also comes after `x`
        have hfront : ∀ b ∈ l.drop d, r x b :=
          fun b hb => trans_of r hx (ha b (mem_of_mem_drop hb))
        rw [orderedInsert_cons_of_le _ _ hx, drop_succ_cons, drop_succ_cons, ih hl d hd']
        cases hdrop : l.drop d with
        | nil => rfl
        | cons b l' =>
          have hb : r x b := hfront b (hdrop ▸ mem_cons_self)
          rw [orderedInsert_cons_of_le _ _ hb, tail_cons]
      · rw [orderedInsert_cons, if_neg hx, drop_succ_cons]

end

variable [Std.Total r] [IsTrans α r]

theorem best_best (keep : ℕ) (l : List α) : best r keep (best r keep l) = best r keep l := by
  have hsorted : (best r keep l).Pairwise r := (pairwise_insertionSort r l).drop
  rw [best, hsorted.insertionSort_eq, length_best,
    show min keep l.length - keep = 0 by omega, drop_zero]

variable [Std.Antisymm r]

theorem insertionSort_of_perm {l' : List α} (h : l.Perm l') :
    l.insertionSort r = l'.insertionSort r :=
  ((perm_insertionSort r l).trans (h.trans (perm_insertionSort r l').symm)).eq_of_pairwise'
    (pairwise_insertionSort r l) (pairwise_insertionSort r l')

theorem best_perm {l' : List α} (h : l.Perm l') (keep : ℕ) : best r keep l = best r keep l' := by
  rw [best, best, insertionSort_of_perm h, h.length_eq]

theorem insertionSort_concat (l : List α) (x : α) :
    (l ++ [x]).insertionSort r = (l.insertionSort r).orderedInsert r x := by
  rw [insertionSort_of_perm (perm_append_singleton x l), insertionSort_cons]

theorem pushBounded_best (keep : ℕ) (l : List α) (x : α) :
    pushBounded r keep (best r keep l) x = best r keep (l ++ [x]) := by
  have hsorted := pairwise_insertionSort r l
  have hlen := length_insertionSort r l
  rw [pushBounded, orderedInsert_length, length_best, best, best, insertionSort_concat,
    length_append, length_singleton]
  split_ifs with hfull
  · rw [← drop_orderedInsert hsorted x _ (by omega)]
    congr 1
    omega
  · rw [show l.length - keep = 0 by omega, show l.length + 1 - keep = 0 by omega, drop_zero,
      drop_zero]

/-- **A bounded queue keeps the best elements.** -/
theorem foldl_pushBounded_best (keep : ℕ) (a b : List α) :
    b.foldl (pushBounded r keep) (best r keep a) = best r keep (a ++ b) := by
  induction b generalizing a with
  | nil => rw [append_nil]; rfl
  | cons x b ih => rw [foldl_cons, pushBounded_best, ih, append_assoc, singleton_append]

/-- **Trimming early loses nothing.** -/
theorem best_append_best (keep : ℕ) (a b : List α) :
    best r keep (best r keep a ++ b) = best r keep (a ++ b) := by
  rw [← foldl_pushBounded_best, best_best, foldl_pushBounded_best]

theorem take_insertionSort_swap {q : α → α → Prop} [DecidableRel q] (hq : ∀ a b, q a b ↔ r b a)
    (keep : ℕ) (l : List α) : (l.insertionSort q).take keep = (best r keep l).reverse := by
  have : IsTrans α q := ⟨fun a b c hab hbc => (hq a c).mpr
    (trans_of r ((hq b c).mp hbc) ((hq a b).mp hab))⟩
  have : Std.Total q := ⟨fun a b => by rw [hq, hq]; exact Std.Total.total b a⟩
  have : Std.Antisymm q := ⟨fun a b hab hba => antisymm_of r ((hq b a).mp hba) ((hq a b).mp hab)⟩
  have hrev : l.insertionSort q = (l.insertionSort r).reverse := by
    refine List.Perm.eq_of_pairwise' (pairwise_insertionSort q l)
      (pairwise_reverse.mpr ((pairwise_insertionSort r l).imp fun h => (hq _ _).mpr h)) ?_
    exact (perm_insertionSort q l).trans
      ((perm_insertionSort r l).symm.trans (reverse_perm _).symm)
  rw [hrev, take_reverse, best, length_insertionSort]

/-! ## Recognising the best -/

variable {p : α → Bool}

section
variable {l rest top : List α} {keep : ℕ}

omit [Std.Total r] [IsTrans α r] [Std.Antisymm r] in
theorem insertionSort_split (h : l.Perm (rest ++ top)) (hlen : top.length = min keep l.length) :
    ∃ lower, l.insertionSort r = lower ++ best r keep l ∧ lower.length = rest.length := by
  refine ⟨(l.insertionSort r).take (l.length - keep), (take_append_drop _ _).symm, ?_⟩
  have := h.length_eq
  rw [length_append] at this
  rw [length_take, length_insertionSort]
  omega

omit [Std.Total r] [IsTrans α r] [Std.Antisymm r] in
theorem best_subset (keep : ℕ) (l : List α) : best r keep l ⊆ l := fun _ hx =>
  (mem_insertionSort r).mp (mem_of_mem_drop hx)

omit [Std.Total r] [IsTrans α r] [Std.Antisymm r] in
theorem filter_mem_best (hp : ∀ x, p x = true ↔ x ∈ best r keep l) (h : l.Nodup) :
    (l.filter p).Perm (best r keep l) := by
  have hbest : (best r keep l).Nodup :=
    ((perm_insertionSort r l).nodup_iff.mpr h).sublist (drop_sublist _ _)
  refine (perm_ext_iff_of_nodup (h.filter _) hbest).mpr fun x => ?_
  rw [mem_filter, hp]
  exact and_iff_right_of_imp fun hx => best_subset keep l hx

theorem best_perm_of_split (h : l.Perm (rest ++ top)) (hlen : top.length = min keep l.length)
    (hr : ∀ a ∈ rest, ∀ b ∈ top, r a b) : (best r keep l).Perm top := by
  have hsorted : (rest.insertionSort r ++ top.insertionSort r).Pairwise r := by
    refine pairwise_append.mpr ⟨pairwise_insertionSort r _,
      pairwise_insertionSort r _, fun a ha b hb => ?_⟩
    exact hr a ((mem_insertionSort r).mp ha) b ((mem_insertionSort r).mp hb)
  have hsort : l.insertionSort r = rest.insertionSort r ++ top.insertionSort r := by
    rw [insertionSort_of_perm h]
    refine List.Perm.eq_of_pairwise' (pairwise_insertionSort r _) hsorted ?_
    exact (perm_insertionSort r _).trans
      ((perm_insertionSort r _).symm.append (perm_insertionSort r _).symm)
  obtain ⟨lower, hlower, hlow⟩ := insertionSort_split (r := r) h hlen
  rw [hsort] at hlower
  have hbest := (append_inj hlower (by rw [length_insertionSort, hlow])).2
  rw [← hbest]
  exact perm_insertionSort r top

omit [Std.Antisymm r] in
/-- If the best have the keys of `top`, no key of the others is beyond one of them. -/
theorem rel_of_best_perm {κ : Type*} {f : α → κ} {s : κ → κ → Prop}
    (hf : ∀ a b, r a b → s (f a) (f b)) (h : l.Perm (rest ++ top))
    (hlen : top.length = min keep l.length) (hbest : ((best r keep l).map f).Perm (top.map f)) :
    ∀ a ∈ rest, ∀ b ∈ top, s (f a) (f b) := by
  obtain ⟨lower, hlower, -⟩ := insertionSort_split (r := r) h hlen
  have hsorted := pairwise_insertionSort r l
  rw [hlower] at hsorted
  have hcross := (pairwise_append.mp hsorted).2.2
  have hperm : (lower.map f ++ (best r keep l).map f).Perm (rest.map f ++ top.map f) := by
    rw [← map_append, ← map_append, ← hlower]
    exact ((perm_insertionSort r l).trans h).map f
  have hrest : (lower.map f).Perm (rest.map f) :=
    (perm_append_right_iff _).mp (hperm.trans (hbest.symm.append_left _))
  intro a ha b hb
  obtain ⟨x, hx, hxa⟩ := mem_map.mp (hrest.mem_iff.mpr (mem_map_of_mem ha))
  obtain ⟨y, hy, hyb⟩ := mem_map.mp (hbest.mem_iff.mpr (mem_map_of_mem hb))
  rw [← hxa, ← hyb]
  exact hf x y (hcross x hx y hy)

end

/-! ## Rows chosen by key and position -/

section
variable {κ : Type*} [LinearOrder κ] (key : α → κ)

/-- A row's place in the order by key, then by position. -/
def mark (x : α × ℕ) : κ ×ₗ ℕ := toLex (key x.1, x.2)

variable {key} {q : κ ×ₗ ℕ → κ ×ₗ ℕ → Prop} [DecidableRel q]
  {rows rest top : List (α × ℕ)} {keep : ℕ}

theorem eq_of_position_eq (hrows : rows.Pairwise fun a b => a.2 < b.2) {x y : α × ℕ}
    (hx : x ∈ rows) (hy : y ∈ rows) (h : x.2 = y.2) : x = y :=
  inj_on_of_nodup_map (pairwise_map.mpr (hrows.imp Nat.ne_of_lt)) hx hy h

theorem filter_mark_eq (hrows : rows.Pairwise fun a b => a.2 < b.2) (htop : top.Sublist rows)
    {marks : List (κ ×ₗ ℕ)} (h : marks.Perm (top.map (mark key))) :
    rows.filter (fun x => mark key x ∈ marks) = top := by
  refine (hrows.filter _).eq_of_mem_iff (hrows.sublist htop) fun x => ?_
  rw [mem_filter, decide_eq_true_eq, h.mem_iff]
  refine ⟨fun ⟨hx, hmark⟩ => ?_, fun hx => ⟨htop.subset hx, mem_map_of_mem hx⟩⟩
  obtain ⟨y, hy, hyx⟩ := mem_map.mp hmark
  have hpos : y.2 = x.2 := congrArg (fun m => (ofLex m).2) hyx
  rwa [← eq_of_position_eq hrows (htop.subset hy) hx hpos]

omit [LinearOrder κ] in
theorem nodup_map_mark (hrows : rows.Pairwise fun a b => a.2 < b.2) : (rows.map (mark key)).Nodup :=
  pairwise_map.mpr (hrows.imp fun {a b} hlt h => by
    have hpos : a.2 = b.2 := congrArg (fun m => (ofLex m).2) h
    omega)

theorem filter_position_best (hrows : rows.Pairwise fun a b => a.2 < b.2) {chosen : List ℕ}
    (hchosen : ∀ i, i ∈ chosen ↔ i ∈
      (best q keep ((rows.filter fun x => p x.1).map (mark key))).map fun m => (ofLex m).2) :
    rows.filter (fun x => x.2 ∈ chosen) = (rows.filter fun x => p x.1).filter
      fun x => mark key x ∈ best q keep ((rows.filter fun x => p x.1).map (mark key)) := by
  rw [filter_filter]
  refine filter_congr fun x hx => ?_
  rw [Bool.eq_iff_iff, Bool.and_eq_true, decide_eq_true_eq, decide_eq_true_eq, hchosen]
  constructor
  · intro h
    obtain ⟨m, hm, hmx⟩ := mem_map.mp h
    obtain ⟨y, hy, rfl⟩ := mem_map.mp (best_subset keep _ hm)
    obtain ⟨hy, hp⟩ := mem_filter.mp hy
    obtain rfl := eq_of_position_eq hrows hy hx hmx
    exact ⟨hm, hp⟩
  · exact fun h => mem_map.mpr ⟨_, h.1, rfl⟩

theorem perm_filter_best (hrows : rows.Pairwise fun a b => a.2 < b.2) :
    ((rows.filter fun x => mark key x ∈ best q keep (rows.map (mark key))).map (mark key)).Perm
      (best q keep (rows.map (mark key))) := by
  have hperm := filter_mem_best (r := q) (p := fun m => m ∈ best q keep (rows.map (mark key)))
    (fun x => decide_eq_true_iff) (nodup_map_mark hrows)
  rwa [filter_map] at hperm

theorem nodup_position_best (hrows : rows.Pairwise fun a b => a.2 < b.2) :
    ((best q keep (rows.map (mark key))).map fun m => (ofLex m).2).Nodup := by
  have hperm : List.Perm _ (best q keep (rows.map (mark key))) := perm_filter_best hrows
  refine (hperm.map fun m => (ofLex m).2).nodup_iff.mp ?_
  rw [map_map]
  exact pairwise_map.mpr ((hrows.filter _).imp Nat.ne_of_lt)

theorem rowsWhere_best {found : List (α × ℕ)} (hfound : l.zipIdx.filter (fun x => p x.1) = found)
    {chosen : List ℕ}
    (hchosen : ((best q keep (found.map (mark key))).map fun m => (ofLex m).2).insertionSort
      (· ≤ ·) = chosen) :
    chosen.Pairwise (· < ·) ∧ rowsWhere (fun i => i ∈ chosen) 0 l =
      (found.filter fun x => mark key x ∈ best q keep (found.map (mark key))).map Prod.fst := by
  subst hfound
  have hasc := pairwise_zipIdx l
  have hmem (i : ℕ) : i ∈ chosen ↔ i ∈ (best q keep
      ((l.zipIdx.filter fun x => p x.1).map (mark key))).map fun m => (ofLex m).2 := by
    rw [← hchosen]
    exact mem_insertionSort _
  refine ⟨?_, (rowsWhere_eq_zipIdx _ 0 l).trans
    (congrArg (List.map Prod.fst) (filter_position_best hasc hmem))⟩
  have hnodup : chosen.Nodup := by
    rw [← hchosen, (perm_insertionSort _ _).nodup_iff]
    exact nodup_position_best (hasc.filter fun x => p x.1)
  have hsorted : chosen.Pairwise (· ≤ ·) := hchosen ▸ pairwise_insertionSort (· ≤ ·) _
  exact (hsorted.and hnodup).imp fun h => lt_of_le_of_ne h.1 h.2

/-- **Reading the best rows in their order** gives the rows of `top` exactly if their keys are
the best. -/
theorem map_filter_best_eq_iff [Std.Total q] [IsTrans _ q] [Std.Antisymm q] {s : κ → κ → Prop}
    (hrows : rows.Pairwise fun a b => a.2 < b.2) (hperm : rows.Perm (rest ++ top))
    (htop : top.Sublist rows) (hlen : top.length = min keep rows.length)
    (hq : ∀ a ∈ rest, ∀ b ∈ top, s (key a.1) (key b.1) → q (mark key a) (mark key b))
    (hs : ∀ x y, q x y → s (ofLex x).1 (ofLex y).1) :
    (rows.filter fun x => mark key x ∈ best q keep (rows.map (mark key))).map Prod.fst =
        top.map Prod.fst ↔ ∀ a ∈ rest, ∀ b ∈ top, s (key a.1) (key b.1) := by
  have hperm' : (rows.map (mark key)).Perm (rest.map (mark key) ++ top.map (mark key)) := by
    rw [← map_append]
    exact hperm.map _
  have hlen' : (top.map (mark key)).length = min keep (rows.map (mark key)).length := by
    rwa [length_map, length_map]
  constructor
  · intro h
    have hkeys : ((best q keep (rows.map (mark key))).map fun m => (ofLex m).1).Perm
        ((top.map (mark key)).map fun m => (ofLex m).1) := by
      refine ((perm_filter_best hrows).map _).symm.trans (.of_eq ?_)
      rw [map_map, map_map]
      show List.map (key ∘ Prod.fst) _ = List.map (key ∘ Prod.fst) _
      rw [← map_map, ← map_map]
      exact congrArg (List.map key) h
    intro a ha b hb
    exact rel_of_best_perm hs hperm' hlen' hkeys _ (mem_map_of_mem ha) _
      (mem_map_of_mem hb)
  · intro h
    refine congrArg (List.map Prod.fst) (filter_mark_eq hrows htop ?_)
    refine best_perm_of_split hperm' hlen' fun x hx y hy => ?_
    obtain ⟨a, ha, rfl⟩ := mem_map.mp hx
    obtain ⟨b, hb, rfl⟩ := mem_map.mp hy
    exact hq a ha b hb (h a ha b hb)

end

end Parqtel.Lib
