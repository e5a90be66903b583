import Parqtel.Lib.Update

/-!
# Rows selected by position

`rowsWhere p i rows` are the rows whose position satisfies `p`, when the first stands at
position `i`. Positions are usually given by ranges `[lo, hi)` (`inRanges`).
`planSelection` turns ranges over a whole file into the groups of rows that hold a selected
row and ranges over the rows of those groups; `readPlan_planSelection` says that reading the
plan gives the selected rows.
-/

open List Nat

namespace Parqtel.Lib

variable {R : Type*}

def rowsWhere (p : ℕ → Bool) : ℕ → List R → List R
  | _, [] => []
  | i, r :: rows => if p i then r :: rowsWhere p (i + 1) rows else rowsWhere p (i + 1) rows

def inRanges (ranges : List (ℕ × ℕ)) (i : ℕ) : Bool := ranges.any fun r => r.1 ≤ i ∧ i < r.2

variable {i : ℕ} {rows : List R} {f : R → Bool}

section
variable {p q : ℕ → Bool}

theorem rowsWhere_eq_zipIdx (p : ℕ → Bool) (i : ℕ) (rows : List R) :
    rowsWhere p i rows = ((rows.zipIdx i).filter fun x => p x.2).map Prod.fst := by
  induction rows generalizing i with
  | nil => rfl
  | cons r rows ih =>
    rw [rowsWhere, ih, zipIdx_cons, filter_cons]
    split_ifs <;> rfl

theorem filter_eq_zipIdx (f : R → Bool) (i : ℕ) (rows : List R) :
    rows.filter f = ((rows.zipIdx i).filter fun x => f x.1).map Prod.fst := by
  conv_lhs => rw [← zipIdx_map_fst i rows, filter_map]
  rfl

theorem rowsWhere_append (p : ℕ → Bool) (i : ℕ) (a b : List R) :
    rowsWhere p i (a ++ b) = rowsWhere p i a ++ rowsWhere p (i + a.length) b := by
  simp only [rowsWhere_eq_zipIdx, zipIdx_append, filter_append, map_append]

theorem rowsWhere_congr {j : ℕ} (h : ∀ k < rows.length, p (i + k) = q (j + k)) :
    rowsWhere p i rows = rowsWhere q j rows := by
  induction rows generalizing i j with
  | nil => rfl
  | cons r rows ih =>
    have h0 : p i = q j := h 0 (Nat.succ_pos _)
    have hrest : rowsWhere p (i + 1) rows = rowsWhere q (j + 1) rows := ih fun k hk => by
      have := h (k + 1) (Nat.succ_lt_succ hk)
      rwa [Nat.add_comm k, ← Nat.add_assoc, ← Nat.add_assoc] at this
    rw [rowsWhere, rowsWhere, h0, hrest]

theorem rowsWhere_eq_filter (h : ∀ k r, rows[k]? = some r → p (i + k) = f r) :
    rowsWhere p i rows = rows.filter f := by
  rw [rowsWhere_eq_zipIdx, filter_eq_zipIdx f i]
  refine congrArg _ (filter_congr fun x hx => ?_)
  obtain ⟨hle, hx⟩ := mem_zipIdx_iff_le_and_getElem?_sub.mp hx
  rw [← h _ _ hx, Nat.add_sub_cancel' hle]

theorem rowsWhere_all (h : ∀ k < rows.length, p (i + k) = true) : rowsWhere p i rows = rows := by
  rw [rowsWhere_eq_filter (f := fun _ => true) fun k _ hk =>
    h k (List.getElem?_eq_some_iff.mp hk).1]
  exact List.filter_true rows

theorem rowsWhere_none (h : ∀ k < rows.length, p (i + k) = false) : rowsWhere p i rows = [] := by
  rw [rowsWhere_eq_filter (f := fun _ => false) fun k _ hk =>
    h k (List.getElem?_eq_some_iff.mp hk).1]
  exact List.filter_false rows

theorem filterMap_range (p : ℕ → Bool) (rows : List R) :
    ((List.range rows.length).filter p).filterMap (fun id => rows[id]?) = rowsWhere p 0 rows := by
  rw [rowsWhere_eq_zipIdx, range_eq_range', ← zipIdx_map_snd, filter_map, filterMap_map,
    ← filterMap_eq_map]
  refine filterMap_congr fun x hx => ?_
  exact (mem_zipIdx_iff_le_and_getElem?_sub.mp (mem_of_mem_filter hx)).2

theorem filter_rowsWhere_eq : (rowsWhere p i rows).filter f =
    (((rows.zipIdx i).filter fun x => f x.1).filter fun x => p x.2).map Prod.fst := by
  rw [rowsWhere_eq_zipIdx, filter_map, filter_comm]
  rfl

theorem forall_zipIdx : (∀ x ∈ (rows.zipIdx i).filter fun x => f x.1, p x.2 = true) ↔
    ∀ k r, rows[k]? = some r → f r = true → p (i + k) = true := by
  simp only [mem_filter, mem_zipIdx_iff_le_and_getElem?_sub]
  constructor
  · exact fun h k r hr hf => h (r, i + k) ⟨⟨le_add_right i k, by simpa using hr⟩, hf⟩
  · rintro h ⟨r, j⟩ ⟨⟨hle, hr⟩, hf⟩
    have := h _ r hr hf
    rwa [Nat.add_sub_cancel' hle] at this

theorem filter_rowsWhere (h : ∀ k r, rows[k]? = some r → f r = true → p (i + k) = true) :
    (rowsWhere p i rows).filter f = rows.filter f := by
  rw [filter_rowsWhere_eq, filter_eq_self.mpr (forall_zipIdx.mpr h), ← filter_eq_zipIdx]

theorem selected_of_length_filter
    (h : ((rowsWhere p i rows).filter f).length = (rows.filter f).length) :
    ∀ k r, rows[k]? = some r → f r = true → p (i + k) = true := by
  rw [filter_rowsWhere_eq, filter_eq_zipIdx f i, length_map, length_map] at h
  exact forall_zipIdx.mp (length_filter_eq_length_iff.mp h)

end

theorem rowsWhere_sublist (p : ℕ → Bool) (i : ℕ) (rows : List R) :
    (rowsWhere p i rows).Sublist rows := by
  have h := (filter_sublist (p := fun x => p x.2) (l := rows.zipIdx i)).map Prod.fst
  rwa [zipIdx_map_fst, ← rowsWhere_eq_zipIdx] at h

variable {G : Type*}

theorem flatMap_filter_ite {keep : G → Bool} {rows rows' : G → List R} {groups : List G}
    (h : ∀ g ∈ groups, rows g = rows' g) :
    (groups.filter keep).flatMap rows = groups.flatMap fun g => if keep g then rows' g else [] := by
  induction groups with
  | nil => rfl
  | cons g groups ih =>
    obtain ⟨hg, hgroups⟩ := forall_mem_cons.mp h
    rw [filter_cons, flatMap_cons, ← ih hgroups]
    split_ifs
    · rw [flatMap_cons, hg]
    · rfl

theorem flatMap_eq_of_length {seen rows : G → List R} {groups : List G}
    (h : ∀ g ∈ groups, (seen g).Sublist (rows g))
    (hlen : (groups.flatMap seen).length = (groups.flatMap rows).length) :
    ∀ g ∈ groups, seen g = rows g := by
  induction groups with
  | nil => exact nofun
  | cons g groups ih =>
    obtain ⟨hg, hgroups⟩ := forall_mem_cons.mp h
    have hle := hg.length_le
    have hrest : (groups.flatMap seen).length ≤ (groups.flatMap rows).length :=
      (List.Sublist.flatMap_right groups hgroups).length_le
    rw [flatMap_cons, flatMap_cons, length_append, length_append] at hlen
    exact forall_mem_cons.mpr ⟨hg.eq_of_length (by omega), ih hgroups (by omega)⟩

theorem flatMap_filter_eq {keep : G → Bool} {rows : G → List R} {groups : List G}
    (h : ∀ g ∈ groups, rows g ≠ [] → keep g = true) :
    (groups.filter keep).flatMap rows = groups.flatMap rows := by
  rw [flatMap_filter_ite fun _ _ => rfl]
  refine flatMap_congr fun g hg => ?_
  split_ifs with hkeep
  · rfl
  · exact (not_not.mp fun hne => hkeep (h g hg hne)).symm

/-- Dropping groups loses no row exactly if the dropped groups have none. -/
theorem flatMap_filter_perm {keep : G → Bool} {rows : G → List R} {groups : List G} :
    ((groups.filter keep).flatMap rows).Perm (groups.flatMap rows) ↔
      ∀ g ∈ groups, rows g ≠ [] → keep g = true := by
  refine ⟨fun h g hg hne => ?_, fun h => .of_eq (flatMap_filter_eq h)⟩
  have hlen := h.length_eq
  rw [flatMap_filter_ite fun _ _ => rfl] at hlen
  have hsame := flatMap_eq_of_length (fun g _ => by split_ifs <;> simp) hlen g hg
  by_contra hkeep
  rw [if_neg hkeep] at hsame
  exact hne hsame.symm

variable {ranges : List (ℕ × ℕ)}

theorem inRanges_iff : inRanges ranges i = true ↔ ∃ r ∈ ranges, r.1 ≤ i ∧ i < r.2 := by
  simp [inRanges, any_eq_true]

theorem inRanges_append (a b : List (ℕ × ℕ)) (i : ℕ) :
    inRanges (a ++ b) i = (inRanges a i || inRanges b i) := any_append

/-! ## Adjacent ranges -/

def pushRange (out : List (ℕ × ℕ)) (r : ℕ × ℕ) : List (ℕ × ℕ) :=
  match out.getLast? with
  | some last => if last.2 = r.1 then out.dropLast ++ [(last.1, r.2)] else out ++ [r]
  | none => [r]

def mergeRanges (ranges : List (ℕ × ℕ)) : List (ℕ × ℕ) := ranges.foldl pushRange []

def Ranges (ranges : List (ℕ × ℕ)) : Prop :=
  (ranges.Pairwise fun a b => a.2 ≤ b.1) ∧ ∀ r ∈ ranges, r.1 ≤ r.2

theorem Ranges.ascending (h : Ranges ranges) : ranges.Pairwise fun a b => a.1 ≤ b.1 :=
  h.1.imp_of_mem fun ha _ hab => (h.2 _ ha).trans hab

theorem pushRange_spec {out : List (ℕ × ℕ)} {r : ℕ × ℕ} (h : Ranges (out ++ [r])) :
    Ranges (pushRange out r) ∧ (∀ c ∈ pushRange out r, c.2 ≤ r.2) ∧
      ∀ i, inRanges (pushRange out r) i = inRanges (out ++ [r]) i := by
  obtain ⟨hpair, hle⟩ := h
  obtain ⟨hout, -, hlast⟩ := pairwise_append.mp hpair
  have hr := hle r (by simp)
  have hends : ∀ c ∈ out ++ [r], c.2 ≤ r.2 :=
    forall_mem_concat (fun c hc => (hlast c hc r mem_cons_self).trans hr) le_rfl
  rcases out.eq_nil_or_concat with rfl | ⟨front, last, rfl⟩
  · exact ⟨⟨hpair, hle⟩, hends, fun _ => rfl⟩
  · rw [concat_eq_append] at *
    have hpush : pushRange (front ++ [last]) r =
        if last.2 = r.1 then front ++ [(last.1, r.2)] else front ++ [last] ++ [r] := by
      rw [pushRange, getLast?_concat]
      rw [dropLast_concat]
    rw [hpush]
    split_ifs with hadj
    · obtain ⟨hfront, -, hflast⟩ := pairwise_append.mp hout
      have hlast' := hle last (by simp)
      refine ⟨⟨?_, ?_⟩, ?_, fun i => ?_⟩
      · refine pairwise_append.mpr ⟨hfront, pairwise_singleton _ _, fun a ha b hb => ?_⟩
        rw [mem_singleton.mp hb]
        exact hflast a ha last mem_cons_self
      · exact forall_mem_concat (fun c hc => hle c (by simp [hc])) (by dsimp only; omega)
      · exact forall_mem_concat (fun c hc => hends c (by simp [hc])) le_rfl
      · rw [inRanges_append, inRanges_append, inRanges_append, Bool.or_assoc]
        congr 1
        simp only [inRanges, any_cons, any_nil, Bool.or_false]
        rw [Bool.eq_iff_iff]
        simp only [Bool.or_eq_true, decide_eq_true_eq]
        omega
    · exact ⟨⟨hpair, hle⟩, hends, fun _ => rfl⟩

theorem mergeRanges_spec (h : Ranges ranges) :
    Ranges (mergeRanges ranges) ∧ ∀ i, inRanges (mergeRanges ranges) i = inRanges ranges i := by
  suffices hgen : ∀ out, Ranges (out ++ ranges) → Ranges (ranges.foldl pushRange out) ∧
      ∀ i, inRanges (ranges.foldl pushRange out) i = inRanges (out ++ ranges) i from hgen [] h
  clear h
  induction ranges with
  | nil =>
    intro out h
    rw [append_nil] at h ⊢
    exact ⟨h, fun _ => rfl⟩
  | cons r ranges ih =>
    intro out h
    rw [append_cons] at h
    obtain ⟨hpair, hle⟩ := h
    obtain ⟨hfront, hback, hcross⟩ := pairwise_append.mp hpair
    obtain ⟨⟨hpush, hpushle⟩, hends, hsame⟩ :=
      pushRange_spec ⟨hfront, fun c hc => hle c (mem_append_left _ hc)⟩
    have hnext : Ranges (pushRange out r ++ ranges) := by
      refine ⟨pairwise_append.mpr ⟨hpush, hback, fun a ha b hb => ?_⟩, fun c hc => ?_⟩
      · exact (hends a ha).trans (hcross r (by simp) b hb)
      · rcases mem_append.mp hc with hc | hc
        · exact hpushle c hc
        · exact hle c (mem_append_right _ hc)
    obtain ⟨hres, hin⟩ := ih (pushRange out r) hnext
    refine ⟨hres, fun i => ?_⟩
    rw [foldl_cons, hin, inRanges_append, hsame, ← inRanges_append, ← append_cons]

/-- Ascending ranges that are not empty, with a gap between each two. -/
def Apart (ranges : List (ℕ × ℕ)) : Prop :=
  (ranges.Pairwise fun a b => a.2 < b.1) ∧ ∀ r ∈ ranges, r.1 < r.2

theorem Apart.pushRange {out : List (ℕ × ℕ)} {r : ℕ × ℕ} (h : Apart out) (hr : r.1 < r.2)
    (hend : ∀ c ∈ out, c.2 ≤ r.1) :
    Apart (pushRange out r) ∧ ∀ c ∈ Lib.pushRange out r, c.2 ≤ r.2 := by
  obtain ⟨hpair, hne⟩ := h
  rcases out.eq_nil_or_concat with rfl | ⟨front, last, rfl⟩
  · simp [Lib.pushRange, Apart, hr]
  · simp only [concat_eq_append, Lib.pushRange, getLast?_concat, dropLast_concat] at *
    split_ifs with hadj <;>
      simp only [Apart, pairwise_append, mem_append, mem_singleton] at * <;> grind

theorem apart_mergeRanges (h : Ranges ranges) (hne : ∀ r ∈ ranges, r.1 < r.2) :
    Apart (mergeRanges ranges) := by
  suffices hgen : ∀ out, Apart out → (∀ c ∈ out, ∀ r ∈ ranges, c.2 ≤ r.1) →
      Apart (ranges.foldl pushRange out) from hgen [] ⟨.nil, nofun⟩ nofun
  obtain ⟨hasc, -⟩ := h
  induction ranges with
  | nil => exact fun out hout _ => hout
  | cons r ranges ih =>
    intro out hout hcross
    obtain ⟨hr, hranges⟩ := forall_mem_cons.mp hne
    obtain ⟨hafter, hrest⟩ := pairwise_cons.mp hasc
    obtain ⟨hpush, hends⟩ := hout.pushRange hr fun c hc => hcross c hc r mem_cons_self
    refine ih hranges hrest _ hpush fun c hc r' hr' => ?_
    exact (hends c hc).trans (hafter r' hr')

theorem ranges_positions {positions : List ℕ} (h : positions.Pairwise (· < ·)) :
    Ranges (positions.map fun i => (i, i + 1)) ∧
      ∀ i, inRanges (positions.map fun i => (i, i + 1)) i = decide (i ∈ positions) := by
  refine ⟨⟨pairwise_map.mpr (h.imp succ_le_of_lt), fun r hr => ?_⟩, fun i => ?_⟩
  · obtain ⟨i, -, rfl⟩ := mem_map.mp hr
    exact le_succ i
  · rw [Bool.eq_iff_iff, inRanges_iff, decide_eq_true_eq]
    constructor
    · rintro ⟨r, hr, hlo, hhi⟩
      obtain ⟨j, hj, rfl⟩ := mem_map.mp hr
      rwa [le_antisymm (le_of_lt_succ hhi) hlo]
    · exact fun hi => ⟨_, mem_map_of_mem hi, le_rfl, lt_succ_self i⟩

/-! ## Reading groups -/

/-- What a range covers of the group `[lo, hi)`, moved to where the group is read. -/
def clip (lo hi selected : ℕ) (r : ℕ × ℕ) : Option (ℕ × ℕ) :=
  if max r.1 lo < min r.2 hi then some (selected + (max r.1 lo - lo), selected + (min r.2 hi - lo))
  else none

/-- The groups from number `g` on, of the given sizes, that hold a row of the ascending
`ranges`, and the ranges over the rows of those groups. The first group starts at row `lo`;
`selected` rows of earlier groups are read. -/
def planFrom (g lo selected : ℕ) (ranges : List (ℕ × ℕ)) : List ℕ → List ℕ × List (ℕ × ℕ)
  | [] => ([], [])
  | size :: sizes =>
    let ranges := ranges.dropWhile fun r => r.2 ≤ lo
    let hits := (ranges.takeWhile fun r => r.1 < lo + size).filterMap
      (clip lo (lo + size) selected)
    if hits = [] then planFrom (g + 1) (lo + size) selected ranges sizes
    else
      let rest := planFrom (g + 1) (lo + size) (selected + size) ranges sizes
      (g :: rest.1, hits ++ rest.2)

def planSelection (sizes : List ℕ) (ranges : List (ℕ × ℕ)) : List ℕ × List (ℕ × ℕ) :=
  planFrom 0 0 0 ranges sizes

def readPlan (groups : List (List R)) (plan : List ℕ × List (ℕ × ℕ)) : List R :=
  rowsWhere (inRanges plan.2) 0 (plan.1.flatMap fun g => groups.getD g [])

theorem ascending_range' (h : ranges.Pairwise fun a b => a.2 ≤ b.1) :
    (ranges.flatMap fun r => List.range' r.1 (r.2 - r.1)).Pairwise (· < ·) := by
  refine pairwise_flatMap.mpr ⟨fun r _ => pairwise_lt_range', h.imp ?_⟩
  intro a b hab x hx y hy
  rw [mem_range'_1] at hx hy
  omega

theorem filter_inRanges (h : ranges.Pairwise fun a b => a.2 ≤ b.1) {n : ℕ}
    (hn : ∀ i, inRanges ranges i = true → i < n) :
    (List.range n).filter (inRanges ranges) =
      ranges.flatMap fun r => List.range' r.1 (r.2 - r.1) := by
  refine (pairwise_lt_range.filter _).eq_of_mem_iff (ascending_range' h) fun i => ?_
  have hmem : i ∈ (ranges.flatMap fun r => List.range' r.1 (r.2 - r.1)) ↔
      inRanges ranges i = true := by
    rw [inRanges_iff, mem_flatMap]
    refine exists_congr fun r => and_congr_right fun _ => ?_
    rw [mem_range'_1]
    omega
  rw [hmem, mem_filter, mem_range]
  exact ⟨And.right, fun hi => ⟨hn i hi, hi⟩⟩

theorem rowsWhere_map {S : Type*} (f : R → S) (p : ℕ → Bool) (i : ℕ) (rows : List R) :
    rowsWhere p i (rows.map f) = (rowsWhere p i rows).map f := by
  simp only [rowsWhere_eq_zipIdx, zipIdx_map, filter_map, map_map]
  rfl

theorem rowsWhere_range (p : ℕ → Bool) (n : ℕ) :
    rowsWhere p 0 (List.range n) = (List.range n).filter p := by
  refine rowsWhere_eq_filter fun k x hx => ?_
  obtain ⟨hk, rfl⟩ := List.getElem?_eq_some_iff.mp hx
  rw [List.getElem_range, Nat.zero_add]

def fileRow : List (ℕ × ℕ) → ℕ → ℕ
  | [], here => here
  | (a, b) :: ranges, here =>
    if here < b - a then a + here else fileRow ranges (here - (b - a))

def totalRows (ranges : List (ℕ × ℕ)) : ℕ := (ranges.map fun r => r.2 - r.1).sum

theorem map_fileRow (ranges : List (ℕ × ℕ)) : (List.range (totalRows ranges)).map (fileRow ranges) =
      ranges.flatMap fun r => List.range' r.1 (r.2 - r.1) := by
  induction ranges with
  | nil => rfl
  | cons r ranges ih =>
    rw [totalRows, map_cons, sum_cons, ← totalRows, range_add, map_append,
      map_map, flatMap_cons, ← ih]
    congr 1
    · rw [range'_eq_map_range]
      exact map_congr_left fun k hk => if_pos (mem_range.mp hk)
    · refine map_congr_left fun k _ => ?_
      rw [Function.comp_apply, fileRow, if_neg (by omega), Nat.add_sub_cancel_left]

section
variable {ranges : List (ℕ × ℕ)} {rows : List R}

theorem rowsWhere_positions (h : ranges.Pairwise fun a b => a.2 ≤ b.1)
    (hn : ∀ i, inRanges ranges i = true → i < rows.length) :
    (rowsWhere (inRanges ranges) 0 rows.zipIdx).map Prod.snd =
      (List.range (totalRows ranges)).map (fileRow ranges) := by
  rw [← rowsWhere_map, zipIdx_map_snd, ← range_eq_range', rowsWhere_range,
    filter_inRanges h hn, map_fileRow]

theorem rowsWhere_zipIdx_fst (p : ℕ → Bool) (rows : List R) :
    (rowsWhere p 0 rows.zipIdx).map Prod.fst = rowsWhere p 0 rows := by
  rw [← rowsWhere_map, zipIdx_map_fst]

theorem pairwise_zipIdx (rows : List R) : rows.zipIdx.Pairwise fun a b => a.2 < b.2 := by
  have h : (rows.zipIdx.map Prod.snd).Pairwise (· < ·) := by
    rw [zipIdx_map_snd]
    exact pairwise_lt_range'
  exact pairwise_map.mp h

theorem length_rowsWhere_inRanges (h : ranges.Pairwise fun a b => a.2 ≤ b.1)
    (hn : ∀ i, inRanges ranges i = true → i < rows.length) :
    (rowsWhere (inRanges ranges) 0 rows).length = totalRows ranges := by
  have hlen := congrArg List.length (rowsWhere_positions h hn)
  rw [length_map, length_map, length_range] at hlen
  rw [← hlen, ← rowsWhere_zipIdx_fst, length_map]

theorem zipIdx_rowsWhere (h : ranges.Pairwise fun a b => a.2 ≤ b.1)
    (hn : ∀ i, inRanges ranges i = true → i < rows.length) :
    ((rowsWhere (inRanges ranges) 0 rows).zipIdx.map fun x => (x.1, fileRow ranges x.2)) =
      rowsWhere (inRanges ranges) 0 rows.zipIdx := by
  refine (zip_of_prod ?_ ?_).trans
    (zip_of_prod (rowsWhere_zipIdx_fst _ rows) (rowsWhere_positions h hn)).symm
  · rw [map_map]
    exact zipIdx_map_fst 0 _
  · rw [map_map, ← length_rowsWhere_inRanges h hn, range_eq_range', ← zipIdx_map_snd, map_map]
    rfl

end

variable {lo selected : ℕ}

theorem clip_some {hi : ℕ} {r c : ℕ × ℕ} (h : clip lo hi selected r = some c) :
    max r.1 lo < min r.2 hi ∧ c = (selected + (max r.1 lo - lo), selected + (min r.2 hi - lo)) := by
  unfold clip at h
  split_ifs at h with hlt
  exact ⟨hlt, (Option.some.inj h).symm⟩

theorem inRanges_dropWhile (h : lo ≤ i) :
    inRanges (ranges.dropWhile fun r => r.2 ≤ lo) i = inRanges ranges i := by
  have hsplit : inRanges ranges i = (inRanges (ranges.takeWhile fun r => r.2 ≤ lo) i ||
      inRanges (ranges.dropWhile fun r => r.2 ≤ lo) i) := by
    rw [← inRanges_append, takeWhile_append_dropWhile]
  have hnone : inRanges (ranges.takeWhile fun r => r.2 ≤ lo) i = false := by
    rw [Bool.eq_false_iff, ne_eq, inRanges_iff]
    rintro ⟨r, hr, -, hlt⟩
    have hle := mem_takeWhile_imp hr
    rw [decide_eq_true_eq] at hle
    omega
  rw [hsplit, hnone, Bool.false_or]

theorem inRanges_hits (hasc : ranges.Pairwise fun a b => a.1 ≤ b.1) {size k : ℕ} (hk : k < size) :
    inRanges ((ranges.takeWhile fun r => r.1 < lo + size).filterMap
      (clip lo (lo + size) selected)) (selected + k) = inRanges ranges (lo + k) := by
  rw [Bool.eq_iff_iff, inRanges_iff, inRanges_iff]
  constructor
  · rintro ⟨c, hc, hle, hlt⟩
    obtain ⟨r, hr, hclip⟩ := mem_filterMap.mp hc
    obtain ⟨hmax, rfl⟩ := clip_some hclip
    refine ⟨r, (takeWhile_sublist _).subset hr, ?_⟩
    omega
  · rintro ⟨r, hr, hle, hlt⟩
    have hclip : clip lo (lo + size) selected r =
        some (selected + (max r.1 lo - lo), selected + (min r.2 (lo + size) - lo)) :=
      if_pos (by omega)
    refine ⟨_, mem_filterMap.mpr ⟨r, ?_, hclip⟩, ?_⟩
    · -- the ranges before `r` start no later than `r`
      induction ranges with
      | nil => cases hr
      | cons s ranges ih =>
        obtain ⟨hs, hasc⟩ := pairwise_cons.mp hasc
        rcases mem_cons.mp hr with rfl | hr
        · rw [takeWhile_cons_of_pos (by simp; omega)]
          exact mem_cons_self
        · have := hs r hr
          rw [takeWhile_cons_of_pos (by simp; omega)]
          exact mem_cons_of_mem _ (ih hasc hr)
    · omega

theorem hits_bounds {size : ℕ} {c : ℕ × ℕ}
    (hc : c ∈ ranges.filterMap (clip lo (lo + size) selected)) :
    selected ≤ c.1 ∧ c.1 < c.2 ∧ c.2 ≤ selected + size := by
  obtain ⟨r, -, hclip⟩ := mem_filterMap.mp hc
  obtain ⟨hmax, rfl⟩ := clip_some hclip
  omega

theorem planFrom_bounds (sizes pre : List ℕ) (lo selected : ℕ) (ranges : List (ℕ × ℕ)) :
    ∀ c ∈ (planFrom pre.length lo selected ranges sizes).2, selected ≤ c.1 ∧ c.1 < c.2 ∧
      c.2 ≤ selected + ((planFrom pre.length lo selected ranges sizes).1.map fun g =>
        (pre ++ sizes).getD g 0).sum := by
  induction sizes generalizing pre lo selected ranges with
  | nil => nofun
  | cons size sizes ih =>
    have hrest (sel : ℕ) := ih (pre ++ [size]) (lo + size) sel
    simp only [length_append, length_singleton, append_assoc, singleton_append] at hrest
    intro c hc
    rw [planFrom] at hc ⊢
    split_ifs at hc ⊢
    · exact hrest _ _ c hc
    · rw [map_cons, sum_cons, getD_append_right _ _ _ _ le_rfl, Nat.sub_self, getD_cons_zero]
      rcases mem_append.mp hc with hc | hc
      · have := hits_bounds hc
        omega
      · have := hrest _ _ c hc
        omega

theorem planFrom_ascending (sizes : List ℕ) (pre : List ℕ) (lo selected : ℕ)
    (h : ranges.Pairwise fun a b => a.2 ≤ b.1) :
    (planFrom pre.length lo selected ranges sizes).2.Pairwise fun a b => a.2 ≤ b.1 := by
  induction sizes generalizing pre lo selected ranges with
  | nil => exact .nil
  | cons size sizes ih =>
    have hdrop := h.sublist (dropWhile_sublist fun r => decide (r.2 ≤ lo))
    have hrest (sel : ℕ) := ih (pre ++ [size]) (lo + size) sel hdrop
    have hbounds := planFrom_bounds sizes (pre ++ [size]) (lo + size) (selected + size)
    rw [length_append, length_singleton] at hrest hbounds
    rw [planFrom]
    split_ifs with hhits
    · exact hrest selected
    · refine pairwise_append.mpr ⟨?_, hrest _, fun a ha b hb => ?_⟩
      · refine pairwise_filterMap.mpr ((hdrop.sublist (takeWhile_sublist _)).imp ?_)
        intro a b hab c hc d hd
        obtain ⟨-, rfl⟩ := clip_some hc
        obtain ⟨-, rfl⟩ := clip_some hd
        omega
      · exact (hits_bounds ha).2.2.trans (hbounds _ b hb).1

theorem inRanges_eq_false (h : ∀ c ∈ ranges, i < c.1 ∨ c.2 ≤ i) : inRanges ranges i = false := by
  rw [Bool.eq_false_iff, ne_eq, inRanges_iff]
  rintro ⟨c, hc, hle, hlt⟩
  have := h c hc
  omega

theorem planFrom_read (pre groups : List (List R)) (lo selected : ℕ)
    (hasc : ranges.Pairwise fun a b => a.1 ≤ b.1) :
    rowsWhere
      (inRanges (planFrom pre.length lo selected ranges (groups.map List.length)).2) selected
      ((planFrom pre.length lo selected ranges (groups.map List.length)).1.flatMap
        fun g => (pre ++ groups).getD g []) =
      rowsWhere (inRanges ranges) lo groups.flatten := by
  induction groups generalizing pre lo selected ranges with
  | nil => rfl
  | cons rows groups ih =>
    have hdrop : (ranges.dropWhile fun r => decide (r.2 ≤ lo)).Pairwise fun a b => a.1 ≤ b.1 :=
      hasc.sublist (dropWhile_sublist _)
    have hrest (sel : ℕ) := ih (pre ++ [rows]) (lo + rows.length) sel hdrop
    simp only [length_append, length_singleton, append_assoc, singleton_append] at hrest
    have hbounds := planFrom_bounds (groups.map List.length) (pre.map List.length ++ [rows.length])
      (lo + rows.length) (selected + rows.length)
    rw [length_append, length_map, length_singleton] at hbounds
    -- what the whole ranges select of this group and of the later ones
    have hgroup : rowsWhere (inRanges ranges) lo rows =
        rowsWhere (inRanges ((ranges.dropWhile fun r => r.2 ≤ lo).takeWhile
          (fun r => r.1 < lo + rows.length) |>.filterMap (clip lo (lo + rows.length) selected)))
          selected rows := rowsWhere_congr fun k hk => by
      rw [inRanges_hits hdrop hk, inRanges_dropWhile (le_add_right _ _)]
    have hlater : rowsWhere (inRanges (ranges.dropWhile fun r => r.2 ≤ lo)) (lo + rows.length)
        groups.flatten = rowsWhere (inRanges ranges) (lo + rows.length) groups.flatten :=
      rowsWhere_congr fun k _ => inRanges_dropWhile (by omega)
    rw [map_cons, planFrom, flatten_cons, rowsWhere_append, hgroup]
    split_ifs with hhits
    · rw [hrest, hhits, hlater]
      have hnone : rowsWhere (inRanges []) selected rows = [] := rowsWhere_none fun k _ => rfl
      rw [hnone, nil_append]
    · rw [flatMap_cons, getD_append_right _ _ _ _ le_rfl, Nat.sub_self,
        getD_cons_zero, rowsWhere_append, ← hlater, ← hrest (selected + rows.length)]
      congr 1
      · refine rowsWhere_congr fun k hk => ?_
        rw [inRanges_append]
        have hno : inRanges (planFrom (pre.length + 1) (lo + rows.length) (selected + rows.length)
            (ranges.dropWhile fun r => r.2 ≤ lo) (groups.map List.length)).2
              (selected + k) = false :=
          inRanges_eq_false fun c hc => .inl (by
            have := hbounds _ c hc
            omega)
        rw [hno, Bool.or_false]
      · refine rowsWhere_congr fun k _ => ?_
        rw [inRanges_append]
        have hno : inRanges (((ranges.dropWhile fun r => r.2 ≤ lo).takeWhile
            fun r => r.1 < lo + rows.length).filterMap (clip lo (lo + rows.length) selected))
            (selected + rows.length + k) = false :=
          inRanges_eq_false fun c hc => .inr (by
            have := hits_bounds hc
            omega)
        rw [hno, Bool.false_or]

/-- **Reading a plan** yields the rows that the ranges select from the whole file. -/
theorem readPlan_planSelection (groups : List (List R))
    (hasc : ranges.Pairwise fun a b => a.1 ≤ b.1) :
    readPlan groups (planSelection (groups.map List.length) ranges) =
      rowsWhere (inRanges ranges) 0 groups.flatten :=
  planFrom_read [] groups 0 0 hasc

end Parqtel.Lib
