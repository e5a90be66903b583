import Parqtel.Lib.Search

/-!
# Lists in the order of a key

Facts about lists sorted by time, or any other key: a stable sort commutes with a filter
(`filter_insertionSort`), a window found by two binary searches is the list filtered by its
bounds (`slice_eq_filter`), and the last element of the late part of a list is the last of the
list if that is late at all (`getLast?_filter_le`).
-/

open List

namespace Parqtel.Lib

variable {α K : Type*} [LinearOrder K] {key : α → K} {xs : List α}

theorem filter_orderedInsert (h : xs.Pairwise fun a b => key a ≤ key b) (q : α → Bool) (a : α) :
    (xs.orderedInsert (fun a b => key a ≤ key b) a).filter q =
      if q a then (xs.filter q).orderedInsert (fun a b => key a ≤ key b) a else xs.filter q := by
  induction xs with
  | nil => simp [filter_cons]
  | cons b xs ih =>
    obtain ⟨hb, hxs⟩ := pairwise_cons.mp h
    rw [orderedInsert_cons]
    by_cases hab : key a ≤ key b
    · -- `a` comes first, and stays before what is left of the rest
      rw [if_pos hab, filter_cons]
      split_ifs with hq
      · cases hf : (b :: xs).filter q with
        | nil => rfl
        | cons c cs =>
          have hc : c ∈ (b :: xs).filter q := hf ▸ mem_cons_self
          have hle : key a ≤ key c := by
            rcases mem_cons.mp (mem_filter.mp hc).1 with rfl | hc
            · exact hab
            · exact hab.trans (hb c hc)
          rw [orderedInsert_cons, if_pos hle]
      · rfl
    · rw [if_neg hab, filter_cons, ih hxs]
      by_cases hqb : q b = true
      · by_cases hqa : q a = true
        · simp [hqa, hqb, hab]
        · simp [hqa, hqb]
      · by_cases hqa : q a = true <;> simp [hqa, hqb]

theorem filter_insertionSort (q : α → Bool) (xs : List α) :
    (xs.insertionSort fun a b => key a ≤ key b).filter q =
      (xs.filter q).insertionSort fun a b => key a ≤ key b := by
  induction xs with
  | nil => rfl
  | cons a xs ih =>
    rw [insertionSort_cons,
      filter_orderedInsert (pairwise_insertionSort (fun a b => key a ≤ key b) xs), ih,
      filter_cons]
    split_ifs <;> rfl

theorem slice_eq_filter (h : xs.Pairwise fun a b => key a ≤ key b) (lo hi : K) :
    (xs.take (partitionPoint (fun a => key a ≤ hi) xs)).drop
        (partitionPoint (fun a => key a < lo) xs) =
      xs.filter fun a => lo ≤ key a ∧ key a ≤ hi := by
  have hhi := take_partitionPoint (p := fun a => key a ≤ hi) (h.imp fun {a b} hab hb =>
    decide_eq_true (hab.trans (of_decide_eq_true hb)))
  have hlo := drop_partitionPoint (p := fun a => key a < lo) (h.imp fun {a b} hab hb =>
    decide_eq_true (hab.trans_lt (of_decide_eq_true hb)))
  rw [drop_take_eq_filter hlo, hhi, filter_filter]
  refine filter_congr fun a _ => ?_
  rw [Bool.decide_and, ← decide_not, decide_eq_decide.mpr not_lt]

theorem getLast?_filter_le (h : xs.Pairwise fun a b => key a ≤ key b) (lo : K) :
    (xs.filter fun a => lo ≤ key a).getLast? = xs.getLast?.filter fun a => lo ≤ key a := by
  induction xs using List.reverseRecOn with
  | nil => rfl
  | append_singleton xs x _ =>
    obtain ⟨-, -, hlast⟩ := pairwise_append.mp h
    by_cases hx : lo ≤ key x
    · simp [hx, Option.filter]
    · have hnone : xs.filter (fun a => lo ≤ key a) = [] :=
        filter_eq_nil_iff.mpr fun a ha hlo =>
          hx ((of_decide_eq_true hlo).trans (hlast a ha x (mem_singleton_self x)))
      simp [hx, hnone, Option.filter]

end Parqtel.Lib
