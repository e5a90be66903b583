import Mathlib

/-!
# Extents of lists

The bounds of a list as folds of `min` and `max` from given initial values, and the last
element that a stable sort by a key puts at the end (`lastBy`).
-/

open List

namespace Parqtel.Lib

section Folds
variable {α : Type*} [LinearOrder α] {l : List α} {a x : α}

theorem init_le_foldl_max (l : List α) (a : α) : a ≤ l.foldl max a := by
  induction l generalizing a with
  | nil => exact le_rfl
  | cons b l ih => exact (le_max_left a b).trans (ih (max a b))

theorem le_foldl_max (h : x ∈ l) : x ≤ l.foldl max a := by
  induction l generalizing a with
  | nil => cases h
  | cons b l ih =>
    rcases mem_cons.mp h with rfl | h
    · exact (le_max_right a x).trans (init_le_foldl_max l _)
    · exact ih h

theorem foldl_min_le_init (l : List α) (a : α) : l.foldl min a ≤ a := @init_le_foldl_max αᵒᵈ _ l a

theorem foldl_min_le (h : x ∈ l) : l.foldl min a ≤ x := @le_foldl_max αᵒᵈ _ l a x h

theorem foldl_max_eq_or_mem (l : List α) (a : α) : l.foldl max a = a ∨ l.foldl max a ∈ l := by
  induction l generalizing a with
  | nil => exact .inl rfl
  | cons b l ih =>
    rcases ih (max a b) with h | h
    · rcases (le_total b a).imp max_eq_left max_eq_right with hm | hm
      · exact .inl (h.trans hm)
      · exact .inr (by rw [foldl_cons, h, hm]; exact mem_cons_self)
    · exact .inr (mem_cons_of_mem _ h)

theorem foldl_min_eq_or_mem (l : List α) (a : α) : l.foldl min a = a ∨ l.foldl min a ∈ l :=
  @foldl_max_eq_or_mem αᵒᵈ _ l a

end Folds

/-! ## The last element by a key -/

section LastBy
variable {α β : Type*} [LinearOrder β] (key : α → β)

def lastBy : List α → Option α
  | [] => none
  | a :: l => some <| match lastBy l with
    | none => a
    | some b => if key a ≤ key b then b else a

variable {key} {l : List α} {a b : α}

theorem getLast?_orderedInsert (a : α) (l : List α)
    (h : l.Pairwise fun x y => key x ≤ key y) :
    (l.orderedInsert (fun x y => key x ≤ key y) a).getLast? = some (match l.getLast? with
        | none => a
        | some b => if key a ≤ key b then b else a) := by
  induction l with
  | nil => rfl
  | cons c l ih =>
    rw [orderedInsert_cons]
    split_ifs with hac
    · have hlast : key c ≤ key ((c :: l).getLast (cons_ne_nil c l)) :=
        h.rel_getLast_of_rel_getLast_getLast mem_cons_self le_rfl
      rw [getLast?_cons_cons, getLast?_eq_some_getLast (cons_ne_nil c l)]
      simp [hac.trans hlast]
    · rw [getLast?_cons, ih h.of_cons]
      cases hg : l.getLast? with
      | none => simp [getLast?_eq_none_iff.mp hg, hac]
      | some b => simp [getLast?_cons, hg]

/-- **The end of a stable sort.** -/
theorem getLast?_insertionSort (l : List α) :
    (l.insertionSort fun x y => key x ≤ key y).getLast? = lastBy key l := by
  induction l with
  | nil => rfl
  | cons a l ih =>
    rw [insertionSort_cons, getLast?_orderedInsert _ _ (pairwise_insertionSort _ l), ih]
    rfl

theorem mem_of_lastBy (h : lastBy key l = some b) : b ∈ l := by
  rw [← getLast?_insertionSort] at h
  exact (mem_insertionSort _).mp (mem_of_getLast? h)

theorem key_le_lastBy (h : lastBy key l = some b) : ∀ x ∈ l, key x ≤ key b := by
  intro x hx
  have hx := (mem_insertionSort fun x y => key x ≤ key y).mpr hx
  rw [← getLast?_insertionSort, getLast?_eq_some_getLast (ne_nil_of_mem hx)] at h
  obtain rfl := Option.some.inj h
  exact (pairwise_insertionSort _ l).rel_getLast_of_rel_getLast_getLast hx le_rfl

end LastBy

end Parqtel.Lib
