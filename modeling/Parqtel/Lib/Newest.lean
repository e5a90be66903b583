import Mathlib

/-!
# The first elements by a key

`Newest key n top all`: `top` are `n` elements of `all` with the largest keys, in falling order,
and which of the elements with equal keys is left open. Cutting a sorted list gives them. If they
were taken from only a part of the list, they are those of the whole list exactly if each element
left out has `n` elements of the part that are at least as large (`newest_append_iff`).
-/

open List

namespace Parqtel.Lib

variable {α κ : Type*} [LinearOrder κ]

/-- Sorting by falling keys, with elements of equal keys in any order. -/
structure FallingSort (key : α → κ) where
  sort : List α → List α
  perm : ∀ l, (sort l).Perm l
  falling : ∀ l, (sort l).Pairwise fun a b => key b ≤ key a

structure Newest (key : α → κ) (n : ℕ) (top all : List α) : Prop where
  falling : top.Pairwise fun a b => key b ≤ key a
  length : top.length = min n all.length
  split : ∃ rest, all.Perm (top ++ rest) ∧ ∀ x ∈ top, ∀ y ∈ rest, key y ≤ key x

variable {key : α → κ} {n : ℕ} {top kept left all : List α}

theorem newest_take {l : List α} (hperm : l.Perm all)
    (hl : l.Pairwise fun a b => key b ≤ key a) : Newest key n (l.take n) all where
  falling := hl.sublist (take_sublist n l)
  length := by rw [length_take, hperm.length_eq]
  split := by
    refine ⟨l.drop n, ?_, fun x hx y hy => ?_⟩
    · rw [take_append_drop]
      exact hperm.symm
    · rw [← take_append_drop n l, pairwise_append] at hl
      exact hl.2.2 x hx y hy

theorem newest_append_iff (h : Newest key n top kept) (hall : all.Perm (kept ++ left)) :
    Newest key n top all ↔ ∀ d ∈ left, n ≤ kept.countP fun x => key d ≤ key x := by
  obtain ⟨rest, hrest, hle⟩ := h.split
  have hlen := h.length
  have hlenAll : all.length = kept.length + left.length := by
    rw [hall.length_eq, length_append]
  constructor
  · rintro ⟨-, hlength, rest', hrest', hle'⟩ d hd
    -- `d` is not among the first, so there are `n` of them, all at least as large
    have hperm : rest'.Perm (rest ++ left) := by
      have : (top ++ rest').Perm (top ++ (rest ++ left)) := by
        rw [← append_assoc]
        exact hrest'.symm.trans (hall.trans (hrest.append_right left))
      exact (perm_append_left_iff top).mp this
    have hd' : d ∈ rest' := hperm.mem_iff.mpr (mem_append_right rest hd)
    have hpos : 0 < left.length := length_pos_of_mem hd
    have htop : top.countP (fun x => key d ≤ key x) = top.length :=
      countP_eq_length.mpr fun x hx => decide_eq_true (hle' x hx d hd')
    rw [hrest.countP_eq, countP_append, htop]
    omega
  · intro hcount
    refine ⟨h.falling, ?_, rest ++ left, ?_, fun x hx y hy => ?_⟩
    · rcases left with _ | ⟨d, left⟩
      · rw [hlenAll, hlen, length_nil, Nat.add_zero]
      · have := hcount d mem_cons_self
        have hle := countP_le_length (p := fun x => key d ≤ key x) (l := kept)
        omega
    · rw [← append_assoc]
      exact hall.trans (hrest.append_right left)
    · rcases mem_append.mp hy with hy | hy
      · exact hle x hx y hy
      -- were `x` smaller, fewer than `n` of those kept would be as large as `y`
      · by_contra hlt
        have hrest0 : rest.countP (fun z => key y ≤ key z) = 0 := by
          refine countP_eq_zero.mpr fun z hz hyz => hlt ?_
          exact (of_decide_eq_true hyz).trans (hle x hx z hz)
        have htop : top.countP (fun z => key y ≤ key z) < top.length := by
          refine lt_of_le_of_ne countP_le_length fun heq => hlt ?_
          exact of_decide_eq_true (countP_eq_length.mp heq x hx)
        have := hcount y hy
        rw [hrest.countP_eq, countP_append, hrest0] at this
        omega

/-! ## Reading lists up to a bound -/

def readUpTo (cap : ℕ) : List α → List (List α) → List α
  | acc, [] => acc
  | acc, l :: ls => if cap ≤ (acc ++ l).length then acc ++ l else readUpTo cap (acc ++ l) ls

theorem readUpTo_sublist (cap : ℕ) (acc : List α) (ls : List (List α)) :
    (readUpTo cap acc ls).Sublist (acc ++ ls.flatten) := by
  induction ls generalizing acc with
  | nil => exact sublist_append_left acc _
  | cons l ls ih =>
    rw [readUpTo, flatten_cons, ← append_assoc]
    split_ifs
    · exact sublist_append_left (acc ++ l) _
    · exact ih (acc ++ l)

end Parqtel.Lib
