import Mathlib

/-!
# Binary search for a partition point

`partitionPoint p xs` as the Rust standard library computes it: halve the range, keep
the half that begins where `p` still holds, and look at the last candidate at the end.
On a list in which `p` holds of a prefix and of nothing after it, the result is the
length of that prefix (`partitionPoint_spec`). On any other list it is some cut, and no
cut selects the right elements (`pairwise_of_drop_eq_filter`).
-/

open List

namespace Parqtel.Lib

variable {α : Type*}

/-- The loop: `base` is where the range starts, `size` its length; `fuel` bounds the turns. -/
def searchLoop (q : ℕ → Bool) : ℕ → ℕ → ℕ → ℕ
  | 0, base, _ => base
  | fuel + 1, base, size =>
    if size ≤ 1 then base
    else searchLoop q fuel (if q (base + size / 2) then base + size / 2 else base) (size - size / 2)

def holdsAt (p : α → Bool) (xs : List α) (i : ℕ) : Bool := xs[i]?.any p

def partitionPoint (p : α → Bool) (xs : List α) : ℕ :=
  match xs.length with
  | 0 => 0
  | n + 1 =>
    let base := searchLoop (holdsAt p xs) (n + 1) 0 (n + 1)
    base + if holdsAt p xs base then 1 else 0

/-- What the loop keeps when `q` holds up to some index and nowhere behind it. -/
theorem searchLoop_spec {q : ℕ → Bool} (hq : ∀ i j, i ≤ j → q j = true → q i = true) {fuel : ℕ} :
    ∀ base size, size ≤ fuel → 0 < size → (∀ i < base, q i = true) →
      (∀ i, base + size ≤ i → q i = false) →
      (∀ i < searchLoop q fuel base size, q i = true) ∧
        (∀ i, searchLoop q fuel base size < i → q i = false) := by
  induction fuel with
  | zero => omega
  | succ fuel ih =>
    intro base size hfuel hpos hlow hhigh
    rw [searchLoop]
    split_ifs with h1 hmid
    · exact ⟨hlow, fun i hi => hhigh i (by omega)⟩
    · refine ih _ _ (by omega) (by omega) (fun i hi => ?_) fun i hi => hhigh i (by omega)
      exact hq i _ hi.le hmid
    · refine ih _ _ (by omega) (by omega) hlow fun i hi => ?_
      -- above the midpoint `q` fails as it does there
      cases hqi : q i with
      | false => rfl
      | true => exact absurd (hq _ i (by omega) hqi) hmid

variable {p : α → Bool} {xs : List α}

theorem holdsAt_of_lt {i : ℕ} (h : i < xs.length) : holdsAt p xs i = p xs[i] := by
  simp [holdsAt, h]

theorem holdsAt_of_ge {i : ℕ} (h : xs.length ≤ i) : holdsAt p xs i = false := by
  simp [holdsAt, h]

/-- **The search is exact on a partitioned list.** -/
theorem partitionPoint_spec (h : xs.Pairwise fun a b => p b = true → p a = true) (i : ℕ) :
    holdsAt p xs i = true ↔ i < partitionPoint p xs := by
  have hq : ∀ i j, i ≤ j → holdsAt p xs j = true → holdsAt p xs i = true := by
    intro i j hij hj
    by_cases hlt : j < xs.length
    · rw [holdsAt_of_lt hlt] at hj
      rw [holdsAt_of_lt (by omega)]
      rcases Nat.lt_or_eq_of_le hij with hij | rfl
      · exact pairwise_iff_getElem.mp h i j (by omega) hlt hij hj
      · exact hj
    · rw [holdsAt_of_ge (by omega)] at hj
      cases hj
  unfold partitionPoint
  split
  · next hn => rw [holdsAt_of_ge (by omega)]; simp
  · next n hn =>
    obtain ⟨hlow, hhigh⟩ := searchLoop_spec hq 0 (n + 1) (le_refl (n + 1)) (Nat.succ_pos n)
      (fun i hi => absurd hi (Nat.not_lt_zero i)) (fun i hi => holdsAt_of_ge (by omega))
    generalize searchLoop (holdsAt p xs) (n + 1) 0 (n + 1) = base at hlow hhigh ⊢
    dsimp only
    rcases Nat.lt_trichotomy i base with hlt | rfl | hgt
    · exact ⟨fun _ => by split_ifs <;> omega, fun _ => hlow i hlt⟩
    · cases hb : holdsAt p xs i <;> simp
    · rw [hhigh i hgt]
      split_ifs <;> simp <;> omega

section
variable {f : α → Bool} {k : ℕ}

theorem filter_split (f : α → Bool) (k : ℕ) (xs : List α) :
    xs.filter f = (xs.take k).filter f ++ (xs.drop k).filter f := by
  rw [← filter_append, take_append_drop]

/-- A cut that filters: `f` holds of nothing before it and of everything behind it. -/
theorem drop_eq_filter_iff : xs.drop k = xs.filter f ↔
    (∀ x ∈ xs.take k, f x = false) ∧ ∀ x ∈ xs.drop k, f x = true := by
  constructor
  · intro h
    have hback : ∀ x ∈ xs.drop k, f x = true := fun x hx => by
      rw [h] at hx
      exact (mem_filter.mp hx).2
    have hfront : (xs.take k).filter f = [] := by
      have hlen := congrArg List.length h
      rw [filter_split f k, filter_eq_self.mpr hback, length_append] at hlen
      exact length_eq_zero_iff.mp (by omega)
    exact ⟨fun x hx => eq_false_of_ne_true (filter_eq_nil_iff.mp hfront x hx), hback⟩
  · rintro ⟨hfront, hback⟩
    rw [filter_split f k, filter_eq_self.mpr hback, filter_eq_nil_iff.mpr fun x hx => by
      simp [hfront x hx], nil_append]

end

theorem drop_partitionPoint (h : xs.Pairwise fun a b => p b = true → p a = true) :
    xs.drop (partitionPoint p xs) = xs.filter fun x => !p x := by
  have hspec := partitionPoint_spec h
  generalize partitionPoint p xs = k at hspec
  refine drop_eq_filter_iff.mpr ⟨fun x hx => ?_, fun x hx => ?_⟩
  · obtain ⟨i, hi, rfl⟩ := mem_iff_getElem.mp hx
    rw [length_take] at hi
    have hp := (hspec i).mpr (by omega)
    rw [holdsAt_of_lt (by omega)] at hp
    simpa using hp
  · obtain ⟨i, hi, rfl⟩ := mem_iff_getElem.mp hx
    rw [length_drop] at hi
    have hp := (not_congr (hspec (k + i))).mpr (by omega)
    rw [holdsAt_of_lt (by omega)] at hp
    simpa using hp

variable {f : α → Bool} {k : ℕ}

theorem take_partitionPoint (h : xs.Pairwise fun a b => p b = true → p a = true) :
    xs.take (partitionPoint p xs) = xs.filter p := by
  obtain ⟨hfront, hback⟩ := drop_eq_filter_iff.mp (drop_partitionPoint h)
  generalize partitionPoint p xs = k at hfront hback
  have hnone : (xs.drop k).filter p = [] :=
    filter_eq_nil_iff.mpr fun x hx => by simpa using hback x hx
  have hall : (xs.take k).filter p = xs.take k :=
    filter_eq_self.mpr fun x hx => by simpa using hfront x hx
  rw [filter_split p k, hnone, hall, append_nil]

theorem drop_take_eq_filter (h : xs.drop k = xs.filter f) (m : ℕ) :
    (xs.take m).drop k = (xs.take m).filter f := by
  obtain ⟨hfront, hback⟩ := drop_eq_filter_iff.mp h
  refine drop_eq_filter_iff.mpr ⟨fun x hx => hfront x ?_, fun x hx => hback x ?_⟩
  · rw [take_take, Nat.min_comm, ← take_take] at hx
    exact mem_of_mem_take hx
  · rw [drop_take] at hx
    exact mem_of_mem_take hx

theorem pairwise_of_drop_eq_filter (h : xs.drop k = xs.filter f) :
    xs.Pairwise fun a b => f a = true → f b = true := by
  obtain ⟨hfront, hback⟩ := drop_eq_filter_iff.mp h
  rw [← take_append_drop k xs]
  refine pairwise_append.mpr ⟨?_, ?_, fun a ha b hb _ => hback b hb⟩
  · refine pairwise_of_forall_mem_list fun a ha b _ hfa => ?_
    rw [hfront a ha] at hfa
    cases hfa
  · exact pairwise_of_forall_mem_list fun a _ b hb _ => hback b hb

end Parqtel.Lib
