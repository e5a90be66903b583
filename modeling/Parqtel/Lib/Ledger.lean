import Parqtel.Lib.Update

/-!
# Totals over lists

`total w l` is the weight of `l` when each element `a` weighs `w a`. A ledger
invariant says that some totals balance; a step moves weight from one list to
another. The lemmas here say what each list operation does to a total, in the
subtraction-free form that `omega` uses.
-/

open List

namespace Parqtel.Lib

variable {α β : Type*}

def total (w : α → ℕ) (l : List α) : ℕ := (l.map w).sum

@[simp] theorem total_nil (w : α → ℕ) : total w [] = 0 := rfl

@[simp] theorem total_cons (w : α → ℕ) (a : α) (l : List α) :
    total w (a :: l) = w a + total w l := by simp [total]

@[simp] theorem total_append (w : α → ℕ) (l₁ l₂ : List α) :
    total w (l₁ ++ l₂) = total w l₁ + total w l₂ := by simp [total]

theorem total_map (w : β → ℕ) (f : α → β) (l : List α) :
    total w (l.map f) = total (fun a => w (f a)) l := by simp [total, Function.comp_def]

theorem total_flatMap (w : β → ℕ) (f : α → List β) (l : List α) :
    total w (l.flatMap f) = total (fun a => total w (f a)) l := by
  induction l with
  | nil => rfl
  | cons a l ih => simp [ih]

theorem total_filter (w : α → ℕ) (p : α → Bool) (l : List α) :
    total w (l.filter p) = total (fun a => if p a then w a else 0) l := by
  induction l with
  | nil => rfl
  | cons a l ih =>
    rw [filter_cons, total_cons, ← ih]
    cases p a with
    | true => exact total_cons w a _
    | false => exact (Nat.zero_add _).symm

theorem total_set {w : α → ℕ} {a : α} (b : α) :
    ∀ {l : List α} {i : ℕ}, l[i]? = some a → total w (l.set i b) + w a = total w l + w b
  | [], i, h => by simp at h
  | x :: l, 0, h => by
    simp only [getElem?_cons_zero, Option.some.injEq] at h
    subst h; simp only [set_cons_zero, total_cons]; omega
  | x :: l, i + 1, h => by
    have ih := total_set (w := w) b (l := l) (i := i) (by simpa using h)
    simp only [set_cons_succ, total_cons]; omega

variable {l : List α}

theorem weight_le_total {w : α → ℕ} {a : α} (h : a ∈ l) : w a ≤ total w l :=
  le_sum_of_mem (mem_map_of_mem h)

theorem total_le {w v : α → ℕ} (h : ∀ a ∈ l, w a ≤ v a) : total w l ≤ total v l :=
  sum_le_sum h

theorem total_congr {w v : α → ℕ} (h : ∀ a ∈ l, w a = v a) : total w l = total v l :=
  Nat.le_antisymm (total_le fun a ha => (h a ha).le) (total_le fun a ha => (h a ha).ge)

theorem total_add (w v : α → ℕ) (l : List α) :
    total (fun a => w a + v a) l = total w l + total v l := sum_map_add

theorem total_eq_zero {w : α → ℕ} (h : ∀ a ∈ l, w a = 0) : total w l = 0 :=
  sum_eq_zero (forall_mem_map.mpr h)

theorem exists_of_total_pos {w : α → ℕ} (h : 0 < total w l) : ∃ a ∈ l, 0 < w a := by
  by_contra hn
  simp only [not_exists, not_and, Nat.not_lt, Nat.le_zero] at hn
  have := total_eq_zero hn
  omega

theorem total_set_eq {w : α → ℕ} {a b : α} {i : ℕ} (h : l[i]? = some a) (hw : w b = w a) :
    total w (l.set i b) = total w l := congrArg sum (map_set_eq w h hw)

variable {l₁ l₂ : List α}

theorem total_perm {w : α → ℕ} (h : l₁.Perm l₂) : total w l₁ = total w l₂ :=
  (h.map w).sum_eq

theorem total_eraseIdx {w : α → ℕ} {a : α} {i : ℕ} (h : l[i]? = some a) :
    w a + total w (l.eraseIdx i) = total w l := by
  obtain ⟨hi, rfl⟩ := List.getElem?_eq_some_iff.mp h
  exact (total_cons w _ _).symm.trans (total_perm (List.getElem_cons_eraseIdx_perm hi))

theorem total_indicator [DecidableEq α] (x : α) (l : List α) :
    total (fun a => if a = x then 1 else 0) l = l.count x := by
  induction l with
  | nil => rfl
  | cons a l ih =>
    rw [total_cons, ih, count_cons]
    by_cases h : a = x
    · simp [h, Nat.add_comm]
    · simp [h]

/-- **From weights to rows.** A list that weighs no more than another under every weight is
contained in it, with multiplicity. -/
theorem subperm_of_total_le (h : ∀ w, total w l₁ ≤ total w l₂) : l₁.Subperm l₂ := by
  classical
  rw [subperm_ext_iff]
  intro x _
  have := h fun a => if a = x then 1 else 0
  rwa [total_indicator, total_indicator] at this

theorem perm_of_total_eq (h : ∀ w, total w l₁ = total w l₂) : l₁.Perm l₂ := by
  classical
  rw [perm_iff_count]
  intro x
  rw [← total_indicator, ← total_indicator, h]

theorem total_take_le (w : α → ℕ) (l : List α) (n : ℕ) : total w (l.take n) ≤ total w l := by
  have := total_append w (l.take n) (l.drop n)
  rw [take_append_drop] at this
  omega

theorem total_take_set {w : α → ℕ} {a b : α} {i n : ℕ} (h : l[i]? = some a) :
    total w ((l.set i b).take n) + (if i < n then w a else 0) =
      total w (l.take n) + (if i < n then w b else 0) := by
  rw [take_set]
  split
  · next hi => exact total_set b (by simp [hi, h])
  · next hi =>
    rw [set_eq_of_length_le (by rw [length_take]; omega)]

end Parqtel.Lib
