import Mathlib

/-!
# One entry of a list replaced or added

What `l.set i b` and `l ++ [b]` have of the entries of `l`, and which facts about all entries they
keep.
-/

open List

namespace Parqtel.Lib

variable {α β : Type*} {l : List α} {a b x : α} {i n : ℕ}

theorem getElem?_set_of (h : l[i]? = some a) (b : α) : (l.set i b)[i]? = some b :=
  getElem?_set_self (List.getElem?_eq_some_iff.mp h).1

theorem forall_getElem?_set {P : ℕ → α → Prop} (h : ∀ n a, l[n]? = some a → P n a) (hb : P i b) :
    ∀ n a, (l.set i b)[n]? = some a → P n a := by
  intro n a hn
  rw [getElem?_set] at hn
  split_ifs at hn with hk
  · cases hn
    exact hk ▸ hb
  · exact h n a hn

theorem forall_mem_set {P : α → Prop} (h : ∀ a ∈ l, P a) (hb : P b) : ∀ a ∈ l.set i b, P a :=
  fun a ha => (mem_or_eq_of_mem_set ha).elim (h a) (· ▸ hb)

theorem getElem?_set_or (h : l[i]? = some a) (b : α) (hx : l[n]? = some x) :
    (l.set i b)[n]? = some x ∨ x = a ∧ (l.set i b)[n]? = some b := by
  by_cases hi : i = n
  · subst hi
    exact .inr ⟨Option.some.inj (hx.symm.trans h), getElem?_set_of h b⟩
  · exact .inl (by rwa [getElem?_set_ne hi])

theorem mem_set_or (h : l[i]? = some a) (b : α) (hx : x ∈ l) :
    x ∈ l.set i b ∨ x = a ∧ b ∈ l.set i b := by
  obtain ⟨n, hn⟩ := mem_iff_getElem?.mp hx
  exact (getElem?_set_or h b hn).imp mem_of_getElem? fun hb => hb.imp_right mem_of_getElem?

theorem set_of_getElem? (h : l[i]? = some a) : l.set i a = l := by
  obtain ⟨hi, rfl⟩ := List.getElem?_eq_some_iff.mp h
  exact set_getElem_self hi

theorem map_set_eq (f : α → β) (h : l[i]? = some a) (hf : f b = f a) :
    (l.set i b).map f = l.map f := by
  rw [map_set, hf]
  exact set_of_getElem? (by rw [getElem?_map, h]; rfl)

theorem getElem?_append_of (h : l[i]? = some a) (l' : List α) : (l ++ l')[i]? = some a := by
  rw [getElem?_append_left (List.getElem?_eq_some_iff.mp h).1, h]

theorem forall_getElem?_concat {P : ℕ → α → Prop} (h : ∀ n a, l[n]? = some a → P n a)
    (hb : P l.length b) : ∀ n a, (l ++ [b])[n]? = some a → P n a := by
  intro n a hn
  rw [getElem?_append] at hn
  split_ifs at hn with hlt
  · exact h n a hn
  · rw [getElem?_singleton] at hn
    split_ifs at hn with hz
    cases hn
    obtain rfl : n = l.length := by omega
    exact hb

theorem forall_mem_concat {P : α → Prop} (h : ∀ a ∈ l, P a) (hb : P b) : ∀ a ∈ l ++ [b], P a :=
  forall_mem_append.mpr ⟨h, forall_mem_singleton.mpr hb⟩

end Parqtel.Lib
