import Mathlib

/-!
# Joining two lists on a key

`partners` are the elements of a list under a key, `join` the pairs of two lists that agree on
their keys, and the lemmas compare two ways of filtering or mapping one list: they give the same
result only if they treat every element alike.
-/

open List

namespace Parqtel.Lib

variable {α β γ K : Type*} {as : List α}

section
variable [DecidableEq K]

def partners (key : β → K) (bs : List β) (k : K) : List β := bs.filter fun b => key b = k

def join (keyA : α → K) (keyB : β → K) (as : List α) (bs : List β) : List (α × β) :=
  as.flatMap fun a => (partners keyB bs (keyA a)).map fun b => (a, b)

theorem mem_partners {key : β → K} {bs : List β} {k : K} {b : β} :
    b ∈ partners key bs k ↔ b ∈ bs ∧ key b = k := by
  rw [partners, mem_filter, decide_eq_true_iff]

theorem mem_join {keyA : α → K} {keyB : β → K} {bs : List β} {a : α} {b : β} :
    (a, b) ∈ join keyA keyB as bs ↔ a ∈ as ∧ b ∈ bs ∧ keyB b = keyA a := by
  rw [join, mem_flatMap]
  constructor
  · rintro ⟨a', ha, h⟩
    obtain ⟨b', hb, h⟩ := mem_map.mp h
    cases h
    exact ⟨ha, mem_partners.mp hb⟩
  · rintro ⟨ha, hb⟩
    exact ⟨a, ha, mem_map_of_mem (mem_partners.mpr hb)⟩

end

theorem map_eq_self_iff {f : α → α} : as.map f = as ↔ ∀ a ∈ as, f a = a := by
  have h := map_inj_left (f := f) (g := id) (l := as)
  rwa [map_id] at h

theorem filter_eq_filter_iff {f g : α → Bool} :
    as.filter f = as.filter g ↔ ∀ a ∈ as, f a = g a := by
  refine ⟨fun h a ha => Bool.eq_iff_iff.mpr ?_, filter_congr⟩
  have hmem : a ∈ as.filter f ↔ a ∈ as.filter g := by rw [h]
  rwa [mem_filter, mem_filter, and_iff_right ha, and_iff_right ha] at hmem

/-- Of two ways to yield at most one result for each element, one of which yields nothing where
the other does: they yield the same list only if they agree on every element. -/
theorem filterMap_eq_filterMap_iff {f g : α → Option β} (hsub : ∀ a ∈ as, g a = none → f a = none) :
    as.filterMap f = as.filterMap g ↔ ∀ a ∈ as, f a = g a := by
  refine ⟨fun h => ?_, filterMap_congr⟩
  -- `f` yields at most as many results as `g`, and fewer if it drops one
  have hle : ∀ bs : List α, (∀ a ∈ bs, g a = none → f a = none) →
      (bs.filterMap f).length ≤ (bs.filterMap g).length := by
    intro bs hbs
    rw [length_filterMap_eq_countP, length_filterMap_eq_countP]
    refine countP_mono_left fun b hb hf => ?_
    cases hg : g b with
    | none => simp [hbs b hb hg] at hf
    | some c => rfl
  induction as with
  | nil => nofun
  | cons a as ih =>
    obtain ⟨ha, has⟩ := forall_mem_cons.mp hsub
    have hrest := hle as has
    cases hg : g a with
    | none =>
      rw [filterMap_cons_none (ha hg), filterMap_cons_none hg] at h
      exact forall_mem_cons.mpr ⟨(ha hg).trans hg.symm, ih has h⟩
    | some c =>
      cases hf : f a with
      | none =>
        have := congrArg List.length h
        rw [filterMap_cons_none hf, filterMap_cons_some hg, length_cons] at this
        omega
      | some d =>
        rw [filterMap_cons_some hf, filterMap_cons_some hg] at h
        obtain ⟨hdc, htail⟩ := List.cons.inj h
        exact forall_mem_cons.mpr ⟨by rw [hf, hg, hdc], ih has htail⟩

end Parqtel.Lib
