import Mathlib

/-!
# Association lists

What `lookup` finds is an entry of the list; where no key repeats, it finds every entry.
-/

open List

namespace Parqtel.Lib

variable {K V : Type*} [BEq K] [LawfulBEq K] {k : K} {v : V} {es : List (K × V)}

theorem lookup_entry [DecidableEq K] (e : K × V) (es : List (K × V)) :
    (e :: es).lookup k = if k = e.1 then some e.2 else es.lookup k := by
  rw [lookup_cons]
  split_ifs with h
  · rw [h, beq_self_eq_true]
  · rw [beq_false_of_ne h]

theorem lookup_eq_none : es.lookup k = none ↔ k ∉ es.map Prod.fst := by
  rw [lookup_eq_none_iff, mem_map]
  refine ⟨fun h ⟨e, he, hk⟩ => ?_, fun h e he => bne_iff_ne.mpr fun hk => h ⟨e, he, hk.symm⟩⟩
  exact bne_iff_ne.mp (h e he) hk.symm

theorem mem_of_lookup (h : es.lookup k = some v) : (k, v) ∈ es := by
  obtain ⟨l₁, l₂, hl, -⟩ := lookup_eq_some_iff.mp h
  simp [hl]

theorem lookup_eq_some (h : (es.map Prod.fst).Nodup) : es.lookup k = some v ↔ (k, v) ∈ es := by
  refine ⟨mem_of_lookup, fun hmem => ?_⟩
  cases hl : es.lookup k with
  | none => exact absurd (mem_map_of_mem hmem) (lookup_eq_none.mp hl)
  | some w =>
    cases inj_on_of_nodup_map h hmem (mem_of_lookup hl) rfl
    rfl

end Parqtel.Lib
