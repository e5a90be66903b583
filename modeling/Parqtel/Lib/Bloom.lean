import Mathlib

/-!
# Bloom filters

A filter is a list of bytes; bit `p` is bit `p % 8` of byte `p / 8`. Every term sets the bits
its probes name (`fill`), and a lookup asks for all of them (`mayContain`). A term that was
added is always found: `mayContain_fill`. Terms taken from overlapping windows of a text
(`triples`) are found for every text that contains it (`triples_mono`).
-/

open List

namespace Parqtel.Lib

def setBit (bytes : List (BitVec 8)) (p : ℕ) : List (BitVec 8) :=
  bytes.modify (p / 8) (· ||| BitVec.twoPow 8 (p % 8))

def testBit (bytes : List (BitVec 8)) (p : ℕ) : Bool :=
  bytes.getD (p / 8) 0 &&& BitVec.twoPow 8 (p % 8) ≠ 0

theorem testBit_eq (bytes : List (BitVec 8)) (p : ℕ) :
    testBit bytes p = (bytes.getD (p / 8) 0).getLsbD (p % 8) := by
  have hlt : p % 8 < 8 := Nat.mod_lt _ (by decide)
  rw [testBit, BitVec.and_twoPow]
  split_ifs with h
  · rw [h, decide_eq_true_eq]
    intro h0
    have := congrArg (BitVec.getLsbD · (p % 8)) h0
    simp [hlt] at this
  · simpa using h

@[simp] theorem length_setBit (bytes : List (BitVec 8)) (p : ℕ) :
    (setBit bytes p).length = bytes.length := length_modify ..

theorem testBit_setBit {bytes : List (BitVec 8)} {p q : ℕ} (h : testBit bytes q = true) :
    testBit (setBit bytes p) q = true := by
  rw [testBit_eq, getD_eq_getElem?_getD] at h ⊢
  rw [setBit, getElem?_modify]
  cases hq : bytes[q / 8]? with
  | none => rw [hq] at h; simp at h
  | some b =>
    rw [hq, Option.getD_some] at h
    split_ifs <;> simp [h]

theorem testBit_setBit_self {bytes : List (BitVec 8)} {p : ℕ} (h : p / 8 < bytes.length) :
    testBit (setBit bytes p) p = true := by
  have hlt : p % 8 < 8 := Nat.mod_lt _ (by decide)
  rw [testBit_eq, getD_eq_getElem?_getD, setBit, getElem?_modify, getElem?_eq_getElem h]
  simp [hlt]

section
variable {T : Type*} {probes : T → List ℕ}

def fill (probes : T → List ℕ) (size : ℕ) (terms : List T) : List (BitVec 8) :=
  terms.foldl (fun filter t => (probes t).foldl setBit filter) (List.replicate size 0)

def mayContain (probes : T → List ℕ) (filter : List (BitVec 8)) (t : T) : Bool :=
  (probes t).all (testBit filter)

theorem length_foldl_setBit (filter : List (BitVec 8)) (ps : List ℕ) :
    (ps.foldl setBit filter).length = filter.length := by
  induction ps generalizing filter with
  | nil => rfl
  | cons p ps ih => rw [foldl_cons, ih, length_setBit]

theorem testBit_foldl_setBit {filter : List (BitVec 8)} {ps : List ℕ} {q : ℕ}
    (h : testBit filter q = true ∨ q ∈ ps ∧ q / 8 < filter.length) :
    testBit (ps.foldl setBit filter) q = true := by
  induction ps generalizing filter with
  | nil => exact h.elim id fun h => absurd h.1 not_mem_nil
  | cons p ps ih =>
    refine ih ?_
    rcases h with h | ⟨hq, hlt⟩
    · exact .inl (testBit_setBit h)
    · rcases mem_cons.mp hq with rfl | hq
      · exact .inl (testBit_setBit_self hlt)
      · exact .inr ⟨hq, by rwa [length_setBit]⟩

theorem foldl_terms {filter : List (BitVec 8)} {terms : List T} :
    (terms.foldl (fun filter t => (probes t).foldl setBit filter) filter).length = filter.length ∧
      ∀ q, (testBit filter q = true ∨ ∃ t ∈ terms, q ∈ probes t ∧ q / 8 < filter.length) →
        testBit (terms.foldl (fun filter t => (probes t).foldl setBit filter) filter) q = true := by
  induction terms generalizing filter with
  | nil => exact ⟨rfl, fun q h => h.elim id fun ⟨t, ht, _⟩ => absurd ht not_mem_nil⟩
  | cons t terms ih =>
    obtain ⟨hlen, hbits⟩ := @ih ((probes t).foldl setBit filter)
    rw [length_foldl_setBit] at hlen hbits
    refine ⟨hlen, fun q h => hbits q ?_⟩
    rcases h with h | ⟨u, hu, hq, hlt⟩
    · exact .inl (testBit_foldl_setBit (.inl h))
    · rcases mem_cons.mp hu with rfl | hu
      · exact .inl (testBit_foldl_setBit (.inr ⟨hq, hlt⟩))
      · exact .inr ⟨u, hu, hq, hlt⟩

theorem length_fill (size : ℕ) (terms : List T) : (fill probes size terms).length = size :=
  foldl_terms.1.trans length_replicate

/-- **No false negatives.** Also when the filter stands at the front of other bytes. -/
theorem mayContain_fill {size : ℕ} {terms : List T} {t : T} (ht : t ∈ terms)
    (hsize : ∀ p ∈ probes t, p / 8 < size) (rest : List (BitVec 8)) :
    mayContain probes (fill probes size terms ++ rest) t = true := by
  refine all_eq_true.mpr fun p hp => ?_
  have hbit : testBit (fill probes size terms) p = true :=
    foldl_terms.2 p (.inr ⟨t, ht, hp, by rw [length_replicate]; exact hsize p hp⟩)
  rwa [testBit, getD_append _ _ _ _ (by rw [length_fill]; exact hsize p hp)]

end

/-! ## Windows of a text -/

variable {α : Type*}

def triples : List α → List (α × α × α)
  | a :: b :: c :: l => (a, b, c) :: triples (b :: c :: l)
  | _ => []

theorem triples_cons_subset (a : α) (l : List α) : triples l ⊆ triples (a :: l) := by
  match l with
  | [] | [_] => exact nil_subset _
  | b :: c :: l => exact subset_cons_self _ _

theorem triples_append_left (l r : List α) : triples l ⊆ triples (l ++ r) := by
  match l with
  | [] | [_] | [_, _] => exact nil_subset _
  | a :: b :: c :: l => exact cons_subset_cons _ (triples_append_left (b :: c :: l) r)

theorem triples_append_right (l r : List α) : triples r ⊆ triples (l ++ r) := by
  induction l with
  | nil => exact List.Subset.refl _
  | cons a l ih => exact List.Subset.trans ih (triples_cons_subset a (l ++ r))

theorem triples_mono {needle text : List α} (h : needle <:+: text) :
    triples needle ⊆ triples text := by
  obtain ⟨l, r, rfl⟩ := h
  exact List.Subset.trans (triples_append_right l needle) (triples_append_left (l ++ needle) r)

end Parqtel.Lib
