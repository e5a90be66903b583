import Parqtel.Lib.Search

/-!
# Ascending lists of ids

The lists of an inverted index: strictly ascending, cut to ranges by binary search
(`restrict`), united by sorting (`sortDedup`) and intersected by a merge (`intersect`,
`intersectAll`). Each operation keeps the order and has one lemma that says which ids it
yields, so that two results are compared by membership.
-/

open List

namespace Parqtel.Lib

abbrev Ascending (ids : List ℕ) : Prop := ids.Pairwise (· < ·)

/-! ## Ranges -/

def sliceRange (ids : List ℕ) (r : ℕ × ℕ) : List ℕ :=
  (ids.drop (partitionPoint (· < r.1) ids)).take
    (partitionPoint (· < r.2) ids - partitionPoint (· < r.1) ids)

/-- The ids that fall in any of the ascending ranges `[lo, hi)`. -/
def restrict (ids : List ℕ) (ranges : List (ℕ × ℕ)) : List ℕ := ranges.flatMap (sliceRange ids)

variable {x : ℕ}

section
variable {ids : List ℕ}

theorem sliceRange_eq_filter (h : Ascending ids) (r : ℕ × ℕ) :
    sliceRange ids r = ids.filter fun x => r.1 ≤ x ∧ x < r.2 := by
  have hmono (bound : ℕ) :
      ids.Pairwise fun a b => decide (b < bound) = true → decide (a < bound) = true :=
    h.imp fun hab hb => decide_eq_true (hab.trans (of_decide_eq_true hb))
  rw [sliceRange, ← drop_take, drop_take_eq_filter (drop_partitionPoint (hmono r.1)),
    take_partitionPoint (hmono r.2), filter_filter]
  simp only [← not_lt, decide_not, Bool.decide_and]

theorem mem_sliceRange (h : Ascending ids) {r : ℕ × ℕ} :
    x ∈ sliceRange ids r ↔ x ∈ ids ∧ r.1 ≤ x ∧ x < r.2 := by
  simp [sliceRange_eq_filter h]

theorem mem_restrict (h : Ascending ids) {ranges : List (ℕ × ℕ)} :
    x ∈ restrict ids ranges ↔ x ∈ ids ∧ ∃ r ∈ ranges, r.1 ≤ x ∧ x < r.2 := by
  simp only [restrict, mem_flatMap, mem_sliceRange h]
  constructor
  · rintro ⟨r, hr, hx, hin⟩
    exact ⟨hx, r, hr, hin⟩
  · rintro ⟨hx, r, hr, hin⟩
    exact ⟨r, hr, hx, hin⟩

theorem ascending_restrict (h : Ascending ids) {ranges : List (ℕ × ℕ)}
    (hr : ranges.Pairwise fun a b => a.2 ≤ b.1) : Ascending (restrict ids ranges) := by
  refine pairwise_flatMap.mpr ⟨fun r _ => ?_, hr.imp fun {a b} hab x hx y hy => ?_⟩
  · exact h.sublist ((take_sublist _ _).trans (drop_sublist _ _))
  · have hxa := (mem_sliceRange h).mp hx
    have hyb := (mem_sliceRange h).mp hy
    omega

end

/-! ## Union -/

def dedupAdjacent : List ℕ → List ℕ
  | [] => []
  | [a] => [a]
  | a :: b :: ids => if a = b then dedupAdjacent (b :: ids) else a :: dedupAdjacent (b :: ids)

def sortDedup (ids : List ℕ) : List ℕ := dedupAdjacent (ids.insertionSort (· ≤ ·))

theorem mem_dedupAdjacent : ∀ {ids : List ℕ}, x ∈ dedupAdjacent ids ↔ x ∈ ids
  | [] => Iff.rfl
  | [_] => Iff.rfl
  | a :: b :: ids => by
    rw [dedupAdjacent]
    split_ifs with h
    · rw [mem_dedupAdjacent, h]
      simp
    · rw [mem_cons, mem_dedupAdjacent, mem_cons (l := b :: ids)]

theorem ascending_dedupAdjacent :
    ∀ {ids : List ℕ}, ids.Pairwise (· ≤ ·) → Ascending (dedupAdjacent ids)
  | [], _ => .nil
  | [a], _ => pairwise_singleton _ a
  | a :: b :: ids, h => by
    obtain ⟨ha, hb⟩ := pairwise_cons.mp h
    rw [dedupAdjacent]
    split_ifs with hab
    · exact ascending_dedupAdjacent hb
    · refine pairwise_cons.mpr ⟨fun x hx => ?_, ascending_dedupAdjacent hb⟩
      have hle : b ≤ x := by
        rcases mem_cons.mp (mem_dedupAdjacent.mp hx) with rfl | hx
        · exact le_rfl
        · exact (pairwise_cons.mp hb).1 x hx
      have := ha b mem_cons_self
      omega

theorem mem_sortDedup {ids : List ℕ} : x ∈ sortDedup ids ↔ x ∈ ids := by
  rw [sortDedup, mem_dedupAdjacent, mem_insertionSort]

theorem ascending_sortDedup (ids : List ℕ) : Ascending (sortDedup ids) :=
  ascending_dedupAdjacent (pairwise_insertionSort (· ≤ ·) ids)

/-! ## Intersection -/

/-- The turns of the merge that look at `a`; `next` goes on behind it. -/
def intersectFrom (a : ℕ) (next : List ℕ → List ℕ) : List ℕ → List ℕ
  | [] => []
  | b :: bs =>
    if a < b then next (b :: bs)
    else if b < a then intersectFrom a next bs
    else a :: next bs

def intersect : List ℕ → List ℕ → List ℕ
  | [] => fun _ => []
  | a :: as => intersectFrom a (intersect as)

theorem intersect_sublist (as bs : List ℕ) : (intersect as bs).Sublist as := by
  induction as generalizing bs with
  | nil => exact List.Sublist.refl _
  | cons a as ih =>
    induction bs with
    | nil => exact nil_sublist _
    | cons b bs ihb =>
      rw [intersect, intersectFrom]
      split_ifs
      · exact (ih _).cons a
      · exact ihb
      · exact (ih bs).cons_cons a

theorem mem_intersect {as bs : List ℕ} (ha : Ascending as) (hb : Ascending bs) :
    x ∈ intersect as bs ↔ x ∈ as ∧ x ∈ bs := by
  induction as generalizing bs with
  | nil => simp [intersect]
  | cons a as ih =>
    obtain ⟨ha1, ha2⟩ := pairwise_cons.mp ha
    induction bs with
    | nil => simp [intersect, intersectFrom]
    | cons b bs ihb =>
      obtain ⟨hb1, hb2⟩ := pairwise_cons.mp hb
      have ihb := ihb hb2
      rw [intersect] at ihb
      rw [intersect, intersectFrom]
      split_ifs with hlt hgt
      · -- `a` is below everything on the right
        rw [ih ha2 hb, mem_cons (b := a)]
        refine ⟨fun h => ⟨.inr h.1, h.2⟩, ?_⟩
        rintro ⟨rfl | hx, hxb⟩
        · rcases mem_cons.mp hxb with rfl | hxb
          · exact absurd hlt (lt_irrefl _)
          · have := hb1 x hxb
            omega
        · exact ⟨hx, hxb⟩
      · rw [ihb, mem_cons (b := b)]
        refine ⟨fun h => ⟨h.1, .inr h.2⟩, ?_⟩
        rintro ⟨hxa, rfl | hx⟩
        · rcases mem_cons.mp hxa with rfl | hxa
          · exact absurd hgt (lt_irrefl _)
          · have := ha1 x hxa
            omega
        · exact ⟨hxa, hx⟩
      · obtain rfl : a = b := by omega
        rw [mem_cons, ih ha2 hb2, mem_cons, mem_cons]
        constructor
        · rintro (rfl | ⟨h1, h2⟩)
          · exact ⟨.inl rfl, .inl rfl⟩
          · exact ⟨.inr h1, .inr h2⟩
        · rintro ⟨rfl | h1, h2⟩
          · exact .inl rfl
          · rcases h2 with rfl | h2
            · exact .inl rfl
            · exact .inr ⟨h1, h2⟩

/-- What `swap_remove(0)` leaves of the others: the last moves to the front. -/
def swapFront {α : Type*} (rest : List α) : List α := rest.getLast?.toList ++ rest.dropLast

theorem mem_swapFront {α : Type*} {rest : List α} {x : α} : x ∈ swapFront rest ↔ x ∈ rest := by
  rcases rest.eq_nil_or_concat with rfl | ⟨init, last, rfl⟩
  · simp [swapFront]
  · simp [swapFront, or_comm]

def intersectAll (lists : List (List ℕ)) : List ℕ :=
  match lists.insertionSort fun a b => a.length ≤ b.length with
  | [] => []
  | shortest :: rest => (swapFront rest).foldl intersect shortest

theorem foldl_intersect {lists : List (List ℕ)} {acc : List ℕ} (hacc : Ascending acc)
    (hlists : ∀ l ∈ lists, Ascending l) :
    Ascending (lists.foldl intersect acc) ∧
      ∀ x, x ∈ lists.foldl intersect acc ↔ x ∈ acc ∧ ∀ l ∈ lists, x ∈ l := by
  induction lists generalizing acc with
  | nil => exact ⟨hacc, by simp⟩
  | cons l lists ih =>
    obtain ⟨hl, hlists⟩ := forall_mem_cons.mp hlists
    obtain ⟨hasc, hmem⟩ := ih (hacc.sublist (intersect_sublist acc l)) hlists
    refine ⟨hasc, fun x => ?_⟩
    rw [foldl_cons, hmem, mem_intersect hacc hl, forall_mem_cons, and_assoc]

theorem intersectAll_spec {lists : List (List ℕ)} (hne : lists ≠ [])
    (hlists : ∀ l ∈ lists, Ascending l) :
    Ascending (intersectAll lists) ∧ ∀ x, x ∈ intersectAll lists ↔ ∀ l ∈ lists, x ∈ l := by
  have hmem (l : List ℕ) : l ∈ lists.insertionSort (fun a b => a.length ≤ b.length) ↔ l ∈ lists :=
    mem_insertionSort _
  unfold intersectAll
  cases hsort : lists.insertionSort fun a b => a.length ≤ b.length with
  | nil =>
    obtain ⟨l, rest, rfl⟩ := exists_cons_of_ne_nil hne
    have := (hmem l).mpr mem_cons_self
    rw [hsort] at this
    cases this
  | cons shortest rest =>
    rw [hsort] at hmem
    have hall : ∀ l ∈ shortest :: rest, Ascending l := fun l hl => hlists l ((hmem l).mp hl)
    obtain ⟨hfirst, hrest⟩ := forall_mem_cons.mp hall
    obtain ⟨hasc, hx⟩ := foldl_intersect hfirst
      (fun l hl => hrest l (mem_swapFront.mp hl) : ∀ l ∈ swapFront rest, Ascending l)
    refine ⟨hasc, fun x => (hx x).trans ?_⟩
    simp only [← hmem, forall_mem_cons, mem_swapFront]

end Parqtel.Lib
