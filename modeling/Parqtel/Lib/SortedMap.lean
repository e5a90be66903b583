import Parqtel.Lib.Assoc

/-!
# Collecting in the order of the keys

An ordered map from keys to lists, as a list of entries. `collect` runs through a list and
appends what each element yields to the list at the element's key; the map then has one entry
for each key, in order, with the yields of its elements in theirs (`mem_collect`).

The last section has two facts about sorting such lists: where two relations agree for every
element and those after it, sorting with one is sorting with the other, and a sort by key first
sorts the elements of each key (`insertionSort_groups`).
-/

open List

namespace Parqtel.Lib

variable {α K V : Type*} [LinearOrder K]

def extendAt (k : K) (vs : List V) : List (K × List V) → List (K × List V)
  | [] => [(k, vs)]
  | (k', ws) :: rest =>
    if k < k' then (k, vs) :: (k', ws) :: rest
    else if k = k' then (k', ws ++ vs) :: rest
    else (k', ws) :: extendAt k vs rest

def collect (key : α → K) (yield : α → List V) (xs : List α) : List (K × List V) :=
  xs.foldl (fun m x => extendAt (key x) (yield x) m) []

def KeysRise (m : List (K × List V)) : Prop := (m.map Prod.fst).Pairwise (· < ·)

variable {k : K} {vs : List V} {m : List (K × List V)}

theorem mem_keys_extendAt {k' : K} :
    k' ∈ (extendAt k vs m).map Prod.fst ↔ k' = k ∨ k' ∈ m.map Prod.fst := by
  induction m with
  | nil => simp [extendAt]
  | cons e m ih =>
    rw [extendAt]
    split_ifs with hlt heq
    · simp
    · subst heq
      simp
    · rw [map_cons, mem_cons, ih, map_cons, mem_cons]
      exact or_left_comm

theorem KeysRise.extendAt (h : KeysRise m) : KeysRise (extendAt k vs m) := by
  induction m with
  | nil => exact pairwise_singleton _ _
  | cons e m ih =>
    obtain ⟨j, ws⟩ := e
    obtain ⟨hhead, htail⟩ := pairwise_cons.mp h
    rw [Lib.extendAt]
    split_ifs with hlt heq
    · refine List.Pairwise.cons (fun k' hk' => ?_) h
      rcases mem_cons.mp hk' with rfl | hk'
      · exact hlt
      · exact hlt.trans (hhead k' hk')
    · exact h
    · have hj : j < k := lt_of_le_of_ne (not_lt.mp hlt) (Ne.symm heq)
      refine List.Pairwise.cons (fun k' hk' => ?_) (ih htail)
      rcases mem_keys_extendAt.mp hk' with rfl | hk'
      · exact hj
      · exact hhead k' hk'

/-- What is at a key after appending: the new values behind the old ones at this key, and at the
other keys what was there. -/
theorem mem_extendAt {k' : K} {us : List V} (h : KeysRise m) : (k', us) ∈ extendAt k vs m ↔
      if k' = k then us = (m.lookup k).getD [] ++ vs else (k', us) ∈ m := by
  induction m with
  | nil =>
    simp only [extendAt, mem_singleton, Prod.mk.injEq, lookup_nil, Option.getD_none,
      nil_append, not_mem_nil]
    split_ifs with hk
    · simp [hk]
    · simp [hk]
  | cons e m ih =>
    obtain ⟨j, ws⟩ := e
    obtain ⟨hhead, htail⟩ := pairwise_cons.mp h
    have habove : ∀ us', (j, us') ∉ m := fun us' hmem =>
      lt_irrefl j (hhead j (mem_map_of_mem hmem))
    rw [extendAt]
    split_ifs with hlt hkk heq hkk hkk
    · -- the key is new and stands first
      subst hkk
      have hnew : k' ∉ ((j, ws) :: m).map Prod.fst := by
        intro hmem
        rcases mem_cons.mp hmem with rfl | hmem
        · exact lt_irrefl _ hlt
        · exact lt_asymm hlt (hhead k' hmem)
      have hnot : (k', us) ∉ (j, ws) :: m := fun hmem => hnew (mem_map_of_mem hmem)
      rw [mem_cons, lookup_eq_none.mpr hnew]
      simp [hnot]
    · simp [hkk]
    · subst hkk
      subst heq
      simp [habove]
    · subst heq
      simp [hkk]
    · subst hkk
      rw [mem_cons, ih htail, if_pos rfl, lookup_entry, if_neg heq]
      simp [heq]
    · rw [mem_cons, ih htail, if_neg hkk, mem_cons]

theorem collect_concat (key : α → K) (yield : α → List V) (xs : List α) (x : α) :
    collect key yield (xs ++ [x]) = extendAt (key x) (yield x) (collect key yield xs) := by
  simp [collect]

theorem keysRise_collect (key : α → K) (yield : α → List V) (xs : List α) :
    KeysRise (collect key yield xs) := by
  induction xs using List.reverseRecOn with
  | nil => exact .nil
  | append_singleton xs x ih =>
    rw [collect_concat]
    exact ih.extendAt

variable {xs : List α}

theorem mem_keys_collect {key : α → K} {yield : α → List V} :
    k ∈ (collect key yield xs).map Prod.fst ↔ ∃ x ∈ xs, key x = k := by
  induction xs using List.reverseRecOn with
  | nil => simp [collect]
  | append_singleton xs x ih =>
    rw [collect_concat, mem_keys_extendAt, ih]
    simp only [mem_append, mem_singleton]
    constructor
    · rintro (rfl | ⟨y, hy, hk⟩)
      · exact ⟨x, .inr rfl, rfl⟩
      · exact ⟨y, .inl hy, hk⟩
    · rintro ⟨y, hy | rfl, hk⟩
      · exact .inr ⟨y, hy, hk⟩
      · exact .inl hk.symm

/-- **An entry has what the elements of its key yield**, in their order. -/
theorem mem_collect {key : α → K} {yield : α → List V} (h : (k, vs) ∈ collect key yield xs) :
    vs = (xs.filter fun x => key x = k).flatMap yield := by
  induction xs using List.reverseRecOn generalizing k vs with
  | nil => cases h
  | append_singleton xs x ih =>
    rw [collect_concat, mem_extendAt (keysRise_collect key yield xs)] at h
    split_ifs at h with hk
    · subst hk
      have hold : ((collect key yield xs).lookup (key x)).getD [] =
          (xs.filter fun y => key y = key x).flatMap yield := by
        cases hlookup : (collect key yield xs).lookup (key x) with
        | some ws => exact ih (mem_of_lookup hlookup)
        | none =>
          have hempty : (xs.filter fun y => key y = key x) = [] := by
            refine filter_eq_nil_iff.mpr fun y hy hkey => ?_
            exact lookup_eq_none.mp hlookup (mem_keys_collect.mpr ⟨y, hy, of_decide_eq_true hkey⟩)
          rw [hempty]
          rfl
      rw [h, hold]
      simp
    · rw [ih h]
      simp [Ne.symm hk]

/-! ## Sorting -/

variable {r s : α → α → Prop} [DecidableRel r] [DecidableRel s]

/-- Sorting compares an element with those after it only. -/
theorem insertionSort_congr (h : xs.Pairwise fun a b => r a b ↔ s a b) :
    xs.insertionSort r = xs.insertionSort s := by
  induction xs with
  | nil => rfl
  | cons a xs ih =>
    obtain ⟨hhead, htail⟩ := pairwise_cons.mp h
    have hinsert : ∀ ys : List α, (∀ b ∈ ys, r a b ↔ s a b) →
        ys.orderedInsert r a = ys.orderedInsert s a := by
      intro ys hys
      induction ys with
      | nil => rfl
      | cons b ys ihys =>
        have hb := hys b mem_cons_self
        rw [orderedInsert_cons, orderedInsert_cons,
          ihys fun c hc => hys c (mem_cons_of_mem b hc)]
        by_cases hr : r a b
        · rw [if_pos hr, if_pos (hb.mp hr)]
        · rw [if_neg hr, if_neg fun hs => hr (hb.mpr hs)]
    rw [insertionSort_cons, insertionSort_cons, ih htail]
    refine hinsert _ fun b hb => hhead b ?_
    exact (mem_insertionSort s).mp hb

theorem orderedInsert_between {x : α} {as bs cs : List α} (ha : ∀ a ∈ as, ¬ s x a)
    (hb : ∀ b ∈ bs, s x b ↔ r x b) (hc : ∀ c ∈ cs, s x c) :
    (as ++ (bs ++ cs)).orderedInsert s x = as ++ (bs.orderedInsert r x ++ cs) := by
  induction as with
  | nil =>
    induction bs with
    | nil =>
      cases cs with
      | nil => rfl
      | cons c cs => exact if_pos (hc c mem_cons_self)
    | cons b bs ih =>
      have hrest := ih fun b' hb' => hb b' (mem_cons_of_mem b hb')
      simp only [nil_append] at hrest ⊢
      rw [cons_append, orderedInsert_cons, orderedInsert_cons, hrest]
      simp only [hb b mem_cons_self]
      split_ifs <;> rfl
  | cons a as ih =>
    rw [cons_append, orderedInsert_cons, if_neg (ha a mem_cons_self),
      ih fun a' ha' => ha a' (mem_cons_of_mem a ha')]
    rfl

/-- **Sorting by a key, then by `r`**, is sorting the elements of each key, key after key. -/
theorem insertionSort_groups {key : α → K}
    (h : ∀ a b, s a b ↔ key a < key b ∨ key a = key b ∧ r a b) {ks : List K}
    (hks : ks.Pairwise (· < ·)) (hmem : ∀ x ∈ xs, key x ∈ ks) :
    xs.insertionSort s = ks.flatMap fun k => (xs.filter fun x => key x = k).insertionSort r := by
  induction xs with
  | nil => simp
  | cons x xs ih =>
    obtain ⟨before, after, rfl⟩ := append_of_mem (hmem x mem_cons_self)
    obtain ⟨-, hafter, hbefore⟩ := pairwise_append.mp hks
    have hlt (k : K) (hk : k ∈ before) : k < key x := hbefore k hk _ mem_cons_self
    have hgt (k : K) (hk : k ∈ after) : key x < k := rel_of_pairwise_cons hafter hk
    have hkey {k : K} {y : α} (hy : y ∈ (xs.filter fun x => key x = k).insertionSort r) :
        key y = k := of_decide_eq_true (mem_filter.mp ((mem_insertionSort r).mp hy)).2
    -- the groups of the other keys do not have `x`
    have hother {l : List K} (hl : key x ∉ l) :
        (l.flatMap fun k => ((x :: xs).filter fun x => key x = k).insertionSort r) =
          l.flatMap fun k => (xs.filter fun x => key x = k).insertionSort r := by
      refine flatMap_congr fun k hk => ?_
      rw [filter_cons_of_neg (by simpa using fun heq : key x = k => hl (heq ▸ hk))]
    rw [insertionSort_cons, ih fun y hy => hmem y (mem_cons_of_mem x hy), flatMap_append,
      flatMap_cons, flatMap_append, flatMap_cons, hother fun hk => lt_irrefl _ (hlt _ hk),
      hother fun hk => lt_irrefl _ (hgt _ hk), filter_cons_of_pos (by simp), insertionSort_cons]
    refine orderedInsert_between (fun a ha => ?_) (fun b hb => ?_) fun c hc => ?_
    · obtain ⟨k, hk, ha⟩ := mem_flatMap.mp ha
      rw [h, hkey ha]
      exact not_or.mpr ⟨(hlt k hk).not_gt, fun heq => (hlt k hk).ne' heq.1⟩
    · rw [h, hkey hb]
      simp
    · obtain ⟨k, hk, hc⟩ := mem_flatMap.mp hc
      rw [h, hkey hc]
      exact .inl (hgt k hk)

end Parqtel.Lib
