import Mathlib

/-!
# Groups in the order of their first element

`pushGroup` adds a value to the group of its key, and begins the group when it is the first.
`groupOn` groups a whole list. Its keys are distinct (`groupOn_keys_nodup`), and a group has
exactly the elements of its key, in their order (`mem_groupOn`); a sorted list of groups is
determined by these two facts alone (`eq_of_keys_sorted`).
-/

open List List.Perm

namespace Parqtel.Lib

variable {α K V : Type*} {key : α → K} {xs : List α}

section
variable [DecidableEq K]

def pushGroup (k : K) (v : V) (groups : List (K × List V)) : List (K × List V) :=
  if k ∈ groups.map Prod.fst then
    groups.map fun g => if g.1 = k then (g.1, g.2 ++ [v]) else g
  else groups ++ [(k, [v])]

def groupOn (key : α → K) (val : α → V) (xs : List α) : List (K × List V) :=
  xs.foldl (fun groups x => pushGroup (key x) (val x) groups) []

theorem groupOn_concat (key : α → K) (val : α → V) (xs : List α) (x : α) :
    groupOn key val (xs ++ [x]) = pushGroup (key x) (val x) (groupOn key val xs) :=
  foldl_concat ..

theorem keys_pushGroup (k : K) (v : V) (groups : List (K × List V)) :
    (pushGroup k v groups).map Prod.fst =
      if k ∈ groups.map Prod.fst then groups.map Prod.fst else groups.map Prod.fst ++ [k] := by
  unfold pushGroup
  split_ifs with h
  · rw [map_map]
    refine map_congr_left fun g _ => ?_
    simp only [Function.comp_apply]
    split_ifs <;> rfl
  · rw [map_append]
    rfl

variable {k : K} {groups : List (K × List V)}

theorem nodup_keys_pushGroup {v : V} (h : (groups.map Prod.fst).Nodup) :
    ((pushGroup k v groups).map Prod.fst).Nodup := by
  rw [keys_pushGroup]
  split_ifs with hk
  · exact h
  · exact nodup_append.mpr ⟨h, nodup_singleton k, fun a ha b hb hab =>
      hk (mem_singleton.mp hb ▸ hab ▸ ha)⟩

theorem groupOn_keys_nodup (key : α → K) (val : α → V) (xs : List α) :
    ((groupOn key val xs).map Prod.fst).Nodup := by
  induction xs using List.reverseRecOn with
  | nil => exact nodup_nil
  | append_singleton xs x ih =>
    rw [groupOn_concat]
    exact nodup_keys_pushGroup ih

theorem mem_keys_groupOn {val : α → V} :
    k ∈ (groupOn key val xs).map Prod.fst ↔ k ∈ xs.map key := by
  induction xs using List.reverseRecOn with
  | nil => exact Iff.rfl
  | append_singleton xs x ih =>
    rw [groupOn_concat, keys_pushGroup, map_append, mem_append, ← ih]
    split_ifs with hk
    · refine ⟨.inl, ?_⟩
      rintro (h | h)
      · exact h
      · exact mem_singleton.mp h ▸ hk
    · rw [mem_append]
      rfl

/-- **A group has the elements of its key.** -/
theorem mem_groupOn {val : α → V} {g : K × List V} : g ∈ groupOn key val xs ↔
      g.1 ∈ xs.map key ∧ g.2 = (xs.filter fun x => key x = g.1).map val := by
  induction xs using List.reverseRecOn generalizing g with
  | nil => exact ⟨nofun, fun h => absurd h.1 not_mem_nil⟩
  | append_singleton xs x ih =>
    rw [groupOn_concat, map_append, mem_append, filter_append, map_append]
    unfold pushGroup
    split_ifs with hk <;> rw [mem_keys_groupOn] at hk
    · rw [mem_map]
      constructor
      · rintro ⟨g', hg', rfl⟩
        obtain ⟨hkey, hvals⟩ := ih.mp hg'
        by_cases h : g'.1 = key x
        · simp only [h, if_true]
          exact ⟨.inl hk, by rw [hvals, h]; simp⟩
        · simp only [h, if_false]
          exact ⟨.inl hkey, by rw [hvals]; simp [Ne.symm h]⟩
      · rintro ⟨hkey, hvals⟩
        have hkey : g.1 ∈ xs.map key := by
          rcases hkey with h | h
          · exact h
          · exact mem_singleton.mp h ▸ hk
        refine ⟨(g.1, (xs.filter fun x => key x = g.1).map val), ih.mpr ⟨hkey, rfl⟩, ?_⟩
        obtain ⟨k, vs⟩ := g
        dsimp only at hvals ⊢
        split_ifs with h
        · rw [hvals, h]; simp
        · rw [hvals]; simp [Ne.symm h]
    · rw [mem_append, ih]
      obtain ⟨k, vs⟩ := g
      by_cases h : k = key x
      · subst h
        have hnone : xs.filter (fun y => key y = key x) = [] :=
          filter_eq_nil_iff.mpr fun y hy hyk =>
            hk (mem_map.mpr ⟨y, hy, of_decide_eq_true hyk⟩)
        simp [hk, hnone]
      · simp [h, Ne.symm h]

theorem groupOn_cons {g : K × List α} (h : g ∈ groupOn key id xs) :
    ∃ x rest, g.2 = x :: rest ∧ x ∈ xs ∧ key x = g.1 := by
  obtain ⟨hkey, hvals⟩ := mem_groupOn.mp h
  obtain ⟨y, hy, hyg⟩ := mem_map.mp hkey
  rw [map_id] at hvals
  have hmem : y ∈ g.2 := hvals ▸ mem_filter.mpr ⟨hy, decide_eq_true hyg⟩
  cases hcons : g.2 with
  | nil =>
    rw [hcons] at hmem
    cases hmem
  | cons x rest =>
    have hx : x ∈ xs.filter fun x => key x = g.1 := by rw [← hvals, hcons]; exact mem_cons_self
    exact ⟨x, rest, rfl, mem_of_mem_filter hx, of_decide_eq_true (mem_filter.mp hx).2⟩

theorem flatMap_group_ite (h : (groups.map Prod.fst).Nodup) (k : K) (found : List α) :
    (groups.flatMap fun g => if g.1 = k then found else []) =
      if k ∈ groups.map Prod.fst then found else [] := by
  induction groups with
  | nil => rfl
  | cons g groups ih =>
    obtain ⟨hg, hgroups⟩ := nodup_cons.mp h
    rw [flatMap_cons, ih hgroups, map_cons]
    by_cases hk : g.1 = k
    · subst hk
      simp [hg]
    · have hne : ¬ k = g.1 := Ne.symm hk
      simp only [hk, hne, if_false, nil_append, mem_cons, false_or]

theorem flatMap_pushGroup_perm {v : V} (h : (groups.map Prod.fst).Nodup) :
    ((pushGroup k v groups).flatMap Prod.snd).Perm (groups.flatMap Prod.snd ++ [v]) := by
  unfold pushGroup
  split_ifs with hk
  · induction groups with
    | nil => cases hk
    | cons g groups ih =>
      obtain ⟨hg, hgroups⟩ := nodup_cons.mp h
      rw [map_cons, flatMap_cons, flatMap_cons]
      by_cases he : g.1 = k
      · -- no other group has the key
        have hrest : (groups.map fun g => if g.1 = k then (g.1, g.2 ++ [v]) else g) = groups := by
          refine (map_congr_left fun g' hg' => ?_).trans (map_id groups)
          refine if_neg fun h' => hg ?_
          rw [he, ← h']
          exact mem_map_of_mem hg'
        rw [hrest, if_pos he]
        rw [append_assoc, append_assoc]
        exact append_left _ perm_append_comm
      · rw [if_neg he, append_assoc]
        refine append_left _ (ih hgroups ?_)
        exact (mem_cons.mp hk).resolve_left (Ne.symm he)
  · exact of_eq (by simp)

theorem flatMap_groupOn_perm (key : α → K) (val : α → V) (xs : List α) :
    ((groupOn key val xs).flatMap Prod.snd).Perm (xs.map val) := by
  induction xs using List.reverseRecOn with
  | nil => exact List.Perm.refl _
  | append_singleton xs x ih =>
    rw [groupOn_concat, map_append]
    exact (flatMap_pushGroup_perm (groupOn_keys_nodup key val xs)).trans (ih.append_right _)

theorem pairwise_groups_iff {r : α → α → Prop} :
    (∀ k ∈ xs.map key, (xs.filter fun x => key x = k).Pairwise r) ↔
      xs.Pairwise fun a b => key a = key b → r a b := by
  simp only [pairwise_filter, decide_eq_true_eq]
  simp only [pairwise_iff_forall_sublist]
  constructor
  · intro h a b hab heq
    exact h (key b) (mem_map_of_mem (hab.subset (by simp))) hab heq rfl
  · intro h k _ a b hab ha hb
    exact h hab (ha.trans hb.symm)

theorem sum_length_filter {ks : List K} (h : ks.Nodup) (hall : ∀ x ∈ xs, key x ∈ ks) :
    (ks.map fun k => (xs.filter fun x => key x = k).length).sum = xs.length := by
  have hcount : ∀ k, (xs.filter fun x => key x = k).length = (xs.map key : Multiset K).count k := by
    intro k
    rw [Multiset.coe_count, count_eq_countP, countP_map, countP_eq_length_filter]
    rfl
  simp only [hcount]
  rw [← sum_toFinset _ h, Multiset.sum_count_eq_card, Multiset.coe_card, length_map]
  exact fun k hk => mem_toFinset.mpr (forall_mem_map.mpr hall k hk)

end

theorem insertionSort_keys_lt [LinearOrder K] (h : (xs.map key).Nodup) :
    ((xs.insertionSort fun a b => key a ≤ key b).map key).Pairwise (· < ·) := by
  have hperm := perm_insertionSort (fun a b => key a ≤ key b) xs
  have hsorted := pairwise_map.mpr (pairwise_insertionSort (fun a b => key a ≤ key b) xs)
  exact (hsorted.and ((hperm.map key).nodup_iff.mpr h)).imp fun h => lt_of_le_of_ne h.1 h.2

theorem eq_of_keys_sorted [LinearOrder K] {ys : List α} (hx : xs.Pairwise fun a b => key a ≤ key b)
    (hy : ys.Pairwise fun a b => key a ≤ key b) (hxk : (xs.map key).Nodup)
    (hyk : (ys.map key).Nodup) (h : ∀ a, a ∈ xs ↔ a ∈ ys) :
    xs = ys := by
  have hperm : xs.Perm ys :=
    (perm_ext_iff_of_nodup (List.Nodup.of_map key hxk) (List.Nodup.of_map key hyk)).mpr h
  refine hperm.eq_of_pairwise (fun a b ha hb hab hba => ?_) hx hy
  exact inj_on_of_nodup_map hyk ((h a).mp ha) hb (le_antisymm hab hba)

end Parqtel.Lib
