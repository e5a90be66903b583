import Mathlib

/-!
# Computations that may end without a value

Facts about `Except` as the type of a computation's outcome, and the loop that runs over a
list, lets each element add to the result, and ends with the first failure (`gather`).
-/

open List

namespace Parqtel.Lib

variable {α β ε : Type*} {e : ε}

section
universe u
variable {γ δ : Type u}

theorem ok_bind (a : γ) (f : γ → Except ε δ) : ((.ok a : Except ε γ) >>= f) = f a := rfl

theorem error_bind (e : ε) (f : γ → Except ε δ) : ((.error e : Except ε γ) >>= f) = .error e := rfl

variable {x : Except ε γ}

theorem bind_congr_ok {f g : γ → Except ε δ} (h : ∀ a, x = .ok a → f a = g a) :
    (x >>= f) = (x >>= g) := by
  cases x with
  | error e => rfl
  | ok a => exact h a rfl

theorem bind_eq_ok {f : γ → Except ε δ} {b : δ} :
    (x >>= f) = .ok b ↔ ∃ a, x = .ok a ∧ f a = .ok b := by
  cases x with
  | error e =>
    refine ⟨fun h => ?_, ?_⟩
    · cases h
    · rintro ⟨a, ha, _⟩
      cases ha
  | ok a =>
    refine ⟨fun h => ⟨a, rfl, h⟩, ?_⟩
    rintro ⟨a', ha, h⟩
    cases ha
    exact h

theorem bind_eq_error {f : γ → Except ε δ} :
    (x >>= f) = .error e ↔ x = .error e ∨ ∃ a, x = .ok a ∧ f a = .error e := by
  cases x with
  | error e' =>
    refine ⟨fun h => .inl (congrArg Except.error (Except.error.inj h)), ?_⟩
    rintro (h | ⟨a, ha, _⟩)
    · exact congrArg Except.error (Except.error.inj h)
    · cases ha
  | ok a =>
    refine ⟨fun h => .inr ⟨a, rfl, h⟩, ?_⟩
    rintro (h | ⟨a', ha, h⟩)
    · cases h
    · cases ha
      exact h

theorem bind_eq_error_left {f : γ → Except ε δ} (h : ∀ a, f a ≠ .error e) :
    (x >>= f) = .error e ↔ x = .error e := by
  rw [bind_eq_error]
  exact or_iff_left fun ⟨a, _, ha⟩ => h a ha

end

def gather (f : α → Except ε (List β)) : List α → Except ε (List β)
  | [] => .ok []
  | a :: as => do
    let bs ← f a
    let rest ← gather f as
    return bs ++ rest

variable {f : α → Except ε (List β)} {as : List α}

theorem gather_ok {g : α → List β} (h : ∀ a ∈ as, f a = .ok (g a)) :
    gather f as = .ok (as.flatMap g) := by
  induction as with
  | nil => rfl
  | cons a as ih =>
    obtain ⟨ha, has⟩ := forall_mem_cons.mp h
    rw [gather, ha, ih has]
    rfl

theorem gather_congr {g : α → Except ε (List β)} (h : ∀ a ∈ as, f a = g a) :
    gather f as = gather g as := by
  induction as with
  | nil => rfl
  | cons a as ih =>
    obtain ⟨ha, has⟩ := forall_mem_cons.mp h
    rw [gather, gather, ha, ih has]

theorem gather_return_iff {δ ρ : Type _} {f : α → Except ε δ} {g : α → δ → ρ} {bs : List ρ} :
    gather (fun a => do return [g a (← f a)]) as = .ok bs ↔
      Forall₂ (fun a b => ∃ c, f a = .ok c ∧ g a c = b) as bs := by
  induction as generalizing bs with
  | nil => rw [forall₂_nil_left_iff, gather, Except.ok.injEq, eq_comm]
  | cons a as ih =>
    rw [gather, forall₂_cons_left_iff, bind_eq_ok]
    constructor
    · rintro ⟨l, hl, hrest⟩
      obtain ⟨c, hc, hl⟩ := bind_eq_ok.mp hl
      obtain ⟨rest, hgather, hbs⟩ := bind_eq_ok.mp hrest
      cases hl
      exact ⟨g a c, rest, ⟨c, hc, rfl⟩, ih.mp hgather, (Except.ok.inj hbs).symm⟩
    · rintro ⟨-, rest, ⟨c, hc, rfl⟩, hrest, rfl⟩
      refine ⟨[g a c], by rw [hc]; rfl, ?_⟩
      rw [ih.mpr hrest]
      rfl

theorem gather_eq_error (h : gather f as = .error e) : ∃ a ∈ as, f a = .error e := by
  induction as with
  | nil => cases h
  | cons a as ih =>
    rcases bind_eq_error.mp h with ha | ⟨bs, -, h⟩
    · exact ⟨a, mem_cons_self, ha⟩
    · rcases bind_eq_error.mp h with has | ⟨rest, -, h⟩
      · obtain ⟨a', ha', hf⟩ := ih has
        exact ⟨a', mem_cons_of_mem a ha', hf⟩
      · cases h

variable {bs : List β}

theorem gather_ne_ok {a : α} (ha : a ∈ as) (hf : f a = .error e) : gather f as ≠ .ok bs := by
  induction as generalizing bs with
  | nil => cases ha
  | cons b as ih =>
    intro h
    obtain ⟨first, hfirst, h⟩ := bind_eq_ok.mp h
    obtain ⟨rest, hrest, -⟩ := bind_eq_ok.mp h
    rcases mem_cons.mp ha with rfl | ha
    · rw [hf] at hfirst
      cases hfirst
    · exact ih ha hrest

theorem gather_eq_error_iff (h : ∀ a ∈ as, ∀ e', f a = .error e' → e' = e) :
    gather f as = .error e ↔ ∃ a ∈ as, f a = .error e := by
  refine ⟨gather_eq_error, ?_⟩
  rintro ⟨a, ha, hf⟩
  cases hg : gather f as with
  | error e' =>
    obtain ⟨a', ha', hf'⟩ := gather_eq_error hg
    rw [h a' ha' e' hf']
  | ok bs => exact absurd hg (gather_ne_ok ha hf)

theorem gather_eq_error_iff_of {d : ε} {P : α → Prop}
    (h : ∀ a ∈ as, ∀ e, f a = .error e ↔ e = d ∧ P a) :
    gather f as = .error e ↔ e = d ∧ ∃ a ∈ as, P a := by
  constructor
  · intro hg
    obtain ⟨a, ha, hf⟩ := gather_eq_error hg
    obtain ⟨rfl, hP⟩ := (h a ha e).mp hf
    exact ⟨rfl, a, ha, hP⟩
  · rintro ⟨rfl, a, ha, hP⟩
    exact (gather_eq_error_iff fun a ha e' he => ((h a ha e').mp he).1).mpr
      ⟨a, ha, (h a ha _).mpr ⟨rfl, hP⟩⟩

theorem gather_forall {P : β → Prop} (h : gather f as = .ok bs)
    (hf : ∀ a ∈ as, ∀ l, f a = .ok l → ∀ b ∈ l, P b) :
    ∀ b ∈ bs, P b := by
  induction as generalizing bs with
  | nil =>
    cases h
    nofun
  | cons a as ih =>
    obtain ⟨ha, has⟩ := forall_mem_cons.mp hf
    obtain ⟨first, hfirst, h⟩ := bind_eq_ok.mp h
    obtain ⟨rest, hrest, h⟩ := bind_eq_ok.mp h
    cases h
    exact forall_mem_append.mpr ⟨ha first hfirst, ih hrest has⟩

theorem gather_tags_sublist {κ : Type*} {key : α → κ} {tag : β → κ} (h : gather f as = .ok bs)
    (hf : ∀ a ∈ as, ∀ l, f a = .ok l → (l.map tag).Sublist [key a]) :
    (bs.map tag).Sublist (as.map key) := by
  induction as generalizing bs with
  | nil =>
    cases h
    exact List.Sublist.refl _
  | cons a as ih =>
    obtain ⟨ha, has⟩ := forall_mem_cons.mp hf
    obtain ⟨first, hfirst, h⟩ := bind_eq_ok.mp h
    obtain ⟨rest, hrest, h⟩ := bind_eq_ok.mp h
    cases h
    rw [map_append]
    exact (ha first hfirst).append (ih hrest has)

theorem gather_of_filterMap {γ : Type*} (f : β → Except ε (List γ)) (g : α → Option β)
    (as : List α) :
    gather f (as.filterMap g) =
      gather (fun a => match g a with | some b => f b | none => .ok []) as := by
  induction as with
  | nil => rfl
  | cons a as ih =>
    rw [filterMap_cons]
    cases h : g a with
    | none =>
      rw [ih, gather, h]
      cases gather (fun a => match g a with | some b => f b | none => .ok []) as <;> rfl
    | some b =>
      rw [gather, gather, h, ih]

theorem gather_of_filter (f : α → Except ε (List β)) (q : α → Bool) (as : List α) :
    gather f (as.filter q) = gather (fun a => if q a then f a else .ok []) as := by
  rw [← filterMap_eq_filter, gather_of_filterMap]
  refine gather_congr fun a _ => ?_
  by_cases h : q a = true <;> simp [Option.guard, h]

section
variable {κ : Type*} {key : α → κ}

def gatherTagged (key : α → κ) (f : α → Except ε (Option β)) (as : List α) :
    Except ε (List (κ × β)) :=
  gather (fun a => (f a).map fun b => (b.map fun b => (key a, b)).toList) as

theorem gatherTagged_cons {f : α → Except ε (Option β)} {a : α} {bs : List (κ × β)}
    (h : gatherTagged key f (a :: as) = .ok bs) :
    ∃ b rest, f a = .ok b ∧ gatherTagged key f as = .ok rest ∧
      bs = (b.map fun b => (key a, b)).toList ++ rest := by
  unfold gatherTagged at h ⊢
  rw [gather] at h
  obtain ⟨first, hfirst, h⟩ := bind_eq_ok.mp h
  obtain ⟨rest, hrest, h⟩ := bind_eq_ok.mp h
  cases h
  cases hf : f a with
  | error e =>
    rw [hf] at hfirst
    cases hfirst
  | ok b =>
    rw [hf] at hfirst
    cases hfirst
    exact ⟨b, rest, rfl, hrest, rfl⟩

theorem key_mem_of_gatherTagged {f : α → Except ε (Option β)} {bs : List (κ × β)}
    (h : gatherTagged key f as = .ok bs) {x : κ × β} (hx : x ∈ bs) : x.1 ∈ as.map key := by
  induction as generalizing bs with
  | nil =>
    cases h
    cases hx
  | cons a as ih =>
    obtain ⟨b, rest, -, hrest, rfl⟩ := gatherTagged_cons h
    rcases mem_append.mp hx with hb | hr
    · obtain ⟨b, rfl, rfl⟩ := Option.map_eq_some_iff.mp (Option.mem_toList.mp hb)
      exact mem_cons_self
    · exact mem_cons_of_mem _ (ih hrest hr)

/-- **Under distinct keys the results tell what each element gave.** -/
theorem gatherTagged_inj {f g : α → Except ε (Option β)} {bs : List (κ × β)}
    (hkeys : (as.map key).Nodup) (hf : gatherTagged key f as = .ok bs)
    (hg : gatherTagged key g as = .ok bs) : ∀ a ∈ as, f a = g a := by
  induction as generalizing bs with
  | nil => nofun
  | cons a as ih =>
    obtain ⟨b, rest, hfa, hfas, rfl⟩ := gatherTagged_cons hf
    obtain ⟨b', rest', hga, hgas, happ⟩ := gatherTagged_cons hg
    obtain ⟨hkey, hkeys⟩ := nodup_cons.mp hkeys
    have hfresh {f : α → Except ε (Option β)} {v : β} {rest rest' : List (κ × β)}
        (h : gatherTagged key f as = .ok rest) : rest ≠ (key a, v) :: rest' := by
      rintro rfl
      exact hkey (key_mem_of_gatherTagged h mem_cons_self)
    -- the key of the first element occurs in no other one's result
    have hsame : b = b' ∧ rest = rest' := by
      cases b with
      | none =>
        cases b' with
        | none => exact ⟨rfl, happ⟩
        | some v => exact absurd happ (hfresh hfas)
      | some v =>
        cases b' with
        | none => exact absurd happ.symm (hfresh hgas)
        | some v' =>
          obtain ⟨hv, hrest⟩ := List.cons.inj happ
          exact ⟨congrArg some (congrArg Prod.snd hv), hrest⟩
    obtain ⟨rfl, rfl⟩ := hsame
    rw [forall_mem_cons]
    exact ⟨hfa.trans hga.symm, ih hkeys hfas hgas⟩

end

end Parqtel.Lib
