import Mathlib

/-!
# Boolean trees

A condition is a tree of `and`, `or` and `not` over leaves. The leaves under `and` alone are its
conjuncts: they hold wherever the condition does (`holds_of_mem_conjuncts`), and decide it if the
tree has no other leaves (`holds_of_conjuncts`).
-/

open List

namespace Parqtel.Lib

variable {A B : Type*}

inductive BoolTree (A : Type*) where
  | and (parts : List (BoolTree A))
  | or (parts : List (BoolTree A))
  | not (inner : BoolTree A)
  | leaf (a : A)

namespace BoolTree

mutual

def map (f : A → B) : BoolTree A → BoolTree B
  | .and parts => .and (mapAll f parts)
  | .or parts => .or (mapAll f parts)
  | .not inner => .not (inner.map f)
  | .leaf a => .leaf (f a)

def mapAll (f : A → B) : List (BoolTree A) → List (BoolTree B)
  | [] => []
  | t :: ts => t.map f :: mapAll f ts

end

mutual

def holds (m : A → Bool) : BoolTree A → Bool
  | .and parts => allHold m parts
  | .or parts => anyHolds m parts
  | .not inner => !inner.holds m
  | .leaf a => m a

def allHold (m : A → Bool) : List (BoolTree A) → Bool
  | [] => true
  | t :: ts => t.holds m && allHold m ts

def anyHolds (m : A → Bool) : List (BoolTree A) → Bool
  | [] => false
  | t :: ts => t.holds m || anyHolds m ts

end

mutual

def foldConjuncts (f : B → A → B) : B → BoolTree A → B
  | b, .and parts => foldParts f b parts
  | b, .or _ => b
  | b, .not _ => b
  | b, .leaf a => f b a

def foldParts (f : B → A → B) : B → List (BoolTree A) → B
  | b, [] => b
  | b, t :: ts => foldParts f (foldConjuncts f b t) ts

end

mutual

def isConjunction (ok : A → Bool) : BoolTree A → Bool
  | .and parts => areConjunctions ok parts
  | .or _ => false
  | .not _ => false
  | .leaf a => ok a

def areConjunctions (ok : A → Bool) : List (BoolTree A) → Bool
  | [] => true
  | t :: ts => t.isConjunction ok && areConjunctions ok ts

end

/-! ## Conjuncts -/

mutual

def conjuncts : BoolTree A → List A
  | .and parts => conjunctsOf parts
  | .or _ => []
  | .not _ => []
  | .leaf a => [a]

def conjunctsOf : List (BoolTree A) → List A
  | [] => []
  | t :: ts => t.conjuncts ++ conjunctsOf ts

end

mutual

theorem foldConjuncts_eq (f : B → A → B) (b : B) :
    (t : BoolTree A) → foldConjuncts f b t = t.conjuncts.foldl f b
  | .and parts => foldParts_eq f b parts
  | .or _ => rfl
  | .not _ => rfl
  | .leaf _ => rfl

theorem foldParts_eq (f : B → A → B) (b : B) :
    (ts : List (BoolTree A)) → foldParts f b ts = (conjunctsOf ts).foldl f b
  | [] => rfl
  | t :: ts => by
    rw [foldParts, conjunctsOf, foldl_append, foldConjuncts_eq f b t, foldParts_eq f _ ts]

end

section
variable {m ok : A → Bool}

mutual

theorem holds_of_mem_conjuncts : (t : BoolTree A) → t.holds m = true → ∀ a ∈ t.conjuncts, m a = true
  | .and parts, h => holds_of_mem_conjunctsOf parts h
  | .or _, _ => nofun
  | .not _, _ => nofun
  | .leaf _, h => forall_mem_singleton.mpr h

theorem holds_of_mem_conjunctsOf : (ts : List (BoolTree A)) → allHold m ts = true →
    ∀ a ∈ conjunctsOf ts, m a = true
  | [], _ => nofun
  | t :: ts, h => by
    obtain ⟨ht, hts⟩ := Bool.and_eq_true_iff.mp h
    exact forall_mem_append.mpr ⟨holds_of_mem_conjuncts t ht, holds_of_mem_conjunctsOf ts hts⟩

end

mutual

theorem holds_of_conjuncts : (t : BoolTree A) → t.isConjunction ok = true →
    (∀ a ∈ t.conjuncts, ok a = true) ∧ ((∀ a ∈ t.conjuncts, m a = true) → t.holds m = true)
  | .and parts, h => holds_of_conjunctsOf parts h
  | .leaf a, h => ⟨forall_mem_singleton.mpr h, fun hm => hm a mem_cons_self⟩

theorem holds_of_conjunctsOf : (ts : List (BoolTree A)) → areConjunctions ok ts = true →
    (∀ a ∈ conjunctsOf ts, ok a = true) ∧ ((∀ a ∈ conjunctsOf ts, m a = true) → allHold m ts = true)
  | [], _ => ⟨nofun, fun _ => rfl⟩
  | t :: ts, h => by
    obtain ⟨ht, hts⟩ := Bool.and_eq_true_iff.mp h
    obtain ⟨hok, hold⟩ := holds_of_conjuncts t ht
    obtain ⟨hoks, holds⟩ := holds_of_conjunctsOf ts hts
    refine ⟨forall_mem_append.mpr ⟨hok, hoks⟩, fun hm => ?_⟩
    obtain ⟨hm, hms⟩ := forall_mem_append.mp hm
    exact Bool.and_eq_true_iff.mpr ⟨hold hm, holds hms⟩

end

end

/-! ## Mapped trees and rows of leaves -/

mutual

theorem holds_map (m : B → Bool) (f : A → B) :
    (t : BoolTree A) → (t.map f).holds m = t.holds fun a => m (f a)
  | .and parts => allHold_mapAll m f parts
  | .or parts => anyHolds_mapAll m f parts
  | .not inner => congrArg Bool.not (holds_map m f inner)
  | .leaf _ => rfl

theorem allHold_mapAll (m : B → Bool) (f : A → B) :
    (ts : List (BoolTree A)) → allHold m (mapAll f ts) = allHold (fun a => m (f a)) ts
  | [] => rfl
  | t :: ts => congrArg₂ (· && ·) (holds_map m f t) (allHold_mapAll m f ts)

theorem anyHolds_mapAll (m : B → Bool) (f : A → B) :
    (ts : List (BoolTree A)) → anyHolds m (mapAll f ts) = anyHolds (fun a => m (f a)) ts
  | [] => rfl
  | t :: ts => congrArg₂ (· || ·) (holds_map m f t) (anyHolds_mapAll m f ts)

end

section
variable (f : B → A) (l : List B) (rest : List (BoolTree A))

theorem allHold_leaves (m : A → Bool) : allHold m (l.map (fun x => .leaf (f x)) ++ rest) =
    ((l.all fun x => m (f x)) && allHold m rest) := by
  induction l with
  | nil => rfl
  | cons x l ih =>
    rw [map_cons, cons_append, allHold, ih, all_cons, Bool.and_assoc]
    rfl

theorem areConjunctions_leaves (ok : A → Bool) :
    areConjunctions ok (l.map (fun x => .leaf (f x)) ++ rest) =
      ((l.all fun x => ok (f x)) && areConjunctions ok rest) := by
  induction l with
  | nil => rfl
  | cons x l ih =>
    rw [map_cons, cons_append, areConjunctions, ih, all_cons, Bool.and_assoc]
    rfl

theorem foldParts_leaves {C : Type*} (g : C → A → C) (c : C) :
    foldParts g c (l.map (fun x => .leaf (f x)) ++ rest) =
      foldParts g (l.foldl (fun c x => g c (f x)) c) rest := by
  induction l generalizing c with
  | nil => rfl
  | cons x l ih =>
    rw [map_cons, cons_append, foldParts, ih]
    rfl

end

end BoolTree

end Parqtel.Lib
