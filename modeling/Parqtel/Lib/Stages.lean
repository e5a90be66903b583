import Mathlib

/-!
# Stages over a list of rows

A stage keeps the rows that satisfy a test, changes every row, or cuts the list after some rows.
A change can be made before other stages instead of after them if it alters no verdict of theirs
and commutes with their changes (`run_map`); a test can be made twice, before some stages and
after them, if they do not alter its verdict and cut nothing (`run_filter`).
-/

open List

namespace Parqtel.Lib

inductive RowStage (α : Type*) where
  | keep (p : α → Bool)
  | change (f : α → α)
  | cut (n : ℕ)

namespace RowStage

variable {α : Type*}

def apply : RowStage α → List α → List α
  | .keep p, rows => rows.filter p
  | .change f, rows => rows.map f
  | .cut n, rows => rows.take n

def run (stages : List (RowStage α)) (rows : List α) : List α :=
  stages.foldl (fun rows s => s.apply rows) rows

theorem run_append (s t : List (RowStage α)) (rows : List α) :
    run (s ++ t) rows = run t (run s rows) :=
  foldl_append

/-- Changing a row by `g` before the stages alters no verdict and no change of theirs. -/
def Commutes (g : α → α) : List (RowStage α) → α → Prop
  | [], _ => True
  | .keep p :: stages, r => p (g r) = p r ∧ (p r = true → Commutes g stages r)
  | .change f :: stages, r => f (g r) = g (f r) ∧ Commutes g stages (f r)
  | .cut _ :: stages, r => Commutes g stages r

variable {stages : List (RowStage α)}

theorem run_map {g : α → α} {rows : List α} (h : ∀ r ∈ rows, Commutes g stages r) :
    run stages (rows.map g) = (run stages rows).map g := by
  induction stages generalizing rows with
  | nil => rfl
  | cons s stages ih =>
    cases s with
    | keep p =>
      have hfilter : (rows.map g).filter p = (rows.filter p).map g := by
        rw [filter_map]
        exact congrArg _ (filter_congr fun r hr => (h r hr).1)
      change run stages ((rows.map g).filter p) = _
      rw [hfilter]
      refine ih fun r hr => ?_
      obtain ⟨hr, hp⟩ := mem_filter.mp hr
      exact (h r hr).2 hp
    | change f =>
      have hmap : (rows.map g).map f = (rows.map f).map g := by
        rw [map_map, map_map]
        exact map_congr_left fun r hr => (h r hr).1
      change run stages ((rows.map g).map f) = _
      rw [hmap]
      refine ih fun r hr => ?_
      obtain ⟨r', hr', rfl⟩ := mem_map.mp hr
      exact (h r' hr').2
    | cut n =>
      change run stages ((rows.map g).take n) = _
      rw [← map_take]
      exact ih fun r hr => h r (mem_of_mem_take hr)

def through : List (RowStage α) → α → α
  | [], r => r
  | .change f :: stages, r => through stages (f r)
  | _ :: stages, r => through stages r

def isCut : RowStage α → Bool
  | .cut _ => true
  | _ => false

def isKeep : RowStage α → Bool
  | .keep _ => true
  | _ => false

theorem run_changes (hkeep : ∀ s ∈ stages, s.isKeep = false) (hcut : ∀ s ∈ stages, s.isCut = false)
    (rows : List α) :
    run stages rows = rows.map (through stages) := by
  induction stages generalizing rows with
  | nil => exact (map_id rows).symm
  | cons s stages ih =>
    obtain ⟨hkeep, hkeeps⟩ := forall_mem_cons.mp hkeep
    obtain ⟨hcut, hcuts⟩ := forall_mem_cons.mp hcut
    cases s with
    | keep p => cases hkeep
    | cut n => cases hcut
    | change f =>
      change run stages (rows.map f) = _
      rw [ih hkeeps hcuts, map_map]
      rfl

theorem run_filter {p : α → Bool} {rows : List α} (hkeep : ∀ s ∈ stages, s.isKeep = false)
    (hcut : (∃ s ∈ stages, s.isCut = true) → ∀ r ∈ rows, p r = true)
    (h : ∀ r ∈ rows, p (through stages r) = p r) :
    (run stages (rows.filter p)).filter p = (run stages rows).filter p := by
  by_cases hany : ∃ s ∈ stages, s.isCut = true
  · rw [filter_eq_self.mpr (hcut hany)]
  · have hnone : ∀ s ∈ stages, s.isCut = false := by simpa using hany
    have hfilter :
        (rows.filter p).filter (p ∘ through stages) = rows.filter (p ∘ through stages) := by
      rw [filter_filter]
      refine filter_congr fun r hr => ?_
      rw [Function.comp_apply, h r hr, Bool.and_self]
    rw [run_changes hkeep hnone, run_changes hkeep hnone, filter_map, filter_map, hfilter]

end RowStage

end Parqtel.Lib
