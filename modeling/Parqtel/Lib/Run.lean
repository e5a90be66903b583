import Mathlib

/-!
# Runs of event-driven machines

A machine is a function `step : S → E → Option S`; `none` is an event that the
state does not allow. Every choice of the environment (which task moves, what
an I/O call answers) is part of the event, so the machine itself is
deterministic and can be executed. `Run step ok a b`: `a` reaches `b` by
events that each meet the guard `ok` in the state they are taken in. A guard
that is always true gives plain reachability (`Reach`).
-/

namespace Parqtel.Lib

variable {S E : Type*}

inductive Run (step : S → E → Option S) (ok : S → E → Prop) : S → S → Prop where
  | refl (a : S) : Run step ok a a
  | snoc {a b c : S} {e : E} : Run step ok a b → ok b e → step b e = some c → Run step ok a c

/-- `a` reaches `b` by any events. -/
abbrev Reach (step : S → E → Option S) (a b : S) : Prop := Run step (fun _ _ => True) a b

/-- Execute a list of events, as long as each meets the guard. -/
def exec (step : S → E → Option S) (ok : S → E → Prop) [∀ s e, Decidable (ok s e)] :
    S → List E → Option S
  | s, [] => some s
  | s, e :: es =>
    if ok s e then
      match step s e with
      | none => none
      | some s' => exec step ok s' es
    else none

section
variable {step : S → E → Option S} {ok ok' : S → E → Prop} {a b : S}

theorem Run.trans {c : S} (h1 : Run step ok a b) (h2 : Run step ok b c) : Run step ok a c := by
  induction h2 with
  | refl => exact h1
  | snoc _ he hs ih => exact .snoc ih he hs

theorem Run.single {e : E} (he : ok a e) (h : step a e = some b) : Run step ok a b :=
  .snoc (.refl a) he h

/-- **Invariant rule.** What holds at the start and is kept by every guarded step
holds in every state of a guarded run. -/
theorem Run.inv {I : S → Prop} (h : Run step ok a b) (h0 : I a)
    (hs : ∀ s e s', I s → ok s e → step s e = some s' → I s') : I b := by
  induction h with
  | refl => exact h0
  | snoc _ he hstep ih => exact hs _ _ _ ih he hstep

variable [∀ s e, Decidable (ok s e)]

theorem run_of_exec {es : List E} : ∀ {a b : S}, exec step ok a es = some b → Run step ok a b := by
  induction es with
  | nil => intro a b h; cases h; exact .refl a
  | cons e es ih =>
    intro a b h
    rw [exec] at h
    split_ifs at h with he
    split at h
    · cases h
    · next s' hs => exact (Run.single he hs).trans (ih h)

theorem exists_run (step : S → E → Option S) (ok : S → E → Prop) [∀ s e, Decidable (ok s e)]
    (a : S) (p : S → Prop) [DecidablePred p] (es : List E)
    (h : (exec step ok a es).any fun b => p b) : ∃ b, Run step ok a b ∧ p b := by
  obtain ⟨b, hb, hp⟩ := (Option.any_eq_true _ _).mp h
  exact ⟨b, run_of_exec hb, of_decide_eq_true hp⟩

end

end Parqtel.Lib
