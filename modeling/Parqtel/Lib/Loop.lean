import Parqtel.Lib.Outcome

/-!
# Loops over time

`stepLoop` is a loop `while cond t` whose body updates a state and whose counter moves on by
`next`. The turns are bounded by a fuel; a loop that uses it up ends with `stuck`. `Visits` are
the counter values that such a loop reaches; two loops whose bodies agree at all of them agree
(`stepLoop_congr`). `Reaches` counts the turns and asks that the body returns in each: where a
loop fails is where it gets to a turn that fails (`stepLoop_eq_error`).
-/

namespace Parqtel.Lib

variable {σ ε : Type}

def stepLoop (cond : ℤ → Bool) (next : ℤ → Except ε ℤ) (stuck : ε)
    (body : ℤ → σ → Except ε σ) : ℕ → ℤ → σ → Except ε σ
  | 0, _, _ => .error stuck
  | fuel + 1, t, s =>
    if cond t then do
      let s ← body t s
      let t ← next t
      stepLoop cond next stuck body fuel t s
    else .ok s

section
variable (cond : ℤ → Bool) (next : ℤ → Except ε ℤ)

/-- The counter values of a loop that starts at `first`. -/
inductive Visits (first : ℤ) : ℤ → Prop
  | first : Visits first first
  | next {t t' : ℤ} : Visits first t → cond t = true → next t = .ok t' → Visits first t'

end

variable {fuel : ℕ} {t : ℤ}

section
variable {cond : ℤ → Bool} {next : ℤ → Except ε ℤ} {stuck : ε} {first : ℤ}

theorem stepLoop_congr {body body' : ℤ → σ → Except ε σ}
    (h : ∀ t, Visits cond next first t → cond t = true → body t = body' t) (fuel : ℕ) (s : σ) :
    stepLoop cond next stuck body fuel first s = stepLoop cond next stuck body' fuel first s := by
  have hfrom : ∀ t, Visits cond next first t → ∀ s,
      stepLoop cond next stuck body fuel t s = stepLoop cond next stuck body' fuel t s := by
    induction fuel with
    | zero => exact fun _ _ _ => rfl
    | succ fuel ih =>
      intro t ht s
      unfold stepLoop
      split_ifs with hcond
      · rw [h t ht hcond]
        cases body' t s with
        | error e => rfl
        | ok s' =>
          cases hnext : next t with
          | error e => rfl
          | ok t' => exact ih t' (ht.next hcond hnext) s'
      · rfl
  exact hfrom first .first s

theorem stepLoop_invariant {body : ℤ → σ → Except ε σ} {q : σ → Prop}
    (hbody : ∀ t s s', q s → body t s = .ok s' → q s') {s s' : σ} (hs : q s)
    (h : stepLoop cond next stuck body fuel t s = .ok s') : q s' := by
  induction fuel generalizing t s with
  | zero => cases h
  | succ fuel ih =>
    unfold stepLoop at h
    split_ifs at h
    · obtain ⟨s₁, hs₁, h⟩ := bind_eq_ok.mp h
      obtain ⟨t', -, h⟩ := bind_eq_ok.mp h
      exact ih (hbody t s s₁ hs hs₁) h
    · exact Except.ok.inj h ▸ hs

/-- A loop that collects what each turn yields, and whose counter goes up. -/
theorem stepLoop_collect {α : Type} {inner : ℤ → Except ε α}
    (hnext : ∀ t t', cond t = true → next t = .ok t' → t < t') {out out' : List (ℤ × α)}
    (h : stepLoop cond next stuck
      (fun t out => inner t >>= fun a => .ok (out ++ [(t, a)])) fuel t out = .ok out') :
    ∃ steps, out' = out ++ steps ∧ steps.Pairwise (fun a b => a.1 < b.1) ∧
      ∀ s ∈ steps, t ≤ s.1 ∧ cond s.1 = true ∧ inner s.1 = .ok s.2 := by
  induction fuel generalizing t out with
  | zero => cases h
  | succ fuel ih =>
    unfold stepLoop at h
    split_ifs at h with hcond
    · obtain ⟨out₁, hbody, h⟩ := bind_eq_ok.mp h
      obtain ⟨a, ha, hout₁⟩ := bind_eq_ok.mp hbody
      cases hout₁
      obtain ⟨t', ht', h⟩ := bind_eq_ok.mp h
      have hlt := hnext t t' hcond ht'
      obtain ⟨steps, rfl, hsteps, hall⟩ := ih h
      refine ⟨(t, a) :: steps, by rw [List.append_assoc]; rfl, ?_, ?_⟩
      · exact List.pairwise_cons.mpr ⟨fun s hs => hlt.trans_le (hall s hs).1, hsteps⟩
      · rintro s (- | ⟨-, hs⟩)
        · exact ⟨le_rfl, hcond, ha⟩
        · exact ⟨hlt.le.trans (hall s hs).1, (hall s hs).2⟩
    · exact ⟨[], by rw [List.append_nil, Except.ok.inj h], List.Pairwise.nil,
        nofun⟩

end

section
variable {α : Type} (cond : ℤ → Bool) (next : ℤ → Except ε ℤ) (inner : ℤ → Except ε α)

/-- The loop gets from one counter value to another in some turns, all of which return. -/
inductive Reaches : ℤ → ℕ → ℤ → Prop
  | refl (t : ℤ) : Reaches t 0 t
  | step {t t' u : ℤ} {a : α} {n : ℕ} : cond t = true → inner t = .ok a → next t = .ok t' →
      Reaches t' n u → Reaches t (n + 1) u

end

section
variable {α : Type} {cond : ℤ → Bool} {next : ℤ → Except ε ℤ} {inner : ℤ → Except ε α}

def TurnFails (cond : ℤ → Bool) (next : ℤ → Except ε ℤ) (inner : ℤ → Except ε α) (e : ε) (t : ℤ) :
    Prop :=
  cond t = true ∧ (inner t = .error e ∨ (∃ a, inner t = .ok a) ∧ next t = .error e)

variable {first : ℤ}

/-- **Where a loop fails**: at a turn it gets to, or with all turns used up. -/
theorem stepLoop_eq_error {stuck e : ε} {update : ℤ → σ → α → σ} {s : σ} :
    stepLoop cond next stuck (fun t s => inner t >>= fun a => .ok (update t s a)) fuel first s =
        .error e ↔
      (∃ n t, n < fuel ∧ Reaches cond next inner first n t ∧ TurnFails cond next inner e t) ∨
        (stuck = e ∧ ∃ t, Reaches cond next inner first fuel t) := by
  induction fuel generalizing first s with
  | zero =>
    constructor
    · intro h
      exact .inr ⟨Except.error.inj h, first, .refl first⟩
    · rintro (⟨n, t, hn, -⟩ | ⟨rfl, -⟩)
      · exact absurd hn (Nat.not_lt_zero n)
      · rfl
  | succ fuel ih =>
    unfold stepLoop
    split_ifs with hcond
    · rw [bind_eq_error, bind_eq_error]
      constructor
      · rintro ((hbody | ⟨a, -, h⟩) | ⟨s', hbody, h⟩)
        · exact .inl ⟨0, first, Nat.succ_pos fuel, .refl first, hcond, .inl hbody⟩
        · cases h
        · obtain ⟨a, ha, -⟩ := bind_eq_ok.mp hbody
          rcases bind_eq_error.mp h with hnext | ⟨t', hnext, h⟩
          · exact .inl ⟨0, first, Nat.succ_pos fuel, .refl first, hcond, .inr ⟨⟨a, ha⟩, hnext⟩⟩
          · rcases ih.mp h with ⟨n, t, hn, hreach, hfails⟩ | ⟨hstuck, t, hreach⟩
            · exact .inl ⟨n + 1, t, Nat.succ_lt_succ hn, .step hcond ha hnext hreach, hfails⟩
            · exact .inr ⟨hstuck, t, .step hcond ha hnext hreach⟩
      · have hstep {n : ℕ} {t : ℤ} (hreach : Reaches cond next inner first (n + 1) t) :
            ∃ a t', inner first = .ok a ∧ next first = .ok t' ∧ Reaches cond next inner t' n t := by
          cases hreach with
          | step _ ha hnext hrest => exact ⟨_, _, ha, hnext, hrest⟩
        rintro (⟨n, t, hn, hreach, hfails⟩ | ⟨hstuck, t, hreach⟩)
        · cases n with
          | zero =>
            cases hreach
            rcases hfails.2 with hbody | ⟨⟨a, ha⟩, hnext⟩
            · exact .inl (.inl hbody)
            · refine .inr ⟨update first s a, by rw [ha, ok_bind], ?_⟩
              rw [hnext, error_bind]
          | succ n =>
            obtain ⟨a, t', ha, hnext, hrest⟩ := hstep hreach
            refine .inr ⟨update first s a, by rw [ha, ok_bind], ?_⟩
            rw [hnext, ok_bind]
            exact ih.mpr (.inl ⟨n, t, Nat.lt_of_succ_lt_succ hn, hrest, hfails⟩)
        · obtain ⟨a, t', ha, hnext, hrest⟩ := hstep hreach
          refine .inr ⟨update first s a, by rw [ha, ok_bind], ?_⟩
          rw [hnext, ok_bind]
          exact ih.mpr (.inr ⟨hstuck, t, hrest⟩)
    · constructor
      · intro h
        cases h
      · rintro (⟨n, t, -, hreach, hfails⟩ | ⟨-, t, hreach⟩)
        · cases hreach with
          | refl => exact absurd hfails.1 hcond
          | step hc => exact absurd hc hcond
        · cases hreach with
          | step hc => exact absurd hc hcond

variable {n : ℕ}

theorem Reaches.eq_add {step : ℤ} (hnext : ∀ t t', next t = .ok t' → t' = t + step)
    (h : Reaches cond next inner first n t) :
    t = first + n * step := by
  induction h with
  | refl t => simp
  | step _ _ hn _ ih =>
    rw [ih, hnext _ _ hn]
    push_cast
    ring

theorem Reaches.of_next {q : ℤ → Prop} (hfirst : q first) (hnext : ∀ t t', next t = .ok t' → q t')
    (h : Reaches cond next inner first n t) : q t := by
  induction h with
  | refl t => exact hfirst
  | step _ _ hn _ ih => exact ih (hnext _ _ hn)

theorem Reaches.first_turn (h : Reaches cond next inner first n t) (hn : 0 < n) :
    cond first = true ∧ ∃ a, inner first = .ok a := by
  cases h with
  | refl => exact absurd hn (Nat.lt_irrefl 0)
  | step hcond ha => exact ⟨hcond, _, ha⟩

theorem Reaches.repeat {a : α} (hcond : cond first = true) (hinner : inner first = .ok a)
    (hnext : next first = .ok first) (n : ℕ) :
    Reaches cond next inner first n first := by
  induction n with
  | zero => exact .refl first
  | succ n ih => exact .step hcond hinner hnext ih

end

end Parqtel.Lib
