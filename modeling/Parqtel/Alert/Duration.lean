import Parqtel.Alert.Engine
import Parqtel.Query.Exact

/-!
# Alerts fire after their duration

A rule with a duration is meant to fire once its condition was met for that long. The code counts
from `startedAt`, which is set when the instance is created and never again: an instance that was
resolved and is pending once more fires by the old start (`StaleTimer`). A clock that is behind the
start gives a negative number of seconds, which wraps (`ClockBehind`).
`firing_after_duration` says that nothing else makes an alert fire early.
-/

namespace Parqtel.Alert

open Query Nat AlertStore

variable {F : Type}

/-! ## Runs -/

def storeAt (env : Env F) (calls : List (Call F)) (n : ℕ) : AlertStore F :=
  (calls.take n).foldl (call env) .inMemory

def stateAt (env : Env F) (calls : List (Call F)) (n id : ℕ) : Option AlertState :=
  ((storeAt env calls n).getById id).map AlertInstance.state

def PendingFrom (env : Env F) (calls : List (Call F)) (id j n : ℕ) : Prop :=
  stateAt env calls j id ≠ some .pending ∧ ∀ k ≤ n, j < k → stateAt env calls k id = some .pending

instance (env : Env F) (calls : List (Call F)) (id j n : ℕ) :
    Decidable (PendingFrom env calls id j n) :=
  inferInstanceAs (Decidable (_ ∧ _))

/-- Every evaluation of the fingerprint among the calls `j` to `n` found the condition met. -/
def MetThroughout (env : Env F) (calls : List (Call F)) (fingerprint j n : ℕ) : Prop :=
  ∀ k c, j ≤ k → k ≤ n → calls[k]? = some c → c.Evaluates env fingerprint → c.Met env

/-- The call `n` evaluates a rule whose condition was met since its instance became pending, for
the duration of the rule. -/
def HeldForDuration (env : Env F) (calls : List (Call F)) (id n : ℕ) : Prop :=
  ∃ rule value labels newId clock, calls[n]? = some (.evaluate rule value labels newId clock) ∧
    ∃ j entry, j < n ∧ calls[j]? = some entry ∧ PendingFrom env calls id j n ∧
      MetThroughout env calls (env.computeFingerprint rule.id labels) j n ∧
      entry.now + rule.condition.forDurationSecs * 1000000000 ≤ clock 0

def pendingSince (i : AlertInstance F) : ℤ :=
  match (i.transitionLog.filter (·.target = .pending)).getLast? with
  | some t => t.time
  | none => i.startedAt

/-! ## The two ways to fire early -/

/-- The duration has passed since the start, but not since the instance is pending again. -/
def StaleTimer (i : AlertInstance F) (duration now : ℤ) : Prop :=
  i.startedAt + duration * 1000000000 ≤ now ∧ now < pendingSince i + duration * 1000000000

/-- The clock is behind the start, and the wrapped number of seconds reaches the duration. -/
def ClockBehind (i : AlertInstance F) (duration now : ℤ) : Prop :=
  now < i.startedAt ∧ duration ≤ -((i.startedAt - now) / 1000000000) % 2 ^ 64

/-- The call does not evaluate a pending instance, with its condition met, in one of the two. -/
def Timely (env : Env F) (s : AlertStore F) : Call F → Prop
  | .evaluate rule value labels _ clock =>
    rule.condition.evaluate env.platform value = true →
      ∀ i ∈ s.getByFingerprint (env.computeFingerprint rule.id labels), i.state = .pending →
        ¬ StaleTimer i rule.condition.forDurationSecs (clock 0) ∧
        ¬ ClockBehind i rule.condition.forDurationSecs (clock 0)
  | _ => True

theorem elapsedSecs_le {env : Env F} {i : AlertInstance F} {duration : ℕ} {now : ℤ}
    (h : duration ≤ elapsedSecs env now i.startedAt) (hclock : ¬ ClockBehind i duration now) :
    i.startedAt + duration * 1000000000 ≤ now := by
  have hsecs : (duration : ℤ) ≤ (now - i.startedAt).tdiv 1000000000 % 2 ^ 64 := by
    rw [elapsedSecs, env.numSeconds_eq] at h
    omega
  by_cases hnow : i.startedAt ≤ now
  · rw [Int.tdiv_eq_ediv_of_nonneg (by omega)] at hsecs
    omega
  · refine absurd ⟨by omega, ?_⟩ hclock
    have hneg : (now - i.startedAt).tdiv 1000000000 = -((i.startedAt - now) / 1000000000) := by
      rw [← neg_sub, Int.neg_tdiv, Int.tdiv_eq_ediv_of_nonneg (by omega)]
    rwa [hneg] at hsecs

/-! ## What holds along a run -/

/-- The instance has been pending since the call `j`, with its condition met. -/
structure Entered (env : Env F) (calls : List (Call F)) (n : ℕ) (i : AlertInstance F) (j : ℕ)
    (entry : Call F) : Prop where
  before : j < n
  called : calls[j]? = some entry
  pending : PendingFrom env calls i.id j n
  met : ∀ k c, j ≤ k → k < n → calls[k]? = some c → c.Evaluates env i.fingerprint → c.Met env
  since : pendingSince i = entry.now

/-- The store is consistent, and every pending instance has been so since some call. -/
structure Tracked (env : Env F) (calls : List (Call F)) (n : ℕ) : Prop where
  consistent : (storeAt env calls n).Consistent
  entered : ∀ i, (storeAt env calls n).getById i.id = some i → i.state = .pending →
    ∃ j entry, Entered env calls n i j entry

section
variable {env : Env F} {calls : List (Call F)} {n : ℕ} {c : Call F} {i i' : AlertInstance F}

theorem storeAt_succ (hc : calls[n]? = some c) :
    storeAt env calls (n + 1) = call env (storeAt env calls n) c := by
  unfold storeAt
  rw [List.take_add_one, hc, List.foldl_append]
  rfl

theorem Entered.of_call (hc : calls[n]? = some c) (hmet : c.Met env)
    (hbefore : stateAt env calls n i.id ≠ some .pending)
    (hafter : stateAt env calls (n + 1) i.id = some .pending) (hsince : pendingSince i = c.now) :
    Entered env calls (n + 1) i n c where
  before := lt_succ_self n
  called := hc
  pending := by
    refine ⟨hbefore, fun k hk hnk => ?_⟩
    obtain rfl : k = n + 1 := by omega
    exact hafter
  met := by
    intro k c' hk hkn hc' _
    obtain rfl : k = n := by omega
    cases hc.symm.trans hc'
    exact hmet
  since := hsince

theorem Entered.extend {j : ℕ} {entry : Call F} (h : Entered env calls n i j entry)
    (hc : calls[n]? = some c) (hid : i'.id = i.id) (hfp : i'.fingerprint = i.fingerprint)
    (hafter : stateAt env calls (n + 1) i.id = some .pending)
    (hsince : pendingSince i' = pendingSince i) (hmet : c.Evaluates env i.fingerprint → c.Met env) :
    Entered env calls (n + 1) i' j entry where
  before := lt_succ_of_lt h.before
  called := h.called
  pending := by
    rw [hid]
    refine ⟨h.pending.1, fun k hk hjk => ?_⟩
    rcases le_succ_iff.mp hk with hkn | rfl
    · exact h.pending.2 k hkn hjk
    · exact hafter
  met := by
    rw [hfp]
    intro k c' hjk hk hc' heval
    rcases Nat.lt_succ_iff_lt_or_eq.mp hk with hkn | rfl
    · exact h.met k c' hjk hkn hc' heval
    · cases hc.symm.trans hc'
      exact hmet heval
  since := hsince.trans h.since

variable {id : ℕ}

theorem stateAt_of_getById {n : ℕ} (h : (storeAt env calls n).getById id = some i) :
    stateAt env calls n id = some i.state := by
  unfold stateAt
  rw [h]
  rfl

theorem Tracked.extend_other (h : Tracked env calls n) (hc : calls[n]? = some c)
    (hi : (storeAt env calls n).getById i.id = some i)
    (hafter : (storeAt env calls (n + 1)).getById i.id = some i) (hstate : i.state = .pending)
    (hmet : c.Evaluates env i.fingerprint → c.Met env) :
    ∃ j entry, Entered env calls (n + 1) i j entry := by
  obtain ⟨j, entry, hentered⟩ := h.entered i hi hstate
  refine ⟨j, entry, hentered.extend hc rfl rfl ?_ rfl hmet⟩
  rw [stateAt_of_getById hafter, hstate]

theorem pendingSince_rearm {t : StateTransition} (h : t.target = .pending)
    (hlog : i'.transitionLog = i.transitionLog ++ [t]) : pendingSince i' = t.time := by
  simp [pendingSince, hlog, h]

/-- **A step keeps the history.** -/
theorem Tracked.step (h : Tracked env calls n) (hc : calls[n]? = some c)
    (hfresh : c.Fresh (storeAt env calls n)) : Tracked env calls (n + 1) := by
  have heffect := call_effect env h.consistent c
  rw [← storeAt_succ hc] at heffect
  refine ⟨heffect.consistent h.consistent hfresh, fun i' hi' hstate' => ?_⟩
  have hafter : stateAt env calls (n + 1) i'.id = some .pending := by
    rw [stateAt_of_getById hi', hstate']
  -- `i'` is the instance that was saved, or one that was there before
  have hcases {i : AlertInstance F}
      (hsave : storeAt env calls (n + 1) = (storeAt env calls n).save i) :
      i' = i ∨ i'.id ≠ i.id ∧ (storeAt env calls n).getById i'.id = some i' := by
    rw [hsave, getById_save] at hi'
    split_ifs at hi' with hid
    · exact .inl (Option.some.inj hi').symm
    · exact .inr ⟨hid, hi'⟩
  generalize hs' : storeAt env calls (n + 1) = s' at heffect
  cases heffect with
  | nothing hidle =>
    have hi : (storeAt env calls n).getById i'.id = some i' := hs' ▸ hi'
    refine h.extend_other hc hi hi' hstate' fun heval => ?_
    have hget := h.consistent.getByFingerprint_eq_some_iff.mpr ⟨hi, rfl⟩
    exact absurd hstate' (hidle _ i' heval hget)
  | create i hnew heval hmet hid hstate hstart hlog =>
    obtain rfl | ⟨-, hi⟩ := hcases hs'
    · refine ⟨n, c, .of_call hc hmet ?_ hafter ?_⟩
      · simp [stateAt, hid hfresh]
      · simp [pendingSince, hlog, hstart]
    · exact h.extend_other hc hi hi' hstate' fun _ => hmet
  | keep i value updatedAt hold heval hmet =>
    obtain rfl | ⟨-, hi⟩ := hcases hs'
    · obtain ⟨j, entry, hentered⟩ := h.entered i hold hstate'
      exact ⟨j, entry, hentered.extend hc rfl rfl hafter rfl fun _ => hmet⟩
    · exact h.extend_other hc hi hi' hstate' fun _ => hmet
  | fire i value updatedAt t rule x labels newId clock hcall hold heval hmet =>
    obtain rfl | ⟨-, hi⟩ := hcases hs'
    · cases hstate'
    · exact h.extend_other hc hi hi' hstate' fun _ => hmet
  | rearm i value updatedAt t hold heval hmet hstate htarget htime =>
    obtain rfl | ⟨-, hi⟩ := hcases hs'
    · refine ⟨n, c, .of_call hc hmet ?_ hafter ((pendingSince_rearm htarget rfl).trans htime)⟩
      rw [stateAt_of_getById hold, hstate]
      decide
    · exact h.extend_other hc hi hi' hstate' fun _ => hmet
  | leave i j hold heval hid hfp hstate =>
    obtain rfl | ⟨hne, hi⟩ := hcases hs'
    · rw [hstate'] at hstate
      simp at hstate
    · refine h.extend_other hc hi hi' hstate' fun heval' => ?_
      exact absurd ((h.consistent.id_eq hold hi (heval _ heval')).trans hid.symm) hne

/-- The ids of new instances are not taken. -/
def FreshIds (env : Env F) (calls : List (Call F)) : Prop :=
  ∀ n (c : Call F), calls[n]? = some c → c.Fresh (storeAt env calls n)

theorem tracked (hfresh : FreshIds env calls) (hn : n ≤ calls.length) : Tracked env calls n := by
  induction n with
  | zero => exact ⟨consistent_inMemory, fun _ h => nomatch h⟩
  | succ n ih =>
    have hc : calls[n]? = some calls[n] := List.getElem?_eq_getElem hn
    exact (ih (le_of_succ_le hn)).step hc (hfresh n _ hc)

theorem stateAt_save_of_ne (hsave : storeAt env calls (n + 1) = (storeAt env calls n).save i)
    (hne : id ≠ i.id) :
    stateAt env calls (n + 1) id = stateAt env calls n id := by
  unfold stateAt
  rw [hsave, getById_save, if_neg hne]

theorem stateAt_save_self (hsave : storeAt env calls (n + 1) = (storeAt env calls n).save i) :
    stateAt env calls (n + 1) i.id = some i.state := by
  refine stateAt_of_getById ?_
  rw [hsave, getById_save, if_pos rfl]

/-- An instance goes from pending to firing only by an evaluation whose timer ran out. -/
theorem Tracked.fires_by_timer (h : Tracked env calls n) (hc : calls[n]? = some c)
    (hpending : stateAt env calls n id = some .pending)
    (hfiring : stateAt env calls (n + 1) id = some .firing) :
    ∃ i rule value labels newId clock, c = .evaluate rule value labels newId clock ∧
      (storeAt env calls n).getById i.id = some i ∧ i.id = id ∧ i.state = .pending ∧
      c.Evaluates env i.fingerprint ∧ c.Met env ∧
      rule.condition.forDurationSecs ≤ elapsedSecs env (clock 0) i.startedAt := by
  have heffect := call_effect env h.consistent c
  rw [← storeAt_succ hc] at heffect
  -- the instance that was saved is the one that fires
  have hsaved {i : AlertInstance F}
      (hsave : storeAt env calls (n + 1) = (storeAt env calls n).save i) :
      i.id = id ∧ i.state = .firing := by
    by_cases hid : id = i.id
    · rw [hid, stateAt_save_self hsave] at hfiring
      exact ⟨hid.symm, Option.some.inj hfiring⟩
    · rw [stateAt_save_of_ne hsave hid, hpending] at hfiring
      cases hfiring
  generalize hs' : storeAt env calls (n + 1) = s' at heffect
  cases heffect with
  | nothing =>
    rw [stateAt, hs', ← stateAt, hpending] at hfiring
    cases hfiring
  | create i _ _ _ _ hstate =>
    rw [(hsaved hs').2] at hstate
    cases hstate
  | keep i value updatedAt hold =>
    obtain ⟨rfl, hstate⟩ := hsaved hs'
    rw [stateAt_of_getById hold, hstate] at hpending
    cases hpending
  | fire i value updatedAt t rule x labels newId clock hcall hold heval hmet hstate helapsed =>
    exact ⟨i, rule, x, labels, newId, clock, hcall, hold, (hsaved hs').1, hstate, heval, hmet,
      helapsed⟩
  | rearm => cases (hsaved hs').2
  | leave i j _ _ _ _ hstate =>
    rw [(hsaved hs').2] at hstate
    simp at hstate

end

/-- **An alert fires after its duration**, in every run without an evaluation that falls in one of
the two cases. -/
theorem firing_after_duration (env : Env F) (calls : List (Call F)) (hfresh : FreshIds env calls)
    (htimely : ∀ n c, calls[n]? = some c → Timely env (storeAt env calls n) c) (id n : ℕ)
    (hpending : stateAt env calls n id = some .pending)
    (hfiring : stateAt env calls (n + 1) id = some .firing) :
    HeldForDuration env calls id n := by
  rcases lt_or_ge n calls.length with hn | hn
  · have hc : calls[n]? = some calls[n] := List.getElem?_eq_getElem hn
    have htracked := tracked hfresh hn.le
    obtain ⟨i, rule, value, labels, newId, clock, hcall, hget, rfl, hstate, heval,
      hmet, helapsed⟩ :=
      htracked.fires_by_timer hc hpending hfiring
    obtain ⟨j, entry, hentered⟩ := htracked.entered i hget hstate
    rw [hcall] at hc heval hmet
    have hfound : i ∈ (storeAt env calls n).getByFingerprint
        (env.computeFingerprint rule.id labels) :=
      htracked.consistent.getByFingerprint_eq_some_iff.mpr ⟨hget, heval.symm⟩
    obtain ⟨hstale, hclock⟩ := htimely n _ hc hmet i hfound hstate
    refine ⟨rule, value, labels, newId, clock, hc, j, entry, hentered.before, hentered.called,
      hentered.pending, fun k c hjk hkn hck hfp => ?_, ?_⟩
    · rcases lt_or_eq_of_le hkn with hlt | rfl
      · exact hentered.met k c hjk hlt hck (heval ▸ hfp)
      · cases hc.symm.trans hck
        exact hmet
    · have hstart := elapsedSecs_le helapsed hclock
      rw [← hentered.since]
      exact not_lt.mp fun hlt => hstale ⟨hstart, hlt⟩
  · -- no call, no change
    have hstore : storeAt env calls (n + 1) = storeAt env calls n := by
      unfold storeAt
      rw [List.take_of_length_le hn, List.take_of_length_le (le_succ_of_le hn)]
    rw [stateAt, hstore, ← stateAt, hpending] at hfiring
    cases hfiring

namespace Sample

def env : Env (Option ℚ) :=
  ⟨exact, fun _ _ => 7, fun _ => none, fun now since => (now - since).tdiv 1000000000,
    fun _ _ => rfl⟩

def rule : AlertRule (Option ℚ) := ⟨"r1", "cpu", ⟨.gt, some 90, 300⟩, .warning, [], .static⟩

def eval (newId : ℕ) (value : ℚ) (secs : ℤ) : Call (Option ℚ) :=
  .evaluate rule (some value) [] newId fun _ => secs * 1000000000

end Sample

theorem forall_call_iff {calls : List (Call F)} {P : ℕ → Call F → Prop} :
    (∀ n c, calls[n]? = some c → P n c) ↔ ∀ p ∈ calls.zipIdx, P p.2 p.1 := by
  simp only [List.mem_zipIdx_iff_getElem?, Prod.forall]
  exact ⟨fun h c n => h n c, fun h n c => h c n⟩

instance (s : AlertStore F) (c : Call F) : Decidable (c.Fresh s) := by
  unfold Call.Fresh
  split <;> infer_instance

instance (env : Env F) (s : AlertStore F) : (c : Call F) → Decidable (Timely env s c)
  | .evaluate rule value labels _ clock => by
    unfold Timely StaleTimer ClockBehind
    infer_instance
  | .acknowledge .. | .resolve .. => .isTrue trivial

open Sample in
theorem firing_after_duration_six_minutes :
    HeldForDuration env [eval 0 95 0, eval 1 95 60, eval 2 95 360] 0 2 :=
  firing_after_duration env _ (forall_call_iff.mpr (by decide))
    (forall_call_iff.mpr (by decide)) 0 2 (by decide) (by decide)

open Sample in
/-- Cleared after ten seconds and met again at 400 s, the alert fires at 401 s. With the clock set
back it fires at once. -/
theorem fires_early :
    (∃ calls, FreshIds env calls ∧ stateAt env calls 3 0 = some .pending ∧
      stateAt env calls 4 0 = some .firing ∧ ¬ HeldForDuration env calls 0 3) ∧
    ∃ calls, FreshIds env calls ∧ stateAt env calls 1 0 = some .pending ∧
      stateAt env calls 2 0 = some .firing ∧ ¬ HeldForDuration env calls 0 1 := by
  refine ⟨⟨[eval 0 95 0, eval 1 50 10, eval 2 95 400, eval 3 95 401],
    forall_call_iff.mpr (by decide), by decide, by decide, ?_⟩,
    [eval 0 95 100, eval 1 95 50],
    forall_call_iff.mpr (by decide), by decide, by decide, ?_⟩
  · rintro ⟨rule, value, labels, newId, clock, hc, j, entry, hj, hentry, hfrom, -, htime⟩
    cases hc
    interval_cases j
    · exact absurd hfrom (by decide)
    · exact absurd hfrom (by decide)
    · cases hentry
      exact absurd htime (by decide)
  · rintro ⟨rule, value, labels, newId, clock, hc, j, entry, hj, hentry, -, -, htime⟩
    cases hc
    interval_cases j
    cases hentry
    exact absurd htime (by decide)

end Parqtel.Alert
