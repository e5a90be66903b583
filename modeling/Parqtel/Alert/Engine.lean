import Parqtel.Query.Platform

/-!
# The alert engine

An alert instance is one firing of a rule for one label set. `evaluateRuleWithValue` creates it
and moves it on with every evaluation; the handlers `acknowledgeAlert` and `resolveAlert` move it
by hand. All three go through one table of transitions (`next`).

A call reads the clock several times. The readings are an argument: `clock n` is the `n`-th
reading within the call, in nanoseconds. Nothing says that they grow. What a call can do to the
store is said once, by `Effect` and `call_effect`.
-/

namespace Parqtel.Alert

open Query Option

/-! ## States -/

inductive AlertState where
  | pending | firing | acknowledged | resolved | suppressed | noiseFlagged
deriving DecidableEq, Repr

inductive TransitionEvent where
  | durationElapsed | conditionCleared | conditionMet | acknowledged (who : String)
  | noiseSuppressed | noiseScoreDropped | markedNoise | autoSuppressed | ackWindowExpired
deriving DecidableEq, Repr

structure StateTransition where
  source : AlertState
  target : AlertState
  time : ℤ
  reason : String
deriving DecidableEq

def next : AlertState → TransitionEvent → Option (AlertState × String)
  | .pending, .durationElapsed => some (.firing, "for_duration elapsed while condition met")
  | .pending, .conditionCleared =>
    some (.resolved, "condition no longer met before duration elapsed")
  | .firing, .acknowledged _ => some (.acknowledged, "alert acknowledged")
  | .firing, .conditionCleared => some (.resolved, "condition no longer met")
  | .firing, .noiseSuppressed => some (.suppressed, "noise score exceeded suppression threshold")
  | .firing, .markedNoise => some (.noiseFlagged, "manually classified as noise")
  | .resolved, .conditionMet => some (.pending, "condition met again (re-firing)")
  | .suppressed, .noiseScoreDropped =>
    some (.firing, "noise score dropped below threshold (manual reset)")
  | .noiseFlagged, .autoSuppressed =>
    some (.suppressed, "auto-suppressed after repeated noise flags")
  | .acknowledged, .conditionCleared =>
    some (.resolved, "condition no longer met after acknowledgement")
  | .acknowledged, .ackWindowExpired =>
    some (.firing, "condition continues after acknowledgement window")
  | _, _ => none

def transition (current : AlertState) (event : TransitionEvent) (now : ℤ) :
    Option (AlertState × StateTransition) :=
  (next current event).map fun r => (r.1, ⟨current, r.1, now, r.2⟩)

/-! ## Rules and instances -/

inductive Operator where
  | gt | gte | lt | lte | eq | ne
deriving DecidableEq, Repr

structure Condition (F : Type) where
  operator : Operator
  value : F
  forDurationSecs : ℕ

def epsilon {F : Type} (p : Platform F) : F := p.ofRat (1 / 2 ^ 52)

def Condition.evaluate {F : Type} (p : Platform F) (c : Condition F) (metricValue : F) : Bool :=
  match c.operator with
  | .gt => p.lt c.value metricValue
  | .gte => p.le c.value metricValue
  | .lt => p.lt metricValue c.value
  | .lte => p.le metricValue c.value
  | .eq => p.lt (p.math .abs (p.sub metricValue c.value)) (epsilon p)
  | .ne => p.le (epsilon p) (p.math .abs (p.sub metricValue c.value))

inductive Severity where
  | info | warning | critical
deriving DecidableEq, Repr

inductive RuleType where
  | static | aiDerived | learnedAnomaly
deriving DecidableEq, Repr

abbrev Labels := List (String × String)

structure AlertRule (F : Type) where
  id : String
  name : String
  condition : Condition F
  severity : Severity
  annotations : Labels
  ruleType : RuleType

structure AlertInstance (F : Type) where
  id : ℕ
  ruleId : String
  ruleName : String
  fingerprint : ℕ
  labels : Labels
  annotations : Labels
  state : AlertState
  severity : Severity
  value : Option F
  startedAt : ℤ
  updatedAt : ℤ
  resolvedAt : Option ℤ
  acknowledgedBy : Option String
  transitionLog : List StateTransition
  notificationSent : Bool
  sourceRuleType : RuleType

/-! ## The store -/

structure AlertStore (F : Type) where
  instances : ℕ → Option (AlertInstance F)
  fingerprintIndex : ℕ → Option ℕ

namespace AlertStore

variable {F : Type}

def inMemory : AlertStore F := ⟨fun _ => none, fun _ => none⟩

def save (s : AlertStore F) (i : AlertInstance F) : AlertStore F where
  instances := fun id => if id = i.id then some i else s.instances id
  fingerprintIndex := fun fp => if fp = i.fingerprint then some i.id else s.fingerprintIndex fp

def getById (s : AlertStore F) (id : ℕ) : Option (AlertInstance F) := s.instances id

def getByFingerprint (s : AlertStore F) (fingerprint : ℕ) : Option (AlertInstance F) :=
  (s.fingerprintIndex fingerprint).bind s.instances

theorem getById_save (s : AlertStore F) (i : AlertInstance F) (id : ℕ) :
    (s.save i).getById id = if id = i.id then some i else s.getById id := rfl

/-- The index names exactly the stored instances, one for a fingerprint. -/
structure Consistent (s : AlertStore F) : Prop where
  keyed : ∀ id i, s.getById id = some i → i.id = id ∧ s.fingerprintIndex i.fingerprint = some id
  indexed : ∀ fp id, s.fingerprintIndex fp = some id →
    ∃ i, s.getById id = some i ∧ i.fingerprint = fp

theorem consistent_inMemory : (inMemory : AlertStore F).Consistent :=
  ⟨fun _ _ h => (some_ne_none _ h.symm).elim,
    fun _ _ h => (some_ne_none _ h.symm).elim⟩

namespace Consistent

variable {s : AlertStore F} {i j : AlertInstance F}

theorem getByFingerprint_eq_some_iff (h : s.Consistent) {fp : ℕ} :
    s.getByFingerprint fp = some i ↔ s.getById i.id = some i ∧ i.fingerprint = fp := by
  constructor
  · intro hi
    obtain ⟨id, hid, hget⟩ := bind_eq_some_iff.mp hi
    obtain ⟨i', hi', hfp⟩ := h.indexed fp id hid
    have heq : i' = i := Option.some.inj (hi'.symm.trans hget)
    subst heq
    obtain ⟨rfl, -⟩ := h.keyed id i' hget
    exact ⟨hget, hfp⟩
  · rintro ⟨hget, rfl⟩
    exact bind_eq_some_iff.mpr ⟨i.id, (h.keyed _ _ hget).2, hget⟩

theorem id_eq (h : s.Consistent) (hi : s.getById i.id = some i) (hj : s.getById j.id = some j)
    (hfp : j.fingerprint = i.fingerprint) : j.id = i.id := by
  have hi' := (h.keyed _ _ hi).2
  rw [← hfp, (h.keyed _ _ hj).2] at hi'
  exact Option.some.inj hi'

theorem save_of (h : s.Consistent) (hsame : ∀ k, s.getById k.id = some k →
    (k.fingerprint = i.fingerprint ↔ k.id = i.id)) : (s.save i).Consistent where
  keyed := by
    intro id k hk
    rw [getById_save] at hk
    split_ifs at hk with hid
    · cases hk
      exact ⟨hid.symm, by simp [save, hid]⟩
    · obtain ⟨rfl, hindex⟩ := h.keyed id k hk
      have hne : k.fingerprint ≠ i.fingerprint := fun e => hid ((hsame k hk).mp e)
      exact ⟨rfl, by simpa [save, hne] using hindex⟩
  indexed := by
    intro fp id hid
    by_cases hfp : fp = i.fingerprint
    · have hid' : i.id = id := by simpa [save, hfp] using hid
      exact ⟨i, by rw [getById_save, if_pos hid'.symm], hfp.symm⟩
    · obtain ⟨k, hk, hkfp⟩ := h.indexed fp id (by simpa [save, hfp] using hid)
      obtain ⟨rfl, -⟩ := h.keyed id k hk
      have hne : k.id ≠ i.id := fun e => hfp (hkfp.symm.trans ((hsame k hk).mpr e))
      exact ⟨k, by rw [getById_save, if_neg hne]; exact hk, hkfp⟩

theorem save_new (h : s.Consistent) (hnew : s.getByFingerprint i.fingerprint = none)
    (hfresh : s.getById i.id = none) : (s.save i).Consistent := by
  refine h.save_of fun k hk => ⟨fun hfp => ?_, fun hid => ?_⟩
  · rw [← hfp, h.getByFingerprint_eq_some_iff.mpr ⟨hk, rfl⟩] at hnew
    cases hnew
  · rw [hid, hfresh] at hk
    cases hk

theorem save_update (h : s.Consistent) (hi : s.getById i.id = some i) (hid : j.id = i.id)
    (hfp : j.fingerprint = i.fingerprint) : (s.save j).Consistent := by
  refine h.save_of fun k hk => ⟨fun e => ?_, fun e => ?_⟩
  · exact (h.id_eq hi hk (e.trans hfp)).trans hid.symm
  · rw [e, hid, hi] at hk
    cases hk
    exact hfp.symm

end Consistent

end AlertStore

/-! ## Calls -/

/-- What the engine uses without looking inside: doubles, the hash of a rule and its labels, the
text form of ids, and the whole seconds between two times, towards zero. -/
structure Env (F : Type) where
  platform : Platform F
  computeFingerprint : String → Labels → ℕ
  parseUlid : String → Option ℕ
  numSeconds : ℤ → ℤ → ℤ
  numSeconds_eq : ∀ now since, numSeconds now since = (now - since).tdiv 1000000000

variable {F : Type}

/-- `signed_duration_since(..).num_seconds() as u64`: a negative number wraps. -/
def elapsedSecs (env : Env F) (now startedAt : ℤ) : ℕ :=
  (env.numSeconds now startedAt % 2 ^ 64).toNat

def metEvent (env : Env F) (rule : AlertRule F) (i : AlertInstance F) (clock : ℕ → ℤ) :
    Option TransitionEvent × ℕ :=
  match i.state with
  | .pending =>
    (if rule.condition.forDurationSecs ≤ elapsedSecs env (clock 0) i.startedAt then
      some .durationElapsed else none, 1)
  | .resolved => (some .conditionMet, 0)
  | _ => (none, 0)

def clearedEvent (i : AlertInstance F) : Option TransitionEvent :=
  match i.state with
  | .pending | .firing | .acknowledged => some .conditionCleared
  | _ => none

/-- Evaluate a rule with a value. `newId` is the id that a new instance gets. The second result is
the firing event that was sent. -/
def evaluateRuleWithValue (env : Env F) (s : AlertStore F) (rule : AlertRule F) (value : F)
    (labels : Labels) (newId : ℕ) (clock : ℕ → ℤ) : AlertStore F × Option (AlertInstance F) :=
  let conditionMet := rule.condition.evaluate env.platform value
  let fingerprint := env.computeFingerprint rule.id labels
  match s.getByFingerprint fingerprint with
  | some i =>
    if conditionMet then
      let event := metEvent env rule i clock
      match event.1 with
      | some evt =>
        match transition i.state evt (clock event.2) with
        | some (newState, t) =>
          let i' := { i with
            state := newState
            updatedAt := clock (event.2 + 1)
            value := some value
            transitionLog := i.transitionLog ++ [t] }
          (s.save i', if newState = .firing ∧ i.state ≠ .firing then some i' else none)
        | none => (s, none)
      | none => (s.save { i with value := some value, updatedAt := clock event.2 }, none)
    else
      match clearedEvent i with
      | some evt =>
        match transition i.state evt (clock 0) with
        | some (newState, t) =>
          (s.save { i with
            state := newState
            updatedAt := clock 1
            resolvedAt := some (clock 2)
            transitionLog := i.transitionLog ++ [t] }, none)
        | none => (s, none)
      | none => (s, none)
  | none =>
    if conditionMet then
      (s.save
        { id := newId
          ruleId := rule.id
          ruleName := rule.name
          fingerprint := fingerprint
          labels := labels
          annotations := rule.annotations
          state := .pending
          severity := rule.severity
          value := some value
          startedAt := clock 0
          updatedAt := clock 1
          resolvedAt := none
          acknowledgedBy := none
          transitionLog := []
          notificationSent := false
          sourceRuleType := rule.ruleType }, none)
    else (s, none)

inductive Reply (F : Type) where
  | badRequest (message : String)
  | notFound (message : String)
  | conflict (message : String)
  | ok (i : AlertInstance F)

/-- A transition that a handler makes; `change` sets the other fields. -/
def moveAlert (env : Env F) (s : AlertStore F) (id : String) (event : TransitionEvent) (now : ℤ)
    (change : AlertInstance F → AlertInstance F) : Reply F × AlertStore F :=
  match env.parseUlid id with
  | none => (.badRequest "invalid alert id", s)
  | some ulid =>
    match s.getById ulid with
    | none => (.notFound "alert not found", s)
    | some i =>
      match transition i.state event now with
      | some (newState, t) =>
        let i' := { change i with
          state := newState
          transitionLog := i.transitionLog ++ [t] }
        (.ok i', s.save i')
      | none => (.conflict "invalid state transition", s)

def acknowledgeAlert (env : Env F) (s : AlertStore F) (id : String) (who : Option String)
    (clock : ℕ → ℤ) : Reply F × AlertStore F :=
  let who := who.getD "anonymous"
  moveAlert env s id (.acknowledged who) (clock 0) fun i =>
    { i with acknowledgedBy := some who, updatedAt := clock 1 }

def resolveAlert (env : Env F) (s : AlertStore F) (id : String) (clock : ℕ → ℤ) :
    Reply F × AlertStore F :=
  moveAlert env s id .conditionCleared (clock 0) fun i =>
    { i with resolvedAt := some (clock 1), updatedAt := clock 2 }

inductive Call (F : Type) where
  | evaluate (rule : AlertRule F) (value : F) (labels : Labels) (newId : ℕ) (clock : ℕ → ℤ)
  | acknowledge (id : String) (who : Option String) (clock : ℕ → ℤ)
  | resolve (id : String) (clock : ℕ → ℤ)

def call (env : Env F) (s : AlertStore F) : Call F → AlertStore F
  | .evaluate rule value labels newId clock =>
    (evaluateRuleWithValue env s rule value labels newId clock).1
  | .acknowledge id who clock => (acknowledgeAlert env s id who clock).2
  | .resolve id clock => (resolveAlert env s id clock).2

namespace Call

def now : Call F → ℤ
  | .evaluate _ _ _ _ clock | .acknowledge _ _ clock | .resolve _ clock => clock 0

def Evaluates (env : Env F) (fingerprint : ℕ) : Call F → Prop
  | .evaluate rule _ labels _ _ => env.computeFingerprint rule.id labels = fingerprint
  | _ => False

def Met (env : Env F) : Call F → Prop
  | .evaluate rule value _ _ _ => rule.condition.evaluate env.platform value = true
  | _ => False

def Fresh (s : AlertStore F) : Call F → Prop
  | .evaluate _ _ _ newId _ => s.getById newId = none
  | _ => True

end Call

/-! ## What a call can do -/

/-- The effects of a call on a store. -/
inductive Effect (env : Env F) (s : AlertStore F) (c : Call F) : AlertStore F → Prop
  /-- Nothing. An evaluation never leaves a pending instance as it is. -/
  | nothing (hidle : ∀ fp i, c.Evaluates env fp → s.getByFingerprint fp = some i →
      i.state ≠ .pending) : Effect env s c s
  /-- A new instance. -/
  | create (i : AlertInstance F) (hnew : s.getByFingerprint i.fingerprint = none)
      (heval : c.Evaluates env i.fingerprint) (hmet : c.Met env)
      (hfresh : c.Fresh s → s.getById i.id = none) (hstate : i.state = .pending)
      (hstart : i.startedAt = c.now) (hlog : i.transitionLog = []) : Effect env s c (s.save i)
  /-- The condition is met, and the state stays. -/
  | keep (i : AlertInstance F) (value : Option F) (updatedAt : ℤ)
      (hold : s.getById i.id = some i) (heval : c.Evaluates env i.fingerprint)
      (hmet : c.Met env) : Effect env s c (s.save { i with value, updatedAt })
  /-- The duration has elapsed, as the code counts it. -/
  | fire (i : AlertInstance F) (value : Option F) (updatedAt : ℤ) (t : StateTransition)
      (rule : AlertRule F) (x : F) (labels : Labels) (newId : ℕ) (clock : ℕ → ℤ)
      (hcall : c = .evaluate rule x labels newId clock) (hold : s.getById i.id = some i)
      (heval : c.Evaluates env i.fingerprint) (hmet : c.Met env) (hstate : i.state = .pending)
      (helapsed : rule.condition.forDurationSecs ≤ elapsedSecs env (clock 0) i.startedAt) :
      Effect env s c (s.save { i with
        state := .firing, updatedAt, value, transitionLog := i.transitionLog ++ [t] })
  /-- A resolved instance whose condition is met again. The start stays. -/
  | rearm (i : AlertInstance F) (value : Option F) (updatedAt : ℤ) (t : StateTransition)
      (hold : s.getById i.id = some i) (heval : c.Evaluates env i.fingerprint)
      (hmet : c.Met env) (hstate : i.state = .resolved) (htarget : t.target = .pending)
      (htime : t.time = c.now) : Effect env s c (s.save { i with
        state := .pending, updatedAt, value, transitionLog := i.transitionLog ++ [t] })
  /-- Resolved or acknowledged. -/
  | leave (i i' : AlertInstance F) (hold : s.getById i.id = some i)
      (heval : ∀ fp, c.Evaluates env fp → fp = i.fingerprint) (hid : i'.id = i.id)
      (hfp : i'.fingerprint = i.fingerprint)
      (hstate : i'.state = .resolved ∨ i'.state = .acknowledged) : Effect env s c (s.save i')

variable {current newState : AlertState}

theorem transition_eq_some_iff {event : TransitionEvent} {now : ℤ} {t : StateTransition} :
    transition current event now = some (newState, t) ↔
      ∃ reason, next current event = some (newState, reason) ∧
        t = ⟨current, newState, now, reason⟩ := by
  unfold transition
  cases next current event with
  | none => simp
  | some r => grind

theorem next_conditionCleared {reason : String}
    (h : next current .conditionCleared = some (newState, reason)) : newState = .resolved := by
  cases current <;> simp [next] at h <;> exact h.1.symm

theorem next_acknowledged {who reason : String}
    (h : next current (.acknowledged who) = some (newState, reason)) :
    newState = .acknowledged := by
  cases current <;> simp [next] at h
  exact h.1.symm

section
variable {env : Env F} {s : AlertStore F} {i : AlertInstance F} {rule : AlertRule F} {value : F}
  {labels : Labels} {newId : ℕ} {clock : ℕ → ℤ}

theorem evaluate_met_effect (h : s.Consistent)
    (hi : s.getByFingerprint (env.computeFingerprint rule.id labels) = some i)
    (hmet : rule.condition.evaluate env.platform value = true) :
    Effect env s (.evaluate rule value labels newId clock)
      (evaluateRuleWithValue env s rule value labels newId clock).1 := by
  obtain ⟨hold, hfp⟩ := h.getByFingerprint_eq_some_iff.mp hi
  have heval : (Call.evaluate rule value labels newId clock).Evaluates env i.fingerprint := hfp.symm
  have hmet' : (Call.evaluate rule value labels newId clock).Met env := hmet
  have hkeep : ∀ updatedAt, Effect env s (.evaluate rule value labels newId clock)
      (s.save { i with value := some value, updatedAt }) := fun updatedAt =>
    .keep i _ updatedAt hold heval hmet'
  unfold evaluateRuleWithValue
  simp only [hi, hmet, if_true]
  cases hstate : i.state with
  | pending =>
    by_cases helapsed : rule.condition.forDurationSecs ≤ elapsedSecs env (clock 0) i.startedAt
    · simp only [metEvent, hstate, helapsed, if_true, transition, next, map_some]
      exact .fire i _ _ _ rule value labels newId clock rfl hold heval hmet' hstate helapsed
    · have hevent : metEvent env rule i clock = (none, 1) := by simp [metEvent, hstate, helapsed]
      simp only [hevent]
      exact hstate ▸ hkeep _
  | resolved =>
    simp only [metEvent, hstate, transition, next, map_some]
    exact .rearm i _ _ _ hold heval hmet' hstate rfl rfl
  | firing | acknowledged | suppressed | noiseFlagged =>
    have hevent : metEvent env rule i clock = (none, 0) := by simp [metEvent, hstate]
    simp only [hevent]
    exact hstate ▸ hkeep _

theorem evaluate_cleared_effect (h : s.Consistent)
    (hi : s.getByFingerprint (env.computeFingerprint rule.id labels) = some i)
    (hmet : rule.condition.evaluate env.platform value = false) :
    Effect env s (.evaluate rule value labels newId clock)
      (evaluateRuleWithValue env s rule value labels newId clock).1 := by
  obtain ⟨hold, hfp⟩ := h.getByFingerprint_eq_some_iff.mp hi
  unfold evaluateRuleWithValue
  simp only [hi, hmet, Bool.false_eq_true, if_false]
  cases hstate : i.state with
  | pending | firing | acknowledged =>
    simp only [clearedEvent, hstate, transition, next, map_some]
    exact .leave i _ hold (fun fp hfp' => hfp'.symm.trans hfp.symm) rfl rfl (.inl rfl)
  | resolved | suppressed | noiseFlagged =>
    simp only [clearedEvent, hstate]
    refine .nothing ?_
    rintro fp j rfl hj
    cases hi.symm.trans hj
    rw [hstate]
    decide

theorem evaluate_new_effect
    (hi : s.getByFingerprint (env.computeFingerprint rule.id labels) = none) :
    Effect env s (.evaluate rule value labels newId clock)
      (evaluateRuleWithValue env s rule value labels newId clock).1 := by
  unfold evaluateRuleWithValue
  simp only [hi]
  by_cases hmet : rule.condition.evaluate env.platform value = true
  · simp only [hmet, if_true]
    exact .create _ hi rfl hmet (fun hfresh => hfresh) rfl rfl rfl
  · simp only [hmet]
    refine .nothing ?_
    rintro fp j rfl hj
    cases hi.symm.trans hj

theorem moveAlert_effect {c : Call F} (h : s.Consistent) (hc : ∀ fp, ¬ c.Evaluates env fp)
    {id : String} {event : TransitionEvent} {now : ℤ} {change : AlertInstance F → AlertInstance F}
    (hchange : ∀ i, (change i).id = i.id ∧ (change i).fingerprint = i.fingerprint)
    (hnext : ∀ state newState reason, next state event = some (newState, reason) →
      newState = .resolved ∨ newState = .acknowledged) :
    Effect env s c (moveAlert env s id event now change).2 := by
  have hidle : Effect env s c s := .nothing fun fp _ heval => (hc fp heval).elim
  unfold moveAlert
  split
  · exact hidle
  · next ulid _ =>
    split
    · exact hidle
    · next i hi =>
      obtain ⟨rfl, -⟩ := h.keyed ulid i hi
      split
      · next newState t ht =>
        obtain ⟨reason, hstate, -⟩ := transition_eq_some_iff.mp ht
        exact .leave i _ hi (fun fp heval => (hc fp heval).elim) (hchange i).1 (hchange i).2
          (hnext _ _ _ hstate)
      · exact hidle

end

theorem call_effect (env : Env F) {s : AlertStore F} (h : s.Consistent) (c : Call F) :
    Effect env s c (call env s c) := by
  cases c with
  | evaluate rule value labels newId clock =>
    cases hi : s.getByFingerprint (env.computeFingerprint rule.id labels) with
    | none => exact evaluate_new_effect hi
    | some i =>
      cases hmet : rule.condition.evaluate env.platform value with
      | true => exact evaluate_met_effect h hi hmet
      | false => exact evaluate_cleared_effect h hi hmet
  | acknowledge id who clock =>
    exact moveAlert_effect (c := .acknowledge id who clock) h (fun _ h => h)
      (fun _ => ⟨rfl, rfl⟩) fun _ _ _ hnext => .inr (next_acknowledged hnext)
  | resolve id clock =>
    exact moveAlert_effect (c := .resolve id clock) h (fun _ h => h)
      (fun _ => ⟨rfl, rfl⟩) fun _ _ _ hnext => .inl (next_conditionCleared hnext)

theorem Effect.consistent {env : Env F} {s s' : AlertStore F} {c : Call F}
    (e : Effect env s c s') (h : s.Consistent) (hfresh : c.Fresh s) : s'.Consistent := by
  cases e with
  | nothing => exact h
  | create i hnew _ _ hid => exact h.save_new hnew (hid hfresh)
  | keep i _ _ hold | fire i _ _ _ _ _ _ _ _ _ hold | rearm i _ _ _ hold =>
    exact h.save_update hold rfl rfl
  | leave i i' hold _ hid hfp => exact h.save_update hold hid hfp

end Parqtel.Alert
