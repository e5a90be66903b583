import Parqtel.Models

/-!
# The write-ahead log

Positions, the writer of one signal's log, and what recovery reads back. A
position packs a segment number and the end offset of a record into a `u64`:
`(segment << 32) | (offset + 1)`. Nothing keeps an offset below `2^32 - 1`;
`AppendFits` is the condition under which positions are ordered as the log is.
The answers of the file system are an argument (`AppendIo`) of the append.
-/

open List

namespace Parqtel.Wal

/-- Before any record. Positions are `u64`, modelled as `ℕ`. -/
def start : ℕ := 0

def packPosition (segment offset : ℕ) : ℕ :=
  ((segment <<< 32) ||| (offset + 1)) % 2 ^ 64

def segmentOf (p : ℕ) : ℕ := p >>> 32

def isCoveredBy (p commit : ℕ) : Bool := p ≤ commit

theorem packPosition_eq {segment offset : ℕ} (hs : segment < 2 ^ 32) (ho : offset + 1 < 2 ^ 32) :
    packPosition segment offset = segment * 2 ^ 32 + (offset + 1) := by
  have h : segment * 2 ^ 32 + (offset + 1) < 2 ^ 64 := by omega
  rw [packPosition, ← Nat.shiftLeft_add_eq_or_of_lt ho, Nat.shiftLeft_eq, Nat.mod_eq_of_lt h]

/-! ## The writer -/

structure WalWriter where
  segment : ℕ
  offset : ℕ
  maxSegmentBytes : ℕ
  poisoned : Option String
deriving DecidableEq, Repr

/-- What the file system answers during one append: `write_all`, `flush`, the roll to the
next segment and the periodic sync succeed or not, with the text of the error. -/
structure AppendIo where
  write : Bool
  flush : Bool
  roll : Bool
  sync : Bool
  message : String
deriving DecidableEq, Repr

def AppendIo.fine : AppendIo := ⟨true, true, true, true, ""⟩

/-- An append's result, the writer after it, and the position at which its bytes end when
they reached the segment. -/
structure AppendOut where
  result : Except Error ℕ
  writer : WalWriter
  wrote : Option ℕ

def recordHeaderLen : ℕ := 8

variable {p : ℕ}

namespace WalWriter

def position (w : WalWriter) : ℕ := packPosition w.segment w.offset

/-- Append `len` bytes of framed records. -/
def appendEncoded (w : WalWriter) (len : ℕ) (io : AppendIo) : AppendOut :=
  match w.poisoned with
  | some err => ⟨.error (.internal s!"WAL writer is poisoned: {err}"), w, none⟩
  | none =>
    if !io.write then
      ⟨.error (.io io.message), { w with poisoned := some io.message }, none⟩
    else
      let w' := { w with offset := w.offset + len }
      let pos := w'.position
      if !io.flush then ⟨.error (.io io.message), w', some pos⟩
      else if w'.maxSegmentBytes ≤ w'.offset then
        -- roll before the next append, so that a record is never split across files
        if !io.roll then ⟨.error (.io io.message), w', some pos⟩
        else
          let w'' := { w' with segment := w'.segment + 1, offset := 0 }
          ⟨if io.sync then .ok pos else .error (.io io.message), w'', some pos⟩
      else ⟨if io.sync then .ok pos else .error (.io io.message), w', some pos⟩

/-- Where each record of a batch ends, when records of these lengths are appended together. -/
def recordEnds (w : WalWriter) : List ℕ → List ℕ
  | [] => []
  | len :: lens =>
    packPosition w.segment (w.offset + len) ::
      recordEnds { w with offset := w.offset + len } lens

/-- The writer of a restarted process: the newest segment is reused unless it is full.
`torn` bytes of an unfinished append are counted in its size and then cut off. -/
def reopen (w : WalWriter) (torn : ℕ) : WalWriter :=
  if w.maxSegmentBytes ≤ w.offset + torn then
    { w with segment := w.segment + 1, offset := 0, poisoned := none }
  else { w with poisoned := none }

/-- The append keeps the segment's end, and the number of the next segment, below `2^32`. -/
def AppendFits (w : WalWriter) (len : ℕ) : Prop :=
  w.offset + len + 1 < 2 ^ 32 ∧ w.segment + 1 < 2 ^ 32

instance (w : WalWriter) (len : ℕ) : Decidable (w.AppendFits len) :=
  inferInstanceAs (Decidable (_ ∧ _))

variable {w : WalWriter} {len : ℕ}

theorem AppendFits.position_eq (h : w.AppendFits len) :
    w.position = w.segment * 2 ^ 32 + (w.offset + 1) :=
  packPosition_eq (by unfold AppendFits at h; omega) (by unfold AppendFits at h; omega)

theorem position_le_reopen (h : w.AppendFits 0) (torn : ℕ) :
    w.position ≤ (w.reopen torn).position := by
  have hw := h.position_eq
  obtain ⟨ho, hs⟩ := h
  unfold reopen
  split_ifs
  · have hnext : packPosition (w.segment + 1) 0 = (w.segment + 1) * 2 ^ 32 + (0 + 1) :=
      packPosition_eq hs (by omega)
    show _ ≤ packPosition (w.segment + 1) 0
    omega
  · exact le_rfl

/-- **What an append does.** The bytes of an append that reached the segment end `len` beyond the
old position, at or below the new one. -/
theorem appendEncoded_spec (io : AppendIo) (h : w.AppendFits len) :
    w.position ≤ (w.appendEncoded len io).writer.position ∧
    (∀ p, (w.appendEncoded len io).wrote = some p →
      p = w.position + len ∧ p ≤ (w.appendEncoded len io).writer.position) := by
  have hw := h.position_eq
  obtain ⟨ho, hs⟩ := h
  have hpos : packPosition w.segment (w.offset + len) = w.segment * 2 ^ 32 + (w.offset + len + 1) :=
    packPosition_eq (by omega) ho
  have hroll : packPosition (w.segment + 1) 0 = (w.segment + 1) * 2 ^ 32 + (0 + 1) :=
    packPosition_eq hs (by omega)
  unfold appendEncoded
  split
  · exact ⟨le_rfl, nofun⟩
  · dsimp only
    split_ifs
    · exact ⟨le_rfl, nofun⟩
    all_goals
      simp only [position, Option.some.injEq, forall_eq'] at hw ⊢
      omega

variable {io : AppendIo}

theorem segmentOf_wrote (h : w.AppendFits len) (hp : (w.appendEncoded len io).wrote = some p) :
    segmentOf p = w.segment := by
  have hpos := ((appendEncoded_spec io h).2 p hp).1
  rw [h.position_eq] at hpos
  obtain ⟨ho, hs⟩ := h
  rw [segmentOf, Nat.shiftRight_eq_div_pow]
  omega

theorem appendEncoded_ok (h : (w.appendEncoded len io).result = .ok p) :
    (w.appendEncoded len io).wrote = some p := by
  unfold appendEncoded at h ⊢
  split at h
  · cases h
  · dsimp only at h ⊢
    split_ifs at h ⊢
    all_goals cases h
    all_goals rfl

theorem appendEncoded_fine (h : w.poisoned = none) (len : ℕ) :
    w.appendEncoded len .fine = ⟨.ok (packPosition w.segment (w.offset + len)),
      if w.maxSegmentBytes ≤ w.offset + len then { w with segment := w.segment + 1, offset := 0 }
      else { w with offset := w.offset + len },
      some (packPosition w.segment (w.offset + len))⟩ := by
  unfold appendEncoded
  rw [h]
  simp only [AppendIo.fine, Bool.not_true, Bool.false_eq_true, if_false, if_true]
  split_ifs <;> rfl

theorem position_of_unwritten (h : (w.appendEncoded len io).wrote = none) :
    (w.appendEncoded len io).writer.position = w.position := by
  unfold appendEncoded at h ⊢
  split at h
  · rfl
  · dsimp only at h ⊢
    split_ifs at h ⊢
    rfl

theorem length_recordEnds (w : WalWriter) (lens : List ℕ) :
    (w.recordEnds lens).length = lens.length := by
  induction lens generalizing w with
  | nil => rfl
  | cons len lens ih => simp [recordEnds, ih]

theorem lt_recordEnds {lens : List ℕ} (h : w.AppendFits lens.sum) (hpos : ∀ len ∈ lens, 0 < len) :
    ∀ p ∈ w.recordEnds lens, w.position < p := by
  induction lens generalizing w with
  | nil => nofun
  | cons len lens ih =>
    have hw := h.position_eq
    obtain ⟨ho, hs⟩ := h
    rw [sum_cons] at ho
    have hlen := hpos len mem_cons_self
    have hnext : ({ w with offset := w.offset + len } : WalWriter).AppendFits lens.sum :=
      ⟨by show w.offset + len + lens.sum + 1 < 2 ^ 32; omega, hs⟩
    have hlt : w.position < ({ w with offset := w.offset + len } : WalWriter).position := by
      rw [hw, hnext.position_eq]
      show _ < w.segment * 2 ^ 32 + (w.offset + len + 1)
      omega
    intro p hp
    rcases mem_cons.mp hp with rfl | hp
    · exact hlt
    · exact hlt.trans (ih hnext (fun l hl => hpos l (mem_cons_of_mem _ hl)) p hp)

end WalWriter

/-! ## The log directory -/

/-- A record of the log. `value` is `none` when its payload does not decode. -/
structure WalRecord (α : Type*) where
  segment : ℕ
  pos : ℕ
  value : Option α
deriving DecidableEq

/-- One signal's log on disk: the commit file and the intact records, in log order. -/
structure WalDir (α : Type*) where
  commit : ℕ
  log : List (WalRecord α)
deriving DecidableEq

namespace WalDir

variable {α : Type*}

def removeCoveredSegments (d : WalDir α) (commit : ℕ) : WalDir α :=
  { d with log := d.log.filter fun r => segmentOf commit ≤ r.segment }

/-- Advance the commit point; `ok` says whether the commit file could be written. -/
def advance (d : WalDir α) (position : ℕ) (ok : Bool) : WalDir α :=
  if position = start then d
  else if ok then { d with commit := position }.removeCoveredSegments position
  else d

def replay (d : WalDir α) : List α :=
  d.log.filterMap fun r => if isCoveredBy r.pos d.commit then none else r.value

theorem advance_commit (d : WalDir α) (p : ℕ) (ok : Bool) :
    (d.advance p ok).commit = d.commit ∨ (d.advance p ok).commit = p := by
  unfold advance
  split_ifs
  · exact .inl rfl
  · exact .inr rfl
  · exact .inl rfl

end WalDir

/-- A log as a process opens it: its commit file does not name a position beyond its end. -/
structure OpenedWal (α : Type*) where
  writer : WalWriter
  dir : WalDir α
  commit_le : dir.commit ≤ writer.position

/-! ## Block coverage -/

/-- Where the spans lead from `at`: the largest end of a span that starts at or below it. -/
def coveredNext (pos : ℕ) (ranges : List WalRange) : Option ℕ :=
  ((ranges.filter fun r => r.1 ≤ pos ∧ pos < r.2).map Prod.snd).max?

/-- The loop of `covered_through`, with a bound on its turns. -/
def coveredLoop (ranges : List WalRange) : ℕ → ℕ → ℕ
  | 0, pos => pos
  | n + 1, pos =>
    match coveredNext pos ranges with
    | none => pos
    | some next => coveredLoop ranges n next

/-- How far the log is already durable in blocks, starting from `commit`. Every turn leaves
one more span behind, so there are at most as many turns as spans. -/
def coveredThrough (commit : ℕ) (ranges : List WalRange) : ℕ :=
  coveredLoop ranges ranges.length commit

variable {pos : ℕ} {ranges : List WalRange}

theorem coveredNext_some {q : ℕ} (h : coveredNext pos ranges = some q) :
    ∃ r ∈ ranges, r.1 ≤ pos ∧ pos < r.2 ∧ r.2 = q := by
  have hmem := max?_mem h
  obtain ⟨r, hr, rfl⟩ := mem_map.mp hmem
  obtain ⟨hr, hd⟩ := mem_filter.mp hr
  obtain ⟨h1, h2⟩ := of_decide_eq_true hd
  exact ⟨r, hr, h1, h2, rfl⟩

theorem coveredNext_none : coveredNext pos ranges = none ↔ ∀ r ∈ ranges, r.1 ≤ pos → r.2 ≤ pos := by
  simp only [coveredNext, max?_eq_none_iff, map_eq_nil_iff, filter_eq_nil_iff,
    decide_eq_true_eq, not_and, not_lt]

variable {commit : ℕ}

/-- **Induction rule.** What holds at the commit point and is carried along every span that can
be followed holds where the walk stops. -/
theorem coveredThrough_induct {P : ℕ → Prop} (h0 : P commit)
    (hs : ∀ r ∈ ranges, ∀ pos, r.1 ≤ pos → pos < r.2 → P pos → P r.2) :
    P (coveredThrough commit ranges) := by
  suffices ∀ n pos, P pos → P (coveredLoop ranges n pos) from this _ _ h0
  intro n
  induction n with
  | zero => exact fun _ h => h
  | succ n ih =>
    intro pos hp
    rw [coveredLoop]
    split
    · exact hp
    · next q hq =>
      obtain ⟨r, hr, h1, h2, rfl⟩ := coveredNext_some hq
      exact ih _ (hs r hr pos h1 h2 hp)

def aheadOf (ranges : List WalRange) (pos : ℕ) : ℕ :=
  ranges.countP fun r => pos < r.2

theorem aheadOf_lt {q : ℕ} (h : coveredNext pos ranges = some q) :
    aheadOf ranges q < aheadOf ranges pos := by
  obtain ⟨r, hr, -, h2, rfl⟩ := coveredNext_some h
  simp only [aheadOf, countP_eq_length_filter]
  have hsub : (ranges.filter fun x => decide (r.2 < x.2)).Sublist
      (ranges.filter fun x => decide (pos < x.2)) :=
    monotone_filter_right _ fun x hx => by
      simp only [decide_eq_true_eq] at hx ⊢
      exact h2.trans hx
  refine lt_of_le_of_ne hsub.length_le fun heq => ?_
  have hin : r ∈ ranges.filter fun x => decide (pos < x.2) :=
    mem_filter.mpr ⟨hr, by simpa using h2⟩
  rw [← hsub.eq_of_length heq] at hin
  simpa using (mem_filter.mp hin).2

/-- The loop of `covered_through` without a bound: it ends at `pos` with a result. -/
inductive CoveredEnds (ranges : List WalRange) : ℕ → ℕ → Prop
  | stop {pos : ℕ} : coveredNext pos ranges = none → CoveredEnds ranges pos pos
  | turn {pos next result : ℕ} : coveredNext pos ranges = some next →
      CoveredEnds ranges next result → CoveredEnds ranges pos result

theorem coveredLoop_ends {n : ℕ} (h : aheadOf ranges pos ≤ n) :
    CoveredEnds ranges pos (coveredLoop ranges n pos) := by
  induction n generalizing pos with
  | zero =>
    refine .stop ?_
    by_contra hne
    obtain ⟨q, hq⟩ := Option.ne_none_iff_exists'.mp hne
    have := aheadOf_lt hq
    omega
  | succ n ih =>
    rw [coveredLoop]
    split
    · next hnone => exact .stop hnone
    · next q hq =>
      have := aheadOf_lt hq
      exact .turn hq (ih (by omega))

theorem CoveredEnds.stuck {result : ℕ} (h : CoveredEnds ranges pos result) :
    coveredNext result ranges = none := by
  induction h with
  | stop hnone => exact hnone
  | turn _ _ ih => exact ih

theorem coveredThrough_stuck (commit : ℕ) (ranges : List WalRange) :
    ∀ r ∈ ranges, r.1 ≤ coveredThrough commit ranges → r.2 ≤ coveredThrough commit ranges :=
  coveredNext_none.mp (coveredLoop_ends countP_le_length).stuck

theorem le_coveredThrough (commit : ℕ) (ranges : List WalRange) :
    commit ≤ coveredThrough commit ranges :=
  coveredThrough_induct (P := fun p => commit ≤ p) le_rfl fun _ _ _ _ h2 h => h.trans h2.le

theorem coveredThrough_of_stuck {c : ℕ} (h : ∀ rng ∈ ranges, rng.1 ≤ c → rng.2 ≤ c) :
    coveredThrough c ranges = c :=
  coveredThrough_induct (P := (· = c)) rfl fun rng hrng pos h1 h2 hpos => by
    subst hpos
    exact absurd (h rng hrng h1) (Nat.not_le.mpr h2)

def Leads (ranges : List WalRange) (pos next : ℕ) : Prop :=
  ∃ r ∈ ranges, r.1 ≤ pos ∧ pos < r.2 ∧ r.2 = next

def Reached (ranges : List WalRange) : ℕ → ℕ → Prop := Relation.ReflTransGen (Leads ranges)

theorem Reached.le_of_stuck {bound : ℕ} (hc : commit ≤ bound)
    (hstuck : ∀ r ∈ ranges, r.1 ≤ bound → r.2 ≤ bound) (h : Reached ranges commit p) :
    p ≤ bound := by
  induction h with
  | refl => exact hc
  | tail _ hlast ih =>
    obtain ⟨r, hr, hfrom, -, rfl⟩ := hlast
    exact hstuck r hr (hfrom.trans ih)

theorem reached_coveredThrough (commit : ℕ) (ranges : List WalRange) :
    Reached ranges commit (coveredThrough commit ranges) :=
  coveredThrough_induct (P := Reached ranges commit) .refl
    fun r hr _ hfrom hlt h => h.tail ⟨r, hr, hfrom, hlt, rfl⟩

theorem coveredThrough_mono {commit' : ℕ} {ranges' : List WalRange} (hc : commit ≤ commit')
    (hr : ranges ⊆ ranges') :
    coveredThrough commit ranges ≤ coveredThrough commit' ranges' :=
  (reached_coveredThrough commit ranges).le_of_stuck (hc.trans (le_coveredThrough _ _))
    fun r hmem => coveredThrough_stuck commit' ranges' r (hr hmem)

/-- **The walk follows chains and nothing else.** The loop ends, at the largest position that a
chain of spans reaches from the commit point. The order of the spans and repetitions among them
do not matter, a later commit point or more spans never take the walk less far, and a walk from
its own end stays there. -/
theorem coveredThrough_follows_chains (commit : ℕ) (ranges : List WalRange) :
    CoveredEnds ranges commit (coveredThrough commit ranges) ∧
    IsGreatest {p | Reached ranges commit p} (coveredThrough commit ranges) ∧
    commit ≤ coveredThrough commit ranges ∧
    (∀ ranges', (∀ r, r ∈ ranges' ↔ r ∈ ranges) →
      coveredThrough commit ranges' = coveredThrough commit ranges) ∧
    (∀ commit' ranges', commit ≤ commit' → ranges ⊆ ranges' →
      coveredThrough commit ranges ≤ coveredThrough commit' ranges') ∧
    coveredThrough (coveredThrough commit ranges) ranges = coveredThrough commit ranges := by
  refine ⟨coveredLoop_ends countP_le_length, ⟨reached_coveredThrough commit ranges, ?_⟩,
    le_coveredThrough commit ranges, fun ranges' hsame => ?_,
    fun commit' ranges' => coveredThrough_mono,
    coveredThrough_of_stuck (coveredThrough_stuck commit ranges)⟩
  · exact fun p hp => Reached.le_of_stuck (le_coveredThrough commit ranges)
      (coveredThrough_stuck commit ranges) hp
  · exact le_antisymm (coveredThrough_mono le_rfl fun r hr => (hsame r).mp hr)
      (coveredThrough_mono le_rfl fun r hr => (hsame r).mpr hr)

/-! ## Runs of appends -/

namespace WalWriter

def appends (w : WalWriter) : List (ℕ × AppendIo) → List (ℕ × AppendOut)
  | [] => []
  | (len, io) :: calls =>
    (w.segment, w.appendEncoded len io) :: (w.appendEncoded len io).writer.appends calls

/-- Every append of a run has bytes and keeps them within the range of positions. -/
def RunFits (w : WalWriter) : List (ℕ × AppendIo) → Prop
  | [] => True
  | (len, io) :: calls =>
    (0 < len ∧ w.AppendFits len) ∧ (w.appendEncoded len io).writer.RunFits calls

theorem segment_le_appendEncoded (w : WalWriter) (len : ℕ) (io : AppendIo) :
    w.segment ≤ (w.appendEncoded len io).writer.segment := by
  unfold appendEncoded
  split
  · exact le_rfl
  · dsimp only
    split_ifs <;> simp

/-- The appends of a run return positions above the writer's, each in the segment it went to. -/
theorem RunFits.later {w : WalWriter} {calls : List (ℕ × AppendIo)} (h : w.RunFits calls) :
    ∀ b ∈ w.appends calls, w.segment ≤ b.1 ∧
      ∀ q, b.2.result = .ok q → w.position < q ∧ segmentOf q = b.1 := by
  induction calls generalizing w with
  | nil => nofun
  | cons c calls ih =>
    obtain ⟨⟨hlen, hfits⟩, hrest⟩ := h
    obtain ⟨hpos, hwrote⟩ := appendEncoded_spec c.2 hfits
    refine forall_mem_cons.mpr ⟨⟨le_rfl, fun q hq => ?_⟩, fun b hb => ?_⟩
    · have hq := appendEncoded_ok hq
      have := (hwrote q hq).1
      exact ⟨by omega, segmentOf_wrote hfits hq⟩
    · obtain ⟨hseg, hq⟩ := ih hrest b hb
      exact ⟨(w.segment_le_appendEncoded c.1 c.2).trans hseg,
        fun q hb => ⟨hpos.trans_lt (hq q hb).1, (hq q hb).2⟩⟩

/-- **Positions go up as long as no append is empty or passes the 32 bits of an offset**: they name
the segment that was written to, and removing the segments below one keeps every later record. -/
theorem positions_increase {w : WalWriter} {calls : List (ℕ × AppendIo)} (h : w.RunFits calls) :
    (w.appends calls).Pairwise (fun a b => ∀ p, a.2.result = .ok p →
      (∀ q, b.2.result = .ok q → p < q) ∧
      ∀ {α : Type} (d : WalDir α), ∀ r ∈ d.log, r.segment = b.1 →
        r ∈ (d.removeCoveredSegments p).log) ∧
    ∀ a ∈ w.appends calls, ∀ p, a.2.result = .ok p → segmentOf p = a.1 := by
  refine ⟨?_, fun a ha p hp => ((h.later a ha).2 p hp).2⟩
  induction calls generalizing w with
  | nil => exact .nil
  | cons c calls ih =>
    obtain ⟨⟨-, hfits⟩, hrest⟩ := h
    refine pairwise_cons.mpr ⟨fun b hb p hp => ?_, ih hrest⟩
    have hwrote := appendEncoded_ok hp
    obtain ⟨hseg, hq⟩ := hrest.later b hb
    refine ⟨fun q hb => ((appendEncoded_spec c.2 hfits).2 p hwrote).2.trans_lt (hq q hb).1,
      fun d r hr hb => mem_filter.mpr ⟨hr, decide_eq_true ?_⟩⟩
    rw [segmentOf_wrote hfits hwrote, hb]
    exact (w.segment_le_appendEncoded c.1 c.2).trans hseg

/-- The second append fills its segment. -/
theorem positions_increase_rolls :
    ((⟨0, 0, 8, none⟩ : WalWriter).appends [(4, .fine), (4, .fine), (4, .fine)]).map
      (·.2.result.toOption) = [some 5, some 9, some (2 ^ 32 + 5)] ∧
    ∀ a ∈ (⟨0, 0, 8, none⟩ : WalWriter).appends [(4, .fine), (4, .fine), (4, .fine)],
      ∀ p, a.2.result = .ok p → segmentOf p = a.1 :=
  ⟨by decide, (positions_increase (by simp +decide [RunFits])).2⟩

/-- A segment limit of `2^33` lets an offset run into the bits of the segment: the first position
names segment 1, and removal below it deletes segment 0, where it was written and the next one is.
In segment 1 the positions go down, and an append of nothing repeats a position. -/
theorem positions_wide_segment :
    ((⟨0, 0, 2 ^ 33, none⟩ : WalWriter).appends [(2 ^ 32 - 1, .fine), (1, .fine)]).map
      (fun a => (a.1, a.2.result.toOption)) = [(0, some (2 ^ 32)), (0, some (2 ^ 32 + 1))] ∧
    ((⟨0, [⟨0, 2 ^ 32 + 1, some ()⟩]⟩ : WalDir Unit).removeCoveredSegments (2 ^ 32)).log = [] ∧
    ((⟨1, 0, 2 ^ 33, none⟩ : WalWriter).appends [(2 ^ 32 - 2, .fine), (1, .fine)]).map
      (·.2.result.toOption) = [some (2 ^ 33 - 1), some (2 ^ 32)] ∧
    ((⟨0, 0, 8, none⟩ : WalWriter).appends [(0, .fine), (0, .fine)]).map
      (·.2.result.toOption) = [some 1, some 1] := by
  decide

end WalWriter

end Parqtel.Wal
