import Parqtel.Ingest.SerialNoLoss

/-!
# The buffer of the log and trace rotator

The memory buffer of the signal is a plain vector, and rows leave it by count, from the
front. So that the count takes the right rows, the buffer has to be aligned with the
rotator: first the rows of the flush in flight, then the rows of the open writer. A
`push_batch` feeds its rows before it hands them to the writer, so while one is under way
the rows that the writer does not have yet stand at the end, and between the writer's
closing a block by itself and the drop of its rows these stand in front of the writer's.

Alignment is kept by every step except a `push_row` that fails: the batch ends there and
its remaining rows stay in the buffer, with no writer to drop them.
-/

namespace Parqtel.Ingest.Serial

open Parqtel.Lib Parqtel.Wal Parqtel.Buffer List Option Serial.State

variable {R : Type*} {sig : Signal R} {s s' : State R} {e : Event R}

/-! ## Alignment -/

def State.flightRows (s : State R) : List R := s.flight.elim [] fun f => f.writer.buffer

def notYetPushed : Option (Call R) → List R
  | some ⟨_, .pushing _ _ rest⟩ | some ⟨_, .closing _ _ rest _⟩ | some ⟨_, .dropped _ _ rest _⟩ =>
    rest
  | _ => []

/-- The block that the writer closed by itself, until its rows have left the buffer. -/
def closedBlock : Option (Call R) → Option (Block R)
  | some ⟨_, .closing _ _ _ b⟩ => some b
  | _ => none

variable {b : Block R}

theorem closedBlock_eq_some {c : Option (Call R)} (h : closedBlock c = some b) :
    ∃ rows ends done rest, c = some ⟨rows, .closing ends done rest b⟩ := by
  unfold closedBlock at h
  split at h
  · cases h; exact ⟨_, _, _, _, rfl⟩
  · cases h

def State.Aligned (s : State R) : Prop :=
  ∀ b ∈ s.buffer, ∃ closed, closed.Perm ((closedBlock s.call).elim [] Block.rows) ∧
    b = s.flightRows ++ closed ++ s.writer.buffer ++ notYetPushed s.call

theorem State.Aligned.idle (h : s.Aligned) (hc : s.call = none) :
    ∀ b ∈ s.buffer, b = s.flightRows ++ s.writer.buffer := by
  intro b hb
  obtain ⟨closed, hp, rfl⟩ := h b hb
  rw [hc] at hp ⊢
  rw [perm_nil.mp hp, append_nil]
  exact append_nil _

/-- What lets rows leave the buffer: their block was sent to the index, or the background write of
their block failed, or the writer has closed their block by itself and its file is in place. -/
inductive Leaves (s : State R) (out : List R) : Prop where
  | sent {b : Block R} (h : b ∈ s.sent) (hp : out.Perm b.rows)
  | failed {f : Flight R} (h : s.flight = some f) (hf : f.phase = .failed)
      (hout : out = f.writer.buffer)
  | closed {b : Block R} (h : closedBlock s.call = some b) (hf : b ∈ s.files)
      (hp : out.Perm b.rows)

/-- From `s` to `s'` rows are only added to the buffer, or rows that may leave it go from the
front. -/
def RowsLeave (s s' : State R) : Prop :=
  ∀ b ∈ s.buffer, ∀ b' ∈ s'.buffer, b <+: b' ∨ ∃ out, b = out ++ b' ∧ Leaves s out

/-- The guard of a run: no `push_row` fails. A full writer has rows, and its write succeeds. -/
def pushOk (s : State R) : Event R → Prop
  | .pushRow io => s.writer.capacity ≤ s.writer.buffer.length →
      s.writer.buffer.length ≠ 0 ∧ io.outcome = .written
  | _ => True

instance (s : State R) (e : Event R) : Decidable (pushOk s e) := by
  rcases e <;> unfold pushOk <;> infer_instance

/-! ## The invariant -/

def FlightPhase.isSent : FlightPhase → Bool
  | .published | .committing | .dropping => true
  | _ => false

/-- While a flush is in flight the batch under way fits in the open block. -/
def State.Room (s : State R) : Prop :=
  match s.call with
  | some ⟨rows, .checked⟩ =>
    s.writer.buffer = [] ∨ s.writer.buffer.length + rows.length ≤ s.maxRows
  | some ⟨rows, .logged _⟩ =>
    s.flight = none ∨ s.writer.buffer.length + rows.length ≤ s.maxRows
  | some ⟨_, .pushing _ _ rest⟩ | some ⟨_, .dropped _ _ rest _⟩ =>
    s.flight = none ∨ s.writer.buffer.length + rest.length ≤ s.maxRows
  | some ⟨_, .closing _ _ _ _⟩ => s.flight = none
  | _ => True

structure FlightOk (s : State R) (f : Flight R) : Prop where
  count : f.rowCount = f.writer.buffer.length
  sent : f.phase.isSent = true → ∃ b ∈ s.sent, f.writer.buffer.Perm b.rows

structure BufferInv (s : State R) : Prop where
  aligned : s.Aligned
  config : s.writer.config = s.config
  room : s.Room
  flight : ∀ f ∈ s.flight, FlightOk s f
  closed : ∀ b ∈ closedBlock s.call, b ∈ s.files ∧ b.metadata.rowCount = b.rows.length

variable {f : Flight R}

theorem FlightOk.mono (h : FlightOk s f) (hs : ∀ b ∈ s.sent, b ∈ s'.sent) : FlightOk s' f :=
  ⟨h.count, fun hp => (h.sent hp).imp fun b hb => ⟨hs b hb.1, hb.2⟩⟩

theorem State.Aligned.eq (h : s.Aligned) (hc : closedBlock s.call = none) :
    ∀ b ∈ s.buffer, b = s.flightRows ++ s.writer.buffer ++ notYetPushed s.call := by
  intro b hb
  obtain ⟨closed, hp, rfl⟩ := h b hb
  rw [hc] at hp
  rw [perm_nil.mp hp, append_nil]

theorem State.Aligned.of_eq (hc : closedBlock s.call = none)
    (h : ∀ b ∈ s.buffer, b = s.flightRows ++ s.writer.buffer ++ notYetPushed s.call) :
    s.Aligned := by
  intro b hb
  exact ⟨[], by rw [hc]; exact .refl _, by rw [append_nil]; exact h b hb⟩

theorem BufferInv.of_call (h : BufferInv s) (hwriter : s'.writer = s.writer)
    (hconfig : s'.config = s.config) (hflight : s'.flight = s.flight)
    (hbuffer : s'.buffer = s.buffer) (hc : closedBlock s.call = none)
    (hc' : closedBlock s'.call = none) (hrest : notYetPushed s'.call = notYetPushed s.call)
    (hsent : ∀ b ∈ s.sent, b ∈ s'.sent) (hroom : s'.Room) : BufferInv s' where
  aligned := .of_eq hc' fun b hb => by
    rw [flightRows, hflight, hwriter, hrest]
    exact h.aligned.eq hc b (hbuffer ▸ hb)
  config := by rw [hwriter, hconfig]; exact h.config
  room := hroom
  flight f hf := (h.flight f (hflight ▸ hf)).mono hsent
  closed b hb := by rw [hc'] at hb; cases hb

theorem BufferInv.of_flight (h : BufferInv s) {ph : FlightPhase} (hfl : s.flight = some f)
    (hfl' : s'.flight = some { f with phase := ph }) (hwriter : s'.writer = s.writer)
    (hconfig : s'.config = s.config) (hcall : s'.call = s.call) (hbuffer : s'.buffer = s.buffer)
    (hfiles : ∀ b ∈ s.files, b ∈ s'.files)
    (hsent : ph.isSent = true → ∃ b ∈ s'.sent, f.writer.buffer.Perm b.rows) : BufferInv s' where
  aligned b hb := by
    obtain ⟨closed, hp, rfl⟩ := h.aligned b (hbuffer ▸ hb)
    refine ⟨closed, by rw [hcall]; exact hp, ?_⟩
    rw [hwriter, hcall]
    simp only [flightRows, hfl, hfl', elim_some]
  config := by rw [hwriter, hconfig]; exact h.config
  room := by
    have hr := h.room
    simp only [State.Room, maxRows, hcall, hwriter, hconfig, hfl, hfl', reduceCtorEq] at hr ⊢
    exact hr
  flight g hg := by
    rw [hfl'] at hg
    cases hg
    exact ⟨(h.flight f hfl).count, hsent⟩
  closed b hb := by
    obtain ⟨hf, hn⟩ := h.closed b (hcall ▸ hb)
    exact ⟨hfiles b hf, hn⟩

theorem startFlush_writer (h : s.startFlush = some s') :
    s'.writer.buffer = [] ∧ s'.call = s.call := by
  rcases startFlush_cases h with ⟨hnil, rfl⟩ | ⟨-, rfl⟩
  · exact ⟨hnil, rfl⟩
  · exact ⟨rfl, rfl⟩

theorem startFlush_call (s : State R) (c : Option (Call R)) :
    startFlush { s with call := c } = s.startFlush.map fun t => { t with call := c } := by
  unfold startFlush
  split_ifs <;> rfl

section
variable (h : BufferInv s)
include h

theorem BufferInv.startFlush (hc : closedBlock s.call = none)
    (hroom : s'.Room) (hs : s.startFlush = some s') : BufferInv s' := by
  rcases startFlush_cases hs with ⟨-, rfl⟩ | ⟨hnone, rfl⟩
  · exact h
  refine
    { aligned := .of_eq hc fun b hb => ?_
      config := rfl
      room := hroom
      flight := fun f hf => ?_
      closed := fun b hb => by rw [show closedBlock _ = none from hc] at hb; cases hb }
  · -- the rows of the writer taken now are the rows in flight
    have hb' := h.aligned.eq hc b hb
    simp only [flightRows, hnone, elim_none, nil_append] at hb'
    simp only [flightRows, elim_some, newFlight_buffer, RowWriter.new, append_nil]
    exact hb'
  · cases hf
    exact ⟨by rw [newFlight_buffer]; rfl, by rintro ⟨⟩⟩

theorem BufferInv.append {io : AppendIo} (hs : s.append sig io = some s') : BufferInv s' := by
  obtain ⟨rows, hc, hgate, rfl⟩ := append_cases hs
  have hroom := h.room
  rw [State.Room, hc] at hroom
  have hnone : closedBlock s.call = none := by rw [hc]; rfl
  have hrest : notYetPushed s.call = [] := by rw [hc]; rfl
  cases hl : (s.logBatch sig rows io).1 with
  | none =>
    exact h.of_call rfl rfl rfl rfl hnone (by rfl) (by rw [hrest]; rfl) (fun _ => id) trivial
  | some r =>
    refine h.of_call rfl rfl rfl rfl hnone (by rfl) (by rw [hrest]; rfl) (fun _ => id) ?_
    -- a batch that is not smaller than a block has waited for the flight
    by_cases hle : s.maxRows ≤ rows.length
    · exact .inl (hgate hle)
    · right
      rcases hroom with hnil | hfit
      · simp only [hnil, length_nil, Nat.zero_add]
        exact Nat.le_of_not_le hle
      · exact hfit

theorem BufferInv.pushRow {io : BlockIo} (hok : pushOk s (.pushRow io))
    (hs : s.pushRow sig io = some s') : BufferInv s' := by
  obtain ⟨rows, ends, done, r, rest, hc, rfl⟩ := pushRow_cases hs
  have hroom := h.room
  rw [State.Room, hc] at hroom
  have heq := h.aligned.eq (by rw [hc]; rfl)
  rw [hc] at heq
  rcases RowWriter.push_cases sig.kind s.writer r io with
    ⟨-, hp⟩ | ⟨b, hp, hne, hfull, hrows, hcount⟩ | ⟨err, w', file, hp, -, hfull, hcause⟩
  · rw [hp]
    refine
      { aligned := .of_eq rfl fun b hb => ?_
        config := h.config
        room := hroom.imp_right fun hle => ?_
        flight := fun f hf => (h.flight f hf).mono fun _ => id
        closed := nofun }
    · rw [heq b hb]
      simp [flightRows, notYetPushed]
    · simp only [length_append, length_cons, length_nil] at hle ⊢
      exact le_of_eq_of_le (by omega) hle
  · -- the batch did not fit in the open block, so no flush is in flight
    have hnone : s.flight = none := by
      refine hroom.resolve_right fun hle => ?_
      have hpos : 0 < s.writer.buffer.length := length_pos_of_ne_nil hne
      have hcap : s.config.maxRowsPerBlock ≤ s.writer.buffer.length := by
        rw [← h.config]
        exact hfull
      rw [maxRows, length_cons] at hle
      omega
    rw [hp]
    refine
      { aligned := fun b' hb' => ⟨s.writer.buffer, hrows.symm, ?_⟩
        config := h.config
        room := hnone
        flight := fun f hf => (h.flight f hf).mono fun _ => id
        closed := fun b' hb' => ?_ }
    · rw [heq b' hb']
      simp [flightRows, hnone, notYetPushed]
    · cases hb'
      exact ⟨by simp, hcount.trans hrows.length_eq.symm⟩
  · -- excluded by the guard
    obtain ⟨hpos, hw⟩ := hok hfull
    rcases hcause with hnil | hio
    · exact absurd (by rw [hnil]; rfl) hpos
    · exact absurd hw hio

theorem BufferInv.flight_of_closed (hc : closedBlock s.call = some b) : s.flight = none := by
  obtain ⟨rows, ends, done, rest, hcall⟩ := closedBlock_eq_some hc
  have hr := h.room
  rw [State.Room, hcall] at hr
  exact hr

theorem BufferInv.closed_front (hc : closedBlock s.call = some b) :
    ∀ buf ∈ s.buffer, ∃ out, out.Perm b.rows ∧ b.metadata.rowCount = out.length ∧
      buf = out ++ (s.writer.buffer ++ notYetPushed s.call) := by
  intro buf hbuf
  obtain ⟨out, hp, rfl⟩ := h.aligned buf hbuf
  rw [hc] at hp
  refine ⟨out, hp, (h.closed b hc).2.trans hp.length_eq.symm, ?_⟩
  rw [flightRows, h.flight_of_closed hc, elim_none, nil_append, append_assoc]

theorem BufferInv.flight_front (hf : s.flight = some f) :
    closedBlock s.call = none ∧ ∀ buf ∈ s.buffer, f.rowCount = f.writer.buffer.length ∧
      buf = f.writer.buffer ++ (s.writer.buffer ++ notYetPushed s.call) := by
  have hnone : closedBlock s.call = none := by
    cases hc : closedBlock s.call with
    | none => rfl
    | some b => rw [h.flight_of_closed hc] at hf; cases hf
  refine ⟨hnone, fun buf hbuf => ⟨(h.flight f hf).count, ?_⟩⟩
  rw [h.aligned.eq hnone buf hbuf, flightRows, hf, elim_some, append_assoc]

theorem BufferInv.dropClosed (hs : s.dropClosed = some s') : BufferInv s' := by
  obtain ⟨rows, ends, done, rest, b, hcall, rfl⟩ := dropClosed_cases hs
  have hc : closedBlock s.call = some b := by rw [hcall]; rfl
  have hnone := h.flight_of_closed hc
  refine
    { aligned := .of_eq rfl fun buf' hbuf' => ?_
      config := h.config
      room := .inl hnone
      flight := fun f hf => (h.flight f hf).mono fun _ => id
      closed := nofun }
  obtain ⟨buf, hbuf, rfl⟩ := map_eq_some_iff.mp hbuf'
  obtain ⟨out, -, hlen, rfl⟩ := h.closed_front hc buf hbuf
  rw [dropFlushed_eq, hlen, drop_left, hcall]
  simp [flightRows, hnone, notYetPushed]

theorem BufferInv.drop (hs : s.drop = some s') : BufferInv s' := by
  obtain ⟨f, hf, -, rfl⟩ := drop_cases hs
  obtain ⟨hnone, hfront⟩ := h.flight_front hf
  refine
    { aligned := .of_eq hnone fun buf' hbuf' => ?_
      config := h.config
      room := ?_
      flight := nofun
      closed := h.closed }
  · obtain ⟨buf, hbuf, rfl⟩ := map_eq_some_iff.mp hbuf'
    obtain ⟨hlen, rfl⟩ := hfront buf hbuf
    rw [dropFlushed_eq, hlen, drop_left]
    rfl
  · have hr := h.room
    simp only [State.Room, maxRows] at hr ⊢
    split <;> simp_all

/-- **Step lemma.** Every step in which no `push_row` fails keeps the buffer aligned. -/
theorem BufferInv.step (hok : pushOk s e) (hs : step sig s e = some s') : BufferInv s' := by
  cases e with
  | batch rows =>
    obtain ⟨hc, rfl⟩ := batch_cases hs
    have hnone : closedBlock s.call = none := by rw [hc]; rfl
    by_cases ho : s.overflows rows = true
    · refine h.of_call rfl rfl rfl rfl hnone ?_ ?_ (fun _ => id) ?_
      · rw [if_pos ho]; rfl
      · rw [if_pos ho, hc]; rfl
      · simp only [State.Room, if_pos ho]
    · refine h.of_call rfl rfl rfl rfl hnone ?_ ?_ (fun _ => id) ?_
      · rw [if_neg ho]; rfl
      · rw [if_neg ho, hc]; rfl
      · simp only [State.Room, if_neg ho]
        simp only [overflows, Bool.and_eq_true, decide_eq_true_eq, not_and_or, Nat.not_lt,
          Nat.le_zero, length_eq_zero_iff] at ho
        exact ho
  | overflowFlush =>
    obtain ⟨rows, hc, hs⟩ := overflowFlush_cases hs
    rw [startFlush_call] at hs
    obtain ⟨t, ht, rfl⟩ := map_eq_some_iff.mp hs
    obtain ⟨hnil, htc⟩ := startFlush_writer ht
    rw [hc] at htc
    have h0 := h.startFlush (by rw [hc]; rfl) (by simp only [State.Room, htc]) ht
    exact h0.of_call rfl rfl rfl rfl (by rw [htc]; rfl) rfl (by rw [htc]; rfl) (fun _ => id)
      (.inl hnil)
  | append io => exact h.append hs
  | feed =>
    obtain ⟨rows, ends, hc, rfl⟩ := feed_cases hs
    have hroom := h.room
    rw [State.Room, hc] at hroom
    refine
      { aligned := .of_eq rfl fun buf' hbuf' => ?_
        config := h.config
        room := hroom
        flight := fun f hf => (h.flight f hf).mono fun _ => id
        closed := nofun }
    obtain ⟨buf, hbuf, rfl⟩ := map_eq_some_iff.mp hbuf'
    rw [h.aligned.eq (by rw [hc]; rfl) buf hbuf, hc]
    simp [flightRows, notYetPushed]
  | pushRow io => exact h.pushRow hok hs
  | dropClosed => exact h.dropClosed hs
  | publishClosed =>
    obtain ⟨rows, ends, done, rest, b, hc, rfl⟩ := publishClosed_cases hs
    have hroom := h.room
    rw [State.Room, hc] at hroom
    exact h.of_call rfl rfl rfl rfl (by rw [hc]; rfl) rfl (by rw [hc]; rfl)
      (fun b hb => mem_append_left _ hb) hroom
  | finish =>
    obtain ⟨rows, ends, done, hc, rfl⟩ := finish_cases hs
    exact h.of_call rfl rfl rfl rfl (by rw [hc]; rfl) rfl (by rw [hc]; rfl) (fun _ => id) trivial
  | flush =>
    obtain ⟨hc, hs⟩ := flush_cases hs
    refine h.startFlush (by rw [hc]; rfl) ?_ hs
    rcases startFlush_cases hs with ⟨-, rfl⟩ | ⟨-, rfl⟩ <;> simp only [State.Room, hc]
  | encode io =>
    obtain ⟨w, covered, n, hfl, ⟨b, w', file, hw, rfl⟩ | ⟨err, w', file, hw, rfl⟩⟩ :=
      encode_cases hs
    · refine h.of_flight hfl rfl rfl rfl rfl rfl (fun b hb => mem_append_left _ hb) fun _ => ?_
      refine ⟨b, by simp, ?_⟩
      rw [(RowWriter.flush_ok hw).1]
      exact (sortByKey_perm _ _).symm
    · exact h.of_flight hfl rfl rfl rfl rfl rfl (fun b hb => mem_append_left _ hb) nofun
  | ack =>
    obtain ⟨w, c, n, hfl, rfl⟩ := ack_cases hs
    exact h.of_flight hfl rfl rfl rfl rfl rfl (fun _ => id) fun _ => (h.flight _ hfl).sent rfl
  | giveUp =>
    obtain ⟨w, c, n, hfl, rfl⟩ := giveUp_cases hs
    exact h.of_flight hfl rfl rfl rfl rfl rfl (fun _ => id) fun _ => (h.flight _ hfl).sent rfl
  | commit ok =>
    obtain ⟨w, c, n, hfl, rfl⟩ := commit_cases hs
    exact h.of_flight hfl rfl rfl rfl rfl rfl (fun _ => id) fun _ => (h.flight _ hfl).sent rfl
  | drop => exact h.drop hs

end

/-! ## How rows leave -/

theorem rowsLeave_of_eq (h : s'.buffer = s.buffer) : RowsLeave s s' := by
  intro b hb b' hb'
  rw [h] at hb'
  cases mem_unique hb hb'
  exact .inl (prefix_refl b)

theorem Leaves.of_flight (h : FlightOk s f) (hf : s.flight = some f)
    (hp : f.phase.dropsNext = true) :
    Leaves s f.writer.buffer := by
  cases hph : f.phase with
  | dropping =>
    obtain ⟨b, hb, hrows⟩ := h.sent (by rw [hph]; rfl)
    exact .sent hb hrows
  | failed => exact .failed hf hph rfl
  | encoding => rw [hph] at hp; cases hp
  | published => rw [hph] at hp; cases hp
  | committing => rw [hph] at hp; cases hp

/-- Rows leave only by the two drops, and these take the rows of one block. -/
theorem BufferInv.rowsLeave (h : BufferInv s) (hs : Serial.step sig s e = some s') :
    RowsLeave s s' := by
  cases e with
  | feed =>
    obtain ⟨rows, ends, hc, rfl⟩ := feed_cases hs
    intro b hb b' hb'
    obtain ⟨c, hc, rfl⟩ := map_eq_some_iff.mp hb'
    cases mem_unique hb hc
    exact .inl (prefix_append _ _)
  | dropClosed =>
    obtain ⟨rows, ends, done, rest, blk, hcall, rfl⟩ := dropClosed_cases hs
    have hc : closedBlock s.call = some blk := by rw [hcall]; rfl
    intro b hb b' hb'
    obtain ⟨c, hb2, rfl⟩ := map_eq_some_iff.mp hb'
    cases mem_unique hb hb2
    obtain ⟨out, hp, hlen, rfl⟩ := h.closed_front hc b hb
    refine .inr ⟨out, ?_, .closed hc (h.closed blk hc).1 hp⟩
    rw [dropFlushed_eq, hlen, drop_left]
  | drop =>
    obtain ⟨f, hf, hph, rfl⟩ := drop_cases hs
    intro b hb b' hb'
    obtain ⟨c, hb2, rfl⟩ := map_eq_some_iff.mp hb'
    cases mem_unique hb hb2
    obtain ⟨hlen, rfl⟩ := (h.flight_front hf).2 b hb
    refine .inr ⟨f.writer.buffer, ?_, .of_flight (h.flight f hf) hf hph⟩
    rw [dropFlushed_eq, hlen, drop_left]
  | batch rows => obtain ⟨-, rfl⟩ := batch_cases hs; exact rowsLeave_of_eq rfl
  | overflowFlush =>
    obtain ⟨rows, -, hs⟩ := overflowFlush_cases hs
    rcases startFlush_cases hs with ⟨-, rfl⟩ | ⟨-, rfl⟩ <;> exact rowsLeave_of_eq rfl
  | append io => obtain ⟨rows, -, -, rfl⟩ := append_cases hs; exact rowsLeave_of_eq rfl
  | pushRow io =>
    obtain ⟨rows, ends, done, r, rest, -, rfl⟩ := pushRow_cases hs
    exact rowsLeave_of_eq rfl
  | publishClosed =>
    obtain ⟨rows, ends, done, rest, blk, -, rfl⟩ := publishClosed_cases hs
    exact rowsLeave_of_eq rfl
  | finish => obtain ⟨rows, ends, done, -, rfl⟩ := finish_cases hs; exact rowsLeave_of_eq rfl
  | flush =>
    obtain ⟨-, hs⟩ := flush_cases hs
    rcases startFlush_cases hs with ⟨-, rfl⟩ | ⟨-, rfl⟩ <;> exact rowsLeave_of_eq rfl
  | encode io =>
    obtain ⟨w, c, n, -, ⟨b, w', file, -, rfl⟩ | ⟨err, w', file, -, rfl⟩⟩ := encode_cases hs
    · exact rowsLeave_of_eq rfl
    · exact rowsLeave_of_eq rfl
  | ack => obtain ⟨w, c, n, -, rfl⟩ := ack_cases hs; exact rowsLeave_of_eq rfl
  | giveUp => obtain ⟨w, c, n, -, rfl⟩ := giveUp_cases hs; exact rowsLeave_of_eq rfl
  | commit ok => obtain ⟨w, c, n, -, rfl⟩ := commit_cases hs; exact rowsLeave_of_eq rfl

theorem bufferInv_boot (config : BlockConfig) (wal : Option WalWriter) (dir : WalDir R)
    (files : List (Block R)) : BufferInv (boot config wal dir (some []) files) where
  aligned := .of_eq rfl fun b hb => by cases hb; rfl
  config := rfl
  room := trivial
  flight := nofun
  closed := nofun

/-- **The buffer is aligned with the rotator.** In every run in which no `push_row` fails the
buffered rows are the rows in flight, the rows of a block the writer has just closed, the rows of
the open writer and the rows still to be pushed, in this order; between batches exactly the first
and the third. Rows leave only with their block: sent, failed, or closed by the writer itself. -/
theorem serial_buffer_aligned (sig : Signal R) (config : BlockConfig) (wal : Option WalWriter)
    (dir : WalDir R) (files : List (Block R)) (s : State R)
    (h : Run (Serial.step sig) pushOk (boot config wal dir (some []) files) s) :
    s.Aligned ∧ (s.call = none → ∀ b ∈ s.buffer, b = s.flightRows ++ s.writer.buffer) ∧
      ∀ e s', Serial.step sig s e = some s' → RowsLeave s s' := by
  have hi := h.inv (bufferInv_boot config wal dir files) fun _ _ _ hi hok hs => hi.step hok hs
  exact ⟨hi.aligned, hi.aligned.idle, fun e s' hs => hi.rowsLeave hs⟩

open Serial.Sample in
/-- The guard is met by a run that splits a batch over two blocks while it fills the buffer. -/
theorem serial_buffer_aligned_split :
    ∃ s : State LogRecord, s.call = none ∧ s.sent.length = 1 ∧
      ∀ b ∈ s.buffer, b = s.flightRows ++ s.writer.buffer := by
  obtain ⟨s, hrun, hc, hsent⟩ := exists_run (Serial.step logs) pushOk (bootLogs 2)
    (fun s => s.call = none ∧ s.sent.length = 1)
    [.batch [record 1 "a", record 2 "b", record 3 "c"], .append .fine, .feed, .pushRow .fine,
      .pushRow .fine, .pushRow .fine, .dropClosed, .publishClosed, .finish, .flush]
    (by decide)
  exact ⟨s, hc, hsent, (serial_buffer_aligned logs _ _ _ _ s hrun).2.1 hc⟩

def State.dropsUnsent [DecidableEq R] (sig : Signal R) (s : State R) (e : Event R) (r : R) : Bool :=
  (Serial.step sig s e).any fun s' => s.buffer.any (r ∈ ·) && s'.buffer.all (r ∉ ·) &&
    s'.sent.all (r ∉ ·.rows)

open Serial.Sample in
/-- **Where the buffer goes wrong.** After a failed background write the rows leave the buffer and
no block holds them. When the writer closes a full block by itself, its rows leave the buffer
before the block is sent. And when the write of that block fails, the batch ends: its last row stays
in the buffer and is in no writer. -/
theorem serial_buffer_misaligned :
    (∃ s, Reach (Serial.step logs) (bootLogs 10) s ∧
      s.dropsUnsent logs .drop (record 1 "a") = true) ∧
    (∃ s, Reach (Serial.step logs) (bootLogs 1) s ∧
      s.dropsUnsent logs .dropClosed (record 1 "a") = true) ∧
    ∃ s, Reach (Serial.step logs) (bootLogs 1) s ∧
      s.call = none ∧ ∃ b ∈ s.buffer, b ≠ s.flightRows ++ s.writer.buffer := by
  refine ⟨?_, ?_, ?_⟩
  · exact exists_run (Serial.step logs) (fun _ _ => True) (bootLogs 10) _
      (batch [record 1 "a"] ++ [.flush, .encode ⟨.failed, "u", 0, "No space left on device"⟩])
      (by decide)
  · exact exists_run (Serial.step logs) (fun _ _ => True) (bootLogs 1) _
      [.batch [record 1 "a", record 2 "b"], .append .fine, .feed, .pushRow .fine, .pushRow .fine]
      (by decide)
  · exact exists_run (Serial.step logs) (fun _ _ => True) (bootLogs 1) _
      [.batch [record 1 "a", record 2 "b"], .append .fine, .feed, .pushRow .fine,
        .pushRow ⟨.failed, "u", 0, "No space left on device"⟩] (by decide)

end Parqtel.Ingest.Serial
