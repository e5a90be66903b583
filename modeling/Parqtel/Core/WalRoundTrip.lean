import Parqtel.Core.Segments
import Parqtel.Lib.Run

/-!
# What was appended is replayed

A log that starts empty, batches that are appended to it and restarts in between, each with
its own segment limit. The state keeps, besides the files and the writer, what was appended
and where. `RoundTripInv` says that replay reads exactly that, and that the positions of the
records increase; `Written.survives` says which records a cut end leaves.
-/

namespace Parqtel.Wal

open Lib List Segments

variable {α : Type*}

/-- A value that was appended, its segment and the offset its record ends at. -/
structure Written (α : Type*) where
  segment : ℕ
  stop : ℕ
  value : α
deriving DecidableEq

namespace Written

def pos (r : Written α) : ℕ := packPosition r.segment r.stop

def entry (c : Codec α) (r : Written α) : Entry := ⟨r.segment, r.stop, c.frame r.value⟩

/-- No byte of the record is among the last `n` of the newest segment. -/
def survives (d : Segments) (n : ℕ) (r : Written α) : Bool :=
  match d.newest with
  | none => true
  | some (seq, bytes) => r.segment ≠ seq ∨ r.stop ≤ bytes.length - n

end Written

/-- The records of one append and the position it returned. -/
structure Batch (α : Type*) where
  pos : ℕ
  records : List (Written α)
deriving DecidableEq

def writtenAt (c : Codec α) (segment : ℕ) : ℕ → List α → List (Written α)
  | _, [] => []
  | offset, v :: vs =>
    ⟨segment, offset + (c.frame v).size, v⟩ ::
      writtenAt c segment (offset + (c.frame v).size) vs

structure LogState (α : Type*) where
  log : Log
  batches : List (Batch α)

inductive LogEvent (α : Type*) where
  | append (values : List α)
  | reopen (maxSegmentBytes : ℕ)

def logStep (c : Codec α) (s : LogState α) : LogEvent α → Option (LogState α)
  | .append vs =>
    match s.log.appendEncoded (c.encodeRecords vs) with
    | .error _ => none
    | .ok (pos, log) =>
      some ⟨log, s.batches ++ [⟨pos, writtenAt c s.log.writer.segment s.log.writer.offset vs⟩]⟩
  | .reopen limit => some { s with log := openWithSegmentLimit s.log.segments limit }

def LogState.opened (limit : ℕ) : LogState α := ⟨openWithSegmentLimit .empty limit, []⟩

/-- Batches hold a record, and segments stay shorter than `2^32 - 1`. -/
def shortOk (c : Codec α) (s : LogState α) : LogEvent α → Prop
  | .append vs => vs ≠ [] ∧ s.log.writer.offset + (c.encodeRecords vs).length + 1 < 2 ^ 32
  | .reopen _ => True

/-- Also, the segment appended to is one of the first `2^32`. -/
def fitOk (c : Codec α) (s : LogState α) (e : LogEvent α) : Prop :=
  shortOk c s e ∧ match e with
    | .append _ => s.log.writer.segment < 2 ^ 32
    | .reopen _ => True

instance [DecidableEq α] (c : Codec α) (s : LogState α) : ∀ e, Decidable (shortOk c s e)
  | .append vs => inferInstanceAs (Decidable (vs ≠ [] ∧ _ < _))
  | .reopen _ => .isTrue trivial

instance [DecidableEq α] (c : Codec α) (s : LogState α) : ∀ e, Decidable (fitOk c s e)
  | .append vs => inferInstanceAs (Decidable (shortOk c s (.append vs) ∧ _ < _))
  | .reopen _ => inferInstanceAs (Decidable (_ ∧ True))

/-! ## One batch -/

/-- A position that was not cut to 64 bits. -/
def place (segment offset : ℕ) : ℕ := segment * 2 ^ 32 + (offset + 1)

theorem encodeRecords_cons (c : Codec α) (v : α) (vs : List α) :
    (c.encodeRecords (v :: vs)).length = (c.frame v).size + (c.encodeRecords vs).length := by
  simp [Codec.encodeRecords]

theorem appended_eq (c : Codec α) (w : WalWriter) (vs : List α) :
    appended w (vs.map c.frame) = (writtenAt c w.segment w.offset vs).map (Written.entry c) := by
  rw [appended]
  generalize w.offset = offset
  induction vs generalizing offset with
  | nil => rfl
  | cons v vs ih =>
    simp only [map_cons, frameEnds, writtenAt, ih]
    rfl

variable {c : Codec α}

theorem framable_of_short {vs : List α} (h : (c.encodeRecords vs).length < 2 ^ 32) :
    ∀ v ∈ vs, c.Framable v := by
  induction vs with
  | nil => nofun
  | cons v vs ih =>
    have hsize : (c.frame v).size = 8 + (c.encode v).length := rfl
    rw [encodeRecords_cons] at h
    refine forall_mem_cons.mpr ⟨?_, ih (by omega)⟩
    show (c.encode v).length < 2 ^ 32
    omega

section
variable (c : Codec α) {segment : ℕ} (offset : ℕ) {vs : List α}

theorem writtenAt_pos (hseg : segment < 2 ^ 32)
    (hshort : offset + (c.encodeRecords vs).length + 1 < 2 ^ 32) :
    (∀ r ∈ writtenAt c segment offset vs, place segment offset < r.pos ∧
        r.pos ≤ place segment (offset + (c.encodeRecords vs).length)) ∧
      (writtenAt c segment offset vs).Pairwise fun a b => a.pos < b.pos := by
  induction vs generalizing offset with
  | nil => exact ⟨nofun, .nil⟩
  | cons v vs ih =>
    have hsize : (c.frame v).size = 8 + (c.encode v).length := rfl
    rw [encodeRecords_cons] at hshort ⊢
    obtain ⟨hall, hpair⟩ := ih (offset + (c.frame v).size) (by omega)
    have hfirst : packPosition segment (offset + (c.frame v).size) =
        place segment (offset + (c.frame v).size) := packPosition_eq hseg (by omega)
    refine ⟨forall_mem_cons.mpr ⟨?_, fun r hr => ?_⟩,
      pairwise_cons.mpr ⟨fun r hr => ?_, hpair⟩⟩
    · simp only [Written.pos, hfirst, place]
      omega
    · have hr := hall r hr
      simp only [place] at hr ⊢
      omega
    · show packPosition _ _ < _
      rw [hfirst]
      exact (hall r hr).1

theorem writtenAt_last (segment : ℕ) (hne : vs ≠ []) :
    ∃ init r, writtenAt c segment offset vs = init ++ [r] ∧
    r.pos = packPosition segment (offset + (c.encodeRecords vs).length) := by
  induction vs generalizing offset with
  | nil => exact absurd rfl hne
  | cons v vs ih =>
    rw [writtenAt, encodeRecords_cons, ← Nat.add_assoc]
    rcases vs.eq_nil_or_concat with rfl | ⟨_, _, hvs⟩
    · exact ⟨[], _, rfl, rfl⟩
    · obtain ⟨init, r, hinit, hr⟩ := ih (offset + (c.frame v).size) (by simp [hvs])
      exact ⟨_ :: init, r, by rw [hinit]; rfl, hr⟩

end

/-! ## Every run -/

def LogState.records (s : LogState α) : List (Written α) := s.batches.flatMap Batch.records

/-- The files hold what was appended, in ascending positions up to the writer's. -/
structure RoundTripInv (c : Codec α) (s : LogState α) : Prop where
  aligned : s.log.Aligned c
  entries : s.log.segments.entries c = s.records.map (Written.entry c)
  short : s.log.writer.offset + 1 < 2 ^ 32
  below : ∀ r ∈ s.records, r.pos ≤ place s.log.writer.segment s.log.writer.offset
  ordered : s.records.Pairwise fun a b => a.pos < b.pos
  last : ∀ b ∈ s.batches, ∃ init r, b.records = init ++ [r] ∧ r.pos = b.pos

theorem opened_inv (c : Codec α) (limit : ℕ) : RoundTripInv c (.opened limit) :=
  ⟨⟨[], [], rfl, by simp, rfl, rfl⟩, rfl, by show 0 + 1 < 2 ^ 32; decide,
    by simp [LogState.opened, LogState.records], .nil, by simp [LogState.opened]⟩

variable {s : LogState α}

theorem RoundTripInv.reopen (h : RoundTripInv c s) (limit : ℕ) :
    RoundTripInv c { s with log := openWithSegmentLimit s.log.segments limit } := by
  obtain ⟨haligned, hentries, hwriter⟩ := h.aligned.openWithSegmentLimit limit
  have hshort := h.short
  have hoffset : (openWithSegmentLimit s.log.segments limit).writer.offset + 1 < 2 ^ 32 ∧
      place s.log.writer.segment s.log.writer.offset ≤
        place (openWithSegmentLimit s.log.segments limit).writer.segment
          (openWithSegmentLimit s.log.segments limit).writer.offset := by
    rw [hwriter, WalWriter.reopen]
    split_ifs
    · simp only [place]
      omega
    · exact ⟨hshort, le_rfl⟩
  exact ⟨haligned, hentries.trans h.entries, hoffset.1,
    fun r hr => (h.below r hr).trans hoffset.2, h.ordered, h.last⟩

theorem RoundTripInv.append (h : RoundTripInv c s) {vs : List α} (hok : fitOk c s (.append vs))
    {pos : ℕ} {log : Log} (happ : s.log.appendEncoded (c.encodeRecords vs) = .ok (pos, log)) :
    RoundTripInv c ⟨log,
      s.batches ++ [⟨pos, writtenAt c s.log.writer.segment s.log.writer.offset vs⟩]⟩ := by
  obtain ⟨⟨hne, hshort⟩, hseg⟩ := hok
  obtain ⟨pos', log', happ', haligned, hentries, hwriter⟩ :=
    h.aligned.appendEncoded (framable_of_short (by omega) : ∀ v ∈ vs, c.Framable v)
  obtain ⟨rfl, rfl⟩ := Prod.mk.inj (Except.ok.inj (happ.symm.trans happ'))
  rw [WalWriter.appendEncoded_fine (by obtain ⟨_, _, _, _, _, hp⟩ := h.aligned; exact hp)]
    at hwriter
  obtain ⟨hpos, hwriter, -⟩ := AppendOut.mk.inj hwriter
  obtain ⟨hbetween, hpair⟩ := writtenAt_pos c _ hseg hshort
  have hrecords : (⟨log, s.batches ++ [⟨pos, writtenAt c s.log.writer.segment
      s.log.writer.offset vs⟩]⟩ : LogState α).records =
      s.records ++ writtenAt c s.log.writer.segment s.log.writer.offset vs := by
    simp [LogState.records]
  -- the writer's end after the append, rolled or not
  have hnext : log.writer.offset + 1 < 2 ^ 32 ∧
      place s.log.writer.segment (s.log.writer.offset + (c.encodeRecords vs).length) ≤
        place log.writer.segment log.writer.offset := by
    rw [← hwriter]
    split_ifs
    · simp only [place]
      omega
    · exact ⟨hshort, le_rfl⟩
  refine ⟨haligned, ?_, hnext.1, ?_, ?_, ?_⟩
  · rw [hentries, h.entries, hrecords, appended_eq, map_append]
  · rw [hrecords]
    intro r hr
    rcases mem_append.mp hr with hr | hr
    · refine ((h.below r hr).trans ?_).trans hnext.2
      simp only [place]
      omega
    · exact (hbetween r hr).2.trans hnext.2
  · rw [hrecords]
    exact pairwise_append.mpr ⟨h.ordered, hpair, fun a ha b hb =>
      (h.below a ha).trans_lt (hbetween b hb).1⟩
  · obtain ⟨init, r, hinit, hr⟩ := writtenAt_last c s.log.writer.offset s.log.writer.segment hne
    exact forall_mem_concat h.last ⟨init, r, hinit, hr.trans (Except.ok.inj hpos)⟩

theorem RoundTripInv.run {limit : ℕ} (h : Run (logStep c) (fitOk c) (.opened limit) s) :
    RoundTripInv c s := by
  refine h.inv (opened_inv c limit) fun s e s' hinv hok hstep => ?_
  cases e with
  | append vs =>
    rw [logStep] at hstep
    split at hstep
    · cases hstep
    · next pos log happ =>
      cases hstep
      exact hinv.append hok happ
  | reopen limit =>
    cases hstep
    exact hinv.reopen limit

/-! ## A cut end -/

theorem fileEntries_segment {p : ℕ × Bytes} {e : Entry} (h : e ∈ fileEntries c p) :
    e.segment = p.1 := by
  obtain ⟨q, -, rfl⟩ := mem_map.mp h
  rfl

theorem entries_cutLast {d : Segments} {front : List (ℕ × Bytes)} {seq : ℕ} {bytes : Bytes}
    (h : d.files = front ++ [(seq, bytes)]) (n : ℕ) :
    (d.cutLast n).entries c =
      (d.entries c).filter fun e => e.segment ≠ seq ∨ e.stop ≤ bytes.length - n := by
  have hcut : d.cutLast n = d.put seq (bytes.take (bytes.length - n)) := by
    rw [cutLast, newest_eq h]
  have hfront : (front.flatMap (fileEntries c)).filter
      (fun e => e.segment ≠ seq ∨ e.stop ≤ bytes.length - n) =
      front.flatMap (fileEntries c) := by
    refine filter_eq_self.mpr fun e he => ?_
    obtain ⟨p, hp, he⟩ := mem_flatMap.mp he
    have hlt := front_lt h p hp
    rw [← fileEntries_segment he] at hlt
    exact decide_eq_true (.inl hlt.ne)
  rw [hcut, entries_eq (files_put_last h _), entries_eq h, filter_append, hfront]
  congr 1
  rw [fileEntries, fileEntries, frames_take, filter_map]
  congr 1
  exact filter_congr fun q _ => by simp

/-! ## The round trip -/

section
variable {c : Codec α} {s : LogState α}

theorem RoundTripInv.positions_ascend (h : RoundTripInv c s) :
    (s.batches.map Batch.pos).Pairwise (· < ·) := by
  refine pairwise_map.mpr ((pairwise_flatMap.mp h.ordered).2.imp_of_mem ?_)
  intro a b ha hb hab
  obtain ⟨_, ra, hra, hpa⟩ := h.last a ha
  obtain ⟨_, rb, hrb, hpb⟩ := h.last b hb
  rw [← hpa, ← hpb]
  exact hab ra (by simp [hra]) rb (by simp [hrb])

theorem RoundTripInv.covered_iff (h : RoundTripInv c s) {pre post : List (Batch α)} {b : Batch α}
    (hs : s.batches = pre ++ b :: post) :
    (∀ r ∈ pre.flatMap Batch.records ++ b.records, r.pos ≤ b.pos) ∧
      ∀ r ∈ post.flatMap Batch.records, b.pos < r.pos := by
  obtain ⟨init, r, hinit, hr⟩ := h.last b (by simp [hs])
  have hsplit : s.records =
      (pre.flatMap Batch.records ++ init) ++ r :: post.flatMap Batch.records := by
    simp [LogState.records, hs, hinit]
  have hord := h.ordered
  rw [hsplit, pairwise_append] at hord
  obtain ⟨-, hright, hleft⟩ := hord
  rw [← hr, hinit, ← append_assoc]
  exact ⟨forall_mem_concat (fun x hx => (hleft x hx r mem_cons_self).le) le_rfl,
    (pairwise_cons.mp hright).1⟩

theorem RoundTripInv.entries_cut (h : RoundTripInv c s) (n : ℕ) :
    (s.log.segments.cutLast n).entries c =
      (s.records.filter (Written.survives s.log.segments n)).map (Written.entry c) := by
  obtain ⟨front, fs, hfiles, -⟩ := h.aligned
  rw [entries_cutLast hfiles, h.entries, filter_map]
  refine congrArg (List.map (Written.entry c)) (filter_congr fun r _ => ?_)
  simp only [Written.survives, newest_eq hfiles]
  rfl

theorem filterMap_survivors (c : Codec α) (rs : List (Written α)) (commit : ℕ) :
    ((rs.map (Written.entry c)).filterMap fun e =>
      if isCoveredBy (e.record c).pos commit then none else (e.record c).value) =
      (rs.filter fun r => ¬ r.pos ≤ commit).map Written.value := by
  induction rs with
  | nil => rfl
  | cons r rs ih =>
    have hr : ((r.entry c).record c).pos = r.pos := rfl
    have hv : ((r.entry c).record c).value = some r.value := c.decode_encode r.value
    rw [map_cons, filterMap_cons, ih, hr, hv, isCoveredBy]
    by_cases hle : r.pos ≤ commit
    · simp [hle]
    · simp [hle, not_le.mp hle]

theorem RoundTripInv.replay_after (h : RoundTripInv c s) {pre post : List (Batch α)} {b : Batch α}
    (hs : s.batches = pre ++ b :: post) (n : ℕ) :
    (replay c (s.log.segments.cutLast n) b.pos).values =
      ((post.flatMap Batch.records).filter (Written.survives s.log.segments n)).map
        Written.value := by
  obtain ⟨hold, hnew⟩ := h.covered_iff hs
  have hsplit : s.records =
      (pre.flatMap Batch.records ++ b.records) ++ post.flatMap Batch.records := by
    simp [LogState.records, hs]
  rw [replay]
  rw [h.entries_cut, filterMap_survivors, hsplit, filter_append, filter_append]
  -- of what survives, the records up to the batch are covered and the later ones are not
  have hcovered : (((pre.flatMap Batch.records ++ b.records).filter
      (Written.survives s.log.segments n)).filter fun r => ¬ r.pos ≤ b.pos) = [] :=
    filter_eq_nil_iff.mpr fun r hr => by
      simpa using hold r (mem_of_mem_filter hr)
  have hlater : (((post.flatMap Batch.records).filter
      (Written.survives s.log.segments n)).filter fun r => ¬ r.pos ≤ b.pos) =
      (post.flatMap Batch.records).filter (Written.survives s.log.segments n) :=
    filter_eq_self.mpr fun r hr => by
      simpa using hnew r (mem_of_mem_filter hr)
  rw [hcovered, hlater, nil_append]

end

/-- **Appending and replaying.** In every run of appends and restarts with segments shorter than
`2^32 - 1` bytes and fewer than `2^32` of them, no append fails, the returned positions
increase, and a replay from the position of a batch, after any number of bytes of the newest
segment are lost, hands out what is left of the later batches, in order. -/
theorem append_replay_round_trip (c : Codec α) {limit : ℕ} {s : LogState α}
    (h : Run (logStep c) (fitOk c) (.opened limit) s) :
    (∀ vs, fitOk c s (.append vs) → (logStep c s (.append vs)).isSome) ∧
    (s.batches.map Batch.pos).Pairwise (· < ·) ∧
    ∀ pre b post, s.batches = pre ++ b :: post → ∀ n,
      (replay c (s.log.segments.cutLast n) b.pos).values =
        ((post.flatMap Batch.records).filter (Written.survives s.log.segments n)).map
          Written.value := by
  have hinv := RoundTripInv.run h
  refine ⟨fun vs hok => ?_, hinv.positions_ascend, fun pre b post hs n => ?_⟩
  · obtain ⟨⟨-, hshort⟩, -⟩ := hok
    obtain ⟨pos, log, happ, -⟩ :=
      hinv.aligned.appendEncoded (framable_of_short (by omega) : ∀ v ∈ vs, c.Framable v)
    rw [logStep, happ]
    rfl
  · exact hinv.replay_after hs n

def byteCodec : Codec UInt8 where
  encode v := [v]
  decode
    | [v] => some v
    | _ => none
  crc32 bs := bs.foldl (fun sum b => sum + b.toUInt32) 0
  decode_encode _ := rfl

/-- Two segments, a restart in between, and the last record torn. -/
theorem append_replay_round_trip_torn : ∃ s : LogState UInt8,
    Run (logStep byteCodec) (fitOk byteCodec) (.opened 10) s ∧
    s.batches.map (fun b => (b.pos, b.records.map Written.value)) =
      [(19, [1, 2]), (2 ^ 32 + 10, [3]), (2 ^ 32 + 19, [4])] ∧
    ∀ b post, s.batches = [] ++ b :: post →
      (replay byteCodec (s.log.segments.cutLast 3) b.pos).values =
        ((post.flatMap Batch.records).filter (Written.survives s.log.segments 3)).map
          Written.value := by
  obtain ⟨s, hrun, hs⟩ := exists_run (logStep byteCodec) (fitOk byteCodec) (.opened 10)
    (fun s => s.batches.map (fun b => (b.pos, b.records.map Written.value)) =
      [(19, [1, 2]), (2 ^ 32 + 10, [3]), (2 ^ 32 + 19, [4])])
    [.append [1, 2], .append [3], .reopen 100, .append [4]] (by decide)
  exact ⟨s, hrun, hs,
    fun b post hb => (append_replay_round_trip byteCodec hrun).2.2 [] b post hb 3⟩

/-- With a limit of one byte every append fills a segment. -/
theorem exists_full_segments (n : ℕ) : ∃ s : LogState UInt8,
    Run (logStep byteCodec) (shortOk byteCodec) (.opened 1) s ∧ s.log.Aligned byteCodec ∧
    s.log.writer = ⟨n, 0, 1, none⟩ ∧
    s.batches.map Batch.pos = (List.range n).map fun i => packPosition i 9 := by
  induction n with
  | zero => exact ⟨.opened 1, .refl _, (opened_inv byteCodec 1).aligned, rfl, rfl⟩
  | succ n ih =>
    obtain ⟨s, hrun, haligned, hwriter, hpos⟩ := ih
    have hfram : ∀ v ∈ [(0 : UInt8)], byteCodec.Framable v :=
      forall_mem_singleton.mpr (by decide)
    obtain ⟨pos, log, happ, haligned', -, hout⟩ := haligned.appendEncoded hfram
    rw [hwriter, WalWriter.appendEncoded_fine rfl] at hout
    obtain ⟨hp, hw, -⟩ := AppendOut.mk.inj hout
    have hok : shortOk byteCodec s (.append [0]) := by
      rw [shortOk, hwriter]
      show [(0 : UInt8)] ≠ [] ∧ 0 + (byteCodec.encodeRecords [0]).length + 1 < 2 ^ 32
      decide
    have hstep : logStep byteCodec s (.append [0]) = some ⟨log, s.batches ++
        [⟨pos, writtenAt byteCodec s.log.writer.segment s.log.writer.offset [0]⟩]⟩ := by
      rw [logStep, happ]
    refine ⟨_, hrun.snoc hok hstep, haligned', hw.symm, ?_⟩
    rw [map_append, hpos, range_succ, map_append, ← Except.ok.inj hp]
    rfl

/-- Segment `2^32` has the positions of segment 0: the number is cut off in the shift. -/
theorem positions_wrap : ∃ s : LogState UInt8,
    Run (logStep byteCodec) (shortOk byteCodec) (.opened 1) s ∧
      ¬ (s.batches.map Batch.pos).Pairwise (· < ·) := by
  obtain ⟨s, hrun, -, -, hpos⟩ := exists_full_segments (2 ^ 32 + 1)
  refine ⟨s, hrun, fun hpair => ?_⟩
  rw [hpos, pairwise_iff_getElem] at hpair
  have hlt := hpair 0 (2 ^ 32) (by simp) (by simp) (by decide)
  rw [getElem_map, getElem_map, getElem_range, getElem_range] at hlt
  exact absurd hlt (by decide)

end Parqtel.Wal
