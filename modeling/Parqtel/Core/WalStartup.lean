import Parqtel.Core.WalRoundTrip

/-!
# Opening and replaying a log at startup

The server opens a log and then replays it. Opening cuts the newest segment at the last
complete record and keeps that offset; replay cuts it again, at the first record whose
checksum is wrong, behind the writer's back. `startup_inStep` says when the two agree.
-/

namespace Parqtel.Wal

open Lib List Frame Segments

variable {α : Type*}

def startup (c : Codec α) (d : Segments) (maxSegmentBytes commit : ℕ) : Log :=
  let opened := openWithSegmentLimit d maxSegmentBytes
  { opened with segments := (replay c opened.segments commit).segments }

def Log.appendAll (c : Codec α) : Log → List (List α) → Except Error (List ℕ × Log)
  | l, [] => .ok ([], l)
  | l, vs :: rest => do
    let (pos, l') ← l.appendEncoded (c.encodeRecords vs)
    let (positions, l'') ← l'.appendAll c rest
    .ok (pos :: positions, l'')

/-- Replay finds the values of a batch, and the last where the append said. -/
def ReadBack (c : Codec α) (batch : ℕ × List α) (found : List Entry) : Prop :=
  found.map Entry.frame = batch.2.map c.frame ∧ ∀ e ∈ found.getLast?, (e.record c).pos = batch.1

/-- The writer's offset is its file's length, and the positions of all later appends are those
replay computes. -/
def Log.InStep (c : Codec α) (l : Log) : Prop :=
  (l.segments.file l.writer.segment).map List.length = some l.writer.offset ∧
  ∀ batches : List (List α), (∀ vs ∈ batches, ∀ v ∈ vs, c.Framable v) →
    ∃ positions l', l.appendAll c batches = .ok (positions, l') ∧
      ∃ found : List (List Entry), l'.segments.entries c = l.segments.entries c ++ found.flatten ∧
        List.Forall₂ (ReadBack c) (positions.zip batches) found

/-- A newest segment that is not full has a matching checksum in every complete record. -/
def NewestIntact (c : Codec α) (d : Segments) (maxSegmentBytes : ℕ) : Prop :=
  match d.newest with
  | none => True
  | some (_, bytes) => bytes.length < max maxSegmentBytes 1 →
      ∀ q ∈ frames (fun _ => true) bytes, c.intact q.2 = true

/-! ## Appending in step -/

section
variable {c : Codec α}

theorem readBack_appended {w : WalWriter} (vs : List α) :
    ReadBack c (packPosition w.segment (w.offset + (c.encodeRecords vs).length), vs)
      (appended w (vs.map c.frame)) := by
  refine ⟨?_, fun e he => ?_⟩
  · rw [appended, map_map]
    exact map_snd_frameEnds _ _
  · rw [appended_eq] at he
    have hne : vs ≠ [] := by
      rintro rfl
      cases he
    obtain ⟨init, r, hinit, hr⟩ := writtenAt_last c w.offset w.segment hne
    rw [hinit, map_append, map_singleton, getLast?_concat] at he
    obtain rfl := Option.some.inj he
    exact hr

theorem Log.Aligned.appendAll {l : Log} (h : l.Aligned c) {batches : List (List α)}
    (hb : ∀ vs ∈ batches, ∀ v ∈ vs, c.Framable v) :
    ∃ positions l', l.appendAll c batches = .ok (positions, l') ∧
      ∃ found : List (List Entry), l'.segments.entries c = l.segments.entries c ++ found.flatten ∧
        List.Forall₂ (ReadBack c) (positions.zip batches) found := by
  induction batches generalizing l with
  | nil => exact ⟨[], l, rfl, [], by simp, .nil⟩
  | cons vs batches ih =>
    obtain ⟨hvs, hb⟩ := forall_mem_cons.mp hb
    obtain ⟨pos, l', happ, haligned, hentries, hout⟩ := h.appendEncoded hvs
    obtain ⟨positions, l'', hall, found, hfound, hread⟩ := ih haligned hb
    obtain ⟨-, -, -, -, -, hpoison⟩ := h
    rw [WalWriter.appendEncoded_fine hpoison] at hout
    obtain ⟨hpos, -⟩ := AppendOut.mk.inj hout
    refine ⟨pos :: positions, l'', ?_, appended l.writer (vs.map c.frame) :: found, ?_, ?_⟩
    · rw [Log.appendAll, happ]
      show (l'.appendAll c batches).bind _ = _
      rw [hall]
      rfl
    · rw [hfound, hentries, flatten_cons, append_assoc]
    · refine .cons ?_ hread
      rw [← Except.ok.inj hpos]
      exact readBack_appended vs

theorem Log.Aligned.inStep {l : Log} (h : l.Aligned c) : l.InStep c := by
  refine ⟨?_, fun batches hb => h.appendAll hb⟩
  obtain ⟨front, fs, hfiles, -, hoff, -⟩ := h
  rw [file_last hfiles, hoff, Option.map_some]

/-! ## The two cuts -/

theorem dropTail_flatMap {fs : List Frame} (hfs : ∀ f ∈ fs, f.Fits) :
    dropTail c (fs.flatMap Frame.bytes) = (fs.takeWhile c.intact).flatMap Frame.bytes := by
  have hstop : framesStop c.intact (fs.flatMap Frame.bytes) =
      ((fs.takeWhile c.intact).flatMap Frame.bytes).length := by
    rw [framesStop, frames_flatMap c.intact hfs, getLastD_frameEnds, Nat.zero_add]
  have hsplit : fs.flatMap Frame.bytes = (fs.takeWhile c.intact).flatMap Frame.bytes ++
      (fs.dropWhile c.intact).flatMap Frame.bytes := by
    rw [← flatMap_append, takeWhile_append_dropWhile]
  rw [dropTail, badAt, hstop]
  cases hdrop : fs.dropWhile c.intact with
  | nil =>
    rw [hdrop, flatMap_nil, append_nil] at hsplit
    rw [hsplit, if_neg (by rw [recordHeaderLen]; omega)]
  | cons f gs =>
    have hlen : ((fs.takeWhile c.intact).flatMap Frame.bytes).length + recordHeaderLen ≤
        (fs.flatMap Frame.bytes).length := by
      rw [hsplit, hdrop, length_append, flatMap_cons, length_append,
        length_bytes, size, recordHeaderLen]
      omega
    rw [if_pos hlen]
    dsimp only
    rw [hsplit, take_left]

theorem take_lastCompleteOffset (bytes : Bytes) : ∃ fs : List Frame,
    (frames (fun _ => true) bytes).map Prod.snd = fs ∧ (∀ f ∈ fs, f.Fits) ∧
      lastCompleteOffset bytes = (fs.flatMap Frame.bytes).length ∧
      bytes.take (lastCompleteOffset bytes) = fs.flatMap Frame.bytes := by
  obtain ⟨fs, hframes, hfs, hbytes⟩ := frames_spec (fun _ => true) bytes
  have hstop : lastCompleteOffset bytes = (fs.flatMap Frame.bytes).length := by
    rw [lastCompleteOffset, framesStop, hframes, getLastD_frameEnds, Nat.zero_add]
  refine ⟨fs, by rw [hframes, map_snd_frameEnds], fun f hf => (hfs f hf).1, hstop, ?_⟩
  rw [hstop]
  conv_lhs => rw [hbytes]
  exact take_left

variable {d : Segments} {seq : ℕ}

theorem files_mapFiles {front : List (ℕ × Bytes)} {bytes : Bytes}
    (h : d.files = front ++ [(seq, bytes)]) (g : Bytes → Bytes) :
    (d.mapFiles g).files = front.map (fun p => (p.1, g p.2)) ++ [(seq, g bytes)] := by
  show d.files.map _ = _
  rw [h, map_append, map_singleton]

theorem startup_new {limit commit : ℕ} (h : ∀ p ∈ d.files, p.1 < seq) :
    Log.Aligned c ⟨(replay c (openOrCreateSegment d seq).1 commit).segments,
      ⟨seq, (openOrCreateSegment d seq).2, limit, none⟩⟩ := by
  obtain ⟨hzero, hnext⟩ := openOrCreate_next h
  exact ⟨_, [], files_mapFiles hnext (dropTail c), by simp, hzero, rfl⟩

/-- A reused segment is in step exactly if no complete record in it is corrupt. -/
theorem startup_reuse {front : List (ℕ × Bytes)} {bytes : Bytes}
    (h : d.files = front ++ [(seq, bytes)]) (limit commit : ℕ) :
    Log.InStep c ⟨(replay c (openOrCreateSegment d seq).1 commit).segments,
        ⟨seq, (openOrCreateSegment d seq).2, limit, none⟩⟩ ↔
      ∀ q ∈ frames (fun _ => true) bytes, c.intact q.2 = true := by
  obtain ⟨fs, hframes, hfs, hstop, htake⟩ := take_lastCompleteOffset bytes
  have hopen : openOrCreateSegment d seq =
      (d.put seq (fs.flatMap Frame.bytes), (fs.flatMap Frame.bytes).length) := by
    rw [openOrCreateSegment, file_last h]
    dsimp only
    rw [htake, hstop]
  have hfiles : (replay c (d.put seq (fs.flatMap Frame.bytes)) commit).segments.files =
      front.map (fun p => (p.1, dropTail c p.2)) ++
        [(seq, (fs.takeWhile c.intact).flatMap Frame.bytes)] := by
    rw [← dropTail_flatMap hfs]
    exact files_mapFiles (files_put_last h _) (dropTail c)
  have hall : (∀ q ∈ frames (fun _ => true) bytes, c.intact q.2 = true) ↔
      ∀ f ∈ fs, c.intact f = true := by
    rw [← hframes, forall_mem_map]
  rw [hopen, hall]
  constructor
  · -- a corrupt record makes the file shorter than the offset
    rintro ⟨hlen, -⟩
    dsimp only at hlen
    rw [file_last hfiles, Option.map_some] at hlen
    have hdrop : (fs.dropWhile c.intact).flatMap Frame.bytes = [] := by
      have hsplit := congrArg (fun gs => (gs.flatMap Frame.bytes).length)
        (takeWhile_append_dropWhile (p := c.intact) (l := fs))
      rw [flatMap_append, length_append] at hsplit
      exact length_eq_zero_iff.mp (by have := Option.some.inj hlen; omega)
    cases hcons : fs.dropWhile c.intact with
    | nil => exact dropWhile_eq_nil_iff.mp hcons
    | cons f gs =>
      rw [hcons] at hdrop
      have hzero := congrArg List.length hdrop
      rw [flatMap_cons, length_append, length_bytes, size, length_nil] at hzero
      omega
  · intro hintact
    rw [takeWhile_eq_self_iff.mpr hintact] at hfiles
    exact Log.Aligned.inStep
      ⟨_, fs, hfiles, fun f hf => ⟨hfs f hf, hintact f hf⟩, rfl, rfl⟩

end

theorem inStep_iff_newestIntact (c : Codec α) (d : Segments) (maxSegmentBytes commit : ℕ) :
    (startup c d maxSegmentBytes commit).InStep c ↔ NewestIntact c d maxSegmentBytes := by
  unfold startup openWithSegmentLimit NewestIntact
  rcases d.files.eq_nil_or_concat with hnil | ⟨front, ⟨seq, bytes⟩, hlast⟩
  · have hnew : d.newest = none := by rw [newest, hnil]; rfl
    rw [hnew]
    exact iff_of_true (startup_new (by simp [hnil])).inStep trivial
  · rw [concat_eq_append] at hlast
    rw [newest_eq hlast]
    dsimp only
    by_cases hfull : max maxSegmentBytes 1 ≤ bytes.length
    · rw [if_pos hfull]
      exact iff_of_true (startup_new (files_lt_next hlast)).inStep
        fun hlt => absurd hfull (by omega)
    · rw [if_neg hfull, startup_reuse hlast]
      exact ⟨fun h _ => h, fun h => h (by omega)⟩

/-- **Startup.** After opening and replaying a log, whatever its files hold, the writer and its
file are in step exactly if the newest segment is full, or there is none, or no complete
record of it has a wrong checksum. -/
theorem startup_inStep (c : Codec α) (d : Segments) (maxSegmentBytes commit : ℕ) :
    (startup c d maxSegmentBytes commit).InStep c ↔ NewestIntact c d maxSegmentBytes :=
  inStep_iff_newestIntact c d maxSegmentBytes commit

def corruptSegments : Segments := ⟨[(0, (⟨6, [5]⟩ : Frame).bytes)], pairwise_singleton _ _⟩

/-- Startup empties the file and leaves the writer at offset 9. Of two records appended then, the
first ends at position 10 and got 19; the second ends at 19, and a replay from the first's
position does not hand it out. -/
theorem corrupt_record_displaces :
    (startup byteCodec corruptSegments 100 0).writer.offset = 9 ∧
    (startup byteCodec corruptSegments 100 0).segments.file 0 = some [] ∧
    ((startup byteCodec corruptSegments 100 0).appendAll byteCodec [[7], [8]]).toOption.map
        (fun r => (r.1, (r.2.segments.entries byteCodec).map fun e => (e.record byteCodec).pos,
          (replay byteCodec r.2.segments 19).values)) =
      some ([19, 28], [10, 19], []) := by
  decide

end Parqtel.Wal
