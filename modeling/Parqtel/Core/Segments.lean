import Parqtel.Core.Wal
import Parqtel.Lib.Framing
import Parqtel.Lib.Update

/-!
# The segments of a log, byte by byte

`Wal` has the records of a log; here are the files that hold them. Two functions read the
same bytes: a process that opens the log looks for the last complete record
(`lastCompleteOffset`), and replay also compares checksums. `Aligned` says that the writer
and its file agree and that both readers reach the file's end. `Aligned.appendEncoded`
and `Aligned.openWithSegmentLimit` keep it. File operations are taken to succeed.
-/

namespace Parqtel.Wal

open Lib List Frame

abbrev Bytes := List UInt8

/-- The serialiser of a record's value and the checksum of its bytes. -/
structure Codec (α : Type*) where
  encode : α → Bytes
  decode : Bytes → Option α
  crc32 : Bytes → UInt32
  decode_encode : ∀ v, decode (encode v) = some v

namespace Codec

variable {α : Type*} (c : Codec α)

def frame (v : α) : Frame := ⟨(c.crc32 (c.encode v)).toNat, c.encode v⟩

def encodeRecords (vs : List α) : Bytes := (vs.map c.frame).flatMap bytes

def intact (f : Frame) : Bool := (c.crc32 f.payload).toNat == f.checksum

def Framable (v : α) : Prop := (c.encode v).length < 2 ^ 32

instance (v : α) : Decidable (c.Framable v) := inferInstanceAs (Decidable (_ < _))

theorem intact_frame (v : α) : c.intact (c.frame v) = true := beq_self_eq_true _

theorem fits_frame {v : α} (h : c.Framable v) : (c.frame v).Fits :=
  ⟨h, (c.crc32 (c.encode v)).toNat_lt⟩

end Codec

/-! ## The files -/

/-- The `.wal` files of one signal by segment number. -/
structure Segments where
  files : List (ℕ × Bytes)
  sorted : files.Pairwise fun a b => a.1 < b.1

variable {seq : ℕ} {front : List (ℕ × Bytes)} {d : Segments}

namespace Segments

def empty : Segments := ⟨[], .nil⟩

def file (d : Segments) (seq : ℕ) : Option Bytes := d.files.lookup seq

def insertFile (seq : ℕ) (bytes : Bytes) : List (ℕ × Bytes) → List (ℕ × Bytes)
  | [] => [(seq, bytes)]
  | p :: ps =>
    if p.1 < seq then p :: insertFile seq bytes ps
    else if p.1 = seq then (seq, bytes) :: ps
    else (seq, bytes) :: p :: ps

theorem mem_insertFile {bytes : Bytes} {ps : List (ℕ × Bytes)} {q : ℕ × Bytes}
    (h : q ∈ insertFile seq bytes ps) : q = (seq, bytes) ∨ q ∈ ps := by
  induction ps with
  | nil => exact .inl (mem_singleton.mp h)
  | cons p ps ih =>
    rw [insertFile] at h
    split_ifs at h
    · rcases mem_cons.mp h with rfl | h
      · exact .inr mem_cons_self
      · exact (ih h).imp_right (mem_cons_of_mem _)
    · exact (mem_cons.mp h).imp_right (mem_cons_of_mem _)
    · exact mem_cons.mp h

theorem sorted_insertFile (seq : ℕ) (bytes : Bytes) {ps : List (ℕ × Bytes)}
    (h : ps.Pairwise fun a b => a.1 < b.1) :
    (insertFile seq bytes ps).Pairwise fun a b => a.1 < b.1 := by
  induction ps with
  | nil => exact pairwise_singleton _ _
  | cons p ps ih =>
    obtain ⟨hp, hps⟩ := pairwise_cons.mp h
    rw [insertFile]
    split_ifs with hlt heq
    · refine pairwise_cons.mpr ⟨fun q hq => ?_, ih hps⟩
      rcases mem_insertFile hq with rfl | hq
      · exact hlt
      · exact hp q hq
    · subst heq
      exact pairwise_cons.mpr ⟨hp, hps⟩
    · have hgt : seq < p.1 := by omega
      refine pairwise_cons.mpr ⟨fun q hq => ?_, h⟩
      rcases mem_cons.mp hq with rfl | hq
      · exact hgt
      · exact hgt.trans (hp q hq)

def put (d : Segments) (seq : ℕ) (bytes : Bytes) : Segments :=
  ⟨insertFile seq bytes d.files, sorted_insertFile seq bytes d.sorted⟩

def mapFiles (d : Segments) (g : Bytes → Bytes) : Segments :=
  ⟨d.files.map fun p => (p.1, g p.2), pairwise_map.mpr d.sorted⟩

def newest (d : Segments) : Option (ℕ × Bytes) := d.files.getLast?

def cutLast (d : Segments) (n : ℕ) : Segments :=
  match d.newest with
  | none => d
  | some (seq, bytes) => d.put seq (bytes.take (bytes.length - n))

theorem insertFile_append (h : ∀ p ∈ front, p.1 < seq) (bytes : Bytes) (rest : List (ℕ × Bytes)) :
    insertFile seq bytes (front ++ rest) = front ++ insertFile seq bytes rest := by
  induction front with
  | nil => rfl
  | cons p front ih =>
    obtain ⟨hp, hfront⟩ := forall_mem_cons.mp h
    rw [cons_append, insertFile, if_pos hp, ih hfront, cons_append]

theorem lookup_append_of_lt (h : ∀ p ∈ front, p.1 < seq) (rest : List (ℕ × Bytes)) :
    (front ++ rest).lookup seq = rest.lookup seq := by
  induction front with
  | nil => rfl
  | cons p front ih =>
    obtain ⟨hp, hfront⟩ := forall_mem_cons.mp h
    have hne : (seq == p.1) = false := beq_false_of_ne (by omega)
    rw [cons_append, lookup_cons, hne, ih hfront]

section
variable {d : Segments} {front : List (ℕ × Bytes)} {seq : ℕ} {bytes : Bytes}

section
variable (h : d.files = front ++ [(seq, bytes)])
include h

theorem front_lt : ∀ p ∈ front, p.1 < seq := by
  have hs := d.sorted
  rw [h] at hs
  exact fun p hp => (pairwise_append.mp hs).2.2 p hp _ mem_cons_self

theorem newest_eq : d.newest = some (seq, bytes) := by
  rw [newest, h, getLast?_concat]

theorem file_last : d.file seq = some bytes := by
  rw [file, h, lookup_append_of_lt (front_lt h), lookup_cons_self]

theorem files_put_last (new : Bytes) : (d.put seq new).files = front ++ [(seq, new)] := by
  show insertFile seq new d.files = _
  rw [h, insertFile_append (front_lt h), insertFile, if_neg (lt_irrefl _), if_pos rfl]

theorem files_lt_next : ∀ p ∈ d.files, p.1 < seq + 1 := by
  rw [h]
  exact forall_mem_concat (fun p hp => (front_lt h p hp).trans (Nat.lt_succ_self _))
    (Nat.lt_succ_self _)

end

end

theorem file_new (h : ∀ p ∈ d.files, p.1 < seq) : d.file seq = none := by
  rw [file, ← append_nil d.files, lookup_append_of_lt h, lookup_nil]

theorem files_put_new (h : ∀ p ∈ d.files, p.1 < seq) (bytes : Bytes) :
    (d.put seq bytes).files = d.files ++ [(seq, bytes)] := by
  have hlast := insertFile_append h bytes []
  rwa [append_nil] at hlast

end Segments

/-! ## Opening and appending -/

/-- The offset just past the last complete record; checksums are not looked at. -/
def lastCompleteOffset (bytes : Bytes) : ℕ := framesStop (fun _ => true) bytes

/-- Open a segment for appending, without its torn tail, or create it; with its length. -/
def openOrCreateSegment (d : Segments) (segment : ℕ) : Segments × ℕ :=
  match d.file segment with
  | none => (d.put segment [], 0)
  | some bytes =>
    (d.put segment (bytes.take (lastCompleteOffset bytes)), lastCompleteOffset bytes)

/-- A log that a process has open. -/
structure Log where
  segments : Segments
  writer : WalWriter

def openWithSegmentLimit (d : Segments) (maxSegmentBytes : ℕ) : Log :=
  let segment := match d.newest with
    | some (last, bytes) => if max maxSegmentBytes 1 ≤ bytes.length then last + 1 else last
    | none => 0
  let opened := openOrCreateSegment d segment
  ⟨opened.1, ⟨segment, opened.2, max maxSegmentBytes 1, none⟩⟩

namespace Log

/-- Append framed records. The file is open with `O_APPEND`: the bytes go to its end, wherever
the writer takes that to be. -/
def appendEncoded (l : Log) (records : Bytes) : Except Error (ℕ × Log) :=
  match l.writer.poisoned with
  | some err => .error (.internal s!"WAL writer is poisoned: {err}")
  | none =>
    let w := { l.writer with offset := l.writer.offset + records.length }
    let d := l.segments.put w.segment ((l.segments.file w.segment).getD [] ++ records)
    if w.maxSegmentBytes ≤ w.offset then
      let opened := openOrCreateSegment d (w.segment + 1)
      .ok (w.position, ⟨opened.1, { w with segment := w.segment + 1, offset := opened.2 }⟩)
    else .ok (w.position, ⟨d, w⟩)

end Log

/-! ## Replay -/

structure ReplayStats where
  records : ℕ
  skipped : ℕ
  truncatedBytes : ℕ
  segmentsRemoved : ℕ
deriving DecidableEq, Repr

/-- An intact record and where it stands. -/
structure Entry where
  segment : ℕ
  stop : ℕ
  frame : Frame
deriving DecidableEq

section
variable {α : Type*} (c : Codec α)

def Entry.record (e : Entry) : WalRecord α :=
  ⟨e.segment, packPosition e.segment e.stop, c.decode e.frame.payload⟩

def fileEntries (p : ℕ × Bytes) : List Entry :=
  (frames c.intact p.2).map fun q => ⟨p.1, q.1, q.2⟩

def Segments.entries (d : Segments) : List Entry := d.files.flatMap (fileEntries c)

/-- Where the reading of a segment stopped at a torn or corrupt record. Fewer than
`recordHeaderLen` bytes end it without being noticed. -/
def badAt (bytes : Bytes) : Option ℕ :=
  if framesStop c.intact bytes + recordHeaderLen ≤ bytes.length then
    some (framesStop c.intact bytes)
  else none

/-- A segment as replay leaves it. -/
def dropTail (bytes : Bytes) : Bytes :=
  match badAt c bytes with
  | some stop => bytes.take stop
  | none => bytes

/-- What a replay handed out and counted, and the files it left. -/
structure Replayed (α : Type*) where
  values : List α
  stats : ReplayStats
  segments : Segments

def replay (d : Segments) (commit : ℕ) : Replayed α :=
  let values := (d.entries c).filterMap fun e =>
    if isCoveredBy (e.record c).pos commit then none else (e.record c).value
  ⟨values,
    ⟨values.length, (d.entries c).length - values.length,
      (d.files.map fun p => p.2.length - (dropTail c p.2).length).sum, 0⟩,
    d.mapFiles (dropTail c)⟩

theorem fileEntries_nil (seq : ℕ) : fileEntries c (seq, []) = [] := rfl

/-! ## Writer and file in step -/

/-- The newest segment is the writer's, holds intact records and nothing else, and is as long
as the writer takes it to be. -/
def Log.Aligned (l : Log) : Prop :=
  ∃ (front : List (ℕ × Bytes)) (fs : List Frame),
    l.segments.files = front ++ [(l.writer.segment, fs.flatMap bytes)] ∧
    (∀ f ∈ fs, f.Fits ∧ c.intact f = true) ∧
    l.writer.offset = (fs.flatMap bytes).length ∧ l.writer.poisoned = none

variable {c}

theorem framesStop_flatMap {accept : Frame → Bool} {fs : List Frame}
    (h : ∀ f ∈ fs, f.Fits ∧ accept f = true) :
    framesStop accept (fs.flatMap bytes) = (fs.flatMap bytes).length := by
  have htake : fs.takeWhile accept = fs := takeWhile_eq_self_iff.mpr fun f hf => (h f hf).2
  rw [framesStop, frames_flatMap accept fun f hf => (h f hf).1, htake, getLastD_frameEnds,
    Nat.zero_add]

theorem fileEntries_flatMap {fs : List Frame} (h : ∀ f ∈ fs, f.Fits ∧ c.intact f = true)
    (seq : ℕ) : fileEntries c (seq, fs.flatMap bytes) =
      (frameEnds 0 fs).map fun q => ⟨seq, q.1, q.2⟩ := by
  have htake : fs.takeWhile c.intact = fs := takeWhile_eq_self_iff.mpr fun f hf => (h f hf).2
  rw [fileEntries, frames_flatMap c.intact fun f hf => (h f hf).1, htake]

theorem entries_eq {p : ℕ × Bytes} (h : d.files = front ++ [p]) :
    d.entries c = front.flatMap (fileEntries c) ++ fileEntries c p := by
  rw [Segments.entries, h, flatMap_append, flatMap_singleton]

theorem openOrCreate_next (h : ∀ p ∈ d.files, p.1 < seq) : (openOrCreateSegment d seq).2 = 0 ∧
      (openOrCreateSegment d seq).1.files = d.files ++ [(seq, [])] := by
  rw [openOrCreateSegment, Segments.file_new h]
  exact ⟨rfl, Segments.files_put_new h []⟩

def appended (w : WalWriter) (fs : List Frame) : List Entry :=
  (frameEnds w.offset fs).map fun q => ⟨w.segment, q.1, q.2⟩

/-- **One append.** The new records are read after the old ones, the writer moves as
`WalWriter.appendEncoded` says, and it stays in step with the file. -/
theorem Log.Aligned.appendEncoded {l : Log} (h : l.Aligned c) {vs : List α}
    (hvs : ∀ v ∈ vs, c.Framable v) :
    ∃ pos l', l.appendEncoded (c.encodeRecords vs) = .ok (pos, l') ∧ l'.Aligned c ∧
      l'.segments.entries c = l.segments.entries c ++ appended l.writer (vs.map c.frame) ∧
      l.writer.appendEncoded (c.encodeRecords vs).length .fine =
        ⟨.ok pos, l'.writer, some pos⟩ := by
  obtain ⟨front, fs, hfiles, hfs, hoff, hpoison⟩ := h
  -- the newest file after the write
  have hall : ∀ f ∈ fs ++ vs.map c.frame, f.Fits ∧ c.intact f = true := by
    intro f hf
    rcases mem_append.mp hf with hf | hf
    · exact hfs f hf
    · obtain ⟨v, hv, rfl⟩ := mem_map.mp hf
      exact ⟨c.fits_frame (hvs v hv), c.intact_frame v⟩
  have hbytes : (l.segments.file l.writer.segment).getD [] ++ c.encodeRecords vs =
      (fs ++ vs.map c.frame).flatMap bytes := by
    rw [Segments.file_last hfiles, Option.getD_some, Codec.encodeRecords, flatMap_append]
  have hput := Segments.files_put_last hfiles ((fs ++ vs.map c.frame).flatMap bytes)
  have hlen : l.writer.offset + (c.encodeRecords vs).length =
      ((fs ++ vs.map c.frame).flatMap bytes).length := by
    rw [hoff, ← length_append, Codec.encodeRecords, flatMap_append]
  have hentries : ((l.segments.put l.writer.segment
      ((fs ++ vs.map c.frame).flatMap bytes)).entries c) =
      l.segments.entries c ++ appended l.writer (vs.map c.frame) := by
    rw [entries_eq hput, entries_eq hfiles, fileEntries_flatMap hall, fileEntries_flatMap hfs,
      frameEnds_append, map_append, append_assoc, appended, hoff, Nat.zero_add]
  rw [WalWriter.appendEncoded_fine hpoison]
  unfold Log.appendEncoded
  rw [hpoison]
  dsimp only
  rw [hbytes, hlen]
  by_cases hroll : l.writer.maxSegmentBytes ≤ ((fs ++ vs.map c.frame).flatMap bytes).length
  · obtain ⟨hzero, hnext⟩ := openOrCreate_next (Segments.files_lt_next hput)
    rw [if_pos hroll, if_pos hroll]
    refine ⟨_, _, rfl, ⟨_, [], hnext, by simp, hzero, hpoison⟩, ?_, ?_⟩
    · rw [entries_eq hnext, fileEntries_nil, append_nil, ← hentries]
      rfl
    · rw [hzero, hpoison]
      rfl
  · rw [if_neg hroll, if_neg hroll]
    refine ⟨_, _, rfl, ⟨front, _, hput, hall, rfl, hpoison⟩, hentries, ?_⟩
    rw [hpoison]
    rfl

/-- **A restart.** A process that opens a log that is in step finds the same records, and its
writer is the old one reopened. -/
theorem Log.Aligned.openWithSegmentLimit {l : Log} (h : l.Aligned c) (limit : ℕ) :
    (openWithSegmentLimit l.segments limit).Aligned c ∧
      (openWithSegmentLimit l.segments limit).segments.entries c = l.segments.entries c ∧
      (openWithSegmentLimit l.segments limit).writer =
        { l.writer with maxSegmentBytes := max limit 1 }.reopen 0 := by
  obtain ⟨front, fs, hfiles, hfs, hoff, hpoison⟩ := h
  unfold Wal.openWithSegmentLimit
  rw [Segments.newest_eq hfiles, WalWriter.reopen]
  simp only [Nat.add_zero, hoff]
  by_cases hfull : max limit 1 ≤ (fs.flatMap bytes).length
  · obtain ⟨hzero, hnext⟩ := openOrCreate_next (Segments.files_lt_next hfiles)
    rw [if_pos hfull, if_pos hfull]
    refine ⟨⟨_, [], hnext, by simp, hzero, rfl⟩, ?_, by rw [hzero]⟩
    rw [entries_eq hnext, fileEntries_nil, append_nil]
    rfl
  · have hstop : lastCompleteOffset (fs.flatMap bytes) = (fs.flatMap bytes).length :=
      framesStop_flatMap fun f hf => ⟨(hfs f hf).1, rfl⟩
    have hopen : openOrCreateSegment l.segments l.writer.segment =
        (l.segments.put l.writer.segment (fs.flatMap bytes),
          (fs.flatMap bytes).length) := by
      rw [openOrCreateSegment, Segments.file_last hfiles]
      dsimp only
      rw [hstop, take_length]
    have hput := Segments.files_put_last hfiles (fs.flatMap bytes)
    rw [if_neg hfull, if_neg hfull, hopen]
    refine ⟨⟨front, fs, hput, hfs, rfl, rfl⟩, ?_, rfl⟩
    rw [entries_eq hput, entries_eq hfiles]

end

end Parqtel.Wal
