import Mathlib

/-!
# Length-prefixed frames

A frame is the length of its payload, a checksum and the payload; both numbers take four
bytes, least significant first. `frames accept bytes` is what a scanner finds that starts
at the first byte and stops at the first frame that is incomplete or not accepted, each
frame with the offset it ends at. `frames_flatMap` says what it finds in a sequence of
frames, `frames_take` what is left when the end is cut off, and `frames_spec` that any
bytes are the frames found in them and a rest.
-/

open List Option

namespace Parqtel.Lib

/-! ## Numbers -/

/-- `n` in `width` bytes, least significant first; higher bytes are cut off. -/
def toLe : ℕ → ℕ → List UInt8
  | 0, _ => []
  | width + 1, n => UInt8.ofNat n :: toLe width (n / 256)

def ofLe : List UInt8 → ℕ
  | [] => 0
  | b :: bs => b.toNat + 256 * ofLe bs

variable {n : ℕ}

@[simp] theorem length_toLe (width n : ℕ) : (toLe width n).length = width := by
  induction width generalizing n with
  | zero => rfl
  | succ width ih => simp [toLe, ih]

theorem ofLe_toLe {width : ℕ} (h : n < 256 ^ width) : ofLe (toLe width n) = n := by
  induction width generalizing n with
  | zero =>
    rw [toLe, ofLe]
    omega
  | succ width ih =>
    have hdiv : n / 256 < 256 ^ width := by
      exact Nat.div_lt_of_lt_mul (by omega)
    simp only [toLe, ofLe, ih hdiv, UInt8.toNat_ofNat']
    omega

theorem toLe_ofLe (bs : List UInt8) : toLe bs.length (ofLe bs) = bs := by
  induction bs with
  | nil => rfl
  | cons b bs ih =>
    have hb : b.toNat < 256 := b.toNat_lt
    have hmod : UInt8.ofNat (b.toNat + 256 * ofLe bs) = b := by
      refine UInt8.toNat_inj.mp ?_
      rw [UInt8.toNat_ofNat']
      omega
    have hdiv : (b.toNat + 256 * ofLe bs) / 256 = ofLe bs := by omega
    rw [length_cons, toLe, ofLe, hmod, hdiv, ih]

theorem ofLe_lt (bs : List UInt8) : ofLe bs < 256 ^ bs.length := by
  induction bs with
  | nil => decide
  | cons b bs ih =>
    have hb : b.toNat < 256 := b.toNat_lt
    rw [ofLe, length_cons, Nat.pow_succ]
    omega

/-! ## One frame -/

structure Frame where
  checksum : ℕ
  payload : List UInt8
deriving DecidableEq

namespace Frame

def bytes (f : Frame) : List UInt8 := toLe 4 f.payload.length ++ toLe 4 f.checksum ++ f.payload

def size (f : Frame) : ℕ := 8 + f.payload.length

def Fits (f : Frame) : Prop := f.payload.length < 256 ^ 4 ∧ f.checksum < 256 ^ 4

@[simp] theorem length_bytes (f : Frame) : f.bytes.length = f.size := by
  simp only [bytes, size, length_append, length_toLe]

end Frame

def frameAt (bytes : List UInt8) (offset : ℕ) : Option Frame :=
  if offset + 8 ≤ bytes.length then
    let len := ofLe ((bytes.drop offset).take 4)
    if offset + 8 + len ≤ bytes.length then
      some ⟨ofLe ((bytes.drop (offset + 4)).take 4), (bytes.drop (offset + 8)).take len⟩
    else none
  else none

theorem frameAt_bytes (pre : List UInt8) {f : Frame} (hf : f.Fits) (post : List UInt8) :
    frameAt (pre ++ (f.bytes ++ post)) pre.length = some f := by
  have h0 : ((pre ++ (f.bytes ++ post)).drop pre.length).take 4 = toLe 4 f.payload.length := by
    rw [drop_left, Frame.bytes, append_assoc, append_assoc]
    exact take_left' (length_toLe 4 _)
  have h4 : ((pre ++ (f.bytes ++ post)).drop (pre.length + 4)).take 4 = toLe 4 f.checksum := by
    rw [← drop_drop, drop_left, Frame.bytes, append_assoc, append_assoc,
      drop_left' (length_toLe 4 _)]
    exact take_left' (length_toLe 4 _)
  have h8 : (pre ++ (f.bytes ++ post)).drop (pre.length + 8) = f.payload ++ post := by
    rw [← drop_drop, drop_left, Frame.bytes, append_assoc]
    exact drop_left' (by simp)
  have hlen : (pre ++ (f.bytes ++ post)).length = pre.length + (f.size + post.length) := by simp
  unfold frameAt
  rw [h0, h4, h8, hlen, ofLe_toLe hf.1, ofLe_toLe hf.2, Frame.size]
  rw [if_pos (by omega), if_pos (by omega), take_left]

variable {bytes : List UInt8} {offset : ℕ}

theorem frameAt_some {f : Frame} (h : frameAt bytes offset = some f) :
    f.Fits ∧ offset + f.size ≤ bytes.length ∧
      bytes.drop offset = f.bytes ++ bytes.drop (offset + f.size) := by
  unfold frameAt at h
  dsimp only at h
  split_ifs at h with h8 hlen
  obtain rfl := some.inj h
  have hpay : ((bytes.drop (offset + 8)).take (ofLe ((bytes.drop offset).take 4))).length =
      ofLe ((bytes.drop offset).take 4) := by
    rw [length_take, length_drop]
    omega
  have hhead (k : ℕ) (hk : offset + k + 4 ≤ bytes.length) :
      ((bytes.drop (offset + k)).take 4).length = 4 := by
    rw [length_take, length_drop]
    omega
  have hle (k : ℕ) (hk : offset + k + 4 ≤ bytes.length) :
      toLe 4 (ofLe ((bytes.drop (offset + k)).take 4)) = (bytes.drop (offset + k)).take 4 ∧
        ofLe ((bytes.drop (offset + k)).take 4) < 256 ^ 4 := by
    have hround := toLe_ofLe ((bytes.drop (offset + k)).take 4)
    have hlt := ofLe_lt ((bytes.drop (offset + k)).take 4)
    rw [hhead k hk] at hround hlt
    exact ⟨hround, hlt⟩
  have hsplit (a b : ℕ) : (bytes.drop a).take b ++ bytes.drop (a + b) = bytes.drop a := by
    rw [← drop_drop, take_append_drop]
  obtain ⟨hlen4, hlen_lt⟩ := hle 0 (by omega)
  obtain ⟨hsum4, hsum_lt⟩ := hle 4 (by omega)
  rw [Nat.add_zero] at hlen4 hlen_lt
  refine ⟨⟨by rwa [hpay], hsum_lt⟩, by rw [Frame.size, hpay]; omega, ?_⟩
  rw [Frame.bytes, Frame.size, hpay, hlen4, hsum4, ← Nat.add_assoc, append_assoc, hsplit,
    append_assoc]
  have h8 := hsplit (offset + 4) 4
  rw [h8, hsplit]

theorem frameAt_take (bytes : List UInt8) (m offset : ℕ) : frameAt (bytes.take m) offset =
      (frameAt bytes offset).filter fun f => offset + f.size ≤ m := by
  have hdrop (k : ℕ) : (bytes.take m).drop k = (bytes.drop k).take (m - k) := drop_take
  unfold frameAt
  by_cases h8 : offset + 8 ≤ bytes.length
  · by_cases hm : offset + 8 ≤ m
    · rw [if_pos h8, if_pos (by rw [length_take]; omega), hdrop, hdrop, hdrop, take_take, take_take,
        min_eq_left (by omega), min_eq_left (by omega), length_take]
      by_cases hlen : offset + 8 + ofLe ((bytes.drop offset).take 4) ≤ bytes.length
      · have hsize : offset + (8 + ((bytes.drop (offset + 8)).take
            (ofLe ((bytes.drop offset).take 4))).length) =
            offset + 8 + ofLe ((bytes.drop offset).take 4) := by
          rw [length_take, length_drop]
          omega
        rw [if_pos hlen, filter_some, Frame.size, hsize]
        by_cases hcut : offset + 8 + ofLe ((bytes.drop offset).take 4) ≤ m
        · rw [if_pos (by omega), if_pos (by simpa using hcut), take_take, min_eq_left (by omega)]
        · rw [if_neg (by omega), if_neg (by simpa using hcut)]
      · rw [if_neg hlen, if_neg (by omega), filter_none]
    · rw [if_neg (by rw [length_take]; omega)]
      symm
      refine filter_eq_none_iff.mpr fun f hf => ?_
      rw [decide_eq_true_eq, Frame.size]
      omega
  · rw [if_neg h8, if_neg (by rw [length_take]; omega), filter_none]

/-! ## All frames -/

/-- The frames from an offset on, each with its end; at most `fuel` of them. -/
def framesFrom (accept : Frame → Bool) (bytes : List UInt8) : ℕ → ℕ → List (ℕ × Frame)
  | 0, _ => []
  | fuel + 1, offset =>
    match frameAt bytes offset with
    | none => []
    | some f =>
      if accept f then (offset + f.size, f) :: framesFrom accept bytes fuel (offset + f.size)
      else []

/-- The frames of a file. A frame has at least eight bytes, so the file's length bounds the
number of turns. -/
def frames (accept : Frame → Bool) (bytes : List UInt8) : List (ℕ × Frame) :=
  framesFrom accept bytes bytes.length 0

def frameEnds : ℕ → List Frame → List (ℕ × Frame)
  | _, [] => []
  | offset, f :: fs => (offset + f.size, f) :: frameEnds (offset + f.size) fs

@[simp] theorem map_snd_frameEnds (offset : ℕ) (fs : List Frame) :
    (frameEnds offset fs).map Prod.snd = fs := by
  induction fs generalizing offset with
  | nil => rfl
  | cons f fs ih => simp [frameEnds, ih]

theorem frameEnds_append (offset : ℕ) (fs gs : List Frame) : frameEnds offset (fs ++ gs) =
      frameEnds offset fs ++ frameEnds (offset + (fs.flatMap Frame.bytes).length) gs := by
  induction fs generalizing offset with
  | nil => rfl
  | cons f fs ih =>
    simp only [cons_append, frameEnds, ih, flatMap_cons, length_append,
      Frame.length_bytes, Nat.add_assoc]

theorem frameAt_none (h : bytes.length < offset + 8) : frameAt bytes offset = none :=
  if_neg (by omega)

theorem framesFrom_fuel (accept : Frame → Bool) (bytes : List UInt8) {m : ℕ}
    (hn : bytes.length ≤ offset + n) (hm : bytes.length ≤ offset + m) :
    framesFrom accept bytes n offset = framesFrom accept bytes m offset := by
  induction n generalizing m offset with
  | zero =>
    cases m with
    | zero => rfl
    | succ m => rw [framesFrom, framesFrom, frameAt_none (by omega)]
  | succ n ih =>
    cases m with
    | zero => rw [framesFrom, framesFrom, frameAt_none (by omega)]
    | succ m =>
      rw [framesFrom, framesFrom]
      cases frameAt bytes offset with
      | none => rfl
      | some f =>
        have hf : 0 < f.size := by rw [Frame.size]; omega
        dsimp only
        rw [ih (m := m) (by omega) (by omega)]

theorem framesFrom_flatMap (accept : Frame → Bool) (pre : List UInt8) {fs : List Frame}
    (hfs : ∀ f ∈ fs, f.Fits) (hn : (fs.flatMap Frame.bytes).length ≤ n) :
    framesFrom accept (pre ++ fs.flatMap Frame.bytes) n pre.length =
      frameEnds pre.length (fs.takeWhile accept) := by
  induction fs generalizing pre n with
  | nil =>
    cases n with
    | zero => rfl
    | succ n => rw [framesFrom, frameAt_none (by simp)]; rfl
  | cons f fs ih =>
    obtain ⟨hf, hfs⟩ := forall_mem_cons.mp hfs
    have hsize : f.size = 8 + f.payload.length := rfl
    rw [flatMap_cons, length_append, Frame.length_bytes] at hn
    obtain ⟨n, rfl⟩ : ∃ k, n = k + 1 := ⟨n - 1, by omega⟩
    have hrest := ih (pre ++ f.bytes) hfs (n := n) (by omega)
    rw [append_assoc, length_append, Frame.length_bytes] at hrest
    rw [flatMap_cons, framesFrom, frameAt_bytes pre hf, takeWhile_cons]
    dsimp only
    rw [hrest]
    split_ifs <;> rfl

/-- **Reading back.** In a sequence of frames the scanner finds the frames up to the first
that is not accepted. -/
theorem frames_flatMap (accept : Frame → Bool) {fs : List Frame} (hfs : ∀ f ∈ fs, f.Fits) :
    frames accept (fs.flatMap Frame.bytes) = frameEnds 0 (fs.takeWhile accept) :=
  framesFrom_flatMap accept [] hfs le_rfl

theorem lt_of_mem_framesFrom {accept : Frame → Bool} {p : ℕ × Frame}
    (h : p ∈ framesFrom accept bytes n offset) : offset < p.1 := by
  induction n generalizing offset with
  | zero => cases h
  | succ n ih =>
    rw [framesFrom] at h
    split at h
    · cases h
    · next f hf =>
      have hsize : f.size = 8 + f.payload.length := rfl
      split_ifs at h
      · rcases mem_cons.mp h with rfl | h
        · omega
        · exact lt_of_le_of_lt (Nat.le_add_right _ _) (ih h)
      · cases h

theorem framesFrom_take (accept : Frame → Bool) (bytes : List UInt8) (m n offset : ℕ) :
    framesFrom accept (bytes.take m) n offset =
      (framesFrom accept bytes n offset).filter fun p => p.1 ≤ m := by
  induction n generalizing offset with
  | zero => rfl
  | succ n ih =>
    rw [framesFrom, framesFrom, frameAt_take]
    cases frameAt bytes offset with
    | none => rfl
    | some f =>
      rw [filter_some]
      by_cases hm : offset + f.size ≤ m
      · rw [if_pos (by simpa using hm)]
        dsimp only
        by_cases hf : accept f
        · rw [if_pos hf, if_pos hf, filter_cons_of_pos (by simpa using hm), ih]
        · rw [if_neg hf, if_neg hf, filter_nil]
      · -- every later frame ends beyond the cut too
        rw [if_neg (by simpa using hm)]
        symm
        refine filter_eq_nil_iff.mpr fun p hp => ?_
        rw [decide_eq_true_eq]
        dsimp only at hp
        split_ifs at hp
        · rcases mem_cons.mp hp with rfl | hp
          · exact hm
          · have := lt_of_mem_framesFrom hp
            omega
        · cases hp

/-- **A cut end.** The frames that lie before the cut are found, and no others. -/
theorem frames_take (accept : Frame → Bool) (bytes : List UInt8) (m : ℕ) :
    frames accept (bytes.take m) = (frames accept bytes).filter fun p => p.1 ≤ m := by
  have hlen : (bytes.take m).length ≤ bytes.length := length_take_le' m bytes
  rw [frames, frames, ← framesFrom_take]
  exact framesFrom_fuel accept _ (by omega) (by omega)

theorem framesFrom_spec (accept : Frame → Bool) (bytes : List UInt8) (n offset : ℕ) :
    ∃ fs : List Frame, framesFrom accept bytes n offset = frameEnds offset fs ∧
      (∀ f ∈ fs, f.Fits ∧ accept f = true) ∧ bytes.drop offset =
        fs.flatMap Frame.bytes ++ bytes.drop (offset + (fs.flatMap Frame.bytes).length) := by
  induction n generalizing offset with
  | zero => exact ⟨[], rfl, by simp, by simp⟩
  | succ n ih =>
    rw [framesFrom]
    split
    · exact ⟨[], rfl, by simp, by simp⟩
    · next f hat =>
      split_ifs with hacc
      · obtain ⟨fs, hfs, hall, hdrop⟩ := ih (offset + f.size)
        obtain ⟨hfit, -, hbytes⟩ := frameAt_some hat
        refine ⟨f :: fs, by rw [hfs, frameEnds], forall_mem_cons.mpr ⟨⟨hfit, hacc⟩, hall⟩, ?_⟩
        rw [hbytes, hdrop, flatMap_cons, length_append, Frame.length_bytes,
          append_assoc, Nat.add_assoc]
      · exact ⟨[], rfl, by simp, by simp⟩

/-- **What was found was written.** Any bytes are the frames found in them and a rest. -/
theorem frames_spec (accept : Frame → Bool) (bytes : List UInt8) :
    ∃ fs : List Frame, frames accept bytes = frameEnds 0 fs ∧ (∀ f ∈ fs, f.Fits ∧ accept f = true) ∧
        bytes = fs.flatMap Frame.bytes ++ bytes.drop (fs.flatMap Frame.bytes).length := by
  have h := framesFrom_spec accept bytes bytes.length 0
  rw [drop_zero] at h
  simpa only [frames, Nat.zero_add] using h

def framesStop (accept : Frame → Bool) (bytes : List UInt8) : ℕ :=
  ((frames accept bytes).map Prod.fst).getLastD 0

theorem getLastD_frameEnds (offset : ℕ) (fs : List Frame) :
    ((frameEnds offset fs).map Prod.fst).getLastD offset =
      offset + (fs.flatMap Frame.bytes).length := by
  induction fs generalizing offset with
  | nil => rfl
  | cons f fs ih =>
    rw [frameEnds, map_cons, getLastD_cons, ih, flatMap_cons, length_append,
      Frame.length_bytes, Nat.add_assoc]

end Parqtel.Lib
