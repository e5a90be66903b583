import Parqtel.Models
import Parqtel.Lib.Ledger

/-!
# The memory buffer

Points that are not in a block yet stay queryable in the memory buffer. A slot
holds one metric's points, oldest first, and marks where a run of points of one
writer shard and epoch starts. A flush removes points by epoch: everything up to
the epoch that was sealed for the shard.

A slot carries the proof that its marks cut the points into non-empty runs. With
it a slot is the same as a list of points that each carry their own tag
(`Slot.view`): `view_push` and `view_dropSealed` say that pushing appends tagged
points and that a drop is a `dropWhile` over the tags.

Logs and spans are plain vectors that are cut by count (`dropFlushed`). What is in the
buffer does not depend on a slot's registry of label sets; scans judge a filter on it
(`SeriesSlot`).
-/

namespace Parqtel.Buffer

open Parqtel.Lib List

/-- Writer shard and epoch of a buffered point. -/
structure Tag where
  shard : ℕ
  epoch : ℕ
deriving DecidableEq, Repr

def untracked : ℕ := 65535

structure EpochMark where
  start : ℕ
  tag : Tag
deriving DecidableEq, Repr

/-- The marks start at `base`, `n` points later the last run ends, and no run is empty. -/
def MarksFrom (base n : ℕ) : List EpochMark → Prop
  | [] => n = 0
  | [m] => m.start = base ∧ 0 < n
  | m :: m' :: ms =>
    m.start = base ∧ base < m'.start ∧ m'.start ≤ base + n ∧
      MarksFrom m'.start (base + n - m'.start) (m' :: ms)

structure Slot (V : Type*) where
  points : List (DataPoint V)
  marks : List EpochMark
  wf : MarksFrom 0 points.length marks

variable {V : Type*}

def tagged : List EpochMark → List (DataPoint V) → List (Tag × DataPoint V)
  | [], _ => []
  | [m], ps => ps.map fun p => (m.tag, p)
  | m :: m' :: ms, ps =>
    ((ps.take (m'.start - m.start)).map fun p => (m.tag, p)) ++
      tagged (m' :: ms) (ps.drop (m'.start - m.start))

/-! ## Marks and tagged points -/

variable {base : ℕ} {ms : List EpochMark} {ps : List (DataPoint V)}

theorem MarksFrom.rest {m m' : EpochMark} (h : MarksFrom base ps.length (m :: m' :: ms)) :
    m'.start + (ps.drop (m'.start - m.start)).length = base + ps.length ∧
      MarksFrom m'.start (ps.drop (m'.start - m.start)).length (m' :: ms) := by
  obtain ⟨h1, h2, h3, h4⟩ := h
  have hlen : (ps.drop (m'.start - m.start)).length = base + ps.length - m'.start := by
    rw [length_drop]; omega
  exact ⟨by omega, hlen ▸ h4⟩

theorem tagged_points (h : MarksFrom base ps.length ms) : (tagged ms ps).map Prod.snd = ps := by
  induction ms generalizing base ps with
  | nil => rw [length_eq_zero_iff.mp h]; rfl
  | cons m ms ih =>
    cases ms with
    | nil => simp [tagged, Function.comp_def]
    | cons m' ms =>
      rw [tagged, map_append, ih h.rest.2, map_map]
      simp [Function.comp_def]

def lastTag (ms : List EpochMark) : Option Tag := ms.getLast?.map EpochMark.tag

/-- Marks after `k` points with tag `t` were added behind `n` others. -/
def pushMark (n : ℕ) (t : Tag) (ms : List EpochMark) : List EpochMark :=
  if lastTag ms = some t then ms else ms ++ [⟨n, t⟩]

theorem pushMark_cons_cons (n : ℕ) (t : Tag) (m m' : EpochMark) (ms : List EpochMark) :
    pushMark n t (m :: m' :: ms) = m :: pushMark n t (m' :: ms) := by
  unfold pushMark lastTag
  simp only [getLast?_cons_cons]
  split_ifs <;> rfl

theorem pushMark_head (n : ℕ) (t : Tag) (m : EpochMark) (ms : List EpochMark) :
    ∃ rest, pushMark n t (m :: ms) = m :: rest := by
  unfold pushMark
  split_ifs
  · exact ⟨ms, rfl⟩
  · exact ⟨ms ++ [⟨n, t⟩], rfl⟩

variable {n : ℕ}

theorem marksFrom_pushMark {t : Tag} {k : ℕ} (h : MarksFrom base n ms) (hk : 0 < k) :
    MarksFrom base (n + k) (pushMark (base + n) t ms) := by
  induction ms generalizing base n with
  | nil =>
    obtain rfl : n = 0 := h
    exact ⟨rfl, by omega⟩
  | cons m ms ih =>
    cases ms with
    | nil =>
      obtain ⟨h1, h2⟩ := h
      unfold pushMark
      split_ifs
      · exact ⟨h1, by omega⟩
      · refine ⟨h1, by simp only; omega, by simp only; omega, rfl, by simp only; omega⟩
    | cons m' ms =>
      obtain ⟨h1, h2, h3, h4⟩ := h
      rw [pushMark_cons_cons]
      have ih' := ih h4
      rw [show m'.start + (base + n - m'.start) = base + n by omega] at ih'
      obtain ⟨rest, hr⟩ := pushMark_head (base + n) t m' ms
      rw [hr] at ih' ⊢
      exact ⟨h1, h2, by omega, by convert ih' using 1; omega⟩

theorem tagged_pushMark {t : Tag} (new : List (DataPoint V)) (h : MarksFrom base ps.length ms) :
    tagged (pushMark (base + ps.length) t ms) (ps ++ new) =
      tagged ms ps ++ new.map fun p => (t, p) := by
  induction ms generalizing base ps with
  | nil => rw [length_eq_zero_iff.mp h]; rfl
  | cons m ms ih =>
    cases ms with
    | nil =>
      obtain ⟨h1, h2⟩ := h
      unfold pushMark
      split_ifs with ht
      · obtain rfl : m.tag = t := by simpa [lastTag] using ht
        simp [tagged]
      · simp only [singleton_append, tagged, h1, Nat.add_sub_cancel_left]
        rw [take_left, drop_left]
    | cons m' ms =>
      obtain ⟨hend, hms⟩ := h.rest
      obtain ⟨h1, h2, h3, -⟩ := h
      have ih' := ih hms
      rw [hend] at ih'
      obtain ⟨rest, hr⟩ := pushMark_head (base + ps.length) t m' ms
      rw [pushMark_cons_cons]
      rw [hr] at ih' ⊢
      rw [tagged, take_append_of_le_length (by omega), drop_append_of_le_length (by omega),
        ih', tagged, append_assoc]

/-- A drop up to the epochs `sealed` takes the runs with this tag. -/
def sealedTag (sealed : List ℕ) (t : Tag) : Bool :=
  t.shard < sealed.length && t.shard ≠ untracked && t.epoch ≤ sealed.getD t.shard 0

def droppable (sealed : List ℕ) (ms : List EpochMark) : ℕ :=
  (ms.takeWhile fun m => sealedTag sealed m.tag).length

/-- Where the first run that stays starts; `stop` is the end of the points. -/
def cutAt (sealed : List ℕ) (stop : ℕ) (ms : List EpochMark) : ℕ :=
  (ms[droppable sealed ms]?).elim stop EpochMark.start

def shiftMark (cut : ℕ) (m : EpochMark) : EpochMark := { m with start := m.start - cut }

theorem marksFrom_shift {cut : ℕ} (h : MarksFrom base n ms) (hc : cut ≤ base) :
    MarksFrom (base - cut) n (ms.map (shiftMark cut)) := by
  induction ms generalizing base n with
  | nil => exact h
  | cons m ms ih =>
    cases ms with
    | nil => exact ⟨by simp [shiftMark, h.1], h.2⟩
    | cons m' ms =>
      obtain ⟨h1, h2, h3, h4⟩ := h
      refine ⟨by simp [shiftMark, h1], by simp only [shiftMark]; omega,
        by simp only [shiftMark]; omega, ?_⟩
      have := ih h4 (by omega)
      simp only [shiftMark, map_cons] at this ⊢
      convert this using 1
      omega

theorem tagged_shift {cut : ℕ} (h : MarksFrom base n ms) (hc : cut ≤ base)
    (ps : List (DataPoint V)) :
    tagged (ms.map (shiftMark cut)) ps = tagged ms ps := by
  induction ms generalizing base n ps with
  | nil => rfl
  | cons m ms ih =>
    cases ms with
    | nil => rfl
    | cons m' ms =>
      obtain ⟨h1, h2, h3, h4⟩ := h
      have hsub : m'.start - cut - (m.start - cut) = m'.start - m.start := by omega
      have ih' := ih h4 (by omega) (ps.drop (m'.start - m.start))
      simp only [map_cons, tagged, shiftMark, hsub] at ih' ⊢
      rw [ih']

variable {sealed : List ℕ}

theorem droppable_cons_pos {m : EpochMark} (h : sealedTag sealed m.tag = true) :
    droppable sealed (m :: ms) = droppable sealed ms + 1 := by
  simp [droppable, h]

theorem droppable_cons_neg {m : EpochMark} (h : ¬ sealedTag sealed m.tag = true) :
    droppable sealed (m :: ms) = 0 := by
  simp [droppable, h]

/-- **A drop cuts between two runs**: the marks and points it leaves fit together, and what it
takes are the leading points with a sealed tag. -/
theorem drop_spec (sealed : List ℕ) (h : MarksFrom base ps.length ms) :
    base ≤ cutAt sealed (base + ps.length) ms ∧
    MarksFrom (cutAt sealed (base + ps.length) ms)
      (ps.drop (cutAt sealed (base + ps.length) ms - base)).length
      (ms.drop (droppable sealed ms)) ∧
    tagged (ms.drop (droppable sealed ms)) (ps.drop (cutAt sealed (base + ps.length) ms - base)) =
      (tagged ms ps).dropWhile fun e => sealedTag sealed e.1 := by
  induction ms generalizing base ps with
  | nil =>
    simp [cutAt, tagged, MarksFrom]
  | cons m ms ih =>
    by_cases hm : sealedTag sealed m.tag = true
    · rw [cutAt, droppable_cons_pos hm]
      simp only [getElem?_cons_succ, drop_succ_cons]
      cases ms with
      | nil =>
        -- the last run goes: nothing is left
        have hall : ∀ e ∈ ps.map (fun p => (m.tag, p)), sealedTag sealed e.1 = true := by
          simp [hm]
        simp [droppable, tagged, MarksFrom, dropWhile_eq_nil_iff.mpr hall]
      | cons m' ms =>
        obtain ⟨hend, hms⟩ := h.rest
        obtain ⟨h1, h2, h3, -⟩ := h
        obtain ⟨i1, i2, i3⟩ := ih hms
        rw [hend] at i1 i2 i3
        rw [← cutAt]
        have hdrop : (ps.drop (m'.start - m.start)).drop
            (cutAt sealed (base + ps.length) (m' :: ms) - m'.start) =
            ps.drop (cutAt sealed (base + ps.length) (m' :: ms) - base) := by
          rw [drop_drop]; congr 1; omega
        rw [hdrop] at i2 i3
        refine ⟨by omega, i2, ?_⟩
        rw [i3, tagged, dropWhile_append_of_pos]
        intro e he
        obtain ⟨p, -, rfl⟩ := mem_map.mp he
        exact hm
    · rw [cutAt, droppable_cons_neg hm]
      have hstart : m.start = base := by
        cases ms with
        | nil => exact h.1
        | cons m' ms => exact h.1
      simp only [getElem?_cons_zero, Option.elim_some, hstart, Nat.sub_self, drop_zero]
      refine ⟨le_rfl, h, ?_⟩
      -- the first run is not empty, so the first tagged point is one that stays
      have hne : ∃ p rest, tagged (m :: ms) ps = (m.tag, p) :: rest := by
        cases ms with
        | nil =>
          obtain ⟨p, ps, rfl⟩ := exists_cons_of_length_pos h.2
          exact ⟨p, _, rfl⟩
        | cons m' ms =>
          obtain ⟨h1, h2, h3, -⟩ := h
          obtain ⟨p, ps, rfl⟩ := exists_cons_of_length_pos (by omega : 0 < ps.length)
          obtain ⟨k, hk⟩ : ∃ k, m'.start - m.start = k + 1 := ⟨m'.start - m.start - 1, by omega⟩
          exact ⟨p, _, by rw [tagged, hk]; rfl⟩
      obtain ⟨p, rest, hp⟩ := hne
      rw [hp, dropWhile_cons_of_neg (by simpa using hm)]

/-! ## Slots -/

namespace Slot

def empty : Slot V := ⟨[], [], rfl⟩

def view (s : Slot V) : List (Tag × DataPoint V) := tagged s.marks s.points

theorem view_points (s : Slot V) : s.view.map Prod.snd = s.points := tagged_points s.wf

def push (s : Slot V) (new : List (DataPoint V)) (t : Tag) : Slot V :=
  if h : new = [] then s
  else
    { points := s.points ++ new
      marks := pushMark s.points.length t s.marks
      wf := by
        have := marksFrom_pushMark (t := t) s.wf (length_pos_of_ne_nil h)
        rwa [Nat.zero_add, ← length_append] at this }

theorem view_push (s : Slot V) (new : List (DataPoint V)) (t : Tag) :
    (s.push new t).view = s.view ++ new.map fun p => (t, p) := by
  unfold push
  split_ifs with h
  · simp [h]
  · have := tagged_pushMark (t := t) new s.wf
    rwa [Nat.zero_add] at this

theorem points_push (s : Slot V) (new : List (DataPoint V)) (t : Tag) :
    (s.push new t).points = s.points ++ new := by
  unfold push
  split_ifs with h
  · rw [h, append_nil]
  · rfl

/-- Remove the points of every epoch up to the sealed one of their shard. -/
def dropSealed (s : Slot V) (sealed : List ℕ) : Slot V :=
  { points := s.points.drop (cutAt sealed s.points.length s.marks)
    marks := (s.marks.drop (droppable sealed s.marks)).map
      (shiftMark (cutAt sealed s.points.length s.marks))
    wf := by
      have h := (drop_spec sealed s.wf).2.1
      simp only [Nat.zero_add, Nat.sub_zero] at h
      have h' := marksFrom_shift h le_rfl
      rwa [Nat.sub_self] at h' }

theorem view_dropSealed (s : Slot V) (sealed : List ℕ) :
    (s.dropSealed sealed).view = s.view.dropWhile fun e => sealedTag sealed e.1 := by
  obtain ⟨-, h2, h3⟩ := drop_spec sealed s.wf
  simp only [Nat.zero_add, Nat.sub_zero] at h2 h3
  exact (tagged_shift h2 le_rfl _).trans h3

end Slot

/-! ## Scans by series -/

def register (series : List LabelSet) (points : List (DataPoint V)) : List LabelSet :=
  points.foldl (fun series p => if p.labels ∈ series then series else series ++ [p.labels]) series

theorem mem_register {series : List LabelSet} {points : List (DataPoint V)} {labels : LabelSet} :
    labels ∈ register series points ↔ labels ∈ series ∨ ∃ p ∈ points, p.labels = labels := by
  induction points generalizing series with
  | nil => simp [register]
  | cons p points ih =>
    rw [register, foldl_cons, ← register, ih, exists_mem_cons_iff, ← or_assoc]
    refine or_congr_left ?_
    split_ifs with hp
    · exact ⟨.inl, fun h => h.elim id fun h => h ▸ hp⟩
    · rw [mem_append, mem_singleton, eq_comm]

/-- A slot with its registry: the label set of every point is in it. Label sets of points that
are gone may be, too. -/
structure SeriesSlot (V : Type*) extends Slot V where
  series : List LabelSet
  registered : ∀ p ∈ points, p.labels ∈ series

namespace SeriesSlot

def empty : SeriesSlot V := ⟨Slot.empty, [], nofun⟩

def push (s : SeriesSlot V) (new : List (DataPoint V)) (t : Tag) : SeriesSlot V where
  toSlot := s.toSlot.push new t
  series := register s.series new
  registered := by
    intro p hp
    have hp : p ∈ s.points ++ new := by
      rwa [← Slot.points_push]
    rw [mem_register]
    exact (mem_append.mp hp).imp (s.registered p) fun hp => ⟨p, hp, rfl⟩

/-- The points in the window whose label set the filter accepts, and the number of points
looked at. The filter is evaluated once for each registered label set. -/
def scanFiltered (s : SeriesSlot V) (startNs endNs : Int) (filter : Option (LabelSet → Bool)) :
    List (DataPoint V) × ℕ :=
  let considered := s.points.filter fun p => startNs ≤ p.timestampNs ∧ p.timestampNs ≤ endNs
  match filter with
  | none => (considered, considered.length)
  | some f =>
    let accepted := s.series.filter f
    if accepted = [] then ([], 0)
    else (considered.filter fun p => p.labels ∈ accepted, considered.length)

/-- **The registry is enough.** A scan filters the points by their own labels. -/
theorem scanFiltered_points (s : SeriesSlot V) (startNs endNs : Int)
    (filter : Option (LabelSet → Bool)) :
    (s.scanFiltered startNs endNs filter).1 =
      (s.points.filter fun p => startNs ≤ p.timestampNs ∧ p.timestampNs ≤ endNs).filter
        fun p => filter.all fun f => f p.labels := by
  unfold scanFiltered
  cases filter with
  | none => simp
  | some f =>
    have hjudge : ∀ p ∈ s.points, decide (p.labels ∈ s.series.filter f) = f p.labels := by
      intro p hp
      rw [Bool.eq_iff_iff, decide_eq_true_eq, mem_filter]
      exact and_iff_right (s.registered p hp)
    have hpoints : ∀ p ∈ s.points.filter fun p => startNs ≤ p.timestampNs ∧ p.timestampNs ≤ endNs,
        p ∈ s.points := fun p hp => (mem_filter.mp hp).1
    dsimp only
    split_ifs with hnone
    · -- no registered label set is accepted, so no point's is
      symm
      refine filter_eq_nil_iff.mpr fun p hp => ?_
      rw [Option.all_some, ← hjudge p (hpoints p hp), hnone]
      simp
    · exact filter_congr fun p hp => hjudge p (hpoints p hp)

end SeriesSlot

/-! ## The metrics of the buffer -/

/-- The slots by metric name; a name without an entry has the empty slot. -/
structure MemoryBuffer (V : Type*) where
  slots : String → Slot V

namespace MemoryBuffer

def new : MemoryBuffer V := ⟨fun _ => Slot.empty⟩

def pushMetricsTagged (b : MemoryBuffer V) (name : String) (points : List (DataPoint V))
    (shard epoch : ℕ) : MemoryBuffer V :=
  ⟨fun n => if n = name then (b.slots n).push points ⟨shard, epoch⟩ else b.slots n⟩

def dropSealedMetrics (b : MemoryBuffer V) (sealed : List ℕ) : MemoryBuffer V :=
  if sealed.all (· = 0) then b else ⟨fun n => (b.slots n).dropSealed sealed⟩

def view (b : MemoryBuffer V) (name : String) : List (Tag × DataPoint V) := (b.slots name).view

theorem view_pushMetricsTagged (b : MemoryBuffer V) (name : String) (points : List (DataPoint V))
    (shard epoch : ℕ) (n : String) :
    (b.pushMetricsTagged name points shard epoch).view n =
      b.view n ++ if n = name then points.map fun p => (⟨shard, epoch⟩, p) else [] := by
  by_cases h : n = name
  · simp [view, pushMetricsTagged, h, Slot.view_push]
  · simp [view, pushMetricsTagged, h]

theorem view_dropSealedMetrics (b : MemoryBuffer V) (sealed : List ℕ) (n : String) :
    (b.dropSealedMetrics sealed).view n = b.view n ∨
      (b.dropSealedMetrics sealed).view n = (b.view n).dropWhile fun e => sealedTag sealed e.1 := by
  unfold dropSealedMetrics
  split_ifs
  · exact .inl rfl
  · exact .inr (Slot.view_dropSealed _ _)

theorem mem_dropSealedMetrics {b : MemoryBuffer V} {n : String} {e : Tag × DataPoint V}
    (he : e ∈ b.view n) (ht : sealedTag sealed e.1 = false) :
    e ∈ (b.dropSealedMetrics sealed).view n := by
  rcases view_dropSealedMetrics b sealed n with hv | hv
  · exact hv ▸ he
  · rw [hv]
    have hsplit := takeWhile_append_dropWhile (p := fun e => sealedTag sealed e.1)
      (l := b.view n)
    rw [← hsplit, mem_append] at he
    rcases he with he | he
    · exact absurd (mem_takeWhile_imp he) (by simp [ht])
    · exact he

theorem mem_pushMetricsTagged {b : MemoryBuffer V} {name n : String} {points : List (DataPoint V)}
    {shard epoch : ℕ} {e : Tag × DataPoint V} (he : e ∈ b.view n) :
    e ∈ (b.pushMetricsTagged name points shard epoch).view n := by
  rw [view_pushMetricsTagged]
  exact mem_append_left _ he

end MemoryBuffer

/-- Remove the oldest `n` rows of a vector, as `drop_flushed_logs` and `drop_flushed_spans` do. -/
def dropFlushed {R : Type*} (n : ℕ) (rows : List R) : List R := rows.drop (min n rows.length)

theorem dropFlushed_eq {R : Type*} (n : ℕ) (rows : List R) : dropFlushed n rows = rows.drop n := by
  unfold dropFlushed
  by_cases h : n ≤ rows.length
  · rw [Nat.min_eq_left h]
  · rw [Nat.min_eq_right (by omega), drop_length, drop_of_length_le (by omega)]

end Parqtel.Buffer
