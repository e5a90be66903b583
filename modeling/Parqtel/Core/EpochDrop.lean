import Parqtel.Core.Buffer

/-!
# Dropping by epoch

A run pushes points and drops sealed epochs. The writers push every metric with one shard and
with epochs that do not fall (`InEpochOrder`). Then a slot, with its marks and its cut by index,
is a list of points that each carry the tag they were pushed with (`remaining`), and a drop
filters that list: the leading runs that it cuts off are all the sealed points there are.
-/

open List

namespace Parqtel.Buffer

variable {V : Type*}

inductive MetricCall (V : Type*) where
  | push (name : String) (points : List (DataPoint V)) (shard epoch : ℕ)
  | drop (sealed : List ℕ)

def MetricCall.tag? : MetricCall V → Option (String × Tag)
  | .push name _ shard epoch => some (name, ⟨shard, epoch⟩)
  | .drop _ => none

namespace MemoryBuffer

def call (b : MemoryBuffer V) : MetricCall V → MemoryBuffer V
  | .push name points shard epoch => b.pushMetricsTagged name points shard epoch
  | .drop sealed => b.dropSealedMetrics sealed

def run (calls : List (MetricCall V)) : MemoryBuffer V := calls.foldl call new

theorem run_concat (calls : List (MetricCall V)) (c : MetricCall V) :
    run (calls ++ [c]) = (run calls).call c := by
  simp [run]

end MemoryBuffer

def Tag.Before (t t' : Tag) : Prop := t.shard = t'.shard ∧ t.epoch ≤ t'.epoch

/-- Every metric is pushed with one shard and with epochs that do not fall. -/
def InEpochOrder (calls : List (MetricCall V)) : Prop :=
  calls.Pairwise fun c d => ∀ name t t', c.tag? = some (name, t) → d.tag? = some (name, t') →
    t.Before t'

/-- A drop is asked to remove the points with this tag. A call in which no shard has an epoch
to remove does nothing. -/
def removes (sealed : List ℕ) (t : Tag) : Bool :=
  !(sealed.all (· = 0)) && sealedTag sealed t

def leaves (name : String) (entries : List (Tag × DataPoint V)) :
    MetricCall V → List (Tag × DataPoint V)
  | .push n points shard epoch =>
    entries ++ if n = name then points.map fun p => (⟨shard, epoch⟩, p) else []
  | .drop sealed => entries.filter fun e => !(removes sealed e.1)

def remaining (name : String) (calls : List (MetricCall V)) : List (Tag × DataPoint V) :=
  calls.foldl (leaves name) []

/-! ## What remains is in epoch order -/

theorem remaining_concat (name : String) (calls : List (MetricCall V)) (c : MetricCall V) :
    remaining name (calls ++ [c]) = leaves name (remaining name calls) c := by
  simp [remaining]

variable {name : String} {calls : List (MetricCall V)}

theorem tag_of_mem_remaining {e : Tag × DataPoint V} (he : e ∈ remaining name calls) :
    ∃ c ∈ calls, c.tag? = some (name, e.1) := by
  induction calls using List.reverseRecOn with
  | nil => cases he
  | append_singleton calls c ih =>
    have hold : e ∈ remaining name calls → ∃ d ∈ calls ++ [c], d.tag? = some (name, e.1) := by
      intro he
      obtain ⟨d, hd, ht⟩ := ih he
      exact ⟨d, mem_append_left _ hd, ht⟩
    cases c with
    | push n points shard epoch =>
      rw [remaining_concat, leaves] at he
      rcases mem_append.mp he with he | he
      · exact hold he
      · split_ifs at he with hn
        · obtain ⟨p, -, rfl⟩ := mem_map.mp he
          exact ⟨_, mem_append_right _ (mem_singleton_self _), by rw [← hn]; rfl⟩
        · cases he
    | drop sealed =>
      rw [remaining_concat, leaves] at he
      exact hold (mem_filter.mp he).1

theorem remaining_ordered (h : InEpochOrder calls) :
    (remaining name calls).Pairwise fun a b => a.1.Before b.1 := by
  induction calls using List.reverseRecOn with
  | nil => exact .nil
  | append_singleton calls c ih =>
    obtain ⟨hcalls, -, hlast⟩ := pairwise_append.mp h
    cases c with
    | push n points shard epoch =>
      rw [remaining_concat, leaves]
      split_ifs with hn
      · subst hn
        refine pairwise_append.mpr ⟨ih hcalls, ?_, fun a ha b hb => ?_⟩
        · rw [pairwise_map]
          exact pairwise_of_forall fun _ _ => ⟨rfl, le_rfl⟩
        · obtain ⟨d, hd, ht⟩ := tag_of_mem_remaining ha
          obtain ⟨p, -, rfl⟩ := mem_map.mp hb
          exact hlast d hd _ (mem_singleton_self _) n _ _ ht rfl
      · rw [append_nil]
        exact ih hcalls
    | drop sealed =>
      rw [remaining_concat, leaves]
      exact (ih hcalls).filter _

/-! ## The buffer refines it -/

theorem dropWhile_eq_filter {α : Type*} {p : α → Bool} {l : List α}
    (h : l.Pairwise fun a b => p b = true → p a = true) : l.dropWhile p = l.filter (!p ·) := by
  induction l with
  | nil => rfl
  | cons a l ih =>
    obtain ⟨hhead, htail⟩ := pairwise_cons.mp h
    by_cases ha : p a = true
    · rw [dropWhile_cons_of_pos ha, ih htail, filter_cons_of_neg (by simp [ha])]
    · have hnone : ∀ b ∈ a :: l, (!p b) = true := by
        intro b hb
        rcases mem_cons.mp hb with rfl | hb
        · simpa using ha
        · simpa using fun hpb => ha (hhead b hb hpb)
      rw [dropWhile_cons_of_neg ha, filter_eq_self.mpr hnone]

theorem sealedTag_of_before {sealed : List ℕ} {t t' : Tag} (h : t.Before t')
    (ht : sealedTag sealed t' = true) : sealedTag sealed t = true := by
  obtain ⟨hshard, hepoch⟩ := h
  simp only [sealedTag, Bool.and_eq_true, decide_eq_true_eq, ← hshard] at ht ⊢
  exact ⟨ht.1, hepoch.trans ht.2⟩

/-- **A drop filters**, where the entries are in epoch order. -/
theorem view_dropSealedMetrics_eq {b : MemoryBuffer V} (sealed : List ℕ)
    (h : (b.view name).Pairwise fun a b => a.1.Before b.1) :
    (b.dropSealedMetrics sealed).view name =
      (b.view name).filter fun e => !(removes sealed e.1) := by
  unfold MemoryBuffer.dropSealedMetrics
  split_ifs with hzero
  · simp [removes, hzero]
  · calc ((b.slots name).dropSealed sealed).view
      _ = (b.view name).dropWhile fun e => sealedTag sealed e.1 := Slot.view_dropSealed _ _
      _ = (b.view name).filter fun e => !(sealedTag sealed e.1) :=
        dropWhile_eq_filter (h.imp fun hab => sealedTag_of_before hab)
      _ = (b.view name).filter fun e => !(removes sealed e.1) :=
        filter_congr fun e _ => by simp [removes, hzero]

theorem view_run (h : InEpochOrder calls) (name : String) :
    (MemoryBuffer.run calls).view name = remaining name calls := by
  induction calls using List.reverseRecOn with
  | nil => rfl
  | append_singleton calls c ih =>
    have hcalls : InEpochOrder calls := (pairwise_append.mp h).1
    rw [MemoryBuffer.run_concat]
    cases c with
    | push n points shard epoch =>
      rw [remaining_concat, leaves, ← ih hcalls]
      refine (MemoryBuffer.view_pushMetricsTagged _ n points shard epoch name).trans ?_
      simp only [eq_comm]
    | drop sealed =>
      rw [remaining_concat, leaves, ← ih hcalls]
      refine view_dropSealedMetrics_eq sealed ?_
      rw [ih hcalls]
      exact remaining_ordered hcalls

/-! ## Marks -/

/-- The tag of the last mark at or before index `i`. -/
def governing (ms : List EpochMark) (i : ℕ) : Option Tag :=
  (ms.filter fun m => m.start ≤ i).getLast?.map EpochMark.tag

variable {base n : ℕ} {ms : List EpochMark}

theorem MarksFrom.start_bounds (h : MarksFrom base n ms) :
    ∀ m ∈ ms, base ≤ m.start ∧ m.start < base + n := by
  induction ms generalizing base n with
  | nil => exact nofun
  | cons m ms ih =>
    cases ms with
    | nil =>
      obtain ⟨rfl, hn⟩ := h
      intro m' hm'
      obtain rfl := mem_singleton.mp hm'
      omega
    | cons m' ms =>
      obtain ⟨rfl, hlt, hle, hrest⟩ := h
      intro x hx
      rcases mem_cons.mp hx with rfl | hx
      · omega
      · have := ih hrest x hx
        omega

theorem MarksFrom.starts_rise (h : MarksFrom base n ms) :
    (ms.map EpochMark.start).Pairwise (· < ·) := by
  induction ms generalizing base n with
  | nil => exact .nil
  | cons m ms ih =>
    cases ms with
    | nil => exact pairwise_singleton _ _
    | cons m' ms =>
      obtain ⟨rfl, hlt, -, hrest⟩ := h
      refine List.Pairwise.cons (fun s hs => ?_) (ih hrest)
      obtain ⟨x, hx, rfl⟩ := mem_map.mp hs
      exact hlt.trans_le (hrest.start_bounds x hx).1

theorem governing_tagged {ps : List (DataPoint V)} (h : MarksFrom base ps.length ms) {i : ℕ}
    {e : Tag × DataPoint V} (he : (tagged ms ps)[i]? = some e) :
    governing ms (base + i) = some e.1 := by
  induction ms generalizing base ps i with
  | nil => cases he
  | cons m ms ih =>
    cases ms with
    | nil =>
      obtain ⟨rfl, -⟩ := h
      simp only [tagged, getElem?_map, Option.map_eq_some_iff] at he
      obtain ⟨p, -, rfl⟩ := he
      simp [governing]
    | cons m' ms =>
      have hnext := h.rest.2
      obtain ⟨rfl, hlt, hle, hrest⟩ := h
      have hfirst : (((ps.take (m'.start - m.start)).map fun p => (m.tag, p))).length =
          m'.start - m.start := by
        rw [length_map, length_take]
        omega
      rw [tagged] at he
      by_cases hi : i < m'.start - m.start
      · -- inside the first run: no later mark is at or before the index
        rw [getElem?_append_left (by omega), getElem?_map] at he
        obtain ⟨p, -, rfl⟩ := Option.map_eq_some_iff.mp he
        have hnone : (m' :: ms).filter (fun x => x.start ≤ m.start + i) = [] := by
          refine filter_eq_nil_iff.mpr fun x hx => ?_
          have := (hrest.start_bounds x hx).1
          simp only [decide_eq_true_eq]
          omega
        rw [governing, filter_cons_of_pos (by simp), hnone]
        rfl
      · rw [getElem?_append_right (by omega), hfirst] at he
        have hgov := ih hnext he
        rw [show m'.start + (i - (m'.start - m.start)) = m.start + i by omega] at hgov
        unfold governing at hgov ⊢
        rw [filter_cons_of_pos (by simp)]
        cases hfilter : (m' :: ms).filter (fun x => x.start ≤ m.start + i) with
        | nil =>
          rw [hfilter] at hgov
          cases hgov
        | cons x xs =>
          rw [hfilter] at hgov
          exact hgov

theorem MarksFrom.head_start (h : MarksFrom base n ms) : ∀ m ∈ ms.head?, m.start = base := by
  match ms, h with
  | [], _ => exact nofun
  | [m], h => exact fun x hx => Option.some.inj hx ▸ h.1
  | m :: _ :: _, h => exact fun x hx => Option.some.inj hx ▸ h.1

/-- **Dropping by epoch is exact.** Along a run in epoch order the marks of every slot start at
`0`, rise and lie within the points, the slot holds what was pushed and not removed, in order,
every point is governed by the mark of the epoch it was pushed with, and a drop removes the
points whose epoch is sealed for their shard and no others. -/
theorem epoch_drop_exact (calls : List (MetricCall V)) (h : InEpochOrder calls) (name : String) :
    let buffer := MemoryBuffer.run calls
    let slot := buffer.slots name
    ((slot.marks.map EpochMark.start).Pairwise (· < ·) ∧
      (∀ m ∈ slot.marks.head?, m.start = 0) ∧ ∀ m ∈ slot.marks, m.start < slot.points.length) ∧
    slot.points = (remaining name calls).map Prod.snd ∧
    (∀ i e, (remaining name calls)[i]? = some e → governing slot.marks i = some e.1) ∧
    ∀ sealed, ((buffer.dropSealedMetrics sealed).slots name).points =
      ((remaining name calls).filter fun e => !(removes sealed e.1)).map Prod.snd := by
  intro buffer slot
  have hview : slot.view = remaining name calls := view_run h name
  refine ⟨⟨slot.wf.starts_rise, slot.wf.head_start, fun m hm => ?_⟩, ?_, fun i e he => ?_,
    fun sealed => ?_⟩
  · have := (slot.wf.start_bounds m hm).2
    omega
  · rw [← hview, Slot.view_points]
  · rw [← hview] at he
    have := governing_tagged slot.wf he
    rwa [Nat.zero_add] at this
  · rw [← Slot.view_points, ← hview]
    refine congrArg (List.map Prod.snd) (view_dropSealedMetrics_eq sealed ?_)
    rw [view_run h name]
    exact remaining_ordered h

theorem epoch_drop_exact_two_epochs :
    ((MemoryBuffer.run [.push "up" [⟨1, 10, LabelSet.empty⟩] 0 1,
      .push "up" [⟨2, 20, LabelSet.empty⟩] 0 2]).slots "up").points =
      [⟨1, 10, LabelSet.empty⟩, ⟨2, 20, LabelSet.empty⟩] :=
  (epoch_drop_exact [.push "up" [⟨1, (10 : ℕ), LabelSet.empty⟩] 0 1,
      .push "up" [⟨2, 20, LabelSet.empty⟩] 0 2] (by
    refine .cons (fun d hd => ?_) (pairwise_singleton _ _)
    obtain rfl := mem_singleton.mp hd
    rintro name t t' ⟨⟩ ⟨⟩
    exact ⟨rfl, by decide⟩) "up").2.1

/-- Epoch `0` is at most the `0` that the call gives for shard 0, and the point stays: a call in
which every entry is `0` returns at once. -/
theorem epoch_zero_point_stays :
    InEpochOrder [.push "up" [⟨1, (10 : ℕ), LabelSet.empty⟩] 0 0] ∧
      (((MemoryBuffer.run [.push "up" [⟨1, (10 : ℕ), LabelSet.empty⟩] 0 0]).dropSealedMetrics
        [0]).slots "up").points = [⟨1, 10, LabelSet.empty⟩] :=
  ⟨pairwise_singleton _ _, by decide⟩

end Parqtel.Buffer
