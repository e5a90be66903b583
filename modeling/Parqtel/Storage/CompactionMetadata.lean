import Parqtel.Core.Wal
import Parqtel.Storage.CompactionCrash

/-!
# What a merge does to metadata

The merged block has the label dictionaries of its sources, under a cap, and no WAL span for
`advance_wal_commit` to walk.
-/

namespace Parqtel.Storage

open Parqtel.Lib Parqtel.Ingest Parqtel.Wal List BlockMetadata BlockIndex Sample

/-- What a cap leaves of the values with `P`: only such values, and all of them below the cap. -/
structure Capped (P : String → Prop) (kept : Finset String) : Prop where
  sound : ∀ v ∈ kept, P v
  card_le : kept.card ≤ maxLabelValuesPerField
  complete : kept.card < maxLabelValuesPerField → ∀ v, P v → v ∈ kept

theorem Capped.bounded {P : String → Prop} {kept : Finset String} (h : Capped P kept)
    (values : Finset String) :
    Capped (fun v => P v ∨ v ∈ values) (unionValues.bounded values kept) := by
  simp only [unionValues.bounded, ← Finset.mem_sort (· ≤ ·) (s := values)]
  generalize values.sort (· ≤ ·) = vs
  induction vs generalizing P kept with
  | nil => simpa using h
  | cons v vs ih =>
    have hstep : Capped (fun u => P u ∨ u = v)
        (if maxLabelValuesPerField ≤ kept.card then kept else insert v kept) := by
      split_ifs with hfull
      · exact ⟨by grind [h.sound], h.card_le, by omega⟩
      · have hlt := not_le.mp hfull
        exact ⟨by grind [h.sound], (Finset.card_insert_le v kept).trans hlt,
          by grind [h.complete hlt]⟩
    simpa only [foldl_cons, mem_cons, or_assoc] using ih hstep

def valuesOf (field : String) (dict : List (String × Finset String)) : Finset String :=
  (dict.lookup field).getD ∅

theorem valuesOf_unionValues (f field : String) (values : Finset String)
    (out : List (String × Finset String)) : valuesOf f (unionValues field values out) =
      if field = f then unionValues.bounded values (valuesOf f out) else valuesOf f out := by
  induction out with
  | nil => by_cases h : field = f <;> simp_all [unionValues, valuesOf, lookup_entry, eq_comm]
  | cons e out ih =>
    rw [unionValues]
    by_cases he : e.1 = field <;> by_cases hf : f = e.1 <;>
      simp_all [valuesOf, lookup_entry, eq_comm]

/-- **The dictionary of a merged block.** Under each field are values that a source has there, no
more than the cap, and every such value if they are fewer. -/
theorem unionLabelValues_capped (blocks : List BlockMetadata) (field : String) :
    Capped (fun v => ∃ e ∈ blocks.flatMap labelValues, e.1 = field ∧ v ∈ e.2)
      (valuesOf field (unionLabelValues blocks)) := by
  unfold unionLabelValues
  induction blocks.flatMap labelValues using reverseRecOn with
  | nil => exact ⟨by simp [valuesOf], by simp [valuesOf], by simp⟩
  | append_singleton entries e ih =>
    rw [foldl_append, foldl_cons, foldl_nil, valuesOf_unionValues]
    split_ifs with hfield
    · convert ih.bounded e.2 using 2 with v
      simp [or_and_right, exists_or, hfield]
    · simpa [or_and_right, exists_or, hfield] using ih

/-! ## Coverage of the log -/

namespace Compactor

variable {R : Type*} {env : Compactor R} {s s' : CompactionState R} {ix : BlockIndex}

def spans (ix : BlockIndex) : List WalRange :=
  ix.blocks.filterMap walRange

def coverage (commit : ℕ) (ix : BlockIndex) : ℕ :=
  coveredThrough commit (spans ix)

def coming : Option (Merge R) → Option (Block R)
  | some ⟨_, .writing b⟩ | some ⟨_, .written b⟩ | some ⟨_, .renamed b⟩ => some b
  | _ => none

def NoNewSpans (ix : BlockIndex) (s : CompactionState R) : Prop :=
  (∀ m ∈ s.index.blocks, m ∈ ix.blocks ∨ m.walRange = none) ∧
  ∀ b ∈ coming s.merge, b.metadata.walRange = none

theorem NoNewSpans.step {e : CompactionEvent} (h : NoNewSpans ix s)
    (hs : env.step s e = some s') : NoNewSpans ix s' := by
  cases e with
  | start =>
    obtain ⟨-, rfl⟩ := start_cases hs
    exact ⟨h.1, by simp [coming]⟩
  | beginWrite =>
    obtain ⟨_, -, ⟨-, rfl⟩ | ⟨b, hb, rfl⟩⟩ := beginWrite_cases hs
    · refine ⟨fun m hm => ?_, by simp [coming]⟩
      simpa using (mem_replace.mp hm).imp_left fun hm => h.1 m hm.1
    · obtain ⟨_, -, hw⟩ := mergeSources_writes hb
      obtain ⟨_, _, -, rfl⟩ := writeMerged_ok hw
      exact ⟨h.1, by rintro _ ⟨⟩; rfl⟩
  | finishWrite =>
    obtain ⟨_, b, hm, rfl⟩ := finishWrite_cases hs
    exact ⟨h.1, (congrArg coming hm ▸ h.2 :)⟩
  | rename =>
    obtain ⟨_, b, hm, rfl⟩ := rename_cases hs
    exact ⟨h.1, (congrArg coming hm ▸ h.2 :)⟩
  | publish =>
    obtain ⟨_, b, hm, rfl⟩ := publish_cases hs
    refine ⟨fun m hmem => ?_, by simp [coming]⟩
    obtain hmem | hmem := mem_replace.mp hmem
    · exact h.1 m hmem.1
    · exact .inr (Option.some.inj hmem ▸ h.2 b (congrArg coming hm))
  | delete =>
    obtain ⟨_, _, _, _, -, rfl⟩ := delete_cases hs
    exact ⟨h.1, by simp [coming]⟩
  | persist => cases hs; exact h

/-- **Merges never extend the coverage of the log.** At every point of a run of merges it is what
it was before if and only if the walk does not end within a span that left the index. -/
theorem coverage_of_merges (env : Compactor R) (hnone : coming s.merge = none)
    (hrun : Reach env.step s s') (commit : ℕ) :
    coverage commit s'.index ≤ coverage commit s.index ∧
    (coverage commit s'.index = coverage commit s.index ↔
      ∀ r ∈ spans s.index, r ∉ spans s'.index →
        r.1 ≤ coverage commit s'.index → r.2 ≤ coverage commit s'.index) := by
  have hnew : NoNewSpans s.index s' :=
    hrun.inv ⟨fun m => .inl, by simp [hnone]⟩ fun _ _ _ h _ => h.step
  have hsub : spans s'.index ⊆ spans s.index := by
    intro r hr
    obtain ⟨m, hm, hr⟩ := mem_filterMap.mp hr
    obtain hm | hm := hnew.1 m hm
    · exact mem_filterMap.mpr ⟨m, hm, hr⟩
    · cases hm.symm.trans hr
  have hle := coveredThrough_mono (le_refl commit) hsub
  refine ⟨hle, fun heq r hr _ => ?_, fun hleft => hle.antisymm ?_⟩
  · rw [heq]
    exact coveredThrough_stuck commit _ r hr
  · refine (reached_coveredThrough commit _).le_of_stuck (le_coveredThrough _ _) fun r hr => ?_
    by_cases hin : r ∈ spans s'.index
    · exact coveredThrough_stuck commit _ r hin
    · exact hleft r hr hin

def spanState : CompactionState (MetricRow Unit) :=
  let blocks := metricState.index.blocks.map ({ · with walRange := some (0, 10) })
  { metricState with index := .ofBlocks [] blocks }

/-- The span of two blocks, merged. -/
theorem coverage_of_merges_forgotten : ∃ s, Reach metricCompactor.step spanState s ∧
    coverage 0 s.index < coverage 0 spanState.index := by
  obtain ⟨s, hrun, hne⟩ := exists_run metricCompactor.step (fun _ _ => True) spanState
    (fun s => coverage 0 s.index ≠ coverage 0 spanState.index)
    (mergeTwo spanState.index "m") (by decide)
  exact ⟨s, hrun, (coverage_of_merges metricCompactor rfl hrun 0).1.lt_of_ne hne⟩

end Compactor

end Parqtel.Storage
