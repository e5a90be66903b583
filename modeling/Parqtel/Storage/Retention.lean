import Parqtel.Lib.Outcome
import Parqtel.Query.Platform
import Parqtel.Storage.Index

/-!
# Retention

`enforce` selects the blocks that ended before the cutoff, unlinks their files while other
tasks go on adding blocks, and then drops from the index whatever has ended before the
cutoff. The last step looks at the entries again and not at what was unlinked: it drops an
entry whose file could not be deleted, and one that came in too late to be selected
(`removes_deleted_iff`).
-/

namespace Parqtel.Storage

open Parqtel.Lib (ok_bind bind_eq_ok)
open Parqtel.Query (Build Eval InI64 i64 i64_debug_eq_ok i64_release bmod_inI64 bmod_of_in)

/-! ## The cutoff -/

def dayNs : ℤ := 24 * 3600 * 1000000000

def cutoff (build : Build) (nowNs : ℤ) (retentionDays : UInt64) : Eval ℤ := do
  let hours ← i64 build ((retentionDays.toNat : ℤ).bmod (2 ^ 64) * 24)
  let seconds ← i64 build (hours * 3600)
  let ns ← i64 build (seconds * 1000000000)
  i64 build (nowNs - ns)

def retainedFrom (nowNs : ℤ) (retentionDays : UInt64) : ℤ := nowNs - retentionDays.toNat * dayNs

/-- `as i64` is exact below half the range, and a negative number above it. -/
theorem bmod_toNat (n : UInt64) :
    (n.toNat : ℤ).bmod (2 ^ 64) = if n.toNat < 2 ^ 63 then (n.toNat : ℤ) else n.toNat - 2 ^ 64 := by
  have hn := n.toNat_lt
  split_ifs with h
  · exact Int.bmod_eq_of_le (by omega) (by omega)
  · rw [← Int.sub_bmod_right, Int.bmod_eq_of_le] <;> push_cast <;> omega

/-- In a debug build a cutoff is right for 106751 days at most, the number of days in `i64`
nanoseconds. A release build wraps, and what leaves the range may come back. -/
theorem cutoff_eq_iff {build : Build} {nowNs : ℤ} {retentionDays : UInt64} :
    cutoff build nowNs retentionDays = .ok (retainedFrom nowNs retentionDays) ↔
      (build = .debug → retentionDays.toNat ≤ 106751) ∧
        InI64 (retainedFrom nowNs retentionDays) := by
  cases build with
  | debug =>
    unfold cutoff retainedFrom dayNs
    simp only [bind_eq_ok, i64_debug_eq_ok, and_assoc, exists_eq_left, bmod_toNat, forall_true_left]
    unfold InI64
    split_ifs <;> constructor <;> intro h <;> omega
  | release =>
    have hwraps : cutoff .release nowNs retentionDays =
        .ok ((retainedFrom nowNs retentionDays).bmod (2 ^ 64)) := by
      simp only [cutoff, i64_release, ok_bind, Int.bmod_mul_bmod, mul_assoc]
      rw [Int.sub_bmod_bmod, retainedFrom, dayNs, mul_assoc]
    rw [hwraps, Except.ok.injEq, and_iff_right nofun]
    exact ⟨fun h => h ▸ bmod_inI64 _, bmod_of_in⟩

/-! ## A sweep -/

structure Shelf where
  index : BlockIndex
  files : Finset Path

/-- What happens while a sweep unlinks files: the attempts of the sweep itself, of which any
may fail, and blocks that other tasks publish. -/
inductive Event where
  | unlink (path : Path) (fails : Bool)
  | add (block : BlockMetadata)
deriving DecidableEq

def Event.unlinked : Event → Option Path
  | unlink path _ => some path
  | add _ => none

namespace Shelf

/-- A file that is not there counts as deleted; a block's file is written before it is added. -/
def step (s : Shelf) : Event → Shelf
  | .unlink path fails => if fails then s else { s with files := s.files.erase path }
  | .add block => { index := s.index.add block, files := insert block.path s.files }

def run (s : Shelf) (events : List Event) : Shelf := events.foldl step s

def toDelete (cutoff : ℤ) (s : Shelf) : List Path :=
  (s.index.blocks.filter fun b => b.endTimestampNs < cutoff).map BlockMetadata.path

def publish (cutoff : ℤ) (s : Shelf) : Shelf where
  index := ⟨s.index.blocks.filter fun b => ¬ b.endTimestampNs < cutoff, s.index.dataDir,
    s.index.sorted.filter _⟩
  files := s.files

def enforce (build : Build) (nowNs : ℤ) (retentionDays : UInt64) (events : List Event)
    (s : Shelf) : Eval Shelf := do
  let cutoff ← cutoff build nowNs retentionDays
  if s.toDelete cutoff = [] then return s.run events
  return (s.run events).publish cutoff

variable {s : Shelf} {path : Path}

@[simp] theorem mem_publish {cutoff : ℤ} {b : BlockMetadata} :
    b ∈ (s.publish cutoff).index.blocks ↔ b ∈ s.index.blocks ∧ ¬ b.endTimestampNs < cutoff := by
  simp [publish]

@[simp] theorem publish_files (cutoff : ℤ) (s : Shelf) : (s.publish cutoff).files = s.files := rfl

theorem mem_toDelete {cutoff : ℤ} : path ∈ s.toDelete cutoff ↔
      ∃ b ∈ s.index.blocks, b.endTimestampNs < cutoff ∧ b.path = path := by
  simp [toDelete, and_assoc]

/-! ### What a run of events leaves -/

theorem mem_run {b : BlockMetadata} (events : List Event) (s : Shelf) :
    b ∈ (s.run events).index.blocks ↔ b ∈ s.index.blocks ∨ .add b ∈ events := by
  induction events generalizing s with
  | nil => simp [run]
  | cons e es ih =>
    refine (ih (s.step e)).trans ?_
    cases e with
    | unlink path fails => cases fails <;> simp [step]
    | add block => simp [step, BlockIndex.mem_add, or_assoc]

variable {events : List Event}

theorem file_run_of_old (h : ∀ b, .add b ∈ events → b.path ≠ path) :
    path ∈ (s.run events).files ↔ path ∈ s.files ∧ .unlink path false ∉ events := by
  induction events generalizing s with
  | nil => simp [run]
  | cons e es ih =>
    refine (ih fun b hb => h b (.tail _ hb)).trans ?_
    cases e with
    | unlink p fails =>
      cases fails with
      | true => simp [step]
      | false =>
        simp only [step, Bool.false_eq_true, if_false, Finset.mem_erase, List.mem_cons,
          Event.unlink.injEq, and_true, not_or]
        tauto
    | add block =>
      have hne := h block (.head _)
      simp [step, hne.symm]

theorem file_run_of_kept (h : path ∉ events.filterMap Event.unlinked) :
    path ∈ s.files ∨ (∃ b, .add b ∈ events ∧ b.path = path) → path ∈ (s.run events).files := by
  induction events generalizing s with
  | nil => simp [run]
  | cons e es ih =>
    intro hp
    cases e with
    | unlink p fails =>
      have h' : path ≠ p ∧ path ∉ es.filterMap Event.unlinked := by
        simpa [Event.unlinked, not_or] using h
      refine ih h'.2 ?_
      cases fails <;> simpa [step, h'.1] using hp
    | add block =>
      have h' : path ∉ es.filterMap Event.unlinked := by simpa [Event.unlinked] using h
      refine ih h' ?_
      rcases hp with hp | ⟨b, hb, rfl⟩
      · exact .inl (by simp [step, hp])
      · rcases List.mem_cons.mp hb with hb | hb
        · cases hb
          exact .inl (by simp [step])
        · exact .inr ⟨b, hb, rfl⟩

/-! ## What retention removes -/

/-- The sweep computes its cutoff, drops entries only, and only those of blocks that have
ended before the retained time and whose files are gone. -/
def RemovesDeleted (build : Build) (nowNs : ℤ) (retentionDays : UInt64) (events : List Event)
    (s : Shelf) : Prop :=
  cutoff build nowNs retentionDays = .ok (retainedFrom nowNs retentionDays) ∧
  ∃ after, s.enforce build nowNs retentionDays events = .ok after ∧
    after.index.blocks.Sublist (s.run events).index.blocks ∧
    ∀ b ∈ (s.run events).index.blocks, b ∉ after.index.blocks →
      b.endTimestampNs < retainedFrom nowNs retentionDays ∧ b.path ∉ after.files

/-- No attempt leaves a file that was there, and no block comes in that has ended before the
retained time already. -/
def Clean (from_ : ℤ) (events : List Event) (s : Shelf) : Prop :=
  (∀ path ∈ s.files, .unlink path true ∈ events → .unlink path false ∈ events) ∧
  ∀ b, .add b ∈ events → from_ ≤ b.endTimestampNs

/-- At the end every block past the retained time has lost its file exactly if the sweep was
clean. -/
theorem gone_iff_clean {from_ : ℤ} (hunlinks : events.filterMap Event.unlinked = s.toDelete from_)
    (hfresh : ∀ b, .add b ∈ events → b.path ∉ s.index.blocks.map BlockMetadata.path) :
    (∀ b ∈ (s.run events).index.blocks, b.endTimestampNs < from_ →
      b.path ∉ (s.run events).files) ↔ Clean from_ events s := by
  have hattempt : ∀ path, path ∈ s.toDelete from_ ↔ ∃ fails, .unlink path fails ∈ events := by
    intro path
    rw [← hunlinks, List.mem_filterMap]
    constructor
    · rintro ⟨e, he, hp⟩
      cases e with
      | unlink p fails =>
        cases hp
        exact ⟨fails, he⟩
      | add b => cases hp
    · rintro ⟨fails, he⟩
      exact ⟨_, he, rfl⟩
  have hold : ∀ path ∈ s.toDelete from_, ∀ b, .add b ∈ events → b.path ≠ path := by
    rintro path hpath b hb rfl
    obtain ⟨c, hc, -, hcb⟩ := mem_toDelete.mp hpath
    exact hfresh b hb (hcb ▸ List.mem_map_of_mem hc)
  constructor
  · intro hgone
    refine ⟨fun path hfile hfails => ?_, fun b hb => ?_⟩
    · have hsel := (hattempt path).mpr ⟨true, hfails⟩
      obtain ⟨b, hb, hend, rfl⟩ := mem_toDelete.mp hsel
      have := hgone b ((mem_run events s).mpr (.inl hb)) hend
      rw [file_run_of_old (hold _ hsel)] at this
      tauto
    · by_contra hlt
      refine hgone b ((mem_run events s).mpr (.inr hb)) (by omega) ?_
      refine file_run_of_kept ?_ (.inr ⟨b, hb, rfl⟩)
      rw [hunlinks]
      exact fun hsel => hold _ hsel b hb rfl
  · rintro ⟨hunlink, hadd⟩ b hb hend
    rcases (mem_run events s).mp hb with hb | hb
    · have hsel := mem_toDelete.mpr ⟨b, hb, hend, rfl⟩
      rw [file_run_of_old (hold _ hsel)]
      rintro ⟨hfile, hnot⟩
      obtain ⟨fails, hf⟩ := (hattempt _).mp hsel
      cases fails with
      | true => exact hnot (hunlink _ hfile hf)
      | false => exact hnot hf
    · have := hadd b hb
      omega

/-- **What retention removes is deleted exactly if** the retained days fit in 64 bits of
nanoseconds and a sweep that deletes at all is clean. -/
theorem removes_deleted_iff {build : Build} {nowNs : ℤ} {retentionDays : UInt64}
    {events : List Event} {s : Shelf}
    (hunlinks : events.filterMap Event.unlinked = s.toDelete (retainedFrom nowNs retentionDays))
    (hfresh : ∀ b, .add b ∈ events → b.path ∉ s.index.blocks.map BlockMetadata.path) :
    s.RemovesDeleted build nowNs retentionDays events ↔
      ((build = .debug → retentionDays.toNat ≤ 106751) ∧ InI64 (retainedFrom nowNs retentionDays)) ∧
      (s.toDelete (retainedFrom nowNs retentionDays) ≠ [] →
        Clean (retainedFrom nowNs retentionDays) events s) := by
  unfold RemovesDeleted
  rw [cutoff_eq_iff]
  refine and_congr_right fun hfit => ?_
  have hcut := cutoff_eq_iff.mpr hfit
  by_cases hnone : s.toDelete (retainedFrom nowNs retentionDays) = []
  · -- nothing is selected: the sweep returns before it looks at the index again
    have hrun : s.enforce build nowNs retentionDays events = .ok (s.run events) := by
      simp only [enforce, hcut, hnone, ok_bind, if_true]
      rfl
    simp only [hrun, Except.ok.injEq, ↓existsAndEq, true_and, hnone, ne_eq, not_true_eq_false,
      false_imp_iff, iff_true]
    exact ⟨List.Sublist.refl _, fun b hb hmissing => absurd hb hmissing⟩
  · have hrun : s.enforce build nowNs retentionDays events =
        .ok ((s.run events).publish (retainedFrom nowNs retentionDays)) := by
      simp only [enforce, hcut, hnone, ok_bind, if_false]
      rfl
    have hsub : ((s.run events).publish (retainedFrom nowNs retentionDays)).index.blocks.Sublist
        (s.run events).index.blocks := List.filter_sublist
    rw [← gone_iff_clean hunlinks hfresh]
    simp only [hrun, Except.ok.injEq, ↓existsAndEq, true_and, hsub, publish_files, mem_publish,
      ne_eq, hnone, not_false_eq_true, forall_true_left]
    refine forall₂_congr fun b hb => ?_
    simp only [hb, true_and, not_not]
    exact ⟨fun h hend => (h hend).2, fun h hend => ⟨hend, h hend⟩⟩

def oneOld : Shelf where
  index := .ofBlocks [] [Sample.block "old" 0 5]
  files := {(Sample.block "old" 0 5).path}

/-- Two days on, a block that is a day old comes in while the old one is deleted. -/
theorem removes_deleted_one_day :
    oneOld.RemovesDeleted .debug (2 * dayNs) 1
      [.add (Sample.block "new" dayNs dayNs),
        .unlink (Sample.block "old" 0 5).path false] := by
  refine (removes_deleted_iff (by decide) ?_).mpr ⟨by decide, fun _ => ⟨by decide, ?_⟩⟩
  · intro b hb
    obtain rfl : b = Sample.block "new" dayNs dayNs := by simpa using hb
    decide
  · intro b hb
    obtain rfl : b = Sample.block "new" dayNs dayNs := by simpa using hb
    decide

/-- An entry is dropped although its file could not be deleted; so is the entry of an old
block that came in during the sweep. Above 106751 days a debug build stops, and a release
build may put the cutoff after the present. -/
theorem files_orphaned :
    (oneOld.enforce .debug (2 * dayNs) 1 [.unlink (Sample.block "old" 0 5).path true]).map
        (fun s => (s.index.blocks, s.files)) =
      .ok ([], {(Sample.block "old" 0 5).path}) ∧
    (oneOld.enforce .debug (2 * dayNs) 1 [.unlink (Sample.block "old" 0 5).path false,
          .add (Sample.block "late" 1 6)]).map (fun s => (s.index.blocks, s.files)) =
      .ok ([], {(Sample.block "late" 1 6).path}) ∧
    cutoff .debug 1700000000000000000 106752 = .error .overflow ∧
    cutoff .release 1700000000000000000 200000 = .ok 2866744073709551616 := by
  decide +kernel

end Shelf

end Parqtel.Storage
