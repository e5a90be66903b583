import Parqtel.Lib.Run
import Parqtel.Storage.Index

/-!
# Persisting the index

The index task adds a block, marks the store dirty, calls `persist_once` and acknowledges
the block; the persist loop calls `persist_once` on its own. A pass takes the dirty flag,
serialises the index under the read lock and writes the sidecar without a lock, through one
temporary file. Nothing makes the acknowledgement wait for a pass of the loop: the flag may
be taken by a pass that has not written yet, and a pass that was slow may write an older
index over a newer one. `acked_blocks_persisted` says when the handshake works.
-/

namespace Parqtel.Storage

open Parqtel.Lib

/-! ## The machine -/

inductive Persister where
  | index | loop
deriving DecidableEq

inductive Pass where
  | begun
  | captured (payload : List BlockMetadata)
  /-- The temporary file is written. -/
  | staged (payload : List BlockMetadata)
deriving DecidableEq

inductive IndexTask where
  | waiting
  /-- Added to the index; the store is not marked yet. -/
  | added (m : BlockMetadata) (tracked : Bool)
  /-- About to call `persist_once`. -/
  | marked (m : BlockMetadata)
  | persisting (m : BlockMetadata) (pass : Pass)
  /-- About to acknowledge. -/
  | persisted (m : BlockMetadata)
deriving DecidableEq

structure PersistState where
  index : BlockIndex
  dirty : Bool
  /-- The file that `write_payload` renames. -/
  tmp : Option (List BlockMetadata)
  sidecar : Sidecar
  task : IndexTask
  /-- The pass of the persist loop. -/
  loop : Option Pass
  /-- The blocks acknowledged so far. -/
  acked : List BlockMetadata

inductive PersistEvent where
  /-- The index task receives a block and adds it. -/
  | add (m : BlockMetadata) (tracked : Bool)
  | markDirty
  | begin (t : Persister)
  | capture (t : Persister)
  | stage (t : Persister)
  | rename (t : Persister)
  /-- Serialising, writing or renaming fails. -/
  | fail (t : Persister)
  | ack

namespace PersistState

variable (s : PersistState)

def pass : Persister → Option Pass
  | .index =>
    match s.task with
    | .persisting _ pass => some pass
    | _ => none
  | .loop => s.loop

def withPass : Persister → Option Pass → PersistState
  | .index, pass =>
    match s.task, pass with
    | .persisting m _, some pass => { s with task := .persisting m pass }
    | .persisting m _, none => { s with task := .persisted m }
    | _, _ => s
  | .loop, pass => { s with loop := pass }

def addBlock (m : BlockMetadata) (tracked : Bool) : Option PersistState :=
  match s.task with
  | .waiting => some { s with index := s.index.add m, task := .added m tracked }
  | _ => none

def markDirty : Option PersistState :=
  match s.task with
  | .added m tracked =>
    some { s with dirty := true, task := if tracked then .marked m else .waiting }
  | _ => none

/-- `persist_once` takes the flag, and returns at once if it was not set. -/
def begin : Persister → Option PersistState
  | .index =>
    match s.task with
    | .marked m => some { s with
        dirty := false
        task := if s.dirty then .persisting m .begun else .persisted m }
    | _ => none
  | .loop =>
    match s.loop with
    | none => some { s with dirty := false, loop := if s.dirty then some .begun else none }
    | some _ => none

def capture (t : Persister) : Option PersistState :=
  match s.pass t with
  | some .begun => some (s.withPass t (some (.captured s.index.blocks)))
  | _ => none

def stage (t : Persister) : Option PersistState :=
  match s.pass t with
  | some (.captured payload) =>
    some ({ s with tmp := some payload }.withPass t (some (.staged payload)))
  | _ => none

def rename (t : Persister) : Option PersistState :=
  match s.pass t, s.tmp with
  | some (.staged _), some content =>
    some ({ s with sidecar := .payload content, tmp := none }.withPass t none)
  | _, _ => none

def fail (t : Persister) : Option PersistState :=
  match s.pass t with
  | some _ => some ({ s with dirty := true }.withPass t none)
  | none => none

def ack : Option PersistState :=
  match s.task with
  | .persisted m => some { s with task := .waiting, acked := m :: s.acked }
  | _ => none

def step (s : PersistState) : PersistEvent → Option PersistState
  | .add m tracked => s.addBlock m tracked
  | .markDirty => s.markDirty
  | .begin t => s.begin t
  | .capture t => s.capture t
  | .stage t => s.stage t
  | .rename t => s.rename t
  | .fail t => s.fail t
  | .ack => s.ack

end PersistState

/-! ## The property -/

def Sidecar.blocks : Sidecar → List BlockMetadata
  | .payload blocks => blocks
  | .absent | .unreadable => []

namespace PersistState

def Durable (s : PersistState) : Prop := ∀ m ∈ s.acked, m ∈ s.sidecar.blocks

instance (s : PersistState) : Decidable s.Durable := inferInstanceAs (Decidable (∀ m ∈ _, _))

/-- Both tasks are between two passes, and nothing was acknowledged. -/
structure Started (s : PersistState) : Prop where
  task : s.task = .waiting
  loop : s.loop = none
  acked : s.acked = []

/-- The index task calls `persist_once` between two passes of the loop, and its passes succeed. -/
def serialOk (s : PersistState) : PersistEvent → Prop
  | .begin .index => s.loop = none
  | .fail .index => False
  | _ => True

instance (s : PersistState) (e : PersistEvent) : Decidable (s.serialOk e) := by
  unfold serialOk
  split <;> infer_instance

/-! ## The invariant -/

def PassOk (s : PersistState) (ms : List BlockMetadata) : Pass → Prop
  | .begun => True
  | .captured payload => ms ⊆ payload
  | .staged payload => ms ⊆ payload ∧ s.tmp = some payload

def Carries (m : BlockMetadata) : Pass → Prop
  | .begun => True
  | .captured payload | .staged payload => m ∈ payload

/-- The block is in the sidecar, or the next pass to end puts it there. -/
def OnTheWay (s : PersistState) (m : BlockMetadata) : Prop :=
  s.dirty = true ∨ (∃ pass ∈ s.loop, Carries m pass) ∨ s.loop = none ∧ m ∈ s.sidecar.blocks

def TaskOk (s : PersistState) : IndexTask → Prop
  | .waiting => True
  | .added m _ => m ∈ s.index.blocks
  | .marked m => m ∈ s.index.blocks ∧ s.OnTheWay m
  | .persisting m pass =>
    m ∈ s.index.blocks ∧ s.loop = none ∧ s.dirty = false ∧ s.PassOk (m :: s.acked) pass
  | .persisted m =>
    m ∈ s.index.blocks ∧ s.loop = none ∧ s.dirty = false ∧ m ∈ s.sidecar.blocks

structure HandshakeInv (s : PersistState) : Prop where
  durable : s.Durable
  indexed : ∀ m ∈ s.acked, m ∈ s.index.blocks
  loop : ∀ pass ∈ s.loop, s.PassOk s.acked pass
  task : s.TaskOk s.task

variable {s s' : PersistState}

theorem HandshakeInv.addBlock {m : BlockMetadata} {tracked : Bool} (h : HandshakeInv s)
    (hstep : s.addBlock m tracked = some s') : HandshakeInv s' := by
  unfold PersistState.addBlock at hstep
  split at hstep
  · cases hstep
    exact ⟨h.durable, fun m' hm' => BlockIndex.mem_add.mpr (.inl (h.indexed m' hm')), h.loop,
      BlockIndex.mem_add.mpr (.inr rfl)⟩
  · cases hstep

theorem HandshakeInv.markDirty (h : HandshakeInv s) (hstep : s.markDirty = some s') :
    HandshakeInv s' := by
  unfold PersistState.markDirty at hstep
  split at hstep
  · next m tracked htask =>
    have hm : m ∈ s.index.blocks := by simpa [htask, TaskOk] using h.task
    cases hstep
    refine ⟨h.durable, h.indexed, h.loop, ?_⟩
    cases tracked with
    | true => exact ⟨hm, .inl rfl⟩
    | false => trivial
  · cases hstep

theorem HandshakeInv.beginIndex (h : HandshakeInv s) (hloop : s.loop = none)
    (hstep : s.begin .index = some s') : HandshakeInv s' := by
  unfold PersistState.begin at hstep
  dsimp only at hstep
  split at hstep
  · next m htask =>
    obtain ⟨hm, hway⟩ : m ∈ s.index.blocks ∧ s.OnTheWay m := by simpa [htask, TaskOk] using h.task
    cases hstep
    refine ⟨h.durable, h.indexed, h.loop, ?_⟩
    cases hdirty : s.dirty with
    | true => exact ⟨hm, hloop, rfl, trivial⟩
    | false =>
      -- the flag was taken by a pass of the loop, and that pass is over
      rcases hway with hd | ⟨pass, hpass, -⟩ | ⟨-, hside⟩
      · rw [hdirty] at hd
        cases hd
      · rw [hloop] at hpass
        cases hpass
      · exact ⟨hm, hloop, rfl, hside⟩
  · cases hstep

theorem HandshakeInv.beginLoop (h : HandshakeInv s) (hstep : s.begin .loop = some s') :
    HandshakeInv s' := by
  unfold PersistState.begin at hstep
  dsimp only at hstep
  split at hstep
  · next hloop =>
    cases hstep
    have htask := h.task
    cases hdirty : s.dirty with
    | true =>
      refine ⟨h.durable, h.indexed, fun pass hpass => ?_, ?_⟩
      · cases hpass
        trivial
      · show TaskOk _ s.task
        cases ht : s.task with
        | waiting => trivial
        | added m tracked => rwa [ht] at htask
        | marked m =>
          rw [ht] at htask
          exact ⟨htask.1, .inr (.inl ⟨.begun, rfl, trivial⟩)⟩
        | persisting m pass =>
          rw [ht] at htask
          exact absurd (hdirty.symm.trans htask.2.2.1) (by decide)
        | persisted m =>
          rw [ht] at htask
          exact absurd (hdirty.symm.trans htask.2.2.1) (by decide)
    | false =>
      have hsame : { s with dirty := false, loop := none } = s := by rw [← hdirty, ← hloop]
      show HandshakeInv { s with dirty := false, loop := none }
      rwa [hsame]
  · cases hstep

variable {pass : Pass}

theorem TaskOk.of_loop (h : s.TaskOk s.task) (hloop : s.loop = some pass) (hix : s'.index = s.index)
    (htask : s'.task = s.task) (hway : ∀ m ∈ s.index.blocks, s.OnTheWay m → s'.OnTheWay m) :
    s'.TaskOk s'.task := by
  rw [htask]
  cases ht : s.task with
  | waiting => trivial
  | added m tracked =>
    rw [ht] at h
    show m ∈ s'.index.blocks
    exact hix ▸ h
  | marked m =>
    rw [ht] at h
    exact ⟨hix ▸ h.1, hway m h.1 h.2⟩
  | persisting m pass' =>
    rw [ht] at h
    cases hloop.symm.trans h.2.1
  | persisted m =>
    rw [ht] at h
    cases hloop.symm.trans h.2.1

theorem OnTheWay.advance {m : BlockMetadata} (h : s.OnTheWay m) (pass' : Pass)
    (hloop : s.loop = some pass) (hcarry : Carries m pass → Carries m pass')
    (hdirty : s'.dirty = s.dirty) (hloop' : s'.loop = some pass') : s'.OnTheWay m := by
  rcases h with hd | ⟨q, hq, hc⟩ | ⟨hnone, -⟩
  · exact .inl (hdirty.trans hd)
  · obtain rfl : pass = q := Option.some.inj (hloop.symm.trans hq)
    exact .inr (.inl ⟨pass', hloop', hcarry hc⟩)
  · cases hloop.symm.trans hnone

theorem exists_of_pass (h : s.pass .index = some pass) : ∃ m, s.task = .persisting m pass := by
  unfold PersistState.pass at h
  dsimp only at h
  split at h
  · next m p ht =>
    cases h
    exact ⟨m, ht⟩
  · cases h

variable {t : Persister}

theorem HandshakeInv.capture (h : HandshakeInv s) (hstep : s.capture t = some s') :
    HandshakeInv s' := by
  unfold PersistState.capture at hstep
  split at hstep
  · next hpass =>
    cases hstep
    cases t with
    | index =>
      obtain ⟨m, ht⟩ := exists_of_pass hpass
      obtain ⟨hm, hloop, hdirty, -⟩ : TaskOk s (.persisting m .begun) := ht ▸ h.task
      simp only [withPass, ht]
      exact ⟨h.durable, h.indexed, h.loop, hm, hloop, hdirty,
        List.cons_subset.mpr ⟨hm, h.indexed⟩⟩
    | loop =>
      have hloop : s.loop = some .begun := hpass
      refine ⟨h.durable, h.indexed, fun pass hp => ?_, ?_⟩
      · cases hp
        exact h.indexed
      · exact h.task.of_loop hloop rfl rfl fun m hm hway =>
          hway.advance (.captured s.index.blocks) hloop (fun _ => hm) rfl rfl
  · cases hstep

theorem HandshakeInv.stage (h : HandshakeInv s) (hstep : s.stage t = some s') :
    HandshakeInv s' := by
  unfold PersistState.stage at hstep
  split at hstep
  · next payload hpass =>
    cases hstep
    cases t with
    | index =>
      obtain ⟨m, ht⟩ := exists_of_pass hpass
      obtain ⟨hm, hloop, hdirty, hsub⟩ : TaskOk s (.persisting m (.captured payload)) := ht ▸ h.task
      simp only [withPass, ht]
      refine ⟨h.durable, h.indexed, fun pass hp => ?_, hm, hloop, hdirty, hsub, rfl⟩
      cases hloop.symm.trans hp
    | loop =>
      have hloop : s.loop = some (.captured payload) := hpass
      have hsub : s.acked ⊆ payload := h.loop _ hloop
      refine ⟨h.durable, h.indexed, fun pass hp => ?_, ?_⟩
      · cases hp
        exact ⟨hsub, rfl⟩
      · exact h.task.of_loop hloop rfl rfl fun m _ hway =>
          hway.advance (.staged payload) hloop id rfl rfl
  · cases hstep

theorem HandshakeInv.rename (h : HandshakeInv s) (hstep : s.rename t = some s') :
    HandshakeInv s' := by
  unfold PersistState.rename at hstep
  split at hstep
  · next payload content hpass htmp =>
    cases hstep
    cases t with
    | index =>
      obtain ⟨m, ht⟩ := exists_of_pass hpass
      obtain ⟨hm, hloop, hdirty, hsub, hown⟩ : TaskOk s (.persisting m (.staged payload)) :=
        ht ▸ h.task
      obtain rfl : content = payload := Option.some.inj (htmp.symm.trans hown)
      obtain ⟨hmem, hacked⟩ := List.cons_subset.mp hsub
      simp only [withPass, ht]
      refine ⟨fun m' hm' => hacked hm', h.indexed, fun pass hp => ?_, hm, hloop, hdirty, hmem⟩
      cases hloop.symm.trans hp
    | loop =>
      have hloop : s.loop = some (.staged payload) := hpass
      obtain ⟨hsub, hown⟩ : s.acked ⊆ payload ∧ s.tmp = some payload := h.loop _ hloop
      obtain rfl : content = payload := Option.some.inj (htmp.symm.trans hown)
      refine ⟨fun m' hm' => hsub hm', h.indexed, nofun, ?_⟩
      refine h.task.of_loop hloop rfl rfl fun m _ hway => ?_
      rcases hway with hd | ⟨pass, hp, hc⟩ | ⟨hnone, -⟩
      · exact .inl hd
      · cases hloop.symm.trans hp
        exact .inr (.inr ⟨rfl, hc⟩)
      · cases hloop.symm.trans hnone
  · cases hstep

theorem HandshakeInv.failLoop (h : HandshakeInv s) (hstep : s.fail .loop = some s') :
    HandshakeInv s' := by
  unfold PersistState.fail at hstep
  split at hstep
  · next pass hpass =>
    cases hstep
    have hloop : s.loop = some pass := hpass
    exact ⟨h.durable, h.indexed, nofun, h.task.of_loop hloop rfl rfl fun m _ _ => .inl rfl⟩
  · cases hstep

theorem HandshakeInv.ack (h : HandshakeInv s) (hstep : s.ack = some s') : HandshakeInv s' := by
  unfold PersistState.ack at hstep
  split at hstep
  · next m ht =>
    cases hstep
    obtain ⟨hm, hloop, -, hside⟩ : TaskOk s (.persisted m) := ht ▸ h.task
    refine ⟨List.forall_mem_cons.mpr ⟨hside, h.durable⟩,
      List.forall_mem_cons.mpr ⟨hm, h.indexed⟩, fun pass hp => ?_, trivial⟩
    cases hloop.symm.trans hp
  · cases hstep

theorem HandshakeInv.step {e : PersistEvent} (h : HandshakeInv s) (hok : s.serialOk e)
    (hstep : s.step e = some s') : HandshakeInv s' := by
  cases e with
  | add m tracked => exact h.addBlock hstep
  | markDirty => exact h.markDirty hstep
  | begin t =>
    cases t with
    | index => exact h.beginIndex hok hstep
    | loop => exact h.beginLoop hstep
  | capture t => exact h.capture hstep
  | stage t => exact h.stage hstep
  | rename t => exact h.rename hstep
  | fail t =>
    cases t with
    | index => exact hok.elim
    | loop => exact h.failLoop hstep
  | ack => exact h.ack hstep

theorem Started.inv (h : s.Started) : HandshakeInv s := by
  refine ⟨?_, ?_, ?_, h.task ▸ trivial⟩
  · rw [Durable, h.acked]
    exact nofun
  · rw [h.acked]
    exact nofun
  · rw [h.loop]
    exact nofun

/-- **When an acknowledged block is durable.** In every run in which the index task enters
`persist_once` only between two passes of the loop and completes its own passes, and in every state
of it: each block that was acknowledged is in the sidecar on disk. Passes of the loop may fail, and
may be under way while blocks are added. -/
theorem acked_blocks_persisted {s₀ s : PersistState} (h₀ : s₀.Started)
    (hrun : Run step serialOk s₀ s) : s.Durable :=
  (hrun.inv h₀.inv fun _ _ _ h hok hstep => h.step hok hstep).durable

end PersistState

namespace Sample

def unpersisted : PersistState :=
  ⟨.new ["data"], false, none, .absent, .waiting, none, []⟩

def wholePass (t : Persister) : List PersistEvent := [.begin t, .capture t, .stage t, .rename t]

end Sample

open Sample PersistState in
/-- The loop takes the flag of the first block and persists it before the index task asks. -/
theorem acked_blocks_persisted_two :
    ∃ s : PersistState, s.acked.length = 2 ∧ s.Durable := by
  obtain ⟨s, hrun, hs⟩ := exists_run step serialOk unpersisted (fun s => s.acked.length = 2)
    ([.add (block "a" 0 1) true, .markDirty] ++ wholePass .loop ++ [.begin .index, .ack,
      .add (block "b" 2 3) true, .markDirty] ++ wholePass .index ++ [.ack]) (by decide +kernel)
  exact ⟨s, hs, acked_blocks_persisted ⟨rfl, rfl, rfl⟩ hrun⟩

open Sample PersistState in
/-- **Blocks are acknowledged that no sidecar has.** The loop has taken the flag and not written
yet. Or the write of the index task fails. Or the block was persisted, and then a pass of the loop
that began before the block was added replaces the sidecar. -/
theorem handshake_breaks :
    (∃ s, Reach step unpersisted s ∧ s.loop = some .begun ∧ ¬ s.Durable) ∧
    (∃ s, Reach step unpersisted s ∧ s.loop = none ∧ ¬ s.Durable) ∧
    ∃ s, Reach step unpersisted s ∧ s.Durable ∧
      ∃ s', s.step (.rename .loop) = some s' ∧ ¬ s'.Durable := by
  refine ⟨?_, ?_, ?_⟩
  · exact exists_run step (fun _ _ => True) unpersisted _
      [.add (block "a" 0 1) true, .markDirty, .begin .loop, .begin .index, .ack] (by decide +kernel)
  · exact exists_run step (fun _ _ => True) unpersisted _
      [.add (block "a" 0 1) true, .markDirty, .begin .index, .fail .index, .ack] (by decide +kernel)
  · obtain ⟨s, hrun, hdurable, hlater⟩ := exists_run step (fun _ _ => True) unpersisted
      (fun s => s.Durable ∧ (s.step (.rename .loop)).any fun s' => ¬ s'.Durable)
      ([.add (block "a" 0 1) false, .markDirty, .begin .loop, .capture .loop,
        .add (block "b" 2 3) true, .markDirty] ++ wholePass .index ++ [.ack, .stage .loop])
      (by decide +kernel)
    obtain ⟨s', hstep, hs'⟩ := (Option.any_eq_true _ _).mp hlater
    exact ⟨s, hrun, hdurable, s', hstep, of_decide_eq_true hs'⟩

end Parqtel.Storage
