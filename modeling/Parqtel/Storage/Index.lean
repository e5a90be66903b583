import Parqtel.Models
import Parqtel.Lib.Search

/-!
# The block index

`BlockIndex` keeps the metadata of a signal's blocks sorted by start. `query` skips to
the first block that does not end before the window by binary search on the *ends*,
and goes on while blocks start within it. On ends that are sorted like the starts this
selects the blocks that intersect the window; on any other index some window exists for
which it does not (`query_exact_iff`).
-/

namespace Parqtel.Storage

open Parqtel.Lib List

/-- The index of one signal. Its sidecar is `index.json` in `dataDir`. -/
@[ext] structure BlockIndex where
  blocks : List BlockMetadata
  dataDir : List String
  sorted : blocks.Pairwise fun a b => a.startTimestampNs ≤ b.startTimestampNs

def sortByStart (blocks : List BlockMetadata) : List BlockMetadata :=
  sortByKey BlockMetadata.startTimestampNs blocks

inductive Sidecar where
  | absent
  | unreadable
  | payload (blocks : List BlockMetadata)
deriving DecidableEq

namespace BlockIndex

def ofBlocks (dataDir : List String) (blocks : List BlockMetadata) : BlockIndex :=
  ⟨sortByStart blocks, dataDir, sortByKey_sorted _ _⟩

def new (dataDir : List String) : BlockIndex := ⟨[], dataDir, .nil⟩

/-- Load the sidecar; one that cannot be read leaves the index as it was. -/
def load (ix : BlockIndex) : Sidecar → BlockIndex
  | .absent => ofBlocks ix.dataDir ix.blocks
  | .unreadable => ix
  | .payload blocks => ofBlocks ix.dataDir blocks

def add (ix : BlockIndex) (block : BlockMetadata) : BlockIndex :=
  ofBlocks ix.dataDir (ix.blocks ++ [block])

def replace (ix : BlockIndex) (removed : List Path) (new : Option BlockMetadata) : BlockIndex :=
  ofBlocks ix.dataDir ((ix.blocks.filter fun b => b.path ∉ removed) ++ new.toList)

theorem mem_add {ix : BlockIndex} {m b : BlockMetadata} :
    m ∈ (ix.add b).blocks ↔ m ∈ ix.blocks ∨ m = b := by
  refine (sortByKey_perm _ _).mem_iff.trans ?_
  simp

theorem mem_replace {ix : BlockIndex} {removed : List Path} {new : Option BlockMetadata}
    {m : BlockMetadata} :
    m ∈ (ix.replace removed new).blocks ↔ (m ∈ ix.blocks ∧ m.path ∉ removed) ∨ new = some m := by
  refine (sortByKey_perm _ _).mem_iff.trans ?_
  simp

/-- An empty set of metric names means that the block's names are not known. -/
def mayHold (name : Option String) (b : BlockMetadata) : Bool :=
  name.all fun n => b.metricNames = ∅ || n ∈ b.metricNames

def query (ix : BlockIndex) (startNs endNs : Int) (name : Option String) : List BlockMetadata :=
  let startIdx := partitionPoint (fun b => b.endTimestampNs < startNs) ix.blocks
  ((ix.blocks.drop startIdx).takeWhile fun b => b.startTimestampNs ≤ endNs).filter (mayHold name)

theorem query_sublist (ix : BlockIndex) (startNs endNs : Int) (name : Option String) :
    (ix.query startNs endNs name).Sublist ix.blocks :=
  filter_sublist.trans ((takeWhile_sublist _).trans (drop_sublist _ _))

/-! ## Exact lookup -/

/-- The blocks that a query is for: those that intersect the window and may hold the name. -/
def hits (ix : BlockIndex) (startNs endNs : Int) (name : Option String) : List BlockMetadata :=
  ix.blocks.filter fun b =>
    startNs ≤ b.endTimestampNs && b.startTimestampNs ≤ endNs && mayHold name b

/-- Lookup is exact: for every window and name, each block that intersects is found once. -/
def Exact (ix : BlockIndex) : Prop :=
  ∀ startNs endNs, startNs ≤ endNs → ∀ name,
    ix.query startNs endNs name = ix.hits startNs endNs name

def EndsSorted (ix : BlockIndex) : Prop :=
  ix.blocks.Pairwise fun a b => a.endTimestampNs ≤ b.endTimestampNs

instance (ix : BlockIndex) : Decidable ix.EndsSorted :=
  inferInstanceAs (Decidable (ix.blocks.Pairwise _))

variable {ix : BlockIndex}

theorem takeWhile_start {blocks : List BlockMetadata} (endNs : Int)
    (h : blocks.Pairwise fun a b => a.startTimestampNs ≤ b.startTimestampNs) :
    (blocks.takeWhile fun b => b.startTimestampNs ≤ endNs) =
      blocks.filter fun b => b.startTimestampNs ≤ endNs := by
  induction blocks with
  | nil => rfl
  | cons b bs ih =>
    obtain ⟨hb, hbs⟩ := pairwise_cons.mp h
    by_cases hle : b.startTimestampNs ≤ endNs
    · simp [hle, ih hbs]
    · have hnone : bs.filter (fun b => b.startTimestampNs ≤ endNs) = [] := by
        refine filter_eq_nil_iff.mpr fun c hc => ?_
        have := hb c hc
        simpa using (by omega : endNs < c.startTimestampNs)
      simp [hle, hnone]

theorem query_eq_filter (startNs endNs : Int) (name : Option String)
    (h : ix.blocks.drop (partitionPoint (fun b => b.endTimestampNs < startNs) ix.blocks) =
      ix.blocks.filter fun b => startNs ≤ b.endTimestampNs) :
    ix.query startNs endNs name = ix.hits startNs endNs name := by
  unfold query hits
  dsimp only
  rw [h, takeWhile_start endNs (ix.sorted.filter _), filter_filter, filter_filter]
  congr 1
  funext b
  cases mayHold name b <;> cases decide (b.startTimestampNs ≤ endNs) <;> simp

theorem EndsSorted.exact (h : ix.EndsSorted) : ix.Exact := by
  intro startNs endNs _ name
  refine query_eq_filter startNs endNs name ?_
  rw [drop_partitionPoint]
  · refine filter_congr fun b _ => ?_
    rw [← decide_not]
    exact decide_eq_decide.mpr not_lt
  · refine h.imp fun {a b} hab hb => ?_
    simp only [decide_eq_true_eq] at hb ⊢
    omega

theorem exists_end (ix : BlockIndex) (startNs : Int) :
    ∃ endNs, startNs ≤ endNs ∧ ∀ b ∈ ix.blocks, b.startTimestampNs ≤ endNs := by
  induction ix.blocks with
  | nil => exact ⟨startNs, le_rfl, nofun⟩
  | cons b bs ih =>
    obtain ⟨e, he, hbs⟩ := ih
    refine ⟨max e b.startTimestampNs, le_max_of_le_left he, fun c hc => ?_⟩
    rcases mem_cons.mp hc with rfl | hc
    · exact le_max_right _ _
    · exact (hbs c hc).trans (le_max_left _ _)

theorem query_open (startNs endNs : Int) (h : ∀ b ∈ ix.blocks, b.startTimestampNs ≤ endNs) :
    ix.query startNs endNs none =
      ix.blocks.drop (partitionPoint (fun b => b.endTimestampNs < startNs) ix.blocks) := by
  unfold query
  dsimp only
  rw [takeWhile_eq_self_iff.mpr fun b hb => decide_eq_true (h b (mem_of_mem_drop hb))]
  exact filter_eq_self.mpr fun b _ => rfl

theorem Exact.endsSorted (h : ix.Exact) : ix.EndsSorted := by
  refine pairwise_iff_getElem.mpr fun i j hi hj hij => ?_
  -- ask for everything from the end of block `i` on
  obtain ⟨endNs, hle, hall⟩ := ix.exists_end ix.blocks[i].endTimestampNs
  have hq := h _ endNs hle none
  rw [query_open _ _ hall] at hq
  have hhits : ix.hits ix.blocks[i].endTimestampNs endNs none =
      ix.blocks.filter fun b => ix.blocks[i].endTimestampNs ≤ b.endTimestampNs := by
    refine filter_congr fun b hb => ?_
    simp [hall b hb, mayHold]
  rw [hhits] at hq
  have hp := pairwise_of_drop_eq_filter hq
  simpa using pairwise_iff_getElem.mp hp i j hi hj hij

/-- **When block lookup is exact.** For every index, however it was built: `query` finds exactly
the blocks that intersect the window, for every window and name, if and only if the blocks end in
the order in which they start. -/
theorem query_exact_iff (ix : BlockIndex) : ix.Exact ↔ ix.EndsSorted :=
  ⟨Exact.endsSorted, EndsSorted.exact⟩

end BlockIndex

namespace Sample

def block (file : String) (startNs endNs : Int) : BlockMetadata :=
  ⟨⟨["data"], file⟩, startNs, endNs, 1, 0, ∅, ∅, [], .metrics, none⟩

def nested : BlockIndex :=
  (((BlockIndex.new ["data"]).add (block "a" 0 100)).add (block "b" 10 20)).add (block "c" 30 40)

end Sample

open Sample in
/-- **A block that ends late is missed.** The search for the window `[50, 60]` sees the short
blocks end before it and skips the long one with them. -/
theorem query_misses_long_block : ¬ nested.Exact := by
  intro h
  have hq := h 50 60 (by decide) none
  have hempty : nested.query 50 60 none = [] := by decide
  have hhit : nested.hits 50 60 none = [block "a" 0 100] := by decide
  cases hq

end Parqtel.Storage
