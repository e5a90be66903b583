import Parqtel.Lib.Newest
import Parqtel.Query.SpanQuery
import Parqtel.Storage.TraceScan

/-!
# Searching traces

`queryTracesFilteredCounted` scans at most 256 blocks, the newest first, up to a cap, and cuts the
result to the *oldest* spans; it adds the buffer, sorts by falling start, and only then looks at
the trace id and the filter. So a match can be lost to spans that do not match. The search
returns the newest matches exactly if each match that the scan leaves out has `limit` matches at
least as new among those it keeps (`trace_search_complete_iff`).
-/

namespace Parqtel.Query

open Lib Storage Lib.Json List Parqtel.Span

/-- The blocks of the trace index and their files, and the spans in the buffer. -/
structure TraceStore (T : Type) where
  index : BlockIndex
  file : Path → TraceFile T
  buffer : List Span

structure TraceQuery (F : Type) where
  startNs : Int
  endNs : Int
  traceId : Option String
  limit : ℕ
  filter : Option (SearchQuery F)

structure TraceQueryResult where
  spans : List Span
  totalSpansInRange : ℕ
  spansMatched : ℕ
  truncated : Bool

def maxBlocks : ℕ := 256

section
variable {F Rx : Type} (rt : SpanRuntime F Rx)

namespace TraceQuery

def scanCap (q : TraceQuery F) : ℕ := max (if q.filter.isSome then 10000 else 200) q.limit

def hasTraceId (q : TraceQuery F) (s : Span) : Bool :=
  q.traceId.all fun tid => rt.hex.encode s.traceId.toList = rt.toLowercase tid

def passesFilter (q : TraceQuery F) (s : Span) : Bool :=
  q.filter.all fun sq => (PreparedSpanQuery.new rt sq).matchesSpan rt s

end TraceQuery

section
variable {T G : Type} {fl : Format.Floats G} (text : Text fl.Finite T)
  (newest : FallingSort startTimeNs)

def TraceStore.scanBlocks (st : TraceStore T) (q : TraceQuery F) (blocks : List BlockMetadata) :
    Except Error (List Span) :=
  if blocks = [] then .ok []
  else scanTraces text (blocks.map fun m => st.file m.path) q.startNs q.endNs q.scanCap

/-- The sort of the result is not stable: `newest` is any order of the spans by falling start. -/
def queryTracesFilteredCounted (st : TraceStore T) (q : TraceQuery F) :
    Except Error TraceQueryResult := do
  let found := st.index.query q.startNs q.endNs none
  let totalSpansInRange := (found.map BlockMetadata.rowCount).sum
  let spans ← st.scanBlocks text q (found.reverse.take maxBlocks)
  let spans := newest.sort (spans ++ scanSpans st.buffer q.startNs q.endNs)
  let spans := spans.filter (q.hasTraceId rt)
  let spans := spans.filter (q.passesFilter rt)
  return ⟨spans.take q.limit, totalSpansInRange, spans.length, q.limit < spans.length⟩

/-! ## What a search is for -/

def fileSpans (startNs endNs : Int) : TraceFile T → List Span
  | .readable groups => windowSpans text startNs endNs (groups.flatMap TraceRowGroup.rows)
  | _ => []

namespace TraceStore

def Intact (st : TraceStore T) : Prop :=
  ∀ m ∈ st.index.blocks, ∃ groups, st.file m.path = .readable groups

def spansOf (st : TraceStore T) (q : TraceQuery F) (m : BlockMetadata) : List Span :=
  fileSpans text q.startNs q.endNs (st.file m.path)

def blockMatches (st : TraceStore T) (q : TraceQuery F) : List Span :=
  (st.index.blocks.flatMap (st.spansOf text q)).filter fun s =>
    q.hasTraceId rt s && q.passesFilter rt s

def bufferMatches (st : TraceStore T) (q : TraceQuery F) : List Span :=
  (scanSpans st.buffer q.startNs q.endNs).filter fun s => q.hasTraceId rt s && q.passesFilter rt s

/-- The spans that a bounded scan sees: of the 256 newest blocks that the index finds the first
`scanCap` spans each, block by block until there are `scanCap`, and of these the `scanCap`
oldest. -/
def seen (st : TraceStore T) (q : TraceQuery F) : List Span :=
  (sortByKey startTimeNs (readUpTo q.scanCap []
    (((st.index.query q.startNs q.endNs none).reverse.take maxBlocks).map fun m =>
      (st.spansOf text q m).take q.scanCap))).take q.scanCap

def seenMatches (st : TraceStore T) (q : TraceQuery F) : List Span :=
  (st.seen text q).filter fun s => q.hasTraceId rt s && q.passesFilter rt s

end TraceStore

/-! ## What the scan returns -/

theorem gatherSpans_ok (cap : ℕ) (acc : List Span) (ls : List (List Span)) :
    gatherSpans cap (ls.map .ok) acc = .ok (readUpTo cap acc ls) := by
  induction ls generalizing acc with
  | nil => rfl
  | cons l ls ih =>
    rw [map_cons, gatherSpans, readUpTo]
    split_ifs
    · rfl
    · exact ih (acc ++ l)

theorem one_le_scanCap (q : TraceQuery F) : 1 ≤ q.scanCap := by
  unfold TraceQuery.scanCap
  split_ifs <;> omega

namespace TraceStore

variable {st : TraceStore T} (q : TraceQuery F)

theorem scanBlocks_eq (h : st.Intact) {blocks : List BlockMetadata}
    (hblocks : ∀ m ∈ blocks, m ∈ st.index.blocks) : st.scanBlocks text q blocks =
      .ok ((sortByKey startTimeNs (readUpTo q.scanCap []
        (blocks.map fun m => (st.spansOf text q m).take q.scanCap))).take q.scanCap) := by
  have hscan : (blocks.map fun m => st.file m.path).map
      (fun b => scanTraceBlock text b q.startNs q.endNs q.scanCap) =
      (blocks.map fun m => (st.spansOf text q m).take q.scanCap).map .ok := by
    rw [map_map, map_map]
    refine map_congr_left fun m hm => ?_
    obtain ⟨groups, hfile⟩ := h m (hblocks m hm)
    simp only [Function.comp_apply, spansOf, fileSpans, hfile, scanTraceBlock_readable,
      max_eq_left (one_le_scanCap q)]
  unfold scanBlocks
  split_ifs with hnone
  · simp [hnone, readUpTo, sortByKey]
  · rw [scanTraces, hscan, gatherSpans_ok]
    rfl

theorem queryTraces_eq (h : st.Intact) : ∃ total matched truncated,
    queryTracesFilteredCounted rt text newest st q =
      .ok ⟨((newest.sort (st.seen text q ++ scanSpans st.buffer q.startNs q.endNs)).filter
        fun s => q.hasTraceId rt s && q.passesFilter rt s).take q.limit, total, matched,
          truncated⟩ := by
  have hblocks : ∀ m ∈ (st.index.query q.startNs q.endNs none).reverse.take maxBlocks,
      m ∈ st.index.blocks := fun m hm =>
    (BlockIndex.query_sublist _ _ _ _).subset (mem_reverse.mp (mem_of_mem_take hm))
  unfold queryTracesFilteredCounted
  dsimp only
  rw [scanBlocks_eq text q h hblocks, ok_bind]
  simp only [filter_filter, Bool.and_comm]
  exact ⟨_, _, _, rfl⟩

theorem seen_subperm (st : TraceStore T) :
    (st.seen text q).Subperm (st.index.blocks.flatMap (st.spansOf text q)) := by
  have hfound : ((st.index.query q.startNs q.endNs none).reverse.take maxBlocks).Subperm
      st.index.blocks :=
    (take_sublist _ _).subperm.trans
      ((reverse_perm _).subperm.trans (BlockIndex.query_sublist _ _ _ _).subperm)
  obtain ⟨blocks, hperm, hsub⟩ := hfound
  have hread : (readUpTo q.scanCap []
      (((st.index.query q.startNs q.endNs none).reverse.take maxBlocks).map fun m =>
        (st.spansOf text q m).take q.scanCap)).Sublist
      (((st.index.query q.startNs q.endNs none).reverse.take maxBlocks).flatMap
        (st.spansOf text q)) :=
    (readUpTo_sublist _ _ _).trans
      (List.Sublist.flatMap_right _ fun m _ => take_sublist _ _)
  have hcut : (st.seen text q).Subperm _ :=
    (take_sublist _ _).subperm.trans (sortByKey_perm _ _).subperm
  exact hcut.trans (hread.subperm.trans
    ((hperm.symm.flatMap_right _).subperm.trans (hsub.flatMap _).subperm))

theorem seenMatches_append_diff (st : TraceStore T) : (st.blockMatches rt text q).Perm
      (st.seenMatches rt text q ++ (st.blockMatches rt text q).diff
        (st.seenMatches rt text q)) := by
  have hsub : (st.seenMatches rt text q).Subperm (st.blockMatches rt text q) :=
    (st.seen_subperm text q).filter _
  exact (subperm_append_diff_self_of_count_le fun s _ => hsub.count_le s).symm

/-- **When a trace search loses no match to its cap.** For every store, window, trace id, filter
and limit: the search returns the newest `limit` matches if and only if, of the matches in blocks
that the scan does not see, each has at least `limit` matches as new as itself among those that the
scan sees and those in the buffer. -/
theorem trace_search_complete_iff (h : st.Intact) :
    (∃ r, queryTracesFilteredCounted rt text newest st q = .ok r ∧
      Newest startTimeNs q.limit r.spans
        (st.blockMatches rt text q ++ st.bufferMatches rt q)) ↔
    ∀ d ∈ (st.blockMatches rt text q).diff (st.seenMatches rt text q),
      q.limit ≤ (st.seenMatches rt text q ++ st.bufferMatches rt q).countP fun s =>
        d.startTimeNs ≤ s.startTimeNs := by
  obtain ⟨total, matched, truncated, hrun⟩ := st.queryTraces_eq rt text newest q h
  have hkept : Newest startTimeNs q.limit
      (((newest.sort (st.seen text q ++ scanSpans st.buffer q.startNs q.endNs)).filter
        fun s => q.hasTraceId rt s && q.passesFilter rt s).take q.limit)
      (st.seenMatches rt text q ++ st.bufferMatches rt q) := by
    refine newest_take ?_ ((newest.falling _).filter _)
    rw [seenMatches, bufferMatches, ← filter_append]
    exact (newest.perm _).filter _
  have hall : (st.blockMatches rt text q ++ st.bufferMatches rt q).Perm
      ((st.seenMatches rt text q ++ st.bufferMatches rt q) ++
        (st.blockMatches rt text q).diff (st.seenMatches rt text q)) := by
    refine ((st.seenMatches_append_diff rt text q).append_right _).trans ?_
    rw [append_assoc, append_assoc]
    exact perm_append_comm.append_left _
  rw [← newest_append_iff hkept hall]
  constructor
  · rintro ⟨r, hr, hnewest⟩
    obtain rfl := Except.ok.inj (hrun.symm.trans hr)
    exact hnewest
  · exact fun hnewest => ⟨_, hrun, hnewest⟩

end TraceStore

end

end

namespace Sample

def stableSort : FallingSort startTimeNs where
  sort l := l.insertionSort fun a b => b.startTimeNs ≤ a.startTimeNs
  perm _ := perm_insertionSort _ _
  falling l := by
    exact pairwise_insertionSort _ l

def spanRuntime : SpanRuntime Unit Unit := { bareRuntime with toMillis := fun _ => () }

def traceStore (a b buffer : List Span) : TraceStore (Json partFloats.Finite) where
  index := ((BlockIndex.new []).add (Storage.Sample.block "a" 0 1000)).add
    (Storage.Sample.block "b" 0 1000)
  file path := .readable [⟨(if path.file = "a" then a else b).map fun s =>
    .of plainText s (resolveLabels plainText s.attributes) 0, ⟨none, nofun⟩⟩]
  buffer

def searchTrace (limit : ℕ) : TraceQuery Unit :=
  ⟨0, 1000, some "01010101010101010101010101010101", limit, none⟩

def traceSpan (id : UInt8) (t : Int) : Span :=
  { Storage.Sample.span t t with traceId := .replicate 16 id }

def crowded : TraceStore (Json partFloats.Finite) :=
  traceStore (List.replicate 200 (traceSpan 0 5) ++ [traceSpan 1 6]) [] []

end Sample

open Sample in
theorem trace_search_complete_two_blocks :
    let st := traceStore [traceSpan 1 5, traceSpan 1 7] [traceSpan 1 6, traceSpan 0 9]
      [traceSpan 1 8]
    ∃ r, queryTracesFilteredCounted spanRuntime plainText stableSort st (searchTrace 2) = .ok r ∧
      Newest startTimeNs 2 r.spans (st.blockMatches spanRuntime plainText (searchTrace 2) ++
        st.bufferMatches spanRuntime (searchTrace 2)) :=
  (TraceStore.trace_search_complete_iff spanRuntime plainText stableSort _
    fun _ _ => ⟨_, rfl⟩).mpr (by decide)

open Sample in
/-- **A span is lost to older ones.** One span has the requested trace id; the scan stops after the
200 spans before it in the block. -/
theorem trace_search_loses_span :
    (queryTracesFilteredCounted spanRuntime plainText stableSort crowded (searchTrace 1)).map
      (fun r => r.spans.length) = .ok 0 ∧
    (crowded.blockMatches spanRuntime plainText (searchTrace 1)).length = 1 := by
  decide +kernel

end Parqtel.Query
