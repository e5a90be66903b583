import Parqtel.Ingest.Writer
import Parqtel.Lib.SortedMap
import Parqtel.Storage.MetricColumns

/-!
# How a flush lays out a block

A flush does not move points. It collects, for every metric identity, keys of the form
(fingerprint, timestamp, batch, index), sorts the keys and reads the points through them. The
indices are `u32`. `writtenRows` is that computation; while every index fits, it reads every
held point once and gives the stable sort that `BlockWriter.toBlock` writes down
(`writtenRows_eq`). An index that does not fit would need more points than the columns of a block
can take (`indicesFit_of_builds`).

The second part is about `push`: the writers that it closes hold `capacity` rows each, and with
the one it leaves they hold the old rows and the new points in order.
-/

namespace Parqtel.Ingest

open Lib List LabelSet Prod.Lex List.Lex

variable {V : Type*}

/-! ## Keys -/

structure Identity where
  name : String
  kind : MetricKind
  resource : LabelSet

def Identity.ord (i : Identity) : String ×ₗ ℕ ×ₗ List (String ×ₗ String) :=
  toLex (i.name, toLex (i.kind.rank, i.resource.entries.map toLex))

theorem Identity.ord_injective : Function.Injective Identity.ord := by
  rintro ⟨n, k, r⟩ ⟨n', k', r'⟩ h
  simp only [Identity.ord, toLex_inj, Prod.mk.injEq] at h
  obtain ⟨rfl, hkind, hentries⟩ := h
  have hk : k = k' := by
    cases k <;> cases k' <;> first | rfl | cases hkind
  have hr : r = r' := by
    exact LabelSet.mk.injEq .. ▸ toLex.injective.list_map hentries
  rw [hk, hr]

instance : LinearOrder Identity := LinearOrder.lift' Identity.ord Identity.ord_injective

def rowIdentity (r : MetricRow V) : Identity := ⟨r.name, r.kind, r.resource⟩

def pointCmp (a b : DataPoint V) : Ordering :=
  (compare a.labels.fingerprint b.labels.fingerprint).then (compare a.timestampNs b.timestampNs)

structure RowKey where
  fingerprint : ℕ
  timestampNs : ℤ
  batch : ℕ
  index : ℕ
deriving DecidableEq

def RowKey.ord (k : RowKey) : ℕ ×ₗ ℤ ×ₗ ℕ ×ₗ ℕ :=
  toLex (k.fingerprint, toLex (k.timestampNs, toLex (k.batch, k.index)))

def asU32 (n : ℕ) : ℕ := n % 2 ^ 32

def PushedBatch.identity (b : PushedBatch V) : Identity := ⟨b.name, b.kind, b.resource⟩

def batchKeys (e : PushedBatch V × ℕ) : List RowKey :=
  e.1.points.zipIdx.map fun p =>
    ⟨p.1.labels.fingerprint, p.1.timestampNs, asU32 e.2, asU32 p.2⟩

def runsOf (batches : List (PushedBatch V)) : List (Identity × List RowKey) :=
  (collect (fun e => e.1.identity) batchKeys batches.zipIdx).map fun g =>
    (g.1, g.2.insertionSort fun a b => a.ord ≤ b.ord)

def pointAt (batches : List (PushedBatch V)) (batch index : ℕ) : Option (DataPoint V) :=
  (batches[batch]?).bind fun b => b.points[index]?

def runRows (batches : List (PushedBatch V)) (run : Identity × List RowKey) :
    Option (List (MetricRow V)) :=
  run.2.mapM fun k => (pointAt batches k.batch k.index).map fun p =>
    ⟨run.1.name, run.1.kind, run.1.resource, p⟩

def writtenRows (batches : List (PushedBatch V)) : Option (List (MetricRow V)) :=
  ((runsOf batches).mapM (runRows batches)).map List.flatten

def writtenPositions (batches : List (PushedBatch V)) : List (ℕ × ℕ) :=
  (runsOf batches).flatMap fun run => run.2.map fun k => (k.batch, k.index)

/-! ## Held points -/

/-- A held row with its position. -/
structure HeldRow (V : Type*) where
  row : MetricRow V
  batch : ℕ
  index : ℕ

def heldOf (e : PushedBatch V × ℕ) : List (HeldRow V) :=
  e.1.points.zipIdx.map fun p => ⟨⟨e.1.name, e.1.kind, e.1.resource, p.1⟩, e.2, p.2⟩

def arrivals (batches : List (PushedBatch V)) : List (HeldRow V) := batches.zipIdx.flatMap heldOf

def heldPositions (batches : List (PushedBatch V)) : List (ℕ × ℕ) :=
  (arrivals batches).map fun e => (e.batch, e.index)

def IndicesFit (batches : List (PushedBatch V)) : Prop :=
  ∀ e ∈ heldPositions batches, e.1 < 2 ^ 32 ∧ e.2 < 2 ^ 32

def HeldRow.identity (e : HeldRow V) : Identity := rowIdentity e.row

def HeldRow.key (e : HeldRow V) : RowKey :=
  ⟨e.row.point.labels.fingerprint, e.row.point.timestampNs, e.batch, e.index⟩

theorem held_rows (batches : List (PushedBatch V)) :
    (arrivals batches).map HeldRow.row = batches.flatMap PushedBatch.rows := by
  have hbatch : ∀ e : PushedBatch V × ℕ, (heldOf e).map HeldRow.row = e.1.rows := by
    intro e
    rw [heldOf, map_map]
    calc (e.1.points.zipIdx.map fun p => (⟨e.1.name, e.1.kind, e.1.resource, p.1⟩ : MetricRow V))
      _ = (e.1.points.zipIdx.map Prod.fst).map
          fun p => (⟨e.1.name, e.1.kind, e.1.resource, p⟩ : MetricRow V) := by
        rw [map_map]
        rfl
      _ = e.1.rows := by
        rw [zipIdx_map_fst]
        rfl
  unfold arrivals
  rw [map_flatMap, flatMap_congr fun e _ => hbatch e]
  calc batches.zipIdx.flatMap (fun e => e.1.rows)
    _ = (batches.zipIdx.map Prod.fst).flatMap PushedBatch.rows := by rw [flatMap_map]
    _ = batches.flatMap PushedBatch.rows := by rw [zipIdx_map_fst]

variable {batches : List (PushedBatch V)} {e : HeldRow V}

theorem mem_held :
    e ∈ arrivals batches ↔ ∃ b p, batches[e.batch]? = some b ∧ b.points[e.index]? = some p ∧
      e.row = ⟨b.name, b.kind, b.resource, p⟩ := by
  simp only [arrivals, heldOf, mem_flatMap, mem_map]
  constructor
  · rintro ⟨⟨b, i⟩, hb, ⟨p, j⟩, hp, rfl⟩
    exact ⟨b, p, mem_zipIdx_iff_getElem?.mp hb, mem_zipIdx_iff_getElem?.mp hp, rfl⟩
  · obtain ⟨row, i, j⟩ := e
    rintro ⟨b, p, hb, hp, rfl⟩
    exact ⟨(b, i), mem_zipIdx_iff_getElem?.mpr hb, (p, j),
      mem_zipIdx_iff_getElem?.mpr hp, rfl⟩

theorem held_arrival (batches : List (PushedBatch V)) : (arrivals batches).Pairwise fun a b =>
      toLex (a.batch, a.index) < toLex (b.batch, b.index) := by
  have hzip : ∀ {β : Type _} (l : List β) (n : ℕ), (l.zipIdx n).Pairwise fun a b => a.2 < b.2 := by
    intro β l n
    rw [← pairwise_map (f := Prod.snd) (R := (· < ·)), zipIdx_map_snd]
    exact pairwise_lt_range'
  refine pairwise_flatMap.mpr ⟨fun e _ => ?_, ?_⟩
  · rw [heldOf, pairwise_map]
    refine (hzip e.1.points 0).imp ?_
    intro p q hlt
    exact toLex_lt_toLex.mpr (.inr ⟨rfl, hlt⟩)
  · refine (hzip batches 0).imp fun {e e'} hlt a ha b hb => ?_
    obtain ⟨p, -, rfl⟩ := mem_map.mp ha
    obtain ⟨q, -, rfl⟩ := mem_map.mp hb
    exact toLex_lt_toLex.mpr (.inl hlt)

/-- The columns of these rows can be built. The kinds go into a `StringBuilder` of arrow, whose
offsets are `i32`: an append beyond them panics. -/
def Builds (rows : List (MetricRow V)) : Prop :=
  (rows.map fun r => (Storage.kindName r.kind).utf8ByteSize).sum < 2 ^ 31

theorem indicesFit_of_builds (hne : ∀ b ∈ batches, b.points ≠ [])
    (h : Builds (batches.flatMap PushedBatch.rows)) : IndicesFit batches := by
  have hkinds := card_nsmul_le_sum _ 3 (forall_mem_map.mpr
    (fun r _ => by cases r.kind <;> decide) : ∀ n ∈ (batches.flatMap PushedBatch.rows).map
      fun r => (Storage.kindName r.kind).utf8ByteSize, 3 ≤ n)
  rw [length_map, length_flatMap, smul_eq_mul] at hkinds
  simp only [PushedBatch.length_rows] at hkinds
  have hbatches := card_nsmul_le_sum _ 1 (forall_mem_map.mpr
    (fun b hb => length_pos_iff.mpr (hne b hb)) : ∀ n ∈ batches.map fun b => b.points.length, 1 ≤ n)
  rw [length_map, smul_eq_mul] at hbatches
  unfold Builds at h
  intro e he
  obtain ⟨x, hx, rfl⟩ := mem_map.mp he
  obtain ⟨b, p, hb, hp, -⟩ := mem_held.mp hx
  have hindex := single_le_sum (fun _ _ => Nat.zero_le _) _
    (mem_map_of_mem (f := fun b : PushedBatch V => b.points.length) (mem_of_getElem? hb))
  have hlt := (List.getElem?_eq_some_iff.mp hb).1
  have hlt' := (List.getElem?_eq_some_iff.mp hp).1
  dsimp only at hindex ⊢
  omega

/-! ## The order of rows -/

variable {α β : Type*}

theorem compares_then [LinearOrder α] [LinearOrder β] {o o' : Ordering} {a a' : α} {b b' : β}
    (h : o.Compares a a') (h' : o'.Compares b b') :
    (o.then o').Compares (toLex (a, b)) (toLex (a', b')) := by
  cases o with
  | lt => exact toLex_lt_toLex.mpr (.inl h)
  | gt => exact toLex_lt_toLex.mpr (.inl h)
  | eq =>
    obtain rfl : a = a' := h
    cases o' with
    | lt => exact toLex_lt_toLex.mpr (.inr ⟨rfl, h'⟩)
    | eq => exact congrArg (fun x => toLex (a, x)) h'
    | gt => exact toLex_lt_toLex.mpr (.inr ⟨rfl, h'⟩)

theorem compares_compare [LinearOrder α] (a b : α) : (compare a b).Compares a b :=
  (compare_iff a b).mp rfl

theorem cmpEntries_compares (as bs : List (String × String)) :
    (cmpEntries as bs).Compares (as.map toLex) (bs.map toLex) := by
  induction as generalizing bs with
  | nil =>
    cases bs with
    | nil => exact rfl
    | cons b bs => exact nil
  | cons a as ih =>
    cases bs with
    | nil => exact nil
    | cons b bs =>
      have hfirst := compares_then (compares_compare a.1 b.1) (compares_compare a.2 b.2)
      rw [cmpEntries, map_cons, map_cons]
      generalize (compare a.1 b.1).then (compare a.2 b.2) = o at hfirst
      cases o with
      | lt => exact rel hfirst
      | gt => exact rel hfirst
      | eq =>
        obtain rfl : a = b := toLex.injective hfirst
        have hrest := ih bs
        generalize cmpEntries as bs = o at hrest
        cases o with
        | lt => exact cons hrest
        | eq => exact congrArg (toLex a :: ·) hrest
        | gt => exact cons hrest

theorem then_ne_gt_iff [LinearOrder α] {o o' : Ordering} {a b : α} (h : o.Compares a b) :
    o.then o' ≠ .gt ↔ a < b ∨ a = b ∧ o' ≠ .gt := by
  cases o with
  | lt => exact iff_of_true (by simp) (.inl h)
  | eq =>
    obtain rfl : a = b := h
    simp
  | gt => exact iff_of_false (by simp) (not_or.mpr ⟨lt_asymm h, fun hab => ne_of_gt h hab.1⟩)

theorem rowCmp_iff (a b : MetricRow V) : rowCmp a b ≠ .gt ↔ rowIdentity a < rowIdentity b ∨
    rowIdentity a = rowIdentity b ∧ pointCmp a.point b.point ≠ .gt := by
  have hidentity := compares_then (compares_compare a.name b.name)
    (compares_then (compares_compare a.kind.rank b.kind.rank)
      (cmpEntries_compares a.resource.entries b.resource.entries))
  rw [← Identity.ord_injective.eq_iff]
  refine Iff.trans ?_ (then_ne_gt_iff hidentity)
  rw [Ordering.then_assoc, Ordering.then_assoc]
  rfl

theorem layoutRows_groups {rows : List (MetricRow V)} {ks : List Identity}
    (hks : ks.Pairwise (· < ·)) (hmem : ∀ r ∈ rows, rowIdentity r ∈ ks) :
    layoutRows rows = ks.flatMap fun i => (rows.filter fun r => rowIdentity r = i).insertionSort
      fun a b => pointCmp a.point b.point ≠ .gt :=
  insertionSort_groups rowCmp_iff hks hmem

/-- How the compactor lays out the rows of a merge: it groups them by identity and sorts each
group by fingerprint and timestamp. -/
def regroup (rows : List (MetricRow V)) : List (MetricRow V) :=
  (collect rowIdentity (fun r => [r]) rows).flatMap fun g =>
    g.2.insertionSort fun a b => pointCmp a.point b.point ≠ .gt

/-- **A merge and a flush lay out rows alike.** -/
theorem regroup_eq (rows : List (MetricRow V)) : regroup rows = layoutRows rows := by
  rw [layoutRows_groups (keysRise_collect rowIdentity (fun r => [r]) rows)
    fun r hr => mem_keys_collect.mpr ⟨r, hr, rfl⟩, regroup, flatMap_map]
  refine flatMap_congr fun g hg => ?_
  rw [mem_collect hg, flatMap_singleton']

/-! ## What a flush reads -/

def HeldRow.madeKey (e : HeldRow V) : RowKey :=
  ⟨e.row.point.labels.fingerprint, e.row.point.timestampNs, asU32 e.batch, asU32 e.index⟩

def identities (batches : List (PushedBatch V)) : List Identity :=
  (collect (fun e => e.1.identity) batchKeys batches.zipIdx).map Prod.fst

def heldAs (batches : List (PushedBatch V)) (i : Identity) : List (HeldRow V) :=
  (arrivals batches).filter fun e => e.identity = i

theorem identity_of_mem_heldAs {i : Identity} (h : e ∈ heldAs batches i) :
    e ∈ arrivals batches ∧ e.identity = i := by
  obtain ⟨hmem, hi⟩ := mem_filter.mp h
  exact ⟨hmem, of_decide_eq_true hi⟩

theorem collected_eq {i : Identity} {ks : List RowKey}
    (h : (i, ks) ∈ collect (fun e => e.1.identity) batchKeys batches.zipIdx) :
    ks = (heldAs batches i).map HeldRow.madeKey := by
  have hkeys : ∀ e : PushedBatch V × ℕ, batchKeys e = (heldOf e).map HeldRow.madeKey := by
    intro e
    rw [batchKeys, heldOf, map_map]
    rfl
  have hfilter : ∀ es : List (PushedBatch V × ℕ),
      (es.flatMap heldOf).filter (fun e => e.identity = i) =
        (es.filter fun e => e.1.identity = i).flatMap heldOf := by
    intro es
    induction es with
    | nil => rfl
    | cons e es ih =>
      have hall : ∀ x ∈ heldOf e, x.identity = e.1.identity := by
        intro x hx
        obtain ⟨p, -, rfl⟩ := mem_map.mp hx
        rfl
      rw [flatMap_cons, filter_append, ih]
      by_cases hi : e.1.identity = i
      · rw [filter_cons_of_pos (by simpa using hi), flatMap_cons,
          filter_eq_self.mpr fun x hx => by simpa [hi] using hall x hx]
      · rw [filter_cons_of_neg (by simpa using hi),
          filter_eq_nil_iff.mpr fun x hx => by simpa [hall x hx] using hi]
        rfl
  rw [mem_collect h, heldAs, arrivals, hfilter, map_flatMap]
  exact flatMap_congr fun e _ => hkeys e

theorem runsOf_eq (batches : List (PushedBatch V)) :
    runsOf batches = (identities batches).map fun i =>
      (i, ((heldAs batches i).map HeldRow.madeKey).insertionSort fun a b => a.ord ≤ b.ord) := by
  unfold runsOf identities
  rw [map_map]
  refine map_congr_left fun g hg => ?_
  rw [Function.comp_apply, ← collected_eq hg]

theorem mapM_some {f : α → Option β} {g : α → β} {l : List α} (hf : ∀ x ∈ l, f x = some (g x)) :
    l.mapM f = some (l.map g) := by
  induction l with
  | nil => rfl
  | cons x l ih =>
    rw [mapM_cons, hf x mem_cons_self,
      ih fun y hy => hf y (mem_cons_of_mem x hy)]
    rfl

section Fit

variable {batches : List (PushedBatch V)} (h : IndicesFit batches)

def laidOut (batches : List (PushedBatch V)) : List (HeldRow V) :=
  (identities batches).flatMap fun i =>
    (heldAs batches i).insertionSort fun a b => a.key.ord ≤ b.key.ord

theorem mem_identities (he : e ∈ arrivals batches) : e.identity ∈ identities batches := by
  obtain ⟨x, hx, he⟩ := mem_flatMap.mp he
  obtain ⟨p, -, rfl⟩ := mem_map.mp he
  exact mem_keys_collect.mpr ⟨x, hx, rfl⟩

theorem identities_rise (batches : List (PushedBatch V)) : (identities batches).Pairwise (· < ·) :=
  keysRise_collect (fun e : PushedBatch V × ℕ => e.1.identity) batchKeys batches.zipIdx

theorem laidOut_perm (batches : List (PushedBatch V)) :
    (laidOut batches).Perm (arrivals batches) := by
  unfold laidOut heldAs
  rw [← insertionSort_groups (fun _ _ => Iff.rfl) (identities_rise batches) fun e => mem_identities]
  exact perm_insertionSort _ _

theorem pointCmp_iff_key {a b : HeldRow V}
    (h : toLex (a.batch, a.index) < toLex (b.batch, b.index)) :
    pointCmp a.row.point b.row.point ≠ .gt ↔ a.key.ord ≤ b.key.ord := by
  have hle := h.le
  have hpoint := compares_then
    (compares_compare a.row.point.labels.fingerprint b.row.point.labels.fingerprint)
    (compares_compare a.row.point.timestampNs b.row.point.timestampNs)
  rw [pointCmp, hpoint.ne_gt]
  simp only [RowKey.ord, HeldRow.key, toLex_le_toLex] at hle ⊢
  constructor
  · rintro (hlt | ⟨hfp, hts⟩)
    · exact .inl hlt
    · exact .inr ⟨hfp, (lt_or_eq_of_le hts).imp_right fun hts => ⟨hts, hle⟩⟩
  · exact Or.imp_right fun ⟨hfp, hts⟩ => ⟨hfp, hts.elim le_of_lt fun hts => hts.1.le⟩

theorem map_row_laidOut (batches : List (PushedBatch V)) :
    (laidOut batches).map HeldRow.row = layoutRows (batches.flatMap PushedBatch.rows) := by
  rw [layoutRows_groups (identities_rise batches), laidOut, map_flatMap]
  · refine flatMap_congr fun i _ => ?_
    rw [← held_rows, filter_map, heldAs, ← insertionSort_congr
      (((held_arrival batches).filter _).imp pointCmp_iff_key)]
    exact map_insertionSort _ (fun a b : MetricRow V => pointCmp a.point b.point ≠ .gt) HeldRow.row
      _ fun _ _ _ _ => Iff.rfl
  · intro r hr
    obtain ⟨e, he, rfl⟩ := mem_map.mp (held_rows batches ▸ hr)
    exact mem_identities he

include h

theorem madeKey_eq (he : e ∈ arrivals batches) : e.madeKey = e.key := by
  obtain ⟨hb, hi⟩ := h (e.batch, e.index) (mem_map_of_mem (f := fun e => (e.batch, e.index)) he)
  unfold HeldRow.madeKey HeldRow.key asU32
  rw [Nat.mod_eq_of_lt hb, Nat.mod_eq_of_lt hi]

theorem sortedKeys_eq (i : Identity) :
    ((heldAs batches i).map HeldRow.madeKey).insertionSort (fun a b => a.ord ≤ b.ord) =
      ((heldAs batches i).insertionSort fun a b => a.key.ord ≤ b.key.ord).map HeldRow.key := by
  rw [map_insertionSort _ (fun a b : RowKey => a.ord ≤ b.ord) HeldRow.key _
    fun _ _ _ _ => Iff.rfl]
  refine congrArg _ (map_congr_left fun e he => ?_)
  exact madeKey_eq h (identity_of_mem_heldAs he).1

theorem writtenPositions_perm : (writtenPositions batches).Perm (heldPositions batches) := by
  have hwritten : writtenPositions batches = (laidOut batches).map fun e => (e.batch, e.index) := by
    unfold writtenPositions laidOut
    rw [runsOf_eq, flatMap_map, map_flatMap]
    refine flatMap_congr fun i _ => ?_
    rw [sortedKeys_eq h, map_map]
    rfl
  rw [hwritten]
  exact (laidOut_perm batches).map _

/-- **A flush writes the held rows sorted**, while every index fits. -/
theorem writtenRows_eq :
    writtenRows batches = some (layoutRows (batches.flatMap PushedBatch.rows)) := by
  have hrun : ∀ i, runRows batches (i, ((heldAs batches i).map HeldRow.madeKey).insertionSort
      fun a b => a.ord ≤ b.ord) = some (((heldAs batches i).insertionSort
        fun a b => a.key.ord ≤ b.key.ord).map HeldRow.row) := by
    intro i
    unfold runRows
    rw [sortedKeys_eq h, mapM_map]
    refine mapM_some (g := HeldRow.row) fun e he => ?_
    obtain ⟨hmem, hi⟩ := identity_of_mem_heldAs ((mem_insertionSort _).mp he)
    obtain ⟨b, p, hb, hp, hrow⟩ := mem_held.mp hmem
    subst hi
    simp [pointAt, HeldRow.key, HeldRow.identity, rowIdentity, hb, hp, hrow]
  have hruns : (runsOf batches).mapM (runRows batches) = some ((identities batches).map fun i =>
      ((heldAs batches i).insertionSort fun a b => a.key.ord ≤ b.key.ord).map HeldRow.row) := by
    rw [runsOf_eq, mapM_map]
    exact mapM_some fun i _ => hrun i
  rw [writtenRows, hruns, Option.map_some, ← map_row_laidOut, laidOut, map_flatMap]
  rfl

end Fit

/-! ## Closing blocks during a push -/

namespace BlockWriter

/-- A push that returns `Ok` closed the writers `closed`, one for each block: full ones, that
with the writer it leaves hold the rows from before and the points of the push in order. -/
structure Splits (w : BlockWriter V) (m : Metric V) (remaining : List (DataPoint V))
    (closed : List (BlockWriter V)) (o : PushOut V) : Prop where
  conserved : closed.flatMap content ++ o.writer.content =
    w.content ++ ({ m with dataPoints := remaining } : Metric V).rows
  full : ∀ c ∈ closed, c.content.length = w.capacity
  epoch : o.writer.epoch = w.epoch + closed.length
  rows_eq_sum : o.writer.rows = (o.writer.batches.map fun b => b.points.length).sum
  rows_le : o.writer.rows ≤ w.capacity
  /-- No writer gets a batch without points. -/
  batches : (∀ b ∈ w.batches, b.points ≠ []) →
    ∀ c ∈ o.writer :: closed, ∀ b ∈ c.batches, b.points ≠ []

theorem rows_eq_sum_batches (w : BlockWriter V) :
    w.rows = (w.batches.map fun b => b.points.length).sum := by
  rw [w.rows_eq, length_flatMap]
  simp

theorem push_eq (w : BlockWriter V) (m : Metric V) (ios : ℕ → BlockIo) :
    pushLoop m ios (2 * m.dataPoints.length + 2) w m.dataPoints [] = some (w.push m ios) :=
  (Option.some_get _).symm

theorem pushLoop_splits {m : Metric V} {ios : ℕ → BlockIo} {fuel : ℕ} {w : BlockWriter V}
    {remaining : List (DataPoint V)} {flushed bs : List (MetricBlock V)} {o : PushOut V}
    (h : pushLoop m ios fuel w remaining flushed = some o) (hok : o.result = .ok bs)
    (hrows : w.rows ≤ w.capacity) : ∃ closed : List (BlockWriter V),
      bs = flushed ++ closed.mapIdx (fun i c => c.toBlock (ios (flushed.length + i))) ∧
      Splits w m remaining closed o := by
  induction fuel generalizing w remaining flushed with
  | zero => cases h
  | succ fuel ih =>
    rcases remaining with _ | ⟨p, ps⟩
    · cases h
      cases hok
      refine ⟨[], (append_nil _).symm, ?_, by simp, rfl, rows_eq_sum_batches w, hrows,
        fun h c hc => mem_singleton.mp hc ▸ h⟩
      simp [Metric.rows]
    rw [pushLoop] at h
    split_ifs at h with hroom
    · split at h
      · next b w' _ hf =>
        -- the writer is full, and the loop goes on with an empty one
        obtain ⟨-, rfl, rfl, -⟩ := flush_ok hf
        obtain ⟨closed, hbs, hsplit⟩ := ih h (Nat.zero_le _)
        refine ⟨w :: closed, ?_, ?_, ?_, ?_, hsplit.rows_eq_sum, hsplit.rows_le, fun hw c hc => ?_⟩
        · rw [hbs, mapIdx_cons, append_assoc, length_append, length_singleton, singleton_append]
          simp only [Nat.add_assoc, Nat.add_comm 1, Nat.add_zero]
        · rw [flatMap_cons, append_assoc, hsplit.conserved]
          rfl
        · intro c hc
          rcases mem_cons.mp hc with rfl | hc
          · unfold room at hroom
            rw [length_content]
            omega
          · exact hsplit.full c hc
        · rw [hsplit.epoch, cleared, length_cons]
          dsimp only
          omega
        · rcases mem_cons.mp ((Perm.swap ..).mem_iff.mp hc) with rfl | hc
          · exact hw
          · exact hsplit.batches (by simp [cleared]) c hc
      · cases h
        cases hok
    · obtain ⟨closed, hbs, hsplit⟩ := ih h (fill_rows_le m _ hrows)
      refine ⟨closed, hbs, ?_, hsplit.full, hsplit.epoch, hsplit.rows_eq_sum, hsplit.rows_le,
        fun hw => hsplit.batches fun b hb => ?_⟩
      · rw [hsplit.conserved, content_fill, append_assoc]
        simp only [Metric.rows]
        rw [← map_append, take_append_drop]
      · rcases mem_append.mp hb with hb | hb
        · exact hw b hb
        · rw [mem_singleton.mp hb]
          simpa using hroom

/-- What a flush of this writer has to do: read every held point once, and write the rows of its
block, which are sorted by identity, fingerprint, timestamp and arrival. -/
structure FlushesAll (w : BlockWriter V) : Prop where
  once : (writtenPositions w.batches).Perm (heldPositions w.batches)
  layout : writtenRows w.batches = some (layoutRows w.content)
  block : ∀ io, (w.toBlock io).rows = layoutRows w.content

theorem flushesAll_of_builds {w : BlockWriter V} (hne : ∀ b ∈ w.batches, b.points ≠ [])
    (h : Builds w.content) : w.FlushesAll :=
  have hfit := indicesFit_of_builds hne h
  ⟨writtenPositions_perm hfit, writtenRows_eq hfit, fun _ => rfl⟩

/-- **Splitting a push conserves points, and a flush writes them.** The rows of the blocks that a
push closes and of the writer are the old rows followed by the pushed points, whatever the sizes.
A flush that can build its columns, of this writer or of one that the push closes, reads every
held point exactly once, grouped by identity and ordered by fingerprint, timestamp and arrival. -/
theorem push_and_flush_conserve {w : BlockWriter V} (hrows : w.rows ≤ w.capacity)
    (hne : ∀ b ∈ w.batches, b.points ≠ []) :
    (∀ m ios bs, (w.push m ios).result = .ok bs → ∃ closed : List (BlockWriter V),
      bs = closed.mapIdx (fun i c => c.toBlock (ios i)) ∧
      w.Splits m m.dataPoints closed (w.push m ios) ∧
      ∀ c ∈ (w.push m ios).writer :: closed, Builds c.content → c.FlushesAll) ∧
    (Builds w.content → w.FlushesAll) := by
  refine ⟨fun m ios bs hok => ?_, flushesAll_of_builds hne⟩
  obtain ⟨closed, hbs, hsplit⟩ := pushLoop_splits (push_eq w m ios) hok hrows
  refine ⟨closed, by simpa using hbs, hsplit, fun c hc => ?_⟩
  exact flushesAll_of_builds (hsplit.batches hne c hc)

end BlockWriter

namespace Sample

def gaugeTimes (n : ℕ) : Metric ℕ :=
  ⟨"up", "", "", .gauge, .empty, (List.range n).map fun i : ℕ => ⟨(i : ℤ) + 1, 0, .empty⟩⟩

def halfFull : BlockWriter ℕ :=
  (BlockWriter.new (config 2)).fill (gaugeTimes 1) (gaugeTimes 1).dataPoints

end Sample

open Sample in
/-- Four more points close two blocks. -/
theorem push_and_flush_conserve_four_points : ∃ closed : List (BlockWriter ℕ),
    closed.length = 2 ∧ halfFull.Splits (gaugeTimes 4) (gaugeTimes 4).dataPoints closed
      (halfFull.push (gaugeTimes 4) fun _ => .fine) ∧ ∀ c ∈ closed, c.FlushesAll := by
  obtain ⟨closed, hbs, hsplit, hflush⟩ := (BlockWriter.push_and_flush_conserve (w := halfFull)
    (by decide) (by decide)).1 (gaugeTimes 4) (fun _ => .fine) _ rfl
  refine ⟨closed, ?_, hsplit, fun c hc => hflush c (mem_cons_of_mem _ hc) ?_⟩
  · simpa using (congrArg List.length hbs).symm
  · have hkinds :=
      sum_le_card_nsmul _ 9 (forall_mem_map.mpr (fun r _ => by cases r.kind <;> decide) :
      ∀ n ∈ c.content.map fun r => (Storage.kindName r.kind).utf8ByteSize, n ≤ 9)
    rw [length_map, hsplit.full c hc] at hkinds
    exact hkinds.trans_lt (by decide)

end Parqtel.Ingest
