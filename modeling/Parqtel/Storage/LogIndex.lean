import Parqtel.Models
import Parqtel.Core.Text
import Parqtel.Lib.Bloom
import Parqtel.Lib.Selection

/-!
# The skip index of a log block

The rows of a log block are cut into granules. For each the writer records the bounds of its
timestamps, its highest severity and a bloom filter over the terms of its rows: windows of
the lowercased body, attribute pairs, and trace and span ids. `candidateRanges` are the rows
of the granules that may hold a row a query wants. `logsToBlock_index` says what the index of
a block tells about every row; `inRanges_candidateRanges` that a row is read if its granule is
kept; `accepted_index_safe` that any index which is accepted can be used safely.
-/

namespace Parqtel.Storage

open Lib Text List Nat

/-! ## Terms -/

def granuleRows : ℕ := 4096

def maxPairBytes : ℕ := 256

def mix (x : UInt64) : UInt64 :=
  let x := x + 0x9e3779b97f4a7c15
  let x := (x ^^^ (x >>> 30)) * 0xbf58476d1ce4e5b9
  let x := (x ^^^ (x >>> 27)) * 0x94d049bb133111eb
  x ^^^ (x >>> 31)

def trigramKey (w : UInt8 × UInt8 × UInt8) : UInt64 :=
  w.1.toUInt64 <<< 16 ||| w.2.1.toUInt64 <<< 8 ||| w.2.2.toUInt64

def trigramHash (w : UInt8 × UInt8 × UInt8) : UInt64 := mix (trigramKey w)

def leBytes (n : UInt64) : Bytes :=
  (List.range 8).map fun i => (n >>> UInt64.ofNat (8 * i)).toUInt8

/-- The hash of a pair; the length of the name keeps `a`, `b=c` and `a=b`, `c` apart. -/
def pairHash (name value : String) : UInt64 :=
  let bytes := leBytes (UInt64.ofNat (utf8 name).length) ++ utf8 name ++ utf8 value
  mix (bytes.foldl (fun h b => (h ^^^ b.toUInt64) * 0x100000001b3) 0xcbf29ce484222325) |||
    0x8000000000000000

def hexDigit (n : ℕ) : Char := "0123456789abcdef".toList.getD n '0'

def hexLower (bytes : Bytes) : String :=
  String.ofList (bytes.flatMap fun b => [hexDigit (b.toNat / 16), hexDigit (b.toNat % 16)])

/-- `hex::encode`, as its documentation has it. -/
structure HexEncode where
  encode : Bytes → String
  encode_eq : ∀ bytes, encode bytes = hexLower bytes

def HexEncode.lower : HexEncode := ⟨hexLower, fun _ => rfl⟩

def probes (bitsLog2 : ℕ) (hash : UInt64) : List ℕ :=
  let h1 := hash.toNat % 2 ^ 32
  let h2 := hash.toNat / 2 ^ 32 ||| 1
  (List.range 3).map fun i => (h1 + i * h2) % 2 ^ bitsLog2

def fitsPair (name value : String) : Bool := (utf8 name).length + (utf8 value).length ≤ maxPairBytes

def idTerm (name : String) (id : Bytes) : Option UInt64 :=
  if id.any (· ≠ 0) then some (pairHash name (hexLower id)) else none

/-! ## The builder -/

structure LogIndexTable where
  v : ℕ
  granuleRows : ℕ
  rows : ℕ
  minTs : List Int
  maxTs : List Int
  maxSeverity : List Int
  bitsLog2 : List ℕ
  bloom : List (BitVec 8)
deriving DecidableEq

structure LogIndexBuilder where
  table : LogIndexTable
  terms : List UInt64
  trigramKeys : List UInt64
  seenPairs : List UInt64
  inGranule : ℕ
  minTs : Int
  maxTs : Int
  maxSeverity : Int
  lastAttrs : Option LabelSet
  lastResource : Option LabelSet

namespace LogIndexBuilder

def new : LogIndexBuilder where
  table := ⟨1, Storage.granuleRows, 0, [], [], [], [], []⟩
  terms := []
  trigramKeys := []
  seenPairs := []
  inGranule := 0
  minTs := 2 ^ 63 - 1
  maxTs := -2 ^ 63
  maxSeverity := -2 ^ 31
  lastAttrs := none
  lastResource := none

def addTrigram (b : LogIndexBuilder) (w : UInt8 × UInt8 × UInt8) : LogIndexBuilder :=
  if trigramKey w ∈ b.trigramKeys then b
  else { b with
    trigramKeys := b.trigramKeys ++ [trigramKey w]
    terms := b.terms ++ [trigramHash w] }

def addPair (b : LogIndexBuilder) (h : UInt64) : LogIndexBuilder :=
  if h ∈ b.seenPairs then b
  else { b with seenPairs := b.seenPairs ++ [h], terms := b.terms ++ [h] }

def addPairs (b : LogIndexBuilder) (labels : LabelSet) : LogIndexBuilder :=
  labels.entries.foldl
    (fun b kv => if fitsPair kv.1 kv.2 then b.addPair (pairHash kv.1 kv.2) else b) b

/-- A set is hashed once for a run of rows that share it. -/
def addAttrs (b : LogIndexBuilder) (attributes : LabelSet) : LogIndexBuilder :=
  if b.lastAttrs = some attributes then b
  else { b.addPairs attributes with lastAttrs := some attributes }

def addResource (b : LogIndexBuilder) (resource : LabelSet) : LogIndexBuilder :=
  if b.lastResource = some resource then b
  else { b.addPairs resource with lastResource := some resource }

def addId (b : LogIndexBuilder) (name : String) (id : Bytes) : LogIndexBuilder :=
  match idTerm name id with
  | some h => b.addPair h
  | none => b

def log2Ceil (n : ℕ) : ℕ := ((List.range 64).find? fun k => n ≤ 2 ^ k).getD 64

def closeGranule (b : LogIndexBuilder) : LogIndexBuilder :=
  if b.inGranule = 0 then b
  else
    let bits := min (max (log2Ceil (max b.terms.length 1 * 8)) 9) 21
    { new with table := { b.table with
        rows := b.table.rows + b.inGranule
        minTs := b.table.minTs ++ [b.minTs]
        maxTs := b.table.maxTs ++ [b.maxTs]
        maxSeverity := b.table.maxSeverity ++ [b.maxSeverity]
        bitsLog2 := b.table.bitsLog2 ++ [bits]
        bloom := b.table.bloom ++ fill (probes bits) (2 ^ bits / 8) b.terms } }

def widen (b : LogIndexBuilder) (log : LogRecord) : LogIndexBuilder :=
  { b with
    minTs := min b.minTs log.timestampNs
    maxTs := max b.maxTs log.timestampNs
    maxSeverity := max b.maxSeverity log.severityNumber }

def addTerms (b : LogIndexBuilder) (log : LogRecord) : LogIndexBuilder :=
  let b := (triples ((utf8 log.body).map toAsciiLowercase)).foldl addTrigram b
  let b := (b.addAttrs log.attributes).addResource log.resourceAttributes
  (b.addId "trace_id" log.traceId.toList).addId "span_id" log.spanId.toList

def countRow (b : LogIndexBuilder) : LogIndexBuilder := { b with inGranule := b.inGranule + 1 }

def pushRecord (b : LogIndexBuilder) (log : LogRecord) : LogIndexBuilder :=
  let b := ((b.widen log).addTerms log).countRow
  if b.inGranule = Storage.granuleRows then b.closeGranule else b

def finish (b : LogIndexBuilder) : LogIndexTable := b.closeGranule.table

end LogIndexBuilder

def logIndexTable (logs : List LogRecord) : LogIndexTable :=
  (logs.foldl LogIndexBuilder.pushRecord .new).finish

/-! ## The index -/

def offsetsFrom (start : ℕ) : List ℕ → List ℕ
  | [] => []
  | b :: bits => start :: offsetsFrom (start + 2 ^ b / 8) bits

/-- A block's skip index. Its granules account for all rows, and the filters fill the bytes. -/
structure LogSkipIndex where
  granuleRows : ℕ
  rows : ℕ
  minTs : List Int
  maxTs : List Int
  maxSeverity : List Int
  bitsLog2 : List ℕ
  offsets : List ℕ
  bloom : List (BitVec 8)
  granule_pos : 0 < granuleRows
  count : minTs.length = (rows + granuleRows - 1) / granuleRows
  lengths : maxTs.length = minTs.length ∧ maxSeverity.length = minTs.length ∧
    bitsLog2.length = minTs.length
  offsets_eq : offsets = offsetsFrom 0 bitsLog2
  bloom_length : bloom.length = (bitsLog2.map fun b => 2 ^ b / 8).sum

namespace LogIndexTable

def bad (what : String) : Error := .internal s!"corrupt log index: {what}"

def validate (t : LogIndexTable) : Except Error Unit :=
  if t.v ≠ 1 then .error (bad "unsupported version")
  else if t.maxTs.length ≠ t.minTs.length ∨ t.maxSeverity.length ≠ t.minTs.length ∨
      t.bitsLog2.length ≠ t.minTs.length then .error (bad "array lengths differ")
  else if t.granuleRows = 0 then .error (bad "empty granules")
  else if t.minTs.length ≠ (t.rows + t.granuleRows - 1) / t.granuleRows then
    .error (bad "granule count does not match the row count")
  else if t.bitsLog2.any fun b => ¬ (9 ≤ b ∧ b ≤ 21) then .error (bad "filter size out of range")
  else .ok ()

theorem validate_ok {t : LogIndexTable} : t.validate = .ok () ↔ t.v = 1 ∧
    (t.maxTs.length = t.minTs.length ∧ t.maxSeverity.length = t.minTs.length ∧
      t.bitsLog2.length = t.minTs.length) ∧ 0 < t.granuleRows ∧
    t.minTs.length = (t.rows + t.granuleRows - 1) / t.granuleRows ∧
    ∀ b ∈ t.bitsLog2, 9 ≤ b ∧ b ≤ 21 := by
  have hbits : (t.bitsLog2.any fun b => decide (¬ (9 ≤ b ∧ b ≤ 21))) = false ↔
      ∀ b ∈ t.bitsLog2, 9 ≤ b ∧ b ≤ 21 := by
    simp only [any_eq_false, decide_eq_true_eq, not_not]
  rw [← hbits]
  unfold validate
  constructor
  · intro h
    split_ifs at h with h1 h2 h3 h4 h5
    push Not at h1 h2 h4
    rw [Bool.not_eq_true] at h5
    exact ⟨h1, h2, Nat.pos_of_ne_zero h3, h4, h5⟩
  · rintro ⟨h1, ⟨h2, h2', h2''⟩, h3, h4, h5⟩
    rw [if_neg (not_not.mpr h1), if_neg (by omega), if_neg h3.ne', if_neg (not_not.mpr h4),
      if_neg (by rw [h5]; decide)]

end LogIndexTable

namespace LogSkipIndex

def fromTable (t : LogIndexTable) : Except Error LogSkipIndex :=
  match hv : t.validate with
  | .error e => .error e
  | .ok () =>
    if hfill : t.bloom.length = (t.bitsLog2.map fun b => 2 ^ b / 8).sum then
      .ok {
        granuleRows := t.granuleRows
        rows := t.rows
        minTs := t.minTs
        maxTs := t.maxTs
        maxSeverity := t.maxSeverity
        bitsLog2 := t.bitsLog2
        offsets := offsetsFrom 0 t.bitsLog2
        bloom := t.bloom
        granule_pos := (LogIndexTable.validate_ok.mp hv).2.2.1
        count := (LogIndexTable.validate_ok.mp hv).2.2.2.1
        lengths := (LogIndexTable.validate_ok.mp hv).2.1
        offsets_eq := rfl
        bloom_length := hfill }
    else .error (.internal "corrupt log index: filters do not fill the bloom data")

def mayContain (ix : LogSkipIndex) (granule : ℕ) (hash : UInt64) : Bool :=
  Lib.mayContain (probes (ix.bitsLog2.getD granule 0))
    (ix.bloom.drop (ix.offsets.getD granule 0)) hash

end LogSkipIndex

/-- The index in a file's footer: one that is invalid, or accounts for another number of rows
than the file has, is ignored. -/
def loadLogIndex (table : Option LogIndexTable) (rows : ℕ) : Option LogSkipIndex :=
  match table.map LogSkipIndex.fromTable with
  | some (.ok index) => if index.rows = rows then some index else none
  | _ => none

/-- Conditions that every wanted row meets, on the severity and body columns and on pairs of the
row's attributes. -/
structure LogColumnPrefilter where
  minSeverity : Option Int
  bodyContainsLower : List String
  attrEquals : List (String × String)
  exact : Bool
deriving DecidableEq

namespace LogColumnPrefilter

def isEmpty (pre : LogColumnPrefilter) : Bool :=
  pre.minSeverity.isNone && pre.bodyContainsLower.isEmpty && pre.attrEquals.isEmpty

def terms (pre : LogColumnPrefilter) : List UInt64 :=
  (pre.bodyContainsLower.flatMap fun needle => (triples (utf8 needle)).map trigramHash) ++
    (pre.attrEquals.filter fun p => fitsPair p.1 p.2).map fun p => pairHash p.1 p.2

end LogColumnPrefilter

namespace LogSkipIndex

def granuleKept (ix : LogSkipIndex) (startNs endNs : Int) (pre : Option LogColumnPrefilter)
    (g : ℕ) : Bool :=
  ¬ (ix.maxTs.getD g 0 < startNs ∨ endNs < ix.minTs.getD g 0 ∨
    ((pre.bind LogColumnPrefilter.minSeverity).any fun m => ix.maxSeverity.getD g 0 < m) ∨
    ¬ ((pre.elim [] LogColumnPrefilter.terms).all (ix.mayContain g)))

def granuleRange (ix : LogSkipIndex) (g : ℕ) : ℕ × ℕ :=
  (g * ix.granuleRows, min (g * ix.granuleRows + ix.granuleRows) ix.rows)

def candidateRanges (ix : LogSkipIndex) (startNs endNs : Int) (pre : Option LogColumnPrefilter) :
    List (ℕ × ℕ) :=
  mergeRanges (((List.range ix.minTs.length).filter (ix.granuleKept startNs endNs pre)).map
    ix.granuleRange)

end LogSkipIndex

/-! ## What the builder records -/

def pairTerms (labels : LabelSet) : List UInt64 :=
  (labels.entries.filter fun kv => fitsPair kv.1 kv.2).map fun kv => pairHash kv.1 kv.2

def rowTerms (log : LogRecord) : List UInt64 :=
  (triples ((utf8 log.body).map toAsciiLowercase)).map trigramHash ++
    (pairTerms log.attributes ++ pairTerms log.resourceAttributes) ++
    ((idTerm "trace_id" log.traceId.toList).toList ++ (idTerm "span_id" log.spanId.toList).toList)

namespace LogIndexBuilder

/-- Whatever was seen in this granule is among its terms. -/
structure Consistent (b : LogIndexBuilder) : Prop where
  keys : ∀ k ∈ b.trigramKeys, mix k ∈ b.terms
  pairs : ∀ h ∈ b.seenPairs, h ∈ b.terms
  attrs : ∀ l ∈ b.lastAttrs, pairTerms l ⊆ b.terms
  resource : ∀ l ∈ b.lastResource, pairTerms l ⊆ b.terms

structure Adds (b b' : LogIndexBuilder) (ts : List UInt64) : Prop where
  consistent : b'.Consistent
  grows : b.terms ⊆ b'.terms
  added : ts ⊆ b'.terms
  table : b'.table = b.table
  inGranule : b'.inGranule = b.inGranule
  minTs : b'.minTs = b.minTs
  maxTs : b'.maxTs = b.maxTs
  maxSeverity : b'.maxSeverity = b.maxSeverity

variable {b b' b'' : LogIndexBuilder} {ts ts' : List UInt64}

theorem Adds.refl (h : b.Consistent) : Adds b b [] :=
  ⟨h, List.Subset.refl _, nil_subset _, rfl, rfl, rfl, rfl, rfl⟩

theorem Adds.trans (h : Adds b b' ts) (h' : Adds b' b'' ts') : Adds b b'' (ts ++ ts') where
  consistent := h'.consistent
  grows := List.Subset.trans h.grows h'.grows
  added := append_subset.mpr ⟨List.Subset.trans h.added h'.grows, h'.added⟩
  table := h'.table.trans h.table
  inGranule := h'.inGranule.trans h.inGranule
  minTs := h'.minTs.trans h.minTs
  maxTs := h'.maxTs.trans h.maxTs
  maxSeverity := h'.maxSeverity.trans h.maxSeverity

theorem adds_addTrigram (h : b.Consistent) (w : UInt8 × UInt8 × UInt8) :
    Adds b (b.addTrigram w) [trigramHash w] := by
  unfold addTrigram
  split_ifs with hseen
  · exact ⟨h, List.Subset.refl _, cons_subset.mpr ⟨h.keys _ hseen, nil_subset _⟩, rfl,
      rfl, rfl, rfl, rfl⟩
  · have hgrows := subset_append_left b.terms [trigramHash w]
    refine ⟨⟨fun k hk => ?_, fun p hp => hgrows (h.pairs p hp),
      fun l hl => List.Subset.trans (h.attrs l hl) hgrows,
      fun l hl => List.Subset.trans (h.resource l hl) hgrows⟩,
      hgrows, subset_append_right _ _, rfl, rfl, rfl, rfl, rfl⟩
    rcases mem_append.mp hk with hk | hk
    · exact hgrows (h.keys k hk)
    · rw [mem_singleton.mp hk]
      exact mem_append_right _ (mem_singleton.mpr rfl)

theorem adds_addPair (h : b.Consistent) (p : UInt64) : Adds b (b.addPair p) [p] := by
  unfold addPair
  split_ifs with hseen
  · exact ⟨h, List.Subset.refl _, cons_subset.mpr ⟨h.pairs _ hseen, nil_subset _⟩, rfl,
      rfl, rfl, rfl, rfl⟩
  · have hgrows := subset_append_left b.terms [p]
    refine ⟨⟨fun k hk => hgrows (h.keys k hk), fun q hq => ?_,
      fun l hl => List.Subset.trans (h.attrs l hl) hgrows,
      fun l hl => List.Subset.trans (h.resource l hl) hgrows⟩,
      hgrows, subset_append_right _ _, rfl, rfl, rfl, rfl, rfl⟩
    rcases mem_append.mp hq with hq | hq
    · exact hgrows (h.pairs q hq)
    · exact mem_append_right _ hq

theorem adds_foldl {A : Type*} {step : LogIndexBuilder → A → LogIndexBuilder}
    (term : A → List UInt64) (hstep : ∀ b a, b.Consistent → Adds b (step b a) (term a))
    (h : b.Consistent) (as : List A) : Adds b (as.foldl step b) (as.flatMap term) := by
  induction as generalizing b with
  | nil => exact .refl h
  | cons a as ih =>
    have ha := hstep b a h
    exact ha.trans (ih ha.consistent)

theorem adds_addPairs (h : b.Consistent) (labels : LabelSet) :
    Adds b (b.addPairs labels) (pairTerms labels) := by
  have hterms : pairTerms labels = labels.entries.flatMap fun kv : String × String =>
      if fitsPair kv.1 kv.2 then [pairHash kv.1 kv.2] else [] := by
    rw [pairTerms]
    induction labels.entries with
    | nil => rfl
    | cons kv es ih =>
      rw [flatMap_cons, ← ih, filter_cons]
      split_ifs <;> rfl
  rw [hterms]
  refine adds_foldl _ (fun b kv hb => ?_) h labels.entries
  split_ifs
  · exact adds_addPair hb _
  · exact .refl hb

theorem adds_addAttrs (h : b.Consistent) (attributes : LabelSet) :
    Adds b (b.addAttrs attributes) (pairTerms attributes) := by
  unfold addAttrs
  split_ifs with hlast
  · exact ⟨h, List.Subset.refl _, h.attrs _ hlast, rfl, rfl, rfl, rfl, rfl⟩
  · obtain ⟨hc, hgrows, hadded, h1, h2, h3, h4, h5⟩ := adds_addPairs h attributes
    refine ⟨⟨hc.keys, hc.pairs, fun l hl => ?_, hc.resource⟩, hgrows, hadded, h1, h2, h3, h4, h5⟩
    cases hl
    exact hadded

theorem adds_addResource (h : b.Consistent) (resource : LabelSet) :
    Adds b (b.addResource resource) (pairTerms resource) := by
  unfold addResource
  split_ifs with hlast
  · exact ⟨h, List.Subset.refl _, h.resource _ hlast, rfl, rfl, rfl, rfl, rfl⟩
  · obtain ⟨hc, hgrows, hadded, h1, h2, h3, h4, h5⟩ := adds_addPairs h resource
    refine ⟨⟨hc.keys, hc.pairs, hc.attrs, fun l hl => ?_⟩, hgrows, hadded, h1, h2, h3, h4, h5⟩
    cases hl
    exact hadded

theorem adds_addId (h : b.Consistent) (name : String) (id : Bytes) :
    Adds b (b.addId name id) (idTerm name id).toList := by
  unfold addId
  cases idTerm name id with
  | none => exact .refl h
  | some p => exact adds_addPair h p

end LogIndexBuilder

/-! ## Granules -/

structure Granule where
  minTs : Int
  maxTs : Int
  maxSeverity : Int
  bits : ℕ
  filter : List (BitVec 8)

namespace Granule

structure Covers (g : Granule) (log : LogRecord) : Prop where
  minTs : g.minTs ≤ log.timestampNs
  maxTs : log.timestampNs ≤ g.maxTs
  severity : log.severityNumber ≤ g.maxSeverity
  terms : ∀ t ∈ rowTerms log, ∀ rest, Lib.mayContain (probes g.bits) (g.filter ++ rest) t = true

structure Sized (g : Granule) : Prop where
  bits : 9 ≤ g.bits ∧ g.bits ≤ 21
  filter : g.filter.length = 2 ^ g.bits / 8

end Granule

theorem probe_lt {bits p : ℕ} {t : UInt64} (hbits : 3 ≤ bits) (h : p ∈ probes bits t) :
    p / 8 < 2 ^ bits / 8 := by
  obtain ⟨i, -, rfl⟩ := mem_map.mp h
  have hlt : (t.toNat % 2 ^ 32 + i * (t.toNat / 2 ^ 32 ||| 1)) % 2 ^ bits < 2 ^ bits :=
    Nat.mod_lt _ (Nat.two_pow_pos bits)
  obtain ⟨k, rfl⟩ := Nat.exists_eq_add_of_le hbits
  rw [show 2 ^ (3 + k) = 8 * 2 ^ k by rw [Nat.pow_add]] at hlt ⊢
  omega

def tableOf (gs : List Granule) (rows : ℕ) : LogIndexTable where
  v := 1
  granuleRows := granuleRows
  rows := rows
  minTs := gs.map Granule.minTs
  maxTs := gs.map Granule.maxTs
  maxSeverity := gs.map Granule.maxSeverity
  bitsLog2 := gs.map Granule.bits
  bloom := gs.flatMap Granule.filter

/-- Every row is in the granule its position says. -/
def Covered (gs : List Granule) (logs : List LogRecord) (stop : ℕ) : Prop :=
  ∀ i < stop, ∀ log, logs[i]? = some log → ∃ g, gs[i / granuleRows]? = some g ∧ g.Covers log

namespace LogIndexBuilder

/-- A builder that was given `logs` and has closed the granules `gs`. -/
structure Holds (b : LogIndexBuilder) (logs : List LogRecord) (gs : List Granule) : Prop where
  table : b.table = tableOf gs (granuleRows * gs.length)
  consistent : b.Consistent
  count : logs.length = granuleRows * gs.length + b.inGranule
  sized : ∀ g ∈ gs, g.Sized
  closed : Covered gs logs (granuleRows * gs.length)
  minTs : ∀ log ∈ logs.drop (granuleRows * gs.length), b.minTs ≤ log.timestampNs
  maxTs : ∀ log ∈ logs.drop (granuleRows * gs.length), log.timestampNs ≤ b.maxTs
  severity : ∀ log ∈ logs.drop (granuleRows * gs.length), log.severityNumber ≤ b.maxSeverity
  terms : ∀ log ∈ logs.drop (granuleRows * gs.length), rowTerms log ⊆ b.terms

variable {b : LogIndexBuilder} {logs : List LogRecord} {gs : List Granule}

theorem Holds.new : new.Holds [] [] :=
  ⟨rfl, ⟨nofun, nofun, nofun, nofun⟩, rfl, nofun, nofun, nofun, nofun, nofun, nofun⟩

theorem adds_addTerms (h : b.Consistent) (log : LogRecord) :
    Adds b (b.addTerms log) (rowTerms log) := by
  have h1 := adds_foldl (fun w => [trigramHash w]) (fun b w hb => adds_addTrigram hb w) h
    (triples ((utf8 log.body).map toAsciiLowercase))
  rw [← map_eq_flatMap] at h1
  have h2 := adds_addAttrs h1.consistent log.attributes
  have h3 := adds_addResource h2.consistent log.resourceAttributes
  have h4 := adds_addId h3.consistent "trace_id" log.traceId.toList
  have h5 := adds_addId h4.consistent "span_id" log.spanId.toList
  exact (h1.trans (h2.trans h3)).trans (h4.trans h5)

theorem Holds.record (h : b.Holds logs gs) (log : LogRecord) :
    ((b.widen log).addTerms log).countRow.Holds (logs ++ [log]) gs := by
  have hc : (b.widen log).Consistent :=
    ⟨h.consistent.keys, h.consistent.pairs, h.consistent.attrs, h.consistent.resource⟩
  have hadds := adds_addTerms hc log
  have hstop : granuleRows * gs.length ≤ logs.length := h.count ▸ le_add_right _ _
  have hdrop : (logs ++ [log]).drop (granuleRows * gs.length) =
      logs.drop (granuleRows * gs.length) ++ [log] := drop_append_of_le_length hstop
  -- a fact about the rows of the open granule, old and new
  have hrows {P : LogRecord → Prop} (hold : ∀ x ∈ logs.drop (granuleRows * gs.length), P x)
      (hnew : P log) : ∀ x ∈ (logs ++ [log]).drop (granuleRows * gs.length), P x := by
    rw [hdrop]
    exact forall_mem_append.mpr ⟨hold, forall_mem_singleton.mpr hnew⟩
  refine ⟨hadds.table.trans h.table,
    ⟨hadds.consistent.keys, hadds.consistent.pairs, hadds.consistent.attrs,
      hadds.consistent.resource⟩, ?_, h.sized, ?_, ?_, ?_, ?_, ?_⟩
  · show _ = _ + (((b.widen log).addTerms log).inGranule + 1)
    rw [hadds.inGranule, length_append, h.count]
    rfl
  · intro i hi x hx
    rw [List.getElem?_append_left (hi.trans_le hstop)] at hx
    exact h.closed i hi x hx
  · show ∀ x ∈ _, ((b.widen log).addTerms log).minTs ≤ _
    rw [hadds.minTs]
    exact hrows (fun x hx => (min_le_left _ _).trans (h.minTs x hx)) (min_le_right _ _)
  · show ∀ x ∈ _, _ ≤ ((b.widen log).addTerms log).maxTs
    rw [hadds.maxTs]
    exact hrows (fun x hx => (h.maxTs x hx).trans (le_max_left _ _)) (le_max_right _ _)
  · show ∀ x ∈ _, _ ≤ ((b.widen log).addTerms log).maxSeverity
    rw [hadds.maxSeverity]
    exact hrows (fun x hx => (h.severity x hx).trans (le_max_left _ _)) (le_max_right _ _)
  · exact hrows (fun x hx => List.Subset.trans (h.terms x hx) hadds.grows) hadds.added

def granule (b : LogIndexBuilder) : Granule where
  minTs := b.minTs
  maxTs := b.maxTs
  maxSeverity := b.maxSeverity
  bits := min (max (log2Ceil (max b.terms.length 1 * 8)) 9) 21
  filter := fill (probes (min (max (log2Ceil (max b.terms.length 1 * 8)) 9) 21))
    (2 ^ (min (max (log2Ceil (max b.terms.length 1 * 8)) 9) 21) / 8) b.terms

theorem closeGranule_eq (h : b.table = tableOf gs (granuleRows * gs.length))
    (hpos : 0 < b.inGranule) : b.closeGranule =
      { LogIndexBuilder.new with
        table := tableOf (gs ++ [b.granule]) (granuleRows * gs.length + b.inGranule) } := by
  rw [closeGranule, if_neg hpos.ne', h]
  simp only [tableOf, map_append, map_singleton, flatMap_append, flatMap_singleton, granule]

theorem Holds.sized_granule (b : LogIndexBuilder) : b.granule.Sized :=
  ⟨⟨by simp [granule], by simp [granule]⟩, length_fill _ _⟩

theorem Holds.granule_covers (h : b.Holds logs gs) {log : LogRecord}
    (hlog : log ∈ logs.drop (granuleRows * gs.length)) : b.granule.Covers log where
  minTs := h.minTs log hlog
  maxTs := h.maxTs log hlog
  severity := h.severity log hlog
  terms t ht rest := mayContain_fill (h.terms log hlog ht)
    (fun p hp => probe_lt ((by decide : 3 ≤ 9).trans (Holds.sized_granule b).bits.1) hp) rest

theorem Holds.covered (h : b.Holds logs gs) (hle : b.inGranule ≤ granuleRows) :
    Covered (gs ++ [b.granule]) logs logs.length := by
  intro i hi log hlog
  by_cases hold : i < granuleRows * gs.length
  · obtain ⟨g, hg, hcov⟩ := h.closed i hold log hlog
    exact ⟨g, getElem?_append_of hg _, hcov⟩
  · have hdiv : i / granuleRows = gs.length := by
      rw [h.count] at hi
      have hpos : 0 < granuleRows := by decide
      rw [Nat.div_eq_iff hpos]
      rw [Nat.mul_comm] at hold hi
      omega
    refine ⟨b.granule, by rw [hdiv, getElem?_concat_length], h.granule_covers ?_⟩
    refine mem_of_getElem? (i := i - granuleRows * gs.length) ?_
    rw [getElem?_drop, ← hlog]
    congr 1
    omega

theorem Holds.pushRecord (h : b.Holds logs gs) (hlt : b.inGranule < granuleRows)
    (log : LogRecord) : ∃ gs', (b.pushRecord log).Holds (logs ++ [log]) gs' ∧
      (b.pushRecord log).inGranule < granuleRows := by
  have hrec := h.record log
  have hcount : ((b.widen log).addTerms log).countRow.inGranule = b.inGranule + 1 := by
    have h1 := hrec.count
    have h2 := h.count
    rw [length_append, length_singleton] at h1
    omega
  rw [LogIndexBuilder.pushRecord]
  generalize ((b.widen log).addTerms log).countRow = b' at hrec hcount ⊢
  split_ifs with hfull
  · rw [closeGranule_eq hrec.table (by omega)]
    have hlen :
        granuleRows * (gs ++ [b'.granule]).length = granuleRows * gs.length + b'.inGranule := by
      rw [hfull, length_append, length_singleton, Nat.mul_add, Nat.mul_one]
    have hall : (logs ++ [log]).length = granuleRows * (gs ++ [b'.granule]).length := by
      rw [hlen, hrec.count]
    have hcov := hrec.covered hfull.le
    rw [hall] at hcov
    have hopen : (logs ++ [log]).drop (granuleRows * (gs ++ [b'.granule]).length) = [] := by
      rw [← hall, drop_length]
    refine ⟨gs ++ [b'.granule], ⟨by rw [hlen], ⟨nofun, nofun, nofun, nofun⟩, hall, ?_, hcov, ?_, ?_,
      ?_, ?_⟩, (by decide : 0 < granuleRows)⟩
    · exact forall_mem_append.mpr
        ⟨hrec.sized, forall_mem_singleton.mpr (Holds.sized_granule b')⟩
    all_goals rw [hopen]; exact nofun
  · exact ⟨gs, hrec, by omega⟩

theorem exists_holds (logs : List LogRecord) : ∃ gs,
    (logs.foldl LogIndexBuilder.pushRecord .new).Holds logs gs ∧
      (logs.foldl LogIndexBuilder.pushRecord .new).inGranule < granuleRows := by
  induction logs using List.reverseRecOn with
  | nil => exact ⟨[], Holds.new, by decide⟩
  | append_singleton logs log ih =>
    obtain ⟨gs, h, hlt⟩ := ih
    rw [foldl_concat]
    exact h.pushRecord hlt log

end LogIndexBuilder

/-- **What a block's writer records** covers every row. -/
theorem logIndexTable_covered (logs : List LogRecord) : ∃ gs : List Granule,
    logIndexTable logs = tableOf gs logs.length ∧ (∀ g ∈ gs, g.Sized) ∧
      gs.length = (logs.length + granuleRows - 1) / granuleRows ∧
      Covered gs logs logs.length := by
  obtain ⟨gs, h, hlt⟩ := LogIndexBuilder.exists_holds logs
  rw [logIndexTable, LogIndexBuilder.finish]
  generalize logs.foldl LogIndexBuilder.pushRecord .new = b at h hlt
  have hpos : 0 < granuleRows := by decide
  have hcount := h.count
  by_cases hnone : b.inGranule = 0
  · rw [LogIndexBuilder.closeGranule, if_pos hnone, h.table]
    rw [hnone, Nat.add_zero] at hcount
    refine ⟨gs, by rw [hcount], h.sized, ?_, by rw [hcount]; exact h.closed⟩
    rw [hcount, Nat.add_sub_assoc (by decide), Nat.mul_add_div hpos, Nat.div_eq_of_lt (by decide),
      Nat.add_zero]
  · rw [LogIndexBuilder.closeGranule_eq h.table (Nat.pos_of_ne_zero hnone), ← hcount]
    refine ⟨gs ++ [b.granule], rfl, ?_, ?_, h.covered hlt.le⟩
    · exact forall_mem_append.mpr
        ⟨h.sized, forall_mem_singleton.mpr (LogIndexBuilder.Holds.sized_granule b)⟩
    · rw [length_append, length_singleton, hcount]
      symm
      rw [Nat.div_eq_iff hpos, Nat.add_mul, Nat.one_mul, Nat.mul_comm gs.length]
      omega

/-! ## Reading the index -/

theorem sum_sizes {gs : List Granule} (hsized : ∀ g ∈ gs, g.Sized) :
    ((gs.map Granule.bits).map fun b => 2 ^ b / 8).sum = (gs.flatMap Granule.filter).length := by
  induction gs with
  | nil => rfl
  | cons g gs ih =>
    obtain ⟨hg, hgs⟩ := forall_mem_cons.mp hsized
    rw [map_cons, map_cons, sum_cons, ih hgs, flatMap_cons, length_append, hg.filter]

variable {i : ℕ}

theorem drop_offset {gs : List Granule} (hsized : ∀ g ∈ gs, g.Sized) {g : Granule}
    (hg : gs[i]? = some g) (pre : List (BitVec 8)) : ∃ rest,
      (pre ++ gs.flatMap Granule.filter).drop
        ((offsetsFrom pre.length (gs.map Granule.bits)).getD i 0) = g.filter ++ rest := by
  induction gs generalizing i pre with
  | nil => cases hg
  | cons g' gs ih =>
    obtain ⟨hg', hgs⟩ := forall_mem_cons.mp hsized
    rw [map_cons, offsetsFrom, flatMap_cons]
    cases i with
    | zero =>
      cases hg
      exact ⟨gs.flatMap Granule.filter, drop_left⟩
    | succ i =>
      rw [getD_cons_succ, ← append_assoc, ← hg'.filter, ← length_append]
      exact ih hgs hg (pre ++ g'.filter)

/-- What an index tells about a row of granule `g`. -/
structure LogSkipIndex.Covers (ix : LogSkipIndex) (g : ℕ) (log : LogRecord) : Prop where
  minTs : ix.minTs.getD g 0 ≤ log.timestampNs
  maxTs : log.timestampNs ≤ ix.maxTs.getD g 0
  severity : log.severityNumber ≤ ix.maxSeverity.getD g 0
  terms : ∀ t ∈ rowTerms log, ix.mayContain g t = true

theorem LogSkipIndex.fromTable_ok {t : LogIndexTable} (hv : t.validate = .ok ())
    (hfill : t.bloom.length = (t.bitsLog2.map fun b => 2 ^ b / 8).sum) :
    ∃ ix, fromTable t = .ok ix ∧ ix.granuleRows = t.granuleRows ∧ ix.rows = t.rows ∧
      ix.minTs = t.minTs ∧ ix.maxTs = t.maxTs ∧ ix.maxSeverity = t.maxSeverity ∧
      ix.bitsLog2 = t.bitsLog2 ∧ ix.bloom = t.bloom := by
  unfold fromTable
  split
  · next e he => rw [hv] at he; cases he
  · rw [dif_pos hfill]
    exact ⟨_, rfl, rfl, rfl, rfl, rfl, rfl, rfl, rfl⟩

/-- **The index of a block** is loaded, accounts for its rows and tells nothing wrong about any
of them. -/
theorem logsToBlock_index (logs : List LogRecord) : ∃ ix,
    loadLogIndex (some (logIndexTable logs)) logs.length = some ix ∧
      ix.rows = logs.length ∧ ix.granuleRows = granuleRows ∧
      ∀ i log, logs[i]? = some log → ix.Covers (i / granuleRows) log := by
  obtain ⟨gs, htable, hsized, hlen, hcov⟩ := logIndexTable_covered logs
  have hvalid : (tableOf gs logs.length).validate = .ok () := by
    rw [LogIndexTable.validate_ok]
    refine ⟨rfl, by simp [tableOf], (by decide : 0 < granuleRows), by simpa [tableOf] using hlen,
      fun b hb => ?_⟩
    obtain ⟨g, hg, rfl⟩ := mem_map.mp hb
    exact (hsized g hg).bits
  obtain ⟨ix, hix, hgran, hrows, hmin, hmax, hsev, hbits, hbloom⟩ :=
    LogSkipIndex.fromTable_ok hvalid (sum_sizes hsized).symm
  refine ⟨ix, ?_, hrows, hgran, fun i log hlog => ?_⟩
  · rw [loadLogIndex, htable, Option.map_some, hix]
    exact if_pos hrows
  · obtain ⟨g, hg, hcovers⟩ := hcov i (List.getElem?_eq_some_iff.mp hlog).1 log hlog
    -- a column of the table at the row's granule
    have hcol {A : Type} (f : Granule → A) (a : A) : (gs.map f).getD (i / granuleRows) a = f g := by
      rw [getD_eq_getElem?_getD, getElem?_map, hg]
      rfl
    refine ⟨?_, ?_, ?_, fun t ht => ?_⟩
    · rw [hmin]; exact (hcol Granule.minTs 0).trans_le hcovers.minTs
    · rw [hmax]; exact hcovers.maxTs.trans_eq (hcol Granule.maxTs 0).symm
    · rw [hsev]; exact hcovers.severity.trans_eq (hcol Granule.maxSeverity 0).symm
    · obtain ⟨rest, hrest⟩ := drop_offset hsized hg []
      rw [LogSkipIndex.mayContain, hbits, hbloom, ix.offsets_eq, hbits]
      show Lib.mayContain (probes ((gs.map Granule.bits).getD _ 0))
        (([] ++ gs.flatMap Granule.filter).drop _) t = true
      rw [hcol Granule.bits 0]
      exact hrest ▸ hcovers.terms t ht rest

/-! ## Which rows are read -/

namespace LogSkipIndex

variable (ix : LogSkipIndex) (startNs endNs : Int) (pre : Option LogColumnPrefilter)

theorem granule_lt {g : ℕ} (hg : g < ix.minTs.length) : g * ix.granuleRows < ix.rows := by
  rw [ix.count, lt_div_iff_mul_lt ix.granule_pos] at hg
  omega

theorem granuleRanges (f : ℕ → Bool) :
    Ranges (((List.range ix.minTs.length).filter f).map ix.granuleRange) := by
  refine ⟨pairwise_map.mpr ((pairwise_lt_range.filter f).imp fun {a b} hab => ?_),
    fun r hr => ?_⟩
  · have hstep := mul_le_mul_right ix.granuleRows (succ_le_of_lt hab)
    rw [succ_mul] at hstep
    exact (min_le_left _ _).trans hstep
  · obtain ⟨g, hg, rfl⟩ := mem_map.mp hr
    have := ix.granule_lt (mem_range.mp (mem_filter.mp hg).1)
    simp only [granuleRange]
    omega

theorem inRanges_candidateRanges (hi : i < ix.rows) :
    inRanges (ix.candidateRanges startNs endNs pre) i =
      ix.granuleKept startNs endNs pre (i / ix.granuleRows) := by
  have hpos := ix.granule_pos
  rw [candidateRanges, (mergeRanges_spec (ix.granuleRanges _)).2, Bool.eq_iff_iff, inRanges_iff]
  constructor
  · rintro ⟨r, hr, hlo, hhi⟩
    obtain ⟨g, hg, rfl⟩ := mem_map.mp hr
    have hdiv : i / ix.granuleRows = g := by
      rw [Nat.div_eq_iff hpos]
      simp only [granuleRange] at hlo hhi
      omega
    rw [hdiv]
    exact (mem_filter.mp hg).2
  · intro hkept
    have hmod := div_add_mod i ix.granuleRows
    have hlt := Nat.mod_lt i hpos
    rw [Nat.mul_comm] at hmod
    refine ⟨ix.granuleRange (i / ix.granuleRows), mem_map_of_mem (mem_filter.mpr
      ⟨mem_range.mpr ?_, hkept⟩), ?_, ?_⟩
    · rw [ix.count, lt_div_iff_mul_lt hpos]
      omega
    · exact div_mul_le_self _ _
    · simp only [granuleRange]
      omega

theorem lt_rows_of_candidate (hi : inRanges (ix.candidateRanges startNs endNs pre) i = true) :
    i < ix.rows := by
  rw [candidateRanges, (mergeRanges_spec (ix.granuleRanges _)).2, inRanges_iff] at hi
  obtain ⟨r, hr, -, hlt⟩ := hi
  obtain ⟨g, -, rfl⟩ := mem_map.mp hr
  exact hlt.trans_le (min_le_right _ _)

theorem ranges_candidateRanges : Ranges (ix.candidateRanges startNs endNs pre) :=
  (mergeRanges_spec (ix.granuleRanges _)).1

/-! ## Damaged tables -/

theorem offsetsFrom_bound {bits : List ℕ} {g b : ℕ} (hg : bits[g]? = some b) (start : ℕ) :
    ∃ offset, (offsetsFrom start bits)[g]? = some offset ∧
      offset + 2 ^ b / 8 ≤ start + (bits.map fun b => 2 ^ b / 8).sum := by
  induction bits generalizing start g with
  | nil => cases hg
  | cons b' bits ih =>
    rw [offsetsFrom, map_cons, sum_cons]
    cases g with
    | zero =>
      cases hg
      exact ⟨start, rfl, by omega⟩
    | succ g =>
      obtain ⟨offset, hoffset, hle⟩ := ih hg (start + 2 ^ b' / 8)
      exact ⟨offset, hoffset, by omega⟩

/-- All that a query reads of a granule lies within the arrays, and the granule's rows do not
overflow. -/
structure InBounds (g : ℕ) (hash : UInt64) : Prop where
  columns : g < ix.minTs.length ∧ g < ix.maxTs.length ∧ g < ix.maxSeverity.length
  filter : ∃ bits offset, ix.bitsLog2[g]? = some bits ∧ bits < 64 ∧ ix.offsets[g]? = some offset ∧
    offset ≤ ix.bloom.length ∧ ∀ p ∈ probes bits hash, p / 8 < (ix.bloom.drop offset).length
  rows : g * ix.granuleRows + ix.granuleRows < 2 ^ 64

variable {ix}

theorem fromTable_bounds {table : LogIndexTable} (h : fromTable table = .ok ix) :
    ix.granuleRows = table.granuleRows ∧ ix.rows = table.rows ∧
      ∀ b ∈ ix.bitsLog2, 9 ≤ b ∧ b ≤ 21 := by
  unfold fromTable at h
  split at h
  · cases h
  · next hv =>
    split_ifs at h with hfill
    cases h
    exact ⟨rfl, rfl, (LogIndexTable.validate_ok.mp hv).2.2.2.2⟩

/-- **An index that is accepted is safe**, whatever its table holds: a query reads within the
arrays, whatever its terms hash to, and the ranges it gets are apart, in order and within the
rows. -/
theorem accepted_index_safe {table : LogIndexTable} (hgran : table.granuleRows < 2 ^ 32)
    (hrows : table.rows < 2 ^ 63) (hix : fromTable table = .ok ix) :
    (∀ g < ix.minTs.length, ∀ hash, ix.InBounds g hash) ∧
      ∀ startNs endNs pre, Apart (ix.candidateRanges startNs endNs pre) ∧
        ∀ r ∈ ix.candidateRanges startNs endNs pre, r.2 ≤ ix.rows := by
  obtain ⟨hgran', hrows', hbits⟩ := fromTable_bounds hix
  obtain ⟨hmax, hsev, hlen⟩ := ix.lengths
  refine ⟨fun g hg hash => ?_, fun startNs endNs pre => ?_⟩
  · have hlt := ix.granule_lt hg
    refine ⟨by omega, ?_, by omega⟩
    obtain ⟨bits, hget⟩ : ∃ bits, ix.bitsLog2[g]? = some bits :=
      ⟨_, List.getElem?_eq_getElem (hlen ▸ hg)⟩
    obtain ⟨hlo, hhi⟩ := hbits bits (List.mem_of_getElem? hget)
    obtain ⟨offset, hoffset, hle⟩ := offsetsFrom_bound hget 0
    rw [zero_add, ← ix.bloom_length] at hle
    refine ⟨bits, offset, hget, by omega, ix.offsets_eq ▸ hoffset,
      le_of_add_right_le hle, fun p hp => ?_⟩
    have := probe_lt (by omega) hp
    rw [length_drop]
    omega
  · have hapart : Apart (ix.candidateRanges startNs endNs pre) := by
      refine apart_mergeRanges (ix.granuleRanges _) fun r hr => ?_
      obtain ⟨g, hg, rfl⟩ := mem_map.mp hr
      have := ix.granule_lt (mem_range.mp (mem_filter.mp hg).1)
      have := ix.granule_pos
      simp only [granuleRange]
      omega
    refine ⟨hapart, fun r hr => ?_⟩
    have hne := hapart.2 r hr
    have := ix.lt_rows_of_candidate startNs endNs pre (inRanges_iff.mpr
      ⟨r, hr, le_sub_one_of_lt hne, sub_one_lt_of_lt hne⟩)
    omega

theorem accepted_index_safe_two_granules :
    let table : LogIndexTable := ⟨1, 4, 5, [1, 9], [8, 9], [9, 5], [9, 10], replicate 192 255⟩
    ∃ ix, fromTable table = .ok ix ∧ (∀ g < 2, ∀ hash, ix.InBounds g hash) ∧
      ∀ startNs endNs pre, Apart (ix.candidateRanges startNs endNs pre) ∧
        ∀ r ∈ ix.candidateRanges startNs endNs pre, r.2 ≤ 5 := by
  intro table
  obtain ⟨ix, hix, -, hrows, hmin, -⟩ := @fromTable_ok table (by decide) length_replicate
  have hsafe := accepted_index_safe (by decide) (by decide) hix
  rw [hmin, hrows] at hsafe
  exact ⟨ix, hix, hsafe⟩

end LogSkipIndex

end Parqtel.Storage
