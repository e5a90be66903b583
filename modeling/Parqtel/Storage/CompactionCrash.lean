import Parqtel.Lib.Selection
import Parqtel.Storage.Compactor

/-!
# Crashes during compaction

A compaction pass may be stopped after any of its effects. The restart then has the files
and the sidecar to go by, and neither tells it which blocks were merged into which. Metric
blocks are adopted under any name, also that of a temporary file: as soon as the merged
file is complete, the rows of all sources that are still there are found twice. A merged block of
logs or traces is never adopted: until the sidecar lists it, every source that is deleted takes its
rows along, also while the next merges of the pass are under way. `compaction_crash_iff` says for
every state of a run whether a restart from it finds each row once.
-/

namespace Parqtel.Storage

open Parqtel.Lib Parqtel.Ingest List AList BlockMetadata Compactor

variable {R : Type*}

/-! ## The property -/

def BlockIndex.paths (ix : BlockIndex) : List Path := ix.blocks.map path

def Disk.rowsAt (disk : Disk R) (p : Path) : List R :=
  match disk.lookup p with
  | some (.parquet file) => file.rows
  | _ => []

abbrev Merge.paths (m : Merge R) : List Path := m.sources.map path

def scan (disk : Disk R) (ix : BlockIndex) : List R := ix.paths.flatMap disk.rowsAt

namespace Compactor

variable (env : Compactor R)

def restart (s : CompactionState R) : BlockIndex :=
  Storage.restart env.kind env.config.dataDir s.disk s.sidecar

def listed (sidecar : Sidecar) : List Path := listedPaths env.config.dataDir sidecar

/-- After a restart from `s` a scan returns what it returned in `s₀`, each row once. -/
def ExactAfterRestart (s₀ s : CompactionState R) : Prop :=
  (scan s.disk (env.restart s)).Perm (scan s₀.disk s₀.index)

instance [DecidableEq R] (s₀ s : CompactionState R) : Decidable (env.ExactAfterRestart s₀ s) :=
  inferInstanceAs (Decidable (List.Perm _ _))

def holdsBlock (disk : Disk R) (p : Path) : Bool :=
  (match disk.lookup p with
    | some (.parquet file) => file.columns = env.kind.schema && !file.rows.isEmpty
    | _ => false) && p.dir = env.config.dataDir && isParquet p.file

/-- A restart that finds the sidecar takes the block at `p`, if it is there: it is listed, or has a
name that reconciling accepts. -/
def findable (sidecar : Sidecar) (p : Path) : Bool :=
  p ∈ env.listed sidecar || filenameMayHoldSignal p.file env.kind.signal

/-- No merge is under way, and a restart finds no block but those of the index. -/
structure Settled (s : CompactionState R) : Prop where
  idle : idle s.merge
  nodup : s.index.paths.Nodup
  blocks : ∀ p ∈ s.index.paths, env.holdsBlock s.disk p
  restart : (env.restart s).paths.Subperm s.index.paths
  metrics : env.kind.signal = .metrics → ∀ p ∈ s.index.paths, env.findable s.sidecar p

instance (s : CompactionState R) : Decidable (env.Settled s) :=
  decidable_of_iff (Compactor.idle s.merge ∧ s.index.paths.Nodup ∧
      (∀ p ∈ s.index.paths, env.holdsBlock s.disk p) ∧
      (env.restart s).paths.Subperm s.index.paths ∧
      (env.kind.signal = .metrics → ∀ p ∈ s.index.paths, env.findable s.sidecar p))
    ⟨fun h => ⟨h.1, h.2.1, h.2.2.1, h.2.2.2.1, h.2.2.2.2⟩,
      fun h => ⟨h.idle, h.nodup, h.blocks, h.restart, h.metrics⟩⟩

def Fresh (s : CompactionState R) (b : Block R) : Prop :=
  ∀ p ∈ [b.metadata.path, tmpPath b], p ∉ s.disk.paths ∧ p ∉ env.listed s.sidecar

instance (s : CompactionState R) (b : Block R) : Decidable (env.Fresh s b) :=
  inferInstanceAs (Decidable (∀ p ∈ _, _))

def freshNames (s : CompactionState R) (io : BlockIo) : Bool :=
  match s.merge with
  | some ⟨sources, .selected⟩ =>
    match env.mergeSources s.disk sources io with
    | .ok (some b) => env.Fresh s b
    | _ => true
  | _ => true

/-- The guard of a run: when a merge starts, those before it have left no source behind, and names
are fresh. -/
def compactionOk (s : CompactionState R) : CompactionEvent → Prop
  | .start _ => env.Settled s
  | .beginWrite io => env.freshNames s io
  | _ => True

instance (s : CompactionState R) (e : CompactionEvent) : Decidable (env.compactionOk s e) := by
  unfold compactionOk
  split <;> infer_instance

/-- The states from which a restart finds every row once, by the last merge. That all blocks of the
index are found is the condition on the merges before it. -/
def HarmlessIn (s : CompactionState R) : Option (Merge R) → Prop
  | some ⟨_, .written _⟩ | some ⟨_, .renamed _⟩ =>
    env.kind.signal ≠ .metrics ∧ ∀ p ∈ s.index.paths, env.findable s.sidecar p
  | some ⟨sources, .published b _⟩ =>
    let src := sources.map path
    if env.findable s.sidecar b.metadata.path then
      ∀ p ∈ src, p ∈ s.disk.paths → ¬ env.findable s.sidecar p
    else (∀ p ∈ s.index.paths, p ≠ b.metadata.path → env.findable s.sidecar p) ∧
      ∀ p ∈ src, p ∈ s.disk.paths ∧ env.findable s.sidecar p
  | none | some ⟨_, .selected⟩ | some ⟨_, .writing _⟩ | some ⟨_, .emptied⟩ =>
    ∀ p ∈ s.index.paths, env.findable s.sidecar p

instance (s : CompactionState R) (m : Option (Merge R)) : Decidable (env.HarmlessIn s m) := by
  unfold HarmlessIn
  split <;> infer_instance

def Harmless (s : CompactionState R) : Prop := env.HarmlessIn s s.merge

instance (s : CompactionState R) : Decidable (env.Harmless s) :=
  inferInstanceAs (Decidable (env.HarmlessIn s s.merge))

end Compactor

/-! ## Entries of a restart -/

section
variable {kind : SignalKind R} {dir : List String} {listed : List Path} {p : Path}
  {content : FileContent R}

theorem entriesFor_of_count_zero (h : listed.count p = 0) :
    entriesFor kind dir listed p content = entriesFor kind dir [] p content := by
  simp [entriesFor, h]

theorem entriesFor_nil_of_zero (h : entriesFor kind dir listed p content = 0) :
    entriesFor kind dir [] p content = 0 := by
  unfold entriesFor at h ⊢
  split_ifs at h ⊢ <;> simp_all

theorem entriesFor_block {file : ParquetFile R} (hcols : file.columns = kind.schema)
    (hdir : p.dir = dir) (hext : isParquet p.file) (hle : listed.count p ≤ 1) :
    entriesFor kind dir listed p (.parquet file) =
      if p ∈ listed || filenameMayHoldSignal p.file kind.signal then 1 else 0 := by
  by_cases hp : p ∈ listed
  · have hone : listed.count p = 1 := le_antisymm hle (count_pos_iff.mpr hp)
    simp [entriesFor, hdir, hext, hp, hone]
  · simp [entriesFor, hdir, hext, hp, count_eq_zero.mpr hp, isSome_adopts_own hcols]

theorem entriesFor_le_one (hle : listed.count p ≤ 1) :
    entriesFor kind dir listed p content ≤ 1 := by
  unfold entriesFor
  split_ifs <;> omega

theorem entriesFor_damaged (message : String) :
    entriesFor kind dir [] p (.damaged message) = 0 := by
  simp [entriesFor, adopts, readBlockMetadata]

end

namespace Compactor

variable {env : Compactor R}

theorem count_restart_paths (env : Compactor R) (s : CompactionState R) (p : Path) :
    (env.restart s).paths.count p = (s.disk.lookup p).elim 0
      (entriesFor env.kind env.config.dataDir (env.listed s.sidecar) p) :=
  count_restart _ _ _ _ _

variable {disk : Disk R} {p : Path}

theorem holdsBlock_iff : env.holdsBlock disk p ↔ ∃ file, disk.lookup p = some (.parquet file) ∧
      file.columns = env.kind.schema ∧ file.rows ≠ [] ∧ p.dir = env.config.dataDir ∧
      isParquet p.file := by
  unfold holdsBlock
  rcases disk.lookup p with _ | (file | message) <;> simp [and_assoc]

/-! ## The state a merge starts from -/

/-- The disk and index from which a merge starts. -/
structure Base (env : Compactor R) (disk : Disk R) (ix : BlockIndex) : Prop where
  nodup : ix.paths.Nodup
  blocks : ∀ p ∈ ix.paths, env.holdsBlock disk p
  /-- No other file would be adopted. -/
  quiet : ∀ p content, disk.lookup p = some content → p ∉ ix.paths →
    entriesFor env.kind env.config.dataDir [] p content = 0

/-- A sidecar by which a restart from the disk finds no block but those of the index. -/
structure Tidy (env : Compactor R) (disk : Disk R) (ix : BlockIndex) (sidecar : Sidecar) :
    Prop where
  once : ∀ p ∈ ix.paths, (env.listed sidecar).count p ≤ 1
  others : ∀ p content, disk.lookup p = some content → p ∉ ix.paths →
    entriesFor env.kind env.config.dataDir (env.listed sidecar) p content = 0

variable {disk : Disk R} {ix : BlockIndex} {sidecar : Sidecar}

theorem Settled.tidy {s : CompactionState R} (h : env.Settled s) :
    Tidy env s.disk s.index s.sidecar := by
  constructor
  · intro p hp
    obtain ⟨file, hl, -, -, hdir, hext⟩ := holdsBlock_iff.mp (h.blocks p hp)
    have hle := h.restart.count_le p
    rw [count_restart_paths, hl, Option.elim_some, count_eq_one_of_mem h.nodup hp, entriesFor,
      if_pos ⟨hdir, hext⟩] at hle
    omega
  · intro p content hl hp
    have hle := h.restart.count_le p
    rw [count_restart_paths, hl, Option.elim_some, count_eq_zero.mpr hp] at hle
    exact Nat.le_zero.mp hle

theorem Settled.base {s : CompactionState R} (h : env.Settled s) : Base env s.disk s.index :=
  ⟨h.nodup, h.blocks, fun p content hl hp => entriesFor_nil_of_zero (h.tidy.others p content hl hp)⟩

theorem Base.tidy (h : Base env disk ix) {l : List Path} (hl : (env.listed sidecar).Perm l)
    (hnd : l.Nodup) (hsub : ∀ p ∈ l, p ∈ ix.paths ∨ disk.lookup p = none) :
    Tidy env disk ix sidecar := by
  refine ⟨fun p _ => hl.count_eq p ▸ nodup_iff_count_le_one.mp hnd p, fun p content hlook hp => ?_⟩
  rw [entriesFor_of_count_zero (count_eq_zero.mpr fun hmem => ?_)]
  · exact h.quiet p content hlook hp
  · rcases hsub p (hl.mem_iff.mp hmem) with h' | h'
    · exact hp h'
    · rw [hlook] at h'
      cases h'

theorem findable_of_listed (h : p ∈ env.listed sidecar) : env.findable sidecar p := by
  simp [findable, h]

theorem listed_payload (env : Compactor R) (blocks : List BlockMetadata) :
    (env.listed (.payload blocks)).Perm (blocks.map path) :=
  (sortByKey_perm _ _).map _

/-! ## What a restart finds during a merge -/

/-- The disk during a merge: one file more than at its start, and some of the sources less. -/
structure Overlay (disk₀ disk : Disk R) (extra : Option (Path × FileContent R))
    (src : List Path) : Prop where
  file : ∀ e ∈ extra, disk.lookup e.1 = some e.2
  rest : ∀ p, (∀ e ∈ extra, e.1 ≠ p) →
    disk.lookup p = disk₀.lookup p ∨ p ∈ src ∧ disk.lookup p = none

def shown (env : Compactor R) (sidecar : Sidecar) : Option (Path × FileContent R) → List Path
  | none => []
  | some e =>
    if entriesFor env.kind env.config.dataDir (env.listed sidecar) e.1 e.2 = 0 then [] else [e.1]

theorem exists_of_mem_shown {extra : Option (Path × FileContent R)}
    (h : p ∈ shown env sidecar extra) :
    ∃ e ∈ extra, e.1 = p := by
  cases extra with
  | none => cases h
  | some e =>
    rw [shown] at h
    split_ifs at h
    · cases h
    · exact ⟨e, rfl, (mem_singleton.mp h).symm⟩

variable {s : CompactionState R} {extra : Option (Path × FileContent R)} {src : List Path}

theorem mem_disk_paths : p ∈ disk.paths ↔ ∃ content, disk.lookup p = some content := by
  rw [Disk.mem_paths, ← lookup_isSome, Option.isSome_iff_exists]

theorem Base.lookup_ne_none (h : Base env disk ix) (hp : p ∈ ix.paths) : disk.lookup p ≠ none := by
  obtain ⟨file, hl, -⟩ := holdsBlock_iff.mp (h.blocks p hp)
  simp [hl]

def found (env : Compactor R) (s : CompactionState R) (p : Path) : Bool :=
  p ∈ s.disk.paths && env.findable s.sidecar p

/-- **What a restart finds during a merge**: the blocks of the index at its start that are still on
disk and are listed or adopted, and the extra file if it is. -/
theorem restart_paths (hb : Base env disk ix) (ht : Tidy env disk ix s.sidecar)
    (ho : Overlay disk s.disk extra src)
    (hx : ∀ e ∈ extra, disk.lookup e.1 = none ∧ (env.listed s.sidecar).count e.1 ≤ 1) :
    (env.restart s).paths.Perm (shown env s.sidecar extra ++ ix.paths.filter (found env s)) := by
  refine perm_iff_count.mpr fun p => ?_
  rw [count_restart_paths, count_append]
  by_cases hp : ∃ e ∈ extra, e.1 = p
  · obtain ⟨e, he, rfl⟩ := hp
    have hnot : e.1 ∉ ix.paths := fun hmem => hb.lookup_ne_none hmem (hx e he).1
    have hzero : (ix.paths.filter (found env s)).count e.1 = 0 :=
      count_eq_zero.mpr fun hmem => hnot (mem_of_mem_filter hmem)
    have hle := @entriesFor_le_one _ env.kind env.config.dataDir _ _ e.2 (hx e he).2
    rw [ho.file e he, Option.elim_some, hzero]
    obtain rfl : extra = some e := he
    rw [shown]
    split_ifs with h0
    · exact h0
    · rw [count_singleton_self]
      omega
  · have hne : ∀ e ∈ extra, e.1 ≠ p := fun e he heq => hp ⟨e, he, heq⟩
    have hshown : (shown env s.sidecar extra).count p = 0 :=
      count_eq_zero.mpr fun hmem => hp (exists_of_mem_shown hmem)
    rw [hshown, Nat.zero_add]
    cases hl : s.disk.lookup p with
    | none =>
      refine (count_eq_zero.mpr fun hmem => ?_).symm
      have hfound := (mem_filter.mp hmem).2
      simp [found, mem_disk_paths, hl] at hfound
    | some content =>
      have hlook : disk.lookup p = some content := by
        rcases ho.rest p hne with h | ⟨-, h⟩
        · rw [← h, hl]
        · rw [hl] at h
          cases h
      rw [Option.elim_some]
      by_cases hpix : p ∈ ix.paths
      · obtain ⟨file, hfile, hcols, -, hdir, hext⟩ := holdsBlock_iff.mp (hb.blocks p hpix)
        obtain rfl := Option.some.inj (hlook.symm.trans hfile)
        have hiff : found env s p = env.findable s.sidecar p := by
          simp [found, mem_disk_paths, hl]
        rw [entriesFor_block hcols hdir hext (ht.once p hpix)]
        by_cases hf : env.findable s.sidecar p
        · rw [count_filter (hiff.trans hf), count_eq_one_of_mem hb.nodup hpix]
          exact if_pos hf
        · have hout : p ∉ ix.paths.filter (found env s) := fun hmem =>
            hf (hiff ▸ (mem_filter.mp hmem).2)
          rw [count_eq_zero.mpr hout]
          exact if_neg hf
      · rw [ht.others p content hlook hpix]
        exact (count_eq_zero.mpr fun hmem => hpix (mem_of_mem_filter hmem)).symm

def others (ix : BlockIndex) (src : List Path) : List Path := ix.paths.filter (· ∉ src)

variable {q : Path}

theorem Base.nodup_cons_others (hb : Base env disk ix) (src : List Path)
    (hq : disk.lookup q = none) : (q :: others ix src).Nodup := by
  refine nodup_cons.mpr ⟨fun hmem => ?_, hb.nodup.filter _⟩
  exact hb.lookup_ne_none (mem_of_mem_filter hmem) hq

/-! ## Rows -/

section
variable {α β : Type*} {f : α → List β} {l : List α} {q : α → Bool} {m o : List β}

theorem perm_merged_iff (hm : m.Perm (l.flatMap f)) (hne : ∀ x ∈ l, f x ≠ []) :
    (m ++ (o ++ (l.filter q).flatMap f)).Perm (o ++ l.flatMap f) ↔ ∀ x ∈ l, ¬ q x := by
  constructor
  · intro h x hx hq
    have hlen := h.length_eq
    simp only [length_append, hm.length_eq] at hlen
    have hnil : (l.filter q).flatMap f = [] := length_eq_zero_iff.mp (by omega)
    exact hne x hx (flatMap_eq_nil_iff.mp hnil x (mem_filter.mpr ⟨hx, hq⟩))
  · intro h
    rw [filter_eq_nil_iff.mpr h, flatMap_nil, append_nil]
    exact (hm.append_right o).trans perm_append_comm

end

theorem rowsAt_eq_of_lookup {disk' : Disk R} (h : disk'.lookup p = disk.lookup p) :
    disk'.rowsAt p = disk.rowsAt p := by
  unfold Disk.rowsAt
  rw [h]

theorem Base.rowsAt_ne_nil (hb : Base env disk ix) (hp : p ∈ ix.paths) : disk.rowsAt p ≠ [] := by
  obtain ⟨file, hl, -, hrows, -⟩ := holdsBlock_iff.mp (hb.blocks p hp)
  simpa [Disk.rowsAt, hl] using hrows

theorem Overlay.rowsAt (hb : Base env disk ix) (ho : Overlay disk s.disk extra src)
    (hx : ∀ e ∈ extra, disk.lookup e.1 = none) (hp : p ∈ ix.paths) (hmem : p ∈ s.disk.paths) :
    s.disk.rowsAt p = disk.rowsAt p := by
  have hne : ∀ e ∈ extra, e.1 ≠ p := fun e he heq => hb.lookup_ne_none hp (heq ▸ hx e he)
  rcases ho.rest p hne with h | ⟨-, h⟩
  · exact rowsAt_eq_of_lookup h
  · obtain ⟨c, hc⟩ := mem_disk_paths.mp hmem
    rw [hc] at h
    cases h

theorem Overlay.others_subset (hb : Base env disk ix) (ho : Overlay disk s.disk extra src)
    (hx : ∀ e ∈ extra, disk.lookup e.1 = none) (hp : p ∈ others ix src) :
    p ∈ s.disk.paths := by
  obtain ⟨hpix, hps⟩ := mem_filter.mp hp
  have hne : ∀ e ∈ extra, e.1 ≠ p := fun e he heq => hb.lookup_ne_none hpix (heq ▸ hx e he)
  rcases ho.rest p hne with h | ⟨h, -⟩
  · obtain ⟨c, hc⟩ := Option.ne_none_iff_exists'.mp (hb.lookup_ne_none hpix)
    exact mem_disk_paths.mpr ⟨c, h.trans hc⟩
  · exact absurd h (of_decide_eq_true hps)

theorem paths_split (hix : ix.paths.Nodup) (hsrc : src ⊆ ix.paths) (hnd : src.Nodup) :
    ix.paths.Perm (others ix src ++ src) := by
  refine (perm_ext_iff_of_nodup hix ?_).mpr fun p => ?_
  · refine nodup_append.mpr ⟨hix.filter _, hnd, fun a ha b hb' heq => ?_⟩
    exact of_decide_eq_true (mem_filter.mp ha).2 (heq ▸ hb')
  · simp only [mem_append, others, mem_filter, decide_eq_true_eq]
    constructor
    · intro hp
      by_cases h : p ∈ src
      · exact .inr h
      · exact .inl ⟨hp, h⟩
    · rintro (h | h)
      · exact h.1
      · exact hsrc h

theorem Overlay.rows_others (hb : Base env disk ix) (ho : Overlay disk s.disk extra src)
    (hx : ∀ e ∈ extra, disk.lookup e.1 = none) :
    (others ix src).flatMap s.disk.rowsAt = (others ix src).flatMap disk.rowsAt :=
  flatMap_congr fun _ hp =>
    ho.rowsAt hb hx (mem_of_mem_filter hp) (ho.others_subset hb hx hp)

theorem Base.scan_perm (hb : Base env disk ix) (hsrc : src ⊆ ix.paths) (hnd : src.Nodup) :
    (scan disk ix).Perm
      ((others ix src).flatMap disk.rowsAt ++ src.flatMap disk.rowsAt) := by
  rw [← flatMap_append]
  exact (paths_split hb.nodup hsrc hnd).flatMap_right _

section
variable {rows : List R} (hb : Base env disk ix) (ht : Tidy env disk ix s.sidecar)
include hb ht

theorem scan_restart (ho : Overlay disk s.disk extra src)
    (hx : ∀ e ∈ extra, disk.lookup e.1 = none ∧ (env.listed s.sidecar).count e.1 ≤ 1) :
    (scan s.disk (env.restart s)).Perm ((shown env s.sidecar extra).flatMap s.disk.rowsAt ++
      (ix.paths.filter (found env s)).flatMap disk.rowsAt) := by
  refine ((restart_paths hb ht ho hx).flatMap_right _).trans (.of_eq ?_)
  rw [flatMap_append, flatMap_congr (l := ix.paths.filter _) fun p hp => ?_]
  obtain ⟨hpix, hfound⟩ := mem_filter.mp hp
  exact ho.rowsAt hb (fun e he => (hx e he).1) hpix
    (of_decide_eq_true (Bool.and_eq_true_iff.mp hfound).1)

theorem exact_iff_unshown (hrows : (scan disk ix).Perm rows) (ho : Overlay disk s.disk extra src)
    (hx : ∀ e ∈ extra, disk.lookup e.1 = none ∧ (env.listed s.sidecar).count e.1 ≤ 1)
    (hshown : shown env s.sidecar extra = []) :
    (scan s.disk (env.restart s)).Perm rows ↔ ∀ p ∈ ix.paths, found env s p := by
  have hscan := scan_restart hb ht ho hx
  rw [hshown, flatMap_nil, nil_append] at hscan
  rw [hscan.congr_left, ← hrows.congr_right, scan, flatMap_filter_perm]
  exact forall₂_congr fun p hp => forall_prop_of_true (hb.rowsAt_ne_nil hp)

/-- With the extra file, which has the rows of the sources, none of these. -/
theorem exact_iff_shown (hrows : (scan disk ix).Perm rows)
    (ho : Overlay disk s.disk (some (q, content)) src) (hq : disk.lookup q = none)
    (honce : (env.listed s.sidecar).count q ≤ 1)
    (hshown : shown env s.sidecar (some (q, content)) = [q])
    (hmerged : (s.disk.rowsAt q).Perm (src.flatMap disk.rowsAt)) (hsrc : src ⊆ ix.paths)
    (hnd : src.Nodup) (hothers : ∀ p ∈ others ix src, env.findable s.sidecar p) :
    (scan s.disk (env.restart s)).Perm rows ↔ ∀ p ∈ src, ¬ found env s p := by
  have hx : ∀ e ∈ some (q, content), disk.lookup e.1 = none ∧
      (env.listed s.sidecar).count e.1 ≤ 1 := by rintro e ⟨⟩; exact ⟨hq, honce⟩
  have hkept : (ix.paths.filter (found env s)).Perm
      (others ix src ++ src.filter (found env s)) := by
    refine ((paths_split hb.nodup hsrc hnd).filter _).trans (.of_eq ?_)
    rw [filter_append, filter_eq_self.mpr fun p hp => ?_]
    exact Bool.and_eq_true_iff.mpr
      ⟨decide_eq_true (ho.others_subset hb (fun e he => (hx e he).1) hp), hothers p hp⟩
  rw [((scan_restart hb ht ho hx).trans ((hkept.flatMap_right _).append_left _)).congr_left,
    ← ((hb.scan_perm hsrc hnd).symm.trans hrows).congr_right, hshown, flatMap_singleton,
    flatMap_append]
  exact perm_merged_iff hmerged fun p hp => hb.rowsAt_ne_nil (hsrc hp)

end

/-! ## The merged block -/

variable {sources : List BlockMetadata}

theorem readSourceBlocks_ok {rows : List R} (h : readSourceBlocks disk sources = .ok rows) :
    rows = (sources.map path).flatMap disk.rowsAt := by
  induction sources generalizing rows with
  | nil => cases h; rfl
  | cons b bs ih =>
    rw [readSourceBlocks] at h
    rw [map_cons, flatMap_cons, Disk.rowsAt]
    rcases hl : disk.lookup b.path with _ | (file | message) <;> rw [hl] at h
    · exact ih h
    · obtain ⟨rest, hrest, rfl⟩ : ∃ rest, readSourceBlocks disk bs = .ok rest ∧
          rows = file.rows ++ rest := by
        cases hr : readSourceBlocks disk bs with
        | error e => simp [hr, Except.map] at h
        | ok rest => exact ⟨rest, rfl, by simpa [hr, Except.map] using h.symm⟩
      rw [ih hrest]
    · cases h

structure Merged (env : Compactor R) (disk : Disk R) (src : List Path) (b : Block R) : Prop where
  rows : b.rows.Perm (src.flatMap disk.rowsAt)
  dir : b.metadata.path.dir = env.config.dataDir
  name : ∃ t₁ t₂ uuid, b.metadata.path.file = blockName "" t₁ t₂ uuid
  fresh : disk.lookup b.metadata.path = none
  fresh_tmp : disk.lookup (tmpPath b) = none

variable {io : BlockIo} {b : Block R}

theorem mergeSources_some (h : env.mergeSources disk sources io = .ok (some b)) :
    b.rows.Perm ((sources.map path).flatMap disk.rowsAt) ∧
      b.metadata.path.dir = env.config.dataDir ∧
      ∃ t₁ t₂ uuid, b.metadata.path.file = blockName "" t₁ t₂ uuid := by
  obtain ⟨rows, hread, hw⟩ := mergeSources_writes h
  have hperm := (cut_merged hw).perm
  obtain ⟨first, rest, -, rfl⟩ := writeMerged_ok hw
  exact ⟨readSourceBlocks_ok hread ▸ hperm, rfl, _, _, _, rfl⟩

theorem mergeSources_none (h : env.mergeSources disk sources io = .ok none) :
    (sources.map path).flatMap disk.rowsAt = [] := by
  unfold mergeSources at h
  split at h
  · cases h
  · next hread => exact (readSourceBlocks_ok hread).symm
  · next row rows _ =>
    cases hw : writeMerged env.kind env.config (row :: rows) (unionLabelValues sources) io <;>
      simp [hw, Except.map] at h

theorem Merged.lookup_eq_none (h : Merged env disk src b) :
    ∀ p ∈ [b.metadata.path, tmpPath b], disk.lookup p = none :=
  forall_mem_cons.mpr ⟨h.fresh, forall_mem_singleton.mpr h.fresh_tmp⟩

theorem Merged.isParquet (h : Merged env disk src b) : isParquet b.metadata.path.file := by
  obtain ⟨t₁, t₂, uuid, hname⟩ := h.name
  exact hname ▸ isParquet_blockName "" t₁ t₂ uuid

section
variable (h : Merged env disk src b) (hp : p ∈ [b.metadata.path, tmpPath b])
include h hp

theorem Merged.name_spec : p.dir = env.config.dataDir ∧ Storage.isParquet p.file ∧
    filenameMayHoldSignal p.file env.kind.signal = decide (env.kind.signal = .metrics) := by
  rcases mem_cons.mp hp with rfl | hp
  · obtain ⟨t₁, t₂, uuid, hname⟩ := h.name
    exact ⟨h.dir, h.isParquet, hname ▸ filenameMayHoldSignal_blockName t₁ t₂ uuid _⟩
  · obtain rfl := mem_singleton.mp hp
    exact ⟨h.dir, isParquet_tmpName h.isParquet, filenameMayHoldSignal_tmpName _ _⟩

/-- A complete merged file that is not listed is found if and only if it holds metrics, also under
its temporary name. -/
theorem Merged.findable_iff (hun : p ∉ env.listed sidecar) :
    env.findable sidecar p ↔ env.kind.signal = .metrics := by
  simp [findable, hun, (h.name_spec hp).2.2]

theorem Merged.shown (hle : (env.listed sidecar).count p ≤ 1) :
    shown env sidecar (some (p, .parquet (env.file b))) =
      if env.findable sidecar p then [p] else [] := by
  obtain ⟨hdir, hext, -⟩ := h.name_spec hp
  rw [Compactor.shown, entriesFor_block rfl hdir hext hle]
  unfold findable
  split_ifs <;> simp_all

end

theorem rowsAt_of_lookup {file : ParquetFile R} (h : disk.lookup p = some (.parquet file)) :
    disk.rowsAt p = file.rows := by
  unfold Disk.rowsAt
  rw [h]

theorem paths_replace (ix : BlockIndex) (src : List Path) (b : BlockMetadata) :
    (ix.replace src (some b)).paths.Perm (b.path :: others ix src) := by
  refine ((sortByKey_perm _ _).map path).trans ?_
  rw [map_append, others, BlockIndex.paths, filter_map]
  exact perm_append_comm

/-! ## The invariant -/

/-- Before publication: the index is the one the merge started from. -/
structure Pending (env : Compactor R) (disk : Disk R) (ix : BlockIndex) (s : CompactionState R)
    (extra : Option (Path × FileContent R)) : Prop where
  index : s.index = ix
  tidy : Tidy env disk ix s.sidecar
  metrics : env.kind.signal = .metrics → ∀ p ∈ ix.paths, env.findable s.sidecar p
  overlay : Overlay disk s.disk extra []

def Unlisted (env : Compactor R) (s : CompactionState R) (b : Block R) : Prop :=
  ∀ p ∈ [b.metadata.path, tmpPath b], p ∉ env.listed s.sidecar

structure Published (env : Compactor R) (disk : Disk R) (ix : BlockIndex) (src : List Path)
    (s : CompactionState R) (b : Block R) (todo : List Path) : Prop where
  index : s.index = ix.replace src (some b.metadata)
  tidy : Tidy env disk ix s.sidecar
  once : (env.listed s.sidecar).count b.metadata.path ≤ 1
  found : env.findable s.sidecar b.metadata.path → ∀ p ∈ others ix src, env.findable s.sidecar p
  overlay : Overlay disk s.disk (some (b.metadata.path, .parquet (env.file b))) src
  todo : todo ⊆ src

def StageInv (env : Compactor R) (disk : Disk R) (ix : BlockIndex) (src : List Path)
    (s : CompactionState R) : Stage R → Prop
  | .selected => Pending env disk ix s none
  | .writing b => Merged env disk src b ∧ Unlisted env s b ∧
      ∃ message, Pending env disk ix s (some (tmpPath b, .damaged message))
  | .written b => Merged env disk src b ∧ Unlisted env s b ∧
      Pending env disk ix s (some (tmpPath b, .parquet (env.file b)))
  | .renamed b => Merged env disk src b ∧ Unlisted env s b ∧
      Pending env disk ix s (some (b.metadata.path, .parquet (env.file b)))
  | .published b todo => Merged env disk src b ∧ Published env disk ix src s b todo
  | .emptied => False

structure MergeInv (env : Compactor R) (rows : List R) (s : CompactionState R) (m : Merge R)
    (disk : Disk R) (ix : BlockIndex) : Prop where
  base : Base env disk ix
  sources : Selectable ix m.sources
  rows : (scan disk ix).Perm rows
  stage : StageInv env disk ix (m.sources.map path) s m.stage

def CompactionInv (env : Compactor R) (rows : List R) (s : CompactionState R) : Prop :=
  match s.merge with
  | none => env.Settled s ∧ (scan s.disk s.index).Perm rows
  | some m => ∃ disk ix, MergeInv env rows s m disk ix

section
variable {rows : List R} {m : Merge R}

theorem CompactionInv.elim (h : CompactionInv env rows s) (hm : s.merge = some m) :
    ∃ disk ix, MergeInv env rows s m disk ix := by
  rwa [CompactionInv, hm] at h

theorem CompactionInv.intro (hm : s.merge = some m) (h : MergeInv env rows s m disk ix) :
    CompactionInv env rows s := by
  rw [CompactionInv, hm]
  exact ⟨disk, ix, h⟩

theorem MergeInv.subset (h : MergeInv env rows s m disk ix) :
    m.paths ⊆ ix.paths := (h.sources.2.map _).subset

theorem MergeInv.nodup (h : MergeInv env rows s m disk ix) :
    m.paths.Nodup := h.base.nodup.sublist (h.sources.2.map _)

theorem CompactionInv.scan_index (h : CompactionInv env rows s) (hidle : idle s.merge) :
    (scan s.disk s.index).Perm rows := by
  unfold CompactionInv at h
  split at h
  · exact h.2
  · next m hm =>
    obtain ⟨disk, ix, h⟩ := h
    obtain ⟨sources, stage⟩ := m
    rw [hm] at hidle
    cases stage with
    | emptied => exact h.stage.elim
    | published b todo =>
      obtain ⟨hmerged, hpub⟩ := h.stage
      have hx : ∀ e ∈ some (b.metadata.path, FileContent.parquet (env.file b)),
          disk.lookup e.1 = none := by rintro e ⟨⟩; exact hmerged.fresh
      have hb : s.disk.rowsAt b.metadata.path = b.rows :=
        (rowsAt_of_lookup (hpub.overlay.file _ rfl)).trans (rows_writeBlockFile _ _ _)
      refine List.Perm.trans ?_ ((h.base.scan_perm h.subset h.nodup).symm.trans h.rows)
      rw [scan, hpub.index]
      refine ((paths_replace ix _ b.metadata).flatMap_right _).trans ?_
      rw [flatMap_cons, hb, hpub.overlay.rows_others h.base hx]
      exact (hmerged.rows.append_right _).trans perm_append_comm
    | _ => cases hidle

end

/-! ### How the disk changes -/

section
variable {disk' : Disk R} {q q' p : Path} {c c' : FileContent R}

theorem Overlay.refl (disk : Disk R) (src : List Path) : Overlay disk disk none src :=
  ⟨nofun, fun _ _ => .inl rfl⟩

theorem Overlay.weaken (h : Overlay disk disk' extra []) (src : List Path) :
    Overlay disk disk' extra src :=
  ⟨h.file, fun p hp => .inl ((h.rest p hp).resolve_right fun h => nomatch h.1)⟩

theorem Overlay.lookup_eq (h : Overlay disk disk' none []) (p : Path) :
    disk'.lookup p = disk.lookup p := (h.rest p nofun).resolve_right fun h => nomatch h.1

theorem Overlay.insert (h : Overlay disk disk' none []) (q : Path) (c : FileContent R) :
    Overlay disk (disk'.insert q c) (some (q, c)) [] := by
  refine ⟨by rintro e ⟨⟩; exact lookup_insert _, fun p hp => .inl ?_⟩
  rw [lookup_insert_ne (Ne.symm (hp _ rfl)), h.lookup_eq]

theorem Overlay.move (h : Overlay disk disk' (some (q, c)) src) (hq : disk.lookup q = none)
    (q' : Path) (c' : FileContent R) :
    Overlay disk ((disk'.erase q).insert q' c') (some (q', c')) src := by
  refine ⟨by rintro e ⟨⟩; exact lookup_insert _, fun p hp => ?_⟩
  rw [lookup_insert_ne (Ne.symm (hp _ rfl))]
  by_cases hpq : p = q
  · exact .inl (by rw [hpq, lookup_erase, hq])
  · rw [lookup_erase_ne hpq]
    exact h.rest p (by rintro e ⟨⟩; exact Ne.symm hpq)

theorem Overlay.rewrite (h : Overlay disk disk' (some (q, c)) src) (c' : FileContent R) :
    Overlay disk (disk'.insert q c') (some (q, c')) src := by
  refine ⟨by rintro e ⟨⟩; exact lookup_insert _, fun p hp => ?_⟩
  rw [lookup_insert_ne (Ne.symm (hp _ rfl))]
  exact h.rest p (by rintro e ⟨⟩; exact hp (q, c') rfl)

theorem Overlay.erase (h : Overlay disk disk' (some (q, c)) src) (hp : p ∈ src) (hne : q ≠ p) :
    Overlay disk (disk'.erase p) (some (q, c)) src := by
  refine ⟨by rintro e ⟨⟩; exact (lookup_erase_ne hne).trans (h.file _ rfl), fun r hr => ?_⟩
  by_cases hrp : r = p
  · subst hrp
    exact .inr ⟨hp, lookup_erase _ _⟩
  · rw [lookup_erase_ne hrp]
    exact h.rest r hr

end

/-! ### Steps keep the invariant -/

section
variable {rows : List R} {s' : CompactionState R}

theorem Base.restart_subperm (hb : Base env s.disk s.index)
    (ht : Tidy env s.disk s.index s.sidecar) : (env.restart s).paths.Subperm s.index.paths :=
  (restart_paths hb ht (.refl s.disk []) nofun).subperm.trans filter_sublist.subperm

theorem Unlisted.persist (hb : Base env disk ix) (hm : Merged env disk src b) (hix : s.index = ix) :
    Unlisted env (persist s) b := by
  intro p hp hmem
  have hpix : p ∈ ix.paths := hix ▸ (listed_payload env s.index.blocks).mem_iff.mp hmem
  exact hb.lookup_ne_none hpix (hm.lookup_eq_none p hp)

theorem Base.persist (hb : Base env disk ix) (h : s.index = ix) :
    Tidy env disk ix (persist s).sidecar ∧
      ∀ p ∈ ix.paths, env.findable (persist s).sidecar p := by
  have hl : (env.listed (Compactor.persist s).sidecar).Perm ix.paths :=
    h ▸ listed_payload env s.index.blocks
  exact ⟨hb.tidy hl hb.nodup fun p hp => .inl hp,
    fun p hp => findable_of_listed (hl.mem_iff.mpr hp)⟩

theorem Pending.persist (h : Pending env disk ix s extra) (hb : Base env disk ix) :
    Pending env disk ix (persist s) extra :=
  ⟨h.index, (hb.persist h.index).1, fun _ => (hb.persist h.index).2, h.overlay⟩

theorem Published.persist {todo : List Path} (h : Published env disk ix src s b todo)
    (hb : Base env disk ix) (hm : Merged env disk src b) :
    Published env disk ix src (persist s) b todo := by
  have hl : (env.listed (Compactor.persist s).sidecar).Perm (b.metadata.path :: others ix src) := by
    refine (listed_payload env s.index.blocks).trans ?_
    rw [h.index]
    exact paths_replace ix _ b.metadata
  have hnd := hb.nodup_cons_others src hm.fresh
  refine ⟨h.index, hb.tidy hl hnd ?_, hl.count_eq _ ▸ nodup_iff_count_le_one.mp hnd _,
    fun _ p hp => findable_of_listed (hl.mem_iff.mpr (mem_cons_of_mem _ hp)), h.overlay, h.todo⟩
  exact forall_mem_cons.mpr ⟨.inr hm.fresh, fun p hp => .inl (mem_of_mem_filter hp)⟩

theorem CompactionInv.persist (h : CompactionInv env rows s) :
    CompactionInv env rows (persist s) := by
  unfold CompactionInv at h ⊢
  rw [show (Compactor.persist s).merge = s.merge from rfl]
  split at h
  · obtain ⟨hs, hrows⟩ := h
    obtain ⟨ht, hfound⟩ := hs.base.persist rfl
    exact ⟨⟨hs.idle, hs.nodup, hs.blocks,
      Base.restart_subperm (s := Compactor.persist s) hs.base ht, fun _ => hfound⟩, hrows⟩
  · obtain ⟨disk, ix, h⟩ := h
    rename_i m _
    obtain ⟨sources, stage⟩ := m
    refine ⟨disk, ix, h.base, h.sources, h.rows, ?_⟩
    cases stage with
    | selected => exact Pending.persist h.stage h.base
    | writing b =>
      obtain ⟨hm, -, message, hp⟩ := h.stage
      exact ⟨hm, .persist h.base hm hp.index, message, hp.persist h.base⟩
    | written b | renamed b =>
      obtain ⟨hm, -, hp⟩ := h.stage
      exact ⟨hm, .persist h.base hm hp.index, hp.persist h.base⟩
    | published b todo => exact ⟨h.stage.1, h.stage.2.persist h.base h.stage.1⟩
    | emptied => exact h.stage.elim

theorem Settled.pending (h : env.Settled s) : Pending env s.disk s.index s none :=
  ⟨rfl, h.tidy, h.metrics, .refl _ _⟩

theorem CompactionInv.start (h : CompactionInv env rows s) (hs : env.Settled s)
    (hstep : start s sources = some s') :
    CompactionInv env rows s' := by
  obtain ⟨hsel, rfl⟩ := start_cases hstep
  exact .intro rfl ⟨hs.base, hsel, h.scan_index hs.idle, rfl, hs.tidy, hs.metrics, .refl _ _⟩

theorem fresh_of_freshNames (hm : s.merge = some ⟨sources, .selected⟩)
    (hb : env.mergeSources s.disk sources io = .ok (some b)) (h : env.freshNames s io) :
    env.Fresh s b := by
  rw [freshNames, hm] at h
  simpa [hb] using h

section
variable (h : CompactionInv env rows s)
include h

theorem CompactionInv.beginWrite (hfresh : env.freshNames s io)
    (hstep : env.beginWrite s io = some s') :
    CompactionInv env rows s' := by
  obtain ⟨sources, hm, hcases⟩ := beginWrite_cases hstep
  obtain ⟨disk, ix, hinv⟩ := h.elim hm
  have hst : Pending env disk ix s none := hinv.stage
  have hrows : ∀ p, s.disk.rowsAt p = disk.rowsAt p := fun p =>
    rowsAt_eq_of_lookup (hst.overlay.lookup_eq p)
  rcases hcases with ⟨hnone, -⟩ | ⟨b, hb, rfl⟩
  · -- the sources of a settled index have rows
    exfalso
    have hnil := flatMap_eq_nil_iff.mp (mergeSources_none hnone)
    have hlen : 2 ≤ sources.length := hinv.sources.1
    obtain ⟨m, hmem⟩ := exists_mem_of_length_pos (by omega : 0 < sources.length)
    have hp := mem_map_of_mem (f := path) hmem
    exact hinv.base.rowsAt_ne_nil (hinv.subset hp) (hrows m.path ▸ hnil _ hp)
  · have hf := fresh_of_freshNames hm hb hfresh
    obtain ⟨hperm, hdir, hname⟩ := mergeSources_some hb
    have hlookup : ∀ p ∈ [b.metadata.path, tmpPath b], disk.lookup p = none := by
      intro p hp
      rw [← hst.overlay.lookup_eq]
      by_contra hsome
      exact (hf p hp).1 (mem_disk_paths.mpr (Option.ne_none_iff_exists'.mp hsome))
    refine .intro rfl ⟨hinv.base, hinv.sources, hinv.rows, ⟨?_, hdir, hname, ?_, ?_⟩,
      fun p hp => (hf p hp).2, io.message, hst.index, hst.tidy, hst.metrics,
      hst.overlay.insert _ _⟩
    · rwa [flatMap_congr fun p _ => hrows p] at hperm
    · exact hlookup _ mem_cons_self
    · exact hlookup _ (mem_cons_of_mem _ mem_cons_self)

theorem CompactionInv.finishWrite
    (hstep : env.finishWrite s = some s') : CompactionInv env rows s' := by
  obtain ⟨sources, b, hm, rfl⟩ := finishWrite_cases hstep
  obtain ⟨disk, ix, hinv⟩ := h.elim hm
  obtain ⟨hmerged, hun, message, hp⟩ := hinv.stage
  exact .intro rfl ⟨hinv.base, hinv.sources, hinv.rows, hmerged, hun, hp.index, hp.tidy,
    hp.metrics, hp.overlay.rewrite _⟩

theorem CompactionInv.rename (hstep : env.rename s = some s') : CompactionInv env rows s' := by
  obtain ⟨sources, b, hm, rfl⟩ := rename_cases hstep
  obtain ⟨disk, ix, hinv⟩ := h.elim hm
  obtain ⟨hmerged, hun, hp⟩ := hinv.stage
  exact .intro rfl ⟨hinv.base, hinv.sources, hinv.rows, hmerged, hun, hp.index, hp.tidy,
    hp.metrics, hp.overlay.move hmerged.fresh_tmp _ _⟩

theorem CompactionInv.publish
    (hstep : publish s = some s') : CompactionInv env rows s' := by
  obtain ⟨sources, b, hm, rfl⟩ := publish_cases hstep
  obtain ⟨disk, ix, hinv⟩ := h.elim hm
  obtain ⟨hmerged, hun, hp⟩ := hinv.stage
  have hunlisted := hun _ mem_cons_self
  exact .intro rfl ⟨hinv.base, hinv.sources, hinv.rows, hmerged, by rw [← hp.index], hp.tidy,
    (count_eq_zero.mpr hunlisted).trans_le (Nat.zero_le 1), fun hfound p hpo => hp.metrics
      ((hmerged.findable_iff mem_cons_self hunlisted).mp hfound) p (mem_of_mem_filter hpo),
    hp.overlay.weaken _, List.Subset.refl _⟩

theorem CompactionInv.delete {ok : Bool}
    (hstep : delete s ok = some s') : CompactionInv env rows s' := by
  obtain ⟨sources, b, p, todo, hm, rfl⟩ := delete_cases hstep
  obtain ⟨disk, ix, hinv⟩ := h.elim hm
  obtain ⟨hmerged, hp⟩ := hinv.stage
  obtain ⟨hpsrc, htodo⟩ := cons_subset.mp hp.todo
  refine .intro rfl ⟨hinv.base, hinv.sources, hinv.rows, hmerged, hp.index, hp.tidy, hp.once,
    hp.found, ?_, htodo⟩
  cases ok with
  | false => exact hp.overlay
  | true =>
    refine hp.overlay.erase hpsrc fun heq => ?_
    exact hinv.base.lookup_ne_none (hinv.subset hpsrc) (heq ▸ hmerged.fresh)

theorem CompactionInv.step {e : CompactionEvent}
    (hok : env.compactionOk s e) (hstep : env.step s e = some s') : CompactionInv env rows s' := by
  cases e with
  | start sources => exact h.start hok hstep
  | beginWrite io => exact h.beginWrite hok hstep
  | finishWrite => exact h.finishWrite hstep
  | rename => exact h.rename hstep
  | publish => exact h.publish hstep
  | delete ok => exact h.delete hstep
  | persist =>
    cases hstep
    exact h.persist

end

end

/-! ## Which crashes are harmless -/

section
variable {rows : List R} {m : Merge R} {b : Block R}

theorem found_iff (h : p ∈ s.disk.paths) : found env s p ↔ env.findable s.sidecar p := by
  simp [found, h]

theorem Pending.mem_paths (hp : Pending env disk ix s extra) (hb : Base env disk ix)
    (hx : ∀ e ∈ extra, disk.lookup e.1 = none) : ∀ p ∈ ix.paths, p ∈ s.disk.paths := fun _ hpix =>
  hp.overlay.others_subset hb hx (mem_filter.mpr ⟨hpix, rfl⟩)

/-- Before publication only an extra file that is found, or an earlier merge that the sidecar does
not list, does harm. -/
theorem Pending.exact_iff (hp : Pending env disk ix s extra) (hb : Base env disk ix)
    (hrows : (scan disk ix).Perm rows)
    (hx : ∀ e ∈ extra, disk.lookup e.1 = none ∧ e.1 ∉ env.listed s.sidecar)
    (hshown : shown env s.sidecar extra = []) : (scan s.disk (env.restart s)).Perm rows ↔
      ∀ p ∈ s.index.paths, env.findable s.sidecar p := by
  have hx' : ∀ e ∈ extra, disk.lookup e.1 = none ∧ (env.listed s.sidecar).count e.1 ≤ 1 :=
    fun e he => ⟨(hx e he).1, (count_eq_zero.mpr (hx e he).2).trans_le (Nat.zero_le 1)⟩
  rw [exact_iff_unshown hb hp.tidy hrows hp.overlay hx' hshown, hp.index]
  exact forall₂_congr fun p hpix => found_iff (hp.mem_paths hb (fun e he => (hx e he).1) p hpix)

section
variable (h : MergeInv env rows s m disk ix) (hm : Merged env disk m.paths b)
include h hm

theorem MergeInv.exact_iff_complete (hun : Unlisted env s b)
    (hq : q ∈ [b.metadata.path, tmpPath b])
    (hp : Pending env disk ix s (some (q, .parquet (env.file b)))) :
    (scan s.disk (env.restart s)).Perm rows ↔
      env.kind.signal ≠ .metrics ∧ ∀ p ∈ s.index.paths, env.findable s.sidecar p := by
  have hfresh := hm.lookup_eq_none q hq
  have honce : (env.listed s.sidecar).count q ≤ 1 :=
    (count_eq_zero.mpr (hun q hq)).trans_le (Nat.zero_le 1)
  have hshown := hm.shown hq honce
  have hiff := hm.findable_iff hq (hun q hq)
  by_cases hsig : env.kind.signal = .metrics
  · -- the sources are still there
    rw [if_pos (hiff.mpr hsig)] at hshown
    have hrows : (s.disk.rowsAt q).Perm (m.paths.flatMap disk.rowsAt) := by
      rw [rowsAt_of_lookup (hp.overlay.file _ rfl)]
      exact (rows_writeBlockFile _ _ _).symm ▸ hm.rows
    rw [exact_iff_shown h.base hp.tidy h.rows (hp.overlay.weaken _) hfresh honce hshown hrows
      h.subset h.nodup fun p hpo => hp.metrics hsig p (mem_of_mem_filter hpo)]
    refine iff_of_false (fun hall => ?_) fun hne => hne.1 hsig
    have hlen := h.sources.1
    obtain ⟨b', hb'⟩ := exists_mem_of_length_pos (by omega : 0 < m.sources.length)
    have hpsrc : b'.path ∈ m.paths := mem_map_of_mem hb'
    refine hall _ hpsrc ((found_iff ?_).mpr (hp.metrics hsig _ (h.subset hpsrc)))
    exact hp.mem_paths h.base (by rintro e ⟨⟩; exact hfresh) _ (h.subset hpsrc)
  · rw [if_neg fun hf => hsig (hiff.mp hf)] at hshown
    rw [hp.exact_iff h.base h.rows (by rintro e ⟨⟩; exact ⟨hfresh, hun q hq⟩) hshown]
    exact (and_iff_right hsig).symm

theorem MergeInv.exact_iff_published {todo : List Path}
    (hp : Published env disk ix m.paths s b todo) :
    (scan s.disk (env.restart s)).Perm rows ↔
      if env.findable s.sidecar b.metadata.path then
        ∀ p ∈ m.paths, p ∈ s.disk.paths → ¬ env.findable s.sidecar p
      else (∀ p ∈ s.index.paths, p ≠ b.metadata.path → env.findable s.sidecar p) ∧
        ∀ p ∈ m.paths, p ∈ s.disk.paths ∧ env.findable s.sidecar p := by
  have hshown := hm.shown mem_cons_self hp.once
  have hx : ∀ e ∈ some (b.metadata.path, FileContent.parquet (env.file b)),
      disk.lookup e.1 = none := by rintro e ⟨⟩; exact hm.fresh
  split_ifs with hf
  · rw [if_pos hf] at hshown
    have hrows : (s.disk.rowsAt b.metadata.path).Perm (m.paths.flatMap disk.rowsAt) := by
      rw [rowsAt_of_lookup (hp.overlay.file _ rfl)]
      exact (rows_writeBlockFile _ _ _).symm ▸ hm.rows
    rw [exact_iff_shown h.base hp.tidy h.rows hp.overlay hm.fresh hp.once hshown hrows h.subset
      h.nodup (hp.found hf)]
    simp only [found, Bool.and_eq_true, decide_eq_true_eq, not_and]
  · rw [if_neg hf] at hshown
    rw [exact_iff_unshown h.base hp.tidy h.rows hp.overlay
      (by rintro e ⟨⟩; exact ⟨hm.fresh, hp.once⟩) hshown]
    have hsplit := paths_split h.base.nodup h.subset h.nodup
    have hindex {p : Path} : p ∈ s.index.paths ↔ p ∈ b.metadata.path :: others ix m.paths := by
      rw [hp.index]
      exact (paths_replace ix _ b.metadata).mem_iff
    have hnd := h.base.nodup_cons_others m.paths hm.fresh
    constructor
    · intro hall
      refine ⟨fun p hpix hne => ?_, fun p hps => ?_⟩
      · have hpo := (mem_cons.mp (hindex.mp hpix)).resolve_left hne
        exact (Bool.and_eq_true_iff.mp (hall p (mem_of_mem_filter hpo))).2
      · simpa [found] using hall p (h.subset hps)
    · rintro ⟨hothers, hsrc⟩ p hpix
      rcases mem_append.mp (hsplit.mem_iff.mp hpix) with hpo | hps
      · refine (found_iff (hp.overlay.others_subset h.base hx hpo)).mpr (hothers p
          (hindex.mpr (mem_cons_of_mem _ hpo)) fun heq => ?_)
        exact (nodup_cons.mp hnd).1 (heq ▸ hpo)
      · simpa [found] using hsrc p hps

end

end

/-- **Which states of a compaction are harmless.** -/
theorem CompactionInv.exact_iff {rows : List R} (h : CompactionInv env rows s) :
    (scan s.disk (env.restart s)).Perm rows ↔ env.Harmless s := by
  unfold Harmless
  cases hm : s.merge with
  | none =>
    rw [CompactionInv, hm] at h
    exact h.1.pending.exact_iff h.1.base h.2 nofun rfl
  | some m =>
    obtain ⟨disk, ix, hinv⟩ := h.elim hm
    obtain ⟨sources, stage⟩ := m
    cases stage with
    | selected => exact Pending.exact_iff hinv.stage hinv.base hinv.rows nofun rfl
    | writing b =>
      obtain ⟨hmerged, hun, message, hp⟩ := hinv.stage
      have hunlisted := hun _ (mem_cons_of_mem _ mem_cons_self)
      refine hp.exact_iff hinv.base hinv.rows ?_ ?_
      · rintro e ⟨⟩
        exact ⟨hmerged.fresh_tmp, hunlisted⟩
      · rw [shown, entriesFor_of_count_zero (count_eq_zero.mpr hunlisted),
          if_pos (entriesFor_damaged message)]
    | written b =>
      obtain ⟨hmerged, hun, hp⟩ := hinv.stage
      exact hinv.exact_iff_complete hmerged hun (mem_cons_of_mem _ mem_cons_self) hp
    | renamed b =>
      obtain ⟨hmerged, hun, hp⟩ := hinv.stage
      exact hinv.exact_iff_complete hmerged hun mem_cons_self hp
    | published b todo => exact hinv.exact_iff_published hinv.stage.1 hinv.stage.2
    | emptied => exact hinv.stage.elim

/-- **Crashes during compaction.** In every state of every run of merges, each starting when those
before it have left no source behind: a restart finds each row of the blocks exactly once if and
only if the state is harmless. For metrics, that is until the merged file is complete and after
all sources are deleted. For logs and traces, with all earlier merged blocks listed, it is until
the first source is deleted, and after the sidecar lists the merged block when no source is left
that would be adopted again. -/
theorem compaction_crash_iff (env : Compactor R) {s₀ s : CompactionState R}
    (h₀ : env.Settled s₀) (hnone : s₀.merge = none)
    (hrun : Run env.step env.compactionOk s₀ s) :
    env.ExactAfterRestart s₀ s ↔ env.Harmless s := by
  have hinv : CompactionInv env (scan s₀.disk s₀.index) s := by
    refine hrun.inv ?_ fun _ _ _ hs hok hstep => hs.step hok hstep
    rw [CompactionInv, hnone]
    exact ⟨h₀, .refl _⟩
  exact hinv.exact_iff

end Compactor

namespace Sample

variable {R : Type}

def single (env : Compactor R) (uuid : String) (row : R) : Block R :=
  mergedBlock env.kind env.config [] ⟨.written, uuid, 0, ""⟩ row []

def indexed (env : Compactor R) (blocks : List (Block R)) : CompactionState R where
  index := .ofBlocks env.config.dataDir (blocks.map (·.metadata))
  disk := blocks.foldl (fun disk b => disk.insert b.metadata.path (.parquet (env.file b))) ∅
  sidecar := .payload (blocks.map (·.metadata))
  merge := none

def logCompactor : Compactor LogRecord := ⟨logSignal, logConfig⟩

def logBlock (uuid : String) (timestampNs : Int) : Block LogRecord :=
  RowWriter.blockOf logKind logConfig none ⟨.written, uuid, 0, ""⟩ (log timestampNs) []

def logState : CompactionState LogRecord :=
  indexed logCompactor [logBlock "a" 1, logBlock "b" 2, logBlock "c" 3]

def metricCompactor : Compactor (MetricRow Unit) := ⟨metricSignal Unit, Ingest.Sample.config 10⟩

def metricRow (timestampNs : Int) : MetricRow Unit := ⟨"m", .gauge, .empty, timestampNs, (), .empty⟩

def metricState : CompactionState (MetricRow Unit) :=
  indexed metricCompactor [single metricCompactor "a" (metricRow 1),
    single metricCompactor "b" (metricRow 2)]

def mergeTwo (ix : BlockIndex) (uuid : String) : List CompactionEvent :=
  [.start (ix.blocks.take 2), .beginWrite ⟨.written, uuid, 0, ""⟩, .finishWrite, .rename, .publish]

def twoMerges : List CompactionEvent :=
  let first := mergeTwo logState.index "m" ++ [.delete true, .delete true]
  first ++ (exec logCompactor.step logCompactor.compactionOk logState first).elim []
    fun s => (mergeTwo s.index "n").take 2

end Sample

open Sample in
/-- The sidecar is persisted in the second merge, and lists the block of the first. -/
theorem compaction_crash_iff_two_merges :
    ∃ s, s.merge.isSome ∧ s.disk.paths.length = 3 ∧ logCompactor.ExactAfterRestart logState s := by
  obtain ⟨s, hrun, hmerge, hfiles, hharmless⟩ := exists_run logCompactor.step
    logCompactor.compactionOk logState
    (fun s => s.merge.isSome ∧ s.disk.paths.length = 3 ∧ logCompactor.Harmless s)
    (twoMerges ++ [.persist]) (by decide)
  have hsettled : logCompactor.Settled logState := by decide
  exact ⟨s, hmerge, hfiles, (compaction_crash_iff logCompactor hsettled rfl hrun).mpr hharmless⟩

open Sample in
/-- **A crash during compaction loses rows or doubles them.** After a merge of two log blocks that
deleted its sources, a restart that finds the old sidecar loses their rows, also when the next merge
has begun. After a merge of two metric blocks that was stopped before it deleted its sources, a
restart finds each point twice. -/
theorem compaction_crash_breaks :
    (∃ s, Run logCompactor.step logCompactor.compactionOk logState s ∧
      ¬ logCompactor.ExactAfterRestart logState s) ∧
    ∃ s, Run metricCompactor.step metricCompactor.compactionOk metricState s ∧
      ¬ metricCompactor.ExactAfterRestart metricState s := by
  constructor
  · exact exists_run logCompactor.step logCompactor.compactionOk logState _ twoMerges (by decide)
  · exact exists_run metricCompactor.step metricCompactor.compactionOk metricState _
      (mergeTwo metricState.index "m") (by decide)

end Parqtel.Storage
