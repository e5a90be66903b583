import Parqtel.Core.Buffer

/-!
# The series registry of the memory buffer

A label set is held through a shared handle, and a slot registers the handles of its points by
address. A filtered scan judges the registered handles and then looks only at the addresses of
the points. Equal label sets may have several handles, and a drop may leave handles registered
whose points are gone. Two facts make such a scan a filter of the plain one: the address of
every point is registered (`HandleSlot.registered`), and as a registered handle is alive, its
address cannot name another label set (`Coherent`, along every run).
-/

namespace Parqtel.Buffer

open List hiding set

/-- A shared handle of a label set. -/
structure Handle where
  addr : ℕ
  labels : LabelSet
deriving DecidableEq

/-- The value of a point, with the address of the handle that the point has for its labels. -/
structure Held (V : Type*) where
  value : V
  addr : ℕ
deriving DecidableEq

variable {V : Type*}

def handleOf (p : DataPoint (Held V)) : Handle := ⟨p.value.addr, p.labels⟩

/-! ## Slots -/

def registerHandles (series : List Handle) (points : List (DataPoint (Held V))) : List Handle :=
  points.foldl (fun series p =>
    if p.value.addr ∈ series.map Handle.addr then series else series ++ [handleOf p]) series

/-- The addresses in `series` are the set `series_seen` of the source. -/
structure HandleSlot (V : Type*) extends Slot (Held V) where
  series : List Handle
  registered : ∀ p ∈ points, p.value.addr ∈ series.map Handle.addr

variable {points : List (DataPoint (Held V))} {h : Handle}

theorem mem_registerHandles {series : List Handle} (hh : h ∈ registerHandles series points) :
    h ∈ series ∨ ∃ p ∈ points, handleOf p = h := by
  induction points generalizing series with
  | nil => exact .inl hh
  | cons p points ih =>
    rw [registerHandles, foldl_cons, ← registerHandles] at hh
    rcases ih hh with hold | ⟨q, hq, rfl⟩
    · split_ifs at hold
      · exact .inl hold
      · rcases mem_append.mp hold with hold | hnew
        · exact .inl hold
        · exact .inr ⟨p, mem_cons_self, (mem_singleton.mp hnew).symm⟩
    · exact .inr ⟨q, mem_cons_of_mem p hq, rfl⟩

theorem subset_registerHandles (series : List Handle) (points : List (DataPoint (Held V))) :
    series ⊆ registerHandles series points := by
  induction points generalizing series with
  | nil => exact List.Subset.refl series
  | cons p points ih =>
    rw [registerHandles, foldl_cons, ← registerHandles]
    refine List.Subset.trans ?_ (ih _)
    split_ifs
    · exact List.Subset.refl series
    · exact subset_append_left series _

theorem addr_mem_registerHandles {series : List Handle} {p : DataPoint (Held V)} (hp : p ∈ points) :
    p.value.addr ∈ (registerHandles series points).map Handle.addr := by
  induction points generalizing series with
  | nil => cases hp
  | cons q points ih =>
    rw [registerHandles, foldl_cons, ← registerHandles]
    rcases mem_cons.mp hp with rfl | hp
    · refine map_subset Handle.addr (subset_registerHandles _ points) ?_
      split_ifs with hseen
      · exact hseen
      · rw [map_append]
        exact mem_append_right _ (mem_singleton_self _)
    · exact ih hp

namespace HandleSlot

def empty : HandleSlot V := ⟨Slot.empty, [], nofun⟩

def push (s : HandleSlot V) (new : List (DataPoint (Held V))) (t : Tag) : HandleSlot V where
  toSlot := s.toSlot.push new t
  series := registerHandles s.series new
  registered := by
    intro p hp
    rw [Slot.points_push] at hp
    rcases mem_append.mp hp with hp | hp
    · exact map_subset Handle.addr (subset_registerHandles s.series new) (s.registered p hp)
    · exact addr_mem_registerHandles hp

/-- Handles whose points are gone are shed once they outnumber the points that remain. A slot
without points is removed. -/
def dropSealed (s : HandleSlot V) (sealed : List ℕ) : HandleSlot V :=
  if droppable sealed s.marks = 0 then s
  else if (s.toSlot.dropSealed sealed).points = [] then empty
  else
    { toSlot := s.toSlot.dropSealed sealed
      series :=
        if max (s.toSlot.dropSealed sealed).points.length 16 < s.series.length then
          registerHandles [] (s.toSlot.dropSealed sealed).points
        else s.series
      registered := by
        intro p hp
        split_ifs
        · exact addr_mem_registerHandles hp
        · exact s.registered p (mem_of_mem_drop hp) }

def handles (s : HandleSlot V) : List Handle := s.points.map handleOf ++ s.series

theorem mem_handles_push {s : HandleSlot V} {new : List (DataPoint (Held V))} {t : Tag}
    (hh : h ∈ (s.push new t).handles) : h ∈ s.handles ∨ ∃ p ∈ new, handleOf p = h := by
  rcases mem_append.mp hh with hp | hs
  · obtain ⟨p, hp, rfl⟩ := mem_map.mp hp
    have hp : p ∈ s.points ++ new := by
      rwa [← Slot.points_push s.toSlot new t]
    rcases mem_append.mp hp with hp | hp
    · exact .inl (mem_append_left _ (mem_map_of_mem hp))
    · exact .inr ⟨p, hp, rfl⟩
  · rcases mem_registerHandles hs with hs | hnew
    · exact .inl (mem_append_right _ hs)
    · exact .inr hnew

theorem handles_dropSealed_subset (s : HandleSlot V) (sealed : List ℕ) :
    (s.dropSealed sealed).handles ⊆ s.handles := by
  have hpoints : (s.toSlot.dropSealed sealed).points ⊆ s.points := fun p => mem_of_mem_drop
  unfold dropSealed
  by_cases hnone : droppable sealed s.marks = 0
  · rw [if_pos hnone]
    exact List.Subset.refl _
  rw [if_neg hnone]
  by_cases hempty : (s.toSlot.dropSealed sealed).points = []
  · rw [if_pos hempty]
    exact nil_subset _
  rw [if_neg hempty]
  intro h hh
  rcases mem_append.mp hh with hp | hs
  · obtain ⟨p, hmem, rfl⟩ := mem_map.mp hp
    exact mem_append_left _ (mem_map_of_mem (hpoints hmem))
  · dsimp only at hs
    split_ifs at hs
    · rcases mem_registerHandles hs with hs | ⟨p, hp, rfl⟩
      · cases hs
      · exact mem_append_left _ (mem_map_of_mem (hpoints hp))
    · exact mem_append_right _ hs

end HandleSlot

/-! ## Runs -/

structure HandleBuffer (V : Type*) where
  slots : String → HandleSlot V

namespace HandleBuffer

def new : HandleBuffer V := ⟨fun _ => HandleSlot.empty⟩

def pushMetricsTagged (b : HandleBuffer V) (name : String) (points : List (DataPoint (Held V)))
    (shard epoch : ℕ) : HandleBuffer V :=
  ⟨fun n => if n = name then (b.slots n).push points ⟨shard, epoch⟩ else b.slots n⟩

def dropSealedMetrics (b : HandleBuffer V) (sealed : List ℕ) : HandleBuffer V :=
  if sealed.all (· = 0) then b else ⟨fun n => (b.slots n).dropSealed sealed⟩

/-- The buffer keeps the handle alive. -/
def Live (b : HandleBuffer V) (h : Handle) : Prop := ∃ name, h ∈ (b.slots name).handles

/-- What memory management guarantees of pushed points: handles that are alive together and have
one address are one allocation, so they have the same labels. -/
def Allocated (b : HandleBuffer V) (points : List (DataPoint (Held V))) : Prop :=
  ∀ p ∈ points, ∀ h, (b.Live h ∨ ∃ q ∈ points, handleOf q = h) →
    h.addr = (handleOf p).addr → h = handleOf p

inductive Step : HandleBuffer V → HandleBuffer V → Prop
  | push {b : HandleBuffer V} (name : String) {points : List (DataPoint (Held V))}
      (shard epoch : ℕ) : b.Allocated points → Step b (b.pushMetricsTagged name points shard epoch)
  | drop {b : HandleBuffer V} (sealed : List ℕ) : Step b (b.dropSealedMetrics sealed)

def Reachable (b : HandleBuffer V) : Prop := Relation.ReflTransGen Step new b

/-- An address has one label set among the live handles. -/
def Coherent (b : HandleBuffer V) : Prop :=
  ∀ h h', b.Live h → b.Live h' → h.addr = h'.addr → h = h'

variable {b : HandleBuffer V}

theorem live_push {name : String} {shard epoch : ℕ}
    (hh : (b.pushMetricsTagged name points shard epoch).Live h) :
    b.Live h ∨ ∃ p ∈ points, handleOf p = h := by
  obtain ⟨n, hn⟩ := hh
  simp only [pushMetricsTagged] at hn
  split_ifs at hn
  · exact (HandleSlot.mem_handles_push hn).imp_left fun hold => ⟨n, hold⟩
  · exact .inl ⟨n, hn⟩

theorem live_drop {sealed : List ℕ} (hh : (b.dropSealedMetrics sealed).Live h) : b.Live h := by
  unfold dropSealedMetrics at hh
  split_ifs at hh
  · exact hh
  · obtain ⟨n, hn⟩ := hh
    exact ⟨n, HandleSlot.handles_dropSealed_subset _ sealed hn⟩

theorem Coherent.step {b' : HandleBuffer V} (h : b.Coherent) (hstep : Step b b') : b'.Coherent := by
  cases hstep with
  | push name shard epoch halloc =>
    intro x y hx hy haddr
    rcases live_push hy with hy' | ⟨q, hq, rfl⟩
    · rcases live_push hx with hx' | ⟨p, hp, rfl⟩
      · exact h x y hx' hy' haddr
      · exact (halloc p hp y (.inl hy') haddr.symm).symm
    · exact halloc q hq x (live_push hx) haddr
  | drop sealed => exact fun x y hx hy => h x y (live_drop hx) (live_drop hy)

/-- **A live address names one label set**, whatever was pushed and dropped. -/
theorem Reachable.coherent (h : b.Reachable) : b.Coherent := by
  induction h with
  | refl =>
    rintro x y ⟨n, hn⟩
    cases hn
  | tail _ hstep ih => exact ih.step hstep

/-! ## Scans -/

def inWindow (startNs endNs : ℤ) (p : DataPoint (Held V)) : Bool :=
  startNs ≤ p.timestampNs ∧ p.timestampNs ≤ endNs

def scanMetrics (b : HandleBuffer V) (name : String) (startNs endNs : ℤ) :
    List (DataPoint (Held V)) :=
  (b.slots name).points.filter (inWindow startNs endNs)

/-- The state of the scan: points found, points in the window so far, and the verdict for the
address of the last one. -/
structure Scan (V : Type*) where
  out : List (DataPoint (Held V)) := []
  considered : ℕ := 0
  last : Option (ℕ × Bool) := none

def scanPoint (startNs endNs : ℤ) (accepted : Option (List ℕ)) (s : Scan V)
    (p : DataPoint (Held V)) : Scan V :=
  if p.timestampNs < startNs ∨ endNs < p.timestampNs then s
  else
    let s := { s with considered := s.considered + 1 }
    match accepted with
    | none => { s with out := s.out ++ [p] }
    | some set =>
      let judged : Bool × Option (ℕ × Bool) :=
        match s.last with
        | some (a, v) =>
          if a = p.value.addr then (v, s.last)
          else (p.value.addr ∈ set, some (p.value.addr, p.value.addr ∈ set))
        | none => (p.value.addr ∈ set, some (p.value.addr, p.value.addr ∈ set))
      if judged.1 then { s with out := s.out ++ [p], last := judged.2 }
      else { s with last := judged.2 }

/-- The points in the window whose label set the filter accepts, and the number of points in the
window; nothing is looked at if no registered handle is accepted. -/
def scanMetricsFiltered (b : HandleBuffer V) (name : String) (startNs endNs : ℤ)
    (filter : Option (LabelSet → Bool)) : List (DataPoint (Held V)) × ℕ :=
  let slot := b.slots name
  let accepted := filter.map fun f => (slot.series.filter fun h => f h.labels).map Handle.addr
  if accepted = some [] then ([], 0)
  else
    let s := slot.points.foldl (scanPoint startNs endNs accepted) {}
    (s.out, s.considered)

/-- The verdict for the last address is the one that the set gives. -/
def Scan.Judged (accepted : Option (List ℕ)) (s : Scan V) : Prop :=
  ∀ set ∈ accepted, ∀ a v, s.last = some (a, v) → v = decide (a ∈ set)

theorem scanPoint_spec (startNs endNs : ℤ) {accepted : Option (List ℕ)} {s : Scan V}
    (hs : s.Judged accepted) (p : DataPoint (Held V)) :
    (scanPoint startNs endNs accepted s p).Judged accepted ∧
      (scanPoint startNs endNs accepted s p).out = s.out ++
        ([p].filter (inWindow startNs endNs)).filter
          (fun p => accepted.all fun set => p.value.addr ∈ set) ∧
      (scanPoint startNs endNs accepted s p).considered = s.considered +
        ([p].filter (inWindow startNs endNs)).length := by
  unfold scanPoint
  by_cases hout : p.timestampNs < startNs ∨ endNs < p.timestampNs
  · have hskip : ([p].filter (inWindow startNs endNs)) = [] := by
      refine filter_eq_nil_iff.mpr fun q hq => ?_
      obtain rfl := mem_singleton.mp hq
      simp only [inWindow, decide_eq_true_eq]
      omega
    rw [if_pos hout, hskip]
    exact ⟨hs, (append_nil _).symm, rfl⟩
  · have hin : ([p].filter (inWindow startNs endNs)) = [p] := by
      refine filter_eq_self.mpr fun q hq => ?_
      obtain rfl := mem_singleton.mp hq
      simp only [inWindow, decide_eq_true_eq]
      omega
    rw [if_neg hout, hin]
    cases accepted with
    | none => exact ⟨nofun, rfl, rfl⟩
    | some set =>
      -- whether taken from the last point or looked up, the verdict is the same
      have hjudged : (match s.last with
          | some (a, v) =>
            if a = p.value.addr then (v, s.last)
            else (decide (p.value.addr ∈ set), some (p.value.addr, decide (p.value.addr ∈ set)))
          | none => (decide (p.value.addr ∈ set),
              some (p.value.addr, decide (p.value.addr ∈ set)))) =
          (decide (p.value.addr ∈ set),
            some (p.value.addr, decide (p.value.addr ∈ set))) := by
        cases hlast : s.last with
        | none => rfl
        | some av =>
          obtain ⟨a, v⟩ := av
          dsimp only
          split_ifs with ha
          · rw [hs set rfl a v hlast, ha]
          · rfl
      dsimp only
      rw [hjudged]
      have hkeeps : ∀ out : List (DataPoint (Held V)), Scan.Judged (some set)
          ⟨out, s.considered + 1, some (p.value.addr, decide (p.value.addr ∈ set))⟩ := by
        rintro out _ ⟨⟩ a v ⟨⟩
        rfl
      by_cases hmem : p.value.addr ∈ set
      · simp only [hmem, decide_true, if_true]
        refine ⟨?_, ?_, rfl⟩
        · simpa [hmem] using hkeeps (s.out ++ [p])
        · simp [hmem]
      · simp only [hmem, decide_false, Bool.false_eq_true, if_false]
        refine ⟨?_, ?_, rfl⟩
        · simpa [hmem] using hkeeps s.out
        · simp [hmem]

theorem foldl_scanPoint (startNs endNs : ℤ) (accepted : Option (List ℕ))
    (points : List (DataPoint (Held V))) {s : Scan V} (hs : s.Judged accepted) :
    (points.foldl (scanPoint startNs endNs accepted) s).out = s.out ++
        (points.filter (inWindow startNs endNs)).filter
          (fun p => accepted.all fun set => p.value.addr ∈ set) ∧
      (points.foldl (scanPoint startNs endNs accepted) s).considered = s.considered +
        (points.filter (inWindow startNs endNs)).length := by
  induction points generalizing s with
  | nil => exact ⟨(append_nil _).symm, rfl⟩
  | cons p points ih =>
    obtain ⟨hjudged, hout, hcount⟩ := scanPoint_spec startNs endNs hs p
    obtain ⟨ihout, ihcount⟩ := ih hjudged
    have hcons : (p :: points).filter (inWindow startNs endNs) =
        [p].filter (inWindow startNs endNs) ++ points.filter (inWindow startNs endNs) :=
      filter_append [p] points
    rw [foldl_cons, ihout, ihcount, hout, hcount, hcons, filter_append,
      length_append, append_assoc, Nat.add_assoc]
    exact ⟨rfl, rfl⟩

theorem Reachable.accepted_iff (h : b.Reachable) {name : String} {p : DataPoint (Held V)}
    (hp : p ∈ (b.slots name).points) (f : LabelSet → Bool) :
    p.value.addr ∈ ((b.slots name).series.filter fun h => f h.labels).map Handle.addr ↔
      f p.labels = true := by
  have hlive : b.Live (handleOf p) := ⟨name, mem_append_left _ (mem_map_of_mem hp)⟩
  have hsame : ∀ x ∈ (b.slots name).series, x.addr = p.value.addr → x = handleOf p :=
    fun x hx haddr => h.coherent x _ ⟨name, mem_append_right _ hx⟩ hlive haddr
  constructor
  · intro hmem
    obtain ⟨x, hx, haddr⟩ := mem_map.mp hmem
    obtain ⟨hx, hf⟩ := mem_filter.mp hx
    rw [hsame x hx haddr] at hf
    exact hf
  · intro hf
    obtain ⟨x, hx, haddr⟩ := mem_map.mp ((b.slots name).registered p hp)
    refine mem_map.mpr ⟨x, mem_filter.mpr ⟨hx, ?_⟩, haddr⟩
    rw [hsame x hx haddr]
    exact hf

/-- **A filtered scan is a filter of the plain scan**, in every state that pushes and drops lead
to. It counts the points of the plain scan, except when it returns before looking at any, as no
registered series satisfies the filter. -/
theorem scanMetricsFiltered_eq_filter (b : HandleBuffer V) (h : b.Reachable) (name : String)
    (startNs endNs : ℤ) (filter : Option (LabelSet → Bool)) :
    (b.scanMetricsFiltered name startNs endNs filter).1 =
      (b.scanMetrics name startNs endNs).filter (fun p => filter.all fun f => f p.labels) ∧
    ((∃ f ∈ filter, ∀ x ∈ (b.slots name).series, f x.labels = false) →
      (b.scanMetricsFiltered name startNs endNs filter).2 = 0) ∧
    ((¬ ∃ f ∈ filter, ∀ x ∈ (b.slots name).series, f x.labels = false) →
      (b.scanMetricsFiltered name startNs endNs filter).2 =
        (b.scanMetrics name startNs endNs).length) := by
  have hnone : (filter.map fun f => ((b.slots name).series.filter fun x => f x.labels).map
      Handle.addr) = some [] ↔ ∃ f ∈ filter, ∀ x ∈ (b.slots name).series, f x.labels = false := by
    simp [Option.map_eq_some_iff, filter_eq_nil_iff]
  have hfilter : (b.scanMetrics name startNs endNs).filter (fun p =>
      (filter.map fun f => ((b.slots name).series.filter fun x => f x.labels).map
        Handle.addr).all fun set => p.value.addr ∈ set) =
      (b.scanMetrics name startNs endNs).filter (fun p => filter.all fun f => f p.labels) := by
    refine filter_congr fun p hp => ?_
    have hp := (mem_filter.mp hp).1
    cases filter with
    | none => rfl
    | some f =>
      rw [Option.map_some, Option.all_some, Option.all_some, Bool.eq_iff_iff, decide_eq_true_eq]
      exact h.accepted_iff hp f
  obtain ⟨hout, hcount⟩ := foldl_scanPoint startNs endNs
    (filter.map fun f => ((b.slots name).series.filter fun x => f x.labels).map Handle.addr)
    (b.slots name).points (s := {}) (fun _ _ _ _ => nofun)
  unfold scanMetricsFiltered
  dsimp only
  split_ifs with haccepted
  · refine ⟨?_, fun _ => rfl, fun hsome => absurd (hnone.mp haccepted) hsome⟩
    rw [← hfilter, haccepted]
    symm
    exact filter_eq_nil_iff.mpr fun p _ => by simp
  · refine ⟨?_, fun hno => absurd (hnone.mpr hno) haccepted, fun _ => ?_⟩
    · rw [hout, nil_append]
      exact hfilter
    · rw [hcount, Nat.zero_add]
      rfl

/-- Two handles for one label set: both points are found. -/
theorem scanMetricsFiltered_eq_filter_equal_handles :
    let points : List (DataPoint (Held ℕ)) :=
      [⟨1, ⟨10, 4096⟩, LabelSet.empty⟩, ⟨2, ⟨20, 8192⟩, LabelSet.empty⟩]
    (((new : HandleBuffer ℕ).pushMetricsTagged "up" points 0 1).scanMetricsFiltered "up" 0 9
      (some fun _ => true)).1 =
      (((new : HandleBuffer ℕ).pushMetricsTagged "up" points 0 1).scanMetrics "up" 0 9).filter
        fun p => (some fun _ => true).all fun f => f p.labels := by
  intro points
  refine (scanMetricsFiltered_eq_filter _ (.single (.push "up" 0 1 ?_)) "up" 0 9 _).1
  have hone : ∀ p ∈ points, ∀ q ∈ points, (handleOf q).addr = (handleOf p).addr →
      handleOf q = handleOf p := by decide
  rintro p hp h (⟨n, hn⟩ | ⟨q, hq, rfl⟩) haddr
  · cases hn
  · exact hone p hp q hq haddr

end HandleBuffer

end Parqtel.Buffer
