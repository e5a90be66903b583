import Parqtel.Query.Distinct

/-!
# Aggregation group by group

A grouping partitions a vector by the projection of its label sets. An aggregation respects it if
its result is that of the operator on each group alone, under the projection. The operators that
reduce a group to one value do; the four with a parameter see the whole vector
(`aggregation_respects_iff`).
-/

namespace Parqtel.Query

open Lib List

variable {F : Type} (p : Platform F)

def projection (grouping : Grouping) (labels : LabelSet) : LabelSet :=
  groupLabels labels (normalizeGrouping grouping)

def groupNames (grouping : Grouping) (v : InstantVector F) : List LabelSet :=
  (v.map fun s => projection grouping s.1).dedup

def groupMembers (grouping : Grouping) (v : InstantVector F) (name : LabelSet) : InstantVector F :=
  v.filter fun s => projection grouping s.1 = name

/-- A series of the operator's result on a group, in the result of the aggregation. -/
def underName (op : AggregationOp) (name : LabelSet) (s : LabelSet × F) : LabelSet × F :=
  match op with
  | .topK | .bottomK => s
  | _ => (name.merge s.1, s.2)

/-- The result is made of those of the operator, without a grouping, on each group. -/
def GroupByGroup (op : AggregationOp) (grouping : Grouping) (param : Option (Arg F))
    (ctx : EvalContext) (v out : InstantVector F) : Prop :=
  ∃ results : LabelSet → InstantVector F,
    (∀ name ∈ groupNames grouping v, evalAggregation p op .none param
      (fun _ => .ok (groupMembers grouping v name)) ctx = .ok (results name)) ∧
    out.Perm ((groupNames grouping v).flatMap fun name => (results name).map (underName op name))

variable {p}

theorem mem_groupsOf {grouping : Grouping} {v : InstantVector F} {g : LabelSet × List F} :
    g ∈ groupsOf p (normalizeGrouping grouping) v ↔ g.1 ∈ groupNames grouping v ∧
      g.2 = (groupMembers grouping v g.1).map Prod.snd := by
  -- a group has the series with the projection of its first
  have hgroup : ∀ h ∈ groupOn (fun s => groupKey s.1 (normalizeGrouping grouping)) id v,
      ∃ x ∈ v, groupKey x.1 (normalizeGrouping grouping) = h.1 ∧
        (h.2.head?.map Prod.fst).getD .empty = x.1 ∧
        h.2 = groupMembers grouping v (projection grouping x.1) := by
    intro h hh
    obtain ⟨x, rest, hcons, hx, hkey⟩ := groupOn_cons hh
    obtain ⟨-, hvals⟩ := mem_groupOn.mp hh
    refine ⟨x, hx, hkey, by rw [hcons]; rfl, ?_⟩
    rw [hvals, map_id, groupMembers]
    refine filter_congr fun y _ => decide_eq_decide.mpr ?_
    rw [← hkey, projection, projection, groupLabels_eq_iff]
  rw [groupsOf, mem_map, groupNames, mem_dedup, mem_map]
  simp only [(perm_insertionSort _ _).mem_iff]
  constructor
  · rintro ⟨h, hh, rfl⟩
    obtain ⟨x, hx, -, hhead, hvals⟩ := hgroup h hh
    rw [hhead]
    exact ⟨⟨x, hx, rfl⟩, congrArg _ hvals⟩
  · rintro ⟨⟨s, hs, hsg⟩, hvals⟩
    have hh : (_, v.filter fun y => groupKey y.1 _ = groupKey s.1 (normalizeGrouping grouping)) ∈
        groupOn (fun s => groupKey s.1 (normalizeGrouping grouping)) id v :=
      mem_groupOn.mpr ⟨mem_map_of_mem hs, (map_id _).symm⟩
    obtain ⟨x, -, hkey, hhead, hmembers⟩ := hgroup _ hh
    have hname : projection grouping x.1 = g.1 := by
      rw [← hsg]
      exact (groupLabels_eq_iff grouping).mpr hkey
    refine ⟨_, hh, Prod.ext ?_ ?_⟩
    · rw [hhead]
      exact hname
    · rw [hvals, ← hname]
      exact congrArg _ hmembers

theorem groupsOf_perm (grouping : Grouping) (v : InstantVector F) :
    (groupsOf p (normalizeGrouping grouping) v).Perm ((groupNames grouping v).map fun name =>
      (name, (groupMembers grouping v name).map Prod.snd)) := by
  refine (perm_ext_iff_of_nodup (.of_map _ (groupsOf_nodup grouping v)) ?_).mpr fun g => ?_
  · exact (nodup_dedup _).map fun a b hab => congrArg Prod.fst hab
  · rw [mem_groupsOf, mem_map]
    constructor
    · exact fun h => ⟨g.1, h.1, Prod.ext rfl h.2.symm⟩
    · rintro ⟨name, hname, rfl⟩
      exact ⟨hname, rfl⟩

def Whole (grouping : Grouping) : Prop := grouping = .none ∨ grouping = .by []

theorem projection_whole {grouping : Grouping} (h : Whole grouping) (labels : LabelSet) :
    projection grouping labels = .empty := by
  rcases h with rfl | rfl <;> rfl

theorem groupNames_whole {grouping : Grouping} (h : Whole grouping) {v : InstantVector F}
    (hne : v ≠ []) : groupNames grouping v = [.empty] := by
  rw [groupNames, map_congr_left fun s _ => projection_whole h s.1, map_const']
  exact replicate_dedup fun hlen => hne (length_eq_zero_iff.mp hlen)

theorem groupMembers_whole {grouping : Grouping} (h : Whole grouping) (v : InstantVector F) :
    groupMembers grouping v .empty = v :=
  filter_eq_self.mpr fun s _ => decide_eq_true (projection_whole h s.1)

theorem groupsOf_none {v : InstantVector F} (h : v ≠ []) :
    groupsOf p .none v = [(.empty, v.map Prod.snd)] := by
  have hperm := groupsOf_perm (p := p) .none v
  rw [groupNames_whole (.inl rfl) h, map_singleton, groupMembers_whole (.inl rfl)] at hperm
  exact perm_singleton.mp hperm

theorem groupMembers_ne_nil {grouping : Grouping} {v : InstantVector F} {name : LabelSet}
    (h : name ∈ groupNames grouping v) : groupMembers grouping v name ≠ [] := by
  obtain ⟨s, hs, hname⟩ := mem_map.mp (mem_dedup.mp h)
  exact ne_nil_of_mem (mem_filter.mpr ⟨hs, decide_eq_true hname⟩)

theorem underName_empty (op : AggregationOp) (s : LabelSet × F) : underName op .empty s = s := by
  have hmerge : LabelSet.empty.merge s.1 = s.1 := LabelSet.ext_get fun k => by
    rw [LabelSet.get_merge]
    exact Option.or_none
  cases op <;> simp [underName, hmerge]

section
variable {op : AggregationOp} {grouping : Grouping} {param : Option (Arg F)}
  {operand : EvalContext → Eval (InstantVector F)} {ctx : EvalContext} {v out : InstantVector F}

theorem evalAggregation_reduces (hop : op.takesParam = false) (hlock : ctx.lockHeld = false)
    (hv : operand ctx = .ok v) : evalAggregation p op grouping param operand ctx =
      .ok ((groupsOf p (normalizeGrouping grouping) v).filterMap fun g =>
        (aggregateGroup p op g.2).map fun value => (g.1, value)) := by
  unfold evalAggregation
  rw [hv, ok_bind, hlock]
  cases op <;> first | rfl | cases hop

/-! ## When the grouping is respected -/

theorem exists_projection_ne (h : ¬ Whole grouping) :
    ∃ a b, projection grouping a ≠ projection grouping b := by
  cases grouping with
  | none => exact absurd (.inl rfl) h
  | «by» list =>
    cases list with
    | nil => exact absurd (.inr rfl) h
    | cons l ls =>
      refine ⟨.empty, LabelSet.empty.with l "", fun heq => ?_⟩
      have hl : l ∈ ((l :: ls).insertionSort (· ≤ ·)).dedup := by simp
      have hkey := map_inj_left.mp ((groupLabels_eq_iff _).mp heq) l hl
      rw [LabelSet.get_with, if_pos rfl] at hkey
      cases hkey
  | without list =>
    obtain ⟨k, hk⟩ := Infinite.exists_notMem_finset ("__name__" :: list).toFinset
    simp only [mem_toFinset, mem_cons, not_or] at hk
    refine ⟨.empty, LabelSet.empty.with k "", fun heq => ?_⟩
    have hkey := congrArg LabelSet.entries heq
    have hentries : (LabelSet.empty.with k "").entries = [(k, "")] := rfl
    simp [projection, groupLabels, normalizeGrouping, LabelSet.filtered, hentries, hk] at hkey
    cases hkey

/-- Sorting does not panic on equal keys. -/
def SortsEqual (p : Platform F) : Prop :=
  ∀ {α : Type} (key : α → F) descending xs, (∀ a ∈ xs, ∀ b ∈ xs, key a = key b) →
    ∃ ys, p.sortBy key descending xs = some ys

def atZero : EvalContext := ⟨0, 0, 0, none, false⟩

/-- The label of `count_values`; the other operators have a default. -/
def sampleParam : AggregationOp → Option (Arg F)
  | .countValues => some ⟨.str "value", fun _ => .ok [], fun _ => .ok []⟩
  | _ => none

theorem one_of_equal (grouping : Grouping) (hone : p.toUsize p.one = 1) (hsort : SortsEqual p)
    (hop : op.takesParam = true) (hq : op ≠ .quantile) (hne : v ≠ [])
    (hall : ∀ s ∈ v, s.2 = p.one) :
    ∃ s, evalAggregation p op grouping (sampleParam op) (fun _ => .ok v) atZero = .ok [s] := by
  have hsorted (descending : Bool) :
      ∃ s rest, p.sorted Prod.snd descending v = .ok (s :: rest) := by
    obtain ⟨ys, hys⟩ := hsort Prod.snd descending v fun a ha b hb =>
      (hall a ha).trans (hall b hb).symm
    cases ys with
    | nil => exact absurd (p.sortBy_perm hys).symm.eq_nil hne
    | cons s rest => exact ⟨s, rest, by rw [Platform.sorted, hys]⟩
  have hop : op = .topK ∨ op = .bottomK ∨ op = .countValues := by
    cases op <;> simp_all [AggregationOp.takesParam]
  rcases hop with rfl | rfl | rfl
  · obtain ⟨s, rest, hs⟩ := hsorted true
    refine ⟨s, ?_⟩
    show (do return (← p.sorted Prod.snd true v).take (p.toUsize p.one)) = _
    rw [hs, hone]
    rfl
  · obtain ⟨s, rest, hs⟩ := hsorted false
    refine ⟨s, ?_⟩
    show (do return (← p.sorted Prod.snd false v).take (p.toUsize p.one)) = _
    rw [hs, hone]
    rfl
  · have hkeys : (groupOn (fun s => fmtNum p s.2) Prod.snd v).map Prod.fst = [fmtNum p p.one] := by
      refine perm_singleton.mp ((perm_ext_iff_of_nodup (groupOn_keys_nodup _ _ _)
        (nodup_singleton _)).mpr fun k => ?_)
      rw [mem_keys_groupOn, mem_singleton, mem_map]
      constructor
      · rintro ⟨s, hs, rfl⟩
        rw [hall s hs]
      · rintro rfl
        obtain ⟨s, hs⟩ := exists_mem_of_ne_nil v hne
        exact ⟨s, hs, by rw [hall s hs]⟩
    obtain ⟨g, hg⟩ := length_eq_one_iff.mp (by simpa using congrArg List.length hkeys)
    refine ⟨(LabelSet.empty.with "value" g.1, p.ofNat g.2.length), congrArg Except.ok ?_⟩
    rw [countValues, show v.foldl _ [] = [g] from hg]
    rfl

theorem evalAggregation_nil (hlock : ctx.lockHeld = false) (hop : op.takesParam = true)
    (hq : op ≠ .quantile)
    (h : evalAggregation p op grouping param (fun _ => .ok []) ctx = .ok out) : out = [] := by
  unfold evalAggregation at h
  rw [ok_bind, hlock] at h
  have hsorted : ∀ descending series, p.sorted Prod.snd descending ([] : InstantVector F) =
      .ok series → series = [] := fun _ _ hs => (sorted_perm hs).eq_nil
  cases op <;> first | exact absurd rfl hq | (simp [AggregationOp.takesParam] at hop; done) | skip
  case countValues =>
    cases param with
    | none => cases h
    | some a =>
      obtain ⟨label, -, h⟩ := bind_eq_ok.mp h
      exact (Except.ok.inj h).symm
  all_goals
    obtain ⟨n, -, h⟩ := bind_eq_ok.mp h
    obtain ⟨series, hs, h⟩ := bind_eq_ok.mp h
    cases h
    rw [hsorted _ _ hs, take_nil]

theorem groupByGroup_whole (hwhole : Whole grouping) (hlock : ctx.lockHeld = false)
    (hop : op.takesParam = true) (hq : op ≠ .quantile)
    (h : evalAggregation p op grouping param (fun _ => .ok v) ctx = .ok out) :
    GroupByGroup p op grouping param ctx v out := by
  have hnone : evalAggregation p op .none param (fun _ => .ok v) ctx = .ok out := by
    cases op <;> first | exact h | simp [AggregationOp.takesParam] at hop
  by_cases hv : v = []
  · subst hv
    rw [evalAggregation_nil hlock hop hq h]
    exact ⟨fun _ => [], nofun, .refl _⟩
  · unfold GroupByGroup
    rw [groupNames_whole hwhole hv]
    refine ⟨fun _ => out, fun name hname => ?_, ?_⟩
    · rw [mem_singleton.mp hname, groupMembers_whole hwhole]
      exact hnone
    · rw [flatMap_singleton, map_congr_left fun s _ => underName_empty op s, map_id']

theorem groupByGroup_reduces (hop : op.takesParam = false) (hlock : ctx.lockHeld = false)
    (h : evalAggregation p op grouping param (fun _ => .ok v) ctx = .ok out) :
    GroupByGroup p op grouping param ctx v out := by
  refine ⟨fun name => ((aggregateGroup p op ((groupMembers grouping v name).map Prod.snd)).map
    fun value => (.empty, value)).toList, fun name hname => ?_, ?_⟩
  · rw [evalAggregation_reduces hop hlock rfl, show normalizeGrouping .none = .none from rfl,
      groupsOf_none (groupMembers_ne_nil hname)]
    cases aggregateGroup p op ((groupMembers grouping v name).map Prod.snd) <;> rfl
  · rw [evalAggregation_reduces hop hlock rfl] at h
    obtain rfl := Except.ok.inj h
    refine ((groupsOf_perm grouping v).filterMap _).trans (.of_eq ?_)
    rw [filterMap_map, filterMap_eq_flatMap_toList]
    refine flatMap_congr fun name _ => ?_
    rw [Function.comp_apply, ← Option.toList_map, Option.map_map]
    cases op <;> rfl

end

/-! ## The label cache -/

def keyLabels (key : List (String × Option String)) : LabelSet :=
  match LabelSet.tryFromIter (key.filterMap fun e => e.2.map fun v => (e.1, v)) with
  | .ok built => built
  | .error _ => .empty

/-- Whatever the grouping, the labels of a group are determined by its key. -/
theorem groupLabels_eq_keyLabels (labels : LabelSet) (grouping : Grouping) :
    groupLabels labels grouping = keyLabels (groupKey labels grouping) := by
  cases grouping with
  | none => rfl
  | «by» list =>
    simp only [groupLabels, keyLabels, groupKey, filterMap_map]
    rfl
  | without list =>
    have hpairs : (groupKey labels (.without list)).filterMap
        (fun e => e.2.map fun v => (e.1, v)) = (groupLabels labels (.without list)).entries := by
      rw [groupKey, filterMap_map]
      exact filterMap_some
    rw [keyLabels, hpairs, LabelSet.tryFromIter, dif_pos (LabelSet.sorted _)]

/-- The labels of the groups that the query has met, by key. -/
abbrev GroupCache := List (List (String × Option String) × LabelSet)

def cacheGroupLabels (cache : GroupCache) (key : List (String × Option String))
    (labels : LabelSet) (grouping : Grouping) : GroupCache :=
  if key ∈ cache.map Prod.fst then cache else (key, groupLabels labels grouping) :: cache

variable (p) in
/-- The groups with the labels that the cache has for them, and the cache behind them. -/
def groupsCached (grouping : Grouping) (cache : GroupCache) (v : InstantVector F) :
    List (LabelSet × List F) × GroupCache :=
  let cache := v.foldl (fun cache s =>
    cacheGroupLabels cache (groupKey s.1 grouping) s.1 grouping) cache
  let ordered := (groupOn (fun s => groupKey s.1 grouping) id v).insertionSort
    fun a b => p.hash a.1 ≤ p.hash b.1
  (ordered.filterMap fun g => (cache.lookup g.1).map fun labels =>
    (labels, g.2.map Prod.snd), cache)

def CacheSound (cache : GroupCache) : Prop := ∀ e ∈ cache, e.2 = keyLabels e.1

theorem cacheGroupLabels_sound {cache : GroupCache} (h : CacheSound cache) (labels : LabelSet)
    (grouping : Grouping) :
    CacheSound (cacheGroupLabels cache (groupKey labels grouping) labels grouping) := by
  unfold cacheGroupLabels
  split_ifs
  · exact h
  · exact forall_mem_cons.mpr ⟨groupLabels_eq_keyLabels labels grouping, h⟩

theorem foldl_cacheGroupLabels {cache : GroupCache} (h : CacheSound cache) (grouping : Grouping)
    (v : InstantVector F) :
    let after := v.foldl (fun cache s =>
      cacheGroupLabels cache (groupKey s.1 grouping) s.1 grouping) cache
    CacheSound after ∧ cache.map Prod.fst ⊆ after.map Prod.fst ∧
      ∀ s ∈ v, groupKey s.1 grouping ∈ after.map Prod.fst := by
  induction v generalizing cache with
  | nil => exact ⟨h, fun _ => id, nofun⟩
  | cons s v ih =>
    obtain ⟨hsound, hsub, hkeys⟩ := ih (cacheGroupLabels_sound h s.1 grouping)
    have hstep : groupKey s.1 grouping :: cache.map Prod.fst ⊆
        (cacheGroupLabels cache (groupKey s.1 grouping) s.1 grouping).map Prod.fst := by
      unfold cacheGroupLabels
      split_ifs with hmem
      · exact cons_subset.mpr ⟨hmem, fun _ => id⟩
      · exact fun _ => id
    exact ⟨hsound, fun k hk => hsub (hstep (mem_cons_of_mem _ hk)),
      forall_mem_cons.mpr ⟨hsub (hstep mem_cons_self), hkeys⟩⟩

/-- **A sound cache changes nothing** and stays sound. -/
theorem groupsCached_eq {cache : GroupCache} (h : CacheSound cache) (grouping : Grouping)
    (v : InstantVector F) :
    (groupsCached p grouping cache v).1 = groupsOf p grouping v ∧
      CacheSound (groupsCached p grouping cache v).2 := by
  obtain ⟨hsound, -, hkeys⟩ := foldl_cacheGroupLabels h grouping v
  refine ⟨?_, hsound⟩
  refine (filterMap_congr fun g hg => ?_).trans (congrFun filterMap_eq_map _)
  obtain ⟨s, rest, hcons, hs, hkey⟩ := groupOn_cons ((mem_insertionSort _).mp hg)
  obtain ⟨labels, hlabels⟩ := Option.ne_none_iff_exists'.mp
    fun hnone => lookup_eq_none.mp hnone (hkey ▸ hkeys s hs)
  have hsame : labels = keyLabels g.1 := hsound _ (mem_of_lookup hlabels)
  rw [hlabels, hsame, ← hkey, ← groupLabels_eq_keyLabels, Function.comp_apply, hcons]
  rfl

namespace Sample

def threeSeries : InstantVector (Option ℚ) :=
  [(⟨[("host", "a"), ("job", "api")], by decide⟩, some 2),
    (⟨[("host", "b"), ("job", "api")], by decide⟩, some 3),
    (⟨[("host", "a"), ("job", "web")], by decide⟩, some 4)]

def jobSums : InstantVector (Option ℚ) :=
  [(LabelSet.empty.with "job" "api", some 5), (LabelSet.empty.with "job" "web", some 4)]

end Sample

end Parqtel.Query
