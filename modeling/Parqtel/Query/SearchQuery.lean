import Parqtel.Query.LogSearch

/-!
# Flat searches

A search that is nothing but a conjunction can be kept as two lists, the clauses and the terms
(`SearchQuery`). `flattenAnd` makes one from a tree: a negated leaf becomes a negated clause or
term, and any other `OR` or `NOT` has no flat form. Where it succeeds, the flat search matches the
same records (`searchFilter_flattenAnd`).
-/

namespace Parqtel.Query

open Lib Text Storage PreparedAtom BoolTree

structure SearchQuery (F : Type*) where
  clauses : List (Clause F)
  terms : List SearchTerm

namespace SearchQuery
variable {F : Type*}

def default : SearchQuery F := ⟨[], []⟩

def pushClause (q : SearchQuery F) (c : Clause F) : SearchQuery F :=
  { q with clauses := q.clauses ++ [c] }

def pushTerm (q : SearchQuery F) (t : SearchTerm) : SearchQuery F :=
  { q with terms := q.terms ++ [t] }

def pushAtom (q : SearchQuery F) : Atom F → SearchQuery F
  | .clause c => q.pushClause c
  | .term t => q.pushTerm t

end SearchQuery

def Atom.negated {F : Type*} : Atom F → Atom F
  | .clause c => .clause (.not c)
  | .term t => .term { t with negate := !t.negate }

section
variable {F : Type*}

mutual

def collectAnd (q : SearchQuery F) : Predicate F → Option (SearchQuery F)
  | .and parts => collectAll q parts
  | .or _ => none
  | .not (.leaf a) => some (q.pushAtom a.negated)
  | .not _ => none
  | .leaf a => some (q.pushAtom a)

def collectAll (q : SearchQuery F) : List (Predicate F) → Option (SearchQuery F)
  | [] => some q
  | p :: ps => do
    let q ← collectAnd q p
    collectAll q ps

end

def flattenAnd (pred : Predicate F) : Option (SearchQuery F) := collectAnd .default pred

end

section
variable {F : Type*}

mutual

def isFlat : Predicate F → Bool
  | .and parts => areFlat parts
  | .or _ => false
  | .not (.leaf _) => true
  | .not _ => false
  | .leaf _ => true

def areFlat : List (Predicate F) → Bool
  | [] => true
  | p :: ps => isFlat p && areFlat ps

end

mutual

theorem collectAnd_isSome (q : SearchQuery F) :
    (pred : Predicate F) → (collectAnd q pred).isSome = isFlat pred
  | .and parts => collectAll_isSome q parts
  | .or _ => rfl
  | .not (.leaf _) => rfl
  | .not (.and _) => rfl
  | .not (.or _) => rfl
  | .not (.not _) => rfl
  | .leaf _ => rfl

theorem collectAll_isSome (q : SearchQuery F) :
    (parts : List (Predicate F)) → (collectAll q parts).isSome = areFlat parts
  | [] => rfl
  | p :: ps => by
    have hp := collectAnd_isSome q p
    rw [collectAll, areFlat, ← hp]
    cases collectAnd q p with
    | none => rfl
    | some q' => exact collectAll_isSome q' ps

end

theorem flattenAnd_isSome (pred : Predicate F) : (flattenAnd pred).isSome = isFlat pred :=
  collectAnd_isSome .default pred

end

/-! ## Matching records -/

structure PreparedLogQuery (F Rx : Type*) where
  clauses : List (PreparedClause F Rx)
  terms : List (PreparedTerm Rx)

section
variable {F Rx : Type*} (rt : Runtime F Rx)

namespace PreparedLogQuery

def new (q : SearchQuery F) : PreparedLogQuery F Rx :=
  ⟨q.clauses.map (PreparedClause.prepare rt), q.terms.map (PreparedTerm.prepare rt)⟩

def matchesRow (q : PreparedLogQuery F Rx) (row : LogRow) : Bool :=
  (q.clauses.all fun c => c.holdsOn rt row) && q.terms.all fun t => t.holdsOn rt row

def matchesLog (q : PreparedLogQuery F Rx) (log : LogRecord) (extra : String → Option String) :
    Bool :=
  q.matchesRow rt ⟨log, extra⟩

def prefilter (q : PreparedLogQuery F Rx) (bareOk : Bool) : LogColumnPrefilter :=
  { q.terms.foldl addTerm (q.clauses.foldl (addClause bareOk) ⟨none, [], [], false⟩) with
    exact := q.clauses.all PreparedClause.isExact && q.terms.all PreparedTerm.isExact }

def columnPrefilterWithoutExtra (q : PreparedLogQuery F Rx) : LogColumnPrefilter :=
  q.prefilter true

def tree (q : PreparedLogQuery F Rx) : PreparedPredicate F Rx :=
  .and (q.clauses.map (fun c => .leaf (.clause c)) ++ q.terms.map fun t => .leaf (.term t))

theorem matchesLog_tree (q : PreparedLogQuery F Rx) (log : LogRecord)
    (extra : String → Option String) :
    q.tree.matchesLog rt log extra = q.matchesLog rt log extra := by
  have hterms := allHold_leaves .term q.terms [] (holdsOn rt ⟨log, extra⟩)
  rw [List.append_nil] at hterms
  refine (allHold_leaves clause q.clauses _ _).trans ?_
  rw [hterms, allHold, Bool.and_true]
  rfl

theorem prefilter_tree (q : PreparedLogQuery F Rx) (bareOk : Bool) :
    q.tree.prefilter bareOk = q.prefilter bareOk := by
  have hfold := foldParts_leaves term q.terms [] (addAtom (F := F) bareOk)
    (q.clauses.foldl (addClause bareOk) ⟨none, [], [], false⟩)
  have hconj := areConjunctions_leaves .term q.terms [] (isExact (F := F))
  rw [List.append_nil] at hfold hconj
  have hfold' : q.tree.collectPrefilter bareOk ⟨none, [], [], false⟩ =
      q.terms.foldl addTerm (q.clauses.foldl (addClause bareOk) ⟨none, [], [], false⟩) :=
    (foldParts_leaves clause q.clauses _ _ _).trans hfold
  have hexact : q.tree.isPrefilterExact =
      (q.clauses.all PreparedClause.isExact && q.terms.all PreparedTerm.isExact) := by
    refine (areConjunctions_leaves clause q.clauses _ _).trans ?_
    rw [hconj, areConjunctions, Bool.and_true]
    rfl
  rw [PreparedPredicate.prefilter, prefilter, hfold', hexact]

end PreparedLogQuery

def searchFilter (q : SearchQuery F) (log : LogRecord) : Bool :=
  (PreparedLogQuery.new rt q).matchesLog rt log fun _ => none

def searchPrefilter (q : SearchQuery F) : LogColumnPrefilter :=
  (PreparedLogQuery.new rt q).columnPrefilterWithoutExtra

theorem searchPrefilter_sound (q : SearchQuery F) :
    (searchPrefilter rt q).SoundFor (searchFilter rt q) := by
  have htree : ((PreparedLogQuery.new rt q).tree.prefilter true).SoundFor fun log =>
      (PreparedLogQuery.new rt q).tree.matchesLog rt log fun _ => none :=
    prefilter_sound rt _ fun _ => rfl
  rw [PreparedLogQuery.prefilter_tree] at htree
  simp only [PreparedLogQuery.matchesLog_tree] at htree
  exact htree

/-- `search_logs`, which returns early where there is nothing to search. -/
def searchLogsFlat (st : LogStore) (buffer : List LogRecord) (s : LogScope) (q : SearchQuery F) :
    LogQueryResult :=
  if st.index.query s.startNs s.endNs none = [] ∧ buffer.filter (s.wanted (searchFilter rt q)) = []
  then ⟨[], 0, List.replicate 60 0⟩
  else searchLogs st buffer s (searchFilter rt q) (searchPrefilter rt q)

/-! ## Flat and tree -/

def Atom.holdsOn (row : LogRow) (a : Atom F) : Bool := (prepare rt a).holdsOn rt row

theorem holdsOn_negated (row : LogRow) (a : Atom F) :
    a.negated.holdsOn rt row = !a.holdsOn rt row := by
  cases a with
  | clause c => rfl
  | term t =>
    simp only [Atom.holdsOn, Atom.negated, prepare, PreparedTerm.prepare,
      holdsOn]
    split_ifs <;> simp [PreparedTerm.holdsOn, Bool.bne_not]

theorem matchesRow_pushAtom (row : LogRow) (q : SearchQuery F) (a : Atom F) :
    (PreparedLogQuery.new rt (q.pushAtom a)).matchesRow rt row =
      ((PreparedLogQuery.new rt q).matchesRow rt row && a.holdsOn rt row) := by
  cases a with
  | clause c =>
    simp [PreparedLogQuery.matchesRow, PreparedLogQuery.new, SearchQuery.pushAtom,
      SearchQuery.pushClause, Atom.holdsOn, prepare, holdsOn,
      Bool.and_right_comm]
  | term t =>
    simp [PreparedLogQuery.matchesRow, PreparedLogQuery.new, SearchQuery.pushAtom,
      SearchQuery.pushTerm, Atom.holdsOn, prepare, holdsOn,
      Bool.and_assoc]

mutual

theorem matchesRow_collectAnd (row : LogRow) {q q' : SearchQuery F} :
    (pred : Predicate F) → collectAnd q pred = some q' →
      (PreparedLogQuery.new rt q').matchesRow rt row =
        ((PreparedLogQuery.new rt q).matchesRow rt row && pred.holds (Atom.holdsOn rt row))
  | .and parts, h => matchesRow_collectAll row parts h
  | .not (.leaf a), h => by
    obtain rfl := Option.some.inj h
    rw [matchesRow_pushAtom, holdsOn_negated]
    rfl
  | .leaf a, h => by
    obtain rfl := Option.some.inj h
    exact matchesRow_pushAtom rt row q a

theorem matchesRow_collectAll (row : LogRow) {q q' : SearchQuery F} :
    (parts : List (Predicate F)) → collectAll q parts = some q' →
      (PreparedLogQuery.new rt q').matchesRow rt row =
        ((PreparedLogQuery.new rt q).matchesRow rt row &&
          allHold (Atom.holdsOn rt row) parts)
  | [], h => by
    obtain rfl := Option.some.inj h
    exact (Bool.and_true _).symm
  | p :: ps, h => by
    obtain ⟨q₁, hp, hps⟩ := Option.bind_eq_some_iff.mp h
    rw [matchesRow_collectAll row ps hps, matchesRow_collectAnd row p hp, allHold,
      Bool.and_assoc]

end

theorem predicateFilter_eq (pred : Predicate F) (log : LogRecord) :
    predicateFilter rt pred log = pred.holds (Atom.holdsOn rt ⟨log, fun _ => none⟩) :=
  holds_map _ _ pred

/-- **A flat search matches what its tree matches.** -/
theorem searchFilter_flattenAnd {pred : Predicate F} {q : SearchQuery F}
    (h : flattenAnd pred = some q) : searchFilter rt q = predicateFilter rt pred := by
  funext log
  rw [predicateFilter_eq]
  exact (matchesRow_collectAnd rt ⟨log, fun _ => none⟩ pred h).trans (Bool.true_and _)

theorem searchLogsFlat_eq (st : LogStore) (buffer : List LogRecord) (s : LogScope)
    (q : SearchQuery F) : searchLogsFlat rt st buffer s q =
      searchLogs st buffer s (searchFilter rt q) (searchPrefilter rt q) := by
  unfold searchLogsFlat
  split_ifs with hnone
  · simp [searchLogs, hnone.1, hnone.2, orderLogs, sortByKey, LogScope.volume]
  · rfl

end

end Parqtel.Query
