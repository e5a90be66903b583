import Parqtel.Query.Parqtelql

/-!
# The log query handler

`GET /api/v1/logs` has three ways to read its query: as a selector, as a ParqtelQL tree, or as a
flat ParqtelQL search to which `severity_min` and `search` are added. Which of the last two is
taken depends on the root of the tree alone. The answer is the one to the query that was asked
only if nothing is lost on the way taken (`log_query_answered_iff`): a tree is searched for
without the two parameters, a flat search drops all conditions where a disjunction stands below
the root, and a minimum severity is rounded down to the start of its level.
-/

namespace Parqtel.Server

open Lib Text Storage Query Query.Ql

structure LogParams where
  query : String
  startNs : Int
  endNs : Int
  limit : Option ℕ
  order : Option String
  severityMin : Option Int
  search : Option String
deriving DecidableEq

structure LogResponse where
  logs : List LogRecord
  totalMatched : ℕ
  truncated : Bool
  volumeSummary : List ℕ
  /-- The response names the language. -/
  isParqtelql : Bool
deriving DecidableEq

def severityWord (min : Int) : String :=
  if 17 ≤ min then "ERROR"
  else if 13 ≤ min then "WARN"
  else if 9 ≤ min then "INFO"
  else if 5 ≤ min then "DEBUG"
  else "TRACE"

def isBoolean {F : Type} : Predicate F → Bool
  | .or _ | .not _ => true
  | .and _ | .leaf _ => false

namespace LogParams

def scope (params : LogParams) : LogScope :=
  ⟨params.startNs, params.endNs, min (params.limit.getD 1000) 10000, params.order ≠ some "asc"⟩

def text (params : LogParams) : List Char := trim params.query.toList

def isSelector (params : LogParams) : Bool :=
  params.text.head? = some '\x7b' ||
    ((splitOnce ['=', '"'] params.text).isSome && ' ' ∉ params.text) || params.text = []

def takesParqtelql (params : LogParams) : Bool :=
  !params.isSelector || params.severityMin.isSome || params.search.isSome

section
variable {F Rx : Type} (rt : QlRuntime F Rx) (p : Platform F)

def flatSearch (params : LogParams) : SearchQuery F :=
  let q := parseSearch rt params.query.toList
  let q := match params.severityMin with
    | some min => q.pushClause (.severityMin (severityWord min))
    | none => q
  match params.search with
  | some text => q.pushTerm ⟨rt.toLowercase text, false, false, false⟩
  | none => q

def searchParqtelql (params : LogParams) (st : LogStore) (buffer : List LogRecord) :
    LogQueryResult :=
  match parsePredicate rt params.text with
  | .ok pred =>
    if isBoolean pred then searchLogsPredicate rt.toRuntime st buffer params.scope pred
    else searchLogsFlat rt.toRuntime st buffer params.scope (params.flatSearch rt)
  | .error _ => searchLogsFlat rt.toRuntime st buffer params.scope (params.flatSearch rt)

def queryLogs (params : LogParams) (st : LogStore) (buffer : List LogRecord) : Eval LogResponse :=
  let respond (r : LogQueryResult) (isParqtelql : Bool) : LogResponse :=
    ⟨r.logs, r.totalLogsCount, params.scope.keep < r.totalLogsCount, r.volumeSummary, isParqtelql⟩
  if params.takesParqtelql then .ok (respond (params.searchParqtelql rt st buffer) true)
  else do
    let selector ← parseSelector p params.query.toList
    return respond (Query.queryLogs st buffer params.scope
      ⟨selector.2, params.severityMin, params.search⟩) false

/-! ## What was asked -/

def meetsSeverity (params : LogParams) (log : LogRecord) : Bool :=
  params.severityMin.all fun min => min ≤ log.severityNumber

def meetsSearch (params : LogParams) (log : LogRecord) : Bool :=
  params.search.all fun text => containsAsciiCi log.body (rt.toLowercase text)

/-- The record satisfies the tree of the query, the minimum severity and the search text. -/
def isAsked (params : LogParams) (pred : Predicate F) (log : LogRecord) : Bool :=
  predicateFilter rt.toRuntime pred log && params.meetsSeverity log && params.meetsSearch rt log

def chosen (params : LogParams) (pred : Predicate F) : (LogRecord → Bool) × LogColumnPrefilter :=
  if isBoolean pred then (predicateFilter rt.toRuntime pred, predicatePrefilter rt.toRuntime pred)
  else (searchFilter rt.toRuntime (params.flatSearch rt),
    searchPrefilter rt.toRuntime (params.flatSearch rt))

/-- In every store of which the search skips nothing it looks for, only records that were asked for
are returned, and these are counted. -/
def AnswersAsked (params : LogParams) (pred : Predicate F) : Prop :=
  ∀ (st : LogStore) (buffer : List LogRecord),
    st.Complete params.scope (params.chosen rt pred).1 (params.chosen rt pred).2 →
    ∃ r, params.queryLogs rt p st buffer = .ok r ∧
      (∀ log ∈ r.logs, params.isAsked rt pred log = true) ∧
      r.totalMatched = (st.wanted params.scope (params.isAsked rt pred) ++
        buffer.filter (params.scope.wanted (params.isAsked rt pred))).length

/-! ## The search that is run -/

variable {params : LogParams} {pred : Predicate F}

theorem chosen_sound (params : LogParams) (pred : Predicate F) :
    (params.chosen rt pred).2.SoundFor (params.chosen rt pred).1 := by
  unfold chosen
  split_ifs
  · exact predicatePrefilter_sound rt.toRuntime pred
  · exact searchPrefilter_sound rt.toRuntime (params.flatSearch rt)

theorem searchParqtelql_eq (h : parsePredicate rt params.text = .ok pred) (st : LogStore)
    (buffer : List LogRecord) : params.searchParqtelql rt st buffer =
      searchLogs st buffer params.scope (params.chosen rt pred).1 (params.chosen rt pred).2 := by
  rw [searchParqtelql, h]
  dsimp only [chosen]
  split_ifs
  · rfl
  · exact searchLogsFlat_eq rt.toRuntime st buffer params.scope (params.flatSearch rt)

/-- The answer is right in every store exactly if the filter of the search accepts the records of
the window that were asked for. -/
theorem answersAsked_iff_filter (h : parsePredicate rt params.text = .ok pred)
    (hpath : params.takesParqtelql = true) : params.AnswersAsked rt p pred ↔
      ∀ log : LogRecord, inWindow params.startNs params.endNs log.timestampNs = true →
        (params.chosen rt pred).1 log = params.isAsked rt pred log := by
  have hrun (st : LogStore) (buffer : List LogRecord) : ∃ truncated,
      params.queryLogs rt p st buffer = .ok ⟨(params.searchParqtelql rt st buffer).logs,
          (params.searchParqtelql rt st buffer).totalLogsCount, truncated,
          (params.searchParqtelql rt st buffer).volumeSummary, true⟩ := ⟨_, if_pos hpath⟩
  have hfinds (st : LogStore) (buffer : List LogRecord) :=
    searchLogs_finds params.scope st buffer (params.chosen_sound rt pred)
  constructor
  · intro hanswers log hlog
    -- a store that holds nothing but this record, in the buffer
    obtain ⟨r, hr, -, hcount⟩ := hanswers Query.Sample.emptyStore [log] nofun
    obtain ⟨truncated, hok⟩ := hrun Query.Sample.emptyStore [log]
    obtain rfl := Except.ok.inj (hok.symm.trans hr)
    obtain ⟨seen, -, -, hfound⟩ := hfinds Query.Sample.emptyStore [log]
    have hsame := hfound.count
    rw [← searchParqtelql_eq rt h] at hsame
    have hlen : ([log].filter (params.scope.wanted (params.chosen rt pred).1)).length =
        ([log].filter (params.scope.wanted (params.isAsked rt pred))).length :=
      hsame.symm.trans hcount
    have hin : inWindow params.scope.startNs params.scope.endNs log.timestampNs = true := hlog
    simp only [LogScope.wanted, List.filter_singleton, hin, Bool.true_and] at hlen
    revert hlen
    cases (params.chosen rt pred).1 log <;> cases params.isAsked rt pred log <;> simp
  · intro hsame st buffer hcomplete
    have hwanted : params.scope.wanted (params.chosen rt pred).1 =
        params.scope.wanted (params.isAsked rt pred) := by
      funext log
      cases hin : inWindow params.scope.startNs params.scope.endNs log.timestampNs with
      | false => simp [LogScope.wanted, hin]
      | true => simp only [LogScope.wanted, hin, Bool.true_and, hsame log hin]
    obtain ⟨truncated, hok⟩ := hrun st buffer
    obtain ⟨seen, -, hall, hfound⟩ := hfinds st buffer
    rw [List.flatMap_congr (hall.mpr hcomplete), hwanted, ← searchParqtelql_eq rt h] at hfound
    refine ⟨_, hok, fun log hlog => ?_, hfound.count⟩
    have hmem := hfound.logs.subset hlog
    have hwant : params.scope.wanted (params.isAsked rt pred) log = true := by
      rcases List.mem_append.mp hmem with hm | hm
      · obtain ⟨b, -, hb⟩ := List.mem_flatMap.mp hm
        exact (List.mem_filter.mp hb).2
      · exact (List.mem_filter.mp hm).2
    exact (Bool.and_eq_true_iff.mp hwant).2

/-! ## What is lost on the way -/

def levelOf (min : Int) : Int :=
  if 17 ≤ min then 17 else if 13 ≤ min then 13 else if 9 ≤ min then 9 else if 5 ≤ min then 5 else 1

theorem severityRank_severityWord (min : Int) :
    severityRank (severityWord min) = some (levelOf min) := by
  unfold severityWord levelOf
  split_ifs <;> decide +kernel

def meetsLevel (params : LogParams) (log : LogRecord) : Bool :=
  params.severityMin.all fun min => levelOf min ≤ log.severityNumber

theorem searchFilter_flatSearch (hlower : ∀ s, rt.toLowercase (rt.toLowercase s) = rt.toLowercase s)
    (params : LogParams) (log : LogRecord) :
    searchFilter rt.toRuntime (params.flatSearch rt) log =
      (searchFilter rt.toRuntime (parseSearch rt params.query.toList) log &&
        params.meetsLevel log && params.meetsSearch rt log) := by
  have hclause (q : SearchQuery F) (min : Int) :
      searchFilter rt.toRuntime (q.pushClause (.severityMin (severityWord min))) log =
        (searchFilter rt.toRuntime q log && decide (levelOf min ≤ log.severityNumber)) := by
    refine (matchesRow_pushAtom rt.toRuntime ⟨log, _⟩ q (.clause _)).trans ?_
    simp [Atom.holdsOn, PreparedAtom.prepare, PreparedClause.prepare, severityRank_severityWord,
      PreparedAtom.holdsOn, PreparedClause.holdsOn, searchFilter, PreparedLogQuery.matchesLog]
  have hterm (q : SearchQuery F) (text : String) :
      searchFilter rt.toRuntime (q.pushTerm ⟨rt.toLowercase text, false, false, false⟩) log =
        (searchFilter rt.toRuntime q log && containsAsciiCi log.body (rt.toLowercase text)) := by
    refine (matchesRow_pushAtom rt.toRuntime ⟨log, _⟩ q (.term _)).trans ?_
    simp [Atom.holdsOn, PreparedAtom.prepare, PreparedTerm.prepare, hlower, PreparedAtom.holdsOn,
      PreparedTerm.holdsOn, searchFilter, PreparedLogQuery.matchesLog]
  unfold flatSearch meetsLevel meetsSearch
  cases params.severityMin <;> cases params.search <;> simp [hclause, hterm]

/-- The flat search of a text that parses: of its tree, unless it is in braces or its tree has no
flat form. -/
theorem parseSearch_eq (h : parsePredicate rt params.text = .ok pred) :
    parseSearch rt params.query.toList =
      if isBraced params.text then parseLegacySelector params.text
      else (flattenAnd pred).getD .default := by
  have hne : params.text ≠ [] := by
    intro hnil
    rw [hnil] at h
    cases h
  unfold parseSearch
  rw [← text]
  by_cases hempty : params.text = ['\x7b', '\x7d']
  · rw [if_pos (.inr hempty), hempty, if_pos (by decide)]
    rfl
  · simp only [hne, hempty, or_self, if_false, h]

/-- On the way taken no record of the window gets in or is left out. -/
def Honoured (params : LogParams) (pred : Predicate F) (log : LogRecord) : Prop :=
  if isBoolean pred then
    predicateFilter rt.toRuntime pred log = true →
      params.meetsSeverity log = true ∧ params.meetsSearch rt log = true
  else
    params.meetsSearch rt log = true →
      if isBraced params.text then
        (searchFilter rt.toRuntime (parseLegacySelector params.text) log = true ∧
            params.meetsLevel log = true ↔
          predicateFilter rt.toRuntime pred log = true ∧ params.meetsSeverity log = true)
      else if isFlat pred then
        predicateFilter rt.toRuntime pred log = true →
          (params.meetsLevel log = true ↔ params.meetsSeverity log = true)
      else
        (params.meetsLevel log = true ↔
          predicateFilter rt.toRuntime pred log = true ∧ params.meetsSeverity log = true)

theorem and_eq_and_iff (a b c d s : Bool) :
    (a && c && s) = (b && d && s) ↔ (s = true → (a = true ∧ c = true ↔ b = true ∧ d = true)) := by
  revert a b c d s
  decide

theorem chosen_eq_isAsked_iff
    (hlower : ∀ s, rt.toLowercase (rt.toLowercase s) = rt.toLowercase s)
    (h : parsePredicate rt params.text = .ok pred) (log : LogRecord) :
    (params.chosen rt pred).1 log = params.isAsked rt pred log ↔ params.Honoured rt pred log := by
  unfold chosen isAsked Honoured
  split_ifs with hbool hbraced hflat
  · rw [Bool.and_assoc, eq_comm, Bool.and_eq_left_iff_imp, Bool.and_eq_true]
  · dsimp only
    rw [searchFilter_flatSearch rt hlower, parseSearch_eq rt h, if_pos hbraced, and_eq_and_iff]
  · obtain ⟨q, hq⟩ := Option.isSome_iff_exists.mp ((flattenAnd_isSome pred).trans hflat)
    dsimp only
    rw [searchFilter_flatSearch rt hlower, parseSearch_eq rt h, if_neg hbraced, hq,
      Option.getD_some, searchFilter_flattenAnd rt.toRuntime hq, and_eq_and_iff,
      and_congr_right_iff]
  · have hnone : flattenAnd pred = none := by
      rw [← Option.not_isSome_iff_eq_none, flattenAnd_isSome]
      exact hflat
    have hall : searchFilter rt.toRuntime .default log = true := rfl
    dsimp only
    rw [searchFilter_flatSearch rt hlower, parseSearch_eq rt h, if_neg hbraced, hnone,
      Option.getD_none, hall, and_eq_and_iff, eq_self_iff_true, true_and]

/-- **When log search answers the query that was asked.** For every text that parses and every
minimum severity and search text, on the ParqtelQL path: exactly if, among the records of the
window, those that match a tree with `OR` or `NOT` at its root meet both parameters; and
otherwise those with the search text match the tree and have the minimum severity exactly if they
have its level and match what is left of the tree, which is all of a conjunction of clauses,
terms and their negations, nothing of any other tree, and the selector of a text in braces. -/
theorem log_query_answered_iff
    (hlower : ∀ s, rt.toLowercase (rt.toLowercase s) = rt.toLowercase s)
    (h : parsePredicate rt params.query.toList = .ok pred)
    (hpath : params.takesParqtelql = true) :
    params.AnswersAsked rt p pred ↔
      ∀ log : LogRecord, inWindow params.startNs params.endNs log.timestampNs = true →
        params.Honoured rt pred log := by
  have htext : parsePredicate rt params.text = .ok pred := (parsePredicate_trim rt _).trans h
  rw [answersAsked_iff_filter rt p htext hpath]
  exact forall₂_congr fun log _ => chosen_eq_isAsked_iff rt hlower htext log

end

end LogParams

namespace Sample

def wordsRuntime : QlRuntime (Option ℚ) Unit where
  parse _ := none
  ofInt n := some n
  lt _ _ := false
  le _ _ := false
  regex _ := none
  isMatch _ _ := false
  toLowercase s := s
  hex := .lower
  regexError _ := ""
  debug _ := ""

def ask (query : String) (severityMin : Option Int) (search : Option String) : LogParams :=
  ⟨query, 0, 600, none, none, severityMin, search⟩

def nested : LogParams := ask "error (timeout -retry)" (some 13) (some "db")

/-- How many records the handler counts if only this one is there, and whether it was asked for. -/
def counts (params : LogParams) (log : LogRecord) : Eval (ℕ × Bool) := do
  let r ← params.queryLogs wordsRuntime exact Query.Sample.emptyStore [log]
  let pred ← parsePredicate wordsRuntime params.query.toList
  return (r.totalMatched, params.isAsked wordsRuntime pred log)

end Sample

open Sample in
theorem log_query_answered_nested :
    ∃ pred, parsePredicate wordsRuntime nested.query.toList = .ok pred ∧
      nested.AnswersAsked wordsRuntime exact pred := by
  have hshape : (do
      let pred ← parsePredicate wordsRuntime nested.query.toList
      return (isBoolean pred, isFlat pred)) = .ok (false, true) := by
    decide +kernel
  obtain ⟨pred, hpred, hshape⟩ := bind_eq_ok.mp hshape
  obtain ⟨hboolean, hflat⟩ := Prod.mk.inj (Except.ok.inj hshape)
  have hbraced : isBraced nested.text = false := by decide +kernel
  refine ⟨pred, hpred, (LogParams.log_query_answered_iff wordsRuntime exact (fun _ => rfl) hpred
    (by decide +kernel)).mpr fun log _ => ?_⟩
  simp only [LogParams.Honoured, hboolean, hbraced, hflat, Bool.false_eq_true, if_false, if_true]
  exact fun _ _ => Iff.rfl

open Sample in
/-- **Conditions that get lost.** A record that says `started` is counted for `error (timeout OR
refused)` and for text in braces; a tree with `OR` at its root is searched for without the minimum
severity; and a minimum of 18 counts records of severity 17. -/
theorem log_query_conditions_lost :
    counts (ask "error (timeout OR refused)" none none) untraced = .ok (1, false) ∧
      counts (ask "\x7bfoo\x7d" none (some "started")) untraced = .ok (1, false) ∧
      counts (ask "started OR timeout" (some 17) none) untraced = .ok (1, false) ∧
      counts (ask "started" (some 18) none) { untraced with severityNumber := 17 } =
        .ok (1, false) := by
  decide +kernel

end Parqtel.Server
