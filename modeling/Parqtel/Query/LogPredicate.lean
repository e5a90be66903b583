import Parqtel.Lib.BoolTree
import Parqtel.Storage.LogScan

/-!
# Log predicates

A search over logs is a tree of clauses and terms. `PreparedPredicate` is the tree with the
work done that does not depend on the row; `prefilter` are the conditions that its
conjuncts put on the columns and on the pairs of a record. `prefilter_sound` says that every
record that matches meets them, so that a search of one block can be compared with testing every
record.
-/

namespace Parqtel.Query

open Lib Text Storage List BoolTree LabelSet LogColumnPrefilter

/-! ## Clauses and terms -/

inductive CmpOp where
  | gt | ge | lt | le
deriving DecidableEq, Repr

/-- One condition on a field; `F` are the floating-point numbers. -/
inductive Clause (F : Type*) where
  | eq (field value : String)
  | ne (field value : String)
  | re (field regex : String)
  | cmp (field : String) (op : CmpOp) (value : F)
  | range (field : String) (min max : F)
  | exists (field : String)
  | severityMin (severity : String)
  | not (inner : Clause F)

structure SearchTerm where
  text : String
  negate : Bool
  phrase : Bool
  wildcard : Bool
deriving DecidableEq, Repr

inductive Atom (F : Type*) where
  | clause (c : Clause F)
  | term (t : SearchTerm)

abbrev Predicate (F : Type*) := BoolTree (Atom F)

/-- What the searches take from libraries: floating-point numbers, regular expressions, the lower
case of any text and hexadecimal text. -/
structure Runtime (F Rx : Type*) where
  parse : String → Option F
  ofInt : Int → F
  lt : F → F → Bool
  le : F → F → Bool
  regex : String → Option Rx
  isMatch : Rx → String → Bool
  toLowercase : String → String
  hex : HexEncode

/-- A clause with its threshold, needle or expression resolved. -/
inductive PreparedClause (F Rx : Type*) where
  | severityMin (min : Int)
  | bodyContains (needleLower : String) (negate : Bool)
  | eq (field value : String)
  | ne (field value : String)
  | re (field : String) (regex : Option Rx)
  | cmp (field : String) (op : CmpOp) (value : F)
  | range (field : String) (min max : F)
  | exists (field : String)
  | not (inner : PreparedClause F Rx)

inductive PreparedTerm (Rx : Type*) where
  | contains (needleLower : String) (negate : Bool)
  | wildcard (regex : Option Rx) (negate : Bool)

inductive PreparedAtom (F Rx : Type*) where
  | clause (c : PreparedClause F Rx)
  | term (t : PreparedTerm Rx)

abbrev PreparedPredicate (F Rx : Type*) := BoolTree (PreparedAtom F Rx)

def severityRank (severity : String) : Option Int :=
  match String.ofList (severity.toList.map Char.toUpper) with
  | "TRACE" | "VERBOSE" => some 1
  | "DEBUG" => some 5
  | "INFO" => some 9
  | "WARN" | "WARNING" => some 13
  | "ERROR" | "SEVERE" | "FATAL" => some 17
  | _ => none

def wildcardToRegexCi (pattern : String) : String :=
  "(?i)" ++ String.ofList (pattern.toList.flatMap fun c =>
    if c = '*' then ['.', '*'] else if c = '?' then ['.'] else [c])

section
variable {F Rx : Type*} (rt : Runtime F Rx)

def PreparedClause.prepare : Clause F → PreparedClause F Rx
  | .severityMin severity => .severityMin ((severityRank severity).getD 9)
  | .eq field value =>
    if field = "body" then .bodyContains (rt.toLowercase value) false else .eq field value
  | .ne field value =>
    if field = "body" then .bodyContains (rt.toLowercase value) true else .ne field value
  | .re field regex => .re field (rt.regex regex)
  | .cmp field op value => .cmp field op value
  | .range field min max => .range field min max
  | .exists field => .exists field
  | .not inner => .not (prepare inner)

def PreparedTerm.prepare (t : SearchTerm) : PreparedTerm Rx :=
  if t.wildcard then .wildcard (rt.regex (wildcardToRegexCi t.text)) t.negate
  else .contains (rt.toLowercase t.text) t.negate

def PreparedAtom.prepare : Atom F → PreparedAtom F Rx
  | .clause c => .clause (.prepare rt c)
  | .term t => .term (.prepare rt t)

def PreparedPredicate.new (pred : Predicate F) : PreparedPredicate F Rx :=
  pred.map (PreparedAtom.prepare rt)

/-! ## Matching a record -/

def strip (start s : String) : Option String :=
  (start.toList.isPrefixOf? s.toList).map String.ofList

/-- A log record with the fields that a pipeline added. -/
structure LogRow where
  log : LogRecord
  extra : String → Option String

namespace LogRow

def resolveOther (row : LogRow) (field : String) : Option String :=
  match strip "attr." field with
  | some key => row.log.attributes.get key
  | none =>
    match strip "res." field with
    | some key => row.log.resourceAttributes.get key
    | none =>
      ((row.log.attributes.get field).or (row.log.resourceAttributes.get field)).or
        (row.extra field)

def fieldValue (row : LogRow) (field : String) : Option String :=
  match field with
  | "body" => some row.log.body
  | "severity" | "severity_text" => some row.log.severityText
  | "service" | "service.name" => row.log.resourceAttributes.get "service.name"
  | "trace_id" => some (rt.hex.encode row.log.traceId.toList)
  | "span_id" => some (rt.hex.encode row.log.spanId.toList)
  | _ => row.resolveOther field

def numericField (row : LogRow) (field : String) : Option F :=
  if field = "severity_number" then some (rt.ofInt row.log.severityNumber)
  else (row.fieldValue rt field).bind rt.parse

end LogRow

def CmpOp.compare (op : CmpOp) (a b : F) : Bool :=
  match op with
  | .gt => rt.lt b a
  | .ge => rt.le b a
  | .lt => rt.lt a b
  | .le => rt.le a b

def PreparedClause.holdsOn (row : LogRow) : PreparedClause F Rx → Bool
  | .severityMin min => min ≤ row.log.severityNumber
  | .bodyContains needleLower negate => containsAsciiCi row.log.body needleLower != negate
  | .eq field value => (row.fieldValue rt field).any (· = value)
  | .ne field value => (row.fieldValue rt field).all (· ≠ value)
  | .re field regex =>
    match row.fieldValue rt field, regex with
    | some v, some rx => rt.isMatch rx v
    | _, _ => false
  | .cmp field op value => (row.numericField rt field).any fun n => op.compare rt n value
  | .range field min max => (row.numericField rt field).any fun n => rt.le min n && rt.le n max
  | .exists field => (row.fieldValue rt field).isSome
  | .not inner => !inner.holdsOn row

def PreparedTerm.holdsOn (row : LogRow) : PreparedTerm Rx → Bool
  | .contains needleLower negate => containsAsciiCi row.log.body needleLower != negate
  | .wildcard regex negate => (regex.any fun rx => rt.isMatch rx row.log.body) != negate

def PreparedAtom.holdsOn (row : LogRow) : PreparedAtom F Rx → Bool
  | .clause c => c.holdsOn rt row
  | .term t => t.holdsOn rt row

def PreparedPredicate.matchesLog (pred : PreparedPredicate F Rx) (log : LogRecord)
    (extra : String → Option String) : Bool :=
  pred.holds (PreparedAtom.holdsOn rt ⟨log, extra⟩)

end

/-! ## The column prefilter -/

/-- The name under which a record has the value that an equality on the field looks at, if the
skip index records it. -/
def indexedPairName (field : String) (bareOk : Bool) : Option String :=
  match field with
  | "service" | "service.name" => some "service.name"
  | "trace_id" => some "trace_id"
  | "span_id" => some "span_id"
  | "body" | "severity" | "severity_text" => none
  | _ =>
    match (strip "attr." field).or (strip "res." field) with
    | some key => some key
    | none => if bareOk then some field else none

section
variable {F Rx : Type*}

def PreparedClause.isExact : PreparedClause F Rx → Bool
  | .severityMin _ => true
  | .bodyContains _ negate => !negate
  | _ => false

def PreparedTerm.isExact : PreparedTerm Rx → Bool
  | .contains _ negate => !negate
  | .wildcard _ _ => false

def PreparedAtom.isExact : PreparedAtom F Rx → Bool
  | .clause c => c.isExact
  | .term t => t.isExact

def addClause (bareOk : Bool) (pre : LogColumnPrefilter) : PreparedClause F Rx → LogColumnPrefilter
  | .severityMin min =>
    { pre with minSeverity := some (pre.minSeverity.elim min fun m => max m min) }
  | .bodyContains needleLower false =>
    { pre with bodyContainsLower := pre.bodyContainsLower ++ [needleLower] }
  | .eq field value =>
    match indexedPairName field bareOk with
    | some name => { pre with attrEquals := pre.attrEquals ++ [(name, value)] }
    | none => pre
  | _ => pre

def addTerm (pre : LogColumnPrefilter) : PreparedTerm Rx → LogColumnPrefilter
  | .contains needleLower false =>
    { pre with bodyContainsLower := pre.bodyContainsLower ++ [needleLower] }
  | _ => pre

def addAtom (bareOk : Bool) (pre : LogColumnPrefilter) : PreparedAtom F Rx → LogColumnPrefilter
  | .clause c => addClause bareOk pre c
  | .term t => addTerm pre t

namespace PreparedPredicate

def isPrefilterExact (pred : PreparedPredicate F Rx) : Bool :=
  pred.isConjunction PreparedAtom.isExact

def collectPrefilter (bareOk : Bool) (pre : LogColumnPrefilter) (pred : PreparedPredicate F Rx) :
    LogColumnPrefilter :=
  pred.foldConjuncts (addAtom bareOk) pre

def prefilter (pred : PreparedPredicate F Rx) (bareOk : Bool) : LogColumnPrefilter :=
  { pred.collectPrefilter bareOk ⟨none, [], [], false⟩ with exact := pred.isPrefilterExact }

/-- For a search in which no pipeline adds fields. -/
def columnPrefilterWithoutExtra (pred : PreparedPredicate F Rx) : LogColumnPrefilter :=
  pred.prefilter true

end PreparedPredicate

end

/-! ## Every match meets the prefilter -/

theorem carries_of_fieldValue {F Rx : Type*} {rt : Runtime F Rx} {row : LogRow} {bareOk : Bool}
    (hextra : bareOk = true → row.extra = fun _ => none)
    {field name value : String} (hname : indexedPairName field bareOk = some name)
    (hvalue : row.fieldValue rt field = some value) : Carries row.log (name, value) := by
  unfold indexedPairName at hname
  unfold LogRow.fieldValue at hvalue
  split at hname
  · cases hname
    exact .inr (.inl (get_eq_some.mp hvalue))
  · cases hname
    exact .inr (.inl (get_eq_some.mp hvalue))
  · cases hname
    cases hvalue
    exact .inr (.inr (.inl (by rw [rt.hex.encode_eq])))
  · cases hname
    cases hvalue
    exact .inr (.inr (.inr (by rw [rt.hex.encode_eq])))
  · cases hname
  · cases hname
  · cases hname
  · have hother : row.resolveOther field = some value := by
      split at hvalue <;> first | exact hvalue | contradiction
    unfold LogRow.resolveOther at hother
    cases hattr : strip "attr." field with
    | some key =>
      rw [hattr, Option.some_or] at hname
      rw [hattr] at hother
      cases hname
      exact .inl (get_eq_some.mp hother)
    | none =>
      rw [hattr, Option.none_or] at hname
      rw [hattr] at hother
      cases hres : strip "res." field with
      | some key =>
        rw [hres] at hname hother
        cases hname
        exact .inr (.inl (get_eq_some.mp hother))
      | none =>
        rw [hres] at hname hother
        split_ifs at hname with hbare
        cases hname
        rw [hextra hbare, Option.or_none, Option.or_eq_some_iff] at hother
        rcases hother with h | ⟨-, h⟩
        · exact .inl (get_eq_some.mp h)
        · exact .inr (.inl (get_eq_some.mp h))

section
variable {F Rx : Type*} (rt : Runtime F Rx)

def PreparedAtom.pairs (bareOk : Bool) : PreparedAtom F Rx → List (String × String)
  | .clause (.eq field value) => ((indexedPairName field bareOk).map (·, value)).toList
  | _ => []

theorem attrEquals_addAtom (bareOk : Bool) (pre : LogColumnPrefilter) (a : PreparedAtom F Rx) :
    (addAtom bareOk pre a).attrEquals = pre.attrEquals ++ a.pairs bareOk := by
  have hnone : pre.attrEquals = pre.attrEquals ++ [] := (append_nil _).symm
  cases a with
  | clause c =>
    cases c with
    | eq field value =>
      simp only [addAtom, addClause, PreparedAtom.pairs]
      cases indexedPairName field bareOk with
      | some name => rfl
      | none => exact hnone
    | bodyContains needleLower negate => cases negate <;> exact hnone
    | _ => exact hnone
  | term t =>
    cases t with
    | contains needleLower negate => cases negate <;> exact hnone
    | wildcard => exact hnone

theorem accepts_addNeedle (pre : LogColumnPrefilter) (needle : String) (log : LogRecord) :
    accepts
        { pre with bodyContainsLower := pre.bodyContainsLower ++ [needle] } log =
      (pre.accepts log && containsAsciiCi log.body needle) := by
  simp [accepts, meets, Bool.and_assoc]

theorem accepts_addSeverity (pre : LogColumnPrefilter) (min : Int) (log : LogRecord) :
    accepts
        { pre with minSeverity := some (pre.minSeverity.elim min fun m => max m min) } log =
      (pre.accepts log && decide (min ≤ log.severityNumber)) := by
  unfold accepts meets
  cases pre.minSeverity with
  | none => simp [Bool.and_comm]
  | some m =>
    rw [Bool.eq_iff_iff]
    simp [and_assoc, and_comm]

theorem accepts_addAtom (bareOk : Bool) (pre : LogColumnPrefilter) (a : PreparedAtom F Rx)
    (row : LogRow) : (addAtom bareOk pre a).accepts row.log =
      (pre.accepts row.log && (!a.isExact || a.holdsOn rt row)) := by
  have hnone : pre.accepts row.log = (pre.accepts row.log && true) := (Bool.and_true _).symm
  cases a with
  | clause c =>
    cases c with
    | severityMin min => exact accepts_addSeverity pre min row.log
    | bodyContains needleLower negate =>
      cases negate with
      | false =>
        refine (accepts_addNeedle pre needleLower row.log).trans ?_
        simp [PreparedAtom.isExact, PreparedClause.isExact, PreparedAtom.holdsOn,
          PreparedClause.holdsOn]
      | true => exact hnone
    | eq field value =>
      simp only [addAtom, addClause]
      split <;> exact hnone
    | _ => exact hnone
  | term t =>
    cases t with
    | contains needleLower negate =>
      cases negate with
      | false =>
        refine (accepts_addNeedle pre needleLower row.log).trans ?_
        simp [PreparedAtom.isExact, PreparedTerm.isExact, PreparedAtom.holdsOn,
          PreparedTerm.holdsOn]
      | true => exact hnone
    | wildcard => exact hnone

theorem pairs_of_isExact {a : PreparedAtom F Rx} (h : a.isExact = true) (bareOk : Bool) :
    a.pairs bareOk = [] := by
  cases a with
  | clause c =>
    cases c with
    | eq field value => cases h
    | _ => rfl
  | term t => rfl

theorem carries_of_holdsOn {row : LogRow} {bareOk : Bool}
    (hextra : bareOk = true → row.extra = fun _ => none) {a : PreparedAtom F Rx}
    (h : a.holdsOn rt row = true) : ∀ p ∈ a.pairs bareOk, Carries row.log p := by
  intro p hp
  unfold PreparedAtom.pairs at hp
  split at hp
  · next field value =>
    obtain ⟨name, hname, rfl⟩ := Option.map_eq_some_iff.mp (Option.mem_toList.mp hp)
    have hvalue : row.fieldValue rt field = some value := by
      simp only [PreparedAtom.holdsOn, PreparedClause.holdsOn] at h
      cases hv : row.fieldValue rt field with
      | none => simp [hv] at h
      | some v => simpa [hv] using h
    exact carries_of_fieldValue hextra hname hvalue
  · cases hp

variable (bareOk : Bool) (as : List (PreparedAtom F Rx)) (pre : LogColumnPrefilter)

theorem attrEquals_foldl : (as.foldl (addAtom bareOk) pre).attrEquals =
    pre.attrEquals ++ as.flatMap (PreparedAtom.pairs bareOk) := by
  induction as generalizing pre with
  | nil => exact (append_nil _).symm
  | cons a as ih => rw [foldl_cons, ih, attrEquals_addAtom, flatMap_cons, append_assoc]

theorem accepts_foldl (row : LogRow) : (as.foldl (addAtom bareOk) pre).accepts row.log =
    (pre.accepts row.log && as.all fun a => !a.isExact || a.holdsOn rt row) := by
  induction as generalizing pre with
  | nil => exact (Bool.and_true _).symm
  | cons a as ih =>
    rw [foldl_cons, ih, accepts_addAtom rt, all_cons, Bool.and_assoc]

/-- **Every record that matches meets the prefilter**, and an exact prefilter decides. -/
theorem prefilter_sound (pred : PreparedPredicate F Rx) {bareOk : Bool}
    {extra : String → Option String} (hextra : bareOk = true → extra = fun _ => none) :
    (pred.prefilter bareOk).SoundFor fun log => pred.matchesLog rt log extra := by
  have hconj : pred.collectPrefilter bareOk ⟨none, [], [], false⟩ =
      (conjuncts pred).foldl (addAtom bareOk) ⟨none, [], [], false⟩ :=
    foldConjuncts_eq _ _ pred
  have haccepts (log : LogRecord) : (pred.prefilter bareOk).accepts log =
      (conjuncts pred).all fun a => !a.isExact || a.holdsOn rt ⟨log, extra⟩ := by
    refine Eq.trans ?_ (accepts_foldl rt bareOk _ ⟨none, [], [], false⟩ ⟨log, extra⟩)
    rw [← hconj]
    rfl
  have hpairs : (pred.prefilter bareOk).attrEquals =
      (conjuncts pred).flatMap (PreparedAtom.pairs bareOk) := by
    refine Eq.trans ?_ (attrEquals_foldl bareOk _ ⟨none, [], [], false⟩)
    rw [← hconj]
    rfl
  refine ⟨fun log h => ?_, fun log h p hp => ?_, fun hexact => ⟨?_, fun log h => ?_⟩⟩
  · have hall := holds_of_mem_conjuncts pred h
    rw [haccepts, all_eq_true]
    exact fun a ha => by rw [hall a ha, Bool.or_true]
  · rw [hpairs] at hp
    obtain ⟨a, ha, hp⟩ := mem_flatMap.mp hp
    exact carries_of_holdsOn rt hextra (holds_of_mem_conjuncts pred h a ha) p hp
  · rw [hpairs, flatMap_eq_nil_iff]
    exact fun a ha => pairs_of_isExact
      ((holds_of_conjuncts (m := fun _ => true) pred hexact).1 a ha) bareOk
  · obtain ⟨hok, hholds⟩ := holds_of_conjuncts pred hexact
    rw [haccepts, all_eq_true] at h
    refine hholds fun a ha => ?_
    simpa [hok a ha] using h a ha

/-- **The prefilter is an image of the predicate.** A record that matches meets the conditions on
its columns and has the pairs, and an exact prefilter leaves nothing else to ask. -/
theorem prefilter_image (pred : PreparedPredicate F Rx) (bareOk : Bool) (log : LogRecord) :
    let meets := (pred.prefilter bareOk).accepts log = true ∧
      ∀ p ∈ (pred.prefilter bareOk).attrEquals, Carries log p
    (pred.matchesLog rt log (fun _ => none) = true → meets) ∧
      (pred.isPrefilterExact = true → meets → pred.matchesLog rt log (fun _ => none) = true) := by
  have hsound : (pred.prefilter bareOk).SoundFor fun log => pred.matchesLog rt log fun _ => none :=
    prefilter_sound rt pred fun _ => rfl
  refine ⟨fun h => ⟨hsound.accepts log h, hsound.carries log h⟩, fun hexact hmeets => ?_⟩
  exact (hsound.exact hexact).2 log hmeets.1

/-! ## Searching a block -/

def predicateFilter (pred : Predicate F) (log : LogRecord) : Bool :=
  (PreparedPredicate.new rt pred).matchesLog rt log fun _ => none

def predicatePrefilter (pred : Predicate F) : LogColumnPrefilter :=
  (PreparedPredicate.new rt pred).columnPrefilterWithoutExtra

theorem predicatePrefilter_sound (pred : Predicate F) :
    (predicatePrefilter rt pred).SoundFor (predicateFilter rt pred) :=
  prefilter_sound rt (PreparedPredicate.new rt pred) fun _ => rfl

/-- **The skip index is transparent** to a search exactly if it keeps the granules of matching
records without ids, for which it has no term, and the block's records are in order where the
exact scan cuts them. -/
theorem log_index_transparent_iff {logs : List LogRecord} (file : LogFile logs) (s : LogScope)
    (pred : Predicate F) :
    scanLogBlockFiltered file.index file.groups s (predicateFilter rt pred)
        (some (predicatePrefilter rt pred)) =
        decodeLogBlock s (predicateFilter rt pred) (logsToBlock logs).1 ↔
      file.ZeroIdsKept s (predicateFilter rt pred) (predicatePrefilter rt pred) ∧
        ((predicatePrefilter rt pred).exact = true →
          (predicatePrefilter rt pred).isEmpty = false →
          s.InOrder (logs.filter (s.wanted (predicateFilter rt pred)))) :=
  file.scanLogBlockFiltered_eq_iff s (predicatePrefilter_sound rt pred)

end

/-! ## A search for records without a trace -/

def bareRuntime : Runtime Unit Unit where
  parse _ := none
  ofInt _ := ()
  lt _ _ := false
  le _ _ := false
  regex _ := none
  isMatch _ _ := false
  toLowercase s := s
  hex := .lower

def untraced : LogRecord where
  timestampNs := 100
  observedTimestampNs := 100
  severityNumber := 9
  severityText := "INFO"
  body := "started"
  attributes := .empty
  resourceAttributes := .empty
  traceId := Vector.replicate 16 0
  spanId := Vector.replicate 8 0
  flags := 0
  scopeName := ""
  scopeVersion := ""

def oneGroupFile (logs : List LogRecord) : LogFile logs where
  groups := [⟨(logsToBlock logs).1, none, nofun⟩]
  table := some (logsToBlock logs).2
  rows_eq := append_nil _
  table_eq _ h := (Option.some.inj h).symm

def withoutTrace : Predicate Unit :=
  .leaf (.clause (.eq "trace_id" "00000000000000000000000000000000"))

/-- The record matches, and the search of its block finds nothing. -/
theorem untraced_record_skipped :
    (decodeLogBlock ⟨0, 600, 10, true⟩ (predicateFilter bareRuntime withoutTrace)
        (logsToBlock [untraced]).1).matched = 1 ∧
      (scanLogBlockFiltered (oneGroupFile [untraced]).index (oneGroupFile [untraced]).groups
        ⟨0, 600, 10, true⟩ (predicateFilter bareRuntime withoutTrace)
        (some (predicatePrefilter bareRuntime withoutTrace))).matched = 0 := by
  decide +kernel

end Parqtel.Query
