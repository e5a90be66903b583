import Parqtel.Query.Parqtelql

/-!
# Pipelines

`fetch <signal> | stage | …`: what a pipeline is, and how its text is read. The text is cut at
every bar outside quotes, and each part is read by the first word. `parsePipeline_spec` says what
every pipeline that is accepted has: one `fetch`, at the front; patterns that compile; and no
`filter` or `parse` after `stats`.
-/

namespace Parqtel.Query

open Lib Except

inductive AggFn where
  | count | avg | min | max | sum | p50 | p95 | p99
deriving DecidableEq, Repr

structure AggSpec where
  func : AggFn
  field : Option String
  aliasName : Option String
deriving DecidableEq, Repr

inductive Stage (F : Type) where
  | fetch (signal : SignalType)
  | filter (pred : Predicate F)
  | parse (pattern field : String)
  | stats (aggs : List AggSpec) (by_ : List String) (intervalNs : Option ℤ)
  | limit (n : ℕ)
  | correlate (signal : SignalType) (windowNs : ℤ)

structure Pipeline (F : Type) where
  stages : List (Stage F)

namespace Stage
variable {F : Type}

def isFetch : Stage F → Bool
  | .fetch _ => true
  | _ => false

def isStats : Stage F → Bool
  | .stats _ _ _ => true
  | _ => false

/-- The stages that want rows, and may not follow `stats`. -/
def wantsRows : Stage F → Bool
  | .filter _ | .parse _ _ => true
  | _ => false

end Stage

def Pipeline.fetchSignal {F : Type} (π : Pipeline F) : SignalType :=
  (π.stages.findSome? fun s => match s with
    | .fetch signal => some signal
    | _ => none).getD .logs

/-! ## Words and numbers -/

def words (cs : List Char) : List (List Char) := (cs.splitOnP isWhitespace).filter (· ≠ [])

def splitWord (cs : List Char) : List Char × List Char :=
  (cs.takeWhile fun c => !isWhitespace c, (cs.dropWhile fun c => !isWhitespace c).tail)

def splitStages : Bool → List Char → List Char → Eval (List (List Char))
  | true, _, [] => invalid "unterminated string in pipeline"
  | false, current, [] => .ok [trim current]
  | true, current, c :: cs => splitStages (c ≠ '"') (current ++ [c]) cs
  | false, current, c :: cs =>
    if c = '"' then splitStages true (current ++ [c]) cs
    else if c = '|' then do return trim current :: (← splitStages false [] cs)
    else splitStages false (current ++ [c]) cs

/-! ## Stages -/

def aggFnOf : String → Option AggFn
  | "count" => some .count
  | "avg" => some .avg
  | "min" => some .min
  | "max" => some .max
  | "sum" => some .sum
  | "p50" => some .p50
  | "p95" => some .p95
  | "p99" => some .p99
  | _ => none

section
variable {F : Type} (p : Platform F) (build : Build)

def parseParseStage (rest : List Char) : Eval (Stage F) :=
  match splitOnce ['"'] (trim rest) with
  | none => invalid "parse needs a quoted regex pattern"
  | some (_, opened) =>
    match splitOnce ['"'] opened with
    | none => invalid "unterminated parse pattern"
    | some (pattern, after) =>
      match stripStart "as ".toList (trim after) with
      | none => invalid "parse needs `as <field>`"
      | some field =>
        if trim field = [] then invalid "parse needs a field name after `as`"
        else
          match p.regex (String.ofList pattern) with
          | .error e => invalid s!"invalid parse regex: {e}"
          | .ok _ => .ok (.parse (String.ofList pattern) (String.ofList (trim field)))

def parseAggSpec (spec : List Char) : Eval AggSpec :=
  let cut :=
    (splitOnce " as ".toList spec).map fun (c, a) => (trim c, some (String.ofList (trim a)))
  let (call, aliasName) := cut.getD (spec, none)
  match splitOnce ['('] call with
  | none => invalid s!"stats needs function calls like count(), got {p.debug (String.ofList spec)}"
  | some (func, args) =>
    let inner := trim (args.reverse.dropWhile (· = ')')).reverse
    let field := if inner = [] then none else some (String.ofList inner)
    match aggFnOf (String.ofList func) with
    | none => invalid (s!"unknown stats function {p.debug (String.ofList func)} " ++
        "(count/avg/min/max/sum/p50/p95/p99)")
    | some func =>
      if func ≠ .count ∧ field = none then invalid s!"{p.debug func} requires a field argument"
      else .ok ⟨func, field, aliasName⟩

def splitInterval (body : List Char) : Eval (List Char × Option ℤ) :=
  match splitOnce "interval=".toList body with
  | none => .ok (body, none)
  | some (before, after) => do
    let dur ← parseDurationStr p build (String.ofList ((words after).headD []))
    return (trim before, some dur)

def splitBy (body : List Char) : List Char × List String :=
  match splitOnce " by ".toList body with
  | none => (body, [])
  | some (before, after) =>
    (trim before, (((trim after).splitOn ',').map trim |>.filter (· ≠ [])).map String.ofList)

def parseStatsStage (rest : List Char) : Eval (Stage F) := do
  let (body, interval) ← splitInterval p build (trim rest)
  let (body, names) := splitBy body
  let aggs ← gather (fun spec =>
    if trim spec = [] then .ok [] else do return [← parseAggSpec p (trim spec)]) (body.splitOn ',')
  if aggs = [] then invalid "stats needs at least one aggregation"
  else return .stats aggs names interval

def correlateWindow : ℤ → List (List Char) → Eval ℤ
  | window, [] => .ok window
  | window, word :: rest =>
    match stripStart "window=".toList word with
    | none => correlateWindow window rest
    | some dur => do correlateWindow (← parseDurationStr p build (String.ofList dur)) rest

def parseCorrelateStage (rest : List Char) : Eval (Stage F) :=
  match words rest with
  | [] => invalid "correlate needs a signal (traces|logs)"
  | signal :: options =>
    match String.ofList signal with
    | "traces" => do return .correlate .traces (← correlateWindow p build 300000000000 options)
    | "logs" => do return .correlate .logs (← correlateWindow p build 300000000000 options)
    | _ => invalid "correlate supports traces or logs today"

variable {Rx : Type} (rt : Ql.QlRuntime F Rx)

def parseFetchStage (rest : List Char) : Eval (Stage F) :=
  match String.ofList (trim rest) with
  | "logs" => .ok (.fetch .logs)
  | "traces" => .ok (.fetch .traces)
  | "metrics" => .ok (.fetch .metrics)
  | signal => invalid s!"unsupported fetch signal {p.debug signal} (logs | traces | metrics)"

def parseLimitStage (rest : List Char) : Eval (Stage F) :=
  match parseUsize (trim rest) with
  | some n => .ok (.limit n)
  | none => invalid s!"limit needs a number, got {p.debug (String.ofList rest)}"

def parseNamedStage (name : String) (rest : List Char) : Eval (Stage F) :=
  match name with
  | "fetch" => parseFetchStage p rest
  | "filter" => do return .filter (← Ql.parsePredicate rt rest)
  | "parse" => parseParseStage p rest
  | "stats" => parseStatsStage p build rest
  | "limit" => parseLimitStage p rest
  | "correlate" => parseCorrelateStage p build rest
  | other => invalid (s!"unknown stage {p.debug other}; supported: fetch, filter, parse, " ++
      "stats, limit, correlate")

def parseStage (part : List Char) (isFirst : Bool) : Eval (Stage F) := do
  let cut := splitWord (trim part)
  let stage ← parseNamedStage p build rt (String.ofList cut.1) cut.2
  if isFirst && !stage.isFetch then invalid "pipeline must start with a fetch stage"
  else if !isFirst && stage.isFetch then invalid "fetch is only allowed as the first stage"
  else return stage

def parseParts : Bool → List (List Char) → Eval (List (Stage F))
  | _, [] => .ok []
  | isFirst, part :: parts => do
    let stage ← parseStage p build rt part isFirst
    return stage :: (← parseParts false parts)

def rowsAfterStats (stages : List (Stage F)) : Bool :=
  ((stages.dropWhile fun s => !s.isStats).tail).any Stage.wantsRows

def parsePipeline (input : List Char) : Eval (Pipeline F) :=
  let text := trim input
  if (stripStart "fetch ".toList text).isNone then
    invalid "pipelines must start with `fetch <signal>` (e.g. `fetch logs`)"
  else do
    let parts ← splitStages false [] text
    let stages ← parseParts p build rt true parts
    if !stages.any Stage.isFetch then invalid "missing fetch stage"
    else if rowsAfterStats stages then
      invalid "filter/parse cannot follow stats (stats is terminal for row filtering)"
    else return ⟨stages⟩

/-! ## What is accepted -/

def Stage.Compiles : Stage F → Prop
  | .parse pattern _ => ∃ re, p.regex pattern = .ok re
  | _ => True

variable {s : Stage F}

theorem parseParseStage_compiles {rest : List Char} (h : parseParseStage p rest = .ok s) :
    s.Compiles p := by
  unfold parseParseStage at h
  split at h
  · cases h
  · split at h
    · cases h
    · split at h
      · cases h
      · split_ifs at h
        · cases h
        · split at h
          · cases h
          · next re hre =>
            obtain rfl := ok.inj h
            exact ⟨re, hre⟩

theorem parseNamedStage_compiles {name : String} {rest : List Char}
    (h : parseNamedStage p build rt name rest = .ok s) : s.Compiles p := by
  unfold parseNamedStage at h
  split at h
  · unfold parseFetchStage at h
    split at h
    · obtain rfl := ok.inj h; trivial
    · obtain rfl := ok.inj h; trivial
    · obtain rfl := ok.inj h; trivial
    · cases h
  · obtain ⟨pred, -, h⟩ := bind_eq_ok.mp h
    obtain rfl := ok.inj h
    trivial
  · exact parseParseStage_compiles p h
  · obtain ⟨⟨body, interval⟩, -, h⟩ := bind_eq_ok.mp h
    obtain ⟨aggs, -, h⟩ := bind_eq_ok.mp h
    split_ifs at h
    · cases h
    · obtain rfl := ok.inj h
      trivial
  · unfold parseLimitStage at h
    split at h
    · obtain rfl := ok.inj h; trivial
    · cases h
  · unfold parseCorrelateStage at h
    split at h
    · cases h
    · split at h
      · obtain ⟨window, -, h⟩ := bind_eq_ok.mp h
        obtain rfl := ok.inj h
        trivial
      · obtain ⟨window, -, h⟩ := bind_eq_ok.mp h
        obtain rfl := ok.inj h
        trivial
      · cases h
  · cases h

theorem parseStage_spec {part : List Char} {isFirst : Bool}
    (h : parseStage p build rt part isFirst = .ok s) : s.Compiles p ∧ s.isFetch = isFirst := by
  obtain ⟨stage, hstage, h⟩ := bind_eq_ok.mp h
  have hcompiles := parseNamedStage_compiles p build rt hstage
  split_ifs at h with hfirst hlater
  · cases h
  · cases h
  · obtain rfl := ok.inj h
    refine ⟨hcompiles, ?_⟩
    revert hfirst hlater
    cases isFirst <;> cases stage.isFetch <;> simp

theorem parseParts_spec {isFirst : Bool} {parts : List (List Char)} {stages : List (Stage F)}
    (h : parseParts p build rt isFirst parts = .ok stages) :
    (∀ s ∈ stages, s.Compiles p) ∧ (∀ s ∈ stages.tail, s.isFetch = false) ∧
      ∀ s ∈ stages.head?, s.isFetch = isFirst := by
  induction parts generalizing isFirst stages with
  | nil =>
    obtain rfl := ok.inj h
    exact ⟨nofun, nofun, nofun⟩
  | cons part parts ih =>
    obtain ⟨stage, hstage, h⟩ := bind_eq_ok.mp h
    obtain ⟨rest, hrest, h⟩ := bind_eq_ok.mp h
    obtain rfl := ok.inj h
    obtain ⟨hcompiles, hfetch⟩ := parseStage_spec p build rt hstage
    obtain ⟨hall, htail, hhead⟩ := ih hrest
    refine ⟨List.forall_mem_cons.mpr ⟨hcompiles, hall⟩, fun s hs => ?_, fun s hs => ?_⟩
    · cases rest with
      | nil => cases hs
      | cons r rest =>
        rcases List.mem_cons.mp hs with rfl | hs
        · exact hhead s rfl
        · exact htail s hs
    · obtain rfl := Option.some.inj hs
      exact hfetch

/-- **What is accepted** starts with its only `fetch`, has patterns that compile, and wants no rows
after `stats`. -/
theorem parsePipeline_spec {input : List Char} {π : Pipeline F}
    (h : parsePipeline p build rt input = .ok π) :
    (∃ signal rest, π.stages = .fetch signal :: rest ∧ ∀ s ∈ rest, s.isFetch = false) ∧
      (∀ s ∈ π.stages, s.Compiles p) ∧ rowsAfterStats π.stages = false := by
  unfold parsePipeline at h
  dsimp only at h
  split_ifs at h
  · cases h
  · obtain ⟨parts, -, h⟩ := bind_eq_ok.mp h
    obtain ⟨stages, hstages, h⟩ := bind_eq_ok.mp h
    split_ifs at h with hfetch hrows
    · cases h
    · cases h
    · obtain rfl := ok.inj h
      obtain ⟨hcompiles, htail, hhead⟩ := parseParts_spec p build rt hstages
      refine ⟨?_, hcompiles, Bool.eq_false_iff.mpr hrows⟩
      cases stages with
      | nil => exact absurd rfl hfetch
      | cons s rest =>
        have hs := hhead s rfl
        cases s with
        | fetch signal => exact ⟨signal, rest, rfl, htail⟩
        | _ => cases hs

end

end Parqtel.Query
