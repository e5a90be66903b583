import Parqtel.Query.SearchQuery

/-!
# Flat searches over spans

The same flat search as for logs, matched against spans. A field of a span is one of its own or
an attribute, values are compared without regard to case, durations are numbers of milliseconds,
and a minimum severity means nothing. A term is looked for in the name and in every attribute.
-/

namespace Parqtel.Query

open Lib Text Storage

/-- What span searches take from libraries beside the runtime of a log search: a number of
nanoseconds in milliseconds. -/
structure SpanRuntime (F Rx : Type*) extends Runtime F Rx where
  toMillis : Int → F

def eqIgnoreAsciiCase (a b : String) : Bool := toAsciiLower a = toAsciiLower b

def spanStatus : Int → String
  | 2 => "ERROR"
  | 1 => "OK"
  | _ => "UNSET"

def spanKind : Int → String
  | 1 => "internal"
  | 2 => "server"
  | 3 => "client"
  | 4 => "producer"
  | 5 => "consumer"
  | _ => "unspecified"

def spanField {F Rx : Type*} (rt : Runtime F Rx) (s : Span) (field : String) : Option String :=
  match field with
  | "service" | "service.name" => s.attributes.get "service.name"
  | "name" | "operation" | "operation_name" => some s.name
  | "status" => some (spanStatus s.statusCode)
  | "kind" => some (spanKind s.kind)
  | "trace_id" => some (rt.hex.encode s.traceId.toList)
  | _ => s.attributes.get ((strip "attr." field).getD field)

def spanDurationNs (s : Span) : Int := (s.endTimeNs - s.startTimeNs).bmod (2 ^ 64)

inductive PreparedSpanClause (F Rx : Type*) where
  | eq (field value : String)
  | ne (field value : String)
  | re (field : String) (regex : Option Rx)
  | cmp (field : String) (op : CmpOp) (value : F)
  | range (field : String) (min max : F)
  | exists (field : String)
  | alwaysTrue
  | not (inner : PreparedSpanClause F Rx)

/-- The terms of a span search have the shape of those of a log search. -/
structure PreparedSpanQuery (F Rx : Type*) where
  clauses : List (PreparedSpanClause F Rx)
  terms : List (PreparedTerm Rx)

section
variable {F Rx : Type*} (rt : SpanRuntime F Rx)

def PreparedSpanClause.prepare : Clause F → PreparedSpanClause F Rx
  | .eq field value => .eq field value
  | .ne field value => .ne field value
  | .re field regex => .re field (rt.regex regex)
  | .cmp field op value => .cmp field op value
  | .range field min max => .range field min max
  | .exists field => .exists field
  | .severityMin _ => .alwaysTrue
  | .not inner => .not (prepare inner)

def isDuration (field : String) : Bool := field = "duration" || field = "duration_ms"

def spanNumber (s : Span) (field : String) : Option F :=
  if isDuration field then some (rt.toMillis (spanDurationNs s))
  else (spanField rt.toRuntime s field).bind rt.parse

def PreparedSpanClause.holdsOn (s : Span) : PreparedSpanClause F Rx → Bool
  | .eq field value => (spanField rt.toRuntime s field).any fun v => eqIgnoreAsciiCase v value
  | .ne field value => (spanField rt.toRuntime s field).all fun v => !eqIgnoreAsciiCase v value
  | .re field regex =>
    match spanField rt.toRuntime s field, regex with
    | some v, some rx => rt.isMatch rx v
    | _, _ => false
  | .cmp field op value => (spanNumber rt s field).any fun n => op.compare rt.toRuntime n value
  | .range field min max =>
    -- no other field has ranges
    isDuration field &&
      (rt.le min (rt.toMillis (spanDurationNs s)) && rt.le (rt.toMillis (spanDurationNs s)) max)
  | .exists field => (spanField rt.toRuntime s field).isSome
  | .alwaysTrue => true
  | .not inner => !inner.holdsOn s

def PreparedTerm.holdsOnSpan (s : Span) : PreparedTerm Rx → Bool
  | .contains needleLower negate =>
    (containsAsciiCi s.name needleLower ||
      s.attributes.entries.any fun e => containsAsciiCi e.2 needleLower) != negate
  | .wildcard regex negate =>
    (regex.any fun rx =>
      rt.isMatch rx s.name || s.attributes.entries.any fun e => rt.isMatch rx e.2) != negate

namespace PreparedSpanQuery

def new (q : SearchQuery F) : PreparedSpanQuery F Rx :=
  ⟨q.clauses.map (PreparedSpanClause.prepare rt), q.terms.map (PreparedTerm.prepare rt.toRuntime)⟩

def matchesSpan (q : PreparedSpanQuery F Rx) (s : Span) : Bool :=
  (q.clauses.all fun c => c.holdsOn rt s) && q.terms.all fun t => t.holdsOnSpan rt s

end PreparedSpanQuery

end

end Parqtel.Query
