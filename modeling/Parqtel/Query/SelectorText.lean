import Parqtel.Lib.Text
import Parqtel.Query.Ast
import Parqtel.Query.Exact

/-!
# Selectors and durations from text

The two small parsers that both query parsers share. `parseSelector` cuts `name{a="b",…}` at the
first brace, at every comma and at the first operator of each part, and does not know about
quotes; a value that is a single quote makes it slice backwards. `parseDurationStr` reads `1h30m`
group by group with checked arithmetic, and a bare number of seconds without.
-/

namespace Parqtel.Query

open Lib

section
variable {F : Type} (p : Platform F)

def LabelMatcher.new (name : String) (op : MatchOp) (value : String) : Eval LabelMatcher :=
  match op with
  | .regexMatch | .regexNotMatch =>
    match p.regex value with
    | .error e => invalid s!"Invalid regex '{value}': {e}"
    | .ok re => .ok ⟨name, op, value, some re.isMatch⟩
  | .equal | .notEqual => .ok ⟨name, op, value, none⟩

def splitMatcher (part : List Char) : Option (MatchOp × List Char × List Char) :=
  ((splitOnce ['=', '~'] part).map fun cut => (.regexMatch, cut)) <|>
  ((splitOnce ['!', '~'] part).map fun cut => (.regexNotMatch, cut)) <|>
  ((splitOnce ['!', '='] part).map fun cut => (.notEqual, cut)) <|>
  ((splitOnce ['='] part).map fun cut => (.equal, cut))

def stripQuotes (value : List Char) : Eval (List Char) :=
  if value.head? = some '"' ∧ value.getLast? = some '"' then
    if value.length < 2 then .error .panic else .ok value.tail.dropLast
  else .ok value

def parseMatcher (part : List Char) : Eval LabelMatcher :=
  match splitMatcher part with
  | none => invalid s!"Invalid label matcher: {String.ofList part}"
  | some (op, name, value) => do
    let value ← stripQuotes (trim value)
    LabelMatcher.new p (String.ofList (trim name)) op (String.ofList value)

def parseMatchers (labels : List Char) : Eval (List LabelMatcher) :=
  gather (fun part =>
    if trim part = [] then .ok []
    else do return [← parseMatcher p (trim part)]) (labels.splitOn ',')

def parseSelector (text : List Char) : Eval (Option String × List LabelMatcher) :=
  let selector := trim text
  if selector = [] then invalid "Empty selector"
  else
    match splitOnce ['\x7b'] selector with
    | none => .ok (some (String.ofList selector), [])
    | some (before, after) =>
      if selector.getLast? ≠ some '\x7d' then invalid "Selector missing closing brace"
      else do
        let name := trim before
        let matchers ← parseMatchers p after.dropLast
        return (if name = [] then none else some (String.ofList name), matchers)

end

/-! ## Durations -/

/-- The units of a duration in nanoseconds; `ms` comes before `m`. -/
def units : List (List Char × ℤ) :=
  [(['m', 's'], 1000000), (['s'], 1000000000), (['m'], 60000000000), (['h'], 3600000000000),
    (['d'], 86400000000000), (['w'], 604800000000000)]

def checked (message : String) (z : ℤ) : Eval ℤ := if InI64 z then .ok z else invalid message

section
variable {F : Type} (p : Platform F)

/-- The rest of a duration `s`, one group of digits and unit at a time. Every group has a unit,
so that the turns are bounded by the length of the text. -/
def durationLoop (s : String) : ℕ → List Char → ℤ → Eval ℤ
  | _, [], total => .ok total
  | 0, _ :: _, _ => .error .hang
  | turns + 1, c :: cs, total =>
    let num := (c :: cs).takeWhile Char.isDigit
    let maybeUnit := (c :: cs).dropWhile Char.isDigit
    match units.find? fun unit => unit.1.isPrefixOf maybeUnit with
    | none => invalid s!"invalid duration {p.debug s} (use e.g. 5m, 1h30m, 90s)"
    | some (suffix, mult) =>
      match Storage.parseI64 num with
      | none => invalid s!"invalid duration {p.debug s}"
      | some n => do
        let part ← checked s!"duration {p.debug s} overflows" (n * mult)
        let total ← checked s!"duration {p.debug s} overflows" (total + part)
        durationLoop s turns (maybeUnit.drop suffix.length) total

def parseDurationStr (build : Build) (s : String) : Eval ℤ :=
  if s.toList = [] then invalid "empty range selector"
  else
    match Storage.parseI64 s.toList with
    | some secs => i64 build (secs * 1000000000)
    | none => durationLoop p s s.toList.length s.toList 0

end

example : parseDurationStr exact .debug "1h30m" = .ok 5400000000000 := by decide

end Parqtel.Query
