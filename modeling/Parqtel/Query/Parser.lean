import Parqtel.Query.Lexer

/-!
# The expression parser

Precedence climbing over the tokens of a query. The parser is one recursion through
`parseBinary`; everything else is a loop that reads on, or a function that is handed the parser
of its subexpressions (`expr`). Every nested call and every turn of a loop has read a token, so
the length of the text bounds them all.
-/

namespace Parqtel.Query

open Lib

/-- The current token and the text after it. -/
structure Parser (F : Type) where
  tok : Tok F
  rest : List Char

abbrev Parse (F α : Type) := Parser F → Eval (α × Parser F)

section
variable {F : Type} (p : Platform F) (build : Build)

namespace Parser

def advance (c : Parser F) : Eval (Parser F) :=
  match c.tok with
  | .sym .eof => .ok c
  | _ => do
    let (tok, rest) ← nextToken p c.rest
    return ⟨tok, rest⟩

def expect (s : Sym) (c : Parser F) : Eval (Parser F) :=
  match c.tok with
  | .sym s' =>
    if s' = s then c.advance p else invalid s!"expected {p.debug s}, found {p.debug c.tok}"
  | _ => invalid s!"expected {p.debug s}, found {p.debug c.tok}"

end Parser

def opPrecedence : Tok F → Option (ℕ × BinaryOp)
  | .sym .or => some (1, .or)
  | .sym .and => some (2, .and)
  | .sym .unless => some (2, .unless)
  | .sym .eqStrict => some (3, .eq)
  | .sym .ne => some (3, .ne)
  | .sym .gt => some (3, .gt)
  | .sym .lt => some (3, .lt)
  | .sym .ge => some (3, .ge)
  | .sym .le => some (3, .le)
  | .sym .add => some (4, .add)
  | .sym .sub => some (4, .sub)
  | .sym .mul => some (5, .mul)
  | .sym .div => some (5, .div)
  | .sym .mod => some (5, .mod)
  | .sym .pow => some (6, .pow)
  | _ => none

def aggOpFromName : String → Option AggregationOp
  | "sum" => some .sum
  | "avg" => some .avg
  | "min" => some .min
  | "max" => some .max
  | "count" => some .count
  | "stddev" => some .stddev
  | "stdvar" => some .stdvar
  | "count_values" => some .countValues
  | "topk" => some .topK
  | "bottomk" => some .bottomK
  | "quantile" => some .quantile
  | "group" => some .group
  | _ => none

/-! ## Lists of labels and the modifiers of an operator -/

def labelLoop : ℕ → List String → Parse F (List String)
  | 0, _, _ => .error .hang
  | turns + 1, labels, c =>
    match c.tok with
    | .sym .rParen => do return (labels, ← c.advance p)
    | .sym .comma => do labelLoop turns labels (← c.advance p)
    | .ident l => do labelLoop turns (labels ++ [l]) (← c.advance p)
    | tok => invalid s!"expected label name in list, found {p.debug tok}"

def parseLabelList (turns : ℕ) : Parse F (List String) := fun c =>
  match c.tok with
  | .sym .lParen => do labelLoop p turns [] (← c.advance p)
  | _ => .ok ([], c)

def parseCardinality (turns : ℕ) : Parse F MatchCardinality := fun c =>
  match c.tok with
  | .ident "group_left" => do
    let (labels, c) ← parseLabelList p turns (← c.advance p)
    return (.manyToOne labels, c)
  | .ident "group_right" => do
    let (labels, c) ← parseLabelList p turns (← c.advance p)
    return (.oneToMany labels, c)
  | _ => .ok (.oneToOne, c)

def parseMatching (turns : ℕ) (matching : List String → VectorMatch) :
    Parse F (VectorMatch × MatchCardinality) := fun c => do
  let (labels, c) ← parseLabelList p turns (← c.advance p)
  let (card, c) ← parseCardinality p turns c
  return ((matching labels, card), c)

def modifierLoop (op : BinaryOp) : ℕ → BinaryHead → Parse F BinaryHead
  | 0, _, _ => .error .hang
  | turns + 1, head, c =>
    match c.tok with
    | .ident "bool" =>
      if op.isComparison then do
        modifierLoop op turns { head with returnBool := true } (← c.advance p)
      else .ok (head, c)
    | .ident "on" => do
      let (matching, c) ← parseMatching p turns .on c
      modifierLoop op turns { head with matching := some matching } c
    | .ident "ignoring" => do
      let (matching, c) ← parseMatching p turns .ignoring c
      modifierLoop op turns { head with matching := some matching } c
    | .ident "group_left" | .ident "group_right" =>
      invalid "group_left/group_right requires on() or ignoring() first"
    | _ => .ok (head, c)

/-! ## Ranges and offsets -/

def parseDuration : Parse F ℤ := fun c =>
  match c.tok with
  | .ident s => do
    let c ← c.advance p
    return (← parseDurationStr p build s, c)
  | .number n => do
    let c ← c.advance p
    return (← i64 build (p.toI64 n * 1000000000), c)
  | tok => invalid s!"expected duration, found {p.debug tok}"

def parseStep : Parse F (Option ℤ) := fun c =>
  match c.tok with
  | .sym .colon => do
    let c ← c.advance p
    match c.tok with
    | .ident _ => do
      let (step, c) ← parseDuration p build c
      return (some step, c)
    | _ => return (none, c)
  | _ => .ok (none, c)

def parseBracket : Parse F (ℤ × Option ℤ) := fun c => do
  let (range, c) ← (match c.tok with
    | .number n =>
      if p.eq n p.zero then do return (some 0, ← c.advance p)
      else invalid s!"expected duration in [range], found {p.debug c.tok}"
    | .ident _ => do
      let (d, c) ← parseDuration p build c
      return (some d, c)
    | .sym .colon => .ok (none, c)
    | tok => invalid s!"expected duration in [range], found {p.debug tok}" :
      Eval (Option ℤ × Parser F))
  let (step, c) ← parseStep p build c
  let c ← c.expect p .rBracket
  match range with
  | some range => return ((range, step), c)
  | none => invalid "missing range duration in [range:step]"

def parseOffset : Parse F ℤ := fun c =>
  match c.tok with
  | .ident "offset" => do
    let c ← c.advance p
    match c.tok with
    | .ident s => do
      let c ← c.advance p
      return (← parseDurationStr p build s, c)
    | .number n => do
      let c ← c.advance p
      return (← i64 build (p.toI64 n * 1000000000), c)
    | tok => invalid s!"expected duration after offset, found {p.debug tok}"
  | _ => .ok (0, c)

/-! ## Selectors -/

def tokenText : Tok F → Option (List Char)
  | .str s => some ('"' :: s.toList ++ ['"'])
  | .sym .comma => some [',']
  | .sym .assign => some ['=']
  | .sym .eqStrict => some ['=', '=']
  | .sym .ne => some ['!', '=']
  | .sym .matchRe => some ['=', '~']
  | .sym .notMatchRe => some ['!', '~']
  | .ident s => some s.toList
  | .number n => some (p.display n).toList
  | _ => none

/-- The text up to the brace that closes the `depth` open ones. -/
def bracesLoop : ℕ → ℕ → List Char → Parse F (List Char)
  | 0, _, _, _ => .error .hang
  | turns + 1, depth, out, c =>
    match c.tok with
    | .sym .lBrace => do bracesLoop turns (depth + 1) (out ++ ['\x7b']) (← c.advance p)
    | .sym .rBrace => do
      let c ← c.advance p
      if depth = 1 then return (out ++ ['\x7d'], c)
      else bracesLoop turns (depth - 1) (out ++ ['\x7d']) c
    | tok =>
      match tokenText p tok with
      | some text => do bracesLoop turns depth (out ++ text) (← c.advance p)
      | none => invalid s!"unexpected {p.debug tok} inside selector braces"

def captureBraces (turns : ℕ) : Parse F (List Char) := fun c => do
  bracesLoop p turns 1 ['\x7b'] (← c.expect p .lBrace)

def offsetSelector (offset : ℤ) (sel : SelectorExpr) : Expr F :=
  if offset ≠ 0 then .range ⟨0, none, offset⟩ (.selector sel) else .selector sel

def parseSelectorTail (turns : ℕ) (name : String) : Parse F (Expr F) := fun c => do
  let (sel, c) ← (match c.tok with
    | .sym .lBrace => do
      let (braces, c) ← captureBraces p turns c
      let (metric, matchers) ← parseSelector p (name.toList ++ braces)
      return (⟨metric, matchers⟩, c)
    | _ => .ok (⟨some name, []⟩, c) : Eval (SelectorExpr × Parser F))
  let (offset, c) ← parseOffset p build c
  return (offsetSelector offset sel, c)

/-! ## Expressions -/

section
variable (expr : ℕ → Parse F (Expr F))

/-- Arguments up to the closing parenthesis; `place` says where in an error. -/
def argsLoop (place : String) : ℕ → List (Expr F) → Parse F (List (Expr F))
  | 0, _, _ => .error .hang
  | turns + 1, args, c => do
    let (e, c) ← expr 0 c
    match c.tok with
    | .sym .comma => argsLoop place turns (args ++ [e]) (← c.advance p)
    | .sym .rParen => return (args ++ [e], ← c.advance p)
    | tok => invalid s!"expected , or ) in {place}, found {p.debug tok}"

def parseArgs (place : String) (turns : ℕ) : Parse F (List (Expr F)) := fun c =>
  match c.tok with
  | .sym .rParen => do return ([], ← c.advance p)
  | _ => argsLoop p expr place turns [] c

def parseCall (turns : ℕ) (name : String) : Parse F (Expr F) := fun c => do
  let (args, c) ← parseArgs p expr s!"call to {name}" turns c
  return (.call name args, c)

def parseTrailingGrouping (turns : ℕ) : Parse F Grouping := fun c =>
  match c.tok with
  | .ident "by" => do
    let (labels, c) ← parseLabelList p turns (← c.advance p)
    return (.by labels, c)
  | .ident "without" => do
    let (labels, c) ← parseLabelList p turns (← c.advance p)
    return (.without labels, c)
  | _ => .ok (.none, c)

def AggregationOp.takesParam : AggregationOp → Bool
  | .topK | .bottomK | .quantile | .countValues => true
  | _ => false

def splitParam (op : AggregationOp) (name : String) (args : List (Expr F)) :
    Eval (Option (Expr F) × Expr F) :=
  if op.takesParam then
    match args with
    | [param, e] => .ok (some param, e)
    | _ => invalid s!"{name}() takes 2 arguments (param, expression), got {args.length}"
  else
    match args with
    | [e] => .ok (none, e)
    | _ => invalid s!"{name}() takes exactly 1 argument, got {args.length}"

def parseAggregationBody (turns : ℕ) (op : AggregationOp) (name : String) (grouping : Grouping) :
    Parse F (Expr F) := fun c => do
  let (args, c) ← parseArgs p expr s!"{name}(...)" turns c
  let (param, e) ← splitParam op name args
  let (grouping, c) ← (match grouping with
    | .none => parseTrailingGrouping p turns c
    | given => .ok (given, c) : Eval (Grouping × Parser F))
  return (.aggregation op grouping param e, c)

def parseLeadingGrouping (turns : ℕ) (op : AggregationOp) (name : String)
    (grouping : List String → Grouping) : Parse F (Expr F) := fun c => do
  let (labels, c) ← parseLabelList p turns (← c.advance p)
  let c ← c.expect p .lParen
  parseAggregationBody p expr turns op name (grouping labels) c

def parseIdentTail (turns : ℕ) (name : String) : Parse F (Expr F) := fun c =>
  match aggOpFromName name, c.tok with
  | some op, .ident "by" => parseLeadingGrouping p expr turns op name .by c
  | some op, .ident "without" => parseLeadingGrouping p expr turns op name .without c
  | some op, .sym .lParen => do parseAggregationBody p expr turns op name .none (← c.advance p)
  | none, .sym .lParen => do parseCall p expr turns name (← c.advance p)
  | _, _ => parseSelectorTail p build turns name c

def parsePrimary (turns : ℕ) : Parse F (Expr F) := fun c =>
  match c.tok with
  | .number n => do return (.number n, ← c.advance p)
  | .str s => do return (.str s, ← c.advance p)
  | .sym .lParen => do
    let (e, c) ← expr 0 (← c.advance p)
    return (.paren e, ← c.expect p .rParen)
  | .ident name => do parseIdentTail p build expr turns name (← c.advance p)
  | tok => invalid s!"unexpected token {p.debug tok} in expression"

def postfixLoop : ℕ → Expr F → Parse F (Expr F)
  | 0, _, _ => .error .hang
  | turns + 1, e, c =>
    match c.tok with
    | .sym .lBracket => do
      let (bracket, c) ← parseBracket p build (← c.advance p)
      let (offset, c) ← parseOffset p build c
      postfixLoop turns (.range ⟨bracket.1, bracket.2, offset⟩ e) c
    | .ident "offset" => do
      let (offset, c) ← parseOffset p build c
      postfixLoop turns (.range ⟨0, none, offset⟩ e) c
    | .sym .at_ => invalid "@ timestamp modifier is not supported yet"
    | _ => .ok (e, c)

def parsePostfixChain (turns : ℕ) : Parse F (Expr F) := fun c => do
  let (e, c) ← parsePrimary p build expr turns c
  postfixLoop p build turns e c

def unaryLoop : ℕ → Parse F (Expr F)
  | 0, _ => .error .hang
  | turns + 1, c =>
    match c.tok with
    | .sym .sub => do
      let (inner, c) ← unaryLoop turns (← c.advance p)
      return (.binary ⟨.sub, none, false⟩ (.number p.zero) inner, c)
    | .sym .add => do unaryLoop turns (← c.advance p)
    | _ => parsePostfixChain p build expr (turns + 1) c

/-- The operators that bind at least as strongly as `minPrec`, and their right operands. -/
def binaryLoop (minPrec : ℕ) : ℕ → Expr F → Parse F (Expr F)
  | 0, _, _ => .error .hang
  | turns + 1, lhs, c =>
    match opPrecedence c.tok with
    | none => .ok (lhs, c)
    | some (prec, op) =>
      if prec < minPrec then .ok (lhs, c)
      else do
        let (head, c) ← modifierLoop p op turns ⟨op, none, false⟩ (← c.advance p)
        let (rhs, c) ← expr (prec + 1) c
        binaryLoop minPrec turns (.binary head lhs rhs) c

end

def parseBinary : ℕ → ℕ → Parse F (Expr F)
  | 0, _, _ => .error .hang
  | depth + 1, minPrec, c => do
    let (lhs, c) ← unaryLoop p build (parseBinary depth) (depth + 1) c
    binaryLoop p (parseBinary depth) minPrec (depth + 1) lhs c

def parseExpr (query : String) : Eval (Expr F) := do
  let (tok, rest) ← nextToken p query.toList
  let (e, c) ← parseBinary p build (rest.length + 2) 0 ⟨tok, rest⟩
  match c.tok with
  | .sym .eof => return e
  | tok => invalid s!"unexpected trailing tokens after expression: {p.debug tok}"

end

end Parqtel.Query
