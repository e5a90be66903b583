import Parqtel.Query.SelectorText

/-!
# Tokens of a query

The lexer reads bytes and looks for ASCII characters only. A byte of a longer character is none
of them, so that it may as well be described on characters: outside of a string such a
character is refused, inside it is copied.
-/

namespace Parqtel.Query

open Lib

/-- The tokens without a text or value. -/
inductive Sym where
  | lBrace | rBrace | lBracket | rBracket | lParen | rParen | comma | colon
  | add | sub | mul | div | mod | pow
  | ne | gt | lt | ge | le
  /-- `==`. -/
  | eqStrict
  /-- `=`, inside braces. -/
  | assign
  | matchRe | notMatchRe
  | and | or | unless
  | at_
  | eof
deriving DecidableEq

inductive Tok (F : Type) where
  | ident (s : String)
  | number (n : F)
  | str (s : String)
  | sym (s : Sym)

/-! ## The kinds of text -/

/-- The text of a string after its opening quote, and what follows. A backslash keeps the next
character from ending it and stays in the text. -/
def lexString (quote : Char) : List Char → Option (List Char × List Char)
  | [] => none
  | ['\\'] => none
  | '\\' :: c :: cs => (lexString quote cs).map fun (text, rest) => ('\\' :: c :: text, rest)
  | c :: cs =>
    if c = quote then some ([], cs)
    else (lexString quote cs).map fun (text, rest) => (c :: text, rest)

def isUnit (c : Char) : Bool := c ∈ ['m', 'h', 's', 'd', 'w']

/-- Further pairs of digits and unit. The code looks two characters back for the `m` of `ms`. -/
def compoundLoop : ℕ → List Char → List Char → List Char × List Char
  | 0, text, rest => (text, rest)
  | turns + 1, text, rest =>
    let digits := rest.takeWhile Char.isDigit
    match rest.dropWhile Char.isDigit with
    | u :: after =>
      if isUnit u then
        if (text ++ digits).getLast? = some 'm' ∧ after.head? = some 's' then
          compoundLoop turns (text ++ digits ++ [u, 's']) after.tail
        else compoundLoop turns (text ++ digits ++ [u]) after
      else (text, rest)
    | [] => (text, rest)

/-- Digits with a unit, and what follows; `none` for a plain number. -/
def lexDuration (cs : List Char) : Option (List Char × List Char) :=
  let digits := cs.takeWhile Char.isDigit
  match cs.dropWhile Char.isDigit with
  | u :: after =>
    if isUnit u || u = 'y' then
      if u = 'm' ∧ after.head? = some 's' then
        some (compoundLoop cs.length (digits ++ [u, 's']) after.tail)
      else some (compoundLoop cs.length (digits ++ [u]) after)
    else none
  | [] => none

def numberLoop (seenDot seenExp first : Bool) : List Char → List Char × List Char
  | [] => ([], [])
  | c :: cs =>
    if c.isDigit then
      let (text, rest) := numberLoop seenDot seenExp false cs
      (c :: text, rest)
    else if c = '.' ∧ !seenDot ∧ !seenExp then
      let (text, rest) := numberLoop true seenExp false cs
      (c :: text, rest)
    else if (c = 'e' ∨ c = 'E') ∧ !seenExp ∧ !first then
      match cs with
      | [] => ([c], [])
      | s :: cs =>
        if s = '+' ∨ s = '-' then
          let (text, rest) := numberLoop seenDot true false cs
          (c :: s :: text, rest)
        else
          let (text, rest) := numberLoop seenDot true false (s :: cs)
          (c :: text, rest)
    else ([], c :: cs)

def isIdentChar (c : Char) : Bool := c = '_' || c = '.' || c.isAlphanum

/-! ## One token -/

section
variable {F : Type} (p : Platform F)

def lexNumber (cs : List Char) : Eval (Tok F × List Char) :=
  let (text, rest) := numberLoop false false true cs
  match p.parse (String.ofList text) with
  | some n => .ok (.number n, rest)
  | none => invalid s!"invalid number {p.debug (String.ofList text)}"

def lexNumberOrDuration (cs : List Char) : Eval (Tok F × List Char) :=
  match lexDuration cs with
  | some (text, rest) => .ok (.ident (String.ofList text), rest)
  | none => lexNumber p cs

def lexIdent (cs : List Char) : Tok F × List Char :=
  let tok := match String.ofList (cs.takeWhile isIdentChar) with
    | "and" => .sym .and
    | "or" => .sym .or
    | "unless" => .sym .unless
    | text => .ident text
  (tok, cs.dropWhile isIdentChar)

def extend (short : Sym) (long : List (Char × Sym)) (cs : List Char) : Tok F × List Char :=
  match cs.head?.bind fun c => long.lookup c with
  | some s => (.sym s, cs.tail)
  | none => (.sym short, cs)

def nextToken (src : List Char) : Eval (Tok F × List Char) :=
  match src.dropWhile isAsciiWhitespace with
  | [] => .ok (.sym .eof, [])
  | c :: cs =>
    match c with
    | '\x7b' => .ok (.sym .lBrace, cs)
    | '\x7d' => .ok (.sym .rBrace, cs)
    | '[' => .ok (.sym .lBracket, cs)
    | ']' => .ok (.sym .rBracket, cs)
    | '(' => .ok (.sym .lParen, cs)
    | ')' => .ok (.sym .rParen, cs)
    | ',' => .ok (.sym .comma, cs)
    | ':' => .ok (.sym .colon, cs)
    | '+' => .ok (.sym .add, cs)
    | '-' => .ok (.sym .sub, cs)
    | '*' => .ok (.sym .mul, cs)
    | '/' => .ok (.sym .div, cs)
    | '%' => .ok (.sym .mod, cs)
    | '^' => .ok (.sym .pow, cs)
    | '=' => .ok (extend .assign [('=', .eqStrict), ('~', .matchRe)] cs)
    | '!' =>
      match cs with
      | '=' :: cs => .ok (.sym .ne, cs)
      | '~' :: cs => .ok (.sym .notMatchRe, cs)
      | _ => invalid "stray '!' in query"
    | '>' => .ok (extend .gt [('=', .ge)] cs)
    | '<' => .ok (extend .lt [('=', .le)] cs)
    | '@' => .ok (.sym .at_, cs)
    | c =>
      if c = '"' ∨ c = '\'' then
        match lexString c cs with
        | some (text, rest) => .ok (.str (String.ofList text), rest)
        | none => invalid "unterminated string"
      else if c.isDigit ∨ (c = '.' ∧ cs.head?.any Char.isDigit) then
        lexNumberOrDuration p (c :: cs)
      else if c = '_' ∨ c.isAlpha then .ok (lexIdent (c :: cs))
      else invalid s!"unexpected character {p.debug (String.utf8EncodeChar c).head?} in query"

end

end Parqtel.Query
