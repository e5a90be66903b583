import Parqtel.Query.LexerSpec
import Parqtel.Query.SearchQuery

/-!
# ParqtelQL from text

The search language of logs and traces. `tokenize` cuts a text into terms, strings, operators,
keywords and parentheses, and `parsePredicate` reads a tree from them in which `OR` binds weakest
and terms side by side are a conjunction. `parseSearch` reads the flat form and never refuses a
text: what has no flat form becomes a search without conditions, and what does not parse a search
for its words.

The parser is one recursion through `parseOr`; its loops and the parser of an atom are handed the
parser of what they contain. Every turn reads a token, so that the number of tokens bounds them
all.
-/

namespace Parqtel.Query.Ql

open Lib List Nat

/-- What the parser takes from libraries beside the runtime of a search: the messages of the
regex compiler, and debug output. -/
structure QlRuntime (F Rx : Type) extends Runtime F Rx where
  regexError : String → String
  debug : {α : Type} → α → String

inductive FieldOp where
  | eq | ne | re | gt | ge | lt | le | colon
deriving DecidableEq, Repr

inductive Tok where
  | term (s : String)
  | str (s : String)
  | and | or | not
  | lParen | rParen
  | op (o : FieldOp)
deriving DecidableEq, Repr

/-! ## Tokens -/

def asciiUpper (cs : List Char) : String := String.ofList (cs.map Char.toUpper)

def termLike (t : List Char) : Tok :=
  match asciiUpper t with
  | "AND" => .and
  | "OR" => .or
  | "NOT" => .not
  | _ => .term (String.ofList t)

/-- The text of a string after its opening quote, and what follows. A backslash takes the next
character as it is. -/
def readString : List Char → Option (List Char × List Char)
  | [] => none
  | '\\' :: c :: cs => (readString cs).map fun (s, rest) => (c :: s, rest)
  | '"' :: cs => some ([], cs)
  | c :: cs => (readString cs).map fun (s, rest) => (c :: s, rest)

def readOp (c : Char) (cs : List Char) : FieldOp × List Char :=
  match c, cs with
  | '>', '=' :: cs => (.ge, cs)
  | '<', '=' :: cs => (.le, cs)
  | '!', '=' :: cs => (.ne, cs)
  | _, '~' :: cs => (.re, cs)
  | '>', cs => (.gt, cs)
  | '<', cs => (.lt, cs)
  | '!', cs => (.ne, cs)
  | _, cs => (.eq, cs)

def isValueChar (c : Char) : Bool := !isWhitespace c && c ∉ ['(', ')', '"']

def isTermChar (c : Char) : Bool :=
  !isWhitespace c && c ∉ ['(', ')', '"', ':', '=', '<', '>', '!']

def readToken (c : Char) (cs : List Char) : Eval (List Tok × List Char) :=
  if c = '(' then .ok ([.lParen], cs)
  else if c = ')' then .ok ([.rParen], cs)
  else if c = '"' then
    match readString cs with
    | none => invalid "unterminated string"
    | some (s, rest) => .ok ([.str (String.ofList s)], rest)
  else if c ∈ ['>', '<', '!', '='] then .ok ([.op (readOp c cs).1], (readOp c cs).2)
  else if c = ':' then
    -- a value may have colons and operators in it
    let rest := cs.dropWhile isWhitespace
    if rest.takeWhile isValueChar = [] then .ok ([.op .colon], rest)
    else .ok ([.op .colon, termLike (rest.takeWhile isValueChar)], rest.dropWhile isValueChar)
  else .ok ([termLike (c :: cs.takeWhile isTermChar)], cs.dropWhile isTermChar)

def tokenLoop : ℕ → List Char → Eval (List Tok)
  | 0, _ => .error .hang
  | _ + 1, [] => .ok []
  | turns + 1, c :: cs =>
    if isWhitespace c then tokenLoop turns cs
    else do
      let read ← readToken c cs
      return read.1 ++ (← tokenLoop turns read.2)

def tokenize (input : List Char) : Eval (List Tok) := tokenLoop (input.length + 1) input

/-! ## Terms and clauses -/

variable {cs : List Char}

section
variable {F Rx : Type} (rt : QlRuntime F Rx)

/-- A term with a dash is excluded, one with an asterisk is a pattern. -/
def buildTerm (t : String) : SearchTerm :=
  let negate := t.toList.head? = some '-'
  let text := if negate then t.toList.tail else t.toList
  ⟨rt.toLowercase (String.ofList (trimMatches (· = '*') text)), negate, false, '*' ∈ text⟩

def isField (t : String) : Bool :=
  (t.toList.head?.any fun c => c.isAlpha || c = '_') &&
    t.toList.all fun c => c.isAlphanum || c = '_' || c = '.'

def replaceDots : List Char → List Char
  | '.' :: '.' :: cs => '-' :: replaceDots cs
  | c :: cs => c :: replaceDots cs
  | [] => []

def parseRange (v : List Char) : Option (F × F) := do
  let (a, b) ← splitOnce ['-'] (replaceDots (trimMatches (fun c => c = '[' || c = ']') v))
  return (← rt.parse (String.ofList (trim a)), ← rt.parse (String.ofList (trim b)))

def wildcardToRegex (pattern : List Char) : Eval String :=
  let re := String.ofList (['^'] ++ pattern.flatMap (fun c =>
    if c = '*' then ['.', '*']
    else if c = '?' then ['.']
    else if !c.isAlphanum && c ∉ ['_', '.', '-', '/'] then ['\\', c]
    else [c]) ++ ['$'])
  match rt.regex re with
  | some _ => .ok re
  | none => invalid s!"bad pattern: {rt.regexError re}"

/-- The severity of a name, asked for in the two fields that hold one. -/
def isSeverityOf (field value : String) : Bool :=
  (field = "severity" || field = "severity_text") && (severityRank value).isSome

def compareClause (field : String) (op : FieldOp) (cmp : CmpOp) (value : String) :
    Eval (Clause F) :=
  -- any comparison with the name of a severity is a minimum
  if isSeverityOf field value then .ok (.severityMin value)
  else
    match rt.parse value with
    | some n => .ok (.cmp field cmp n)
    | none => invalid s!"field {field} needs a number after {rt.debug op}"

def colonClause (field value : String) : Eval (Clause F) :=
  match parseRange rt value.toList with
  | some (min, max) => .ok (.range field min max)
  | none =>
    if value = "*" then .ok (.exists field)
    else if '*' ∈ value.toList then do return .re field (← wildcardToRegex rt value.toList)
    else if isSeverityOf field value then .ok (.severityMin value)
    else .ok (.eq field value)

def valueClause (field : String) (op : FieldOp) (value : String) : Eval (Clause F) :=
  match op with
  | .eq =>
    if '*' ∈ value.toList then do return .re field (← wildcardToRegex rt value.toList)
    else .ok (.eq field value)
  | .ne => .ok (.ne field value)
  | .re => .ok (.re field value)
  | .gt => compareClause rt field op .gt value
  | .ge => compareClause rt field op .ge value
  | .lt => compareClause rt field op .lt value
  | .le => compareClause rt field op .le value
  | .colon => colonClause rt field value

/-- The clause of a field and an operator, with the tokens after it. Without a value it asks for
the field to be there. -/
def buildFieldClause (field : String) (op : FieldOp) (toks : List Tok) :
    Eval (Clause F × List Tok) :=
  match toks with
  | .term value :: rest => do return (← valueClause rt field op value, rest)
  | .str value :: rest => do return (← valueClause rt field op value, rest)
  | _ => .ok (.exists field, toks)

/-! ## Trees -/

/-- A parser that reads on from these tokens. -/
abbrev Parse (F : Type) := List Tok → Eval (Predicate F × List Tok)

def parseAtom (group : Parse F) : Parse F
  | .lParen :: toks => do
    let inner ← group toks
    if inner.2.head? = some .rParen then return (inner.1, inner.2.tail)
    else invalid "missing )"
  | .str s :: toks => .ok (.leaf (.term ⟨rt.toLowercase s, false, true, false⟩), toks)
  | .term t :: .op op :: toks =>
    if isField t then do
      let clause ← buildFieldClause rt t op toks
      return (.leaf (.clause clause.1), clause.2)
    else .ok (.leaf (.term (buildTerm rt t)), .op op :: toks)
  | .term t :: toks => .ok (.leaf (.term (buildTerm rt t)), toks)
  | toks => invalid s!"unexpected token {rt.debug toks.head?} in predicate"

def parseNot (atom : Parse F) : Parse F
  | .not :: toks => do
    let inner ← parseNot atom toks
    return (.not inner.1, inner.2)
  | toks => atom toks

/-- A term, a string, `NOT` or a parenthesis goes on a conjunction without `AND`. -/
def startsPart : Tok → Bool
  | .term _ | .str _ | .not | .lParen => true
  | _ => false

def andLoop (part : Parse F) : ℕ → List (Predicate F) → List Tok →
    Eval (List (Predicate F) × List Tok)
  | 0, _, _ => .error .hang
  | turns + 1, parts, toks =>
    match toks with
    | .and :: rest => do
      let next ← part rest
      andLoop part turns (parts ++ [next.1]) next.2
    | tok :: rest =>
      if startsPart tok then do
        let next ← part (tok :: rest)
        andLoop part turns (parts ++ [next.1]) next.2
      else .ok (parts, tok :: rest)
    | [] => .ok (parts, [])

def orLoop (branch : Parse F) : ℕ → List (Predicate F) → List Tok →
    Eval (List (Predicate F) × List Tok)
  | 0, _, _ => .error .hang
  | turns + 1, branches, toks =>
    match toks with
    | .or :: rest => do
      let next ← branch rest
      orLoop branch turns (branches ++ [next.1]) next.2
    | _ => .ok (branches, toks)

def joined (node : List (Predicate F) → Predicate F) : List (Predicate F) → Predicate F
  | [part] => part
  | parts => node parts

def parseAnd (part : Parse F) : Parse F := fun toks => do
  let first ← part toks
  let all ← andLoop part (first.2.length + 1) [first.1] first.2
  return (joined .and all.1, all.2)

def parseOr : ℕ → Parse F
  | 0 => fun _ => .error .hang
  | depth + 1 => fun toks => do
    let branch := parseAnd (parseNot (parseAtom rt (parseOr depth)))
    let first ← branch toks
    let all ← orLoop branch (first.2.length + 1) [first.1] first.2
    return (joined .or all.1, all.2)

def parsePredicate (input : List Char) : Eval (Predicate F) := do
  let toks ← tokenize input
  let read ← parseOr rt (toks.length + 1) toks
  if read.2 = [] then return read.1 else invalid "trailing tokens"

/-! ## Flat searches from text -/

/-- One `name="value"` of a selector. It is cut at the first `=`, so that only an operator written
before the `=` is seen. -/
def legacyClause (pair : List Char) : Option (Clause F) := do
  let (k, v) ← splitOnce ['='] (trim pair)
  let k := trim k
  let v := String.ofList (trimMatches (· = '"') (trim v))
  if String.ofList k = "__name__" then none
  else if k.getLast? = some '~' then
    some (.re (String.ofList (trim k.dropLast)) s!"^{v}$")
  else if k.head? = some '!' then
    some (.ne (String.ofList (trim (k.dropWhile (· = '!')))) v)
  else some (.eq (String.ofList k) v)

def parseLegacySelector (selector : List Char) : SearchQuery F :=
  let inner := ((selector.dropWhile (· = '\x7b')).reverse.dropWhile (· = '\x7d')).reverse
  ⟨(inner.splitOn ',').filterMap legacyClause, []⟩

def fallbackTerms (text : List Char) : List SearchTerm :=
  ((text.splitOnP isWhitespace).filter (· ≠ [])).map fun tok =>
    ⟨rt.toLowercase (String.ofList (trimMatches (· = '"') tok)), false, false, false⟩

def isBraced (text : List Char) : Bool :=
  text.head? = some '\x7b' && text.getLast? = some '\x7d'

def parseSearch (query : List Char) : SearchQuery F :=
  let text := trim query
  if text = [] ∨ text = ['\x7b', '\x7d'] then .default
  else if isBraced text then parseLegacySelector text
  else
    match parsePredicate rt text with
    | .ok pred => (flattenAnd pred).getD .default
    | .error _ => ⟨[], fallbackTerms rt text⟩

/-! ## A token read or refused -/

theorem readString_length {s rest : List Char} (h : readString cs = some (s, rest)) :
    rest.length < cs.length := by
  induction cs using readString.induct generalizing s rest with
  | case1 => cases h
  | case2 c cs ih =>
    obtain ⟨⟨s', rest'⟩, h', heq⟩ := Option.map_eq_some_iff.mp h
    cases heq
    exact (ih h').trans (Nat.lt_add_of_pos_right Nat.two_pos)
  | case3 cs =>
    cases h
    exact Nat.lt_succ_self _
  | case4 c cs hslash hquote ih =>
    rw [readString.eq_4 c cs hslash hquote] at h
    obtain ⟨⟨s', rest'⟩, h', heq⟩ := Option.map_eq_some_iff.mp h
    cases heq
    exact lt_succ_of_lt (ih h')

theorem readOp_length (c : Char) (cs : List Char) : (readOp c cs).2.length ≤ cs.length := by
  unfold readOp
  split <;> simp

theorem readToken_answers (c : Char) (cs : List Char) :
    Answers (fun read => read.2.length ≤ cs.length) (readToken c cs) := by
  unfold readToken
  dsimp only
  split_ifs
  · exact le_rfl
  · exact le_rfl
  · cases h : readString cs with
    | none => rfl
    | some read => exact (readString_length h).le
  · exact readOp_length c cs
  · exact length_dropWhile_le _ cs
  · exact (length_dropWhile_le _ _).trans (length_dropWhile_le _ cs)
  · exact length_dropWhile_le _ cs

end

/-! ## Blanks around a text -/

section
variable {blanks : List Char} (hblanks : ∀ c ∈ blanks, isWhitespace c = true)
include hblanks

theorem takeWhile_blanks {q : Char → Bool} (hq : ∀ c, isWhitespace c = true → q c = false)
    (cs : List Char) : (cs ++ blanks).takeWhile q = cs.takeWhile q ∧
      (cs ++ blanks).dropWhile q = cs.dropWhile q ++ blanks := by
  induction cs with
  | nil =>
    cases blanks with
    | nil => exact ⟨rfl, rfl⟩
    | cons b bs =>
      have := hq b (hblanks b mem_cons_self)
      simp [this]
  | cons c cs ih =>
    by_cases hc : q c = true
    · simp [hc, ih]
    · simp [hc]

theorem readString_blanks (cs : List Char) : readString (cs ++ blanks) =
    (readString cs).map fun read => (read.1, read.2 ++ blanks) := by
  have hnone {bs : List Char} (hbs : ∀ c ∈ bs, isWhitespace c = true) : readString bs = none := by
    induction bs with
    | nil => rfl
    | cons b bs ih =>
      have hb := hbs b mem_cons_self
      have hslash : ∀ c cs, b = '\\' → bs = c :: cs → False := by
        rintro c cs rfl
        exact absurd hb (by decide)
      have hquote : b = '"' → False := by
        rintro rfl
        exact absurd hb (by decide)
      rw [readString.eq_4 b bs hslash hquote, ih fun c hc => hbs c (mem_cons_of_mem b hc)]
      rfl
  induction cs using readString.induct with
  | case1 => exact hnone hblanks
  | case2 c cs ih =>
    simp only [cons_append, readString, ih, Option.map_map]
    rfl
  | case3 cs => rfl
  | case4 c cs hslash hquote ih =>
    rw [readString.eq_4 c cs hslash hquote, cons_append]
    by_cases hend : c = '\\' ∧ cs = []
    · -- the backslash takes a blank, and there is no quote after it
      obtain ⟨rfl, rfl⟩ := hend
      cases blanks with
      | nil => rfl
      | cons b bs =>
        have hbs := hnone fun c hc => hblanks c (mem_cons_of_mem b hc)
        simp only [nil_append, readString, hbs]
        rfl
    · have hslash' : ∀ c' cs', c = '\\' → cs ++ blanks = c' :: cs' → False := by
        rintro c' cs' rfl -
        cases cs with
        | nil => exact hend ⟨rfl, rfl⟩
        | cons d ds => exact hslash d ds rfl rfl
      rw [readString.eq_4 c (cs ++ blanks) hslash' hquote, ih, Option.map_map, Option.map_map]
      rfl

theorem readOp_blanks (c : Char) (cs : List Char) :
    readOp c (cs ++ blanks) = ((readOp c cs).1, (readOp c cs).2 ++ blanks) := by
  cases cs with
  | nil =>
    cases blanks with
    | nil => simp
    | cons b bs =>
      have hb := hblanks b mem_cons_self
      have heq : b ≠ '=' := by
        rintro rfl
        exact absurd hb (by decide)
      have htilde : b ≠ '~' := by
        rintro rfl
        exact absurd hb (by decide)
      unfold readOp
      split <;> simp_all
  | cons d ds =>
    unfold readOp
    split <;> simp_all

theorem dropWhile_blanks (cs : List Char) : ∃ left : List Char,
    (∀ c ∈ left, isWhitespace c = true) ∧ left.length ≤ blanks.length ∧
      (cs ++ blanks).dropWhile isWhitespace = cs.dropWhile isWhitespace ++ left := by
  rw [dropWhile_append]
  split_ifs with h
  · have hnone : blanks.dropWhile isWhitespace = [] := dropWhile_eq_nil_iff.mpr hblanks
    refine ⟨[], nofun, zero_le _, ?_⟩
    rw [hnone, isEmpty_iff.mp h]
    rfl
  · exact ⟨blanks, hblanks, le_rfl, rfl⟩

theorem readToken_blanks (c : Char) (cs : List Char) :
    ∃ left : List Char, (∀ c ∈ left, isWhitespace c = true) ∧ left.length ≤ blanks.length ∧
      readToken c (cs ++ blanks) = (readToken c cs).map fun read => (read.1, read.2 ++ left) := by
  have hvalue :
      ∀ c, isWhitespace c = true → isValueChar c = false := by simp +contextual [isValueChar]
  have hterm : ∀ c, isWhitespace c = true → isTermChar c = false := by simp +contextual [isTermChar]
  by_cases hcolon : c = ':'
  · subst hcolon
    obtain ⟨left, hleft, hlen, hdrop⟩ := dropWhile_blanks hblanks cs
    have htail := takeWhile_blanks hleft hvalue (cs.dropWhile isWhitespace)
    refine ⟨left, hleft, hlen, ?_⟩
    have hcolon : ':' ∉ ['>', '<', '!', '='] := by decide
    simp only [readToken, Char.reduceEq, if_false, if_neg hcolon, if_true, hdrop, htail.1, htail.2]
    split_ifs <;> rfl
  · refine ⟨blanks, hblanks, le_rfl, ?_⟩
    have htail := takeWhile_blanks hblanks hterm cs
    simp only [readToken, if_neg hcolon, readString_blanks hblanks, readOp_blanks hblanks, htail.1,
      htail.2]
    split_ifs
    · rfl
    · rfl
    · cases readString cs <;> rfl
    · rfl
    · rfl

theorem tokenLoop_blanks {m n : ℕ} (hm : (cs ++ blanks).length < m) (hn : cs.length < n) :
    tokenLoop m (cs ++ blanks) = tokenLoop n cs := by
  induction n generalizing m cs blanks with
  | zero => cases hn
  | succ n ih =>
    cases cs with
    | nil =>
      induction m generalizing blanks with
      | zero => cases hm
      | succ m ih =>
        cases blanks with
        | nil => rfl
        | cons b bs =>
          have hskip : tokenLoop (m + 1) (b :: bs) = tokenLoop m bs :=
            if_pos (hblanks b mem_cons_self)
          exact hskip.trans
            (ih (fun c hc => hblanks c (mem_cons_of_mem b hc)) (lt_of_succ_lt_succ hm))
    | cons c cs =>
      cases m with
      | zero => cases hm
      | succ m =>
        have hm' : (cs ++ blanks).length < m := lt_of_succ_lt_succ hm
        have hn' : cs.length < n := lt_of_succ_lt_succ hn
        rw [cons_append, tokenLoop, tokenLoop]
        split_ifs
        · exact ih hblanks hm' hn'
        · obtain ⟨left, hleft, hlen, hread⟩ := readToken_blanks hblanks c cs
          have hshort := readToken_answers c cs
          rw [hread]
          cases h : readToken c cs with
          | error fault => rfl
          | ok read =>
            rw [h] at hshort
            have hle : read.2.length ≤ cs.length := hshort
            have hleft' : (read.2 ++ left).length < m := by
              rw [length_append] at hm' ⊢
              omega
            change (do return read.1 ++ (← tokenLoop m (read.2 ++ left))) = _
            rw [ih hleft hleft' (hle.trans_lt hn'), ok_bind]

end

theorem tokenize_blank (c : Char) (cs : List Char) (h : isWhitespace c = true) :
    tokenize (c :: cs) = tokenize cs := by
  rw [tokenize, tokenLoop, if_pos h]
  rfl

/-- **Blanks around a text do not matter**, also where it ends in an open string. -/
theorem tokenize_trim (cs : List Char) : tokenize (trim cs) = tokenize cs := by
  have hfront (cs : List Char) : tokenize (cs.dropWhile isWhitespace) = tokenize cs := by
    induction cs with
    | nil => rfl
    | cons c cs ih =>
      rw [dropWhile_cons]
      split_ifs with hc
      · rw [ih, tokenize_blank c cs hc]
      · rfl
  have hback (cs : List Char) :
      tokenize (cs.reverse.dropWhile isWhitespace).reverse = tokenize cs := by
    have hsplit := takeWhile_append_dropWhile (p := isWhitespace) (l := cs.reverse)
    have hcs : cs = (cs.reverse.dropWhile isWhitespace).reverse ++
        (cs.reverse.takeWhile isWhitespace).reverse := by
      rw [← reverse_append, hsplit, reverse_reverse]
    have hblanks : ∀ c ∈ (cs.reverse.takeWhile isWhitespace).reverse, isWhitespace c = true :=
      fun c hc => mem_takeWhile_imp (mem_reverse.mp hc)
    conv_rhs => rw [hcs]
    exact (tokenLoop_blanks hblanks (Nat.lt_succ_self _) (Nat.lt_succ_self _)).symm
  rw [trim, hback, hfront]

theorem parsePredicate_trim {F Rx : Type} (rt : QlRuntime F Rx) (cs : List Char) :
    parsePredicate rt (trim cs) = parsePredicate rt cs := by
  unfold parsePredicate
  rw [tokenize_trim]

end Parqtel.Query.Ql
