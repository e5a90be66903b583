import Mathlib

/-!
# Cutting text

Text as a list of characters, with the operations of the Rust standard library that parsers
written by hand use: `trim`, the first or last place where a text can be cut, and numbers.
-/

namespace Parqtel.Lib

def isWhitespace (c : Char) : Bool :=
  let n := c.toNat
  (9 ≤ n && n ≤ 13) || n == 0x20 || n == 0x85 || n == 0xA0 || n == 0x1680 ||
    (0x2000 ≤ n && n ≤ 0x200A) || n == 0x2028 || n == 0x2029 || n == 0x202F || n == 0x205F ||
    n == 0x3000

/-- `is_ascii_whitespace`, which leaves out the vertical tab. -/
def isAsciiWhitespace (c : Char) : Bool :=
  c == ' ' || c == '\t' || c == '\n' || c == '\r' || c.toNat == 0x0C

def trim (cs : List Char) : List Char :=
  ((cs.dropWhile isWhitespace).reverse.dropWhile isWhitespace).reverse

def trimMatches (p : Char → Bool) (cs : List Char) : List Char :=
  ((cs.dropWhile p).reverse.dropWhile p).reverse

def splitOnce (pat : List Char) : List Char → Option (List Char × List Char)
  | [] => if pat = [] then some ([], []) else none
  | c :: cs =>
    if pat.isPrefixOf (c :: cs) then some ([], (c :: cs).drop pat.length)
    else (splitOnce pat cs).map fun (before, after) => (c :: before, after)

def stripStart (start cs : List Char) : Option (List Char) := start.isPrefixOf? cs

def parseUsize (digits : List Char) : Option ℕ :=
  let ds := if digits.head? = some '+' then digits.tail else digits
  if ds ≠ [] ∧ ds.all Char.isDigit then
    some (Nat.ofDigitChars 10 ds 0) |>.filter fun n => n < 2 ^ 64
  else none

end Parqtel.Lib
