import Parqtel.Query.Platform

/-!
# Exact numbers as the platform's doubles

A platform whose numbers are the rationals, with `none` for what is not a number. It is the
platform on which concrete queries are run here. An infinity is represented by `none` too,
which `min` and `max` pass over as they pass over NaN. Roots, trigonometry and regular
expressions are left out.
-/

namespace Parqtel.Query

namespace Exact

def lift₂ (f : ℚ → ℚ → ℚ) (a b : Option ℚ) : Option ℚ :=
  match a, b with
  | some x, some y => some (f x y)
  | _, _ => none

def test (f : ℚ → ℚ → Bool) (a b : Option ℚ) : Bool :=
  match a, b with
  | some x, some y => f x y
  | _, _ => false

/-- `min` and `max` return the operand that is a number. -/
def pick (f : ℚ → ℚ → ℚ) (a b : Option ℚ) : Option ℚ :=
  match a, b with
  | some x, some y => some (f x y)
  | some x, none | none, some x => some x
  | none, none => none

def div (a b : Option ℚ) : Option ℚ := if b = some 0 then none else lift₂ (· / ·) a b

def trunc (x : ℚ) : ℤ := x.num.tdiv x.den

def rem (a b : Option ℚ) : Option ℚ :=
  if b = some 0 then none else lift₂ (fun x y => x - y * trunc (x / y)) a b

def round (x : ℚ) : ℤ := if 0 ≤ x then (x + 1 / 2).floor else (x - 1 / 2).ceil

def math (f : MathFn) (a : Option ℚ) : Option ℚ :=
  match f, a with
  | .abs, some x => some |x|
  | .ceil, some x => some x.ceil
  | .floor, some x => some x.floor
  | _, _ => none

def digits (cs : List Char) : Option ℕ :=
  if cs ≠ [] ∧ cs.all fun c => '0' ≤ c ∧ c ≤ '9' then
    some (cs.foldl (fun n c => 10 * n + (c.toNat - '0'.toNat)) 0)
  else none

def before (descending : Bool) (a b : Option ℚ) : Bool :=
  if descending then !test (· < ·) a b else !test (· < ·) b a

end Exact

open Exact in
def exact : Platform (Option ℚ) where
  ofRat := some
  nan := none
  infinity := none
  negInfinity := none
  negZero := some 0
  pi := none
  add := lift₂ (· + ·)
  sub := lift₂ (· - ·)
  mul := lift₂ (· * ·)
  div := div
  rem := rem
  powf _ _ := none
  atan2 _ _ := none
  min := pick min
  max := pick max
  math := math
  round a := a.map fun x => round x
  fract a := a.map fun x => x - trunc x
  eq := test fun x y => x = y
  lt := test fun x y => x < y
  le := test fun x y => x ≤ y
  isNan a := a.isNone
  isFinite a := a.isSome
  toUsize a := (a.elim 0 trunc).toNat
  toI64 a := a.elim 0 trunc
  parse s := (digits s.toList).map fun n => some (n : ℚ)
  display a := a.elim "NaN" toString
  sortBy key descending xs := some (xs.insertionSort fun a b => before descending (key a) (key b))
  sortBy_perm h := Option.some.inj h ▸ List.perm_insertionSort _ _
  regex _ := .error "unsupported"
  datetime _ := none
  hash _ := 0
  debug _ := ""

end Parqtel.Query
