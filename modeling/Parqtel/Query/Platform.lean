import Parqtel.Models

/-!
# What a query runs on

An evaluation ends with a value or with a `Fault`: an error that the code returns, a panic, an
`i64` operation that leaves its range, or never. The last three are what the code does not
intend. An operation out of range stops a debug build and wraps in a release build (`i64`).

`Platform F` is what the query code takes from the language and its libraries: the `f64` type
and its operations, the sort of a slice by `f64` keys, regular expressions, the calendar, the
hash of a group's labels and the debug form of a value. No law of arithmetic is assumed, so
that what is proved holds of doubles with their rounding and of exact numbers alike.
-/

namespace Parqtel.Query

/-- How an evaluation ends without a value. -/
inductive Fault where
  | error (e : Error)
  | panic
  | overflow
  | hang
deriving DecidableEq

abbrev Eval (α : Type) := Except Fault α

def invalid {α : Type} (message : String) : Eval α := .error (.error (.validation message))

/-- Ends other than a value or an error that the code returns. -/
def Fault.isCrash : Fault → Bool
  | .error _ => false
  | .panic | .overflow | .hang => true

/-! ## Sixty-four-bit time -/

inductive Build where
  | debug
  | release
deriving DecidableEq

def InI64 (z : ℤ) : Prop := -2 ^ 63 ≤ z ∧ z < 2 ^ 63

instance (z : ℤ) : Decidable (InI64 z) := inferInstanceAs (Decidable (_ ∧ _))

/-- The result of an operation on `i64` whose exact value is `z`. -/
def i64 (build : Build) (z : ℤ) : Eval ℤ :=
  if InI64 z then .ok z
  else match build with
    | .debug => .error .overflow
    | .release => .ok (z.bmod (2 ^ 64))

variable {build : Build} {z : ℤ}

theorem i64_of_in (h : InI64 z) : i64 build z = .ok z := if_pos h

theorem i64_debug_of_not (h : ¬ InI64 z) : i64 .debug z = .error .overflow := if_neg h

theorem bmod_inI64 (z : ℤ) : InI64 (z.bmod (2 ^ 64)) := by
  unfold InI64
  have h1 := Int.le_bmod (x := z) (m := 2 ^ 64) (by decide)
  have h2 := Int.bmod_lt (x := z) (m := 2 ^ 64) (by decide)
  omega

theorem bmod_of_in (h : InI64 z) : z.bmod (2 ^ 64) = z := by
  unfold InI64 at h
  exact Int.bmod_eq_of_le (by omega) (by omega)

theorem i64_inI64 {z' : ℤ} (h : i64 build z = .ok z') : InI64 z' := by
  unfold i64 at h
  split_ifs at h with hin
  · cases h
    exact hin
  · cases build with
    | debug => cases h
    | release =>
      cases h
      exact bmod_inI64 z

theorem i64_eq_error {e : Fault} :
    i64 build z = .error e ↔ e = .overflow ∧ build = .debug ∧ ¬ InI64 z := by
  unfold i64
  split_ifs with hin
  · exact iff_of_false nofun fun h => h.2.2 hin
  · cases build with
    | debug => exact ⟨fun h => ⟨(Except.error.inj h).symm, rfl, hin⟩, fun h => h.1 ▸ rfl⟩
    | release => exact iff_of_false nofun fun h => nomatch h.2.1

theorem i64_debug_eq_ok {z' : ℤ} : i64 .debug z = .ok z' ↔ z' = z ∧ InI64 z := by
  unfold i64
  split_ifs with hin
  · exact ⟨fun h => ⟨(Except.ok.inj h).symm, hin⟩, fun h => congrArg _ h.1.symm⟩
  · exact iff_of_false nofun fun h => hin h.2

theorem i64_release (z : ℤ) : i64 .release z = .ok (z.bmod (2 ^ 64)) := by
  unfold i64
  split_ifs with h
  · rw [bmod_of_in h]
  · rfl

/-! ## Libraries -/

/-- The unary functions that `math_fn` takes from `f64`. -/
inductive MathFn where
  | abs | ceil | floor | sqrt | exp | ln | log2 | log10
  | sin | cos | tan | asin | acos | atan | sinh | cosh | tanh | asinh | acosh | atanh
  | toDegrees | toRadians
deriving DecidableEq

structure Regex where
  isMatch : String → Bool
  /-- The groups from the first on; a group may take no part in a match. -/
  captures : String → Option (List (Option String))

/-- A point in time as the calendar has it, in UTC. -/
structure DateTime where
  year : ℤ
  month : ℕ
  day : ℕ
  hour : ℕ
  minute : ℕ
  numDaysFromSunday : ℕ
  ordinal : ℕ
deriving DecidableEq

def DateTime.unixEpoch : DateTime := ⟨1970, 1, 1, 0, 0, 4, 1⟩

structure Platform (F : Type) where
  ofRat : ℚ → F
  nan : F
  infinity : F
  negInfinity : F
  negZero : F
  pi : F
  add : F → F → F
  sub : F → F → F
  mul : F → F → F
  div : F → F → F
  rem : F → F → F
  powf : F → F → F
  atan2 : F → F → F
  min : F → F → F
  max : F → F → F
  math : MathFn → F → F
  round : F → F
  fract : F → F
  eq : F → F → Bool
  lt : F → F → Bool
  le : F → F → Bool
  isNan : F → Bool
  isFinite : F → Bool
  /-- The cast to `usize`, which saturates. -/
  toUsize : F → ℕ
  toI64 : F → ℤ
  parse : String → Option F
  display : F → String
  /-- `sort_by` with `partial_cmp` of the keys, NaN equal to everything. On keys that this does
  not order totally it may panic (`none`), and the order of its result is not specified. -/
  sortBy : {α : Type} → (key : α → F) → (descending : Bool) → List α → Option (List α)
  sortBy_perm : ∀ {α : Type} {key : α → F} {descending : Bool} {xs ys : List α},
    sortBy key descending xs = some ys → ys.Perm xs
  regex : String → Except String Regex
  datetime : ℤ → Option DateTime
  hash : List (String × Option String) → ℕ
  debug : {α : Type} → α → String

namespace Platform

variable {F : Type} (p : Platform F)

def zero : F := p.ofRat 0

def one : F := p.ofRat 1

def ofNat (n : ℕ) : F := p.ofRat n

def ofInt (n : ℤ) : F := p.ofRat n

/-- `iter().sum()`, which starts from `-0.0`. -/
def sum (xs : List F) : F := xs.foldl p.add p.negZero

def square (x : F) : F := p.mul x x

/-- `f64::clamp`, which asserts that the bounds are in order. -/
def clamp (x lo hi : F) : Eval F :=
  if p.le lo hi then .ok (if p.lt x lo then lo else if p.lt hi x then hi else x)
  else .error .panic

def inUnit (x : F) : Bool := p.le p.zero x && p.le x p.one

def sorted {α : Type} (key : α → F) (descending : Bool) (xs : List α) : Eval (List α) :=
  match p.sortBy key descending xs with
  | some ys => .ok ys
  | none => .error .panic

end Platform

end Parqtel.Query
