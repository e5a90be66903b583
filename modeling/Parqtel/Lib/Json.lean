import Mathlib

/-!
# JSON values and formats

A JSON value, and formats that write a type's values as JSON and read them back. Each way to
combine formats has a lemma that says which values survive (`Keeps`): a list survives if its
elements do, an optional value if it is not written as `null`. A float survives if it is finite,
because only finite floats have a JSON form, and if its own text reads back (`Floats.Survives`).
The text of a value is a parameter (`Text`); it keeps the texts of floats.
-/

namespace Parqtel.Lib

/-- A JSON value. `N` stands for the texts of floats. -/
inductive Json (N : Type) where
  | null
  | int (n : ℤ)
  | float (x : N)
  | str (s : String)
  | arr (elements : List (Json N))
  | obj (fields : List (String × Json N))

namespace Json

/-- The text form of JSON values. -/
structure Text (N T : Type) where
  print : Json N → T
  parse : T → Option (Json N)
  parse_print : ∀ j, parse (print j) = some j

/-- A way to write values and to read them. -/
structure Format (N α : Type) where
  write : α → Json N
  read : Json N → Option α

variable {N α β : Type}

namespace Format

def Keeps (f : Format N α) (a : α) : Prop := f.read (f.write a) = some a

/-! ## Scalars -/

def string : Format N String where
  write := .str
  read
    | .str s => some s
    | _ => none

def int : Format N ℤ where
  write := .int
  read
    | .int n => some n
    | _ => none

def nat : Format N ℕ where
  write n := .int n
  read
    | .int n => if 0 ≤ n then some n.toNat else none
    | _ => none

def byte : Format N UInt8 where
  write b := .int b.toNat
  read
    | .int n => if 0 ≤ n ∧ n < 256 then some (.ofNat n.toNat) else none
    | _ => none

theorem string_keeps (s : String) : (string : Format N String).Keeps s := rfl

theorem nat_keeps (n : ℕ) : (nat : Format N ℕ).Keeps n := by
  simp [Keeps, nat]

theorem byte_keeps (b : UInt8) : (byte : Format N UInt8).Keeps b := by
  have hb := b.toNat_lt
  have hin : (0 : ℤ) ≤ b.toNat ∧ (b.toNat : ℤ) < 256 := by omega
  unfold Keeps byte
  simp only [hin, and_self, if_true, Int.toNat_natCast, UInt8.ofNat_toNat]

/-! ## Floats -/

/-- What JSON needs to know of floats. -/
structure Floats (F : Type) where
  finite : F → Bool
  ofInt : ℤ → F
  /-- What is read from the text of a finite float. A reader that does not compute the nearest
  float may find another, or none. -/
  reread : F → Option F

abbrev Floats.Finite {F : Type} (fl : Floats F) := {x : F // fl.finite x}

def Floats.Survives {F : Type} (fl : Floats F) (x : F) : Prop := fl.finite x ∧ fl.reread x = some x

instance {F : Type} [DecidableEq F] (fl : Floats F) (x : F) : Decidable (fl.Survives x) :=
  inferInstanceAs (Decidable (_ ∧ _))

/-- A float that is not finite is written as `null`, which is no float. -/
def float {F : Type} (fl : Floats F) : Format fl.Finite F where
  write x := if h : fl.finite x then .float ⟨x, h⟩ else .null
  read
    | .float x => fl.reread x.1
    | .int n => some (fl.ofInt n)
    | _ => none

theorem float_keeps {F : Type} {fl : Floats F} {x : F} : (float fl).Keeps x ↔ fl.Survives x := by
  unfold Keeps float Floats.Survives
  by_cases h : fl.finite x <;> simp [h]

/-! ## Options, lists and pairs -/

def option (f : Format N α) : Format N (Option α) where
  write
    | none => .null
    | some a => f.write a
  read
    | .null => some none
    | j => (f.read j).map some

theorem option_keeps_none (f : Format N α) : f.option.Keeps none := rfl

variable {f : Format N α}

theorem option_keeps_some {a : α} : f.option.Keeps (some a) ↔ f.write a ≠ .null ∧ f.Keeps a := by
  unfold Keeps option
  cases f.write a <;> simp

def list (f : Format N α) : Format N (List α) where
  write l := .arr (l.map f.write)
  read
    | .arr js => js.mapM f.read
    | _ => none

theorem mapM_read_iff {l : List α} : (l.map f.write).mapM f.read = some l ↔ ∀ a ∈ l, f.Keeps a := by
  induction l with
  | nil => simp
  | cons a l ih =>
    simp only [List.map_cons, List.mapM_cons, List.forall_mem_cons]
    rw [← ih]
    unfold Keeps
    cases f.read (f.write a) <;> cases (l.map f.write).mapM f.read <;> simp

theorem list_keeps {l : List α} : f.list.Keeps l ↔ ∀ a ∈ l, f.Keeps a :=
  mapM_read_iff

def pair (f : Format N α) (g : Format N β) : Format N (α × β) where
  write p := .arr [f.write p.1, g.write p.2]
  read
    | .arr [j, k] => (f.read j).bind fun a => (g.read k).map fun b => (a, b)
    | _ => none

theorem pair_keeps {g : Format N β} {p : α × β} :
    (pair f g).Keeps p ↔ f.Keeps p.1 ∧ g.Keeps p.2 := by
  unfold Keeps pair
  obtain ⟨a, b⟩ := p
  simp [Option.bind_eq_some_iff]

/-! ## Fields -/

/-- The field of a struct. One that is missing or there twice is refused. -/
def field (f : Format N α) (key : String) (fields : List (String × Json N)) : Option α :=
  match fields.filter fun e => e.1 = key with
  | [(_, j)] => f.read j
  | _ => none

end Format

def fields : Json N → Option (List (String × Json N))
  | obj fs => some fs
  | _ => none

def get (j : Json N) (key : String) : Option (Json N) :=
  j.fields.bind fun fs => (fs.find? fun e => e.1 = key).map Prod.snd

def asArray : Json N → Option (List (Json N))
  | arr js => some js
  | _ => none

def asStr : Json N → Option String
  | str s => some s
  | _ => none

end Json

end Parqtel.Lib
