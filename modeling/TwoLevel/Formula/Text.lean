import TwoLevel.Formula.Basic
import TwoLevel.Cube.Text

/-!
# Writing formulas

**Algebraic form.**  The stored terms in their order: a sum of products has ` + ` between them, a
product of sums nothing, since its terms are bracketed.  Without terms a formula is its implicit
constant.  Don't cares are not written.

**Index form.**  The indices of the explicit output, after `Em` for a sum of products and `PM` for a
product of sums, and if there are don't cares their indices too, after `Ed` or `Pd`.

Either may be headed by the name of the function and its variables; the algebraic form usually is,
the index form usually is not.
-/

set_option autoImplicit false

namespace TwoLevel

/-- A number in decimal digits. -/
def decimal (k : Nat) : List Char := Nat.toDigits 10 k

namespace Formula

variable {n : Nat}

/-- The name of the function with its variables, as in `f(c,b,a) = `. -/
def header (f : Formula n) : List Char :=
  f.name :: '(' :: [','].intercalate (f.vars.map fun c ↦ [c]) ++ [')', ' ', '=', ' ']

/-- What is written between two terms. -/
def separator : Form → List Char
  | .sumOfProducts => [' ', '+', ' ']
  | .productOfSums => []

/-- The stored terms in algebraic form. -/
def algebraicChars (f : Formula n) : List Char :=
  if f.terms.isEmpty then [f.form.implicit.toChar]
  else (separator f.form).intercalate (f.terms.map (Cube.algebraicChars f.form f.vars))

/-- The formula in algebraic form, with its header if wanted. -/
def algebraic (f : Formula n) (withHeader : Bool) : String :=
  String.ofList ((if withHeader then f.header else []) ++ f.algebraicChars)

/-- The indices of some points, between brackets and with commas. -/
def indexList (xs : List (BitVec n)) : List Char :=
  '(' :: [','].intercalate (xs.map fun x ↦ decimal x.toNat) ++ [')']

/-- The sign for the whole expression, and the one for its explicit indices. -/
def indexSigns : Form → Char × Char
  | .sumOfProducts => ('E', 'm')
  | .productOfSums => ('P', 'M')

/-- The indices of the explicit output and of the don't cares. -/
def indexChars (f : Formula n) : List Char :=
  let (whole, explicit) := indexSigns f.form
  let dontCares := f.store.points .dontCare
  whole :: explicit :: indexList (f.store.points f.form.explicit) ++
    (if dontCares.isEmpty then [] else ' ' :: '+' :: ' ' :: whole :: 'd' :: indexList dontCares)

/-- The formula in index form, with its header if wanted. -/
def indexForm (f : Formula n) (withHeader : Bool) : String :=
  String.ofList ((if withHeader then f.header else []) ++ f.indexChars)

/-- The text a formula is shown by. -/
def text (f : Formula n) : String := f.algebraic true

end Formula

end TwoLevel
