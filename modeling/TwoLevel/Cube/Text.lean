import TwoLevel.Cube.Basic

/-!
# Writing cubes

A cube is written in two ways.  As a **bit string** it is one character for each position, the
most significant first.  In **algebraic form** its explicit positions are named: in a sum of
products the cube is a product of names, those at zero followed by a prime; in a product of sums it
is a bracketed sum, and because such a term is false exactly where every variable takes its value
in the term, there it is the names at one that get the prime.  The cube with every position missing
has no names to write, so it is the constant of its form.

The first name belongs to the most significant position.
-/

set_option autoImplicit false

namespace TwoLevel.Cube

variable {n : Nat}

/-- The literals, most significant position first. -/
def literalList (c : Cube n) : List Literal := (List.range n).reverse.map c.value

/-- The bit string of a cube, as characters. -/
def chars (c : Cube n) : List Char := c.literalList.map Literal.toChar

/-- The bit string of a cube. -/
def text (c : Cube n) : String := String.ofList c.chars

/-- The names of the explicit positions with their literals, in the order of the names. -/
def named (c : Cube n) (vars : List Char) : List (Char × Literal) :=
  (vars.zip c.literalList).filter fun nl ↦ nl.2 != .missing

/-- A name, with a prime where it is negated. -/
def nameChars (negated : Literal) (nl : Char × Literal) : List Char :=
  if nl.2 = negated then [nl.1, '\''] else [nl.1]

/-- The algebraic form of a cube as a term of the given form, as characters. -/
def algebraicChars (form : Form) (vars : List Char) (c : Cube n) : List Char :=
  match form with
  | .sumOfProducts =>
    if c.isFull then ['1'] else (c.named vars).flatMap (nameChars .zero)
  | .productOfSums =>
    if c.isFull then ['0']
    else '(' :: [' ', '+', ' '].intercalate ((c.named vars).map (nameChars .one)) ++ [')']

/-- The algebraic form of a cube as a term of the given form. -/
def algebraic (form : Form) (vars : List Char) (c : Cube n) : String :=
  String.ofList (c.algebraicChars form vars)

end TwoLevel.Cube
