/-!
# Literals, outputs and the two forms

A Boolean function of `n` variables is kept in one of two **forms**.  In a sum of products the
stored terms are the places where the function is one; in a product of sums they are the places
where it is zero.  Everything the two forms disagree on is read off `Form` here — which output a
stored term stands for, which output an unlisted index has, which literal the implicant table
counts — so that no algorithm further on has to ask again.

What is here:

* `Literal`, the value at one position of a cube, and `Output`, the value of a function at an index;
* `Form`, with `explicit`, `implicit` and `countedLiteral`.
-/

set_option autoImplicit false

namespace TwoLevel

/-! ## Literals and outputs -/

/-- The value at one position of a cube; a missing position may be either. -/
inductive Literal where
  | zero
  | one
  | missing
deriving DecidableEq, Repr

/-- A literal is written `0`, `1` or `-`. -/
def Literal.toChar : Literal → Char
  | .zero => '0'
  | .one => '1'
  | .missing => '-'

/-- The value of a Boolean function at an index; a don't care may be either. -/
inductive Output where
  | zero
  | one
  | dontCare
deriving DecidableEq, Repr

/-- An output is written `0`, `1` or `X`. -/
def Output.toChar : Output → Char
  | .zero => '0'
  | .one => '1'
  | .dontCare => 'X'

/-! ## The two forms -/

/-- A function is written as a sum of products or as a product of sums. -/
inductive Form where
  | sumOfProducts
  | productOfSums
deriving DecidableEq, Repr

namespace Form

/-- The form of a function about which nothing else was said. -/
def default : Form := .sumOfProducts

/-- The short name of a form. -/
def name : Form → String
  | .sumOfProducts => "SOP"
  | .productOfSums => "POS"

/-- The output at an index that a stored term covers. -/
def explicit : Form → Output
  | .sumOfProducts => .one
  | .productOfSums => .zero

/-- The output at an index that nothing stored covers. -/
def implicit : Form → Output
  | .sumOfProducts => .zero
  | .productOfSums => .one

/-- The literal that the columns of the implicant table count. -/
def countedLiteral : Form → Literal
  | .sumOfProducts => .one
  | .productOfSums => .zero

theorem explicit_ne_implicit (form : Form) : form.explicit ≠ form.implicit := by
  cases form <;> decide

theorem explicit_ne_dontCare (form : Form) : form.explicit ≠ .dontCare := by
  cases form <;> decide

theorem implicit_ne_dontCare (form : Form) : form.implicit ≠ .dontCare := by
  cases form <;> decide

/-- In either form an output is a don't care, the explicit one or the implicit one. -/
theorem output_cases (form : Form) (output : Output) :
    output = .dontCare ∨ output = form.explicit ∨ output = form.implicit := by
  cases form <;> cases output <;> decide

/-- Of the outputs of a form the explicit one and the don't care are enough to tell them apart. -/
theorem output_ext (form : Form) {a b : Output} (hexplicit : a = form.explicit ↔ b = form.explicit)
    (hdc : a = .dontCare ↔ b = .dontCare) : a = b := by
  rcases form.output_cases a with ha | ha | ha
  · rw [ha, hdc.1 ha]
  · rw [ha, hexplicit.1 ha]
  · rcases form.output_cases b with hb | hb | hb
    · exact absurd ((hdc.2 hb).symm.trans ha) form.implicit_ne_dontCare.symm
    · exact absurd ((hexplicit.2 hb).symm.trans ha) form.explicit_ne_implicit
    · rw [ha, hb]

end Form

end TwoLevel
