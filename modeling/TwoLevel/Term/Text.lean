import TwoLevel.Term.Basic
import TwoLevel.Cube.Text

/-!
# Reading terms

A term is read from a bit string, the most significant position first: `0` and `1` for the two
values and any of `-`, `x` and `X` for a missing position.  The text decides the size, so an empty
or overlong one is refused for its length before any character of it is looked at; after that the
leftmost character that is no literal is refused by its position.
-/

set_option autoImplicit false

namespace TwoLevel

/-- The literal a character stands for. -/
def Literal.ofChar? : Char → Option Literal
  | '0' => some .zero
  | '1' => some .one
  | '-' => some .missing
  | 'x' => some .missing
  | 'X' => some .missing
  | _ => none

/-- What is written is read back. -/
@[simp]
theorem Literal.ofChar?_toChar (l : Literal) : Literal.ofChar? l.toChar = some l := by
  cases l <;> rfl

namespace Term

/-- The cube whose most significant positions are still to be filled from the characters; the
position of the first one is the number of characters after it. -/
def readFrom (size : Nat) : List Char → Except Error (Cube size)
  | [] => .ok (Cube.minterm 0)
  | c :: cs =>
    match Literal.ofChar? c with
    | none => .error (.invalidPosition cs.length size)
    | some l => do
      let rest ← readFrom size cs
      match l with
      | .zero => .ok rest
      | .one => .ok (Cube.ofMasks (rest.literals ||| Mask.bit cs.length) rest.missing)
      | .missing => .ok (Cube.ofMasks rest.literals (rest.missing ||| Mask.bit cs.length))

/-- The term written as the given characters. -/
def ofChars (cs : List Char) : Except Error Term :=
  if cs.length = 0 ∨ maxPositions < cs.length then
    .error (.invalidTermSize cs.length (max 1 (min cs.length maxPositions)))
  else (readFrom cs.length cs).map (⟨cs.length, ·⟩)

/-- The term written as the given text. -/
def parse (s : String) : Except Error Term := ofChars s.toList

/-- The bit string of a term. -/
def text (t : Term) : String := t.cube.text

/-- The bit string of a term, marked as one. -/
def outline (t : Term) : String := "Term(" ++ t.text ++ ")"

end Term

end TwoLevel
