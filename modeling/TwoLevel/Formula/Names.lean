import TwoLevel.Error

/-!
# Names of variables

A variable is named by one lower case letter, and no two variables of a formula by the same, so a
formula has at most twenty-six of them.  Where nobody chose names they are the first letters of the
alphabet, the last of them for the most significant position: `c, b, a` for three variables.

Names that someone did choose are checked for their number, then for being letters, then for being
different, and the first of these to fail is what is reported.
-/

set_option autoImplicit false

namespace TwoLevel.Names

/-- Whether a character can name a variable. -/
def isName (c : Char) : Bool := 'a' ≤ c && c ≤ 'z'

/-- The name of the least significant variable if none was chosen. -/
def first : Char := 'a'

/-- The names of `n` variables for which none were chosen. -/
def default (n : Nat) : List Char :=
  (List.range n).reverse.map fun i ↦ Char.ofNat (first.toNat + i)

/-- Refuses names that cannot be those of `n` variables. -/
def check (n : Nat) (names : List Char) : Except Error Unit :=
  if names.length ≠ n then .error (.invalidVariables (.countMismatch names.length n))
  else if names.any (!isName ·) then
    .error (.invalidVariables (.notLowerCase (names.filter (!isName ·))))
  else if ¬ names.Nodup then .error (.invalidVariables .repeated)
  else .ok ()

end TwoLevel.Names
