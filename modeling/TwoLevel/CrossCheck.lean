import TwoLevel.Espresso
import TwoLevel.QuineMcCluskey
import TwoLevel.Formula.Text

/-!
# Checking the engines against each other

A cross check minimizes each of some formulas with both engines, makes sure that either cover agrees
with the formula wherever the output matters, and adds up how large the covers are.  It stops at the
first cover that is wrong.

Formulas are drawn with up to a given number of variables.  The limit on that number is checked
before any formula is drawn.
-/

set_option autoImplicit false

namespace TwoLevel.CrossCheck

/-- The largest number of variables of a formula in a cross check. -/
def maxVariables : Nat := 10

/-- Why a cross check stopped. -/
inductive Failure where
  /-- Formulas of this many variables are not drawn. -/
  | variablesOutOfRange (size : Nat)
  /-- The cover of an engine differs from the formula at an index. -/
  | wrongCover (number : Nat) (formula engine cover : String) (index : Nat)
deriving DecidableEq, Repr

/-- The text of a failure. -/
def Failure.message : Failure → String
  | .variablesOutOfRange size =>
    "number of variables " ++ toString size ++ " must be in range 1..="
      ++ toString maxVariables
  | .wrongCover number formula engine cover index =>
    "formula " ++ toString number ++ " (" ++ formula ++ "): " ++ engine ++ " cover " ++ cover
      ++ " is wrong at index " ++ toString index

/-- What a cross check adds up. -/
structure Summary where
  /-- The number of formulas checked. -/
  formulas : Nat
  /-- The number of terms in all Quine–McCluskey covers. -/
  quineMcCluskeyTerms : Nat
  /-- The number of terms in all Espresso covers. -/
  espressoTerms : Nat
  /-- The number of formulas for which Espresso found fewer terms. -/
  espressoSmaller : Nat
  /-- The number of formulas for which Espresso found more terms. -/
  espressoLarger : Nat
deriving DecidableEq, Repr

namespace Summary

/-- The summary of no formulas. -/
def empty : Summary := ⟨0, 0, 0, 0, 0⟩

/-- The summary with one more formula, given the sizes of its two covers. -/
def record (s : Summary) (quineMcCluskey espresso : Nat) : Summary where
  formulas := s.formulas + 1
  quineMcCluskeyTerms := s.quineMcCluskeyTerms + quineMcCluskey
  espressoTerms := s.espressoTerms + espresso
  espressoSmaller := s.espressoSmaller + if espresso < quineMcCluskey then 1 else 0
  espressoLarger := s.espressoLarger + if quineMcCluskey < espresso then 1 else 0

/-- The text of a summary. -/
def text (s : Summary) : String :=
  toString s.formulas ++ " formulas: " ++ toString s.quineMcCluskeyTerms
    ++ " terms (quine-mccluskey), " ++ toString s.espressoTerms
    ++ " terms (espresso); espresso smaller in " ++ toString s.espressoSmaller
    ++ ", larger in " ++ toString s.espressoLarger

end Summary

/-- Refuses a number of variables for which formulas are not drawn. -/
def checkVariables (size : Nat) : Except Failure Unit :=
  if 1 ≤ size ∧ size ≤ maxVariables then .ok ()
  else .error (.variablesOutOfRange size)

/-- Refuses a cover that differs from its formula where the output matters. -/
def checkCover {n : Nat} (number : Nat) (engine : String) (f cover : Formula n) :
    Except Failure Unit :=
  match f.firstMismatch? cover with
  | none => .ok ()
  | some index => .error (.wrongCover number (f.indexForm false) engine cover.text index)

/-- The summary with the formulas checked, the first of which has the given number. -/
def runFrom (s : Summary) (number : Nat) : List AnyFormula → Except Failure Summary
  | [] => .ok s
  | ⟨_, f⟩ :: rest => do
    let exact := (QuineMcCluskey.minimize f false).minimized
    checkCover number "quine-mccluskey" f exact
    let heuristic := (Espresso.minimize none f false).minimized
    checkCover number "espresso" f heuristic
    runFrom (s.record exact.size heuristic.size) (number + 1) rest

/-- Checks formulas drawn with up to the given number of variables. -/
def run (size : Nat) (formulas : List AnyFormula) : Except Failure Summary := do
  checkVariables size
  runFrom Summary.empty 0 formulas

end TwoLevel.CrossCheck
