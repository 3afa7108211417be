import TwoLevel.Text.Quoted

/-!
# What can be wrong with an input

Minimization never fails: a function that is empty, constant or full of don't cares is an ordinary
input.  What fails is building or changing a term or a formula from something malformed, and every
such failure is one of the causes below.  The causes keep the numbers and names that were wrong;
the wording is made in one place, `Error.message`.
-/

set_option autoImplicit false

namespace TwoLevel

/-- The largest number of positions of a term. -/
def maxPositions : Nat := 31

/-- The largest number of variables that have names, one for each lower case letter. -/
def maxNamed : Nat := 26

/-! ## Causes -/

/-- What is wrong with the variables of a term or a formula. -/
inductive VariablesFault where
  /-- More positions than a term can have. -/
  | unsupported (requested : Nat)
  /-- More variables than there are letters to name them. -/
  | unnameable (requested : Nat)
  /-- A list of names of the wrong length. -/
  | countMismatch (given required : Nat)
  /-- Names that are not lower case letters, in the order given. -/
  | notLowerCase (names : List Char)
  /-- A name given twice. -/
  | repeated
  /-- A fault found and worded elsewhere. -/
  | other (reason : String)
deriving DecidableEq, Repr

/-- What can be wrong with an input. -/
inductive Error where
  /-- The number of variables, or their names. -/
  | invalidVariables (fault : VariablesFault)
  /-- An index that is not below `limit`. -/
  | invalidIndex (index limit : Nat)
  /-- A term with the wrong number of positions. -/
  | invalidTermSize (actual required : Nat)
  /-- A position outside a term, or a character there that is no literal. -/
  | invalidPosition (position size : Nat)
  /-- No term to take the number of variables from. -/
  | noTerms
  /-- An index that is listed twice, or not at all where every index has to be listed. -/
  | inconsistentSets (index : Nat)
deriving DecidableEq, Repr

/-! ## Wording -/

/-- The reason given for a fault in the variables. -/
def VariablesFault.reason : VariablesFault → String
  | .unsupported n =>
    toString n ++ " variables requested, at most " ++ toString maxPositions ++ " are supported"
  | .unnameable n =>
    toString n ++ " variables can't be named, at most " ++ toString maxNamed ++ " are available"
  | .countMismatch given required =>
    toString given ++ " names given for " ++ toString required ++ " variables"
  | .notLowerCase names =>
    "invalid names " ++ Text.quoted names ++ ", only lower case letters can be used"
  | .repeated => "names must be unique"
  | .other reason => reason

/-- The text shown for an error. -/
def Error.message : Error → String
  | .invalidVariables fault => "invalid variables: " ++ fault.reason
  | .invalidIndex index limit =>
    "invalid formula index: " ++ toString index ++ " (must be less than " ++ toString limit ++ ")"
  | .invalidTermSize actual required =>
    "invalid term: number of variables in term: " ++ toString actual
      ++ " (required: " ++ toString required ++ ")"
  | .invalidPosition position size =>
    "invalid term position: " ++ toString position ++ " (term size is " ++ toString size ++ ")"
  | .noTerms => "no terms were added"
  | .inconsistentSets index =>
    "index " ++ toString index
      ++ " is listed inconsistently in the on-set, don't care set and off-set"

/-! ## Size checks -/

/-- Refuses a number of positions that no term can have. -/
def checkSize (n : Nat) : Except Error Unit :=
  if n ≤ maxPositions then .ok () else .error (.invalidVariables (.unsupported n))

/-- Refuses a number of variables that cannot all be named. -/
def checkNameable (n : Nat) : Except Error Unit := do
  checkSize n
  if n ≤ maxNamed then .ok () else .error (.invalidVariables (.unnameable n))

theorem checkSize_eq_ok_iff {n : Nat} : checkSize n = .ok () ↔ n ≤ maxPositions := by
  unfold checkSize; split <;> simp_all

theorem checkNameable_eq_ok_iff {n : Nat} : checkNameable n = .ok () ↔ n ≤ maxNamed := by
  unfold checkNameable checkSize maxPositions maxNamed
  by_cases h : n ≤ 26
  · simp [h, show n ≤ 31 by omega, bind, Except.bind]
  · by_cases h' : n ≤ 31 <;> simp [h, h', bind, Except.bind]

/-! ## One step after another -/

/-- What comes after a check is reached when the check succeeds. -/
theorem bind_eq_ok_iff {ε α β : Type} {a : Except ε α} {f : α → Except ε β} {r : β} :
    a >>= f = .ok r ↔ ∃ x, a = .ok x ∧ f x = .ok r := by
  cases a with
  | error e => exact iff_of_false nofun nofun
  | ok x =>
    refine ⟨fun h ↦ ?_, ?_⟩
    · exact ⟨x, rfl, h⟩
    · rintro ⟨y, hxy, h⟩
      cases hxy
      exact h

theorem map_eq_ok_iff {ε α β : Type} {a : Except ε α} {f : α → β} {r : β} :
    a.map f = .ok r ↔ ∃ x, a = .ok x ∧ f x = r := by
  cases a with
  | error e => exact iff_of_false nofun nofun
  | ok x =>
    refine ⟨fun h ↦ ?_, ?_⟩
    · exact ⟨x, rfl, Except.ok.inj h⟩
    · rintro ⟨y, hxy, rfl⟩
      cases hxy
      rfl

end TwoLevel
