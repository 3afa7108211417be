import TwoLevel.Store
import TwoLevel.Phase
import TwoLevel.Formula.Names
import TwoLevel.Cover.Cost

/-!
# Formulas

A **formula** is a stored function with a name, a name for each of its variables, and a record of
how far it has come through minimization.  That record is two things: a `Phase`, which is shown, and
a flag that says whether the formula as it stands has been minimized.  Any change of the function or
of its form clears the flag and puts the phase back to the start; a change that turns out to be
none, or a change of names, touches neither.

What is here: the type, its mutators, and what can be asked of it.  How formulas are made is in
`Formula/Construct.lean`, how they are written in `Formula/Text.lean`.
-/

set_option autoImplicit false

namespace TwoLevel

/-- A Boolean function of named variables. -/
structure Formula (n : Nat) where
  /-- The function. -/
  store : Store n
  /-- The name of the function. -/
  name : Char
  /-- The names of the variables, that of the most significant position first. -/
  vars : List Char
  /-- How far it has come through minimization. -/
  phase : Phase
  /-- Whether it has been minimized since it last changed. -/
  minimized : Bool

/-- The points of the space, sorted by what a function does to them. -/
structure Partition (n : Nat) where
  /-- The points with the explicit output. -/
  on : List (BitVec n)
  /-- The points whose output does not matter. -/
  dontCare : List (BitVec n)
  /-- The points with the implicit output. -/
  off : List (BitVec n)

namespace Formula

variable {n : Nat}

/-- The name of a function to which none was given. -/
def defaultName : Char := 'f'

/-- The formula over a store that no work has been done on. -/
def ofStore (store : Store n) (name : Char) (vars : List Char) : Formula n :=
  { store, name, vars, phase := .complete, minimized := false }

/-- The formula with the same names and form over a cover, each cube once. -/
def derive (f : Formula n) (cover : Cover n) : Formula n :=
  ofStore (Store.ofTerms f.store.form cover) f.name f.vars

/-! ## Changing a formula -/

/-- The formula over another store, its progress lost if the function changed. -/
def update (f : Formula n) (changed : Bool) (store : Store n) : Formula n :=
  if changed then { f with store, phase := .complete, minimized := false } else { f with store }

/-- Sets the output at an index, and says whether anything changed. -/
def setAt (f : Formula n) (index : Nat) (output : Output) : Except Error (Bool × Formula n) := do
  let (changed, store) ← f.store.setAt index output
  .ok (changed, f.update changed store)

/-- Sets the output at an index to what a stored term or a stored don't care stands for. -/
def push (f : Formula n) (index : Nat) (isDontCare : Bool) : Except Error (Bool × Formula n) :=
  f.setAt index (if isDontCare then .dontCare else f.store.form.explicit)

/-- Sets the output at an index to that of an index nothing is stored for. -/
def remove (f : Formula n) (index : Nat) : Except Error (Bool × Formula n) :=
  f.setAt index f.store.form.implicit

/-- Goes over to the given form, and says whether that is a change. -/
def setForm (f : Formula n) (form : Form) : Bool × Formula n :=
  let (changed, store) := f.store.setForm form
  (changed, f.update changed store)

/-- Renames the function. -/
def setName (f : Formula n) (name : Char) : Formula n := { f with name }

/-- Renames the variables, if the names can be theirs. -/
def setVars (f : Formula n) (vars : List Char) : Except Error (Formula n) := do
  Names.check n vars
  .ok { f with vars }

/-- Goes back to the names that variables have when nobody chose any. -/
def setDefaultVars (f : Formula n) : Formula n := { f with vars := Names.default n }

/-! ## Asking a formula -/

/-- The form of the formula. -/
def form (f : Formula n) : Form := f.store.form

/-- The stored terms. -/
def terms (f : Formula n) : Cover n := f.store.terms

/-- The stored don't cares. -/
def dontCares (f : Formula n) : Cover n := f.store.dontCares

/-- The number of stored terms, without don't cares. -/
def size (f : Formula n) : Nat := f.terms.length

/-- The stored term with the given number. -/
def termAt (f : Formula n) (number : Nat) : Except Error (Cube n) :=
  match f.terms[number]? with
  | some c => .ok c
  | none => .error (.invalidPosition number f.size)

/-- The space divided into explicit points, don't cares and the rest. -/
def partition (f : Formula n) : Partition n where
  on := f.store.expandedTerms
  dontCare := f.store.expandedDontCares
  off := f.store.complement.get

/-- Whether the formula shows on its face that it is always one. -/
def isTautology (f : Formula n) : Bool :=
  match f.form with
  | .sumOfProducts => f.terms.any Cube.isFull
  | .productOfSums => f.terms.isEmpty

/-- Whether the formula shows on its face that it is always zero. -/
def isContradiction (f : Formula n) : Bool :=
  match f.form with
  | .sumOfProducts => f.terms.isEmpty
  | .productOfSums => f.terms.any Cube.isFull

/-- Whether two formulas have the same terms and don't cares, and, if asked, the same variables. -/
def equal (f g : Formula n) (withVars : Bool) : Bool :=
  f.store.equal g.store && (!withVars || f.vars == g.vars)

/-- The least index at which another cover of the function is wrong, don't cares aside. -/
def firstMismatch? (f cover : Formula n) : Option Nat :=
  firstBelow (fun i ↦
    let x := BitVec.ofNat n i
    !f.dontCares.covers x && (f.terms.covers x != cover.terms.covers x)) (numPoints n)

end Formula

/-- A formula together with its number of variables. -/
abbrev AnyFormula := (n : Nat) × Formula n

/-- Whether two formulas have as many variables, the same terms and don't cares, and, if asked, the
same variables. -/
def AnyFormula.equal (f g : AnyFormula) (withVars : Bool) : Bool :=
  if h : g.1 = f.1 then f.2.equal (h ▸ g.2) withVars else false

end TwoLevel
