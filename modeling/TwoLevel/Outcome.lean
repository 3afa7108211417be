import TwoLevel.Formula.Basic

/-!
# What an engine leaves behind

Both engines take a formula and give back two: the formula itself, which is only marked as
minimized, and a new one with the same names and form over the cover that was found.  If the run
was to be traced there is also a record of it, of a kind that depends on the engine.
-/

set_option autoImplicit false

namespace TwoLevel

variable {n : Nat}

/-- The result of a run of an engine. -/
structure Outcome (n : Nat) (Trace : Type) where
  /-- The formula, marked as minimized and otherwise as it was. -/
  given : Formula n
  /-- The formula over the cover that was found. -/
  minimized : Formula n
  /-- The record of the run, if one was asked for. -/
  trace : Option Trace

namespace Formula

/-- The formula marked as minimized. -/
def mark (f : Formula n) : Formula n := { f with minimized := true }

/-- The minimized formula over a cover of a formula. -/
def minimizedTo (f : Formula n) (cover : Cover n) : Formula n :=
  { f.derive cover with phase := .minimized, minimized := true }

end Formula

end TwoLevel
