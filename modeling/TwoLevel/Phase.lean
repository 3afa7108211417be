/-!
# Phases and engines

Minimization is reported in **phases**: a formula starts out complete, Espresso takes its cover
through three phases over and over, and what either engine answers with is minimized.  Phases are
shown to whoever looks at a formula or at a trace, and no algorithm branches on them.
-/

set_option autoImplicit false

namespace TwoLevel

/-- How far a formula has come through minimization. -/
inductive Phase where
  | complete
  | expanded
  | irredundant
  | reduced
  | minimized
deriving DecidableEq, Repr

namespace Phase

/-- The phases in the order in which a formula passes through them. -/
def all : List Phase := [.complete, .expanded, .irredundant, .reduced, .minimized]

/-- A phase is reported by its name in capitals. -/
def name : Phase → String
  | .complete => "COMPLETE"
  | .expanded => "EXPANDED"
  | .irredundant => "IRREDUNDANT"
  | .reduced => "REDUCED"
  | .minimized => "MINIMIZED"

end Phase

/-- The two ways to minimize: all prime implicants and a choice among them, or rounds of local
improvement. -/
inductive Algorithm where
  | quineMcCluskey
  | espresso
deriving DecidableEq, Repr

namespace Algorithm

/-- The engine of a session in which none was chosen. -/
def default : Algorithm := .quineMcCluskey

/-- Both engines. -/
def all : List Algorithm := [.quineMcCluskey, .espresso]

/-- The engine's name as it is shown. -/
def name : Algorithm → String
  | .quineMcCluskey => "Quine-McCluskey"
  | .espresso => "Espresso"

end Algorithm

end TwoLevel
