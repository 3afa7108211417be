import TwoLevel.Cover.Basic
import TwoLevel.Term.Basic

/-!
# The cost of a cover

Of two covers the one with fewer cubes is cheaper, and of two with as many the one whose cubes are
larger, that is, have more missing positions between them.
-/

set_option autoImplicit false

namespace TwoLevel

/-- What a cover costs. -/
structure Cost where
  /-- The number of cubes. -/
  cubes : Nat
  /-- The number of missing positions in all cubes together. -/
  missing : Nat
deriving DecidableEq, Repr

namespace Cost

/-- The cost of a cover. -/
def ofCover {n : Nat} (f : Cover n) : Cost where
  cubes := f.length
  missing := f.foldr (fun c total ↦ c.count .missing + total) 0

/-- The cost of terms, whatever their sizes. -/
def ofTerms (ts : List Term) : Cost where
  cubes := ts.length
  missing := ts.foldr (fun t total ↦ t.cube.count .missing + total) 0

/-- The cheaper cost is the smaller. -/
def compare (a b : Cost) : Ordering :=
  (Ord.compare a.cubes b.cubes).then (Ord.compare b.missing a.missing)

/-- Whether the first cost is no more than the second. -/
def noMoreThan (a b : Cost) : Bool := (a.compare b).isLE

/-- The text of a cost. -/
def text (c : Cost) : String :=
  toString c.cubes ++ " cubes, " ++ toString c.missing ++ " missing"

end Cost

end TwoLevel
