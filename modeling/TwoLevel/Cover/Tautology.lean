import TwoLevel.Cover.Basic

/-!
# Does a cover cover everything?

A cover without cubes does not, and one with the full cube does.  A unate cover without the full
cube does not either: the point that goes against every column is missed by every cube.  What is
left is split on the lowest position that any cube mentions, and covers everything exactly when
both of its halves do.  Each split loses a literal, so the splitting ends.
-/

set_option autoImplicit false

namespace TwoLevel.Cover

variable {n : Nat}

/-- Whether the cubes together cover every point. -/
def isTautology (f : Cover n) : Bool :=
  if f.isEmpty then false
  else if f.any Cube.isFull then true
  else if f.isUnate then false
  else
    match _h : f.firstMeaningful? with
    | none => true
    | some i =>
      isTautology (f.cofactor (Cube.halfSpace i false))
        && isTautology (f.cofactor (Cube.halfSpace i true))
termination_by f.totalLiterals
decreasing_by
  · exact totalLiterals_lt_of_firstMeaningful? _h false
  · exact totalLiterals_lt_of_firstMeaningful? _h true

end TwoLevel.Cover
