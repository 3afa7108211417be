import TwoLevel.Cover.Basic

/-!
# The least cube around the complement

`Cover.complementCube` is the least cube that contains every point a cover misses, or nothing if
it misses none.  The complement itself, which may need many cubes, is never formed.

* A cover without cubes misses everything, and one with the full cube nothing.
* A unate cover without the full cube always misses something, and the missed points are confined
  at a position only by a cube that has no other literal: the least cube is the full one with each
  of those literals negated.
* Otherwise the cover is split on its best binate position, the two answers are put back into their
  halves, and the least cube around both is the answer.
-/

set_option autoImplicit false

namespace TwoLevel.Cover

variable {n : Nat}

/-- The least cube around the complement of a unate cover without the full cube: the negated
literals of its one-literal cubes. -/
def unateComplementCube (f : Cover n) : Cube n :=
  (f.filter fun c ↦ c.literalCount == 1).foldl
    (fun acc c ↦ (acc.inter c.negate).getD acc) (Cube.full n)

/-- The least cube around what lies in one of two parts, each with its own least cube. -/
def joinParts : Option (Cube n) → Option (Cube n) → Option (Cube n)
  | some a, some b => some (a.supercube b)
  | some a, none => some a
  | none, b => b

/-- The least cube that contains every point the cover misses, if it misses any. -/
def complementCube (f : Cover n) : Option (Cube n) :=
  if f.isEmpty then some (Cube.full n)
  else if f.any Cube.isFull then none
  else
    match _h : f.binateSelect with
    | none => some f.unateComplementCube
    | some i =>
      joinParts
        ((complementCube (f.cofactor (Cube.halfSpace i false))).bind
          (·.inter (Cube.halfSpace i false)))
        ((complementCube (f.cofactor (Cube.halfSpace i true))).bind
          (·.inter (Cube.halfSpace i true)))
termination_by f.totalLiterals
decreasing_by
  · exact totalLiterals_lt_of_binateSelect _h false
  · exact totalLiterals_lt_of_binateSelect _h true

end TwoLevel.Cover
