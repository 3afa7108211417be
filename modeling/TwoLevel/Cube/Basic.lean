import TwoLevel.Mask
import TwoLevel.Form

/-!
# Cubes

A **cube** over `n` variables fixes some positions to zero or one and leaves the others missing.
It stands for the set of *points* that agree with it, a point being a full assignment, `BitVec n`,
whose bit `i` is the value of position `i`.  Position `0` is the least significant.

A cube is two sets of positions: the `literals` that are one, and the `missing` ones.  A missing
position is never also a one; that is the field `disjoint`, so two cubes with the same literal at
every position are the same cube (`Cube.ext_value`, in `Cube/Lemmas.lean`), and equality, hashing
and look-up need no normal form.

Membership of a point is `Cube.covers`.  Every operation below is described by what it does to the
covered points; those statements are in `Cube/Lemmas.lean` too.

What is here, for cubes of one size:

* constructors: `ofMasks`, `full`, `halfSpace`, `minterm`;
* the view: `value`, `count`, `literalCount`, `index?`, `isFull`, `covers`;
* relations: `implies`, `contains`;
* operations: `combine`, `inter`, `cofactor`, `supercube`, `keep`, `negate`, `assign`.
-/

set_option autoImplicit false

namespace TwoLevel

section

/-- The power of natural numbers.  Where Mathlib is imported, `2 ^ n` would be that of a monoid. -/
local instance (priority := 2000) powerOfNat : Pow Nat Nat := instPowNat

/-- The number of points over `n` positions. -/
def numPoints (n : Nat) : Nat := 2 ^ n

end

theorem numPoints_succ (n : Nat) : numPoints (n + 1) = numPoints n + numPoints n :=
  Nat.mul_two (numPoints n)

/-- An index of the space is the one of its point. -/
theorem toNat_ofNat_of_lt {n index : Nat} (h : index < numPoints n) :
    (BitVec.ofNat n index).toNat = index := by
  rw [BitVec.toNat_ofNat]
  exact Nat.mod_eq_of_lt h

/-- A product of literals over `n` positions: those in `missing` are free, and of the others those
in `literals` are one and the rest zero. -/
structure Cube (n : Nat) where
  /-- The positions that are one. -/
  literals : BitVec n
  /-- The positions that may be either. -/
  missing : BitVec n
  /-- No position is both. -/
  disjoint : literals &&& missing = 0#n
deriving DecidableEq

namespace Cube

variable {n : Nat}

instance : Hashable (Cube n) where
  hash c := mixHash (hash c.literals) (hash c.missing)

/-! ## Building cubes -/

/-- The cube with the given sets; a position in both is missing. -/
def ofMasks (literals missing : BitVec n) : Cube n where
  literals := Mask.diff literals missing
  missing := missing
  disjoint := Mask.diff_and_self literals missing

/-- The cube with every position missing, which covers every point. -/
def full (n : Nat) : Cube n where
  literals := 0#n
  missing := BitVec.allOnes n
  disjoint := by simp

/-- The points with the given value at one position. -/
def halfSpace (position : Nat) (value : Bool) : Cube n :=
  ofMasks (if value then Mask.bit position else 0#n)
    (Mask.diff (BitVec.allOnes n) (Mask.bit position))

/-- The cube that covers one point. -/
def minterm (x : BitVec n) : Cube n where
  literals := x
  missing := 0#n
  disjoint := by simp

/-! ## Looking at cubes -/

/-- The positions that are not missing. -/
def care (c : Cube n) : BitVec n := Mask.diff (BitVec.allOnes n) c.missing

/-- The positions that are zero. -/
def zeros (c : Cube n) : BitVec n := Mask.diff c.care c.literals

/-- The literal at a position. -/
def value (c : Cube n) (position : Nat) : Literal :=
  if c.missing.getLsbD position then .missing
  else if c.literals.getLsbD position then .one
  else .zero

/-- The number of positions with the given literal. -/
def count (c : Cube n) : Literal → Nat
  | .zero => Mask.count c.zeros
  | .one => Mask.count c.literals
  | .missing => Mask.count c.missing

/-- The number of positions that are not missing. -/
def literalCount (c : Cube n) : Nat := Mask.count c.care

/-- The only point of a cube without missing positions. -/
def index? (c : Cube n) : Option (BitVec n) :=
  if c.missing = 0#n then some c.literals else none

/-- Whether every position is missing. -/
def isFull (c : Cube n) : Bool := c.missing == BitVec.allOnes n

/-- Whether a point agrees with the cube at every position that is not missing. -/
def covers (c : Cube n) (x : BitVec n) : Bool := Mask.subset (c.literals ^^^ x) c.missing

/-! ## Relations -/

/-- Whether the ones of two cubes agree at every position not missing in the first.  For a second
cube without missing positions this is membership of its point; a missing position of the second
cube counts as a zero. -/
def implies (c d : Cube n) : Bool := Mask.subset (c.literals ^^^ d.literals) c.missing

/-- Whether the first cube covers every point of the second. -/
def contains (c d : Cube n) : Bool := Mask.subset d.missing c.missing && c.implies d

/-- The positions at which two cubes have opposite literals. -/
def conflicts (c d : Cube n) : BitVec n :=
  Mask.diff (c.literals ^^^ d.literals) (c.missing ||| d.missing)

/-! ## Operations -/

/-- The one cube that covers the points of both, where the two differ in exactly one explicit
position. -/
def combine (c d : Cube n) : Option (Cube n) :=
  if c.missing = d.missing ∧ Mask.count (c.conflicts d) = 1 then
    some (ofMasks c.literals (c.missing ||| c.conflicts d))
  else none

/-- The cube of the points in both, if there is any. -/
def inter (c d : Cube n) : Option (Cube n) :=
  if c.conflicts d = 0#n then
    some (ofMasks (c.literals ||| d.literals) (c.missing &&& d.missing))
  else none

/-- The first cube seen from inside the second: what the second fixes becomes missing.  There is
nothing to see if they have no point in common. -/
def cofactor (c d : Cube n) : Option (Cube n) :=
  if c.conflicts d = 0#n then some (ofMasks c.literals (c.missing ||| d.care)) else none

/-- The least cube that contains both. -/
def supercube (c d : Cube n) : Cube n :=
  ofMasks c.literals (c.missing ||| d.missing ||| (c.literals ^^^ d.literals))

/-- The cube with every position outside the given set made missing. -/
def keep (c : Cube n) (kept : BitVec n) : Cube n :=
  ofMasks c.literals (c.missing ||| Mask.diff (BitVec.allOnes n) kept)

/-- The cube with the opposite literal at every explicit position. -/
def negate (c : Cube n) : Cube n := ofMasks c.zeros c.missing

/-- The cube with one position set to a value. -/
def assign (c : Cube n) (position : Nat) (value : Bool) : Cube n :=
  ofMasks
    (if value then c.literals ||| Mask.bit position else Mask.diff c.literals (Mask.bit position))
    (Mask.diff c.missing (Mask.bit position))

end Cube

end TwoLevel
