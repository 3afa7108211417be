import TwoLevel.Cube.Points
import Std.Data.HashMap

/-!
# Implicants, level by level

The implicants of a function are the cubes all of whose points are explicit or don't cares.  They
are found from the bottom: level `0` holds the points themselves, and level `m + 1` the cubes that
combine two of level `m`, so that a cube with `m` missing positions is on level `m`.  What combines
with nothing on its level cannot be made larger; the *prime* implicants are those.

**Pairing.**  Two cubes combine when they have the same missing positions and differ in exactly one
explicit one.  A level is divided into *cells* by the number of counted literals, ones in a sum of
products and zeros in a product of sums, and partners are always in neighbouring cells.  Instead of
trying every pair, each cube of a cell has its other literals turned round one at a time, and the
results are looked up in the next cell (`partners`).  Those that are there are taken in the order
of that cell, so the pairs come out in the order in which trying all of them would find them.

`Level.pairs` is that list of pairs, and everything else is read off it: the cubes of the next
level in the order in which they are first found (`Level.next`), and the primes of the level
(`Level.primes`).
-/

set_option autoImplicit false

namespace TwoLevel

variable {n : Nat}

/-! ## Levels -/

/-- The cubes of one level, with the pairs of them that combine. -/
structure Level (n : Nat) where
  /-- The cubes, in the order in which they were found. -/
  cubes : List (Cube n)
  /-- The pairs that combine, in the order in which they are found. -/
  pairs : List (Cube n × Cube n)

namespace Level

/-- The cubes with a given number of counted literals. -/
def cell (counted : Literal) (cubes : List (Cube n)) (k : Nat) : List (Cube n) :=
  cubes.filter fun c ↦ c.count counted == k

/-- Where each cube of a cell stands in it. -/
def places (cell : List (Cube n)) : Std.HashMap (Cube n) Nat := Std.HashMap.ofList cell.zipIdx

/-- The cubes that come from a cube by turning one literal into a counted one. -/
def raised (counted : Literal) (c : Cube n) : List (Cube n) :=
  ((List.range n).filter fun i ↦ c.value i != counted && c.value i != .missing).map
    fun i ↦ c.assign i (counted == .one)

/-- The cubes of the next cell that combine with a cube, in the order of that cell. -/
def partners (counted : Literal) (places : Std.HashMap (Cube n) Nat) (c : Cube n) :
    List (Cube n) :=
  let found := (raised counted c).filterMap fun d ↦ (places[d]?).map fun place ↦ (place, d)
  (found.mergeSort fun a b ↦ decide (a.1 ≤ b.1)).map (·.2)

/-- The pairs whose first cube is in cell `k`. -/
def pairsOfCell (counted : Literal) (cubes : List (Cube n)) (k : Nat) :
    List (Cube n × Cube n) :=
  let next := places (cell counted cubes (k + 1))
  (cell counted cubes k).flatMap fun c ↦ (partners counted next c).map fun d ↦ (c, d)

/-- The level with the given cubes. -/
def ofCubes (counted : Literal) (cubes : List (Cube n)) : Level n where
  cubes := cubes
  pairs := (List.range n).flatMap (pairsOfCell counted cubes)

/-- The cubes that are in some pair. -/
def combined (level : Level n) : Std.HashSet (Cube n) :=
  Std.HashSet.ofList (level.pairs.flatMap fun p ↦ [p.1, p.2])

/-- The cubes that are in no pair. -/
def primes (level : Level n) : List (Cube n) :=
  let combined := level.combined
  level.cubes.filter fun c ↦ !combined.contains c

/-- The cubes of the next level. -/
def next (level : Level n) : List (Cube n) :=
  firsts (level.pairs.filterMap fun p ↦ p.1.combine p.2)

end Level

/-! ## All levels -/

/-- The levels from one with the given cubes upwards, until one is empty; each further level has
one missing position more, so there are at most as many as there are positions. -/
def levelsFrom (counted : Literal) : Nat → List (Cube n) → List (Level n)
  | 0, cubes => [Level.ofCubes counted cubes]
  | k + 1, cubes =>
    let level := Level.ofCubes counted cubes
    match level.next with
    | [] => [level]
    | next => level :: levelsFrom counted k next

/-- The levels of implicants over the given points. -/
def implicantLevels (counted : Literal) (xs : List (BitVec n)) : List (Level n) :=
  levelsFrom counted n ((sortPoints xs).map Cube.minterm)

/-- The prime implicants on the given levels, the lowest level first. -/
def primesOf (levels : List (Level n)) : List (Cube n) := levels.flatMap Level.primes

end TwoLevel
