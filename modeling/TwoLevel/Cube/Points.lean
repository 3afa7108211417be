import TwoLevel.Cube.Lemmas
import TwoLevel.Distinct

/-!
# The points of a cube

Three ways of taking a cube apart.

* `Cube.points` lists the covered points by recursion on the missing positions: the lowest one is
  set to zero, then to one, and each time the rest follows.  So the lowest missing position changes
  slowest and the highest fastest.
* `Expansion` is the same list produced on demand.  A cube with thirty missing positions has too
  many points to list, but the first few can be had at once: the state is a counter, and the bits
  of the counter, most significant first, are the values of the missing positions, lowest first.
* `Cube.without c x` is the cube less one of its points, as one cube for every missing position:
  the `i`-th agrees with the point at the missing positions before the `i`-th and differs there.

`sortedPoints` puts the points of many cubes into increasing order, each once; that list is how a
function is written down whatever cubes it is stored as.
-/

set_option autoImplicit false

namespace TwoLevel

variable {n : Nat}

namespace Cube

/-! ## All points -/

/-- The points that agree with `x` outside the given positions. -/
def pointsFrom : List Nat → BitVec n → List (BitVec n)
  | [], x => [x]
  | i :: is, x => pointsFrom is x ++ pointsFrom is (x ||| Mask.bit i)

/-- The covered points, the lowest missing position changing slowest. -/
def points (c : Cube n) : List (BitVec n) := pointsFrom (Mask.positions c.missing) c.literals

theorem length_pointsFrom (is : List Nat) (x : BitVec n) :
    (pointsFrom is x).length = numPoints is.length := by
  induction is generalizing x with
  | nil => rfl
  | cons i is ih =>
    rw [pointsFrom, List.length_append, ih, ih, List.length_cons, numPoints_succ]

/-- A cube has as many points as there are ways to fill its missing positions. -/
theorem length_points (c : Cube n) : c.points.length = numPoints (c.count .missing) :=
  length_pointsFrom _ _

/-! ## One point less -/

/-- The parts of a cube without one of its points, for the missing positions still to be treated;
the earlier ones are already set as in the point. -/
def withoutFrom (x : BitVec n) : List Nat → Cube n → List (Cube n)
  | [], _ => []
  | i :: is, c => c.assign i (!x.getLsbD i) :: withoutFrom x is (c.assign i (x.getLsbD i))

/-- Disjoint cubes that cover what the cube covers apart from the point `x`, one for each missing
position. -/
def without (c : Cube n) (x : BitVec n) : List (Cube n) :=
  withoutFrom x (Mask.positions c.missing) c

theorem length_withoutFrom (x : BitVec n) (is : List Nat) (c : Cube n) :
    (withoutFrom x is c).length = is.length := by
  induction is generalizing c with
  | nil => rfl
  | cons i is ih => simp [withoutFrom, ih]

theorem length_without (c : Cube n) (x : BitVec n) :
    (c.without x).length = c.count .missing :=
  length_withoutFrom _ _ _

end Cube

/-! ## Points on demand -/

/-- A cube whose points are being listed, and how many have been. -/
structure Expansion (n : Nat) where
  /-- The cube whose points are listed. -/
  cube : Cube n
  /-- How many points have been produced. -/
  next : Nat

namespace Expansion

/-- The expansion of a cube, with nothing produced yet. -/
def ofCube (c : Cube n) : Expansion n := ⟨c, 0⟩

/-- The bits of a counter put at the given positions, the most significant bit first. -/
def scatter (counter : Nat) : List Nat → BitVec n
  | [] => 0#n
  | i :: is => (if counter.testBit is.length then Mask.bit i else 0#n) ||| scatter counter is

/-- The number of points still to come. -/
def length (e : Expansion n) : Nat := numPoints (e.cube.count .missing) - e.next

/-- The next point, and the expansion after it. -/
def next? (e : Expansion n) : Option (BitVec n × Expansion n) :=
  if e.length = 0 then none
  else some (e.cube.literals ||| scatter e.next (Mask.positions e.cube.missing),
    { e with next := e.next + 1 })

/-- At most `k` further points, and the expansion after them. -/
def take (e : Expansion n) : Nat → List (BitVec n) × Expansion n
  | 0 => ([], e)
  | k + 1 =>
    match e.next? with
    | none => ([], e)
    | some (x, rest) => ((x :: (rest.take k).1), (rest.take k).2)

end Expansion

/-! ## The points of many cubes in order -/

/-- Points in increasing order, each once. -/
def sortPoints (xs : List (BitVec n)) : List (BitVec n) :=
  dedupNeighbours (xs.mergeSort fun x y ↦ decide (x.toNat ≤ y.toNat))

/-- The points that some cube of the list covers, in increasing order. -/
def sortedPoints (cubes : List (Cube n)) : List (BitVec n) := sortPoints (cubes.flatMap Cube.points)

@[simp]
theorem mem_sortPoints {x : BitVec n} {xs : List (BitVec n)} : x ∈ sortPoints xs ↔ x ∈ xs := by
  rw [sortPoints, mem_dedupNeighbours, List.mem_mergeSort]

/-- Sorted points are strictly increasing. -/
theorem sortPoints_increasing (xs : List (BitVec n)) :
    (sortPoints xs).Pairwise fun x y ↦ x.toNat < y.toNat := by
  refine (pairwise_dedupNeighbours ?_ (pairwise_mergeSort_key BitVec.toNat xs)).imp fun {x y} h ↦ ?_
  · intro a b hab hba
    exact BitVec.eq_of_toNat_eq (Nat.le_antisymm hab hba)
  · exact Nat.lt_of_le_of_ne h.1 fun heq ↦ h.2 (BitVec.eq_of_toNat_eq heq)

/-- Every point of the space, in increasing order. -/
def allPoints (n : Nat) : List (BitVec n) := (List.range (numPoints n)).map (BitVec.ofNat n)

@[simp]
theorem mem_allPoints (x : BitVec n) : x ∈ allPoints n :=
  List.mem_map.2 ⟨x.toNat, List.mem_range.2 x.isLt, by simp⟩

end TwoLevel
