import TwoLevel.Cover.Tautology
import TwoLevel.Cover.ComplementCube
import TwoLevel.Cover.Cost

/-!
# The working cover

Espresso improves one cover in place, and remembers of each cube whether it is known to be prime, so
that a cube is expanded only once.  A cube that is reduced is not known to be prime any more.

Two of the three phases go through the cubes largest first.  Cubes of one size keep their order.
-/

set_option autoImplicit false

namespace TwoLevel.Espresso

variable {n : Nat}

/-- A cube of the working cover. -/
structure Marked (n : Nat) where
  /-- The cube. -/
  cube : Cube n
  /-- Whether it is known to be prime. -/
  prime : Bool
deriving DecidableEq

/-- The cubes of a working cover. -/
def cubes (f : List (Marked n)) : Cover n := f.map Marked.cube

/-- The working cover of some points, none known to be prime. -/
def ofPoints (xs : List (BitVec n)) : List (Marked n) := xs.map fun x ↦ ⟨Cube.minterm x, false⟩

/-- The working cover with larger cubes first.  Each cube is measured once, before the sorting. -/
def largestFirst (f : List (Marked n)) : List (Marked n) :=
  let measured := f.map fun m ↦ (m.cube.count .missing, m)
  (measured.mergeSort fun a b ↦ decide (b.1 ≤ a.1)).map (·.2)

/-- The cost of a working cover. -/
def cost (f : List (Marked n)) : Cost := Cost.ofCover (cubes f)

@[simp]
theorem length_cubes (f : List (Marked n)) : (cubes f).length = f.length := List.length_map _

/-- Sorting only rearranges. -/
theorem largestFirst_perm (f : List (Marked n)) : (largestFirst f).Perm f := by
  have h := (List.mergeSort_perm (f.map fun m ↦ (m.cube.count .missing, m))
    fun a b ↦ decide (b.1 ≤ a.1)).map (·.2)
  rwa [List.map_map, Function.comp_def, List.map_id'] at h

@[simp]
theorem length_largestFirst (f : List (Marked n)) : (largestFirst f).length = f.length :=
  (largestFirst_perm f).length_eq

end TwoLevel.Espresso
