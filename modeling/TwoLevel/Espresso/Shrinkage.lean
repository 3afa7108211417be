import TwoLevel.Espresso.Working

/-!
# REDUCE: cubes shrink to what only they cover

A cube is replaced by the least cube around those of its points that neither the other cubes nor the
don't cares cover.  Seen from inside the cube those points are the complement of the others, so the
least cube around a complement is what is wanted (`Cover.complementCube`); if there is no such point
the cube goes.

The cubes are taken largest first, each against the cubes before it as they are by then and those
after it as they still are.
-/

set_option autoImplicit false

namespace TwoLevel.Espresso

variable {n : Nat}

/-- The least cube around what a cube covers and a cover does not, if there is anything. -/
def reduceCube (others : Cover n) (c : Cube n) : Option (Cube n) :=
  (Cover.complementCube (Cover.cofactor others c)).bind c.inter

/-- Reduces the cubes still to be treated, each against the don't cares and all others. -/
def reduceFrom (d : Cover n) (treated : List (Marked n)) : List (Marked n) → List (Marked n)
  | [] => treated
  | m :: rest =>
    match reduceCube (cubes (treated ++ rest) ++ d) m.cube with
    | none => reduceFrom d treated rest
    | some c => reduceFrom d (treated ++ [if c = m.cube then m else ⟨c, false⟩]) rest

/-- Shrinks every cube as far as the cover of the explicit points allows. -/
def reduce (f : List (Marked n)) (d : Cover n) : List (Marked n) := reduceFrom d [] (largestFirst f)

theorem length_reduceFrom_le (d : Cover n) (treated todo : List (Marked n)) :
    (reduceFrom d treated todo).length ≤ treated.length + todo.length := by
  induction todo generalizing treated with
  | nil => simp [reduceFrom]
  | cons m rest ih =>
    rw [reduceFrom]
    split
    · have := ih treated
      simp only [List.length_cons]
      omega
    · next c _ =>
      have := ih (treated ++ [if c = m.cube then m else ⟨c, false⟩])
      simp only [List.length_append, List.length_cons, List.length_nil] at this ⊢
      omega

/-- Reduction adds no cubes. -/
theorem length_reduce_le (f : List (Marked n)) (d : Cover n) : (reduce f d).length ≤ f.length := by
  have := length_reduceFrom_le d [] (largestFirst f)
  rw [length_largestFirst, List.length_nil, Nat.zero_add] at this
  exact this

end TwoLevel.Espresso
