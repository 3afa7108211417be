import TwoLevel.Cube.Points
import TwoLevel.Error

/-!
# Terms of any size

Where cubes come from outside, one at a time, their number of positions is part of the value.  A
`Term` is that number with a cube of that size, and this file is the gate: the constructors check
what they are given and say what is wrong with it.

Two terms can be put to the questions `implies` and `contains` even if their sizes differ.  The
shorter one is then read as if the positions it does not have were explicit zeros, which is what
comparing the two sets as numbers comes to.
-/

set_option autoImplicit false

namespace TwoLevel

/-- A cube together with its number of positions. -/
structure Term where
  /-- The number of positions. -/
  size : Nat
  /-- The literals. -/
  cube : Cube size
deriving DecidableEq

namespace Term

/-! ## Building terms -/

/-- The term with the given index and no missing positions. -/
def ofIndex (index size : Nat) : Except Error Term := do
  checkSize size
  if index < numPoints size then
    .ok ⟨size, Cube.minterm (BitVec.ofNat size index)⟩
  else .error (.invalidIndex index (numPoints size))

/-- The term with the given sets of positions, as numbers; a position in both is missing. -/
def ofMasks (literals missing size : Nat) : Except Error Term := do
  checkSize size
  if literals ||| missing < numPoints size then
    .ok ⟨size, Cube.ofMasks (BitVec.ofNat size literals) (BitVec.ofNat size missing)⟩
  else .error (.invalidPosition (literals ||| missing).log2 size)

/-- The term with every position missing. -/
def full (size : Nat) : Term := ⟨size, Cube.full size⟩

/-! ## Looking at terms -/

/-- The literal at a position, which has to be one of the term's. -/
def at? (t : Term) (position : Nat) : Except Error Literal :=
  if position < t.size then .ok (t.cube.value position)
  else .error (.invalidPosition position t.size)

/-! ## Two terms -/

/-- The one term that covers the points of both, where they have the same positions and differ in
exactly one explicit one. -/
def combine (a b : Term) : Option Term :=
  if h : b.size = a.size then (a.cube.combine (h ▸ b.cube)).map (⟨a.size, ·⟩) else none

/-- Whether the ones of two terms agree at every position not missing in the first. -/
def implies (a b : Term) : Bool :=
  ((a.cube.literals.toNat ^^^ b.cube.literals.toNat) ||| a.cube.missing.toNat)
    == a.cube.missing.toNat

/-- Whether what is missing in the second term is missing in the first, and the first implies the
second. -/
def contains (a b : Term) : Bool :=
  (b.cube.missing.toNat ||| a.cube.missing.toNat) == a.cube.missing.toNat && a.implies b

/-- Of one size, sets can be compared as numbers. -/
theorem subset_eq_beq_toNat {n : Nat} (x y : BitVec n) :
    ((x.toNat ||| y.toNat) == y.toNat) = Mask.subset x y := by
  rw [Mask.subset, Bool.eq_iff_iff, beq_iff_eq, beq_iff_eq, ← BitVec.toNat_inj, BitVec.toNat_or]

/-- Of two terms of one size, one implies the other if its cube does. -/
theorem implies_mk {n : Nat} (c d : Cube n) : implies ⟨n, c⟩ ⟨n, d⟩ = c.implies d := by
  rw [implies, Cube.implies, ← subset_eq_beq_toNat, BitVec.toNat_xor]

/-- Of two terms of one size, one contains the other if its cube does. -/
theorem contains_mk {n : Nat} (c d : Cube n) : contains ⟨n, c⟩ ⟨n, d⟩ = c.contains d := by
  rw [contains, Cube.contains, implies_mk, subset_eq_beq_toNat]

end Term

end TwoLevel
