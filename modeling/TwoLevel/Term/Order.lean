import TwoLevel.Term.Basic

/-!
# The order of terms

A term comes before another if its list of covered indices does, both lists being increasing and
compared index by index, and of two terms with the same list the shorter one comes first.

None of the lists has to be made for that.  They start with the least covered index, at which every
missing position is zero.  If they start alike, the next index of each comes from its lowest missing
position, and if that is the same too, the lists stay in step until the second lowest position comes
into play, and so on; a term that runs out of positions has the shorter list.  So the missing
positions, lowest first, are compared instead of the indices, and a term that covers a million
points costs no more than one that covers two.  That the two comparisons agree is
`compare_eq_compare_covered`, in `Term/Covered.lean`.
-/

set_option autoImplicit false

namespace TwoLevel.Term

/-- The least index a term covers. -/
def leastIndex (t : Term) : Nat := t.cube.literals.toNat

/-- The missing positions of a term, lowest first. -/
def missingPositions (t : Term) : List Nat := Mask.positions t.cube.missing

/-- Comparison by least covered index, then by missing positions, then by size. -/
def compare (a b : Term) : Ordering :=
  (Ord.compare a.leastIndex b.leastIndex).then <|
    (Ord.compare a.missingPositions b.missingPositions).then (Ord.compare a.size b.size)

/-- The terms in increasing order. -/
def sort (ts : List Term) : List Term := ts.mergeSort fun a b ↦ (compare a b).isLE

end TwoLevel.Term
