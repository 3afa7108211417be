import TwoLevel.Term.Basic
import TwoLevel.Proofs.Cover.ComplementCube

/-!
# Cubes as sets of points

Containment, intersection, supercube and cofactor are each a few word operations, and each treats a
missing position in its own way.  What they have in common is the set of points that a cube covers:
cubes of one size lie in each other as their sets of points do, the intersection is the greatest
cube below two others, if there is one, and the supercube the least above them.  The cofactor
forgets what the second cube fixes, and nothing more: met with that cube it is the intersection
again.

A cube is determined by its points (`ext_covers`).  So two ways of meeting cubes agree when they
leave the same points (`inter_congr`), and a supercube is the least cube around the points of two
cubes because every cube is the least around its own (`isHull_self`).
-/

set_option autoImplicit false

namespace TwoLevel.Cube

variable {n : Nat}

/-! ## The cube below two others -/

/-- Two cubes, either of which may be absent, are the same if they cover the same points. -/
theorem option_ext_covers {o o' : Option (Cube n)}
    (h : ∀ x, (∃ c, o = some c ∧ c.covers x = true) ↔ ∃ c, o' = some c ∧ c.covers x = true) :
    o = o' := by
  cases o with
  | none =>
    cases o' with
    | none => rfl
    | some d =>
      obtain ⟨c, hc, _⟩ := (h d.literals).2 ⟨d, rfl, d.covers_literals⟩
      cases hc
  | some c =>
    cases o' with
    | none =>
      obtain ⟨d, hd, _⟩ := (h c.literals).1 ⟨c, rfl, c.covers_literals⟩
      cases hd
    | some d =>
      refine congrArg some (ext_covers fun x ↦ ?_)
      simpa only [Option.some.injEq, exists_eq_left'] using h x

/-- Intersections with the same points are the same cube. -/
theorem inter_congr {a b c d : Cube n}
    (h : ∀ x, (a.covers x = true ∧ b.covers x = true) ↔ (c.covers x = true ∧ d.covers x = true)) :
    a.inter b = c.inter d :=
  option_ext_covers fun x ↦ by rw [covers_inter, covers_inter, h]

/-! ## The cube above two others -/

/-- A cube is the least one around the points it covers. -/
theorem isHull_self (c : Cube n) : IsHull (fun x ↦ c.covers x = true) (some c) := by
  refine ⟨⟨c.literals, c.covers_literals⟩, fun x hx ↦ hx, fun i hi hm v ↦ ?_⟩
  -- the cube covers the point of its ones, which has a zero at the missing position
  have hzero : c.literals.getLsbD i = false := literals_eq_false hm
  cases v with
  | false => exact ⟨c.literals, c.covers_literals, hzero⟩
  | true =>
    refine ⟨c.literals ^^^ Mask.bit i, covers_xor_bit c.covers_literals hm, ?_⟩
    rw [BitVec.getLsbD_xor, hzero, Mask.getLsbD_bit, decide_eq_true hi, decide_eq_true rfl]
    rfl

/-- **The supercube is the least cube around the points of both.** -/
theorem isLeastAround_supercube (a b : Cube n) :
    IsLeastAround (fun x ↦ a.covers x = true ∨ b.covers x = true) (a.supercube b) :=
  (isHull_supercube (isHull_self a) (isHull_self b)).isLeastAround

theorem contains_supercube {a b c : Cube n} (ha : c.contains a = true) (hb : c.contains b = true) :
    c.contains (a.supercube b) = true :=
  (isLeastAround_supercube a b).contained c fun x hx ↦
    hx.elim (contains_iff.1 ha x) (contains_iff.1 hb x)

/-! ## Cofactors -/

/-- There is something to see from inside a cube exactly when the two meet. -/
theorem isSome_cofactor (a b : Cube n) : (a.cofactor b).isSome = (a.inter b).isSome := by
  rw [cofactor, inter]
  split <;> rfl

/-- **Met with the cube it was taken by, a cofactor is the intersection.** -/
theorem inter_of_cofactor {a b c : Cube n} (h : a.cofactor b = some c) :
    c.inter b = a.inter b := by
  refine inter_congr fun x ↦ and_congr_left fun hx ↦ ?_
  rw [← covers_cofactor (c := a) hx, h]
  simp only [Option.some.injEq, exists_eq_left']

/-! ## The operations together -/

/-- The operations on two cubes do to the points they cover what their names say. -/
structure ActOnPoints (a b : Cube n) : Prop where
  /-- One cube contains the other exactly if it covers every point of it. -/
  contains_iff : a.contains b = true ↔ ∀ x, b.covers x = true → a.covers x = true
  /-- The comparison of the two as terms is the one as cubes. -/
  contains_mk : Term.contains ⟨n, a⟩ ⟨n, b⟩ = a.contains b
  /-- There is no intersection exactly if no point is in both. -/
  inter_eq_none_iff : a.inter b = none ↔ ∀ x, ¬(a.covers x = true ∧ b.covers x = true)
  /-- An intersection covers the points that are in both. -/
  covers_inter : ∀ c, a.inter b = some c →
    ∀ x, c.covers x = true ↔ a.covers x = true ∧ b.covers x = true
  /-- The supercube contains the first cube. -/
  supercube_contains_left : (a.supercube b).contains a = true
  /-- The supercube contains the second cube. -/
  supercube_contains_right : (a.supercube b).contains b = true
  /-- Every cube that contains both contains the supercube. -/
  contains_supercube : ∀ c : Cube n, c.contains a = true → c.contains b = true →
    c.contains (a.supercube b) = true
  /-- There is a cofactor exactly if there is an intersection. -/
  isSome_cofactor : (a.cofactor b).isSome = (a.inter b).isSome
  /-- Met with the cube it was taken by, a cofactor is the intersection. -/
  inter_cofactor : ∀ c, a.cofactor b = some c → c.inter b = a.inter b

/-- **The operations on cubes are those on their sets of points**, for any two cubes of one size. -/
theorem actOnPoints (a b : Cube n) : ActOnPoints a b where
  contains_iff := contains_iff
  contains_mk := Term.contains_mk a b
  inter_eq_none_iff := inter_eq_none_iff
  covers_inter _ := covers_of_inter
  supercube_contains_left := supercube_contains_left a b
  supercube_contains_right := supercube_contains_right a b
  contains_supercube _ := contains_supercube
  isSome_cofactor := isSome_cofactor a b
  inter_cofactor _ := inter_of_cofactor

-- `1--` and `-0-` meet in `10-`, and `---` is the least cube around them; from inside the second
-- the first is still `1--`.
example : (ofMasks 4#3 3#3).inter (ofMasks 0#3 5#3) = some (ofMasks 4#3 1#3) ∧
    (ofMasks 4#3 3#3).supercube (ofMasks 0#3 5#3) = full 3 ∧
    (ofMasks 4#3 3#3).cofactor (ofMasks 0#3 5#3) = some (ofMasks 4#3 3#3) := by
  decide

end TwoLevel.Cube
